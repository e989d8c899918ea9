import Cppev.Reactor.Callback
import Cppev.Reactor.Run

/-!
# The stages of a connection

As long as no callback closes it, a connection is in one of three stages whenever control is in the
loop: handed over (`pending`), taken over (`live`) and let go of (`gone`). Which handlers the table
holds, what epoll waits for and which handlers can be queued follows from the stage (`At`).

* `StageInv.localInv`: an invariant `H stage` of the private parts of a connection needs one
  obligation for each handler.
* `Busy.exec`: a callback leaves the table alone, and moves the interest of epoll between reading
  and writing; it throws what `write` throws, or what `epoll_ctl` throws for a descriptor that epoll
  does not know.
-/

namespace Cppev

/-! ## Stages -/

inductive Stage where
  | pending | live | gone
  deriving DecidableEq, Repr

/-- What the table holds for a connection that has been taken over. -/
def fullTable : List (IoHandler × FdEvent) :=
  [(.onWritable, .fdWritable), (.onReadable, .fdReadable)]

/-- What epoll waits for. -/
abbrev forReadable : Option EpollEvents := some (fdMapToSys .fdReadable)

abbrev forWritable : Option EpollEvents := some (fdMapToSys .fdWritable)

namespace Conn

/-- The queue holds nothing but `h`, once. -/
def AtMost (v : Conn) (h : IoHandler) : Prop := v.queued = [] ∨ v.queued = [h]

/-- The table, the interest and the queue in each stage. -/
def At : Stage → Conn → Prop
  | .pending, v =>
    v.closed = false ∧ v.interest = forWritable ∧
      ∃ origin : Origin, v.handlers = [(origin.initHandler, .fdWritable)] ∧
        v.AtMost origin.initHandler
  | .live, v =>
    v.closed = false ∧ v.handlers = fullTable ∧
      (v.interest = forReadable ∧ v.AtMost .onReadable ∨
        v.interest = forWritable ∧ v.AtMost .onWritable)
  | .gone, v => v.interest = none ∧ v.handlers = [] ∧ v.queued = []

theorem At.newborn {v : Conn} (h : Newborn v) : At .pending v := by
  obtain ⟨origin, ho, -⟩ := h.origin
  exact ⟨h.flags.2.2.2, h.interest, origin, ho, .inl h.queued⟩

/-- Events that epoll may report do not change the stage. -/
theorem At.ready {st : Stage} {v : Conn} (h : At st v) (hq : v.queued = [])
    {interest ev : EpollEvents} (hint : v.interest = some interest)
    (hrep : interest.reportable ev = true) : At st (v.ready ev) := by
  cases st with
  | pending =>
      obtain ⟨hcl, hint', origin, htable, -⟩ := h
      refine ⟨hcl, hint', origin, htable, ?_⟩
      cases hev : ev.epollout <;>
        simp [AtMost, Conn.ready, hq, htable, fdMapToEvent, FdEvent.meets, FdEvent.fdWritable, hev]
  | live =>
      obtain ⟨hcl, htable, ⟨hint', -⟩ | ⟨hint', -⟩⟩ := h
      -- epoll reports only what it has been asked for, so only one of the two handlers is queued
      · obtain rfl : fdMapToSys .fdReadable = interest := Option.some.inj (hint'.symm.trans hint)
        have hout : ev.epollout = false := by
          simpa [EpollEvents.reportable, fdMapToSys, FdEvent.fdReadable] using hrep
        refine ⟨hcl, htable, .inl ⟨hint', ?_⟩⟩
        cases hev : ev.epollin <;>
          simp [AtMost, Conn.ready, hq, htable, fullTable, fdMapToEvent, FdEvent.meets,
            FdEvent.fdWritable, FdEvent.fdReadable, hev, hout]
      · obtain rfl : fdMapToSys .fdWritable = interest := Option.some.inj (hint'.symm.trans hint)
        have hin : ev.epollin = false := by
          simpa [EpollEvents.reportable, fdMapToSys, FdEvent.fdWritable] using hrep
        refine ⟨hcl, htable, .inr ⟨hint', ?_⟩⟩
        cases hev : ev.epollout <;>
          simp [AtMost, Conn.ready, hq, htable, fullTable, fdMapToEvent, FdEvent.meets,
            FdEvent.fdWritable, FdEvent.fdReadable, hev, hin]
  | gone => exact nomatch h.1.symm.trans hint

/-- A queue that holds nothing but `h'` gives back `h'`, and is empty then. -/
theorem AtMost.pop {v : Conn} {h h' : IoHandler} {pre post : List IoHandler} (hv : v.AtMost h')
    (hq : v.queued = pre ++ h :: post) : h = h' ∧ pre ++ post = [] := by
  rcases hv with hnil | hone
  · simp [hnil] at hq
  · rw [hone] at hq
    rcases pre with _ | ⟨x, pre⟩ <;> simp_all

/-- Within a handler: the table holds `table`, and epoll knows the descriptor or not. -/
structure Busy (table : List (IoHandler × FdEvent)) (polled : Bool) (v : Conn) : Prop where
  closed : v.closed = false
  handlers : v.handlers = table
  queued : v.queued = []
  interest : if polled then v.interest = forReadable ∨ v.interest = forWritable
    else v.interest = none

/-- Where a handler begins. -/
@[simps] def started (v : Conn) (env : Env) : Conn := { v with queued := [], script := env.script }

end Conn

open Conn

/-! ## Invariants by stages

To show something of every connection at all times, it is enough to show for each handler that it
leads from a stage to a stage. The queue has one handler for each connection at most, the one that
its stage allows for. -/

/-- `H` is kept by each handler, from the stage in which it can run to the stage it leaves. -/
structure StageInv (ok : Conn → IoHandler → Env → Prop) (H : Stage → Conn → Prop)
    (J : Conn → Prop) (F : Exn → Prop) : Prop where
  newborn : ∀ v, Newborn v → H .pending v
  ready : ∀ st v ev, H st v → H st (v.ready ev)
  destroyed : ∀ v, H .gone v → H .gone v.destroyed
  weaken : ∀ st v, H st v → J v
  onReadable : ∀ v env, Busy fullTable true (v.started env) → v.interest = forReadable →
    H .live v → ok v .onReadable env →
    (Conn.handle .onReadable env).wp (fun _ v' => ∃ st, At st v' ∧ H st v')
      (Thrown F J) (v.started env)
  onWritable : ∀ v env, Busy fullTable true (v.started env) → v.interest = forWritable →
    H .live v → ok v .onWritable env →
    (Conn.handle .onWritable env).wp (fun _ v' => ∃ st, At st v' ∧ H st v')
      (Thrown F J) (v.started env)
  initHandler : ∀ v env (origin : Origin),
    Busy [(origin.initHandler, .fdWritable)] true (v.started env) → H .pending v →
    ok v origin.initHandler env →
    (Conn.handle origin.initHandler env).wp (fun _ v' => ∃ st, At st v' ∧ H st v')
      (Thrown F J) (v.started env)

theorem StageInv.localInv {ok : Conn → IoHandler → Env → Prop} {H : Stage → Conn → Prop}
    {J : Conn → Prop} {F : Exn → Prop} (hs : StageInv ok H J F) :
    LocalInv ok (fun v => ∃ st, At st v ∧ H st v) J F where
  newborn v h := ⟨.pending, .newborn h, hs.newborn v h⟩
  ready := by
    rintro v interest ev ⟨st, hat, hH⟩ hq hint hrep
    exact ⟨st, hat.ready hq hint hrep, hs.ready st v ev hH⟩
  handler := by
    rintro v pre h post env ⟨st, hat, hH⟩ hq hok
    cases st with
    | pending =>
        obtain ⟨hcl, hint, origin, htable, hmost⟩ := hat
        obtain ⟨rfl, hnil⟩ := hmost.pop hq
        rw [hnil]
        exact hs.initHandler v env origin ⟨hcl, htable, rfl, .inr hint⟩ hH hok
    | live =>
        obtain ⟨hcl, htable, ⟨hint, hmost⟩ | ⟨hint, hmost⟩⟩ := hat
        · obtain ⟨rfl, hnil⟩ := hmost.pop hq
          rw [hnil]
          exact hs.onReadable v env ⟨hcl, htable, rfl, .inl hint⟩ hint hH hok
        · obtain ⟨rfl, hnil⟩ := hmost.pop hq
          rw [hnil]
          exact hs.onWritable v env ⟨hcl, htable, rfl, .inr hint⟩ hint hH hok
    | gone => exact absurd hq (by simp [hat.2.2])
  destroyed := by
    rintro v ⟨st, hat, hH⟩ hnil hq hcl
    cases st with
    | pending =>
        obtain ⟨-, -, origin, htable, -⟩ := hat
        exact nomatch hnil.symm.trans htable
    | live => exact nomatch hnil.symm.trans hat.2.1
    | gone => exact ⟨.gone, ⟨rfl, hnil, hq⟩, hs.destroyed v hH⟩
  weaken := by
    rintro v ⟨st, -, hH⟩
    exact hs.weaken st v hH

/-! ## Callbacks that do not close

They leave the table and the interest of epoll as they are, up to what `async_write` does. -/

/-- Thrown by `read` or by `write`. -/
def Exn.OfStream (e : Exn) : Prop :=
  ∃ errno, e = .systemError "read error" errno ∨ e = .systemError "write error" errno

/-- Thrown by `epoll_ctl` for a descriptor that is not in the epoll set. -/
def Exn.NotPolled (e : Exn) : Prop :=
  ∃ fd : Int, e = .systemError ("epoll_ctl del error for fd " ++ toString fd) .ENOENT

theorem ofStream_readThrown {halt : Halt} {e : Exn} (h : Nstream.readThrown halt = .error e) :
    e.OfStream := by
  cases halt with
  | failed n =>
      obtain rfl : Exn.systemError "read error" n = e := by simpa [Nstream.readThrown] using h
      exact ⟨n, .inl rfl⟩
  | _ => cases h

theorem ofStream_thrown {stop : Stop} {e : Exn} (h : Nstream.thrown stop = .error e) :
    e.OfStream := by
  cases stop with
  | failed n =>
      obtain rfl : Exn.systemError "write error" n = e := by simpa [Nstream.thrown] using h
      exact ⟨n, .inr rfl⟩
  | _ => cases h

namespace Conn

/-- What a callback that does not close can throw. -/
def CbFault (polled : Bool) (e : Exn) : Prop := e.OfStream ∨ polled = false ∧ e.NotPolled

variable {table : List (IoHandler × FdEvent)} {polled : Bool}

/-- Any change that leaves these fields alone. -/
theorem Busy.congr {v v' : Conn} (h : Busy table polled v) (hcl : v'.closed = v.closed)
    (ht : v'.handlers = v.handlers) (hq : v'.queued = v.queued) (hi : v'.interest = v.interest) :
    Busy table polled v' := by
  refine ⟨hcl.trans h.closed, ht.trans h.handlers, hq.trans h.queued, ?_⟩
  rw [hi]
  exact h.interest

theorem Busy.isSome {v : Conn} (h : Busy table true v) : ∃ i, v.interest = some i :=
  h.interest.elim (fun h => ⟨_, h⟩) fun h => ⟨_, h⟩

theorem Busy.toPolled {v : Conn} (h : Busy table polled v) : Polled polled v := by
  intro _
  cases polled with
  | true =>
      obtain ⟨i, hi⟩ := h.isSome
      rw [hi]
      rfl
  | false => rw [show v.interest = none from h.interest]; rfl

theorem Busy.disarmed {v : Conn} (h : Busy table true v) : Busy table false v.disarmed :=
  ⟨h.closed, h.handlers, h.queued, rfl⟩

theorem Busy.armed {v : Conn} (h : Busy table false v) (evType : FdEvent)
    (hev : evType = .fdReadable ∨ evType = .fdWritable) : Busy table true (v.armed evType) := by
  refine ⟨h.closed, h.handlers, h.queued, ?_⟩
  rcases hev with rfl | rfl
  · exact .inl rfl
  · exact .inr rfl

theorem Busy.removed {v : Conn} (h : Busy table true v) : At .gone v.removed :=
  ⟨rfl, rfl, h.queued⟩

/-- An idle connection that has been taken over. -/
theorem Busy.live {v : Conn} (h : Busy fullTable true v) : At .live v :=
  ⟨h.closed, h.handlers, h.interest.imp (fun hi => ⟨hi, .inl h.queued⟩) fun hi => ⟨hi, .inl h.queued⟩⟩

/-- What a callback does not change, or changes only one way. -/
structure Later (v v' : Conn) : Prop where
  eof : v'.eof = v.eof
  eop : v.eop = true → v'.eop = true
  reset : v.reset = true → v'.reset = true

theorem Later.refl (v : Conn) : Later v v := ⟨rfl, id, id⟩

/-- Flags that are only set. -/
theorem Later.congr {v v' v'' : Conn} (h : Later v v') (heof : v''.eof = v'.eof)
    (heop : v''.eop = v'.eop) (hreset : v''.reset = v'.reset) : Later v v'' :=
  ⟨heof.trans h.eof, fun h' => heop.trans (h.eop h'), fun h' => hreset.trans (h.reset h')⟩

theorem Later.flushed {v v' : Conn} (h : Later v v') : Later v v'.flushed where
  eof := h.eof
  eop h' := by simp [h.eop h']
  reset h' := by simp [h.reset h']

theorem stable_busy (v₀ : Conn) :
    Stable .noClose (fun v => Busy table polled v ∧ Later v₀ v)
      (Thrown (CbFault polled) fun v => v.handlers = table) where
  append _ _ _ h := ⟨h.1.congr rfl rfl rfl rfl, h.2.congr rfl rfl rfl⟩
  consume _ _ _ h := ⟨h.1.congr rfl rfl rfl rfl, h.2.congr rfl rfl rfl⟩
  write _ v h := by
    refine (wp_writeAll (.inl h.1.closed)).mpr ?_
    split
    case h_1 => exact ⟨h.1.congr rfl rfl rfl rfl, h.2.flushed⟩
    case h_2 e he => exact ⟨e, rfl, .inl (ofStream_thrown he), h.1.handlers⟩
  complete _ _ h _ := ⟨h.1.congr rfl rfl rfl rfl, h.2.congr rfl rfl rfl⟩
  rearm _ v h _ := by
    obtain ⟨h, hlater⟩ := h
    cases polled with
    | true =>
        obtain ⟨i, hi⟩ := h.isSome
        refine (wp_disarm h.closed hi).mpr ((wp_arm (v := v.disarmed) _ h.closed rfl).mpr ?_)
        exact ⟨h.disarmed.armed _ (.inr rfl), hlater.congr rfl rfl rfl⟩
    | false =>
        refine (wp_fdRemove_notPolled _ h.closed h.interest).mpr ?_
        exact ⟨_, rfl, .inr ⟨rfl, v.fd, rfl⟩, h.handlers⟩
  close h := h.elim

/-- **A callback that does not close leaves the table alone.** -/
theorem Busy.exec {cb : Cb} (hcb : cb.Within .noClose) {v : Conn} (h : Busy table polled v) :
    (cb.exec Conn.iopt).wp (fun _ v' => Busy table polled v' ∧ Later v v')
      (Thrown (CbFault polled) fun v' => v'.handlers = table) v :=
  (stable_busy v).exec hcb ⟨h, .refl v⟩

end Conn

end Cppev
