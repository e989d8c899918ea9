import Cppev.Reactor.Conn

/-!
# What a connection sees of the world

`view c w` is connection `c` in the world `w`, as an abstract `Conn`. `Sane w` says that the tables
of the world belong to the connections they name. `Sim c m n` relates a program on the world to one
on a connection: as long as `n` does not stray, `m` does the same to the view of `c`, keeps the
world sane and changes no other connection.

* `sim_run`: every handler of the reactor is simulated, whatever the callbacks do.
-/

namespace Cppev

open World

/-! ## The view and the simulation

A world has many connections, and a proof about one of them should not have to carry the others
along. `Sim` is the statement that it need not: it composes like the programs do, so that the
operations are treated once and the handlers follow. -/

/-- Connection `c` in the world `w`. -/
def view (c : ConnId) (w : World) : Conn where
  fd := (w.nios c).fd
  out := (w.nios c).wbuffer.unread
  inp := (w.nios c).rbuffer.unread
  eof := (w.nios c).eof
  eop := (w.nios c).eop
  reset := (w.nios c).reset
  closed := (w.nios c).closed
  interest := if (w.nios c).closed then none else w.kern.epoll (w.nios c).fd
  handlers := (w.evl.fds.filter fun e => e.iop = c).map fun e => (e.handler, e.ev)
  queued := (w.evl.fdCbs.filter fun cb => cb.iop = c).map fun cb => cb.handler
  script := w.scripts c
  trace := w.trace c

/-- The tables belong to the connections they name. -/
structure Sane (w : World) : Prop where
  entries : ∀ e ∈ w.evl.fds,
    e.iop ∈ w.born ∧ (w.nios e.iop).closed = false ∧ e.fd = (w.nios e.iop).fd
  queue : ∀ cb ∈ w.evl.fdCbs, cb.iop ∈ w.born
  distinct : ∀ c ∈ w.born, ∀ c' ∈ w.born, (w.nios c).closed = false →
    (w.nios c').closed = false → (w.nios c).fd = (w.nios c').fd → c = c'
  opened : ∀ c ∈ w.born, (w.nios c).closed = false →
    w.kern.opened (w.nios c).fd = true ∧ 0 ≤ (w.nios c).fd
  polled : ∀ fd, w.kern.epoll fd ≠ none → w.kern.opened fd = true
  buffers : ∀ c ∈ w.born, (w.nios c).wbuffer.Wf ∧ (w.nios c).rbuffer.Wf
  unborn : ∀ c, c ∉ w.born → w.trace c = []

/-- A connection as another thread hands it over. -/
structure Newborn (v : Conn) : Prop where
  out : v.out = []
  inp : v.inp = []
  flags : v.eof = false ∧ v.eop = false ∧ v.reset = false ∧ v.closed = false
  interest : v.interest = some (fdMapToSys .fdWritable)
  queued : v.queued = []
  origin : ∃ origin : Origin, v.handlers = [(origin.initHandler, .fdWritable)] ∧
    v.trace = [.handedOver origin, .fdRegister, .ctlAdd false]

/-- From `w` to `w'`, everything is as it should be but for connection `c`. -/
structure Keeps (c : ConnId) (w w' : World) : Prop where
  sane : Sane w'
  born : ∀ c' ∈ w.born, c' ∈ w'.born
  others : ∀ c' ∈ w.born, c' ≠ c → view c' w' = view c' w
  newborn : ∀ c' ∈ w'.born, c' ∉ w.born → Newborn (view c' w')

theorem Keeps.refl {c : ConnId} {w : World} (h : Sane w) : Keeps c w w :=
  ⟨h, fun _ h => h, fun _ _ _ => rfl, fun _ h hn => (hn h).elim⟩

/-- First one part of a program, then the next. -/
theorem Keeps.trans {c : ConnId} {w w' w'' : World} (h : Keeps c w w') (h' : Keeps c w' w'')
    (hc : c ∈ w.born) : Keeps c w w'' where
  sane := h'.sane
  born := fun c' hb => h'.born c' (h.born c' hb)
  others := fun c' hb hne => (h'.others c' (h.born c' hb) hne).trans (h.others c' hb hne)
  newborn := fun c' hb hn => by
    by_cases hmid : c' ∈ w'.born
    · have hne : c' ≠ c := by
        rintro rfl
        exact hn hc
      rw [h'.others c' hmid hne]
      exact h.newborn c' hmid hn
    · exact h'.newborn c' hb hmid

/-- An outcome on the world agrees with one on the connection. -/
def Agree {α : Type} (c : ConnId) (w : World) : Except Fault α × Conn → Except Exn α × World → Prop
  | (.ok a, v), (r, w') => r = .ok a ∧ Keeps c w w' ∧ view c w' = v
  | (.error (.exn e), v), (r, w') => r = .error e ∧ Keeps c w w' ∧ view c w' = v
  | (.error .stray, _), _ => True

/-- The program `m` on the world does to connection `c` what `n` does. -/
def Sim {α : Type} (c : ConnId) (m : LoopM α) (n : ConnM α) : Prop :=
  ∀ w, Sane w → c ∈ w.born → Agree c w (n.exec (view c w)) (m.exec w)

/-- What does not fail on the connection does not fail on the world. -/
theorem Sim.ok {α : Type} {c : ConnId} {m : LoopM α} {n : ConnM α} (h : Sim c m n) {w : World}
    (hs : Sane w) (hc : c ∈ w.born) {Q : α → Conn → Prop}
    (hwp : n.wp Q (fun _ _ => False) (view c w)) :
    ∃ a w', m.exec w = (.ok a, w') ∧ Keeps c w w' ∧ Q a (view c w') := by
  have hagree := h w hs hc
  unfold Prog.wp at hwp
  rcases hn : n.exec (view c w) with ⟨r, v⟩
  rcases hm : m.exec w with ⟨r', w'⟩
  rw [hn] at hwp
  rw [hn, hm] at hagree
  match r, hwp, hagree with
  | .ok a, hQ, ⟨hr, hkeep, hv⟩ => exact ⟨a, w', by rw [hr], hkeep, hv ▸ hQ⟩

/-! ## Rules for programs

One rule for each constructor of a program. With `sim_read` and `sim_modify` they carry every
handler, since handlers are made of operations by `bind` and `if`. -/

section Rules

variable {α β : Type} {c : ConnId}

theorem sim_pure (a : α) : Sim c (pure a) (pure a) :=
  fun _ hs _ => ⟨rfl, .refl hs, rfl⟩

/-- Two programs in a row. If the first one fails on the connection, nothing is asked of the second;
if it strays, nothing is asked at all. -/
theorem sim_bind {m : LoopM α} {n : ConnM α} {k : α → LoopM β} {l : α → ConnM β}
    (hm : Sim c m n) (hk : ∀ a, Sim c (k a) (l a)) : Sim c (m >>= k) (n >>= l) := by
  intro w hs hc
  have h := hm w hs hc
  rw [Prog.exec_bind, Prog.exec_bind]
  rcases hn : n.exec (view c w) with ⟨r, v⟩
  rcases hm' : m.exec w with ⟨r', w'⟩
  rw [hn, hm'] at h
  match r, h with
  | .ok a, ⟨hr, hkeep, hv⟩ =>
    subst hr hv
    have h' := hk a w' hkeep.sane (hkeep.born c hc)
    show Agree c w ((l a).exec (view c w')) ((k a).exec w')
    rcases hl : (l a).exec (view c w') with ⟨r, v⟩
    rcases hk' : (k a).exec w' with ⟨r', w''⟩
    rw [hl, hk'] at h'
    match r, h' with
    | .ok b, ⟨hr, hkeep', hv⟩ => exact ⟨hr, hkeep.trans hkeep' hc, hv⟩
    | .error (.exn e), ⟨hr, hkeep', hv⟩ => exact ⟨hr, hkeep.trans hkeep' hc, hv⟩
    | .error .stray, _ => trivial
  | .error (.exn e), ⟨hr, hkeep, hv⟩ =>
    subst hr hv
    exact ⟨rfl, hkeep, rfl⟩
  | .error .stray, _ => trivial

/-- A branch on a condition that both programs share. -/
theorem sim_ite {p : Prop} [Decidable p] {m m' : LoopM α} {n n' : ConnM α} (h : Sim c m n)
    (h' : Sim c m' n') : Sim c (if p then m else m') (if p then n else n') := by
  split
  · exact h
  · exact h'

/-- What can be read off the view. -/
theorem sim_read {f : World → α} {g : Conn → α} (h : ∀ w, Sane w → c ∈ w.born → f w = g (view c w)) :
    Sim c (do return f (← get)) (do return g (← get)) := by
  intro w hs hc
  show Agree c w (.ok (g (view c w)), view c w) (.ok (f w), w)
  exact ⟨by rw [h w hs hc], .refl hs, rfl⟩

/-- A change that can be made on the view. -/
theorem sim_modify {f : World → World} {g : Conn → Conn}
    (h : ∀ w, Sane w → c ∈ w.born → Keeps c w (f w) ∧ view c (f w) = g (view c w)) :
    Sim c (modify f) (modify g) := by
  intro w hs hc
  exact ⟨rfl, h w hs hc⟩

end Rules

/-! ## Changes that stay with one connection

Two kinds of them. `OnlyAt` allows for changes of the tables and of the kernel, and then sanity is
to be shown; `Private` is about the object of the connection, and sanity follows. -/

section Local

variable {c : ConnId} {w w' : World}

/-- Only connection `c` is different. -/
structure OnlyAt (c : ConnId) (w w' : World) : Prop where
  born : w'.born = w.born
  nios : ∀ c', c' ≠ c → w'.nios c' = w.nios c'
  scripts : ∀ c', c' ≠ c → w'.scripts c' = w.scripts c'
  trace : ∀ c', c' ≠ c → w'.trace c' = w.trace c'
  fds : ∀ c', c' ≠ c →
    (w'.evl.fds.filter fun e => e.iop = c') = w.evl.fds.filter fun e => e.iop = c'
  fdCbs : w'.evl.fdCbs = w.evl.fdCbs
  epoll : ∀ c' ∈ w.born, c' ≠ c → (w.nios c').closed = false →
    w'.kern.epoll (w.nios c').fd = w.kern.epoll (w.nios c').fd

/-- What changes at `c` only keeps the others, as long as the tables still belong to the connections
they name. -/
theorem OnlyAt.keeps (h : OnlyAt c w w') (hs : Sane w') : Keeps c w w' where
  sane := hs
  born := fun c' hb => h.born ▸ hb
  others := fun c' hb hne => by
    unfold view
    rw [h.nios c' hne, h.scripts c' hne, h.trace c' hne, h.fds c' hne, h.fdCbs]
    cases hcl : (w.nios c').closed with
    | true => rfl
    | false => rw [h.epoll c' hb hne hcl]
  newborn := fun c' hb hn => (hn (h.born ▸ hb)).elim

/-- A change of the private parts of `c`: its buffers and flags, its script, its history. -/
structure Private (c : ConnId) (w w' : World) : Prop where
  born : w'.born = w.born
  evl : w'.evl = w.evl
  kern : w'.kern = w.kern
  nios : ∀ c', c' ≠ c → w'.nios c' = w.nios c'
  scripts : ∀ c', c' ≠ c → w'.scripts c' = w.scripts c'
  trace : ∀ c', c' ≠ c → w'.trace c' = w.trace c'
  fd : (w'.nios c).fd = (w.nios c).fd
  closed : (w'.nios c).closed = (w.nios c).closed
  buffers : (w'.nios c).wbuffer.Wf ∧ (w'.nios c).rbuffer.Wf

theorem Private.fd_closed (h : Private c w w') (c' : ConnId) :
    (w'.nios c').fd = (w.nios c').fd ∧ (w'.nios c').closed = (w.nios c').closed := by
  by_cases hne : c' = c
  · subst hne
    exact ⟨h.fd, h.closed⟩
  · rw [h.nios c' hne]
    exact ⟨rfl, rfl⟩

/-- A private change does not touch the tables, so the world stays sane. -/
theorem Private.keeps (h : Private c w w') (hs : Sane w) (hc : c ∈ w.born) : Keeps c w w' := by
  refine OnlyAt.keeps ⟨h.born, h.nios, h.scripts, h.trace, fun c' _ => by rw [h.evl],
    by rw [h.evl], fun c' _ _ _ => by rw [h.kern]⟩ ?_
  have hfd := fun c' => (h.fd_closed c').1
  have hclosed := fun c' => (h.fd_closed c').2
  constructor
  · simpa only [h.evl, h.born, hfd, hclosed] using hs.entries
  · simpa only [h.evl, h.born] using hs.queue
  · simpa only [h.born, hfd, hclosed] using hs.distinct
  · simpa only [h.born, h.kern, hfd, hclosed] using hs.opened
  · simpa only [h.kern] using hs.polled
  · intro c' hb
    by_cases hne : c' = c
    · subst hne
      exact h.buffers
    · rw [h.nios c' hne]
      exact hs.buffers c' (h.born ▸ hb)
  · intro c' hb
    have hne : c' ≠ c := by
      rintro rfl
      exact hb (h.born ▸ hc)
    rw [h.trace c' hne]
    exact hs.unborn c' (h.born ▸ hb)

end Local

/-! ## The operations, one by one

For each operation of `LoopM` its counterpart in `ConnM` does the same to the view. Those on the
buffers and the history come first, then the system calls, then the tables and epoll, and last what
opens and closes. -/

section Operations

variable {α : Type} {c : ConnId}

/-- A program that begins by asking whether the connection is open. -/
theorem sim_alive {m : LoopM α} {n : ConnM α}
    (h : ∀ w, Sane w → c ∈ w.born → (w.nios c).closed = false →
      Agree c w (n.exec (view c w)) (m.exec w)) :
    Sim c m (do Conn.alive; n) := by
  intro w hs hc
  have hview : (view c w).closed = (w.nios c).closed := rfl
  cases hcl : (w.nios c).closed with
  | true =>
      have hexec : (Conn.alive >>= fun _ => n).exec (view c w) = (.error .stray, view c w) := by
        simp [Conn.alive, Prog.exec_bind, hview, hcl]
      rw [hexec]
      trivial
  | false =>
      have hexec : (Conn.alive >>= fun _ => n).exec (view c w) = n.exec (view c w) := by
        simp [Conn.alive, Prog.exec_bind, hview, hcl]
      rw [hexec]
      exact h w hs hc hcl

/-- Noting something in the history. -/
theorem keeps_note {w : World} (hs : Sane w) (hc : c ∈ w.born) (evs : List Event) :
    Keeps c w (w.note c evs) ∧ view c (w.note c evs) = (view c w).note evs := by
  refine ⟨Private.keeps ⟨rfl, rfl, rfl, fun _ _ => rfl, fun _ _ => rfl,
    fun c' hne => trace_note_ne w evs hne, rfl, rfl, hs.buffers c hc⟩ hs hc, ?_⟩
  unfold view Conn.note
  rw [trace_note_self]
  rfl

/-- What is noted for a connection may be read off the world, if the view has it too. -/
theorem sim_note (evs : World → List Event) (evs' : Conn → List Event)
    (h : ∀ w, Sane w → c ∈ w.born → evs w = evs' (view c w)) :
    Sim c (modify fun w => w.note c (evs w)) (modify fun v => v.note (evs' v)) :=
  sim_modify fun w hs hc => by
    rw [h w hs hc]
    exact keeps_note hs hc _

/-- A change of the object of `c` that leaves its descriptor alone. -/
theorem keeps_setNio {w : World} (hs : Sane w) (hc : c ∈ w.born) {s : Nsocktcp}
    (hfd : s.fd = (w.nios c).fd) (hclosed : s.closed = (w.nios c).closed)
    (hbuf : s.wbuffer.Wf ∧ s.rbuffer.Wf) : Keeps c w (w.setNio c s) :=
  Private.keeps ⟨rfl, rfl, rfl, fun _ hne => nios_setNio_ne w s hne, fun _ _ => rfl,
    fun _ _ => rfl, by simpa using hfd, by simpa using hclosed, by simpa using hbuf⟩ hs hc

/-- The write buffer is a list of bytes in the view. -/
theorem sim_wbufferPutString (bs : List Byte) :
    Sim c ((World.iopt c).wbufferPutString bs) (Conn.iopt.wbufferPutString bs) :=
  sim_modify fun w hs hc => by
    obtain ⟨hw, hr⟩ := hs.buffers c hc
    have hset := keeps_setNio (s := { w.nios c with wbuffer := (w.nios c).wbuffer.putString bs })
      hs hc rfl rfl ⟨Buffer.wf_putString hw bs, hr⟩
    obtain ⟨hnote, hview⟩ := keeps_note hset.sane (hset.born c hc) [.appended bs]
    refine ⟨hset.trans hnote hc, ?_⟩
    rw [hview]
    simp [view, Conn.note, Buffer.unread_putString hw]

theorem sim_rbufferString : Sim c (World.iopt c).rbufferString Conn.iopt.rbufferString :=
  sim_read fun w hs hc => by
    obtain ⟨-, hr⟩ := hs.buffers c hc
    have hlen := Buffer.length_unread hr
    rw [Buffer.getString_fst hr (.inl rfl)]
    simp [view, Buffer.request, ← hlen]

/-- Consuming takes the first bytes away, and all of them at most. -/
theorem sim_rbufferConsume (n : Nat) :
    Sim c ((World.iopt c).rbufferConsume n) (Conn.iopt.rbufferConsume n) :=
  sim_modify fun w hs hc => by
    obtain ⟨hw, hr⟩ := hs.buffers c hc
    have hlen := Buffer.length_unread hr
    have hfit : (w.nios c).rbuffer.Fits (min n (w.nios c).rbuffer.size) := .inr (by omega)
    have hset := keeps_setNio
      (s := { w.nios c with
        rbuffer := (w.nios c).rbuffer.consume (min n (w.nios c).rbuffer.size) })
      hs hc rfl rfl ⟨hw, Buffer.wf_consume hr hfit⟩
    obtain ⟨hnote, hview⟩ := keeps_note hset.sane (hset.born c hc)
      [.consumed ((w.nios c).rbuffer.unread.take n)]
    refine ⟨hset.trans hnote hc, ?_⟩
    rw [hview]
    have hreq : ((w.nios c).rbuffer.request (min n (w.nios c).rbuffer.size)).toNat =
        min n (w.nios c).rbuffer.unread.length := by
      have : (min (n : Int) (w.nios c).rbuffer.size) ≠ -1 := by omega
      rw [Buffer.request, if_neg this]
      omega
    have hdrop : (w.nios c).rbuffer.unread.drop (min n (w.nios c).rbuffer.unread.length) =
        (w.nios c).rbuffer.unread.drop n := List.drop_eq_drop_iff.mpr (by omega)
    simp [view, Conn.note, Buffer.unread_consume hr hfit, hreq, hdrop]

theorem sim_rbufferClear : Sim c (World.iopt c).rbufferClear Conn.iopt.rbufferClear :=
  sim_modify fun w hs hc => by
    obtain ⟨hw, hr⟩ := hs.buffers c hc
    refine ⟨keeps_setNio hs hc rfl rfl ⟨hw, Buffer.wf_clear hr⟩, ?_⟩
    simp [view]

theorem sim_wbufferSize : Sim c (World.iopt c).wbufferSize Conn.iopt.wbufferSize :=
  sim_read fun _ hs hc => (Buffer.length_unread (hs.buffers c hc).1).symm

/-- A failure is one more in the table, and one more in the history of the connection. -/
theorem sim_countFailure : Sim c (World.iopt c).countFailure Conn.iopt.countFailure := by
  intro w hs hc
  refine ⟨rfl, OnlyAt.keeps ⟨rfl, fun _ _ => rfl, fun _ _ => rfl, fun _ _ => rfl, fun _ _ => rfl,
    rfl, fun _ _ _ _ => rfl⟩ ?_, rfl⟩
  exact ⟨hs.entries, hs.queue, hs.distinct, hs.opened, hs.polled, hs.buffers, hs.unborn⟩

/-- Putting a stream back that has kept its descriptor. -/
theorem keeps_putStream {w : World} (hs : Sane w) (hc : c ∈ w.born) {io : StreamIO}
    (hfd : io.str.fd = (w.nios c).fd) (hclosed : io.str.closed = (w.nios c).closed)
    (hbuf : io.str.wbuffer.Wf ∧ io.str.rbuffer.Wf) : Keeps c w (putStream c io w) := by
  refine Private.keeps ⟨rfl, rfl, rfl, fun c' hne => ?_, fun c' hne => ?_, fun c' hne => ?_, ?_, ?_,
    ?_⟩ hs hc
  · simp [putStream, nios_setNio_ne, hne]
  · simp [putStream, hne]
  · simp [putStream, trace_note_ne, hne]
  · simpa [putStream] using hfd
  · simpa [putStream] using hclosed
  · simpa [putStream] using hbuf

theorem view_putStream (w : World) (io : StreamIO) (hclosed : io.str.closed = (w.nios c).closed)
    (hfd : io.str.fd = (w.nios c).fd) :
    view c (putStream c io w) = { view c w with
      out := io.str.wbuffer.unread
      inp := io.str.rbuffer.unread
      eof := io.str.eof
      eop := io.str.eop
      reset := io.str.reset
      script := { w.scripts c with reads := io.reads, writes := io.writes }
      trace := w.trace c ++ io.sent.map .sent } := by
  simp [view, putStream, hclosed, hfd]

/-- A system call that may throw: what it threw is what `raise` throws. -/
theorem agree_raise {w w' : World} {v : Conn} {r : Except Exn Unit} {r' : Except Exn Int}
    {f : Unit → Int} (hr : r' = r.map f) (hkeep : Keeps c w w') (hview : view c w' = v) :
    Agree c w ((Conn.raise r).exec v) (r'.map fun _ => (), w') := by
  subst hr
  cases r with
  | ok _ => exact ⟨rfl, hkeep, hview⟩
  | error e => exact ⟨rfl, hkeep, hview⟩

/-- Running a program on the stream of `c`. -/
theorem exec_stream (m : StreamM Int) (w : World) :
    (do
      let _ ← Prog.zoom (stream c) (putStream c) m
      pure () : LoopM Unit).exec w =
      ((m.exec (stream c w)).1.map fun _ => (), putStream c (m.exec (stream c w)).2 w) := by
  rw [Prog.exec_bind, Prog.exec_zoom]
  cases (m.exec (stream c w)).1 <;> rfl

/-- An open connection has a descriptor that is open. -/
theorem sim_onOpenFd (what : String) : Sim c (World.onOpenFd c what) Conn.alive := by
  intro w hs hc
  have hview : (view c w).closed = (w.nios c).closed := rfl
  cases hcl : (w.nios c).closed with
  | true =>
      have hconn : Conn.alive.exec (view c w) = (.error .stray, view c w) := by
        simp [Conn.alive, Prog.exec_bind, hview, hcl]
      rw [hconn]
      trivial
  | false =>
      have hconn : Conn.alive.exec (view c w) = (.ok (), view c w) := by
        simp [Conn.alive, Prog.exec_bind, hview, hcl]
      have hworld : (World.onOpenFd c what).exec w = (.ok (), w) := by
        simp [World.onOpenFd, Prog.exec_bind, (hs.opened c hc hcl).1]
      rw [hconn, hworld]
      exact sim_pure () w hs hc

/-! ### Reading and writing -/

/-- What `async_write` looks at before it writes. -/
theorem sim_beforeWrite : Sim c (World.beforeWrite c) Conn.beforeWrite := by
  intro w hs hc
  have hlen := Buffer.length_unread (hs.buffers c hc).1
  by_cases hout : (view c w).out = []
  · have hsize : (w.nios c).wbuffer.size = 0 := by
      rw [← hlen]
      exact_mod_cast congrArg List.length hout
    have hworld : (World.beforeWrite c).exec w = (.ok (), w) := by
      simp [World.beforeWrite, Prog.exec_bind, hsize]
    have hconn : Conn.beforeWrite.exec (view c w) = (.ok (), view c w) := by
      simp [Conn.beforeWrite, Prog.exec_bind, hout]
    rw [hworld, hconn]
    exact sim_pure () w hs hc
  · have hsize : (w.nios c).wbuffer.size ≠ 0 := by
      rw [← hlen]
      exact_mod_cast fun h => hout (List.length_eq_zero_iff.mp h)
    have hworld : (World.beforeWrite c).exec w = (World.onOpenFd c "write error").exec w := by
      simp [World.beforeWrite, Prog.exec_bind, hsize]
    have hconn : Conn.beforeWrite.exec (view c w) = Conn.alive.exec (view c w) := by
      simp [Conn.beforeWrite, Prog.exec_bind, hout]
    rw [hworld, hconn]
    exact sim_onOpenFd _ w hs hc

/-- `read_all` on the stream against the script of the connection. The bytes that arrive, the end of
file and a reset are read off the same answers; an exception leaves both where they were. -/
theorem sim_readAll : Sim c (World.iopt c).readAll Conn.iopt.readAll := by
  refine sim_bind (sim_onOpenFd _) fun _ w hs hc => ?_
  obtain ⟨hw, hr⟩ := hs.buffers c hc
  obtain ⟨b, hb, hexec⟩ := @Nstream.readAll_spec bufferIoStep (by decide) (stream c w)
  obtain ⟨hbwf, hbu⟩ := hb hr
  let w' := putStream c ((Nstream.readAll bufferIoStep).exec (stream c w)).2 w
  have hkeep : Keeps c w w' := by
    simp only [w', hexec]
    exact keeps_putStream hs hc rfl rfl ⟨hw, hbwf⟩
  have hview : view c w' = (view c w).received := by
    simp only [w', hexec]
    rw [view_putStream w _ rfl rfl]
    simp only [Nstream.halted, hbu]
    simp [Conn.received, view, stream]
    exact ⟨rfl, rfl⟩
  have hinp : (w'.nios c).rbuffer.unread =
      (view c w).inp ++ (deliver (view c w).script.reads).bytes := congrArg Conn.inp hview
  -- both are a part that may throw, and a note of what has been received
  have hthrown : ((Nstream.readAll bufferIoStep).exec (stream c w)).1 =
      (Nstream.readThrown (deliver (view c w).script.reads).halt).map fun _ =>
        ((deliver (view c w).script.reads).bytes.length : Int) := by
    rw [hexec]
    rfl
  show Agree c w
    ((Conn.raise (Nstream.readThrown (deliver (view c w).script.reads).halt) >>= fun _ =>
      modify fun v' =>
        v'.note [.received (deliver (view c w).script.reads).bytes (view c w).endsHere]).exec
      (view c w).received)
    ((Prog.zoom (stream c) (putStream c) (Nstream.readAll bufferIoStep) >>= fun _ =>
      modify fun w' => w'.note c
        [.received ((w'.nios c).rbuffer.unread.drop (view c w).inp.length)
          ((w.nios c).metEnd (w'.nios c))] : LoopM Unit).exec w)
  rw [Prog.exec_bind, Prog.exec_bind, Prog.exec_zoom, hthrown]
  cases Nstream.readThrown (deliver (view c w).script.reads).halt with
  | error e => exact ⟨rfl, hkeep, hview⟩
  | ok _ =>
      obtain ⟨hnote, hview'⟩ := keeps_note hkeep.sane (hkeep.born c hc)
        [.received ((w'.nios c).rbuffer.unread.drop (view c w).inp.length)
          ((w.nios c).metEnd (w'.nios c))]
      have hend : (w.nios c).metEnd (w'.nios c) = (view c w).endsHere := by
        have heof : (w'.nios c).eof = (view c w).received.eof := congrArg Conn.eof hview
        have hreset : (w'.nios c).reset = (view c w).received.reset := congrArg Conn.reset hview
        rw [Nsocktcp.metEnd, heof, hreset]
        rfl
      refine ⟨rfl, hkeep.trans hnote hc, hview'.trans ?_⟩
      rw [hinp, List.drop_left, hview, hend]

theorem sim_writeAll : Sim c (World.iopt c).writeAll Conn.iopt.writeAll := by
  refine sim_bind sim_beforeWrite fun _ w hs hc => ?_
  obtain ⟨hw, hr⟩ := hs.buffers c hc
  obtain ⟨b, hbwf, hbu, hexec⟩ := @Nstream.writeAll_spec 1024 (by decide) (stream c w) hw
  show Agree c w ((Conn.raise _).exec (view c w).flushed)
    ((do
      let _ ← Prog.zoom (stream c) (putStream c) (Nstream.writeAll bufferIoStep)
      pure () : LoopM Unit).exec w)
  rw [exec_stream]
  have hexec' : (Nstream.writeAll bufferIoStep).exec (stream c w) = _ := hexec
  rw [hexec']
  refine agree_raise rfl (keeps_putStream hs hc rfl rfl ⟨hbwf, hr⟩) ?_
  rw [view_putStream w _ rfl rfl]
  simp only [Nstream.stopped, hbu]
  simp [Conn.flushed, Conn.note, view, stream]
  exact ⟨rfl, rfl⟩

/-- A step that the connection does not see. -/
theorem sim_skip {m : LoopM Unit} {k : LoopM α} {n : ConnM α} (hm : Sim c m (pure ()))
    (hk : Sim c k n) : Sim c (do m; k) n :=
  sim_bind (n := pure ()) (l := fun _ => n) hm fun _ => hk

/-- The history of an open connection is all there is to see of its event loop. -/
theorem sim_set_evlp : Sim c (modify fun w => w.setNio c { w.nios c with evlp := some w.evl.id })
    (pure ()) := by
  intro w hs hc
  refine ⟨rfl, keeps_setNio hs hc rfl rfl (hs.buffers c hc), ?_⟩
  show view c (w.setNio c _) = view c w
  simp only [view, nios_setNio_self]
  rfl

/-! ### The table of handlers -/

/-- An entry of `fds_` for `c` is one more handler of the connection. -/
theorem sim_emplace (evType : FdEvent) (h : IoHandler) :
    Sim c (World.emplace c evType h) (Conn.emplace evType h) := by
  refine sim_alive fun w hs hc hcl => ⟨rfl, OnlyAt.keeps ⟨rfl, fun _ _ => rfl, fun _ _ => rfl,
    fun _ _ => rfl, fun c' hne => ?_, rfl, fun _ _ _ _ => rfl⟩ ?_, ?_⟩
  · simp [EventLoop.emplace, List.filter_append, hne.symm]
  · refine ⟨fun e he => ?_, hs.queue, hs.distinct, hs.opened, hs.polled, hs.buffers, hs.unborn⟩
    rcases List.mem_append.mp he with he | he
    · exact hs.entries e he
    · rw [List.mem_singleton.mp he]
      exact ⟨hc, hcl, rfl⟩
  · simp [view, EventLoop.emplace, List.filter_append]

/-- In a sane world, the entries for the descriptor of an open connection are its own. -/
theorem Sane.entries_iff {w : World} (hs : Sane w) (hc : c ∈ w.born)
    (hcl : (w.nios c).closed = false) {e : Entry IoHandler} (he : e ∈ w.evl.fds) :
    e.fd = (w.nios c).fd ↔ e.iop = c := by
  obtain ⟨hb, hlive, hfd⟩ := hs.entries e he
  constructor
  · intro h
    exact hs.distinct _ hb _ hc hlive hcl (hfd.symm.trans h)
  · rintro rfl
    exact hfd

/-- `fds_.erase(fd)` takes the entries of one connection away, by `Sane.entries_iff`. -/
theorem sim_erase : Sim c (World.erase c) Conn.erase := by
  refine sim_alive fun w hs hc hcl => ?_
  have hown : ∀ e ∈ w.evl.fds, (e.fd = (w.nios c).fd ↔ e.iop = c) := fun e he =>
    hs.entries_iff hc hcl he
  -- only entries of `c` are under its number, so no other connection loses one
  have hforeign : (w.evl.fds.any fun e => e.fd = (w.nios c).fd && e.iop ≠ c) = false := by
    simpa [List.any_eq_false] using fun e he hfd => (hown e he).mp hfd
  have hkeep : Keeps c w { w with evl := w.evl.erase (w.nios c).fd } := by
    refine OnlyAt.keeps ⟨rfl, fun _ _ => rfl, fun _ _ => rfl, fun _ _ => rfl, fun c' hne => ?_, rfl,
      fun _ _ _ _ => rfl⟩ ?_
    · rw [EventLoop.erase, List.filter_filter]
      refine List.filter_congr fun e he => ?_
      by_cases hiop : e.iop = c'
      · have : e.fd ≠ (w.nios c).fd := fun hfd => hne (hiop ▸ (hown e he).mp hfd)
        simp [hiop, this]
      · simp [hiop]
    · refine ⟨fun e he => hs.entries e ?_, hs.queue, hs.distinct, hs.opened, hs.polled, hs.buffers,
        hs.unborn⟩
      exact List.mem_of_mem_filter he
  have hview : view c { w with evl := w.evl.erase (w.nios c).fd } =
      { view c w with handlers := [] } := by
    have hnil : ((w.evl.erase (w.nios c).fd).fds.filter fun e => e.iop = c) = [] := by
      refine List.filter_eq_nil_iff.mpr fun e he => ?_
      obtain ⟨he, hfd⟩ := List.mem_filter.mp he
      simp only [ne_eq, decide_eq_true_eq] at hfd ⊢
      exact fun hiop => hfd ((hown e he).mpr hiop)
    simp only [view, hnil]
    rfl
  obtain ⟨hnote, hview'⟩ := keeps_note hkeep.sane (hkeep.born c hc) [.erased false]
  refine ⟨rfl, ?_, ?_⟩
  · simp only [hforeign]
    exact hkeep.trans hnote hc
  · simp only [hforeign]
    rw [hview', hview]

/-- The interest of epoll in `c` changes. -/
theorem keeps_epoll {w : World} (hs : Sane w) (hc : c ∈ w.born)
    (hcl : (w.nios c).closed = false) (interest : Option EpollEvents) :
    let w' := { w with
      kern := { w.kern with epoll := Function.update w.kern.epoll (w.nios c).fd interest } }
    Keeps c w w' ∧ view c w' = { view c w with interest } := by
  refine ⟨OnlyAt.keeps ⟨rfl, fun _ _ => rfl, fun _ _ => rfl, fun _ _ => rfl, fun _ _ => rfl, rfl,
    fun c' hb hne hcl' => ?_⟩ ?_, ?_⟩
  · have hfd : (w.nios c').fd ≠ (w.nios c).fd := fun h => hne (hs.distinct c' hb c hc hcl' hcl h)
    exact Function.update_of_ne hfd _ _
  · refine ⟨hs.entries, hs.queue, hs.distinct, hs.opened, fun fd hfd => ?_, hs.buffers, hs.unborn⟩
    by_cases hsame : fd = (w.nios c).fd
    · subst hsame
      exact (hs.opened c hc hcl).1
    · refine hs.polled fd ?_
      simpa [Function.update_of_ne hsame] using hfd
  · simp [view, hcl]

/-! ### epoll -/

/-- `epoll_ctl(EPOLL_CTL_ADD)`, with its error. -/
theorem exec_ctlAdd (w : World) (evType : FdEvent) :
    (World.ctlAdd c evType).exec w =
      match w.kern.ctlAdd (w.nios c).fd (fdMapToSys evType) with
      | .ok kern => (.ok (), { w.note c [.ctlAdd (w.kern.epoll (w.nios c).fd).isSome] with kern })
      | .error e =>
        (.error (.systemError ("epoll_ctl add error for fd " ++ toString (w.nios c).fd) e),
          w.note c [.ctlAdd (w.kern.epoll (w.nios c).fd).isSome]) := by
  simp only [World.ctlAdd, Prog.exec_bind, Prog.exec_get, Prog.exec_set]
  cases w.kern.ctlAdd (w.nios c).fd (fdMapToSys evType) <;> rfl

/-- `epoll_ctl(EPOLL_CTL_DEL)`, with its error. -/
theorem exec_ctlDel (w : World) :
    (World.ctlDel c).exec w =
      match w.kern.ctlDel (w.nios c).fd with
      | .ok kern => (.ok (), { w.note c [.ctlDel (w.kern.epoll (w.nios c).fd).isSome] with kern })
      | .error e =>
        (.error (.systemError ("epoll_ctl del error for fd " ++ toString (w.nios c).fd) e),
          w.note c [.ctlDel (w.kern.epoll (w.nios c).fd).isSome]) := by
  simp only [World.ctlDel, Prog.exec_bind, Prog.exec_get, Prog.exec_set]
  cases w.kern.ctlDel (w.nios c).fd <;> rfl

/-- The interest of epoll in the descriptor of `c` is what the connection calls its interest. -/
theorem sim_ctlAdd (evType : FdEvent) : Sim c (World.ctlAdd c evType) (Conn.ctlAdd evType) := by
  refine sim_alive fun w hs hc hcl => ?_
  have hopen := (hs.opened c hc hcl).1
  have hint : (view c w).interest = w.kern.epoll (w.nios c).fd := by simp [view, hcl]
  obtain ⟨hnote, hview⟩ := keeps_note hs hc [.ctlAdd (w.kern.epoll (w.nios c).fd).isSome]
  rw [exec_ctlAdd]
  simp only [Prog.exec_bind, Prog.exec_get, Prog.exec_set, hint]
  cases hep : w.kern.epoll (w.nios c).fd with
  | none =>
      rw [hep] at hnote hview
      have hadd : w.kern.ctlAdd (w.nios c).fd (fdMapToSys evType) = .ok { w.kern with
          epoll := Function.update w.kern.epoll (w.nios c).fd (some (fdMapToSys evType)) } := by
        simp [Kernel.ctlAdd, hopen, hep]
      obtain ⟨hkeep, hview'⟩ := keeps_epoll hnote.sane (hnote.born c hc) hcl
        (some (fdMapToSys evType))
      rw [hadd]
      exact ⟨rfl, hnote.trans hkeep hc, by rw [← hview]; exact hview'⟩
  | some interest =>
      rw [hep] at hnote hview
      have hadd : w.kern.ctlAdd (w.nios c).fd (fdMapToSys evType) = .error .EEXIST := by
        simp [Kernel.ctlAdd, hopen, hep]
      rw [hadd]
      exact ⟨rfl, hnote, hview⟩

theorem sim_ctlDel : Sim c (World.ctlDel c) Conn.ctlDel := by
  refine sim_alive fun w hs hc hcl => ?_
  have hopen := (hs.opened c hc hcl).1
  have hint : (view c w).interest = w.kern.epoll (w.nios c).fd := by simp [view, hcl]
  obtain ⟨hnote, hview⟩ := keeps_note hs hc [.ctlDel (w.kern.epoll (w.nios c).fd).isSome]
  rw [exec_ctlDel]
  simp only [Prog.exec_bind, Prog.exec_get, Prog.exec_set, hint]
  cases hep : w.kern.epoll (w.nios c).fd with
  | none =>
      rw [hep] at hnote hview
      have hdel : w.kern.ctlDel (w.nios c).fd = .error .ENOENT := by
        simp [Kernel.ctlDel, hopen, hep]
      rw [hdel]
      exact ⟨rfl, hnote, hview⟩
  | some interest =>
      rw [hep] at hnote hview
      have hdel : w.kern.ctlDel (w.nios c).fd = .ok { w.kern with
          epoll := Function.update w.kern.epoll (w.nios c).fd none } := by
        simp [Kernel.ctlDel, hopen, hep]
      obtain ⟨hkeep, hview'⟩ := keeps_epoll hnote.sane (hnote.born c hc) hcl none
      rw [hdel]
      exact ⟨rfl, hnote.trans hkeep hc, by rw [← hview]; exact hview'⟩

/-- `alive` asked twice. -/
theorem sim_alive_of_sim {m : LoopM α} {n : ConnM α} (h : Sim c m n) :
    Sim c m (do Conn.alive; n) :=
  sim_alive fun w hs hc _ => h w hs hc

theorem sim_fdRegister (evType : FdEvent) (handler : Option IoHandler) (activate : Bool) :
    Sim c ((World.iopt c).fdRegister evType handler activate)
      (Conn.iopt.fdRegister evType handler activate) := by
  refine sim_alive_of_sim ?_
  refine sim_bind (sim_note (fun _ => [.fdRegister]) (fun _ => [.fdRegister]) fun _ _ _ => rfl) fun _ =>
    sim_skip sim_set_evlp (sim_bind ?_ fun _ => sim_ite (sim_ctlAdd evType) (sim_pure ()))
  cases handler with
  | none => exact sim_pure ()
  | some h => exact sim_emplace evType h

theorem sim_fdRemove (clean deactivate : Bool) :
    Sim c ((World.iopt c).fdRemove clean deactivate) (Conn.iopt.fdRemove clean deactivate) :=
  sim_alive_of_sim <|
    sim_bind (sim_note (fun _ => [.fdRemove]) (fun _ => [.fdRemove]) fun _ _ _ => rfl) fun _ =>
      sim_bind (sim_ite sim_ctlDel (sim_pure ())) fun _ => sim_ite sim_erase (sim_pure ())

/-! ### Closing -/

/-- Closing a connection that no entry of the table points to. -/
theorem keeps_closeNio {w : World} (hs : Sane w) (hc : c ∈ w.born)
    (hcl : (w.nios c).closed = false) (hnone : ∀ e ∈ w.evl.fds, e.iop ≠ c) :
    Keeps c w (w.closeNio c) ∧
      view c (w.closeNio c) = { view c w with closed := true, interest := none } := by
  have hfd : (w.nios c).fd ≠ -1 := by
    have := (hs.opened c hc hcl).2
    omega
  have hkern : (w.closeNio c).kern = w.kern.close (w.nios c).fd := by simp [World.closeNio, hfd]
  have hself : (w.closeNio c).nios c = { w.nios c with closed := true } := by
    simp [World.closeNio]
  have hother : ∀ c', c' ≠ c → (w.closeNio c).nios c' = w.nios c' := fun c' hne => by
    simp [World.closeNio, nios_setNio_ne, hne]
  -- what is said about open connections is about the others from now on
  have hlive : ∀ c', ((w.closeNio c).nios c').closed = false → c' ≠ c := by
    rintro c' h rfl
    simp [hself] at h
  refine ⟨OnlyAt.keeps ⟨rfl, hother, fun _ _ => rfl, fun _ _ => rfl, fun _ _ => rfl, rfl,
    fun c' hb hne hcl' => ?_⟩ ⟨?_, hs.queue, ?_, ?_, ?_, ?_, hs.unborn⟩, ?_⟩
  · have hne' : (w.nios c').fd ≠ (w.nios c).fd := fun h => hne (hs.distinct c' hb c hc hcl' hcl h)
    rw [hkern]
    exact Function.update_of_ne hne' _ _
  · intro e he
    have hiop := hnone e he
    rw [hother e.iop hiop]
    exact hs.entries e he
  · intro c' hb c'' hb' hcl' hcl''
    have hne := hlive c' hcl'
    have hne' := hlive c'' hcl''
    rw [hother c' hne] at hcl' ⊢
    rw [hother c'' hne'] at hcl'' ⊢
    exact hs.distinct c' hb c'' hb' hcl' hcl''
  · intro c' hb hcl'
    have hne := hlive c' hcl'
    rw [hother c' hne] at hcl' ⊢
    have hne' : (w.nios c').fd ≠ (w.nios c).fd := fun h => hne (hs.distinct c' hb c hc hcl' hcl h)
    rw [hkern]
    refine ⟨?_, (hs.opened c' hb hcl').2⟩
    simpa only [Kernel.close, Function.update_of_ne hne'] using (hs.opened c' hb hcl').1
  · intro fd hfd'
    rw [hkern] at hfd' ⊢
    by_cases hsame : fd = (w.nios c).fd
    · subst hsame
      simp [Kernel.close] at hfd'
    · simp only [Kernel.close, Function.update_of_ne hsame] at hfd' ⊢
      exact hs.polled fd hfd'
  · intro c' hb
    by_cases hne : c' = c
    · subst hne
      rw [hself]
      exact hs.buffers c' hc
    · rw [hother c' hne]
      exact hs.buffers c' hb
  · simp only [view, hself]
    rfl

/-- The kernel forgets the descriptor, and epoll forgets it with it. -/
theorem sim_close : Sim c (World.iopt c).close Conn.iopt.close := by
  refine sim_alive fun w hs hc hcl => ?_
  simp only [Prog.exec_bind, Prog.exec_get]
  split
  case isTrue hnil =>
    have hnone : ∀ e ∈ w.evl.fds, e.iop ≠ c := by
      intro e he hiop
      have : e ∈ w.evl.fds.filter fun e => e.iop = c := List.mem_filter.mpr ⟨he, by simp [hiop]⟩
      rw [List.map_eq_nil_iff.mp hnil] at this
      exact nomatch this
    obtain ⟨hkeep, hview⟩ := keeps_closeNio hs hc hcl hnone
    obtain ⟨hnote, hview'⟩ := keeps_note hkeep.sane (hkeep.born c hc) [.closed]
    rw [hview] at hview'
    exact ⟨rfl, hkeep.trans hnote hc, hview'⟩
  case isFalse => trivial

/-- A closed connection has no entries left. -/
theorem handlers_of_closed {w : World} (hs : Sane w) (hcl : (w.nios c).closed = true) :
    (view c w).handlers = [] := by
  refine List.map_eq_nil_iff.mpr (List.filter_eq_nil_iff.mpr fun e he hiop => ?_)
  have := (hs.entries e he).2.1
  rw [of_decide_eq_true hiop, hcl] at this
  exact nomatch this

/-- The table for a connection is its part of the table. -/
theorem table_eq {w : World} (hs : Sane w) (hc : c ∈ w.born) :
    w.table c = (view c w).handlers := by
  cases hcl : (w.nios c).closed with
  | true =>
      rw [handlers_of_closed hs hcl]
      simp [World.table, hcl]
  | false =>
      have hfilter : (w.evl.fds.filter fun e => e.fd = (w.nios c).fd) =
          w.evl.fds.filter fun e => e.iop = c :=
        List.filter_congr fun e he => by simp only [hs.entries_iff hc hcl he]
      simp [World.table, view, hcl, hfilter]

/-- A callback of the user is noted, and what it does comes later. -/
theorem sim_called (cb : Callback) :
    Sim c ((World.iopt c).called cb) (Conn.iopt.called cb) :=
  sim_note (fun w => [.called cb (w.table c)])
    (fun v => [.called cb v.handlers]) fun w hs hc => by
    rw [table_eq hs hc]

/-! ## A new connection

An accept or a connect puts a connection into the world which the others do not see. This is the
only step that changes who there is. -/

/-- A new connection is not seen by the others. -/
theorem view_bear {w : World} {c' : ConnId} {fd : Int} {origin : Origin} (hne : c ≠ c') :
    view c (w.bear c' fd origin) = view c w := by
  simp only [view, World.bear, nios_note, nios_setNio_ne _ _ hne, trace_note_ne _ _ hne]
  rfl

/-- It has a number and a descriptor that nobody has, so the tables still belong to those they
name. -/
theorem sane_bear {w : World} (hs : Sane w) {c' : ConnId} {fd : Int} (origin : Origin)
    (hf : w.Fresh c' fd) : Sane (w.bear c' fd origin) := by
  obtain ⟨hb, hopen, h0⟩ := hf
  have hself : (w.bear c' fd origin).nios c' = .new fd origin := by simp [World.bear]
  have htrace : ∀ c, c ≠ c' → (w.bear c' fd origin).trace c = w.trace c := fun c hne =>
    trace_note_ne _ _ hne
  have hother : ∀ c ∈ w.born, (w.bear c' fd origin).nios c = w.nios c := fun c hc =>
    nios_setNio_ne _ _ fun h => hb (h ▸ hc)
  have hnew : (Nsocktcp.new fd origin).fd = fd ∧ (Nsocktcp.new fd origin).wbuffer = .empty ∧
      (Nsocktcp.new fd origin).rbuffer = .empty := by
    cases origin <;> exact ⟨rfl, rfl, rfl⟩
  have hopened : ∀ fd', w.kern.opened fd' = true →
      (w.bear c' fd origin).kern.opened fd' = true := fun fd' h => by
    have : fd' ≠ fd := by
      rintro rfl
      simp [hopen] at h
    simpa [World.bear, Kernel.openFd, this] using h
  -- the kernel hands out a number that no open connection has
  have hfd : ∀ c ∈ w.born, (w.nios c).closed = false → (w.nios c).fd ≠ fd := by
    intro c hc hcl h
    have := (hs.opened c hc hcl).1
    rw [h, hopen] at this
    exact nomatch this
  refine ⟨fun e he => ?_, fun cb hcb => List.mem_cons_of_mem _ (hs.queue cb hcb), ?_, ?_,
    fun fd' h => hopened fd' (hs.polled fd' h), ?_, fun c hc => ?_⟩
  · obtain ⟨hiop, hcl, hefd⟩ := hs.entries e he
    rw [hother _ hiop]
    exact ⟨List.mem_cons_of_mem _ hiop, hcl, hefd⟩
  · intro c hc d hd hcl hdl heq
    by_cases hcn : c = c'
    · by_cases hdn : d = c'
      · rw [hcn, hdn]
      · have hdb := (List.mem_cons.mp hd).resolve_left hdn
        rw [hcn, hself, hnew.1, hother d hdb] at heq
        rw [hother d hdb] at hdl
        exact (hfd d hdb hdl heq.symm).elim
    · have hcb := (List.mem_cons.mp hc).resolve_left hcn
      rw [hother c hcb] at hcl heq
      by_cases hdn : d = c'
      · rw [hdn, hself, hnew.1] at heq
        exact (hfd c hcb hcl heq).elim
      · have hdb := (List.mem_cons.mp hd).resolve_left hdn
        rw [hother d hdb] at hdl heq
        exact hs.distinct c hcb d hdb hcl hdl heq
  · intro c hc hcl
    rcases List.mem_cons.mp hc with rfl | hc
    · rw [hself, hnew.1]
      exact ⟨by simp [World.bear, Kernel.openFd], h0⟩
    · rw [hother _ hc] at hcl ⊢
      obtain ⟨ho, hnn⟩ := hs.opened c hc hcl
      exact ⟨hopened _ ho, hnn⟩
  · intro c hc
    rcases List.mem_cons.mp hc with rfl | hc
    · rw [hself, hnew.2.1, hnew.2.2]
      exact ⟨Buffer.wf_empty, Buffer.wf_empty⟩
    · rw [hother _ hc]
      exact hs.buffers c hc
  · obtain ⟨hne, hcb⟩ := not_or.mp (mt List.mem_cons.mpr hc)
    rw [htrace c hne]
    exact hs.unborn c hcb

/-- From `w` to `w'` there are only new connections. -/
structure Extends (w w' : World) : Prop where
  sane : Sane w'
  born : ∀ c ∈ w.born, c ∈ w'.born
  kept : ∀ c ∈ w.born, view c w' = view c w
  newborn : ∀ c ∈ w'.born, c ∉ w.born → Newborn (view c w')

/-- More connections, and the others are as they were. -/
theorem Extends.keeps {w w' : World} (h : Extends w w') : Keeps c w w' :=
  ⟨h.sane, h.born, fun c' hb _ => h.kept c' hb, h.newborn⟩

/-- Handing over is to make the object and to register it. -/
theorem exec_handOver {w : World} {c' : ConnId} {fd : Int} (origin : Origin)
    (hf : w.Fresh c' fd) :
    (World.handOver c' fd origin).exec w =
      (World.fdRegister c' .fdWritable (some origin.initHandler) true).exec
        (w.bear c' fd origin) := by
  simp only [World.handOver, Prog.exec_bind, Prog.exec_get, if_pos hf, Prog.exec_set]

/-- Epoll does not know a number that is not in use. -/
theorem Sane.epoll_fresh {w : World} (hs : Sane w) {c' : ConnId} {fd : Int} (hf : w.Fresh c' fd) :
    w.kern.epoll fd = none := by
  by_contra h
  have := hs.polled fd h
  rw [hf.2.1] at this
  exact nomatch this

/-- A thread that hands over a connection never throws, and adds nothing but that connection. -/
theorem handOver_spec {w : World} (hs : Sane w) {c' : ConnId} {fd : Int} (origin : Origin)
    (hf : w.Fresh c' fd) :
    ∃ w', (World.handOver c' fd origin).exec w = (.ok (), w') ∧ Extends w w' := by
  have hb := hf.1
  have hsane := sane_bear hs origin hf
  have hmem : c' ∈ (w.bear c' fd origin).born := List.mem_cons_self
  have hnone := hs.epoll_fresh hf
  have hentries : (w.evl.fds.filter fun e => e.iop = c') = [] :=
    List.filter_eq_nil_iff.mpr fun e he hiop =>
      hb ((of_decide_eq_true hiop) ▸ (hs.entries e he).1)
  have hqueue : (w.evl.fdCbs.filter fun cb => cb.iop = c') = [] :=
    List.filter_eq_nil_iff.mpr fun cb hcb hiop =>
      hb ((of_decide_eq_true hiop) ▸ hs.queue cb hcb)
  -- the connection as it is before it is registered
  have hview : view c' (w.bear c' fd origin) =
      { fd := fd, out := [], inp := [], eof := false, eop := false, reset := false, closed := false,
        interest := none, handlers := [], queued := [], script := w.scripts c',
        trace := [.handedOver origin] } := by
    have hself : (w.bear c' fd origin).nios c' = .new fd origin := by simp [World.bear]
    have htrace : (w.bear c' fd origin).trace c' = [.handedOver origin] := by
      simp [World.bear, hs.unborn c' hb]
    have hevl : (w.bear c' fd origin).evl = w.evl := rfl
    have hkern : (w.bear c' fd origin).kern.epoll = w.kern.epoll := rfl
    simp only [view, hself, htrace, hevl, hkern, hentries, hqueue]
    cases origin <;> simp [Nsocktcp.new, Nstream.new, Nio.new, hnone, World.bear]
  have hsim := sim_fdRegister .fdWritable (some origin.initHandler) true _ hsane hmem
  have hlocal : (Conn.iopt.fdRegister .fdWritable (some origin.initHandler) true).exec
      (view c' (w.bear c' fd origin)) = (.ok (), { view c' (w.bear c' fd origin) with
        interest := some (fdMapToSys .fdWritable)
        handlers := [(origin.initHandler, .fdWritable)]
        trace := [.handedOver origin, .fdRegister, .ctlAdd false] }) := by
    rw [hview]
    rfl
  rw [hlocal] at hsim
  have hexec : (World.handOver c' fd origin).exec w =
      ((World.iopt c').fdRegister .fdWritable (some origin.initHandler) true).exec
        (w.bear c' fd origin) := exec_handOver origin hf
  rw [hexec]
  rcases hw : ((World.iopt c').fdRegister .fdWritable (some origin.initHandler) true).exec
    (w.bear c' fd origin) with ⟨r, w'⟩
  rw [hw] at hsim
  obtain ⟨rfl, hkeep, hview'⟩ := hsim
  have hnew : Newborn (view c' w') := by
    rw [hview', hview]
    exact ⟨rfl, rfl, ⟨rfl, rfl, rfl, rfl⟩, rfl, rfl, origin, rfl, rfl⟩
  have hne : ∀ d ∈ w.born, d ≠ c' := fun d hd h => hb (h ▸ hd)
  refine ⟨w', rfl, hkeep.sane, fun d hd => hkeep.born d (List.mem_cons_of_mem _ hd), fun d hd => ?_,
    fun d hd hdn => ?_⟩
  · rw [hkeep.others d (List.mem_cons_of_mem _ hd) (hne d hd), view_bear (hne d hd)]
  · by_cases hdc : d = c'
    · rw [hdc]
      exact hnew
    · refine hkeep.newborn d hd fun hmem' => ?_
      exact (List.mem_cons.mp hmem').elim hdc hdn

/-- To the connection that hands over, it is one event in its history. -/
theorem sim_handOver (c' : ConnId) (fd : Int) (origin : Origin) :
    Sim c ((World.iopt c).handOver c' fd origin) (Conn.iopt.handOver c' fd origin) := by
  intro w hs hc
  show Agree c w (.ok (), view c w) ((World.handOver c' fd origin).exec w)
  by_cases hf : w.Fresh c' fd
  · obtain ⟨w', hexec, hext⟩ := handOver_spec hs origin hf
    rw [hexec]
    exact ⟨rfl, hext.keeps, hext.kept c hc⟩
  · have hexec : (World.handOver c' fd origin).exec w = (.ok (), w) := by
      simp only [World.handOver, Prog.exec_bind, Prog.exec_get, if_neg hf, Prog.exec_pure]
    rw [hexec]
    exact ⟨rfl, .refl hs, rfl⟩

end Operations

/-! ## The handlers

Handlers are programs over the operations, written once for every monad. So each of them is
simulated by the rules, with a callback (`SimDp`) as a parameter. -/

section Handlers

variable {c : ConnId}

/-- The flags of the stream are in the view. -/
theorem sim_eof : Sim c (World.iopt c).eof Conn.iopt.eof := sim_read fun _ _ _ => rfl

theorem sim_eop : Sim c (World.iopt c).eop Conn.iopt.eop := sim_read fun _ _ _ => rfl

theorem sim_isReset : Sim c (World.iopt c).isReset Conn.iopt.isReset := sim_read fun _ _ _ => rfl

theorem sim_isClosed : Sim c (World.iopt c).isClosed Conn.iopt.isClosed := sim_read fun _ _ _ => rfl

theorem sim_checkConnect : Sim c (World.iopt c).checkConnect Conn.iopt.checkConnect :=
  sim_read fun _ _ _ => rfl

/-- `async_write`, whatever its `write_all` is. -/
theorem sim_asyncWrite {m : LoopM Unit} {n : ConnM Unit} (h : Sim c m n) :
    Sim c (asyncWrite (World.iopt c) m) (asyncWrite Conn.iopt n) :=
  sim_bind sim_writeAll fun _ => sim_bind sim_wbufferSize fun _ => sim_ite h <|
    sim_bind (sim_fdRemove _ _) fun _ => sim_fdRegister _ _ _

theorem sim_safelyClose : Sim c (safelyClose (World.iopt c)) (safelyClose Conn.iopt) :=
  sim_bind (sim_fdRemove _ _) fun _ => sim_close

/-- Whatever a callback does. -/
theorem sim_exec (cb : Cb) : Sim c (cb.exec (World.iopt c)) (cb.exec Conn.iopt) := by
  induction cb with
  | done => exact sim_pure ()
  | append bs next ih => exact sim_bind (sim_wbufferPutString bs) fun _ => ih
  | inspect next ih => exact sim_bind sim_rbufferString fun bs => ih bs
  | consume n next ih => exact sim_bind (sim_rbufferConsume n) fun _ => ih
  | asyncWrite wc next ihw ih =>
      exact sim_bind (sim_asyncWrite (sim_bind (sim_called _) fun _ => ihw)) fun _ => ih
  | safelyClose next ih => exact sim_bind sim_safelyClose fun _ => ih
  | handOver c' fd origin next ih => exact sim_bind (sim_handOver c' fd origin) fun _ => ih

/-- The callbacks of the world are simulated by those of the connection. -/
structure SimDp (c : ConnId) (dp : TpSharedData LoopM) (dp' : TpSharedData ConnM) : Prop where
  onAccept : Sim c dp.onAccept dp'.onAccept
  onConnect : Sim c dp.onConnect dp'.onConnect
  onReadComplete : Sim c dp.onReadComplete dp'.onReadComplete
  onWriteComplete : Sim c dp.onWriteComplete dp'.onWriteComplete
  onClosed : Sim c dp.onClosed dp'.onClosed

/-- The callbacks of a program over connections are simulated by `sim_exec`. -/
theorem sim_dp (env : Env) : SimDp c (env.dp (World.iopt c)) (env.dp Conn.iopt) where
  onAccept := sim_bind (sim_called _) fun _ => sim_exec _
  onConnect := sim_bind (sim_called _) fun _ => sim_exec _
  onReadComplete := sim_bind (sim_called _) fun _ => sim_exec _
  onWriteComplete := sim_bind (sim_called _) fun _ => sim_exec _
  onClosed := sim_bind (sim_called _) fun _ => sim_exec _

variable {dp : TpSharedData LoopM} {dp' : TpSharedData ConnM}

/-- The handler of a readable connection. -/
theorem sim_onReadable (h : SimDp c dp dp') :
    Sim c (onReadable (World.iopt c) dp) (onReadable Conn.iopt dp') :=
  sim_bind sim_readAll fun _ => sim_bind h.onReadComplete fun _ =>
    sim_bind sim_rbufferClear fun _ => sim_bind sim_eof fun _ => sim_bind sim_isReset fun _ =>
      sim_ite (sim_bind h.onClosed fun _ => sim_fdRemove _ _) (sim_pure ())

/-- What follows when the write buffer is empty. -/
theorem sim_onDrained (h : SimDp c dp dp') :
    Sim c (onDrained (World.iopt c) dp) (onDrained Conn.iopt dp') :=
  sim_bind (sim_fdRemove _ _) fun _ => sim_bind h.onWriteComplete fun _ =>
    sim_bind sim_isClosed fun _ => sim_ite (sim_fdRegister _ _ _) (sim_pure ())

/-- The handler of a writable connection. -/
theorem sim_onWritable (h : SimDp c dp dp') :
    Sim c (onWritable (World.iopt c) dp) (onWritable Conn.iopt dp') :=
  sim_bind sim_writeAll fun _ => sim_bind sim_wbufferSize fun _ =>
    sim_bind (sim_ite (sim_onDrained h) (sim_pure ())) fun _ =>
      sim_bind sim_eop fun _ => sim_bind sim_isReset fun _ =>
        sim_ite (sim_bind h.onClosed fun _ => sim_fdRemove _ _) (sim_pure ())

/-- The first event of an accepted connection. -/
theorem sim_onAcptWritable (h : SimDp c dp dp') :
    Sim c (onAcptWritable (World.iopt c) dp) (onAcptWritable Conn.iopt dp') :=
  sim_bind (sim_fdRemove _ _) fun _ => sim_bind (sim_fdRegister _ _ _) fun _ =>
    sim_bind h.onAccept fun _ => sim_fdRegister _ _ _

/-- The first event of a connection that was made. -/
theorem sim_onContWritable (h : SimDp c dp dp') :
    Sim c (onContWritable (World.iopt c) dp) (onContWritable Conn.iopt dp') :=
  sim_bind (sim_fdRemove _ _) fun _ => sim_bind sim_checkConnect fun _ =>
    sim_ite sim_countFailure <| sim_bind (sim_fdRegister _ _ _) fun _ =>
      sim_bind h.onConnect fun _ => sim_fdRegister _ _ _

/-- **Every handler does to its connection what it does to the connection on its own**, and to no
other connection anything. -/
theorem sim_run (h : IoHandler) (env : Env) :
    Sim c (h.run (World.iopt c) (env.dp (World.iopt c))) (Conn.handle h env) := by
  cases h with
  | onReadable => exact sim_onReadable (sim_dp env)
  | onWritable => exact sim_onWritable (sim_dp env)
  | onAcptWritable => exact sim_onAcptWritable (sim_dp env)
  | onContWritable => exact sim_onContWritable (sim_dp env)

end Handlers

end Cppev
