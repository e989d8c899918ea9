import Cppev.Reactor.Conn

/-!
# The user's callbacks

Two ways to say what a callback does to its connection.

* `Cb.Within p`: it uses only the powers `p`, whatever it meets. `Stable.exec`: what each operation
  within its powers keeps, the callback keeps.
* `Cb.play polled io`: what it does from `io`, the part of the connection it can see, when epoll
  knows the descriptor (`polled`) or does not. `exec_play`: the connection agrees.
-/

namespace Cppev

/-! ## Powers

A callback is unknown, but it uses only what it has the power to. So what each operation keeps,
every callback keeps that may use it; there is one induction on callbacks, `Stable.exec`. -/

/-- What a callback may do. -/
structure Powers where
  append : Prop
  consume : Prop
  write : Prop
  close : Prop

namespace Powers

def all : Powers := ⟨True, True, True, True⟩

/-- Everything but closing the connection. -/
def noClose : Powers := ⟨True, True, True, False⟩

/-- Nothing that reaches the kernel. -/
def noWrite : Powers := ⟨True, True, False, False⟩

/-- Only looking at the input and consuming it. -/
def quiet : Powers := ⟨False, True, False, False⟩

/-- Everything but closing the connection and consuming its input. -/
def noConsume : Powers := ⟨True, False, True, False⟩

end Powers

/-- The callback uses no other powers than `p`. -/
def Cb.Within (p : Powers) : Cb → Prop
  | .done => True
  | .append _ next => p.append ∧ next.Within p
  | .inspect next => ∀ bs, (next bs).Within p
  | .consume _ next => p.consume ∧ next.Within p
  | .asyncWrite wc next => p.write ∧ wc.Within p ∧ next.Within p
  | .safelyClose next => p.close ∧ next.Within p
  | .handOver _ _ _ next => next.Within p

theorem Cb.within_all (cb : Cb) : cb.Within .all := by
  induction cb with
  | done => trivial
  | append bs next ih => exact ⟨trivial, ih⟩
  | inspect next ih => exact ih
  | consume n next ih => exact ⟨trivial, ih⟩
  | asyncWrite wc next ihw ih => exact ⟨trivial, ihw, ih⟩
  | safelyClose next ih => exact ⟨trivial, ih⟩
  | handOver c fd origin next ih => exact ih

/-- The outside adds nothing. -/
def Env.idle : Env where
  script := ⟨[], [], 0⟩
  onAccept := .done
  onConnect := .done
  onReadComplete := .done
  onWriteComplete := .done
  onClosed := .done

/-- None of the callbacks closes the connection. -/
structure Env.Lasting (env : Env) : Prop where
  onAccept : env.onAccept.Within .noClose
  onConnect : env.onConnect.Within .noClose
  onReadComplete : env.onReadComplete.Within .noClose
  onWriteComplete : env.onWriteComplete.Within .noClose
  onClosed : env.onClosed.Within .noClose

namespace Conn

/-- Each operation within the powers `p` keeps `P`, and ends in `E` where it fails. -/
structure Stable (p : Powers) (P : Conn → Prop) (E : Fault → Conn → Prop) : Prop where
  append : p.append → ∀ v bs, P v →
    P { v with out := v.out ++ bs, trace := v.trace ++ [.appended bs] }
  consume : p.consume → ∀ v n, P v →
    P { v with inp := v.inp.drop n, trace := v.trace ++ [.consumed (v.inp.take n)] }
  write : p.write → ∀ v, P v → Conn.writeAll.wp (fun _ => P) E v
  complete : p.write → ∀ v, P v → v.out = [] → P (v.begun .onWriteComplete)
  rearm : p.write → ∀ v, P v → v.out ≠ [] →
    (Conn.fdRemove false true).wp
      (fun _ => (Conn.fdRegister .fdWritable none true).wp (fun _ => P) E) E v
  close : p.close → ∀ v, P v → (safelyClose Conn.iopt).wp (fun _ => P) E v

section Rules

variable {Q : Unit → Conn → Prop} {E : Fault → Conn → Prop} {v : Conn}

/-- `async_write`, where the callback is called and where it is not. -/
theorem wp_asyncWrite (m : ConnM Unit) :
    (asyncWrite Conn.iopt m).wp Q E v ↔
      Conn.writeAll.wp (fun _ v' =>
        if v'.out = [] then m.wp Q E v'
        else (Conn.fdRemove false true).wp
          (fun _ => (Conn.fdRegister .fdWritable none true).wp Q E) E v') E v := by
  have hsize : ∀ v' : Conn, ((v'.out.length : Int) = 0) = (v'.out = []) := fun v' => by simp
  show (asyncWrite Conn.iopt m).wp Q E v ↔ _
  simp only [asyncWrite, Conn.iopt, Prog.wp_bind, Prog.wp_get, Prog.wp_pure, Prog.wp_ite, hsize]

end Rules

/-- **What every operation keeps, the callback keeps.** -/
theorem Stable.exec {p : Powers} {P : Conn → Prop} {E : Fault → Conn → Prop} (h : Stable p P E)
    {cb : Cb} (hcb : cb.Within p) {v : Conn} (hv : P v) :
    (cb.exec Conn.iopt).wp (fun _ => P) E v := by
  induction cb generalizing v with
  | done => exact hv
  | append bs next ih => exact ih hcb.2 (h.append hcb.1 v bs hv)
  | inspect next ih => exact ih v.inp (hcb v.inp) hv
  | consume n next ih => exact ih hcb.2 (h.consume hcb.1 v n hv)
  | asyncWrite wc next ihw ih =>
      obtain ⟨hp, hwc, hnext⟩ := hcb
      refine (Prog.wp_bind _ _).mpr (Prog.wp_mono ((wp_asyncWrite _).mpr ?_)
        (fun _ v' hv' => ih hnext hv') fun _ _ he => he)
      refine Prog.wp_mono (h.write hp v hv) (fun _ v' hv' => ?_) fun _ _ he => he
      split
      case isTrue hout => exact ihw hwc (h.complete hp v' hv' hout)
      case isFalse hout => exact h.rearm hp v' hv' hout
  | safelyClose next ih =>
      exact (Prog.wp_bind _ _).mpr
        (Prog.wp_mono (h.close hcb.1 v hv) (fun _ v' hv' => ih hcb.2 hv') fun _ _ he => he)
  | handOver c fd origin next ih => exact ih hcb hv

end Conn

/-! ## What a callback does from where it starts

Where the outcome matters, not only what is kept, a callback is played on the little that it can see
and change: its buffers, its flags and whether epoll knows it. -/

/-- What a callback sees of its connection and can change. -/
structure Io where
  inp : List Byte
  out : List Byte
  writes : List WriteResult
  eop : Bool
  reset : Bool
  closed : Bool
  deriving DecidableEq, Repr

/-- How a callback can fail: a `write` throws; bytes are left to be written, but epoll does not know
the descriptor; the connection is closed already, and its descriptor is used. -/
inductive Trouble where
  | threw | unpolled | stray
  deriving DecidableEq, Repr

/-- The callback ends in `P`, unless something throws. -/
def Ends (P : Io → Prop) : Except Trouble Io → Prop
  | .ok io => P io
  | .error _ => True

instance (P : Io → Prop) [DecidablePred P] : DecidablePred (Ends P)
  | .ok io => inferInstanceAs (Decidable (P io))
  | .error _ => isTrue trivial

/-- `write_all`. -/
def Io.write (io : Io) : Except Trouble Io :=
  if io.closed = true ∧ io.out ≠ [] then .error .stray
  else
    let f := flush 1024 1024 io.out io.writes
    match Nstream.thrown f.stop with
    | .error _ => .error .threw
    | .ok _ =>
      .ok { io with
        out := f.pending
        writes := f.rest
        eop := io.eop || decide (f.stop = .broken)
        reset := io.reset || decide (f.stop = .reset) }

/-- What `async_write` does with bytes that are left. -/
def Io.wait (polled : Bool) (io : Io) : Except Trouble Io :=
  if io.closed then .error .stray
  else if polled then .ok io
  else .error .unpolled

def Cb.play (polled : Bool) : Cb → Io → Except Trouble Io
  | .done, io => .ok io
  | .append bs next, io => next.play polled { io with out := io.out ++ bs }
  | .inspect next, io => (next io.inp).play polled io
  | .consume n next, io => next.play polled { io with inp := io.inp.drop n }
  | .asyncWrite wc next, io =>
    (io.write.bind fun io' => if io'.out = [] then wc.play polled io' else io'.wait polled).bind
      (next.play polled)
  | .safelyClose next, io =>
    if io.closed then .error .stray else next.play polled { io with closed := true }
  | .handOver _ _ _ next, io => next.play polled io

namespace Conn

/-- What a callback can see. -/
@[simps] def io (v : Conn) : Io where
  inp := v.inp
  out := v.out
  writes := v.script.writes
  eop := v.eop
  reset := v.reset
  closed := v.closed

/-- Whether epoll knows the descriptor, as long as there is one. -/
def Polled (polled : Bool) (v : Conn) : Prop :=
  v.closed = false → v.interest.isSome = polled

/-- A failure of the connection is the trouble `t`. -/
def Fails (t : Trouble) : Fault → Prop
  | .stray => t = .stray
  | .exn (.systemError what errno) =>
    (t = .threw ∧ what = "write error") ∨
      (t = .unpolled ∧ errno = .ENOENT ∧ ∃ fd : Int, what = "epoll_ctl del error for fd " ++ toString fd)
  | .exn (.logicError _) => False

/-- The outcome `r` of a play is the outcome of the program from `v`. -/
def Plays (polled : Bool) (r : Except Trouble Io) (m : ConnM Unit) (v : Conn) : Prop :=
  m.wp (fun _ v' => r = .ok v'.io ∧ Polled polled v') (fun f _ => ∃ t, r = .error t ∧ Fails t f) v

theorem Plays.bind {polled : Bool} {r : Except Trouble Io} {k : Io → Except Trouble Io}
    {m : ConnM Unit} {l : Unit → ConnM Unit} {v : Conn} (h : Plays polled r m v)
    (hk : ∀ v', Polled polled v' → Plays polled (k v'.io) (l ()) v') :
    Plays polled (r.bind k) (m >>= l) v := by
  refine (Prog.wp_bind _ _).mpr (Prog.wp_mono h ?_ ?_)
  · rintro _ v' ⟨rfl, hp⟩
    exact hk v' hp
  · rintro f _ ⟨t, rfl, hf⟩
    exact ⟨t, rfl, hf⟩

theorem plays_writeAll {polled : Bool} {v : Conn} (hp : Polled polled v) :
    Plays polled v.io.write Conn.writeAll v := by
  unfold Io.write
  by_cases hshut : v.io.closed = true ∧ v.io.out ≠ []
  · rw [if_pos hshut]
    exact (wp_writeAll_closed hshut.1 hshut.2).mpr ⟨.stray, rfl, rfl⟩
  rw [if_neg hshut]
  have hopen : v.closed = false ∨ v.out = [] := by
    by_contra hnot
    obtain ⟨hcl, hout⟩ := not_or.mp hnot
    exact hshut ⟨by simpa using hcl, hout⟩
  refine (wp_writeAll hopen).mpr ?_
  cases hstop : (flush 1024 1024 v.out v.script.writes).stop with
  | failed e =>
      refine ⟨.threw, ?_, .inl ⟨rfl, rfl⟩⟩
      simp only [io, hstop]
      rfl
  | _ =>
      refine ⟨?_, hp⟩
      simp only [io, hstop]
      simp [Nstream.thrown, hstop]

/-- `async_write` with bytes left. -/
theorem plays_wait {polled : Bool} {v : Conn} (hp : Polled polled v) :
    (Conn.fdRemove false true).wp
      (fun _ => (Conn.fdRegister .fdWritable none true).wp
        (fun _ v' => v.io.wait polled = .ok v'.io ∧ Polled polled v')
        (fun f _ => ∃ t, v.io.wait polled = .error t ∧ Fails t f))
      (fun f _ => ∃ t, v.io.wait polled = .error t ∧ Fails t f) v := by
  cases hcl : v.closed with
  | true =>
      refine (wp_fdRemove_closed _ _ hcl).mpr ⟨.stray, ?_, rfl⟩
      simp [Io.wait, hcl]
  | false =>
      have hpolled := hp hcl
      cases hint : v.interest with
      | none =>
          obtain rfl : false = polled := by simpa [hint] using hpolled
          refine (wp_fdRemove_notPolled _ hcl hint).mpr ?_
          refine ⟨.unpolled, ?_, .inr ⟨rfl, rfl, v.fd, rfl⟩⟩
          simp [Io.wait, hcl]
      | some i =>
          obtain rfl : true = polled := by simpa [hint] using hpolled
          refine (wp_disarm hcl hint).mpr ((wp_arm (v := v.disarmed) _ hcl rfl).mpr ?_)
          refine ⟨?_, fun _ => rfl⟩
          simp [Io.wait, hcl, Conn.io]

/-- **The callback does to the connection what its play says.** -/
theorem exec_play (polled : Bool) (cb : Cb) {v : Conn} (hp : Polled polled v) :
    Plays polled (cb.play polled v.io) (cb.exec Conn.iopt) v := by
  induction cb generalizing v with
  | done => exact ⟨rfl, hp⟩
  | append bs next ih =>
      exact ih (v := { v with out := v.out ++ bs, trace := v.trace ++ [.appended bs] }) hp
  | inspect next ih => exact ih v.inp hp
  | consume n next ih =>
      exact ih
        (v := { v with inp := v.inp.drop n, trace := v.trace ++ [.consumed (v.inp.take n)] }) hp
  | asyncWrite wc next ihw ih =>
      refine Plays.bind ?_ fun v' hp' => ih hp'
      refine (wp_asyncWrite _).mpr (Prog.wp_mono (plays_writeAll hp) ?_ ?_)
      · rintro _ v' ⟨hio, hp'⟩
        rw [hio]
        -- all is written and `on_write_complete` is called from within, or the rest waits
        show if v'.out = [] then _ else _
        split
        case isTrue hout =>
          have hplay : (Except.ok v'.io : Except Trouble Io).bind (fun io' =>
              if io'.out = [] then wc.play polled io' else io'.wait polled) =
              wc.play polled (v'.begun .onWriteComplete).io := if_pos hout
          rw [hplay]
          exact ihw (v := v'.begun .onWriteComplete) hp'
        case isFalse hout =>
          have hplay : (Except.ok v'.io : Except Trouble Io).bind (fun io' =>
              if io'.out = [] then wc.play polled io' else io'.wait polled) =
              v'.io.wait polled := if_neg hout
          rw [hplay]
          exact plays_wait hp'
      · rintro f _ ⟨t, ht, hf⟩
        exact ⟨t, by rw [ht]; rfl, hf⟩
  | safelyClose next ih =>
      refine (Prog.wp_bind _ _).mpr ?_
      cases hcl : v.closed with
      | true =>
          -- closed for the second time
          refine (wp_safelyClose_closed hcl).mpr ⟨.stray, ?_, rfl⟩
          simp [Cb.play, hcl]
      | false =>
          refine (wp_safelyClose hcl).mpr ?_
          have hplay : (Cb.safelyClose next).play polled v.io = next.play polled v.finished.io := by
            simp [Cb.play, hcl, Conn.io]
          rw [hplay]
          exact ih fun h => nomatch h
  | handOver c fd origin next ih => exact ih hp

end Conn

end Cppev
