import Cppev.Reactor.Phase

/-!
# The handlers between their callbacks

One rule for each handler, for a connection that is in the stage in which the handler runs: what is
left to prove are the callbacks, each from the state in which it begins (`wp_onReadable`,
`wp_onWritable`, `wp_initHandler`).
-/

namespace Cppev

/-! ## Where callbacks begin

A connection begins as one that has been accepted or as one that connects; the two greetings differ
in the callback only. -/

/-- The callback that greets a connection from `origin`. -/
def Origin.greeting : Origin → Callback
  | .accepted _ => .onAccept
  | .connecting _ => .onConnect

/-- What the user does in it. -/
def Env.greet (env : Env) : Origin → Cb
  | .accepted _ => env.onAccept
  | .connecting _ => env.onConnect

theorem Env.Lasting.greet {env : Env} (h : env.Lasting) (origin : Origin) :
    (env.greet origin).Within .noClose := by
  cases origin with
  | accepted f => exact h.onAccept
  | connecting peer => exact h.onConnect

/-- Whether `check_connect` finds that the connection has failed. -/
def Origin.refused (origin : Origin) (script : Script) : Prop :=
  match origin with
  | .accepted _ => False
  | .connecting _ => script.soError ≠ 0

instance (origin : Origin) (script : Script) : Decidable (origin.refused script) :=
  match origin with
  | .accepted _ => inferInstanceAs (Decidable False)
  | .connecting _ => inferInstanceAs (Decidable (script.soError ≠ 0))

namespace Conn

/-- Where the user's greeting begins: the writable handler is in the table, epoll knows nothing. -/
@[simps!] def greeted (v : Conn) (origin : Origin) : Conn :=
  (v.removed.listed .fdWritable .onWritable).begun origin.greeting

/-- Where `on_write_complete` begins, when `on_writable` calls it. -/
@[simps!] def drained (v : Conn) : Conn := v.flushed.disarmed.begun .onWriteComplete

/-- After `rbuffer().clear()`. -/
@[simps] def cleared (v : Conn) : Conn := { v with inp := [] }

/-- After `fd_register` of the readable handler, at the end of the greeting. -/
@[simps!] def initialised (v : Conn) : Conn :=
  { v.listed .fdReadable .onReadable with
    interest := forReadable
    trace := v.trace ++ [.fdRegister, .ctlAdd false] }

section Rules

variable {Q : Unit → Conn → Prop} {E : Fault → Conn → Prop} {v : Conn} {env : Env}

/-! ## Rules for the handlers

`Leaves` is what is still to be shown when the handler is left by way of `on_closed`. -/

/-- The end of `on_readable` and of `on_writable`: `on_closed` is called and the connection is let
go of, if the flags say so. -/
def Leaves (env : Env) (flags : Bool) (Q : Unit → Conn → Prop) (E : Fault → Conn → Prop)
    (v : Conn) : Prop :=
  if flags then
    (env.onClosed.exec Conn.iopt).wp (fun _ => (Conn.fdRemove true true).wp Q E) E
      (v.begun .onClosed)
  else Q () v

theorem wp_leaves (flags : Bool) :
    (if flags then do
        (env.dp Conn.iopt).onClosed
        Conn.iopt.fdRemove true true
      else pure () : ConnM Unit).wp Q E v ↔ Leaves env flags Q E v := by
  cases flags
  · rfl
  · exact (Prog.wp_bind _ _).trans (Prog.wp_bind _ _)

/-- `on_readable`. -/
theorem wp_onReadable (hcl : v.closed = false) :
    (Conn.handle .onReadable env).wp Q E v ↔
      match Nstream.readThrown (deliver v.script.reads).halt with
      | .error e => E (.exn e) v.received
      | .ok _ =>
        (env.onReadComplete.exec Conn.iopt).wp
          (fun _ v' => Leaves env (v'.eof || v'.reset) Q E v'.cleared) E
          (v.filled.begun .onReadComplete) := by
  show (onReadable Conn.iopt (env.dp Conn.iopt)).wp Q E v ↔ _
  refine (Prog.wp_bind _ _).trans ((wp_readAll hcl).trans ?_)
  cases Nstream.readThrown (deliver v.script.reads).halt with
  | error e => rfl
  | ok _ =>
      refine (Prog.wp_bind _ _).trans (iff_of_eq (congrArg (fun K => Prog.wp _ K E _) ?_))
      funext _ v'
      exact propext (wp_leaves _)

/-- `on_writable`, where epoll knows the descriptor. -/
theorem wp_onWritable {table : List (IoHandler × FdEvent)} (h : Busy table true v) :
    (Conn.handle .onWritable env).wp Q E v ↔
      match Nstream.thrown (flush 1024 1024 v.out v.script.writes).stop with
      | .error e => E (.exn e) v.flushed
      | .ok _ =>
        if v.flushed.out = [] then
          (env.onWriteComplete.exec Conn.iopt).wp
            (fun _ v' =>
              if v'.closed then Leaves env (v'.eop || v'.reset) Q E v'
              else (Conn.fdRegister .fdReadable none true).wp
                (fun _ v'' => Leaves env (v''.eop || v''.reset) Q E v'') E v')
            E v.drained
        else Leaves env (v.flushed.eop || v.flushed.reset) Q E v.flushed := by
  show (onWritable Conn.iopt (env.dp Conn.iopt)).wp Q E v ↔ _
  refine (Prog.wp_bind _ _).trans ((wp_writeAll (.inl h.closed)).trans ?_)
  cases Nstream.thrown (flush 1024 1024 v.out v.script.writes).stop with
  | error e => rfl
  | ok _ =>
      obtain ⟨i, hi⟩ := h.isSome
      have hsize : ((v.flushed.out.length : Int) = 0) = (v.flushed.out = []) := by simp
      -- what `on_writable` does after the `if`, whether all bytes have gone or not
      let tail : ConnM Unit := do
        let eop ← Conn.iopt.eop
        let reset ← Conn.iopt.isReset
        if eop || reset then do
          (env.dp Conn.iopt).onClosed
          Conn.iopt.fdRemove true true
        else pure ()
      have htail : ∀ v', tail.wp Q E v' = Leaves env (v'.eop || v'.reset) Q E v' :=
        fun v' => propext (wp_leaves _)
      show ((if (v.flushed.out.length : Int) = 0 then onDrained Conn.iopt (env.dp Conn.iopt)
        else pure ()) >>= fun _ => tail : ConnM Unit).wp Q E v.flushed ↔ _
      rw [Prog.wp_bind, Prog.wp_ite]
      simp only [hsize, htail]
      split
      case isFalse => rfl
      case isTrue =>
        refine (Prog.wp_bind _ _).trans ((wp_disarm (v := v.flushed) h.closed hi).trans ?_)
        refine (Prog.wp_bind _ _).trans (iff_of_eq (congrArg (fun K => Prog.wp _ K E _) ?_))
        funext _ v'
        show (if !v'.closed then Conn.iopt.fdRegister .fdReadable none true
          else pure () : ConnM Unit).wp _ E v' = _
        cases v'.closed <;> rfl

/-- The handler with which a connection begins. -/
theorem wp_initHandler (origin : Origin)
    (h : Busy [(origin.initHandler, .fdWritable)] true v) :
    (Conn.handle origin.initHandler env).wp Q E v ↔
      if origin.refused v.script then Q () v.removed
      else ((env.greet origin).exec Conn.iopt).wp
        (fun _ => (Conn.fdRegister .fdReadable (some .onReadable) true).wp Q E) E
        (v.greeted origin) := by
  obtain ⟨i, hi⟩ := h.isSome
  cases origin with
  | accepted f =>
      show (onAcptWritable Conn.iopt (env.dp Conn.iopt)).wp Q E v ↔ _
      refine (Prog.wp_bind _ _).trans ((wp_remove h.closed hi).trans ?_)
      refine (Prog.wp_bind _ _).trans ((wp_list (v := v.removed) _ _ h.closed).trans ?_)
      refine (Prog.wp_bind _ _).trans ?_
      rfl
  | connecting peer =>
      show (onContWritable Conn.iopt (env.dp Conn.iopt)).wp Q E v ↔ _
      refine (Prog.wp_bind _ _).trans ((wp_remove h.closed hi).trans ?_)
      show (if !(decide (v.script.soError = 0)) then pure () else do
        Conn.iopt.fdRegister .fdWritable (some .onWritable) false
        (env.dp Conn.iopt).onConnect
        Conn.iopt.fdRegister .fdReadable (some .onReadable) true : ConnM Unit).wp Q E v.removed ↔ _
      by_cases herr : v.script.soError = 0
      · simp only [herr, decide_true, Bool.not_true, Bool.false_eq_true, if_false, Origin.refused,
          ne_eq, not_true_eq_false]
        refine (Prog.wp_bind _ _).trans ((wp_list (v := v.removed) _ _ h.closed).trans ?_)
        refine (Prog.wp_bind _ _).trans ?_
        rfl
      · simp [herr, Origin.refused]

/-! ## With callbacks that do not close -/

variable {table : List (IoHandler × FdEvent)} {polled : Bool}

theorem Busy.filled (h : Busy table polled v) : Busy table polled v.filled :=
  h.congr rfl rfl rfl rfl

theorem Busy.cleared (h : Busy table polled v) : Busy table polled v.cleared :=
  h.congr rfl rfl rfl rfl

theorem Busy.flushed (h : Busy table polled v) : Busy table polled v.flushed :=
  h.congr rfl rfl rfl rfl

theorem Busy.drained (h : Busy table true v) : Busy table false v.drained :=
  ⟨h.closed, h.handlers, h.queued, rfl⟩

theorem Busy.begun (h : Busy table polled v) (cb : Callback) : Busy table polled (v.begun cb) :=
  h.congr rfl rfl rfl rfl

theorem Busy.greeted (h : Busy table true v) (origin : Origin) :
    Busy [(.onWritable, .fdWritable)] false (v.greeted origin) :=
  ⟨h.closed, rfl, h.queued, rfl⟩

theorem trace_greeted (v : Conn) (origin : Origin) :
    (v.greeted origin).trace = v.trace ++ [.fdRemove, .ctlDel true, .erased false, .fdRegister,
      .called origin.greeting [(.onWritable, .fdWritable)]] := by
  simp

theorem Busy.initialised (h : Busy [(.onWritable, .fdWritable)] false v) :
    Busy fullTable true v.initialised :=
  ⟨h.closed, by simp [h.handlers, fullTable], h.queued, .inl rfl⟩

theorem Busy.wp_initialise (h : Busy table false v) :
    (Conn.fdRegister .fdReadable (some .onReadable) true).wp Q E v ↔ Q () v.initialised :=
  wp_listArm _ _ h.closed h.interest

theorem Busy.wp_rearm (h : Busy table false v) :
    (Conn.fdRegister .fdReadable none true).wp Q E v ↔ Q () (v.armed .fdReadable) :=
  wp_arm _ h.closed h.interest

theorem Busy.trace_begun (h : Busy table polled v) (cb : Callback) :
    (v.begun cb).trace = v.trace ++ [.called cb table] := by
  simp [h.handlers]

/-- Letting go of a connection that `on_closed` has left in `P`. -/
theorem Leaves.intro {flags : Bool} (P : Conn → Prop) (hbusy : ∀ v, P v → Busy table true v)
    (hstay : flags = false → Q () v)
    (hclosed : flags = true →
      (env.onClosed.exec Conn.iopt).wp (fun _ => P) E (v.begun .onClosed))
    (hgone : ∀ v, P v → Q () v.removed) : Leaves env flags Q E v := by
  unfold Leaves
  cases flags with
  | false => exact hstay rfl
  | true =>
      refine Prog.wp_mono (hclosed rfl) (fun _ v' hv' => ?_) fun _ _ he => he
      obtain ⟨i, hi⟩ := (hbusy v' hv').isSome
      exact (wp_remove (hbusy v' hv').closed hi).mpr (hgone v' hv')

end Rules

end Conn

end Cppev
