import Mathlib.Data.List.Infix
import Cppev.Logger.Messages

/-!
# The end of a logger

The destructor sets `stop_`, without the lock, notifies, and joins the thread of `run_impl`.

* `flush_iff`: what has been logged is written by the time the destructor returns exactly when the
  thread of `run_impl` was between its loop test and its swap as `stop_` was set, or had taken all
  of it already.
* `shutdown_spec`: the destructor does not hang as long as it does not notify between the thread's
  test of the predicate and its wait; where it does, it can hang.
-/

namespace Cppev

namespace AsyncLogger

variable {n : Nat} {level : Int} {tid : LogThread n → List Byte}
  {s s' : Monitor (LogThread n) (AsyncLogger n) LogPc} {l : MonitorLabel (LogThread n) LogPc}
  {ls : List (MonitorLabel (LogThread n) LogPc)}

/-! ## What is still to be written

`due` is what will have been written when the thread of `run_impl` has finished the round it is in.
A message is saved when it is in there. -/

/-- Past the test of `stop_`, and before the swap. -/
def BeforeSwap : LogPc → Prop
  | .loopLock | .sizeTest | .predicate | .cond | .swap => True
  | _ => False

instance (k : LogPc) : Decidable (BeforeSwap k) := by
  cases k <;> simp only [BeforeSwap] <;> infer_instance

/-- What will have been written when the thread of `run_impl` gets to its loop test. -/
def due (k : LogPc) (a : AsyncLogger n) : List Byte :=
  match k with
  | .loopLock | .sizeTest | .predicate | .cond | .swap => a.out ++ (a.buffers a.curr).unread
  | .loopUnlock prev | .bufTest prev | .write prev => a.out ++ (a.buffers prev).unread
  | _ => a.out

/-- After the swap, what is due has been taken. -/
theorem taken_eq_due (h : ¬ BeforeSwap (s.pc .background)) :
    s.data.out ++ taken s = due (s.pc .background) s.data := by
  unfold taken due
  cases hpc : s.pc .background <;> rw [hpc] at h <;>
    first | rfl | exact (h trivial).elim | exact List.append_nil _

/-- Before the swap the whole log is due. -/
theorem due_eq_log (ho : Monitor.Outlined (assertions level tid) s)
    (h : BeforeSwap (s.pc .background)) :
    due (s.pc .background) s.data = log level tid s.data.msgs := by
  have hback := backgroundHere_of_outlined ho
  cases hpc : s.pc .background <;> rw [hpc] at hback h <;>
    first | exact hback.2.1 | exact h.elim

/-- Every message of `ms` whose `log::endl` has returned is in `bs`, which is the start of a log. -/
def Written (level : Int) (tid : LogThread n → List Byte) (ms : List (Message n))
    (bs : List Byte) : Prop :=
  ∀ front m rest, ms = front ++ m :: rest → m.returned = true →
    log level tid (front ++ [m]) <+: bs

theorem Written.of_prefix {ms : List (Message n)} {bs : List Byte}
    (h : log level tid ms <+: bs) : Written level tid ms bs := by
  rintro front m rest rfl -
  refine List.IsPrefix.trans ?_ h
  rw [show front ++ m :: rest = (front ++ [m]) ++ rest by simp, log_append (front ++ [m])]
  exact List.prefix_append _ _

/-! ## After `stop_` has been set

A property of what is due, if it is not lost when more becomes due, is kept to the end. It is added
to the outline with `extend`, once for all such properties. -/

/-- `P` is not lost by what others log. -/
def Lasting (P : List Byte → Prop) : Prop := ∀ bs bs', P bs → P (bs ++ bs')

/-- `stop_` is set, and what is due is as `P` says; it gets no more after the swap. -/
def dueHere (P : List Byte → Prop) (i : LogThread n) (k : LogPc) (a : AsyncLogger n) : Prop :=
  i = .background → a.stop = true ∧ (BeforeSwap k → Lasting P) ∧ P (due k a)

variable {P : List Byte → Prop}

/-- A text in the current buffer makes more due, or nothing. -/
theorem due_grows {a a' : AsyncLogger n} {bs : List Byte} {k : LogPc}
    (hg : Grows level tid a a' bs) (hb : backgroundHere level tid k a)
    (hlasting : BeforeSwap k → Lasting P) (hP : P (due k a)) : P (due k a') := by
  obtain ⟨hcurr, hcurrent, hspare, hout, -, -⟩ := hg
  cases k <;> simp only [backgroundHere] at hb <;> simp only [due, hout] at hP ⊢
  case loopLock | sizeTest | predicate | cond | swap =>
    rw [hcurr, hcurrent, ← List.append_assoc]
    exact hlasting trivial _ _ hP
  case loopUnlock | bufTest | write =>
    rw [hb.1, hspare, ← hb.1]
    exact hP
  all_goals exact hP

/-- The statements of `run_impl` go on to what is due. -/
theorem due_own {a : AsyncLogger n} {k : LogPc} (halways : (assertions level tid).always a)
    (hb : backgroundHere level tid k a) (h : dueHere P .background k a) :
    Monitor.ShownToo (dueHere P) (dueHere P) .background a (stmt tid .background k) := by
  obtain ⟨hstop, hlasting, hP⟩ := h rfl
  cases k <;> simp only [backgroundHere] at hb
  -- `stop_` is set, so the loop ends at its test
  case loopTest =>
    simp only [stmt, Monitor.ShownToo, hstop, if_true]
    exact fun _ => ⟨rfl, False.elim, hP⟩
  case loopLock | cond => exact fun _ => ⟨hstop, hlasting, hP⟩
  case sizeTest =>
    show dueHere P .background (if 0 = (a.buffers a.curr).size then .predicate else .swap) a
    split <;> exact fun _ => ⟨hstop, hlasting, hP⟩
  case predicate =>
    show dueHere P .background
      (if (a.buffers a.curr).size ≠ 0 ∨ a.stop = true then .swap else .cond) a
    split <;> exact fun _ => ⟨hstop, hlasting, hP⟩
  case swap | loopUnlock => exact fun _ => ⟨hstop, False.elim, hP⟩
  case bufTest prev =>
    show dueHere P .background (if (a.buffers prev).size ≠ 0 then .write prev else .loopTest) a
    split
    · exact fun _ => ⟨hstop, False.elim, hP⟩
    · next hsize =>
        have hnil : (a.buffers prev).unread = [] :=
          (Buffer.unread_eq_nil_iff (halways.2 _)).mpr (not_not.mp hsize)
        have hout : due (.bufTest prev) a = a.out := by simp [due, hnil]
        rw [hout] at hP
        exact fun _ => ⟨hstop, False.elim, hP⟩
  case write | clear => exact fun _ => ⟨hstop, False.elim, hP⟩
  case exited => trivial

/-- What the others do leaves what is due as it was, or adds to it. -/
theorem due_other {a : AsyncLogger n} {i : LogThread n} {k k' : LogPc}
    {f : AsyncLogger n → AsyncLogger n × LogPc} (hne : i ≠ .background)
    (halways : (assertions level tid).always a) (hi : (assertions level tid).here i k a)
    (hb : backgroundHere level tid k' a) (hst : (threads tid).stmt i k = .act f)
    (h : a.stop = true ∧ (BeforeSwap k' → Lasting P) ∧ P (due k' a)) :
    (f a).1.stop = true ∧ (BeforeSwap k' → Lasting P) ∧ P (due k' (f a).1) := by
  obtain ⟨hstop, hlasting, hP⟩ := h
  cases i with
  | writer t =>
      obtain ⟨bs, hgrows⟩ := grows_of_writer halways hi hst
      exact ⟨(stop_writer hi hst).trans hstop, hlasting, due_grows hgrows hb hlasting hP⟩
  | background => exact (hne rfl).elim
  | destructor =>
      rw [destructor_stops hi hst]
      exact ⟨rfl, hlasting, hP⟩

theorem due_outline (level : Int) (tid : LogThread n → List Byte) (P : List Byte → Prop) :
    Monitor.Outline (threads tid) ((assertions level tid).extend (dueHere P) (dueHere P)) := by
  refine background_outline ?_ ?_ ?_
  · exact fun i k a hne hi => absurd hi hne
  · exact fun k a halways hhere hdue => due_own halways hhere.1 hdue
  · rintro i k k' f a hne halways hi hb hst hdue -
    exact due_other hne halways hi hb hst (hdue rfl)

/-- The destructor sets `stop_`. -/
theorem stop_set (halive : s.pc .destructor = .alive)
    (hstep : s.step (threads tid) (.next .destructor) = some s') :
    s' = (s.setData { s.data with stop := true }).goto .destructor .stopNotify := by
  have hst : (threads tid).stmt .destructor (s.pc .destructor) =
      .act fun a => ({ a with stop := true }, .stopNotify) := by
    rw [halive]
    rfl
  cases Monitor.step_sound hstep with
  | act i f hm hact =>
      rw [hst] at hact
      cases hact
      rfl
  | _ => simp_all

/-- From the state in which `stop_` is set to the one in which the destructor has returned: what is
due then is written in the end. -/
theorem due_stopped {s₁ s₂ s₃ : Monitor (LogThread n) (AsyncLogger n) LogPc}
    (ho : Monitor.Outlined (assertions level tid) s₁) (halive : s₁.pc .destructor = .alive)
    (hstop : s₁.step (threads tid) (.next .destructor) = some s₂)
    (hrun : run (Monitor.step (threads tid)) s₂ ls = some s₃)
    (hdone : s₃.pc .destructor = .destroyed)
    (hlasting : BeforeSwap (s₁.pc .background) → Lasting P)
    (hP : P (due (s₁.pc .background) s₁.data)) : P s₃.data.out := by
  have ho₂ : Monitor.Outlined (assertions level tid) s₂ :=
    ho.step (outline level tid) (Monitor.step_sound hstop)
  have hdue : ∀ i, dueHere P i (s₂.pc i) s₂.data := by
    rintro i rfl
    rw [stop_set halive hstop]
    exact ⟨rfl, hlasting, hP⟩
  have ho₃ := Monitor.Outlined.of_run (due_outline level tid P)
    (ho₂.extend (fun i _ => hdue i) fun i _ => hdue i) hrun
  -- `join` has returned, so the thread of `run_impl` has ended
  have hfin : s₃.data.finished = true := by
    have hm : s₃.mode .destructor = .running :=
      ho₃.running_of_not_parked fun h => nomatch h.1.1
    have hhere : destructorHere (s₃.pc .destructor) s₃.data := (ho₃.here _ hm).1
    rw [hdone] at hhere
    exact hhere.2
  have hboth : backgroundHere level tid (s₃.pc .background) s₃.data ∧
      dueHere P .background (s₃.pc .background) s₃.data := by
    by_cases hm : s₃.mode .background = .running
    · exact ⟨(ho₃.here _ hm).1.1, (ho₃.here _ hm).2⟩
    · exact ⟨(ho₃.parked _ hm).1.2.2, (ho₃.parked _ hm).2⟩
  obtain ⟨hback, hhere⟩ := hboth
  have hout := (hhere rfl).2.2
  cases hpc : s₃.pc .background <;> rw [hpc] at hback hout <;>
    simp only [backgroundHere, hfin, Bool.true_eq_false, and_false] at hback
  exact hout

/-! ### The theorem -/

/-- **What the destructor waits for.** All messages whose `log::endl` had returned when the
destructor set `stop_` are written when it returns, if and only if the thread of `run_impl` was past
its test of `stop_` and had not swapped the buffers yet, or had written or taken them all. -/
theorem flush_iff (n : Nat) (level : Int) (tid : LogThread n → List Byte)
    (ls₁ ls₂ : List (MonitorLabel (LogThread n) LogPc))
    (s₁ s₂ s₃ : Monitor (LogThread n) (AsyncLogger n) LogPc)
    (hbefore : run (Monitor.step (threads tid)) (init n level) ls₁ = some s₁)
    (halive : s₁.pc .destructor = .alive)
    (hstop : s₁.step (threads tid) (.next .destructor) = some s₂)
    (hafter : run (Monitor.step (threads tid)) s₂ ls₂ = some s₃)
    (hdone : s₃.pc .destructor = .destroyed) :
    Written level tid s₁.data.msgs s₃.data.out ↔
      BeforeSwap (s₁.pc .background) ∨
        Written level tid s₁.data.msgs (s₁.data.out ++ taken s₁) := by
  have ho := outlined hbefore
  by_cases hswap : BeforeSwap (s₁.pc .background)
  · have hall : log level tid s₁.data.msgs <+: s₃.data.out := by
      refine due_stopped (P := fun bs => log level tid s₁.data.msgs <+: bs) ho halive hstop hafter
        hdone (fun _ bs bs' h => h.trans (List.prefix_append _ _)) ?_
      rw [due_eq_log ho hswap]
    simp [hswap, Written.of_prefix hall]
  · have hout : s₃.data.out = s₁.data.out ++ taken s₁ :=
      due_stopped (P := fun bs => bs = s₁.data.out ++ taken s₁) ho halive hstop hafter hdone
        (fun h => (hswap h).elim) (taken_eq_due hswap).symm
    simp [hswap, hout]

/-- A message that is logged before `run_impl` has begun. -/
def oneMessage : List (MonitorLabel (LogThread 1) LogPc) :=
  putsPiece 0 (bytesOf "a") (bytesOf "now") ++ putsEndl 0 []

/-- The rest of the destructor, when `run_impl` is past its loop test. -/
def lastRound : List (MonitorLabel (LogThread 1) LogPc) :=
  .signal .destructor [] :: List.replicate 8 (.next .background) ++ [.next .destructor]

theorem flush_iff_one :
    ∃ s₁ s₂ s₃, run (Monitor.step (threads fun _ => bytesOf "7")) (init 1 1)
        (oneMessage ++ [.next .background]) = some s₁ ∧
      s₁.step (threads fun _ => bytesOf "7") (.next .destructor) = some s₂ ∧
      run (Monitor.step (threads fun _ => bytesOf "7")) s₂ lastRound = some s₃ ∧
      Written 1 (fun _ => bytesOf "7") s₁.data.msgs s₃.data.out := by
  have hbefore : (run (Monitor.step (threads fun _ => bytesOf "7")) (init 1 1)
      (oneMessage ++ [.next .background])).map
        (fun s => (s.pc .destructor, s.pc .background)) = some (.alive, .loopLock) := by
    decide +kernel
  have hall : (run (Monitor.step (threads fun _ => bytesOf "7")) (init 1 1)
      ((oneMessage ++ [.next .background]) ++ .next .destructor :: lastRound)).map
        (fun s => s.pc .destructor) = some .destroyed := by
    decide +kernel
  obtain ⟨s₁, h₁, hpcs⟩ := Option.map_eq_some_iff.mp hbefore
  obtain ⟨s₃, h₃, hdone⟩ := Option.map_eq_some_iff.mp hall
  obtain ⟨halive, hloop⟩ := Prod.mk.inj hpcs
  rw [run_append, h₁, Option.bind_some] at h₃
  cases h₂ : s₁.step (threads fun _ => bytesOf "7") (.next .destructor) with
  | none => simp [run, h₂] at h₃
  | some s₂ =>
      rw [run_cons_of_some h₂] at h₃
      refine ⟨s₁, s₂, s₃, h₁, h₂, h₃, ?_⟩
      refine (flush_iff 1 1 (fun _ => bytesOf "7") _ _ s₁ s₂ s₃ h₁ halive h₂ h₃ hdone).mpr ?_
      rw [hloop]
      exact .inl trivial

/-- The destructor comes before `run_impl` has made its first loop test. -/
theorem flush_lost :
    ¬ ∀ (n : Nat) (level : Int) (tid : LogThread n → List Byte)
        (ls₁ ls₂ : List (MonitorLabel (LogThread n) LogPc))
        (s₁ s₂ s₃ : Monitor (LogThread n) (AsyncLogger n) LogPc),
      run (Monitor.step (threads tid)) (init n level) ls₁ = some s₁ →
      s₁.pc .destructor = .alive →
      s₁.step (threads tid) (.next .destructor) = some s₂ →
      run (Monitor.step (threads tid)) s₂ ls₂ = some s₃ →
      s₃.pc .destructor = .destroyed →
      Written level tid s₁.data.msgs s₃.data.out := by
  intro h
  have hw := h 1 1 (fun _ => bytesOf "7") oneMessage
    [.signal .destructor [], .next .background, .next .destructor] _ _ _ rfl rfl rfl rfl rfl
  have hpre := hw [] ⟨.writer 0, bytesOf "now", [bytesOf "a"], true, true⟩ [] rfl rfl
  exact absurd hpre (by decide)

/-! ## Whether the destructor returns

The only wait is that of `run_impl`, with the predicate tested under the lock; `stop_` is set
without it. The notification is lost if it comes between the two, and only then. -/

/-! ### The wait -/

/-- The destructor is in `join`, and the thread of `run_impl` is blocked in `cond_.wait`. -/
def Waits (s : Monitor (LogThread n) (AsyncLogger n) LogPc) : Prop :=
  s.pc .destructor = .join ∧ s.pc .background = .predicate ∧ s.mode .background = .blocked

/-- The same, and nobody is about to notify. -/
def Hung (s : Monitor (LogThread n) (AsyncLogger n) LogPc) : Prop :=
  Waits s ∧ ∀ t, s.pc (.writer t) ≠ .notify

/-- The destructor does not notify between the test of the predicate and the wait. -/
def NotifiesInTime (s : Monitor (LogThread n) (AsyncLogger n) LogPc) :
    MonitorLabel (LogThread n) LogPc → Prop
  | .signal .destructor _ => s.pc .background ≠ .cond
  | _ => True

instance (s : Monitor (LogThread n) (AsyncLogger n) LogPc) (l : MonitorLabel (LogThread n) LogPc) :
    Decidable (NotifiesInTime s l) := by
  unfold NotifiesInTime
  split <;> infer_instance

/-- The destructor has notified. -/
def Notified : LogPc → Prop
  | .join | .destroyed => True
  | _ => False

/-- Once the destructor has notified, `run_impl` does not wait any more. -/
def Awake (s : Monitor (LogThread n) (AsyncLogger n) LogPc) : Prop :=
  Notified (s.pc .destructor) → s.pc .background ≠ .cond ∧ s.mode .background ≠ .blocked

/-- Only the thread of `run_impl` waits. -/
theorem background_of_blocked (ho : Monitor.Outlined (assertions level tid) s) {i : LogThread n}
    (hm : s.mode i ≠ .running) : i = .background :=
  (ho.parked i hm).1

/-- The destructor notifies after it has set `stop_`. -/
theorem stop_of_notified (ho : Monitor.Outlined (assertions level tid) s)
    (h : Notified (s.pc .destructor)) : s.data.stop = true := by
  have hm : s.mode .destructor = .running := ho.running_of_not_parked fun h => nomatch h.1
  have hhere : destructorHere (s.pc .destructor) s.data := ho.here _ hm
  cases hpc : s.pc .destructor <;> rw [hpc] at hhere h <;>
    first | exact h.elim | exact hhere | exact hhere.1

/-- With `stop_` set, no statement of `run_impl` leads to the wait. -/
theorem next_ne_cond {a : AsyncLogger n} {k : LogPc} {f : AsyncLogger n → AsyncLogger n × LogPc}
    (hst : stmt tid .background k = .act f) (hstop : a.stop = true)
    (hb : backgroundHere level tid k a) : (f a).2 ≠ .cond := by
  cases k <;> simp only [stmt, reduceCtorEq, Stmt.act.injEq] at hst <;> subst hst
  case predicate => simp [hstop]
  case loopTest => simp [hstop]
  case sizeTest | bufTest => dsimp only; split <;> simp
  case swap | write | clear => simp
  all_goals exact hb.elim

/-- A step that leaves the two threads as they are, or wakes one up. -/
theorem Awake.of_eq (hi : Awake s) (hd : s'.pc .destructor = s.pc .destructor)
    (hb : s'.pc .background = s.pc .background)
    (hm : s'.mode .background = .blocked → s.mode .background = .blocked) : Awake s' := by
  intro hn
  obtain ⟨hpc, hmode⟩ := hi (hd ▸ hn)
  exact ⟨hb ▸ hpc, fun h => hmode (hm h)⟩

theorem wake_not_blocked {woken : List (LogThread n)} {i : LogThread n}
    (h : (s.wake woken).mode i = .blocked) : s.mode i = .blocked := by
  by_cases hmem : i ∈ woken <;> simp_all

/-- The destructor's `notify_one` wakes the thread of `run_impl` if it is blocked. -/
theorem not_blocked_of_mayWake (ho : Monitor.Outlined (assertions level tid) s)
    {woken : List (LogThread n)} (hw : s.MayWake woken) :
    (s.wake woken).mode .background ≠ .blocked := by
  intro hblocked
  have hold := wake_not_blocked hblocked
  cases woken with
  | nil => exact hw.2 rfl _ hold
  | cons j woken =>
      have hj : j = .background :=
        background_of_blocked ho (by rw [hw.1 j (List.mem_cons_self ..)]; nofun)
      simp [hj] at hblocked

theorem stmt_eq_wait {i : LogThread n} {k next : LogPc} (h : stmt tid i k = .wait next) :
    k = .cond := by
  cases k <;> first | rfl | nomatch h

/-- The statements that leave the data alone, but for the two that wait and notify. -/
theorem Awake.next (hi : Awake s) {i : LogThread n} {next : LogPc} {st : Stmt (AsyncLogger n) LogPc}
    (hst : stmt tid i (s.pc i) = st) (hafter : st.after = some next)
    (hstop : s.pc i ≠ .stopNotify) (hpc : s'.pc = Function.update s.pc i next)
    (hm : s'.mode .background = .blocked → s.mode .background = .blocked) : Awake s' := by
  have hnext : next ≠ .cond ∧ (Notified next → Notified (s.pc i)) := by
    subst hst
    cases hk : s.pc i <;>
      simp only [hk, stmt, Stmt.after, reduceCtorEq, Option.some.injEq] at hafter hstop <;>
      subst hafter <;> simp_all [Notified]
  intro hn
  rw [hpc] at hn ⊢
  by_cases hd : LogThread.destructor = i
  · subst hd
    obtain ⟨hcond, hmode⟩ := hi (hnext.2 (by simpa using hn))
    exact ⟨by simpa using hcond, fun h => hmode (hm h)⟩
  · obtain ⟨hcond, hmode⟩ := hi (by simpa [hd] using hn)
    refine ⟨?_, fun h => hmode (hm h)⟩
    by_cases hb : LogThread.background = i
    · subst hb; simpa using hnext.1
    · simpa [hb] using hcond

/-- Nobody is asleep after the notification, unless the thread goes to sleep after it;
`NotifiesInTime` says that it does not. -/
theorem Awake.step (ho : Monitor.Outlined (assertions level tid) s) (hi : Awake s)
    (hok : NotifiesInTime s l) (hstep : Monitor.Step (threads tid) s l s') : Awake s' := by
  cases hstep with
  | call i k hm hc =>
      obtain ⟨t, r, op, rfl, -, rfl, -⟩ := writer_of_call hc (ho.here i hm)
      exact hi.of_eq (by simp) (by simp) id
  | act i f hm hst =>
      cases i with
      | writer t => exact hi.of_eq (by simp) (by simp) id
      | background =>
          intro hn
          replace hn : Notified (s.pc .destructor) := by simpa using hn
          refine ⟨?_, (hi hn).2⟩
          simpa using next_ne_cond hst (stop_of_notified ho hn) (ho.here _ hm).1
      | destructor =>
          -- `stop_ = true` comes before the notification
          have hhere : destructorHere (s.pc .destructor) s.data := ho.here _ hm
          intro hn
          cases hpc : s.pc .destructor <;> rw [hpc] at hhere <;>
            simp only [threads, stmt, hpc, reduceCtorEq, Stmt.act.injEq] at hst <;> subst hst
          case alive => simp [Notified] at hn
          all_goals exact hhere.elim
  | await i cond next hm hst hc =>
      exact hi.next hst rfl (fun h => by rw [h] at hst; cases hst) rfl id
  | lock i next hm hst hfree =>
      exact hi.next hst rfl (fun h => by rw [h] at hst; cases hst) rfl id
  | unlock i next hm hst how =>
      exact hi.next hst rfl (fun h => by rw [h] at hst; cases hst) rfl id
  | wait i next hm hst how =>
      have hcond : s.pc i = .cond := stmt_eq_wait hst
      have hhere := ho.here i hm
      rw [hcond] at hhere
      cases i with
      | writer t => exact hhere.elim
      | background => exact fun hn => ((hi (by simpa using hn)).1 hcond).elim
      | destructor => exact hhere.elim
  | notifyOne i next woken hm hst hw =>
      by_cases hstop : s.pc i = .stopNotify
      · have hhere := ho.here i hm
        rw [hstop] at hhere
        cases i with
        | writer t => exact hhere.elim
        | background => exact hhere.1.elim
        | destructor =>
            have hcond : s.pc .background ≠ .cond := hok
            exact fun _ => ⟨by simpa using hcond, not_blocked_of_mayWake ho hw⟩
      · exact hi.next hst rfl hstop rfl wake_not_blocked
  | notifyAll i next hm hst =>
      refine hi.next hst rfl (fun h => by rw [h] at hst; cases hst) rfl fun h => ?_
      cases hold : s.mode .background <;> simp_all
  | spuriousWakeup i hm => exact hi.of_eq rfl rfl wake_not_blocked
  | reacquire i hm hfree =>
      refine hi.of_eq rfl rfl fun h => ?_
      by_cases hb : LogThread.background = i
      · subst hb; simp at h
      · simpa [hb] using h

/-- A destructor that notifies in time does not wait for a blocked thread. -/
theorem not_waits_of_run (hok : AllSteps (Monitor.step (threads tid)) NotifiesInTime (init n level) ls)
    (hrun : run (Monitor.step (threads tid)) (init n level) ls = some s) : ¬ Waits s := by
  have h0 : Monitor.Outlined (assertions level tid) (init n level) ∧ Awake (init n level) :=
    ⟨outlined (run_nil _ _), False.elim⟩
  have hinv := Monitor.inv_of_allSteps NotifiesInTime
    (fun s => Monitor.Outlined (assertions level tid) s ∧ Awake s)
    (fun s l s' hi hok hstep => ⟨hi.1.step (outline level tid) hstep, hi.2.step hi.1 hok hstep⟩)
    h0 hok hrun
  rintro ⟨hjoin, -, hblocked⟩
  exact (hinv.2 (by rw [hjoin]; trivial)).2 hblocked

/-! ### A lost notification -/

/-- Before the thread of `run_impl` blocks, the threads of `l` that are about to notify may do so;
it is lost on it. -/
theorem notifies_lost (l : List (Fin n)) (ho : Monitor.Outlined (assertions level tid) s)
    (hcond : s.pc .background = .cond) :
    ∃ ls s', run (Monitor.step (threads tid)) s ls = some s' ∧
      Monitor.Outlined (assertions level tid) s' ∧ s'.pc .background = .cond ∧
      s'.pc .destructor = s.pc .destructor ∧
      ∀ t, (t ∈ l ∨ s.pc (.writer t) ≠ .notify) → s'.pc (.writer t) ≠ .notify := by
  induction l generalizing s with
  | nil => exact ⟨[], s, rfl, ho, hcond, rfl, by simp⟩
  | cons u l ih =>
      by_cases hu : s.pc (.writer u) = .notify
      · have hm : s.mode (.writer u) = .running := ho.running_of_not_parked fun h => nomatch h.1
        -- only the thread of `run_impl` blocks, and it is not blocked yet
        have hw : s.MayWake [] := by
          refine ⟨nofun, fun _ j hj => ?_⟩
          have hparked := ho.parked j (by rw [hj]; nofun)
          rw [hparked.1, hcond] at hparked
          exact nomatch hparked.2.1
        have hst : (threads tid).stmt (.writer u) (s.pc (.writer u)) = .notifyOne .endlReturn := by
          rw [hu]
          rfl
        have hstep := Monitor.Step.notifyOne _ _ [] hm hst hw
        obtain ⟨ls, s', hrun, ho', hcond', hd, hnone⟩ :=
          ih (ho.step (outline level tid) hstep) (by simpa using hcond)
        refine ⟨.signal (.writer u) [] :: ls, s', ?_, ho', hcond', by simpa using hd, fun t ht => ?_⟩
        · exact (run_cons_of_some (Monitor.step_complete hstep)).trans hrun
        · refine hnone t ?_
          by_cases htu : t = u
          · subst htu; simp
          · have hne : LogThread.writer t ≠ .writer u := fun h => htu (LogThread.writer.inj h)
            simpa [htu, hne] using ht
      · obtain ⟨ls, s', hrun, ho', hcond', hd, hnone⟩ := ih ho hcond
        refine ⟨ls, s', hrun, ho', hcond', hd, fun t ht => hnone t ?_⟩
        by_cases htu : t = u
        · subst htu; exact .inr hu
        · simpa [htu] using ht

/-- A destructor that notifies too early may never return. -/
theorem hung_of_late (ho : Monitor.Outlined (assertions level tid) s)
    (hstep : s.step (threads tid) l = some s') (hl : ¬ NotifiesInTime s l) :
    ∃ ls s'', run (Monitor.step (threads tid)) s' ls = some s'' ∧ Hung s'' := by
  have hout := ho.step (outline level tid) (Monitor.step_sound hstep)
  obtain ⟨hcond, hjoin⟩ : s'.pc .background = .cond ∧ s'.pc .destructor = .join := by
    cases Monitor.step_sound hstep with
    | notifyOne i next woken hm hst hw =>
        cases i with
        | destructor =>
            have hcond : s.pc .background = .cond := Decidable.of_not_not hl
            have hhere : destructorHere (s.pc .destructor) s.data := ho.here _ hm
            refine ⟨by simpa using hcond, ?_⟩
            cases hpc : s.pc .destructor <;> rw [hpc] at hhere <;>
              simp only [threads, stmt, hpc, reduceCtorEq, Stmt.notifyOne.injEq] at hst
            case stopNotify => simp [← hst]
            all_goals exact hhere.elim
        | writer t => exact (hl trivial).elim
        | background => exact (hl trivial).elim
    | _ => exact (hl trivial).elim
  obtain ⟨ls, t, hrun, ht, hcond', hjoin', hnone⟩ :=
    notifies_lost (List.finRange n) hout hcond
  -- now it blocks
  have hm : t.mode .background = .running :=
    ht.running_of_not_parked fun h => by
      rw [hcond'] at h
      cases h.2.1
  have how : t.owner = some .background :=
    (ht.owner_iff hm).mpr (by rw [hcond']; exact Nat.one_ne_zero)
  have hst : (threads tid).stmt .background (t.pc .background) = .wait .predicate := by
    rw [hcond']
    rfl
  have hwait := Monitor.step_complete (Monitor.Step.wait LogThread.background _ hm hst how)
  refine ⟨ls ++ [.next .background],
    (t.release.goto .background .predicate).setMode .background .blocked, ?_,
    ⟨⟨?_, ?_, ?_⟩, fun u => ?_⟩⟩
  · rw [run_append, hrun, Option.bind_some]
    exact run_cons_of_some hwait
  · simpa using hjoin'.trans hjoin
  · simp
  · simp
  · simpa using hnone u (.inl (List.mem_finRange u))

/-- **Whether the destructor returns.** In a run in which the destructor does not notify between the
test of the predicate and the wait, it never waits for a blocked thread. When it does, it may from
then on wait for ever. -/
theorem shutdown_spec (n : Nat) (level : Int) (tid : LogThread n → List Byte) :
    (∀ (ls : List (MonitorLabel (LogThread n) LogPc))
        (s : Monitor (LogThread n) (AsyncLogger n) LogPc),
      AllSteps (Monitor.step (threads tid)) NotifiesInTime (init n level) ls →
      run (Monitor.step (threads tid)) (init n level) ls = some s → ¬ Waits s) ∧
    ∀ (ls : List (MonitorLabel (LogThread n) LogPc)) (l : MonitorLabel (LogThread n) LogPc)
        (s s' : Monitor (LogThread n) (AsyncLogger n) LogPc),
      run (Monitor.step (threads tid)) (init n level) ls = some s →
      s.step (threads tid) l = some s' → ¬ NotifiesInTime s l →
      ∃ ls' s'', run (Monitor.step (threads tid)) s' ls' = some s'' ∧ Hung s'' :=
  ⟨fun _ _ hok hrun => not_waits_of_run hok hrun,
    fun _ _ _ _ hrun hstep hl => hung_of_late (outlined hrun) hstep hl⟩

/-- Nothing is logged, and the destructor notifies before the thread of `run_impl` tests the
predicate. -/
theorem shutdown_spec_zero :
    ∃ s, run (Monitor.step (threads fun _ => bytesOf "7")) (init 0 1)
        (List.replicate 3 (.next .background) ++ [.next .destructor, .signal .destructor [],
          .next .background]) = some s ∧
      s.pc .destructor = .join ∧ ¬ Waits s :=
  ⟨_, rfl, rfl, (shutdown_spec 0 1 fun _ => bytesOf "7").1
    (List.replicate 3 (.next .background) ++ [.next .destructor, .signal .destructor [],
      .next .background]) _ (by decide) rfl⟩

/-- The notification comes between the test of the predicate and the wait. -/
theorem shutdown_hangs :
    ¬ ∀ (n : Nat) (level : Int) (tid : LogThread n → List Byte)
        (ls : List (MonitorLabel (LogThread n) LogPc))
        (s : Monitor (LogThread n) (AsyncLogger n) LogPc),
      run (Monitor.step (threads tid)) (init n level) ls = some s → ¬ Hung s := by
  intro h
  exact h 0 1 (fun _ => bytesOf "7")
    (List.replicate 4 (.next .background) ++ [.next .destructor, .signal .destructor [],
      .next .background]) _ rfl ⟨⟨rfl, rfl, rfl⟩, fun t => t.elim0⟩

end AsyncLogger

end Cppev
