import Cppev.Lib.Transition
import Mathlib.Logic.Function.Basic

/-!
# Polling a child that has terminated

A program with any number of `subp_open` objects, their children, and the kernel, which reports a
terminated child once. `poll` ends the calling process when `waitpid` fails.

* `Inv.polled`: an object has no other record of a reported child than the kernel's.
* `steady_iff`: all polls of an object agree, and the process goes on, if and only if no object is
  polled after it has reported the end of its child.
-/

namespace Cppev

/-! ## Parent and child -/

/-- What the kernel keeps of a child. -/
inductive Child where
  | running
  /-- Terminated, with this status, which nobody has asked for yet. -/
  | zombie (status : Int)
  | reaped
  deriving DecidableEq, Repr

/-- `waitpid(pid, &status, WNOHANG)`: what it returns, and what it stores. -/
def Child.waitpid (pid : Int) : Child → Int × Option Int × Child
  | .running => (0, none, .running)
  | .zombie status => (pid, some status, .reaped)
  | .reaped => (-1, none, .reaped)

/-- Where the program is with an object. -/
inductive PollPc where
  | idle
  /-- In `wait`, between two polls. -/
  | waiting
  /-- In the `wait` of an `exec_cmd`, which has constructed the object and will destroy it. -/
  | executing
  deriving DecidableEq, Repr

/-- A `subp_open`, with its child. -/
structure SubpOpen where
  pid : Int
  returncode : Int
  child : Child
  pc : PollPc
  /-- The history: what each `poll` has returned, with the `returncode()` after it. -/
  reports : List (Bool × Int)
  deriving DecidableEq, Repr

/-- What has been reported once is reported always, and the kernel knows about it. -/
structure SubpOpen.Inv (p : SubpOpen) : Prop where
  pid_pos : 0 < p.pid
  reaped_iff : p.child = .reaped ↔ ∃ r ∈ p.reports, r.1 = true
  repeats : p.reports.Pairwise fun r r' => r.1 = true → r' = r

/-- A program; `_exit` ends it. -/
structure Parent (ι : Type) where
  subps : ι → Option SubpOpen
  exited : Bool

/-- A child terminates, or the parent takes a step of a call. -/
inductive ParentLabel (ι : Type) where
  /-- The constructor. `returncode_` is not initialised. -/
  | construct (i : ι) (pid returncode : Int)
  | destroy (i : ι)
  /-- The child terminates. -/
  | terminate (i : ι) (status : Int)
  /-- A call of `poll`, or the next one in `wait`. -/
  | poll (i : ι)
  /-- A call of `wait`, up to its first `poll`. -/
  | wait (i : ι)
  /-- A call of `exec_cmd`, up to the first `poll` of its `wait`. -/
  | execCmd (i : ι) (pid returncode : Int)
  deriving DecidableEq, Repr

namespace Parent

variable {ι : Type} [DecidableEq ι]

/-! ### What the parent does -/

/-- The constructor, from `fork` on. -/
def construct (pid returncode : Int) (pc : PollPc) : SubpOpen :=
  { pid, returncode, child := .running, pc, reports := [] }

/-- A `poll` of `p`, called from `pc`. In `wait`, it is the last one if it returns `true`. -/
def polled (s : Parent ι) (i : ι) (p : SubpOpen) (pc : PollPc) : Parent ι :=
  let (ret, stored, child) := p.child.waitpid p.pid
  if ret = -1 then { s with exited := true }
  else
    let returncode := stored.getD p.returncode
    let p := { p with returncode, child, reports := p.reports ++ [(decide (ret ≠ 0), returncode)] }
    { s with
      subps := Function.update s.subps i
        (if ret = 0 then some { p with pc }
        else if pc = .executing then none
        else some { p with pc := .idle }) }

def step (s : Parent ι) (l : ParentLabel ι) : Option (Parent ι) :=
  if s.exited = true then none
  else
    match l with
    | .construct i pid returncode =>
      if s.subps i = none ∧ 0 < pid then
        some { s with subps := Function.update s.subps i (some (construct pid returncode .idle)) }
      else none
    | .destroy i =>
      match s.subps i with
      | some p => if p.pc = .idle then some { s with subps := Function.update s.subps i none } else none
      | none => none
    | .terminate i status =>
      match s.subps i with
      | some p =>
        if p.child = .running then
          some { s with subps := Function.update s.subps i (some { p with child := .zombie status }) }
        else none
      | none => none
    | .poll i =>
      match s.subps i with
      | some p => some (s.polled i p p.pc)
      | none => none
    | .wait i =>
      match s.subps i with
      | some p => if p.pc = .idle then some (s.polled i p .waiting) else none
      | none => none
    | .execCmd i pid returncode =>
      if s.subps i = none ∧ 0 < pid then
        some (s.polled i (construct pid returncode .idle) .executing)
      else none

/-- A program without subprocesses. -/
def init : Parent ι := { subps := fun _ => none, exited := false }

/-- The end of the child has not been reported. -/
def Unreported (s : Parent ι) (i : ι) : Prop :=
  ∀ p ∈ s.subps i, ∀ r ∈ p.reports, r.1 = false

/-- `poll` and `wait` are not called after that. -/
def Proper (s : Parent ι) : ParentLabel ι → Prop
  | .poll i | .wait i => s.Unreported i
  | _ => True

instance (s : Parent ι) (i : ι) : Decidable (s.Unreported i) :=
  inferInstanceAs (Decidable (∀ p ∈ s.subps i, ∀ r ∈ p.reports, r.1 = false))

instance (s : Parent ι) : (l : ParentLabel ι) → Decidable (s.Proper l)
  | .poll i | .wait i => inferInstanceAs (Decidable (s.Unreported i))
  | .construct .. | .destroy _ | .terminate .. | .execCmd .. => isTrue trivial

/-- The process goes on, and what has been reported once is reported always. -/
structure Steady (s : Parent ι) : Prop where
  goesOn : s.exited = false
  repeats : ∀ i p, s.subps i = some p → p.reports.Pairwise fun r r' => r.1 = true → r' = r

/-- An invariant of the objects there are. -/
def Inv (s : Parent ι) : Prop := ∀ i p, s.subps i = some p → p.Inv

variable {s s' : Parent ι} {i : ι} {p : SubpOpen} {l : ParentLabel ι}

theorem inv_construct {pid : Int} (hpid : 0 < pid) (returncode : Int) (pc : PollPc) :
    (construct pid returncode pc).Inv :=
  ⟨hpid, by simp [construct], List.Pairwise.nil⟩

/-! ## A step

The steps of all calls, with what they ask for. -/

/-- Everything that a step can do. -/
inductive Stepped (s : Parent ι) : ParentLabel ι → Parent ι → Prop
  | construct (i : ι) (pid returncode : Int) (hnew : s.subps i = none) (hpid : 0 < pid) :
      Stepped s (.construct i pid returncode) { s with
        subps := Function.update s.subps i (some (Parent.construct pid returncode .idle)) }
  | destroy (i : ι) :
      Stepped s (.destroy i) { s with subps := Function.update s.subps i none }
  | terminate (i : ι) (status : Int) (p : SubpOpen) (hp : s.subps i = some p)
      (hrunning : p.child = .running) :
      Stepped s (.terminate i status) { s with
        subps := Function.update s.subps i (some { p with child := .zombie status }) }
  | poll (i : ι) (p : SubpOpen) (hp : s.subps i = some p) :
      Stepped s (.poll i) (s.polled i p p.pc)
  | wait (i : ι) (p : SubpOpen) (hp : s.subps i = some p) :
      Stepped s (.wait i) (s.polled i p .waiting)
  | execCmd (i : ι) (pid returncode : Int) (hnew : s.subps i = none) (hpid : 0 < pid) :
      Stepped s (.execCmd i pid returncode)
        (s.polled i (Parent.construct pid returncode .idle) .executing)

theorem stepped_of_step (h : step s l = some s') : s.exited = false ∧ Stepped s l s' := by
  unfold step at h
  split at h
  case isTrue => cases h
  case isFalse hrunning =>
    refine ⟨Bool.eq_false_iff.mpr hrunning, ?_⟩
    cases l with
    | construct i pid returncode =>
        simp only at h
        split at h
        case isFalse => cases h
        case isTrue hnew =>
          cases h
          exact .construct i pid returncode hnew.1 hnew.2
    | destroy i =>
        simp only at h
        split at h
        case h_2 => cases h
        case h_1 =>
          split at h
          case isFalse => cases h
          case isTrue =>
            cases h
            exact .destroy i
    | terminate i status =>
        simp only at h
        split at h
        case h_2 => cases h
        case h_1 p hp =>
          split at h
          case isFalse => cases h
          case isTrue hchild =>
            cases h
            exact .terminate i status p hp hchild
    | poll i =>
        simp only at h
        split at h
        case h_2 => cases h
        case h_1 p hp =>
          cases h
          exact .poll i p hp
    | wait i =>
        simp only at h
        split at h
        case h_2 => cases h
        case h_1 p hp =>
          split at h
          case isFalse => cases h
          case isTrue =>
            cases h
            exact .wait i p hp
    | execCmd i pid returncode =>
        simp only at h
        split at h
        case isFalse => cases h
        case isTrue hnew =>
          cases h
          exact .execCmd i pid returncode hnew.1 hnew.2

/-! ## A poll

What one `waitpid` does: nothing while the child runs, a report when it is a zombie, and the end of
the process when it has been reported. -/

/-- The object afterwards, when the child has not been reported before. -/
theorem polled_of_running (hchild : p.child = .running) (pc : PollPc) :
    s.polled i p pc = { s with subps := Function.update s.subps i (some { p with
      pc, child := .running, reports := p.reports ++ [(false, p.returncode)] }) } := by
  simp [polled, hchild, Child.waitpid]

theorem polled_of_zombie (hpid : 0 < p.pid) {status : Int} (hchild : p.child = .zombie status)
    (pc : PollPc) :
    s.polled i p pc = { s with
      subps := Function.update s.subps i
        (if pc = .executing then none
        else some { p with
          returncode := status, child := .reaped, pc := .idle
          reports := p.reports ++ [(true, status)] }) } := by
  have hret : ¬ p.pid = -1 := by omega
  have htrue : ¬ p.pid = 0 := by omega
  simp [polled, hchild, Child.waitpid, hret, htrue]

theorem polled_of_reaped (hchild : p.child = .reaped) (pc : PollPc) :
    s.polled i p pc = { s with exited := true } := by
  simp [polled, hchild, Child.waitpid]

/-- The process goes on if and only if the end of the child has not been reported. -/
theorem exited_polled (hp : p.Inv) (hrunning : s.exited = false) (pc : PollPc) :
    (s.polled i p pc).exited = false ↔ ∀ r ∈ p.reports, r.1 = false := by
  have hreported : p.child ≠ .reaped ↔ ∀ r ∈ p.reports, r.1 = false := by
    rw [Ne, hp.reaped_iff]
    simp
  rw [← hreported]
  cases hchild : p.child with
  | running => simp [polled_of_running hchild, hrunning]
  | zombie status => simp [polled_of_zombie hp.pid_pos hchild, hrunning]
  | reaped => simp [polled_of_reaped hchild]

/-- One report more, the first one that is `true` at most. -/
theorem inv_report (hp : p.Inv) (hchild : p.child ≠ .reaped) {q : SubpOpen} {r : Bool × Int}
    (hpid : q.pid = p.pid) (hreports : q.reports = p.reports ++ [r])
    (hreaped : q.child = .reaped ↔ r.1 = true) : q.Inv := by
  have hnone : ¬ ∃ r ∈ p.reports, r.1 = true := fun h => hchild (hp.reaped_iff.mpr h)
  refine ⟨hpid ▸ hp.pid_pos, ?_, ?_⟩
  · rw [hreaped, hreports]
    simp only [List.mem_append, List.mem_singleton, or_and_right, exists_or, hnone, false_or,
      exists_eq_left]
  · rw [hreports, List.pairwise_append]
    refine ⟨hp.repeats, List.pairwise_singleton _ _, fun q hq _ _ htrue => ?_⟩
    exact absurd ⟨q, hq, htrue⟩ hnone

theorem inv_update (hs : s.Inv) (i : ι) {x : Option SubpOpen} (hx : ∀ p, x = some p → p.Inv) :
    Inv { s with subps := Function.update s.subps i x } := by
  intro j q hq
  by_cases hji : j = i
  · subst hji
    exact hx q (by simpa using hq)
  · exact hs j q (by simpa [hji] using hq)

theorem inv_polled (hs : s.Inv) (hp : p.Inv) (i : ι) (pc : PollPc) : (s.polled i p pc).Inv := by
  cases hchild : p.child with
  | running =>
      rw [polled_of_running hchild]
      refine inv_update hs i fun q hq => ?_
      obtain rfl := Option.some.inj hq
      exact inv_report hp (by simp [hchild]) rfl rfl (by simp)
  | zombie status =>
      rw [polled_of_zombie hp.pid_pos hchild]
      refine inv_update hs i fun q hq => ?_
      split at hq
      case isTrue => cases hq
      case isFalse =>
        obtain rfl := Option.some.inj hq
        exact inv_report hp (by simp [hchild]) rfl rfl (by simp)
  | reaped =>
      rw [polled_of_reaped hchild]
      exact hs

theorem Inv.step (hs : s.Inv) (h : Stepped s l s') : s'.Inv := by
  cases h with
  | construct i pid returncode hnew hpid =>
      refine inv_update hs i fun q hq => ?_
      exact Option.some.inj hq ▸ inv_construct hpid returncode .idle
  | destroy i => exact inv_update hs i nofun
  | terminate i status p hp hrunning =>
      have hold := hs i p hp
      refine inv_update hs i fun q hq => ?_
      obtain rfl := Option.some.inj hq
      -- a running child has not been reported
      refine ⟨hold.pid_pos, iff_of_false (by simp) fun h => ?_, hold.repeats⟩
      exact absurd (hold.reaped_iff.mpr h) (by simp [hrunning])
  | poll i p hp => exact inv_polled hs (hs i p hp) i _
  | wait i p hp => exact inv_polled hs (hs i p hp) i _
  | execCmd i pid returncode hnew hpid => exact inv_polled hs (inv_construct hpid _ _) i _

/-! ## The theorem -/

/-- Which steps the process survives. -/
theorem exited_step (hs : s.Inv) (h : step s l = some s') : s.Proper l ↔ s'.exited = false := by
  obtain ⟨hrunning, hstepped⟩ := stepped_of_step h
  cases hstepped with
  | construct | destroy | terminate => exact iff_of_true trivial hrunning
  | poll i p hp | wait i p hp =>
      rw [exited_polled (hs i p hp) hrunning]
      simp only [Proper, Unreported, hp, Option.mem_some_iff, forall_eq']
  | execCmd i pid returncode hnew hpid =>
      rw [exited_polled (inv_construct hpid _ _) hrunning]
      exact iff_of_true trivial (by simp [construct])

/-- **Polls of a finished child.** In every run, all steps are as `Proper` says if and only if the
process goes on, and after a poll that returned `true` all polls of the object did, with the same
`returncode`. -/
theorem steady_iff (ls : List (ParentLabel ι)) (s : Parent ι) (hrun : run step init ls = some s) :
    AllSteps step Proper init ls ↔ s.Steady := by
  have hinv : ∀ (s : Parent ι) l s', s.Inv → step s l = some s' → s'.Inv := fun s l s' hs h =>
    hs.step (stepped_of_step h).2
  have hinit : Inv (init : Parent ι) := fun i p hp => nomatch hp
  have hiff : AllSteps step Proper init ls ↔ s.exited = false :=
    allSteps_iff_last (P := fun s => s.exited = false) hinv
      (fun s l s' hs _ h => exited_step hs h) (fun s l s' _ h _ => (stepped_of_step h).1)
      hinit rfl hrun
  have hs : s.Inv := run_inv step (fun _ _ => True) Inv (fun _ _ _ hi _ => hinv _ _ _ hi) hinit
    (allSteps_true ..) hrun
  rw [hiff]
  exact ⟨fun h => ⟨h, fun i p hp => (hs i p hp).repeats⟩, fun h => h.goesOn⟩

/-- One child is polled before and after its end, and waited for another time by `exec_cmd`. -/
def polledTwice : List (ParentLabel (Fin 2)) :=
  let i : Fin 2 := ⟨0, Nat.zero_lt_two⟩
  let j : Fin 2 := ⟨1, Nat.one_lt_two⟩
  [.construct i 7 0, .poll i, .execCmd j 8 0, .terminate i 256, .terminate j 0, .poll j, .poll i]

/-- Two polls, the child terminating in between. -/
theorem steady_iff_polledTwice : ∃ s, run step init polledTwice = some s ∧ s.Steady := by
  have hok : AllSteps step Proper init polledTwice := by decide +kernel
  obtain ⟨s, hs⟩ := Option.isSome_iff_exists.mp
    (show (run step init polledTwice).isSome = true by decide +kernel)
  exact ⟨s, hs, (steady_iff polledTwice s hs).mp hok⟩

/-- `wait` after a `poll` that has returned `true`. -/
theorem waited_again :
    ¬ ∀ (ls : List (ParentLabel (Fin 1))) (s : Parent (Fin 1)),
      run step init ls = some s → s.Steady := by
  intro h
  have hexited : (run step init [.construct (0 : Fin 1) 7 0, .terminate 0 256, .poll 0, .wait 0]).map
      (fun s => s.exited) = some true := by
    decide +kernel
  obtain ⟨s, hs, hyes⟩ := Option.map_eq_some_iff.mp hexited
  exact absurd ((h _ s hs).goesOn.symm.trans hyes) (by decide)

end Parent

end Cppev
