import Cppev.Lib.Transition
import Cppev.Nio.Basic

/-!
# When `acquire` fails

One call of `semaphore::acquire`, among others that take and release units of the same semaphore. A
`sem_wait` may fail in any round of the loop, and the exception leaves the loop.

* `Inv.step`: the caller holds a unit more for every round.
* `restored_iff`: a call that throws leaves the caller with as many units as before if and only if it
  is the first `sem_wait` that has failed.
-/

namespace Cppev

/-! ## A call of acquire

`count` rounds of `sem_wait`; what others do with the semaphore happens in between. -/

/-- A call of `acquire`. -/
structure AcquireCall where
  value : Nat
  /-- How many units the caller holds. -/
  held : Nat
  /-- `i`, which counts the rounds. -/
  round : Int
  thrown : Option Exn
  deriving DecidableEq, Repr

inductive AcquireLabel where
  /-- `sem_wait` returns 0. -/
  | wait
  /-- `sem_wait` returns -1. -/
  | fail (e : Errno)
  /-- Another process or thread releases a unit, or takes one. -/
  | post
  | take
  deriving DecidableEq, Repr

namespace AcquireCall

/-- The loop goes on. -/
def Running (count : Int) (s : AcquireCall) : Prop := s.thrown = none ∧ s.round < count

instance (count : Int) (s : AcquireCall) : Decidable (s.Running count) :=
  inferInstanceAs (Decidable (_ ∧ _))

def step (count : Int) (s : AcquireCall) : AcquireLabel → Option AcquireCall
  | .wait =>
    if s.Running count ∧ 0 < s.value then
      some { s with value := s.value - 1, held := s.held + 1, round := s.round + 1 }
    else none
  | .fail e =>
    if s.Running count then some { s with thrown := some (.systemError "sem_wait error" e) }
    else none
  | .post => some { s with value := s.value + 1 }
  | .take => if 0 < s.value then some { s with value := s.value - 1 } else none

/-- The call, when the caller holds `held` units already. -/
def init (value held : Nat) : AcquireCall := { value, held, round := 0, thrown := none }

/-! ## When a failed call leaves no trace

The units that a call has got are those of its rounds; they are not given back. -/

/-- The caller has what it has had before, if the call has thrown. -/
def Restored (held : Nat) (s : AcquireCall) : Prop := s.thrown ≠ none → s.held = held

/-- No `sem_wait` but the first one fails. -/
def Proper (s : AcquireCall) : AcquireLabel → Prop
  | .fail _ => s.round = 0
  | _ => True

instance (s : AcquireCall) : (l : AcquireLabel) → Decidable (s.Proper l)
  | .fail _ => inferInstanceAs (Decidable (s.round = 0))
  | .wait | .post | .take => isTrue trivial

/-- A unit for every round. -/
def Inv (held : Nat) (s : AcquireCall) : Prop := (s.held : Int) = held + s.round

variable {count : Int} {held : Nat} {s s' : AcquireCall} {l : AcquireLabel}

theorem step_cases (h : step count s l = some s') :
    (l = .wait ∧ s.thrown = none ∧ s' = { s with
      value := s.value - 1, held := s.held + 1, round := s.round + 1 }) ∨
    (∃ e, l = .fail e ∧ s.thrown = none ∧
      s' = { s with thrown := some (.systemError "sem_wait error" e) }) ∨
    ((l = .post ∨ l = .take) ∧ ∃ value, s' = { s with value }) := by
  cases l with
  | wait =>
      simp only [step] at h
      split at h
      case isTrue hrunning => exact .inl ⟨rfl, hrunning.1.1, (Option.some.inj h).symm⟩
      case isFalse => cases h
  | fail e =>
      simp only [step] at h
      split at h
      case isTrue hrunning => exact .inr (.inl ⟨e, rfl, hrunning.1, (Option.some.inj h).symm⟩)
      case isFalse => cases h
  | post => exact .inr (.inr ⟨.inl rfl, _, (Option.some.inj h).symm⟩)
  | take =>
      simp only [step] at h
      split at h
      case isTrue => exact .inr (.inr ⟨.inr rfl, _, (Option.some.inj h).symm⟩)
      case isFalse => cases h

theorem Inv.step (hi : s.Inv held) (h : step count s l = some s') : s'.Inv held := by
  unfold Inv at hi ⊢
  obtain ⟨-, -, rfl⟩ | ⟨e, -, -, rfl⟩ | ⟨-, value, rfl⟩ := step_cases h
  · simp only
    omega
  · exact hi
  · exact hi

theorem proper_iff_restored (hi : s.Inv held) (hr : s.Restored held)
    (h : step count s l = some s') : s.Proper l ↔ s'.Restored held := by
  unfold Inv at hi
  obtain ⟨rfl, hnone, rfl⟩ | ⟨e, rfl, -, rfl⟩ | ⟨hl, value, rfl⟩ := step_cases h
  · exact iff_of_true trivial fun hthrown => absurd hnone hthrown
  · show s.round = 0 ↔ (some _ ≠ none → s.held = held)
    simp only [ne_eq, reduceCtorEq, not_false_eq_true, forall_true_left]
    omega
  · refine iff_of_true ?_ hr
    rcases hl with rfl | rfl <;> trivial

/-- What has not been given back when the call throws is not given back later. -/
theorem restored_of_step (h : step count s l = some s') (hr : s'.Restored held) :
    s.Restored held := by
  obtain ⟨-, hnone, -⟩ | ⟨e, -, hnone, -⟩ | ⟨-, value, rfl⟩ := step_cases h
  · exact fun hthrown => absurd hnone hthrown
  · exact fun hthrown => absurd hnone hthrown
  · exact hr

/-- **Failed requests.** For every count and every value of the semaphore, whatever the others do
and whichever `sem_wait` fails. -/
theorem restored_iff (count : Int) (value held : Nat) (ls : List AcquireLabel) (s : AcquireCall)
    (hrun : run (step count) (init value held) ls = some s) :
    AllSteps (step count) Proper (init value held) ls ↔ (s.thrown ≠ none → s.held = held) :=
  allSteps_iff_last (I := Inv held) (P := Restored held) (fun _ _ _ hi h => hi.step h)
    (fun _ _ _ hi hr h => proper_iff_restored hi hr h) (fun _ _ _ _ h hr => restored_of_step h hr)
    (by simp [Inv, init]) (fun hthrown => absurd rfl hthrown) hrun

/-- The first `sem_wait` of three is interrupted. -/
theorem restored_iff_interrupted :
    run (step 3) (init 5 1) [.take, .fail .EINTR] =
        some ⟨4, 1, 0, some (.systemError "sem_wait error" .EINTR)⟩ ∧
      AllSteps (step 3) Proper (init 5 1) [.take, .fail .EINTR] :=
  ⟨by decide, (restored_iff 3 5 1 [.take, .fail .EINTR]
    ⟨4, 1, 0, some (.systemError "sem_wait error" .EINTR)⟩ (by decide)).mpr (by decide)⟩

/-- The second one is, and the unit taken by the first one is kept. -/
theorem unit_kept :
    ¬ ∀ (count : Int) (value held : Nat) (ls : List AcquireLabel) (s : AcquireCall),
      run (step count) (init value held) ls = some s → s.thrown ≠ none → s.held = held := by
  intro h
  have hheld := h 2 1 0 [.wait, .fail .EINTR]
    ⟨0, 1, 1, some (.systemError "sem_wait error" .EINTR)⟩ (by decide) (by decide)
  exact absurd hheld (by decide)

end AcquireCall

end Cppev
