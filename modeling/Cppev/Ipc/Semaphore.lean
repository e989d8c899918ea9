import Cppev.Lib.Transition
import Mathlib.Algebra.Order.BigOperators.Group.Finset
import Mathlib.Algebra.BigOperators.Fin

/-!
# Requests for several units

`semaphore::acquire` is a loop of single `sem_wait` calls, and `release` one of `sem_post` calls. Any
number of processes are in `acquire` at the same time, each with its own `count`, and units are
released meanwhile. A process that is blocked keeps the units it has got so far.

* `accounts_of_run`: no unit is lost.
* `exists_stuck`: requests that take all but one of their units each.
* `stuck_free_iff`: when the processes can keep each other from units that would be enough for one.
-/

namespace Cppev

open Finset

/-! ## Processes in `acquire` -/

/-- The value of the semaphore, and for each process, how many rounds of its loop are done. -/
structure Acquiring (ι : Type) where
  value : Nat
  taken : ι → Nat

inductive SemLabel (ι : Type) where
  /-- A round of the loop of `acquire`: its `sem_wait` returns. -/
  | wait (i : ι)
  /-- A round of the loop of `release`, of any process. -/
  | post
  deriving DecidableEq, Repr

namespace Acquiring

variable {ι : Type} [DecidableEq ι]

/-- Process `i` is in `acquire(count i)`. -/
def step (count : ι → Nat) (s : Acquiring ι) : SemLabel ι → Option (Acquiring ι)
  | .wait i =>
    if s.taken i < count i ∧ 0 < s.value then
      some ⟨s.value - 1, Function.update s.taken i (s.taken i + 1)⟩
    else none
  | .post => some { s with value := s.value + 1 }

/-- All processes have called `acquire`. -/
def init (value : Nat) : Acquiring ι := ⟨value, fun _ => 0⟩

/-- `i` is blocked in `sem_wait`. -/
def Blocked (count : ι → Nat) (s : Acquiring ι) (i : ι) : Prop :=
  s.taken i < count i ∧ s.value = 0

variable [Fintype ι] {count : ι → Nat} {s s' : Acquiring ι}

/-- All are blocked, with units that would be enough for one of the requests. -/
def Stuck (count : ι → Nat) (s : Acquiring ι) : Prop :=
  (∀ i, s.Blocked count i) ∧ ∃ i, count i ≤ s.value + ∑ j, s.taken j

/-! ## Units

A unit is in the semaphore or with a process. So many processes can each lack one unit as there are
units for all but one of each; this is where the bound of the theorem comes from. -/

theorem sum_update (f : ι → Nat) (i : ι) :
    ∑ j, Function.update f i (f i + 1) j = ∑ j, f j + 1 := by
  rw [sum_update_of_mem (mem_univ i), sdiff_singleton_eq_erase, ← add_sum_erase univ f (mem_univ i)]
  omega

/-- A unit that is there, or has been taken, remains one of the two. -/
theorem accounts_step {l : SemLabel ι} (h : step count s l = some s') :
    s.value + ∑ i, s.taken i ≤ s'.value + ∑ i, s'.taken i := by
  cases l with
  | wait i =>
      simp only [step] at h
      split at h
      case isFalse => cases h
      case isTrue hwait =>
        obtain rfl := Option.some.inj h
        have hsum := sum_update s.taken i
        simp only [hsum]
        omega
  | post =>
      obtain rfl := Option.some.inj h
      simp only
      omega

theorem accounts_of_run {value : Nat} {ls : List (SemLabel ι)}
    (hrun : run (step count) (init value) ls = some s) : value ≤ s.value + ∑ i, s.taken i := by
  refine run_inv (step count) (fun _ _ => True) (fun s => value ≤ s.value + ∑ i, s.taken i)
    (fun _ _ _ hi _ h => hi.trans (accounts_step h)) ?_ (allSteps_true ..) hrun
  exact Nat.le_add_right _ _

/-! ## Requests that block each other

One direction builds a run: units are posted until there is one less for every request than it
needs, and each process takes its own. The other one counts. -/

/-- Units for requests none of which gets its last unit. -/
theorem exists_run_wait (hle : ∀ i, s.taken i ≤ count i - 1)
    (hvalue : s.value + ∑ i, s.taken i ≤ ∑ i, (count i - 1)) :
    ∃ ls s', run (step count) s ls = some s' ∧ s'.value = 0 ∧ (∀ i, s'.taken i ≤ count i - 1) ∧
      s'.value + ∑ i, s'.taken i = s.value + ∑ i, s.taken i := by
  -- on the units that are left: each goes to a request that still lacks more than one
  induction hv : s.value generalizing s with
  | zero => exact ⟨[], s, rfl, hv, hle, by rw [hv]⟩
  | succ v ih =>
      have hlt : ∑ i, s.taken i < ∑ i, (count i - 1) := by omega
      obtain ⟨i, -, hi⟩ := exists_lt_of_sum_lt hlt
      let s₁ : Acquiring ι := ⟨v, Function.update s.taken i (s.taken i + 1)⟩
      have hstep : step count s (.wait i) = some s₁ := by
        simp only [step]
        rw [if_pos (by omega), hv, Nat.add_sub_cancel]
      have hsum : ∑ j, s₁.taken j = ∑ j, s.taken j + 1 := sum_update s.taken i
      have hle₁ : ∀ j, s₁.taken j ≤ count j - 1 := fun j => by
        by_cases hji : j = i
        · subst hji
          simp only [s₁, Function.update_self]
          omega
        · simpa [s₁, hji] using hle j
      have hvalue₁ : s₁.value + ∑ j, s₁.taken j ≤ ∑ j, (count j - 1) := by
        simp only [hsum, s₁]
        omega
      obtain ⟨ls, s', hrun, hzero, hle', heq⟩ := @ih s₁ hle₁ hvalue₁ rfl
      refine ⟨.wait i :: ls, s', by rw [run_cons_of_some hstep, hrun], hzero, hle', ?_⟩
      omega

omit [Fintype ι] in
theorem run_posts (s : Acquiring ι) (n : Nat) :
    run (step count) s (List.replicate n .post) = some { s with value := s.value + n } := by
  induction n generalizing s with
  | zero => rfl
  | succ n ih =>
      have hstep : step count s .post = some { s with value := s.value + 1 } := rfl
      rw [List.replicate_succ, run_cons_of_some hstep, ih]
      simp [Nat.add_assoc, Nat.add_comm 1 n]

/-- Two requests, one of them for more than one unit: all but one unit of each are enough for one of
them. -/
theorem exists_le_sum (hcount : ∀ i, 1 ≤ count i) (hcard : 1 < Fintype.card ι)
    (hmany : ∃ i, count i ≠ 1) : ∃ i, count i ≤ ∑ j, (count j - 1) := by
  obtain ⟨i, hi⟩ := hmany
  have htwo : 2 ≤ count i := by
    have := hcount i
    omega
  by_cases hone : ∃ j, count j = 1
  -- the rest of the large request is enough for one that needs a single unit
  · obtain ⟨j, hj⟩ := hone
    have hle : count i - 1 ≤ ∑ k, (count k - 1) :=
      single_le_sum (f := fun k => count k - 1) (fun _ _ => Nat.zero_le _) (mem_univ i)
    exact ⟨j, by omega⟩
  · obtain ⟨j, hji⟩ := Fintype.exists_ne_of_one_lt_card hcard i
    have hj : 2 ≤ count j := by
      have hle := hcount j
      have hne := not_exists.mp hone j
      omega
    have hle : ∑ k ∈ {i, j}, (count k - 1) ≤ ∑ k, (count k - 1) :=
      sum_le_sum_of_subset (subset_univ _)
    rw [sum_pair hji.symm] at hle
    exact ⟨i, by omega⟩

/-- **Requests that block each other.** There is no run to a state in which all processes are blocked,
with units that would be enough for one of them, if and only if there is only one process, or each
needs one unit only, or there are more units at the beginning than all processes can hold while each
waits for its last one. -/
theorem stuck_free_iff (count : ι → Nat) (hcount : ∀ i, 1 ≤ count i) (value : Nat) :
    (∀ ls s, run (step count) (init value) ls = some s → ¬ s.Stuck count) ↔
      Fintype.card ι ≤ 1 ∨ (∀ i, count i = 1) ∨ ∑ i, (count i - 1) < value := by
  constructor
  · intro hfree
    by_contra hcond
    push Not at hcond
    obtain ⟨hcard, hmany, hvalue⟩ := hcond
    obtain ⟨i, hi⟩ := exists_le_sum hcount hcard hmany
    -- first `release` up to the number of units that they can hold, then hand those out
    let s₁ : Acquiring ι := ⟨∑ i, (count i - 1), fun _ => 0⟩
    have hposts : run (step count) (init value) (List.replicate (∑ i, (count i - 1) - value) .post) =
        some s₁ := by
      rw [run_posts]
      simp only [init, Nat.add_sub_cancel' hvalue, s₁]
    obtain ⟨ls, s, hrun, hzero, hle, hsum⟩ := @exists_run_wait _ _ _ count s₁
      (fun _ => Nat.zero_le _) (by simp [s₁])
    refine hfree (List.replicate _ .post ++ ls) s (by rw [run_append, hposts]; exact hrun) ⟨?_, i, ?_⟩
    · intro j
      have hj := hle j
      have hpos := hcount j
      exact ⟨by omega, hzero⟩
    · rw [hsum]
      simpa [s₁] using hi
  · rintro hcond ls s hrun ⟨hblocked, i, hi⟩
    have haccounts := accounts_of_run hrun
    have hzero := (hblocked i).2
    have hle : ∀ j, s.taken j ≤ count j - 1 := fun j => by
      have hj := (hblocked j).1
      omega
    rcases hcond with hcard | hone | hvalue
    -- a single request would have all units there are
    · have hone : ∀ j, j = i := fun j => Fintype.card_le_one_iff.mp hcard j i
      have hsum : ∑ j, s.taken j = s.taken i := sum_eq_single i (fun j _ hj => absurd (hone j) hj)
        (fun hi => absurd (mem_univ i) hi)
      have hlt := (hblocked i).1
      omega
    -- requests for one unit each hold none while they wait
    · have hsum : ∑ j, s.taken j = 0 := sum_eq_zero fun j _ => by
        have := hle j
        rw [hone j] at this
        omega
      have := hcount i
      omega
    · have hsum : ∑ j, s.taken j ≤ ∑ j, (count j - 1) := sum_le_sum fun j _ => hle j
      omega

/-- Three processes that need two units each; with four of them, one always gets through. -/
theorem stuck_free_iff_four : (∀ _ : Fin 3, 1 ≤ 2) ∧
    ∀ ls s, run (step fun _ : Fin 3 => 2) (init 4) ls = some s → ¬ s.Stuck fun _ => 2 :=
  ⟨by decide, (stuck_free_iff (fun _ : Fin 3 => 2) (by decide) 4).mpr (.inr (.inr (by decide)))⟩

/-- Two processes that need two units each, and have one each. -/
theorem one_unit_each :
    ¬ ∀ (value : Nat) (count : Fin 2 → Nat), (∀ i, 1 ≤ count i) → ∀ ls s,
      run (step count) (init value) ls = some s → ¬ s.Stuck count := by
  intro h
  refine h 2 (fun _ => 2) (by decide) [.wait 0, .wait 1]
    ⟨0, Function.update (Function.update (fun _ => 0) 0 1) 1 1⟩ rfl ⟨fun i => ?_, 0, by decide⟩
  exact ⟨by revert i; decide, rfl⟩

end Acquiring

end Cppev
