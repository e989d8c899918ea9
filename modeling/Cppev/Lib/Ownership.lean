import Mathlib.Data.Set.Card
import Mathlib.Tactic.Common

/-!
# Owners

Objects, named by their addresses, each of which owns at most one resource, and finitely many of
which own one.

* `count_set`, `count_transfer`: what becomes of the number of owners when an object takes a
  resource or lets go of it, and when one object takes over what another has.
* `count_eq_zero_iff`: a resource without owners.
-/

namespace Cppev

/-- Where an object is in memory. -/
abbrev Addr := Nat

structure Owners (α ρ : Type) where
  of : α → Option ρ
  finite : {a | of a ≠ none}.Finite

namespace Owners

variable {α ρ : Type}

/-- Nobody owns anything. -/
def empty : Owners α ρ := ⟨fun _ => none, by simp⟩

/-- The number of owners of `r`. -/
noncomputable def count (o : Owners α ρ) (r : ρ) : Nat := {a | o.of a = some r}.ncard

theorem finite_owners (o : Owners α ρ) (r : ρ) : {a | o.of a = some r}.Finite :=
  o.finite.subset fun _ ha => by simp_all

@[simp] theorem of_empty (a : α) : (empty : Owners α ρ).of a = none := rfl

@[simp] theorem count_empty (r : ρ) : (empty : Owners α ρ).count r = 0 := by
  simp [count]

theorem count_eq_zero_iff (o : Owners α ρ) (r : ρ) : o.count r = 0 ↔ ∀ a, o.of a ≠ some r := by
  rw [count, Set.ncard_eq_zero (o.finite_owners r), Set.eq_empty_iff_forall_notMem]
  rfl

theorem count_pos {o : Owners α ρ} {a : α} {r : ρ} (h : o.of a = some r) : 0 < o.count r :=
  Nat.pos_of_ne_zero fun hzero => (o.count_eq_zero_iff r).mp hzero a h

/-- The owners of `r` but for `a`. -/
theorem count_eq_others [DecidableEq ρ] (o : Owners α ρ) (a : α) (r : ρ) :
    o.count r = ({b | o.of b = some r} \ {a}).ncard + if o.of a = some r then 1 else 0 := by
  have hmem : a ∈ {b | o.of b = some r} ↔ o.of a = some r := Iff.rfl
  split
  case isTrue h =>
    exact (Set.ncard_sdiff_singleton_add_one (hmem.mpr h) (o.finite_owners r)).symm
  case isFalse h => rw [Set.sdiff_singleton_eq_self (hmem.not.mpr h), count, Nat.add_zero]

variable [DecidableEq α]

/-- From now on `a` owns `r`, or nothing. -/
def set (o : Owners α ρ) (a : α) (r : Option ρ) : Owners α ρ where
  of := Function.update o.of a r
  finite := by
    refine (o.finite.insert a).subset fun b hb => ?_
    by_cases hba : b = a
    · exact .inl hba
    · exact .inr (by simpa [hba] using hb)

/-- What `b` owns, `a` takes over, and owns no longer what it did. -/
def transfer (o : Owners α ρ) (a b : α) : Owners α ρ := (o.set a (o.of b)).set b none

@[simp] theorem of_set (o : Owners α ρ) (a b : α) (r : Option ρ) :
    (o.set a r).of b = if b = a then r else o.of b := by
  simp [set, Function.update_apply]

@[simp] theorem of_transfer (o : Owners α ρ) (a b c : α) :
    (o.transfer a b).of c = if c = b then none else if c = a then o.of b else o.of c := by
  simp [transfer]

variable [DecidableEq ρ]

theorem count_set (o : Owners α ρ) (a : α) (x : Option ρ) (r : ρ) :
    (o.set a x).count r + (if o.of a = some r then 1 else 0) =
      o.count r + if x = some r then 1 else 0 := by
  -- only `a` has changed
  have hothers : {b | (o.set a x).of b = some r} \ {a} = {b | o.of b = some r} \ {a} := by
    ext b
    by_cases hba : b = a <;> simp [hba]
  rw [count_eq_others (o.set a x) a, count_eq_others o a, hothers, of_set, if_pos rfl]
  omega

/-- What `a` had is lost; if `a` and `b` are the same, this is what `b` has. -/
theorem count_transfer (o : Owners α ρ) (a b : α) (r : ρ) :
    (o.transfer a b).count r + (if o.of a = some r then 1 else 0) = o.count r := by
  have hset := count_set o a (o.of b) r
  have hclear := count_set (o.set a (o.of b)) b none r
  simp only [of_set] at hclear
  change (o.transfer a b).count r + _ = _ at hclear
  by_cases hba : b = a
  · subst hba
    simp only [if_true, reduceCtorEq, if_false] at hset hclear
    omega
  · simp only [if_neg hba, reduceCtorEq, if_false] at hclear
    omega

end Owners

end Cppev
