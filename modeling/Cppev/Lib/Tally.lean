import Mathlib.Algebra.BigOperators.Group.List.Basic
import Mathlib.Algebra.Ring.Int.Defs

/-!
# Tallies

A map from keys to counts, as the list of its entries. `total t k` adds up all that `t` has under
`k`, so it does not depend on the order of the entries, and is the count of `k` where keys occur
once. A machine may keep its counts in words that are too small for a sum: `addWith wrap` is `add`
with `wrap` of the sum.

* `total_add`, `total_set`, `total_perm`: what the operations do to the totals.
* `addWith_eq_add`: a sum that `wrap` leaves alone; `total_addWith`, `positives_addWith`: any sum.
* `Order`: an order in which the entries may be visited.
-/

namespace Cppev

abbrev Tally (κ : Type) := List (κ × Int)

namespace Tally

variable {κ : Type} [DecidableEq κ]

/-- Whether there is an entry for `k`. -/
def has (t : Tally κ) (k : κ) : Bool := t.any fun e => e.1 = k

def total (t : Tally κ) (k : κ) : Int := ((t.filter fun e => e.1 = k).map Prod.snd).sum

/-- `t[k] += n`, where a new entry begins with 0. -/
def add : Tally κ → κ → Int → Tally κ
  | [], k, n => [(k, n)]
  | e :: t, k, n => if e.1 = k then (k, e.2 + n) :: t else e :: add t k n

/-- `t[k] += n`, where the sum is kept as `wrap` leaves it. -/
def addWith (wrap : Int → Int) : Tally κ → κ → Int → Tally κ
  | [], k, n => [(k, wrap n)]
  | e :: t, k, n => if e.1 = k then (k, wrap (e.2 + n)) :: t else e :: addWith wrap t k n

/-- The count of `k`, 0 if there is no entry. -/
def get : Tally κ → κ → Int
  | [], _ => 0
  | e :: t, k => if e.1 = k then e.2 else get t k

/-- `total` without the counts that are negative. -/
def positives (t : Tally κ) (k : κ) : Int :=
  ((t.filter fun e => e.1 = k).map fun e => max e.2 0).sum

/-- `t[k] = n`. -/
def set : Tally κ → κ → Int → Tally κ
  | [], k, n => [(k, n)]
  | e :: t, k, n => if e.1 = k then (k, n) :: t else e :: set t k n

/-- All counts have the property `p`. -/
def Each (p : Int → Prop) (t : Tally κ) : Prop := ∀ e ∈ t, p e.2

/-- All counts are positive. -/
def Positive (t : Tally κ) : Prop := Each (fun n => 0 < n) t

/-- The order in which the entries are visited, which may depend on all of them. -/
structure Order (κ : Type) where
  visit : Tally κ → Tally κ
  perm : ∀ t, (visit t).Perm t

/-- The entries as they are listed. -/
def Order.listed (κ : Type) : Order κ := ⟨id, fun t => .refl t⟩

@[simp] theorem total_nil (k : κ) : total [] k = 0 := rfl

@[simp] theorem total_cons (e : κ × Int) (t : Tally κ) (k : κ) :
    total (e :: t) k = (if e.1 = k then e.2 else 0) + total t k := by
  by_cases h : e.1 = k <;> simp [total, h]

@[simp] theorem total_append (t u : Tally κ) (k : κ) : total (t ++ u) k = total t k + total u k := by
  simp [total]

@[simp] theorem total_add (t : Tally κ) (k : κ) (n : Int) (k' : κ) :
    total (t.add k n) k' = total t k' + if k = k' then n else 0 := by
  induction t with
  | nil => simp [add]
  | cons e t ih =>
      unfold add
      split
      case isTrue he =>
        subst he
        by_cases hk : e.1 = k' <;> simp [hk]
        omega
      case isFalse he => simp [ih]; omega

/-- A new entry. -/
theorem total_set {t : Tally κ} {k : κ} (h : t.has k = false) (n : Int) (k' : κ) :
    total (t.set k n) k' = total t k' + if k = k' then n else 0 := by
  induction t with
  | nil => simp [set]
  | cons e t ih =>
      simp only [has, List.any_cons, Bool.or_eq_false_iff, decide_eq_false_iff_not] at h
      rw [set, if_neg h.1, total_cons, total_cons, ih h.2]
      omega

/-! ## Properties of the counts -/

section Each

variable {p : Int → Prop} {t : Tally κ}

omit [DecidableEq κ] in
theorem Each.visit (h : Each p t) (order : Order κ) : Each p (order.visit t) :=
  fun e he => h e ((order.perm t).mem_iff.mp he)

theorem Each.set (h : Each p t) (k : κ) {n : Int} (hn : p n) : Each p (t.set k n) := by
  induction t with
  | nil => simpa [Tally.set, Each] using hn
  | cons e t ih =>
      obtain ⟨he, ht⟩ := List.forall_mem_cons.mp h
      unfold Tally.set
      split
      case isTrue => exact List.forall_mem_cons.mpr ⟨hn, ht⟩
      case isFalse => exact List.forall_mem_cons.mpr ⟨he, ih ht⟩

theorem Each.addWith {wrap : Int → Int} (hwrap : ∀ x, p (wrap x)) (h : Each p t) (k : κ) (n : Int) :
    Each p (t.addWith wrap k n) := by
  induction t with
  | nil => simpa [Tally.addWith, Each] using hwrap n
  | cons e t ih =>
      obtain ⟨he, ht⟩ := List.forall_mem_cons.mp h
      unfold Tally.addWith
      split
      case isTrue => exact List.forall_mem_cons.mpr ⟨hwrap _, ht⟩
      case isFalse => exact List.forall_mem_cons.mpr ⟨he, ih ht⟩

/-- A property that 0 has. -/
theorem Each.get (h0 : p 0) (h : Each p t) (k : κ) : p (t.get k) := by
  induction t with
  | nil => exact h0
  | cons e t ih =>
      obtain ⟨he, ht⟩ := List.forall_mem_cons.mp h
      unfold Tally.get
      split
      case isTrue => exact he
      case isFalse => exact ih ht

theorem Each.add_nonneg (h : Each (fun n => 0 ≤ n) t) (k : κ) {n : Int} (hn : 0 ≤ n) :
    Each (fun n => 0 ≤ n) (t.add k n) := by
  induction t with
  | nil => simpa [Tally.add, Each] using hn
  | cons e t ih =>
      obtain ⟨he, ht⟩ := List.forall_mem_cons.mp h
      unfold Tally.add
      split
      case isTrue => exact List.forall_mem_cons.mpr ⟨Int.add_nonneg he hn, ht⟩
      case isFalse => exact List.forall_mem_cons.mpr ⟨he, ih ht⟩

theorem Positive.add (h : t.Positive) (k : κ) {n : Int} (hn : 0 < n) : (t.add k n).Positive := by
  induction t with
  | nil => simpa [Tally.add, Positive, Each] using hn
  | cons e t ih =>
      obtain ⟨he, ht⟩ := List.forall_mem_cons.mp h
      unfold Tally.add
      split
      case isTrue => exact List.forall_mem_cons.mpr ⟨Int.add_pos he hn, ht⟩
      case isFalse => exact List.forall_mem_cons.mpr ⟨he, ih ht⟩

end Each

/-! ## Counts without the negative ones -/

@[simp] theorem positives_nil (k : κ) : positives [] k = 0 := rfl

@[simp] theorem positives_cons (e : κ × Int) (t : Tally κ) (k : κ) :
    positives (e :: t) k = (if e.1 = k then max e.2 0 else 0) + positives t k := by
  by_cases h : e.1 = k <;> simp [positives, h]

theorem positives_visit (order : Order κ) (t : Tally κ) (k : κ) :
    positives (order.visit t) k = positives t k :=
  (((order.perm t).filter _).map _).sum_eq

theorem positives_nonneg (t : Tally κ) (k : κ) : 0 ≤ positives t k := by
  induction t with
  | nil => exact Int.le_refl 0
  | cons e t ih =>
      rw [positives_cons]
      split <;> omega

theorem Positive.positives_eq {t : Tally κ} (h : t.Positive) (k : κ) : positives t k = total t k := by
  induction t with
  | nil => rfl
  | cons e t ih =>
      obtain ⟨he, ht⟩ := List.forall_mem_cons.mp h
      rw [positives_cons, total_cons, ih ht, Int.max_eq_left (Int.le_of_lt he)]

/-! ## Sums that may be wrapped -/

section AddWith

variable {wrap : Int → Int}

/-- If the sum is kept as it is, nothing is lost. -/
theorem addWith_eq_add {t : Tally κ} {k : κ} {n : Int} (h : wrap (t.get k + n) = t.get k + n) :
    t.addWith wrap k n = t.add k n := by
  induction t with
  | nil =>
      simp only [get, Int.zero_add] at h
      simp [addWith, add, h]
  | cons e t ih =>
      unfold get at h
      unfold addWith add
      split
      case isTrue he =>
        rw [if_pos he] at h
        rw [h]
      case isFalse he =>
        rw [if_neg he] at h
        rw [ih h]

/-- A new entry, with a count that is kept. -/
theorem set_eq_addWith {t : Tally κ} {k : κ} {n : Int} (h : t.has k = false) (hn : wrap n = n) :
    t.set k n = t.addWith wrap k n := by
  induction t with
  | nil => simp [set, addWith, hn]
  | cons e t ih =>
      simp only [has, List.any_cons, Bool.or_eq_false_iff, decide_eq_false_iff_not] at h
      rw [set, addWith, if_neg h.1, if_neg h.1, ih h.2]

theorem get_addWith (t : Tally κ) (k : κ) (n : Int) :
    (t.addWith wrap k n).get k = wrap (t.get k + n) := by
  induction t with
  | nil => simp [addWith, get]
  | cons e t ih =>
      by_cases he : e.1 = k
      · simp [addWith, get, he]
      · simp only [addWith, get, if_neg he, ih]

theorem total_addWith (t : Tally κ) (k : κ) (n : Int) (k' : κ) :
    total (t.addWith wrap k n) k' =
      total t k' + if k = k' then wrap (t.get k + n) - t.get k else 0 := by
  induction t with
  | nil => simp [addWith, get]
  | cons e t ih =>
      unfold addWith get
      split
      case isTrue he =>
        subst he
        by_cases hk : e.1 = k' <;> simp [hk]
        omega
      case isFalse he =>
        rw [total_cons, total_cons, ih]
        omega

theorem positives_addWith (t : Tally κ) (k : κ) (n : Int) (k' : κ) :
    positives (t.addWith wrap k n) k' =
      positives t k' + if k = k' then max (wrap (t.get k + n)) 0 - max (t.get k) 0 else 0 := by
  induction t with
  | nil => simp [addWith, get]
  | cons e t ih =>
      unfold addWith get
      split
      case isTrue he =>
        subst he
        by_cases hk : e.1 = k' <;> simp [hk]
        omega
      case isFalse he =>
        rw [positives_cons, positives_cons, ih]
        omega

end AddWith

end Tally

end Cppev
