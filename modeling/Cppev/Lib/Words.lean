import Mathlib.Data.List.Infix
import Mathlib.Tactic.Common

/-!
# Words

What can be said about words without an index.

* `Scan sep k s xs`: going through `s` from the left, `sep` is found `k` times, and `xs` is what
  stands in between. `Scan.unique`: there is one such `xs`; `Scan.intercalate_eq`: joined again,
  it is `s`; `Scan.words_free`: `sep` is in none of its words; `scan_intercalate`: if `sep` has no
  border, words without `sep` are found again.
* `LStrips c s r` and `RStrips c s r`: `r` is `s` without the longest run of `c` at its left or
  right end. `lstrips_iff`, `rstrips_iff`: these are the `r` at which another `c` cannot be taken off.
-/

namespace Cppev

variable {α : Type}

/-! ## Going through a word -/

/-- The first occurrence of `sep` in `x ++ sep ++ s` is after `x`. -/
def FirstAfter (sep x s : List α) : Prop := ∀ i < x.length, ¬ sep <+: (x ++ sep ++ s).drop i

/-- In `s`, `sep` is found `k` times from left to right, without overlaps, and leaves `xs`. -/
inductive Scan (sep : List α) : Nat → List α → List (List α) → Prop
  | last (x : List α) (h : ¬ sep <:+: x) : Scan sep 0 x [x]
  | next (x s : List α) (xs : List (List α)) (k : Nat) (h : FirstAfter sep x s)
      (hs : Scan sep k s xs) : Scan sep (k + 1) (x ++ sep ++ s) (x :: xs)

theorem infix_iff_drop {sep s : List α} : sep <:+: s ↔ ∃ i ≤ s.length, sep <+: s.drop i := by
  constructor
  · rintro ⟨a, b, rfl⟩
    refine ⟨a.length, by simp, ?_⟩
    rw [List.append_assoc, List.drop_left]
    exact List.prefix_append sep b
  · rintro ⟨i, -, hi⟩
    exact hi.isInfix.trans (List.drop_suffix i s).isInfix

theorem Scan.ne_nil {sep s : List α} {xs : List (List α)} {k : Nat} (h : Scan sep k s xs) :
    xs ≠ [] := by
  cases h <;> exact List.cons_ne_nil _ _

/-- One word more than there are separators. -/
theorem Scan.length_eq {sep s : List α} {xs : List (List α)} {k : Nat} (h : Scan sep k s xs) :
    xs.length = k + 1 := by
  induction h with
  | last x h => rfl
  | next x s xs k h hs ih => simp [ih]

theorem Scan.intercalate_eq {sep s : List α} {xs : List (List α)} {k : Nat}
    (h : Scan sep k s xs) : sep.intercalate xs = s := by
  induction h with
  | last x h => simp [List.intercalate]
  | next x s xs k h hs ih =>
      obtain ⟨y, ys, rfl⟩ := List.exists_cons_of_ne_nil hs.ne_nil
      rw [← ih]
      simp [List.intercalate]

/-- The separator occurs in no word. -/
theorem Scan.words_free {sep s : List α} {xs : List (List α)} {k : Nat} (hsep : sep ≠ [])
    (h : Scan sep k s xs) : ∀ x ∈ xs, ¬ sep <:+: x := by
  induction h with
  | last x h => simpa using h
  | next x s xs k h hs ih =>
      refine List.forall_mem_cons.mpr ⟨fun hin => ?_, ih⟩
      obtain ⟨i, hi, hpre⟩ := infix_iff_drop.mp hin
      have hlt : i < x.length := by
        refine Nat.lt_of_le_of_ne hi fun heq => hsep ?_
        simpa [heq] using hpre
      refine h i hlt (hpre.trans ?_)
      rw [List.append_assoc, List.drop_append_of_le_length hi]
      exact List.prefix_append _ _

theorem FirstAfter.length_le {sep x x' s s' : List α} (h : FirstAfter sep x s)
    (heq : x' ++ sep ++ s' = x ++ sep ++ s) : x.length ≤ x'.length := by
  by_contra hlt
  refine h x'.length (by omega) ?_
  rw [← heq, List.append_assoc, List.drop_left]
  exact List.prefix_append _ _

/-- There is one way to go through a word. -/
theorem Scan.unique {sep s : List α} {xs ys : List (List α)} {k m : Nat} (h : Scan sep k s xs)
    (h' : Scan sep m s ys) : k = m ∧ xs = ys := by
  induction h generalizing ys m with
  | last x hx =>
      cases h' with
      | last => exact ⟨rfl, rfl⟩
      | next y t => exact absurd ⟨y, t, rfl⟩ hx
  | next x s xs k hx hs ih =>
      generalize hall : x ++ sep ++ s = all at h'
      cases h' with
      | last _ hy => exact absurd ⟨x, s, hall⟩ hy
      | next y t ys m hy ht =>
          -- both words end before the first separator, so they are equally long
          have hlen : x.length = y.length :=
            Nat.le_antisymm (hx.length_le hall.symm) (hy.length_le hall)
          simp only [List.append_assoc] at hall
          obtain ⟨rfl, hrest⟩ := List.append_inj hall hlen
          obtain rfl := List.append_cancel_left hrest
          obtain ⟨rfl, rfl⟩ := ih ht
          exact ⟨rfl, rfl⟩

/-! ### Words without borders -/

/-- No proper part of `sep` but the empty one is at both its ends. -/
def Unbordered (sep : List α) : Prop := ∀ b, b ≠ [] → b <+: sep → b <:+ sep → b = sep

/-- An occurrence of `sep` that starts in a word ends in it. -/
theorem firstAfter_of_free {sep x s : List α} (hb : Unbordered sep) (hx : ¬ sep <:+: x) :
    FirstAfter sep x s := by
  intro i hi hpre
  rw [List.append_assoc, List.drop_append_of_le_length (Nat.le_of_lt hi)] at hpre
  have hw : x.drop i ≠ [] := by simpa using hi
  have hin : ¬ sep <+: x.drop i := fun h => hx (h.isInfix.trans (List.drop_suffix i x).isInfix)
  obtain ⟨c, rfl⟩ := (List.prefix_or_prefix_of_prefix hpre (List.prefix_append _ _)).resolve_left hin
  -- what is left of it starts the separator and ends it
  have hc : c <+: x.drop i ++ c ++ s := (List.prefix_append_right_inj _).mp hpre
  have hpre' : c <+: x.drop i ++ c :=
    List.prefix_of_prefix_length_le hc (List.prefix_append _ _) (by simp)
  have hne : c ≠ [] := by
    rintro rfl
    exact hin (by simp)
  exact hw (List.append_left_eq_self.mp (hb c hne hpre' (List.suffix_append _ _)).symm)

/-- **Joining is undone.** -/
theorem scan_intercalate {sep : List α} (hb : Unbordered sep) {xs : List (List α)} (hne : xs ≠ [])
    (hxs : ∀ x ∈ xs, ¬ sep <:+: x) : Scan sep (xs.length - 1) (sep.intercalate xs) xs := by
  induction xs with
  | nil => exact absurd rfl hne
  | cons x xs ih =>
      obtain ⟨hx, hrest⟩ := List.forall_mem_cons.mp hxs
      cases xs with
      | nil => simpa [List.intercalate] using Scan.last x hx
      | cons y ys =>
          have hscan := ih (List.cons_ne_nil _ _) hrest
          have hjoin : sep.intercalate (x :: y :: ys) = x ++ sep ++ sep.intercalate (y :: ys) := by
            simp [List.intercalate]
          rw [hjoin]
          exact .next x _ _ _ (firstAfter_of_free hb hx) hscan

/-! ## Taking runs off a word -/

/-- `c`, `k` times. -/
def runOf (c : List α) (k : Nat) : List α := (List.replicate k c).flatten

@[simp] theorem runOf_zero (c : List α) : runOf c 0 = [] := rfl

theorem runOf_succ (c : List α) (k : Nat) : runOf c (k + 1) = c ++ runOf c k := by
  simp [runOf, List.replicate_succ]

theorem runOf_succ' (c : List α) (k : Nat) : runOf c (k + 1) = runOf c k ++ c := by
  simp [runOf, List.replicate_succ']

@[simp] theorem length_runOf (c : List α) (k : Nat) : (runOf c k).length = k * c.length := by
  simp [runOf]

theorem runOf_add (c : List α) (k m : Nat) : runOf c (k + m) = runOf c k ++ runOf c m := by
  rw [runOf, List.replicate_add, List.flatten_append]
  rfl

/-- `r` is `s` without the longest run of `c` at the left end. -/
def LStrips (c s r : List α) : Prop :=
  ∃ k, s = runOf c k ++ r ∧ ∀ k' r', s = runOf c k' ++ r' → k' ≤ k

/-- `r` is `s` without the longest run of `c` at the right end. -/
def RStrips (c s r : List α) : Prop :=
  ∃ k, s = r ++ runOf c k ∧ ∀ k' r', s = r' ++ runOf c k' → k' ≤ k

variable {c s r : List α}

theorem lstrips_iff : LStrips c s r ↔ ∃ k, s = runOf c k ++ r ∧ ¬ c <+: r := by
  refine exists_congr fun k => and_congr_right fun hs => ⟨?_, ?_⟩
  · rintro hmax ⟨t, rfl⟩
    have := hmax (k + 1) t (by rw [hs, runOf_succ', List.append_assoc])
    omega
  · intro hno k' r' hs'
    by_contra hlt
    obtain ⟨d, rfl⟩ : ∃ d, k' = k + (d + 1) := ⟨k' - (k + 1), by omega⟩
    rw [hs, runOf_add, List.append_assoc] at hs'
    obtain rfl := List.append_cancel_left hs'
    rw [runOf_succ, List.append_assoc] at hno
    exact hno (List.prefix_append _ _)

theorem rstrips_iff : RStrips c s r ↔ ∃ k, s = r ++ runOf c k ∧ ¬ c <:+ r := by
  refine exists_congr fun k => and_congr_right fun hs => ⟨?_, ?_⟩
  · rintro hmax ⟨t, rfl⟩
    have := hmax (k + 1) t (by rw [hs, runOf_succ, List.append_assoc])
    omega
  · intro hno k' r' hs'
    by_contra hlt
    obtain ⟨d, rfl⟩ : ∃ d, k' = d + 1 + k := ⟨k' - (k + 1), by omega⟩
    rw [hs, runOf_add, ← List.append_assoc] at hs'
    obtain rfl := List.append_cancel_right hs'
    rw [runOf_succ', ← List.append_assoc] at hno
    exact hno (List.suffix_append _ _)

theorem LStrips.unique {r' : List α} (h : LStrips c s r) (h' : LStrips c s r') : r = r' := by
  obtain ⟨k, hs, hk⟩ := h
  obtain ⟨k', hs', hk'⟩ := h'
  obtain rfl := Nat.le_antisymm (hk' k r hs) (hk k' r' hs')
  exact List.append_cancel_left (hs.symm.trans hs')

theorem RStrips.unique {r' : List α} (h : RStrips c s r) (h' : RStrips c s r') : r = r' := by
  obtain ⟨k, hs, hk⟩ := h
  obtain ⟨k', hs', hk'⟩ := h'
  obtain rfl := Nat.le_antisymm (hk' k r hs) (hk k' r' hs')
  exact List.append_cancel_right (hs.symm.trans hs')

/-- Nothing to take off. -/
theorem lstrips_self (h : ¬ c <+: s) : LStrips c s s := lstrips_iff.mpr ⟨0, rfl, h⟩

theorem rstrips_self (h : ¬ c <:+ s) : RStrips c s s :=
  rstrips_iff.mpr ⟨0, (List.append_nil s).symm, h⟩

/-- One `c` more. -/
theorem LStrips.append (h : LStrips c s r) : LStrips c (c ++ s) r := by
  obtain ⟨k, rfl, hr⟩ := lstrips_iff.mp h
  exact lstrips_iff.mpr ⟨k + 1, by rw [runOf_succ, List.append_assoc], hr⟩

theorem rstrips_append_iff : RStrips c (s ++ c) r ↔ RStrips c s r := by
  rw [rstrips_iff, rstrips_iff]
  constructor
  · rintro ⟨k, hs, hr⟩
    cases k with
    | zero =>
        rw [runOf_zero, List.append_nil] at hs
        exact absurd (hs ▸ List.suffix_append s c) hr
    | succ k =>
        rw [runOf_succ', ← List.append_assoc] at hs
        exact ⟨k, List.append_cancel_right hs, hr⟩
  · rintro ⟨k, rfl, hr⟩
    exact ⟨k + 1, by rw [runOf_succ', List.append_assoc], hr⟩

theorem exists_rstrips (hc : c ≠ []) (s : List α) : ∃ r, RStrips c s r := by
  induction hn : s.length using Nat.strong_induction_on generalizing s with
  | _ n ih =>
      -- on the length of `s`: take off one `c`, as long as there is one
      by_cases hsuf : c <:+ s
      · obtain ⟨t, rfl⟩ := hsuf
        have hpos := List.length_pos_of_ne_nil hc
        obtain ⟨r, hr⟩ := ih t.length (by simp at hn; omega) t rfl
        exact ⟨r, rstrips_append_iff.mpr hr⟩
      · exact ⟨s, rstrips_self hsuf⟩

end Cppev
