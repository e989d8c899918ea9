import Mathlib.Data.List.Basic
import Mathlib.Tactic.Common

/-!
# Flat memory and counted loops

What a C-style program does with a block of storage: `peek` and `poke` one cell, `fill` a run of
cells, look at a `slice`, and step an index through a range (`forUpTo`). Positions are `Int`, so
that the index arithmetic of a caller is stated without truncation; a position outside the block
reads as `default` and ignores a write.

`forUpTo_inv` is the one induction over such loops; the slice lemmas are what a caller needs to
turn facts about single cells into facts about runs of cells.
-/

namespace Cppev

variable {α σ : Type}

/-! ## Cells

Positions are integers, so that the arithmetic of indices has no cases; outside of the block nothing
is written and the default is read. -/

/-- The cell at position `i`. -/
def peek [Inhabited α] (mem : List α) (i : Int) : α :=
  if 0 ≤ i then mem.getD i.toNat default else default

/-- A block of default cells, and what is read beyond it. -/
theorem peek_replicate_default [Inhabited α] (n : Nat) (j : Int) :
    peek (List.replicate n (default : α)) j = default := by
  unfold peek
  split
  · simp only [List.getD_eq_getElem?_getD, List.getElem?_replicate]
    split <;> rfl
  · rfl

/-- Overwrite the cell at position `i`. -/
def poke (mem : List α) (i : Int) (x : α) : List α :=
  if 0 ≤ i then mem.set i.toNat x else mem

@[simp] theorem length_poke (mem : List α) (i : Int) (x : α) :
    (poke mem i x).length = mem.length := by
  unfold poke
  split <;> simp

/-- Reading after a write: the new value at a position inside the block, the old one elsewhere. -/
theorem peek_poke [Inhabited α] (mem : List α) (i j : Int) (x : α) :
    peek (poke mem i x) j =
      if j = i ∧ 0 ≤ i ∧ i < mem.length then x else peek mem j := by
  unfold peek poke
  by_cases hi : 0 ≤ i
  · by_cases hj : 0 ≤ j
    · simp only [hi, hj, if_true, List.getD_eq_getElem?_getD, List.getElem?_set, true_and]
      by_cases hij : j = i
      · subst hij
        by_cases hlt : j < mem.length
        · have : j.toNat < mem.length := by omega
          simp [hlt, this]
        · have : ¬ j.toNat < mem.length := by omega
          simp [hlt, this]
      · have : i.toNat ≠ j.toNat := by omega
        simp [hij, this]
    · have : j ≠ i := by omega
      simp [hj, this]
  · simp [hi]

theorem peek_poke_ne [Inhabited α] {mem : List α} {i j : Int} {x : α} (h : j ≠ i) :
    peek (poke mem i x) j = peek mem j := by
  simp [peek_poke, h]

theorem peek_poke_self [Inhabited α] {mem : List α} {i : Int} {x : α} (h0 : 0 ≤ i)
    (hlt : i < mem.length) : peek (poke mem i x) i = x := by
  simp [peek_poke, h0, hlt]

/-! ## Counted loops

A `for` loop with an index, by its invariant. -/

/-- `n` rounds of `body`, with the index counting up from `i`. -/
def forLoop (body : Int → σ → σ) (i : Int) : Nat → σ → σ
  | 0, s => s
  | n + 1, s => forLoop body (i + 1) n (body i s)

/-- `for (int i = lo; i < hi; ++i) body`. -/
def forUpTo (lo hi : Int) (body : Int → σ → σ) (s : σ) : σ :=
  forLoop body lo (hi - lo).toNat s

/-- The invariant rule: what holds at `lo` and is carried from each index to the next holds
at `hi`. -/
theorem forUpTo_inv (lo hi : Int) (body : Int → σ → σ) (s : σ) (P : Int → σ → Prop)
    (hle : lo ≤ hi) (h0 : P lo s)
    (hstep : ∀ i t, lo ≤ i → i < hi → P i t → P (i + 1) (body i t)) :
    P hi (forUpTo lo hi body s) := by
  unfold forUpTo
  obtain ⟨n, hn⟩ : ∃ n : Nat, hi = lo + n := ⟨(hi - lo).toNat, by omega⟩
  have hcount : (hi - lo).toNat = n := by omega
  rw [hcount]
  clear hcount hle
  induction n generalizing lo s with
  | zero => simpa [forLoop, hn] using h0
  | succ n ih =>
      simp only [forLoop]
      apply ih
      · exact hstep lo s (Int.le_refl _) (by omega) h0
      · intro i t hlo hlt hP
        exact hstep i t (by omega) hlt hP
      · omega

/-- A loop whose bounds have crossed does nothing. -/
theorem forUpTo_of_le {lo hi : Int} (h : hi ≤ lo) (body : Int → σ → σ) (s : σ) :
    forUpTo lo hi body s = s := by
  have : (hi - lo).toNat = 0 := by omega
  simp [forUpTo, this, forLoop]

/-- What every round keeps, holds after the loop. -/
theorem forUpTo_keep (lo hi : Int) (body : Int → σ → σ) {s : σ} {P : σ → Prop} (h0 : P s)
    (hstep : ∀ i t, P t → P (body i t)) : P (forUpTo lo hi body s) := by
  by_cases hle : lo ≤ hi
  · exact forUpTo_inv lo hi body s (fun _ => P) hle h0 fun i t _ _ => hstep i t
  · rwa [forUpTo_of_le (by omega)]

/-! ## Runs of cells

A slice is what a run of cells holds. Blocks are compared by slices, and slices by their cells. -/

/-- `memset(mem + pos, x, n)`. -/
def fill (mem : List α) (pos n : Int) (x : α) : List α :=
  forUpTo 0 n (fun i m => poke m (pos + i) x) mem

@[simp] theorem length_fill (mem : List α) (pos n : Int) (x : α) :
    (fill mem pos n x).length = mem.length := by
  unfold fill
  by_cases hn : 0 ≤ n
  · refine forUpTo_inv _ _ _ _ (fun _ (m : List α) => m.length = mem.length) hn rfl ?_
    intro i m _ _ hm
    simpa using hm
  · rw [forUpTo_of_le (by omega)]

theorem peek_fill [Inhabited α] {mem : List α} {pos n : Int} {x : α} (hpos : 0 ≤ pos)
    (hn : 0 ≤ n) (hlen : pos + n ≤ mem.length) (j : Int) :
    peek (fill mem pos n x) j = if pos ≤ j ∧ j < pos + n then x else peek mem j := by
  unfold fill
  have hinv := forUpTo_inv 0 n (fun i m => poke m (pos + i) x) mem
    (fun i m => m.length = mem.length ∧
      ∀ j, peek m j = if pos ≤ j ∧ j < pos + i then x else peek mem j) hn
    ⟨rfl, fun j => by
      have : ¬ (pos ≤ j ∧ j < pos + 0) := by omega
      rw [if_neg this]⟩
    (by
      rintro i m h0 hi ⟨hm, hcell⟩
      refine ⟨by simpa using hm, fun j => ?_⟩
      rw [peek_poke, hcell]
      by_cases hj : j = pos + i
      · have hread : j = pos + i ∧ 0 ≤ pos + i ∧ pos + i < m.length := by omega
        have hin : pos ≤ j ∧ j < pos + (i + 1) := by omega
        rw [if_pos hread, if_pos hin]
      · have hiff : (pos ≤ j ∧ j < pos + (i + 1)) ↔ (pos ≤ j ∧ j < pos + i) := by omega
        simp [hj, hiff])
  exact hinv.2 j

/-- The `n` cells from position `pos` on. -/
def slice [Inhabited α] (mem : List α) (pos n : Int) : List α :=
  (List.range n.toNat).map fun k : Nat => peek mem (pos + (k : Int))

@[simp] theorem length_slice [Inhabited α] (mem : List α) (pos n : Int) :
    (slice mem pos n).length = n.toNat := by
  simp [slice]

@[simp] theorem slice_zero [Inhabited α] (mem : List α) (pos : Int) : slice mem pos 0 = [] := rfl

/-- Two slices agree when their cells do. -/
theorem slice_congr [Inhabited α] {mem mem' : List α} {pos pos' n : Int}
    (h : ∀ k : Int, 0 ≤ k → k < n → peek mem (pos + k) = peek mem' (pos' + k)) :
    slice mem pos n = slice mem' pos' n := by
  apply List.map_congr_left
  intro k hk
  have : k < n.toNat := List.mem_range.mp hk
  exact h k (by omega) (by omega)

/-- Equal slices have equal cells. -/
theorem peek_eq_of_slice_eq [Inhabited α] {mem mem' : List α} {pos n j : Int}
    (h : slice mem pos n = slice mem' pos n) (hlo : pos ≤ j) (hlt : j < pos + n) :
    peek mem j = peek mem' j := by
  obtain ⟨k, rfl⟩ : ∃ k : Nat, j = pos + k := ⟨(j - pos).toNat, by omega⟩
  have hk : k < n.toNat := by omega
  have hcell := congrArg (fun l => l[k]?) h
  simpa [slice, hk] using hcell

/-- Slices are equal if and only if their cells are. -/
theorem slice_eq_iff [Inhabited α] {mem mem' : List α} {pos n : Int} :
    slice mem pos n = slice mem' pos n ↔
      ∀ j, pos ≤ j → j < pos + n → peek mem j = peek mem' j := by
  constructor
  · intro h j hlo hlt
    exact peek_eq_of_slice_eq h hlo hlt
  · intro h
    exact slice_congr fun k hlo hlt => h (pos + k) (by omega) (by omega)

/-- A slice splits at every inner position. -/
theorem slice_add [Inhabited α] (mem : List α) (pos : Int) {a b : Int} (ha : 0 ≤ a) (hb : 0 ≤ b) :
    slice mem pos (a + b) = slice mem pos a ++ slice mem (pos + a) b := by
  have hab : (a + b).toNat = a.toNat + b.toNat := by omega
  unfold slice
  rw [hab, List.range_add, List.map_append, List.map_map]
  congr 1
  apply List.map_congr_left
  intro k _
  simp only [Function.comp_apply]
  congr 1
  omega

theorem slice_take [Inhabited α] (mem : List α) (pos : Int) {a n : Int} (ha : 0 ≤ a)
    (hn : a ≤ n) : (slice mem pos n).take a.toNat = slice mem pos a := by
  obtain ⟨b, hb, rfl⟩ : ∃ b, 0 ≤ b ∧ n = a + b := ⟨n - a, by omega, by omega⟩
  rw [slice_add mem pos ha hb]
  simp

theorem slice_drop [Inhabited α] (mem : List α) (pos : Int) {a n : Int} (ha : 0 ≤ a)
    (hn : a ≤ n) : (slice mem pos n).drop a.toNat = slice mem (pos + a) (n - a) := by
  obtain ⟨b, hb, rfl⟩ : ∃ b, 0 ≤ b ∧ n = a + b := ⟨n - a, by omega, by omega⟩
  have hsub : a + b - a = b := by omega
  rw [slice_add mem pos ha hb, hsub]
  simp

/-- All that is left of the block. -/
theorem drop_eq_slice [Inhabited α] {mem : List α} {pos n : Int} (hpos : 0 ≤ pos) (hn : 0 ≤ n)
    (hend : pos + n = mem.length) : mem.drop pos.toNat = slice mem pos n := by
  refine List.ext_getElem ?_ fun k hk hk' => ?_
  · rw [List.length_drop, length_slice]
    omega
  · have hlt : pos.toNat + k < mem.length := by
      rw [List.length_drop] at hk
      omega
    have hcell : (pos + (k : Int)).toNat = pos.toNat + k := by omega
    rw [List.getElem_drop]
    simp only [slice, List.getElem_map, List.getElem_range, peek]
    rw [if_pos (by omega), hcell, List.getD_eq_getElem?_getD, List.getElem?_eq_getElem hlt,
      Option.getD_some]

/-! ## Copying a run of cells in

The other way: a list is stored from a position on, inside the block. -/

/-- Store the cells `xs` from position `pos` on. -/
def blit (mem : List α) (pos : Int) : List α → List α
  | [] => mem
  | x :: xs => blit (poke mem pos x) (pos + 1) xs

@[simp] theorem length_blit (mem : List α) (pos : Int) (xs : List α) :
    (blit mem pos xs).length = mem.length := by
  induction xs generalizing mem pos with
  | nil => rfl
  | cons x xs ih => simp [blit, ih]

theorem blit_append (mem : List α) (pos : Int) (xs ys : List α) :
    blit mem pos (xs ++ ys) = blit (blit mem pos xs) (pos + xs.length) ys := by
  induction xs generalizing mem pos with
  | nil => simp [blit]
  | cons x xs ih =>
      simp only [List.cons_append, blit, ih, List.length_cons]
      congr 1
      omega

/-- Cells outside the stored run keep their value. -/
theorem peek_blit_of_not_mem [Inhabited α] {mem : List α} {pos : Int} {xs : List α} {j : Int}
    (h : j < pos ∨ pos + xs.length ≤ j) : peek (blit mem pos xs) j = peek mem j := by
  induction xs generalizing mem pos with
  | nil => rfl
  | cons x xs ih =>
      simp only [List.length_cons] at h
      have hne : j ≠ pos := by omega
      rw [blit, ih (by omega), peek_poke_ne hne]

/-- The stored run is read back as it was given. -/
theorem slice_blit [Inhabited α] {mem : List α} {pos : Int} {xs : List α} (hpos : 0 ≤ pos)
    (hlen : pos + xs.length ≤ mem.length) : slice (blit mem pos xs) pos xs.length = xs := by
  induction xs generalizing mem pos with
  | nil => rfl
  | cons x xs ih =>
      simp only [List.length_cons] at hlen
      have hsplit : ((x :: xs).length : Int) = 1 + xs.length := by
        simp only [List.length_cons]
        omega
      rw [hsplit, slice_add _ _ (by omega) (by omega)]
      have hhead : slice (blit mem pos (x :: xs)) pos 1 = [x] := by
        have hp : peek (blit (poke mem pos x) (pos + 1) xs) pos = x := by
          rw [peek_blit_of_not_mem (by omega), peek_poke_self hpos (by omega)]
        simp [slice, blit, hp]
      have htail : slice (blit mem pos (x :: xs)) (pos + 1) xs.length = xs := by
        apply ih (by omega)
        simp only [length_poke]
        omega
      rw [hhead, htail]
      rfl

/-- A slice that the stored run does not touch. -/
theorem slice_blit_of_disjoint [Inhabited α] {mem : List α} {pos pos' n : Int} {xs : List α}
    (h : pos' + n ≤ pos ∨ pos + xs.length ≤ pos') :
    slice (blit mem pos xs) pos' n = slice mem pos' n :=
  slice_congr fun _ _ _ => peek_blit_of_not_mem (by omega)

/-- Two blocks with the same run stored differ where they have differed, outside of it. -/
theorem peek_blit_eq_iff [Inhabited α] {mem mem' : List α} {pos j : Int} {xs : List α}
    (hpos : 0 ≤ pos) (hlen : pos + xs.length ≤ mem.length) (hlen' : pos + xs.length ≤ mem'.length) :
    peek (blit mem pos xs) j = peek (blit mem' pos xs) j ↔
      (pos ≤ j ∧ j < pos + xs.length) ∨ peek mem j = peek mem' j := by
  by_cases hin : pos ≤ j ∧ j < pos + xs.length
  · refine iff_of_true ?_ (.inl hin)
    exact peek_eq_of_slice_eq ((slice_blit hpos hlen).trans (slice_blit hpos hlen').symm) hin.1 hin.2
  · have hout : j < pos ∨ pos + xs.length ≤ j := by omega
    rw [peek_blit_of_not_mem hout, peek_blit_of_not_mem hout]
    exact (or_iff_right hin).symm

/-- The block from the stored run on. -/
theorem drop_blit [Inhabited α] {mem : List α} {pos : Int} {xs : List α} (hpos : 0 ≤ pos)
    (hlen : pos + xs.length ≤ mem.length) :
    (blit mem pos xs).drop pos.toNat = xs ++ mem.drop (pos + xs.length).toNat := by
  have hrest : 0 ≤ mem.length - (pos + xs.length) := by omega
  rw [drop_eq_slice (n := xs.length + (mem.length - (pos + xs.length))) hpos (by omega)
      (by rw [length_blit]; omega),
    slice_add _ _ (by omega) hrest, slice_blit hpos hlen, slice_blit_of_disjoint (.inr (Int.le_refl _)),
    ← drop_eq_slice (by omega) hrest (by omega)]

end Cppev
