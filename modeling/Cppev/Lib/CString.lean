import Cppev.Lib.Memory

/-!
# C strings

Text in a block of memory that ends at the first NUL. `nul` is the cell that ends it. A text without
a NUL behind it would be read beyond the block: there is no string then.

* `readCString_eq_some_iff`: what a string is, in terms of the block.
* `strlen_strncpy`: a text cut off by `strncpy` runs on into what is behind its field.
-/

namespace Cppev

variable {α : Type} [DecidableEq α]

/-- How far it is to the first NUL. -/
def strlen (nul : α) (mem : List α) : Option Nat :=
  if nul ∈ mem then some (mem.takeWhile fun c => c ≠ nul).length else none

/-- The string at the start of the block. -/
def readCString (nul : α) (mem : List α) : Option (List α) := (strlen nul mem).map mem.take

/-- What `strncpy` stores, in a field of `n` cells. -/
def strncpy (nul : α) (src : List α) (n : Nat) : List α :=
  src.take n ++ List.replicate (n - src.length) nul

variable {nul : α} {mem xs : List α}

theorem strlen_append (h : nul ∉ xs) (ys : List α) :
    strlen nul (xs ++ nul :: ys) = some xs.length := by
  have hall : ∀ c ∈ xs, decide (c ≠ nul) = true := by
    intro c hc
    exact decide_eq_true (ne_of_mem_of_not_mem hc h)
  rw [strlen, if_pos (by simp), List.takeWhile_append_of_pos hall,
    List.takeWhile_cons_of_neg (by simp), List.append_nil]

/-- The first NUL, if there is one in `xs`, or the one behind it. -/
theorem strlen_append_nul (xs ys : List α) : strlen nul (xs ++ nul :: ys) = some (xs.idxOf nul) := by
  by_cases hmem : nul ∈ xs
  · obtain ⟨zs, ws, rfl, hzs⟩ := List.eq_append_cons_of_mem hmem
    rw [List.append_assoc, List.cons_append, strlen_append hzs, List.idxOf_append_of_notMem hzs,
      List.idxOf_cons_self, Nat.add_zero]
  · rw [strlen_append hmem, List.idxOf_of_notMem hmem]

theorem readCString_append (h : nul ∉ xs) (ys : List α) :
    readCString nul (xs ++ nul :: ys) = some xs := by
  rw [readCString, strlen_append h, Option.map_some, List.take_left]

theorem readCString_eq_some_iff :
    readCString nul mem = some xs ↔ nul ∉ xs ∧ ∃ ys, mem = xs ++ nul :: ys := by
  constructor
  · intro h
    by_cases hmem : nul ∈ mem
    · obtain ⟨zs, ys, rfl, hzs⟩ := List.eq_append_cons_of_mem hmem
      rw [readCString_append hzs] at h
      obtain rfl := Option.some.inj h
      exact ⟨hzs, ys, rfl⟩
    · rw [readCString, strlen, if_neg hmem] at h
      cases h
  · rintro ⟨hxs, ys, rfl⟩
    exact readCString_append hxs ys

/-- Without a NUL in `xs`, the search goes on behind it. -/
theorem strlen_append_of_not_mem (h : nul ∉ xs) (ys : List α) :
    strlen nul (xs ++ ys) = (strlen nul ys).map (xs.length + ·) := by
  by_cases hmem : nul ∈ ys
  · obtain ⟨zs, ws, rfl, hzs⟩ := List.eq_append_cons_of_mem hmem
    have hboth : nul ∉ xs ++ zs := by simp [h, hzs]
    rw [← List.append_assoc, strlen_append hboth, strlen_append hzs, List.length_append]
    rfl
  · have hboth : nul ∉ xs ++ ys := by simp [h, hmem]
    rw [strlen, if_neg hboth, strlen, if_neg hmem]
    rfl

theorem strlen_cons_eq_zero_iff {c : α} {ys : List α} : strlen nul (c :: ys) = some 0 ↔ c = nul := by
  by_cases hc : c = nul
  · subst hc
    have hhead := strlen_append (List.not_mem_nil : c ∉ ([] : List α)) ys
    exact iff_of_true hhead rfl
  · refine iff_of_false ?_ hc
    rw [show c :: ys = [c] ++ ys from rfl, strlen_append_of_not_mem (by simpa using Ne.symm hc)]
    cases strlen nul ys <;> simp

omit [DecidableEq α] in
@[simp] theorem length_strncpy (nul : α) (src : List α) (n : Nat) :
    (strncpy nul src n).length = n := by
  simp only [strncpy, List.length_append, List.length_take, List.length_replicate]
  omega

omit [DecidableEq α] in
/-- A text that is shorter than the field is followed by a NUL. -/
theorem strncpy_of_lt {n : Nat} (h : xs.length < n) :
    strncpy nul xs n = xs ++ nul :: List.replicate (n - xs.length - 1) nul := by
  obtain ⟨m, hm⟩ : ∃ m, n - xs.length = m + 1 := ⟨n - xs.length - 1, by omega⟩
  rw [strncpy, List.take_of_length_le (by omega), hm, Nat.add_sub_cancel, List.replicate_succ]

omit [DecidableEq α] in
theorem strncpy_of_le {n : Nat} (h : n ≤ xs.length) : strncpy nul xs n = xs.take n := by
  rw [strncpy, Nat.sub_eq_zero_of_le h, List.replicate_zero, List.append_nil]

/-- How far `strlen` gets from such a field on, in a block that goes on with `rest`. -/
theorem strlen_strncpy (h : nul ∉ xs) (n : Nat) (rest : List α) :
    strlen nul (strncpy nul xs n ++ rest) =
      if xs.length < n then some xs.length else (strlen nul rest).map (n + ·) := by
  split
  case isTrue hlt => rw [strncpy_of_lt hlt, List.append_assoc, List.cons_append, strlen_append h]
  case isFalse hle =>
    have hnot : nul ∉ xs.take n := fun hmem => h (List.mem_of_mem_take hmem)
    have hlen : (xs.take n).length = n := by
      rw [List.length_take]
      omega
    rw [strncpy_of_le (by omega), strlen_append_of_not_mem hnot, hlen]

end Cppev
