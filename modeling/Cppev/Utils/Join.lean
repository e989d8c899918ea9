import Cppev.Utils.Split

/-!
# What `join` reserves

`join` is `noexcept`, and adds up the size of the result before it builds it. The number of
separators is `str_arr.size() - 1`, in `size_t`: for an empty vector that is `2^64 - 1`.

* `joinExact_iff`: the result is right and of the size reserved, unless the vector is empty and the
  separator is not, or no string can be as long as the result.
-/

namespace Cppev

variable {sep : List Byte} {xs : List (List Byte)}

/-- The argument of `reserve`. -/
def joinSize (strArr : List (List Byte)) (sep : List Byte) : Nat :=
  sizeT ((strArr.map List.length).sum + sep.length * sizeT (strArr.length - 1))

/-- The strings in order with the separator between neighbours, and room for just that. -/
structure JoinExact (strArr : List (List Byte)) (sep : List Byte) : Prop where
  result : join strArr sep = some (sep.intercalate strArr)
  size : joinSize strArr sep = (sep.intercalate strArr).length

theorem join_eq : join xs sep = if joinSize xs sep ≤ maxSize then joinLoop sep [] xs else none :=
  rfl

/-- How long the result has to be. -/
theorem length_intercalate_eq :
    (sep.intercalate xs).length = (xs.map List.length).sum + sep.length * (xs.length - 1) := by
  cases xs with
  | nil => rfl
  | cons x xs =>
      have hlen := @length_intercalate sep (x :: xs) (List.cons_ne_nil x xs)
      have hcount : (((x :: xs).length : Nat) : Int) - 1 = (((x :: xs).length - 1 : Nat) : Int) := by
        simp
      rw [hcount] at hlen
      exact_mod_cast hlen

/-! ## An empty vector -/

theorem joinSize_nil (hsep : sep ≠ []) (hmax : sep.length ≤ maxSize) :
    joinSize [] sep = 2 ^ 64 - sep.length := by
  have hpos := List.length_pos_of_ne_nil hsep
  have hsmall : sep.length ≤ 2 ^ 63 - 1 := hmax
  rw [joinSize, sizeT_add_mul]
  simp only [List.map_nil, List.sum_nil, List.length_nil, sizeT]
  omega

/-- More than a string can hold, so `reserve` throws. -/
theorem join_nil (hsep : sep ≠ []) (hmax : sep.length ≤ maxSize) : join [] sep = none := by
  have hsmall : sep.length ≤ 2 ^ 63 - 1 := hmax
  rw [join_eq, joinSize_nil hsep hmax, if_neg]
  rw [maxSize]
  omega

/-! ## The length of the result -/

theorem length_of_append {ret x r : List Byte} (h : append ret x = some r) :
    r.length ≤ maxSize := by
  unfold append at h
  split at h
  case isTrue hle =>
    obtain rfl := Option.some.inj h
    rwa [List.length_append]
  case isFalse => cases h

theorem length_of_joinLoop {ret r : List Byte} (hret : ret.length ≤ maxSize)
    (h : joinLoop sep ret xs = some r) : r.length ≤ maxSize := by
  induction xs generalizing ret with
  | nil =>
      obtain rfl := Option.some.inj h
      exact hret
  | cons x xs ih =>
      cases xs with
      | nil => exact length_of_append h
      | cons y ys =>
          obtain ⟨a, -, h⟩ := Option.bind_eq_some_iff.mp h
          obtain ⟨b, hb, h⟩ := Option.bind_eq_some_iff.mp h
          exact ih (length_of_append hb) h

/-- What `join` returns is a string. -/
theorem length_of_join {r : List Byte} (h : join xs sep = some r) : r.length ≤ maxSize := by
  rw [join_eq] at h
  split at h
  case isTrue => exact length_of_joinLoop (Nat.zero_le _) h
  case isFalse => cases h

/-! ## The theorem -/

/-- **When `join` gives the joined strings, at the size it reserves.** -/
theorem joinExact_iff (strArr : List StdString) (sep : StdString) :
    JoinExact (strArr.map Subtype.val) sep ↔
      (strArr ≠ [] ∨ sep.val = []) ∧
        (strArr.map fun s => s.val.length).sum + sep.val.length * (strArr.length - 1) ≤
          maxSize := by
  obtain ⟨sep, hsep⟩ := sep
  have hlen : (sep.intercalate (strArr.map Subtype.val)).length =
      (strArr.map fun s => s.val.length).sum + sep.length * (strArr.length - 1) := by
    rw [length_intercalate_eq, List.map_map, List.length_map]
    rfl
  rw [← hlen]
  constructor
  · intro h
    refine ⟨?_, length_of_join h.result⟩
    -- for an empty vector, the separators alone are too long
    by_contra hcond
    simp only [not_or, not_not] at hcond
    obtain ⟨rfl, hne⟩ := hcond
    have hnone := h.result
    rw [List.map_nil, join_nil hne hsep] at hnone
    cases hnone
  · rintro ⟨hcond, hmax⟩
    by_cases hnil : strArr = []
    · -- then the separator is empty, and nothing is reserved
      obtain rfl : sep = [] := hcond.resolve_left fun h => h hnil
      subst hnil
      show JoinExact [] []
      exact ⟨by decide, by decide⟩
    · have hne : strArr.map Subtype.val ≠ [] := mt List.map_eq_nil_iff.mp hnil
      exact ⟨join_ok hne hmax, sizeT_intercalate hne hmax⟩

/-- No strings, and a comma: `join` asks for 2^64 - 1 bytes. -/
theorem joinSize_wraps : joinSize [] [44] = 18446744073709551615 ∧ join [] [44] = none ∧
    ([44] : List Byte).intercalate [] = [] ∧ ¬ JoinExact [] [44] := by
  refine ⟨by decide, by decide, by decide, fun h => ?_⟩
  have hsize := h.size
  revert hsize
  decide

end Cppev
