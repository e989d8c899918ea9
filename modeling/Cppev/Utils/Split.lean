import Cppev.Lib.Words
import Cppev.Utils.Strings

/-!
# Splitting and joining

`split` notes where it finds the separator, and cuts there. The positions are `int`s; they are exact
in a string of less than 2^31 bytes.

* `sepScan_spec`: the positions are those at which `Scan` finds the separator.
* `join_split`: `join` undoes `split`.
* `split_join`: `split` undoes `join`, for separators without a border.
-/

namespace Cppev

variable {str sep : List Byte} {i k : Nat} {xs : List (List Byte)}

/-! ## The positions -/

/-- Where the separators are between the words, from `i` on. -/
def positions (sep : List Byte) : Nat → List (List Byte) → List Nat
  | i, x :: y :: ys => (i + x.length) :: positions sep (i + x.length + sep.length) (y :: ys)
  | _, _ => []

/-- A byte more at the left. -/
theorem Scan.cons {a : Byte} {s x : List Byte} (h : Scan sep k s (x :: xs))
    (hno : ¬ sep <+: a :: s) : Scan sep k (a :: s) ((a :: x) :: xs) := by
  cases h with
  | last _ hx => exact .last _ fun hin => (List.infix_cons_iff.mp hin).elim hno hx
  | next _ s xs k hx hs =>
      refine .next (a :: x) s xs k (fun i hi => ?_) hs
      cases i with
      | zero => exact hno
      | succ i => exact hx i (by simpa using hi)

theorem positions_cons {a : Byte} {x : List Byte} :
    positions sep i ((a :: x) :: xs) = positions sep (i + 1) (x :: xs) := by
  cases xs with
  | nil => rfl
  | cons y ys => simp [positions, Nat.add_assoc, Nat.add_comm 1]

theorem sepScan_spec (hsep : sep ≠ []) (hlen : sep.length ≤ str.length) (hi : i ≤ str.length) :
    ∃ k xs, Scan sep k (str.drop i) xs ∧
      sepScan str sep i = (positions sep i xs).map fun p : Nat => toInt p := by
  have hpos := List.length_pos_of_ne_nil hsep
  fun_induction sepScan str sep i with
  -- found at `i`: an empty word, and the loop goes on after the separator
  | case1 i h hm ih =>
      obtain ⟨t, ht⟩ := matchAt_iff.mp hm
      obtain rfl : t = str.drop (i + sep.length) := by
        rw [← List.drop_drop, ← ht, List.drop_left]
      obtain ⟨k, xs, hscan, hxs⟩ := ih (by omega)
      obtain ⟨y, ys, rfl⟩ := List.exists_cons_of_ne_nil hscan.ne_nil
      refine ⟨k + 1, [] :: y :: ys, ?_, ?_⟩
      · rw [← ht]
        exact .next [] _ _ _ (fun j hj => absurd hj (Nat.not_lt_zero j)) hscan
      · simp [positions, hxs]
  -- not found at `i`: a byte more of the first word
  | case2 i h hm ih =>
      obtain ⟨k, xs, hscan, hxs⟩ := ih (by omega)
      obtain ⟨y, ys, rfl⟩ := List.exists_cons_of_ne_nil hscan.ne_nil
      have hlt : i < str.length := by omega
      have hno : ¬ sep <+: str[i] :: str.drop (i + 1) := by
        rw [← List.drop_eq_getElem_cons hlt]
        exact fun hpre => hm (matchAt_iff.mpr hpre)
      refine ⟨k, (str[i] :: y) :: ys, ?_, ?_⟩
      · rw [List.drop_eq_getElem_cons hlt]
        exact hscan.cons hno
      · rw [hxs, positions_cons]
  -- too little left for a separator
  | case3 i h =>
      refine ⟨0, [str.drop i], .last _ fun hin => h ⟨hsep, ?_⟩, rfl⟩
      have := hin.length_le
      rw [List.length_drop] at this
      omega

/-! ## The pieces -/

theorem sizeT_natCast {n : Nat} (h : n < 2 ^ 64) : sizeT n = n := by
  unfold sizeT
  omega

/-- The first entry of `sep_index` stands for a separator before the string. -/
theorem toInt_neg {n : Nat} (h0 : 0 < n) (h : n < 2 ^ 31) : toInt (sizeT (0 - n)) = -n := by
  have hsize : ((sizeT (0 - n) : Nat) : Int) = 2 ^ 64 - n := by
    unfold sizeT
    omega
  rw [hsize, toInt, show (2 ^ 64 - n : Int) = -n + 2 ^ 32 * ((2 ^ 32 : Nat) : Int) by omega,
    Int.add_mul_bmod_self_right, Int.bmod_eq_of_le] <;> omega

/-- A round of the last loop, in range. -/
theorem substrs_cons {x t : List Byte} {rest : List Int}
    (hmax : str.length < 2 ^ 31) (hx : str.drop i = x ++ t) (hi : i ≤ str.length) :
    substrs str sep ((i - sep.length : Int) :: ((i + x.length : Nat) : Int) :: rest) =
      (x :: ·) <$> substrs str sep (((i + x.length : Nat) : Int) :: rest) := by
  have hle : i + x.length ≤ str.length := by
    have := congrArg List.length hx
    simp only [List.length_drop, List.length_append] at this
    omega
  have hbegin : toInt (sizeT ((i - sep.length : Int) + sep.length)) = i := by
    rw [Int.sub_add_cancel, sizeT_natCast (by omega), toInt_natCast (by omega)]
  have hsub : intSub ((i + x.length : Nat) : Int) i = .ok (x.length : Int) := by
    rw [intSub, if_pos (by omega), show ((i + x.length : Nat) : Int) - i = x.length by omega]
  have hpiece : substr str (sizeT i) (sizeT x.length) = .ok x := by
    rw [sizeT_natCast (by omega), sizeT_natCast (by omega), substr, if_neg (by omega), hx,
      List.take_left]
  rw [substrs, hbegin, hsub]
  show (do
    let piece ← substr str (sizeT i) (sizeT x.length)
    let pieces ← substrs str sep (((i + x.length : Nat) : Int) :: rest)
    return piece :: pieces : Except StringExn _) = _
  rw [hpiece]
  cases substrs str sep (((i + x.length : Nat) : Int) :: rest) <;> rfl

theorem substrs_spec (hmax : str.length < 2 ^ 31) (hi : i ≤ str.length)
    (hne : xs ≠ []) (hxs : str.drop i = sep.intercalate xs) :
    substrs str sep ((i - sep.length : Int) ::
      ((positions sep i xs).map (fun p : Nat => (p : Int)) ++ [(str.length : Int)])) = .ok xs := by
  -- along the words; `i` is where the first one begins
  induction xs generalizing i with
  | nil => exact absurd rfl hne
  | cons x xs ih =>
      cases xs with
      | nil =>
          rw [List.intercalate_singleton] at hxs
          have hlen : str.length = i + x.length := by
            have := congrArg List.length hxs
            rw [List.length_drop] at this
            omega
          show substrs str sep ((i - sep.length : Int) :: (str.length : Int) :: []) = _
          rw [hlen, substrs_cons hmax (t := []) (by simpa using hxs) hi]
          rfl
      | cons y ys =>
          rw [List.intercalate_cons_cons, List.append_assoc] at hxs
          have hdrop : str.drop (i + x.length + sep.length) = sep.intercalate (y :: ys) := by
            rw [← List.drop_drop, ← List.drop_drop, hxs, List.drop_left, List.drop_left]
          have hle : i + x.length + sep.length ≤ str.length := by
            have := congrArg List.length hxs
            simp only [List.length_drop, List.length_append] at this
            omega
          have hrest := ih hle (List.cons_ne_nil _ _) hdrop
          rw [Nat.cast_add (i + x.length), Int.add_sub_cancel] at hrest
          show substrs str sep ((i - sep.length : Int) :: ((i + x.length : Nat) : Int) ::
            ((positions sep (i + x.length + sep.length) (y :: ys)).map (fun p : Nat => (p : Int)) ++
              [(str.length : Int)])) = _
          rw [substrs_cons hmax hxs hi, hrest]
          rfl

theorem positions_le (hi : i ≤ str.length) (hne : xs ≠ [])
    (hxs : str.drop i = sep.intercalate xs) : ∀ p ∈ positions sep i xs, p ≤ str.length := by
  induction xs generalizing i with
  | nil => exact absurd rfl hne
  | cons x xs ih =>
      cases xs with
      | nil => exact fun p hp => absurd hp List.not_mem_nil
      | cons y ys =>
          rw [List.intercalate_cons_cons, List.append_assoc] at hxs
          have hle : i + x.length + sep.length ≤ str.length := by
            have := congrArg List.length hxs
            simp only [List.length_drop, List.length_append] at this
            omega
          have hdrop : str.drop (i + x.length + sep.length) = sep.intercalate (y :: ys) := by
            rw [← List.drop_drop, ← List.drop_drop, hxs, List.drop_left, List.drop_left]
          refine List.forall_mem_cons.mpr ⟨by omega, ?_⟩
          exact ih hle (List.cons_ne_nil _ _) hdrop

theorem length_positions : (positions sep i xs).length = xs.length - 1 := by
  induction xs generalizing i with
  | nil => rfl
  | cons x xs ih =>
      cases xs with
      | nil => rfl
      | cons y ys => simpa [positions] using ih

/-! ## split -/

/-- What `split` returns. -/
theorem split_ok (hsep : sep ≠ []) (hmax : str.length < 2 ^ 31) :
    ∃ k xs, split str sep = .ok xs ∧ Scan sep k str xs := by
  by_cases hlen : sep.length > str.length
  · refine ⟨0, [str], by rw [split, if_neg hsep, if_pos hlen], .last _ fun hin => ?_⟩
    have := hin.length_le
    omega
  · obtain ⟨k, xs, hscan, hxs⟩ := sepScan_spec hsep (by omega) (Nat.zero_le str.length)
    rw [List.drop_zero] at hscan
    have hjoin : str.drop 0 = sep.intercalate xs := hscan.intercalate_eq.symm
    have hle := positions_le (Nat.zero_le _) hscan.ne_nil hjoin
    have hints : (positions sep 0 xs).map (fun p : Nat => toInt p) =
        (positions sep 0 xs).map (fun p : Nat => (p : Int)) :=
      List.map_congr_left fun p hp => toInt_natCast (by have := hle p hp; omega)
    have hcut := substrs_spec hmax (Nat.zero_le _) hscan.ne_nil hjoin
    have hpos := List.length_pos_of_ne_nil hsep
    refine ⟨k, xs, ?_, hscan⟩
    rw [split, if_neg hsep, if_neg hlen, hxs, hints, toInt_neg hpos (by omega),
      toInt_natCast hmax]
    simp only [List.length_cons, List.length_append, List.length_map, length_positions,
      List.length_nil]
    split
    case isTrue htwo =>
      -- nothing was found
      have hone : k = 0 := by
        have := hscan.length_eq
        omega
      subst hone
      cases hscan
      rfl
    case isFalse => simpa using hcut

/-! ## join -/

theorem length_intercalate (hne : xs ≠ []) : ((sep.intercalate xs).length : Int) =
    ((xs.map List.length).sum : Nat) + sep.length * (xs.length - 1 : Int) := by
  induction xs with
  | nil => exact absurd rfl hne
  | cons x xs ih =>
      cases xs with
      | nil => simp
      | cons y ys =>
          have := ih (List.cons_ne_nil _ _)
          rw [List.intercalate_cons_cons]
          simp only [List.length_append, List.map_cons, List.sum_cons, List.length_cons] at this ⊢
          push_cast at this ⊢
          linarith

theorem append_ok {ret x : List Byte} (h : ret.length + x.length ≤ maxSize) :
    append ret x = some (ret ++ x) :=
  if_pos h

theorem joinLoop_eq (ret : List Byte) (hne : xs ≠ [])
    (hmax : (ret ++ sep.intercalate xs).length ≤ maxSize) :
    joinLoop sep ret xs = some (ret ++ sep.intercalate xs) := by
  induction xs generalizing ret with
  | nil => exact absurd rfl hne
  | cons x xs ih =>
      cases xs with
      | nil =>
          rw [List.intercalate_singleton, List.length_append] at hmax
          rw [List.intercalate_singleton, joinLoop, append_ok hmax]
      | cons y ys =>
          rw [List.intercalate_cons_cons] at hmax ⊢
          simp only [List.length_append] at hmax
          have hrest := ih (ret ++ x ++ sep) (List.cons_ne_nil _ _) (by
            simp only [List.length_append]
            omega)
          rw [joinLoop, append_ok (by omega), Option.bind_eq_bind, Option.bind_some,
            append_ok (by rw [List.length_append]; omega), Option.bind_some, hrest]
          simp only [List.append_assoc]

theorem sizeT_add_mul (a b c : Int) : sizeT (a + b * sizeT c) = sizeT (a + b * c) := by
  have hc : ((sizeT c : Nat) : Int) = c % 2 ^ 64 := by
    unfold sizeT
    omega
  rw [hc, sizeT, Int.add_emod, Int.mul_emod, Int.emod_emod, ← Int.mul_emod, ← Int.add_emod, sizeT]

/-- The size that is reserved is the one needed, as long as there is a string. -/
theorem sizeT_intercalate (hne : xs ≠ []) (hmax : (sep.intercalate xs).length ≤ maxSize) :
    sizeT ((xs.map List.length).sum + sep.length * sizeT (xs.length - 1)) =
      (sep.intercalate xs).length := by
  have hsmall : (sep.intercalate xs).length ≤ 2 ^ 63 - 1 := hmax
  rw [sizeT_add_mul, ← length_intercalate hne, sizeT_natCast (by omega)]

theorem join_ok (hne : xs ≠ []) (hmax : (sep.intercalate xs).length ≤ maxSize) :
    join xs sep = some (sep.intercalate xs) := by
  rw [join, sizeT_intercalate hne hmax, if_pos hmax, joinLoop_eq [] hne (by simpa using hmax)]
  rfl

/-! ## The theorems -/

/-- **`join` undoes `split`.** -/
theorem join_split (s sep : List Byte) (hs : s.length < 2 ^ 31) (hsep : sep ≠ []) :
    ∃ k xs, split s sep = .ok xs ∧ Scan sep k s xs ∧ xs.length = k + 1 ∧ join xs sep = some s ∧
      ∀ x ∈ xs, ¬ sep <:+: x := by
  obtain ⟨k, xs, hsplit, hscan⟩ := split_ok hsep hs
  refine ⟨k, xs, hsplit, hscan, hscan.length_eq, ?_, hscan.words_free hsep⟩
  rw [join_ok hscan.ne_nil, hscan.intercalate_eq]
  rw [hscan.intercalate_eq, maxSize]
  omega

/-- `"a,,b"`, split at `","`. -/
theorem join_split_comma : ∃ k xs, split [97, 44, 44, 98] [44] = .ok xs ∧
    Scan [44] k [97, 44, 44, 98] xs ∧ xs.length = k + 1 ∧ join xs [44] = some [97, 44, 44, 98] ∧
      ∀ x ∈ xs, ¬ [44] <:+: x :=
  join_split [97, 44, 44, 98] [44] (by decide) (by decide)

/-- **`split` undoes `join`.** -/
theorem split_join (sep : List Byte) (xs : List (List Byte)) (hsep : sep ≠ [])
    (hb : Unbordered sep) (hne : xs ≠ []) (hxs : ∀ x ∈ xs, ¬ sep <:+: x)
    (hmax : (sep.intercalate xs).length < 2 ^ 31) :
    (join xs sep).map (fun s => split s sep) = some (.ok xs) := by
  obtain ⟨k, ys, hsplit, hscan⟩ := split_ok hsep hmax
  obtain ⟨-, rfl⟩ := hscan.unique (scan_intercalate hb hne hxs)
  rw [join_ok hne (by rw [maxSize]; omega), Option.map_some, hsplit]

theorem unbordered_singleton (a : Byte) : Unbordered [a] := by
  intro b hne hpre _
  have hpos := List.length_pos_of_ne_nil hne
  have hle := hpre.length_le
  exact hpre.eq_of_length (by simp at hle ⊢; omega)

/-- `"a"`, the empty string and `"b"`, joined with `","`. -/
theorem split_join_comma : (join [[97], [], [98]] [44]).map (fun s => split s [44]) =
    some (.ok [[97], [], [98]]) :=
  split_join [44] [[97], [], [98]] (by decide) (unbordered_singleton 44) (by decide) (by decide)
    (by decide)

/-- A word of 2^31 bytes and an empty one: the position of the separator is no `int`. -/
theorem split_long {n : Nat} (hn : n = 2 ^ 31) (str : List Byte)
    (hstr : str = List.replicate n 97 ++ [44]) : split str [44] = .error .outOfRange := by
  have hlen : str.length = n + 1 := by simp [hstr]
  have hxs : ∀ x ∈ [List.replicate n (97 : Byte), []], ¬ [44] <:+: x := by
    simp [List.singleton_infix_iff]
  have hjoin : [44].intercalate [List.replicate n (97 : Byte), []] = str := by
    rw [hstr, List.intercalate_cons_cons, List.intercalate_singleton, List.append_nil]
  have hscan := scan_intercalate (unbordered_singleton 44) (List.cons_ne_nil _ _) hxs
  rw [hjoin] at hscan
  obtain ⟨k, ys, hscan', hpos⟩ := @sepScan_spec str [44] 0 (by decide)
    (by rw [hlen]; simp) (Nat.zero_le _)
  rw [List.drop_zero] at hscan'
  obtain ⟨-, rfl⟩ := hscan'.unique hscan
  have hscanned : sepScan str [44] 0 = [-2147483648] := by
    have hone : positions [44] 0 [List.replicate n (97 : Byte), []] = [n] := by
      rw [positions, List.length_replicate, Nat.zero_add]
      rfl
    rw [hpos, hone, hn]
    decide
  have hend : toInt str.length = -2147483647 := by
    rw [hlen, hn]
    decide
  -- the first piece is the whole string, and the second one begins behind its end
  have hpiece : substr str (sizeT 0) (sizeT (-2147483648)) = .ok str := by
    rw [substr, if_neg (by rw [show sizeT 0 = 0 from rfl]; omega), show sizeT 0 = 0 from rfl,
      List.drop_zero, List.take_of_length_le]
    rw [hlen, hn]
    decide
  have hthrow : substr str (sizeT (-2147483647)) (sizeT 0) = .error .outOfRange := by
    rw [substr, if_pos]
    rw [hlen, hn]
    decide
  rw [split, if_neg (by decide), if_neg (by rw [hlen]; simp), hscanned, hend]
  show substrs str [44] [-1, -2147483648, -2147483647] = _
  show (do
    let piece ← substr str (sizeT 0) (sizeT (-2147483648))
    let pieces ← (do
      let piece ← substr str (sizeT (-2147483647)) (sizeT 0)
      let pieces ← (.ok [] : Except StringExn (List (List Byte)))
      return piece :: pieces)
    return piece :: pieces) = _
  rw [hpiece, hthrow]
  rfl

theorem split_join_long :
    ¬ ∀ (sep : List Byte) (xs : List (List Byte)), sep ≠ [] → Unbordered sep → xs ≠ [] →
      (∀ x ∈ xs, ¬ sep <:+: x) →
      (join xs sep).map (fun s => split s sep) = some (.ok xs) := by
  intro h
  obtain ⟨n, hn⟩ : ∃ n, n = 2 ^ 31 := ⟨_, rfl⟩
  have hxs : ∀ x ∈ [List.replicate n (97 : Byte), []], ¬ [44] <:+: x := by
    simp [List.singleton_infix_iff]
  have hne : [List.replicate n (97 : Byte), []] ≠ [] := List.cons_ne_nil _ _
  have hjoin : [44].intercalate [List.replicate n (97 : Byte), []] = List.replicate n 97 ++ [44] := by
    rw [List.intercalate_cons_cons, List.intercalate_singleton, List.append_nil]
  have hjoined := @join_ok [44] _ hne (by
    rw [hjoin, List.length_append, List.length_replicate, hn]
    decide)
  have hall := h [44] _ (by decide) (unbordered_singleton 44) hne hxs
  rw [hjoined, hjoin, Option.map_some, split_long hn _ rfl] at hall
  cases hall

end Cppev
