import Cppev.Lib.Loop
import Cppev.Utils
import Mathlib.Algebra.GCDMonoid.Multiset
import Mathlib.Algebra.GCDMonoid.Nat

/-!
# The divisors and multiples of a vector

`greatest_common_divisor` with the rounds of its loop counted, and what it and
`least_common_multiple` compute of a vector: the `gcd` and the `lcm` of its numbers, as a multiset.

* `loopFor_gcdRound`: the loop comes to an end, and what it leaves is `gcdLoop`.
* `greatestCommonDivisors_eq`: the vector version is the `gcd`, so it divides every number.
* `gcd_lcm_of_vector`: on positive numbers the two functions are right. The product in a step of
  `least_common_multiple` is the multiple of a part of the vector, and divides the last one.
-/

namespace Cppev

/-! ## The loop of `greatest_common_divisor` -/

/-- A round, with `p` and `r` for the variables. -/
def gcdRound : Int × Int → (Int × Int) ⊕ Int
  | (p, r) =>
    let remain := p.tmod r
    let p := r
    let r := remain
    if remain = 0 then .inr p else .inl (p, r)

/-- `greatest_common_divisor`, if its loop ends within `n` rounds. -/
def greatestCommonDivisorWithin (n : Nat) (p r : Int) : Option Int :=
  if p ≠ 0 ∧ r ≠ 0 then loopFor gcdRound n (p, r) else none

/-- The same on a vector, where every loop ends within `n` rounds. -/
def greatestCommonDivisorsWithin (n : Nat) (nums : List Int) : Option Int :=
  foldNums (greatestCommonDivisorWithin n) nums

/-- A round keeps the result, and makes `r` smaller. -/
theorem gcdRound_ok {g : Int} (v : Int × Int) (h : v.2 ≠ 0 ∧ gcdLoop v.1 v.2 = g) :
    RoundOk (fun v : Int × Int => v.2 ≠ 0 ∧ gcdLoop v.1 v.2 = g) (fun v => v.2.natAbs) (· = g) v
      (gcdRound v) := by
  obtain ⟨p, r⟩ := v
  obtain ⟨hr, hg⟩ := h
  simp only at hr hg
  rw [gcdLoop, dif_neg hr] at hg
  have hlt : (p.tmod r).natAbs < r.natAbs := by
    rw [Int.natAbs_tmod]
    exact Nat.mod_lt _ (Int.natAbs_pos.mpr hr)
  simp only [gcdRound]
  constructor
  · intro v hv
    split at hv
    case isTrue => cases hv
    case isFalse hremain =>
      obtain rfl := Sum.inl.inj hv
      exact ⟨⟨hremain, hg⟩, hlt⟩
  · intro x hx
    split at hx
    case isTrue hremain =>
      obtain rfl := Sum.inr.inj hx
      rwa [hremain, gcdLoop, dif_pos rfl] at hg
    case isFalse => cases hx

/-- **The loop ends.** -/
theorem loopFor_gcdRound {p r : Int} (hr : r ≠ 0) {n : Nat} (hn : r.natAbs < n) :
    loopFor gcdRound n (p, r) = some (gcdLoop p r) := by
  obtain ⟨g, hg, heq⟩ := loopFor_spec gcdRound_ok (s := (p, r)) ⟨hr, rfl⟩ hn
  rw [hg, heq]

theorem greatestCommonDivisorWithin_eq {n : Nat} {r : Int} (hn : r.natAbs < n) (p : Int) :
    greatestCommonDivisorWithin n p r = greatestCommonDivisor p r := by
  unfold greatestCommonDivisorWithin greatestCommonDivisor
  split
  case isTrue h => exact loopFor_gcdRound h.2 hn
  case isFalse => rfl

theorem foldlM_greatestCommonDivisorWithin {n : Nat} {nums : List Int}
    (hn : ∀ x ∈ nums, x.natAbs < n) (m : Int) :
    nums.foldlM (greatestCommonDivisorWithin n) m = nums.foldlM greatestCommonDivisor m := by
  induction nums generalizing m with
  | nil => rfl
  | cons x nums ih =>
      obtain ⟨hx, hnums⟩ := List.forall_mem_cons.mp hn
      rw [List.foldlM_cons, List.foldlM_cons, greatestCommonDivisorWithin_eq hx]
      exact bind_congr fun d => ih hnums d

theorem greatestCommonDivisorsWithin_eq {n : Nat} {nums : List Int}
    (hn : ∀ x ∈ nums, x.natAbs < n) :
    greatestCommonDivisorsWithin n nums = greatestCommonDivisors nums := by
  match nums with
  | [] | [_] => rfl
  | first :: second :: rest =>
    exact foldlM_greatestCommonDivisorWithin (fun x hx => hn x (List.mem_cons_of_mem _ hx)) first

/-! ## The numbers of a vector -/

theorem foldlM_greatestCommonDivisor_eq {nums : List Int} (hpos : ∀ x ∈ nums, 0 < x) {m : Int}
    (hm : 0 < m) : nums.foldlM greatestCommonDivisor m = some (nums.foldl gcd m) := by
  induction nums generalizing m with
  | nil => rfl
  | cons x nums ih =>
      obtain ⟨hx, hnums⟩ := List.forall_mem_cons.mp hpos
      have hg : 0 < gcd m x := by
        rw [← Int.coe_gcd]
        exact_mod_cast Int.gcd_pos_of_ne_zero_left x hm.ne'
      rw [List.foldlM_cons, greatestCommonDivisor_eq hm hx, Int.coe_gcd]
      exact ih hnums hg

/-- The vector version is the `gcd` of the numbers, whatever their order. -/
theorem greatestCommonDivisors_eq {nums : List Int} (hlen : 2 ≤ nums.length)
    (hpos : ∀ x ∈ nums, 0 < x) :
    greatestCommonDivisors nums = some (nums : Multiset Int).gcd := by
  match nums, hlen with
  | first :: second :: rest, _ =>
    have hfirst : 0 < first := hpos first (by simp)
    have hhead : gcd 0 first = first := by
      rw [gcd_zero_left, Int.normalize_of_nonneg hfirst.le]
    have hfold : (↑(first :: second :: rest) : Multiset Int).gcd =
        (second :: rest).foldl gcd first := by
      rw [Multiset.gcd, Multiset.coe_fold_l, List.foldl_cons, hhead]
    rw [hfold]
    exact foldlM_greatestCommonDivisor_eq (fun x hx => hpos x (List.mem_cons_of_mem _ hx)) hfirst

theorem greatestCommonDivisors_spec {nums : List Int} (hlen : 2 ≤ nums.length)
    (hpos : ∀ x ∈ nums, 0 < x) :
    ∃ g, greatestCommonDivisors nums = some g ∧ 0 < g ∧ ∀ x ∈ nums, g ∣ x := by
  have hnonneg : 0 ≤ (nums : Multiset Int).gcd :=
    Int.nonneg_of_normalize_eq_self (Multiset.normalize_gcd _)
  have hne : (nums : Multiset Int).gcd ≠ 0 := by
    intro hzero
    obtain ⟨x, hx⟩ := List.exists_mem_of_length_pos (by omega : 0 < nums.length)
    exact (hpos x hx).ne' ((Multiset.gcd_eq_zero_iff _).mp hzero x (Multiset.mem_coe.mpr hx))
  exact ⟨_, greatestCommonDivisors_eq hlen hpos, by omega,
    fun x hx => Multiset.gcd_dvd (Multiset.mem_coe.mpr hx)⟩

theorem lcmOf_eq_lcm (nums : List Int) : lcmOf nums = (nums : Multiset Int).lcm :=
  (Multiset.coe_fold_l lcm 1 nums).symm

/-- What the loop over a vector has computed after some of its numbers. -/
theorem leastCommonMultiples_prefix {nums part : List Int} (hpos : ∀ x ∈ nums, 0 < x)
    (hfit : lcmOf nums ≤ INT64_MAX) (hpart : part <+: nums) (hlen : 2 ≤ part.length) :
    leastCommonMultiples part = some (lcmOf part) ∧ lcmOf part ∣ lcmOf nums ∧
      lcmOf part ≤ INT64_MAX := by
  have hpos' : ∀ x ∈ part, 0 < x := fun x hx => hpos x (hpart.subset hx)
  have hdvd : lcmOf part ∣ lcmOf nums := lcmOf_dvd fun x hx => dvd_lcmOf (hpart.subset hx)
  have hle := (Int.le_of_dvd (lcmOf_pos hpos) hdvd).trans hfit
  exact ⟨leastCommonMultiples_spec hlen hpos' hle, hdvd, hle⟩

/-! ## The theorem -/

/-- **`greatest_common_divisor` and `least_common_multiple` of a vector** of positive numbers. Each
loop of the first ends within as many rounds as the largest number says. The second is defined, and
so are the values it has on the way, if the result is in the range of `int64_t`. -/
theorem gcd_lcm_of_vector {nums : List Int} (hlen : 2 ≤ nums.length) (hpos : ∀ x ∈ nums, 0 < x) :
    (∀ n : Nat, (∀ x ∈ nums, x < n) →
        greatestCommonDivisorsWithin n nums = some (nums : Multiset Int).gcd) ∧
      (∀ nums', nums'.Perm nums →
        greatestCommonDivisors nums' = some (nums : Multiset Int).gcd) ∧
      ((nums : Multiset Int).lcm ≤ INT64_MAX →
        leastCommonMultiples nums = some (nums : Multiset Int).lcm ∧
          ∀ part, part <+: nums → 2 ≤ part.length →
            leastCommonMultiples part = some (part : Multiset Int).lcm ∧
              (part : Multiset Int).lcm ∣ (nums : Multiset Int).lcm ∧
                (part : Multiset Int).lcm ≤ INT64_MAX) := by
  refine ⟨fun n hn => ?_, fun nums' hperm => ?_, fun hfit => ?_⟩
  · have hrounds : ∀ x ∈ nums, x.natAbs < n := fun x hx => by
      have hlt := hn x hx
      have h0 := hpos x hx
      omega
    rw [greatestCommonDivisorsWithin_eq hrounds, greatestCommonDivisors_eq hlen hpos]
  · have hlen' : 2 ≤ nums'.length := hperm.length_eq ▸ hlen
    rw [greatestCommonDivisors_eq hlen' fun x hx => hpos x (hperm.subset hx),
      Multiset.coe_eq_coe.mpr hperm]
  · rw [← lcmOf_eq_lcm] at hfit ⊢
    refine ⟨leastCommonMultiples_spec hlen hpos hfit, fun part hpart hlen' => ?_⟩
    rw [← lcmOf_eq_lcm part]
    exact leastCommonMultiples_prefix hpos hfit hpart hlen'

/-- Of 12, 18 and 10, and in another order. -/
theorem gcd_lcm_of_vector_three :
    greatestCommonDivisorsWithin 19 [12, 18, 10] = some 2 ∧
      greatestCommonDivisors [10, 12, 18] = some 2 ∧
        leastCommonMultiples [12, 18, 10] = some 180 ∧ leastCommonMultiples [12, 18] = some 36 := by
  have hgcd : (([12, 18, 10] : List Int) : Multiset Int).gcd = 2 := by decide +kernel
  have hlcm : (([12, 18, 10] : List Int) : Multiset Int).lcm = 180 := by decide +kernel
  have hpart : (([12, 18] : List Int) : Multiset Int).lcm = 36 := by decide +kernel
  have hall := @gcd_lcm_of_vector [12, 18, 10] (by decide) (by decide)
  rw [hgcd, hlcm] at hall
  obtain ⟨hrounds, horder, hmultiple⟩ := hall
  obtain ⟨hfit, hparts⟩ := hmultiple (by decide)
  have htwo := (hparts [12, 18] ⟨[10], rfl⟩ (by decide)).1
  rw [hpart] at htwo
  exact ⟨hrounds 19 (by decide), horder _ (by decide), hfit, htwo⟩

end Cppev
