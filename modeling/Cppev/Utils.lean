import Mathlib.Data.Int.GCD
import Mathlib.Tactic.Ring
import Mathlib.Tactic.Linarith

/-!
# Priorities and integer algorithms

The `priority` of handlers and tasks, and `greatest_common_divisor` and `least_common_multiple`, on
two numbers and on a vector. They work over the integers with the range check of `int64_t` where
an operation may leave it: `none` is a failed assertion or a signed overflow.

* `greatestCommonDivisor_eq`: `greatest_common_divisor` of two positive numbers.
* `leastCommonMultiples_spec`: the vector version is the least common multiple, computed without
  overflow as long as the result fits.
-/

namespace Cppev

inductive Priority where
  | p0 | p1 | p2 | p3 | p4 | p5 | p6
  deriving DecidableEq, Repr

/-- The value of the enumerator, which heaps compare. -/
def Priority.value : Priority → Int
  | .p0 => 20 | .p1 => 19 | .p2 => 18 | .p3 => 17 | .p4 => 16 | .p5 => 15 | .p6 => 14

def INT64_MAX : Int := 2 ^ 63 - 1

/-- The result of a signed 64-bit operation; `none` when it overflows. -/
def int64 (x : Int) : Option Int := if -2 ^ 63 ≤ x ∧ x ≤ INT64_MAX then some x else none

/-- A sum of time points, which are 64-bit: what does not fit wraps around. -/
def toInt64 (x : Int) : Int := x.bmod (2 ^ 64)

theorem toInt64_of_range {x : Int} (h0 : -2 ^ 63 ≤ x) (h : x ≤ INT64_MAX) : toInt64 x = x := by
  unfold INT64_MAX at h
  rw [toInt64, Int.bmod_def]
  omega

theorem int64_of_range {x : Int} (h0 : 0 ≤ x) (h : x ≤ INT64_MAX) : int64 x = some x :=
  if_pos ⟨by omega, h⟩

/-- The loop of `greatest_common_divisor`. The source tests `remain` at the end of a round, here it
is tested at the start of the next one, as the new `r`. -/
def gcdLoop (p r : Int) : Int :=
  if _h : r = 0 then p else gcdLoop r (p.tmod r)
termination_by r.natAbs
decreasing_by
  rw [Int.natAbs_tmod]
  exact Nat.mod_lt _ (Int.natAbs_pos.mpr _h)

def greatestCommonDivisor (p r : Int) : Option Int :=
  if p ≠ 0 ∧ r ≠ 0 then some (gcdLoop p r) else none

def leastCommonMultiple (p r : Int) : Option Int :=
  if p ≠ 0 ∧ r ≠ 0 then do
    let g ← greatestCommonDivisor p r
    int64 (p.tdiv g * r)
  else none

/-- The two functions on a vector, with `f` for the one on two numbers. -/
def foldNums (f : Int → Int → Option Int) : List Int → Option Int
  | first :: second :: rest => (second :: rest).foldlM f first
  | _ => none

def greatestCommonDivisors (nums : List Int) : Option Int := foldNums greatestCommonDivisor nums

def leastCommonMultiples (nums : List Int) : Option Int := foldNums leastCommonMultiple nums

/-! ## Two numbers -/

theorem gcdLoop_natCast (p r : Nat) : gcdLoop p r = (Nat.gcd p r : Nat) := by
  induction r using Nat.strong_induction_on generalizing p with
  | _ r ih =>
    rw [gcdLoop]
    by_cases hr : r = 0
    · simp [hr]
    · have hmod : (p : Int).tmod r = ((p % r : Nat) : Int) := by
        rw [Int.tmod_eq_emod_of_nonneg (by omega), Int.natCast_mod]
      rw [dif_neg (by exact_mod_cast hr), hmod, ih _ (Nat.mod_lt _ (Nat.pos_of_ne_zero hr)),
        Nat.gcd_comm r, ← Nat.gcd_rec, Nat.gcd_comm]

theorem greatestCommonDivisor_eq {p r : Int} (hp : 0 < p) (hr : 0 < r) :
    greatestCommonDivisor p r = some (Int.gcd p r : Int) := by
  lift p to ℕ using hp.le
  lift r to ℕ using hr.le
  rw [greatestCommonDivisor, if_pos ⟨hp.ne', hr.ne'⟩, gcdLoop_natCast]
  rfl

/-- On positive numbers only the last step, the multiplication, can overflow. -/
theorem leastCommonMultiple_eq_int64 {p r : Int} (hp : 0 < p) (hr : 0 < r) :
    leastCommonMultiple p r = int64 (Int.lcm p r) := by
  have hval : p.tdiv (Int.gcd p r) * r = Int.lcm p r := by
    have hg : (Int.gcd p r : Int) ∣ p := Int.gcd_dvd_left ..
    have hpos : (Int.gcd p r : Int) ≠ 0 := by
      exact_mod_cast (Int.gcd_pos_of_ne_zero_left r hp.ne').ne'
    have hmul : (Int.gcd p r : Int) * Int.lcm p r = p * r := by
      have := Int.gcd_mul_lcm p r
      zify at this
      rwa [abs_of_pos hp, abs_of_pos hr] at this
    obtain ⟨q, hq⟩ := hg
    have hdiv : p.tdiv (Int.gcd p r) = q := Int.tdiv_eq_of_eq_mul_right hpos hq
    rw [hdiv]
    refine mul_left_cancel₀ hpos ?_
    rw [hmul, ← mul_assoc, ← hq]
  rw [leastCommonMultiple, if_pos ⟨hp.ne', hr.ne'⟩, greatestCommonDivisor_eq hp hr]
  show int64 (p.tdiv (Int.gcd p r) * r) = _
  rw [hval]

theorem leastCommonMultiple_eq {p r : Int} (hp : 0 < p) (hr : 0 < r)
    (hfit : (Int.lcm p r : Int) ≤ INT64_MAX) :
    leastCommonMultiple p r = some (Int.lcm p r : Int) := by
  rw [leastCommonMultiple_eq_int64 hp hr, int64_of_range (by omega) hfit]

/-! ## A vector -/

/-- The least common multiple of the numbers. -/
def lcmOf (nums : List Int) : Int := nums.foldl (fun m x => (Int.lcm m x : Int)) 1

theorem foldl_lcm_pos {nums : List Int} (hpos : ∀ x ∈ nums, 0 < x) {m : Int} (hm : 0 < m) :
    0 < nums.foldl (fun m x => (Int.lcm m x : Int)) m := by
  induction nums generalizing m with
  | nil => exact hm
  | cons x nums ih =>
      simp only [List.mem_cons, forall_eq_or_imp] at hpos
      exact ih hpos.2 (Int.natCast_pos.mpr (Int.lcm_pos hm.ne' hpos.1.ne'))

theorem dvd_foldl_lcm (nums : List Int) (m : Int) :
    m ∣ nums.foldl (fun m x => (Int.lcm m x : Int)) m := by
  induction nums generalizing m with
  | nil => exact dvd_rfl
  | cons x nums ih => exact (Int.dvd_lcm_left m x).trans (ih _)

theorem mem_dvd_foldl_lcm {nums : List Int} {x : Int} (hx : x ∈ nums) (m : Int) :
    x ∣ nums.foldl (fun m x => (Int.lcm m x : Int)) m := by
  induction nums generalizing m with
  | nil => exact nomatch hx
  | cons y nums ih =>
      rcases List.mem_cons.mp hx with rfl | hx
      · exact (Int.dvd_lcm_right m x).trans (dvd_foldl_lcm nums _)
      · exact ih hx _

theorem lcmOf_pos {nums : List Int} (hpos : ∀ x ∈ nums, 0 < x) : 0 < lcmOf nums :=
  foldl_lcm_pos hpos Int.one_pos

theorem dvd_lcmOf {nums : List Int} {x : Int} (hx : x ∈ nums) : x ∣ lcmOf nums :=
  mem_dvd_foldl_lcm hx 1

theorem foldl_lcm_dvd {nums : List Int} {m k : Int} (hm : m ∣ k) (hall : ∀ x ∈ nums, x ∣ k) :
    nums.foldl (fun m x => (Int.lcm m x : Int)) m ∣ k := by
  induction nums generalizing m with
  | nil => exact hm
  | cons x nums ih =>
      obtain ⟨hx, hnums⟩ := List.forall_mem_cons.mp hall
      exact ih (Int.coe_lcm_dvd hm hx) hnums

theorem lcmOf_cons {first : Int} (hfirst : 0 ≤ first) (rest : List Int) :
    lcmOf (first :: rest) = rest.foldl (fun m x => (Int.lcm m x : Int)) first := by
  show List.foldl _ ((Int.lcm 1 first : Nat) : Int) rest = _
  rw [Int.one_lcm, Int.natAbs_of_nonneg hfirst]

theorem lcmOf_dvd {nums : List Int} {k : Int} (hall : ∀ x ∈ nums, x ∣ k) : lcmOf nums ∣ k :=
  foldl_lcm_dvd (one_dvd k) hall

/-- The running value never exceeds the final one, so nothing overflows on the way. -/
theorem foldlM_leastCommonMultiple {nums : List Int} (hpos : ∀ x ∈ nums, 0 < x) {m : Int}
    (hm : 0 < m) (hfit : nums.foldl (fun m x => (Int.lcm m x : Int)) m ≤ INT64_MAX) :
    nums.foldlM leastCommonMultiple m = some (nums.foldl (fun m x => (Int.lcm m x : Int)) m) := by
  induction nums generalizing m with
  | nil => rfl
  | cons x nums ih =>
      simp only [List.mem_cons, forall_eq_or_imp] at hpos
      have hl : 0 < (Int.lcm m x : Int) := by exact_mod_cast Int.lcm_pos hm.ne' hpos.1.ne'
      have hle : (Int.lcm m x : Int) ≤ INT64_MAX :=
        (Int.le_of_dvd (foldl_lcm_pos hpos.2 hl) (dvd_foldl_lcm nums _)).trans hfit
      rw [List.foldlM_cons, leastCommonMultiple_eq hm hpos.1 hle]
      exact ih hpos.2 hl hfit

/-- A result is the least common multiple, and in range. -/
theorem eq_of_foldlM_leastCommonMultiple {nums : List Int} (hpos : ∀ x ∈ nums, 0 < x) {m v : Int}
    (hm : 0 < m) (hmax : m ≤ INT64_MAX) (h : nums.foldlM leastCommonMultiple m = some v) :
    v = nums.foldl (fun m x => (Int.lcm m x : Int)) m ∧ v ≤ INT64_MAX := by
  induction nums generalizing m with
  | nil =>
      obtain rfl := Option.some.inj h
      exact ⟨rfl, hmax⟩
  | cons x nums ih =>
      obtain ⟨hx, hnums⟩ := List.forall_mem_cons.mp hpos
      rw [List.foldlM_cons, leastCommonMultiple_eq_int64 hm hx] at h
      obtain ⟨l, hl, hrest⟩ := Option.bind_eq_some_iff.mp h
      unfold int64 at hl
      split at hl
      case isTrue hrange =>
        obtain rfl := Option.some.inj hl
        have hl : 0 < (Int.lcm m x : Int) := by exact_mod_cast Int.lcm_pos hm.ne' hx.ne'
        exact ih hnums hl hrange.2 hrest
      case isFalse => cases hl

theorem leastCommonMultiples_spec {nums : List Int} (hlen : 2 ≤ nums.length)
    (hpos : ∀ x ∈ nums, 0 < x) (hfit : lcmOf nums ≤ INT64_MAX) :
    leastCommonMultiples nums = some (lcmOf nums) := by
  match nums, hlen with
  | first :: second :: rest, _ =>
    have hfirst : 0 < first := hpos first (by simp)
    rw [lcmOf_cons hfirst.le] at hfit ⊢
    exact foldlM_leastCommonMultiple (fun x hx => hpos x (List.mem_cons_of_mem _ hx)) hfirst hfit

end Cppev
