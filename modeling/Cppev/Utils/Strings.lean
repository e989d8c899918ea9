import Mathlib.Data.List.Infix
import Cppev.Buffer.Basic

/-!
# Splitting, joining and stripping strings

`split`, `join` and the three strips of `utils.cc`. A string is the list of its bytes. Lengths and
positions are natural numbers; where the source converts between `size_t` and `int`, or subtracts
below zero, the conversion is written out (`sizeT`, `toInt`, `intSub`).

* `matchAt_iff`: the loop that compares a word with a part of the string.
* `matchBack_iff`: the same from the right end, as long as the string is longer than the word.
-/

namespace Cppev

/-- What the functions throw; and a signed overflow, after which there is no result. -/
inductive StringExn where
  | runtimeError (what : String)
  | outOfRange
  | overflow
  deriving DecidableEq, Repr

/-- `std::string::max_size()`. -/
def maxSize : Nat := 2 ^ 63 - 1

/-- A string as the library can hold it. -/
abbrev StdString := { bytes : List Byte // bytes.length ≤ maxSize }

/-- The conversion to `size_t`. -/
def sizeT (x : Int) : Nat := (x % 2 ^ 64).toNat

/-- The conversion to `int`. -/
def toInt (x : Int) : Int := x.bmod (2 ^ 32)

/-- Below 2^31 a number is the same as an `int`. -/
theorem toInt_natCast {n : Nat} (h : n < 2 ^ 31) : toInt n = n := by
  unfold toInt
  rw [Int.bmod_eq_of_le] <;> omega

/-- A subtraction of `int`s. -/
def intSub (a b : Int) : Except StringExn Int :=
  if -2 ^ 31 ≤ a - b ∧ a - b < 2 ^ 31 then .ok (a - b) else .error .overflow

/-- `std::string(str, pos, len)`, or `str.substr(pos, len)`. -/
def substr (str : List Byte) (pos len : Nat) : Except StringExn (List Byte) :=
  if pos > str.length then .error .outOfRange else .ok ((str.drop pos).take len)

/-- The inner loop that compares `word` with what stands in `str` from `i` on. -/
def matchAt (str word : List Byte) (i : Nat) : Bool :=
  (List.range word.length).all fun j => str[i + j]? = word[j]?

/-! ## split and join -/

/-- The outer loop of `split`, from `i` on: what it appends to `sep_index`. -/
def sepScan (str sep : List Byte) (i : Nat) : List Int :=
  if _h : sep ≠ [] ∧ i ≤ str.length - sep.length then
    if matchAt str sep i then toInt i :: sepScan str sep (i + sep.length)
    else sepScan str sep (i + 1)
  else []
termination_by str.length + 1 - i
decreasing_by
  · have := List.length_pos_of_ne_nil _h.1
    omega
  · omega

/-- The last loop of `split`, over `sep_index`. -/
def substrs (str sep : List Byte) : List Int → Except StringExn (List (List Byte))
  | prev :: next :: rest => do
    let begin := toInt (sizeT (prev + sep.length))
    let len ← intSub next begin
    let piece ← substr str (sizeT begin) (sizeT len)
    let pieces ← substrs str sep (next :: rest)
    return piece :: pieces
  | _ => .ok []

def split (str sep : List Byte) : Except StringExn (List (List Byte)) :=
  if sep = [] then .error (.runtimeError "cannot split string with empty seperator")
  else if sep.length > str.length then .ok [str]
  else
    let sepIndex := toInt (sizeT (0 - sep.length)) :: (sepScan str sep 0 ++ [toInt str.length])
    if sepIndex.length = 2 then .ok [str] else substrs str sep sepIndex

/-- `ret += str`; `none` if that is longer than a string can be. -/
def append (ret str : List Byte) : Option (List Byte) :=
  if ret.length + str.length ≤ maxSize then some (ret ++ str) else none

/-- The second loop of `join`. -/
def joinLoop (sep : List Byte) : List Byte → List (List Byte) → Option (List Byte)
  | ret, [] => some ret
  | ret, [str] => append ret str
  | ret, str :: next :: rest => do
    let ret ← append ret str
    let ret ← append ret sep
    joinLoop sep ret (next :: rest)

/-- `none` ends the process: a string refuses to become so long, and `join` is `noexcept`. -/
def join (strArr : List (List Byte)) (sep : List Byte) : Option (List Byte) :=
  let size := sizeT ((strArr.map List.length).sum + sep.length * sizeT (strArr.length - 1))
  if size ≤ maxSize then joinLoop sep [] strArr else none

/-! ## strip -/

def STRIP_LEFT : Nat := 0x01

def STRIP_RIGHT : Nat := 0x10

/-- The loop of `do_strip` on the left side. -/
def stripLeft (str chars : List Byte) (r p : Nat) : Nat :=
  if _h : chars ≠ [] ∧ chars.length ≤ r - p then
    if matchAt str chars p then stripLeft str chars r (p + chars.length) else p
  else p
termination_by r - p
decreasing_by
  have := List.length_pos_of_ne_nil _h.1
  omega

/-- The inner loop on the right side, from `i` down while it is greater than `bound`. -/
def matchBack (str chars : List Byte) (bound : Nat) : Nat → Nat → Bool
  | 0, _ => true
  | i + 1, j =>
    if i + 1 > bound then
      if str[i + 1]? = chars[j]? then matchBack str chars bound i (j - 1) else false
    else true

/-- The loop of `do_strip` on the right side. -/
def stripRight (str chars : List Byte) (p r : Nat) : Nat :=
  if _h : chars ≠ [] ∧ chars.length ≤ r - p then
    if matchBack str chars (sizeT (r - chars.length - 1)) (r - 1) (chars.length - 1) then
      stripRight str chars p (r - chars.length)
    else r
  else r
termination_by r - p
decreasing_by
  have := List.length_pos_of_ne_nil _h.1
  omega

def doStrip (str chars : List Byte) (type : Nat) : Except StringExn (List Byte) :=
  if chars = [] then .error (.runtimeError "cannot strip string with empty strip chars")
  else
    let p := if type &&& STRIP_LEFT ≠ 0 then stripLeft str chars str.length 0 else 0
    let r := if type &&& STRIP_RIGHT ≠ 0 then stripRight str chars p str.length else str.length
    substr str p (r - p)

def strip (str chars : List Byte) : Except StringExn (List Byte) :=
  doStrip str chars (STRIP_LEFT ||| STRIP_RIGHT)

def lstrip (str chars : List Byte) : Except StringExn (List Byte) := doStrip str chars STRIP_LEFT

def rstrip (str chars : List Byte) : Except StringExn (List Byte) := doStrip str chars STRIP_RIGHT

/-! ## The comparing loops -/

variable {str word : List Byte} {i : Nat}

theorem matchAt_iff : matchAt str word i = true ↔ word <+: str.drop i := by
  rw [List.prefix_iff_getElem?]
  simp only [matchAt, List.all_eq_true, List.mem_range, decide_eq_true_eq, List.getElem?_drop]
  refine forall₂_congr fun j hj => ?_
  rw [List.getElem?_eq_getElem hj]

theorem matchBack_iff_forall {bound j : Nat} : matchBack str word bound i j = true ↔
    ∀ m < i - bound, str[i - m]? = word[j - m]? := by
  induction i generalizing j with
  | zero => simp [matchBack]
  | succ i ih =>
      rw [matchBack]
      split
      case isTrue hgt =>
        have hsplit : (∀ m < i + 1 - bound, str[i + 1 - m]? = word[j - m]?) ↔
            str[i + 1]? = word[j]? ∧ ∀ m < i - bound, str[i - m]? = word[j - 1 - m]? := by
          rw [show i + 1 - bound = i - bound + 1 by omega, Nat.forall_lt_succ_left]
          simp [Nat.sub_sub, Nat.add_comm 1]
        rw [hsplit]
        split
        case isTrue heq => simp [heq, ih]
        case isFalse hne => simp [hne]
      case isFalse hle =>
        have : i + 1 - bound = 0 := by omega
        simp [this]

/-- No wrap-around in `r - chars.size() - 1`. -/
theorem matchBack_iff {r : Nat} (hlt : word.length < r) (hr : r ≤ str.length)
    (hmax : str.length ≤ maxSize) :
    matchBack str word (sizeT (r - word.length - 1)) (r - 1) (word.length - 1) = true ↔
      word <:+ str.take r := by
  have hbound : sizeT (r - word.length - 1) = r - word.length - 1 := by
    unfold sizeT maxSize at *
    omega
  rw [matchBack_iff_forall, hbound, List.suffix_iff_eq_drop]
  -- the loop counts down from the last byte, the list from the first one up
  constructor
  · intro h
    refine List.ext_getElem? fun m => ?_
    by_cases hm : m < word.length
    · have := h (word.length - 1 - m) (by omega)
      rw [show r - 1 - (word.length - 1 - m) = r - word.length + m by omega,
        show word.length - 1 - (word.length - 1 - m) = m by omega] at this
      rw [← this, List.getElem?_drop, List.length_take_of_le hr,
        List.getElem?_take_of_lt (by omega)]
    · rw [List.getElem?_eq_none (by omega), List.getElem?_eq_none (by simp; omega)]
  · intro h m hm
    have hidx := congrArg (fun l => l[word.length - 1 - m]?) h
    simp only [List.getElem?_drop, List.length_take_of_le hr] at hidx
    rw [hidx, List.getElem?_take_of_lt (by omega),
      show r - word.length + (word.length - 1 - m) = r - 1 - m by omega]

/-- With as many bytes left as the word has, nothing is compared. -/
theorem matchBack_wrap {r : Nat} (hmax : r ≤ maxSize) (hr : r = word.length) (j : Nat) :
    matchBack str word (sizeT (r - word.length - 1)) (r - 1) j = true := by
  have hbound : sizeT (r - word.length - 1) = 2 ^ 64 - 1 := by
    subst hr
    simp [sizeT]
  rw [matchBack_iff_forall, hbound]
  intro m hm
  unfold maxSize at hmax
  omega

end Cppev
