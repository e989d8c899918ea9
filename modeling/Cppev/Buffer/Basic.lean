import Cppev.Lib.Memory
import Mathlib.Tactic.Linarith

/-!
# The byte buffer

`buffer.h`: one heap block with two indices into it. The bytes at positions `start` (included) to
`offset` (excluded) are the ones appended and not yet read (`unread`). Appending grows the block
and moves `offset`, reading moves `start`, and `tiny` shifts the unread bytes to the front.

`int` members are `Int`; `Buffer.Wf` bounds all of them by `cap`, so the arithmetic below is the
32-bit arithmetic of the source as long as `cap` is at most `INT_MAX`. A position outside the heap
block is undefined behaviour in the source; a well-formed buffer has no such access.

Each operation comes with one lemma on well-formedness and one on `unread`
(`wf_produce`, `unread_produce`, …); later modules use these and never unfold the operations.
-/

namespace Cppev

/-- A `char` of the heap block. -/
abbrev Byte := UInt8

/-- Largest value of a 32-bit `int`. -/
def INT_MAX : Int := 2147483647

structure Buffer where
  /-- Capacity, heap size. -/
  cap : Int
  /-- Start of the buffer, this byte is included. -/
  start : Int
  /-- End of the buffer, this byte is not included. -/
  offset : Int
  /-- Heap buffer. -/
  buffer : List Byte
  deriving DecidableEq, Repr

namespace Buffer

/-! ## Operations

As in the header, with the C++ loops as `forUpTo`. A block is a list of bytes, and an access outside
reads zero and writes nothing; `Wf` is what excludes it. -/

/-- `buffer(int cap)`. A capacity below one ends the process (an exception in a `noexcept`
constructor), so there is no buffer to return. -/
def new (cap : Int) : Option Buffer :=
  if cap < 1 then none
  else some { cap := cap, start := 0, offset := 0, buffer := List.replicate cap.toNat 0 }

/-- `buffer()`. -/
def empty : Buffer := { cap := 1, start := 0, offset := 0, buffer := [0] }

def size (b : Buffer) : Int := b.offset - b.start

def capacity (b : Buffer) : Int := b.cap

/-- `while (cap_ < cap) cap_ *= 2`. Every round at least adds one to a positive `cur`, so
`cap - cur` rounds are enough (`le_growCap`). -/
def growCap (cap : Int) : Nat → Int → Int
  | 0, cur => cur
  | n + 1, cur => if cur < cap then growCap cap n (cur * 2) else cur

/-- Expand buffer. -/
def resize (b : Buffer) (cap : Int) : Buffer :=
  if b.cap ≥ cap then b
  else
    let cap₀ := if b.cap = 0 then 1 else b.cap
    let newCap := growCap cap (cap - cap₀).toNat cap₀
    { b with
      cap := newCap
      buffer := forUpTo b.start b.offset (fun i nbuffer => poke nbuffer i (peek b.buffer i))
        (List.replicate newCap.toNat 0) }

/-- Move unconsumed buffer to the start. -/
def tiny (b : Buffer) : Buffer :=
  if b.start = 0 then b
  else
    let len := b.offset - b.start
    let moved := forUpTo 0 len (fun i mem => poke mem i (peek mem (i + b.start))) b.buffer
    { b with buffer := fill moved len b.start 0, start := 0, offset := len }

/-- Clear buffer. -/
def clear (b : Buffer) : Buffer :=
  { b with buffer := fill b.buffer 0 b.cap 0, start := 0, offset := 0 }

/-- Produce chars to buffer: `ptr` may contain `'\0'`, `len` of its chars are copied. -/
def produce (b : Buffer) (ptr : List Byte) (len : Int) : Buffer :=
  forUpTo 0 len
    (fun i b => { b with buffer := poke b.buffer b.offset (peek ptr i), offset := b.offset + 1 })
    (b.resize (b.offset + len))

/-- Consume chars from buffer, `-1` means all. -/
def consume (b : Buffer) (len : Int) : Buffer :=
  let len := if len = -1 then b.size else len
  let b := { b with start := b.start + len }
  if b.start = b.offset then b.clear else b

/-- Produce string to buffer. -/
def putString (b : Buffer) (str : List Byte) : Buffer :=
  b.produce str str.length

/-- Get string from buffer: `-1` means all, `remove` says whether it is consumed. -/
def getString (b : Buffer) (len : Int) (remove : Bool) : List Byte × Buffer :=
  let len := if len = -1 then b.size else len
  let str := slice b.buffer b.start len
  (str, if remove then b.consume len else b)

/-- `buffer(const buffer &)`: the members, and a heap block of its own with the same bytes. -/
def copy (other : Buffer) : Buffer :=
  { cap := other.cap, start := other.start, offset := other.offset
    buffer := blit (List.replicate other.cap.toNat 0) 0 (slice other.buffer 0 other.cap) }

/-! ## The bytes a buffer holds

The abstraction: everything that is proved about an operation says what it does to `unread`. -/

/-- The bytes appended and not yet consumed: positions `start` to `offset`. -/
def unread (b : Buffer) : List Byte := slice b.buffer b.start b.size

/-- The indices are in order, inside the heap block, and the heap block has `cap` bytes. -/
structure Wf (b : Buffer) : Prop where
  start_nonneg : 0 ≤ b.start
  start_le : b.start ≤ b.offset
  offset_le : b.offset ≤ b.cap
  cap_pos : 1 ≤ b.cap
  length_eq : (b.buffer.length : Int) = b.cap

theorem length_unread {b : Buffer} (h : b.Wf) : (b.unread.length : Int) = b.size := by
  have := h.start_le
  simp only [unread, length_slice, size]
  omega

theorem size_nonneg {b : Buffer} (h : b.Wf) : 0 ≤ b.size := by
  have := h.start_le
  simp only [size]
  omega

/-- A well-formed buffer is drained exactly when `size` says so. -/
theorem unread_eq_nil_iff {b : Buffer} (h : b.Wf) : b.unread = [] ↔ b.size = 0 := by
  have := length_unread h
  rw [← List.length_eq_zero_iff]
  omega

@[simp] theorem wf_empty : empty.Wf :=
  ⟨by decide, by decide, by decide, by decide, by decide⟩

@[simp] theorem unread_empty : empty.unread = [] := rfl

theorem wf_new {cap : Int} {b : Buffer} (h : new cap = some b) : b.Wf ∧ b.unread = [] := by
  unfold new at h
  split at h
  · cases h
  · cases h
    refine ⟨⟨?_, ?_, ?_, ?_, ?_⟩, rfl⟩ <;> simp <;> omega

/-! ## Growing

`resize` doubles the capacity until it is enough. It keeps the positions of the bytes, so it is seen
in the capacity only. -/

/-- Doubling goes on until it is enough. -/
theorem le_growCap (cap : Int) (n : Nat) {cur : Int} (hcur : 1 ≤ cur) (hn : (cap - cur).toNat ≤ n) :
    cap ≤ growCap cap n cur ∧ cur ≤ growCap cap n cur := by
  induction n generalizing cur with
  | zero =>
      simp only [growCap]
      omega
  | succ n ih =>
      simp only [growCap]
      split
      · have : cap ≤ growCap cap n (cur * 2) ∧ cur * 2 ≤ growCap cap n (cur * 2) :=
          ih (by omega) (by omega)
        omega
      · omega

/-- Doubling stops at the first value that is large enough, so it never reaches twice `cap`. -/
theorem growCap_lt (cap : Int) (n : Nat) {cur : Int} (hcur : cur < 2 * cap) :
    growCap cap n cur < 2 * cap := by
  induction n generalizing cur with
  | zero => simpa [growCap] using hcur
  | succ n ih =>
      simp only [growCap]
      split
      · exact ih (by omega)
      · exact hcur

/-- A block that is large enough stays. -/
theorem resize_of_le {b : Buffer} {cap : Int} (h : cap ≤ b.cap) : b.resize cap = b := by
  unfold resize
  rw [if_pos h]

@[simp] theorem start_resize (b : Buffer) (cap : Int) : (b.resize cap).start = b.start := by
  unfold resize
  split <;> rfl

@[simp] theorem offset_resize (b : Buffer) (cap : Int) : (b.resize cap).offset = b.offset := by
  unfold resize
  split <;> rfl

@[simp] theorem size_resize (b : Buffer) (cap : Int) : (b.resize cap).size = b.size := by
  simp [size]

theorem le_cap_resize {b : Buffer} (h : b.Wf) (cap : Int) :
    cap ≤ (b.resize cap).cap ∧ b.cap ≤ (b.resize cap).cap := by
  have hpos := h.cap_pos
  unfold resize
  split
  · omega
  · have hne : ¬ b.cap = 0 := by omega
    simp only [if_neg hne]
    exact le_growCap cap _ hpos (Nat.le_refl _)

/-- A block that has grown is less than twice as large as was asked for. -/
theorem cap_resize_le {b : Buffer} (h : b.Wf) (cap : Int) :
    (b.resize cap).cap = b.cap ∨ (b.resize cap).cap < 2 * cap := by
  have hpos := h.cap_pos
  unfold resize
  split
  · exact Or.inl rfl
  · have hne : ¬ b.cap = 0 := by omega
    simp only [if_neg hne]
    exact Or.inr (growCap_lt cap _ (by omega))

/-- The copy loop of `resize`: unread bytes keep their positions, the block its length. -/
theorem resize_copy {b : Buffer} (h : b.Wf) {n : Nat} (hn : b.offset ≤ n) :
    let nbuffer := forUpTo b.start b.offset
      (fun i nbuffer => poke nbuffer i (peek b.buffer i)) (List.replicate n (0 : Byte))
    nbuffer.length = n ∧
      ∀ j, b.start ≤ j → j < b.offset → peek nbuffer j = peek b.buffer j := by
  have h0 := h.start_nonneg
  refine forUpTo_inv _ _ _ _ (fun i (m : List Byte) => m.length = n ∧
      ∀ j, b.start ≤ j → j < i → peek m j = peek b.buffer j) h.start_le ?_ ?_
  · refine ⟨by simp, ?_⟩
    intro j hlo hlt
    omega
  · rintro i m hlo hlt ⟨hlen, hcell⟩
    refine ⟨by simpa using hlen, ?_⟩
    intro j hj hji
    by_cases hij : j = i
    · subst hij
      exact peek_poke_self (by omega) (by omega)
    · rw [peek_poke_ne hij]
      exact hcell j hj (by omega)

/-- The new block has the length it says. -/
theorem wf_resize {b : Buffer} (h : b.Wf) (cap : Int) : (b.resize cap).Wf := by
  have hcap := le_cap_resize h cap
  have hoff := h.offset_le
  have hpos := h.cap_pos
  refine ⟨by simpa using h.start_nonneg, by simpa using h.start_le, ?_, by omega, ?_⟩
  · simp only [offset_resize]
    omega
  · revert hcap
    unfold resize
    split
    · intro _
      exact h.length_eq
    · intro hcap
      simp only at hcap ⊢
      rw [(resize_copy h (by omega)).1]
      omega

/-- And the same bytes, by `resize_copy`. -/
@[simp] theorem unread_resize {b : Buffer} (h : b.Wf) (cap : Int) :
    (b.resize cap).unread = b.unread := by
  have hcap := le_cap_resize h cap
  have hoff := h.offset_le
  have hpos := h.cap_pos
  revert hcap
  unfold resize
  split
  · intro _
    rfl
  · intro hcap
    simp only [unread, size] at hcap ⊢
    apply slice_congr
    intro k hk0 hk
    exact (resize_copy h (by omega)).2 _ (by omega) (by omega)

/-! ## Shifting and clearing

`tiny` moves the bytes to the front, within the same block, so that the loop reads what it may have
written before; it does not, since it reads from further behind. -/

/-- The shift loop of `tiny`: the byte at `j` is the one that stood `start` further on. -/
theorem tiny_shift {b : Buffer} (h : b.Wf) :
    let moved := forUpTo 0 (b.offset - b.start)
      (fun i mem => poke mem i (peek mem (i + b.start))) b.buffer
    moved.length = b.buffer.length ∧
      ∀ j, 0 ≤ j → j < b.offset - b.start → peek moved j = peek b.buffer (j + b.start) := by
  have h0 := h.start_nonneg
  have hle := h.start_le
  have hoff := h.offset_le
  have hlen := h.length_eq
  -- positions from `i` on have not been written yet when index `i` is reached
  have hinv := forUpTo_inv 0 (b.offset - b.start)
    (fun i mem => poke mem i (peek mem (i + b.start))) b.buffer
    (fun i m => m.length = b.buffer.length ∧
      (∀ j, 0 ≤ j → j < i → peek m j = peek b.buffer (j + b.start)) ∧
      ∀ j, i ≤ j → peek m j = peek b.buffer j) (by omega)
    ⟨rfl, by intro j _ _; omega, by intro j _; rfl⟩ ?_
  · exact ⟨hinv.1, hinv.2.1⟩
  · rintro i m hlo hlt ⟨hm, hdone, htodo⟩
    refine ⟨by simpa using hm, ?_, ?_⟩
    · intro j hj0 hji
      by_cases hij : j = i
      · subst hij
        rw [peek_poke_self hj0 (by omega)]
        exact htodo _ (by omega)
      · rw [peek_poke_ne hij]
        exact hdone j hj0 (by omega)
    · intro j hj
      rw [peek_poke_ne (by omega)]
      exact htodo j (by omega)

theorem wf_tiny {b : Buffer} (h : b.Wf) : b.tiny.Wf := by
  unfold tiny
  split
  · exact h
  · next hstart =>
      have := h.start_nonneg
      have := h.start_le
      have := h.offset_le
      refine ⟨by simp, ?_, ?_, h.cap_pos, ?_⟩
      · simp only
        omega
      · simp only
        omega
      · simp only [length_fill, (tiny_shift h).1]
        exact h.length_eq

/-- The bytes are the same, by `tiny_shift`. -/
@[simp] theorem unread_tiny {b : Buffer} (h : b.Wf) : b.tiny.unread = b.unread := by
  unfold tiny
  split
  · rfl
  · next hstart =>
      have h0 := h.start_nonneg
      have hle := h.start_le
      have hoff := h.offset_le
      have hlen := h.length_eq
      simp only [unread, size, Int.sub_zero]
      apply slice_congr
      intro k hk0 hk
      have hshift := tiny_shift h
      rw [peek_fill (by omega) h0 (by rw [hshift.1]; omega)]
      have hout : ¬ (b.offset - b.start ≤ 0 + k ∧ 0 + k < b.offset - b.start + b.start) := by omega
      rw [if_neg hout, hshift.2 _ (by omega) (by omega)]
      congr 1
      omega

theorem cap_tiny (b : Buffer) : b.tiny.cap = b.cap := by
  unfold tiny
  split <;> rfl

theorem wf_clear {b : Buffer} (h : b.Wf) : b.clear.Wf := by
  have := h.cap_pos
  refine ⟨by simp [clear], by simp [clear], ?_, h.cap_pos, ?_⟩
  · simp only [clear]
    omega
  · simpa [clear] using h.length_eq

@[simp] theorem unread_clear (b : Buffer) : b.clear.unread = [] := rfl

@[simp] theorem size_clear (b : Buffer) : b.clear.size = 0 := rfl

@[simp] theorem cap_clear (b : Buffer) : b.clear.cap = b.cap := rfl

/-! ## Appending

`store` writes a list of bytes at `offset_`. All that appends is `store` after `resize`. -/

/-- Store `xs` behind the unread bytes, which must have room. Both the loop of `produce` and a
`read` into the buffer do this. -/
def store (b : Buffer) (xs : List Byte) : Buffer :=
  { b with buffer := blit b.buffer b.offset xs, offset := b.offset + xs.length }

@[simp] theorem store_nil (b : Buffer) : b.store [] = b := by
  simp [store, blit]

@[simp] theorem store_store (b : Buffer) (xs ys : List Byte) :
    (b.store xs).store ys = b.store (xs ++ ys) := by
  simp [store, blit_append, Int.add_assoc]

theorem wf_store {b : Buffer} (h : b.Wf) {xs : List Byte} (hroom : b.offset + xs.length ≤ b.cap) :
    (b.store xs).Wf := by
  have := h.start_le
  refine ⟨h.start_nonneg, ?_, hroom, h.cap_pos, ?_⟩
  · simp only [store]
    omega
  · simpa [store] using h.length_eq

/-- The bytes come after those that were there. -/
theorem unread_store {b : Buffer} (h : b.Wf) {xs : List Byte}
    (hroom : b.offset + xs.length ≤ b.cap) : (b.store xs).unread = b.unread ++ xs := by
  have h0 := h.start_nonneg
  have hle := h.start_le
  have hlen := h.length_eq
  have hsize : (b.store xs).size = b.size + xs.length := by
    simp only [store, size]
    omega
  have hmid : b.start + b.size = b.offset := by
    simp only [size]
    omega
  rw [unread, hsize, slice_add _ _ (size_nonneg h) (by omega)]
  congr 1
  · apply slice_congr
    intro k hk0 hk
    simp only [size] at hk
    exact peek_blit_of_not_mem (Or.inl (by simp only [store]; omega))
  · simp only [store, hmid]
    exact slice_blit (by omega) (by omega)

/-- The loop of `produce` stores the first `len` chars of `ptr`. -/
theorem produce_eq_store {b : Buffer} {ptr : List Byte} {len : Int} (h0 : 0 ≤ len)
    (hlen : len ≤ ptr.length) :
    b.produce ptr len = (b.resize (b.offset + len)).store (ptr.take len.toNat) := by
  unfold produce
  generalize b.resize (b.offset + len) = c
  obtain ⟨n, rfl⟩ : ∃ n : Nat, len = n := ⟨len.toNat, by omega⟩
  refine forUpTo_inv 0 n _ c (fun i c' => c' = c.store (ptr.take i.toNat)) (by omega)
    (by simp [store, blit]) ?_
  · rintro i c' hi0 hin rfl
    obtain ⟨k, rfl⟩ : ∃ k : Nat, i = k := ⟨i.toNat, by omega⟩
    have hk : k < ptr.length := by omega
    have hpeek : peek ptr k = ptr[k] := by simp [peek, hk]
    have htake : ptr.take ((k : Int) + 1).toNat = ptr.take k ++ [ptr[k]] := by
      have hsucc : ((k : Int) + 1).toNat = k + 1 := by omega
      rw [hsucc, List.take_add_one, List.getElem?_eq_getElem hk, Option.toList_some]
    have hcount : ((ptr.take k).length : Int) = k := by
      rw [List.length_take]
      omega
    rw [htake, hpeek]
    simp only [store, blit_append, blit, Int.toNat_natCast, List.length_append,
      List.length_singleton, hcount, Int.natCast_add, Int.add_assoc]
    rfl

theorem wf_produce {b : Buffer} (h : b.Wf) {ptr : List Byte} {len : Int} (h0 : 0 ≤ len)
    (hlen : len ≤ ptr.length) : (b.produce ptr len).Wf := by
  rw [produce_eq_store h0 hlen]
  have := (le_cap_resize h (b.offset + len)).1
  apply wf_store (wf_resize h _)
  rw [offset_resize, List.length_take]
  omega

theorem unread_produce {b : Buffer} (h : b.Wf) {ptr : List Byte} {len : Int} (h0 : 0 ≤ len)
    (hlen : len ≤ ptr.length) :
    (b.produce ptr len).unread = b.unread ++ ptr.take len.toNat := by
  rw [produce_eq_store h0 hlen]
  have := (le_cap_resize h (b.offset + len)).1
  rw [unread_store (wf_resize h _), unread_resize h]
  rw [offset_resize, List.length_take]
  omega

theorem wf_putString {b : Buffer} (h : b.Wf) (str : List Byte) : (b.putString str).Wf :=
  wf_produce h (by omega) (Int.le_refl _)

@[simp] theorem unread_putString {b : Buffer} (h : b.Wf) (str : List Byte) :
    (b.putString str).unread = b.unread ++ str := by
  rw [putString, unread_produce h (by omega) (Int.le_refl _)]
  simp

/-! ## Reading

`consume` and `get_string` move `start_`, and clear the buffer when it is empty. A length of -1 asks
for all there is. -/

/-- What a length argument means: `-1` asks for everything. -/
def request (b : Buffer) (len : Int) : Int := if len = -1 then b.size else len

/-- A length argument inside the domain of `consume` and `get_string`. -/
def Fits (b : Buffer) (len : Int) : Prop := len = -1 ∨ 0 ≤ len ∧ len ≤ b.size

instance (b : Buffer) (len : Int) : Decidable (b.Fits len) :=
  inferInstanceAs (Decidable (_ ∨ _ ∧ _))

theorem request_bounds {b : Buffer} (h : b.Wf) {len : Int} (hfit : b.Fits len) :
    0 ≤ b.request len ∧ b.request len ≤ b.size := by
  have := size_nonneg h
  unfold request
  rcases hfit with rfl | ⟨h0, hle⟩
  · simp [this]
  · have : len ≠ -1 := by omega
    simp [this, h0, hle]

/-- Moving `start` over `n` unread bytes. -/
def skip (b : Buffer) (n : Int) : Buffer := { b with start := b.start + n }

@[simp] theorem skip_zero (b : Buffer) : b.skip 0 = b := by
  simp [skip]

@[simp] theorem skip_skip (b : Buffer) (m n : Int) : (b.skip m).skip n = b.skip (m + n) := by
  simp [skip, Int.add_assoc]

theorem wf_skip {b : Buffer} (h : b.Wf) {n : Int} (h0 : 0 ≤ n) (hn : n ≤ b.size) :
    (b.skip n).Wf := by
  have := h.start_nonneg
  simp only [size] at hn
  refine ⟨?_, ?_, h.offset_le, h.cap_pos, h.length_eq⟩
  · simp only [skip]
    omega
  · simp only [skip]
    omega

theorem unread_skip {b : Buffer} {n : Int} (h0 : 0 ≤ n) (hn : n ≤ b.size) :
    (b.skip n).unread = b.unread.drop n.toNat := by
  have hsize : (b.skip n).size = b.size - n := by
    simp only [skip, size]
    omega
  rw [unread, unread, hsize, slice_drop _ _ h0 hn]
  rfl

/-- `consume` is a skip, and `clear` if nothing is left. -/
theorem consume_eq (b : Buffer) (len : Int) :
    b.consume len =
      if (b.skip (b.request len)).size = 0 then (b.skip (b.request len)).clear
      else b.skip (b.request len) := by
  have hiff : (b.skip (b.request len)).size = 0 ↔ b.start + b.request len = b.offset := by
    simp only [skip, size]
    omega
  simp only [hiff]
  rfl

theorem wf_consume {b : Buffer} (h : b.Wf) {len : Int} (hfit : b.Fits len) :
    (b.consume len).Wf := by
  obtain ⟨h0, hle⟩ := request_bounds h hfit
  have hskip := wf_skip h h0 hle
  rw [consume_eq]
  split
  · exact wf_clear hskip
  · exact hskip

theorem unread_consume {b : Buffer} (h : b.Wf) {len : Int} (hfit : b.Fits len) :
    (b.consume len).unread = b.unread.drop (b.request len).toNat := by
  obtain ⟨h0, hle⟩ := request_bounds h hfit
  rw [consume_eq, ← unread_skip h0 hle]
  split
  · next hdrained =>
      rw [unread_clear, (unread_eq_nil_iff (wf_skip h h0 hle)).mpr hdrained]
  · rfl

theorem cap_consume (b : Buffer) (len : Int) : (b.consume len).cap = b.cap := by
  rw [consume_eq]
  split <;> rfl

theorem getString_fst {b : Buffer} (h : b.Wf) {len : Int} (hfit : b.Fits len) (remove : Bool) :
    (b.getString len remove).1 = b.unread.take (b.request len).toNat := by
  obtain ⟨h0, hle⟩ := request_bounds h hfit
  rw [unread, slice_take _ _ h0 hle]
  rfl

theorem getString_snd {b : Buffer} (h : b.Wf) {len : Int} (hfit : b.Fits len) (remove : Bool) :
    (b.getString len remove).2 = if remove then b.consume len else b := by
  obtain ⟨h0, hle⟩ := request_bounds h hfit
  have hne : b.request len ≠ -1 := by omega
  have hreq : b.request (b.request len) = b.request len := if_neg hne
  cases remove
  · rfl
  · show b.consume (b.request len) = b.consume len
    rw [consume_eq, consume_eq, hreq]

/-! ## Copies

A copy has a block of its own, of the same length and with the same bytes. -/

theorem slice_copy {b : Buffer} (h : b.Wf) :
    slice (copy b).buffer 0 b.cap = slice b.buffer 0 b.cap := by
  have hpos := h.cap_pos
  have hlen : ((slice b.buffer 0 b.cap).length : Int) = b.cap := by
    simp only [length_slice]
    omega
  have hstore : slice (copy b).buffer 0 (slice b.buffer 0 b.cap).length = slice b.buffer 0 b.cap :=
    slice_blit (Int.le_refl _) (by simp)
  rwa [hlen] at hstore

theorem wf_copy {b : Buffer} (h : b.Wf) : (copy b).Wf := by
  have := h.cap_pos
  refine ⟨h.start_nonneg, h.start_le, h.offset_le, h.cap_pos, ?_⟩
  simp only [copy, length_blit, List.length_replicate]
  omega

theorem unread_copy {b : Buffer} (h : b.Wf) : (copy b).unread = b.unread := by
  have h0 := h.start_nonneg
  have hle := h.start_le
  have hoff := h.offset_le
  apply slice_congr
  intro k hk0 hk
  simp only [copy, size] at hk ⊢
  exact peek_eq_of_slice_eq (slice_copy h) (by omega) (by omega)

end Buffer

end Cppev
