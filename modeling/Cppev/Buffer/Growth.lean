import Cppev.Nio.Inbox
import Cppev.Nio.Outbox

/-!
# Growing within the range of `int`

`resize` doubles `cap_` until it is large enough. `capsTaken` are the values it goes through, as
numbers: one above `INT_MAX` is an overflow of the `int`. Appending `len` bytes asks for
`offset_ + len`, in `produce` and `put_string` as in `read_chunk`.

* `getLast_capsTaken`: the last of the values is the new capacity.
* `grows_iff`: no value overflows if and only if some doubling of the capacity is both large enough
  and an `int`.
-/

namespace Cppev

namespace Buffer

/-! ## The values of `cap_`

Doubling from a capacity on, with every value on the way, since each of them is an `int` in the
source. -/

/-- The values of `cap_` in the loop of `resize`, with the one it starts from. -/
def doublings (cap : Int) : Nat → Int → List Int
  | 0, cur => [cur]
  | n + 1, cur => if cur < cap then cur :: doublings cap n (cur * 2) else [cur]

/-- The values of `cap_` in a call of `resize`. -/
def capsTaken (b : Buffer) (cap : Int) : List Int :=
  if b.cap ≥ cap then [b.cap]
  else
    let cap₀ := if b.cap = 0 then 1 else b.cap
    doublings cap (cap - cap₀).toNat cap₀

/-- What `resize` has to do: give room for `cap` bytes, without overflow. -/
structure Grows (b : Buffer) (cap : Int) : Prop where
  enough : cap ≤ (b.resize cap).cap
  inRange : ∀ c ∈ b.capsTaken cap, c ≤ INT_MAX

theorem getLast_doublings (cap : Int) (n : Nat) (cur : Int) :
    (doublings cap n cur).getLast? = some (growCap cap n cur) := by
  induction n generalizing cur with
  | zero => rfl
  | succ n ih =>
      simp only [doublings, growCap]
      split
      case isTrue =>
        rw [List.getLast?_cons, ih (cur * 2)]
        rfl
      case isFalse => rfl

theorem getLast_capsTaken (b : Buffer) (cap : Int) :
    (b.capsTaken cap).getLast? = some (b.resize cap).cap := by
  unfold capsTaken resize
  split
  case isTrue => rfl
  case isFalse => exact getLast_doublings cap _ _

/-- What doubling ends with is a doubling of what it starts from. -/
theorem growCap_eq_pow (cap : Int) (n : Nat) (cur : Int) :
    ∃ k : Nat, growCap cap n cur = cur * 2 ^ k := by
  induction n generalizing cur with
  | zero => exact ⟨0, by simp [growCap]⟩
  | succ n ih =>
      simp only [growCap]
      split
      case isTrue =>
        obtain ⟨k, hk⟩ := ih (cur * 2)
        exact ⟨k + 1, by rw [hk, pow_succ, Int.mul_assoc, Int.mul_comm 2]⟩
      case isFalse => exact ⟨0, by simp⟩

theorem one_le_two_pow (k : Nat) : (1 : Int) ≤ 2 ^ k := by
  exact_mod_cast Nat.one_le_two_pow

/-- Doubling does not pass a doubling that is large enough. -/
theorem doublings_le {cap limit : Int} (n : Nat) {cur : Int} (k : Nat) (hcur : 0 ≤ cur)
    (hcap : cap ≤ cur * 2 ^ k) (hlimit : cur * 2 ^ k ≤ limit) :
    ∀ c ∈ doublings cap n cur, c ≤ limit := by
  have hstart : cur ≤ limit :=
    (le_mul_of_one_le_right hcur (one_le_two_pow k)).trans hlimit
  induction n generalizing cur k with
  | zero => exact fun c hc => List.mem_singleton.mp hc ▸ hstart
  | succ n ih =>
      simp only [doublings]
      split
      case isTrue hlt =>
        cases k with
        | zero =>
            rw [pow_zero, Int.mul_one] at hcap
            exact absurd hcap (Int.not_le.mpr hlt)
        | succ k =>
            have hpow : cur * 2 ^ (k + 1) = cur * 2 * 2 ^ k := by
              rw [pow_succ, Int.mul_comm (2 ^ k), Int.mul_assoc]
            rw [hpow] at hcap hlimit
            have hnext : cur * 2 ≤ limit :=
              (le_mul_of_one_le_right (by omega) (one_le_two_pow k)).trans hlimit
            exact List.forall_mem_cons.mpr ⟨hstart, ih k (by omega) hcap hlimit hnext⟩
      case isFalse => exact fun c hc => List.mem_singleton.mp hc ▸ hstart

/-! ## One call of `resize`

Which capacities can be had is a matter of powers of two times the one there is. -/

/-- `le_cap_resize`, for a buffer of which only the capacity is known. -/
theorem le_cap_resize_of_pos {b : Buffer} (h : 1 ≤ b.cap) (cap : Int) :
    cap ≤ (b.resize cap).cap ∧ b.cap ≤ (b.resize cap).cap := by
  unfold resize
  split
  case isTrue => exact ⟨by assumption, Int.le_refl _⟩
  case isFalse =>
    have hne : ¬ b.cap = 0 := by omega
    simp only [if_neg hne]
    exact le_growCap cap _ h (Nat.le_refl _)

theorem cap_resize_eq_pow {b : Buffer} (h : 1 ≤ b.cap) (cap : Int) :
    ∃ k : Nat, (b.resize cap).cap = b.cap * 2 ^ k := by
  unfold resize
  split
  case isTrue => exact ⟨0, by simp⟩
  case isFalse =>
    have hne : ¬ b.cap = 0 := by omega
    simp only [if_neg hne]
    exact growCap_eq_pow cap _ _

/-- No value passes a doubling of the capacity that is large enough. -/
theorem capsTaken_le {b : Buffer} (h : 1 ≤ b.cap) {cap limit : Int} {k : Nat}
    (hcap : cap ≤ b.cap * 2 ^ k) (hlimit : b.cap * 2 ^ k ≤ limit) :
    ∀ c ∈ b.capsTaken cap, c ≤ limit := by
  unfold capsTaken
  split
  case isTrue =>
    have hstart : b.cap ≤ b.cap * 2 ^ k := le_mul_of_one_le_right (by omega) (one_le_two_pow k)
    exact fun c hc => List.mem_singleton.mp hc ▸ hstart.trans hlimit
  case isFalse =>
    have hne : ¬ b.cap = 0 := by omega
    simp only [if_neg hne]
    exact doublings_le _ k (by omega) hcap hlimit

theorem cap_resize_mem (b : Buffer) (cap : Int) : (b.resize cap).cap ∈ b.capsTaken cap :=
  List.mem_of_getLast? (getLast_capsTaken b cap)

theorem grows_iff_of_pos {b : Buffer} (h : 1 ≤ b.cap) (cap : Int) :
    b.Grows cap ↔ ∃ k : Nat, b.cap * 2 ^ k ≤ INT_MAX ∧ cap ≤ b.cap * 2 ^ k := by
  constructor
  · -- the doubling it ends with
    rintro ⟨henough, hrange⟩
    obtain ⟨k, hk⟩ := cap_resize_eq_pow h cap
    have hlast := hrange _ (cap_resize_mem b cap)
    rw [hk] at henough hlast
    exact ⟨k, hlast, henough⟩
  · rintro ⟨k, hlimit, hcap⟩
    exact ⟨(le_cap_resize_of_pos h cap).1, capsTaken_le h hcap hlimit⟩

/-- Growing on the way to a larger request leads to the same doublings. -/
theorem grows_resize_iff {b : Buffer} (h : 1 ≤ b.cap) {cap later : Int} (hle : cap ≤ later) :
    (∃ k : Nat, (b.resize cap).cap * 2 ^ k ≤ INT_MAX ∧ later ≤ (b.resize cap).cap * 2 ^ k) ↔
      ∃ k : Nat, b.cap * 2 ^ k ≤ INT_MAX ∧ later ≤ b.cap * 2 ^ k := by
  obtain ⟨j, hj⟩ := cap_resize_eq_pow h cap
  rw [hj]
  constructor
  · rintro ⟨k, hlimit, hlater⟩
    rw [Int.mul_assoc, ← pow_add] at hlimit hlater
    exact ⟨j + k, hlimit, hlater⟩
  · rintro ⟨k, hlimit, hlater⟩
    have hmem := capsTaken_le h (hle.trans hlater) (Int.le_refl _) _ (cap_resize_mem b cap)
    rw [hj] at hmem
    have hjk : j ≤ k :=
      (pow_le_pow_iff_right₀ (by decide)).mp (le_of_mul_le_mul_left hmem (by omega))
    refine ⟨k - j, ?_⟩
    rw [Int.mul_assoc, ← pow_add, Nat.add_sub_cancel' hjk]
    exact ⟨hlimit, hlater⟩

/-- A capacity that is a power of two can be doubled up to 2^30. -/
theorem grows_iff_of_pow {b : Buffer} {j : Nat} (hj : b.cap = 2 ^ j) (hmax : b.cap ≤ INT_MAX)
    (cap : Int) : b.Grows cap ↔ cap ≤ 2 ^ 30 := by
  have hmono : ∀ {m n : Nat}, m ≤ n → (2 : Int) ^ m ≤ 2 ^ n := fun hmn =>
    pow_le_pow_right₀ (by decide) hmn
  rw [grows_iff_of_pos (by rw [hj]; exact one_le_two_pow j), hj]
  rw [hj] at hmax
  have hint : ∀ n : Nat, (2 : Int) ^ n ≤ INT_MAX → n ≤ 30 := by
    intro n hn
    by_contra hlt
    have h31 : (2 : Int) ^ 31 ≤ 2 ^ n := hmono (by omega)
    simp only [INT_MAX] at hn
    omega
  constructor
  · rintro ⟨k, hlimit, hcap⟩
    rw [← pow_add] at hlimit hcap
    exact hcap.trans (hmono (hint _ hlimit))
  · intro hcap
    refine ⟨30 - j, ?_⟩
    rw [← pow_add, show j + (30 - j) = 30 by have := hint j hmax; omega]
    exact ⟨by decide, hcap⟩

/-! ## Reachable buffers

Whatever is done with a buffer, its capacity stays positive, which is all that the bound needs. -/

/-- The buffers a program can come by, with whatever arguments. -/
inductive Reachable : Buffer → Prop
  | new {cap : Int} {b : Buffer} (h : Buffer.new cap = some b) : Reachable b
  | copy {b : Buffer} (h : Reachable b) : Reachable b.copy
  | resize {b : Buffer} (h : Reachable b) (cap : Int) : Reachable (b.resize cap)
  | tiny {b : Buffer} (h : Reachable b) : Reachable b.tiny
  | clear {b : Buffer} (h : Reachable b) : Reachable b.clear
  | produce {b : Buffer} (h : Reachable b) (ptr : List Byte) (len : Int) :
      Reachable (b.produce ptr len)
  | putString {b : Buffer} (h : Reachable b) (str : List Byte) : Reachable (b.putString str)
  | consume {b : Buffer} (h : Reachable b) (len : Int) : Reachable (b.consume len)
  | getString {b : Buffer} (h : Reachable b) (len : Int) (remove : Bool) :
      Reachable (b.getString len remove).2
  | readChunk {io : StreamIO} (h : Reachable io.str.rbuffer) (len : Int) :
      Reachable ((Nstream.readChunk len).exec io).2.str.rbuffer
  | writeChunk {io : StreamIO} (h : Reachable io.str.wbuffer) (len : Int) :
      Reachable ((Nstream.writeChunk len).exec io).2.str.wbuffer

theorem cap_produce (b : Buffer) (ptr : List Byte) (len : Int) :
    (b.produce ptr len).cap = (b.resize (b.offset + len)).cap := by
  unfold produce
  exact forUpTo_keep 0 len _ (P := fun c : Buffer => c.cap = (b.resize (b.offset + len)).cap) rfl
    fun i c hc => hc

theorem cap_getString (b : Buffer) (len : Int) (remove : Bool) :
    (b.getString len remove).2.cap = b.cap := by
  cases remove with
  | true => exact cap_consume b _
  | false => rfl

theorem cap_readLoop (s : Nstream) (len : Int) (script : List ReadResult) :
    (s.readLoop len script).2.1.rbuffer.cap = s.rbuffer.cap := by
  -- a round stores bytes, sets a flag, or neither
  fun_induction Nstream.readLoop s len script with
  | case5 s len rest hlen b bs hle ih => exact ih
  | case6 s len rest hlen ih => exact ih
  | _ => rfl

theorem cap_writeLoop (s : Nstream) (len : Int) (script : List WriteResult) :
    (s.writeLoop len script).str.wbuffer.cap = s.wbuffer.cap := by
  fun_induction Nstream.writeLoop s len script with
  | case3 s len rest hlen l n curr accepted out ih => exact ih
  | case4 s len rest hlen l ih => exact ih
  | _ => rfl

theorem cap_readChunk (len : Int) (io : StreamIO) :
    ((Nstream.readChunk len).exec io).2.str.rbuffer.cap =
      (io.str.rbuffer.resize (io.str.rbuffer.offset + len)).cap := by
  rcases hout : ({ io.str with
    rbuffer := io.str.rbuffer.resize (io.str.rbuffer.offset + len) } : Nstream).readLoop len
      io.reads with ⟨r, s, rest⟩
  rw [Nstream.exec_readChunk hout]
  have := cap_readLoop { io.str with
    rbuffer := io.str.rbuffer.resize (io.str.rbuffer.offset + len) } len io.reads
  rwa [hout] at this

theorem cap_writeChunk (len : Int) (io : StreamIO) :
    ((Nstream.writeChunk len).exec io).2.str.wbuffer.cap = io.str.wbuffer.cap := by
  have hcap := cap_writeLoop io.str (min len io.str.wbuffer.size) io.writes
  cases hres : (io.str.writeLoop (min len io.str.wbuffer.size) io.writes).result with
  | ok u =>
      rw [Nstream.exec_writeChunk_ok rfl hres, ← hcap]
      unfold Nstream.settled
      split <;> rfl
  | error e => rw [Nstream.exec_writeChunk_error rfl hres, ← hcap]

theorem cap_resize_pos {b : Buffer} (h : 1 ≤ b.cap) (cap : Int) : 1 ≤ (b.resize cap).cap :=
  h.trans (le_cap_resize_of_pos h cap).2

theorem Reachable.cap_pos {b : Buffer} (h : Reachable b) : 1 ≤ b.cap := by
  induction h with
  | new h => exact (wf_new h).1.cap_pos
  | copy h ih => exact ih
  | resize h cap ih => exact cap_resize_pos ih cap
  | tiny h ih => rwa [cap_tiny]
  | clear h ih => exact ih
  | produce h ptr len ih =>
      rw [cap_produce]
      exact cap_resize_pos ih _
  | putString h str ih =>
      rw [Buffer.putString, cap_produce]
      exact cap_resize_pos ih _
  | consume h len ih => rwa [cap_consume]
  | getString h len remove ih => rwa [cap_getString]
  | readChunk h len ih =>
      rw [cap_readChunk]
      exact cap_resize_pos ih _
  | writeChunk h len ih => rwa [cap_writeChunk]

/-! ## The theorem

So an append grows the buffer without overflow exactly when some doubling is enough and is an
`int`. -/

/-- **When an append grows the buffer without overflow.** -/
theorem grows_iff {b : Buffer} (h : Reachable b) (len : Int) :
    b.Grows (b.offset + len) ↔
      ∃ k : Nat, b.cap * 2 ^ k ≤ INT_MAX ∧ b.offset + len ≤ b.cap * 2 ^ k :=
  grows_iff_of_pos h.cap_pos _

/-- Three bytes for a new buffer. -/
theorem grows_iff_three : empty.Grows (0 + 3) ↔
    ∃ k : Nat, (1 : Int) * 2 ^ k ≤ INT_MAX ∧ (0 : Int) + 3 ≤ 1 * 2 ^ k :=
  grows_iff (b := empty) (.new (show Buffer.new 1 = some empty from rfl)) 3

/-- 2^30 + 1 bytes for a new buffer: an `int`, but the next power of two is none. -/
theorem grows_past_int : (0 : Int) + (2 ^ 30 + 1) ≤ INT_MAX ∧ ¬ empty.Grows (0 + (2 ^ 30 + 1)) := by
  refine ⟨by decide, ?_⟩
  rw [grows_iff_of_pow (j := 0) rfl (by decide)]
  decide

end Buffer

end Cppev
