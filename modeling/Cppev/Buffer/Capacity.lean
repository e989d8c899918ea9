import Mathlib.Data.Nat.Log
import Cppev.Buffer.Growth
import Cppev.Buffer.Session

/-!
# How much memory a buffer takes

The front of a buffer is given back when everything is read (`consume`), or when the caller asks for
it (`tiny`, `clear`). Until then appended bytes go behind the ones already read, however few of them
are unread.

* `Metered`: the capacity is the least power of two that holds what has been appended since the
  front was given back, at its largest.
* `bounded_iff`: so it is this amount that a bound on the memory bounds.
-/

namespace Cppev

/-! ## Doubling from a power of two -/

/-- The power of two between `n` and `2 * n`. -/
theorem clog_eq_of_bounds {m n : Nat} (hle : n ≤ 2 ^ m) (hlt : 2 ^ m < 2 * n) :
    Nat.clog 2 n = m := by
  apply Nat.le_antisymm (Nat.clog_le_of_le_pow hle)
  have hpow : 2 ^ m < 2 ^ (Nat.clog 2 n + 1) := by
    have := Nat.le_pow_clog (b := 2) (by decide) n
    rw [pow_succ]
    omega
  exact Nat.lt_succ_iff.mp ((Nat.pow_lt_pow_iff_right (by decide)).mp hpow)

/-- A capacity that is the least power of two for `peak` becomes the one for `max peak n`. -/
theorem cap_resize_clog {b : Buffer} {peak : Nat} (hcap : b.cap = 2 ^ Nat.clog 2 peak) (n : Nat) :
    (b.resize n).cap = 2 ^ Nat.clog 2 (max peak n) := by
  have hpos : 1 ≤ b.cap := by
    rw [hcap]
    exact Buffer.one_le_two_pow _
  have hpeak : peak ≤ 2 ^ Nat.clog 2 peak := Nat.le_pow_clog (by decide) peak
  by_cases hroom : (n : Int) ≤ b.cap
  · -- there is room
    have hn : n ≤ 2 ^ Nat.clog 2 peak := by
      rw [hcap] at hroom
      exact_mod_cast hroom
    have hsame : Nat.clog 2 (max peak n) = Nat.clog 2 peak :=
      Nat.le_antisymm (Nat.clog_le_of_le_pow (max_le hpeak hn))
        (Nat.clog_mono_right 2 (le_max_left peak n))
    rw [Buffer.resize_of_le hroom, hsame, hcap]
  · -- the capacity is doubled until it is at least `n`, and stays below `2 * n`
    obtain ⟨k, hk⟩ := Buffer.cap_resize_eq_pow hpos (n : Int)
    rw [hcap, ← pow_add] at hk
    have hle := (Buffer.le_cap_resize_of_pos hpos (n : Int)).1
    have hlt : (b.resize n).cap < 2 * n := by
      unfold Buffer.resize
      rw [if_neg hroom]
      have hne : ¬ b.cap = 0 := by omega
      simp only [if_neg hne]
      exact Buffer.growCap_lt _ _ (by omega)
    rw [hk] at hle hlt
    have hmax : max peak n = n := by
      have hpeak' : (peak : Int) ≤ b.cap := by
        rw [hcap]
        exact_mod_cast hpeak
      omega
    have hclog : Nat.clog 2 n = Nat.clog 2 peak + k :=
      clog_eq_of_bounds (by exact_mod_cast hle) (by exact_mod_cast hlt)
    rw [hk, hmax, hclog]

/-! ## The amount that counts -/

namespace Session

/-- What the calls on a default-constructed buffer keep. -/
structure Metered (s : Session) : Prop extends Inv s where
  offset_eq : s.buf.offset = s.since
  since_le : s.since ≤ s.peak
  cap_eq : s.buf.cap = 2 ^ Nat.clog 2 s.peak

/-- Every call but `resize`, which is there to change the capacity. -/
def Plain (s : Session) : BufferCall → Prop
  | .resize _ => False
  | c => s.Admissible c

instance (s : Session) : (c : BufferCall) → Decidable (s.Plain c)
  | .resize _ => inferInstanceAs (Decidable False)
  | .produce ptr len => inferInstanceAs (Decidable (s.Admissible (.produce ptr len)))
  | .putString str => inferInstanceAs (Decidable (s.Admissible (.putString str)))
  | .consume len => inferInstanceAs (Decidable (s.Admissible (.consume len)))
  | .getString len remove => inferInstanceAs (Decidable (s.Admissible (.getString len remove)))
  | .tiny | .clear => inferInstanceAs (Decidable True)

variable {s t : Session} {c : BufferCall}

theorem Plain.admissible (h : s.Plain c) : s.Admissible c := by
  cases c with
  | resize cap => exact h.elim
  | _ => exact h

theorem Metered.append {bs : List Byte} {buf : Buffer} (h : s.Metered)
    (hinv : (s.append bs buf).Inv)
    (hbuf : buf = (s.buf.resize (s.buf.offset + bs.length)).store bs) :
    (s.append bs buf).Metered := by
  have hend : s.buf.offset + bs.length = ((s.since + bs.length : Nat) : Int) := by
    rw [h.offset_eq]
    push_cast
    rfl
  refine { hinv with offset_eq := ?_, since_le := le_max_right _ _, cap_eq := ?_ }
  · subst hbuf
    show (s.buf.resize _).offset + bs.length = _
    rw [Buffer.offset_resize, hend]
    rfl
  · subst hbuf
    show (s.buf.resize (s.buf.offset + bs.length)).cap = _
    rw [hend]
    exact cap_resize_clog h.cap_eq _

/-- The front is given back when nothing is left. -/
theorem Metered.take {bs : List Byte} {buf : Buffer} (h : s.Metered) (hinv : (s.take bs buf).Inv)
    (hoff : buf.offset = if buf.size = 0 then 0 else s.buf.offset) (hcap : buf.cap = s.buf.cap) :
    (s.take bs buf).Metered := by
  refine { hinv with offset_eq := ?_, since_le := ?_, cap_eq := hcap.trans h.cap_eq }
  · show buf.offset = ((if buf.size = 0 then 0 else s.since : Nat) : Int)
    rw [hoff, h.offset_eq]
    split <;> rfl
  · show (if buf.size = 0 then 0 else s.since) ≤ s.peak
    split
    case isTrue => exact Nat.zero_le _
    case isFalse => exact h.since_le

theorem offset_consume (b : Buffer) (len : Int) :
    (b.consume len).offset = if (b.consume len).size = 0 then 0 else b.offset := by
  rw [Buffer.consume_eq]
  by_cases hdrained : (b.skip (b.request len)).size = 0
  · rw [if_pos hdrained, if_pos (Buffer.size_clear _)]
    rfl
  · rw [if_neg hdrained, if_neg hdrained]
    rfl

theorem offset_tiny (b : Buffer) : b.tiny.offset = b.size := by
  unfold Buffer.tiny Buffer.size
  split
  case isTrue hstart => rw [hstart, Int.sub_zero]
  case isFalse => rfl

theorem Metered.step (h : s.Metered) (hok : s.Plain c) (hstep : Session.step s c = some t) :
    t.Metered := by
  have hinv := h.toInv.step hok.admissible hstep
  cases c with
  | produce ptr len =>
      obtain ⟨h0, hlen, -⟩ := hok.admissible
      obtain rfl := Option.some.inj hstep
      refine h.append hinv ?_
      -- `len` bytes are there, as the call has promised
      have hcount : ((ptr.take len.toNat).length : Int) = len := by
        rw [List.length_take]
        omega
      rw [hcount]
      exact Buffer.produce_eq_store h0 hlen
  | putString str =>
      obtain rfl := Option.some.inj hstep
      refine h.append hinv ?_
      rw [Buffer.putString, Buffer.produce_eq_store (by omega) (Int.le_refl _), Int.toNat_natCast,
        List.take_length]
  | consume len =>
      obtain rfl := Option.some.inj hstep
      exact h.take hinv (offset_consume _ _) (Buffer.cap_consume _ _)
  | getString len remove =>
      obtain rfl := Option.some.inj hstep
      cases remove with
      | false => exact h
      | true => exact h.take hinv (offset_consume _ _) (Buffer.cap_consume _ _)
  | resize cap => exact hok.elim
  | tiny =>
      obtain rfl := Option.some.inj hstep
      -- what is unread moves to the front, so `offset_` starts again from it
      have hsize := Buffer.size_nonneg h.wf
      have hstart := h.wf.start_nonneg
      have hle := h.since_le
      have hoff := h.offset_eq
      refine { hinv with offset_eq := ?_, since_le := ?_, cap_eq := ?_ }
      · show s.buf.tiny.offset = (s.buf.size.toNat : Int)
        rw [offset_tiny, Int.toNat_of_nonneg hsize]
      · show s.buf.size.toNat ≤ s.peak
        simp only [Buffer.size]
        omega
      · show s.buf.tiny.cap = _
        rw [Buffer.cap_tiny, h.cap_eq]
  | clear =>
      obtain rfl := Option.some.inj hstep
      exact h.take hinv (if_pos (Buffer.size_clear _)).symm rfl

theorem metered_start : (start Buffer.empty).Metered :=
  { inv_start (show Buffer.new 1 = some Buffer.empty from rfl) (by decide) with
    offset_eq := rfl
    since_le := Nat.le_refl 0
    cap_eq := by decide }

/-! ## The theorem -/

/-- **What bounds the capacity.** After every sequence of calls on a default-constructed buffer, the
capacity is at most `4 * M` if and only if the bytes appended since the front was given back, with
those unread at that time, have never been more than the largest power of two up to `4 * M`; so
`2 * M` of them are never too many. -/
theorem bounded_iff {M : Nat} (hM : 1 ≤ M) {cs : List BufferCall}
    (hok : AllSteps Session.step Plain (start Buffer.empty) cs)
    (hrun : Cppev.run Session.step (start Buffer.empty) cs = some s) :
    (s.buf.cap ≤ 4 * M ↔ s.peak ≤ 2 ^ Nat.log 2 (4 * M)) ∧
      (s.peak ≤ 2 * M → s.buf.cap ≤ 4 * M) := by
  have hs : s.Metered := run_inv Session.step Plain Metered
    (fun _ _ _ hi hok hstep => hi.step hok hstep) metered_start hok hrun
  have hiff : s.buf.cap ≤ 4 * M ↔ s.peak ≤ 2 ^ Nat.log 2 (4 * M) := by
    have hcast : (s.buf.cap ≤ 4 * M) ↔ 2 ^ Nat.clog 2 s.peak ≤ 4 * M := by
      rw [hs.cap_eq]
      exact_mod_cast Iff.rfl
    rw [hcast, ← Nat.le_log_iff_pow_le (by decide) (by omega), Nat.clog_le_iff_le_pow (by decide)]
  refine ⟨hiff, fun hpeak => hiff.mpr ?_⟩
  have hlog := Nat.lt_pow_succ_log_self (b := 2) (by decide) (4 * M)
  rw [pow_succ] at hlog
  omega

/-- Five bytes, of which four are read, and three more. -/
def eightBytes : List BufferCall := [.putString [1, 2, 3, 4, 5], .consume 4, .produce [6, 7, 8, 9] 3]

theorem bounded_iff_eight :
    let s : Session := ⟨⟨8, 4, 8, [1, 2, 3, 4, 5, 6, 7, 8]⟩, [1, 2, 3, 4, 5, 6, 7, 8], [1, 2, 3, 4],
      8, 8⟩
    (s.buf.cap ≤ 4 * (4 : Nat) ↔ s.peak ≤ 2 ^ Nat.log 2 (4 * 4)) ∧
      (s.peak ≤ 2 * 4 → s.buf.cap ≤ 4 * (4 : Nat)) :=
  bounded_iff (by decide)
    (show AllSteps Session.step Plain (start Buffer.empty) eightBytes by decide) (by decide)

/-- Blocks of at most `M` bytes, and at most `M` bytes unread after each of them. -/
def Modest (M : Nat) (s : Session) : BufferCall → Prop
  | .produce _ len => len ≤ M ∧ s.buf.size + len ≤ M
  | .putString str => str.length ≤ M ∧ s.buf.size + str.length ≤ M
  | _ => True

instance (M : Nat) (s : Session) : (c : BufferCall) → Decidable (s.Modest M c)
  | .produce _ _ | .putString _ => inferInstanceAs (Decidable (_ ∧ _))
  | .consume _ | .getString _ _ | .resize _ | .tiny | .clear => inferInstanceAs (Decidable True)

/-- One byte, and then eight times one more before the one before it is read. -/
def neverDrained : List BufferCall :=
  .putString [7] :: (List.replicate 8 [.putString [7], .consume 1]).flatten

/-- At most two bytes are ever unread, and the capacity is 16. -/
theorem front_kept :
    AllSteps Session.step Plain (start Buffer.empty) neverDrained ∧
      AllSteps Session.step (Modest 2) (start Buffer.empty) neverDrained ∧
      (Cppev.run Session.step (start Buffer.empty) neverDrained).map
        (fun s => (s.buf.cap, s.buf.size)) = some (16, 1) := by
  decide

end Session

end Cppev
