import Cppev.Buffer.Queue
import Cppev.Utils.Strings

/-!
# What a buffer is used for

The calls that a program makes on one buffer, with the history beside it: what has been appended and
what has been taken out.

The calls do not check the length they are given. `Fits` is the range they are meant for: `-1`, or
at most `size()`.

* `harmless_iff`: outside of this range, `consume` and `get_string` leave the buffer with indices out
  of order, or hand out bytes that are no longer there, or that were never there.
-/

namespace Cppev

/-! ## Calls and history -/

/-- The calls on a buffer. -/
inductive BufferCall where
  | produce (ptr : List Byte) (len : Int)
  | putString (str : List Byte)
  | consume (len : Int)
  | getString (len : Int) (remove : Bool)
  | resize (cap : Int)
  | tiny
  | clear
  deriving DecidableEq, Repr

structure Session where
  buf : Buffer
  /-- The history: all bytes appended, and all bytes taken out, in order. -/
  appended : List Byte
  taken : List Byte
  /-- How many bytes have been appended since the front was given back, with the unread ones of
  that time; and the most there has been of it. -/
  since : Nat
  peak : Nat
  deriving DecidableEq, Repr

namespace Session

/-- A buffer that has just been constructed. -/
def start (b : Buffer) : Session := ⟨b, [], [], 0, 0⟩

def append (s : Session) (bs : List Byte) (buf : Buffer) : Session :=
  { s with
    buf
    appended := s.appended ++ bs
    since := s.since + bs.length
    peak := max s.peak (s.since + bs.length) }

def take (s : Session) (bs : List Byte) (buf : Buffer) : Session :=
  { s with
    buf
    taken := s.taken ++ bs
    since := if buf.size = 0 then 0 else s.since }

def step (s : Session) : BufferCall → Option Session
  | .produce ptr len => some (s.append (ptr.take len.toNat) (s.buf.produce ptr len))
  | .putString str => some (s.append str (s.buf.putString str))
  | .consume len =>
    some (s.take (slice s.buf.buffer s.buf.start (s.buf.request len)) (s.buf.consume len))
  | .getString len remove =>
    let (str, buf) := s.buf.getString len remove
    some (if remove = true then s.take str buf else s)
  | .resize cap => some { s with buf := s.buf.resize cap }
  | .tiny => some { s with buf := s.buf.tiny, since := s.buf.size.toNat }
  | .clear => some (s.take s.buf.unread s.buf.clear)

/-! ## The domain

What the claim takes for granted: capacities up to 2^30, and lengths that are not those under
test. -/

/-- The arguments the calls are meant for; appends and `resize` within the range of `int`. -/
def Admissible (s : Session) : BufferCall → Prop
  | .produce ptr len => 0 ≤ len ∧ len ≤ ptr.length ∧ s.buf.offset + len ≤ capLimit
  | .putString str => s.buf.offset + str.length ≤ capLimit
  | .consume len => s.buf.Fits len
  | .getString len _ => s.buf.Fits len
  | .resize cap => cap ≤ capLimit
  | .tiny | .clear => True

instance (s : Session) : (c : BufferCall) → Decidable (s.Admissible c)
  | .produce _ _ => inferInstanceAs (Decidable (_ ∧ _))
  | .putString _ | .resize _ => inferInstanceAs (Decidable (_ ≤ _))
  | .consume len | .getString len _ => inferInstanceAs (Decidable (s.buf.Fits len))
  | .tiny | .clear => inferInstanceAs (Decidable True)

/-! ## What a call keeps

The history is what is unread and what was taken, one after the other, and the indices are in
order. -/

/-- The indices are in order, and what is taken out is what was appended, each byte once. -/
structure Sound (s : Session) : Prop where
  start_nonneg : 0 ≤ s.buf.start
  start_le : s.buf.start ≤ s.buf.offset
  offset_le : s.buf.offset ≤ s.buf.cap
  once : s.appended = s.taken ++ s.buf.unread

/-- The positions that a call hands out are those of unread bytes. The length of a string is a
`size_t`. -/
def Inside (s : Session) : BufferCall → Prop
  | .getString len _ => s.buf.start + sizeT (s.buf.request len) ≤ s.buf.offset
  | _ => True

/-- What over-consumption should be: the call reads inside, and leaves everything in order. -/
structure Harmless (s : Session) (c : BufferCall) : Prop where
  inside : s.Inside c
  sound : ∀ t, step s c = some t → t.Sound

/-- What the calls keep, as long as they are admissible. -/
structure Inv (s : Session) : Prop where
  wf : s.buf.Wf
  cap_le : s.buf.cap ≤ INT_MAX
  once : s.appended = s.taken ++ s.buf.unread

variable {s t : Session} {c : BufferCall}

theorem Inv.sound (h : s.Inv) : s.Sound :=
  ⟨h.wf.start_nonneg, h.wf.start_le, h.wf.offset_le, h.once⟩

theorem Inv.append {bs : List Byte} {buf : Buffer} (h : s.Inv) (hwf : buf.Wf)
    (hcap : buf.cap ≤ INT_MAX) (hunread : buf.unread = s.buf.unread ++ bs) :
    (s.append bs buf).Inv := by
  refine ⟨hwf, hcap, ?_⟩
  simp only [Session.append, hunread, h.once, List.append_assoc]

/-- Taking `n` bytes from the front. -/
theorem Inv.take {bs : List Byte} {buf : Buffer} {n : Nat} (h : s.Inv) (hwf : buf.Wf)
    (hcap : buf.cap = s.buf.cap) (hbs : bs = s.buf.unread.take n)
    (hunread : buf.unread = s.buf.unread.drop n) : (s.take bs buf).Inv := by
  refine ⟨hwf, hcap ▸ h.cap_le, ?_⟩
  simp only [Session.take, hunread, hbs, List.append_assoc, List.take_append_drop, h.once]

theorem Inv.step (h : s.Inv) (hok : s.Admissible c) (hstep : Session.step s c = some t) :
    t.Inv := by
  have hwf := h.wf
  cases c with
  | produce ptr len =>
      obtain ⟨h0, hlen, hreq⟩ := hok
      obtain rfl := Option.some.inj hstep
      exact h.append (Buffer.wf_produce hwf h0 hlen) (cap_produce_le_max hwf h.cap_le h0 hlen hreq)
        (Buffer.unread_produce hwf h0 hlen)
  | putString str =>
      obtain rfl := Option.some.inj hstep
      exact h.append (Buffer.wf_putString hwf str)
        (cap_produce_le_max hwf h.cap_le (by omega) (Int.le_refl _) hok)
        (Buffer.unread_putString hwf str)
  | consume len =>
      obtain rfl := Option.some.inj hstep
      obtain ⟨h0, hle⟩ := Buffer.request_bounds hwf hok
      exact h.take (Buffer.wf_consume hwf hok) (Buffer.cap_consume _ _) (slice_take _ _ h0 hle).symm
        (Buffer.unread_consume hwf hok)
  | getString len remove =>
      obtain rfl := Option.some.inj hstep
      cases remove with
      | false => exact h
      | true =>
          -- the same as `consume`
          have hsnd : (s.buf.getString len true).2 = s.buf.consume len :=
            Buffer.getString_snd hwf hok true
          show (s.take (s.buf.getString len true).1 (s.buf.getString len true).2).Inv
          rw [hsnd]
          exact h.take (Buffer.wf_consume hwf hok) (Buffer.cap_consume _ _)
            (Buffer.getString_fst hwf hok true) (Buffer.unread_consume hwf hok)
  | resize cap =>
      obtain rfl := Option.some.inj hstep
      refine ⟨Buffer.wf_resize hwf cap, cap_resize_le_max hwf h.cap_le hok, ?_⟩
      simp only [Buffer.unread_resize hwf, h.once]
  | tiny =>
      obtain rfl := Option.some.inj hstep
      refine ⟨Buffer.wf_tiny hwf, (Buffer.cap_tiny _).symm ▸ h.cap_le, ?_⟩
      simp only [Buffer.unread_tiny hwf, h.once]
  | clear =>
      obtain rfl := Option.some.inj hstep
      have hall : s.buf.unread.take s.buf.unread.length = s.buf.unread := List.take_length
      exact h.take (Buffer.wf_clear hwf) rfl hall.symm (by simp)

theorem inv_start {cap : Int} {b : Buffer} (hnew : Buffer.new cap = some b) (hcap : cap ≤ INT_MAX) :
    (start b).Inv := by
  obtain ⟨hwf, hnil⟩ := Buffer.wf_new hnew
  refine ⟨hwf, ?_, hnil.symm⟩
  unfold Buffer.new at hnew
  split at hnew
  case isTrue => cases hnew
  case isFalse =>
    obtain rfl := Option.some.inj hnew
    exact hcap

/-- Along every sequence of admissible calls. -/
theorem Inv.run {cs : List BufferCall} (h : s.Inv) (hok : AllSteps Session.step Admissible s cs)
    (hrun : Cppev.run Session.step s cs = some t) : t.Inv :=
  run_inv Session.step Admissible Inv (fun _ _ _ hi hok hstep => hi.step hok hstep) h hok hrun

/-! ## Lengths out of range

The exact condition for a length: with any other, the indices are out of order, or a byte is lost or
comes twice. -/

/-- A length that fits reads inside the unread bytes. -/
theorem Inv.inside (h : s.Inv) (hok : s.Admissible c) : s.Inside c := by
  cases c with
  | getString len remove =>
      obtain ⟨h0, hle⟩ := Buffer.request_bounds h.wf hok
      have hcap := h.cap_le
      have hoff := h.wf.offset_le
      have hstart := h.wf.start_nonneg
      simp only [Buffer.size, INT_MAX] at hle hcap
      simp only [Inside, sizeT]
      omega
  | _ => trivial

theorem Inv.harmless (h : s.Inv) (hok : s.Admissible c) : s.Harmless c :=
  ⟨h.inside hok, fun _ ht => (h.step hok ht).sound⟩

/-- A `consume` that keeps the indices in order does not go past the end; one that keeps the bytes
does not go back. -/
theorem Inv.fits_of_consume (h : s.Inv) {len : Int} (hsound : s.Harmless (.consume len)) :
    s.buf.Fits len := by
  by_cases hall : len = -1
  · exact Or.inl hall
  have hreq : s.buf.request len = len := if_neg hall
  have hsize := Buffer.size_nonneg h.wf
  have ht := hsound.sound _ rfl
  by_cases hdrained : (s.buf.skip len).size = 0
  · -- exactly everything
    simp only [Buffer.skip, Buffer.size] at hdrained hsize
    refine Or.inr ⟨by omega, ?_⟩
    simp only [Buffer.size]
    omega
  · have hbuf : s.buf.consume len = s.buf.skip len := by
      rw [Buffer.consume_eq, hreq, if_neg hdrained]
    have hle := ht.start_le
    have honce := congrArg List.length ht.once
    simp only [Session.take, hreq, hbuf] at hle honce
    simp only [h.once, List.length_append, length_slice, Buffer.unread] at honce
    simp only [Buffer.skip, Buffer.size] at hle honce hsize
    refine Or.inr ⟨by omega, ?_⟩
    simp only [Buffer.size]
    omega

/-- A negative length is a very large one for a string. -/
theorem Inv.fits_of_getString (h : s.Inv) {len : Int} {remove : Bool} (hmin : -2 ^ 31 ≤ len)
    (hmax : len ≤ INT_MAX) (hinside : s.Inside (.getString len remove)) : s.buf.Fits len := by
  by_cases hall : len = -1
  · exact Or.inl hall
  have hreq : s.buf.request len = len := if_neg hall
  have hcap := h.cap_le
  have hoff := h.wf.offset_le
  have hstart := h.wf.start_nonneg
  simp only [Inside, hreq, sizeT] at hinside
  simp only [INT_MAX] at hmax hcap
  refine Or.inr ⟨by omega, ?_⟩
  simp only [Buffer.size]
  omega

/-! ## The theorem -/

/-- **Reading is harmless for the lengths it is meant for, and for no others.** After every sequence
of admissible calls the buffer is sound; a further `consume` or `get_string` keeps it so if and only
if its length is `-1` or at most `size()`. -/
theorem harmless_iff {cap : Int} {b : Buffer} (hnew : Buffer.new cap = some b)
    (hcap : cap ≤ INT_MAX) {cs : List BufferCall}
    (hok : AllSteps Session.step Admissible (start b) cs)
    (hrun : Cppev.run Session.step (start b) cs = some s) :
    s.Sound ∧ ∀ len : Int, -2 ^ 31 ≤ len → len ≤ INT_MAX →
      (s.Harmless (.consume len) ↔ s.buf.Fits len) ∧
        ∀ remove, s.Harmless (.getString len remove) ↔ s.buf.Fits len := by
  have hi := (inv_start hnew hcap).run hok hrun
  refine ⟨hi.sound, fun len hmin hmax => ⟨⟨hi.fits_of_consume, fun hfit => hi.harmless hfit⟩, ?_⟩⟩
  intro remove
  exact ⟨fun h => hi.fits_of_getString hmin hmax h.inside, fun hfit => hi.harmless hfit⟩

/-- Two bytes, of which one is read. -/
def twoBytes : List BufferCall := [.putString [97, 98], .getString 1 true]

theorem harmless_iff_twoBytes :
    let s : Session := ⟨⟨2, 1, 2, [97, 98]⟩, [97, 98], [97], 2, 2⟩
    s.Sound ∧ ∀ len : Int, -2 ^ 31 ≤ len → len ≤ INT_MAX →
      (s.Harmless (.consume len) ↔ s.buf.Fits len) ∧
        ∀ remove, s.Harmless (.getString len remove) ↔ s.buf.Fits len :=
  harmless_iff (show Buffer.new 1 = some Buffer.empty from rfl) (by decide)
    (show AllSteps Session.step Admissible (start Buffer.empty) twoBytes by decide) (by decide)

/-- Two bytes are consumed of one; the byte that is appended then is never read. -/
theorem byte_skipped :
    (∃ s, Cppev.run Session.step (start Buffer.empty) [.putString [97]] = some s ∧
      ¬ s.Harmless (.consume 2)) ∧
    (Cppev.run Session.step (start Buffer.empty)
      [.putString [97], .consume 2, .putString [98], .getString (-1) true]).map
        (fun s => (s.appended, s.taken, s.buf.unread)) = some ([97, 98], [97, 0], []) := by
  refine ⟨⟨_, rfl, fun h => ?_⟩, by decide⟩
  have hle := (h.sound _ rfl).start_le
  revert hle
  decide

end Session

end Cppev
