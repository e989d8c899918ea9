import Cppev.Buffer.Growth
import Cppev.Nio.Inbox

/-!
# `read_all` against every kernel

`read_all` with the sums and products of `int`s checked (`readAllInt`): `offset_ + len` and the
doublings of `resize` when a chunk makes room, and the total. `step` decides how much room a chunk
makes, whatever there is to read.

* `deliver_stop`: what a script delivers, in terms of the answers.
* `readAllInt_eq`: without an overflow, this is `read_all`.
* `readAll_iff`: `read_all` does what it should if and only if the room that it makes for its last
  chunk can be had by doublings within `int`.
-/

namespace Cppev

/-! ## What a script delivers

The delivery again, in terms of the answers before the one that ends it. -/

/-- The bytes of an answer after which `read` is called again. -/
def ReadResult.goesOn : ReadResult → Option (List Byte)
  | .bytes [] => none
  | .bytes (b :: bs) => some (b :: bs)
  | .err .EINTR => some []
  | .err _ => none

/-- What an answer that is the last one stands for. -/
def ReadResult.halt : ReadResult → Halt
  | .bytes _ => .eof
  | .err e => .ofErrno e

theorem deliver_goesOn {r : ReadResult} {bs : List Byte} (h : r.goesOn = some bs)
    (script : List ReadResult) : deliver (r :: script) = (deliver script).after bs := by
  cases r with
  | bytes cs =>
      cases cs with
      | nil => cases h
      | cons c cs =>
          obtain rfl := Option.some.inj h
          rfl
  | err e =>
      cases e with
      | EINTR =>
          obtain rfl := Option.some.inj h
          rfl
      | _ => cases h

/-- A delivery ends at the first answer that is neither bytes nor `EINTR`, and consists of the bytes
before it. -/
theorem deliver_stop {pieces : List (List Byte)} {script : List ReadResult}
    (hpieces : script.map ReadResult.goesOn = pieces.map some) {r : ReadResult}
    (hr : r.goesOn = none) (rest : List ReadResult) :
    deliver (script ++ r :: rest) = ⟨pieces.flatten, rest, r.halt⟩ := by
  induction script generalizing pieces with
  | nil =>
      obtain rfl : pieces = [] := List.map_eq_nil_iff.mp hpieces.symm
      cases r with
      | bytes bs =>
          cases bs with
          | nil => rfl
          | cons b bs => cases hr
      | err e =>
          cases e with
          | EINTR => cases hr
          | _ => rfl
  | cons q script ih =>
      cases pieces with
      | nil => cases hpieces
      | cons piece pieces =>
          obtain ⟨hq, hrest⟩ := List.cons.inj hpieces
          rw [List.cons_append, deliver_goesOn hq, ih hrest, List.flatten_cons]
          rfl

theorem deliver_append {answers : List ReadResult} (h : ∀ r ∈ answers, r.goesOn ≠ none)
    (rest : List ReadResult) :
    deliver (answers ++ rest) = (deliver rest).after (deliver answers).bytes := by
  induction answers with
  | nil => rfl
  | cons r answers ih =>
      obtain ⟨hr, hanswers⟩ := List.forall_mem_cons.mp h
      obtain ⟨bs, hbs⟩ := Option.ne_none_iff_exists'.mp hr
      rw [List.cons_append, deliver_goesOn hbs, ih hanswers, deliver_goesOn hbs]
      simp [Delivery.after]

/-- One answer more, which ends the delivery. -/
theorem deliver_last {answers : List ReadResult} (h : ∀ r ∈ answers, r.goesOn ≠ none)
    {r : ReadResult} (hr : r.goesOn = none) :
    deliver (answers ++ [r]) = ⟨(deliver answers).bytes, [], r.halt⟩ := by
  have hlast : deliver [r] = ⟨[], [], r.halt⟩ := by
    have hnone : ([] : List ReadResult).map ReadResult.goesOn = ([] : List (List Byte)).map some := rfl
    have hstop := deliver_stop hnone hr []
    rwa [List.nil_append] at hstop
  rw [deliver_append h, hlast]
  simp [Delivery.after]

theorem one_le_bufferIoStep : 1 ≤ bufferIoStep := by
  unfold bufferIoStep
  omega

/-! ## The arithmetic of `int`

`readAllInt` has no result when a sum or a doubling is no `int`. Which chunk needs the most room can
be told from the script: the last one, as each chunk before it is full. -/

/-- `offset_ + len` is an `int`, and so is every value of `cap_` on the way to it. -/
def Buffer.InRange (b : Buffer) (len : Int) : Prop :=
  b.offset + len ≤ INT_MAX ∧ ∀ c ∈ b.capsTaken (b.offset + len), c ≤ INT_MAX

instance (b : Buffer) (len : Int) : Decidable (b.InRange len) :=
  inferInstanceAs (Decidable (_ ∧ _))

theorem Buffer.inRange_iff {b : Buffer} (h : 1 ≤ b.cap) (len : Int) :
    b.InRange len ↔ ∃ k : Nat, b.cap * 2 ^ k ≤ INT_MAX ∧ b.offset + len ≤ b.cap * 2 ^ k := by
  rw [← grows_iff_of_pos h]
  constructor
  · rintro ⟨-, hrange⟩
    exact ⟨(le_cap_resize_of_pos h _).1, hrange⟩
  · rintro ⟨henough, hrange⟩
    exact ⟨henough.trans (hrange _ (cap_resize_mem b _)), hrange⟩

namespace Nstream

/-- `read_all`, from some chunk on. `none` is a signed overflow, after which there is no result. -/
def readAllIntLoop (step : Int) : Nat → Int → StreamIO → Option (Except Exn Int × StreamIO)
  | 0, total, io => some (.ok total, io)
  | n + 1, total, io =>
    if io.str.rbuffer.InRange step then
      match (readChunk step).exec io with
      | (.error e, io) => some (.error e, io)
      | (.ok curr, io) =>
        if total + curr > INT_MAX then none
        else if curr ≠ step then some (.ok (total + curr), io)
        else readAllIntLoop step n (total + curr) io
    else none

def readAllInt (step : Int) (io : StreamIO) : Option (Except Exn Int × StreamIO) :=
  readAllIntLoop step (readable io.reads + 1) 0 io

theorem readAllIntLoop_eq {step : Int} {n : Nat} {total : Int} {io : StreamIO}
    {out : Except Exn Int × StreamIO} (h : readAllIntLoop step n total io = some out) :
    (readAllLoop step n total).exec io = out := by
  induction n generalizing total io with
  | zero => exact Option.some.inj h
  | succ n ih =>
      simp only [readAllIntLoop] at h
      simp only [readAllLoop, Prog.exec_bind]
      -- an overflow has no result; what is left is the loop of `readAll`
      split at h
      case isTrue hroom =>
        rcases hchunk : (readChunk step).exec io with ⟨r, io'⟩
        rw [hchunk] at h
        cases r with
        | error e => exact Option.some.inj h
        | ok curr =>
            simp only at h ⊢
            split at h
            case isTrue => cases h
            case isFalse =>
              split at h
              case isTrue hlast =>
                rw [if_pos hlast]
                exact Option.some.inj h
              case isFalse hfull =>
                rw [if_neg hfull]
                exact ih h
      case isFalse => cases h

theorem readAllInt_eq {step : Int} {io : StreamIO} {out : Except Exn Int × StreamIO}
    (h : readAllInt step io = some out) : (readAll step).exec io = out := by
  unfold readAll
  rw [Prog.exec_bind_ok (Prog.exec_get io)]
  exact readAllIntLoop_eq h

/-- The bytes that the chunks make room for: one chunk more than the full ones. -/
def demand (step : Int) (script : List ReadResult) : Int :=
  ((deliver script).bytes.length / step + 1) * step

theorem step_le_demand {step : Int} (hstep : 1 ≤ step) (script : List ReadResult) :
    step ≤ demand step script := by
  have hq : 0 ≤ ((deliver script).bytes.length : Int) / step :=
    Int.ediv_nonneg (Int.natCast_nonneg _) (by omega)
  exact le_mul_of_one_le_left (by omega) (by omega)

theorem demand_full {step : Int} (hstep : 1 ≤ step) {script rest : List ReadResult}
    {bs : List Byte} (hfull : (bs.length : Int) = step)
    (hd : deliver script = (deliver rest).after bs) :
    demand step script = step + demand step rest := by
  have hlen : ((deliver script).bytes.length : Int) = (deliver rest).bytes.length + 1 * step := by
    rw [hd]
    simp only [Delivery.after, List.length_append]
    push_cast
    omega
  unfold demand
  rw [hlen, Int.add_mul_ediv_right _ _ (by omega), Int.add_mul (_ + 1), Int.one_mul, Int.add_comm]

theorem demand_last {step : Int} {script : List ReadResult}
    (hlt : ((deliver script).bytes.length : Int) < step) : demand step script = step := by
  unfold demand
  rw [Int.ediv_eq_zero_of_lt (Int.natCast_nonneg _) hlt, Int.zero_add, Int.one_mul]

/-- The loop comes to an end within `int` if the room for its last chunk can be had. -/
theorem readAllIntLoop_isSome {step : Int} (hstep : 1 ≤ step) (n : Nat) (total : Int)
    {io : StreamIO} (h : io.str.rbuffer.Wf) (hn : readable io.reads < n)
    (htotal : total ≤ io.str.rbuffer.offset) :
    (readAllIntLoop step n total io).isSome ↔
      ∃ k : Nat, io.str.rbuffer.cap * 2 ^ k ≤ INT_MAX ∧
        io.str.rbuffer.offset + demand step io.reads ≤ io.str.rbuffer.cap * 2 ^ k := by
  -- on the chunks; the capacity grows along the same doublings
  induction n generalizing total io with
  | zero => omega
  | succ n ih =>
      have hdemand := step_le_demand hstep io.reads
      have hiff := Buffer.inRange_iff h.cap_pos step
      by_cases hroom : io.str.rbuffer.InRange step
      · obtain ⟨bs, rest, hout⟩ := readChunk_spec (by omega : 0 ≤ step) io
        have hmax := hroom.1
        simp only [readAllIntLoop, if_pos hroom]
        rcases hout with hout | ⟨halt, hout⟩
        · -- a full chunk
          have hfull := hout.full
          have hread := hout.readable_eq
          have hcap := Buffer.grows_resize_iff h.cap_pos
            (show io.str.rbuffer.offset + step ≤ io.str.rbuffer.offset + demand step io.reads by
              omega)
          rw [← hcap, hout.exec_eq]
          simp only
          rw [if_neg (by omega), if_neg (by simp), ih (total + step)
            (wf_received h (Int.le_of_eq hfull)).1 (by simp only; omega)
            (by simp only [received, Buffer.store, Buffer.offset_resize]; omega)]
          have hend : (received io.str.rbuffer step bs).offset + demand step rest =
              io.str.rbuffer.offset + demand step io.reads := by
            rw [demand_full hstep hfull hout.deliver_eq]
            simp only [received, Buffer.store, Buffer.offset_resize]
            omega
          rw [hend]
          rfl
        · -- the last one
          have hlt := hout.lt_step
          have hlast : demand step io.reads = step := by
            apply demand_last
            rw [hout.deliver_eq]
            exact hlt
          rw [hlast, ← hiff, iff_true_right hroom, hout.exec_eq]
          cases readThrown halt with
          | error e => rfl
          | ok u =>
              simp only [Except.map]
              rw [if_neg (by omega), if_pos (by omega)]
              rfl
      · simp only [readAllIntLoop, if_neg hroom, Option.isSome_none, Bool.false_eq_true, false_iff]
        rintro ⟨k, hlimit, hlater⟩
        exact hroom (hiff.mpr ⟨k, hlimit, by omega⟩)

/-! ## The theorem

The claim has two parts: that there is an outcome, which is a matter of room, and that it is the
right one. -/

/-- What `read_all` should leave, in terms of what the script delivers. -/
structure ReadsAll (io : StreamIO) (out : Except Exn Int × StreamIO) : Prop where
  result : out.1 = match (deliver io.reads).halt with
    | .failed e => .error (.systemError "read error" e)
    | _ => .ok (deliver io.reads).bytes.length
  unread : out.2.str.rbuffer.unread = io.str.rbuffer.unread ++ (deliver io.reads).bytes
  rest : out.2.reads = (deliver io.reads).rest
  eof : out.2.str.eof = (io.str.eof || decide ((deliver io.reads).halt = .eof))
  reset : out.2.str.reset = (io.str.reset || decide ((deliver io.reads).halt = .reset))

theorem readsAll_exec {step : Int} (hstep : 1 ≤ step) {io : StreamIO} (h : io.str.rbuffer.Wf) :
    ReadsAll io ((readAll step).exec io) := by
  obtain ⟨b, hb, hexec⟩ := readAll_spec hstep io
  rw [hexec]
  refine ⟨?_, (hb h).2, rfl, rfl, rfl⟩
  cases (deliver io.reads).halt <;> rfl

/-- **When `read_all` takes what the kernel delivers.** The outcome does not depend on `step`; that
there is one does. -/
theorem readAll_iff {step : Int} (hstep : 1 ≤ step) {io : StreamIO} (h : io.str.rbuffer.Wf) :
    (∃ out, readAllInt step io = some out ∧ ReadsAll io out) ↔
      ∃ k : Nat, io.str.rbuffer.cap * 2 ^ k ≤ INT_MAX ∧
        io.str.rbuffer.offset + ((deliver io.reads).bytes.length / step + 1) * step ≤
          io.str.rbuffer.cap * 2 ^ k := by
  have hsome := readAllIntLoop_isSome hstep (readable io.reads + 1) 0 h (by omega)
    (h.start_nonneg.trans h.start_le)
  refine Iff.trans ?_ hsome
  constructor
  · rintro ⟨out, hout, -⟩
    exact Option.isSome_iff_exists.mpr ⟨out, hout⟩
  · intro hdone
    obtain ⟨out, hout⟩ := Option.isSome_iff_exists.mp hdone
    refine ⟨out, hout, ?_⟩
    rw [← readAllInt_eq hout]
    exact readsAll_exec hstep h

/-- Two bytes, an interruption, one more and the end, on a new stream in chunks of two. -/
def threeBytes : StreamIO :=
  ⟨Nstream.new 5, [.bytes [1, 2], .err .EINTR, .bytes [3], .bytes []], [], []⟩

theorem readAll_iff_threeBytes :
    (∃ out, readAllInt 2 threeBytes = some out ∧ ReadsAll threeBytes out) ↔
      ∃ k : Nat, threeBytes.str.rbuffer.cap * 2 ^ k ≤ INT_MAX ∧
        threeBytes.str.rbuffer.offset + ((deliver threeBytes.reads).bytes.length / 2 + 1) * 2 ≤
          threeBytes.str.rbuffer.cap * 2 ^ k :=
  readAll_iff (by decide) (show Buffer.empty.Wf from Buffer.wf_empty)

/-- With the largest `int` as `step`, the room for the first chunk cannot be had by doubling, though
there is nothing to read. -/
theorem readAll_overflows :
    deliver [] = ⟨[], [], .blocked⟩ ∧ readAllInt INT_MAX ⟨Nstream.new 5, [], [], []⟩ = none ∧
      ¬ ∃ out, readAllInt INT_MAX ⟨Nstream.new 5, [], [], []⟩ = some out ∧
        ReadsAll ⟨Nstream.new 5, [], [], []⟩ out := by
  have hfull : ¬ Buffer.empty.InRange INT_MAX := by
    rintro ⟨-, hrange⟩
    have hgrows : Buffer.empty.Grows (0 + INT_MAX) :=
      ⟨(Buffer.le_cap_resize_of_pos (by decide) _).1, hrange⟩
    have hle := (Buffer.grows_iff_of_pow (j := 0) rfl (by decide) _).mp hgrows
    revert hle
    decide
  have hnone : readAllInt INT_MAX ⟨Nstream.new 5, [], [], []⟩ = none := by
    show readAllIntLoop INT_MAX (0 + 1) 0 ⟨Nstream.new 5, [], [], []⟩ = none
    simp only [readAllIntLoop]
    exact if_neg hfull
  refine ⟨rfl, hnone, ?_⟩
  rintro ⟨out, hout, -⟩
  rw [hnone] at hout
  cases hout

end Nstream

end Cppev
