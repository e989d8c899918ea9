import Cppev.Lib.CString
import Cppev.Nio.ReadAll

/-!
# Buffers that end with a NUL

`rawbuf()` is used as a C string. A buffer is cleared when it is allocated, and nothing is written
behind `offset_`; so the string ends in the block, if there is a byte behind `offset_` at all.

* `Cleared.resize`, `Cleared.tiny`, …: every operation keeps the bytes behind `offset_` zero.
* `readAll_wp`: after a `read_all` that returns, there is a byte behind it.
* `cstr_eq_unread_iff`: the C string is what is unread, if and only if that has no NUL in it.
-/

namespace Cppev

namespace Buffer

/-! ## What is behind the bytes -/

/-- `rawbuf()`, read as a C string. -/
def cstr (b : Buffer) : Option (List Byte) := readCString 0 (b.buffer.drop b.start.toNat)

/-- `b[i] = c`. -/
def put (b : Buffer) (i : Int) (c : Byte) : Buffer :=
  { b with buffer := poke b.buffer (b.start + i) c }

/-- What is behind `offset_` is zero. -/
structure Cleared (b : Buffer) : Prop where
  wf : b.Wf
  zero : ∀ j, b.offset ≤ j → peek b.buffer j = 0

/-- There is something behind it. -/
structure Terminated (b : Buffer) : Prop extends Cleared b where
  lt_cap : b.offset < b.cap

variable {b : Buffer}

theorem peek_replicate_zero (n : Nat) (j : Int) : peek (List.replicate n (0 : Byte)) j = 0 :=
  peek_replicate_default n j

theorem terminated_empty : empty.Terminated :=
  ⟨⟨wf_empty, fun j _ => peek_replicate_zero 1 j⟩, by decide⟩

theorem Cleared.resize (h : b.Cleared) (cap : Int) : (b.resize cap).Cleared := by
  refine ⟨wf_resize h.wf cap, ?_⟩
  rw [offset_resize]
  unfold Buffer.resize
  split
  case isTrue => exact h.zero
  case isFalse =>
    -- the loop copies what is before `offset_` into a new block
    simp only
    refine forUpTo_inv b.start b.offset _ _
      (fun _ (m : List Byte) => ∀ j, b.offset ≤ j → peek m j = 0) h.wf.start_le ?_ ?_
    · exact fun j _ => peek_replicate_zero _ j
    · intro i m _ hi hm j hj
      rw [peek_poke_ne (by omega)]
      exact hm j hj

theorem Cleared.store (h : b.Cleared) {xs : List Byte} (hroom : b.offset + xs.length ≤ b.cap) :
    (b.store xs).Cleared := by
  refine ⟨wf_store h.wf hroom, fun j hj => ?_⟩
  have hj : b.offset + xs.length ≤ j := hj
  simp only [Buffer.store]
  rw [peek_blit_of_not_mem (.inr hj)]
  exact h.zero j (by omega)

theorem Cleared.received (h : b.Cleared) {len : Int} {bs : List Byte}
    (hlen : (bs.length : Int) ≤ len) : (Nstream.received b len bs).Cleared := by
  have hroom := (le_cap_resize h.wf (b.offset + len)).1
  refine (h.resize _).store ?_
  rw [offset_resize]
  omega

/-- A chunk that is not full leaves a byte. -/
theorem Cleared.received_lt (h : b.Cleared) {len : Int} {bs : List Byte}
    (hlt : (bs.length : Int) < len) : (Nstream.received b len bs).Terminated := by
  refine ⟨h.received (Int.le_of_lt hlt), ?_⟩
  have hroom := (le_cap_resize h.wf (b.offset + len)).1
  show (b.resize (b.offset + len)).offset + bs.length < (b.resize (b.offset + len)).cap
  rw [offset_resize]
  omega

/-! ## The other operations

Each of them leaves zeros behind `offset_`, or moves `offset_` up over what it has written. -/

theorem cleared_new {cap : Int} (h : new cap = some b) : b.Cleared := by
  refine ⟨(wf_new h).1, fun j _ => ?_⟩
  unfold new at h
  split at h
  case isTrue => cases h
  case isFalse =>
    obtain rfl := Option.some.inj h
    exact peek_replicate_zero _ j

theorem Cleared.clear (h : b.Cleared) : b.clear.Cleared := by
  refine ⟨wf_clear h.wf, fun j hj => ?_⟩
  replace hj : 0 ≤ j := hj
  have hpos := h.wf.cap_pos
  have hlen := h.wf.length_eq
  have hoff := h.wf.offset_le
  simp only [Buffer.clear]
  rw [peek_fill (Int.le_refl 0) (by omega) (by omega)]
  split
  case isTrue => rfl
  case isFalse => exact h.zero j (by omega)

/-- The loop of `tiny` leaves alone what is behind the bytes it moves. -/
theorem tiny_shift_behind (h : b.Wf) {j : Int} (hj : b.offset - b.start ≤ j) :
    peek (forUpTo 0 (b.offset - b.start)
      (fun i mem => poke mem i (peek mem (i + b.start))) b.buffer) j = peek b.buffer j := by
  have hle := h.start_le
  refine forUpTo_inv 0 (b.offset - b.start) _ _
    (fun _ (m : List Byte) => peek m j = peek b.buffer j) (by omega) rfl ?_
  intro i m _ hi hm
  rw [peek_poke_ne (by omega), hm]

theorem Cleared.tiny (h : b.Cleared) : b.tiny.Cleared := by
  refine ⟨wf_tiny h.wf, ?_⟩
  unfold Buffer.tiny
  split
  case isTrue => exact h.zero
  case isFalse =>
    have hstart := h.wf.start_nonneg
    have hle := h.wf.start_le
    have hoff := h.wf.offset_le
    have hlen := h.wf.length_eq
    simp only
    intro j hj
    rw [peek_fill (by omega) hstart (by rw [(tiny_shift h.wf).1]; omega)]
    -- the `memset` ends where the bytes ended before
    split
    case isTrue => rfl
    case isFalse =>
      rw [tiny_shift_behind h.wf hj]
      exact h.zero j (by omega)

/-- A length that is negative, after its conversion to `int`, appends nothing. -/
theorem Cleared.produce (h : b.Cleared) {ptr : List Byte} {len : Int} (hlen : len ≤ ptr.length) :
    (b.produce ptr len).Cleared := by
  by_cases h0 : 0 ≤ len
  · rw [produce_eq_store h0 hlen]
    refine (h.resize _).store ?_
    have hroom := (le_cap_resize h.wf (b.offset + len)).1
    rw [offset_resize, List.length_take]
    omega
  · rw [Buffer.produce, forUpTo_of_le (by omega)]
    exact h.resize _

theorem Cleared.skip (h : b.Cleared) {n : Int} (h0 : 0 ≤ n) (hn : n ≤ b.size) :
    (b.skip n).Cleared :=
  ⟨wf_skip h.wf h0 hn, h.zero⟩

theorem Cleared.consume (h : b.Cleared) {len : Int} (hfit : b.Fits len) :
    (b.consume len).Cleared := by
  obtain ⟨h0, hle⟩ := request_bounds h.wf hfit
  rw [consume_eq]
  split
  case isTrue => exact (h.skip h0 hle).clear
  case isFalse => exact h.skip h0 hle

theorem Cleared.getString (h : b.Cleared) {len : Int} (hfit : b.Fits len) (remove : Bool) :
    (b.getString len remove).2.Cleared := by
  rw [getString_snd h.wf hfit]
  cases remove with
  | true => exact h.consume hfit
  | false => exact h

/-- An unread byte is overwritten. -/
theorem Cleared.put (h : b.Cleared) {i : Int} (hi : i < b.size) (c : Byte) :
    (b.put i c).Cleared := by
  have hwf := h.wf
  refine ⟨⟨hwf.start_nonneg, hwf.start_le, hwf.offset_le, hwf.cap_pos, ?_⟩, fun j hj => ?_⟩
  · simp only [Buffer.put, length_poke]
    exact hwf.length_eq
  · replace hj : b.offset ≤ j := hj
    simp only [size] at hi
    simp only [Buffer.put]
    rw [peek_poke_ne (by omega)]
    exact h.zero j hj

/-- `copy` takes the whole block over. -/
theorem Cleared.copy (h : b.Cleared) : b.copy.Cleared := by
  refine ⟨wf_copy h.wf, fun j hj => ?_⟩
  replace hj : b.offset ≤ j := hj
  have hstart := h.wf.start_nonneg
  have hle := h.wf.start_le
  by_cases hlt : j < b.cap
  · rw [peek_eq_of_slice_eq (slice_copy h.wf) (by omega) (by omega)]
    exact h.zero j hj
  · have hpos := h.wf.cap_pos
    simp only [Buffer.copy]
    rw [peek_blit_of_not_mem (.inr (by rw [length_slice]; omega))]
    exact peek_replicate_zero _ j

/-! ## The string

With a zero behind the bytes, `strlen` ends there at the latest; it ends before if the bytes have
one. -/

/-- The block from `start_` on. -/
theorem Terminated.drop_start (h : b.Terminated) :
    ∃ rest, b.buffer.drop b.start.toNat = b.unread ++ 0 :: rest := by
  have hstart := h.wf.start_nonneg
  have hle := h.wf.start_le
  have hlt := h.lt_cap
  have hlength := h.wf.length_eq
  have hcap : b.cap - b.start = b.size + (1 + (b.cap - b.offset - 1)) := by
    simp only [size]
    omega
  have hend : b.start + b.size = b.offset := by
    simp only [size]
    omega
  have hnul : slice b.buffer b.offset 1 = [0] := by
    have hzero := h.zero b.offset (Int.le_refl _)
    simp [slice, hzero]
  refine ⟨slice b.buffer (b.offset + 1) (b.cap - b.offset - 1), ?_⟩
  rw [drop_eq_slice hstart (by omega) (by omega : b.start + (b.cap - b.start) = b.buffer.length),
    hcap, slice_add _ _ (size_nonneg h.wf) (by omega), hend,
    slice_add _ _ (by omega) (by omega), hnul]
  rfl

/-- Where the string ends. -/
theorem Terminated.strlen_rawbuf (h : b.Terminated) :
    strlen 0 (b.buffer.drop b.start.toNat) = some (b.unread.idxOf 0) := by
  obtain ⟨rest, hrest⟩ := h.drop_start
  rw [hrest, strlen_append_nul]

/-! ## After `read_all`

The last chunk is not full, so it leaves a byte of the room that was made for it. -/

/-- A chunk that is not full leaves a byte. -/
theorem readChunk_wp {len : Int} (hlen : 0 ≤ len) {io : StreamIO} (h : io.str.rbuffer.Cleared) :
    (Nstream.readChunk len).wp
      (fun v io' => (io'.str.rbuffer.Cleared ∧ io'.str.wbuffer = io.str.wbuffer) ∧
        (v ≠ len → io'.str.rbuffer.Terminated) ∧
        (v = len → Nstream.readable io.reads = v + Nstream.readable io'.reads))
      (fun _ io' => io'.str.rbuffer.Cleared ∧ io'.str.wbuffer = io.str.wbuffer) io := by
  obtain ⟨bs, rest, hchunk⟩ := Nstream.readChunk_spec hlen io
  unfold Prog.wp
  rcases hchunk with hchunk | ⟨halt, hchunk⟩
  · have hfull := hchunk.full
    have hread := hchunk.readable_eq
    rw [hchunk.exec_eq]
    refine ⟨⟨h.received (Int.le_of_eq hfull), rfl⟩, fun hne => absurd rfl hne, fun _ => ?_⟩
    simp only
    omega
  · have hlt := hchunk.lt_step
    have hcleared := h.received (Int.le_of_lt hlt)
    rw [hchunk.exec_eq]
    cases Nstream.readThrown halt with
    | error e => exact ⟨hcleared, rfl⟩
    | ok u =>
        refine ⟨⟨hcleared, rfl⟩, fun _ => h.received_lt hlt, fun hv => ?_⟩
        exact absurd hv (Int.ne_of_lt hlt)

/-- What `read_all` keeps, and what there is when it returns. -/
theorem readAllLoop_wp {step : Int} (hstep : 1 ≤ step) {n : Nat} {total : Int} {io : StreamIO}
    (h : io.str.rbuffer.Cleared) (hn : Nstream.readable io.reads < n) :
    (Nstream.readAllLoop step n total).wp
      (fun _ io' => io'.str.rbuffer.Terminated ∧ io'.str.wbuffer = io.str.wbuffer)
      (fun _ io' => io'.str.rbuffer.Cleared ∧ io'.str.wbuffer = io.str.wbuffer) io := by
  -- on the chunks; the last one is not full
  induction n generalizing total io with
  | zero => omega
  | succ n ih =>
      simp only [Nstream.readAllLoop, Prog.wp_bind, Prog.wp_ite, Prog.wp_pure]
      refine Prog.wp_mono (readChunk_wp (by omega) h) ?_ fun _ _ hthrown => hthrown
      rintro curr io' ⟨⟨hcleared, hwbuffer⟩, hlast, hfull⟩
      by_cases hcurr : curr = step
      · have hread := hfull hcurr
        rw [if_neg (not_not.mpr hcurr), ← hwbuffer]
        exact ih hcleared (by omega)
      · rw [if_pos hcurr]
        exact ⟨hlast hcurr, hwbuffer⟩

theorem readAll_wp {step : Int} (hstep : 1 ≤ step) {io : StreamIO} (h : io.str.rbuffer.Cleared) :
    (Nstream.readAll step).wp
      (fun _ io' => io'.str.rbuffer.Terminated ∧ io'.str.wbuffer = io.str.wbuffer)
      (fun _ io' => io'.str.rbuffer.Cleared ∧ io'.str.wbuffer = io.str.wbuffer) io := by
  unfold Nstream.readAll
  rw [Prog.wp_bind, Prog.wp_get]
  exact readAllLoop_wp hstep h (Nat.lt_succ_self _)

/-- **Behind what `read_all` has read there is a NUL.** -/
theorem terminated_readAllInt {step : Int} (hstep : 1 ≤ step) {v : Int} {io io' : StreamIO}
    (h : io.str.rbuffer.Cleared) (hout : Nstream.readAllInt step io = some (.ok v, io')) :
    io'.str.rbuffer.Terminated := by
  have hwp := readAll_wp hstep h
  unfold Prog.wp at hwp
  rw [Nstream.readAllInt_eq hout] at hwp
  exact hwp.1

/-- **The C string of a buffer.** -/
theorem cstr_eq_unread_iff (h : b.Terminated) : b.cstr = some b.unread ↔ 0 ∉ b.unread := by
  obtain ⟨rest, hrest⟩ := h.drop_start
  rw [cstr, hrest, readCString_eq_some_iff]
  exact and_iff_left ⟨_, rfl⟩

end Buffer

end Cppev
