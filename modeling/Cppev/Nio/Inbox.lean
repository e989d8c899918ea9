import Cppev.Nio.Basic

/-!
# What `read_all` does to the bytes received

The input side of a stream without its storage: the bytes a script delivers until it reports end of
file, an error, or that there is no more for now (`deliver`). `readAll_spec` says that `read_all`
appends exactly these bytes to the unread ones of `rbuffer`, whatever the chunk size.
-/

namespace Cppev

/-! ## The delivery

What a script delivers does not depend on how many bytes are asked for at a time; that is shown
below, chunk by chunk. -/

/-- Why a delivery ended. -/
inductive Halt where
  | blocked | eof | reset
  | failed (e : Errno)
  deriving DecidableEq, Repr

/-- The bytes delivered, the answers not used, and why the delivery ended. -/
structure Delivery where
  bytes : List Byte
  rest : List ReadResult
  halt : Halt
  deriving DecidableEq, Repr

def Delivery.after (bs : List Byte) (d : Delivery) : Delivery := { d with bytes := bs ++ d.bytes }

/-- How a delivery that meets the error `e` ends. -/
def Halt.ofErrno : Errno → Halt
  | .EAGAIN => .blocked
  | .ECONNRESET => .reset
  | e => .failed e

/-- Everything a script delivers. -/
def deliver : List ReadResult → Delivery
  | [] => ⟨[], [], .blocked⟩
  | .bytes [] :: rest => ⟨[], rest, .eof⟩
  | .bytes (b :: bs) :: rest => (deliver rest).after (b :: bs)
  | .err .EINTR :: rest => deliver rest
  | .err e :: rest => ⟨[], rest, .ofErrno e⟩

/-- Bytes that arrive in two pieces arrive. -/
theorem deliver_split {bs : List Byte} (hbs : bs ≠ []) (rest : List ReadResult) :
    deliver (.bytes bs :: rest) = (deliver rest).after bs := by
  cases bs with
  | nil => exact absurd rfl hbs
  | cons b bs => rfl

namespace Nstream

/-- The flags and the exception that the end of a delivery stands for. -/
def halted (s : Nstream) (halt : Halt) : Nstream :=
  { s with eof := s.eof || decide (halt = .eof), reset := s.reset || decide (halt = .reset) }

def readThrown : Halt → Except Exn Unit
  | .failed e => .error (.systemError "read error" e)
  | _ => .ok ()

/-! ## One chunk

A call of `read_chunk` is full, or is cut short by an answer. As on the output side, both are stated
with the rest of the script still to come. -/

/-- A chunk that is full: `bs` are the bytes stored, the rest of the delivery is still to come. -/
structure ReadDone (s : Nstream) (len : Int) (bs : List Byte) (script : List ReadResult)
    (out : Except Exn Unit × Nstream × List ReadResult) : Prop where
  full : (bs.length : Int) = len
  result : out.1 = .ok ()
  str : out.2.1 = { s with rbuffer := s.rbuffer.store bs }
  deliver_eq : deliver script = (deliver out.2.2).after bs
  readable_eq : readable script = bs.length + readable out.2.2

/-- A chunk that the kernel cut short after `bs`, which ends the delivery. -/
structure ReadCut (s : Nstream) (len : Int) (bs : List Byte) (halt : Halt)
    (script : List ReadResult) (out : Except Exn Unit × Nstream × List ReadResult) : Prop where
  lt_len : (bs.length : Int) < len
  result : out.1 = readThrown halt
  str : out.2.1 = { s with rbuffer := s.rbuffer.store bs }.halted halt
  deliver_eq : deliver script = ⟨bs, out.2.2, halt⟩

@[simp] theorem halted_blocked (s : Nstream) : s.halted .blocked = s := by
  simp [halted]

/-! ### The ways in which a chunk ends -/

theorem readLoop_zero (s : Nstream) (script : List ReadResult) :
    s.readLoop 0 script = (.ok (), s, script) := by
  cases script <;> simp [readLoop]

theorem ReadDone.intro_zero (s : Nstream) (script : List ReadResult) :
    ReadDone s 0 [] script (.ok (), s, script) := by
  refine ⟨rfl, rfl, by simp, ?_, by simp⟩
  simp [Delivery.after]

/-- An answer of the kernel with bytes in it: they are stored, as far as they were asked for. -/
theorem readLoop_bytes (s : Nstream) {len : Int} (hlen : len ≠ 0) {bs : List Byte} (hnil : bs ≠ [])
    (rest : List ReadResult) : s.readLoop len (.bytes bs :: rest) =
      if len < bs.length then
        (.ok (), { s with rbuffer := s.rbuffer.store (bs.take len.toNat) },
          .bytes (bs.drop len.toNat) :: rest)
      else readLoop { s with rbuffer := s.rbuffer.store bs } (len - bs.length) rest := by
  cases bs with
  | nil => exact absurd rfl hnil
  | cons b bs => simp only [readLoop, if_neg hlen]

section Parts

variable {s : Nstream} {len : Int} {bs cs : List Byte} {rest : List ReadResult}
  {out : Except Exn Unit × Nstream × List ReadResult}

/-- More than was asked for: the rest stays with the kernel. -/
theorem ReadDone.split (h0 : 0 ≤ len) (hnil : bs ≠ []) (hmore : len < bs.length) :
    ReadDone s len (bs.take len.toNat) (.bytes bs :: rest)
      (.ok (), { s with rbuffer := s.rbuffer.store (bs.take len.toNat) },
        .bytes (bs.drop len.toNat) :: rest) := by
  refine ⟨?_, rfl, rfl, ?_, ?_⟩
  · rw [List.length_take]
    omega
  · have hdrop : bs.drop len.toNat ≠ [] := by
      rw [Ne, List.drop_eq_nil_iff]
      omega
    rw [deliver_split hnil, deliver_split hdrop]
    simp [Delivery.after, ← List.append_assoc]
  · simp only [readable, List.length_take, List.length_drop]
    omega

/-- A chunk that begins with `bs`, and whose rest is full. -/
theorem ReadDone.bytes (hnil : bs ≠ [])
    (hout : ReadDone { s with rbuffer := s.rbuffer.store bs } (len - bs.length) cs rest out) :
    ReadDone s len (bs ++ cs) (.bytes bs :: rest) out := by
  refine ⟨?_, hout.result, ?_, ?_, ?_⟩
  · have hfull := hout.full
    simp only [List.length_append]
    omega
  · rw [hout.str]
    simp
  · rw [deliver_split hnil, hout.deliver_eq]
    simp [Delivery.after]
  · have hreadable := hout.readable_eq
    simp only [readable, List.length_append]
    omega

/-- A chunk that begins with `bs`, and whose rest is cut short. -/
theorem ReadCut.bytes {halt : Halt} (hnil : bs ≠ [])
    (hout : ReadCut { s with rbuffer := s.rbuffer.store bs } (len - bs.length) cs halt rest out) :
    ReadCut s len (bs ++ cs) halt (.bytes bs :: rest) out := by
  refine ⟨?_, hout.result, ?_, ?_⟩
  · have hlt := hout.lt_len
    simp only [List.length_append]
    omega
  · rw [hout.str]
    simp
  · rw [deliver_split hnil, hout.deliver_eq]
    rfl

/-- The end of the stream. -/
theorem ReadCut.eof (h0 : 0 < len) :
    ReadCut s len [] .eof (.bytes [] :: rest) (s.readLoop len (.bytes [] :: rest)) := by
  have hlen : len ≠ 0 := by omega
  refine ⟨h0, ?_, ?_, ?_⟩
  · simp [readLoop, if_neg hlen, readThrown]
  · simp [readLoop, if_neg hlen, halted]
  · simp [readLoop, if_neg hlen, deliver]

/-- An error other than `EINTR`. -/
theorem ReadCut.err (h0 : 0 < len) {e : Errno} (he : e ≠ .EINTR) :
    ReadCut s len [] (.ofErrno e) (.err e :: rest) (s.readLoop len (.err e :: rest)) := by
  have hlen : len ≠ 0 := by omega
  refine ⟨h0, ?_, ?_, ?_⟩ <;> cases e
  case refine_1.EINTR | refine_2.EINTR | refine_3.EINTR => exact absurd rfl he
  all_goals simp [readLoop, if_neg hlen, readThrown, halted, Halt.ofErrno, deliver]

end Parts

/-- By induction on the script, with the chunk getting shorter. -/
theorem readLoop_spec (script : List ReadResult) (s : Nstream) {len : Int} (h0 : 0 ≤ len) :
    ∃ bs, ReadDone s len bs script (s.readLoop len script) ∨
      ∃ halt, ReadCut s len bs halt script (s.readLoop len script) := by
  by_cases hlen : len = 0
  · subst hlen
    exact ⟨[], Or.inl (by rw [readLoop_zero]; exact .intro_zero s script)⟩
  induction script generalizing s len with
  | nil =>
      refine ⟨[], Or.inr ⟨.blocked, ?_, rfl, by simp [readLoop], rfl⟩⟩
      simp only [List.length_nil]
      omega
  | cons r rest ih =>
      have hpos : 0 < len := by omega
      cases r with
      | err e =>
          by_cases he : e = .EINTR
          · subst he
            -- `EINTR` is not seen from outside
            obtain ⟨bs, hout⟩ := ih s h0 hlen
            refine ⟨bs, ?_⟩
            simp only [readLoop, if_neg hlen]
            rcases hout with hout | ⟨halt, hout⟩
            · exact Or.inl ⟨hout.full, hout.result, hout.str, hout.deliver_eq, hout.readable_eq⟩
            · exact Or.inr ⟨halt, hout.lt_len, hout.result, hout.str, hout.deliver_eq⟩
          · exact ⟨[], Or.inr ⟨.ofErrno e, .err hpos he⟩⟩
      | bytes bs =>
          by_cases hnil : bs = []
          · subst hnil
            exact ⟨[], Or.inr ⟨.eof, .eof hpos⟩⟩
          · rw [readLoop_bytes s hlen hnil]
            by_cases hmore : len < bs.length
            · rw [if_pos hmore]
              -- more than is asked for: the rest stays for the next chunk
              exact ⟨bs.take len.toNat, Or.inl (.split h0 hnil hmore)⟩
            · rw [if_neg hmore]
              by_cases hexact : len - bs.length = 0
              · rw [hexact, readLoop_zero]
                exact ⟨bs, Or.inl ⟨by omega, rfl, rfl, deliver_split hnil rest, rfl⟩⟩
              · -- less than is asked for: the loop reads on behind it
                obtain ⟨cs, hout⟩ := ih { s with rbuffer := s.rbuffer.store bs }
                  (by omega : 0 ≤ len - bs.length) hexact
                refine ⟨bs ++ cs, ?_⟩
                rcases hout with hout | ⟨halt, hout⟩
                · exact Or.inl (hout.bytes hnil)
                · exact Or.inr ⟨halt, hout.bytes hnil⟩

/-! ## All chunks

`read_all` goes on after a full chunk, and ends with one that is cut short. -/

/-- The read buffer with room for a chunk and `bs` stored in it. -/
def received (b : Buffer) (len : Int) (bs : List Byte) : Buffer :=
  (b.resize (b.offset + len)).store bs

theorem wf_received {b : Buffer} (h : b.Wf) {len : Int} {bs : List Byte}
    (hlen : (bs.length : Int) ≤ len) :
    (received b len bs).Wf ∧ (received b len bs).unread = b.unread ++ bs := by
  have hroom := (Buffer.le_cap_resize h (b.offset + len)).1
  have hstore : (b.resize (b.offset + len)).offset + bs.length ≤
      (b.resize (b.offset + len)).cap := by
    rw [Buffer.offset_resize]
    omega
  refine ⟨Buffer.wf_store (Buffer.wf_resize h _) hstore, ?_⟩
  rw [received, Buffer.unread_store (Buffer.wf_resize h _) hstore, Buffer.unread_resize h]

/-! ### A chunk of a stream -/

theorem exec_readChunk {io : StreamIO} {len : Int} {r : Except Exn Unit} {s : Nstream}
    {rest : List ReadResult}
    (hout : ({ io.str with
      rbuffer := io.str.rbuffer.resize (io.str.rbuffer.offset + len) } : Nstream).readLoop len
        io.reads = (r, s, rest)) :
    (readChunk len).exec io =
      (r.map fun _ => s.rbuffer.offset - io.str.rbuffer.offset,
        { io with str := s, reads := rest }) := by
  unfold readChunk
  simp only [Prog.exec_bind, Prog.exec_get, Prog.exec_set, hout, Buffer.offset_resize]
  cases r <;> rfl

/-- A chunk that is full, and what is still to come. -/
structure ReadFull (io : StreamIO) (step : Int) (bs : List Byte) (rest : List ReadResult) :
    Prop where
  exec_eq : (readChunk step).exec io = (.ok step,
    { io with
      str := { io.str with rbuffer := received io.str.rbuffer step bs }
      reads := rest })
  full : (bs.length : Int) = step
  deliver_eq : deliver io.reads = (deliver rest).after bs
  readable_eq : readable io.reads = bs.length + readable rest

/-- The last chunk. -/
structure ReadLast (io : StreamIO) (step : Int) (bs : List Byte) (rest : List ReadResult)
    (halt : Halt) : Prop where
  exec_eq : (readChunk step).exec io = ((readThrown halt).map fun _ => (bs.length : Int),
    { io with
      str := { io.str with rbuffer := received io.str.rbuffer step bs }.halted halt
      reads := rest })
  lt_step : (bs.length : Int) < step
  deliver_eq : deliver io.reads = ⟨bs, rest, halt⟩

theorem readChunk_spec {step : Int} (hstep : 0 ≤ step) (io : StreamIO) :
    ∃ bs rest, ReadFull io step bs rest ∨ ∃ halt, ReadLast io step bs rest halt := by
  obtain ⟨bs, hout⟩ := readLoop_spec io.reads
    { io.str with rbuffer := io.str.rbuffer.resize (io.str.rbuffer.offset + step) } hstep
  rcases hres : ({ io.str with
    rbuffer := io.str.rbuffer.resize (io.str.rbuffer.offset + step) } : Nstream).readLoop step
      io.reads with ⟨r, s, rest⟩
  rw [hres] at hout
  have hchunk := exec_readChunk hres
  refine ⟨bs, rest, ?_⟩
  rcases hout with hout | ⟨halt, hout⟩
  · have hr : r = .ok () := hout.result
    have hs : s = { io.str with rbuffer := received io.str.rbuffer step bs } := hout.str
    have hcurr : s.rbuffer.offset - io.str.rbuffer.offset = step := by
      have := hout.full
      simp only [hs, received, Buffer.store, Buffer.offset_resize]
      omega
    rw [hcurr, hr, hs] at hchunk
    exact Or.inl ⟨hchunk, hout.full, hout.deliver_eq, hout.readable_eq⟩
  · have hr : r = readThrown halt := hout.result
    have hs : s = { io.str with rbuffer := received io.str.rbuffer step bs }.halted halt :=
      hout.str
    have hcurr : s.rbuffer.offset - io.str.rbuffer.offset = bs.length := by
      simp only [hs, received, halted, Buffer.store, Buffer.offset_resize]
      omega
    rw [hcurr, hr, hs] at hchunk
    exact Or.inr ⟨halt, hchunk, hout.lt_len, hout.deliver_eq⟩

/-! ### The loop over chunks

Only a chunk that is full is followed by another. -/

/-- By induction on a bound for the bytes and answers that are left. -/
theorem readAllLoop_spec {step : Int} (hstep : 1 ≤ step) (n : Nat) (total : Int) (io : StreamIO)
    (hn : readable io.reads < n) :
    let d := deliver io.reads
    ∃ b : Buffer,
      (io.str.rbuffer.Wf → b.Wf ∧ b.unread = io.str.rbuffer.unread ++ d.bytes) ∧
      (readAllLoop step n total).exec io =
        ((readThrown d.halt).map fun _ => total + d.bytes.length,
          { io with
            str := { io.str with rbuffer := b }.halted d.halt
            reads := d.rest }) := by
  induction n generalizing total io with
  | zero => omega
  | succ n ih =>
      intro d
      obtain ⟨bs, rest, hout⟩ := readChunk_spec (by omega : 0 ≤ step) io
      simp only [readAllLoop]
      rcases hout with hout | ⟨halt, hout⟩
      · -- a full chunk: the loop goes on with what is left to deliver
        have hfull := hout.full
        have hread := hout.readable_eq
        have hd : d = (deliver rest).after bs := hout.deliver_eq
        rw [Prog.exec_bind_ok hout.exec_eq, if_neg (by simp)]
        obtain ⟨b, hb, hexec⟩ := ih (total + step)
          { io with
            str := { io.str with rbuffer := received io.str.rbuffer step bs }
            reads := rest } (by
          simp only
          omega)
        refine ⟨b, ?_, ?_⟩
        · intro hwf
          have hrecv := wf_received hwf (Int.le_of_eq hfull)
          obtain ⟨hbwf, hbu⟩ := hb hrecv.1
          refine ⟨hbwf, ?_⟩
          rw [hbu, hrecv.2, hd]
          simp [Delivery.after]
        · rw [hexec, hd]
          simp only [Delivery.after, List.length_append]
          congr 2
          funext _
          omega
      · have hd : d = ⟨bs, rest, halt⟩ := hout.deliver_eq
        -- the last chunk, which is not full, and what has ended it
        have hlt := hout.lt_step
        refine ⟨received io.str.rbuffer step bs, ?_, ?_⟩
        · intro hwf
          have hrecv := wf_received hwf (by omega : (bs.length : Int) ≤ step)
          rw [hd]
          exact hrecv
        · have hchunk := hout.exec_eq
          cases hthrown : readThrown halt with
          | ok u =>
              rw [hthrown] at hchunk
              have hne : (bs.length : Int) ≠ step := by omega
              rw [Prog.exec_bind_ok hchunk, if_pos hne, hd, hthrown]
              rfl
          | error e =>
              rw [hthrown] at hchunk
              rw [Prog.exec_bind_error hchunk, hd, hthrown]
              rfl

/-- **`read_all` appends what the script delivers.** It returns the number of bytes, and throws
when the delivery ends in an error the loop does not handle; the bytes are kept in both cases. -/
theorem readAll_spec {step : Int} (hstep : 1 ≤ step) (io : StreamIO) :
    let d := deliver io.reads
    ∃ b : Buffer,
      (io.str.rbuffer.Wf → b.Wf ∧ b.unread = io.str.rbuffer.unread ++ d.bytes) ∧
      (readAll step).exec io =
        ((readThrown d.halt).map fun _ => (d.bytes.length : Int),
          { io with
            str := { io.str with rbuffer := b }.halted d.halt
            reads := d.rest }) := by
  intro d
  obtain ⟨b, hb, hexec⟩ := readAllLoop_spec hstep (readable io.reads + 1) 0 io (by omega)
  refine ⟨b, hb, ?_⟩
  unfold readAll
  rw [Prog.exec_bind_ok (Prog.exec_get io), hexec]
  simp only [Int.zero_add]
  rfl

end Nstream

end Cppev
