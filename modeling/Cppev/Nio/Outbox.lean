import Cppev.Nio.Basic

/-!
# What `write_all` does to the bytes to be sent

The output side of a stream without its storage: a queue of bytes offered to the kernel, front
first, until the queue is empty or the kernel takes no more (`flush`). `writeAll_spec` says that
`write_all` does this to the unread bytes of `wbuffer`, for every script of answers; nothing below
this module looks at the indices of `wbuffer` again.
-/

namespace Cppev

/-! ## The queue

What `write_all` does, without a buffer: `quota` is what is left of the chunk, `step` the length of
the next one. -/

/-- Why a flush ended. -/
inductive Stop where
  | drained | blocked | broken | reset
  | failed (e : Errno)
  deriving DecidableEq, Repr

/-- What a flush leaves: the bytes not sent, the answers not used, what each `write` sent, and why
it ended. -/
structure Flush where
  pending : List Byte
  rest : List WriteResult
  sent : List (List Byte)
  stop : Stop
  deriving DecidableEq, Repr

namespace Flush

/-- The same outcome after the writes `xs`. -/
def after (xs : List (List Byte)) (f : Flush) : Flush := { f with sent := xs ++ f.sent }

@[simp] theorem after_nil (f : Flush) : f.after [] = f := rfl

/-- What was sent before, in two parts. -/
@[simp] theorem after_after (xs ys : List (List Byte)) (f : Flush) :
    (f.after ys).after xs = f.after (xs ++ ys) := by
  simp [after]

@[simp] theorem pending_after (xs : List (List Byte)) (f : Flush) :
    (f.after xs).pending = f.pending := rfl

@[simp] theorem rest_after (xs : List (List Byte)) (f : Flush) : (f.after xs).rest = f.rest := rfl

@[simp] theorem stop_after (xs : List (List Byte)) (f : Flush) : (f.after xs).stop = f.stop := rfl

@[simp] theorem sent_after (xs : List (List Byte)) (f : Flush) :
    (f.after xs).sent = xs ++ f.sent := rfl

end Flush

/-- How a flush that meets the error `e` ends, with `pending` still to be sent. -/
def Stop.ofErrno : Errno → Stop
  | .EAGAIN => .blocked
  | .EPIPE => .broken
  | .ECONNRESET => .reset
  | e => .failed e

/-- Offer `pending` to the kernel, at most `quota` bytes before the next chunk of `step`. -/
def flush (step quota : Nat) (pending : List Byte) : List WriteResult → Flush
  | [] => ⟨pending, [], [], if pending = [] then .drained else .blocked⟩
  | r :: rest =>
    if pending = [] then ⟨[], r :: rest, [], .drained⟩
    else
      match r with
      | .count n =>
        let k := min n (min quota pending.length)
        (flush step (if k = quota then step else quota - k) (pending.drop k) rest).after
          [pending.take k]
      | .err .EINTR => flush step quota pending rest
      | .err e => ⟨pending, rest, [], .ofErrno e⟩

@[simp] theorem flush_nil (step quota : Nat) (script : List WriteResult) :
    flush step quota [] script = ⟨[], script, [], .drained⟩ := by
  cases script <;> simp [flush]

/-- What was sent, followed by what is left, is what was there. -/
theorem flush_flow (step quota : Nat) (pending : List Byte) (script : List WriteResult) :
    (flush step quota pending script).sent.flatten ++ (flush step quota pending script).pending =
      pending := by
  induction script generalizing quota pending with
  | nil => simp [flush]
  | cons r rest ih =>
      by_cases hp : pending = []
      · simp [flush, hp]
      · cases r with
        | count n =>
            simp only [flush, hp, if_false, Flush.sent_after, Flush.pending_after,
              List.flatten_append, List.append_assoc, ih]
            simp
        | err e =>
            cases e with
            | EINTR => simpa [flush, hp] using ih quota pending
            | _ => simp [flush, hp]

/-! ## One chunk

A call of `write_chunk` either sends its chunk, or is cut short by an answer. Both are stated
relative to `flush`, with the rest of the chunk still to go, so that the induction on the answers
goes through. -/

namespace Nstream

theorem writeLoop_zero (s : Nstream) (script : List WriteResult) :
    s.writeLoop 0 script = ⟨.ok (), s, script, []⟩ := by
  cases script <;> simp [writeLoop]

/-- The flags and the exception that the end of a flush stands for. -/
def stopped (s : Nstream) (stop : Stop) : Nstream :=
  { s with eop := s.eop || decide (stop = .broken), reset := s.reset || decide (stop = .reset) }

def thrown : Stop → Except Exn Unit
  | .failed e => .error (.systemError "write error" e)
  | _ => .ok ()

/-- A chunk that ran its course: `k` bytes sent, and the chunk or the queue is used up. -/
structure ChunkDone (s : Nstream) (step q k : Nat) (script : List WriteResult)
    (out : WriteOut) : Prop where
  full : k = q ∨ k = s.wbuffer.unread.length
  result : out.result = .ok ()
  str : out.str = { s with wbuffer := s.wbuffer.skip k }
  flush_eq : flush step q s.wbuffer.unread script =
    (flush step (if k = q then step else q - k) (s.wbuffer.unread.drop k) out.rest).after out.sent

/-- A chunk that the kernel cut short: `k` bytes sent, and no more for `stop`. -/
structure ChunkCut (s : Nstream) (step q k : Nat) (stop : Stop) (script : List WriteResult)
    (out : WriteOut) : Prop where
  lt_quota : k < q
  lt_size : k < s.wbuffer.unread.length
  result : out.result = thrown stop
  str : out.str = { s with wbuffer := s.wbuffer.skip k }.stopped stop
  flush_eq : flush step q s.wbuffer.unread script =
    ⟨s.wbuffer.unread.drop k, out.rest, out.sent, stop⟩

@[simp] theorem stopped_blocked (s : Nstream) : s.stopped .blocked = s := by
  simp [stopped]

theorem ChunkDone.intro_zero {s : Nstream} (hnil : s.wbuffer.unread = []) (step q : Nat)
    (script : List WriteResult) : ChunkDone s step q 0 script ⟨.ok (), s, script, []⟩ := by
  refine ⟨Or.inr (by simp [hnil]), rfl, by simp, ?_⟩
  simp [hnil]

section Parts

variable {s : Nstream} {step q c k : Nat} {script rest : List WriteResult} {out : WriteOut}

/-! ### One answer of the kernel -/

/-- After a `write` of `c` bytes, the loop goes on with the rest of the chunk. -/
theorem writeLoop_count (h : s.wbuffer.Wf) (hq : 1 ≤ q) (hp : s.wbuffer.unread ≠ []) {n : Nat}
    (hc : c = min n (min q s.wbuffer.unread.length)) :
    s.writeLoop (min q s.wbuffer.unread.length) (.count n :: rest) =
      let out := ({ s with wbuffer := s.wbuffer.skip c } : Nstream).writeLoop
        (min (q : Int) s.wbuffer.unread.length - c) rest
      { out with sent := s.wbuffer.unread.take c :: out.sent } := by
  have hsize := Buffer.length_unread h
  have hpos : 0 < s.wbuffer.unread.length := List.length_pos_iff.mpr hp
  have hlen : ¬ min (q : Int) s.wbuffer.unread.length = 0 := by omega
  have hmin : min (min (q : Int) s.wbuffer.unread.length) s.wbuffer.size =
      min (q : Int) s.wbuffer.unread.length := by omega
  have hcurr : min (n : Int) (min (q : Int) s.wbuffer.unread.length) = c := by omega
  have htake : slice s.wbuffer.buffer s.wbuffer.start c = s.wbuffer.unread.take c :=
    (slice_take _ _ (Int.natCast_nonneg c) (by omega)).symm
  simp only [writeLoop, if_neg hlen, hmin, hcurr, htake]

/-- A chunk whose first `c` bytes were taken, and whose rest ran its course. -/
theorem ChunkDone.count (hcq : c ≤ q)
    (hunread : (s.wbuffer.skip c).unread = s.wbuffer.unread.drop c)
    (hcs : c ≤ s.wbuffer.unread.length)
    (hflush : flush step q s.wbuffer.unread script =
      (flush step (q - c) (s.wbuffer.unread.drop c) rest).after [s.wbuffer.unread.take c])
    (hout : ChunkDone { s with wbuffer := s.wbuffer.skip c } step (q - c) k rest out) :
    ChunkDone s step q (c + k) script
      { out with sent := s.wbuffer.unread.take c :: out.sent } := by
  have hsum : ((c + k : Nat) : Int) = (c : Int) + k := by omega
  refine ⟨?_, hout.result, ?_, ?_⟩
  · have hfull := hout.full
    simp only [hunread, List.length_drop] at hfull
    omega
  · simp only [hout.str, Buffer.skip_skip, hsum]
  · have hstep := hout.flush_eq
    simp only [hunread] at hstep
    rw [hflush, hstep]
    have hiff : (k = q - c) ↔ (c + k = q) := by omega
    simp only [hiff, Flush.after_after, List.drop_drop, Nat.sub_sub]
    rfl

/-- A chunk whose first `c` bytes were taken, and whose rest was cut short. -/
theorem ChunkCut.count {stop : Stop}
    (hunread : (s.wbuffer.skip c).unread = s.wbuffer.unread.drop c)
    (hflush : flush step q s.wbuffer.unread script =
      (flush step (q - c) (s.wbuffer.unread.drop c) rest).after [s.wbuffer.unread.take c])
    (hout : ChunkCut { s with wbuffer := s.wbuffer.skip c } step (q - c) k stop rest out) :
    ChunkCut s step q (c + k) stop script
      { out with sent := s.wbuffer.unread.take c :: out.sent } := by
  have hsum : ((c + k : Nat) : Int) = (c : Int) + k := by omega
  refine ⟨?_, ?_, hout.result, ?_, ?_⟩
  · have hlt := hout.lt_quota
    omega
  · have hlt := hout.lt_size
    simp only [hunread, List.length_drop] at hlt
    omega
  · simp only [hout.str, Buffer.skip_skip, hsum]
  · have hstep := hout.flush_eq
    simp only [hunread] at hstep
    rw [hflush, hstep]
    simp [Flush.after, List.drop_drop]

/-- A chunk that an error other than `EINTR` ends at once. -/
theorem ChunkCut.err (hq : 1 ≤ q) (hp : s.wbuffer.unread ≠ []) {e : Errno} (he : e ≠ .EINTR) :
    ChunkCut s step q 0 (.ofErrno e) (.err e :: rest)
      (s.writeLoop (min q s.wbuffer.unread.length) (.err e :: rest)) := by
  have hpos : 0 < s.wbuffer.unread.length := List.length_pos_iff.mpr hp
  have hlen : ¬ min (q : Int) s.wbuffer.unread.length = 0 := by omega
  refine ⟨hq, hpos, ?_, ?_, ?_⟩ <;> cases e
  case refine_1.EINTR | refine_2.EINTR | refine_3.EINTR => exact absurd rfl he
  all_goals simp [writeLoop, if_neg hlen, thrown, stopped, Stop.ofErrno, flush, hp]

end Parts

/-! ### The whole chunk -/

/-- A chunk, by induction on the answers: a count makes it shorter, `EINTR` leaves it, and every
other error ends it. -/
theorem writeLoop_spec (script : List WriteResult) {s : Nstream} (h : s.wbuffer.Wf) (step : Nat)
    {q : Nat} (hq : 1 ≤ q) :
    ∃ k : Nat, k ≤ q ∧ k ≤ s.wbuffer.unread.length ∧
      (ChunkDone s step q k script (s.writeLoop (min q s.wbuffer.unread.length) script) ∨
        ∃ stop, ChunkCut s step q k stop script
          (s.writeLoop (min q s.wbuffer.unread.length) script)) := by
  induction script generalizing s q with
  | nil =>
      refine ⟨0, by omega, by omega, ?_⟩
      by_cases hp : s.wbuffer.unread = []
      · exact Or.inl (.intro_zero hp step q [])
      · have hpos : 0 < s.wbuffer.unread.length := List.length_pos_iff.mpr hp
        exact Or.inr ⟨.blocked, hq, hpos, rfl, by simp [writeLoop], by simp [flush, writeLoop, hp]⟩
  | cons r rest ih =>
      have hsize := Buffer.length_unread h
      by_cases hp : s.wbuffer.unread = []
      · refine ⟨0, by omega, by omega, Or.inl ?_⟩
        have hlen : min (q : Int) s.wbuffer.unread.length = 0 := by
          simp [hp]
        rw [hlen, writeLoop_zero]
        exact .intro_zero hp step q _
      · have hpos : 0 < s.wbuffer.unread.length := List.length_pos_iff.mpr hp
        cases r with
        | err e =>
            by_cases he : e = .EINTR
            · subst he
              have hlen : ¬ min (q : Int) s.wbuffer.unread.length = 0 := by omega
              have hmin : min (min (q : Int) s.wbuffer.unread.length) s.wbuffer.size =
                  min (q : Int) s.wbuffer.unread.length := by omega
              obtain ⟨k, hkq, hks, hout⟩ := ih h hq
              refine ⟨k, hkq, hks, ?_⟩
              simp only [writeLoop, if_neg hlen, hmin]
              rcases hout with hout | ⟨stop, hout⟩
              · exact Or.inl ⟨hout.full, hout.result, hout.str, by
                  simpa only [flush, if_neg hp] using hout.flush_eq⟩
              · exact Or.inr ⟨stop, hout.lt_quota, hout.lt_size, hout.result, hout.str, by
                  simpa only [flush, if_neg hp] using hout.flush_eq⟩
            · exact ⟨0, by omega, by omega, Or.inr ⟨.ofErrno e, .err hq hp he⟩⟩
        | count n =>
            -- the kernel takes `c` bytes; the rest of the chunk is the loop on what is left
            obtain ⟨c, hc⟩ : ∃ c : Nat, c = min n (min q s.wbuffer.unread.length) := ⟨_, rfl⟩
            have hcs : (c : Int) ≤ s.wbuffer.size := by omega
            have hwf : (s.wbuffer.skip c).Wf := Buffer.wf_skip h (by omega) hcs
            have hunread : (s.wbuffer.skip c).unread = s.wbuffer.unread.drop c :=
              Buffer.unread_skip (by omega) hcs
            have hflush : flush step q s.wbuffer.unread (.count n :: rest) =
                (flush step (if c = q then step else q - c) (s.wbuffer.unread.drop c) rest).after
                  [s.wbuffer.unread.take c] := by
              simp only [flush, if_neg hp, ← hc]
            rw [writeLoop_count h hq hp hc]
            by_cases hcq : c = q
            · have hzero : min (q : Int) s.wbuffer.unread.length - c = 0 := by omega
              simp only [hzero, writeLoop_zero]
              exact ⟨c, by omega, by omega, Or.inl ⟨Or.inl hcq, rfl, rfl, hflush⟩⟩
            · rw [if_neg hcq] at hflush
              obtain ⟨k, hkq, hks, hout⟩ := ih (s := { s with wbuffer := s.wbuffer.skip c }) hwf
                (by omega : 1 ≤ q - c)
              simp only [hunread, List.length_drop] at hks hout
              have hrest : min ((q - c : Nat) : Int) ((s.wbuffer.unread.length - c : Nat) : Int) =
                  min (q : Int) s.wbuffer.unread.length - c := by omega
              rw [hrest] at hout
              refine ⟨c + k, by omega, by omega, ?_⟩
              rcases hout with hout | ⟨stop, hout⟩
              · exact Or.inl (hout.count (by omega) hunread (by omega) hflush)
              · exact Or.inr ⟨stop, hout.count hunread hflush⟩

/-! ## All chunks

`write_all` goes on until a chunk is not sent whole. -/

/-- The buffer that `write_chunk` leaves when its loop ends with `b`: cleared once drained. -/
def settled (b : Buffer) : Buffer := if b.size = 0 then b.clear else b

theorem wf_settled {b : Buffer} (h : b.Wf) : (settled b).Wf := by
  unfold settled
  split
  · exact Buffer.wf_clear h
  · exact h

theorem unread_settled {b : Buffer} (h : b.Wf) : (settled b).unread = b.unread := by
  unfold settled
  split
  · next hsize => rw [Buffer.unread_clear, (Buffer.unread_eq_nil_iff h).mpr hsize]
  · rfl

/-! ### A chunk of a stream -/

/-- `write_chunk` around its loop, when it returns. -/
theorem exec_writeChunk_ok {io : StreamIO} {len : Int} {out : WriteOut}
    (hout : io.str.writeLoop (min len io.str.wbuffer.size) io.writes = out)
    (hok : out.result = .ok ()) :
    (writeChunk len).exec io = (.ok (out.str.wbuffer.start - io.str.wbuffer.start),
      { io with
        str := { out.str with wbuffer := settled out.str.wbuffer }
        writes := out.rest
        sent := io.sent ++ out.sent }) := by
  subst hout
  unfold writeChunk settled
  simp only [Prog.exec_bind, Prog.exec_get, Prog.exec_set, hok]
  split <;> rfl

theorem exec_writeChunk_error {io : StreamIO} {len : Int} {out : WriteOut} {e : Exn}
    (hout : io.str.writeLoop (min len io.str.wbuffer.size) io.writes = out)
    (he : out.result = .error e) :
    (writeChunk len).exec io = (.error e,
      { io with str := out.str, writes := out.rest, sent := io.sent ++ out.sent }) := by
  subst hout
  unfold writeChunk
  simp only [Prog.exec_bind, Prog.exec_get, Prog.exec_set, he]
  rfl

/-- `write_chunk` of a chunk that runs its course. -/
theorem exec_writeChunk_done {io : StreamIO} {step q k : Nat} {out : WriteOut}
    (hres : io.str.writeLoop (min q io.str.wbuffer.size) io.writes = out)
    (hout : ChunkDone io.str step q k io.writes out) :
    (writeChunk q).exec io = (.ok (k : Int),
      { io with
        str := { io.str with wbuffer := settled (io.str.wbuffer.skip k) }
        writes := out.rest
        sent := io.sent ++ out.sent }) := by
  have hcurr : out.str.wbuffer.start - io.str.wbuffer.start = k := by
    rw [hout.str]
    simp only [Buffer.skip]
    omega
  rw [exec_writeChunk_ok hres hout.result, hcurr, hout.str]

/-- `write_chunk` of a chunk that is cut short. -/
theorem exec_writeChunk_cut {io : StreamIO} (h : io.str.wbuffer.Wf) {step q k : Nat} {stop : Stop}
    {out : WriteOut} (hres : io.str.writeLoop (min q io.str.wbuffer.size) io.writes = out)
    (hout : ChunkCut io.str step q k stop io.writes out) :
    (writeChunk q).exec io = ((thrown stop).map fun _ => (k : Int),
      { io with
        str := { io.str with wbuffer := io.str.wbuffer.skip k }.stopped stop
        writes := out.rest
        sent := io.sent ++ out.sent }) := by
  have hsize := Buffer.length_unread h
  have hlt := hout.lt_size
  cases hthrown : thrown stop with
  | error e =>
      rw [exec_writeChunk_error hres (hout.result.trans hthrown), hout.str]
      rfl
  | ok u =>
      have hcurr : out.str.wbuffer.start - io.str.wbuffer.start = k := by
        rw [hout.str]
        simp only [Buffer.skip, stopped]
        omega
      -- bytes are left, so the buffer is not cleared
      have hkeep : settled out.str.wbuffer = io.str.wbuffer.skip k := by
        have hs : ¬ (io.str.wbuffer.skip k).size = 0 := by
          rw [← Buffer.unread_eq_nil_iff (Buffer.wf_skip h (by omega) (by omega)),
            Buffer.unread_skip (by omega) (by omega)]
          simpa using hlt
        rw [hout.str]
        simp [settled, stopped, hs]
      rw [exec_writeChunk_ok hres (hout.result.trans hthrown), hcurr, hkeep, hout.str]
      rfl

/-! ### The loop over chunks

By induction on the chunks; the last of them is not full, or cut off. -/

/-- By induction on a bound for the number of chunks: each of them is shorter than what was
there. -/
theorem writeAllLoop_spec {step : Nat} (hstep : 1 ≤ step) (n : Nat) (total : Int) {io : StreamIO}
    (h : io.str.wbuffer.Wf) (hn : io.str.wbuffer.unread.length < n) :
    let f := flush step step io.str.wbuffer.unread io.writes
    ∃ b : Buffer, b.Wf ∧ b.unread = f.pending ∧
      (writeAllLoop step n total).exec io =
        ((thrown f.stop).map fun _ => total + (io.str.wbuffer.unread.length - f.pending.length),
          { io with
            str := { io.str with wbuffer := b }.stopped f.stop
            writes := f.rest
            sent := io.sent ++ f.sent }) := by
  induction n generalizing total io with
  | zero => omega
  | succ n ih =>
      intro f
      have hsize := Buffer.length_unread h
      obtain ⟨k, hkq, hks, hout⟩ := writeLoop_spec io.writes h step hstep
      have hlen : min (step : Int) io.str.wbuffer.unread.length =
          min (step : Int) io.str.wbuffer.size := by omega
      rw [hlen] at hout
      -- from here on, the chunk is known by what it has done only
      generalize hres : io.str.writeLoop (min (step : Int) io.str.wbuffer.size) io.writes = out
        at hout
      have hwf : (io.str.wbuffer.skip k).Wf := Buffer.wf_skip h (by omega) (by omega)
      have hunread : (io.str.wbuffer.skip k).unread = io.str.wbuffer.unread.drop k :=
        Buffer.unread_skip (by omega) (by omega)
      have hdrop : (settled (io.str.wbuffer.skip k)).unread = io.str.wbuffer.unread.drop k := by
        rw [unread_settled hwf, hunread]
      simp only [writeAllLoop]
      rcases hout with hout | ⟨stop, hout⟩
      · rw [Prog.exec_bind_ok (exec_writeChunk_done hres hout)]
        by_cases hfull : (k : Int) = step
        · -- a full chunk: the loop goes on with what is left
          have hf : f = (flush step step (io.str.wbuffer.unread.drop k) out.rest).after out.sent := by
            have hstep' := hout.flush_eq
            rwa [if_pos (by omega)] at hstep'
          obtain ⟨b, hb, hbu, hexec⟩ := @ih (total + k)
            { io with
              str := { io.str with wbuffer := settled (io.str.wbuffer.skip k) }
              writes := out.rest
              sent := io.sent ++ out.sent }
            (wf_settled hwf) (by rw [hdrop, List.length_drop]; omega)
          simp only [hdrop] at hbu hexec
          refine ⟨b, hb, by rw [hf]; exact hbu, ?_⟩
          rw [if_neg (by simpa using hfull), hexec, hf]
          simp only [Flush.stop_after, Flush.pending_after, Flush.rest_after, Flush.sent_after,
            List.append_assoc, List.length_drop]
          congr 2
          funext _
          omega
        · -- a chunk that is not full leaves nothing
          have hkl : k = io.str.wbuffer.unread.length := by
            rcases hout.full with h | h <;> omega
          have hdrained : io.str.wbuffer.unread.drop k = [] := by
            simp [hkl]
          have hf : f = ⟨[], out.rest, out.sent, .drained⟩ := by
            have hstep' := hout.flush_eq
            simpa [hdrained, Flush.after] using hstep'
          refine ⟨settled (io.str.wbuffer.skip k), wf_settled hwf, ?_, ?_⟩
          · rw [hdrop, hdrained, hf]
          · rw [if_pos (by simpa using hfull), hf]
            simp [thrown, stopped, Except.map, hkl]
      · -- a chunk that is cut off, by an error that throws or by one that does not
        have hf : f = ⟨io.str.wbuffer.unread.drop k, out.rest, out.sent, stop⟩ := hout.flush_eq
        have hchunk := exec_writeChunk_cut h hres hout
        have hlt := hout.lt_quota
        refine ⟨io.str.wbuffer.skip k, hwf, by rw [hf]; exact hunread, ?_⟩
        rw [hf]
        cases hthrown : thrown stop with
        | error e =>
            rw [hthrown] at hchunk
            rw [Prog.exec_bind_error hchunk]
            rfl
        | ok u =>
            have hne : ¬ (k : Int) = step := by omega
            rw [hthrown] at hchunk
            rw [Prog.exec_bind_ok hchunk, if_pos (by simpa using hne)]
            simp only [Prog.exec_pure, Except.map, List.length_drop]
            congr 2
            omega

/-- **`write_all` flushes the unread bytes of `wbuffer`.** What it returns is the number of bytes
the kernel accepted; it throws when the flush ends in an error the loop does not handle. -/
theorem writeAll_spec {step : Nat} (hstep : 1 ≤ step) {io : StreamIO} (h : io.str.wbuffer.Wf) :
    let f := flush step step io.str.wbuffer.unread io.writes
    ∃ b : Buffer, b.Wf ∧ b.unread = f.pending ∧
      (writeAll step).exec io =
        ((thrown f.stop).map fun _ => (io.str.wbuffer.unread.length : Int) - f.pending.length,
          { io with
            str := { io.str with wbuffer := b }.stopped f.stop
            writes := f.rest
            sent := io.sent ++ f.sent }) := by
  intro f
  have hsize := Buffer.length_unread h
  obtain ⟨b, hb, hbu, hexec⟩ := writeAllLoop_spec hstep (io.str.wbuffer.size.toNat + 1) 0 h
    (by omega)
  refine ⟨b, hb, hbu, ?_⟩
  unfold writeAll
  rw [Prog.exec_bind_ok (Prog.exec_get io), hexec]
  simp only [Int.zero_add]
  rfl

end Nstream

end Cppev
