import Cppev.Nio.WriteAll
import Cppev.Subprocess
import Cppev.Utils.Strings

/-!
# The input of a subprocess

Calls of `communicate`, one after the other, with whatever the three pipes answer: how much of the
input fits into `stdin` at a time depends on the capacity of the pipe and on when the child reads.
Each read of `stdout` and `stderr` goes on until there is no more for now.

* `communicated`: what a call does to the bytes given to it.
* `attended_iff`: after every call, the bytes that have not been written wait for the child only, if
  and only if every call has data or comes when nothing is waiting.
-/

namespace Cppev

/-! ## Streams and pipes -/

/-- What `read` answers as long as it goes on. -/
def GoesOnReading (answers : List ReadResult) : Prop := ∀ r ∈ answers, r.goesOn ≠ none

/-- What `write` answers on a pipe. -/
def WriteResult.OfPipe : WriteResult → Prop
  | .count n => 1 ≤ n
  | .err e => e = .EINTR ∨ e = .EAGAIN ∨ e = .EPIPE

instance : (r : WriteResult) → Decidable r.OfPipe
  | .count n => inferInstanceAs (Decidable (1 ≤ n))
  | .err e => inferInstanceAs (Decidable (e = .EINTR ∨ e = .EAGAIN ∨ e = .EPIPE))

instance (answers : List ReadResult) : Decidable (GoesOnReading answers) :=
  inferInstanceAs (Decidable (∀ r ∈ answers, r.goesOn ≠ none))

/-- The streams of a `subp_open`. -/
structure SubpStreams where
  stdin : Nstream
  /-- `stdout_` and `stderr_`. -/
  outputs : OutStream → Nstream
  /-- A signed overflow, or an exception. -/
  failed : Bool
  /-- What the last `write` in the last call has answered. -/
  lastWrite : Option WriteResult
  /-- The history: the input, and what of it the kernel has accepted. -/
  given : List Byte
  sent : List Byte

/-- A call with its input and the answers of the pipes. -/
inductive SubpStreamsLabel where
  /-- `communicate(const char *, int)`. `communicate()`, which `wait` calls, has `none` and `0`. -/
  | communicate (input : Option (List Byte)) (len : Int) (reads : OutStream → List ReadResult)
    (writes : List WriteResult)
  /-- `communicate(const std::string &)`. -/
  | communicateStr (input : List Byte) (reads : OutStream → List ReadResult)
    (writes : List WriteResult)

namespace SubpStreams

/-- `read_all`. -/
def readAll (str : Nstream) (answers : List ReadResult) : Option Nstream :=
  match Nstream.readAllInt bufferIoStep ⟨str, answers ++ [.err .EAGAIN], [], []⟩ with
  | some (.ok _, io) => some io.str
  | _ => none

/-- `stdin_->write_all()`. -/
def writeAll (s : SubpStreams) (answers : List WriteResult) : SubpStreams :=
  let script := answers ++ [.err .EAGAIN]
  let (r, io) := (Nstream.writeAll bufferIoStep).exec ⟨s.stdin, [], script, []⟩
  let s := { s with
    stdin := io.str
    lastWrite := (script.take (script.length - io.writes.length)).getLast?
    sent := s.sent ++ io.sent.flatten }
  match r with
  | .ok _ => s
  | .error _ => { s with failed := true }

/-! ### A call of communicate -/

/-- `if (input != nullptr && len != 0)`. -/
def give (s : SubpStreams) (input : Option (List Byte)) (len : Int) (writes : List WriteResult) :
    SubpStreams :=
  match input with
  | none => s
  | some input =>
    if len = 0 then s
    else if s.stdin.wbuffer.InRange len then
      writeAll { s with stdin := { s.stdin with wbuffer := s.stdin.wbuffer.produce input len } }
        writes
    else { s with failed := true }

/-- `communicate`. -/
def communicate (s : SubpStreams) (input : Option (List Byte)) (len : Int)
    (reads : OutStream → List ReadResult) (writes : List WriteResult) : SubpStreams :=
  let s := { s with lastWrite := none }
  match readAll (s.outputs .out) (reads .out), readAll (s.outputs .err) (reads .err) with
  | some out, some err =>
    give { s with outputs := fun x => match x with
      | .out => out
      | .err => err } input len writes
  | _, _ => { s with failed := true }

/-- The bytes that a call is given. -/
def dataOf (input : Option (List Byte)) (len : Int) : List Byte := (input.getD []).take len.toNat

/-- The pipes give such answers. -/
def Answers (reads : OutStream → List ReadResult) (writes : List WriteResult) : Prop :=
  (GoesOnReading (reads .out) ∧ GoesOnReading (reads .err)) ∧ ∀ r ∈ writes, r.OfPipe

instance (reads : OutStream → List ReadResult) (writes : List WriteResult) :
    Decidable (Answers reads writes) :=
  inferInstanceAs (Decidable ((_ ∧ _) ∧ ∀ r ∈ writes, r.OfPipe))

/-- A call, and the bytes that the child takes meanwhile. -/
def step (s : SubpStreams) (l : SubpStreamsLabel) : Option SubpStreams :=
  if s.failed = true then none
  else
    match l with
    | .communicate input len reads writes =>
      if Answers reads writes ∧ len ≤ (input.getD []).length then
        some { s.communicate input len reads writes with given := s.given ++ dataOf input len }
      else none
    | .communicateStr input reads writes =>
      if Answers reads writes then
        some { s.communicate (some input) (toInt input.length) reads writes with
          given := s.given ++ input }
      else none

/-- The streams after the constructor. -/
def init (stdin stdout stderr : Int) : SubpStreams where
  stdin := Nstream.new stdin
  outputs := fun x => match x with
    | .out => Nstream.new stdout
    | .err => Nstream.new stderr
  failed := false
  lastWrite := none
  given := []
  sent := []

/-! ### What a call is asked for -/

/-- There is room for what is read, within `int`. -/
def RoomToRead (s : SubpStreams) (reads : OutStream → List ReadResult) : Prop :=
  ∀ x, ((s.outputs x).rbuffer.unread.length : Int) +
    Nstream.demand bufferIoStep (reads x ++ [.err .EAGAIN]) ≤ 2 ^ 30

/-- There is also room for the data. -/
def Room (s : SubpStreams) (input : Option (List Byte)) (len : Int)
    (reads : OutStream → List ReadResult) : Prop :=
  s.RoomToRead reads ∧ (input ≠ none → len ≠ 0 → s.stdin.wbuffer.InRange len)

/-- There is data, or nothing is waiting. -/
def HasData (s : SubpStreams) (input : Option (List Byte)) (len : Int) : Prop :=
  (input ≠ none ∧ len ≠ 0) ∨ s.stdin.wbuffer.unread = []

def Proper (s : SubpStreams) : SubpStreamsLabel → Prop
  | .communicate input len reads _ => s.Room input len reads ∧ s.HasData input len
  | .communicateStr input reads _ =>
    input.length ≤ INT_MAX ∧ s.Room (some input) input.length reads ∧
      s.HasData (some input) input.length

instance (s : SubpStreams) (reads : OutStream → List ReadResult) : Decidable (s.RoomToRead reads) :=
  decidable_of_iff (_ ∧ _) ⟨fun h => fun
    | .out => h.1
    | .err => h.2, fun h => ⟨h .out, h .err⟩⟩

instance (s : SubpStreams) (input : Option (List Byte)) (len : Int)
    (reads : OutStream → List ReadResult) : Decidable (s.Room input len reads) :=
  inferInstanceAs (Decidable (_ ∧ _))

instance (s : SubpStreams) (input : Option (List Byte)) (len : Int) :
    Decidable (s.HasData input len) :=
  inferInstanceAs (Decidable (_ ∨ _))

instance (s : SubpStreams) : (l : SubpStreamsLabel) → Decidable (s.Proper l)
  | .communicate input len reads _ =>
    inferInstanceAs (Decidable (s.Room input len reads ∧ s.HasData input len))
  | .communicateStr input reads _ =>
    inferInstanceAs (Decidable (input.length ≤ INT_MAX ∧ s.Room (some input) input.length reads ∧
      s.HasData (some input) input.length))

/-! ### When the caller is attended to -/

/-- Nothing is waiting, or the last `write` in the last call has been told to wait, or that there is
nobody to read. -/
def Waiting (s : SubpStreams) : Prop :=
  s.stdin.wbuffer.unread = [] ∨ s.lastWrite = some (.err .EAGAIN) ∨ s.lastWrite = some (.err .EPIPE)

/-- No byte of the input is forgotten. -/
structure Attended (s : SubpStreams) : Prop where
  goesOn : s.failed = false
  conserved : s.sent ++ s.stdin.wbuffer.unread = s.given
  waiting : s.Waiting

/-! ## A call

The invariant is that what has been accepted and what waits in `wbuffer` is what was given, in
order. -/

variable {s s' : SubpStreams} {l : SubpStreamsLabel} {input : Option (List Byte)} {len : Int}
  {reads : OutStream → List ReadResult} {writes : List WriteResult}

/-- What the buffers are like. -/
structure Inv (s : SubpStreams) : Prop where
  wf : s.stdin.wbuffer.Wf
  filled : ∀ x, (s.outputs x).rbuffer.Filled

/-- A `read_all` for which there is room, and one for which there is none. -/
theorem readAll_spec {str : Nstream} (hfilled : str.rbuffer.Filled) {answers : List ReadResult}
    (hanswers : GoesOnReading answers) :
    ((str.rbuffer.unread.length : Int) +
        Nstream.demand bufferIoStep (answers ++ [.err .EAGAIN]) ≤ 2 ^ 30 →
      ∃ str', readAll str answers = some str' ∧ str'.rbuffer.Filled) ∧
    (¬ (str.rbuffer.unread.length : Int) +
        Nstream.demand bufferIoStep (answers ++ [.err .EAGAIN]) ≤ 2 ^ 30 →
      readAll str answers = none) := by
  let io : StreamIO := ⟨str, answers ++ [.err .EAGAIN], [], []⟩
  have hfilled' : io.str.rbuffer.Filled := hfilled
  have hboth := Nstream.readAllInt_filled one_le_bufferIoStep hfilled'
    (by rw [Subprocess.deliver_again hanswers])
  constructor
  · intro hle
    obtain ⟨total, io', hout, hnext, -⟩ := hboth.1 hle
    exact ⟨io'.str, by rw [readAll, hout], hnext⟩
  · intro hgt
    rw [readAll, hboth.2 hgt]

/-- What comes after the last answer is `EAGAIN`. -/
theorem ofPipe_again (hwrites : ∀ r ∈ writes, r.OfPipe) :
    ∀ r ∈ writes ++ [.err .EAGAIN], r.OfPipe := by
  intro r hr
  rcases List.mem_append.mp hr with hr | hr
  · exact hwrites r hr
  · obtain rfl := List.mem_singleton.mp hr
    exact .inr (.inl rfl)

/-- None of the errors of a pipe makes `write_all` throw. -/
theorem ofErrno_ne_failed {err : Errno} (herr : (WriteResult.err err).OfPipe) (hne : err ≠ .EINTR)
    (failed : Errno) : Stop.ofErrno err ≠ .failed failed := by
  rcases herr with rfl | rfl | rfl
  · exact absurd rfl hne
  · nofun
  · nofun

/-- On a pipe, `write_all` returns, and what it has not written is waiting. -/
theorem writeAll_spec (hwf : s.stdin.wbuffer.Wf) (hwrites : ∀ r ∈ writes, r.OfPipe) :
    (s.writeAll writes).stdin.wbuffer.Wf ∧ (s.writeAll writes).outputs = s.outputs ∧
      (s.writeAll writes).failed = s.failed ∧
      (s.writeAll writes).sent ++ (s.writeAll writes).stdin.wbuffer.unread =
        s.sent ++ s.stdin.wbuffer.unread ∧
      (s.writeAll writes).Waiting := by
  have hpipe := ofPipe_again hwrites
  let io : StreamIO := ⟨s.stdin, [], writes ++ [.err .EAGAIN], []⟩
  have hwf' : io.str.wbuffer.Wf := hwf
  obtain ⟨hnext, used, xs, hused, hsent, hwrote, hthrown, -⟩ := Nstream.writeAll_wrote
    one_le_bufferIoStep hwf' (fun n hn => hpipe (.count n) hn) (by simp [io])
  -- the answers that have been used, of which the last one is noted
  have hlast : io.writes.take (io.writes.length -
      ((Nstream.writeAll bufferIoStep).exec io).2.writes.length) = used := by
    conv => lhs; rw [hused]
    rw [List.length_append, Nat.add_sub_cancel, List.take_left]
  cases hresult : ((Nstream.writeAll bufferIoStep).exec io).1 with
  | error e =>
      obtain ⟨err, failed, hmem, hne, hstop⟩ := hthrown e hresult
      -- a pipe gives no answer that throws
      exact absurd hstop (ofErrno_ne_failed (hpipe _ hmem) hne failed)
  | ok v =>
      have heq : s.writeAll writes = { s with
          stdin := ((Nstream.writeAll bufferIoStep).exec io).2.str
          lastWrite := used.getLast?
          sent := s.sent ++ ((Nstream.writeAll bufferIoStep).exec io).2.sent.flatten } := by
        simp only [writeAll, hresult, ← hlast, io]
      rw [heq]
      refine ⟨hnext, rfl, rfl, ?_, ?_⟩
      · simp only [hsent, List.append_assoc]
        show s.sent ++ (([] ++ xs).flatten ++ _) = _
        rw [List.nil_append, hwrote.bytes]
      · obtain ⟨-, hend⟩ := hwrote.returned v hresult
        rcases hend with hnil | hagain | ⟨hpipe, -⟩ | ⟨hreset, -⟩
        · exact .inl hnil
        · exact .inr (.inl hagain)
        · exact .inr (.inr hpipe)
        · -- nor one that resets
          have hmem : .err .ECONNRESET ∈ io.writes := by
            rw [hused]
            exact List.mem_append_left _ (List.mem_of_getLast? hreset)
          rcases hpipe _ hmem with h | h | h <;> cases h

/-- A negative length appends nothing. -/
theorem produce_spec {b : Buffer} (h : b.Wf) {ptr : List Byte} {len : Int} (hlen : len ≤ ptr.length) :
    (b.produce ptr len).Wf ∧ (b.produce ptr len).unread = b.unread ++ ptr.take len.toNat := by
  by_cases h0 : 0 ≤ len
  · exact ⟨Buffer.wf_produce h h0 hlen, Buffer.unread_produce h h0 hlen⟩
  · have hle := h.offset_le
    have hsame : b.produce ptr len = b := by
      rw [Buffer.produce, Buffer.resize_of_le (by omega), forUpTo_of_le (by omega)]
    have hnone : len.toNat = 0 := by omega
    rw [hsame, hnone, List.take_zero, List.append_nil]
    exact ⟨h, rfl⟩

/-! ### What a call has done

`fine_iff` is the exact condition for a call to go well, `conserved` what becomes of the input. -/

/-- What a call does to the bytes given to it, if there is `room` to read. -/
structure Communicated (s : SubpStreams) (input : Option (List Byte)) (len : Int) (room : Prop)
    (s' : SubpStreams) : Prop where
  inv : s'.Inv
  fine_iff : s'.failed = false ∧ s'.Waiting ↔
    (room ∧ (input ≠ none → len ≠ 0 → s.stdin.wbuffer.InRange len)) ∧ s.HasData input len
  conserved : s'.failed = false → s'.sent ++ s'.stdin.wbuffer.unread =
    s.sent ++ s.stdin.wbuffer.unread ++ dataOf input len

/-- A call without room ends the program. -/
theorem Communicated.of_failed {room : Prop} (hinv : s'.Inv) (hfailed : s'.failed = true)
    (hroom : ¬ (room ∧ (input ≠ none → len ≠ 0 → s.stdin.wbuffer.InRange len))) :
    s.Communicated input len room s' := by
  have hnot : s'.failed ≠ false := by simp [hfailed]
  exact ⟨hinv, iff_of_false (fun h => hnot h.1) fun h => hroom h.1, fun h => absurd h hnot⟩

/-- Without data, nothing is written. -/
theorem Communicated.of_empty (hs : s.Inv) (hgoes : s.failed = false) (hnone : s.lastWrite = none)
    (hempty : input = none ∨ len = 0) : s.Communicated input len True s := by
  refine ⟨hs, ?_, fun _ => ?_⟩
  · have hroom : input ≠ none → len ≠ 0 → s.stdin.wbuffer.InRange len := fun hinput hlen =>
      absurd hempty (not_or.mpr ⟨hinput, hlen⟩)
    have hdata : s.HasData input len ↔ s.stdin.wbuffer.unread = [] :=
      or_iff_right fun h => absurd hempty (not_or.mpr h)
    rw [hdata]
    exact ⟨fun h => ⟨⟨trivial, hroom⟩, by simpa [Waiting, hnone] using h.2⟩,
      fun h => ⟨hgoes, .inl h.2⟩⟩
  · have hnil : dataOf input len = [] := by
      rcases hempty with rfl | rfl <;> simp [dataOf]
    rw [hnil, List.append_nil]

theorem communicated_give (hs : s.Inv) (hgoes : s.failed = false) (hnone : s.lastWrite = none)
    (hwrites : ∀ r ∈ writes, r.OfPipe) (hlen : len ≤ (input.getD []).length) :
    s.Communicated input len True (s.give input len writes) := by
  cases input with
  | none => exact .of_empty hs hgoes hnone (.inl rfl)
  | some input =>
      replace hlen : len ≤ input.length := hlen
      by_cases hzero : len = 0
      · simp only [give, if_pos hzero]
        exact .of_empty hs hgoes hnone (.inr hzero)
      · by_cases hroom : s.stdin.wbuffer.InRange len
        · simp only [give, if_neg hzero, if_pos hroom]
          obtain ⟨hwf, hunread⟩ := produce_spec hs.wf hlen
          obtain ⟨hwf', houtputs, hfailed, hconserved, hwaiting⟩ := writeAll_spec
            (s := { s with stdin := { s.stdin with wbuffer := s.stdin.wbuffer.produce input len } })
            hwf hwrites
          refine ⟨⟨hwf', ?_⟩, ?_, fun _ => ?_⟩
          · rw [houtputs]
            exact hs.filled
          · exact iff_of_true ⟨hfailed.trans hgoes, hwaiting⟩
              ⟨⟨trivial, fun _ _ => hroom⟩, .inl ⟨nofun, hzero⟩⟩
          · rw [hconserved, hunread, ← List.append_assoc]
            rfl
        · simp only [give, if_neg hzero, if_neg hroom]
          refine .of_failed ⟨hs.wf, hs.filled⟩ rfl fun h => ?_
          exact hroom (h.2 nofun hzero)

/-- The whole call: two reads, and then the input. -/
theorem communicated (hs : s.Inv) (hgoes : s.failed = false) (hanswers : Answers reads writes)
    (hlen : len ≤ (input.getD []).length) :
    s.Communicated input len (s.RoomToRead reads) (s.communicate input len reads writes) := by
  obtain ⟨⟨hgoesOut, hgoesErr⟩, hwrites⟩ := hanswers
  have hout := readAll_spec (hs.filled .out) hgoesOut
  have herr := readAll_spec (hs.filled .err) hgoesErr
  by_cases hroom : s.RoomToRead reads
  · obtain ⟨out, hout, hfout⟩ := hout.1 (hroom .out)
    obtain ⟨err, herr, hferr⟩ := herr.1 (hroom .err)
    have hread := communicated_give (s := { s with
      lastWrite := none
      outputs := fun x => match x with
        | .out => out
        | .err => err }) ⟨hs.wf, fun x => by cases x <;> assumption⟩ hgoes rfl hwrites hlen
    simp only [communicate, hout, herr]
    refine ⟨hread.inv, ?_, hread.conserved⟩
    rw [hread.fine_iff]
    exact and_congr_left' (and_congr_left' (iff_of_true trivial hroom))
  · have hnone : readAll (s.outputs .out) (reads .out) = none ∨
        readAll (s.outputs .err) (reads .err) = none := by
      by_contra hboth
      obtain ⟨hout', herr'⟩ := not_or.mp hboth
      refine hroom fun x => ?_
      cases x with
      | out => exact not_not.mp (mt hout.2 hout')
      | err => exact not_not.mp (mt herr.2 herr')
    have heq : s.communicate input len reads writes =
        { s with lastWrite := none, failed := true } := by
      unfold communicate
      rcases hnone with hnone | hnone
      · simp only [hnone]
      · cases h : readAll (s.outputs .out) (reads .out) <;> simp only [hnone, h]
    rw [heq]
    exact .of_failed ⟨hs.wf, hs.filled⟩ rfl fun h => hroom h.1

/-! ## The theorem

Whether a call with no input does anything for bytes that wait: it does not try. So they are
attended to when the calls bring data. -/

/-- The length of an input as an `int`. -/
theorem toInt_le (n : Nat) : toInt n ≤ n ∧ toInt n ≤ INT_MAX := by
  simp only [toInt, INT_MAX, Int.bmod_def]
  omega

theorem Inv.given (hs : s.Inv) (given : List Byte) : ({ s with given := given } : SubpStreams).Inv :=
  ⟨hs.wf, hs.filled⟩

/-- A call that is right about how much it has been given. -/
theorem Communicated.attended {room : Prop} (hcall : s.Communicated input len room s')
    (h : s.Attended) : ((room ∧ (input ≠ none → len ≠ 0 → s.stdin.wbuffer.InRange len)) ∧
      s.HasData input len) ↔
        ({ s' with given := s.given ++ dataOf input len } : SubpStreams).Attended := by
  rw [← hcall.fine_iff]
  constructor
  · rintro ⟨hfine, hwaiting⟩
    exact ⟨hfine, by rw [hcall.conserved hfine, h.conserved], hwaiting⟩
  · exact fun h' => ⟨h'.goesOn, h'.waiting⟩

/-- What a step does. -/
theorem Attended.step (h : s.Attended) (hs : s.Inv) (hstep : step s l = some s') :
    s'.Inv ∧ (s.Proper l ↔ s'.Attended) := by
  have hgoes := h.goesOn
  unfold SubpStreams.step at hstep
  rw [if_neg (by simp [hgoes])] at hstep
  cases l with
  | communicate input len reads writes =>
      simp only at hstep
      split at hstep
      case isFalse => cases hstep
      case isTrue hpossible =>
        obtain rfl := Option.some.inj hstep
        have hcall := communicated hs hgoes hpossible.1 hpossible.2
        exact ⟨hcall.inv.given _, hcall.attended h⟩
  | communicateStr input reads writes =>
      simp only at hstep
      split at hstep
      case isFalse => cases hstep
      case isTrue hpossible =>
        obtain rfl := Option.some.inj hstep
        obtain ⟨hle, hmax⟩ := toInt_le input.length
        have hfits : toInt input.length ≤ ((some input).getD []).length := hle
        have hcall := communicated hs hgoes hpossible hfits
        refine ⟨hcall.inv.given _, ?_⟩
        by_cases hshort : (input.length : Int) ≤ INT_MAX
        · -- the length is the same as an `int`
          have hint : toInt input.length = input.length :=
            toInt_natCast (by rw [INT_MAX] at hshort; omega)
          have hdata : dataOf (some input) input.length = input := by simp [dataOf]
          rw [hint] at hcall ⊢
          have hattended := hcall.attended h
          rw [hdata] at hattended
          exact (and_iff_right hshort).trans hattended
        · -- some of it is not even copied
          refine iff_of_false (fun h' => hshort h'.1) fun h' => ?_
          have hconserved := (hcall.conserved h'.goesOn).symm.trans h'.conserved
          rw [h.conserved] at hconserved
          have hlen := congrArg List.length (List.append_cancel_left hconserved)
          simp only [dataOf, Option.getD_some, List.length_take] at hlen
          rw [INT_MAX] at hmax hshort
          omega

/-- **The input is not forgotten.** Every call in a run has data, and room for it, or comes when
nothing is waiting, if and only if after every call of the run, all of the input has been written or
is in the buffer, and what is in the buffer waits for the child. -/
theorem attended_iff (stdin stdout stderr : Int) (ls : List SubpStreamsLabel) (s : SubpStreams)
    (hrun : run step (init stdin stdout stderr) ls = some s) :
    AllSteps step Proper (init stdin stdout stderr) ls ↔
      ∀ ls' t, ls' <+: ls → run step (init stdin stdout stderr) ls' = some t → t.Attended := by
  have hinit : (init stdin stdout stderr).Inv :=
    ⟨Buffer.wf_empty, fun x => by cases x <;> exact Buffer.filled_empty⟩
  exact allSteps_iff_reached (fun s l s' hs h hstep => (h.step hs hstep).1)
    (fun s l s' hs h hstep => (h.step hs hstep).2) hinit ⟨rfl, rfl, .inl rfl⟩ hrun

/-- Seven bytes for a pipe that takes four at first, and three more with the next input. -/
def twoInputs : List SubpStreamsLabel :=
  [.communicateStr [104, 101, 108, 108, 111, 44, 32] (fun _ => []) [.count 4],
    .communicate (some [119, 10]) 2 (fun _ => [.bytes [62], .err .EINTR]) [.count 3, .err .EINTR]]

/-- Two inputs, of which the pipe takes the first. -/
theorem attended_iff_twoInputs : ∃ s, run step (init 5 7 9) twoInputs = some s ∧ s.Attended ∧
    s.stdin.wbuffer.unread = [119, 10] := by
  have hok : AllSteps step Proper (init 5 7 9) twoInputs := by decide +kernel
  have hunread : (run step (init 5 7 9) twoInputs).map (fun s => s.stdin.wbuffer.unread) =
      some [119, 10] := by
    decide +kernel
  obtain ⟨s, hs, hs'⟩ := Option.map_eq_some_iff.mp hunread
  exact ⟨s, hs, (attended_iff 5 7 9 twoInputs s hs).mp hok twoInputs s List.prefix_rfl hs, hs'⟩

/-- There is room in the pipe again, but a call without data does not try. -/
theorem input_forgotten : ¬ ∀ (ls : List SubpStreamsLabel) (s : SubpStreams),
    run step (init 5 7 9) ls = some s → s.Waiting := by
  intro h
  have hobs : (run step (init 5 7 9) [.communicateStr [104, 105] (fun _ => []) [.count 1],
      .communicate none 0 (fun _ => []) [.count 1]]).map
      (fun s => (s.stdin.wbuffer.unread, s.lastWrite)) = some ([105], none) := by
    decide +kernel
  obtain ⟨s, hs, hs'⟩ := Option.map_eq_some_iff.mp hobs
  obtain ⟨hunread, hlast⟩ := Prod.mk.inj hs'
  have hwaiting := h _ s hs
  simp [Waiting, hunread, hlast] at hwaiting

end SubpStreams

end Cppev
