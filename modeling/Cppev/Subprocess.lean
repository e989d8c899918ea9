import Mathlib.Data.List.Infix
import Cppev.Lib.Transition
import Cppev.Nio.ReadAll

/-!
# Waiting for a subprocess

`subp_open::wait` against the child and the two pipes. The child writes its output byte by byte, and
is blocked while the pipe is full; it may exit at any time. The parent polls, and reads each pipe
until there is no more for now. It has the write ends of the pipes open, too, so that it never comes
to the end of a file.

* `Piped`: what has been read, and what is in the pipe, is what has been written.
* `captured_iff`: when `wait` returns, all of the output is in the read buffers, if and only if the
  last `read_all` can make room for one step behind it, within `int`.
-/

namespace Cppev

/-! ## A buffer that is only filled

Nothing is consumed from the buffers of `stdout` and `stderr` while `wait` runs. Then the room that
a `read_all` asks for, and whether the sum is an `int`, can be told from the number of bytes. -/

/-- Nothing has been taken out, and the capacity has been doubled only. -/
structure Buffer.Filled (b : Buffer) : Prop where
  wf : b.Wf
  start : b.start = 0
  pow : ∃ j : Nat, b.cap = 2 ^ j
  cap_le : b.cap ≤ INT_MAX

theorem Buffer.filled_empty : Buffer.empty.Filled :=
  ⟨wf_empty, rfl, ⟨0, rfl⟩, by decide⟩

/-- In a buffer that begins at zero `offset_` is the number of bytes. -/
theorem Buffer.Filled.offset_eq {b : Buffer} (h : b.Filled) : b.offset = b.unread.length := by
  have hlen := length_unread h.wf
  have hstart := h.start
  simp only [size] at hlen
  omega

namespace Nstream

/-- A `read_all` asks for one step more than it gets, at most. -/
theorem demand_le {step : Int} (hstep : 1 ≤ step) (script : List ReadResult) :
    demand step script ≤ (deliver script).bytes.length + step := by
  have hq := Int.ediv_mul_le ((deliver script).bytes.length : Int) (by omega : step ≠ 0)
  unfold demand
  rw [Int.add_mul, Int.one_mul]
  omega

/-- What a `read` puts there comes after the rest. -/
theorem filled_received {b : Buffer} (h : b.Filled) {len : Int} (hroom : b.InRange len)
    {bs : List Byte} (hlen : (bs.length : Int) ≤ len) : (received b len bs).Filled := by
  obtain ⟨hwf, hstart, ⟨j, hj⟩, -⟩ := h
  refine ⟨(wf_received hwf hlen).1, ?_, ?_, ?_⟩
  · exact (Buffer.start_resize b _).trans hstart
  · obtain ⟨i, hi⟩ := Buffer.cap_resize_eq_pow hwf.cap_pos (b.offset + len)
    refine ⟨j + i, ?_⟩
    show (b.resize (b.offset + len)).cap = _
    rw [hi, hj, pow_add]
  · exact hroom.2 _ (Buffer.cap_resize_mem b _)

/-- Each round adds to the end, so that the buffer stays one that is only filled. -/
theorem filled_readAllIntLoop {step : Int} (hstep : 1 ≤ step) {n : Nat} {total : Int}
    {io : StreamIO} {out : Except Exn Int × StreamIO} (h : io.str.rbuffer.Filled)
    (hout : readAllIntLoop step n total io = some out) : out.2.str.rbuffer.Filled := by
  -- on the chunks
  induction n generalizing total io with
  | zero => exact Option.some.inj hout ▸ h
  | succ n ih =>
      simp only [readAllIntLoop] at hout
      split at hout
      case isFalse => cases hout
      case isTrue hroom =>
        obtain ⟨bs, rest, hchunk⟩ := readChunk_spec (by omega : 0 ≤ step) io
        rcases hchunk with hchunk | ⟨halt, hchunk⟩
        · have hnext := filled_received h hroom (Int.le_of_eq hchunk.full)
          rw [hchunk.exec_eq] at hout
          simp only at hout
          split at hout
          case isTrue => cases hout
          case isFalse =>
            rw [if_neg (by simp)] at hout
            exact ih hnext hout
        · have hnext := filled_received h hroom (Int.le_of_lt hchunk.lt_step)
          have hne := hchunk.lt_step
          rw [hchunk.exec_eq] at hout
          cases hthrown : readThrown halt with
          | error e =>
              rw [hthrown] at hout
              exact Option.some.inj hout ▸ hnext
          | ok u =>
              rw [hthrown] at hout
              simp only [Except.map] at hout
              split at hout
              case isTrue => cases hout
              case isFalse =>
                rw [if_pos (by omega)] at hout
                exact Option.some.inj hout ▸ hnext

/-- `read_all` into such a buffer, until there is no more for now. -/
theorem readAllInt_filled {step : Int} (hstep : 1 ≤ step) {io : StreamIO}
    (h : io.str.rbuffer.Filled) (hhalt : (deliver io.reads).halt = .blocked) :
    ((io.str.rbuffer.unread.length : Int) + demand step io.reads ≤ 2 ^ 30 →
      ∃ total io', readAllInt step io = some (.ok total, io') ∧ io'.str.rbuffer.Filled ∧
        io'.str.rbuffer.unread = io.str.rbuffer.unread ++ (deliver io.reads).bytes) ∧
    (¬ (io.str.rbuffer.unread.length : Int) + demand step io.reads ≤ 2 ^ 30 →
      readAllInt step io = none) := by
  obtain ⟨j, hj⟩ := h.pow
  have hsome := readAllIntLoop_isSome hstep (readable io.reads + 1) 0 h.wf (by omega)
    (h.wf.start_nonneg.trans h.wf.start_le)
  rw [← Buffer.grows_iff_of_pos h.wf.cap_pos, Buffer.grows_iff_of_pow hj h.cap_le,
    h.offset_eq] at hsome
  constructor
  · intro hle
    obtain ⟨out, hout⟩ := Option.isSome_iff_exists.mp (hsome.mpr hle)
    have hreads : ReadsAll io out := by
      rw [← readAllInt_eq hout]
      exact readsAll_exec hstep h.wf
    have hfilled := filled_readAllIntLoop hstep h hout
    obtain ⟨r, io'⟩ := out
    have hr : r = .ok ((deliver io.reads).bytes.length : Int) := by
      have hresult := hreads.result
      rw [hhalt] at hresult
      exact hresult
    subst hr
    exact ⟨_, io', hout, hfilled, hreads.unread⟩
  · intro hgt
    exact Option.not_isSome_iff_eq_none.mp fun hs => hgt (hsome.mp hs)

end Nstream

/-! ## The parent and the child

The child is a list of bytes to be written, each to one of its streams, in any order it likes. The
parent is `wait`, with its place in it. -/

/-- The two streams of the child. -/
inductive OutStream where
  | out | err
  deriving DecidableEq, Repr

/-- Where the parent is in `wait`. -/
inductive WaitPc where
  /-- At `while (!poll())`. -/
  | poll
  /-- In `communicate`, in the `read_all` of `x`, and what `read` has answered so far. `last` is
  what `poll` has returned: whether this is the call behind the loop. -/
  | reading (x : OutStream) (last : Bool) (answers : List ReadResult)
  | sleeping
  | returned
  /-- `read_all` has thrown, or has come to a signed overflow. -/
  | failed
  deriving DecidableEq, Repr

/-- The parent, the pipes and the child; `written` is the history, and `todo` is what the child is
going to write. -/
structure Subprocess where
  /-- What the child is still to write. -/
  todo : List (OutStream × Byte)
  exited : Bool
  pipes : OutStream → List Byte
  /-- `stdout_` and `stderr_`. -/
  streams : OutStream → Nstream
  pc : WaitPc
  /-- The history: what the child has written. -/
  written : OutStream → List Byte

/-- The child writes or exits; the parent goes on with what a `read` answers. -/
inductive SubprocessLabel where
  | write | exit | poll
  /-- What `read` answers. -/
  | read (r : ReadResult)
  | wake
  deriving DecidableEq, Repr

namespace Subprocess

/-! ## The steps

A `read` that is not the last one of its `read_all` is only noted. The `read_all` is computed with
the one that is, since only then is it known how much has come. -/

/-- Where the parent goes after a `read_all`. -/
def afterRead (x : OutStream) (last : Bool) : WaitPc :=
  match x with
  | .out => .reading .err last []
  | .err => if last then .returned else .sleeping

/-- `read_all` of `x` is through. -/
def readAll (s : Subprocess) (x : OutStream) (last : Bool) (answers : List ReadResult) :
    Subprocess :=
  match Nstream.readAllInt bufferIoStep ⟨s.streams x, answers, [], []⟩ with
  | some (.ok _, io) =>
    { s with streams := Function.update s.streams x io.str, pc := afterRead x last }
  | _ => { s with pc := .failed }

/-- A `read` in `read_all`, of what is left of the chunk, from a pipe that does not block. -/
def read (s : Subprocess) (x : OutStream) (last : Bool) (answers : List ReadResult) :
    ReadResult → Option Subprocess
  | .bytes bs =>
    if bs ≠ [] ∧ bs <+: s.pipes x ∧
        (bs.length : Int) ≤ bufferIoStep - Nstream.readable answers % bufferIoStep then
      some { s with
        pipes := Function.update s.pipes x ((s.pipes x).drop bs.length)
        pc := .reading x last (answers ++ [.bytes bs]) }
    else none
  | .err .EINTR => some { s with pc := .reading x last (answers ++ [.err .EINTR]) }
  | .err .EAGAIN =>
    if s.pipes x = [] then some (s.readAll x last (answers ++ [.err .EAGAIN])) else none
  | .err _ => none

/-- The child writes a byte, if the pipe has room for it. -/
def write (s : Subprocess) (capacity : Nat) : Option Subprocess :=
  match s.todo with
  | [] => none
  | (x, b) :: todo =>
    if s.exited = false ∧ (s.pipes x).length < capacity then
      some { s with
        todo := todo
        pipes := Function.update s.pipes x (s.pipes x ++ [b])
        written := Function.update s.written x (s.written x ++ [b]) }
    else none

def step (capacity : Nat) (s : Subprocess) : SubprocessLabel → Option Subprocess
  | .write => s.write capacity
  | .exit => if s.exited = false then some { s with exited := true } else none
  | .poll => if s.pc = .poll then some { s with pc := .reading .out s.exited [] } else none
  | .read r =>
    match s.pc with
    | .reading x last answers => s.read x last answers r
    | _ => none
  | .wake => if s.pc = .sleeping then some { s with pc := .poll } else none

/-- `wait` is called, on a subprocess that is to write `todo`. -/
def init (fds : OutStream → Int) (todo : List (OutStream × Byte)) : Subprocess where
  todo := todo
  exited := false
  pipes := fun _ => []
  streams := fun x => Nstream.new (fds x)
  pc := .poll
  written := fun _ => []

/-- What of the output goes to `x`. -/
def outputOf (x : OutStream) (todo : List (OutStream × Byte)) : List Byte :=
  (todo.filter fun w => w.1 = x).map Prod.snd

/-! ## A step

`Moved` is the list of what can happen, guards included. The invariants below are proved from it and
do not open `step` again. -/

variable {todo₀ : List (OutStream × Byte)} {capacity : Nat} {s s' : Subprocess}
  {x : OutStream} {last : Bool} {answers : List ReadResult}

/-- Everything that a step can do, but for how much a `read` may answer. -/
inductive Moved (capacity : Nat) (s : Subprocess) : Subprocess → Prop
  | write {x : OutStream} {b : Byte} {todo : List (OutStream × Byte)}
      (htodo : s.todo = (x, b) :: todo) (hrunning : s.exited = false)
      (hroom : (s.pipes x).length < capacity) :
      Moved capacity s { s with
        todo := todo
        pipes := Function.update s.pipes x (s.pipes x ++ [b])
        written := Function.update s.written x (s.written x ++ [b]) }
  | exit (hrunning : s.exited = false) : Moved capacity s { s with exited := true }
  | poll (hpc : s.pc = .poll) : Moved capacity s { s with pc := .reading .out s.exited [] }
  | answer {x : OutStream} {last : Bool} {answers : List ReadResult} {r : ReadResult}
      {bs rest : List Byte} (hpc : s.pc = .reading x last answers) (hr : r.goesOn = some bs)
      (hpipe : s.pipes x = bs ++ rest) :
      Moved capacity s { s with
        pipes := Function.update s.pipes x rest, pc := .reading x last (answers ++ [r]) }
  | again {x : OutStream} {last : Bool} {answers : List ReadResult}
      (hpc : s.pc = .reading x last answers) (hempty : s.pipes x = []) :
      Moved capacity s (s.readAll x last (answers ++ [.err .EAGAIN]))
  | wake (hpc : s.pc = .sleeping) : Moved capacity s { s with pc := .poll }

/-- What a `read` of the parent leads to. -/
theorem moved_of_read (hpc : s.pc = .reading x last answers) {r : ReadResult}
    (hs : s.read x last answers r = some s') : Moved capacity s s' := by
  cases r with
  | bytes bs =>
      simp only [Subprocess.read] at hs
      split at hs
      case isFalse => cases hs
      case isTrue hbs =>
        cases hs
        obtain ⟨hne, ⟨rest, hrest⟩, -⟩ := hbs
        rw [← hrest, List.drop_left]
        refine .answer hpc ?_ hrest.symm
        cases bs with
        | nil => exact (hne rfl).elim
        | cons b bs => rfl
  | err e =>
      cases e with
      | EINTR =>
          cases hs
          -- nothing is taken from the pipe
          have hsame : Moved capacity s _ :=
            .answer hpc (r := .err .EINTR) rfl (List.nil_append _).symm
          rwa [Function.update_eq_self] at hsame
      | EAGAIN =>
          simp only [Subprocess.read] at hs
          split at hs
          case isFalse => cases hs
          case isTrue hempty =>
            cases hs
            exact .again hpc hempty
      | _ => cases hs

theorem moved_of_step {l : SubprocessLabel} (hs : step capacity s l = some s') :
    Moved capacity s s' := by
  cases l with
  | write =>
      simp only [step, write] at hs
      split at hs
      case h_1 => cases hs
      case h_2 htodo =>
        split at hs
        case isFalse => cases hs
        case isTrue hroom =>
          cases hs
          -- the child goes on when there is room in the pipe
          exact .write htodo hroom.1 hroom.2
  | exit =>
      simp only [step] at hs
      split at hs
      case isFalse => cases hs
      case isTrue hrunning =>
        cases hs
        exact .exit hrunning
  | poll =>
      simp only [step] at hs
      split at hs
      case isFalse => cases hs
      case isTrue hpc =>
        cases hs
        exact .poll hpc
  | read r =>
      simp only [step] at hs
      split at hs
      case h_1 hpc => exact moved_of_read hpc hs
      case h_2 => cases hs
  | wake =>
      simp only [step] at hs
      split at hs
      case isFalse => cases hs
      case isTrue hpc =>
        cases hs
        exact .wake hpc

/-! ## What is read is what was written

The invariant (`Piped`): of each stream, what has been read, what has been noted of the `read_all`
that is going on, and what is in the pipe is together what has been written. -/

/-- What the `read_all` that is on has read from `x`. -/
def received (x : OutStream) : WaitPc → List Byte
  | .reading y _ answers => if y = x then (deliver answers).bytes else []
  | _ => []

/-- The parent knows that the child has exited. -/
def SeenExit : WaitPc → Prop
  | .reading _ last _ => last = true
  | .returned => True
  | _ => False

/-- The parent has read `x` since. -/
def Drained (x : OutStream) : WaitPc → Prop
  | .reading .err last _ => x = .out ∧ last = true
  | .returned => True
  | _ => False

/-- No answer has ended the `read_all`. -/
def GoesOn : WaitPc → Prop
  | .reading _ _ answers => ∀ r ∈ answers, r.goesOn ≠ none
  | _ => True

structure Piped (todo₀ : List (OutStream × Byte)) (s : Subprocess) : Prop where
  filled : ∀ x, (s.streams x).rbuffer.Filled
  conserved : ∀ x, s.written x = (s.streams x).rbuffer.unread ++ received x s.pc ++ s.pipes x
  output : ∀ x, s.written x ++ outputOf x s.todo = outputOf x todo₀
  goesOn : GoesOn s.pc
  exited : SeenExit s.pc → s.exited = true
  drained : ∀ x, Drained x s.pc → s.pipes x = []

/-- A stream is drained for good only when the child has been seen to have exited. -/
theorem seenExit_of_drained {pc : WaitPc} (h : Drained x pc) : SeenExit pc := by
  cases pc with
  | reading y last answers =>
      cases y with
      | out => exact h.elim
      | err => exact h.2
  | returned => trivial
  | _ => exact h.elim

/-! ### The child's steps -/

/-- The child writes a byte: one more at the end of a pipe, and of the history. -/
theorem Piped.write (h : Piped todo₀ s) {b : Byte} {todo : List (OutStream × Byte)}
    (htodo : s.todo = (x, b) :: todo) (hrunning : s.exited = false) :
    Piped todo₀ { s with
      todo := todo
      pipes := Function.update s.pipes x (s.pipes x ++ [b])
      written := Function.update s.written x (s.written x ++ [b]) } := by
  refine ⟨h.filled, fun y => ?_, fun y => ?_, h.goesOn, h.exited, fun y hy => ?_⟩
  · have hold := h.conserved y
    by_cases hyx : y = x
    · subst hyx
      simp [hold]
    · simpa [hyx] using hold
  · have hold := h.output y
    rw [htodo] at hold
    by_cases hyx : y = x
    · subst hyx
      simpa [outputOf] using hold
    · simpa [outputOf, hyx, Ne.symm hyx] using hold
  · -- the child has not exited, so the parent is not behind the loop
    have hexited := h.exited (seenExit_of_drained hy)
    rw [hrunning] at hexited
    cases hexited

/-- No `read` so far has found the pipe empty. -/
theorem Piped.goes (h : Piped todo₀ s) (hpc : s.pc = .reading x last answers) :
    ∀ r ∈ answers, r.goesOn ≠ none := by
  have hold := h.goesOn
  rwa [hpc] at hold

/-- A `read` that is not the last one has taken `bs` from the pipe. -/
theorem Piped.answer (h : Piped todo₀ s) (hpc : s.pc = .reading x last answers) {r : ReadResult}
    {bs rest : List Byte} (hr : r.goesOn = some bs) (hpipe : s.pipes x = bs ++ rest) :
    Piped todo₀ { s with
      pipes := Function.update s.pipes x rest, pc := .reading x last (answers ++ [r]) } := by
  have hgoes := h.goes hpc
  have hbytes : (deliver (answers ++ [r])).bytes = (deliver answers).bytes ++ bs := by
    rw [deliver_append hgoes, deliver_goesOn hr]
    simp [Delivery.after, deliver]
  refine ⟨h.filled, fun y => ?_, h.output, ?_, ?_, fun y hy => ?_⟩
  · have hold := h.conserved y
    rw [hpc] at hold
    by_cases hyx : x = y
    · subst hyx
      simpa [received, hbytes, hpipe] using hold
    · simpa [received, hyx, Ne.symm hyx] using hold
  · intro q hq
    rcases List.mem_append.mp hq with hq | hq
    · exact hgoes q hq
    · obtain rfl := List.mem_singleton.mp hq
      simp [hr]
  · have hold := h.exited
    rwa [hpc] at hold
  · have hold := h.drained y
    rw [hpc] at hold
    have hy' : Drained y (.reading x last answers) := by
      cases x <;> exact hy
    have hnil := hold hy'
    by_cases hyx : y = x
    · subst hyx
      rw [hpipe] at hnil
      simpa using (List.append_eq_nil_iff.mp hnil).2
    · simpa [hyx] using hnil

/-! ### A `read_all` -/

/-- The room that the `read_all` of `x` needs, the bytes it has before included. -/
def roomOf (s : Subprocess) (x : OutStream) (answers : List ReadResult) : Int :=
  (s.streams x).rbuffer.unread.length +
    Nstream.demand bufferIoStep (answers ++ [.err .EAGAIN])

/-- A `read_all` that ends with `EAGAIN` has delivered what came before. -/
theorem deliver_again (h : ∀ r ∈ answers, r.goesOn ≠ none) :
    deliver (answers ++ [.err .EAGAIN]) = ⟨(deliver answers).bytes, [], .blocked⟩ :=
  deliver_last h rfl

/-- A `read_all` for which there is room. -/
theorem readAll_of_le (h : Piped todo₀ s) (hpc : s.pc = .reading x last answers)
    (hle : s.roomOf x answers ≤ 2 ^ 30) :
    ∃ str : Nstream, str.rbuffer.Filled ∧
      str.rbuffer.unread = (s.streams x).rbuffer.unread ++ (deliver answers).bytes ∧
      s.readAll x last (answers ++ [.err .EAGAIN]) =
        { s with streams := Function.update s.streams x str, pc := afterRead x last } := by
  have hdeliver := deliver_again (h.goes hpc)
  let io : StreamIO := ⟨s.streams x, answers ++ [.err .EAGAIN], [], []⟩
  have hfilled : io.str.rbuffer.Filled := h.filled x
  obtain ⟨total, io, hout, hfilled, hunread⟩ :=
    (Nstream.readAllInt_filled one_le_bufferIoStep hfilled (by rw [hdeliver])).1 hle
  rw [hdeliver] at hunread
  refine ⟨io.str, hfilled, hunread, ?_⟩
  rw [readAll, hout]

/-- A `read_all` for which there is no room has no result, and `wait` does not go on. -/
theorem readAll_of_not_le (h : Piped todo₀ s) (hpc : s.pc = .reading x last answers)
    (hgt : ¬ s.roomOf x answers ≤ 2 ^ 30) :
    (s.readAll x last (answers ++ [.err .EAGAIN])).pc = .failed := by
  let io : StreamIO := ⟨s.streams x, answers ++ [.err .EAGAIN], [], []⟩
  have hfilled : io.str.rbuffer.Filled := h.filled x
  have hnone := (Nstream.readAllInt_filled one_le_bufferIoStep hfilled
    (by rw [deliver_again (h.goes hpc)])).2 hgt
  rw [readAll, hnone]

/-- The end of a `read_all`. -/
theorem Piped.readAll (h : Piped todo₀ s) (hpc : s.pc = .reading x last answers)
    (hempty : s.pipes x = []) {str : Nstream} (hfilled : str.rbuffer.Filled)
    (hunread : str.rbuffer.unread = (s.streams x).rbuffer.unread ++ (deliver answers).bytes) :
    Piped todo₀
      { s with streams := Function.update s.streams x str, pc := afterRead x last } := by
  have hexited := h.exited
  have hdrained := h.drained
  rw [hpc] at hexited hdrained
  -- what comes next has not answered yet
  have hnone : ∀ y, received y (afterRead x last) = [] := by
    intro y
    cases x with
    | out => simp [afterRead, received, deliver]
    | err => cases last <;> rfl
  refine ⟨fun y => ?_, fun y => ?_, h.output, ?_, ?_, ?_⟩
  · by_cases hyx : y = x
    · subst hyx
      simpa using hfilled
    · simpa [hyx] using h.filled y
  · -- what was in the answers is in the buffer of `x` now
    have hold := h.conserved y
    rw [hpc] at hold
    simp only [hnone, List.append_nil]
    by_cases hyx : y = x
    · subst hyx
      simpa [received, hunread] using hold
    · simpa [received, hyx, Ne.symm hyx] using hold
  · cases x with
    | out => exact fun _ hq => absurd hq List.not_mem_nil
    | err => cases last <;> trivial
  · cases x with
    | out => exact hexited
    | err =>
        cases last with
        | false => exact False.elim
        | true => exact fun _ => hexited rfl
  · intro y hy
    cases x with
    | out =>
        obtain ⟨rfl, -⟩ := hy
        exact hempty
    | err =>
        cases last with
        | false => exact hy.elim
        | true =>
            cases y with
            | out => exact hdrained .out ⟨rfl, rfl⟩
            | err => exact hempty

/-! ### All steps -/

/-- A step leads to such a state, unless a `read_all` fails. -/
theorem Piped.step (h : Piped todo₀ s) {l : SubprocessLabel} (hs : step capacity s l = some s') :
    s'.pc = .failed ∨ Piped todo₀ s' := by
  cases moved_of_step hs with
  | write htodo hrunning => exact .inr (h.write htodo hrunning)
  | exit =>
      exact .inr ⟨h.filled, h.conserved, h.output, h.goesOn, fun _ => rfl, h.drained⟩
  | poll hpc =>
      have hconserved := h.conserved
      rw [hpc] at hconserved
      refine .inr ⟨h.filled, fun x => ?_, h.output, fun _ hq => absurd hq List.not_mem_nil,
        fun hexited => hexited, fun x hx => hx.elim⟩
      simpa [received, deliver] using hconserved x
  | answer hpc hr hpipe => exact .inr (h.answer hpc hr hpipe)
  | @again x last answers hpc hempty =>
      -- the pipe is empty, so `read_all` runs on what the answers have delivered
      by_cases hle : s.roomOf x answers ≤ 2 ^ 30
      · obtain ⟨str, hfilled, hunread, heq⟩ := readAll_of_le h hpc hle
        rw [heq]
        exact .inr (h.readAll hpc hempty hfilled hunread)
      · exact .inl (readAll_of_not_le h hpc hle)
  | wake hpc =>
      have hconserved := h.conserved
      rw [hpc] at hconserved
      exact .inr ⟨h.filled, hconserved, h.output, trivial, False.elim, fun _ hx => hx.elim⟩

theorem piped_init (fds : OutStream → Int) (todo : List (OutStream × Byte)) :
    Piped todo (init fds todo) :=
  ⟨fun _ => Buffer.filled_empty, fun _ => rfl, fun _ => rfl, trivial, False.elim,
    fun _ hx => hx.elim⟩

/-! ## With room for the output

The room that any `read_all` asks for is bounded by what the child writes and one step more. -/

/-- What has been read and is being read of `x` has been written to it. -/
theorem Piped.length_le (h : Piped todo₀ s) (x : OutStream) :
    (s.streams x).rbuffer.unread.length + (received x s.pc).length ≤ (outputOf x todo₀).length := by
  rw [← h.output x, h.conserved x]
  simp only [List.length_append]
  omega

/-- Less has been read than the child had to write, so there is room if there is for all of it. -/
theorem roomOf_le (h : Piped todo₀ s) (hpc : s.pc = .reading x last answers)
    (hroom : ((outputOf x todo₀).length : Int) + bufferIoStep ≤ 2 ^ 30) :
    s.roomOf x answers ≤ 2 ^ 30 := by
  have hlen := h.length_le x
  rw [hpc] at hlen
  have hreceived : received x (.reading x last answers) = (deliver answers).bytes := if_pos rfl
  rw [hreceived] at hlen
  have hdemand := Nstream.demand_le one_le_bufferIoStep (answers ++ [.err .EAGAIN])
  rw [deliver_again (h.goes hpc)] at hdemand
  simp only at hdemand
  unfold roomOf
  omega

/-- Then no `read_all` fails. -/
theorem not_failed_step (h : Piped todo₀ s) (hnot : s.pc ≠ .failed)
    (hroom : ∀ x, ((outputOf x todo₀).length : Int) + bufferIoStep ≤ 2 ^ 30)
    {l : SubprocessLabel} (hs : step capacity s l = some s') : s'.pc ≠ .failed := by
  cases moved_of_step hs with
  | write | exit => exact hnot
  | poll | answer | wake => exact nofun
  | @again x last answers hpc =>
      -- only the end of a `read_all` could fail, and there is room for it
      obtain ⟨str, -, -, heq⟩ := readAll_of_le h hpc (roomOf_le h hpc (hroom x))
      rw [heq]
      cases x with
      | out => exact nofun
      | err => cases last <;> exact nofun

/-- When `wait` has returned, everything has been read. -/
theorem Piped.unread_of_returned (h : Piped todo₀ s) (hpc : s.pc = .returned) (x : OutStream) :
    (s.streams x).rbuffer.unread = s.written x := by
  have hconserved := h.conserved x
  have hdrained := h.drained x
  rw [hpc] at hconserved hdrained
  have hempty : s.pipes x = [] := hdrained trivial
  have hnone : received x .returned = [] := rfl
  rw [hconserved, hempty, hnone, List.append_nil, List.append_nil]

/-! ## Without it

The converse. A run is built in which the child writes one byte and the parent reads it, until all
has been written; then the next `read_all` asks for the room that there is not. -/

section Reached

variable {fds : OutStream → Int}

/-- Some run of a `wait` leads to the state. -/
def Reached (capacity : Nat) (fds : OutStream → Int) (todo₀ : List (OutStream × Byte))
    (s : Subprocess) : Prop :=
  ∃ ls, run (step capacity) (init fds todo₀) ls = some s

theorem Reached.step (h : Reached capacity fds todo₀ s) {l : SubprocessLabel}
    (hs : step capacity s l = some s') : Reached capacity fds todo₀ s' := by
  obtain ⟨ls, hrun⟩ := h
  exact ⟨ls ++ [l], by rw [run_append, hrun]; simp [run, hs]⟩

/-- A state in which no `read_all` has failed, in a world in which none fails. -/
structure Going (capacity : Nat) (fds : OutStream → Int) (todo₀ : List (OutStream × Byte))
    (s : Subprocess) : Prop where
  reached : Reached capacity fds todo₀ s
  piped : Piped todo₀ s

variable (hall : ∀ s, Reached capacity fds todo₀ s → s.pc ≠ .failed)

include hall

/-- One more step of a run that goes on. -/
theorem Going.step (h : Going capacity fds todo₀ s) {l : SubprocessLabel}
    (hs : step capacity s l = some s') : Going capacity fds todo₀ s' :=
  ⟨h.reached.step hs, (h.piped.step hs).resolve_left (hall s' (h.reached.step hs))⟩

/-- The parent polls, and begins to read `stdout`. -/
theorem Going.poll (h : Going capacity fds todo₀ s) (hpc : s.pc = .poll) :
    Going capacity fds todo₀ { s with pc := .reading .out s.exited [] } :=
  h.step hall (l := .poll) (if_pos hpc)

theorem Going.wake (h : Going capacity fds todo₀ s) (hpc : s.pc = .sleeping) :
    Going capacity fds todo₀ { s with pc := .poll } :=
  h.step hall (l := .wake) (if_pos hpc)

/-- The pipe is empty, and the `read_all` ends. There has been room for it. -/
theorem Going.again (h : Going capacity fds todo₀ s) (hpc : s.pc = .reading x last answers)
    (hempty : s.pipes x = []) :
    s.roomOf x answers ≤ 2 ^ 30 ∧
      ∃ str, Going capacity fds todo₀
        { s with streams := Function.update s.streams x str, pc := afterRead x last } := by
  have hs : Subprocess.step capacity s (.read (.err .EAGAIN)) =
      some (s.readAll x last (answers ++ [.err .EAGAIN])) := by
    simp [Subprocess.step, hpc, Subprocess.read, hempty]
  have hle : s.roomOf x answers ≤ 2 ^ 30 := by
    by_contra hgt
    exact hall _ (h.reached.step hs) (readAll_of_not_le h.piped hpc hgt)
  obtain ⟨str, -, -, heq⟩ := readAll_of_le h.piped hpc hle
  rw [heq] at hs
  exact ⟨hle, str, h.step hall hs⟩

/-- A `read_all` of a pipe with at most one byte. -/
theorem Going.drain (h : Going capacity fds todo₀ s) (hpc : s.pc = .reading x last [])
    (hlen : (s.pipes x).length ≤ 1) :
    ∃ str, Going capacity fds todo₀
      { s with
        streams := Function.update s.streams x str
        pipes := Function.update s.pipes x []
        pc := afterRead x last } := by
  cases hpipe : s.pipes x with
  | nil =>
      obtain ⟨-, str, hgoing⟩ := h.again hall hpc hpipe
      rw [← hpipe, Function.update_eq_self]
      exact ⟨str, hgoing⟩
  | cons b bs =>
      obtain rfl : bs = [] := by
        rw [hpipe] at hlen
        simpa using hlen
      have hs : Subprocess.step capacity s (.read (.bytes [b])) =
          some { s with
            pipes := Function.update s.pipes x []
            pc := .reading x last ([] ++ [.bytes [b]]) } := by
        simp [Subprocess.step, hpc, Subprocess.read, hpipe, Nstream.readable, bufferIoStep]
      obtain ⟨-, str, hgoing⟩ := (h.step hall hs).again hall rfl (Function.update_self ..)
      exact ⟨str, hgoing⟩

/-- The parent is at `poll`, and has read all so far. -/
structure AtPoll (capacity : Nat) (fds : OutStream → Int) (todo₀ : List (OutStream × Byte))
    (s : Subprocess) : Prop extends Going capacity fds todo₀ s where
  pc : s.pc = .poll
  running : s.exited = false
  pipes : ∀ x, s.pipes x = []

/-- The child writes a byte, and the parent reads it. -/
theorem AtPoll.round (h : AtPoll capacity fds todo₀ s) (hcapacity : 1 ≤ capacity)
    {w : OutStream × Byte} {todo : List (OutStream × Byte)} (htodo : s.todo = w :: todo) :
    ∃ s', AtPoll capacity fds todo₀ s' ∧ s'.todo = todo := by
  obtain ⟨x, b⟩ := w
  have hs : Subprocess.step capacity s .write = some { s with
      todo := todo
      pipes := Function.update s.pipes x (s.pipes x ++ [b])
      written := Function.update s.written x (s.written x ++ [b]) } := by
    have hfree : (s.pipes x).length < capacity := by
      rw [h.pipes]
      exact hcapacity
    simp [Subprocess.step, Subprocess.write, htodo, h.running, hfree]
  -- one byte is in a pipe, and both are read before the next one
  have hpoll := (h.toGoing.step hall hs).poll hall h.pc
  have hlen : ∀ y, (Function.update s.pipes x (s.pipes x ++ [b]) y).length ≤ 1 := by
    intro y
    by_cases hyx : y = x
    · subst hyx
      simp [h.pipes]
    · simp [hyx, h.pipes]
  have hrunning := h.running
  obtain ⟨out, hout⟩ := hpoll.drain hall rfl (hlen .out)
  rw [hrunning] at hout
  obtain ⟨err, herr⟩ := hout.drain hall rfl (hlen .err)
  have hwake := herr.wake hall rfl
  refine ⟨_, ⟨hwake, rfl, rfl, fun y => ?_⟩, rfl⟩
  cases y with
  | out => simp
  | err => simp

/-- By induction on what the child has still to write, with `AtPoll.round` as the step. -/
theorem AtPoll.all_written (h : AtPoll capacity fds todo₀ s) (hcapacity : 1 ≤ capacity) :
    ∃ s', AtPoll capacity fds todo₀ s' ∧ s'.todo = [] := by
  induction htodo : s.todo generalizing s with
  | nil => exact ⟨s, h, htodo⟩
  | cons w todo ih =>
      obtain ⟨t, ht, hrest⟩ := h.round hall hcapacity htodo
      exact ih ht hrest

omit hall in
/-- With all of the output read, there has to be room for one step more. -/
theorem roomOf_of_all_read (h : Piped todo₀ s) (hpc : s.pc = .reading x last [])
    (htodo : s.todo = []) (hempty : s.pipes x = []) :
    s.roomOf x [] = (outputOf x todo₀).length + bufferIoStep := by
  have hwritten := h.output x
  have hconserved := h.conserved x
  have hnone : received x (.reading x last []) = [] := if_pos rfl
  rw [hpc, hempty, hnone, List.append_nil, List.append_nil] at hconserved
  have hnil : outputOf x [] = [] := rfl
  rw [htodo, hnil, List.append_nil, hconserved] at hwritten
  unfold roomOf
  rw [hwritten, Nstream.demand_last (by simp [deliver, bufferIoStep])]

/-- When all has been written and read, the next `read_all`s are without a byte. -/
theorem room_of_all_written (h : AtPoll capacity fds todo₀ s) (htodo : s.todo = [])
    (x : OutStream) : ((outputOf x todo₀).length : Int) + bufferIoStep ≤ 2 ^ 30 := by
  have hpoll := h.toGoing.poll hall h.pc
  obtain ⟨hout, str, hnext⟩ := hpoll.again hall rfl (h.pipes .out)
  obtain ⟨herr, -⟩ := hnext.again hall rfl (h.pipes .err)
  cases x with
  | out =>
      rw [roomOf_of_all_read hpoll.piped rfl htodo (h.pipes .out)] at hout
      exact hout
  | err =>
      rw [roomOf_of_all_read hnext.piped rfl htodo (h.pipes .err)] at herr
      exact herr

omit hall in
/-- Where no `read_all` fails, there is room for all of the output. -/
theorem room_of_never_failed (hcapacity : 1 ≤ capacity)
    (h : ∀ ls s, run (Subprocess.step capacity) (init fds todo₀) ls = some s → s.pc ≠ .failed)
    (x : OutStream) : ((outputOf x todo₀).length : Int) + bufferIoStep ≤ 2 ^ 30 := by
  have hall : ∀ s, Reached capacity fds todo₀ s → s.pc ≠ .failed := by
    rintro s ⟨ls, hrun⟩
    exact h ls s hrun
  have hinit : AtPoll capacity fds todo₀ (init fds todo₀) :=
    ⟨⟨⟨[], rfl⟩, piped_init fds todo₀⟩, rfl, rfl, fun _ => rfl⟩
  obtain ⟨s, hs, htodo⟩ := hinit.all_written hall hcapacity
  exact room_of_all_written hall hs htodo x

end Reached

/-! ## The theorem -/

/-- **The output is captured.** No `read_all` of a `wait` fails, and when it returns the unread bytes
of each stream are what the child has written to it, in every run for this output, if and only if
there is room for the output and one step. -/
theorem captured_iff (fds : OutStream → Int) (capacity : Nat) (hcapacity : 1 ≤ capacity)
    (todo : List (OutStream × Byte)) :
    (∀ ls s, run (step capacity) (init fds todo) ls = some s →
      s.pc ≠ .failed ∧
        (s.pc = .returned → ∀ x, (s.streams x).rbuffer.unread = s.written x)) ↔
    ∀ x, ((outputOf x todo).length : Int) + bufferIoStep ≤ 2 ^ 30 := by
  constructor
  · intro h
    exact room_of_never_failed hcapacity fun ls s hrun => (h ls s hrun).1
  · intro hroom ls s hrun
    have hinv : Piped todo s ∧ s.pc ≠ .failed := by
      refine run_inv (step capacity) (fun _ _ => True)
        (fun s => Piped todo s ∧ s.pc ≠ .failed) ?_ ⟨piped_init fds todo, nofun⟩
        (allSteps_true _ _ _) hrun
      rintro s l s' ⟨hpiped, hnot⟩ - hs
      have hnot' := not_failed_step hpiped hnot hroom hs
      exact ⟨(hpiped.step hs).resolve_left hnot', hnot'⟩
    exact ⟨hinv.2, hinv.1.unread_of_returned⟩

/-- A byte to each stream, in pipes of one byte: the parent comes to it in the middle. -/
def twoBytes : List SubprocessLabel :=
  [.write, .poll, .read (.bytes [104]), .read (.err .EINTR), .read (.err .EAGAIN), .write, .exit,
    .read (.bytes [33]), .read (.err .EAGAIN), .wake, .poll, .read (.err .EAGAIN),
    .read (.err .EAGAIN)]

/-- A child that writes to both streams. -/
theorem captured_iff_twoBytes :
    1 ≤ 1 ∧ ∃ s, run (step 1) (init (fun _ => 5) [(.out, 104), (.err, 33)]) twoBytes = some s ∧
      s.pc = .returned ∧ ∀ x, (s.streams x).rbuffer.unread = s.written x := by
  have hpc : (run (step 1) (init (fun _ => 5) [(.out, 104), (.err, 33)]) twoBytes).map
      (fun s => s.pc) = some .returned := by
    decide +kernel
  obtain ⟨s, hs, hreturned⟩ := Option.map_eq_some_iff.mp hpc
  have hroom : ∀ x,
      ((outputOf x [(.out, 104), (.err, 33)]).length : Int) + bufferIoStep ≤ 2 ^ 30 := by
    intro x
    cases x <;> decide
  have hcaptured := (captured_iff (fun _ => 5) 1 (by decide) [(.out, 104), (.err, 33)]).mpr hroom
  exact ⟨by decide, s, hs, hreturned, (hcaptured twoBytes s hs).2 hreturned⟩

/-- A child that writes 2^30 bytes to `stdout`. -/
theorem output_too_long :
    ¬ ∀ ls s, run (step 65536) (init (fun _ => 5) (List.replicate (2 ^ 30) (.out, 0))) ls = some s →
      s.pc ≠ .failed ∧
        (s.pc = .returned → ∀ x, (s.streams x).rbuffer.unread = s.written x) := by
  intro h
  have hroom := room_of_never_failed (by omega) (fun ls s hrun => (h ls s hrun).1) .out
  have hlen : (outputOf .out (List.replicate (2 ^ 30) (.out, 0))).length = 2 ^ 30 := by
    rw [outputOf, List.filter_replicate_of_pos (by rfl), List.length_map, List.length_replicate]
  rw [hlen, bufferIoStep] at hroom
  omega

end Subprocess

end Cppev
