import Cppev.Buffer.Terminated
import Cppev.Subprocess

/-!
# The strings of `exec_cmd`

`subprocess::exec_cmd` waits for the child and makes strings of `stdout()` and `stderr()`, which are
pointers into the read buffers.

* `terminated_of_run`: whatever the child writes, there is a NUL behind it.
* `execCmd_iff`: the strings are what has been captured, if and only if there is no NUL in it.
-/

namespace Cppev

namespace Subprocess

/-- A `std::string` of `stdout()` or `stderr()`. -/
def text (s : Subprocess) (x : OutStream) : Option (List Byte) := (s.streams x).rbuffer.cstr

/-- What `exec_cmd` makes of the subprocess when `wait` has returned, with the `returncode_` that the
last `poll` has left. There is no result if it reads beyond a buffer. -/
def execCmd (s : Subprocess) (returncode : Int) : Option (Int × List Byte × List Byte) :=
  match s.pc with
  | .returned => do
    let out ← s.text .out
    let err ← s.text .err
    return (returncode, out, err)
  | _ => none

variable {capacity : Nat} {s s' : Subprocess}

/-! ## The buffers end with a NUL -/

theorem terminated_readAll (h : ∀ x, (s.streams x).rbuffer.Terminated) (x : OutStream) (last : Bool)
    (answers : List ReadResult) (y : OutStream) :
    ((s.readAll x last answers).streams y).rbuffer.Terminated := by
  unfold readAll
  split
  case h_1 total io hout =>
    have hread := Buffer.terminated_readAllInt (by decide) (h x).toCleared hout
    by_cases hyx : y = x
    · subst hyx
      simpa using hread
    · simpa [hyx] using h y
  case h_2 => exact h y

theorem terminated_moved (h : ∀ x, (s.streams x).rbuffer.Terminated) (hs : Moved capacity s s')
    (y : OutStream) : (s'.streams y).rbuffer.Terminated := by
  cases hs with
  | again hpc hempty => exact terminated_readAll h _ _ _ y
  | write | exit | poll | answer | wake => exact h y

theorem terminated_of_run {fds : OutStream → Int} {todo : List (OutStream × Byte)}
    {ls : List SubprocessLabel} (hrun : run (step capacity) (init fds todo) ls = some s)
    (x : OutStream) : (s.streams x).rbuffer.Terminated := by
  refine run_inv (step capacity) (fun _ _ => True)
    (fun s => ∀ x, (s.streams x).rbuffer.Terminated) ?_ (fun _ => Buffer.terminated_empty)
    (allSteps_true _ _ _) hrun x
  exact fun s l s' h _ hs => terminated_moved h (moved_of_step hs)

/-! ## The theorem -/

/-- **The strings that `exec_cmd` returns.** In every run in which `wait` returns, they are what has
been captured of `stdout` and `stderr`, if and only if that is without a NUL. -/
theorem execCmd_iff (fds : OutStream → Int) (capacity : Nat) (todo : List (OutStream × Byte))
    (ls : List SubprocessLabel) (s : Subprocess)
    (hrun : run (step capacity) (init fds todo) ls = some s) (hpc : s.pc = .returned)
    (returncode : Int) :
    s.execCmd returncode = some (returncode, (s.streams .out).rbuffer.unread,
      (s.streams .err).rbuffer.unread) ↔
    ∀ x, 0 ∉ (s.streams x).rbuffer.unread := by
  have hterminated := terminated_of_run hrun
  have htuple : s.execCmd returncode = some (returncode, (s.streams .out).rbuffer.unread,
      (s.streams .err).rbuffer.unread) ↔
      ∀ x, s.text x = some (s.streams x).rbuffer.unread := by
    simp only [execCmd, hpc]
    constructor
    · intro h
      obtain ⟨out, hout, h⟩ := Option.bind_eq_some_iff.mp h
      obtain ⟨err, herr, h⟩ := Option.bind_eq_some_iff.mp h
      obtain ⟨rfl, rfl⟩ : out = (s.streams .out).rbuffer.unread ∧
          err = (s.streams .err).rbuffer.unread := by
        simpa using h
      intro x
      cases x with
      | out => exact hout
      | err => exact herr
    · intro h
      rw [h .out, h .err]
      rfl
  rw [htuple]
  exact forall_congr' fun x => Buffer.cstr_eq_unread_iff (hterminated x)

/-- The child writes three bytes to `stdout` and exits. -/
def threeWritten (b₁ b₂ b₃ : Byte) : List SubprocessLabel :=
  [.write, .write, .write, .exit, .poll, .read (.bytes [b₁, b₂, b₃]), .read (.err .EAGAIN),
    .read (.err .EAGAIN)]

theorem execCmd_iff_hi : ∃ s,
    run (step 65536) (init (fun _ => 5) [(.out, 104), (.out, 105), (.out, 10)])
        (threeWritten 104 105 10) = some s ∧ s.pc = .returned ∧
      s.execCmd 0 = some (0, (s.streams .out).rbuffer.unread, (s.streams .err).rbuffer.unread) := by
  have hrun : (run (step 65536) (init (fun _ => 5) [(.out, 104), (.out, 105), (.out, 10)])
      (threeWritten 104 105 10)).map (fun s => (s.pc, (s.streams .out).rbuffer.unread,
        (s.streams .err).rbuffer.unread)) = some (.returned, [104, 105, 10], []) := by
    decide +kernel
  obtain ⟨s, hs, hview⟩ := Option.map_eq_some_iff.mp hrun
  obtain ⟨hpc, hout, herr⟩ : s.pc = .returned ∧ (s.streams .out).rbuffer.unread = [104, 105, 10] ∧
      (s.streams .err).rbuffer.unread = [] := by
    simpa using hview
  refine ⟨s, hs, hpc, (execCmd_iff _ _ _ _ s hs hpc 0).mpr fun x => ?_⟩
  cases x with
  | out => simp [hout]
  | err => simp [herr]

/-- The child writes `h`, a NUL and `i`. -/
theorem cut_at_nul :
    ¬ ∀ (ls : List SubprocessLabel) (s : Subprocess),
      run (step 65536) (init (fun _ => 5) [(.out, 104), (.out, 0), (.out, 105)]) ls = some s →
      s.pc = .returned → s.execCmd 0 =
        some (0, (s.streams .out).rbuffer.unread, (s.streams .err).rbuffer.unread) := by
  intro h
  have hrun : (run (step 65536) (init (fun _ => 5) [(.out, 104), (.out, 0), (.out, 105)])
      (threeWritten 104 0 105)).map (fun s => (s.pc, (s.streams .out).rbuffer.unread,
        (s.execCmd 0).map fun r => r.2.1)) = some (.returned, [104, 0, 105], some [104]) := by
    decide +kernel
  obtain ⟨s, hs, hview⟩ := Option.map_eq_some_iff.mp hrun
  obtain ⟨hpc, hout, hcut⟩ : s.pc = .returned ∧ (s.streams .out).rbuffer.unread = [104, 0, 105] ∧
      (s.execCmd 0).map (fun r => r.2.1) = some [104] := by
    simpa only [Prod.mk.injEq] using hview
  have hall := h _ s hs hpc
  rw [hall, hout] at hcut
  cases hcut

end Subprocess

end Cppev
