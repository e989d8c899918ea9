import Cppev.Lib.Transition
import Mathlib.Data.Set.Basic
import Mathlib.Logic.Function.Basic

/-!
# The descriptors of a subprocess

A program that constructs and destroys `subp_open` objects, its descriptors, and those of the
children. The constructor makes three pipes, of which one end each belongs to a stream of the object;
the other end is kept in an integer.

`fcntl` does not fail on a descriptor that is open, and a `fork` that fails ends the process, and the
run with it.

* `Inv`: who is responsible for the descriptors that are open; `Inv.construct`, `Inv.destroy`: how the
  calls keep it.
* `clean_iff_not_leaked`: nothing else can be wrong than a descriptor nobody has any more.
* `clean_iff`: nothing is left open, and no end of a pipe is open that should not be, if and only if
  no constructor gets beyond its first `pipe`.
-/

namespace Cppev

/-! ## Descriptors and who has them

The table of the parent is what matters to the claim. Each descriptor has an owner, which is ghost:
what was there before, a stream of an object, the constructor, or nobody. -/

/-- The ends of a pipe. -/
inductive PipeSide where
  | read | write
  deriving DecidableEq, Repr

/-- What a descriptor refers to. -/
inductive OpenFile where
  | pipeEnd (pipe : Nat) (side : PipeSide)
  | other (n : Nat)
  deriving DecidableEq, Repr

/-- What is open in a process. -/
abbrev FdTable := Int → Option OpenFile

/-- `dup2(old, new)`. -/
def FdTable.dup2 (t : FdTable) (old new : Int) : FdTable := Function.update t new (t old)

/-- The descriptors of `stdin_`, `stdout_` and `stderr_`, and which pipes these are. -/
structure SubpFds where
  stdin : Int
  stdout : Int
  stderr : Int
  stdinPipe : Nat
  stdoutPipe : Nat
  stderrPipe : Nat
  deriving DecidableEq, Repr

def SubpFds.fds (o : SubpFds) : List Int := [o.stdin, o.stdout, o.stderr]

/-- Why a descriptor is open: it was before the run, it belongs to a stream of an object, or it is
one of the integers `zero`, `one` and `two` of a constructor. -/
inductive FdOwner (ι : Type) where
  | before | raw
  | stream (i : ι)
  deriving DecidableEq, Repr

/-- The parent with its objects, and the children. -/
structure SubpSystem (ι : Type) where
  parent : FdTable
  children : List FdTable
  /-- How many pipes there have been. -/
  pipes : Nat
  objs : ι → Option SubpFds
  /-- The history: why a descriptor of the parent is open. -/
  owner : Int → Option (FdOwner ι)

/-- What the three calls of `pipe` answer, unless they fail: the read end, and the write end. -/
structure PipeAnswers where
  first : Option (Int × Int)
  second : Option (Int × Int)
  third : Option (Int × Int)
  deriving DecidableEq, Repr

/-- What the program does. -/
inductive SubpSystemLabel (ι : Type) where
  | construct (i : ι) (k : PipeAnswers)
  | destroy (i : ι)
  /-- A call of `exec_cmd`, with `i` for its local object. -/
  | execCmd (i : ι) (k : PipeAnswers)
  /-- The `k`-th child exits. -/
  | exit (k : Nat)
  deriving DecidableEq, Repr

namespace SubpSystem

variable {ι : Type}

def put (s : SubpSystem ι) (fd : Int) (file : OpenFile) (who : FdOwner ι) : SubpSystem ι :=
  { s with
    parent := Function.update s.parent fd (some file)
    owner := Function.update s.owner fd (some who) }

def close (s : SubpSystem ι) (fd : Int) : SubpSystem ι :=
  { s with parent := Function.update s.parent fd none, owner := Function.update s.owner fd none }

/-- A `pipe` that succeeds. -/
def openPipe (s : SubpSystem ι) (r w : Int) (reader writer : FdOwner ι) : Option (SubpSystem ι) :=
  if s.parent r = none ∧ s.parent w = none ∧ r ≠ w then
    some { (s.put r (.pipeEnd s.pipes .read) reader).put w (.pipeEnd s.pipes .write) writer with
      pipes := s.pipes + 1 }
  else none

/-- The descriptors of the child, when it calls `execvp`. -/
def childTable (parent : FdTable) (zero one two : Int) : FdTable :=
  ((parent.dup2 zero 0).dup2 one 1).dup2 two 2

section Step

variable [DecidableEq ι]

/-- The constructor. One that throws destroys the streams there are. -/
def construct (s : SubpSystem ι) (i : ι) (k : PipeAnswers) : Option (SubpSystem ι) :=
  match k.first with
  | none => some s
  | some (zero, stdin) => do
    let s ← s.openPipe zero stdin .raw (.stream i)
    match k.second with
    | none => some (s.close stdin)
    | some (stdout, one) => do
      let s ← s.openPipe stdout one (.stream i) .raw
      match k.third with
      | none => some ((s.close stdout).close stdin)
      | some (stderr, two) => do
        let s ← s.openPipe stderr two (.stream i) .raw
        some { s with
          children := s.children ++ [childTable s.parent zero one two]
          objs := Function.update s.objs i (some
            { stdin, stdout, stderr
              stdinPipe := s.pipes - 3, stdoutPipe := s.pipes - 2, stderrPipe := s.pipes - 1 }) }

/-- `~subp_open`, of the members from the last to the first. -/
def destroy (s : SubpSystem ι) (i : ι) (o : SubpFds) : SubpSystem ι :=
  { ((s.close o.stderr).close o.stdout).close o.stdin with objs := Function.update s.objs i none }

/-- The `k`-th child exits. -/
def exit (s : SubpSystem ι) (k : Nat) : SubpSystem ι :=
  { s with children := s.children.set k fun _ => none }

/-- The object is destroyed when its child, which is the last one, has exited. -/
def execCmd (s : SubpSystem ι) (i : ι) (k : PipeAnswers) : Option (SubpSystem ι) := do
  let s ← s.construct i k
  match s.objs i with
  | some o => some ((s.exit (s.children.length - 1)).destroy i o)
  | none => some s

def step (s : SubpSystem ι) : SubpSystemLabel ι → Option (SubpSystem ι)
  | .construct i k => if s.objs i = none then s.construct i k else none
  | .destroy i =>
    match s.objs i with
    | some o => some (s.destroy i o)
    | none => none
  | .execCmd i k => if s.objs i = none then s.execCmd i k else none
  | .exit k => if k < s.children.length then some (s.exit k) else none

/-- A program with these descriptors, and without objects. -/
def init (opened : FdTable) : SubpSystem ι where
  parent := opened
  children := []
  pipes := 0
  objs := fun _ => none
  owner := fun fd => (opened fd).map fun _ => .before

/-- A constructor fails in its first `pipe`. -/
def Proper (_ : SubpSystem ι) : SubpSystemLabel ι → Prop
  | .construct _ k | .execCmd _ k => k.first = none
  | _ => True

instance (s : SubpSystem ι) : (l : SubpSystemLabel ι) → Decidable (s.Proper l)
  | .construct _ k | .execCmd _ k => inferInstanceAs (Decidable (k.first = none))
  | .destroy _ | .exit _ => isTrue trivial

end Step

/-- When all objects are gone, the same descriptors are open as before; as long as there is an object,
nobody else can write to its `stdin`, and the parent cannot write to its `stdout` and `stderr`. -/
structure Clean (s : SubpSystem ι) (opened : FdTable) : Prop where
  restored : (∀ i, s.objs i = none) → ∀ fd, s.parent fd ≠ none ↔ opened fd ≠ none
  stdin : ∀ i o, s.objs i = some o →
    (∀ fd, s.parent fd = some (.pipeEnd o.stdinPipe .write) ↔ fd = o.stdin) ∧
      ∀ t ∈ s.children, ∀ fd, t fd ≠ some (.pipeEnd o.stdinPipe .write)
  outputs : ∀ i o, s.objs i = some o → ∀ fd, s.parent fd ≠ some (.pipeEnd o.stdoutPipe .write) ∧
    s.parent fd ≠ some (.pipeEnd o.stderrPipe .write)

/-! ## Who is responsible for a descriptor

`Inv` says that what is open in the parent is what was there, what the streams of living objects
have, and what has leaked. The last are the descriptors that no stream has: the ends that are kept
in integers. -/

/-- The descriptors of an object. -/
def held (s : SubpSystem ι) (i : ι) : Set Int := {fd | ∃ o, s.objs i = some o ∧ fd ∈ o.fds}

/-- One more, of `i`. -/
def withFd (held : ι → Set Int) (i : ι) (fd : Int) : ι → Set Int :=
  fun j => {x | x ∈ held j ∨ j = i ∧ x = fd}

def withoutFd (held : ι → Set Int) (fd : Int) : ι → Set Int := fun j => {x | x ∈ held j ∧ x ≠ fd}

/-- An integer of a constructor that is gone stood for a descriptor that is open. -/
def Leaked (s : SubpSystem ι) : Prop := ∃ fd, s.owner fd = some .raw

/-- `fd` is free, or a stream of `i` has it. -/
def StreamFd (s : SubpSystem ι) (i : ι) (fd : Int) : Prop :=
  ∀ who, s.owner fd = some who → who = .stream i

/-- The owners are right, where the streams have the descriptors `held`. -/
structure Inv (opened : FdTable) (held : ι → Set Int) (s : SubpSystem ι) : Prop where
  open_iff : ∀ fd, s.parent fd = none ↔ s.owner fd = none
  before_iff : ∀ fd, s.owner fd = some .before ↔ opened fd ≠ none
  stream_iff : ∀ fd i, s.owner fd = some (.stream i) ↔ fd ∈ held i
  /-- Nobody has closed `one`. -/
  one : ∀ i o, s.objs i = some o →
    ∃ fd, s.owner fd = some .raw ∧ s.parent fd = some (.pipeEnd o.stdoutPipe .write)

variable {opened : FdTable} {held : ι → Set Int} {s s' : SubpSystem ι} {i : ι} {fd : Int}
  {k : PipeAnswers} {l : SubpSystemLabel ι}

theorem held_congr (hobjs : s'.objs = s.objs) : s'.held = s.held := by
  funext j
  simp only [SubpSystem.held, hobjs]

/-- A descriptor that is not open is nobody's. -/
theorem Inv.not_held (hs : s.Inv opened held) (hfree : s.parent fd = none) (j : ι) : fd ∉ held j := by
  intro h
  have howner := (hs.stream_iff fd j).mpr h
  rw [(hs.open_iff fd).mp hfree] at howner
  cases howner

/-- A descriptor is given and taken back. -/
theorem withoutFd_withFd (hfd : ∀ j, fd ∉ held j) (i : ι) : withoutFd (withFd held i fd) fd = held := by
  funext j
  ext x
  simp only [withoutFd, withFd, Set.mem_ofPred_eq]
  constructor
  · rintro ⟨h | ⟨-, rfl⟩, hne⟩
    · exact h
    · exact absurd rfl hne
  · intro h
    exact ⟨.inl h, fun heq => hfd j (heq ▸ h)⟩

/-- A descriptor that was free, and is not there from before. -/
theorem Inv.put (hs : s.Inv opened held) (hfree : s.parent fd = none) (file : OpenFile)
    {who : FdOwner ι} (hwho : who ≠ .before) {held' : ι → Set Int}
    (hheld : ∀ x j, x ∈ held' j ↔ x ∈ held j ∨ who = .stream j ∧ x = fd) :
    (s.put fd file who).Inv opened held' := by
  have howner := (hs.open_iff fd).mp hfree
  refine ⟨fun x => ?_, fun x => ?_, fun x j => ?_, fun j o ho => ?_⟩
  · by_cases hx : x = fd
    · simp [SubpSystem.put, hx]
    · simpa [SubpSystem.put, hx] using hs.open_iff x
  · by_cases hx : x = fd
    · have := hs.before_iff fd
      rw [howner] at this
      simpa [SubpSystem.put, hx, hwho] using this
    · simpa [SubpSystem.put, hx] using hs.before_iff x
  · rw [hheld]
    by_cases hx : x = fd
    · have := hs.not_held hfree j
      simp [SubpSystem.put, hx, this]
    · simpa [SubpSystem.put, hx] using hs.stream_iff x j
  · obtain ⟨x, hx, hfile⟩ := hs.one j o ho
    have hne : x ≠ fd := by
      rintro rfl
      rw [hfree] at hfile
      cases hfile
    exact ⟨x, by simp [SubpSystem.put, hne, hx], by simp [SubpSystem.put, hne, hfile]⟩

theorem close_owner (s : SubpSystem ι) (fd x : Int) :
    (s.close fd).owner x = if x = fd then none else s.owner x :=
  Function.update_apply s.owner fd none x

theorem StreamFd.close {x : Int} (hx : s.StreamFd i x) (fd : Int) : (s.close fd).StreamFd i x := by
  intro who hwho
  rw [close_owner] at hwho
  split at hwho
  case isTrue => cases hwho
  case isFalse => exact hx who hwho

/-- A descriptor of a stream is closed, or one that is free. -/
theorem Inv.close (hs : s.Inv opened held) (hfd : s.StreamFd i fd) :
    (s.close fd).Inv opened (withoutFd held fd) := by
  have hbefore : s.owner fd ≠ some .before := fun h => nomatch hfd _ h
  have hraw : s.owner fd ≠ some .raw := fun h => nomatch hfd _ h
  refine ⟨fun x => ?_, fun x => ?_, fun x j => ?_, fun j o ho => ?_⟩
  · by_cases hx : x = fd
    · simp [SubpSystem.close, hx]
    · simpa [SubpSystem.close, hx] using hs.open_iff x
  · by_cases hx : x = fd
    · have := mt (hs.before_iff fd).mpr hbefore
      simpa [SubpSystem.close, hx] using this
    · simpa [SubpSystem.close, hx] using hs.before_iff x
  · by_cases hx : x = fd
    · simp [SubpSystem.close, withoutFd, hx]
    · simpa [SubpSystem.close, withoutFd, hx] using hs.stream_iff x j
  · obtain ⟨x, hx, hfile⟩ := hs.one j o ho
    have hne : x ≠ fd := by
      rintro rfl
      exact hraw hx
    exact ⟨x, by simp [SubpSystem.close, hne, hx], by simp [SubpSystem.close, hne, hfile]⟩

/-! ## Pipes

What one successful call of `get_pipes` does to the invariant, for any two owners. -/

/-- What a `pipe` does that succeeds. -/
structure Piped (s : SubpSystem ι) (r w : Int) (reader writer : FdOwner ι) (s' : SubpSystem ι) :
    Prop where
  free_read : s.parent r = none
  free_write : s.parent w = none
  ne : r ≠ w
  next : s' = { (s.put r (.pipeEnd s.pipes .read) reader).put w (.pipeEnd s.pipes .write) writer with
    pipes := s.pipes + 1 }

/-- Two new descriptors, with their owners. -/
theorem piped_of_openPipe {r w : Int} {reader writer : FdOwner ι}
    (h : s.openPipe r w reader writer = some s') : s.Piped r w reader writer s' := by
  unfold openPipe at h
  split at h
  case isFalse => cases h
  case isTrue hfree => exact ⟨hfree.1, hfree.2.1, hfree.2.2, (Option.some.inj h).symm⟩

namespace Piped

variable {r w : Int} {reader writer : FdOwner ι}

theorem objs (h : s.Piped r w reader writer s') : s'.objs = s.objs := by
  rw [h.next]
  rfl

theorem pipes (h : s.Piped r w reader writer s') : s'.pipes = s.pipes + 1 := by
  rw [h.next]

theorem owner_read (h : s.Piped r w reader writer s') : s'.owner r = some reader := by
  rw [h.next]
  simp [put, h.ne]

theorem owner_write (h : s.Piped r w reader writer s') : s'.owner w = some writer := by
  rw [h.next]
  simp [put]

theorem parent_write (h : s.Piped r w reader writer s') :
    s'.parent w = some (.pipeEnd s.pipes .write) := by
  rw [h.next]
  simp [put]

/-- What is open stays as it is. -/
theorem keeps (h : s.Piped r w reader writer s') (hopen : s.parent fd ≠ none) :
    s'.parent fd = s.parent fd ∧ s'.owner fd = s.owner fd := by
  have hr : fd ≠ r := fun heq => hopen (heq ▸ h.free_read)
  have hw : fd ≠ w := fun heq => hopen (heq ▸ h.free_write)
  rw [h.next]
  simp [put, hr, hw]

/-- A descriptor with an owner keeps it. -/
theorem owner_of (h : s.Piped r w reader writer s') (hs : s.Inv opened held) {who : FdOwner ι}
    (howner : s.owner fd = some who) : s'.owner fd = some who := by
  have hopen : s.parent fd ≠ none := fun hfree => by
    rw [(hs.open_iff fd).mp hfree] at howner
    cases howner
  rw [(h.keeps hopen).2, howner]

/-- The invariant, when the two ends go to whom they are meant for. -/
theorem inv (h : s.Piped r w reader writer s') (hs : s.Inv opened held)
    (hreader : reader ≠ .before) (hwriter : writer ≠ .before) {held' : ι → Set Int}
    (hheld : ∀ x j, x ∈ held' j ↔
      (x ∈ held j ∨ reader = .stream j ∧ x = r) ∨ writer = .stream j ∧ x = w) :
    s'.Inv opened held' := by
  have hs₁ : (s.put r (.pipeEnd s.pipes .read) reader).Inv opened
      fun j => {x | x ∈ held j ∨ reader = .stream j ∧ x = r} :=
    hs.put h.free_read (.pipeEnd s.pipes .read) hreader fun x j => Iff.rfl
  have hw₁ : (s.put r (.pipeEnd s.pipes .read) reader).parent w = none := by
    simp [SubpSystem.put, Ne.symm h.ne, h.free_write]
  have hs₂ := hs₁.put hw₁ (.pipeEnd s.pipes .write) hwriter hheld
  rw [h.next]
  exact ⟨hs₂.open_iff, hs₂.before_iff, hs₂.stream_iff, hs₂.one⟩

/-- The write end goes to a stream. -/
theorem inv_writer (h : s.Piped r w .raw (.stream i) s') (hs : s.Inv opened held) :
    s'.Inv opened (withFd held i w) := by
  refine h.inv hs nofun nofun fun x j => ?_
  simp [withFd, eq_comm (a := i)]

/-- The read end does. -/
theorem inv_reader (h : s.Piped r w (.stream i) .raw s') (hs : s.Inv opened held) :
    s'.Inv opened (withFd held i r) := by
  refine h.inv hs nofun nofun fun x j => ?_
  simp [withFd, eq_comm (a := i)]

end Piped

/-! ## A constructor and a destructor

Both are sequences of the above. The constructor may end at any of its pipes with an exception, and
then the streams that have been made are destroyed. -/

/-- Closing a descriptor of a stream changes nothing about those that have leaked. -/
theorem leaked_close (hfd : s.StreamFd i fd) : (s.close fd).Leaked ↔ s.Leaked := by
  refine exists_congr fun x => ?_
  rw [close_owner]
  split
  case isTrue heq =>
    subst heq
    exact iff_of_false nofun fun h => nomatch hfd _ h
  case isFalse => rfl

/-- The descriptor of a stream that has just been made. -/
theorem Inv.close_last (hs : s.Inv opened (withFd held i fd)) (hfd : ∀ j, fd ∉ held j) :
    (s.close fd).Inv opened held := by
  have howner : s.owner fd = some (.stream i) := (hs.stream_iff fd i).mpr (.inr ⟨rfl, rfl⟩)
  have hclose := hs.close fun who hwho => Option.some.inj (hwho.symm.trans howner)
  rwa [withoutFd_withFd hfd] at hclose

variable [DecidableEq ι]

/-- An object gets the descriptors that have been made for it. -/
theorem Inv.setObj {o : SubpFds}
    (hs : s.Inv opened (withFd (withFd (withFd s.held i o.stdin) i o.stdout) i o.stderr))
    (hnew : s.objs i = none)
    (hone : ∃ fd, s.owner fd = some .raw ∧ s.parent fd = some (.pipeEnd o.stdoutPipe .write))
    (children : List FdTable) :
    ({ s with children, objs := Function.update s.objs i (some o) } : SubpSystem ι).Inv opened
      ({ s with children, objs := Function.update s.objs i (some o) } : SubpSystem ι).held := by
  refine ⟨hs.open_iff, hs.before_iff, fun x j => ?_, fun j p hp => ?_⟩
  · rw [hs.stream_iff x j]
    by_cases hj : j = i
    · subst hj
      simp [withFd, SubpSystem.held, hnew, SubpFds.fds, or_assoc]
    · simp [withFd, SubpSystem.held, hj]
  · by_cases hj : j = i
    · subst hj
      obtain rfl := Option.some.inj ((Function.update_self j _ _).symm.trans hp)
      exact hone
    · exact hs.one j p (by simpa [hj] using hp)

/-- What a constructor does, and what it leaves behind. -/
theorem Inv.construct (hs : s.Inv opened s.held) (hnew : s.objs i = none)
    (h : s.construct i k = some s') :
    s'.Inv opened s'.held ∧ (s'.Leaked ↔ s.Leaked ∨ k.first ≠ none) := by
  unfold SubpSystem.construct at h
  cases hfirst : k.first with
  | none =>
      simp only [hfirst] at h
      obtain rfl := Option.some.inj h
      simp [hs]
  | some ends =>
      obtain ⟨zero, stdin⟩ := ends
      simp only [hfirst, Option.bind_eq_bind, Option.bind_eq_some_iff] at h
      obtain ⟨s₁, h₁, h⟩ := h
      replace h₁ := piped_of_openPipe h₁
      have hs₁ := h₁.inv_writer hs
      have hstdin := hs.not_held h₁.free_write
      -- nobody closes `zero`
      suffices hrest : s'.Inv opened s'.held ∧ s'.owner zero = some .raw from
        ⟨hrest.1, iff_of_true ⟨zero, hrest.2⟩ (.inr nofun)⟩
      cases hsecond : k.second with
      | none =>
          simp only [hsecond] at h
          obtain rfl := Option.some.inj h
          have hheld : (s₁.close stdin).held = s.held := held_congr h₁.objs
          refine ⟨hheld ▸ hs₁.close_last hstdin, ?_⟩
          simp [SubpSystem.close, h₁.ne, h₁.owner_read]
      | some ends =>
          obtain ⟨stdout, one⟩ := ends
          simp only [hsecond, Option.bind_eq_some_iff] at h
          obtain ⟨s₂, h₂, h⟩ := h
          replace h₂ := piped_of_openPipe h₂
          have hs₂ := h₂.inv_reader hs₁
          have hstdout := hs₁.not_held h₂.free_read
          have hzero₂ := h₂.owner_of hs₁ h₁.owner_read
          cases hthird : k.third with
          | none =>
              simp only [hthird] at h
              obtain rfl := Option.some.inj h
              have hheld : ((s₂.close stdout).close stdin).held = s.held :=
                held_congr (h₂.objs.trans h₁.objs)
              refine ⟨hheld ▸ (hs₂.close_last hstdout).close_last hstdin, ?_⟩
              have hne : zero ≠ stdout := by
                rintro rfl
                rw [h₂.owner_read] at hzero₂
                cases hzero₂
              simp [SubpSystem.close, h₁.ne, hne, hzero₂]
          | some ends =>
              obtain ⟨stderr, two⟩ := ends
              simp only [hthird, Option.bind_eq_some_iff] at h
              obtain ⟨s₃, h₃, h⟩ := h
              replace h₃ := piped_of_openPipe h₃
              have hs₃ := h₃.inv_reader hs₂
              obtain rfl := Option.some.inj h
              have hobjs : s₃.objs = s.objs := by rw [h₃.objs, h₂.objs, h₁.objs]
              have hpipes : s₃.pipes - 2 = s₁.pipes := by rw [h₃.pipes, h₂.pipes]; omega
              have hopen : s₂.parent one ≠ none := by simp [h₂.parent_write]
              have hone : s₃.parent one = some (.pipeEnd (s₃.pipes - 2) .write) := by
                rw [(h₃.keeps hopen).1, h₂.parent_write, hpipes]
              refine ⟨.setObj ?_ (hobjs ▸ hnew) ⟨one, h₃.owner_of hs₂ h₂.owner_write, hone⟩ _,
                h₃.owner_of hs₂ hzero₂⟩
              rwa [held_congr hobjs]

/-- The end of an object. -/
theorem Inv.destroy (hs : s.Inv opened s.held) {o : SubpFds} (ho : s.objs i = some o) :
    (s.destroy i o).Inv opened (s.destroy i o).held ∧ ((s.destroy i o).Leaked ↔ s.Leaked) := by
  have howner : ∀ x, x ∈ o.fds → s.owner x = some (.stream i) := fun x hx =>
    (hs.stream_iff x i).mpr ⟨o, ho, hx⟩
  have hstream : ∀ x, x ∈ o.fds → s.StreamFd i x := fun x hx who hwho =>
    Option.some.inj (hwho.symm.trans (howner x hx))
  -- the three streams are closed one after the other, the last one first
  have hstderr := hstream o.stderr (by simp [SubpFds.fds])
  have hstdout := (hstream o.stdout (by simp [SubpFds.fds])).close o.stderr
  have hstdin := ((hstream o.stdin (by simp [SubpFds.fds])).close o.stderr).close o.stdout
  have hclosed := ((hs.close hstderr).close hstdout).close hstdin
  have hobjs : ∀ j, (s.destroy i o).objs j = if j = i then none else s.objs j := fun j =>
    Function.update_apply s.objs i none j
  refine ⟨⟨hclosed.open_iff, hclosed.before_iff, fun x j => ?_, fun j p hp => ?_⟩, ?_⟩
  · refine (hclosed.stream_iff x j).trans ?_
    simp only [withoutFd, SubpSystem.held, Set.mem_ofPred_eq, hobjs]
    by_cases hj : j = i
    · subst hj
      refine iff_of_false ?_ (by simp)
      rintro ⟨⟨⟨⟨p, hp, hx⟩, h₁⟩, h₂⟩, h₃⟩
      obtain rfl := Option.some.inj (ho.symm.trans hp)
      simp [SubpFds.fds, h₁, h₂, h₃] at hx
    · -- no descriptor has two owners
      have hother : x ∈ s.held j → x ∉ o.fds := fun hx hmem => by
        have hboth := ((hs.stream_iff x j).mpr hx).symm.trans (howner x hmem)
        cases hboth
        exact hj rfl
      simp only [hj, if_false]
      constructor
      · exact fun h => h.1.1.1
      · intro hx
        have hnot := hother hx
        simp only [SubpFds.fds, List.mem_cons, List.not_mem_nil, or_false, not_or] at hnot
        exact ⟨⟨⟨hx, hnot.2.2⟩, hnot.2.1⟩, hnot.1⟩
  · rw [hobjs] at hp
    split at hp
    case isTrue => cases hp
    case isFalse => exact hclosed.one j p hp
  · calc (s.destroy i o).Leaked
      _ ↔ ((s.close o.stderr).close o.stdout).Leaked := leaked_close hstdin
      _ ↔ (s.close o.stderr).Leaked := leaked_close hstdout
      _ ↔ s.Leaked := leaked_close hstderr

/-! ## A step -/

omit [DecidableEq ι] in
theorem Inv.exit (hs : s.Inv opened s.held) (k : Nat) : (s.exit k).Inv opened (s.exit k).held :=
  ⟨hs.open_iff, hs.before_iff, hs.stream_iff, hs.one⟩

/-- The object of an `exec_cmd` comes and goes. -/
theorem Inv.execCmd (hs : s.Inv opened s.held) (hnew : s.objs i = none)
    (h : s.execCmd i k = some s') :
    s'.Inv opened s'.held ∧ (s'.Leaked ↔ s.Leaked ∨ k.first ≠ none) := by
  simp only [SubpSystem.execCmd, Option.bind_eq_bind, Option.bind_eq_some_iff] at h
  obtain ⟨t, ht, h⟩ := h
  obtain ⟨hinv, hleaked⟩ := hs.construct hnew ht
  split at h
  case h_1 o ho =>
    obtain rfl := Option.some.inj h
    obtain ⟨hinv', hleaked'⟩ := (hinv.exit (t.children.length - 1)).destroy ho
    exact ⟨hinv', hleaked'.trans hleaked⟩
  case h_2 =>
    obtain rfl := Option.some.inj h
    exact ⟨hinv, hleaked⟩

/-- A step keeps the invariant; a descriptor leaks in it if and only if it is not `Proper`. -/
theorem Inv.step (hs : s.Inv opened s.held) (h : step s l = some s') :
    s'.Inv opened s'.held ∧ (s'.Leaked ↔ s.Leaked ∨ ¬ s.Proper l) := by
  cases l with
  | construct i k =>
      simp only [SubpSystem.step] at h
      split at h
      case isTrue hnew => exact hs.construct hnew h
      case isFalse => cases h
  | execCmd i k =>
      simp only [SubpSystem.step] at h
      split at h
      case isTrue hnew => exact hs.execCmd hnew h
      case isFalse => cases h
  | destroy i =>
      simp only [SubpSystem.step] at h
      split at h
      case h_1 o ho =>
        obtain rfl := Option.some.inj h
        have hdestroy := hs.destroy ho
        exact ⟨hdestroy.1, by simp [hdestroy.2, Proper]⟩
      case h_2 => cases h
  | exit k =>
      simp only [SubpSystem.step] at h
      split at h
      case isTrue =>
        obtain rfl := Option.some.inj h
        exact ⟨hs.exit k, by simp [Proper, Leaked, SubpSystem.exit]⟩
      case isFalse => cases h

omit [DecidableEq ι] in
/-- At first there is what was there before. -/
theorem inv_init (opened : FdTable) :
    (init opened : SubpSystem ι).Inv opened (init opened : SubpSystem ι).held := by
  refine ⟨fun fd => ?_, fun fd => ?_, fun fd i => ?_, nofun⟩
  · simp [init]
  · cases h : opened fd <;> simp [init, h]
  · cases h : opened fd <;> simp [init, SubpSystem.held, h]

/-! ## The theorem -/

omit [DecidableEq ι] in
/-- It all depends on the integers of the constructors. -/
theorem clean_iff_not_leaked (hs : s.Inv opened s.held) : s.Clean opened ↔ ¬ s.Leaked := by
  constructor
  · rintro hclean ⟨fd, hfd⟩
    by_cases hobjs : ∀ i, s.objs i = none
    · have hopen : s.parent fd ≠ none := fun h => by
        rw [(hs.open_iff fd).mp h] at hfd
        cases hfd
      have hbefore := (hs.before_iff fd).mpr ((hclean.restored hobjs fd).mp hopen)
      rw [hfd] at hbefore
      cases hbefore
    · obtain ⟨i, hi⟩ := not_forall.mp hobjs
      obtain ⟨o, ho⟩ := Option.ne_none_iff_exists'.mp hi
      obtain ⟨x, -, hx⟩ := hs.one i o ho
      exact (hclean.outputs i o ho x).1 hx
  · intro hleaked
    have hobjs : ∀ i o, s.objs i ≠ some o := fun i o ho => by
      obtain ⟨x, hx, -⟩ := hs.one i o ho
      exact hleaked ⟨x, hx⟩
    refine ⟨fun hnone fd => ?_, fun i o ho => absurd ho (hobjs i o),
      fun i o ho => absurd ho (hobjs i o)⟩
    rw [← hs.before_iff fd, Ne, hs.open_iff fd]
    cases howner : s.owner fd with
    | none => simp
    | some who =>
        cases who with
        | before => simp
        | raw => exact absurd ⟨fd, howner⟩ hleaked
        | stream i =>
            obtain ⟨o, ho, -⟩ := (hs.stream_iff fd i).mp howner
            exact absurd ho (hobjs i o)

/-- **Descriptors.** In every run, no constructor gets beyond its first `pipe` if and only if the
parent has, without objects, the descriptors it had before, and the ends of the pipes of an object
are open only where they belong. -/
theorem clean_iff (opened : FdTable) (ls : List (SubpSystemLabel ι)) (s : SubpSystem ι)
    (hrun : run step (init opened) ls = some s) :
    AllSteps step Proper (init opened) ls ↔ s.Clean opened := by
  have hinv : ∀ (s : SubpSystem ι) l s', s.Inv opened s.held → step s l = some s' →
      s'.Inv opened s'.held := fun s l s' hs h => (hs.step h).1
  have hinit : (init opened : SubpSystem ι).Inv opened (init opened : SubpSystem ι).held :=
    inv_init opened
  have hnone : ¬ (init opened : SubpSystem ι).Leaked := by
    rintro ⟨fd, hfd⟩
    simp [init] at hfd
  have hs : s.Inv opened s.held := run_inv step (fun _ _ => True) (fun s => s.Inv opened s.held)
    (fun _ _ _ hi _ => hinv _ _ _ hi) hinit (allSteps_true ..) hrun
  rw [clean_iff_not_leaked hs]
  refine allSteps_iff_last (P := fun s => ¬ s.Leaked) hinv ?_ ?_ hinit hnone hrun
  · intro s l s' hs hleaked h
    rw [(hs.step h).2]
    simp [hleaked]
  · intro s l s' hs h
    rw [(hs.step h).2]
    exact fun h' => fun hleaked => h' (.inl hleaked)

/-- The standard descriptors are open. -/
def stdFds : FdTable := fun fd => if 0 ≤ fd ∧ fd ≤ 2 then some (.other fd.toNat) else none

/-- Two constructors that get no pipe. -/
def noPipes : List (SubpSystemLabel (Fin 2)) :=
  [.construct ⟨0, Nat.zero_lt_two⟩ ⟨none, none, none⟩,
    .execCmd ⟨1, Nat.one_lt_two⟩ ⟨none, none, none⟩]

/-- A program whose constructors get no pipes. -/
theorem clean_iff_noPipes : ∃ s, run step (init stdFds) noPipes = some s ∧ s.Clean stdFds := by
  have hok : AllSteps step Proper (init stdFds) noPipes := by decide
  obtain ⟨s, hs⟩ := Option.isSome_iff_exists.mp
    (show (run step (init stdFds) noPipes).isSome = true by decide)
  exact ⟨s, hs, (clean_iff stdFds noPipes s hs).mp hok⟩

/-- One `exec_cmd`, of which the read end of the first pipe stays open. -/
theorem zero_left : ¬ ∀ (opened : FdTable) (ls : List (SubpSystemLabel (Fin 1)))
    (s : SubpSystem (Fin 1)), run step (init opened) ls = some s → s.Clean opened := by
  intro h
  have hleft : (run step (init stdFds) [.execCmd (0 : Fin 1) ⟨some (3, 4), some (5, 6), some (7, 8)⟩]).map
      (fun s => (s.objs 0, s.parent 3)) = some (none, some (.pipeEnd 0 .read)) := by
    decide +kernel
  obtain ⟨s, hs, hobs⟩ := Option.map_eq_some_iff.mp hleft
  obtain ⟨hnone, hopen⟩ := Prod.ext_iff.mp hobs
  have hrestored := (h _ _ s hs).restored fun i => Subsingleton.elim 0 i ▸ hnone
  have h3 : s.parent 3 ≠ none := by simp [show s.parent 3 = _ from hopen]
  exact absurd ((hrestored 3).mp h3) (by decide)

end SubpSystem

end Cppev
