import Cppev.Ipc.Handles
import Cppev.Nio.Basic

/-!
# What a failed constructor of `shared_memory` leaves

The constructor against every kernel: what `shm_open`, `ftruncate` and `mmap` answer is a parameter.
The state is what the process has opened and created, and has not closed or unlinked. `memset` into
the new mapping is left out.

* `exec_shmOpen`, `exec_construct`: what is left, for each way through the constructor.
* `leftovers_iff`: nothing is, if and only if the constructor fails, if it does, in `shm_open`.
-/

namespace Cppev

/-! ## The constructor, call by call

The answers of the kernel are given, so a constructor that fails half-way is one run of it. -/

/-- What the calls answer; `shm_open` is called three times at most. -/
structure ShmAnswers where
  first : Except Errno Int
  second : Except Errno Int
  third : Except Errno Int
  ftruncate : Except Errno Unit
  mmap : Except Errno Addr

/-- The descriptors that are open, and the names that have been created. -/
structure ShmSystem where
  fds : List Int
  names : List String
  deriving DecidableEq, Repr

abbrev ShmM := Prog Exn ShmSystem

namespace SharedMemoryObj

/-- A `shm_open` that succeeds. -/
def opened (fd : Int) : ShmM Unit := modify fun sys => { sys with fds := fd :: sys.fds }

/-- One that creates the object. -/
def created (name : String) (fd : Int) : ShmM Unit :=
  modify fun sys => { fds := fd :: sys.fds, names := name :: sys.names }

/-- `close(fd)`. -/
def sysClose (fd : Int) : ShmM Unit := modify fun sys => { sys with fds := sys.fds.erase fd }

/-- The descriptor, and `creator_`. -/
def shmOpen (k : ShmAnswers) (name : String) : ShmM (Int × Bool) :=
  match k.first with
  | .ok fd => do
    opened fd
    return (fd, false)
  | .error .ENOENT =>
    match k.second with
    | .ok fd => do
      created name fd
      return (fd, true)
    | .error .EEXIST =>
      match k.third with
      | .ok fd => do
        opened fd
        return (fd, false)
      | .error e => throw (.systemError "shm_open error" e)
    | .error e => throw (.systemError "shm_open error" e)
  | .error e => throw (.systemError "shm_open error" e)

/-- `shared_memory(name, size, mode)`. -/
def construct (k : ShmAnswers) (name : String) (size : Int) : ShmM SharedMemoryObj := do
  let (fd, creator) ← shmOpen k name
  match (if creator = true then k.ftruncate else .ok ()) with
  | .error e => throw (.systemError "ftruncate error" e)
  | .ok () =>
    match k.mmap with
    | .error e => throw (.systemError "mmap error" e)
    | .ok ptr =>
      sysClose fd
      return { name, size, ptr := some ptr, creator }

/-! ## When nothing is left behind

Whatever fails after the opening leaves the descriptor open, and the object if it has been
created. -/

/-- Whether `shm_open` succeeds in the end, and has then created the object. -/
def opens (k : ShmAnswers) : Option Bool :=
  match k.first, k.second, k.third with
  | .ok _, _, _ => some false
  | .error .ENOENT, .ok _, _ => some true
  | .error .ENOENT, .error .EEXIST, .ok _ => some false
  | _, _, _ => none

/-- Nothing fails once the object is open. -/
def Proper (k : ShmAnswers) : Prop :=
  ∀ creator ∈ opens k, (creator = true → k.ftruncate.isOk = true) ∧ k.mmap.isOk = true

/-- With the object open. -/
def withObject (sys : ShmSystem) (name : String) (fd : Int) (creator : Bool) : ShmSystem where
  fds := fd :: sys.fds
  names := if creator = true then name :: sys.names else sys.names

variable {k : ShmAnswers} {name : String} {sys : ShmSystem}

theorem exec_shmOpen (k : ShmAnswers) (name : String) (sys : ShmSystem) :
    (∃ fd creator, opens k = some creator ∧
      (shmOpen k name).exec sys = (.ok (fd, creator), withObject sys name fd creator)) ∨
    (∃ e, opens k = none ∧ (shmOpen k name).exec sys =
      (.error (.systemError "shm_open error" e), sys)) := by
  unfold shmOpen opens
  cases hfirst : k.first with
  | ok fd => exact .inl ⟨fd, false, rfl, rfl⟩
  | error e =>
      cases e with
      | ENOENT =>
          cases hsecond : k.second with
          | ok fd => exact .inl ⟨fd, true, rfl, rfl⟩
          | error e =>
              cases e with
              | EEXIST =>
                  cases hthird : k.third with
                  | ok fd => exact .inl ⟨fd, false, rfl, rfl⟩
                  | error e => exact .inr ⟨e, rfl, rfl⟩
              | _ => exact .inr ⟨_, rfl, rfl⟩
      | _ => exact .inr ⟨_, rfl, rfl⟩

/-- The constructor from `ftruncate` on, with an object that is open. -/
theorem exec_construct (size : Int) {fd : Int} {creator : Bool}
    (hexec : (shmOpen k name).exec sys = (.ok (fd, creator), withObject sys name fd creator)) :
    (∃ e, ¬ ((creator = true → k.ftruncate.isOk = true) ∧ k.mmap.isOk = true) ∧
      (construct k name size).exec sys = (.error e, withObject sys name fd creator)) ∨
    (∃ o, ((creator = true → k.ftruncate.isOk = true) ∧ k.mmap.isOk = true) ∧
      (construct k name size).exec sys =
        (.ok o, { withObject sys name fd creator with fds := sys.fds })) := by
  unfold construct
  rw [Prog.exec_bind_ok hexec]
  cases htruncate : (if creator = true then k.ftruncate else .ok ()) with
  | error e =>
      refine .inl ⟨.systemError "ftruncate error" e, fun h => ?_, ?_⟩
      · split at htruncate
        case isTrue hcreator =>
          have hok := h.1 hcreator
          rw [htruncate] at hok
          cases hok
        case isFalse => cases htruncate
      · simp only [htruncate, Prog.exec_throw]
  | ok u =>
      have hok : creator = true → k.ftruncate.isOk = true := fun hcreator => by
        rw [if_pos hcreator] at htruncate
        rw [htruncate]
        rfl
      cases hmmap : k.mmap with
      | error e =>
          refine .inl ⟨.systemError "mmap error" e, fun h => (nomatch h.2), ?_⟩
          simp only [htruncate, Prog.exec_throw]
      | ok ptr =>
          refine .inr ⟨{ name, size, ptr := some ptr, creator }, ⟨hok, rfl⟩, ?_⟩
          simp only [htruncate, sysClose, withObject, Prog.exec_bind, Prog.exec_modify,
            Prog.exec_pure, List.erase_cons_head]

/-- **What a constructor that throws leaves.** Whatever the calls answer: there is no descriptor and
no name more than before, if and only if nothing has failed with the object open. -/
theorem leftovers_iff (k : ShmAnswers) (name : String) (size : Int) (sys : ShmSystem) :
    (∀ e sys', (construct k name size).exec sys = (.error e, sys') → sys' = sys) ↔ Proper k := by
  rcases exec_shmOpen k name sys with ⟨fd, creator, hopens, hexec⟩ | ⟨e, hopens, hexec⟩
  · have hproper : Proper k ↔
        ((creator = true → k.ftruncate.isOk = true) ∧ k.mmap.isOk = true) := by
      simp [Proper, hopens]
    rw [hproper]
    rcases exec_construct size hexec with ⟨e, hfails, heq⟩ | ⟨o, hok, heq⟩
    · refine iff_of_false (fun h => ?_) hfails
      have hleft := congrArg (fun sys => sys.fds.length) (h _ _ heq)
      simp [withObject] at hleft
    · refine iff_of_true (fun e sys' h => ?_) hok
      rw [heq] at h
      cases h
  · have heq : (construct k name size).exec sys = (.error (.systemError "shm_open error" e), sys) := by
      unfold construct
      rw [Prog.exec_bind_error hexec]
    refine iff_of_true (fun e' sys' h => ?_) (by simp [Proper, hopens])
    rw [heq] at h
    exact (Prod.mk.inj h).2.symm

/-- There is no room for the object. -/
theorem object_left :
    let k : ShmAnswers := ⟨.error .ENOENT, .ok 5, .error (.other 0), .error (.other 28), .ok 4096⟩
    (construct k "/cppev" 12).exec ⟨[], []⟩ =
        (.error (.systemError "ftruncate error" (.other 28)), ⟨[5], ["/cppev"]⟩) ∧
      ¬ ∀ (k : ShmAnswers) (name : String) (size : Int) (sys sys' : ShmSystem) (e : Exn),
        (construct k name size).exec sys = (.error e, sys') → sys' = sys := by
  refine ⟨rfl, fun h => ?_⟩
  have hsame := h ⟨.error .ENOENT, .ok 5, .error (.other 0), .error (.other 28), .ok 4096⟩ "/cppev" 12
    ⟨[], []⟩ _ _ rfl
  exact absurd hsame (by decide)

end SharedMemoryObj

end Cppev
