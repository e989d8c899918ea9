import Cppev.Lib.Holding

/-!
# Mappings and semaphore handles

Programs that construct, move and destroy `shared_memory` and `semaphore` objects. A
`shared_memory` has a mapping if `ptr_` and `size_` say so, a `semaphore` has a handle unless `sem_` is
`SEM_FAILED`; both classes are a `Holder`, and moves of both overwrite what the target has.

* `released_iff`: in which programs each mapping is unmapped and each handle is closed exactly once.
-/

namespace Cppev

/-! ## Two classes of handles

Only what the moves and the destructors use: the mapping and its name, and the handle. -/

/-- `class shared_memory`. A null pointer is `none`. -/
structure SharedMemoryObj where
  name : String
  size : Int
  ptr : Option Addr
  creator : Bool
  deriving DecidableEq, Repr

/-- `class semaphore`. `SEM_FAILED` is `none`. -/
structure SemaphoreObj where
  name : String
  sem : Option Addr
  creator : Bool
  deriving DecidableEq, Repr

/-- What is released: a mapping with `munmap(ptr, size)`, a handle with `sem_close`. -/
inductive IpcResource where
  | mapping (ptr : Addr) (size : Int)
  | handle (sem : Addr)
  deriving DecidableEq, Repr

namespace SharedMemoryObj

/-- `shared_memory::move`, and what is left of `other`. -/
def move (this other : SharedMemoryObj) : SharedMemoryObj × SharedMemoryObj :=
  ({ this with
      name := other.name, size := other.size, ptr := other.ptr, creator := other.creator },
    { other with name := "", size := 0, ptr := none, creator := false })

/-- `~shared_memory`. -/
def destroy (o : SharedMemoryObj) : Option IpcResource :=
  match o.ptr with
  | some ptr => if o.size ≠ 0 then some (.mapping ptr o.size) else none
  | none => none

end SharedMemoryObj

namespace SemaphoreObj

/-- `semaphore::move`, and what is left of `other`. -/
def move (this other : SemaphoreObj) : SemaphoreObj × SemaphoreObj :=
  ({ this with name := other.name, sem := other.sem, creator := other.creator },
    { other with name := "", sem := none, creator := false })

/-- `~semaphore`. -/
def destroy (o : SemaphoreObj) : Option IpcResource := o.sem.map .handle

end SemaphoreObj

/-! ## Both as holders

They are instances of one class of objects, which hold a resource or nothing. -/

inductive IpcObj where
  | sharedMemory (o : SharedMemoryObj)
  | semaphore (o : SemaphoreObj)
  deriving DecidableEq, Repr

namespace IpcObj

def destroy : IpcObj → Option IpcResource
  | sharedMemory o => o.destroy
  | semaphore o => o.destroy

/-- The move constructors. What is in the memory of a new object does not matter to the move. -/
def moveNew : IpcObj → IpcObj × IpcObj
  | sharedMemory o =>
    let (this, other) := SharedMemoryObj.move ⟨"", 0, none, false⟩ o
    (sharedMemory this, sharedMemory other)
  | semaphore o =>
    let (this, other) := SemaphoreObj.move ⟨"", none, false⟩ o
    (semaphore this, semaphore other)

/-- The move assignments. -/
def moveTo : IpcObj → IpcObj → Option (IpcObj × IpcObj)
  | sharedMemory this, sharedMemory other =>
    let (this, other) := this.move other
    some (sharedMemory this, sharedMemory other)
  | semaphore this, semaphore other =>
    let (this, other) := this.move other
    some (semaphore this, semaphore other)
  | _, _ => none

/-- Both classes. A constructor that succeeds has a mapping, which is never empty, or a handle. -/
def holder : Holder IpcObj IpcResource where
  held := destroy
  moveNew := moveNew
  moveTo := moveTo
  held_moveNew := fun other => by cases other <;> exact ⟨rfl, rfl⟩
  held_moveTo := fun this other r h => by
    cases this with
    | sharedMemory this =>
        cases other with
        | sharedMemory other =>
            obtain rfl := Option.some.inj h
            exact ⟨rfl, rfl⟩
        | semaphore other => cases h
    | semaphore this =>
        cases other with
        | sharedMemory other => cases h
        | semaphore other =>
            obtain rfl := Option.some.inj h
            exact ⟨rfl, rfl⟩

end IpcObj

open Holding

/-! ## The theorem -/

/-- **Who releases a mapping or a handle.** No assignment is to an object that has one, if and only if
each that was taken has been released once, or is held by one object. Once all objects are gone,
those that were released are those that were taken, each as often, and with its size. -/
theorem released_iff (ops : List (HoldingOp IpcObj)) (s : Holding IpcObj IpcResource)
    (hrun : run (step IpcObj.holder) init ops = some s) :
    (AllSteps (step IpcObj.holder) (Proper IpcObj.holder) init ops ↔
      ∀ r, s.released.count r + s.owner.count r = s.taken.count r) ∧
    ((∀ a, s.objs a = none) →
      (AllSteps (step IpcObj.holder) (Proper IpcObj.holder) init ops ↔ s.released.Perm s.taken)) := by
  have hiff := balanced_iff IpcObj.holder ops s hrun
  refine ⟨hiff, fun hgone => hiff.trans ?_⟩
  have hzero := (inv_of_run hrun).count_eq_zero hgone
  rw [List.perm_iff_count]
  exact forall_congr' fun r => by rw [accounted, hzero r, Nat.add_zero]

/-- A mapping is moved on to an object that has given its own away. -/
def passedOn : List (HoldingOp IpcObj) :=
  [.construct 0 (.sharedMemory ⟨"/a", 12, some 4096, true⟩),
    .construct 1 (.sharedMemory ⟨"/b", 40, some 8192, false⟩),
    .construct 2 (.semaphore ⟨"/s", some 64, true⟩), .moveConstruct 3 0, .moveAssign 0 1,
    .moveAssign 2 2, .destroy 0, .destroy 1, .destroy 2, .destroy 3]

theorem released_iff_passedOn : ∃ s, run (step IpcObj.holder) init passedOn = some s ∧
    s.released.Perm s.taken := by
  have hok : AllSteps (step IpcObj.holder) (Proper IpcObj.holder) init passedOn := by
    decide +kernel
  obtain ⟨s, hs⟩ := Option.isSome_iff_exists.mp
    (show (run (step IpcObj.holder) init passedOn).isSome = true by decide +kernel)
  refine ⟨s, hs, ((released_iff passedOn s hs).2 fun a => ?_).mp hok⟩
  have hobjs : (run (step IpcObj.holder) init passedOn).map (fun s => s.objs a) = some none := by
    match a with
    | 0 | 1 | 2 | 3 | a + 4 => rfl
  simpa [hs] using hobjs

/-- An assignment to an object that has a mapping. -/
theorem mapping_lost :
    ¬ ∀ (ops : List (HoldingOp IpcObj)) (s : Holding IpcObj IpcResource),
      run (step IpcObj.holder) init ops = some s → (∀ a, s.objs a = none) →
      s.released.Perm s.taken := by
  intro h
  let ops : List (HoldingOp IpcObj) :=
    [.construct 0 (.sharedMemory ⟨"/a", 12, some 4096, true⟩),
      .construct 1 (.sharedMemory ⟨"/b", 40, some 8192, false⟩), .moveAssign 0 1, .destroy 0,
      .destroy 1]
  have hview : (run (step IpcObj.holder) init ops).map (fun s => (s.released, s.taken)) =
      some ([.mapping 8192 40], [.mapping 4096 12, .mapping 8192 40]) := by
    decide +kernel
  obtain ⟨s, hs, hlists⟩ := Option.map_eq_some_iff.mp hview
  obtain ⟨hreleased, htaken⟩ := Prod.mk.inj hlists
  have hgone : ∀ a, s.objs a = none := fun a => by
    have hobjs : (run (step IpcObj.holder) init ops).map (fun s => s.objs a) = some none := by
      match a with
      | 0 | 1 | a + 2 => rfl
    simpa [hs] using hobjs
  have hperm := h ops s hs hgone
  rw [hreleased, htaken] at hperm
  exact absurd hperm.length_eq (by decide)

end Cppev
