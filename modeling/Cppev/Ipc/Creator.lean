import Cppev.Lib.Transition
import Cppev.Nio.Basic

/-!
# Who creates a named object

The constructors of `shared_memory` and `semaphore`, run by any number of processes with one name.
Both open the object, create it exclusively if there is none, and open it again if it has been
created in the meantime; then each has its own calls to make (`IpcClass.rest`). Between two system
calls of a process, the others may make any number of theirs. Nobody unlinks the name.

* `Inv.call`: one object at most is created, by one process, and the others get that one.
* `exactly_one_creator`: every constructor returns, and one of them is the creator.
-/

namespace Cppev

/-! ## The constructors -/

/-- The calls after the object is open. `memset` is not a system call, but takes time, too. -/
inductive IpcCall where
  | ftruncate | mmap | close | memset
  deriving DecidableEq, Repr

/-- What the two classes do not share. `O` is what the kernel keeps of an object. -/
structure IpcClass (O : Type) where
  /-- For `throw_system_error`, if the object cannot be opened. -/
  what : String
  /-- An object that has just been created. -/
  new : O
  /-- What follows, for the creator and for the others. -/
  rest : Bool → List IpcCall
  exec : IpcCall → O → O

/-- A shared memory object. Which of its bytes have been written since it was created, other than by
a constructor, and whether a constructor has written one of these again, is recorded with it. -/
structure ShmObject where
  size : Nat
  bytes : Nat → Byte
  written : Nat → Bool
  overwritten : Bool

namespace ShmObject

def new : ShmObject := ⟨0, fun _ => 0, fun _ => false, false⟩

/-- What is beyond the end reads as zero when the object grows. -/
def ftruncate (o : ShmObject) (size : Nat) : ShmObject :=
  { o with size, bytes := fun p => if p < o.size ∧ p < size then o.bytes p else 0 }

/-- `memset(ptr_, 0, size_)`. -/
def clear (o : ShmObject) (size : Nat) : ShmObject :=
  { o with
    bytes := fun p => if p < size then 0 else o.bytes p
    overwritten := o.overwritten || (List.range size).any o.written }

end ShmObject

/-- What `shared_memory` does with the descriptor. -/
def shmRest (creator : Bool) : List IpcCall :=
  if creator = true then [.ftruncate, .mmap, .close, .memset] else [.mmap, .close]

/-- `class shared_memory`, with `size_`. -/
def sharedMemory (size : Nat) : IpcClass ShmObject where
  what := "shm_open error"
  new := .new
  rest := shmRest
  exec := fun call o =>
    match call with
    | .ftruncate => o.ftruncate size
    | .memset => o.clear size
    | .mmap | .close => o

/-- `class semaphore`; the kernel keeps its value. -/
def semaphore : IpcClass Nat where
  what := "sem_open error"
  new := 0
  rest := fun _ => []
  exec := fun _ value => value

/-- What an `IpcCall` throws if it fails; the others are not checked. -/
def IpcCall.what : IpcCall → Option String
  | .ftruncate => some "ftruncate error"
  | .mmap => some "mmap error"
  | .close | .memset => none

/-- Where a process is in its constructor. -/
inductive IpcPc where
  /-- Before the first call, which opens. -/
  | opening
  /-- After `ENOENT`, before the one with `O_CREAT | O_EXCL`. -/
  | creating
  /-- After `EEXIST`, before the last one. -/
  | reopening
  /-- With an open object; the constructor returns when nothing is left to do. -/
  | running (obj : Nat) (creator : Bool) (todo : List IpcCall)
  | thrown (e : Exn)
  deriving DecidableEq, Repr

/-! ### Processes with one name

A process has opened the object, or created it, or it has thrown. The name is bound to one object at
most, and the object that it is bound to stays, as nobody unlinks. -/

namespace IpcPc

def returned (pc : IpcPc) (obj : Nat) (creator : Bool) : Prop := pc = running obj creator []

/-- The object that is open. -/
def obj : IpcPc → Option Nat
  | running obj _ _ => some obj
  | _ => none

/-- `creator_`. -/
def creator : IpcPc → Bool
  | running _ creator _ => creator
  | _ => false

end IpcPc

/-- The name, the objects and the processes. -/
structure Ipc (ι O : Type) where
  /-- The object that has the name. -/
  name : Option Nat
  /-- How many objects there are, and what the kernel keeps of each. -/
  made : Nat
  objs : Nat → O
  pc : ι → IpcPc

/-- A process calls, and the call may fail. -/
inductive IpcLabel (ι : Type) where
  /-- The next call, answered by what there is. -/
  | call (i : ι)
  /-- The next call fails for another reason. -/
  | fail (i : ι) (e : Errno)
  deriving DecidableEq, Repr

namespace Ipc

variable {ι O : Type} [DecidableEq ι]

def goto (s : Ipc ι O) (i : ι) (pc : IpcPc) : Ipc ι O := { s with pc := Function.update s.pc i pc }

def call (c : IpcClass O) (s : Ipc ι O) (i : ι) : Option (Ipc ι O) :=
  match s.pc i with
  | .opening =>
    match s.name with
    | some o => some (s.goto i (.running o false (c.rest false)))
    | none => some (s.goto i .creating)
  | .creating =>
    match s.name with
    | some _ => some (s.goto i .reopening)
    | none =>
      some ({ s with
        name := some s.made
        made := s.made + 1
        objs := Function.update s.objs s.made c.new }.goto i (.running s.made true (c.rest true)))
  | .reopening =>
    match s.name with
    | some o => some (s.goto i (.running o false (c.rest false)))
    | none => some (s.goto i (.thrown (.systemError c.what .ENOENT)))
  | .running o creator (call :: todo) =>
    some ({ s with objs := Function.update s.objs o (c.exec call (s.objs o)) }.goto i
      (.running o creator todo))
  | .running _ _ [] | .thrown _ => none

/-- That there is no such object, or that there is one, are not other reasons. -/
def fail (c : IpcClass O) (s : Ipc ι O) (i : ι) (e : Errno) : Option (Ipc ι O) :=
  match s.pc i with
  | .opening => if e = .ENOENT then none else some (s.goto i (.thrown (.systemError c.what e)))
  | .creating => if e = .EEXIST then none else some (s.goto i (.thrown (.systemError c.what e)))
  | .reopening => some (s.goto i (.thrown (.systemError c.what e)))
  | .running _ _ (call :: _) => call.what.map fun what => s.goto i (.thrown (.systemError what e))
  | .running _ _ [] | .thrown _ => none

def step (c : IpcClass O) (s : Ipc ι O) : IpcLabel ι → Option (Ipc ι O)
  | .call i => s.call c i
  | .fail i e => s.fail c i e

/-- All processes are about to construct, and there is no object with the name. -/
def init (objs : Nat → O) : Ipc ι O := { name := none, made := 0, objs, pc := fun _ => .opening }

/-- Before an object is created nobody is past the attempt to do it, and then all refer to that
object, and one has created it. -/
structure Inv (s : Ipc ι O) : Prop where
  absent : s.name = none → ∀ i, s.pc i = .opening ∨ s.pc i = .creating
  obj : ∀ i o, (s.pc i).obj = some o → s.name = some o
  creator : s.name ≠ none → ∃! i, (s.pc i).creator = true
  thrown : ∀ i e, s.pc i ≠ .thrown e

variable {c : IpcClass O} {s s' : Ipc ι O} {i : ι}

omit [DecidableEq ι] in
theorem Inv.init (objs : Nat → O) : (init objs : Ipc ι O).Inv :=
  ⟨fun _ _ => .inl rfl, fun _ _ h => (nomatch h), fun h => absurd rfl h, fun _ _ h => (nomatch h)⟩

@[simp] theorem pc_goto (s : Ipc ι O) (i j : ι) (pc : IpcPc) :
    (s.goto i pc).pc j = if j = i then pc else s.pc j := by
  simp [goto, Function.update_apply]

/-- A step that leaves the name alone, and does not make the process a creator. -/
theorem Inv.goto (hi : s.Inv) {pc : IpcPc} (objs : Nat → O)
    (hnone : s.name = none → pc = .opening ∨ pc = .creating)
    (hobj : ∀ o, pc.obj = some o → s.name = some o) (hcreator : pc.creator = (s.pc i).creator)
    (hthrown : ∀ e, pc ≠ .thrown e) : ({ s with objs }.goto i pc).Inv := by
  have hsame : ∀ j, (({ s with objs }.goto i pc).pc j).creator = (s.pc j).creator := fun j => by
    by_cases hji : j = i <;> simp [hji, hcreator]
  refine ⟨fun hn j => ?_, fun j o hj => ?_, fun hn => ?_, fun j e => ?_⟩
  · by_cases hji : j = i
    · simpa [hji] using hnone hn
    · simpa [hji] using hi.absent hn j
  · by_cases hji : j = i
    · exact hobj o (by simpa [hji] using hj)
    · exact hi.obj j o (by simpa [hji] using hj)
  · simpa only [hsame] using hi.creator hn
  · by_cases hji : j = i
    · simpa [hji] using hthrown e
    · simpa [hji] using hi.thrown j e

/-- The object is created. -/
theorem Inv.create (hi : s.Inv) (hn : s.name = none) (todo : List IpcCall)
    (objs : Nat → O) :
    ({ s with name := some s.made, made := s.made + 1, objs }.goto i
      (.running s.made true todo)).Inv := by
  -- so far nobody has an object, let alone one it has created
  have hold : ∀ j, (s.pc j).obj = none ∧ (s.pc j).creator = false := fun j => by
    rcases hi.absent hn j with hj | hj <;> simp [hj, IpcPc.obj, IpcPc.creator]
  refine ⟨fun h => (nomatch h), fun j o hj => ?_, fun _ => ⟨i, ?_, fun j hj => ?_⟩, fun j e => ?_⟩
  · by_cases hji : j = i
    · exact congrArg some (by simpa [hji, IpcPc.obj] using hj)
    · simp [hji, hold] at hj
  · simp [IpcPc.creator]
  · by_cases hji : j = i
    · exact hji
    · simp [hji, hold] at hj
  · by_cases hji : j = i
    · simp [hji]
    · simpa [hji] using hi.thrown j e

/-! ### What a call does -/

/-- What a call can do. -/
inductive Called (c : IpcClass O) (s : Ipc ι O) (i : ι) : Ipc ι O → Prop
  | opened (o : Nat) (hn : s.name = some o) (hpc : s.pc i = .opening ∨ s.pc i = .reopening) :
    Called c s i (s.goto i (.running o false (c.rest false)))
  | missing (hn : s.name = none) (hpc : s.pc i = .opening) : Called c s i (s.goto i .creating)
  | created (hn : s.name = none) (hpc : s.pc i = .creating) : Called c s i ({ s with
      name := some s.made
      made := s.made + 1
      objs := Function.update s.objs s.made c.new }.goto i (.running s.made true (c.rest true)))
  | present (hn : s.name ≠ none) (hpc : s.pc i = .creating) : Called c s i (s.goto i .reopening)
  | gone (hn : s.name = none) (hpc : s.pc i = .reopening) :
    Called c s i (s.goto i (.thrown (.systemError c.what .ENOENT)))
  | next (o : Nat) (creator : Bool) (call : IpcCall) (todo : List IpcCall)
    (hpc : s.pc i = .running o creator (call :: todo)) : Called c s i ({ s with
      objs := Function.update s.objs o (c.exec call (s.objs o)) }.goto i (.running o creator todo))

theorem called_of_call (h : s.call c i = some s') : Called c s i s' := by
  simp only [Ipc.call] at h
  split at h
  case h_1 hpc =>
    split at h <;> obtain rfl := Option.some.inj h
    case h_1 o hn => exact .opened o hn (.inl hpc)
    case h_2 hn => exact .missing hn hpc
  case h_2 hpc =>
    split at h <;> obtain rfl := Option.some.inj h
    case h_1 o hn => exact .present (by simp [hn]) hpc
    case h_2 hn => exact .created hn hpc
  case h_3 hpc =>
    split at h <;> obtain rfl := Option.some.inj h
    case h_1 o hn => exact .opened o hn (.inr hpc)
    case h_2 hn => exact .gone hn hpc
  case h_4 o creator call todo hpc =>
    obtain rfl := Option.some.inj h
    exact .next o creator call todo hpc
  case h_5 => cases h
  case h_6 => cases h

/-- A call that fails ends the constructor with an exception. -/
theorem thrown_of_fail {e : Errno} (h : s.fail c i e = some s') : ∃ x, s' = s.goto i (.thrown x) := by
  simp only [fail] at h
  split at h
  case h_1 | h_2 =>
    split at h
    case isTrue => cases h
    case isFalse => exact ⟨_, (Option.some.inj h).symm⟩
  case h_3 => exact ⟨_, (Option.some.inj h).symm⟩
  case h_4 =>
    obtain ⟨what, -, rfl⟩ := Option.map_eq_some_iff.mp h
    exact ⟨_, rfl⟩
  case h_5 => cases h
  case h_6 => cases h

/-- One call. -/
theorem Inv.call (hi : s.Inv) (h : s.call c i = some s') : s'.Inv := by
  cases called_of_call h with
  | opened o hn hpc =>
      refine hi.goto s.objs (by simp [hn]) (by simp [hn, IpcPc.obj]) ?_ (by simp)
      rcases hpc with hpc | hpc <;> simp [hpc, IpcPc.creator]
  | missing hn hpc =>
      exact hi.goto s.objs (by simp) (by simp [IpcPc.obj]) (by simp [hpc, IpcPc.creator]) (by simp)
  | created hn hpc => exact hi.create hn _ _
  | present hn hpc =>
      exact hi.goto s.objs (by simp [hn]) (by simp [IpcPc.obj]) (by simp [hpc, IpcPc.creator])
        (by simp)
  -- without a name, nobody has come as far as `reopening`
  | gone hn hpc => simpa [hpc] using hi.absent hn i
  | next o creator call todo hpc =>
      have hn : s.name = some o := hi.obj i o (by simp [hpc, IpcPc.obj])
      exact hi.goto _ (by simp [hn]) (by simp [hn, IpcPc.obj]) (by simp [hpc, IpcPc.creator]) (by simp)

/-! ## The constructors return

Every call brings a constructor nearer to its end: there is one way through it, with two tries to
open. -/

/-- How many calls a constructor has to make at most. -/
def left (c : IpcClass O) : IpcPc → Nat
  | .opening => 3 + max (c.rest true).length (c.rest false).length
  | .creating => 2 + max (c.rest true).length (c.rest false).length
  | .reopening => 1 + (c.rest false).length
  | .running _ _ todo => todo.length
  | .thrown _ => 0

/-- A call is one call less. -/
theorem left_call (h : s.call c i = some s') :
    left c (s'.pc i) < left c (s.pc i) ∧ ∀ j, j ≠ i → s'.pc j = s.pc j := by
  refine ⟨?_, fun j hj => by cases called_of_call h <;> simp [hj]⟩
  cases called_of_call h with
  | opened o hn hpc =>
      rcases hpc with hpc | hpc <;> simp only [pc_goto, if_true, hpc, left] <;> omega
  | missing hn hpc => simp [hpc, left]
  | created hn hpc =>
      simp only [pc_goto, if_true, hpc, left]
      omega
  | present hn hpc =>
      simp only [pc_goto, if_true, hpc, left]
      omega
  | gone hn hpc => simp [hpc, left]
  | next o creator call todo hpc => simp [hpc, left]

/-- Only a constructor that has returned, or thrown, makes no more calls. -/
theorem Inv.returned_or_call (hi : s.Inv) (c : IpcClass O) (i : ι) :
    (∃ o creator, (s.pc i).returned o creator) ∨ (s.call c i).isSome = true := by
  unfold Ipc.call
  cases hpc : s.pc i with
  | opening => cases s.name <;> simp
  | creating => cases s.name <;> simp
  | reopening => cases s.name <;> simp
  | running o creator todo =>
      cases todo with
      | nil => exact .inl ⟨o, creator, rfl⟩
      | cons call todo => exact .inr rfl
  | thrown e => exact absurd hpc (hi.thrown i e)

/-- If no call fails for another reason, nobody throws, and nobody makes more calls than `left` says. -/
def Within (c : IpcClass O) (hist : List (IpcLabel ι)) (s : Ipc ι O) : Prop :=
  (∀ l ∈ hist, ∃ i, l = .call i) →
    s.Inv ∧ ∀ i, hist.count (.call i) + left c (s.pc i) ≤ left c .opening

/-- The number of calls a process has made and those it has left. -/
theorem Within.step {hist : List (IpcLabel ι)} {l : IpcLabel ι} (h : Within c hist s)
    (hstep : step c s l = some s') : Within c (hist ++ [l]) s' := by
  intro hall
  obtain ⟨hi, hleft⟩ := h fun l' hl' => hall l' (List.mem_append_left _ hl')
  obtain ⟨i, rfl⟩ := hall l (List.mem_append_right _ (List.mem_singleton_self l))
  -- one call more of `i`, and one call less to make; nothing changes for the others
  obtain ⟨hless, hother⟩ := left_call hstep
  refine ⟨hi.call hstep, fun j => ?_⟩
  have hj := hleft j
  by_cases hji : j = i
  · subst hji
    simp only [List.count_append, List.count_singleton_self]
    omega
  · have hcount : (hist ++ [IpcLabel.call i]).count (.call j) = hist.count (.call j) := by
      simp [List.count_append, Ne.symm hji]
    rw [hcount, hother j hji]
    exact hj

theorem within_of_run {objs : Nat → O} {ls : List (IpcLabel ι)}
    (hrun : run (Ipc.step c) (init objs) ls = some s) : Within c ls s := by
  have h0 : Within c [] (init objs : Ipc ι O) := fun _ => ⟨Inv.init objs, fun i => by simp [init]⟩
  exact run_hist (Ipc.step c) (Within c) (fun _ _ _ _ h hstep => h.step hstep) h0 hrun

/-- **One creator.** As long as no call fails for another reason: a constructor that has not returned
makes another call, and makes less than `left c .opening` of them before; all those that have
returned refer to the same object; and once all have, one of them is the creator. -/
theorem exactly_one_creator (c : IpcClass O) (objs : Nat → O) (ls : List (IpcLabel ι)) (s : Ipc ι O)
    (hcalls : ∀ l ∈ ls, ∃ i, l = .call i) (hrun : run (step c) (init objs) ls = some s) :
    (∀ i, (∃ o creator, (s.pc i).returned o creator) ∨
      (step c s (.call i)).isSome = true ∧ ls.count (.call i) < left c .opening) ∧
    (∀ i j o o' creator creator', (s.pc i).returned o creator → (s.pc j).returned o' creator' →
      o = o') ∧
    (∀ _ : ι, (∀ i, ∃ o creator, (s.pc i).returned o creator) → ∃! i, (s.pc i).creator = true) := by
  obtain ⟨hi, hleft⟩ := within_of_run hrun hcalls
  have hname : ∀ i o creator, (s.pc i).returned o creator → s.name = some o := by
    intro i o creator hpc
    exact hi.obj i o (by rw [hpc]; rfl)
  refine ⟨fun i => ?_, fun i j o o' creator creator' hpc hpc' => ?_, fun i hall => ?_⟩
  · rcases hi.returned_or_call c i with hret | hcall
    · exact .inl hret
    · obtain ⟨s', hs'⟩ := Option.isSome_iff_exists.mp hcall
      have hless := (left_call hs').1
      have hcount := hleft i
      exact .inr ⟨hcall, by omega⟩
  · exact Option.some.inj ((hname i o creator hpc).symm.trans (hname j o' creator' hpc'))
  · obtain ⟨o, creator, hpc⟩ := hall i
    exact hi.creator (by simp [hname i o creator hpc])

/-- Two processes find no object, and the second attempt to create it fails. -/
def race : List (IpcLabel (Fin 2)) :=
  let i : Fin 2 := ⟨0, Nat.zero_lt_two⟩
  let j : Fin 2 := ⟨1, Nat.one_lt_two⟩
  [.call i, .call j, .call j, .call i, .call i, .call j, .call j, .call j, .call j, .call i, .call i]

/-- Two processes find no object; both try to create it. -/
theorem exactly_one_creator_race :
    (∃ s, run (step (sharedMemory 12)) (init fun _ => .new) race = some s ∧
      ∃! i, (s.pc i).creator = true) ∧
    ∃ s, run (step semaphore) (init fun _ => 0) (race.take 5) = some s ∧
      ∃! i, (s.pc i).creator = true := by
  constructor
  · have hpcs : (run (step (sharedMemory 12)) (init fun _ => .new) race).map
        (fun s => (s.pc 0, s.pc 1)) = some (.running 0 false [], .running 0 true []) := by
      decide +kernel
    obtain ⟨s, hs, hpc⟩ := Option.map_eq_some_iff.mp hpcs
    obtain ⟨h0, h1⟩ := Prod.mk.inj hpc
    refine ⟨s, hs, (exactly_one_creator _ _ race s (by simp [race]) hs).2.2 0 ?_⟩
    exact Fin.forall_fin_two.mpr ⟨⟨0, false, h0⟩, ⟨0, true, h1⟩⟩
  · have hpcs : (run (step semaphore) (init fun _ => 0) (race.take 5)).map
        (fun s => (s.pc 0, s.pc 1)) = some (.running 0 false [], .running 0 true []) := by
      decide +kernel
    obtain ⟨s, hs, hpc⟩ := Option.map_eq_some_iff.mp hpcs
    obtain ⟨h0, h1⟩ := Prod.mk.inj hpc
    refine ⟨s, hs, (exactly_one_creator _ _ (race.take 5) s (by simp [race]) hs).2.2 0 ?_⟩
    exact Fin.forall_fin_two.mpr ⟨⟨0, false, h0⟩, ⟨0, true, h1⟩⟩

end Ipc

end Cppev
