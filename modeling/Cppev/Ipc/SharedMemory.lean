import Cppev.Ipc.Creator

/-!
# Shared memory that is used too early

Constructors of `shared_memory` with one name and one size, and processes that write through their
mapping once their constructor has returned. The creator gives the object its name before its size
and its zeros; the other constructors wait for neither.

* `Sized.step`: who has created an object has given it its size before it goes on.
* `initialised_step`, `initialised_iff`: which steps, and which runs, keep what is mapped large enough
  and what is written as it is.
-/

namespace Cppev

namespace ShmObject

variable {size : Nat} {o : ShmObject}

/-- No constructor takes away what an object has. -/
theorem le_size_exec (call : IpcCall) (h : size ≤ o.size) :
    size ≤ ((sharedMemory size).exec call o).size := by
  cases call with
  | ftruncate => exact le_rfl
  | mmap | close | memset => exact h

theorem overwritten_exec (call : IpcCall) :
    ((sharedMemory size).exec call o).overwritten =
      (o.overwritten || decide (call = .memset ∧ ∃ p < size, o.written p = true)) := by
  cases call with
  | ftruncate | mmap | close => simp [sharedMemory, ftruncate]
  | memset =>
      have hany : (List.range size).any o.written = decide (∃ p < size, o.written p = true) := by
        rw [Bool.eq_iff_iff]
        simp
      simp [sharedMemory, clear, hany]

/-- A byte is written through a mapping. -/
def write (o : ShmObject) (p : Nat) (b : Byte) : ShmObject :=
  { o with bytes := Function.update o.bytes p b, written := Function.update o.written p true }

end ShmObject

inductive ShmLabel (ι : Type) where
  | ctor (l : IpcLabel ι)
  /-- A byte of the mapping of a process whose constructor has returned. -/
  | write (i : ι) (p : Nat) (b : Byte)
  deriving DecidableEq, Repr

/-! ## Processes that write -/

namespace SharedMemory

variable {ι : Type} [DecidableEq ι] {size : Nat}

/-- Beyond the end of the object there is nothing to be written. -/
def step (size : Nat) (s : Ipc ι ShmObject) : ShmLabel ι → Option (Ipc ι ShmObject)
  | .ctor l => Ipc.step (sharedMemory size) s l
  | .write i p b =>
    match s.pc i with
    | .running o _ [] =>
      if p < size ∧ p < (s.objs o).size then
        some { s with objs := Function.update s.objs o ((s.objs o).write p b) }
      else none
    | _ => none

def init : Ipc ι ShmObject := Ipc.init fun _ => .new

/-- What is mapped is as large as the mapping, and no constructor has written what others had
written. -/
structure Initialised (size : Nat) (s : Ipc ι ShmObject) : Prop where
  covered : ∀ i o creator, (s.pc i).returned o creator → size ≤ (s.objs o).size
  kept : ∀ o, (s.objs o).overwritten = false

/-- Who is not the creator returns when the object has its size, and the creator clears it while
nothing has been written. -/
def Proper (size : Nat) (s : Ipc ι ShmObject) : ShmLabel ι → Prop
  | .ctor (.call i) =>
    match s.pc i with
    | .running o false [.close] => size ≤ (s.objs o).size
    | .running o true [.memset] => ∀ p < size, (s.objs o).written p = false
    | _ => True
  | _ => True

instance (size : Nat) (s : Ipc ι ShmObject) : (l : ShmLabel ι) → Decidable (Proper size s l)
  | .ctor (.call i) =>
    match h : s.pc i with
    | .running o creator [call] =>
      match creator, call with
      | false, .close => decidable_of_iff (size ≤ (s.objs o).size) (by simp [Proper, h])
      | true, .memset =>
        decidable_of_iff (∀ p < size, (s.objs o).written p = false) (by simp [Proper, h])
      | false, .ftruncate | false, .mmap | false, .memset | true, .ftruncate | true, .mmap
      | true, .close => isTrue (by simp [Proper, h])
    | .running o creator [] | .running o creator (_ :: _ :: _) => isTrue (by simp [Proper, h])
    | .opening | .creating | .reopening | .thrown _ => isTrue (by simp [Proper, h])
  | .ctor (.fail ..) | .write .. => isTrue trivial

/-- How far constructors are. -/
structure Sized (size : Nat) (s : Ipc ι ShmObject) : Prop where
  named : ∀ o, s.name = some o → o < s.made
  todo : ∀ i o creator todo, s.pc i = .running o creator todo →
    o < s.made ∧ todo <:+ shmRest creator
  sized : ∀ i o todo, s.pc i = .running o true todo → .ftruncate ∉ todo → size ≤ (s.objs o).size

variable {s s' : Ipc ι ShmObject} {i : ι}

omit [DecidableEq ι] in
theorem Sized.init : Sized size (init : Ipc ι ShmObject) :=
  ⟨fun _ h => (nomatch h), fun _ _ _ _ h => (nomatch h), fun _ _ _ h => (nomatch h)⟩

omit [DecidableEq ι] in
theorem initialised_init : Initialised size (init : Ipc ι ShmObject) :=
  ⟨fun _ _ _ h => (nomatch h), fun _ => rfl⟩

/-! ## The object grows

Two facts carry the proof. The creator has given the object its size before it makes its next call,
and what an object has it keeps; so the mapping of a constructor that has returned is inside. -/

/-- The last call of a constructor. -/
theorem last_of_suffix {creator : Bool} {call : IpcCall} (h : [call] <:+ shmRest creator) :
    (creator = false ∧ call = .close) ∨ (creator = true ∧ call = .memset) := by
  revert h
  cases creator <;> cases call <;> decide

/-- `memset` is the last one. -/
theorem eq_nil_of_memset {creator : Bool} {todo : List IpcCall}
    (h : .memset :: todo <:+ shmRest creator) : todo = [] := by
  cases creator with
  | false => simp [shmRest, List.suffix_cons_iff] at h
  | true => simpa [shmRest, List.suffix_cons_iff] using h

omit [DecidableEq ι] in
/-- Objects do not shrink, and a process is where it was or where it may be. -/
theorem Sized.mono (hs : Sized size s) (hname : ∀ o, s'.name = some o → o < s'.made)
    (hmade : s.made ≤ s'.made)
    (hobjs : ∀ o < s.made, size ≤ (s.objs o).size → size ≤ (s'.objs o).size)
    (hpc : ∀ j o creator todo, s'.pc j = .running o creator todo →
      s.pc j = .running o creator todo ∨ (o < s'.made ∧ todo <:+ shmRest creator ∧
        (creator = true → .ftruncate ∉ todo → size ≤ (s'.objs o).size))) : Sized size s' := by
  refine ⟨hname, fun j o creator todo hj => ?_, fun j o todo hj hdone => ?_⟩
  · rcases hpc j o creator todo hj with hold | ⟨ho, htodo, -⟩
    · exact ⟨Nat.lt_of_lt_of_le (hs.todo j o creator todo hold).1 hmade, (hs.todo j _ _ _ hold).2⟩
    · exact ⟨ho, htodo⟩
  · rcases hpc j o true todo hj with hold | ⟨-, -, hsize⟩
    · exact hobjs o (hs.todo j o true todo hold).1 (hs.sized j o todo hold hdone)
    · exact hsize rfl hdone

/-- The objects after a call. -/
theorem le_size_called (h : Ipc.Called (sharedMemory size) s i s') (o : Nat) (ho : o < s.made)
    (hsize : size ≤ (s.objs o).size) : size ≤ (s'.objs o).size := by
  cases h with
  | created hn hpc =>
      show size ≤ (Function.update s.objs s.made _ o).size
      rwa [Function.update_of_ne (Nat.ne_of_lt ho)]
  | next o' creator call todo hpc =>
      show size ≤ (Function.update s.objs o' _ o).size
      by_cases hoo : o = o'
      · subst hoo
        rw [Function.update_self]
        exact ShmObject.le_size_exec call hsize
      · rwa [Function.update_of_ne hoo]
  | opened | missing | present | gone => exact hsize

/-- The process that has made the call. -/
theorem Sized.called (hs : Sized size s) (h : Ipc.Called (sharedMemory size) s i s') :
    Sized size s' := by
  have hobjs := le_size_called h
  cases h with
  | opened o hn hpc =>
      refine hs.mono hs.named le_rfl hobjs fun j o' creator todo hj => ?_
      by_cases hji : j = i
      · obtain ⟨rfl, rfl, rfl⟩ : o = o' ∧ false = creator ∧ shmRest false = todo := by
          simpa [hji, sharedMemory] using hj
        exact .inr ⟨hs.named o hn, List.suffix_rfl, by simp⟩
      · exact .inl (by simpa [hji] using hj)
  | created hn hpc =>
      refine hs.mono ?_ (Nat.le_succ _) hobjs fun j o' creator todo hj => ?_
      · intro o ho
        obtain rfl := Option.some.inj ho
        exact Nat.lt_succ_self _
      · by_cases hji : j = i
        · obtain ⟨rfl, rfl, rfl⟩ : s.made = o' ∧ true = creator ∧ shmRest true = todo := by
            simpa [hji, sharedMemory] using hj
          exact .inr ⟨Nat.lt_succ_self _, List.suffix_rfl, fun _ h => absurd h (by simp [shmRest])⟩
        · exact .inl (by simpa [hji] using hj)
  | next o creator call todo hpc =>
      refine hs.mono hs.named le_rfl hobjs fun j o' creator' todo' hj => ?_
      by_cases hji : j = i
      · obtain ⟨rfl, rfl, rfl⟩ : o = o' ∧ creator = creator' ∧ todo = todo' := by
          simpa [hji] using hj
        obtain ⟨ho, htodo⟩ := hs.todo i o creator (call :: todo) hpc
        refine .inr ⟨ho, (List.suffix_cons call todo).trans htodo, fun hcreator hdone => ?_⟩
        -- either `ftruncate` is the call just made, or it was made before
        subst hcreator
        show size ≤ (Function.update s.objs o _ o).size
        rw [Function.update_self]
        by_cases hcall : call = .ftruncate
        · subst hcall
          exact le_rfl
        · refine ShmObject.le_size_exec call (hs.sized i o (call :: todo) hpc ?_)
          simpa [Ne.symm hcall] using hdone
      · exact .inl (by simpa [hji] using hj)
  | missing hn hpc | present hn hpc | gone hn hpc =>
      refine hs.mono hs.named le_rfl hobjs fun j o' creator todo hj => .inl ?_
      by_cases hji : j = i
      · simp [hji] at hj
      · simpa [hji] using hj

/-! ## Steps

One step, with `Proper` as the exact condition for it: the last call of a constructor is when its
mapping comes into use. -/

/-- After a call, only the process that has made it can have a mapping that it did not have. -/
theorem initialised_iff_of_called (hs : Sized size s) (hp : Initialised size s)
    (h : Ipc.Called (sharedMemory size) s i s') :
    Initialised size s' ↔ (∀ o creator, (s'.pc i).returned o creator → size ≤ (s'.objs o).size) ∧
      ∀ o, (s'.objs o).overwritten = false := by
  refine ⟨fun h' => ⟨h'.covered i, h'.kept⟩, fun h' => ⟨fun j o creator hret => ?_, h'.2⟩⟩
  by_cases hji : j = i
  · exact h'.1 o creator (hji ▸ hret)
  · have hold : (s.pc j).returned o creator := by
      cases h <;> simpa [hji] using hret
    exact le_size_called h o (hs.todo j o creator [] hold).1 (hp.covered j o creator hold)

/-- The last call of a constructor is the one that matters. -/
theorem proper_called (hs : Sized size s) (hp : Initialised size s)
    (h : Ipc.Called (sharedMemory size) s i s') :
    Proper size s (.ctor (.call i)) ↔ Initialised size s' := by
  rw [initialised_iff_of_called hs hp h]
  have hkept := hp.kept
  cases h with
  | opened o hn hpc =>
      refine iff_of_true ?_ ⟨fun o' creator hret => ?_, hkept⟩
      · rcases hpc with hpc | hpc <;> simp [Proper, hpc]
      · simp [IpcPc.returned, sharedMemory, shmRest] at hret
  | missing hn hpc | present hn hpc | gone hn hpc =>
      refine iff_of_true (by simp [Proper, hpc]) ⟨fun o' creator hret => ?_, hkept⟩
      simp [IpcPc.returned] at hret
  | created hn hpc =>
      refine iff_of_true (by simp [Proper, hpc]) ⟨fun o' creator hret => ?_, fun o => ?_⟩
      · simp [IpcPc.returned, sharedMemory, shmRest] at hret
      · show (Function.update s.objs s.made _ o).overwritten = false
        by_cases ho : o = s.made
        · subst ho
          rw [Function.update_self]
          rfl
        · rw [Function.update_of_ne ho]
          exact hkept o
  | next o creator call todo hpc =>
      obtain ⟨ho, hsuffix⟩ := hs.todo i o creator (call :: todo) hpc
      let objs := Function.update s.objs o ((sharedMemory size).exec call (s.objs o))
      have hover : (∀ o', (objs o').overwritten = false) ↔
          ¬ (call = .memset ∧ ∃ p < size, (s.objs o).written p = true) := by
        rw [Function.forall_update_iff s.objs fun _ x => x.overwritten = false]
        simp [ShmObject.overwritten_exec, hkept]
      show _ ↔ (∀ o' creator', IpcPc.returned (Function.update s.pc i _ i) o' creator' →
        size ≤ (objs o').size) ∧ ∀ o', (objs o').overwritten = false
      rw [hover, Function.update_self]
      cases todo with
      -- not the last call, so nothing is returned yet, and it is not `memset`
      | cons call' todo =>
          refine iff_of_true (by simp [Proper, hpc]) ⟨fun o' creator' hret => ?_, ?_⟩
          · simp [IpcPc.returned] at hret
          · rintro ⟨rfl, -⟩
            exact absurd (eq_nil_of_memset hsuffix) (by simp)
      | nil =>
          have hret : ∀ {P : Nat → Prop}, (∀ o' creator',
              (IpcPc.running o creator []).returned o' creator' → P o') ↔ P o := fun {P} =>
            ⟨fun h => h o creator rfl, fun h o' creator' heq => by cases heq; exact h⟩
          have hobj : objs o = (sharedMemory size).exec call (s.objs o) := Function.update_self ..
          rw [hret, hobj]
          -- `close` of one that has opened the object, or `memset` of the creator
          rcases last_of_suffix hsuffix with ⟨rfl, rfl⟩ | ⟨rfl, rfl⟩
          · simp [Proper, hpc, sharedMemory]
          · have hsize := hs.sized i o [.memset] hpc (by simp)
            simp [Proper, hpc, sharedMemory, ShmObject.clear, hsize]

/-- A constructor that throws. -/
theorem Sized.thrown (hs : Sized size s) (hp : Initialised size s) (x : Exn) :
    Sized size (s.goto i (.thrown x)) ∧ Initialised size (s.goto i (.thrown x)) := by
  have hold : ∀ j o creator todo, (s.goto i (.thrown x)).pc j = .running o creator todo →
      s.pc j = .running o creator todo := fun j o creator todo hj => by
    by_cases hji : j = i
    · simp [hji] at hj
    · simpa [hji] using hj
  refine ⟨hs.mono hs.named le_rfl (fun _ _ h => h) fun j o creator todo hj => .inl ?_, ?_, hp.kept⟩
  · exact hold j o creator todo hj
  · exact fun j o creator hret => hp.covered j o creator (hold j o creator [] hret)

omit [DecidableEq ι] in
/-- A byte that is written. -/
theorem Sized.written (hs : Sized size s) (hp : Initialised size s) (o p : Nat) (b : Byte) :
    let s' := { s with objs := Function.update s.objs o ((s.objs o).write p b) }
    Sized size s' ∧ Initialised size s' := by
  intro s'
  have hobj : ∀ o', (s'.objs o').size = (s.objs o').size ∧
      (s'.objs o').overwritten = (s.objs o').overwritten := fun o' => by
    by_cases ho : o' = o
    · subst ho
      simp [s', ShmObject.write]
    · simp [s', ho]
  refine ⟨hs.mono hs.named le_rfl (fun o' _ h => (hobj o').1 ▸ h) fun _ _ _ _ hj => .inl hj, ?_, ?_⟩
  · exact fun j o' creator hret => (hobj o').1 ▸ hp.covered j o' creator hret
  · exact fun o' => (hobj o').2.trans (hp.kept o')

/-- One step from a state in which nothing is used too early. -/
theorem initialised_step {l : ShmLabel ι} (hs : Sized size s) (hp : Initialised size s)
    (h : step size s l = some s') : Sized size s' ∧ (Proper size s l ↔ Initialised size s') := by
  cases l with
  | ctor l =>
      cases l with
      | call i =>
          have hcalled := Ipc.called_of_call h
          exact ⟨hs.called hcalled, proper_called hs hp hcalled⟩
      | fail i e =>
          obtain ⟨x, rfl⟩ := Ipc.thrown_of_fail h
          obtain ⟨hs', hp'⟩ := hs.thrown hp x
          exact ⟨hs', iff_of_true trivial hp'⟩
  | write i p b =>
      simp only [step] at h
      split at h
      case h_2 => cases h
      case h_1 o creator hpc =>
        split at h
        case isFalse => cases h
        case isTrue =>
          obtain rfl := Option.some.inj h
          obtain ⟨hs', hp'⟩ := hs.written hp o p b
          exact ⟨hs', iff_of_true trivial hp'⟩

/-- **Nothing is used too early.** In every state of the run, the objects are as large as what is
mapped of them and no constructor has written over what others had written, if and only if the steps
are as `Proper` says. -/
theorem initialised_iff (size : Nat) (ls : List (ShmLabel ι)) (s : Ipc ι ShmObject)
    (hrun : run (step size) init ls = some s) :
    AllSteps (step size) (Proper size) init ls ↔
      ∀ ls' t, ls' <+: ls → run (step size) init ls' = some t → Initialised size t :=
  allSteps_iff_reached (fun _ _ _ hs hp h => (initialised_step hs hp h).1)
    (fun _ _ _ hs hp h => (initialised_step hs hp h).2) Sized.init initialised_init hrun

/-- The creator has returned before the other process opens the object and writes. -/
def inTurn : List (ShmLabel (Fin 2)) :=
  let i : Fin 2 := ⟨0, Nat.zero_lt_two⟩
  let j : Fin 2 := ⟨1, Nat.one_lt_two⟩
  (List.replicate 6 (.ctor (.call i))) ++ (List.replicate 3 (.ctor (.call j))) ++ [.write j 11 99]

theorem initialised_iff_inTurn : ∃ s, run (step 12) init inTurn = some s ∧ Initialised 12 s := by
  have hok : AllSteps (step 12) (Proper 12) init inTurn := by decide +kernel
  obtain ⟨s, hs⟩ := Option.isSome_iff_exists.mp
    (show (run (step 12) init inTurn).isSome = true by decide +kernel)
  exact ⟨s, hs, (initialised_iff 12 inTurn s hs).mp hok inTurn s List.prefix_rfl hs⟩

/-- The other process has its mapping before the creator clears the object. -/
theorem cleared_late :
    ¬ ∀ (size : Nat) (ls : List (ShmLabel (Fin 2))) (s : Ipc (Fin 2) ShmObject),
      run (step size) init ls = some s → Initialised size s := by
  intro h
  have hover : (run (step 12) init (List.replicate 5 (.ctor (.call 0)) ++
      List.replicate 3 (.ctor (.call 1)) ++ [.write (1 : Fin 2) 11 99, .ctor (.call 0)])).map
        (fun s => (s.objs 0).overwritten) = some true := by
    decide +kernel
  obtain ⟨s, hs, hyes⟩ := Option.map_eq_some_iff.mp hover
  exact absurd (((h 12 _ s hs).kept 0).symm.trans hyes) (by decide)

end SharedMemory

end Cppev
