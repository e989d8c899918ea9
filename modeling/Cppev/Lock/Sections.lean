import Cppev.Lib.Serial
import Cppev.Lock.Guard

/-!
# The locks of `lock.h`

`spinlock`, `pshared_lock` and `pshared_rwlock`, and a `semaphore` with one unit, as locks for
critical sections. What a `try_…` does when it does not get the lock, and a call that throws, is the
same: the thread goes on without having been inside.

For each of them `Held` says what the lock knows of who is inside, and `lawful` that acquiring and
releasing keep it; the rest is `Locked.serial_of_run`.

* `spinlock_serial`, `pshared_lock_serial`, `semaphore_serial`, `rwlock_serial`: threads that keep
  to the lock see what they would see if their sections ran one after the other.
-/

namespace Cppev

/-! ## Locks for one thread at a time

Of such a lock it is enough to know whether it is taken. `Exclusive` is kept by whoever gets a free
one and by whoever gives it back, whatever its state is made of. -/

variable {ι : Type}

/-- At most one thread is inside. -/
def Alone (who : ι → Option Bool) : Prop := ∀ i j, who i ≠ none → who j ≠ none → i = j

/-- A lock that is `taken` or not. -/
structure Exclusive (taken : Prop) (who : ι → Option Bool) : Prop where
  taken_iff : taken ↔ ∃ i, who i ≠ none
  alone : Alone who

section Exclusive

variable {taken : Prop} {who : ι → Option Bool}

/-- A free lock, and nobody inside. -/
theorem exclusive_free (h : ¬ taken) : Exclusive taken fun _ : ι => none :=
  ⟨by simp [h], fun _ _ hi => absurd rfl hi⟩

theorem Exclusive.nobody (h : Exclusive taken who) (hfree : ¬ taken) (i : ι) : who i = none := by
  by_contra hi
  exact hfree (h.taken_iff.mpr ⟨i, hi⟩)

variable [DecidableEq ι]

/-- Nobody has it, and one gets it. -/
theorem Exclusive.enter (h : Exclusive taken who) (hfree : ¬ taken) (i : ι) (w : Bool)
    {taken' : Prop} (htaken : taken') :
    (∀ j w', who j = some w' → w = false ∧ w' = false) ∧
      Exclusive taken' (Function.update who i (some w)) := by
  refine ⟨fun j w' hj => ?_, ?_, fun j k hj hk => ?_⟩
  · rw [h.nobody hfree j] at hj
    cases hj
  · exact ⟨fun _ => ⟨i, by simp⟩, fun _ => htaken⟩
  · have honly : ∀ j, Function.update who i (some w) j ≠ none → j = i := by
      intro j hj
      by_contra hji
      rw [Function.update_of_ne hji] at hj
      exact hj (h.nobody hfree j)
    rw [honly j hj, honly k hk]

/-- The one that has it leaves, and then nobody is inside. -/
theorem Exclusive.leave (h : Exclusive taken who) {i : ι} (hi : who i ≠ none) {taken' : Prop}
    (hfree : ¬ taken') : Exclusive taken' (Function.update who i none) := by
  have hnobody : Function.update who i none = fun _ => none := by
    funext j
    rcases eq_or_ne j i with rfl | hji
    · simp
    · rw [Function.update_of_ne hji]
      by_contra hj
      exact hji (h.alone j i hj hi)
  rw [hnobody]
  exact exclusive_free hfree

end Exclusive

/-- `++x`, as a read and a write. -/
def increment : CriticalSection Nat Nat where
  writes := true
  actions := [fun d => (d.1, d.1), fun d => (d.2 + 1, d.2)]
  reads h := by simp at h

/-- Reads `x`. -/
def look : CriticalSection Nat Nat where
  writes := false
  actions := [fun d => (d.1, d.1)]
  reads _ f hf d := by
    obtain rfl := List.mem_singleton.mp hf
    rfl

/-- A counter is read and then written, by two threads; the second has to wait. -/
def twoIncrements : List (LockedLabel Bool Nat Nat) :=
  [.call false true increment, .attempt false, .act false, .call true true increment, .attempt true,
    .act false, .unlock false, .attempt true, .act true, .act true, .unlock true]

/-- Of a run of two threads it can be computed that it ends with nobody inside. -/
theorem exists_quiet {κ : Type} (lock : LockClass Bool κ) (ls : List (LockedLabel Bool Nat Nat))
    (x : Nat)
    (hend : (run (Locked.step lock) (Locked.init lock (0, fun _ => 0)) ls).any (fun s =>
      s.sections.shared = x && (s.sections.inside false).isNone &&
        (s.sections.inside true).isNone) = true) :
    ∃ s, run (Locked.step lock) (Locked.init lock (0, fun _ => 0)) ls = some s ∧
      s.sections.shared = x ∧ ∀ i, s.sections.inside i = none := by
  obtain ⟨s, hs, heq⟩ := (Option.any_eq_true ..).mp hend
  simp only [Bool.and_eq_true, decide_eq_true_eq, Option.isNone_iff_eq_none] at heq
  obtain ⟨⟨hshared, hfalse⟩, htrue⟩ := heq
  exact ⟨s, hs, hshared, Bool.forall_bool.mpr ⟨hfalse, htrue⟩⟩

/-! ## `spinlock`

The flag does not say who has set it, so what it knows is only whether somebody is inside. -/

/-- `class spinlock`; `lock_` is an `atomic_flag`, or a `pthread_spinlock_t`. -/
structure Spinlock where
  lock : Bool
  deriving DecidableEq, Repr

variable {σ τ : Type}

namespace Spinlock

/-- `lock_.test_and_set()`. -/
def testAndSet (l : Spinlock) : Bool × Spinlock := (l.lock, { l with lock := true })

/-- `trylock`, and one round of the loop in `lock`. -/
def trylock (l : Spinlock) : Bool × Spinlock := (!l.testAndSet.1, l.testAndSet.2)

/-- `lock_.clear()`. -/
def unlock (l : Spinlock) : Spinlock := { l with lock := false }

def lockClass : LockClass ι Spinlock where
  free := ⟨false⟩
  acquire l _ _ := if l.trylock.1 then some l.trylock.2 else none
  release l _ := l.unlock

/-- A round without success changes nothing. -/
theorem trylock_of_held {l : Spinlock} (h : l.lock = true) : l.trylock = (false, l) := by
  cases l
  simp_all [trylock, testAndSet]

theorem acquire_eq_some {l l' : Spinlock} {i : ι} {w : Bool}
    (h : lockClass.acquire l i w = some l') : l.lock = false ∧ l'.lock = true := by
  cases hl : l.lock with
  | true => simp [lockClass, trylock_of_held hl] at h
  | false =>
      have hl' : l.trylock.2 = l' := by simpa [lockClass, trylock, testAndSet, hl] using h
      exact ⟨rfl, hl' ▸ rfl⟩

theorem lawful [DecidableEq ι] :
    (lockClass (ι := ι)).Lawful fun l => Exclusive (l.lock = true) where
  free := exclusive_free (by simp [lockClass])
  acquire l who i w l' h _ hl' := by
    obtain ⟨hfree, htaken⟩ := acquire_eq_some hl'
    exact h.enter (by simp [hfree]) i w htaken
  release l who i w h hi := h.leave (by simp [hi]) (by simp [lockClass, unlock])
  idle l h := by
    have hfree : l.lock = false := by simpa using h.taken_iff
    cases l
    simp_all [lockClass]
  granted i w := rfl

/-- **A spinlock serialises.** In every run of threads that lock it, with `lock` or with `trylock`,
at most one is inside, the flag is set exactly while one is, and the data are as if the sections had
run one after the other. A round that does not get the flag has set it again, which leaves it as it
was, however often the loop of `lock` goes round. -/
theorem spinlock_serial [DecidableEq ι] {d₀ : σ × (ι → τ)} {ls : List (LockedLabel ι σ τ)}
    {s : Locked ι Spinlock σ τ}
    (hrun : run (Locked.step lockClass) (Locked.init lockClass d₀) ls = some s) :
    s.Serial lockClass (fun l => Exclusive (l.lock = true)) d₀ ∧
      (s.lock.trylock.1 = false → s.lock.trylock.2 = s.lock) := by
  refine ⟨Locked.serial_of_run lawful hrun, fun hfailed => ?_⟩
  have htaken : s.lock.lock = true := by simpa [trylock, testAndSet] using hfailed
  rw [trylock_of_held htaken]

theorem spinlock_serial_twoIncrements :
    ∃ s, run (Locked.step lockClass) (Locked.init lockClass (0, fun _ : Bool => 0)) twoIncrements =
        some s ∧ s.sections.shared = 2 ∧
      (s.sections.shared, s.sections.locals) =
        Sections.serially s.sections.done (0, fun _ : Bool => 0) := by
  obtain ⟨s, hs, hshared, hnobody⟩ := exists_quiet lockClass twoIncrements 2 (by decide +kernel)
  obtain ⟨hserial, -⟩ := spinlock_serial hs
  exact ⟨s, hs, hshared, (hserial.quiet hnobody).1⟩

end Spinlock

/-! ## `pshared_lock`

An error-checking mutex knows its owner: `unlock` by another thread throws and changes nothing. -/

/-- `class pshared_lock`: the thread that owns the mutex. -/
structure PsharedLock (ι : Type) where
  owner : Option ι
  deriving DecidableEq, Repr

variable [DecidableEq ι]

namespace PsharedLock

/-- `pthread_mutex_trylock`, and `pthread_mutex_lock` when it returns. -/
def tryLock (l : PsharedLock ι) (i : ι) : Option (PsharedLock ι) :=
  if l.owner = none then some ⟨some i⟩ else none

/-- `pthread_mutex_unlock` of an error-checking mutex. -/
def unlock (l : PsharedLock ι) (i : ι) : PsharedLock ι := if l.owner = some i then ⟨none⟩ else l

def lockClass : LockClass ι (PsharedLock ι) where
  free := ⟨none⟩
  acquire l i _ := l.tryLock i
  release l i := l.unlock i

/-- The mutex has an owner exactly while a thread is inside, and that thread is the owner. -/
structure Held (l : PsharedLock ι) (who : ι → Option Bool) : Prop where
  exclusive : Exclusive (l.owner ≠ none) who
  owner : ∀ i, who i ≠ none → l.owner = some i

theorem lawful : (lockClass (ι := ι)).Lawful Held where
  free := ⟨exclusive_free (by simp [lockClass]), fun _ h => absurd rfl h⟩
  acquire l who i w l' h _ hl' := by
    simp only [lockClass, tryLock] at hl'
    split at hl'
    case isFalse => cases hl'
    case isTrue hfree =>
      obtain rfl := Option.some.inj hl'
      have htaken : some i ≠ none := by simp
      obtain ⟨hmay, hentered⟩ := h.exclusive.enter (by simp [hfree]) i w htaken
      refine ⟨hmay, hentered, fun j hj => ?_⟩
      rw [hentered.alone j i hj (by simp)]
  release l who i w h hi := by
    have hin : who i ≠ none := by simp [hi]
    have hunlocked : (lockClass.release l i).owner = none := by
      simp [lockClass, unlock, h.owner i hin]
    have hfree : ¬ (lockClass.release l i).owner ≠ none := by simp [hunlocked]
    have hleft := h.exclusive.leave hin hfree
    refine ⟨hleft, fun j hj => absurd hunlocked ?_⟩
    exact hleft.taken_iff.mpr ⟨j, hj⟩
  idle l h := by
    have hfree : l.owner = none := by simpa using h.exclusive.taken_iff
    cases l
    simp_all [lockClass]
  granted i w := rfl

/-- **A `pshared_lock` serialises.** In every run of threads that lock it, with `lock` or with
`try_lock`, at most one is inside and it is the owner, so that `unlock` gives the mutex back, and
the data are as if the sections had run one after the other. -/
theorem pshared_lock_serial {d₀ : σ × (ι → τ)} {ls : List (LockedLabel ι σ τ)}
    {s : Locked ι (PsharedLock ι) σ τ}
    (hrun : run (Locked.step lockClass) (Locked.init lockClass d₀) ls = some s) :
    s.Serial lockClass Held d₀ :=
  Locked.serial_of_run lawful hrun

theorem pshared_lock_serial_twoIncrements :
    ∃ s, run (Locked.step lockClass) (Locked.init lockClass (0, fun _ : Bool => 0)) twoIncrements =
        some s ∧ s.sections.shared = 2 ∧ s.lock.owner = none ∧
      (s.sections.shared, s.sections.locals) =
        Sections.serially s.sections.done (0, fun _ : Bool => 0) := by
  obtain ⟨s, hs, hshared, hnobody⟩ := exists_quiet lockClass twoIncrements 2 (by decide +kernel)
  obtain ⟨hserial, hfree⟩ := (pshared_lock_serial hs).quiet hnobody
  exact ⟨s, hs, hshared, by rw [hfree]; rfl, hserial⟩

end PsharedLock

/-! ## `std::mutex` -/

/-- A `std::mutex` under a `std::unique_lock`, with who has it. -/
def mutexClass : LockClass ι (Option ι) where
  free := none
  acquire k i _ := if k.isNone then some (some i) else none
  release _ _ := none

theorem mutexClass_lawful :
    (mutexClass (ι := ι)).Lawful fun k => Exclusive (k.isSome = true) where
  free := exclusive_free (by simp [mutexClass])
  acquire k who i w k' h _ hk' := by
    simp only [mutexClass] at hk'
    split at hk'
    case isFalse => cases hk'
    case isTrue hfree =>
      obtain rfl := Option.some.inj hk'
      exact h.enter (by simpa using hfree) i w rfl
  release k who i w h hi := h.leave (by simp [hi]) (by simp [mutexClass])
  idle k h := by simpa [mutexClass] using h.taken_iff
  granted i w := rfl

/-! ## `semaphore` with one unit

`release` does not ask who calls it. That the value never exceeds one is part of what is kept: only
a thread inside releases, and while one is inside the value is zero. -/

/-- `acquire(1)`, `try_acquire` and `release(1)`. -/
def semaphoreClass : LockClass ι Nat where
  free := 1
  acquire value _ _ := if 0 < value then some (value - 1) else none
  release value _ := value + 1

theorem semaphoreClass_lawful :
    (semaphoreClass (ι := ι)).Lawful fun value who => Exclusive (value = 0) who ∧ value ≤ 1 where
  free := ⟨exclusive_free (by simp [semaphoreClass]), le_rfl⟩
  acquire value who i w value' h _ hvalue' := by
    simp only [semaphoreClass] at hvalue'
    split at hvalue'
    case isFalse => cases hvalue'
    case isTrue hpos =>
      obtain rfl := Option.some.inj hvalue'
      have htaken : value - 1 = 0 := by omega
      obtain ⟨hmay, hentered⟩ := h.1.enter (Nat.pos_iff_ne_zero.mp hpos) i w htaken
      exact ⟨hmay, hentered, by omega⟩
  release value who i w h hi := by
    have hin : who i ≠ none := by simp [hi]
    have hzero : value = 0 := h.1.taken_iff.mpr ⟨i, hin⟩
    exact ⟨h.1.leave hin (by simp [semaphoreClass]), by simp [semaphoreClass, hzero]⟩
  idle value h := by
    have hne : value ≠ 0 := by simpa using h.1.taken_iff
    show value = 1
    omega
  granted i w := rfl

/-- **A semaphore with one unit serialises.** In every run of threads that take the unit, with
`acquire` or with `try_acquire`, and give it back, at most one is inside, the value is zero exactly
while one is and otherwise one, and the data are as if the sections had run one after the other. -/
theorem semaphore_serial {d₀ : σ × (ι → τ)} {ls : List (LockedLabel ι σ τ)}
    {s : Locked ι Nat σ τ}
    (hrun : run (Locked.step semaphoreClass) (Locked.init semaphoreClass d₀) ls = some s) :
    s.Serial semaphoreClass (fun value who => Exclusive (value = 0) who ∧ value ≤ 1) d₀ :=
  Locked.serial_of_run semaphoreClass_lawful hrun

theorem semaphore_serial_twoIncrements :
    ∃ s, run (Locked.step semaphoreClass) (Locked.init semaphoreClass (0, fun _ : Bool => 0))
        twoIncrements = some s ∧ s.sections.shared = 2 ∧ s.lock = 1 ∧
      (s.sections.shared, s.sections.locals) =
        Sections.serially s.sections.done (0, fun _ : Bool => 0) := by
  obtain ⟨s, hs, hshared, hnobody⟩ := exists_quiet semaphoreClass twoIncrements 2 (by decide +kernel)
  obtain ⟨hserial, hfree⟩ := (semaphore_serial hs).quiet hnobody
  exact ⟨s, hs, hshared, hfree, hserial⟩

/-! ## `pshared_rwlock`

Here several threads may be inside, if all of them read. The lock counts its readers without knowing
them, so `Held` has a list of them, of the length that the lock has counted. -/

namespace PsharedRwlock

/-- `rdlock`, `try_rdlock`, `wrlock` and `try_wrlock`. -/
def lockClass : LockClass ι PsharedRwlock where
  free := free
  acquire l _ writes := l.acquire (if writes then .wr else .rd)
  release l _ := l.unlock

/-- The readers are counted, and a writer is alone. -/
structure Held (l : PsharedRwlock) (who : ι → Option Bool) : Prop where
  readers : ∃ is : List ι, is.Nodup ∧ (∀ i, i ∈ is ↔ who i = some false) ∧ l.readers = is.length
  writer : l.writer = true ↔ ∃ i, who i = some true
  alone : ∀ i j, who i = some true → who j ≠ none → j = i

variable {l l' : PsharedRwlock} {who : ι → Option Bool}

omit [DecidableEq ι] in
/-- A count of zero means that nobody reads. -/
theorem Held.no_reader (h : Held l who) (hnone : l.readers = 0) (i : ι) : who i ≠ some false := by
  obtain ⟨is, -, hmem, hlength⟩ := h.readers
  have hnil : is = [] := List.length_eq_zero_iff.mp (hlength.symm.trans hnone)
  rw [Ne, ← hmem i, hnil]
  exact List.not_mem_nil

omit [DecidableEq ι] in
/-- Without the writer's mark nobody writes. -/
theorem Held.no_writer (h : Held l who) (hnone : l.writer = false) (i : ι) :
    who i ≠ some true := by
  intro hi
  rw [h.writer.mpr ⟨i, hi⟩] at hnone
  cases hnone

/-- A reader joins the others: no writer is inside, or it would not have got the lock. -/
theorem Held.rdlock (h : Held l who) {i : ι} (hi : who i = none) (hl' : l.rdlock = some l') :
    (∀ j w', who j = some w' → w' = false) ∧ Held l' (Function.update who i (some false)) := by
  unfold PsharedRwlock.rdlock at hl'
  split at hl'
  case isTrue => cases hl'
  case isFalse hwriter =>
    obtain rfl := Option.some.inj hl'
    have hreaders : ∀ j, who j ≠ some true := h.no_writer (by simpa using hwriter)
    have hwriters : ∀ j, Function.update who i (some false) j ≠ some true := by
      intro j
      rcases eq_or_ne j i with rfl | hji
      · simp
      · simpa [hji] using hreaders j
    obtain ⟨is, hnodup, hmem, hlength⟩ := h.readers
    refine ⟨fun j w' hj => ?_, ⟨i :: is, ?_, fun j => ?_, by simp [hlength]⟩, ?_, ?_⟩
    · cases w' with
      | false => rfl
      | true => exact absurd hj (hreaders j)
    · exact List.nodup_cons.mpr ⟨by simp [hmem, hi], hnodup⟩
    · rcases eq_or_ne j i with rfl | hji
      · simp
      · simp [hji, hmem]
    · simp [hwriter, hwriters]
    · exact fun j k hj => absurd hj (hwriters j)

/-- A writer gets only a lock that nobody has. -/
theorem Held.wrlock (h : Held l who) {i : ι} (hi : who i = none) (hl' : l.wrlock = some l') :
    (∀ j, who j = none) ∧ Held l' (Function.update who i (some true)) := by
  unfold PsharedRwlock.wrlock at hl'
  split at hl'
  case isFalse => cases hl'
  case isTrue hfree =>
    obtain rfl := Option.some.inj hl'
    have hnobody : ∀ j, who j = none := by
      intro j
      cases hj : who j with
      | none => rfl
      | some w =>
          cases w with
          | false => exact absurd hj (h.no_reader hfree.2 j)
          | true => exact absurd hj (h.no_writer hfree.1 j)
    have honly : ∀ j, Function.update who i (some true) j ≠ none → j = i := by
      intro j hj
      by_contra hji
      rw [Function.update_of_ne hji] at hj
      exact hj (hnobody j)
    refine ⟨hnobody, ⟨[], List.nodup_nil, fun j => ?_, hfree.2⟩, ?_, fun j k hj hk => ?_⟩
    · rcases eq_or_ne j i with rfl | hji
      · simp
      · simp [hji, hnobody j]
    · exact ⟨fun _ => ⟨i, by simp⟩, fun _ => rfl⟩
    · rw [honly j (by simp [hj]), honly k hk]

/-- `unlock` does not say what it gives back: a writer that is alone, or one of the readers. -/
theorem Held.unlock (h : Held l who) {i : ι} (hi : who i ≠ none) :
    Held l.unlock (Function.update who i none) := by
  cases hwriter : l.writer with
  | true =>
      -- the writer leaves, and it is alone
      obtain ⟨k, hk⟩ := h.writer.mp hwriter
      have hnobody : Function.update who i none = fun _ => none := by
        funext j
        rcases eq_or_ne j i with rfl | hji
        · simp
        · rw [Function.update_of_ne hji]
          by_contra hj
          exact hji ((h.alone k j hk hj).trans (h.alone k i hk hi).symm)
      rw [hnobody]
      refine ⟨⟨[], by simp, by simp, ?_⟩, by simp [PsharedRwlock.unlock, hwriter], by simp⟩
      simp [PsharedRwlock.unlock, hwriter, l.exclusive hwriter]
  | false =>
      obtain ⟨is, hnodup, hmem, hlength⟩ := h.readers
      have hreader : i ∈ is := by
        cases hwho : who i with
        | none => exact absurd hwho hi
        | some w =>
            cases w with
            | false => exact (hmem i).mpr hwho
            | true => exact absurd hwho (h.no_writer hwriter i)
      have hwriters : ∀ j, Function.update who i none j ≠ some true := by
        intro j
        rcases eq_or_ne j i with rfl | hji
        · simp
        · simpa [hji] using h.no_writer hwriter j
      refine ⟨⟨is.erase i, hnodup.erase i, fun j => ?_, ?_⟩, ?_,
        fun j k hj => absurd hj (hwriters j)⟩
      · rw [hnodup.mem_erase_iff, hmem]
        rcases eq_or_ne j i with rfl | hji
        · simp
        · simp [hji]
      · simp [PsharedRwlock.unlock, hwriter, hlength, List.length_erase_of_mem hreader]
      · simp [PsharedRwlock.unlock, hwriter, hwriters]

theorem lawful : (lockClass (ι := ι)).Lawful Held where
  free := ⟨⟨[], by simp, by simp, rfl⟩, by simp [lockClass, free], by simp⟩
  acquire l who i w l' h hi hl' := by
    cases w with
    | false =>
        obtain ⟨hreaders, hheld⟩ := h.rdlock hi hl'
        exact ⟨fun j w' hj => ⟨rfl, hreaders j w' hj⟩, hheld⟩
    | true =>
        obtain ⟨hnobody, hheld⟩ := h.wrlock hi hl'
        refine ⟨fun j w' hj => ?_, hheld⟩
        rw [hnobody j] at hj
        cases hj
  release l who i w h hi := h.unlock (by simp [hi])
  idle l h := by
    obtain ⟨is, -, hmem, hlength⟩ := h.readers
    have hnil : is = [] := List.eq_nil_iff_forall_not_mem.mpr fun i => by simp [hmem]
    have hwriter : l.writer = false := by simpa using h.writer
    refine eq_free_of_held fun k => ?_
    cases k with
    | rd => simpa [held, hnil] using hlength
    | wr => simp [held, hwriter]
  granted i w := by cases w <;> rfl

variable {d₀ : σ × (ι → τ)}

/-- **Readers and writers.** In every run of threads that take a `pshared_rwlock` for reading or for
writing, with calls that wait and calls that give up, the sections are serialised, the lock counts
the readers inside and knows the writer, and it is free when nobody is inside. `Held` is the
invariant; readers may be inside together because they change nothing that is shared. -/
theorem rwlock_serial {ls : List (LockedLabel ι σ τ)} {s : Locked ι PsharedRwlock σ τ}
    (hrun : run (Locked.step lockClass) (Locked.init lockClass d₀) ls = some s) :
    s.Serial lockClass Held d₀ :=
  Locked.serial_of_run lawful hrun

/-- Two readers at a time; a `try_wrlock` meanwhile gives up, and a `wrlock` waits. -/
def readersAndWriter : List (LockedLabel Bool Nat Nat) :=
  [.call false true increment, .attempt false, .act false, .act false, .unlock false,
    .call false true look, .attempt false, .call true false increment, .attempt true,
    .call true true look, .attempt true, .act true, .act false, .unlock true,
    .call true true increment, .attempt true, .unlock false, .attempt true, .act true, .act true,
    .unlock true]

theorem rwlock_serial_readersAndWriter :
    ∃ s, run (Locked.step lockClass) (Locked.init lockClass (0, fun _ : Bool => 0))
        readersAndWriter = some s ∧ s.sections.shared = 2 ∧ s.lock = free ∧
      (s.sections.shared, s.sections.locals) =
        Sections.serially s.sections.done (0, fun _ : Bool => 0) := by
  obtain ⟨s, hs, hshared, hnobody⟩ := exists_quiet lockClass readersAndWriter 2 (by decide +kernel)
  obtain ⟨hserial, hfree⟩ := (rwlock_serial hs).quiet hnobody
  exact ⟨s, hs, hshared, hfree, hserial⟩

end PsharedRwlock

end Cppev
