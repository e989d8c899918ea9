import Cppev.Lib.Monitor
import Cppev.Nio.Basic

/-!
# The barrier

`pshared_barrier`, statement by statement, for any number of threads or processes that call `wait`
as often as they like. A call is known by its number: it is the `no`-th to have counted itself.
`count_` is an integer without bounds.

* `barrier_not_early`: no call returns before `n` calls have come; the first `n` calls are the ones
  that return, all later ones throw.
* `barrier_spec`: nobody is left in `cond_.wait` once `n` calls have come, as long as no later call
  counts itself before they are out of it.
-/

namespace Cppev

/-! ## The barrier -/

/-- How a call of `wait` ends. -/
inductive WaitEnd where
  | returns
  | throws (e : Exn)
  deriving DecidableEq, Repr

/-- Where a thread is in `wait`, once it has counted itself as the call number `no`. -/
inductive BarrierPc where
  | outside
  | lock
  /-- At `--count_`. -/
  | decrement
  /-- At `if (count_ == 0)`, and at `cond_.notify_all()` after it. -/
  | testZero (no : Nat)
  | notify (no : Nat)
  /-- At `else if (count_ > 0)`. -/
  | testPositive (no : Nat)
  /-- At the predicate of `cond_.wait`, and at the `pthread_cond_wait` after it. -/
  | predicate (no : Nat)
  | cond (no : Nat)
  | unlock (no : Nat) (e : WaitEnd)
  | leave (no : Nat) (e : WaitEnd)
  deriving DecidableEq, Repr

/-- `count_`, and the history: how many calls have come, and how each has ended. -/
structure PsharedBarrier where
  count : Int
  /-- The history: how many calls have counted themselves, and how each finished call has ended. -/
  entered : Nat
  finished : List (Nat × WaitEnd)
  deriving DecidableEq, Repr

namespace PsharedBarrier

/-- The text of the exception. -/
def tooMany : Exn := .logicError "too many threads waited in the barrier"

/-- The statements of `wait`. -/
def stmt : BarrierPc → Stmt PsharedBarrier BarrierPc
  | .outside => .outside
  | .lock => .lock .decrement
  | .decrement => .act fun b =>
      ({ b with count := b.count - 1, entered := b.entered + 1 }, .testZero (b.entered + 1))
  | .testZero no => .act fun b => (b, if b.count = 0 then .notify no else .testPositive no)
  | .notify no => .notifyAll (.unlock no .returns)
  | .testPositive no => .act fun b =>
      (b, if b.count > 0 then .predicate no else .unlock no (.throws tooMany))
  | .predicate no => .act fun b => (b, if b.count = 0 then .unlock no .returns else .cond no)
  | .cond no => .wait (.predicate no)
  | .unlock no e => .unlock (.leave no e)
  | .leave no e => .act fun b => ({ b with finished := b.finished ++ [(no, e)] }, .outside)

/-! ### Where the lock and the condition variable are used -/

/-- The lock is taken at the beginning. -/
theorem stmt_eq_lock {k next : BarrierPc} (h : stmt k = .lock next) :
    k = .lock ∧ next = .decrement := by
  cases k <;> simp_all [stmt]

/-- It is given back at the end of the block. -/
theorem stmt_eq_unlock {k next : BarrierPc} (h : stmt k = .unlock next) :
    ∃ no e, k = .unlock no e ∧ next = .leave no e := by
  cases k <;> simp_all [stmt]

/-- `cond_.wait` is called by those that are not the last. -/
theorem stmt_eq_wait {k next : BarrierPc} (h : stmt k = .wait next) :
    ∃ no, k = .cond no ∧ next = .predicate no := by
  cases k <;> simp_all [stmt]

theorem stmt_eq_notifyAll {k next : BarrierPc} (h : stmt k = .notifyAll next) :
    ∃ no, k = .notify no ∧ next = .unlock no .returns := by
  cases k <;> simp_all [stmt]

theorem stmt_ne_await {k next : BarrierPc} {cond : PsharedBarrier → Bool} :
    stmt k ≠ .await cond next := by
  cases k <;> simp [stmt]

theorem stmt_ne_notifyOne {k next : BarrierPc} : stmt k ≠ .notifyOne next := by
  cases k <;> simp [stmt]

/-- The barrier with `m` threads. -/
def threads (m : Nat) : Threads (Fin m) PsharedBarrier BarrierPc where
  stmt := fun _ => stmt
  calls := fun _ k k' => k = .outside && k' = .lock

/-- `pshared_barrier(n)`. -/
def init (m n : Nat) : Monitor (Fin m) PsharedBarrier BarrierPc where
  data := ⟨n, 0, []⟩
  owner := none
  depth := 0
  pc := fun _ => .outside
  mode := fun _ => .running

variable {m n : Nat} {s s' : Monitor (Fin m) PsharedBarrier BarrierPc}
  {l : MonitorLabel (Fin m) BarrierPc}

/-! ## The counter and the numbers of the calls

Under the lock `count_` is `n` less the calls that have come, and below zero from then on. Each
claim at a place is about the number that the call has got, so that the claims of different calls do
not meet. -/

/-- How the call number `no` may end once `entered` calls have come. -/
def MayEnd (n entered no : Nat) : WaitEnd → Prop
  | .returns => 1 ≤ no ∧ no ≤ n ∧ n ≤ entered
  | .throws e => n < no ∧ no ≤ entered ∧ e = tooMany

/-- The claims. -/
def assertions (m n : Nat) : Monitor.Assertions (Fin m) PsharedBarrier BarrierPc where
  always := fun b =>
    b.count = n - b.entered ∧ ∀ p ∈ b.finished, MayEnd n b.entered p.1 p.2
  free := fun _ => True
  here := fun _ k b =>
    match k with
    | .testZero no => 1 ≤ no ∧ no = b.entered
    | .notify no => 1 ≤ no ∧ no = n ∧ no = b.entered
    | .testPositive no => 1 ≤ no ∧ no ≠ n ∧ no = b.entered
    | .predicate no => 1 ≤ no ∧ no < n ∧ no ≤ b.entered
    | .cond no => 1 ≤ no ∧ no < n ∧ no ≤ b.entered ∧ b.entered ≠ n
    | .unlock no e | .leave no e => MayEnd n b.entered no e
    | _ => True
  held := fun _ k =>
    match k with
    | .outside | .lock | .leave _ _ => 0
    | _ => 1
  parked := fun _ k b => ∃ no, k = .predicate no ∧ 1 ≤ no ∧ no < n ∧ no ≤ b.entered

/-- More calls do not make an end impossible. -/
theorem MayEnd.mono {entered no : Nat} {e : WaitEnd} (h : MayEnd n entered no e) :
    MayEnd n (entered + 1) no e := by
  cases e <;> simp only [MayEnd] at h ⊢ <;> grind

theorem outline (m n : Nat) : Monitor.Outline (threads m) (assertions m n) where
  calls := fun _ _ _ _ h _ _ => by
    simp only [threads, Bool.and_eq_true, decide_eq_true_eq] at h
    obtain ⟨rfl, rfl⟩ := h
    simp [assertions]
  own := fun _ k b halways hhere => by
    obtain ⟨hcount, hfinished⟩ := halways
    cases k with
    | outside => trivial
    | lock => exact fun _ => ⟨trivial, rfl⟩
    | decrement =>
        refine ⟨⟨?_, fun p hp => (hfinished p hp).mono⟩, ⟨?_, rfl⟩, rfl, nofun⟩
        · show b.count - 1 = (n : Int) - (b.entered + 1 : Nat)
          omega
        · show 1 ≤ b.entered + 1
          omega
    | testZero no =>
        obtain ⟨hpos, hno⟩ := hhere
        refine Monitor.Assertions.shown_test rfl ⟨hcount, hfinished⟩ ?_ ?_
        · exact fun hzero => ⟨⟨hpos, by omega, hno⟩, rfl⟩
        · exact fun hmore => ⟨⟨hpos, by omega, hno⟩, rfl⟩
    | notify no =>
        obtain ⟨hpos, hlast, hno⟩ := hhere
        exact ⟨⟨hpos, hlast.le, by omega⟩, rfl⟩
    | testPositive no =>
        obtain ⟨hpos, hne, hno⟩ := hhere
        refine Monitor.Assertions.shown_test rfl ⟨hcount, hfinished⟩ ?_ ?_
        · exact fun hmore => ⟨⟨hpos, by omega, hno.le⟩, rfl⟩
        · exact fun hlate => ⟨⟨by omega, hno.le, rfl⟩, rfl⟩
    | predicate no =>
        obtain ⟨hpos, hlt, hle⟩ := hhere
        refine Monitor.Assertions.shown_test rfl ⟨hcount, hfinished⟩ ?_ ?_
        · exact fun hzero => ⟨⟨hpos, hlt.le, by omega⟩, rfl⟩
        · exact fun hmore => ⟨⟨hpos, hlt, hle, by omega⟩, rfl⟩
    | cond no =>
        obtain ⟨hpos, hlt, hle, -⟩ := hhere
        exact ⟨⟨no, rfl, hpos, hlt, hle⟩, rfl, rfl, trivial⟩
    | unlock no e => exact ⟨hhere, rfl, fun _ => trivial⟩
    | leave no e =>
        refine ⟨⟨hcount, fun p hp => ?_⟩, trivial, rfl, fun _ _ => trivial⟩
        rcases List.mem_append.mp hp with hp | hp
        · exact hfinished p hp
        · obtain rfl := List.mem_singleton.mp hp
          exact hhere
  others := fun _ _ k k' b _ _ _ _ hhere hst hapart => by
    cases k <;> simp only [threads, stmt, reduceCtorEq, Stmt.act.injEq] at hst <;> subst hst
    case decrement =>
      -- the thread has the lock, so the other one is at a point without it
      have hheld := hapart.resolve_left Nat.one_ne_zero
      cases k' with
      | outside | lock => trivial
      | leave no e => exact MayEnd.mono hhere
      | _ => exact absurd hheld Nat.one_ne_zero
    all_goals exact hhere
  waiters := fun _ _ k _ _ b _ _ _ hparked hst => by
    obtain ⟨no, rfl, hpos, hlt, hle⟩ := hparked
    cases k <;> simp only [threads, stmt, reduceCtorEq, Stmt.act.injEq] at hst <;> subst hst
    case decrement => exact ⟨no, rfl, hpos, hlt, Nat.le_succ_of_le hle⟩
    all_goals exact ⟨no, rfl, hpos, hlt, hle⟩
  resume := fun _ _ _ _ _ hparked => by
    obtain ⟨no, rfl, hno⟩ := hparked
    exact hno

/-- So they hold in every state of a run. -/
theorem outlined {ls : List (MonitorLabel (Fin m) BarrierPc)}
    (hrun : run (Monitor.step (threads m)) (init m n) ls = some s) :
    Monitor.Outlined (assertions m n) s := by
  refine Monitor.Outlined.of_run (outline m n) (.init ?_ rfl rfl ?_ ?_ trivial ?_) hrun
  · exact fun _ => rfl
  · exact fun _ => rfl
  · simp [assertions, init]
  · exact fun _ => trivial

/-! ## Every call ends once

The numbers of the calls under way and of those that have ended are all different, and all below the
count of those that have come. -/

/-- The number of the call a thread is in. -/
def noOf : BarrierPc → Option Nat
  | .testZero no | .notify no | .testPositive no | .predicate no | .cond no => some no
  | .unlock no _ | .leave no _ => some no
  | _ => none

/-- No number is given twice: not to two threads, and not to a thread and a call that has ended. -/
structure Numbered (s : Monitor (Fin m) PsharedBarrier BarrierPc) : Prop where
  apart : ∀ i j no, noOf (s.pc i) = some no → noOf (s.pc j) = some no → i = j
  running : ∀ i no, noOf (s.pc i) = some no → no ≤ s.data.entered ∧ no ∉ s.data.finished.map Prod.fst
  finished : (s.data.finished.map Prod.fst).Nodup
  below : ∀ no ∈ s.data.finished.map Prod.fst, no ≤ s.data.entered

/-- A step after which every thread is in the call it was in, or in none. -/
theorem Numbered.congr (hi : Numbered s)
    (hpc : ∀ j no, noOf (s'.pc j) = some no → noOf (s.pc j) = some no)
    (he : s'.data.entered = s.data.entered) (hf : s'.data.finished = s.data.finished) :
    Numbered s' where
  apart := fun i j no h h' => hi.apart i j no (hpc i no h) (hpc j no h')
  running := fun i no h => by rw [he, hf]; exact hi.running i no (hpc i no h)
  finished := by rw [hf]; exact hi.finished
  below := by rw [he, hf]; exact hi.below

/-- A thread stays in its call or leaves it. -/
theorem Numbered.goto (hi : Numbered s) {i : Fin m} {k : BarrierPc}
    (hk : ∀ no, noOf k = some no → noOf (s.pc i) = some no) : Numbered (s.goto i k) := by
  refine hi.congr (fun j no h => ?_) rfl rfl
  by_cases hj : j = i
  · subst hj; exact hk no (by simpa using h)
  · simpa [hj] using h

/-- The call that counts itself gets a number that nobody has had. -/
theorem Numbered.decrement (hi : Numbered s) (i : Fin m) :
    Numbered ((s.setData ⟨s.data.count - 1, s.data.entered + 1, s.data.finished⟩).goto i
      (.testZero (s.data.entered + 1))) := by
  -- calls are numbered as they count themselves, so this number is new
  have hnew : ∀ j no, noOf (s.pc j) = some no → no ≠ s.data.entered + 1 := by
    rintro j no h rfl
    have := (hi.running j _ h).1
    omega
  have hpc : ∀ j no, noOf (Function.update s.pc i (.testZero (s.data.entered + 1)) j) = some no →
      j = i ∧ no = s.data.entered + 1 ∨ noOf (s.pc j) = some no := by
    intro j no h
    by_cases hj : j = i
    · subst hj
      exact .inl ⟨rfl, by simpa [noOf] using h.symm⟩
    · exact .inr (by simpa [hj] using h)
  refine ⟨fun j j' no h h' => ?_, fun j no h => ?_, hi.finished, fun no h => ?_⟩
  · rcases hpc j no h with ⟨rfl, hno⟩ | hold <;> rcases hpc j' no h' with ⟨rfl, hno'⟩ | hold'
    · rfl
    · exact (hnew _ _ hold' hno).elim
    · exact (hnew _ _ hold hno').elim
    · exact hi.apart j j' no hold hold'
  · rcases hpc j no h with ⟨rfl, rfl⟩ | hold
    · refine ⟨le_rfl, fun hmem => ?_⟩
      have := hi.below _ hmem
      omega
    · exact ⟨Nat.le_succ_of_le (hi.running j no hold).1, (hi.running j no hold).2⟩
  · exact Nat.le_succ_of_le (hi.below no h)

/-- A call that ends was under way, so its number is not among those that have ended. -/
theorem Numbered.leave (hi : Numbered s) {i : Fin m} {no : Nat} {e : WaitEnd}
    (hpc : s.pc i = .leave no e) :
    Numbered ((s.setData ⟨s.data.count, s.data.entered, s.data.finished ++ [(no, e)]⟩).goto i
      .outside) := by
  have hno : noOf (s.pc i) = some no := by rw [hpc]; rfl
  -- the number goes into the history, and no thread has it any more
  have hrest : ∀ j no', noOf (Function.update s.pc i .outside j) = some no' →
      j ≠ i ∧ noOf (s.pc j) = some no' := by
    intro j no' h
    have hj : j ≠ i := by rintro rfl; simp [noOf] at h
    exact ⟨hj, by simpa [hj] using h⟩
  have hmap : (s.data.finished ++ [(no, e)]).map Prod.fst =
      s.data.finished.map Prod.fst ++ [no] := by simp
  refine ⟨fun j j' no' h h' => hi.apart j j' no' (hrest j no' h).2 (hrest j' no' h').2,
    fun j no' h => ?_, ?_, ?_⟩
  · obtain ⟨hj, hold⟩ := hrest j no' h
    refine ⟨(hi.running j no' hold).1, fun hmem => ?_⟩
    rcases List.mem_append.mp (hmap ▸ hmem) with hmem | hmem
    · exact (hi.running j no' hold).2 hmem
    · obtain rfl := List.mem_singleton.mp hmem
      exact hj (hi.apart j i no' hold hno)
  · show ((s.data.finished ++ [(no, e)]).map Prod.fst).Nodup
    rw [hmap, List.nodup_append]
    refine ⟨hi.finished, List.nodup_singleton no, fun a ha b hb => ?_⟩
    obtain rfl := List.mem_singleton.mp hb
    rintro rfl
    exact (hi.running i _ hno).2 ha
  · intro no' h
    rcases List.mem_append.mp (hmap ▸ h) with h | h
    · exact hi.below no' h
    · obtain rfl := List.mem_singleton.mp h
      exact (hi.running i _ hno).1

/-- The numbering is kept by every statement. -/
theorem Numbered.step (hi : Numbered s) (h : Monitor.Step (threads m) s l s') : Numbered s' := by
  cases h with
  | call i k hm hc =>
      simp only [threads, Bool.and_eq_true, decide_eq_true_eq] at hc
      refine hi.goto fun no h => ?_
      simp [hc.2, noOf] at h
  | act i f hm hst =>
      cases hpc : s.pc i <;>
        simp only [threads, stmt, hpc, reduceCtorEq, Stmt.act.injEq] at hst <;> subst hst
      -- a number is given out here, and done with in `leave`
      case decrement => exact hi.decrement i
      case leave => exact hi.leave hpc
      all_goals
        refine Numbered.goto (s := s.setData s.data) hi fun no h => ?_
        simp only [Monitor.setData_pc, hpc]
        simp only at h
        split at h <;> exact h
  | lock i next hm hst =>
      obtain ⟨-, rfl⟩ := stmt_eq_lock hst
      exact Numbered.goto (s := s.acquire i) (hi.congr (fun _ _ h => h) rfl rfl) nofun
  | unlock i next hm hst =>
      obtain ⟨no, e, hpc, rfl⟩ := stmt_eq_unlock hst
      refine Numbered.goto (s := s.release) (hi.congr (fun _ _ h => h) rfl rfl) fun no h => ?_
      rw [Monitor.release_pc, hpc]
      exact h
  | wait i next hm hst =>
      obtain ⟨no, hpc, rfl⟩ := stmt_eq_wait hst
      -- who waits keeps its number
      have hgoto : Numbered (s.release.goto i (.predicate no)) :=
        Numbered.goto (s := s.release) (hi.congr (fun _ _ h => h) rfl rfl) fun no h => by
          rw [Monitor.release_pc, hpc]
          exact h
      exact hgoto.congr (fun _ _ h => h) rfl rfl
  | notifyAll i next hm hst =>
      obtain ⟨no, hpc, rfl⟩ := stmt_eq_notifyAll hst
      refine Numbered.goto (s := s.wakeAll) (hi.congr (fun _ _ h => h) rfl rfl) fun no h => ?_
      rw [Monitor.wakeAll_pc, hpc]
      exact h
  | spuriousWakeup i hm | reacquire i hm => exact hi.congr (fun _ _ h => h) rfl rfl
  | await i cond next hm hst => exact absurd hst stmt_ne_await
  | notifyOne i next woken hm hst => exact absurd hst stmt_ne_notifyOne

theorem numbered {ls : List (MonitorLabel (Fin m) BarrierPc)}
    (hrun : run (Monitor.step (threads m)) (init m n) ls = some s) : Numbered s := by
  refine Monitor.inv_of_run Numbered (fun _ _ _ hi h => hi.step h) ⟨?_, ?_, ?_, ?_⟩ hrun
  · intro i j no h
    simp [init, noOf] at h
  · intro i no h
    simp [init, noOf] at h
  · exact List.nodup_nil
  · exact fun _ h => nomatch h

/-- The numbers of the calls that have returned. -/
def returned (b : PsharedBarrier) : List Nat :=
  (b.finished.filter fun p => p.2 = .returns).map Prod.fst

/-! ### The first result -/

/-- **No early release.** No call returns before `n` calls have come, at most `n` calls return, each
of them once, and a call that ends otherwise throws. -/
theorem barrier_not_early {ls : List (MonitorLabel (Fin m) BarrierPc)}
    (hrun : run (Monitor.step (threads m)) (init m n) ls = some s) :
    (s.data.finished.map Prod.fst).Nodup ∧
      (returned s.data ≠ [] → n ≤ s.data.entered) ∧ (returned s.data).length ≤ n ∧
      ∀ p ∈ s.data.finished, p.1 ∉ returned s.data → n < p.1 ∧ p.2 = .throws tooMany := by
  have hall := (outlined hrun).always.2
  have hnum := numbered hrun
  have hmem : ∀ no ∈ returned s.data, 1 ≤ no ∧ no ≤ n ∧ n ≤ s.data.entered := by
    intro no h
    obtain ⟨p, hp, rfl⟩ := List.mem_map.mp h
    obtain ⟨hp, he⟩ := List.mem_filter.mp hp
    have := hall p hp
    rwa [of_decide_eq_true he] at this
  refine ⟨hnum.finished, fun hne => ?_, ?_, fun p hp hnot => ?_⟩
  · obtain ⟨no, hno⟩ := List.exists_mem_of_ne_nil _ hne
    exact (hmem no hno).2.2
  -- different numbers from 1 to `n`
  · have hnodup : (returned s.data).Nodup := hnum.finished.sublist (List.filter_sublist.map _)
    have hsub : returned s.data ⊆ List.range' 1 n := by
      intro no h
      rw [List.mem_range'_1]
      have := hmem no h
      omega
    simpa using (List.subperm_of_subset hnodup hsub).length_le
  · have hend := hall p hp
    cases he : p.2 with
    | returns =>
        refine (hnot (List.mem_map.mpr ⟨p, List.mem_filter.mpr ⟨hp, ?_⟩, rfl⟩)).elim
        exact decide_eq_true he
    | throws e =>
        rw [he] at hend
        exact ⟨hend.1, by rw [hend.2.2]⟩

/-- A call of `wait` in thread `i`, as far as it gets without blocking twice. -/
def waitCall (i : Fin m) : List (MonitorLabel (Fin m) BarrierPc) :=
  .call i .lock :: List.replicate 6 (.next i)

/-- What is left of the first call, once it has been woken up. -/
def returnCall (i : Fin m) : List (MonitorLabel (Fin m) BarrierPc) :=
  .reacquire i :: List.replicate 3 (.next i)

/-- A barrier for two, and a third call. -/
theorem barrier_not_early_two :
    ∃ s, run (Monitor.step (threads 2)) (init 2 2)
        (waitCall 0 ++ waitCall 1 ++ returnCall 0 ++ waitCall 1) = some s ∧
      s.data.finished = [(2, .returns), (1, .returns), (3, .throws tooMany)] ∧
      (returned s.data).length ≤ 2 :=
  ⟨_, rfl, rfl, (@barrier_not_early 2 2 _
    (waitCall 0 ++ waitCall 1 ++ returnCall 0 ++ waitCall 1) rfl).2.2.1⟩

/-! ## Who is left waiting

A waiter tests `count_ == 0` again when it wakes up. It is stuck if a late call has counted itself
before. `InTurn` excludes this; the invariant is that while somebody is in `cond_.wait`, `count_` is
positive, or it is zero and they have been woken up. -/

/-- In `cond_.wait`: at its predicate, at its `pthread_cond_wait`, or in that. -/
def inWait : BarrierPc → Bool
  | .predicate _ | .cond _ => true
  | _ => false

/-- The `n`-th call is on its way to `notify_all`, and has the lock. -/
def Arriving (n : Nat) (s : Monitor (Fin m) PsharedBarrier BarrierPc) : Prop :=
  ∃ i, s.pc i = .testZero n ∨ s.pc i = .notify n

/-- A wake-up is pending for `i`, and when it has the lock it finds the predicate true. -/
def Released (s : Monitor (Fin m) PsharedBarrier BarrierPc) (i : Fin m) : Prop :=
  s.mode i ≠ .blocked ∧ s.data.count = 0

/-- Nobody has been left behind by the `n`-th call. -/
def NoneStuck (n : Nat) (s : Monitor (Fin m) PsharedBarrier BarrierPc) : Prop :=
  n ≤ s.data.entered → Arriving n s ∨ ∀ i, inWait (s.pc i) = true → Released s i

/-- A call beyond the `n`-th counts itself only when the first `n` are out of `cond_.wait`. -/
def InTurn (n : Nat) (s : Monitor (Fin m) PsharedBarrier BarrierPc) :
    MonitorLabel (Fin m) BarrierPc → Prop
  | .next i => s.pc i = .decrement → n ≤ s.data.entered → ∀ j, inWait (s.pc j) = false
  | _ => True

instance (s : Monitor (Fin m) PsharedBarrier BarrierPc) (l : MonitorLabel (Fin m) BarrierPc) :
    Decidable (InTurn n s l) := by
  cases l <;> unfold InTurn <;> infer_instance

/-! ### Nobody gets stuck -/

/-- Where everybody is stays as it is, and nobody blocks. -/
theorem NoneStuck.congr (hi : NoneStuck n s) (hpc : s'.pc = s.pc) (hd : s'.data = s.data)
    (hm : ∀ j, s.mode j ≠ .blocked → s'.mode j ≠ .blocked) : NoneStuck n s' := by
  intro hn
  rw [hd] at hn
  rcases hi hn with ⟨j, hj⟩ | h
  · exact .inl ⟨j, by rwa [hpc]⟩
  · refine .inr fun j hj => ?_
    obtain ⟨hmode, hcount⟩ := h j (by rwa [← hpc])
    exact ⟨hm j hmode, by rwa [hd]⟩

/-- `i` goes on, and is in `wait` only if it was there already. -/
theorem NoneStuck.goto (hi : NoneStuck n s) {i : Fin m} {k : BarrierPc}
    (hpc : s.pc i ≠ .testZero n ∧ s.pc i ≠ .notify n)
    (hk : n ≤ s.data.entered → inWait k = true → inWait (s.pc i) = true) :
    NoneStuck n (s.goto i k) := by
  intro hn
  rcases hi hn with ⟨j, hj⟩ | h
  · have hne : j ≠ i := by
      rintro rfl
      exact hj.elim hpc.1 hpc.2
    exact .inl ⟨j, by simpa [hne] using hj⟩
  · refine .inr fun j hj => h j ?_
    by_cases hne : j = i
    · subst hne
      exact hk hn (by simpa using hj)
    · simpa [hne] using hj

/-- Only the count can make the predicate false again, and `InTurn` says that it does not. -/
theorem NoneStuck.act (hi : NoneStuck n s) (ho : Monitor.Outlined (assertions m n) s) {i : Fin m}
    {f : PsharedBarrier → PsharedBarrier × BarrierPc} (hm : s.mode i = .running)
    (hst : (threads m).stmt i (s.pc i) = .act f) (hok : InTurn n s (.next i)) :
    NoneStuck n ((s.setData (f s.data).1).goto i (f s.data).2) := by
  have hhere := ho.here i hm
  have hcount : s.data.count = n - s.data.entered := ho.always.1
  cases hpc : s.pc i <;>
    simp only [threads, stmt, hpc, reduceCtorEq, Stmt.act.injEq] at hst <;> subst hst <;>
    simp only [assertions, hpc] at hhere
  case decrement =>
    intro hn
    by_cases hlate : n ≤ s.data.entered
    · refine .inr fun j hj => ?_
      have hout := hok hpc hlate j
      by_cases hne : j = i
      · subst hne; simp [inWait] at hj
      · simp [hne, hout] at hj
    · refine .inl ⟨i, .inl ?_⟩
      have hlast : s.data.entered + 1 = n := by
        have : n ≤ s.data.entered + 1 := hn
        omega
      simp [hlast]
  case testZero no =>
    by_cases hzero : s.data.count = 0
    · refine fun _ => .inl ⟨i, .inr ?_⟩
      have hlast : no = n := by omega
      simp [hzero, hlast]
    · refine NoneStuck.goto hi ?_ ?_
      · rw [hpc]
        simp only [ne_eq, BarrierPc.testZero.injEq, reduceCtorEq, not_false_eq_true, and_true]
        omega
      · simp [hzero, inWait]
  case testPositive no =>
    refine NoneStuck.goto hi (by simp [hpc]) fun hn hk => ?_
    -- `count_ > 0` says that the `n`-th call has yet to come
    have hpos : ¬ s.data.count > 0 := by omega
    simp [hpos, inWait] at hk
  case predicate no =>
    exact NoneStuck.goto hi (by simp [hpc]) fun _ _ => by simp [hpc, inWait]
  case leave no e =>
    have hsame : NoneStuck n (s.setData ⟨s.data.count, s.data.entered,
        s.data.finished ++ [(no, e)]⟩) := hi
    exact hsame.goto (by simp [hpc]) (by simp [inWait])

theorem NoneStuck.step (hi : NoneStuck n s) (ho : Monitor.Outlined (assertions m n) s)
    (hok : InTurn n s l) (h : Monitor.Step (threads m) s l s') : NoneStuck n s' := by
  cases h with
  | call i k hm hc =>
      simp only [threads, Bool.and_eq_true, decide_eq_true_eq] at hc
      exact hi.goto (by simp [hc.1]) (by simp [hc.2, inWait])
  | act i f hm hst => exact hi.act ho hm hst hok
  | lock i next hm hst =>
      obtain ⟨hpc, rfl⟩ := stmt_eq_lock hst
      exact NoneStuck.goto (s := s.acquire i) hi (by simp [hpc]) (by simp [inWait])
  | unlock i next hm hst =>
      obtain ⟨no, e, hpc, rfl⟩ := stmt_eq_unlock hst
      exact NoneStuck.goto (s := s.release) hi (by simp [hpc]) (by simp [inWait])
  | wait i next hm hst =>
      obtain ⟨no, hpc, rfl⟩ := stmt_eq_wait hst
      have hhere := ho.here i hm
      have hcount : s.data.count = n - s.data.entered := ho.always.1
      simp only [assertions, hpc] at hhere
      intro hn
      replace hn : n ≤ s.data.entered := hn
      rcases hi hn with ⟨j, hj⟩ | hall
      · have hne : j ≠ i := by
          rintro rfl
          simp [hpc] at hj
        exact .inl ⟨j, by simpa [hne] using hj⟩
      · -- a waiter blocks only before the `n`-th call has come
        have hzero := (hall i (by simp [hpc, inWait])).2
        omega
  | notifyAll i next hm hst =>
      obtain ⟨no, hpc, rfl⟩ := stmt_eq_notifyAll hst
      have hhere := ho.here i hm
      have hcount : s.data.count = n - s.data.entered := ho.always.1
      simp only [assertions, hpc] at hhere
      -- the `n`-th call wakes up all who wait, and the predicate stays true
      refine fun _ => .inr fun j _ => ⟨?_, ?_⟩
      · simp only [Monitor.goto_mode, Monitor.wakeAll_mode]
        split <;> simp_all
      · show s.data.count = 0
        omega
  | spuriousWakeup i hm =>
      refine hi.congr rfl rfl fun j hj => ?_
      by_cases hne : j = i <;> simp [hne, hj]
  | reacquire i hm =>
      refine hi.congr rfl rfl fun j hj => ?_
      by_cases hne : j = i <;> simp [hne, hj]
  | await i cond next hm hst => exact absurd hst stmt_ne_await
  | notifyOne i next woken hm hst => exact absurd hst stmt_ne_notifyOne

/-! ### A late call -/

/-- A late call that counts itself too early: whoever is in `cond_.wait` finds the predicate false
when it wakes up. -/
theorem stuck_of_late (ho : Monitor.Outlined (assertions m n) s) {i j : Fin m}
    (h : Monitor.Step (threads m) s (.next i) s') (hpc : s.pc i = .decrement)
    (hlate : n ≤ s.data.entered) (hj : inWait (s.pc j) = true) : ¬ NoneStuck n s' := by
  have hcount : s.data.count = n - s.data.entered := ho.always.1
  cases h with
  | act i f hm hst =>
    simp only [threads, stmt, hpc, Stmt.act.injEq] at hst
    subst hst
    intro hnone
    have hne : j ≠ i := by
      rintro rfl
      simp [hpc, inWait] at hj
    rcases hnone (Nat.le_succ_of_le hlate) with ⟨q, hq⟩ | hall
    · by_cases hqi : q = i
      · subst hqi
        simp at hq
        omega
      · -- nobody else is at a point where it has the lock
        have hq : s.pc q = .testZero n ∨ s.pc q = .notify n := by simpa [hqi] using hq
        have hqm : s.mode q = .running := ho.running_of_not_parked (by
          rcases hq with hq | hq <;> simp [assertions, hq])
        refine hqi (ho.unique hqm ?_ hm ?_)
        · rcases hq with hq | hq <;> simp [assertions, hq]
        · simp [assertions, hpc]
    · have hzero : s.data.count - 1 = 0 := (hall j (by simpa [hne] using hj)).2
      omega
  | _ => simp_all [threads, stmt]

/-- **The barrier.** As long as later calls count themselves only when the first `n` are out of
`cond_.wait`, none of these is left behind, they return, and the later ones throw. A later call that
counts itself before leaves one behind. -/
theorem barrier_spec (m n : Nat) :
    (∀ ls s, AllSteps (Monitor.step (threads m)) (InTurn n) (init m n) ls →
      run (Monitor.step (threads m)) (init m n) ls = some s →
      NoneStuck n s ∧ ∀ p ∈ s.data.finished,
        (p.1 ≤ n → p.2 = .returns) ∧ (n < p.1 → p.2 = .throws tooMany)) ∧
    (∀ ls s l s', run (Monitor.step (threads m)) (init m n) ls = some s →
      s.step (threads m) l = some s' → ¬ InTurn n s l → ¬ NoneStuck n s') := by
  refine ⟨fun ls s hok hrun => ⟨?_, fun p hp => ?_⟩, fun ls s l s' hrun hstep hl => ?_⟩
  · have hinv : Monitor.Outlined (assertions m n) s ∧ NoneStuck n s := by
      refine Monitor.inv_of_allSteps (InTurn n)
        (fun s => Monitor.Outlined (assertions m n) s ∧ NoneStuck n s)
        (fun s l s' hi hok h => ⟨hi.1.step (outline m n) h, hi.2.step hi.1 hok h⟩)
        ⟨outlined (run_nil _ _), fun _ => .inr fun i h => ?_⟩ hok hrun
      simp [init, inWait] at h
    exact hinv.2
  · have hend := (outlined hrun).always.2 p hp
    cases he : p.2 with
    | returns =>
        rw [he] at hend
        exact ⟨fun _ => rfl, fun hlt => (Nat.not_lt.mpr hend.2.1 hlt).elim⟩
    | throws e =>
        rw [he] at hend
        exact ⟨fun hle => (Nat.not_lt.mpr hle hend.1).elim, fun _ => by rw [hend.2.2]⟩
  · cases l with
    | next i =>
        simp only [InTurn, Classical.not_imp, not_forall, Bool.not_eq_false] at hl
        obtain ⟨hpc, hlate, j, hj⟩ := hl
        exact stuck_of_late (outlined hrun) (Monitor.step_sound hstep) hpc hlate hj
    | _ => exact (hl trivial).elim

/-- The third call comes when the first two have returned. -/
theorem barrier_spec_two :
    ∃ s, run (Monitor.step (threads 2)) (init 2 2)
        (waitCall 0 ++ waitCall 1 ++ returnCall 0 ++ waitCall 1) = some s ∧ NoneStuck 2 s :=
  ⟨_, rfl, ((barrier_spec 2 2).1 (waitCall 0 ++ waitCall 1 ++ returnCall 0 ++ waitCall 1) _
    (by decide) rfl).1⟩

/-- The third call gets the lock before the waiter that `notify_all` has woken up, which then finds
`count_` below zero and blocks again. -/
theorem barrier_left_behind :
    ¬ ∀ (n m : Nat) (ls : List (MonitorLabel (Fin m) BarrierPc))
        (s : Monitor (Fin m) PsharedBarrier BarrierPc), 1 ≤ n →
      run (Monitor.step (threads m)) (init m n) ls = some s →
      NoneStuck n s ∧ ∀ p ∈ s.data.finished,
        (p.1 ≤ n → p.2 = .returns) ∧ (n < p.1 → p.2 = .throws tooMany) := by
  intro h
  have hnone := (h 2 2 (waitCall 0 ++ waitCall 1 ++ waitCall 1 ++ [.reacquire 0, .next 0, .next 0])
    _ (by decide) rfl).1 (by decide)
  rcases hnone with ⟨i, hi⟩ | hall
  · revert i
    decide
  · exact (hall 0 (by decide)).1 (by decide)

end PsharedBarrier

end Cppev
