import Cppev.ThreadPool.Basic

/-!
# No lost wake-up

`cond_` is signalled once for each task pushed, but the waiter that is woken need not be the one
that finds the task. The invariant `Awake` says who is left to look at the queue: as long as it
holds a task, a thread that has pushed and not yet signalled, or a worker that is neither blocked
nor gone; and once `stop_` is set, nobody is left blocked behind the `notify_all` of `stop`.

* `no_lost_wakeup`: while a worker is left, no run reaches a state where nobody is in a locked
  section of `add_task` or `stop`, there is something to do, and every worker left is blocked.
* `stuck_after_shutdown`: without a worker left, every pool that has been shut down is such a state.
-/

namespace Cppev

/-! ## Someone looks at the queue

A worker that is not blocked will look at the queue before it blocks, and a thread that has pushed
will signal. One of the two is always there while the queue has tasks (`Attended`). -/

/-- Neither blocked nor gone. -/
def WorkerPc.Active {H : Type} {n : Nat} (pc : WorkerPc H n) : Prop :=
  pc ≠ .blocked ∧ pc ≠ .exited

theorem WorkerPc.wake_ne_blocked {H : Type} {n : Nat} (pc : WorkerPc H n) : pc.wake ≠ .blocked := by
  cases pc <;> simp [WorkerPc.wake]

theorem WorkerPc.Active.wake {H : Type} {n : Nat} {pc : WorkerPc H n} (h : pc.Active) :
    pc.wake.Active :=
  ⟨pc.wake_ne_blocked, by cases pc <;> simp_all [WorkerPc.wake, WorkerPc.Active]⟩

namespace ThreadPoolTaskQueue

variable {H : Type} {n : Nat} {s s' : ThreadPoolTaskQueue H n}

/-- A thread has pushed, or is about to, and will signal `cond_` after that. -/
def Signalling (s : ThreadPoolTaskQueue H n) : Prop :=
  ∃ t rest vector, s.adding t = some (.pushing rest vector)

/-- Somebody is left to look at the queue, or nobody was to begin with. -/
def Attended (s : ThreadPoolTaskQueue H n) : Prop :=
  Signalling s ∨ (∃ i, (s.workers i).Active) ∨ ∀ i, s.workers i = .exited

structure Awake (s : ThreadPoolTaskQueue H n) : Prop where
  queue : s.queue ≠ [] → Attended s
  stop : s.stop = true → s.stopper = .set ∨ ∀ i, s.workers i ≠ .blocked

theorem Attended.of_active {i : Fin n} (h : (s.workers i).Active) : Attended s :=
  .inr (.inl ⟨i, h⟩)

/-- When nobody is blocked, whoever is left is active. -/
theorem Attended.of_no_blocked (h : ∀ i, s.workers i ≠ .blocked) : Attended s := by
  by_cases he : ∃ i, s.workers i ≠ .exited
  · obtain ⟨i, hi⟩ := he
    exact .of_active ⟨h i, hi⟩
  · exact .inr (.inr fun i => by_contra fun hi => he ⟨i, hi⟩)

/-- Workers and calls of `add_task` unchanged. -/
theorem Attended.congr (h : Attended s) (hw : s'.workers = s.workers)
    (ha : s'.adding = s.adding) : Attended s' := by
  unfold Attended Signalling at *
  rw [hw, ha]
  exact h

theorem Awake.init : Awake (init H n) where
  queue := fun h => (h rfl).elim
  stop := fun h => nomatch h

/-! ### What a step keeps -/

/-- A statement that leaves tasks in the queue leaves someone to look at it. -/
theorem Awake.step_queue (hi : Awake s) (h : Step s s') (hq : s'.queue ≠ []) : Attended s' := by
  cases h with
  | exitAtTest i hpc hq' | exitAtRecheck i hpc hq' => exact (hq hq').elim
  | block i hpc hq' => exact (hq hq').elim
  | addEnter t vh vector => exact .inl ⟨t, vh, vector, by simp⟩
  | push t h rest vector => exact .inl ⟨t, rest, vector, by simp⟩
  | addNotifyAll t => exact .of_no_blocked fun i => (s.workers i).wake_ne_blocked
  | addNotifyOne t i => exact .of_active (i := i) (by simp [WorkerPc.Active])
  | addNotifyNone t ha hpc => exact .of_no_blocked hpc
  | addLeave t ha =>
      rcases hi.queue hq with ⟨u, rest, vector, hu⟩ | hw
      · have hne : u ≠ t := by rintro rfl; simp [ha] at hu
        exact .inl ⟨u, rest, vector, by simpa [adding_addAt, hne] using hu⟩
      · exact .inr hw
  | stopEnter | stopSet | stopLeave | join => exact (hi.queue hq).congr rfl rfl
  | stopNotify => exact .of_no_blocked fun i => (s.workers i).wake_ne_blocked
  -- every other statement is one of a worker that stays active
  | acquire i | wait i | nonempty i | proceed i | reacquire i | recheckPassed i | wakeUp i =>
      exact .of_active (i := i) (by simp [WorkerPc.Active])
  | pop i | notify i | call i | handlerReturns i =>
      exact .of_active (i := i) (by simp [WorkerPc.Active])

/-- Only the end of `wait` blocks a worker, and `wait` reads `stop_` first. -/
theorem Awake.step_stop (hi : Awake s) (h : Step s s') (hs : s'.stop = true) :
    s'.stopper = .set ∨ ∀ i, s'.workers i ≠ .blocked := by
  cases h with
  | block i hpc hq hs' => simp [hs'] at hs
  | stopSet => exact .inl rfl
  | stopNotify | addNotifyAll => exact .inr fun i => (s.workers i).wake_ne_blocked
  | stopEnter hidle | stopLeave hidle | join hidle =>
      have := hi.stop hs
      simp_all
  | push | addEnter | addNotifyNone | addLeave => exact hi.stop hs
  | notify i =>
      refine .inr fun j => ?_
      simp only [workers_goto, workers_notifyAll]
      split
      · simp
      · exact (s.workers j).wake_ne_blocked
  | acquire i | wait i | nonempty i | proceed i | reacquire i | recheckPassed i | wakeUp i
  | exitAtTest i | exitAtRecheck i | pop i | call i | handlerReturns i | addNotifyOne t i =>
      refine (hi.stop hs).imp id fun hb j => ?_
      simp only [workers_goto, workers_addAt]
      split
      · simp
      · exact hb j

theorem Awake.step (hi : Awake s) (h : Step s s') : Awake s' :=
  ⟨hi.step_queue h, hi.step_stop h⟩

/-! ## The theorem

To be stuck, all who could go on would have to be blocked, and `Awake` rules this out. -/

/-- Nobody is in a locked section of `add_task` or `stop`, there is a task or a stop to see to,
and every worker that has not exited is blocked with no wake-up pending. -/
structure Stuck (s : ThreadPoolTaskQueue H n) : Prop where
  adding : ∀ t, s.adding t = none
  stopper : ¬ s.stopper.owns
  work : s.queue ≠ [] ∨ s.stop = true
  workers : ∀ i, s.workers i ≠ .exited → s.workers i = .blocked

/-- **No lost wake-up.** No run reaches such a state with a worker left. -/
theorem no_lost_wakeup {ls : List (PoolLabel H n)} (hrun : run step (init H n) ls = some s) :
    ¬ (Stuck s ∧ ∃ i, s.workers i ≠ .exited) := by
  rintro ⟨hstuck, i, hi⟩
  have hinv : Awake s := inv_of_run Awake .init (fun _ _ hi h => hi.step h) hrun
  have hblocked : s.workers i = .blocked := hstuck.workers i hi
  have hactive : ¬ ∃ j, (s.workers j).Active := by
    rintro ⟨j, hb, he⟩
    exact hb (hstuck.workers j he)
  rcases hstuck.work with hq | hs
  · rcases hinv.queue hq with ⟨t, rest, vector, ht⟩ | hact | hall
    · simp [hstuck.adding t] at ht
    · exact hactive hact
    · exact hi (hall i)
  · rcases hinv.stop hs with hset | hb
    · exact hstuck.stopper (by simp [hset, StopPc.owns])
    · exact hb i hblocked

/-- One worker goes to sleep; a task is added and `notify_one` finds the sleeper. -/
def oneTask : List (PoolLabel Unit 1) :=
  let i : Fin 1 := ⟨0, Nat.one_pos⟩
  [.runImpl i, .runImpl i, .runImpl i, .addTask (.outside 0) (), .addNext (.outside 0) none,
    .addNext (.outside 0) (some i), .addNext (.outside 0) none]

theorem no_lost_wakeup_one_task :
    ∃ s, run step (init Unit 1) oneTask = some s ∧ s.workers 0 = .woken ∧
      ¬ (Stuck s ∧ ∃ i, s.workers i ≠ .exited) :=
  ⟨_, rfl, rfl, @no_lost_wakeup Unit 1 _ oneTask rfl⟩

/-- Once the pool has shut down, with `stop_` still set, there is no worker left to be blocked. -/
theorem stuck_after_shutdown :
    ∃ s, run step (init Unit 1) [.stop, .stop, .stop, .stop, .runImpl 0, .runImpl 0, .stop] =
        some s ∧ Stuck s := by
  refine ⟨_, rfl, ⟨fun _ => rfl, id, .inr rfl, ?_⟩⟩
  intro i hi
  cases Fin.fin_one_eq_zero i
  exact (hi rfl).elim

end ThreadPoolTaskQueue

end Cppev
