import Mathlib.Data.List.Nodup
import Mathlib.Data.List.Range
import Cppev.ThreadPool.Basic

/-!
# Each task exactly once

What the queue owes to those who add tasks. A task is on its way from `pushed` over `taken` and
`called` to `finished`; in between, exactly one worker has it in hand. `Effect` sorts the
statements of the machine by what they do to a task on that way: nearly all do nothing.

* `exactly_once`: tasks are taken in the order they were pushed, none is run twice, and when `stop`
  returns, every task has been run exactly once but those that a thread outside the pool added
  after `stop` had taken the lock.
* `late_task_left`: such a task can be left in the queue when `stop` returns.
-/

namespace Cppev

/-! ## Tasks in hand -/

/-- The task a worker has in hand, and whether it has called it. -/
def WorkerPc.inHand {H : Type} {n : Nat} : WorkerPc H n → Option (Bool × Task H n)
  | .popped task | .notified task => some (false, task)
  | .running task => some (true, task)
  | _ => none

/-- A wake-up changes nothing about it. -/
@[simp] theorem WorkerPc.inHand_wake {H : Type} {n : Nat} (pc : WorkerPc H n) :
    pc.wake.inHand = pc.inHand := by
  cases pc <;> rfl

/-- A thread outside the pool added the task, after `stop` had taken the lock. -/
def Task.Late {H : Type} {n : Nat} (task : Task H n) : Prop :=
  (∃ k, task.pusher = .outside k) ∧ task.afterStop = true

namespace ThreadPoolTaskQueue

variable {H : Type} {n : Nat} {s s' : ThreadPoolTaskQueue H n}

/-- The tasks in hand, worker by worker. -/
def inHand (s : ThreadPoolTaskQueue H n) (i : Fin n) : Option (Bool × Task H n) :=
  (s.workers i).inHand

/-- What a statement does to the tasks. -/
inductive Effect (s s' : ThreadPoolTaskQueue H n) : Prop
  | quiet (hq : s'.queue = s.queue) (hp : s'.pushed = s.pushed) (ht : s'.taken = s.taken)
      (hc : s'.called = s.called) (hf : s'.finished = s.finished) (hh : s'.inHand = s.inHand)
  | push (task : Task H n) (hn : task.no = s.pushed.length) (hq : s'.queue = s.queue ++ [task])
      (hp : s'.pushed = s.pushed ++ [task]) (ht : s'.taken = s.taken)
      (hc : s'.called = s.called) (hf : s'.finished = s.finished) (hh : s'.inHand = s.inHand)
  | pop (i : Fin n) (task : Task H n) (hi : s.inHand i = none) (hq : s.queue = task :: s'.queue)
      (hp : s'.pushed = s.pushed) (ht : s'.taken = s.taken ++ [task])
      (hc : s'.called = s.called) (hf : s'.finished = s.finished)
      (hh : s'.inHand = Function.update s.inHand i (some (false, task)))
  | call (i : Fin n) (task : Task H n) (hi : s.inHand i = some (false, task))
      (hq : s'.queue = s.queue) (hp : s'.pushed = s.pushed) (ht : s'.taken = s.taken)
      (hc : s'.called = s.called ++ [task]) (hf : s'.finished = s.finished)
      (hh : s'.inHand = Function.update s.inHand i (some (true, task)))
  | finish (i : Fin n) (task : Task H n) (hi : s.inHand i = some (true, task))
      (hq : s'.queue = s.queue) (hp : s'.pushed = s.pushed) (ht : s'.taken = s.taken)
      (hc : s'.called = s.called) (hf : s'.finished = s.finished ++ [task])
      (hh : s'.inHand = Function.update s.inHand i none)

theorem inHand_goto (i : Fin n) (pc : WorkerPc H n) :
    (s.goto i pc).inHand = Function.update s.inHand i pc.inHand := by
  funext j
  simp only [inHand, workers_goto, Function.update_apply]
  split <;> rfl

/-- A worker that goes on with the same task in hand. -/
theorem inHand_goto_same {i : Fin n} {pc : WorkerPc H n}
    (h : pc.inHand = (s.workers i).inHand) : (s.goto i pc).inHand = s.inHand := by
  rw [inHand_goto, h]
  exact Function.update_eq_self i s.inHand

theorem inHand_notifyAll : s.notifyAll.inHand = s.inHand :=
  funext fun i => (s.workers i).inHand_wake

/-- What the statements do to the tasks: three of them move a task on, and one brings a new one. -/
theorem Step.effect (h : Step s s') : Effect s s' := by
  cases h with
  | acquire i hpc | exitAtTest i hpc | wait i hpc | nonempty i hpc | proceed i hpc | block i hpc
  | reacquire i hpc | exitAtRecheck i hpc | recheckPassed i hpc | wakeUp i hpc =>
      exact .quiet rfl rfl rfl rfl rfl (inHand_goto_same (by simp [hpc, WorkerPc.inHand]))
  | pop i task queue hpc hq =>
      exact .pop i task (by simp [inHand, hpc, WorkerPc.inHand]) hq rfl rfl rfl rfl
        (inHand_goto i (.popped task))
  | notify i task hpc =>
      refine .quiet rfl rfl rfl rfl rfl ?_
      rw [inHand_goto_same (by simp [hpc, WorkerPc.inHand, WorkerPc.wake]), inHand_notifyAll]
  | call i task hpc =>
      exact .call i task (by simp [inHand, hpc, WorkerPc.inHand]) rfl rfl rfl rfl rfl
        (inHand_goto i (.running task))
  | handlerReturns i task hpc =>
      exact .finish i task (by simp [inHand, hpc, WorkerPc.inHand]) rfl rfl rfl rfl rfl
        (inHand_goto i .start)
  | push t h => exact .push _ rfl rfl rfl rfl rfl rfl rfl
  | addNotifyOne t i ha hpc =>
      have hh : (s.goto i .woken).inHand = s.inHand :=
        inHand_goto_same (by simp [hpc, WorkerPc.inHand])
      exact .quiet rfl rfl rfl rfl rfl hh
  | addNotifyAll | stopNotify => exact .quiet rfl rfl rfl rfl rfl inHand_notifyAll
  | addEnter | addNotifyNone | addLeave | stopEnter | stopSet | stopLeave | join =>
      exact .quiet rfl rfl rfl rfl rfl rfl

/-! ## The way of a task

`Accounted` says where each task is that was ever pushed: in the queue, in the hand of one worker,
or called. -/

/-- Where the tasks are. -/
structure Accounted (s : ThreadPoolTaskQueue H n) : Prop where
  order : s.taken ++ s.queue = s.pushed
  numbered : s.pushed.map Task.no = List.range s.pushed.length
  called_taken : ∀ task ∈ s.called, task ∈ s.taken
  finished_called : ∀ task ∈ s.finished, task ∈ s.called
  called_once : s.called.Nodup
  finished_once : s.finished.Nodup
  /-- A task in hand was taken, and is called or not as the worker says. -/
  in_hand : ∀ i b task, s.inHand i = some (b, task) →
    task ∈ s.taken ∧ (task ∈ s.called ↔ b = true) ∧ task ∉ s.finished
  one_hand : ∀ i j b c task, s.inHand i = some (b, task) → s.inHand j = some (c, task) → i = j
  /-- A task that was taken is done with, or in hand. -/
  settled : ∀ task ∈ s.taken, task ∈ s.finished ∨ ∃ i b, s.inHand i = some (b, task)

theorem Accounted.init : Accounted (init H n) where
  order := rfl
  numbered := rfl
  called_taken := fun _ h => nomatch h
  finished_called := fun _ h => nomatch h
  called_once := .nil
  finished_once := .nil
  in_hand := fun _ _ _ h => nomatch h
  one_hand := fun _ _ _ _ _ h => nomatch h
  settled := fun _ h => nomatch h

theorem Accounted.pushed_nodup (hi : Accounted s) : s.pushed.Nodup :=
  .of_map Task.no (hi.numbered ▸ List.nodup_range)

/-- Tasks told apart are told apart by their numbers. -/
theorem Accounted.nodup_no (hi : Accounted s) {tasks : List (Task H n)} (hnd : tasks.Nodup)
    (htaken : ∀ task ∈ tasks, task ∈ s.taken) : (tasks.map Task.no).Nodup := by
  have hpushed : (s.pushed.map Task.no).Nodup := hi.numbered ▸ List.nodup_range
  have hmem : ∀ task ∈ tasks, task ∈ s.pushed := fun task h =>
    hi.order ▸ List.mem_append_left _ (htaken task h)
  exact hnd.map_on fun a ha b hb hab =>
    List.inj_on_of_nodup_map hpushed (hmem a ha) (hmem b hb) hab

/-- The task at the front was never taken before. -/
theorem Accounted.front_fresh (hi : Accounted s) {task : Task H n} {queue : List (Task H n)}
    (hq : s.queue = task :: queue) : task ∉ s.taken := by
  have hnd : (s.taken ++ s.queue).Nodup := hi.order ▸ hi.pushed_nodup
  rw [hq] at hnd
  exact fun ht => List.disjoint_of_nodup_append hnd ht (List.mem_cons_self ..)

/-- The step lemma, by the cases of `Effect`: a task leaves one place and comes to the next. -/
theorem Accounted.step (hi : Accounted s) (h : Step s s') : Accounted s' := by
  cases h.effect with
  | quiet hq hp ht hc hf hh =>
      obtain ⟨h1, h2, h3, h4, h5, h6, h7, h8, h9⟩ := hi
      constructor <;> simpa only [hq, hp, ht, hc, hf, hh]
  | push task hn hq hp ht hc hf hh =>
      obtain ⟨h1, h2, h3, h4, h5, h6, h7, h8, h9⟩ := hi
      constructor
      case order => rw [ht, hq, hp, ← List.append_assoc, h1]
      case numbered => simp [hp, h2, hn, List.range_succ]
      all_goals simpa only [ht, hc, hf, hh]
  | pop i task hi' hq hp ht hc hf hh =>
      -- the task at the front has not been taken before
      have hfresh := hi.front_fresh hq
      obtain ⟨h1, h2, h3, h4, h5, h6, h7, h8, h9⟩ := hi
      constructor
      case order => rw [ht, hp, List.append_assoc, ← h1, hq]; rfl
      case numbered => simpa only [hp]
      case called_once => simpa only [hc]
      case finished_once => simpa only [hf]
      all_goals
        simp only [ht, hc, hf, hh, Function.update_apply, List.mem_append, List.mem_singleton]
        grind
  | call i task hi' hq hp ht hc hf hh =>
      obtain ⟨h1, h2, h3, h4, h5, h6, h7, h8, h9⟩ := hi
      -- in hand and not called yet, so not in `called`
      obtain ⟨htaken, hcalled, -⟩ := h7 i false task hi'
      constructor
      case order => rw [ht, hq, hp, h1]
      case numbered => simpa only [hp]
      case called_once =>
        rw [hc]
        exact List.nodup_append.mpr (by grind)
      all_goals
        simp only [ht, hc, hf, hh, Function.update_apply, List.mem_append, List.mem_singleton]
        grind
  | finish i task hi' hq hp ht hc hf hh =>
      obtain ⟨h1, h2, h3, h4, h5, h6, h7, h8, h9⟩ := hi
      obtain ⟨htaken, hcalled, hfinished⟩ := h7 i true task hi'
      constructor
      case order => rw [ht, hq, hp, h1]
      case numbered => simpa only [hp]
      case finished_once =>
        rw [hf]
        exact List.nodup_append.mpr (by grind)
      all_goals
        simp only [ht, hc, hf, hh, Function.update_apply, List.mem_append, List.mem_singleton]
        grind

/-! ## Shutting down

What holds when the workers are gone: the queue has only tasks that were added too late. -/

/-- The last worker leaves an empty queue behind, and the pool adds nothing after that. -/
structure Closing (s : ThreadPoolTaskQueue H n) : Prop where
  adding : ∀ i, s.adding (.worker i) ≠ none → ∃ task, s.workers i = .running task
  stop : s.stop = true → s.stopper ≠ .idle ∧ s.stopper ≠ .locked
  exited : ∀ i, s.workers i = .exited → s.stop = true
  returned : s.stopper = .returned → ∀ i, s.workers i = .exited
  late : (∀ i, s.workers i = .exited) → ∀ task ∈ s.queue, task.Late

theorem Closing.init (hn : 0 < n) : Closing (init H n) where
  adding := fun _ h => (h rfl).elim
  stop := fun h => nomatch h
  exited := fun _ h => nomatch h
  returned := fun h => nomatch h
  late := fun h => nomatch h ⟨0, hn⟩

/-- The last worker leaves an empty queue behind. -/
theorem Closing.step_late (hn : 0 < n) (hi : Closing s) (h : Step s s')
    (he : ∀ i, s'.workers i = .exited) : ∀ task ∈ s'.queue, task.Late := by
  cases h with
  | exitAtTest i hpc hq | exitAtRecheck i hpc hq => simp [hq]
  | addNotifyAll | stopNotify =>
      exact hi.late fun i => (WorkerPc.wake_eq_iff (by simp) (by simp)).mp (he i)
  | push t hd rest vector ha =>
      have hpusher : ∃ k, t = .outside k := by
        cases t with
        | outside k => exact ⟨k, rfl⟩
        | worker i =>
            obtain ⟨task, hrun⟩ := hi.adding i (by simp [ha])
            exact nomatch hrun.symm.trans (he i)
      have hstop := (hi.stop (hi.exited ⟨0, hn⟩ (he ⟨0, hn⟩))).1
      intro task htask
      rcases List.mem_append.mp htask with hold | hnew
      · exact hi.late he task hold
      · rw [List.mem_singleton.mp hnew]
        exact ⟨hpusher, by simp [hstop]⟩
  | addEnter | addNotifyNone | addLeave | stopEnter | stopSet | stopLeave | join =>
      exact hi.late he
  -- every other statement leaves a worker that has not exited
  | acquire i | wait i | nonempty i | proceed i | block i | reacquire i | recheckPassed i
  | wakeUp i | addNotifyOne t i | pop i | notify i | call i | handlerReturns i =>
      have := he i
      simp at this

/-- Only a worker in its handler comes to be in `add_task`. -/
theorem Step.enters (h : Step s s') {i : Fin n} (ha : s'.adding (.worker i) ≠ none) :
    s.adding (.worker i) ≠ none ∨ ∃ task, s'.workers i = .running task := by
  cases h with
  | addEnter t vh vector hnone ht =>
      by_cases hi : t = .worker i
      · exact .inr (ht i hi)
      · exact .inl (by rwa [adding_addAt, if_neg (Ne.symm hi)] at ha)
  | push t _ _ _ hadd | addNotifyAll t hadd | addNotifyOne t _ hadd | addNotifyNone t hadd
  | addLeave t hadd =>
      refine .inl fun hnone => ha ?_
      have hi : .worker i ≠ t := by
        rintro rfl
        simp [hadd] at hnone
      exact (adding_addAt ..).trans ((if_neg hi).trans hnone)
  | _ => exact .inl ha

/-- A worker stays in its handler while that is in `add_task`. -/
theorem Step.running (h : Step s s') {i : Fin n} {task : Task H n}
    (hrun : s.workers i = .running task) :
    s'.workers i = .running task ∨ s'.adding (.worker i) = none := by
  have hother : ∀ {j : Fin n}, s.workers j ≠ s.workers i → i ≠ j := by
    rintro j hne rfl
    exact hne rfl
  cases h with
  | acquire j hpc | exitAtTest j hpc | wait j hpc | nonempty j hpc | proceed j hpc | block j hpc
  | reacquire j hpc | exitAtRecheck j hpc | recheckPassed j hpc | pop j _ _ hpc | call j _ hpc
  | wakeUp j hpc | addNotifyOne _ j _ hpc =>
      have hne : i ≠ j := hother (by simp [hpc, hrun])
      exact .inl ((workers_goto ..).trans ((if_neg hne).trans hrun))
  | notify j _ hpc =>
      have hne : i ≠ j := hother (by simp [hpc, hrun])
      refine .inl ((workers_goto ..).trans ((if_neg hne).trans ?_))
      rw [workers_notifyAll, hrun]
      rfl
  | handlerReturns j _ hpc ha =>
      by_cases hij : i = j
      · exact .inr (hij ▸ ha)
      · exact .inl ((workers_goto ..).trans ((if_neg hij).trans hrun))
  | addNotifyAll | stopNotify => exact .inl (congrArg WorkerPc.wake hrun)
  | addEnter | push | addNotifyNone | addLeave | stopEnter | stopSet | stopLeave | join =>
      exact .inl hrun

/-- A worker calls `add_task` from its handler. -/
theorem Closing.step_adding (hi : Closing s) (h : Step s s') {i : Fin n}
    (ha : s'.adding (.worker i) ≠ none) : ∃ task, s'.workers i = .running task := by
  rcases h.enters ha with hold | hnew
  · obtain ⟨task, hrun⟩ := hi.adding i hold
    exact ⟨task, (h.running hrun).resolve_right ha⟩
  · exact hnew

/-- A worker exits once `stop_` is set. -/
theorem Step.exits (h : Step s s') {i : Fin n} (he : s'.workers i = .exited) :
    s.workers i = .exited ∨ s'.stop = true := by
  have hwake : (s.workers i).wake = .exited → s.workers i = .exited :=
    (WorkerPc.wake_eq_iff (by simp) (by simp)).mp
  cases h with
  | exitAtTest j hpc hq hs | exitAtRecheck j hpc hq hs => exact .inr hs
  | acquire | wait | nonempty | proceed | block | reacquire | recheckPassed | pop | call | wakeUp
  | handlerReturns | addNotifyOne => exact .inl (workers_of_goto (by simp) he)
  | notify => exact .inl (hwake (workers_of_goto (by simp) he))
  | addNotifyAll | stopNotify => exact .inl (hwake he)
  | addEnter | push | addNotifyNone | addLeave | stopEnter | stopSet | stopLeave | join =>
      exact .inl he

theorem Closing.step_stop (hi : Closing s) (h : Step s s') (hs : s'.stop = true) :
    s'.stopper ≠ .idle ∧ s'.stopper ≠ .locked := by
  cases h with
  | stopEnter hidle => exact absurd hidle (hi.stop hs).1
  | stopSet | stopNotify | stopLeave | join => exact ⟨nofun, nofun⟩
  | _ => exact hi.stop hs

/-- A worker that has exited is where it is. -/
theorem Step.exited (h : Step s s') {i : Fin n} (he : s.workers i = .exited) :
    s'.workers i = .exited := by
  have hother : ∀ {j : Fin n}, s.workers j ≠ .exited → i ≠ j := by
    rintro j hne rfl
    exact hne he
  cases h with
  | acquire j hpc | exitAtTest j hpc | wait j hpc | nonempty j hpc | proceed j hpc | block j hpc
  | reacquire j hpc | exitAtRecheck j hpc | recheckPassed j hpc | pop j _ _ hpc | call j _ hpc
  | wakeUp j hpc | handlerReturns j _ hpc | addNotifyOne _ j _ hpc =>
      exact (workers_goto ..).trans ((if_neg (hother (by simp [hpc]))).trans he)
  | notify j _ hpc =>
      refine (workers_goto ..).trans ((if_neg (hother (by simp [hpc]))).trans ?_)
      rw [workers_notifyAll, he]
      rfl
  | addNotifyAll | stopNotify => exact congrArg WorkerPc.wake he
  | addEnter | push | addNotifyNone | addLeave | stopEnter | stopSet | stopLeave | join => exact he

/-- `stop` returns when all workers have been joined. -/
theorem Closing.step_returned (hi : Closing s) (h : Step s s') (hret : s'.stopper = .returned)
    (i : Fin n) : s'.workers i = .exited := by
  have hcases : s.stopper = .returned ∨ ∀ i, s.workers i = .exited := by
    cases h with
    | join hs he => exact .inr he
    | stopEnter | stopSet | stopNotify | stopLeave => cases hret
    | _ => exact .inl hret
  rcases hcases with hold | he
  · exact h.exited (hi.returned hold i)
  · exact h.exited (he i)

theorem Closing.step (hn : 0 < n) (hi : Closing s) (h : Step s s') : Closing s' where
  adding := fun _ => hi.step_adding h
  stop := hi.step_stop h
  exited := fun i he => (h.exits he).elim (fun hold => h.stop_mono (hi.exited i hold)) id
  returned := hi.step_returned h
  late := hi.step_late hn h

/-! ## The theorem -/

/-- **Exactly once.** In every run of a pool with a worker: tasks are taken in the order they were
pushed and none is run twice; and when `stop` has returned, the queue holds only late tasks, and
every task that is not late has been run exactly once. -/
theorem exactly_once (hn : 0 < n) {ls : List (PoolLabel H n)}
    (hrun : run step (init H n) ls = some s) :
    s.taken ++ s.queue = s.pushed ∧ s.pushed.map Task.no = List.range s.pushed.length ∧
      (∀ no, (s.called.map Task.no).count no ≤ 1) ∧
      (s.stopper = .returned →
        (∀ task ∈ s.queue, task.Late) ∧
        ∀ task ∈ s.pushed, ¬ task.Late →
          (s.called.map Task.no).count task.no = 1 ∧
          (s.finished.map Task.no).count task.no = 1) := by
  obtain ⟨hacc, hclose⟩ : Accounted s ∧ Closing s :=
    inv_of_run (fun s => Accounted s ∧ Closing s) ⟨.init, .init hn⟩
      (fun _ _ hi h => ⟨hi.1.step h, hi.2.step hn h⟩) hrun
  have hcalled : (s.called.map Task.no).Nodup := hacc.nodup_no hacc.called_once hacc.called_taken
  have hfinished : (s.finished.map Task.no).Nodup :=
    hacc.nodup_no hacc.finished_once fun task h =>
      hacc.called_taken task (hacc.finished_called task h)
  refine ⟨hacc.order, hacc.numbered, List.nodup_iff_count_le_one.mp hcalled, fun hret => ?_⟩
  have hexited := hclose.returned hret
  have hlate := hclose.late hexited
  refine ⟨hlate, fun task hp hnl => ?_⟩
  have htaken : task ∈ s.taken := by
    rw [← hacc.order, List.mem_append] at hp
    exact hp.resolve_right fun hq => hnl (hlate task hq)
  -- nobody is left to have it in hand
  have hdone : task ∈ s.finished := by
    refine (hacc.settled task htaken).resolve_right ?_
    rintro ⟨i, b, hi⟩
    simp [inHand, hexited i, WorkerPc.inHand] at hi
  exact ⟨List.count_eq_one_of_mem hcalled (List.mem_map_of_mem (hacc.finished_called task hdone)),
    List.count_eq_one_of_mem hfinished (List.mem_map_of_mem hdone)⟩

/-- One worker. Its task, called before `stop` and still running after it, adds another. -/
def resubmit : List (PoolLabel Unit 1) :=
  let i : Fin 1 := ⟨0, Nat.one_pos⟩
  [.addTask (.outside 0) (), .addNext (.outside 0) none, .addNext (.outside 0) none,
    .addNext (.outside 0) none, .runImpl i, .runImpl i, .runImpl i, .runImpl i, .runImpl i,
    .stop, .stop, .stop, .stop, .addTask (.worker i) (), .addNext (.worker i) none,
    .addNext (.worker i) none, .addNext (.worker i) none, .handlerReturns i, .runImpl i,
    .runImpl i, .runImpl i, .runImpl i, .runImpl i, .handlerReturns i, .runImpl i, .runImpl i,
    .stop]

/-- A task adds another while the pool shuts down. -/
theorem exactly_once_resubmit :
    ∃ s, run step (init Unit 1) resubmit = some s ∧ s.stopper = .returned ∧
      s.pushed.length = 2 ∧
      ∀ task ∈ s.pushed, ¬ task.Late →
        (s.called.map Task.no).count task.no = 1 ∧ (s.finished.map Task.no).count task.no = 1 :=
  ⟨_, rfl, rfl, rfl, ((@exactly_once Unit 1 _ (by decide) resubmit rfl).2.2.2 rfl).2⟩

/-- The only worker exits; then a thread outside the pool, which came late to the lock, adds a task,
and `stop` returns. -/
def lateAdd : List (PoolLabel Unit 1) :=
  let i : Fin 1 := ⟨0, Nat.one_pos⟩
  [.stop, .stop, .stop, .stop, .runImpl i, .runImpl i, .addTask (.outside 0) (),
    .addNext (.outside 0) none, .addNext (.outside 0) none, .addNext (.outside 0) none, .stop]

/-- A task that is added when the last worker is gone. -/
theorem late_task_left :
    ∃ s, run step (init Unit 1) lateAdd = some s ∧ s.stopper = .returned ∧ s.queue ≠ [] ∧
      s.called = [] :=
  ⟨_, rfl, rfl, List.cons_ne_nil _ _, rfl⟩

end ThreadPoolTaskQueue

end Cppev
