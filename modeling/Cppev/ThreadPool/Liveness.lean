import Mathlib.Algebra.BigOperators.Fin
import Mathlib.Algebra.Order.BigOperators.Group.Finset
import Cppev.Lib.Fairness
import Cppev.ThreadPool.ExactlyOnce
import Cppev.ThreadPool.WakeUp

/-!
# What the thread pool comes to

`no_lost_wakeup` says that nobody is left asleep, `exactly_once` what holds when `stop` has
returned; here both come about. Every statement but a new call of `add_task` brings the pool nearer
to its end: a task in the queue costs more than what a worker does with it, the wake-ups after it
included. A worker that goes to sleep needs the wake-up; once `stop` has the lock, none goes to
sleep.

* `task_runs`: in every fair execution with finitely many calls of `add_task` and finitely many
  spurious wake-ups, every task that is not late is run.
* `stop_returns`: in every fair execution with finitely many calls of `add_task`, a `stop` that has
  got the lock returns, and then every task that is not late has been run.
-/

namespace Cppev

/-- What it costs to wake up everybody, when a worker that sleeps has `asleep` left to do. -/
def wakeCost (n asleep : Nat) : Nat := n * (4 - asleep)

/-- What a worker has left to do, without the tasks that are in the queue. -/
def WorkerPc.left {H : Type} {n : Nat} (asleep : Nat) : WorkerPc H n → Nat
  | .popped _ => 8 + wakeCost n asleep
  | .notified _ => 7
  | .running _ => 6
  | .start => 5
  | .blocked => asleep
  | .test | .woken => 4
  | .predicate => 3
  | .recheck => 2
  | .take => 1
  | .exited => 0

/-- A wake-up costs a worker the steps back to the predicate. -/
theorem WorkerPc.left_wake {H : Type} {n : Nat} (asleep : Nat) (pc : WorkerPc H n) :
    pc.wake.left asleep ≤ pc.left asleep + (4 - asleep) := by
  cases pc with
  | blocked =>
      simp only [WorkerPc.wake, WorkerPc.left]
      omega
  | _ => exact Nat.le_add_right _ _

/-- What a call of `add_task` has left to do, with what the workers do with its tasks. -/
def AddPc.left {H : Type} (n asleep : Nat) : AddPc H → Nat
  | .pushing rest _ => (9 + wakeCost n asleep) * rest.length + (2 + wakeCost n asleep)
  | .notified => 1

/-- How many steps `stop` has before it. -/
def StopPc.left (n asleep : Nat) : StopPc → Nat
  | .idle => 5 + wakeCost n asleep
  | .locked => 4 + wakeCost n asleep
  | .set => 3 + wakeCost n asleep
  | .notified => 2
  | .joining => 1
  | .returned => 0

/-- A call of `add_task` begins. -/
def PoolLabel.adds {H : Type} {n : Nat} : PoolLabel H n → Bool
  | .addTask .. | .addTasks .. => true
  | _ => false

/-- A worker wakes up by chance. -/
def PoolLabel.spurious {H : Type} {n : Nat} : PoolLabel H n → Bool
  | .spuriousWakeup _ => true
  | _ => false

namespace ThreadPoolTaskQueue

variable {H : Type} {n asleep : Nat} {s s' : ThreadPoolTaskQueue H n}

/-- The steps that the pool can count on. -/
def Progress (_ : ThreadPoolTaskQueue H n) (l : PoolLabel H n) : Prop :=
  l.adds = false ∧ l.spurious = false

/-! ## The lock is held by someone inside

If the lock is taken, somebody is in a locked block and will give it back. It is the invariant that
makes a step possible in every state that is not at rest. -/

/-- Whoever holds the lock is in a locked block, and so can go on. -/
def Held (s : ThreadPoolTaskQueue H n) : Prop := ∀ o, s.lock = some o → s.Inside o

theorem Held.init : Held (init H n) := fun _ h => by cases h

/-- The lock stays where it is, and whoever is inside stays inside. -/
theorem Held.congr (hi : Held s) (hlock : s'.lock = s.lock)
    (hkeep : ∀ o, s.Inside o → s'.Inside o) : Held s' :=
  fun o ho => hkeep o (hi o (hlock ▸ ho))

theorem Held.free (hlock : s'.lock = none) : Held s' := fun o ho => by
  rw [hlock] at ho
  cases ho

/-- Somebody has taken it and has gone in. -/
theorem Held.taken {o : Owner n} (hlock : s'.lock = some o) (hin : s'.Inside o) : Held s' := by
  intro o' ho'
  obtain rfl := Option.some.inj (hlock.symm.trans ho')
  exact hin

/-- A worker that goes from one point of its block to another, or from one outside to another. -/
theorem inside_of_goto {i : Fin n} {pc : WorkerPc H n} {o : Owner n}
    (hpc : (s.workers i).owns → pc.owns) (h : s.Inside o) : (s.goto i pc).Inside o := by
  cases o with
  | runImpl j =>
      show ((s.goto i pc).workers j).owns
      rw [workers_goto]
      split
      case isTrue hji => exact hpc (hji ▸ h)
      case isFalse => exact h
  | _ => exact h

/-- A call of `add_task` that has just begun is nobody inside. -/
theorem inside_of_addAt {t : Thread n} {a : AddPc H} {o : Owner n} (h : s.Inside o) :
    (s.addAt t (some a)).Inside o := by
  cases o with
  | addTask u =>
      show (s.addAt t (some a)).adding u ≠ none
      rw [adding_addAt]
      split
      · exact Option.some_ne_none a
      · exact h
  | _ => exact h

theorem inside_of_notifyAll {o : Owner n} (h : s.Inside o) : s.notifyAll.Inside o := by
  cases o with
  | runImpl i => exact (WorkerPc.owns_wake _).mpr h
  | _ => exact h

/-- A thread that gives the lock back leaves its block; one that takes it enters one. -/
theorem Held.step (hi : Held s) (h : Step s s') : Held s' := by
  have hout : ∀ {i : Fin n} {pc pc' : WorkerPc H n}, s.workers i = pc → ¬ pc.owns →
      ∀ o, s.Inside o → (s.goto i pc').Inside o := by
    intro i pc pc' hpc hno o ho
    exact inside_of_goto (fun howns => absurd (hpc ▸ howns) hno) ho
  cases h with
  | acquire i hpc hl | reacquire i hpc hl =>
      refine Held.taken (o := .runImpl i) rfl ?_
      show ((s.goto i _).workers i).owns
      rw [workers_goto_self]
      trivial
  | addEnter t vh vector ha ht hl =>
      refine Held.taken (o := .addTask t) rfl ?_
      show (s.addAt t _).adding t ≠ none
      rw [adding_addAt_self]
      exact Option.some_ne_none _
  | stopEnter hs hl => exact Held.taken (o := .stop) rfl trivial
  | exitAtTest | exitAtRecheck | block | pop | addLeave | stopLeave => exact Held.free rfl
  | wait i | nonempty i | proceed i | recheckPassed i =>
      -- the holder goes on inside
      exact hi.congr rfl fun o => inside_of_goto fun _ => trivial
  | call i task hpc => exact hi.congr rfl (hout hpc id)
  | wakeUp i hpc => exact hi.congr rfl (hout hpc id)
  | handlerReturns i task hpc => exact hi.congr rfl (hout hpc id)
  | notify i task hpc =>
      refine hi.congr rfl fun o ho => inside_of_goto (fun howns => ?_) (inside_of_notifyAll ho)
      rw [workers_notifyAll, hpc] at howns
      exact howns.elim
  | push t hd rest vector ha => exact hi.congr rfl fun o => inside_of_addAt (s := s.push t hd)
  | addNotifyAll t ha =>
      exact hi.congr rfl fun o ho => inside_of_addAt (inside_of_notifyAll ho)
  | addNotifyOne t i ha hpc =>
      exact hi.congr rfl fun o ho => inside_of_addAt (hout hpc id o ho)
  | addNotifyNone t ha hpc => exact hi.congr rfl fun o => inside_of_addAt
  | stopSet hs =>
      refine hi.congr rfl fun o ho => ?_
      cases o with
      | stop => trivial
      | _ => exact ho
  | stopNotify hs =>
      refine hi.congr rfl fun o ho => ?_
      cases o with
      | stop => trivial
      | runImpl i => exact (WorkerPc.owns_wake _).mpr ho
      | addTask t => exact ho
  | join hs he =>
      refine hi.congr rfl fun o ho => ?_
      cases o with
      | stop => exact absurd ho (by simp [Inside, hs, StopPc.owns])
      | _ => exact ho

/-! ## The rank

A number that goes down with every step but the beginning of a call: the steps that are left to the
workers, to the calls of `add_task` and to `stop`, and for each task in the queue what it costs to
run it. A notification may wake all workers, so it is paid for by whoever notifies. -/

/-- The steps of all workers. -/
def load (asleep : Nat) (workers : Fin n → WorkerPc H n) : Nat := ∑ i, (workers i).left asleep

variable (asleep) in
theorem load_update (workers : Fin n → WorkerPc H n) (i : Fin n) (pc : WorkerPc H n) :
    load asleep (Function.update workers i pc) + (workers i).left asleep =
      load asleep workers + pc.left asleep :=
  sum_update_add (fun _ => WorkerPc.left asleep) workers i pc

variable (asleep) in
/-- All are woken: each costs a bounded number of steps more. -/
theorem load_wake (workers : Fin n → WorkerPc H n) :
    load asleep (fun i => (workers i).wake) ≤ load asleep workers + wakeCost n asleep := by
  calc load asleep (fun i => (workers i).wake)
      ≤ ∑ i, ((workers i).left asleep + (4 - asleep)) :=
        Finset.sum_le_sum fun i _ => (workers i).left_wake asleep
    _ = load asleep workers + wakeCost n asleep := by
        simp [Finset.sum_add_distrib, load, wakeCost]

/-- The call of `add_task` that has the lock. -/
def addsLeft (asleep : Nat) (lock : Option (Owner n)) (adding : Thread n → Option (AddPc H)) :
    Nat :=
  match lock with
  | some (.addTask t) => ((adding t).map (AddPc.left n asleep)).getD 0
  | _ => 0

/-- How far the pool is from its end. -/
def rank (asleep : Nat) (s : ThreadPoolTaskQueue H n) : Nat :=
  (8 + wakeCost n asleep) * s.queue.length + load asleep s.workers +
    addsLeft asleep s.lock s.adding + s.stopper.left n asleep

variable (asleep) in
/-- A worker goes on, and leaves the rest alone. -/
theorem rank_goto_add (i : Fin n) (pc : WorkerPc H n) :
    rank asleep (s.goto i pc) + (s.workers i).left asleep = rank asleep s + pc.left asleep := by
  have hload := load_update asleep s.workers i pc
  show (8 + wakeCost n asleep) * s.queue.length + load asleep (Function.update s.workers i pc) +
    addsLeft asleep s.lock s.adding + s.stopper.left n asleep + _ = _
  unfold rank
  omega

/-- A worker that goes on without adding tasks. -/
theorem rank_goto {i : Fin n} {pc : WorkerPc H n}
    (hlt : pc.left asleep < (s.workers i).left asleep) :
    rank asleep (s.goto i pc) < rank asleep s := by
  have hadd := rank_goto_add asleep (s := s) i pc
  omega

variable (asleep) in
theorem rank_notifyAll : rank asleep s.notifyAll ≤ rank asleep s + wakeCost n asleep := by
  have hload := load_wake asleep s.workers
  show (8 + wakeCost n asleep) * s.queue.length + load asleep (fun i => (s.workers i).wake) +
    addsLeft asleep s.lock s.adding + s.stopper.left n asleep ≤ _
  unfold rank
  omega

/-- Who takes the lock for something else than `add_task`, or gives it back, adds no task. -/
theorem rank_lock {lock : Option (Owner n)} (hlock : ∀ t, lock ≠ some (.addTask t)) :
    rank asleep { s with lock := lock } ≤ rank asleep s := by
  have hnone : addsLeft asleep lock s.adding = 0 := by
    unfold addsLeft
    split
    case h_1 t => exact absurd rfl (hlock t)
    case h_2 => rfl
  show (8 + wakeCost n asleep) * s.queue.length + load asleep s.workers +
    addsLeft asleep lock s.adding + s.stopper.left n asleep ≤ _
  unfold rank
  omega

variable (asleep) in
/-- The call of `add_task` that has the lock goes on. -/
theorem rank_addAt_add {t : Thread n} {a b : AddPc H} (hlock : s.lock = some (.addTask t))
    (ha : s.adding t = some a) :
    rank asleep (s.addAt t (some b)) + a.left n asleep = rank asleep s + b.left n asleep := by
  have hold : addsLeft asleep s.lock s.adding = a.left n asleep := by simp [hlock, addsLeft, ha]
  have hnew : addsLeft asleep s.lock (Function.update s.adding t (some b)) = b.left n asleep := by
    simp [hlock, addsLeft]
  show (8 + wakeCost n asleep) * s.queue.length + load asleep s.workers +
    addsLeft asleep s.lock (Function.update s.adding t (some b)) + s.stopper.left n asleep + _ = _
  unfold rank
  omega

theorem rank_push (t : Thread n) (h : H) :
    rank asleep (s.push t h) = rank asleep s + (8 + wakeCost n asleep) := by
  show (8 + wakeCost n asleep) * (s.queue ++ [_]).length + load asleep s.workers +
    addsLeft asleep s.lock s.adding + s.stopper.left n asleep = _
  unfold rank
  rw [List.length_append, List.length_singleton, Nat.mul_succ]
  omega

/-- A task in the queue costs more than the steps of the worker that takes it. -/
theorem rank_pop {i : Fin n} {task : Task H n} {queue : List (Task H n)} (hpc : s.workers i = .take)
    (hq : s.queue = task :: queue) :
    rank asleep { s.goto i (.popped task) with
      queue := queue, taken := s.taken ++ [task], lock := none } < rank asleep s := by
  have hload := load_update asleep s.workers i (.popped task)
  rw [hpc] at hload
  simp only [WorkerPc.left] at hload
  show (8 + wakeCost n asleep) * queue.length +
    load asleep (Function.update s.workers i (.popped task)) + 0 + s.stopper.left n asleep < _
  unfold rank
  rw [hq, List.length_cons, Nat.mul_succ]
  omega

/-! ### The statements, one by one -/

/-- A statement of `run_impl`, of a worker that sleeps cheaply or does not go to sleep. -/
theorem rank_runImpl {i : Fin n} (hsleep : s.workers i = .predicate → asleep < 3 ∨ s.stop = true)
    (h : s.runImpl i = some s') : rank asleep s' < rank asleep s := by
  have hgoto : ∀ {pc pc' : WorkerPc H n}, s.workers i = pc → pc'.left asleep < pc.left asleep →
      rank asleep (s.goto i pc') < rank asleep s := fun hpc hlt => rank_goto (by rwa [hpc])
  unfold runImpl at h
  split at h
  case h_1 hpc =>
    split at h <;> cases h
    exact lt_of_le_of_lt (rank_lock (by simp)) (hgoto hpc (by simp [WorkerPc.left]))
  case h_2 hpc =>
    split at h
    case isFalse => cases h; exact hgoto hpc (by simp [WorkerPc.left])
    case isTrue =>
      split at h <;> cases h
      · exact lt_of_le_of_lt (rank_lock (by simp)) (hgoto hpc (by simp [WorkerPc.left]))
      · exact hgoto hpc (by simp [WorkerPc.left])
  case h_3 hpc =>
    split at h
    case isTrue => cases h; exact hgoto hpc (by simp [WorkerPc.left])
    case isFalse hp =>
      cases h
      -- who sleeps has less to do than who tests; with `stop_` set nobody goes to sleep
      have hcheap : asleep < 3 := (hsleep hpc).resolve_right fun hs => hp (.inr hs)
      exact lt_of_le_of_lt (rank_lock (by simp)) (hgoto hpc hcheap)
  case h_4 hpc =>
    split at h <;> cases h
    exact lt_of_le_of_lt (rank_lock (by simp)) (hgoto hpc (by simp [WorkerPc.left]))
  case h_5 hpc =>
    split at h <;> cases h
    · exact lt_of_le_of_lt (rank_lock (by simp)) (hgoto hpc (by simp [WorkerPc.left]))
    · exact hgoto hpc (by simp [WorkerPc.left])
  case h_6 hpc =>
    split at h
    case h_1 => cases h
    case h_2 task queue hq => cases h; exact rank_pop hpc hq
  case h_7 task hpc =>
    cases h
    -- the notification wakes all, which the worker has paid for before
    have hadd := rank_goto_add asleep (s := s.notifyAll) i (.notified task)
    have hwake := rank_notifyAll asleep (s := s)
    rw [workers_notifyAll, hpc] at hadd
    simp only [WorkerPc.wake, WorkerPc.left] at hadd
    omega
  case h_8 task hpc => cases h; exact hgoto hpc (by simp [WorkerPc.left])
  all_goals cases h

/-- A statement of `add_task`. -/
theorem rank_addNext (hl : Locked s) {t : Thread n} {waiter : Option (Fin n)}
    (h : s.addNext t waiter = some s') : rank asleep s' < rank asleep s := by
  have hlock : ∀ {a : AddPc H}, s.adding t = some a → s.lock = some (.addTask t) :=
    fun ha => hl.addTask t (by simp [ha])
  unfold addNext at h
  split at h
  case h_1 => cases h
  case h_2 hd rest vector ha =>
    cases h
    -- a task in the queue costs less than one that is to be pushed
    have hadd := rank_addAt_add asleep (s := s.push t hd)
      (b := .pushing rest vector) (hlock ha) ha
    rw [rank_push] at hadd
    simp only [AddPc.left, List.length_cons, Nat.mul_succ] at hadd
    omega
  case h_3 ha =>
    cases h
    have hadd := rank_addAt_add asleep (s := s.notifyAll) (b := .notified) (hlock ha) ha
    -- the notification has been paid for with what it may cost to wake all
    have hwake := rank_notifyAll asleep (s := s)
    simp only [AddPc.left, List.length_nil, Nat.mul_zero] at hadd
    omega
  case h_4 ha =>
    obtain ⟨s'', hs'', rfl⟩ := Option.map_eq_some_iff.mp h
    cases waiter with
    | none =>
        simp only [notifyOne] at hs''
        split at hs'' <;> cases hs''
        have hadd := rank_addAt_add asleep (b := .notified) (hlock ha) ha
        simp only [AddPc.left, List.length_nil, Nat.mul_zero] at hadd
        omega
    | some i =>
        simp only [notifyOne] at hs''
        split at hs''
        case isFalse => cases hs''
        case isTrue hb =>
          cases hs''
          have hadd := rank_addAt_add asleep (s := s.goto i .woken) (b := .notified)
            (hlock ha) ha
          have hwake := rank_goto_add asleep (s := s) i .woken
          -- or one of them
          have hcost : 4 - asleep ≤ wakeCost n asleep := Nat.le_mul_of_pos_left _ i.pos
          rw [isBlocked_iff.mp hb] at hwake
          simp only [AddPc.left, WorkerPc.left, List.length_nil, Nat.mul_zero] at hadd hwake
          omega
  case h_5 ha =>
    cases h
    have hold : addsLeft asleep s.lock s.adding = 1 := by
      simp [hlock ha, addsLeft, ha, AddPc.left]
    show (8 + wakeCost n asleep) * s.queue.length + load asleep s.workers + 0 +
      s.stopper.left n asleep < _
    unfold rank
    omega

/-- A statement of `stop`. -/
theorem rank_stopNext (h : s.stopNext = some s') : rank asleep s' < rank asleep s := by
  have hstop : ∀ {pc : StopPc} {t : ThreadPoolTaskQueue H n}, s.stopper = pc → t.queue = s.queue →
      load asleep t.workers + t.stopper.left n asleep < load asleep s.workers + pc.left n asleep →
      addsLeft asleep t.lock t.adding ≤ addsLeft asleep s.lock s.adding →
        rank asleep t < rank asleep s := by
    rintro pc t rfl hqueue hless hadds
    unfold rank
    rw [hqueue]
    omega
  unfold stopNext at h
  split at h
  case h_1 hs =>
    split at h <;> cases h
    exact hstop hs rfl (by simp [StopPc.left]) (Nat.zero_le _)
  case h_2 hs => cases h; exact hstop hs rfl (by simp [StopPc.left]) le_rfl
  case h_3 hs =>
    cases h
    have hwake := load_wake asleep s.workers
    refine hstop hs rfl ?_ le_rfl
    show load asleep (fun i => (s.workers i).wake) + 2 < _ + (3 + wakeCost n asleep)
    omega
  case h_4 hs => cases h; exact hstop hs rfl (by simp [StopPc.left]) (Nat.zero_le _)
  case h_5 hs =>
    split at h <;> cases h
    exact hstop hs rfl (by simp [StopPc.left]) le_rfl
  case h_6 => cases h

/-- Every step but the beginning of an `add_task` brings the end nearer, if it costs more to sleep
than to be awake, or nobody wakes up by chance. -/
theorem rank_step (hl : Locked s) {l : PoolLabel H n} (hadds : l.adds = false)
    (hspurious : l.spurious = true → 4 < asleep)
    (hsleep : ∀ i, s.workers i = .predicate → asleep < 3 ∨ s.stop = true)
    (h : s.step l = some s') : rank asleep s' < rank asleep s := by
  cases l with
  | addTask | addTasks => cases hadds
  | runImpl i => exact rank_runImpl (hsleep i) h
  | addNext t waiter => exact rank_addNext hl h
  | stop => exact rank_stopNext h
  | spuriousWakeup i =>
      simp only [ThreadPoolTaskQueue.step] at h
      split at h
      case isFalse => cases h
      case isTrue hb =>
        cases h
        exact rank_goto (by simpa [isBlocked_iff.mp hb, WorkerPc.left] using hspurious rfl)
  | handlerReturns i =>
      simp only [ThreadPoolTaskQueue.step] at h
      split at h
      case h_1 task hpc =>
        split at h <;> cases h
        exact rank_goto (s := s) (by simp [hpc, WorkerPc.left])
      case h_2 => cases h

/-! ## Every state

What the rank and the progress need to know of a state, as one invariant (`Sound`). -/

/-- What holds of every state, with the part of `stop` that has been done. -/
structure Sound (s : ThreadPoolTaskQueue H n) : Prop where
  locked : Locked s
  stocked : Stocked s
  awake : Awake s
  held : Held s
  told : s.stopper ≠ .idle → s.stopper = .locked ∨ s.stop = true

/-- `stop` has got the lock. -/
structure Stopped (s : ThreadPoolTaskQueue H n) : Prop extends Sound s where
  called : s.stopper ≠ .idle

/-- No worker goes to sleep any more. -/
theorem Stopped.no_block (hi : Stopped s) {i : Fin n} (hpc : s.workers i = .predicate) :
    s.stop = true := by
  refine (hi.told hi.called).resolve_left fun hs => ?_
  have hmine : s.lock = some (.runImpl i) := hi.locked.runImpl i (by rw [hpc]; trivial)
  have hstop : s.lock = some .stop := hi.locked.stop (by rw [hs]; trivial)
  rw [hmine] at hstop
  cases hstop

/-- A call of `stop` is not taken back. -/
theorem Step.called (h : Step s s') (hs : s.stopper ≠ .idle) : s'.stopper ≠ .idle := by
  cases h with
  | stopEnter | stopSet | stopNotify | stopLeave | join => exact StopPc.noConfusion
  | _ => exact hs

/-- At first nobody is inside, and nobody has called `stop`. -/
theorem Sound.init : Sound (init H n) where
  locked := .init
  stocked := ⟨fun _ h => by simp [ThreadPoolTaskQueue.init] at h,
    fun _ h => by simp [ThreadPoolTaskQueue.init] at h⟩
  awake := .init
  held := .init
  told h := absurd rfl h

/-- `stop_` is set by the next statement of `stop`. -/
theorem Sound.step_told (hi : Sound s) (h : Step s s') (hcalled : s'.stopper ≠ .idle) :
    s'.stopper = .locked ∨ s'.stop = true := by
  cases h with
  | stopEnter => exact .inl rfl
  | stopSet => exact .inr rfl
  | stopNotify hs | stopLeave hs | join hs =>
      exact .inr ((hi.told (by simp [hs])).resolve_left (by simp [hs]))
  | _ => exact hi.told hcalled

theorem Sound.step (hi : Sound s) (h : Step s s') : Sound s' :=
  ⟨hi.locked.step h, hi.stocked.step hi.locked h, hi.awake.step h, hi.held.step h, hi.step_told h⟩

/-- Once `stop` has taken the lock, this is for good. -/
theorem Stopped.step (hi : Stopped s) (h : Step s s') : Stopped s' :=
  ⟨hi.toSound.step h, h.called hi.called⟩

/-! ## The pool can go on

In each state that is not at rest some thread is not held up. While the lock is taken it is the one
that has it, and otherwise any that is neither asleep nor gone; the invariant of the wake-ups gives
one of these as long as there is a task. -/

/-- A worker in its locked block is not held up. -/
theorem runImpl_isSome {i : Fin n} (hi : Stocked s) (howns : (s.workers i).owns) :
    (s.runImpl i).isSome = true := by
  cases hpc : s.workers i with
  | test => simp only [runImpl, hpc]; split <;> (try split) <;> rfl
  | predicate => simp only [runImpl, hpc]; split <;> rfl
  | recheck => simp only [runImpl, hpc]; split <;> rfl
  | take =>
      obtain ⟨task, queue, hq⟩ := List.exists_cons_of_ne_nil (hi.take i hpc)
      simp [runImpl, hpc, hq]
  | _ => simp [hpc, WorkerPc.owns] at howns

/-- A call of `add_task` is held up by the lock only. -/
theorem exists_addNext {t : Thread n} (ha : s.adding t ≠ none) :
    ∃ waiter, (s.addNext t waiter).isSome = true := by
  obtain ⟨a, ha⟩ := Option.ne_none_iff_exists'.mp ha
  cases a with
  | notified => exact ⟨none, by simp [addNext, ha]⟩
  | pushing rest vector =>
      cases rest with
      | cons h rest => exact ⟨none, by simp [addNext, ha]⟩
      | nil =>
          cases vector with
          | true => exact ⟨none, by simp [addNext, ha]⟩
          | false =>
              by_cases hb : ∀ i, (s.workers i).isBlocked = false
              · exact ⟨none, by simp [addNext, ha, notifyOne, hb]⟩
              · obtain ⟨i, hi⟩ := not_forall.mp hb
                exact ⟨some i, by simp [addNext, ha, notifyOne, hi]⟩

/-- Whoever holds the lock can go on. -/
theorem Sound.enabled_owner (hi : Sound s) {o : Owner n} (hlock : s.lock = some o) :
    Enabled (ThreadPoolTaskQueue.step (H := H) (n := n)) Progress s := by
  have hin := hi.held o hlock
  cases o with
  | runImpl i => exact ⟨.runImpl i, ⟨rfl, rfl⟩, runImpl_isSome hi.stocked hin⟩
  | addTask t =>
      obtain ⟨waiter, hsome⟩ := exists_addNext hin
      exact ⟨.addNext t waiter, ⟨rfl, rfl⟩, hsome⟩
  | stop =>
      have howns : s.stopper.owns := hin
      refine ⟨.stop, ⟨rfl, rfl⟩, ?_⟩
      show s.stopNext.isSome = true
      cases hs : s.stopper with
      | locked | set | notified => simp [stopNext, hs]
      | idle | joining | returned => simp [hs, StopPc.owns] at howns

/-- While the lock is free, nobody is inside. -/
theorem Locked.not_inside (hl : Locked s) (hlock : s.lock = none) (o : Owner n) :
    ¬ s.Inside o := fun ho => by
  have htaken := locked_iff.mp hl o ho
  rw [hlock] at htaken
  cases htaken

/-- While the lock is free, so can a worker that is neither asleep nor gone. -/
theorem Sound.enabled_worker (hi : Sound s) (hlock : s.lock = none) {i : Fin n}
    (hactive : (s.workers i).Active) :
    Enabled (ThreadPoolTaskQueue.step (H := H) (n := n)) Progress s := by
  have hrun : (s.runImpl i).isSome = true →
      Enabled (ThreadPoolTaskQueue.step (H := H) (n := n)) Progress s :=
    fun hsome => ⟨.runImpl i, ⟨rfl, rfl⟩, hsome⟩
  have hout : ¬ (s.workers i).owns := hi.locked.not_inside hlock (.runImpl i)
  cases hpc : s.workers i with
  | start | woken => exact hrun (by simp [runImpl, hpc, hlock])
  | popped task | notified task => exact hrun (by simp [runImpl, hpc])
  | test | predicate | recheck | take =>
      rw [hpc] at hout
      exact absurd trivial hout
  | running task =>
      have hadd : s.adding (.worker i) = none := by
        by_contra hne
        exact hi.locked.not_inside hlock (.addTask (.worker i)) hne
      exact ⟨.handlerReturns i, ⟨rfl, rfl⟩, by simp [ThreadPoolTaskQueue.step, hpc, hadd]⟩
  | blocked => exact absurd hpc hactive.1
  | exited => exact absurd hpc hactive.2

/-- Until `stop` has returned there is always someone who can go on. -/
theorem Stopped.enabled (hi : Stopped s) (hret : s.stopper ≠ .returned) :
    Enabled (ThreadPoolTaskQueue.step (H := H) (n := n)) Progress s := by
  cases hlock : s.lock with
  | some o => exact hi.enabled_owner hlock
  | none =>
      have hneg : ∀ pc : StopPc, pc.owns → s.stopper ≠ pc := by
        rintro pc howns rfl
        exact hi.locked.not_inside hlock .stop howns
      -- `stop` has woken everybody when it gives the lock back
      have hstop : s.stop = true := (hi.told hi.called).resolve_left (hneg _ trivial)
      have hawake := (hi.awake.stop hstop).resolve_left (hneg _ trivial)
      by_cases hleft : ∃ i, s.workers i ≠ .exited
      · obtain ⟨i, hne⟩ := hleft
        exact hi.enabled_worker hlock ⟨hawake i, hne⟩
      · have hexited : ∀ i, s.workers i = .exited := by simpa using hleft
        refine ⟨.stop, ⟨rfl, rfl⟩, ?_⟩
        show s.stopNext.isSome = true
        cases hs : s.stopper with
        | joining => simp [stopNext, hs, hexited, WorkerPc.isExited]
        | idle => exact absurd hs hi.called
        | returned => exact absurd hs hret
        | locked | set | notified => exact absurd hs (hneg _ trivial)

/-- No task is in hand, nor in a queue that a worker is left to look at. -/
structure Drained (s : ThreadPoolTaskQueue H n) : Prop where
  hands : ∀ i, s.inHand i = none
  queue : s.queue = [] ∨ ∀ i, s.workers i = .exited

/-- Until all tasks have been run there is always someone who can go on. -/
theorem Sound.enabled (hi : Sound s) (hdrained : ¬ Drained s) :
    Enabled (ThreadPoolTaskQueue.step (H := H) (n := n)) Progress s := by
  cases hlock : s.lock with
  | some o => exact hi.enabled_owner hlock
  | none =>
      by_cases hactive : ∃ i, (s.workers i).Active
      · obtain ⟨i, hactive⟩ := hactive
        exact hi.enabled_worker hlock hactive
      · have hidle : ∀ i, s.workers i = .blocked ∨ s.workers i = .exited := fun i => by
          by_contra hne
          exact hactive ⟨i, not_or.mp hne⟩
        have hhands : ∀ i, s.inHand i = none := fun i => by
          rcases hidle i with hpc | hpc <;> simp [inHand, hpc, WorkerPc.inHand]
        have hqueue : s.queue ≠ [] := fun hq => hdrained ⟨hhands, .inl hq⟩
        rcases hi.awake.queue hqueue with ⟨t, rest, vector, hadding⟩ | hex | hexited
        · have hin : s.Inside (.addTask t) := by
            show s.adding t ≠ none
            simp [hadding]
          exact absurd hin (hi.locked.not_inside hlock (.addTask t))
        · exact absurd hex hactive
        · exact absurd ⟨hhands, .inr hexited⟩ hdrained

/-! ## Every execution

A rank that goes down and a thread that can go on: under fairness, each of the two results is an
instance of `Ranked.reaches`. What has to be shown is that from some point on the execution takes no
step that the rank does not count. -/

/-- The labels that a part of an execution does not have. -/
abbrev Without (bad : PoolLabel H n → Bool) : ThreadPoolTaskQueue H n → PoolLabel H n →
    Option (ThreadPoolTaskQueue H n) :=
  Execution.restricted ThreadPoolTaskQueue.step fun l => !bad l

/-- A step of the restricted machine is one of the pool that is not excluded. -/
theorem without_eq_some {bad : PoolLabel H n → Bool} {l : PoolLabel H n}
    (h : Without bad s l = some s') : bad l = false ∧ s.step l = some s' := by
  obtain ⟨hbad, hstep⟩ := Execution.restricted_eq_some h
  exact ⟨by simpa using hbad, hstep⟩

/-- Excluding steps that are no progress disables nothing. -/
theorem enabled_without {bad : PoolLabel H n → Bool}
    (hbad : ∀ l, l.adds = false → l.spurious = false → bad l = false)
    (h : Enabled (ThreadPoolTaskQueue.step (H := H) (n := n)) Progress s) :
    Enabled (Without bad) Progress s := by
  obtain ⟨l, hprogress, hsome⟩ := h
  refine ⟨l, hprogress, ?_⟩
  show (if (!bad l) = true then s.step l else none).isSome = true
  rw [hbad l hprogress.1 hprogress.2]
  exact hsome

/-- Without new calls of `add_task`, a pool that is being stopped comes to its end. -/
theorem ranked_stop : Ranked (Without (H := H) (n := n) PoolLabel.adds) Stopped
    (fun s => s.stopper = .returned) Progress (rank 5) := by
  have hdown : ∀ {s s' : ThreadPoolTaskQueue H n} {l : PoolLabel H n}, Stopped s →
      Without PoolLabel.adds s l = some s' → Step s s' ∧ rank 5 s' < rank 5 s := by
    intro s s' l hi h
    obtain ⟨hadds, hstep⟩ := without_eq_some h
    exact ⟨step_sound hstep, rank_step hi.locked hadds (fun _ => by decide)
      (fun i hpc => .inr (hi.no_block hpc)) hstep⟩
  exact ⟨fun s l s' hi h => hi.step (hdown hi h).1,
    fun s hi hret => enabled_without (fun l hl _ => hl) (hi.enabled hret),
    fun s l s' hi _ h => (hdown hi h).2.le, fun s l s' hi _ _ h => (hdown hi h).2⟩

/-- Without wake-ups by chance, a pool runs its tasks. -/
theorem ranked_drain : Ranked (Without (H := H) (n := n) fun l => l.adds || l.spurious) Sound
    Drained Progress (rank 0) := by
  have hdown : ∀ {s s' : ThreadPoolTaskQueue H n} {l : PoolLabel H n}, Sound s →
      Without (fun l => l.adds || l.spurious) s l = some s' →
        Step s s' ∧ rank 0 s' < rank 0 s := by
    intro s s' l hi h
    obtain ⟨hbad, hstep⟩ := without_eq_some h
    obtain ⟨hadds, hspurious⟩ := Bool.or_eq_false_iff.mp hbad
    exact ⟨step_sound hstep, rank_step hi.locked hadds (by simp [hspurious])
      (fun i _ => .inl (by decide)) hstep⟩
  exact ⟨fun s l s' hi h => hi.step (hdown hi h).1,
    fun s hi hgoal => enabled_without (fun l hl hl' => by simp [hl, hl']) (hi.enabled hgoal),
    fun s l s' hi _ h => (hdown hi h).2.le, fun s l s' hi _ _ h => (hdown hi h).2⟩

/-- What has been added stays in the history. -/
theorem Step.pushed (h : Step s s') : s.pushed <+: s'.pushed := by
  cases h with
  | push t hd => exact List.prefix_append _ _
  | _ => exact List.prefix_rfl

section

variable {e : Execution (ThreadPoolTaskQueue.step (H := H) (n := n))}

/-- Every state of an execution is sound. -/
theorem sound_state (h0 : e.state 0 = init H n) (k : Nat) : Sound (e.state k) :=
  e.invariant (fun _ _ _ hi hstep => hi.step (step_sound hstep)) (h0 ▸ .init) k

/-- What every step keeps holds from then on. -/
theorem later (P : ThreadPoolTaskQueue H n → Prop) (hstep : ∀ s s', P s → Step s s' → P s')
    {m k : Nat} (hmk : m ≤ k) (hm : P (e.state m)) : P (e.state k) := by
  induction k, hmk using Nat.le_induction with
  | base => exact hm
  | succ k _ ih =>
      rcases moves_cases (e.next k) with hsame | ⟨l, -, hnext⟩
      · exact hsame ▸ ih
      · exact hstep _ _ ih (step_sound hnext)

/-- From some point on, after the `m`-th state, the execution has none of these labels. -/
theorem drop_without {bad : PoolLabel H n → Bool}
    (hbad : ∃ N, ∀ k l, N ≤ k → e.label k = some l → bad l = false) (m : Nat) :
    ∃ k, m ≤ k ∧ ∀ j l, (e.drop k).label j = some l → (!bad l) = true := by
  obtain ⟨N, hquiet⟩ := hbad
  refine ⟨max m N, Nat.le_max_left m N, fun j l hl => ?_⟩
  rw [hquiet _ l ((Nat.le_max_right m N).trans (Nat.le_add_right _ j)) hl]
  rfl

end

/-- **Every task is run.** In every fair execution of a pool with a worker in which there are
finitely many calls of `add_task` and finitely many spurious wake-ups, every task that is not late
is run. -/
theorem task_runs (hn : 0 < n) (e : Execution (ThreadPoolTaskQueue.step (H := H) (n := n)))
    (h0 : e.state 0 = init H n) (hfair : e.WeaklyFair Progress)
    (hquiet : ∃ N, ∀ k l, N ≤ k → e.label k = some l → (l.adds || l.spurious) = false) {m : Nat}
    {task : Task H n} (htask : task ∈ (e.state m).pushed) (hlate : ¬ task.Late) :
    ∃ k, m ≤ k ∧ task ∈ (e.state k).finished := by
  obtain ⟨k, hmk, hok⟩ := drop_without hquiet m
  obtain ⟨j, hj⟩ := ranked_drain.reaches ((e.drop k).restrict _ hok) (sound_state h0 k)
    ((hfair.drop k).restrict hok)
  have hdrained : Drained (e.state (k + j)) := hj
  have hm : m ≤ k + j := hmk.trans (Nat.le_add_right k j)
  have hpushed : task ∈ (e.state (k + j)).pushed :=
    later (fun s => task ∈ s.pushed) (fun _ _ hp h => h.pushed.subset hp) hm htask
  obtain ⟨ls, hrun⟩ := e.exists_run (k + j)
  rw [h0] at hrun
  obtain ⟨hacc, hclose⟩ : Accounted (e.state (k + j)) ∧ Closing (e.state (k + j)) :=
    inv_of_run (fun s => Accounted s ∧ Closing s) ⟨.init, .init hn⟩
      (fun _ _ hi h => ⟨hi.1.step h, hi.2.step hn h⟩) hrun
  refine ⟨k + j, hm, ?_⟩
  rw [← hacc.order] at hpushed
  rcases List.mem_append.mp hpushed with htaken | hqueue
  · refine (hacc.settled task htaken).resolve_right ?_
    rintro ⟨i, b, hi⟩
    rw [hdrained.hands i] at hi
    cases hi
  · rcases hdrained.queue with hq | hexited
    · rw [hq] at hqueue
      cases hqueue
    · exact absurd (hclose.late hexited task hqueue) hlate

/-- **`stop` returns.** In every fair execution in which there are finitely many calls of
`add_task`, a `stop` that has got the lock returns; every task that is not late has been run exactly
once by then. -/
theorem stop_returns (e : Execution (ThreadPoolTaskQueue.step (H := H) (n := n)))
    (h0 : e.state 0 = init H n) (hfair : e.WeaklyFair Progress)
    (hadds : ∃ N, ∀ k l, N ≤ k → e.label k = some l → l.adds = false) {m : Nat}
    (hcalled : (e.state m).stopper ≠ .idle) :
    ∃ k, m ≤ k ∧ (e.state k).stopper = .returned ∧
      (0 < n → ∀ task ∈ (e.state k).pushed, ¬ task.Late →
        ((e.state k).finished.map Task.no).count task.no = 1) := by
  obtain ⟨k, hmk, hok⟩ := drop_without hadds m
  have hlater : (e.state k).stopper ≠ .idle :=
    later (fun s => s.stopper ≠ .idle) (fun _ _ hc h => h.called hc) hmk hcalled
  obtain ⟨j, hj⟩ := ranked_stop.reaches ((e.drop k).restrict _ hok) ⟨sound_state h0 k, hlater⟩
    ((hfair.drop k).restrict hok)
  have hret : (e.state (k + j)).stopper = .returned := hj
  refine ⟨k + j, hmk.trans (Nat.le_add_right k j), hret, fun hn task hp hl => ?_⟩
  obtain ⟨ls, hrun⟩ := e.exists_run (k + j)
  rw [h0] at hrun
  exact (((exactly_once hn hrun).2.2.2 hret).2 task hp hl).2

/-- When nobody holds the lock, all workers are gone and `stop` has returned, nothing is left. -/
theorem not_enabled_of_returned (hi : Sound s) (hret : s.stopper = .returned)
    (hlock : s.lock = none) (hexited : ∀ i, s.workers i = .exited) :
    ¬ Enabled (ThreadPoolTaskQueue.step (H := H) (n := n)) Progress s := by
  rintro ⟨l, hprogress, hsome⟩
  cases l with
  | runImpl i => simp [ThreadPoolTaskQueue.step, runImpl, hexited i] at hsome
  | handlerReturns i => simp [ThreadPoolTaskQueue.step, hexited i] at hsome
  | addNext t waiter =>
      have hadd : s.adding t = none := by
        by_contra hne
        exact hi.locked.not_inside hlock (.addTask t) hne
      simp [ThreadPoolTaskQueue.step, addNext, hadd] at hsome
  | stop => simp [ThreadPoolTaskQueue.step, stopNext, hret] at hsome
  | addTask | addTasks => cases hprogress.1
  | spuriousWakeup => cases hprogress.2

/-! ## An execution

A pool of one worker, in which `stop` is called while a task runs that adds another. -/

/-- `stop` is called while a task runs that will add another; then nothing more comes. -/
theorem exists_resubmit : ∃ e : Execution (ThreadPoolTaskQueue.step (H := Unit) (n := 1)),
    e.state 0 = init Unit 1 ∧ e.WeaklyFair Progress ∧ (∀ k, 27 ≤ k → e.label k = none) ∧
      (e.state 10).stopper = .locked ∧
      (e.state 15).pushed.map Task.pusher = [.outside 0, .worker 0] := by
  have hend : ((run ThreadPoolTaskQueue.step (init Unit 1) resubmit).any fun s =>
      s.stopper = .returned && s.lock = none && (s.workers 0).isExited) = true := by decide +kernel
  obtain ⟨s, hs, heq⟩ := (Option.any_eq_true ..).mp hend
  simp only [Bool.and_eq_true, decide_eq_true_eq] at heq
  obtain ⟨⟨hret, hlock⟩, hexited⟩ := heq
  have hsound : Sound s := inv_of_run Sound .init (fun _ _ hi h => hi.step h) hs
  refine ⟨Execution.ofRun hs, rfl, Execution.weaklyFair_ofRun hs ?_, fun k hk => ?_, rfl, rfl⟩
  · refine not_enabled_of_returned hsound hret hlock fun i => ?_
    rw [Fin.fin_one_eq_zero i]
    exact isExited_iff.mp hexited
  · exact List.getElem?_eq_none hk

/-- A task adds another while `stop` is called; both are run. -/
theorem task_runs_resubmit :
    ∃ e : Execution (ThreadPoolTaskQueue.step (H := Unit) (n := 1)),
      ∃ task ∈ (e.state 15).pushed, task.pusher = .worker 0 ∧
        ∃ k, 15 ≤ k ∧ task ∈ (e.state k).finished := by
  obtain ⟨e, h0, hfair, hquiet, -, hpushers⟩ := exists_resubmit
  have hmem : Thread.worker 0 ∈ (e.state 15).pushed.map Task.pusher := by
    rw [hpushers]
    exact .tail _ (.head _)
  obtain ⟨task, htask, hpusher⟩ := List.mem_map.mp hmem
  have hlate : ¬ task.Late := by
    rintro ⟨⟨k, hk⟩, -⟩
    rw [hpusher] at hk
    cases hk
  refine ⟨e, task, htask, hpusher, task_runs Nat.one_pos e h0 hfair ⟨27, ?_⟩ htask hlate⟩
  intro k l hk hl
  rw [hquiet k hk] at hl
  cases hl

theorem stop_returns_resubmit :
    ∃ e : Execution (ThreadPoolTaskQueue.step (H := Unit) (n := 1)),
      (e.state 10).stopper = .locked ∧ ∃ k, 10 ≤ k ∧ (e.state k).stopper = .returned ∧
        (0 < 1 → ∀ task ∈ (e.state k).pushed, ¬ task.Late →
          ((e.state k).finished.map Task.no).count task.no = 1) := by
  obtain ⟨e, h0, hfair, hquiet, hlocked, -⟩ := exists_resubmit
  refine ⟨e, hlocked, stop_returns e h0 hfair ⟨27, ?_⟩ (by simp [hlocked])⟩
  intro k l hk hl
  rw [hquiet k hk] at hl
  cases hl

end ThreadPoolTaskQueue

end Cppev
