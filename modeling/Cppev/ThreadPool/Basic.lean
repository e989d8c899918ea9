import Mathlib.Logic.Function.Basic
import Mathlib.Data.Fintype.Basic
import Cppev.Lib.Transition

/-!
# The task queue of the thread pool

`thread_pool_task_queue` with `n` started workers, statement by statement: the loop of `run_impl`,
both kinds of `add_task`, and `stop`. Any number of outside threads add tasks; so do the tasks
that run in the pool. A label names the thread that moves and what is left to chance: which waiter
`notify_one` wakes, a spurious wake-up, the moment a task returns.

* `step_sound`: what a step can do, one constructor of `Step` for each statement.
* `Locked.step`: at most one thread is between taking the lock and giving it back.
* `front_defined`: `queue_.front()` is never called on an empty queue.
-/

namespace Cppev

/-! ## Who there is

The threads, and their places in the three functions. -/

/-- The threads that may call `add_task`. -/
inductive Thread (n : Nat) where
  | worker (i : Fin n)
  | outside (k : Nat)
  deriving DecidableEq, Repr

/-- A task as it stands in the queue: its handler, and for the history how many were pushed before
it, by whom, and whether `stop` had already taken the lock. -/
structure Task (H : Type) (n : Nat) where
  handler : H
  no : Nat
  pusher : Thread n
  afterStop : Bool
  deriving DecidableEq, Repr

/-- Where a worker is in `run_impl`. It holds the lock at `test`, `predicate`, `recheck` and
`take`. -/
inductive WorkerPc (H : Type) (n : Nat) where
  /-- At the top of the loop, or waiting there for the lock. -/
  | start
  /-- At `if (queue_.empty())`. -/
  | test
  /-- At the predicate of `cond_.wait`. -/
  | predicate
  /-- In `cond_.wait`, no wake-up pending. -/
  | blocked
  /-- In `cond_.wait`, woken up, waiting for the lock. -/
  | woken
  /-- At the second test, after `cond_.wait`. -/
  | recheck
  /-- At `handler = std::move(queue_.front())`. -/
  | take
  /-- At `cond_.notify_all()`, out of the locked block. -/
  | popped (t : Task H n)
  /-- At `handler()`. -/
  | notified (t : Task H n)
  /-- In `handler()`. -/
  | running (t : Task H n)
  | exited
  deriving DecidableEq, Repr

/-- Where a call of `add_task` is, from taking the lock on. -/
inductive AddPc (H : Type) where
  | pushing (rest : List H) (vector : Bool)
  | notified
  deriving DecidableEq, Repr

/-- Where the thread that stops the pool is in `stop`. It holds the lock at `locked`, `set` and
`notified`. -/
inductive StopPc where
  | idle | locked | set | notified | joining | returned
  deriving DecidableEq, Repr

/-- Who holds the lock. -/
inductive Owner (n : Nat) where
  | runImpl (i : Fin n)
  | addTask (t : Thread n)
  | stop
  deriving DecidableEq, Repr

/-- What a wake-up does to a worker. -/
def WorkerPc.wake {H : Type} {n : Nat} : WorkerPc H n → WorkerPc H n
  | .blocked => .woken
  | pc => pc

def WorkerPc.isBlocked {H : Type} {n : Nat} : WorkerPc H n → Bool
  | .blocked => true
  | _ => false

def WorkerPc.isExited {H : Type} {n : Nat} : WorkerPc H n → Bool
  | .exited => true
  | _ => false

/-- A wake-up is seen by the blocked ones only. -/
theorem WorkerPc.wake_eq_iff {H : Type} {n : Nat} {pc pc' : WorkerPc H n} (hb : pc' ≠ .blocked)
    (hw : pc' ≠ .woken) : pc.wake = pc' ↔ pc = pc' := by
  cases pc <;> simp [WorkerPc.wake, hb.symm, hw.symm]

/-- The points of `run_impl` in the locked block. -/
def WorkerPc.owns {H : Type} {n : Nat} : WorkerPc H n → Prop
  | .test | .predicate | .recheck | .take => True
  | _ => False

/-- It puts nobody into the locked block. -/
@[simp] theorem WorkerPc.owns_wake {H : Type} {n : Nat} (pc : WorkerPc H n) :
    pc.wake.owns ↔ pc.owns := by
  cases pc <;> simp [WorkerPc.wake, WorkerPc.owns]

/-- The points of `stop` in the locked block. -/
def StopPc.owns : StopPc → Prop
  | .locked | .set | .notified => True
  | _ => False

/-- The queue, the lock, where everybody is, and the history: the tasks added, taken, called and
finished. -/
structure ThreadPoolTaskQueue (H : Type) (n : Nat) where
  queue : List (Task H n)
  stop : Bool
  lock : Option (Owner n)
  workers : Fin n → WorkerPc H n
  adding : Thread n → Option (AddPc H)
  stopper : StopPc
  /-- The history: every task pushed, taken from the queue, called and returned from. -/
  pushed : List (Task H n)
  taken : List (Task H n)
  called : List (Task H n)
  finished : List (Task H n)

/-- What moves next. -/
inductive PoolLabel (H : Type) (n : Nat) where
  /-- The next statement of `run_impl` in worker `i`. -/
  | runImpl (i : Fin n)
  | spuriousWakeup (i : Fin n)
  /-- `handler()` returns in worker `i`. -/
  | handlerReturns (i : Fin n)
  /-- `t` calls `add_task` with one handler, or with a vector, and takes the lock. -/
  | addTask (t : Thread n) (h : H)
  | addTasks (t : Thread n) (vh : List H)
  /-- The next statement of the `add_task` of `t`; a `notify_one` wakes `waiter`. -/
  | addNext (t : Thread n) (waiter : Option (Fin n))
  /-- The next statement of `stop`. -/
  | stop
  deriving DecidableEq, Repr

namespace ThreadPoolTaskQueue

variable {H : Type} {n : Nat}

/-! ## The machine

Each function is written as what its next statement does; a call that is held up has no next state.
The labels choose among the threads, so that every interleaving is a run. -/

/-- A pool whose workers have all been started, before anything was added. -/
def init (H : Type) (n : Nat) : ThreadPoolTaskQueue H n where
  queue := []
  stop := false
  lock := none
  workers := fun _ => .start
  adding := fun _ => none
  stopper := .idle
  pushed := []
  taken := []
  called := []
  finished := []

/-- Worker `i` gets to `pc`. -/
def goto (s : ThreadPoolTaskQueue H n) (i : Fin n) (pc : WorkerPc H n) : ThreadPoolTaskQueue H n :=
  { s with workers := Function.update s.workers i pc }

/-- The `add_task` of `t` gets to `pc`; `none` when it has returned. -/
def addAt (s : ThreadPoolTaskQueue H n) (t : Thread n) (pc : Option (AddPc H)) :
    ThreadPoolTaskQueue H n :=
  { s with adding := Function.update s.adding t pc }

def push (s : ThreadPoolTaskQueue H n) (t : Thread n) (h : H) : ThreadPoolTaskQueue H n :=
  let task : Task H n := ⟨h, s.pushed.length, t, s.stopper ≠ .idle⟩
  { s with queue := s.queue ++ [task], pushed := s.pushed ++ [task] }

def notifyAll (s : ThreadPoolTaskQueue H n) : ThreadPoolTaskQueue H n :=
  { s with workers := fun i => (s.workers i).wake }

/-- `notify_one` wakes one waiter, whichever, if there is one. -/
def notifyOne (s : ThreadPoolTaskQueue H n) : Option (Fin n) → Option (ThreadPoolTaskQueue H n)
  | some i => if (s.workers i).isBlocked then some (s.goto i .woken) else none
  | none => if ∀ i, (s.workers i).isBlocked = false then some s else none

/-- A statement of `run_impl` in worker `i`. -/
def runImpl (s : ThreadPoolTaskQueue H n) (i : Fin n) : Option (ThreadPoolTaskQueue H n) :=
  match s.workers i with
  | .start =>
    if s.lock = none then some { s.goto i .test with lock := some (.runImpl i) } else none
  | .test =>
    if s.queue = [] then
      if s.stop then some { s.goto i .exited with lock := none }
      else some (s.goto i .predicate)
    else some (s.goto i .take)
  | .predicate =>
    -- `wait` gives the lock back in the same step as it blocks
    if s.queue ≠ [] ∨ s.stop then some (s.goto i .recheck)
    else some { s.goto i .blocked with lock := none }
  | .woken =>
    if s.lock = none then some { s.goto i .predicate with lock := some (.runImpl i) } else none
  | .recheck =>
    if s.queue = [] ∧ s.stop then some { s.goto i .exited with lock := none }
    else some (s.goto i .take)
  | .take =>
    match s.queue with
    | [] => none
    | task :: queue =>
      some { s.goto i (.popped task) with
        queue := queue, taken := s.taken ++ [task], lock := none }
  | .popped task => some (s.notifyAll.goto i (.notified task))
  | .notified task => some { s.goto i (.running task) with called := s.called ++ [task] }
  | .blocked | .running _ | .exited => none

/-- Whether `t` is at a point where it may call `add_task`: a worker only from its handler. -/
def mayAdd (s : ThreadPoolTaskQueue H n) (t : Thread n) : Bool :=
  (s.adding t).isNone &&
    match t with
    | .outside _ => true
    | .worker i =>
      match s.workers i with
      | .running _ => true
      | _ => false

/-- `t` enters `add_task` with the handlers `vh`. -/
def addEnter (s : ThreadPoolTaskQueue H n) (t : Thread n) (vh : List H) (vector : Bool) :
    Option (ThreadPoolTaskQueue H n) :=
  if s.mayAdd t ∧ s.lock = none then
    some { s.addAt t (some (.pushing vh vector)) with lock := some (.addTask t) }
  else none

/-- A statement of the `add_task` of `t`. -/
def addNext (s : ThreadPoolTaskQueue H n) (t : Thread n) (waiter : Option (Fin n)) :
    Option (ThreadPoolTaskQueue H n) :=
  match s.adding t with
  | none => none
  | some (.pushing (h :: rest) vector) => some ((s.push t h).addAt t (some (.pushing rest vector)))
  | some (.pushing [] true) => some (s.notifyAll.addAt t (some .notified))
  | some (.pushing [] false) => (s.notifyOne waiter).map fun s' => s'.addAt t (some .notified)
  | some .notified => some { s.addAt t none with lock := none }

/-- A statement of `stop`. -/
def stopNext (s : ThreadPoolTaskQueue H n) : Option (ThreadPoolTaskQueue H n) :=
  match s.stopper with
  | .idle => if s.lock = none then some { s with stopper := .locked, lock := some .stop } else none
  | .locked => some { s with stopper := .set, stop := true }
  | .set => some { s.notifyAll with stopper := .notified }
  | .notified => some { s with stopper := .joining, lock := none }
  | .joining =>
    if ∀ i, (s.workers i).isExited then some { s with stopper := .returned } else none
  | .returned => none

def step (s : ThreadPoolTaskQueue H n) : PoolLabel H n → Option (ThreadPoolTaskQueue H n)
  | .runImpl i => s.runImpl i
  | .spuriousWakeup i => if (s.workers i).isBlocked then some (s.goto i .woken) else none
  | .handlerReturns i =>
    match s.workers i with
    | .running task =>
      if s.adding (.worker i) = none then
        some { s.goto i .start with finished := s.finished ++ [task] }
      else none
    | _ => none
  | .addTask t h => s.addEnter t [h] false
  | .addTasks t vh => s.addEnter t vh true
  | .addNext t waiter => s.addNext t waiter
  | .stop => s.stopNext

/-! ## What a step can do

The machine, read as a relation with one constructor for each statement. All invariants are proved
by cases on it. -/

/-- One constructor for each statement, with its guard and its effect. -/
inductive Step (s : ThreadPoolTaskQueue H n) : ThreadPoolTaskQueue H n → Prop
  | acquire (i : Fin n) (hpc : s.workers i = .start) (hl : s.lock = none) :
      Step s { s.goto i .test with lock := some (.runImpl i) }
  | exitAtTest (i : Fin n) (hpc : s.workers i = .test) (hq : s.queue = []) (hs : s.stop = true) :
      Step s { s.goto i .exited with lock := none }
  | wait (i : Fin n) (hpc : s.workers i = .test) (hq : s.queue = []) : Step s (s.goto i .predicate)
  | nonempty (i : Fin n) (hpc : s.workers i = .test) (hq : s.queue ≠ []) : Step s (s.goto i .take)
  | proceed (i : Fin n) (hpc : s.workers i = .predicate) (hp : s.queue ≠ [] ∨ s.stop = true) :
      Step s (s.goto i .recheck)
  | block (i : Fin n) (hpc : s.workers i = .predicate) (hq : s.queue = []) (hs : s.stop = false) :
      Step s { s.goto i .blocked with lock := none }
  | reacquire (i : Fin n) (hpc : s.workers i = .woken) (hl : s.lock = none) :
      Step s { s.goto i .predicate with lock := some (.runImpl i) }
  | exitAtRecheck (i : Fin n) (hpc : s.workers i = .recheck) (hq : s.queue = [])
      (hs : s.stop = true) : Step s { s.goto i .exited with lock := none }
  | recheckPassed (i : Fin n) (hpc : s.workers i = .recheck) (hp : s.queue ≠ [] ∨ s.stop = false) :
      Step s (s.goto i .take)
  | pop (i : Fin n) (task : Task H n) (queue : List (Task H n)) (hpc : s.workers i = .take)
      (hq : s.queue = task :: queue) :
      Step s { s.goto i (.popped task) with
        queue := queue, taken := s.taken ++ [task], lock := none }
  | notify (i : Fin n) (task : Task H n) (hpc : s.workers i = .popped task) :
      Step s (s.notifyAll.goto i (.notified task))
  | call (i : Fin n) (task : Task H n) (hpc : s.workers i = .notified task) :
      Step s { s.goto i (.running task) with called := s.called ++ [task] }
  | wakeUp (i : Fin n) (hpc : s.workers i = .blocked) : Step s (s.goto i .woken)
  | handlerReturns (i : Fin n) (task : Task H n) (hpc : s.workers i = .running task)
      (ha : s.adding (.worker i) = none) :
      Step s { s.goto i .start with finished := s.finished ++ [task] }
  | addEnter (t : Thread n) (vh : List H) (vector : Bool) (ha : s.adding t = none)
      (ht : ∀ i, t = .worker i → ∃ task, s.workers i = .running task) (hl : s.lock = none) :
      Step s { s.addAt t (some (.pushing vh vector)) with lock := some (.addTask t) }
  | push (t : Thread n) (h : H) (rest : List H) (vector : Bool)
      (ha : s.adding t = some (.pushing (h :: rest) vector)) :
      Step s ((s.push t h).addAt t (some (.pushing rest vector)))
  | addNotifyAll (t : Thread n) (ha : s.adding t = some (.pushing [] true)) :
      Step s (s.notifyAll.addAt t (some .notified))
  | addNotifyOne (t : Thread n) (i : Fin n) (ha : s.adding t = some (.pushing [] false))
      (hpc : s.workers i = .blocked) : Step s ((s.goto i .woken).addAt t (some .notified))
  | addNotifyNone (t : Thread n) (ha : s.adding t = some (.pushing [] false))
      (hpc : ∀ i, s.workers i ≠ .blocked) : Step s (s.addAt t (some .notified))
  | addLeave (t : Thread n) (ha : s.adding t = some .notified) :
      Step s { s.addAt t none with lock := none }
  | stopEnter (hs : s.stopper = .idle) (hl : s.lock = none) :
      Step s { s with stopper := .locked, lock := some .stop }
  | stopSet (hs : s.stopper = .locked) : Step s { s with stopper := .set, stop := true }
  | stopNotify (hs : s.stopper = .set) : Step s { s.notifyAll with stopper := .notified }
  | stopLeave (hs : s.stopper = .notified) : Step s { s with stopper := .joining, lock := none }
  | join (hs : s.stopper = .joining) (he : ∀ i, s.workers i = .exited) :
      Step s { s with stopper := .returned }

/-- It sleeps on the condition variable. -/
theorem isBlocked_iff {pc : WorkerPc H n} : pc.isBlocked = true ↔ pc = .blocked := by
  cases pc <;> simp [WorkerPc.isBlocked]

theorem isBlocked_eq_false_iff {pc : WorkerPc H n} : pc.isBlocked = false ↔ pc ≠ .blocked := by
  cases pc <;> simp [WorkerPc.isBlocked]

theorem isExited_iff {pc : WorkerPc H n} : pc.isExited = true ↔ pc = .exited := by
  cases pc <;> simp [WorkerPc.isExited]

/-! ### Every step is one of these -/

theorem runImpl_sound {s s' : ThreadPoolTaskQueue H n} {i : Fin n} (h : s.runImpl i = some s') :
    Step s s' := by
  unfold runImpl at h
  split at h
  case h_1 hpc =>
    split at h
    case isTrue hl => cases h; exact .acquire i hpc hl
    case isFalse => cases h
  case h_2 hpc =>
    split at h
    case isTrue hq =>
      split at h
      case isTrue hs => cases h; exact .exitAtTest i hpc hq hs
      case isFalse => cases h; exact .wait i hpc hq
    case isFalse hq => cases h; exact .nonempty i hpc hq
  case h_3 hpc =>
    split at h
    case isTrue hp => cases h; exact .proceed i hpc hp
    case isFalse hp =>
      cases h
      simp only [ne_eq, not_or, Decidable.not_not, Bool.not_eq_true] at hp
      exact .block i hpc hp.1 hp.2
  case h_4 hpc =>
    split at h
    case isTrue hl => cases h; exact .reacquire i hpc hl
    case isFalse => cases h
  case h_5 hpc =>
    split at h
    case isTrue hp => cases h; exact .exitAtRecheck i hpc hp.1 hp.2
    case isFalse hp =>
      cases h
      refine .recheckPassed i hpc ?_
      by_cases hq : s.queue = []
      · exact .inr (by simpa [hq] using hp)
      · exact .inl hq
  case h_6 hpc =>
    split at h
    case h_1 => cases h
    case h_2 task queue hq => cases h; exact .pop i task queue hpc hq
  case h_7 task hpc => cases h; exact .notify i task hpc
  case h_8 task hpc => cases h; exact .call i task hpc
  all_goals cases h

/-- Who may begin a call of `add_task`: an outside thread that is in none, and a worker whose task
runs. -/
theorem mayAdd_sound {s : ThreadPoolTaskQueue H n} {t : Thread n} (h : s.mayAdd t = true) :
    s.adding t = none ∧ ∀ i, t = .worker i → ∃ task, s.workers i = .running task := by
  unfold mayAdd at h
  simp only [Bool.and_eq_true, Option.isNone_iff_eq_none] at h
  refine ⟨h.1, ?_⟩
  rintro i rfl
  have hrun := h.2
  cases hpc : s.workers i with
  | running task => exact ⟨task, rfl⟩
  | _ => simp [hpc] at hrun

theorem addEnter_sound {s s' : ThreadPoolTaskQueue H n} {t : Thread n} {vh : List H}
    {vector : Bool} (h : s.addEnter t vh vector = some s') : Step s s' := by
  unfold addEnter at h
  split at h
  case isTrue hc =>
    cases h
    obtain ⟨ha, ht⟩ := mayAdd_sound hc.1
    exact .addEnter t vh vector ha ht hc.2
  case isFalse => cases h

/-- The statements of `add_task`, both kinds. -/
theorem addNext_sound {s s' : ThreadPoolTaskQueue H n} {t : Thread n} {waiter : Option (Fin n)}
    (h : s.addNext t waiter = some s') : Step s s' := by
  unfold addNext at h
  split at h
  case h_1 => cases h
  case h_2 hd rest vector ha => cases h; exact .push t hd rest vector ha
  case h_3 ha => cases h; exact .addNotifyAll t ha
  case h_4 ha =>
    cases waiter with
    | none =>
        by_cases hpc : ∀ i, (s.workers i).isBlocked = false
        · simp only [notifyOne, if_pos hpc, Option.map_some, Option.some.injEq] at h
          subst h
          exact .addNotifyNone t ha fun i => isBlocked_eq_false_iff.mp (hpc i)
        · simp [notifyOne, if_neg hpc] at h
    | some i =>
        by_cases hpc : (s.workers i).isBlocked = true
        · simp only [notifyOne, if_pos hpc, Option.map_some, Option.some.injEq] at h
          subst h
          exact .addNotifyOne t i ha (isBlocked_iff.mp hpc)
        · simp [notifyOne, if_neg hpc] at h
  case h_5 ha => cases h; exact .addLeave t ha

theorem stopNext_sound {s s' : ThreadPoolTaskQueue H n} (h : s.stopNext = some s') :
    Step s s' := by
  unfold stopNext at h
  split at h
  case h_1 hs =>
    split at h
    case isTrue hl => cases h; exact .stopEnter hs hl
    case isFalse => cases h
  case h_2 hs => cases h; exact .stopSet hs
  case h_3 hs => cases h; exact .stopNotify hs
  case h_4 hs => cases h; exact .stopLeave hs
  case h_5 hs =>
    split at h
    case isTrue he => cases h; exact .join hs fun i => isExited_iff.mp (he i)
    case isFalse => cases h
  case h_6 => cases h

/-- A step of the machine is one of the statements of `Step`. -/
theorem step_sound {s s' : ThreadPoolTaskQueue H n} {l : PoolLabel H n}
    (h : s.step l = some s') : Step s s' := by
  cases l with
  | runImpl i => exact runImpl_sound h
  | spuriousWakeup i =>
      simp only [step] at h
      split at h
      case isTrue hpc => cases h; exact .wakeUp i (isBlocked_iff.mp hpc)
      case isFalse => cases h
  | handlerReturns i =>
      simp only [step] at h
      split at h
      case h_1 task hpc =>
        split at h
        case isTrue ha => cases h; exact .handlerReturns i task hpc ha
        case isFalse => cases h
      case h_2 => cases h
  | addTask t hd => exact addEnter_sound h
  | addTasks t vh => exact addEnter_sound h
  | addNext t waiter => exact addNext_sound h
  | stop => exact stopNext_sound h

/-- An invariant of every statement is an invariant of every run. -/
theorem inv_of_run (Inv : ThreadPoolTaskQueue H n → Prop) (h0 : Inv (init H n))
    (hstep : ∀ s s', Inv s → Step s s' → Inv s') {ls : List (PoolLabel H n)}
    {s : ThreadPoolTaskQueue H n} (hrun : run step (init H n) ls = some s) : Inv s :=
  run_inv step (fun _ _ => True) Inv (fun s _ s' hi _ h => hstep s s' hi (step_sound h)) h0
    (allSteps_true step _ ls) hrun

/-! ## What the small operations change

Every operation changes one field, so for each of the others there is a lemma that it does not,
which `simp` uses. -/

section Fields

variable (s : ThreadPoolTaskQueue H n) (i j : Fin n) (pc : WorkerPc H n) (t u : Thread n)
  (add : Option (AddPc H)) (h : H)

@[simp] theorem workers_goto_self : (s.goto i pc).workers i = pc := by simp [goto]

theorem workers_goto : (s.goto i pc).workers j = if j = i then pc else s.workers j := by
  simp [goto, Function.update_apply]

@[simp] theorem queue_goto : (s.goto i pc).queue = s.queue := rfl
@[simp] theorem stop_goto : (s.goto i pc).stop = s.stop := rfl
@[simp] theorem lock_goto : (s.goto i pc).lock = s.lock := rfl
@[simp] theorem adding_goto : (s.goto i pc).adding = s.adding := rfl
@[simp] theorem stopper_goto : (s.goto i pc).stopper = s.stopper := rfl
@[simp] theorem pushed_goto : (s.goto i pc).pushed = s.pushed := rfl
@[simp] theorem taken_goto : (s.goto i pc).taken = s.taken := rfl
@[simp] theorem called_goto : (s.goto i pc).called = s.called := rfl
@[simp] theorem finished_goto : (s.goto i pc).finished = s.finished := rfl

theorem adding_addAt : (s.addAt t add).adding u = if u = t then add else s.adding u := by
  simp [addAt, Function.update_apply]

@[simp] theorem adding_addAt_self : (s.addAt t add).adding t = add := by simp [addAt]
@[simp] theorem queue_addAt : (s.addAt t add).queue = s.queue := rfl
@[simp] theorem stop_addAt : (s.addAt t add).stop = s.stop := rfl
@[simp] theorem lock_addAt : (s.addAt t add).lock = s.lock := rfl
@[simp] theorem workers_addAt : (s.addAt t add).workers = s.workers := rfl
@[simp] theorem stopper_addAt : (s.addAt t add).stopper = s.stopper := rfl
@[simp] theorem pushed_addAt : (s.addAt t add).pushed = s.pushed := rfl
@[simp] theorem taken_addAt : (s.addAt t add).taken = s.taken := rfl
@[simp] theorem called_addAt : (s.addAt t add).called = s.called := rfl
@[simp] theorem finished_addAt : (s.addAt t add).finished = s.finished := rfl

@[simp] theorem workers_notifyAll : s.notifyAll.workers i = (s.workers i).wake := rfl
@[simp] theorem queue_notifyAll : s.notifyAll.queue = s.queue := rfl
@[simp] theorem stop_notifyAll : s.notifyAll.stop = s.stop := rfl
@[simp] theorem lock_notifyAll : s.notifyAll.lock = s.lock := rfl
@[simp] theorem adding_notifyAll : s.notifyAll.adding = s.adding := rfl
@[simp] theorem stopper_notifyAll : s.notifyAll.stopper = s.stopper := rfl
@[simp] theorem pushed_notifyAll : s.notifyAll.pushed = s.pushed := rfl
@[simp] theorem taken_notifyAll : s.notifyAll.taken = s.taken := rfl
@[simp] theorem called_notifyAll : s.notifyAll.called = s.called := rfl
@[simp] theorem finished_notifyAll : s.notifyAll.finished = s.finished := rfl

@[simp] theorem queue_push_ne_nil : (s.push t h).queue ≠ [] := by simp [push]
@[simp] theorem workers_push : (s.push t h).workers = s.workers := rfl
@[simp] theorem stop_push : (s.push t h).stop = s.stop := rfl
@[simp] theorem lock_push : (s.push t h).lock = s.lock := rfl
@[simp] theorem adding_push : (s.push t h).adding = s.adding := rfl
@[simp] theorem stopper_push : (s.push t h).stopper = s.stopper := rfl
@[simp] theorem taken_push : (s.push t h).taken = s.taken := rfl
@[simp] theorem called_push : (s.push t h).called = s.called := rfl
@[simp] theorem finished_push : (s.push t h).finished = s.finished := rfl

end Fields

/-! ## Mutual exclusion

The lock names its owner, so exclusion is that whoever is inside is the owner. `Step.lock` says once
what every statement does to the lock; the rest follows from it. -/

/-- Whoever is in a locked block holds the lock; so no two threads are. -/
structure Locked (s : ThreadPoolTaskQueue H n) : Prop where
  runImpl : ∀ i, (s.workers i).owns → s.lock = some (.runImpl i)
  addTask : ∀ t, s.adding t ≠ none → s.lock = some (.addTask t)
  stop : s.stopper.owns → s.lock = some .stop

theorem Locked.init : Locked (init H n) where
  runImpl := fun _ h => h.elim
  addTask := fun _ h => (h rfl).elim
  stop := fun h => h.elim

/-! ### Who is inside

The lock has one holder, so it is enough to say for each thread when it is inside. -/

/-- In the locked block of `run_impl`, of `add_task` or of `stop`. -/
def Inside (s : ThreadPoolTaskQueue H n) : Owner n → Prop
  | .runImpl i => (s.workers i).owns
  | .addTask t => s.adding t ≠ none
  | .stop => s.stopper.owns

theorem locked_iff {s : ThreadPoolTaskQueue H n} : Locked s ↔ ∀ o, s.Inside o → s.lock = some o := by
  constructor
  · rintro ⟨hrun, hadd, hstop⟩ o ho
    cases o with
    | runImpl i => exact hrun i ho
    | addTask t => exact hadd t ho
    | stop => exact hstop ho
  · intro h
    exact ⟨fun i hi => h (.runImpl i) hi, fun t ht => h (.addTask t) ht, fun hs => h .stop hs⟩

section Inside

variable {s : ThreadPoolTaskQueue H n} {i : Fin n} {pc : WorkerPc H n} {t : Thread n}
  {add : Option (AddPc H)} {o : Owner n}

/-- Where one worker goes does not matter to the others. -/
theorem inside_goto_of_ne (ho : o ≠ .runImpl i) (h : (s.goto i pc).Inside o) : s.Inside o := by
  cases o with
  | runImpl j =>
      have hne : j ≠ i := fun hji => ho (congrArg Owner.runImpl hji)
      change ((s.goto i pc).workers j).owns at h
      rwa [workers_goto, if_neg hne] at h
  | _ => exact h

/-- A worker that goes on inside its block has been inside. -/
theorem inside_goto (hpc : pc.owns → (s.workers i).owns) (h : (s.goto i pc).Inside o) :
    s.Inside o := by
  by_cases ho : o = .runImpl i
  · subst ho
    change ((s.goto i pc).workers i).owns at h
    rw [workers_goto_self] at h
    exact hpc h
  · exact inside_goto_of_ne ho h

/-- A worker that does not come to the locked block. -/
theorem inside_goto_out (h : (s.goto i pc).Inside o) (hpc : ¬ pc.owns) : s.Inside o :=
  inside_goto (fun howns => absurd howns hpc) h

/-- The same for the calls of `add_task`. -/
theorem inside_addAt_of_ne (ho : o ≠ .addTask t) (h : (s.addAt t add).Inside o) : s.Inside o := by
  cases o with
  | addTask u =>
      have hne : u ≠ t := fun hut => ho (congrArg Owner.addTask hut)
      change (s.addAt t add).adding u ≠ none at h
      rwa [adding_addAt, if_neg hne] at h
  | _ => exact h

/-- A call that goes on has been inside. -/
theorem inside_addAt {a : AddPc H} (ha : s.adding t = some a) (h : (s.addAt t add).Inside o) :
    s.Inside o := by
  by_cases ho : o = .addTask t
  · subst ho
    show s.adding t ≠ none
    rw [ha]
    exact Option.some_ne_none a
  · exact inside_addAt_of_ne ho h

theorem inside_notifyAll (h : s.notifyAll.Inside o) : s.Inside o := by
  cases o with
  | runImpl i => exact (WorkerPc.owns_wake _).mp h
  | _ => exact h

/-- A statement of `stop` is nothing to the others. -/
theorem inside_stop {s' : ThreadPoolTaskQueue H n} (ho : o ≠ .stop) (h : s'.Inside o)
    (hw : s'.workers = s.workers) (ha : s'.adding = s.adding) : s.Inside o := by
  cases o with
  | runImpl i =>
      change (s'.workers i).owns at h
      rwa [hw] at h
  | addTask t =>
      change s'.adding t ≠ none at h
      rwa [ha] at h
  | stop => exact absurd rfl ho

/-- A statement of `stop` inside its block. -/
theorem inside_stop_owns {s' : ThreadPoolTaskQueue H n} (howns : s.stopper.owns) (h : s'.Inside o)
    (hw : s'.workers = s.workers) (ha : s'.adding = s.adding) : s.Inside o := by
  by_cases ho : o = .stop
  · rw [ho]
    exact howns
  · exact inside_stop ho h hw ha

end Inside

/-! ### What a step does to the lock -/

/-- What a statement does to the lock: nothing, and then nobody enters a block; or one thread takes
it and enters; or one thread leaves its block and gives it back. -/
theorem Step.lock {s s' : ThreadPoolTaskQueue H n} (h : Step s s') :
    (s'.lock = s.lock ∧ ∀ o, s'.Inside o → s.Inside o) ∨
    (∃ o, s.lock = none ∧ s'.lock = some o ∧ ∀ o' ≠ o, s'.Inside o' → s.Inside o') ∨
    ∃ o, s.Inside o ∧ ¬ s'.Inside o ∧ ∀ o' ≠ o, s'.Inside o' → s.Inside o' := by
  cases h with
  | acquire i hpc hl | reacquire i hpc hl =>
      -- the lock is taken
      exact .inr (.inl ⟨.runImpl i, hl, rfl, fun o ho h => inside_goto_of_ne ho h⟩)
  | addEnter t vh vector ha ht hl =>
      exact .inr (.inl ⟨.addTask t, hl, rfl, fun o ho h => inside_addAt_of_ne ho h⟩)
  | stopEnter hs hl =>
      exact .inr (.inl ⟨.stop, hl, rfl, fun o ho h => inside_stop ho h rfl rfl⟩)
  | exitAtTest i hpc | exitAtRecheck i hpc | block i hpc | pop i task queue hpc =>
      -- the lock is given back: inside before, outside after
      refine .inr (.inr ⟨.runImpl i, ?_, ?_, fun o ho h => inside_goto_of_ne ho h⟩)
      · show (s.workers i).owns
        rw [hpc]
        trivial
      · show ¬ ((s.goto i _).workers i).owns
        rw [workers_goto_self]
        exact id
  | addLeave t ha =>
      refine .inr (.inr ⟨.addTask t, ?_, ?_, fun o ho h => inside_addAt_of_ne ho h⟩)
      · show s.adding t ≠ none
        rw [ha]
        exact Option.some_ne_none _
      · show ¬ (s.addAt t none).adding t ≠ none
        rw [adding_addAt_self]
        exact fun h => h rfl
  | stopLeave hs =>
      refine .inr (.inr ⟨.stop, ?_, id, fun o ho h => inside_stop ho h rfl rfl⟩)
      show s.stopper.owns
      rw [hs]
      trivial
  | wait i hpc | nonempty i hpc | proceed i hpc | recheckPassed i hpc =>
      -- inside before and after
      have howns : (s.workers i).owns := by
        rw [hpc]
        trivial
      exact .inl ⟨rfl, fun o h => inside_goto (fun _ => howns) h⟩
  | call | wakeUp | handlerReturns =>
      -- outside before and after
      exact .inl ⟨rfl, fun o h => inside_goto_out h id⟩
  | notify =>
      exact .inl ⟨rfl, fun o h => inside_notifyAll (inside_goto_out h id)⟩
  | push t hd rest vector ha | addNotifyNone t ha =>
      exact .inl ⟨rfl, fun o h => inside_addAt ha h⟩
  | addNotifyAll t ha => exact .inl ⟨rfl, fun o h => inside_notifyAll (inside_addAt ha h)⟩
  | addNotifyOne t i ha =>
      refine .inl ⟨rfl, fun o h => ?_⟩
      exact inside_goto_out (inside_addAt (s := s.goto i .woken) ha h) id
  | stopSet hs =>
      have howns : s.stopper.owns := by
        rw [hs]
        trivial
      exact .inl ⟨rfl, fun o h => inside_stop_owns howns h rfl rfl⟩
  | stopNotify hs =>
      have howns : s.notifyAll.stopper.owns := by
        rw [stopper_notifyAll, hs]
        trivial
      exact .inl ⟨rfl, fun o h => inside_notifyAll (inside_stop_owns howns h rfl rfl)⟩
  | join hs =>
      refine .inl ⟨rfl, fun o h => ?_⟩
      -- `join` is called without the lock
      by_cases ho : o = .stop
      · subst ho
        exact False.elim h
      · exact inside_stop ho h rfl rfl

/-- By `Step.lock`: who enters has found the lock free, so nobody is inside with it. -/
theorem Locked.step {s s' : ThreadPoolTaskQueue H n} (hi : Locked s) (h : Step s s') :
    Locked s' := by
  rw [locked_iff] at hi ⊢
  intro o ho
  rcases h.lock with ⟨hlock, hkeep⟩ | ⟨o', hfree, htaken, hkeep⟩ | ⟨o', hin, hout, hkeep⟩
  · rw [hlock]
    exact hi o (hkeep o ho)
  · -- nobody was in a block while the lock was free
    by_cases heq : o = o'
    · rw [htaken, heq]
    · have hheld := hi o (hkeep o heq ho)
      rw [hfree] at hheld
      cases hheld
  · -- the one that leaves was the only one
    have hne : o ≠ o' := by
      rintro rfl
      exact hout ho
    have hheld := (hi o (hkeep o hne ho)).symm.trans (hi o' hin)
    exact absurd (Option.some.inj hheld) hne

/-! ## A worker finds a task

A worker that has seen a task under the lock finds it when it takes it, since only workers take
tasks, and only with the lock. -/

/-- A worker past its tests has a task to take. -/
structure Stocked (s : ThreadPoolTaskQueue H n) : Prop where
  recheck : ∀ i, s.workers i = .recheck → s.queue ≠ [] ∨ s.stop = true
  take : ∀ i, s.workers i = .take → s.queue ≠ []

/-- Only a worker at `take` takes from the queue. -/
theorem Step.queue_ne_nil {s s' : ThreadPoolTaskQueue H n} (h : Step s s') (hq : s.queue ≠ []) :
    s'.queue ≠ [] ∨ ∃ i, s.workers i = .take ∧ ¬ (s'.workers i).owns := by
  cases h with
  | pop i task queue hpc =>
      refine .inr ⟨i, hpc, ?_⟩
      rw [workers_goto_self]
      exact id
  | push t hd => exact .inl (queue_push_ne_nil s t hd)
  | _ => exact .inl hq

/-- `i` is where it was, unless it has gone to another point. -/
theorem workers_of_goto {s : ThreadPoolTaskQueue H n} {i j : Fin n} {pc pc' : WorkerPc H n}
    (hne : pc' ≠ pc) (h : (s.goto j pc').workers i = pc) : s.workers i = pc := by
  rw [workers_goto] at h
  split at h
  · exact absurd h hne
  · exact h

/-! ### Between the test and the task

From the test that finds a task up to taking it, the worker has the lock. -/

/-- A worker comes to `recheck` when the predicate is true. -/
theorem Step.recheck {s s' : ThreadPoolTaskQueue H n} (h : Step s s') {i : Fin n}
    (hr : s'.workers i = .recheck) :
    s.workers i = .recheck ∨ s'.queue ≠ [] ∨ s'.stop = true := by
  have hwake : (s.workers i).wake = .recheck → s.workers i = .recheck :=
    (WorkerPc.wake_eq_iff (by simp) (by simp)).mp
  cases h with
  | proceed j hpc hp => exact .inr hp
  | acquire | exitAtTest | wait | nonempty | block | reacquire | exitAtRecheck | recheckPassed | pop
  | call | wakeUp | handlerReturns | addNotifyOne => exact .inl (workers_of_goto (by simp) hr)
  | notify => exact .inl (hwake (workers_of_goto (by simp) hr))
  | addNotifyAll | stopNotify => exact .inl (hwake hr)
  | addEnter | push | addNotifyNone | addLeave | stopEnter | stopSet | stopLeave | join =>
      exact .inl hr

/-- It comes to `take` when there is a task, or from `recheck`. -/
theorem Step.take {s s' : ThreadPoolTaskQueue H n} (h : Step s s') {i : Fin n}
    (ht : s'.workers i = .take) :
    s.workers i = .take ∨ s'.queue ≠ [] ∨ (s.workers i = .recheck ∧ s.stop = false) := by
  have hwake : (s.workers i).wake = .take → s.workers i = .take :=
    (WorkerPc.wake_eq_iff (by simp) (by simp)).mp
  cases h with
  | nonempty j hpc hq => exact .inr (.inl hq)
  | recheckPassed j hpc hp =>
      by_cases hij : i = j
      · subst hij
        exact .inr (hp.imp id fun hs => ⟨hpc, hs⟩)
      · exact .inl (by rwa [workers_goto, if_neg hij] at ht)
  | acquire | exitAtTest | wait | proceed | block | reacquire | exitAtRecheck | pop | call | wakeUp
  | handlerReturns | addNotifyOne => exact .inl (workers_of_goto (by simp) ht)
  | notify => exact .inl (hwake (workers_of_goto (by simp) ht))
  | addNotifyAll | stopNotify => exact .inl (hwake ht)
  | addEnter | push | addNotifyNone | addLeave | stopEnter | stopSet | stopLeave | join =>
      exact .inl ht

/-- `stop_` stays set. -/
theorem Step.stop_mono {s s' : ThreadPoolTaskQueue H n} (h : Step s s') :
    s.stop = true → s'.stop = true := by
  cases h with
  | stopSet => exact fun _ => rfl
  | _ => exact id

/-- The claim of a worker at `take` is about the queue, which the others change only with the
lock. -/
theorem Stocked.step {s s' : ThreadPoolTaskQueue H n} (hi : Stocked s) (hl : Locked s)
    (h : Step s s') : Stocked s' := by
  -- whoever is past its tests has the lock, so nobody else takes from the queue
  have hqueue : ∀ i, (s.workers i).owns → (s'.workers i).owns → s.queue ≠ [] → s'.queue ≠ [] := by
    intro i howns howns' hq
    rcases h.queue_ne_nil hq with hq' | ⟨j, hj, hout⟩
    · exact hq'
    · have hlock := (hl.runImpl i howns).symm.trans (hl.runImpl j (by rw [hj]; trivial))
      obtain rfl : i = j := by simpa using hlock
      exact absurd howns' hout
  refine ⟨fun i hr => ?_, fun i ht => ?_⟩
  · rcases h.recheck hr with hold | hnew
    · refine (hi.recheck i hold).imp (hqueue i ?_ ?_) h.stop_mono
      · rw [hold]
        trivial
      · rw [hr]
        trivial
    · exact hnew
  · rcases h.take ht with hold | hnew | ⟨hold, hstop⟩
    · refine hqueue i ?_ ?_ (hi.take i hold)
      · rw [hold]
        trivial
      · rw [ht]
        trivial
    · exact hnew
    · refine hqueue i ?_ ?_ ((hi.recheck i hold).resolve_right (by simp [hstop]))
      · rw [hold]
        trivial
      · rw [ht]
        trivial

/-- In every run, `queue_.front()` and `queue_.pop()` find a task. -/
theorem front_defined {ls : List (PoolLabel H n)} {s : ThreadPoolTaskQueue H n}
    (hrun : run step (init H n) ls = some s) {i : Fin n} (hpc : s.workers i = .take) :
    s.queue ≠ [] := by
  have hinv : Locked s ∧ Stocked s := by
    refine inv_of_run (fun s => Locked s ∧ Stocked s) ⟨.init, ⟨?_, ?_⟩⟩ ?_ hrun
    · exact fun _ h => nomatch h
    · exact fun _ h => nomatch h
    · exact fun _ _ hi h => ⟨hi.1.step h, hi.2.step hi.1 h⟩
  exact hinv.2.take i hpc

end ThreadPoolTaskQueue

end Cppev
