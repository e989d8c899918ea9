import Mathlib.Algebra.Ring.Divisibility.Basic
import Mathlib.Data.List.Perm.Basic
import Cppev.Lib.Transition
import Cppev.Utils.Divisors

/-!
# The timed scheduler

`timed_scheduler`: the constructor that lays the tasks out over one period, and the loop of its
thread. A task is named by its index in `timer_tasks`; the order in which the heap gives the tasks
back is a parameter, any order `PopOrder` allows. `tasks_`, a map, is the list of its entries by
ascending key.

* `timedScheduler_spec`: the table of a period. A time stamp has an entry exactly when a task is due
  then, and the entry names the tasks due, each once.
-/

namespace Cppev

/-! ## The constructor -/

/-- An entry of `timer_tasks`. The interval is `1'000'000'000 / freq` as the constructor computes
it. -/
structure TimerTask where
  interval : Int
  priority : Priority
  deriving DecidableEq, Repr

structure TimedScheduler where
  interval : Int
  timerHandlers : List Nat
  tasks : List (Int × List Nat)
  deriving DecidableEq, Repr

/-- The priority of the `i`-th task. -/
def priorityAt (timerTasks : List TimerTask) (i : Nat) : Int :=
  timerTasks[i]?.elim 0 fun task => task.priority.value

/-- `timer_tasks_heap` gives every index once, higher priorities first; ties in any order. -/
structure PopOrder (timerTasks : List TimerTask) (order : List Nat) : Prop where
  perm : order.Perm (List.range timerTasks.length)
  descending : order.Pairwise fun i j => priorityAt timerTasks j ≤ priorityAt timerTasks i

/-- `tasks_[stamp].push_back(idx)`. -/
def pushBack (stamp : Int) (idx : Nat) : List (Int × List Nat) → List (Int × List Nat)
  | [] => [(stamp, [idx])]
  | (key, vec) :: rest =>
    if stamp < key then (stamp, [idx]) :: (key, vec) :: rest
    else if stamp = key then (key, vec ++ [idx]) :: rest
    else (key, vec) :: pushBack stamp idx rest

/-- `for (; stamp < lcm; stamp += gcd)`. `gcd` is positive if the intervals are. Without that, which
takes a negative frequency, the source may go round for ever; here the table is left as it is. -/
def stampLoop (lcm gcd interval : Int) (idx : Nat) (stamp : Int) (tasks : List (Int × List Nat)) :
    List (Int × List Nat) :=
  if _h : stamp < lcm ∧ 0 < gcd then
    stampLoop lcm gcd interval idx (stamp + gcd)
      (if stamp.tmod interval = 0 then pushBack stamp idx tasks else tasks)
  else tasks
termination_by (lcm - stamp).toNat

/-- A round of `while (!timer_tasks_heap.empty())`, for the task the heap gives back. -/
def addTimer (timerTasks : List TimerTask) (lcm gcd : Int) (sch : TimedScheduler) (i : Nat) :
    Option TimedScheduler := do
  let task ← timerTasks[i]?
  some { sch with
    timerHandlers := sch.timerHandlers ++ [i]
    tasks := stampLoop lcm gcd task.interval sch.timerHandlers.length 0 sch.tasks }

/-- The constructor; `none` where it reads past the end of a vector, fails an assertion or
overflows. -/
def timedScheduler (timerTasks : List TimerTask) (order : List Nat) : Option TimedScheduler :=
  match timerTasks.map TimerTask.interval with
  | [] => none
  | first :: rest => do
    let lcm ← if rest = [] then some first else leastCommonMultiples (first :: rest)
    let gcd ← if rest = [] then some first else greatestCommonDivisors (first :: rest)
    order.foldlM (addTimer timerTasks lcm gcd) ⟨lcm, [], []⟩

/-! ## The loop of the thread

Without the clock: what is called, and how `tp_curr` goes on. -/

/-- Where the thread is: at `while (!stop_)`, at the test of the inner `for` with the rest of the
map before it, or past both loops. -/
inductive LoopPc where
  | outer
  | inner (iter : List (Int × List Nat))
  | exited
  deriving DecidableEq, Repr

structure LoopState where
  pc : LoopPc
  tpCurr : Int
  stop : Bool
  /-- The history: each call of a handler with its time stamp, and how often the body was run. -/
  calls : List (Nat × Int)
  rounds : Nat
  deriving DecidableEq, Repr

namespace TimedScheduler

/-- The thread at `while (!stop_)` for the first time, at the time point `t₀`. -/
def start (t₀ : Int) : LoopState := ⟨.outer, t₀, false, [], 0⟩

/-- `span`, from `curr` to the `next` entry or to the end of the period. -/
def span (sch : TimedScheduler) (curr : Int × List Nat) : List (Int × List Nat) → Int
  | [] => sch.interval - curr.1
  | following :: _ => following.1 - curr.1

/-- The body of the inner loop at `curr`, with `next` after it. The handlers may take any time: what
comes next depends on `tp_curr` only. -/
def body (sch : TimedScheduler) (s : LoopState) (curr : Int × List Nat)
    (next : List (Int × List Nat)) : Option LoopState := do
  let due ← curr.2.mapM fun idx => sch.timerHandlers[idx]?
  some { s with
    pc := .inner next
    calls := s.calls ++ due.map fun i => (i, s.tpCurr)
    tpCurr := toInt64 (s.tpCurr + sch.span curr next)
    rounds := s.rounds + 1 }

/-- A test of `stop_`, and what follows up to the next one. The label says whether the destructor
has set `stop_` since the test before. -/
def step (sch : TimedScheduler) (s : LoopState) (stopped : Bool) : Option LoopState :=
  let s := { s with stop := s.stop || stopped }
  match s.pc with
  | .outer => some { s with pc := if s.stop then .exited else .inner sch.tasks }
  | .inner iter =>
    if s.stop then some { s with pc := .outer }
    else
      match iter with
      | [] => some { s with pc := .outer }
      | curr :: next => sch.body s curr next
  | .exited => none

/-- The next time point is a 64-bit one, if the step makes one. -/
def InInt64 (sch : TimedScheduler) (s : LoopState) (stopped : Bool) : Prop :=
  match s.pc with
  | .inner (curr :: next) =>
    (s.stop || stopped) = false → s.tpCurr + sch.span curr next ≤ INT64_MAX
  | _ => True

instance (sch : TimedScheduler) (s : LoopState) (stopped : Bool) :
    Decidable (sch.InInt64 s stopped) := by
  unfold InInt64
  split <;> infer_instance

end TimedScheduler

/-! ## The map

`tasks_` is a `std::map`: what matters is which keys there are and what a key has. `stampLoop` goes
through all stamps of the period, and gives the task to those that its interval divides. -/

/-- The entries stand in ascending order. -/
def Ascending (tasks : List (Int × List Nat)) : Prop := tasks.Pairwise fun a b => a.1 < b.1

/-- A key that was there, or the new one. -/
theorem pushBack_keys {stamp : Int} {idx : Nat} {tasks : List (Int × List Nat)}
    {e : Int × List Nat} (h : e ∈ pushBack stamp idx tasks) :
    e.1 = stamp ∨ ∃ e' ∈ tasks, e'.1 = e.1 := by
  induction tasks with
  | nil => exact .inl (by simp_all [pushBack])
  | cons head rest ih =>
      obtain ⟨key, vec⟩ := head
      grind [pushBack]

theorem pushBack_ascending {stamp : Int} {idx : Nat} {tasks : List (Int × List Nat)}
    (h : Ascending tasks) : Ascending (pushBack stamp idx tasks) := by
  induction tasks with
  | nil => simp [Ascending, pushBack]
  | cons head rest ih =>
      obtain ⟨key, vec⟩ := head
      obtain ⟨hhead, hrest⟩ := List.pairwise_cons.mp h
      simp only [pushBack]
      split
      case isTrue hlt =>
        refine List.pairwise_cons.mpr ⟨fun e he => ?_, h⟩
        rcases List.mem_cons.mp he with rfl | he
        · exact hlt
        · exact hlt.trans (hhead e he)
      case isFalse hge =>
        split
        case isTrue heq => exact List.pairwise_cons.mpr ⟨hhead, hrest⟩
        case isFalse hne =>
          refine List.pairwise_cons.mpr ⟨fun e he => ?_, ih hrest⟩
          rcases pushBack_keys he with hk | ⟨e', he', hk⟩
          · simp only [hk]
            omega
          · exact hk ▸ hhead e' he'

/-- A key before all others is not in the map. -/
theorem lookup_eq_none_of_lt {k : Int} {tasks : List (Int × List Nat)}
    (h : ∀ e ∈ tasks, k < e.1) : tasks.lookup k = none :=
  List.lookup_eq_none_iff.mpr fun e he => by
    have hlt := h e he
    simpa using hlt.ne

theorem lookup_pushBack {stamp : Int} {idx : Nat} {tasks : List (Int × List Nat)}
    (h : Ascending tasks) (k : Int) :
    (pushBack stamp idx tasks).lookup k =
      if k = stamp then some ((tasks.lookup stamp).getD [] ++ [idx]) else tasks.lookup k := by
  induction tasks with
  | nil => simp [pushBack, List.lookup_cons]; split <;> simp_all
  | cons head rest ih =>
      obtain ⟨key, vec⟩ := head
      obtain ⟨hhead, hrest⟩ := List.pairwise_cons.mp h
      simp only [pushBack]
      split
      case isTrue hlt =>
        have hnone : ((key, vec) :: rest).lookup stamp = none :=
          lookup_eq_none_of_lt fun e he => by
            rcases List.mem_cons.mp he with rfl | he
            · exact hlt
            · exact hlt.trans (hhead e he)
        rw [hnone, List.lookup_cons]
        grind
      case isFalse hge =>
        split
        case isTrue heq =>
          subst heq
          simp only [List.lookup_cons]
          grind
        case isFalse hne =>
          simp only [List.lookup_cons, ih hrest]
          grind

/-- The stamps a loop from `stamp` visits: `stamp` itself, and those from the next one on. -/
theorem visits_iff {lcm gcd stamp k : Int} (hg : 0 < gcd) (hlt : stamp < lcm) :
    (stamp ≤ k ∧ k < lcm) ∧ gcd ∣ k - stamp ↔
      k = stamp ∨ (stamp + gcd ≤ k ∧ k < lcm) ∧ gcd ∣ k - (stamp + gcd) := by
  have hshift : gcd ∣ k - (stamp + gcd) ↔ gcd ∣ k - stamp := by
    rw [← sub_sub]
    exact dvd_sub_left dvd_rfl
  rw [hshift]
  constructor
  · rintro ⟨⟨hle, hk⟩, hdvd⟩
    by_cases heq : k = stamp
    · exact .inl heq
    · have := Int.le_of_dvd (by omega) hdvd
      exact .inr ⟨⟨by omega, hk⟩, hdvd⟩
  · rintro (rfl | ⟨⟨hle, hk⟩, hdvd⟩)
    · exact ⟨⟨le_rfl, hlt⟩, by simp⟩
    · exact ⟨⟨by omega, hk⟩, hdvd⟩

/-- By induction on the stamps that are left: from `stamp` on, each multiple of the interval gets
the task. -/
theorem stampLoop_spec {lcm gcd interval : Int} {idx : Nat} (hg : 0 < gcd) {stamp : Int}
    {tasks : List (Int × List Nat)} (h : Ascending tasks) :
    Ascending (stampLoop lcm gcd interval idx stamp tasks) ∧
      ∀ k, (stampLoop lcm gcd interval idx stamp tasks).lookup k =
        if ((stamp ≤ k ∧ k < lcm) ∧ gcd ∣ k - stamp) ∧ interval ∣ k then
          some ((tasks.lookup k).getD [] ++ [idx])
        else tasks.lookup k := by
  induction stamp, tasks using stampLoop.induct lcm gcd interval idx with
  | case1 stamp tasks hlt ih =>
      rw [stampLoop, dif_pos hlt]
      simp only [dite_eq_ite] at ih
      have hasc : Ascending (if stamp.tmod interval = 0 then pushBack stamp idx tasks
          else tasks) := by
        split
        · exact pushBack_ascending h
        · exact h
      obtain ⟨hasc', hlookup⟩ := ih hasc
      refine ⟨hasc', fun k => ?_⟩
      simp only [hlookup, visits_iff hg hlt.1]
      by_cases hk : k = stamp
      · -- `stamp` is done in this round, and no later round comes back to it
        have hlater : ¬ (((stamp + gcd ≤ k ∧ k < lcm) ∧ gcd ∣ k - (stamp + gcd)) ∧
            interval ∣ k) := by omega
        rw [if_neg hlater]
        subst hk
        by_cases hdvd : interval ∣ k
        · rw [if_pos (Int.tmod_eq_zero_of_dvd hdvd), lookup_pushBack h, if_pos rfl,
            if_pos ⟨.inl rfl, hdvd⟩]
        · rw [if_neg (fun hmod => hdvd (Int.dvd_of_tmod_eq_zero hmod)),
            if_neg (fun hand => hdvd hand.2)]
      · have hsame : (if stamp.tmod interval = 0 then pushBack stamp idx tasks
            else tasks).lookup k = tasks.lookup k := by
          split
          · rw [lookup_pushBack h, if_neg hk]
          · rfl
        rw [hsame]
        simp only [hk, false_or]
  | case2 stamp tasks hge =>
      rw [stampLoop, dif_neg hge]
      refine ⟨h, fun k => ?_⟩
      rw [if_neg (by omega)]

/-! ## The table of a period

`Laid` describes the table after some of the tasks: each key has the tasks that are due there, in
the order of the heap. -/

/-- The interval of the `i`-th task. -/
def intervalAt (timerTasks : List TimerTask) (i : Nat) : Int :=
  timerTasks[i]?.elim 0 TimerTask.interval

/-- Of the tasks `order`, those due at `k`. -/
def dueAt (timerTasks : List TimerTask) (k : Int) (order : List Nat) : List Nat :=
  order.filter fun i => intervalAt timerTasks i ∣ k

/-- The tasks `done` are laid out over the period `lcm`. -/
structure Laid (timerTasks : List TimerTask) (lcm : Int) (done : List Nat) (sch : TimedScheduler) :
    Prop where
  interval : sch.interval = lcm
  handlers : sch.timerHandlers = done
  ascending : Ascending sch.tasks
  inside : ∀ k vec, sch.tasks.lookup k = some vec → (0 ≤ k ∧ k < lcm) ∧ vec ≠ []
  entry : ∀ k, 0 ≤ k → k < lcm →
    ((sch.tasks.lookup k).getD []).map (fun idx => done[idx]?) =
      (dueAt timerTasks k done).map some

/-- Indices into `done` are not disturbed by what is pushed behind. -/
theorem map_getElem?_append {done vec due : List Nat} (i : Nat)
    (h : vec.map (fun idx => done[idx]?) = due.map some) :
    vec.map (fun idx => (done ++ [i])[idx]?) = due.map some := by
  rw [← h]
  refine List.map_congr_left fun idx hidx => ?_
  have hmem : done[idx]? ∈ due.map some := h ▸ List.mem_map_of_mem hidx
  obtain ⟨j, -, hj⟩ := List.mem_map.mp hmem
  obtain ⟨hlt, -⟩ := List.getElem?_eq_some_iff.mp hj.symm
  exact List.getElem?_append_left hlt

theorem Laid.addTimer {timerTasks : List TimerTask} {lcm gcd : Int} {done : List Nat}
    {sch : TimedScheduler} (hl : Laid timerTasks lcm done sch) (hg : 0 < gcd) {i : Nat}
    {task : TimerTask} (hi : timerTasks[i]? = some task) (hdvd : gcd ∣ task.interval) :
    ∃ sch', addTimer timerTasks lcm gcd sch i = some sch' ∧
      Laid timerTasks lcm (done ++ [i]) sch' := by
  obtain ⟨hasc, hlookup⟩ := @stampLoop_spec lcm gcd task.interval
    sch.timerHandlers.length hg 0 sch.tasks hl.ascending
  have hint : intervalAt timerTasks i = task.interval := by simp [intervalAt, hi]
  -- a multiple of the interval is one of `gcd`, so the loop visits it
  have hlookup' : ∀ k, (stampLoop lcm gcd task.interval sch.timerHandlers.length 0
      sch.tasks).lookup k =
        if (0 ≤ k ∧ k < lcm) ∧ task.interval ∣ k then
          some ((sch.tasks.lookup k).getD [] ++ [done.length])
        else sch.tasks.lookup k := by
    intro k
    rw [hlookup, hl.handlers]
    by_cases hk : task.interval ∣ k
    · simp [hk, hdvd.trans hk]
    · simp [hk]
  refine ⟨{ sch with
      timerHandlers := sch.timerHandlers ++ [i]
      tasks := stampLoop lcm gcd task.interval sch.timerHandlers.length 0 sch.tasks },
    by simp [Cppev.addTimer, hi], hl.interval, by rw [hl.handlers], hasc, ?_, ?_⟩
  · intro k vec
    rw [hlookup']
    split
    case isTrue hc =>
      intro h
      cases h
      exact ⟨hc.1, by simp⟩
    case isFalse => exact hl.inside k vec
  · intro k h0 h1
    have hold := map_getElem?_append i (hl.entry k h0 h1)
    simp only [hlookup', h0, h1, and_self, true_and]
    by_cases hk : task.interval ∣ k
    · simp [hk, dueAt, hint, List.filter_append] at hold ⊢
      simpa using hold
    · simp [hk, dueAt, hint, List.filter_append] at hold ⊢
      simpa using hold

theorem Laid.foldlM {timerTasks : List TimerTask} {lcm gcd : Int} (hg : 0 < gcd)
    (hdvd : ∀ task ∈ timerTasks, gcd ∣ task.interval) {order : List Nat}
    (horder : ∀ i ∈ order, i < timerTasks.length) {done : List Nat} {sch : TimedScheduler}
    (hl : Laid timerTasks lcm done sch) :
    ∃ sch', order.foldlM (Cppev.addTimer timerTasks lcm gcd) sch = some sch' ∧
      Laid timerTasks lcm (done ++ order) sch' := by
  induction order generalizing done sch with
  | nil => exact ⟨sch, rfl, by simpa using hl⟩
  | cons i order ih =>
      simp only [List.mem_cons, forall_eq_or_imp] at horder
      have hi : timerTasks[i]? = some timerTasks[i] := List.getElem?_eq_getElem horder.1
      obtain ⟨sch₁, h₁, hl₁⟩ := hl.addTimer hg hi (hdvd _ (List.getElem_mem horder.1))
      obtain ⟨sch', h', hl'⟩ := ih horder.2 hl₁
      refine ⟨sch', ?_, by simpa using hl'⟩
      rw [List.foldlM_cons, h₁]
      exact h'

/-- The least common multiple of the intervals. -/
def period (timerTasks : List TimerTask) : Int := lcmOf (timerTasks.map TimerTask.interval)

/-- The constructor succeeds and lays every task out over the period. -/
theorem timedScheduler_spec {timerTasks : List TimerTask} {order : List Nat}
    (hne : timerTasks ≠ []) (hpos : ∀ task ∈ timerTasks, 0 < task.interval)
    (hfit : period timerTasks ≤ INT64_MAX) (horder : PopOrder timerTasks order) :
    ∃ sch, timedScheduler timerTasks order = some sch ∧
      Laid timerTasks (period timerTasks) order sch := by
  have hmem : ∀ i ∈ order, i < timerTasks.length := fun i hi =>
    List.mem_range.mp (horder.perm.mem_iff.mp hi)
  have hempty : Laid timerTasks (period timerTasks) [] ⟨period timerTasks, [], []⟩ :=
    ⟨rfl, rfl, List.Pairwise.nil, fun _ _ h => (nomatch h), fun _ _ _ => rfl⟩
  have hpos' : ∀ x ∈ timerTasks.map TimerTask.interval, 0 < x := by simpa using hpos
  match timerTasks, hne with
  | [task], _ =>
    have hperiod : period [task] = task.interval := by
      have := hpos task (by simp)
      simp [period, lcmOf, Int.one_lcm, Int.natAbs_of_nonneg this.le]
    rw [hperiod] at hempty ⊢
    exact hempty.foldlM (hpos task (by simp)) (by simp) hmem
  | first :: second :: rest, _ =>
    have hlcm := leastCommonMultiples_spec (by simp) hpos' hfit
    obtain ⟨g, hgcd, hg, hdvd⟩ := greatestCommonDivisors_spec (by simp) hpos'
    obtain ⟨sch, hsch, hlaid⟩ := hempty.foldlM hg (by simpa using hdvd) hmem
    refine ⟨sch, ?_, hlaid⟩
    simp only [timedScheduler, List.map_cons] at hlcm hgcd ⊢
    simp only [List.cons_ne_nil, if_false, hlcm, hgcd, Option.bind_eq_bind, Option.bind_some]
    exact hsch

end Cppev
