import Cppev.Lib.Drain
import Cppev.Scheduler.TimeLine

/-!
# The table that the constructor leaves

The heap compares nothing but the priority. Each `top` and `pop` gives back an index of the greatest
priority there is, whichever of them (`Pops`); the handlers are numbered in this order, and at every
stamp they are listed in it.

* `timedScheduler_ordered`: the order of the handlers at the stamps, whatever the intervals are.
* `period_iff`: the constructor gets the period right, and leaves a table that is not empty, if and
  only if the least common multiple of the intervals fits into 64 bits.
-/

namespace Cppev

variable {timerTasks : List TimerTask} {order : List Nat} {sch : TimedScheduler}

/-! ## The heap

`std::priority_queue` with a comparison of priorities leaves open which of several greatest elements
comes first. Everything is shown for every order that it may give. -/

/-- What comes out of a heap until it is empty. -/
inductive Pops (timerTasks : List TimerTask) : List Nat → List Nat → Prop
  | nil : Pops timerTasks [] []
  | pop {heap order : List Nat} {k i : Nat} (hget : heap[k]? = some i)
      (hmax : ∀ j ∈ heap, priorityAt timerTasks j ≤ priorityAt timerTasks i)
      (h : Pops timerTasks (heap.eraseIdx k) order) : Pops timerTasks heap (i :: order)

theorem Pops.draining {heap due out : List Nat} (h : Pops timerTasks heap order)
    (hd : Draining (priorityAt timerTasks) due out heap) :
    Draining (priorityAt timerTasks) due (out ++ order) [] := by
  induction h generalizing out with
  | nil => simpa using hd
  | @pop heap order k i hget hmax h ih =>
      have hrest := ih (hd.pop hget hmax)
      rwa [List.append_assoc, List.singleton_append] at hrest

theorem Pops.popOrder (h : Pops timerTasks (List.range timerTasks.length) order) :
    PopOrder timerTasks order := by
  have hfilled := (Draining.start (priorityAt timerTasks)).fill (List.range timerTasks.length)
  have hdrained := h.draining hfilled
  exact ⟨hdrained.perm_of_empty, hdrained.sorted⟩

/-! ## The order at the stamps

Handlers are numbered in the order in which they come off the heap, and each stamp lists them in the
same order. -/

/-- The tasks that an entry of `tasks_` names. -/
def TimedScheduler.named (sch : TimedScheduler) (vec : List Nat) : Option (List Nat) :=
  vec.mapM fun idx => sch.timerHandlers[idx]?

/-- What the constructor leaves, as far as the order goes. -/
structure Ordered (timerTasks : List TimerTask) (sch : TimedScheduler) : Prop where
  handlers : sch.timerHandlers.Perm (List.range timerTasks.length)
  descending : ∀ e ∈ sch.tasks, ∃ names, sch.named e.2 = some names ∧
    names.Pairwise fun i j => priorityAt timerTasks j ≤ priorityAt timerTasks i
  once : ∀ e ∈ sch.tasks, ∃ names, sch.named e.2 = some names ∧ names.Nodup ∧
    ∀ i, i ∈ names ↔ ∃ task, timerTasks[i]? = some task ∧ task.interval ∣ e.1
  /-- Two tasks that come in one order at a stamp come in it at all others. -/
  relative : ∀ e ∈ sch.tasks, ∀ e' ∈ sch.tasks, ∃ names names',
    sch.named e.2 = some names ∧ sch.named e'.2 = some names' ∧
      ∀ i j, i ∈ names' → j ∈ names' → [i, j].Sublist names → [i, j].Sublist names'

/-- A pair that comes in one order in a part of a list comes in it in every other part. -/
theorem pair_filter {α : Type} {l : List α} {p q : α → Bool} {i j : α} (hi : i ∈ l.filter q)
    (hj : j ∈ l.filter q) (h : [i, j].Sublist (l.filter p)) : [i, j].Sublist (l.filter q) := by
  have hl : [i, j].Sublist l := h.trans List.filter_sublist
  have hpair : [i, j].filter q = [i, j] := by
    rw [List.filter_eq_self]
    intro x hx
    rcases List.mem_cons.mp hx with rfl | hx
    · exact (List.mem_filter.mp hi).2
    · obtain rfl := List.mem_singleton.mp hx
      exact (List.mem_filter.mp hj).2
  rw [← hpair]
  exact hl.filter q

theorem Laid.named {lcm : Int} (hl : Laid timerTasks lcm order sch) {e : Int × List Nat}
    (he : e ∈ sch.tasks) : sch.named e.2 = some (dueAt timerTasks e.1 order) :=
  mapM_of_map (hl.map_entry he)

theorem Laid.ordered {lcm : Int} (hl : Laid timerTasks lcm order sch)
    (horder : PopOrder timerTasks order) : Ordered timerTasks sch := by
  refine ⟨?_, fun e he => ⟨_, hl.named he, ?_⟩, fun e he => ⟨_, hl.named he, ?_, fun i => ?_⟩, ?_⟩
  · rw [hl.handlers]
    exact horder.perm
  · exact horder.descending.filter _
  · exact (horder.perm.nodup_iff.mpr List.nodup_range).filter _
  · rw [dueAt, List.mem_filter, horder.perm.mem_iff, List.mem_range, decide_eq_true_eq, intervalAt]
    constructor
    · rintro ⟨hi, hdvd⟩
      have hget : timerTasks[i]? = some timerTasks[i] := List.getElem?_eq_getElem hi
      rw [hget] at hdvd
      exact ⟨_, hget, hdvd⟩
    · rintro ⟨task, hget, hdvd⟩
      rw [hget]
      exact ⟨(List.getElem?_eq_some_iff.mp hget).1, hdvd⟩
  · intro e he e' he'
    refine ⟨_, _, hl.named he, hl.named he', ?_⟩
    intro i j hi hj h
    exact pair_filter hi hj h

/-! ## Any intervals

Whatever the intervals are, the constructor lays out some table or none; the order holds in each. -/

theorem gcdLoop_dvd (p r : Int) : gcdLoop p r ∣ p ∧ gcdLoop p r ∣ r := by
  induction p, r using gcdLoop.induct with
  | case1 p =>
      rw [gcdLoop]
      simp
  | case2 p r hr ih =>
      rw [gcdLoop, dif_neg hr]
      have hp : gcdLoop r (p.tmod r) ∣ r * p.tdiv r + p.tmod r := dvd_add (ih.1.mul_right _) ih.2
      rw [Int.mul_tdiv_add_tmod] at hp
      exact ⟨hp, ih.1⟩

theorem greatestCommonDivisor_dvd {p r g : Int} (h : greatestCommonDivisor p r = some g) :
    g ∣ p ∧ g ∣ r := by
  unfold greatestCommonDivisor at h
  split at h
  case isTrue =>
    obtain rfl := Option.some.inj h
    exact gcdLoop_dvd p r
  case isFalse => cases h

theorem foldlM_greatestCommonDivisor_dvd {nums : List Int} {m g : Int}
    (h : nums.foldlM greatestCommonDivisor m = some g) : g ∣ m ∧ ∀ x ∈ nums, g ∣ x := by
  induction nums generalizing m with
  | nil =>
      obtain rfl := Option.some.inj h
      exact ⟨dvd_rfl, by simp⟩
  | cons x nums ih =>
      rw [List.foldlM_cons] at h
      obtain ⟨d, hd, hrest⟩ := Option.bind_eq_some_iff.mp h
      obtain ⟨hdm, hdx⟩ := greatestCommonDivisor_dvd hd
      obtain ⟨hgd, hall⟩ := ih hrest
      exact ⟨hgd.trans hdm, List.forall_mem_cons.mpr ⟨hgd.trans hdx, hall⟩⟩

/-- Without a positive step the loop over the stamps is not entered. -/
theorem stampLoop_of_nonpos {lcm gcd interval : Int} (hg : ¬ 0 < gcd) (idx : Nat) (stamp : Int)
    (tasks : List (Int × List Nat)) : stampLoop lcm gcd interval idx stamp tasks = tasks := by
  rw [stampLoop, dif_neg fun h => hg h.2]

theorem foldlM_addTimer_of_nonpos {lcm gcd : Int} (hg : ¬ 0 < gcd) {sch sch' : TimedScheduler}
    (h : order.foldlM (addTimer timerTasks lcm gcd) sch = some sch') :
    sch'.tasks = sch.tasks ∧ sch'.timerHandlers = sch.timerHandlers ++ order := by
  induction order generalizing sch with
  | nil =>
      obtain rfl := Option.some.inj h
      exact ⟨rfl, (List.append_nil _).symm⟩
  | cons i order ih =>
      rw [List.foldlM_cons] at h
      obtain ⟨next, hnext, hrest⟩ := Option.bind_eq_some_iff.mp h
      obtain ⟨task, -, htask⟩ := Option.bind_eq_some_iff.mp hnext
      obtain rfl := Option.some.inj htask
      obtain ⟨htasks, hhandlers⟩ := ih hrest
      refine ⟨htasks.trans (stampLoop_of_nonpos hg _ _ _), ?_⟩
      rw [hhandlers, List.append_assoc, List.singleton_append]

/-- The constructor, from the period and the step on. -/
theorem timedScheduler_cases (h : timedScheduler timerTasks order = some sch) :
    ∃ lcm gcd, (∀ task ∈ timerTasks, gcd ∣ task.interval) ∧
      ((∃ task, timerTasks = [task] ∧ lcm = task.interval) ∨
        leastCommonMultiples (timerTasks.map TimerTask.interval) = some lcm) ∧
      order.foldlM (addTimer timerTasks lcm gcd) ⟨lcm, [], []⟩ = some sch := by
  unfold timedScheduler at h
  split at h
  case h_1 => cases h
  case h_2 first rest hints =>
    have hall : ∀ {gcd : Int}, (∀ x ∈ first :: rest, gcd ∣ x) →
        ∀ task ∈ timerTasks, gcd ∣ task.interval := by
      intro gcd hdvd task htask
      apply hdvd
      rw [← hints]
      exact List.mem_map_of_mem htask
    cases rest with
    | nil =>
        simp only [if_true, Option.bind_eq_bind, Option.bind_some] at h
        obtain ⟨task, rfl, rfl⟩ := List.map_eq_singleton_iff.mp hints
        exact ⟨_, _, hall (by simp), Or.inl ⟨task, rfl, rfl⟩, h⟩
    | cons second rest =>
        simp only [List.cons_ne_nil, if_false, Option.bind_eq_bind] at h
        obtain ⟨lcm, hlcm, h⟩ := Option.bind_eq_some_iff.mp h
        obtain ⟨gcd, hgcd, hfold⟩ := Option.bind_eq_some_iff.mp h
        obtain ⟨hfirst, hrest⟩ := foldlM_greatestCommonDivisor_dvd hgcd
        rw [hints]
        exact ⟨lcm, gcd, hall (List.forall_mem_cons.mpr ⟨hfirst, hrest⟩), Or.inr hlcm, hfold⟩

/-- **The order of the handlers.** Whatever the intervals, the priorities and the heap. -/
theorem timedScheduler_ordered (hpops : Pops timerTasks (List.range timerTasks.length) order)
    (h : timedScheduler timerTasks order = some sch) : Ordered timerTasks sch := by
  have horder := hpops.popOrder
  have hmem : ∀ i ∈ order, i < timerTasks.length := fun i hi =>
    List.mem_range.mp (horder.perm.mem_iff.mp hi)
  obtain ⟨lcm, gcd, hdvd, -, hfold⟩ := timedScheduler_cases h
  by_cases hg : 0 < gcd
  · have hempty : Laid timerTasks lcm [] ⟨lcm, [], []⟩ :=
      ⟨rfl, rfl, List.Pairwise.nil, fun _ _ h => (nomatch h), fun _ _ _ => rfl⟩
    obtain ⟨sch', hsch', hlaid⟩ := hempty.foldlM hg hdvd hmem
    rw [hfold] at hsch'
    obtain rfl := Option.some.inj hsch'
    exact hlaid.ordered horder
  · -- no stamp at all
    obtain ⟨htasks, hhandlers⟩ := foldlM_addTimer_of_nonpos hg hfold
    refine ⟨?_, ?_, ?_, ?_⟩
    · rw [hhandlers]
      exact horder.perm
    all_goals
      intro e he
      rw [htasks] at he
      cases he

/-- Three tasks, two of them of the same priority. -/
def threeTasks : List TimerTask := [⟨2, .p1⟩, ⟨3, .p0⟩, ⟨4, .p1⟩]

theorem pops_three : Pops threeTasks (List.range threeTasks.length) [1, 2, 0] := by
  refine .pop (k := 1) rfl (by decide) (.pop (k := 1) rfl (by decide) ?_)
  exact .pop (k := 0) rfl (by decide) .nil

theorem timedScheduler_ordered_three :
    ∃ sch, timedScheduler threeTasks [1, 2, 0] = some sch ∧ Ordered threeTasks sch := by
  have hsch : timedScheduler threeTasks [1, 2, 0] = some ⟨12, [1, 2, 0],
      [(0, [0, 1, 2]), (2, [2]), (3, [0]), (4, [1, 2]), (6, [0, 2]), (8, [1, 2]), (9, [0]),
        (10, [2])]⟩ := by decide +kernel
  exact ⟨_, hsch, timedScheduler_ordered pops_three hsch⟩

/-! ## The period

With positive intervals the step of the loop is their greatest common divisor, so that every
multiple is visited, and the period is their least common multiple if that is in range. -/

/-- What the constructor has to leave. -/
structure PeriodRight (timerTasks : List TimerTask) (sch : TimedScheduler) : Prop where
  multiple : ∀ task ∈ timerTasks, task.interval ∣ sch.interval
  least : ∀ m, (∀ task ∈ timerTasks, task.interval ∣ m) → sch.interval ∣ m
  positive : 0 < sch.interval
  /-- Every task is listed at the beginning of the period. -/
  zero : ∃ vec names, sch.tasks.lookup 0 = some vec ∧ sch.named vec = some names ∧
    names.Perm (List.range timerTasks.length)

/-- A table that the constructor leaves has the right period, which is in range. -/
theorem period_of_timedScheduler (hpos : ∀ task ∈ timerTasks, 0 < task.interval)
    (hmax : ∀ task ∈ timerTasks, task.interval ≤ INT64_MAX)
    (h : timedScheduler timerTasks order = some sch) : period timerTasks ≤ INT64_MAX := by
  obtain ⟨lcm, -, -, hlcm, -⟩ := timedScheduler_cases h
  rcases hlcm with ⟨task, rfl, -⟩ | hlcm
  · have hone := hpos task List.mem_cons_self
    have hperiod : period [task] = task.interval := by
      simp [period, lcmOf, Int.one_lcm, Int.natAbs_of_nonneg hone.le]
    rw [hperiod]
    exact hmax task List.mem_cons_self
  · have hpos' : ∀ x ∈ timerTasks.map TimerTask.interval, 0 < x := by simpa using hpos
    have hmax' : ∀ x ∈ timerTasks.map TimerTask.interval, x ≤ INT64_MAX := by simpa using hmax
    rw [period]
    rcases hmap : timerTasks.map TimerTask.interval with _ | ⟨first, _ | ⟨second, rest⟩⟩ <;>
      rw [hmap] at hlcm hpos' hmax'
    case nil => cases hlcm
    case cons.nil => cases hlcm
    case cons.cons =>
      have hfirst : 0 < first := hpos' first (by simp)
      obtain ⟨hvalue, hle⟩ := eq_of_foldlM_leastCommonMultiple
        (fun x hx => hpos' x (List.mem_cons_of_mem _ hx)) hfirst (hmax' first (by simp)) hlcm
      rw [lcmOf_cons hfirst.le, ← hvalue]
      exact hle

theorem Laid.periodRight (hpos : ∀ task ∈ timerTasks, 0 < task.interval) (hne : timerTasks ≠ [])
    (horder : PopOrder timerTasks order) (hl : Laid timerTasks (period timerTasks) order sch) :
    PeriodRight timerTasks sch := by
  have hperiod : 0 < period timerTasks := lcmOf_pos (by simpa using hpos)
  refine ⟨?_, ?_, ?_, ?_⟩
  · intro task htask
    rw [hl.interval]
    exact dvd_lcmOf (List.mem_map_of_mem htask)
  · intro m hm
    rw [hl.interval]
    exact lcmOf_dvd (by simpa using hm)
  · rw [hl.interval]
    exact hperiod
  · -- at 0, every task is due
    have hnil : order ≠ [] := by
      intro hnil
      have hlen := horder.perm.length_eq
      rw [hnil, List.length_range, List.length_nil] at hlen
      exact hne (List.length_eq_zero_iff.mp hlen.symm)
    obtain ⟨i, hi⟩ := List.exists_mem_of_ne_nil _ hnil
    obtain ⟨vec, hvec⟩ := hl.entry_of_due le_rfl hperiod hi (dvd_zero _)
    have hall : dueAt timerTasks 0 order = order := by simp [dueAt]
    refine ⟨vec, order, lookup_of_mem hl.ascending hvec, ?_, horder.perm⟩
    have hnamed := hl.named hvec
    rwa [hall] at hnamed

/-- **When the constructor lays out the right period.** -/
theorem period_iff (hne : timerTasks ≠ [])
    (hinterval : ∀ task ∈ timerTasks, 1 ≤ task.interval ∧ task.interval ≤ INT64_MAX)
    (hpops : Pops timerTasks (List.range timerTasks.length) order) :
    (∃ sch, timedScheduler timerTasks order = some sch ∧ PeriodRight timerTasks sch) ↔
      period timerTasks ≤ INT64_MAX := by
  have hpos : ∀ task ∈ timerTasks, 0 < task.interval := fun task htask => (hinterval task htask).1
  constructor
  · rintro ⟨sch, hsch, -⟩
    exact period_of_timedScheduler hpos (fun task htask => (hinterval task htask).2) hsch
  · intro hfit
    obtain ⟨sch, hsch, hlaid⟩ := timedScheduler_spec hne hpos hfit hpops.popOrder
    exact ⟨sch, hsch, hlaid.periodRight hpos hne hpops.popOrder⟩

theorem period_iff_three :
    (∃ sch, timedScheduler threeTasks [1, 2, 0] = some sch ∧ PeriodRight threeTasks sch) ↔
      period threeTasks ≤ INT64_MAX :=
  period_iff (by decide) (by decide) pops_three

/-- 24, 60 and 144 times a second: the intervals are nearly coprime. -/
def frameRates : List TimerTask := [⟨41666666, .p0⟩, ⟨16666666, .p0⟩, ⟨6944444, .p0⟩]

theorem period_overflows :
    period frameRates = 1205632571373461882716 ∧
      ∀ order, timedScheduler frameRates order = none := by
  refine ⟨by decide +kernel, fun order => ?_⟩
  cases h : timedScheduler frameRates order with
  | none => rfl
  | some sch =>
      have hle : period frameRates ≤ INT64_MAX :=
        period_of_timedScheduler (by decide) (by decide) h
      have hgt : ¬ period frameRates ≤ INT64_MAX := by decide +kernel
      exact absurd hle hgt

end Cppev
