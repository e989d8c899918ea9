import Cppev.Scheduler.TimeLine

/-!
# The thread of a timed scheduler

The thread of a `timed_scheduler` from its first to its last task, call by call, with the clock that
it waits for, and the destructor that stops it. A task takes as long as it likes: the clock may go
on between any two steps.

* `advance_sound`: what a step of the thread can do.
* `Done.advance`, `Punctual.advance`, `Stopping.advance`: the order of the calls; none is early; and
  what `stop_` leads to.
* `Placed.advance`: the thread stays in the table that the constructor has made.
-/

namespace Cppev

/-! ## The thread -/

/-- `ceil_time_point`, in nanoseconds. -/
def ceilTimePoint (stamp : Int) : Int := (stamp.tdiv 1000000000 + 1) * 1000000000

/-- The next whole second comes after the stamp. -/
theorem lt_ceilTimePoint (stamp : Int) : stamp < ceilTimePoint stamp := by
  unfold ceilTimePoint
  have hmod := Int.mul_tdiv_add_tmod stamp 1000000000
  have hlt := Int.tmod_lt_of_pos stamp (show (0 : Int) < 1000000000 by decide)
  omega

/-- What is kept of the history: the calls of the tasks, by their index, with the clock for those
that are timed; and of the destructor that it sets `stop_`. -/
inductive SchedulerEvent where
  | init (i : Nat)
  | timer (i : Nat) (stamp clock : Int)
  | exit (i : Nat)
  | stopped
  deriving DecidableEq, Repr

/-- Where the thread is. -/
inductive SchedulerPc where
  | init (rest : List Nat)
  /-- At `Clock::now()`, and in the first `sleep_until`. -/
  | now
  | align
  /-- At the tests of `stop_`. -/
  | outer
  | inner (iter : List (Int × List Nat))
  /-- In the loop over `curr->second`, and in the `sleep_until` after it. -/
  | calling (idxs : List Nat) (span : Int) (next : List (Int × List Nat))
  | sleeping (next : List (Int × List Nat))
  | exit (rest : List Nat)
  | ended
  deriving DecidableEq, Repr

/-- Where the destructor is. -/
inductive DestructorAt where
  | notCalled
  /-- In `thr_.join()`. -/
  | joining
  | returned
  deriving DecidableEq, Repr

/-- The thread, the clock and the destructor, with the history of the calls. -/
structure SchedulerThread where
  pc : SchedulerPc
  tpCurr : Int
  tpNext : Int
  stop : Bool
  destructor : DestructorAt
  clock : Int
  trace : List SchedulerEvent
  deriving DecidableEq, Repr

/-- Who takes a step. -/
inductive SchedulerLabel where
  /-- The thread takes its next step. -/
  | thread
  /-- The destructor sets `stop_`; `join` returns. -/
  | stop
  | join
  | tick (n : Nat)
  deriving DecidableEq, Repr

namespace SchedulerThread

/-! ### The machine

A step of the thread is one of its statements; the clock goes on in steps of its own, and the owner
stops the thread in between. -/

/-- The thread has been created. -/
def start (initTasks : Nat) (clock : Int) : SchedulerThread :=
  ⟨.init (List.range initTasks), 0, 0, false, .notCalled, clock, []⟩

section

variable (sch : TimedScheduler) (exitTasks : Nat) (align : Bool)

/-- The next step of the thread; `none` while it sleeps, and where it reads past the end of
`timer_handlers_`. Time points wrap around beyond 64 bits. -/
def advance (s : SchedulerThread) : Option SchedulerThread :=
  match s.pc with
  | .init [] => some { s with pc := .now }
  | .init (i :: rest) => some { s with pc := .init rest, trace := s.trace ++ [.init i] }
  | .now =>
    if align then some { s with pc := .align, tpCurr := toInt64 (ceilTimePoint s.clock) }
    else some { s with pc := .outer, tpCurr := s.clock }
  | .align => if s.tpCurr ≤ s.clock then some { s with pc := .outer } else none
  | .outer =>
    some { s with pc := if s.stop then .exit (List.range exitTasks) else .inner sch.tasks }
  | .inner iter =>
    if s.stop then some { s with pc := .outer }
    else
      match iter with
      | [] => some { s with pc := .outer }
      | curr :: next => some { s with pc := .calling curr.2 (sch.span curr next) next }
  | .calling [] span next =>
    some { s with pc := .sleeping next, tpNext := toInt64 (s.tpCurr + span) }
  | .calling (idx :: idxs) span next => do
    let i ← sch.timerHandlers[idx]?
    some { s with
      pc := .calling idxs span next
      trace := s.trace ++ [.timer i s.tpCurr s.clock] }
  | .sleeping next =>
    if s.tpNext ≤ s.clock then some { s with pc := .inner next, tpCurr := s.tpNext } else none
  | .exit [] => some { s with pc := .ended }
  | .exit (i :: rest) => some { s with pc := .exit rest, trace := s.trace ++ [.exit i] }
  | .ended => none

def step (s : SchedulerThread) : SchedulerLabel → Option SchedulerThread
  | .thread => s.advance sch exitTasks align
  | .stop =>
    if s.destructor = .notCalled then
      some { s with stop := true, destructor := .joining, trace := s.trace ++ [.stopped] }
    else none
  | .join =>
    if s.destructor = .joining ∧ s.pc = .ended then some { s with destructor := .returned }
    else none
  | .tick n => some { s with clock := s.clock + n }

/-- The time point that the step makes is a 64-bit one, if it makes one. -/
def InInt64 (s : SchedulerThread) : SchedulerLabel → Prop
  | .thread =>
    match s.pc with
    | .now => align = true → ceilTimePoint s.clock ≤ INT64_MAX
    | .calling [] span _ => s.tpCurr + span ≤ INT64_MAX
    | _ => True
  | .stop | .join | .tick _ => True

instance (s : SchedulerThread) (l : SchedulerLabel) : Decidable (s.InInt64 align l) := by
  unfold InInt64
  split
  case h_1 => split <;> infer_instance
  all_goals infer_instance

end

/-! ## The order of the calls

The history without `stopped` is a prefix of init tasks, timed tasks and exit tasks; how far it has
come is read off the place of the thread (`Done`). -/

/-- What the thread has done. -/
def works (tr : List SchedulerEvent) : List SchedulerEvent := tr.filter fun e => e ≠ .stopped

@[simp] theorem works_append (tr tr' : List SchedulerEvent) :
    works (tr ++ tr') = works tr ++ works tr' := List.filter_append ..

@[simp] theorem works_singleton {e : SchedulerEvent} (he : e ≠ .stopped) : works [e] = [e] := by
  simp [works, he]

@[simp] theorem works_stopped : works [.stopped] = [] := rfl

/-- Calls of timed tasks. -/
def Timed (evs : List SchedulerEvent) : Prop := ∀ e ∈ evs, ∃ i stamp clock, e = .timer i stamp clock

theorem timed_nil : Timed [] := fun _ he => absurd he List.not_mem_nil

theorem Timed.concat {evs : List SchedulerEvent} (h : Timed evs) (i : Nat) (stamp clock : Int) :
    Timed (evs ++ [.timer i stamp clock]) := by
  intro e he
  rcases List.mem_append.mp he with he | he
  · exact h e he
  · exact ⟨i, stamp, clock, List.mem_singleton.mp he⟩

/-- All the tasks that run once, with the timed ones between them. -/
def whole (initTasks exitTasks : Nat) (timed : List SchedulerEvent) : List SchedulerEvent :=
  (List.range initTasks).map .init ++ timed ++ (List.range exitTasks).map .exit

/-- What has been done, by where the thread is. -/
def Done (initTasks exitTasks : Nat) (evs : List SchedulerEvent) : SchedulerPc → Prop
  | .init rest => ∃ before, List.range initTasks = before ++ rest ∧ evs = before.map .init
  | .exit rest => ∃ timed before, Timed timed ∧ List.range exitTasks = before ++ rest ∧
      evs = (List.range initTasks).map .init ++ timed ++ before.map .exit
  | .ended => ∃ timed, Timed timed ∧ evs = whole initTasks exitTasks timed
  | _ => ∃ timed, Timed timed ∧ evs = (List.range initTasks).map .init ++ timed

/-- At any place, a prefix of the whole. -/
theorem Done.whole {initTasks exitTasks : Nat} {evs : List SchedulerEvent} {pc : SchedulerPc}
    (h : Done initTasks exitTasks evs pc) :
    ∃ timed, Timed timed ∧ evs <+: whole initTasks exitTasks timed := by
  have hmid : ∀ timed, (List.range initTasks).map SchedulerEvent.init ++ timed <+:
      SchedulerThread.whole initTasks exitTasks timed := fun timed => List.prefix_append _ _
  cases pc with
  | init rest =>
      obtain ⟨before, hrange, rfl⟩ := h
      refine ⟨[], timed_nil, ?_⟩
      rw [SchedulerThread.whole, hrange, List.map_append, List.append_assoc, List.append_assoc]
      exact List.prefix_append _ _
  | exit rest =>
      obtain ⟨timed, before, htimed, hrange, rfl⟩ := h
      refine ⟨timed, htimed, ?_⟩
      rw [SchedulerThread.whole, hrange, List.map_append, ← List.append_assoc]
      exact List.prefix_append _ _
  | ended =>
      obtain ⟨timed, htimed, rfl⟩ := h
      exact ⟨timed, htimed, List.prefix_rfl⟩
  | _ =>
      obtain ⟨timed, htimed, rfl⟩ := h
      exact ⟨timed, htimed, hmid timed⟩

/-! ## What a step of the thread can do

`advance` as a relation, with what is read and what is written; the time points are left to
`Scheduler/Life`. -/

variable {sch : TimedScheduler} {exitTasks : Nat} {align : Bool}

/-- The statements of the thread. -/
inductive Advance (sch : TimedScheduler) (exitTasks : Nat) (align : Bool) (s : SchedulerThread) :
    SchedulerThread → Prop
  | initTask (i : Nat) (rest : List Nat) (hpc : s.pc = .init (i :: rest)) :
      Advance sch exitTasks align s { s with pc := .init rest, trace := s.trace ++ [.init i] }
  | initDone (hpc : s.pc = .init []) : Advance sch exitTasks align s { s with pc := .now }
  | ceil (hpc : s.pc = .now) (halign : align = true) :
      Advance sch exitTasks align s
        { s with pc := .align, tpCurr := toInt64 (ceilTimePoint s.clock) }
  | now (hpc : s.pc = .now) (halign : align = false) :
      Advance sch exitTasks align s { s with pc := .outer, tpCurr := s.clock }
  | aligned (hpc : s.pc = .align) (hclock : s.tpCurr ≤ s.clock) :
      Advance sch exitTasks align s { s with pc := .outer }
  | leave (hpc : s.pc = .outer) (hstop : s.stop = true) :
      Advance sch exitTasks align s { s with pc := .exit (List.range exitTasks) }
  | enter (hpc : s.pc = .outer) (hstop : s.stop = false) :
      Advance sch exitTasks align s { s with pc := .inner sch.tasks }
  | broken (iter : List (Int × List Nat)) (hpc : s.pc = .inner iter) (hstop : s.stop = true) :
      Advance sch exitTasks align s { s with pc := .outer }
  | period (hpc : s.pc = .inner []) (hstop : s.stop = false) :
      Advance sch exitTasks align s { s with pc := .outer }
  | round (curr : Int × List Nat) (next : List (Int × List Nat))
      (hpc : s.pc = .inner (curr :: next)) (hstop : s.stop = false) :
      Advance sch exitTasks align s
        { s with pc := .calling curr.2 (sch.span curr next) next }
  | call (idx : Nat) (idxs : List Nat) (span : Int) (next : List (Int × List Nat)) (i : Nat)
      (hpc : s.pc = .calling (idx :: idxs) span next) (hi : sch.timerHandlers[idx]? = some i) :
      Advance sch exitTasks align s
        { s with
          pc := .calling idxs span next
          trace := s.trace ++ [.timer i s.tpCurr s.clock] }
  | sleep (span : Int) (next : List (Int × List Nat)) (hpc : s.pc = .calling [] span next) :
      Advance sch exitTasks align s
        { s with pc := .sleeping next, tpNext := toInt64 (s.tpCurr + span) }
  | wake (next : List (Int × List Nat)) (hpc : s.pc = .sleeping next)
      (hclock : s.tpNext ≤ s.clock) :
      Advance sch exitTasks align s { s with pc := .inner next, tpCurr := s.tpNext }
  | exitTask (i : Nat) (rest : List Nat) (hpc : s.pc = .exit (i :: rest)) :
      Advance sch exitTasks align s { s with pc := .exit rest, trace := s.trace ++ [.exit i] }
  | exitDone (hpc : s.pc = .exit []) : Advance sch exitTasks align s { s with pc := .ended }

variable {s s' : SchedulerThread}

theorem advance_sound (h : s.advance sch exitTasks align = some s') :
    Advance sch exitTasks align s s' := by
  unfold advance at h
  split at h
  case h_1 hpc => exact Option.some.inj h ▸ .initDone hpc
  case h_2 i rest hpc => exact Option.some.inj h ▸ .initTask i rest hpc
  case h_3 hpc =>
    split at h
    case isTrue halign => exact Option.some.inj h ▸ .ceil hpc halign
    case isFalse halign => exact Option.some.inj h ▸ .now hpc (by simpa using halign)
  case h_4 hpc =>
    split at h
    case isTrue hclock => exact Option.some.inj h ▸ .aligned hpc hclock
    case isFalse => cases h
  case h_5 hpc =>
    by_cases hstop : s.stop = true
    · rw [if_pos hstop] at h
      exact Option.some.inj h ▸ .leave hpc hstop
    · rw [if_neg hstop] at h
      exact Option.some.inj h ▸ .enter hpc (by simpa using hstop)
  case h_6 iter hpc =>
    split at h
    case isTrue hstop => exact Option.some.inj h ▸ .broken iter hpc hstop
    case isFalse hstop =>
      have hstop : s.stop = false := by simpa using hstop
      cases iter with
      | nil => exact Option.some.inj h ▸ .period hpc hstop
      | cons curr next => exact Option.some.inj h ▸ .round curr next hpc hstop
  case h_7 span next hpc => exact Option.some.inj h ▸ .sleep span next hpc
  case h_8 idx idxs span next hpc =>
    obtain ⟨i, hi, h⟩ := Option.bind_eq_some_iff.mp h
    exact Option.some.inj h ▸ .call idx idxs span next i hpc hi
  case h_9 next hpc =>
    split at h
    case isTrue hclock => exact Option.some.inj h ▸ .wake next hpc hclock
    case isFalse => cases h
  case h_10 hpc => exact Option.some.inj h ▸ .exitDone hpc
  case h_11 i rest hpc => exact Option.some.inj h ▸ .exitTask i rest hpc
  case h_12 => cases h

/-! ## What every step keeps

Four invariants that do not depend on one another, and not on the time points either: none of them is
lost when a time point wraps around. -/

/-- Where the thread is in the table: what is left of it, and indexes of handlers that there are. -/
def Placed (sch : TimedScheduler) : SchedulerPc → Prop
  | .inner iter | .sleeping iter => iter <:+ sch.tasks
  | .calling idxs _ next =>
    next <:+ sch.tasks ∧ ∀ idx ∈ idxs, ∃ i, sch.timerHandlers[idx]? = some i
  | _ => True

/-- The place in the table is one that it has. -/
theorem Placed.advance (hfound : ∀ e ∈ sch.tasks, ∀ idx ∈ e.2, ∃ i, sch.timerHandlers[idx]? = some i)
    (h : Placed sch s.pc) (ha : Advance sch exitTasks align s s') : Placed sch s'.pc := by
  cases ha with
  | enter hpc hstop => exact List.suffix_rfl
  | round curr next hpc hstop =>
      rw [hpc] at h
      have hcurr : curr ∈ sch.tasks := h.subset List.mem_cons_self
      exact ⟨(List.suffix_cons curr next).trans h, hfound curr hcurr⟩
  | call idx idxs span next i hpc hi =>
      rw [hpc] at h
      exact ⟨h.1, fun idx hidx => h.2 idx (List.mem_cons_of_mem _ hidx)⟩
  | sleep span next hpc =>
      rw [hpc] at h
      exact h.1
  | wake next hpc hclock =>
      rw [hpc] at h
      exact h
  | initTask _ _ _ | initDone _ | ceil _ _ | now _ _ | aligned _ _ | leave _ _ | broken _ _ _
  | period _ _ | exitTask _ _ _ | exitDone _ => trivial

/-- A call takes the history one further, and the place with it. -/
theorem Done.advance {initTasks : Nat} (h : Done initTasks exitTasks (works s.trace) s.pc)
    (ha : Advance sch exitTasks align s s') : Done initTasks exitTasks (works s'.trace) s'.pc := by
  cases ha with
  | initTask i rest hpc =>
      rw [hpc] at h
      obtain ⟨before, hrange, hworks⟩ := h
      exact ⟨before ++ [i], by simp [hrange], by simp [hworks]⟩
  | initDone hpc =>
      rw [hpc] at h
      obtain ⟨before, hrange, hworks⟩ := h
      exact ⟨[], timed_nil, by simp [hrange, hworks]⟩
  | leave hpc hstop =>
      rw [hpc] at h
      obtain ⟨timed, htimed, hworks⟩ := h
      exact ⟨timed, [], htimed, rfl, by simp [hworks]⟩
  | call idx idxs span next i hpc hi =>
      rw [hpc] at h
      obtain ⟨timed, htimed, hworks⟩ := h
      exact ⟨timed ++ [.timer i s.tpCurr s.clock], htimed.concat i s.tpCurr s.clock,
        by simp [hworks]⟩
  | exitTask i rest hpc =>
      rw [hpc] at h
      obtain ⟨timed, before, htimed, hrange, hworks⟩ := h
      exact ⟨timed, before ++ [i], htimed, by simp [hrange], by simp [hworks]⟩
  | exitDone hpc =>
      rw [hpc] at h
      obtain ⟨timed, before, htimed, hrange, hworks⟩ := h
      exact ⟨timed, htimed, by simp [hworks, SchedulerThread.whole, hrange]⟩
  | ceil hpc _ | now hpc _ | aligned hpc _ | enter hpc _ | broken _ hpc _ | period hpc _
  | round _ _ hpc _ | sleep _ _ hpc | wake _ hpc _ =>
      rw [hpc] at h
      exact h

/-! ### Not before the stamp -/

/-- The thread is past its first reading of the clock, and not asleep. -/
def Awake : SchedulerPc → Prop
  | .outer | .inner _ | .calling .. => True
  | _ => False

/-- No task is called before its time. -/
structure Punctual (s : SchedulerThread) : Prop where
  reached : Awake s.pc → s.tpCurr ≤ s.clock
  called : ∀ i stamp clock, .timer i stamp clock ∈ s.trace → stamp ≤ clock

/-- A thread that calls a timed task has waited until its stamp. -/
theorem Punctual.advance (h : Punctual s) (ha : Advance sch exitTasks align s s') :
    Punctual s' := by
  have hcalled : ∀ e, (∀ i stamp clock, e = .timer i stamp clock → stamp ≤ clock) →
      ∀ i stamp clock, .timer i stamp clock ∈ s.trace ++ [e] → stamp ≤ clock := by
    intro e he i stamp clock hmem
    rcases List.mem_append.mp hmem with hmem | hmem
    · exact h.called i stamp clock hmem
    · exact he i stamp clock (List.mem_singleton.mp hmem).symm
  cases ha with
  | initTask i rest hpc => exact ⟨False.elim, hcalled _ (by simp)⟩
  | exitTask i rest hpc => exact ⟨False.elim, hcalled _ (by simp)⟩
  | call idx idxs span next i hpc hi =>
      have hreached : s.tpCurr ≤ s.clock := h.reached (by rw [hpc]; trivial)
      exact ⟨fun _ => hreached, hcalled _ (by simpa using hreached)⟩
  | now hpc _ => exact ⟨fun _ => le_rfl, h.called⟩
  | aligned hpc hclock => exact ⟨fun _ => hclock, h.called⟩
  | wake next hpc hclock => exact ⟨fun _ => hclock, h.called⟩
  | enter hpc _ | broken _ hpc _ | period hpc _ | round _ _ hpc _ =>
      exact ⟨fun _ => h.reached (by rw [hpc]; trivial), h.called⟩
  | initDone _ | ceil _ _ | leave _ _ | sleep _ _ _ | exitDone _ => exact ⟨False.elim, h.called⟩

/-! ### After `stop_` -/

/-- The thread has left its loop. -/
def Leaving : SchedulerPc → Prop
  | .exit _ | .ended => True
  | _ => False

/-- Since `stop_` has been set, timed tasks have been called for one time stamp at most. -/
def Winding (s : SchedulerThread) : Prop :=
  ∃ before after stamp, s.trace = before ++ .stopped :: after ∧ (∀ i, .exit i ∉ before) ∧
    (∀ i t clock, .timer i t clock ∈ after → t = stamp) ∧
    ∀ idxs span next, s.pc = .calling idxs span next → stamp = s.tpCurr

structure Stopping (s : SchedulerThread) : Prop where
  told : s.stop = true ↔ s.destructor ≠ .notCalled
  leaving : Leaving s.pc → s.stop = true
  running : s.stop = false → ∀ i, .exit i ∉ s.trace
  winding : s.stop = true → Winding s
  returned : s.destructor = .returned → s.pc = .ended

/-- A step that calls nothing. -/
theorem Winding.goto {pc : SchedulerPc} (h : Winding s) (hpc : s'.pc = pc)
    (htrace : s'.trace = s.trace) (hcalling : ∀ idxs span next, pc ≠ .calling idxs span next) :
    Winding s' := by
  obtain ⟨before, after, stamp, hsplit, hexit, htimer, -⟩ := h
  exact ⟨before, after, stamp, htrace.trans hsplit, hexit, htimer,
    fun idxs span next h => absurd (hpc.symm.trans h) (hcalling idxs span next)⟩

/-- A step that calls a task, a timed one for the current stamp. -/
theorem Winding.call {e : SchedulerEvent} (h : Winding s) (htrace : s'.trace = s.trace ++ [e])
    (htp : s'.tpCurr = s.tpCurr)
    (hcalling : ∀ idxs span next, s'.pc = .calling idxs span next →
      ∃ idxs' span' next', s.pc = .calling idxs' span' next')
    (he : ∀ i t clock, e = .timer i t clock →
      t = s.tpCurr ∧ ∃ idxs span next, s.pc = .calling idxs span next) : Winding s' := by
  obtain ⟨before, after, stamp, hsplit, hexit, htimer, hstamp⟩ := h
  refine ⟨before, after ++ [e], stamp, by simp [htrace, hsplit], hexit, ?_, ?_⟩
  · intro i t clock hmem
    rcases List.mem_append.mp hmem with hmem | hmem
    · exact htimer i t clock hmem
    · obtain ⟨rfl, idxs, span, next, hpc⟩ := he i t clock (List.mem_singleton.mp hmem).symm
      exact (hstamp idxs span next hpc).symm
  · intro idxs span next hpc
    obtain ⟨idxs', span', next', hpc'⟩ := hcalling idxs span next hpc
    rw [htp]
    exact hstamp idxs' span' next' hpc'

/-- After `stop_` has been set, the rest of a round is called at most. The cases in which something
is called go to `Winding.call`. -/
theorem Stopping.advance (h : Stopping s) (ha : Advance sch exitTasks align s s') :
    Stopping s' := by
  have hret : ∀ {pc : SchedulerPc}, s.pc = pc → pc ≠ .ended → s.destructor ≠ .returned := by
    intro pc hpc hne hreturned
    exact hne (hpc.symm.trans (h.returned hreturned))
  cases ha with
  | initTask i rest hpc =>
      refine ⟨h.told, False.elim, fun hstop j hj => ?_, fun hstop => ?_, fun hr => ?_⟩
      · exact h.running hstop j (by simpa using hj)
      · exact (h.winding hstop).call rfl rfl (by simp) (by simp)
      · exact absurd hr (hret hpc (by simp))
  | exitTask i rest hpc =>
      -- no exit task runs before `stop_` is set
      have hstop : s.stop = true := h.leaving (by rw [hpc]; trivial)
      refine ⟨h.told, fun _ => hstop, fun hrun => ?_, fun hstop => ?_, fun hr => ?_⟩
      · rw [hstop] at hrun
        cases hrun
      · exact (h.winding hstop).call rfl rfl (by simp) (by simp)
      · exact absurd hr (hret hpc (by simp))
  | call idx idxs span next i hpc hi =>
      refine ⟨h.told, False.elim, fun hstop j hj => ?_, fun hstop => ?_, fun hr => ?_⟩
      · exact h.running hstop j (by simpa using hj)
      · -- a call in the round that was going on when `stop_` was set, so of the same stamp
        refine (h.winding hstop).call rfl rfl (fun _ _ _ _ => ⟨_, _, _, hpc⟩) ?_
        intro j t clock he
        obtain ⟨-, rfl, -⟩ := SchedulerEvent.timer.inj he
        exact ⟨rfl, _, _, _, hpc⟩
      · exact absurd hr (hret hpc (by simp))
  | round curr next hpc hrun =>
      refine ⟨h.told, False.elim, h.running, fun hstop => ?_, fun hr => ?_⟩
      · rw [hrun] at hstop
        cases hstop
      · exact absurd hr (hret hpc (by simp))
  | exitDone hpc =>
      have hstop : s.stop = true := h.leaving (by rw [hpc]; trivial)
      exact ⟨h.told, fun _ => hstop, h.running,
        fun hstop => (h.winding hstop).goto rfl rfl (by simp), fun _ => rfl⟩
  | leave hpc hstop =>
      exact ⟨h.told, fun _ => hstop, h.running,
        fun hstop => (h.winding hstop).goto rfl rfl (by simp),
        fun hr => absurd hr (hret hpc (by simp))⟩
  | initDone hpc | ceil hpc _ | now hpc _ | aligned hpc _ | enter hpc _ | broken _ hpc _
  | period hpc _ | sleep _ _ hpc | wake _ hpc _ =>
      exact ⟨h.told, False.elim, h.running, fun hstop => (h.winding hstop).goto rfl rfl (by simp),
        fun hr => absurd hr (hret hpc (by simp))⟩

end SchedulerThread

end Cppev
