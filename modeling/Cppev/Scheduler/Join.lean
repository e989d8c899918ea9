import Cppev.Lib.Fairness
import Cppev.Scheduler.Life

/-!
# The end of a timed scheduler

* `destructor_returns`: if the clock goes on, the tasks return and the thread gets its turn, then
  the destructor returns, wherever the thread is when it is called.
-/

namespace Cppev

namespace SchedulerThread

/-! ## How far it is to the end

Once `stop_` is set, every step of the thread brings it closer to its end. While it sleeps, the
clock does. -/

/-- The thread sleeps. -/
def Asleep (s : SchedulerThread) : Prop :=
  match s.pc with
  | .align => s.clock < s.tpCurr
  | .sleeping _ => s.clock < s.tpNext
  | _ => False

/-- The steps that bring the destructor on; the clock only counts while the thread sleeps. -/
def Progress (s : SchedulerThread) : SchedulerLabel → Prop
  | .thread | .join => True
  | .stop => False
  | .tick n => 0 < n ∧ s.Asleep

/-- How far the thread is from its end once `stop_` is set, and what is left to do where it is. -/
def rank (s : SchedulerThread) : ℕ ×ₗ ℕ :=
  toLex <| match s.pc with
    | .init rest => (9, rest.length)
    | .now => (8, 0)
    | .align => (7, (s.tpCurr - s.clock).toNat)
    | .calling idxs _ _ => (6, idxs.length)
    | .sleeping _ => (5, (s.tpNext - s.clock).toNat)
    | .inner _ => (4, 0)
    | .outer => (3, 0)
    | .exit rest => (2, rest.length)
    | .ended => (if s.destructor = .returned then 0 else 1, 0)

section

variable {clock₀ : Int} {sch : TimedScheduler} {initTasks exitTasks : Nat} {align : Bool}
  {s s' : SchedulerThread}

/-! ## Every step -/

/-- Once `stop_` is set, each step of the thread brings it nearer to its end: it makes the calls
that are left in its round, and no other round. -/
theorem rank_advance (hstop : s.stop = true) (ha : Advance sch exitTasks align s s') :
    s'.rank < s.rank := by
  cases ha with
  | enter hpc hrun | period hpc hrun | round _ _ hpc hrun =>
      rw [hstop] at hrun
      cases hrun
  | exitDone hpc =>
      simp only [rank, hpc, Prod.Lex.toLex_lt_toLex]
      split <;> simp
  | initTask _ _ hpc | initDone hpc | ceil hpc _ | now hpc _ | aligned hpc _ | leave hpc _
  | broken _ hpc _ | call _ _ _ _ _ hpc _ | sleep _ _ hpc | wake _ hpc _ | exitTask _ _ hpc =>
      simp [rank, hpc, Prod.Lex.toLex_lt_toLex]

theorem rank_tick (n : Nat) : rank { s with clock := s.clock + n } ≤ s.rank := by
  unfold rank
  cases s.pc with
  | align => exact Prod.Lex.toLex_le_toLex.mpr (.inr ⟨rfl, by simp only; omega⟩)
  | sleeping next => exact Prod.Lex.toLex_le_toLex.mpr (.inr ⟨rfl, by simp only; omega⟩)
  | _ => exact le_rfl

theorem rank_tick_lt {n : Nat} (hn : 0 < n) (hasleep : s.Asleep) :
    rank { s with clock := s.clock + n } < s.rank := by
  unfold Asleep at hasleep
  unfold rank
  cases hpc : s.pc with
  | align =>
      simp only [hpc] at hasleep
      exact Prod.Lex.toLex_lt_toLex.mpr (.inr ⟨rfl, by simp only; omega⟩)
  | sleeping next =>
      simp only [hpc] at hasleep
      exact Prod.Lex.toLex_lt_toLex.mpr (.inr ⟨rfl, by simp only; omega⟩)
  | _ => simp [hpc] at hasleep

/-- The destructor has been called. -/
structure Ending (sch : TimedScheduler) (initTasks exitTasks : Nat) (clock₀ : Int)
    (s : SchedulerThread) : Prop where
  inv : Inv sch initTasks exitTasks clock₀ s
  stop : s.stop = true

/-- `stop_` is never taken back. -/
theorem stop_step {l : SchedulerLabel} (hstop : s.stop = true)
    (hstep : s.step sch exitTasks align l = some s') : s'.stop = true := by
  cases l with
  | thread => cases advance_sound hstep <;> exact hstop
  | stop =>
      simp only [SchedulerThread.step] at hstep
      split at hstep
      · exact Option.some.inj hstep ▸ rfl
      · cases hstep
  | join =>
      simp only [SchedulerThread.step] at hstep
      split at hstep
      · exact Option.some.inj hstep ▸ hstop
      · cases hstep
  | tick n => exact Option.some.inj hstep ▸ hstop

/-- A call finds its handler: the indexes of an entry are within `timer_handlers_`. -/
theorem Inv.handler (h : Inv sch initTasks exitTasks clock₀ s) {idx : Nat} {idxs : List Nat}
    {span : Int} {next : List (Int × List Nat)} (hpc : s.pc = .calling (idx :: idxs) span next) :
    ∃ i, sch.timerHandlers[idx]? = some i := by
  have hplaced := h.placed
  rw [hpc] at hplaced
  exact hplaced.2 idx List.mem_cons_self

/-- The thread can go on, or the clock that it waits for, or `join`. -/
theorem Ending.enabled (h : Ending sch initTasks exitTasks clock₀ s)
    (hreturned : s.destructor ≠ .returned) : Enabled (step sch exitTasks align) Progress s := by
  have hthread : (s.advance sch exitTasks align).isSome = true →
      Enabled (step sch exitTasks align) Progress s := fun hsome => ⟨.thread, trivial, hsome⟩
  have htick : s.Asleep → Enabled (step sch exitTasks align) Progress s :=
    fun hasleep => ⟨.tick 1, ⟨Nat.one_pos, hasleep⟩, rfl⟩
  cases hpc : s.pc with
  | init rest => exact hthread (by cases rest <;> simp [advance, hpc])
  | now => exact hthread (by cases align <;> simp [advance, hpc])
  | align =>
      by_cases hclock : s.tpCurr ≤ s.clock
      · exact hthread (by simp [advance, hpc, hclock])
      · exact htick (by simpa [Asleep, hpc] using hclock)
  | outer => exact hthread (by simp [advance, hpc])
  | inner iter => exact hthread (by simp [advance, hpc, h.stop])
  | calling idxs span next =>
      cases idxs with
      | nil => exact hthread (by simp [advance, hpc])
      | cons idx idxs =>
          obtain ⟨i, hi⟩ := h.inv.handler hpc
          exact hthread (by simp [advance, hpc, hi])
  | sleeping next =>
      by_cases hclock : s.tpNext ≤ s.clock
      · exact hthread (by simp [advance, hpc, hclock])
      · exact htick (by simpa [Asleep, hpc] using hclock)
  | exit rest => exact hthread (by cases rest <;> simp [advance, hpc])
  | ended =>
      have hcalled := h.inv.stopping.told.mp h.stop
      have hjoining : s.destructor = .joining := by
        cases hd : s.destructor with
        | notCalled => exact absurd hd hcalled
        | joining => rfl
        | returned => exact absurd hd hreturned
      exact ⟨.join, trivial, by simp [SchedulerThread.step, hjoining, hpc]⟩

theorem rank_step {l : SchedulerLabel} (hstop : s.stop = true)
    (hreturned : s.destructor ≠ .returned) (hstep : s.step sch exitTasks align l = some s') :
    s'.rank ≤ s.rank ∧ (s.Progress l → s'.rank < s.rank) := by
  cases l with
  | thread =>
      have hlt := rank_advance hstop (advance_sound hstep)
      exact ⟨hlt.le, fun _ => hlt⟩
  | stop =>
      simp only [SchedulerThread.step] at hstep
      split at hstep
      case isFalse => cases hstep
      case isTrue hnot =>
        obtain rfl := Option.some.inj hstep
        refine ⟨?_, False.elim⟩
        simp [rank, hnot]
  | join =>
      simp only [SchedulerThread.step] at hstep
      split at hstep
      case isFalse => cases hstep
      case isTrue hended =>
        obtain rfl := Option.some.inj hstep
        have hlt : rank { s with destructor := .returned } < s.rank := by
          simp [rank, hended.2, hreturned, Prod.Lex.toLex_lt_toLex]
        exact ⟨hlt.le, fun _ => hlt⟩
  | tick n =>
      obtain rfl := Option.some.inj hstep
      exact ⟨rank_tick n, fun hprogress => rank_tick_lt hprogress.1 hprogress.2⟩

end

/-! ## The theorem -/

/-- **The destructor returns.** In every execution in which the thread gets its turn and the clock
goes on while it sleeps, a destructor that has been called returns, wherever the thread was then. -/
theorem destructor_returns {timerTasks : List TimerTask} {order : List Nat} (hne : timerTasks ≠ [])
    (hpos : ∀ task ∈ timerTasks, 0 < task.interval) (hfit : period timerTasks ≤ INT64_MAX)
    (horder : PopOrder timerTasks order) :
    ∃ sch, timedScheduler timerTasks order = some sch ∧
      ∀ (initTasks exitTasks : Nat) (align : Bool) (clock₀ : Int)
        (e : Execution (step sch exitTasks align)), e.state 0 = start initTasks clock₀ →
        e.WeaklyFair Progress → ∀ n, (e.state n).stop = true →
          ∃ m, n ≤ m ∧ (e.state m).destructor = .returned := by
  obtain ⟨sch, hsch, hl⟩ := timedScheduler_spec hne hpos hfit horder
  refine ⟨sch, hsch, fun initTasks exitTasks align clock₀ e h0 hfair n hstop => ?_⟩
  have hkeeps : ∀ s l s', Inv sch initTasks exitTasks clock₀ s →
      step sch exitTasks align s l = some s' → Inv sch initTasks exitTasks clock₀ s' :=
    fun s l s' h hstep => h.step (Laid.found hl) hstep
  have hinv : Inv sch initTasks exitTasks clock₀ (e.state n) :=
    e.invariant hkeeps (h0 ▸ inv_start) n
  have hranked : Ranked (step sch exitTasks align) (Ending sch initTasks exitTasks clock₀)
      (fun s => s.destructor = .returned) Progress rank := by
    refine ⟨fun s l s' h hstep => ⟨hkeeps s l s' h.inv hstep, stop_step h.stop hstep⟩,
      fun s h => h.enabled, ?_, ?_⟩
    · intro s l s' h hreturned hstep
      exact (rank_step h.stop hreturned hstep).1
    · intro s l s' h hreturned hprogress hstep
      exact (rank_step h.stop hreturned hstep).2 hprogress
  have hending : Ending sch initTasks exitTasks clock₀ ((e.drop n).state 0) := ⟨hinv, hstop⟩
  obtain ⟨m, hm⟩ := hranked.reaches (e.drop n) hending (hfair.drop n)
  exact ⟨n + m, Nat.le_add_right n m, hm⟩

/-- When the destructor has returned, nothing is left to do. -/
theorem not_enabled_of_returned {s : SchedulerThread} {sch : TimedScheduler} {exitTasks : Nat}
    {align : Bool} (hreturned : s.destructor = .returned) (hpc : s.pc = .ended) :
    ¬ Enabled (step sch exitTasks align) Progress s := by
  rintro ⟨l, hprogress, hsome⟩
  cases l with
  | thread => simp [SchedulerThread.step, advance, hpc] at hsome
  | stop => exact hprogress
  | join => simp [SchedulerThread.step, hreturned] at hsome
  | tick n =>
      have hasleep := hprogress.2
      simp [Asleep, hpc] at hasleep

/-- The destructor of `stoppedAsleep`. -/
theorem destructor_returns_stoppedAsleep :
    ∃ sch, timedScheduler [⟨2, .p0⟩, ⟨3, .p1⟩] [0, 1] = some sch ∧
      ∃ e : Execution (step sch 1 false), e.state 0 = start 1 100 ∧ e.WeaklyFair Progress ∧
        (e.state 9).stop = true ∧ ∃ m, 9 ≤ m ∧ (e.state m).destructor = .returned := by
  have htable : timedScheduler [⟨2, .p0⟩, ⟨3, .p1⟩] [0, 1] =
      some ⟨6, [0, 1], [(0, [0, 1]), (2, [0]), (3, [1]), (4, [0])]⟩ := by decide +kernel
  obtain ⟨sch, hsch, hreturns⟩ := @destructor_returns [⟨2, .p0⟩, ⟨3, .p1⟩] [0, 1] (by decide)
    (by decide) (by decide) ⟨by decide, by decide⟩
  rw [htable] at hsch
  cases hsch
  have hend : ((run (step ⟨6, [0, 1], [(0, [0, 1]), (2, [0]), (3, [1]), (4, [0])]⟩ 1 false)
      (start 1 100) stoppedAsleep).any fun s =>
        s.destructor = .returned && s.pc = .ended) = true := by decide +kernel
  obtain ⟨s, hs, heq⟩ := (Option.any_eq_true ..).mp hend
  simp only [Bool.and_eq_true, decide_eq_true_eq] at heq
  have hfair : (Execution.ofRun hs).WeaklyFair Progress :=
    Execution.weaklyFair_ofRun hs (not_enabled_of_returned heq.1 heq.2)
  have hstop : ((Execution.ofRun hs).state 9).stop = true := rfl
  exact ⟨_, htable, Execution.ofRun hs, rfl, hfair, hstop,
    hreturns 1 1 false 100 (Execution.ofRun hs) rfl hfair 9 hstop⟩

end SchedulerThread

end Cppev
