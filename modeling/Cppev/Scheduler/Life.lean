import Mathlib.Data.List.Sort
import Cppev.Scheduler.Thread

/-!
# The life of a timed scheduler

What the thread of a `timed_scheduler` does follows the loop of `TimeLine`, which makes the calls of
a round at once (`Follows`).

* `scheduler_life`: the init tasks, then the timed tasks, then the exit tasks; no timed task is called
  before its stamp; after `stop_` has been set, they are called for one stamp at most; and for none
  when the destructor has returned. As long as the time points are 64-bit ones, every timed task has
  been called for each multiple of its interval up to now.
-/

namespace Cppev

namespace SchedulerThread

variable {sch : TimedScheduler} {exitTasks : Nat} {align : Bool} {s s' : SchedulerThread}

/-! ## The time line

The thread and the loop of `TimeLine` do the same, but the loop makes all calls of a round in one
step. `Follows` says how far the thread is in the round that the loop has made or is going to
make. -/

/-- The calls of the timed tasks. -/
def timersOf (tr : List SchedulerEvent) : List (Nat × Int) :=
  tr.filterMap fun
    | .timer i stamp _ => some (i, stamp)
    | _ => none

@[simp] theorem timersOf_append (tr tr' : List SchedulerEvent) :
    timersOf (tr ++ tr') = timersOf tr ++ timersOf tr' := List.filterMap_append ..

/-- An init task is no call of the time line. -/
@[simp] theorem timersOf_init (i : Nat) : timersOf [.init i] = [] := rfl
@[simp] theorem timersOf_exit (i : Nat) : timersOf [.exit i] = [] := rfl
@[simp] theorem timersOf_stopped : timersOf [.stopped] = [] := rfl

@[simp] theorem timersOf_timer (i : Nat) (stamp clock : Int) :
    timersOf [.timer i stamp clock] = [(i, stamp)] := rfl

section

variable {timerTasks : List TimerTask} {order : List Nat} {lcm t₀ : Int} {c : LoopState}

/-- Where the loop `c` of `TimedScheduler.step` is, which makes the calls of a round at once: in a
round, at the test before it. -/
def Follows (timerTasks : List TimerTask) (order : List Nat) (sch : TimedScheduler) (t₀ : Int)
    (c : LoopState) (s : SchedulerThread) : Prop :=
  match s.pc with
  | .init _ | .now => c = TimedScheduler.start t₀ ∧ timersOf s.trace = c.calls
  | .align => (c = TimedScheduler.start t₀ ∧ timersOf s.trace = c.calls) ∧ s.tpCurr = t₀
  | .outer => (c.pc = .outer ∧ timersOf s.trace = c.calls) ∧ c.tpCurr = s.tpCurr ∧
      (c.stop = true → s.stop = true)
  | .inner iter => (c.pc = .inner iter ∧ timersOf s.trace = c.calls) ∧ c.tpCurr = s.tpCurr ∧
      (c.stop = true → s.stop = true)
  | .calling idxs span next => ∃ curr called due, (c.pc = .inner (curr :: next) ∧
      timersOf s.trace = c.calls ++ called.map fun i => (i, s.tpCurr)) ∧ c.tpCurr = s.tpCurr ∧
      c.stop = false ∧ span = nextKey sch.interval next - curr.1 ∧
      dueAt timerTasks curr.1 order = called ++ due ∧
      idxs.map (fun idx => sch.timerHandlers[idx]?) = due.map some
  | .sleeping next => (c.pc = .inner next ∧ timersOf s.trace = c.calls) ∧ c.tpCurr = s.tpNext ∧
      (c.stop = true → s.stop = true)
  | .exit _ | .ended => timersOf s.trace = c.calls

/-- The thread keeps to the time line that begins at `t₀`. -/
structure KeepsTime (timerTasks : List TimerTask) (order : List Nat) (lcm : Int)
    (sch : TimedScheduler) (t₀ : Int) (c : LoopState) (s : SchedulerThread) : Prop where
  onTime : OnTime lcm sch t₀ c
  told : Told timerTasks order t₀ c
  follows : Follows timerTasks order sch t₀ c s

/-- The thread waits for the beginning of the time line. -/
theorem KeepsTime.start (hne : order ≠ []) (hfollows :
    Follows timerTasks order sch t₀ (TimedScheduler.start t₀) s) :
    KeepsTime timerTasks order lcm sch t₀ (TimedScheduler.start t₀) s :=
  ⟨.inr (by simp [TimedScheduler.start]), .start hne t₀, hfollows⟩

/-- The loop takes a step. -/
theorem KeepsTime.loop (hl : Laid timerTasks lcm order sch) (hlcm : 0 < lcm)
    (hdvd : ∀ i ∈ order, intervalAt timerTasks i ∣ lcm) (hnd : order.Nodup) (hne : order ≠ [])
    (hstart : -2 ^ 63 ≤ t₀) (h : KeepsTime timerTasks order lcm sch t₀ c s) {stopped : Bool}
    {c' : LoopState} (hrange : sch.InInt64 c stopped) (hstep : sch.step c stopped = some c')
    (hfollows : Follows timerTasks order sch t₀ c' s') :
    KeepsTime timerTasks order lcm sch t₀ c' s' := by
  have hpc : c.pc ≠ .exited := by
    intro hpc
    simp [TimedScheduler.step, hpc] at hstep
  obtain ⟨c'', hstep', honTime, htold⟩ :=
    step_spec hl hlcm hdvd hnd hne hstart h.onTime h.told hpc hrange
  obtain rfl : c' = c'' := Option.some.inj (hstep.symm.trans hstep')
  exact ⟨honTime, htold, hfollows⟩

/-- The entry of the round that the loop is in. -/
theorem KeepsTime.mem_tasks {curr : Int × List Nat} {next : List (Int × List Nat)}
    (h : KeepsTime timerTasks order lcm sch t₀ c s) (hc : c.pc = .inner (curr :: next)) :
    curr ∈ sch.tasks := by
  have honTime := h.onTime
  simp only [OnTime, hc] at honTime
  obtain ⟨before, htasks, -⟩ := honTime
  simp [htasks]

/-- A round begins: all its calls are still to come. -/
theorem KeepsTime.round (hl : Laid timerTasks lcm order sch)
    (h : KeepsTime timerTasks order lcm sch t₀ c s) {curr : Int × List Nat}
    {next : List (Int × List Nat)} (hpc : s.pc = .inner (curr :: next)) (hstop : s.stop = false) :
    Follows timerTasks order sch t₀ c
      { s with pc := .calling curr.2 (sch.span curr next) next } := by
  have hfollows := h.follows
  unfold Follows at hfollows
  rw [hpc] at hfollows
  obtain ⟨⟨hc, hcalls⟩, htp, himp⟩ := hfollows
  exact ⟨curr, [], _, ⟨hc, by simpa using hcalls⟩, htp, by simpa [hstop] using himp,
    by rw [hl.span_eq, hl.interval], rfl, hl.map_entry (h.mem_tasks hc)⟩

/-- A call in a round: the next of those that are to come. -/
theorem Follows.call (h : Follows timerTasks order sch t₀ c s) {idx i : Nat} {idxs : List Nat}
    {span : Int} {next : List (Int × List Nat)} (hpc : s.pc = .calling (idx :: idxs) span next)
    (hi : sch.timerHandlers[idx]? = some i) :
    Follows timerTasks order sch t₀ c { s with
      pc := .calling idxs span next
      trace := s.trace ++ [.timer i s.tpCurr s.clock] } := by
  unfold Follows at h
  rw [hpc] at h
  obtain ⟨curr, called, due, ⟨hc, hcalls⟩, htp, hrun, hspan, hdue, hmap⟩ := h
  cases due with
  | nil => simp at hmap
  | cons j due =>
      obtain ⟨hj, htail⟩ := List.cons.inj hmap
      obtain rfl : i = j := Option.some.inj (hi.symm.trans hj)
      refine ⟨curr, called ++ [i], due, ⟨hc, ?_⟩, htp, hrun, hspan, by simp [hdue], htail⟩
      simp [hcalls]

/-- The last call of a round has been made: the loop makes all of them, and both compute the same
time point. -/
theorem KeepsTime.sleep (hl : Laid timerTasks lcm order sch)
    (h : KeepsTime timerTasks order lcm sch t₀ c s) {span : Int} {next : List (Int × List Nat)}
    (hpc : s.pc = .calling [] span next) (hrange : s.InInt64 align .thread) :
    ∃ c', sch.InInt64 c false ∧ sch.step c false = some c' ∧ Follows timerTasks order sch t₀ c'
      { s with pc := .sleeping next, tpNext := toInt64 (s.tpCurr + span) } := by
  have hfollows := h.follows
  unfold Follows at hfollows
  rw [hpc] at hfollows
  obtain ⟨curr, called, due, ⟨hc, hcalls⟩, htp, hrun, hspan, hdue, hmap⟩ := hfollows
  obtain rfl : due = [] := List.map_eq_nil_iff.mp hmap.symm
  rw [List.append_nil] at hdue
  have hstep : sch.step c false = sch.body { c with stop := false } curr next := by
    simp [TimedScheduler.step, hc, hrun]
  have hin : sch.InInt64 c false := by
    simp only [InInt64, hpc] at hrange
    simp only [TimedScheduler.InInt64, hc]
    intro _
    rwa [hl.span_eq, htp, ← hl.interval, ← hspan]
  refine ⟨_, hin, hstep.trans (body_eq hl (h.mem_tasks hc) next), ⟨rfl, ?_⟩, ?_, by simp⟩
  · simp [hcalls, hdue, htp]
  · show toInt64 (c.tpCurr + (nextKey lcm next - curr.1)) = toInt64 (s.tpCurr + span)
    rw [hspan, htp, hl.interval]

/-- The loop moves when the thread does: it enters a round, it leaves one, and it makes the calls of
a round when the thread has made the last of them and goes to sleep. In between the thread is in the
middle of what the loop does at once, and `Follows` says which calls are still to come. -/
theorem KeepsTime.advance (hl : Laid timerTasks lcm order sch) (hlcm : 0 < lcm)
    (hdvd : ∀ i ∈ order, intervalAt timerTasks i ∣ lcm) (hnd : order.Nodup) (hne : order ≠ [])
    (hstart : -2 ^ 63 ≤ t₀) (hclock₀ : -2 ^ 63 ≤ s.clock) (hrange : s.InInt64 align .thread)
    (h : KeepsTime timerTasks order lcm sch t₀ c s) (ha : Advance sch exitTasks align s s') :
    ∃ t₀' c', KeepsTime timerTasks order lcm sch t₀' c' s' ∧
      (t₀' = t₀ ∨ t₀' = if align then ceilTimePoint s.clock else s.clock) := by
  have hfollows := h.follows
  unfold Follows at hfollows
  -- the loop stays where it is, or takes a step
  have hstay : Follows timerTasks order sch t₀ c s' → ∃ t₀' c',
      KeepsTime timerTasks order lcm sch t₀' c' s' ∧
        (t₀' = t₀ ∨ t₀' = if align then ceilTimePoint s.clock else s.clock) :=
    fun hf => ⟨t₀, c, ⟨h.onTime, h.told, hf⟩, .inl rfl⟩
  have hloop : ∀ {stopped : Bool} {c' : LoopState}, sch.InInt64 c stopped →
      sch.step c stopped = some c' → Follows timerTasks order sch t₀ c' s' → ∃ t₀' c',
        KeepsTime timerTasks order lcm sch t₀' c' s' ∧
          (t₀' = t₀ ∨ t₀' = if align then ceilTimePoint s.clock else s.clock) :=
    fun hin hstep hf => ⟨t₀, _, h.loop hl hlcm hdvd hnd hne hstart hin hstep hf, .inl rfl⟩
  cases ha with
  | initTask i rest hpc =>
      rw [hpc] at hfollows
      exact hstay ⟨hfollows.1, by simpa using hfollows.2⟩
  | initDone hpc =>
      rw [hpc] at hfollows
      exact hstay hfollows
  | ceil hpc halign =>
      rw [hpc] at hfollows
      obtain ⟨rfl, hcalls⟩ := hfollows
      have hceil : toInt64 (ceilTimePoint s.clock) = ceilTimePoint s.clock := by
        simp only [InInt64, hpc] at hrange
        have hlt := lt_ceilTimePoint s.clock
        exact toInt64_of_range (by omega) (hrange halign)
      exact ⟨ceilTimePoint s.clock, _, .start hne ⟨⟨rfl, hcalls⟩, hceil⟩, .inr (by simp [halign])⟩
  | now hpc halign =>
      rw [hpc] at hfollows
      obtain ⟨rfl, hcalls⟩ := hfollows
      refine ⟨s.clock, _, .start hne ⟨⟨rfl, hcalls⟩, rfl, ?_⟩, .inr (by simp [halign])⟩
      simp [TimedScheduler.start]
  | aligned hpc hclock =>
      rw [hpc] at hfollows
      obtain ⟨⟨hc, hcalls⟩, htp⟩ := hfollows
      refine hstay ⟨⟨by rw [hc]; rfl, hcalls⟩, ?_, ?_⟩
      · rw [hc]
        exact htp.symm
      · simp [hc, TimedScheduler.start]
  | leave hpc hstop =>
      rw [hpc] at hfollows
      exact hstay hfollows.1.2
  | enter hpc hstop =>
      rw [hpc] at hfollows
      obtain ⟨⟨hc, hcalls⟩, htp, himp⟩ := hfollows
      have hrun : c.stop = false := by simpa [hstop] using himp
      have hstep : sch.step c false = some { c with pc := .inner sch.tasks, stop := false } := by
        simp [TimedScheduler.step, hc, hrun]
      exact hloop (by simp [TimedScheduler.InInt64, hc]) hstep ⟨⟨rfl, hcalls⟩, htp, by simp⟩
  | broken iter hpc hstop =>
      rw [hpc] at hfollows
      obtain ⟨⟨hc, hcalls⟩, htp, himp⟩ := hfollows
      have hstep : sch.step c true = some { c with pc := .outer, stop := true } := by
        simp [TimedScheduler.step, hc]
      have hin : sch.InInt64 c true := by
        unfold TimedScheduler.InInt64
        split <;> simp
      exact hloop hin hstep ⟨⟨rfl, hcalls⟩, htp, fun _ => hstop⟩
  | period hpc hstop =>
      rw [hpc] at hfollows
      obtain ⟨⟨hc, hcalls⟩, htp, himp⟩ := hfollows
      have hrun : c.stop = false := by simpa [hstop] using himp
      have hstep : sch.step c false = some { c with pc := .outer, stop := false } := by
        simp [TimedScheduler.step, hc, hrun]
      exact hloop (by simp [TimedScheduler.InInt64, hc]) hstep ⟨⟨rfl, hcalls⟩, htp, by simp⟩
  | round curr next hpc hstop => exact hstay (h.round hl hpc hstop)
  | call idx idxs span next i hpc hi => exact hstay (h.follows.call hpc hi)
  | sleep span next hpc =>
      obtain ⟨c', hin, hstep, hf⟩ := h.sleep hl hpc hrange
      exact hloop hin hstep hf
  | wake next hpc hclock =>
      rw [hpc] at hfollows
      exact hstay hfollows
  | exitTask i rest hpc =>
      rw [hpc] at hfollows
      exact hstay (by simpa [Follows] using hfollows)
  | exitDone hpc =>
      rw [hpc] at hfollows
      exact hstay hfollows

/-! ### The stamps of one task -/

/-- The multiples of `d` below a bound. -/
theorem eq_stamps {times : List Int} {d b : Int} (hd : 0 < d) (hinc : times.Pairwise (· < ·))
    (hmem : ∀ T, t₀ + T ∈ times ↔ (0 ≤ T ∧ d ∣ T) ∧ T < b) :
    ∃ n : Nat, times = (List.range n).map fun k : Nat => t₀ + k * d := by
  refine ⟨((b + d - 1) / d).toNat, hinc.eq_of_mem_iff ?_ fun x => ?_⟩
  · refine List.pairwise_map.mpr (List.pairwise_lt_range.imp fun {j k} hjk => ?_)
    have hlt : (j : Int) * d < k * d := Int.mul_lt_mul_of_pos_right (by exact_mod_cast hjk) hd
    omega
  · have hx := hmem (x - t₀)
    rw [add_sub_cancel] at hx
    rw [hx, List.mem_map]
    constructor
    · rintro ⟨⟨h0, q, hq⟩, hlt⟩
      have hq0 : 0 ≤ q := by
        by_contra hneg
        have := Int.mul_neg_of_pos_of_neg hd (not_le.mp hneg)
        omega
      have hle : q + 1 ≤ (b + d - 1) / d := by
        rw [Int.le_ediv_iff_mul_le hd, add_mul, one_mul, mul_comm q d]
        omega
      refine ⟨q.toNat, List.mem_range.mpr (by omega), ?_⟩
      rw [Int.toNat_of_nonneg hq0, mul_comm q d]
      omega
    · rintro ⟨k, hk, rfl⟩
      have hle : (k : Int) + 1 ≤ (b + d - 1) / d := by
        have := List.mem_range.mp hk
        omega
      rw [Int.le_ediv_iff_mul_le hd, add_mul, one_mul] at hle
      have h0 : 0 ≤ (k : Int) * d := Int.mul_nonneg (Int.natCast_nonneg k) hd.le
      exact ⟨⟨by omega, ⟨k, by rw [add_sub_cancel_left, mul_comm]⟩⟩, by omega⟩

/-- A task that is called in the round. -/
theorem KeepsTime.due {curr : Int × List Nat} {next : List (Int × List Nat)}
    (hdvd : ∀ i ∈ order, intervalAt timerTasks i ∣ lcm) (honTime : OnTime lcm sch t₀ c)
    (hc : c.pc = .inner (curr :: next)) {i : Nat} (hi : i ∈ dueAt timerTasks curr.1 order) :
    intervalAt timerTasks i ∣ c.tpCurr - t₀ := by
  simp only [OnTime, hc] at honTime
  obtain ⟨-, -, hkey⟩ := honTime
  obtain ⟨hmem, hdue⟩ := List.mem_filter.mp hi
  exact (dvd_iff_of_period (hdvd i hmem) hkey).mpr (of_decide_eq_true hdue)

/-- The calls of one task are those of the stamps that its interval divides, of which there is one
in every interval (`eq_stamps`). -/
theorem KeepsTime.stamps (hdvd : ∀ i ∈ order, intervalAt timerTasks i ∣ lcm) (hnd : order.Nodup)
    (h : KeepsTime timerTasks order lcm sch t₀ c s) {i : Nat} (hi : i ∈ order)
    (hpos : 0 < intervalAt timerTasks i) :
    ∃ n : Nat, callsOf i (timersOf s.trace) =
      (List.range n).map fun k : Nat => t₀ + k * intervalAt timerTasks i := by
  have hloop : ∃ n : Nat, callsOf i c.calls =
      (List.range n).map fun k : Nat => t₀ + k * intervalAt timerTasks i :=
    eq_stamps hpos (h.told.increasing i hi) (h.told.called i hi)
  have hfollows := h.follows
  unfold Follows at hfollows
  cases hpc : s.pc with
  | calling idxs span next =>
      rw [hpc] at hfollows
      obtain ⟨curr, called, due, ⟨hc, hcalls⟩, htp, -, -, hdue, -⟩ := hfollows
      have hnodup : (called ++ due).Nodup := hdue ▸ hnd.filter _
      rw [hcalls, callsOf_append, callsOf_round (List.nodup_append.mp hnodup).1, ← htp]
      -- in the middle of a round: a task that has been called is one call ahead of the loop
      by_cases hmem : i ∈ called
      · have hnow : intervalAt timerTasks i ∣ c.tpCurr - t₀ :=
          KeepsTime.due hdvd h.onTime hc (by rw [hdue]; exact List.mem_append_left _ hmem)
        have hinc := increasing_round (h.told.increasing i hi) (h.told.called i hi)
        have htimes := mem_times_round (show 0 ≤ c.tpCurr - t₀ by have := h.told.rounds; omega)
          Int.one_pos (fun T hlow hhigh => by omega) (h.told.called i hi)
        rw [if_pos hnow] at hinc htimes
        rw [if_pos hmem]
        exact eq_stamps hpos hinc htimes
      · rw [if_neg hmem, List.append_nil]
        exact hloop
  | init rest => rw [hpc] at hfollows; rw [hfollows.2]; exact hloop
  | now => rw [hpc] at hfollows; rw [hfollows.2]; exact hloop
  | align => rw [hpc] at hfollows; rw [hfollows.1.2]; exact hloop
  | outer => rw [hpc] at hfollows; rw [hfollows.1.2]; exact hloop
  | inner iter => rw [hpc] at hfollows; rw [hfollows.1.2]; exact hloop
  | sleeping next => rw [hpc] at hfollows; rw [hfollows.1.2]; exact hloop
  | exit rest =>
      rw [hpc] at hfollows
      rw [show timersOf s.trace = c.calls from hfollows]
      exact hloop
  | ended =>
      rw [hpc] at hfollows
      rw [show timersOf s.trace = c.calls from hfollows]
      exact hloop

/-! ## The owner and the clock

What does not depend on the time points is one invariant (`Inv`), which every step keeps; that the
thread keeps time (`InTime`) is another, which a step keeps that stays within 64 bits. -/

/-- What a run keeps; `clock₀` is the time at which the thread was created. -/
structure Inv (sch : TimedScheduler) (initTasks exitTasks : Nat) (clock₀ : Int)
    (s : SchedulerThread) : Prop where
  done : Done initTasks exitTasks (works s.trace) s.pc
  punctual : Punctual s
  stopping : Stopping s
  placed : Placed sch s.pc
  since : clock₀ ≤ s.clock

/-- The thread keeps to a time line that does not begin before `clock₀`. -/
def InTime (timerTasks : List TimerTask) (order : List Nat) (lcm : Int) (sch : TimedScheduler)
    (align : Bool) (clock₀ : Int) (s : SchedulerThread) : Prop :=
  ∃ t₀ c, KeepsTime timerTasks order lcm sch t₀ c s ∧ clock₀ ≤ t₀ ∧
    (align = true → 1000000000 ∣ t₀)

variable {initTasks : Nat} {clock₀ : Int}

theorem inv_start : Inv sch initTasks exitTasks clock₀ (start initTasks clock₀) where
  done := ⟨[], rfl, rfl⟩
  punctual := ⟨False.elim, by simp [start]⟩
  stopping := ⟨by simp [start], False.elim, by simp [start], by simp [start], by simp [start]⟩
  placed := trivial
  since := le_rfl

/-- The time line begins when the thread reads the clock. -/
theorem inTime_start (hne : order ≠ []) :
    InTime timerTasks order lcm sch align clock₀ (start initTasks clock₀) :=
  ⟨ceilTimePoint clock₀, _, .start hne ⟨rfl, rfl⟩, (lt_ceilTimePoint clock₀).le,
    fun _ => Int.dvd_mul_left _ _⟩

theorem clock_advance (ha : Advance sch exitTasks align s s') : s'.clock = s.clock := by
  cases ha <;> rfl

/-- The loop does not look at what the owner and the clock do. -/
theorem Follows.congr (h : Follows timerTasks order sch t₀ c s) (hpc : s'.pc = s.pc)
    (hcurr : s'.tpCurr = s.tpCurr) (hnext : s'.tpNext = s.tpNext)
    (hstop : s.stop = true → s'.stop = true) (htrace : timersOf s'.trace = timersOf s.trace) :
    Follows timerTasks order sch t₀ c s' := by
  unfold Follows at h ⊢
  rw [hpc, hcurr, hnext, htrace]
  cases hs : s.pc with
  | outer => rw [hs] at h; exact ⟨h.1, h.2.1, fun hc => hstop (h.2.2 hc)⟩
  | inner iter => rw [hs] at h; exact ⟨h.1, h.2.1, fun hc => hstop (h.2.2 hc)⟩
  | sleeping next => rw [hs] at h; exact ⟨h.1, h.2.1, fun hc => hstop (h.2.2 hc)⟩
  | _ => rw [hs] at h; exact h

/-- The steps of the owner, the clock and the thread, of which the last are those of
`Stopping.advance`. -/
theorem Inv.step (hfound : ∀ e ∈ sch.tasks, ∀ idx ∈ e.2, ∃ i, sch.timerHandlers[idx]? = some i)
    (h : Inv sch initTasks exitTasks clock₀ s) {l : SchedulerLabel}
    (hstep : s.step sch exitTasks align l = some s') : Inv sch initTasks exitTasks clock₀ s' := by
  cases l with
  | thread =>
      have ha := advance_sound hstep
      refine ⟨h.done.advance ha, h.punctual.advance ha, h.stopping.advance ha,
        h.placed.advance hfound ha, ?_⟩
      rw [clock_advance ha]
      exact h.since
  | stop =>
      simp only [SchedulerThread.step] at hstep
      split at hstep
      case isFalse => cases hstep
      case isTrue hnot =>
        obtain rfl := Option.some.inj hstep
        have hrun : s.stop = false := by
          by_contra hstop
          exact h.stopping.told.mp (by simpa using hstop) hnot
        refine ⟨by simpa using h.done, ⟨h.punctual.reached, ?_⟩, ?_, h.placed, h.since⟩
        · intro i stamp clock hmem
          exact h.punctual.called i stamp clock (by simpa using hmem)
        · refine ⟨by simp, fun _ => rfl, by simp, fun _ => ?_, by simp⟩
          exact ⟨s.trace, [], s.tpCurr, rfl, h.stopping.running hrun, by simp, fun _ _ _ _ => rfl⟩
  | join =>
      simp only [SchedulerThread.step] at hstep
      split at hstep
      case isFalse => cases hstep
      case isTrue hended =>
        obtain rfl := Option.some.inj hstep
        have hstop : s.stop = true := h.stopping.told.mpr (by simp [hended.1])
        refine ⟨h.done, ⟨h.punctual.reached, h.punctual.called⟩, ?_, h.placed, h.since⟩
        exact ⟨by simp [hstop], h.stopping.leaving, h.stopping.running, h.stopping.winding,
          fun _ => hended.2⟩
  | tick n =>
      obtain rfl := Option.some.inj hstep
      refine ⟨h.done, ⟨fun hawake => ?_, h.punctual.called⟩, ?_, h.placed, ?_⟩
      · have := h.punctual.reached hawake
        simp only
        omega
      · exact ⟨h.stopping.told, h.stopping.leaving, h.stopping.running, h.stopping.winding,
          h.stopping.returned⟩
      · have := h.since
        simp only
        omega

/-- The loop is not concerned by what the owner and the clock do. -/
theorem KeepsTime.congr (h : KeepsTime timerTasks order lcm sch t₀ c s) (hpc : s'.pc = s.pc)
    (hcurr : s'.tpCurr = s.tpCurr) (hnext : s'.tpNext = s.tpNext)
    (hstop : s.stop = true → s'.stop = true) (htrace : timersOf s'.trace = timersOf s.trace) :
    KeepsTime timerTasks order lcm sch t₀ c s' :=
  ⟨h.onTime, h.told, h.follows.congr hpc hcurr hnext hstop htrace⟩

/-- The thread stays on time, as long as the time points are in range: the owner and the clock do not
move the loop, the thread does as `KeepsTime.advance` says. -/
theorem InTime.step (hl : Laid timerTasks lcm order sch) (hlcm : 0 < lcm)
    (hdvd : ∀ i ∈ order, intervalAt timerTasks i ∣ lcm) (hnd : order.Nodup) (hne : order ≠ [])
    (hclock₀ : -2 ^ 63 ≤ clock₀) (hsince : clock₀ ≤ s.clock) {l : SchedulerLabel}
    (hrange : s.InInt64 align l) (h : InTime timerTasks order lcm sch align clock₀ s)
    (hstep : s.step sch exitTasks align l = some s') :
    InTime timerTasks order lcm sch align clock₀ s' := by
  obtain ⟨t₀, c, htime, hbegin, haligned⟩ := h
  cases l with
  | thread =>
      have ha := advance_sound hstep
      obtain ⟨t₀', c', htime', heq⟩ := htime.advance hl hlcm hdvd hnd hne (hclock₀.trans hbegin)
        (hclock₀.trans hsince) hrange ha
      refine ⟨t₀', c', htime', ?_⟩
      rcases heq with rfl | rfl
      · exact ⟨hbegin, haligned⟩
      · cases align with
        | true => exact ⟨hsince.trans (lt_ceilTimePoint s.clock).le, fun _ => Int.dvd_mul_left _ _⟩
        | false => exact ⟨hsince, by simp⟩
  | stop =>
      simp only [SchedulerThread.step] at hstep
      split at hstep
      case isFalse => cases hstep
      case isTrue =>
        obtain rfl := Option.some.inj hstep
        exact ⟨t₀, c, htime.congr rfl rfl rfl (fun _ => rfl) (by simp), hbegin, haligned⟩
  | join =>
      simp only [SchedulerThread.step] at hstep
      split at hstep
      case isFalse => cases hstep
      case isTrue =>
        obtain rfl := Option.some.inj hstep
        exact ⟨t₀, c, htime.congr rfl rfl rfl id rfl, hbegin, haligned⟩
  | tick n =>
      obtain rfl := Option.some.inj hstep
      exact ⟨t₀, c, htime.congr rfl rfl rfl id rfl, hbegin, haligned⟩

end

/-- What the owner of a scheduler can rely on. -/
structure Life (sch : TimedScheduler) (initTasks exitTasks : Nat) (align : Bool)
    (s : SchedulerThread) : Prop where
  /-- The init tasks, the timed tasks, the exit tasks, each of the former once. -/
  order : ∃ timed, Timed timed ∧ works s.trace <+: whole initTasks exitTasks timed
  /-- No timed task is called before its time. -/
  punctual : ∀ i stamp clock, .timer i stamp clock ∈ s.trace → stamp ≤ clock
  /-- The exit tasks come after `stop_`, and of the timed tasks those of one stamp at most. -/
  running : s.stop = false → ∀ i, .exit i ∉ s.trace
  winding : s.stop = true → Winding s
  /-- When the destructor has returned, all has been done, and nothing comes any more. -/
  finished : s.destructor = .returned →
    (∃ timed, Timed timed ∧ works s.trace = whole initTasks exitTasks timed) ∧
      ∀ l s', s.step sch exitTasks align l = some s' → s'.trace = s.trace

/-- No timed task has been left out, or called twice: from some time on that is not before `clock₀`,
the stamps of each are the first multiples of its interval. -/
def OnStamps (timerTasks : List TimerTask) (align : Bool) (clock₀ : Int) (s : SchedulerThread) :
    Prop :=
  ∃ t₀, clock₀ ≤ t₀ ∧ (align = true → 1000000000 ∣ t₀) ∧
    ∀ i task, timerTasks[i]? = some task → ∃ n : Nat, callsOf i (timersOf s.trace) =
      (List.range n).map fun k : Nat => t₀ + k * task.interval

/-- When the destructor has returned, the thread has done all its work and does nothing more. -/
theorem Inv.finished {clock₀ : Int} {initTasks : Nat}
    (h : Inv sch initTasks exitTasks clock₀ s) (hreturned : s.destructor = .returned) :
    (∃ timed, Timed timed ∧ works s.trace = whole initTasks exitTasks timed) ∧
      ∀ l s', s.step sch exitTasks align l = some s' → s'.trace = s.trace := by
  have hended := h.stopping.returned hreturned
  have hdone := h.done
  rw [hended] at hdone
  refine ⟨hdone, fun l s' hstep => ?_⟩
  cases l with
  | thread => simp [SchedulerThread.step, SchedulerThread.advance, hended] at hstep
  | stop => simp [SchedulerThread.step, hreturned] at hstep
  | join => simp [SchedulerThread.step, hreturned] at hstep
  | tick n => exact Option.some.inj hstep ▸ rfl

/-! ## The tasks in the order of the heap

`order` lists the tasks as the heap gives them, so it has each of them once. -/

section

variable {timerTasks : List TimerTask} {order : List Nat}

theorem mem_order (horder : PopOrder timerTasks order) {i : Nat} :
    i ∈ order ↔ i < timerTasks.length := by
  rw [horder.perm.mem_iff, List.mem_range]

theorem nodup_order (horder : PopOrder timerTasks order) : order.Nodup :=
  horder.perm.nodup_iff.mpr List.nodup_range

theorem order_ne_nil (horder : PopOrder timerTasks order) (hne : timerTasks ≠ []) : order ≠ [] := by
  intro hnil
  have hmem := (mem_order horder).mpr (List.length_pos_of_ne_nil hne)
  simp [hnil] at hmem

/-- The interval of a task, by its number. -/
theorem intervalAt_eq {i : Nat} {task : TimerTask} (hi : timerTasks[i]? = some task) :
    intervalAt timerTasks i = task.interval := by
  simp [intervalAt, hi]

theorem intervalAt_dvd_period (horder : PopOrder timerTasks order) {i : Nat} (hi : i ∈ order) :
    intervalAt timerTasks i ∣ period timerTasks := by
  have hlt := (mem_order horder).mp hi
  rw [intervalAt_eq (List.getElem?_eq_getElem hlt)]
  exact dvd_lcmOf (List.mem_map_of_mem (List.getElem_mem hlt))

/-- The entries of the table name handlers. -/
theorem Laid.found {lcm : Int} {sch : TimedScheduler} (hl : Laid timerTasks lcm order sch) :
    ∀ e ∈ sch.tasks, ∀ idx ∈ e.2, ∃ i, sch.timerHandlers[idx]? = some i := by
  intro e he idx hidx
  have hmem := List.mem_map_of_mem (f := fun idx => sch.timerHandlers[idx]?) hidx
  rw [hl.map_entry he] at hmem
  obtain ⟨i, -, hi⟩ := List.mem_map.mp hmem
  exact ⟨i, hi.symm⟩

end

/-! ## The theorem -/

/-- **The life of a scheduler.** For every list of tasks the constructor succeeds; and whatever the
tasks do to the clock, and whenever the destructor is called, the tasks are called in their order,
none too early; after `stop_` has been set there is one stamp at most; and the destructor returns
when all has been done, and for good. As long as the time points that the thread makes are 64-bit
ones, each timed task is called for every one of its stamps. The invariants are `Inv` and
`InTime`. -/
theorem scheduler_life {timerTasks : List TimerTask} {order : List Nat} (hne : timerTasks ≠ [])
    (hpos : ∀ task ∈ timerTasks, 0 < task.interval) (hfit : period timerTasks ≤ INT64_MAX)
    (horder : PopOrder timerTasks order) :
    ∃ sch, timedScheduler timerTasks order = some sch ∧
      ∀ (initTasks exitTasks : Nat) (align : Bool) (clock₀ : Int) (ls : List SchedulerLabel)
        (s : SchedulerThread),
        run (step sch exitTasks align) (start initTasks clock₀) ls = some s →
          Life sch initTasks exitTasks align s ∧
          (-2 ^ 63 ≤ clock₀ →
            AllSteps (step sch exitTasks align) (InInt64 align) (start initTasks clock₀) ls →
            OnStamps timerTasks align clock₀ s) := by
  obtain ⟨sch, hsch, hl⟩ := timedScheduler_spec hne hpos hfit horder
  have hlcm : 0 < period timerTasks := lcmOf_pos (by simpa using hpos)
  have hne' := order_ne_nil horder hne
  have hnd := nodup_order horder
  have hdvd : ∀ i ∈ order, intervalAt timerTasks i ∣ period timerTasks :=
    fun i hi => intervalAt_dvd_period horder hi
  refine ⟨sch, hsch, fun initTasks exitTasks align clock₀ ls s hrun => ⟨?_, fun hclock₀ hrange => ?_⟩⟩
  · have h : Inv sch initTasks exitTasks clock₀ s :=
      run_inv _ (fun _ _ => True) _ (fun _ _ _ h _ hstep => h.step (Laid.found hl) hstep)
        inv_start (allSteps_true ..) hrun
    exact ⟨h.done.whole, h.punctual.called, h.stopping.running, h.stopping.winding, h.finished⟩
  · obtain ⟨-, t₀, c, htime, hbegin, haligned⟩ : Inv sch initTasks exitTasks clock₀ s ∧
        InTime timerTasks order (period timerTasks) sch align clock₀ s := by
      refine run_inv _ (InInt64 align) (fun s => Inv sch initTasks exitTasks clock₀ s ∧
        InTime timerTasks order (period timerTasks) sch align clock₀ s) ?_
        ⟨inv_start, inTime_start hne'⟩ hrange hrun
      rintro s l s' ⟨h, htime⟩ hl' hstep
      exact ⟨h.step (Laid.found hl) hstep,
        htime.step hl hlcm hdvd hnd hne' hclock₀ h.since hl' hstep⟩
    refine ⟨t₀, hbegin, haligned, fun i task hi => ?_⟩
    have hmem : i ∈ order := (mem_order horder).mpr (List.getElem?_eq_some_iff.mp hi).1
    have hpos' : 0 < intervalAt timerTasks i := by
      rw [intervalAt_eq hi]
      exact hpos task (List.mem_of_getElem? hi)
    rw [← intervalAt_eq hi]
    exact htime.stamps hdvd hnd hmem hpos'

/-- A task every 2 ns and one every 3 ns; the destructor is called while the thread sleeps for the
second stamp. -/
def stoppedAsleep : List SchedulerLabel :=
  List.replicate 8 .thread ++ [.stop, .tick 5] ++ List.replicate 5 .thread ++ [.join]

/-- The destructor is called while the thread sleeps. -/
theorem scheduler_life_stoppedAsleep :
    ∃ sch, timedScheduler [⟨2, .p0⟩, ⟨3, .p1⟩] [0, 1] = some sch ∧
      ∃ s, run (step sch 1 false) (start 1 100) stoppedAsleep = some s ∧
        s.trace = [.init 0, .timer 0 100 100, .timer 1 100 100, .stopped, .exit 0] ∧
        Life sch 1 1 false s ∧ OnStamps [⟨2, .p0⟩, ⟨3, .p1⟩] false 100 s := by
  have htable : timedScheduler [⟨2, .p0⟩, ⟨3, .p1⟩] [0, 1] =
      some ⟨6, [0, 1], [(0, [0, 1]), (2, [0]), (3, [1]), (4, [0])]⟩ := by decide +kernel
  obtain ⟨sch, hsch, hlife⟩ := @scheduler_life [⟨2, .p0⟩, ⟨3, .p1⟩] [0, 1] (by decide) (by decide)
    (by decide) ⟨by decide, by decide⟩
  rw [htable] at hsch
  cases hsch
  obtain ⟨hlife, hstamps⟩ := hlife 1 1 false 100 stoppedAsleep _ rfl
  exact ⟨_, htable, _, rfl, rfl, hlife, hstamps (by decide) (by decide +kernel)⟩

end SchedulerThread

end Cppev
