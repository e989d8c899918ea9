import Cppev.Scheduler.Basic

/-!
# The time line of the timed scheduler

The thread goes round the table of one period and only ever adds the distance to the next entry to
`tp_curr`; at the last entry that is the distance to the end of the period. `OnTime` relates where
it is in the table to the time that has passed since `start`, and `Told` relates that time to the
calls made. Time points are 64-bit numbers of nanoseconds, so all this is about runs in which the
next one is never beyond the last of them.

* `timed_scheduler_time_line`: a task has been called with `start + T` exactly when `T` is a
  multiple of its interval that lies before the current time point, and once for each.
* `timed_scheduler_wraps`: what happens when a time point wraps around.
-/

namespace Cppev

/-! ## Calls and entries -/

/-- The time stamps with which task `i` was called, in the order of the calls. -/
def callsOf (i : Nat) (calls : List (Nat × Int)) : List Int :=
  (calls.filter fun call => call.1 = i).map Prod.snd

theorem callsOf_append (i : Nat) (calls calls' : List (Nat × Int)) :
    callsOf i (calls ++ calls') = callsOf i calls ++ callsOf i calls' := by
  simp [callsOf]

/-- One call of each of the tasks `due`. -/
theorem callsOf_round {due : List Nat} (hnd : due.Nodup) (i : Nat) (stamp : Int) :
    callsOf i (due.map fun j => (j, stamp)) = if i ∈ due then [stamp] else [] := by
  induction due with
  | nil => rfl
  | cons j due ih =>
      obtain ⟨hj, hnd⟩ := List.nodup_cons.mp hnd
      have htail := ih hnd
      unfold callsOf at htail ⊢
      by_cases hij : j = i
      · subst hij
        simp [hj] at htail ⊢
        simpa using htail
      · have : i ≠ j := fun h => hij h.symm
        simpa [hij, this] using htail

theorem mem_of_lookup {tasks : List (Int × List Nat)} {k : Int} {vec : List Nat}
    (h : tasks.lookup k = some vec) : (k, vec) ∈ tasks := by
  induction tasks with
  | nil => exact nomatch h
  | cons e tasks ih =>
      obtain ⟨key, v⟩ := e
      grind

/-- And what is there is found, since no key is there twice. -/
theorem lookup_of_mem {tasks : List (Int × List Nat)} (hasc : Ascending tasks) {e : Int × List Nat}
    (h : e ∈ tasks) : tasks.lookup e.1 = some e.2 := by
  induction tasks with
  | nil => exact nomatch h
  | cons e' tasks ih =>
      obtain ⟨hhead, htail⟩ := List.pairwise_cons.mp hasc
      rcases List.mem_cons.mp h with rfl | h
      · exact List.lookup_cons_self
      · have hlt := hhead e h
        rw [List.lookup_cons, ih htail h]
        grind

/-- The key at which `iter` stands; past the end, the end of the period. -/
def nextKey (lcm : Int) : List (Int × List Nat) → Int
  | [] => lcm
  | e :: _ => e.1

/-! ## The table, read in order

The keys of the table ascend, from zero to below the period. Between an entry and the next no task
is due; this is all that the loop needs to know of it. -/

section Table

variable {timerTasks : List TimerTask} {lcm : Int} {order : List Nat} {sch : TimedScheduler}

theorem Laid.key_range (hl : Laid timerTasks lcm order sch) {e : Int × List Nat}
    (he : e ∈ sch.tasks) : 0 ≤ e.1 ∧ e.1 < lcm :=
  (hl.inside e.1 e.2 (lookup_of_mem hl.ascending he)).1

/-- An entry names the tasks due at its key. -/
theorem Laid.map_entry (hl : Laid timerTasks lcm order sch) {e : Int × List Nat}
    (he : e ∈ sch.tasks) :
    e.2.map (fun idx => sch.timerHandlers[idx]?) = (dueAt timerTasks e.1 order).map some := by
  obtain ⟨h0, h1⟩ := hl.key_range he
  have hentry := hl.entry e.1 h0 h1
  rw [lookup_of_mem hl.ascending he, Option.getD_some] at hentry
  rw [hl.handlers]
  exact hentry

/-- If every index has a value, `mapM` gives them all. -/
theorem mapM_of_map {vec due : List Nat} {f : Nat → Option Nat} (h : vec.map f = due.map some) :
    vec.mapM f = some due := by
  induction vec generalizing due with
  | nil => cases due <;> simp_all
  | cons idx vec ih =>
      cases due with
      | nil => exact nomatch h
      | cons i due =>
          obtain ⟨hi, hvec⟩ := List.cons.inj h
          simp [List.mapM_cons, hi, ih hvec]

/-- An entry is there because some task is due. -/
theorem Laid.due_of_entry (hl : Laid timerTasks lcm order sch) {e : Int × List Nat}
    (he : e ∈ sch.tasks) : ∃ i ∈ order, intervalAt timerTasks i ∣ e.1 := by
  have hvec : e.2 ≠ [] := (hl.inside e.1 e.2 (lookup_of_mem hl.ascending he)).2
  have hdue : dueAt timerTasks e.1 order ≠ [] := by
    intro hnil
    have := hl.map_entry he
    rw [hnil] at this
    exact hvec (List.map_eq_nil_iff.mp this)
  obtain ⟨i, hi⟩ := List.exists_mem_of_ne_nil _ hdue
  simp only [dueAt, List.mem_filter, decide_eq_true_eq] at hi
  exact ⟨i, hi⟩

/-- A task that is due has an entry. -/
theorem Laid.entry_of_due (hl : Laid timerTasks lcm order sch) {k : Int} (h0 : 0 ≤ k)
    (h1 : k < lcm) {i : Nat} (hi : i ∈ order) (hdvd : intervalAt timerTasks i ∣ k) :
    ∃ vec, (k, vec) ∈ sch.tasks := by
  have hmem : i ∈ dueAt timerTasks k order := by simp [dueAt, hi, hdvd]
  cases hlook : sch.tasks.lookup k with
  | some vec => exact ⟨vec, mem_of_lookup hlook⟩
  | none =>
      have hentry := hl.entry k h0 h1
      rw [hlook] at hentry
      rw [List.map_eq_nil_iff.mp hentry.symm] at hmem
      cases hmem

/-- Nothing is due between an entry and the next. -/
theorem Laid.gap (hl : Laid timerTasks lcm order sch) {before next : List (Int × List Nat)}
    {curr : Int × List Nat} (htasks : sch.tasks = before ++ curr :: next) {k : Int}
    (hlow : curr.1 < k) (hhigh : k < nextKey lcm next) {i : Nat} (hi : i ∈ order) :
    ¬ intervalAt timerTasks i ∣ k := by
  intro hdvd
  have hcurr : 0 ≤ curr.1 := (hl.key_range (e := curr) (by simp [htasks])).1
  have hlcm : nextKey lcm next ≤ lcm := by
    cases next with
    | nil => exact le_rfl
    | cons e next => exact (hl.key_range (e := e) (by simp [htasks])).2.le
  obtain ⟨vec, hvec⟩ := hl.entry_of_due (hcurr.trans hlow.le) (hhigh.trans_le hlcm) hi hdvd
  have hasc := hl.ascending
  rw [htasks] at hvec hasc
  obtain ⟨-, hright, hcross⟩ := List.pairwise_append.mp hasc
  obtain ⟨hnext, hasc'⟩ := List.pairwise_cons.mp hright
  rcases List.mem_append.mp hvec with hb | hc
  · have := hcross _ hb curr (by simp)
    simp only at this
    omega
  · rcases List.mem_cons.mp hc with rfl | hn
    · exact (lt_irrefl _ hlow).elim
    · cases next with
      | nil => exact nomatch hn
      | cons e next =>
          rcases List.mem_cons.mp hn with rfl | hn
          · exact (lt_irrefl _ hhigh).elim
          · have := (List.pairwise_cons.mp hasc').1 _ hn
            simp only [nextKey] at this hhigh
            omega

/-- Every task is due at the beginning of a period, so the table starts there. -/
theorem Laid.first_key (hl : Laid timerTasks lcm order sch) (hlcm : 0 < lcm) (hne : order ≠ []) :
    sch.tasks ≠ [] ∧ nextKey lcm sch.tasks = 0 := by
  obtain ⟨i, hi⟩ := List.exists_mem_of_ne_nil _ hne
  obtain ⟨vec, hvec⟩ := hl.entry_of_due le_rfl hlcm hi (dvd_zero _)
  cases htasks : sch.tasks with
  | nil => simp [htasks] at hvec
  | cons e rest =>
      refine ⟨List.cons_ne_nil _ _, ?_⟩
      have h0 : 0 ≤ e.1 := (hl.key_range (e := e) (by simp [htasks])).1
      have hasc := hl.ascending
      rw [htasks] at hvec hasc
      rcases List.mem_cons.mp hvec with rfl | hvec
      · rfl
      · have := (List.pairwise_cons.mp hasc).1 _ hvec
        simp only [nextKey] at this ⊢
        omega

end Table

/-! ## The loop

The place in the table and the time that has passed differ by whole periods (`OnTime`); a task has
been called at the multiples of its interval before that time (`Told`). A round calls what is due
now, and adds the distance to the time at which something is due next. -/

section Loop

variable {timerTasks : List TimerTask} {lcm : Int} {order : List Nat} {sch : TimedScheduler}
  {t₀ : Int} {s s' : LoopState}

/-- Where in the table the thread is, by the time that has passed. Once `stop_` is set, the outer
loop is not entered again and its place does not matter. -/
def OnTime (lcm : Int) (sch : TimedScheduler) (t₀ : Int) (s : LoopState) : Prop :=
  match s.pc with
  | .outer => s.stop = true ∨ lcm ∣ s.tpCurr - t₀
  | .inner iter => ∃ before, sch.tasks = before ++ iter ∧
      lcm ∣ s.tpCurr - t₀ - nextKey lcm iter
  | .exited => True

/-- The calls made are those due before the current time point. -/
structure Told (timerTasks : List TimerTask) (order : List Nat) (t₀ : Int) (s : LoopState) :
    Prop where
  rounds : s.rounds ≤ s.tpCurr - t₀
  due : ∃ i ∈ order, intervalAt timerTasks i ∣ s.tpCurr - t₀
  increasing : ∀ i ∈ order, (callsOf i s.calls).Pairwise (· < ·)
  called : ∀ i ∈ order, ∀ T, t₀ + T ∈ callsOf i s.calls ↔
    (0 ≤ T ∧ intervalAt timerTasks i ∣ T) ∧ T < s.tpCurr - t₀

/-- Nothing has been called before the beginning. -/
theorem Told.start (hne : order ≠ []) (t₀ : Int) :
    Told timerTasks order t₀ (TimedScheduler.start t₀) := by
  obtain ⟨i, hi⟩ := List.exists_mem_of_ne_nil _ hne
  refine ⟨by simp [TimedScheduler.start], ⟨i, hi, by simp [TimedScheduler.start]⟩, ?_, ?_⟩
  · intro i _
    exact .nil
  · intro i _ T
    simp only [TimedScheduler.start, callsOf, List.filter_nil, List.map_nil, List.not_mem_nil,
      false_iff]
    omega

/-- The tables of two periods agree on what is due. -/
theorem dvd_iff_of_period {d t k : Int} (hd : d ∣ lcm) (hk : lcm ∣ t - k) : d ∣ t ↔ d ∣ k := by
  have : d ∣ t - k := hd.trans hk
  constructor
  · intro ht
    simpa using dvd_sub ht this
  · intro hk'
    simpa using dvd_add this hk'

/-- The distance to the next entry, or to the end of the period. -/
theorem Laid.span_eq (hl : Laid timerTasks lcm order sch) (curr : Int × List Nat)
    (next : List (Int × List Nat)) : sch.span curr next = nextKey lcm next - curr.1 := by
  cases next <;> simp [TimedScheduler.span, nextKey, hl.interval]

/-- A round finds a handler for each index. -/
theorem body_eq (hl : Laid timerTasks lcm order sch) {curr : Int × List Nat}
    (hcurr : curr ∈ sch.tasks) (next : List (Int × List Nat)) :
    sch.body s curr next = some { s with
      pc := .inner next
      calls := s.calls ++ (dueAt timerTasks curr.1 order).map fun i => (i, s.tpCurr)
      tpCurr := toInt64 (s.tpCurr + (nextKey lcm next - curr.1))
      rounds := s.rounds + 1 } := by
  rw [← hl.span_eq]
  simp [TimedScheduler.body, mapM_of_map (hl.map_entry hcurr)]

/-! ### The calls of one task -/

section OneTask

variable {times : List Int} {interval tp : Int}

/-- A call now is later than all before. -/
theorem increasing_round (hinc : times.Pairwise (· < ·))
    (htimes : ∀ T, t₀ + T ∈ times ↔ (0 ≤ T ∧ interval ∣ T) ∧ T < tp - t₀) :
    (times ++ if interval ∣ tp - t₀ then [tp] else []).Pairwise (· < ·) := by
  refine List.pairwise_append.mpr ⟨hinc, by split <;> simp, fun a ha b hb => ?_⟩
  have hb' : b = tp := by
    split at hb
    · simpa using hb
    · simp at hb
  have := ((htimes (a - t₀)).mp (by simpa using ha)).2
  omega

/-- If the task is not due between now and the next round. -/
theorem mem_times_round {span : Int} (hnow : 0 ≤ tp - t₀) (hspan : 0 < span)
    (hgap : ∀ T, tp - t₀ < T → T < tp - t₀ + span → ¬ interval ∣ T)
    (htimes : ∀ T, t₀ + T ∈ times ↔ (0 ≤ T ∧ interval ∣ T) ∧ T < tp - t₀) (T : Int) :
    t₀ + T ∈ times ++ (if interval ∣ tp - t₀ then [tp] else []) ↔
      (0 ≤ T ∧ interval ∣ T) ∧ T < tp - t₀ + span := by
  rw [List.mem_append, htimes]
  constructor
  · rintro (⟨hT, hlt⟩ | hcalled)
    · exact ⟨hT, by omega⟩
    · split at hcalled
      case isTrue hdue =>
        obtain rfl : T = tp - t₀ := by
          have := List.mem_singleton.mp hcalled
          omega
        exact ⟨⟨hnow, hdue⟩, by omega⟩
      case isFalse => exact nomatch hcalled
  · rintro ⟨⟨h0, hT⟩, hlt⟩
    rcases lt_trichotomy T (tp - t₀) with hbefore | rfl | hafter
    · exact .inl ⟨⟨h0, hT⟩, hbefore⟩
    · exact .inr (by simp [hT])
    · exact (hgap T hafter hlt hT).elim

end OneTask

/-- A round calls what is due, and nothing comes due before the next one. -/
theorem Told.round (hl : Laid timerTasks lcm order sch)
    (hdvd : ∀ i ∈ order, intervalAt timerTasks i ∣ lcm) (hnd : order.Nodup)
    {before next : List (Int × List Nat)} {curr : Int × List Nat}
    (htasks : sch.tasks = before ++ curr :: next) (htime : lcm ∣ s.tpCurr - t₀ - curr.1)
    (hold : Told timerTasks order t₀ s) :
    Told timerTasks order t₀ { s with
      pc := .inner next
      calls := s.calls ++ (dueAt timerTasks curr.1 order).map fun i => (i, s.tpCurr)
      tpCurr := s.tpCurr + (nextKey lcm next - curr.1)
      rounds := s.rounds + 1 } := by
  have hcurr : curr ∈ sch.tasks := by simp [htasks]
  have hspan : curr.1 < nextKey lcm next := by
    cases next with
    | nil => exact (hl.key_range hcurr).2
    | cons e next =>
        have hasc := hl.ascending
        rw [htasks] at hasc
        exact (List.pairwise_cons.mp (List.pairwise_append.mp hasc).2.1).1 e (by simp)
  have hiff : ∀ i ∈ order, ∀ x, intervalAt timerTasks i ∣ s.tpCurr - t₀ + x ↔
      intervalAt timerTasks i ∣ curr.1 + x := by
    intro i hi x
    refine dvd_iff_of_period (hdvd i hi) ?_
    have : s.tpCurr - t₀ + x - (curr.1 + x) = s.tpCurr - t₀ - curr.1 := by omega
    rwa [this]
  have hcalls : ∀ i ∈ order, callsOf i (s.calls ++ (dueAt timerTasks curr.1 order).map fun i =>
      (i, s.tpCurr)) = callsOf i s.calls ++
        if intervalAt timerTasks i ∣ s.tpCurr - t₀ then [s.tpCurr] else [] := by
    intro i hi
    have hi0 := hiff i hi 0
    simp only [add_zero] at hi0
    have hdue : (dueAt timerTasks curr.1 order).Nodup := hnd.filter _
    rw [callsOf_append, callsOf_round hdue]
    simp [dueAt, hi, hi0]
  obtain ⟨hrounds, ⟨i₀, hi₀, -⟩, hinc, hcalled⟩ := hold
  refine ⟨by simp only; push_cast; omega, ?_, ?_, ?_⟩
  · have hnext : ∃ i ∈ order, intervalAt timerTasks i ∣ nextKey lcm next := by
      cases next with
      | nil => exact ⟨i₀, hi₀, hdvd i₀ hi₀⟩
      | cons e next => exact hl.due_of_entry (by simp [htasks])
    obtain ⟨i, hi, hdue⟩ := hnext
    refine ⟨i, hi, ?_⟩
    have := (hiff i hi (nextKey lcm next - curr.1)).mpr (by simpa using hdue)
    simp only
    convert this using 1
    omega
  · intro i hi
    simp only [hcalls i hi]
    exact increasing_round (hinc i hi) (hcalled i hi)
  · intro i hi T
    have hnow : 0 ≤ s.tpCurr - t₀ := by omega
    have hgap : ∀ T, s.tpCurr - t₀ < T → T < s.tpCurr - t₀ + (nextKey lcm next - curr.1) →
        ¬ intervalAt timerTasks i ∣ T := by
      -- between this entry and the next one
      intro T hlow hhigh hT
      have hx := (hiff i hi (T - (s.tpCurr - t₀))).mp (by simpa using hT)
      exact hl.gap htasks (by omega) (by omega) hi hx
    have hmem := mem_times_round hnow (Int.sub_pos_of_lt hspan) hgap (hcalled i hi) T
    simp only [hcalls i hi, hmem]
    refine and_congr_right fun _ => ?_
    omega

/-- `stop_` and the place in the code do not matter to the calls made. -/
theorem Told.congr (h : Told timerTasks order t₀ s) (htp : s'.tpCurr = s.tpCurr)
    (hcalls : s'.calls = s.calls) (hrounds : s'.rounds = s.rounds) :
    Told timerTasks order t₀ s' := by
  obtain ⟨h1, h2, h3, h4⟩ := h
  constructor <;> simpa only [htp, hcalls, hrounds]

/-- Where a thread is, which has not left its loops: in the table that the constructor has made. -/
def InTable (sch : TimedScheduler) (s : LoopState) : Prop :=
  s.pc ≠ .exited ∧ ∀ iter, s.pc = .inner iter → ∃ before, sch.tasks = before ++ iter

/-- No step reads past the end of a vector. -/
theorem step_isSome (hl : Laid timerTasks lcm order sch) (hplace : InTable sch s) (stopped : Bool) :
    (sch.step s stopped).isSome := by
  obtain ⟨hpc, htable⟩ := hplace
  unfold TimedScheduler.step
  cases hpc' : s.pc with
  | exited => exact (hpc hpc').elim
  | outer => rfl
  | inner iter =>
      simp only
      split
      case isTrue => rfl
      case isFalse =>
        cases iter with
        | nil => rfl
        | cons curr next =>
            obtain ⟨before, htasks⟩ := htable _ hpc'
            have hcurr : curr ∈ sch.tasks := by simp [htasks]
            simp only
            rw [body_eq hl hcurr]
            rfl

/-- The place in the table is one of its entries. -/
theorem OnTime.inTable (h : OnTime lcm sch t₀ s) (hpc : s.pc ≠ .exited) : InTable sch s := by
  refine ⟨hpc, fun iter hiter => ?_⟩
  unfold OnTime at h
  simp only [hiter] at h
  obtain ⟨before, htasks, -⟩ := h
  exact ⟨before, htasks⟩

/-! ### Every step -/

/-- A step keeps the place and the calls, by the cases of where the thread is. What a round adds to
`tp_curr` is what the next entry is away; that the sum does not wrap around is needed there only. -/
theorem step_spec (hl : Laid timerTasks lcm order sch) (hlcm : 0 < lcm)
    (hdvd : ∀ i ∈ order, intervalAt timerTasks i ∣ lcm) (hnd : order.Nodup) (hne : order ≠ [])
    (hstart : -2 ^ 63 ≤ t₀) (htime : OnTime lcm sch t₀ s) (hold : Told timerTasks order t₀ s)
    (hpc : s.pc ≠ .exited) {stopped : Bool} (hrange : sch.InInt64 s stopped) :
    ∃ s', sch.step s stopped = some s' ∧ OnTime lcm sch t₀ s' ∧ Told timerTasks order t₀ s' := by
  unfold OnTime at htime
  cases hpc' : s.pc with
  | exited => exact (hpc hpc').elim
  | outer =>
      simp only [hpc'] at htime
      cases hstop : (s.stop || stopped) with
      | true =>
          have hstep : sch.step s stopped = some { s with pc := .exited, stop := true } := by
            simp [TimedScheduler.step, hpc', hstop]
          exact ⟨_, hstep, trivial, hold.congr rfl rfl rfl⟩
      | false =>
          have hstep : sch.step s stopped =
              some { s with pc := .inner sch.tasks, stop := false } := by
            simp [TimedScheduler.step, hpc', hstop]
          have htime' : lcm ∣ s.tpCurr - t₀ := htime.resolve_left (by simp_all)
          refine ⟨_, hstep, ⟨[], rfl, ?_⟩, hold.congr rfl rfl rfl⟩
          simpa [(hl.first_key hlcm hne).2] using htime'
  | inner iter =>
      simp only [hpc'] at htime
      obtain ⟨before, htasks, hkey⟩ := htime
      cases hstop : (s.stop || stopped) with
      | true =>
          have hstep : sch.step s stopped = some { s with pc := .outer, stop := true } := by
            simp [TimedScheduler.step, hpc', hstop]
          exact ⟨_, hstep, .inl rfl, hold.congr rfl rfl rfl⟩
      | false =>
          cases iter with
          | nil =>
              have hstep : sch.step s stopped = some { s with pc := .outer, stop := false } := by
                simp [TimedScheduler.step, hpc', hstop]
              refine ⟨_, hstep, .inr ?_, hold.congr rfl rfl rfl⟩
              simpa [nextKey] using dvd_add hkey (dvd_refl lcm)
          | cons curr next =>
              have hcurr : curr ∈ sch.tasks := by simp [htasks]
              have hstep : sch.step s stopped =
                  sch.body { s with stop := false } curr next := by
                simp [TimedScheduler.step, hpc', hstop]
              have hkey' : lcm ∣ s.tpCurr - t₀ - curr.1 := hkey
              have hround := Told.round (s := { s with stop := false }) hl hdvd hnd htasks hkey'
                (hold.congr rfl rfl rfl)
              -- the sum is not less than `t₀`, so it is as it should be
              have hsum : toInt64 (s.tpCurr + (nextKey lcm next - curr.1)) =
                  s.tpCurr + (nextKey lcm next - curr.1) := by
                have hlast : s.tpCurr + sch.span curr next ≤ INT64_MAX := by
                  have hinner := hrange
                  simp only [TimedScheduler.InInt64, hpc'] at hinner
                  exact hinner hstop
                rw [hl.span_eq] at hlast
                have hrounds := hround.rounds
                simp only at hrounds
                exact toInt64_of_range (by omega) hlast
              rw [body_eq hl hcurr] at hstep
              simp only [hsum] at hstep
              refine ⟨_, hstep, ⟨before ++ [curr], by simp [htasks], ?_⟩, hround⟩
              have : s.tpCurr + (nextKey lcm next - curr.1) - t₀ - nextKey lcm next =
                  s.tpCurr - t₀ - curr.1 := by omega
              simpa only [this] using hkey'

end Loop

/-! ## The theorem -/

/-- **The time line.** For every list of tasks the constructor succeeds, and in every run of the
thread, from whatever time point, however long and whenever it is stopped, in which the time points
are 64-bit ones: it never reads past the end of a vector; each task has been called with increasing
time stamps, and with `t₀ + T` exactly if `T` is a multiple of its interval before the current time
point, which is one at which a task is due. The invariant is `OnTime` with `Told`. -/
theorem timed_scheduler_time_line {timerTasks : List TimerTask} {order : List Nat}
    (hne : timerTasks ≠ []) (hpos : ∀ task ∈ timerTasks, 0 < task.interval)
    (hfit : period timerTasks ≤ INT64_MAX) (horder : PopOrder timerTasks order) :
    ∃ sch, timedScheduler timerTasks order = some sch ∧
      ∀ (t₀ : Int) (stops : List Bool) (s : LoopState), -2 ^ 63 ≤ t₀ →
        AllSteps sch.step sch.InInt64 (TimedScheduler.start t₀) stops →
        run sch.step (TimedScheduler.start t₀) stops = some s →
          (s.pc ≠ .exited → ∀ stopped, (sch.step s stopped).isSome) ∧
          s.rounds ≤ s.tpCurr - t₀ ∧
          (∃ task ∈ timerTasks, task.interval ∣ s.tpCurr - t₀) ∧
          ∀ (i : Nat) (task : TimerTask), timerTasks[i]? = some task →
            (callsOf i s.calls).Pairwise (· < ·) ∧
            ∀ T, t₀ + T ∈ callsOf i s.calls ↔
              (0 ≤ T ∧ task.interval ∣ T) ∧ T < s.tpCurr - t₀ := by
  obtain ⟨sch, hsch, hl⟩ := timedScheduler_spec hne hpos hfit horder
  -- what `order` holds are the positions of the tasks, so that the lemmas on `order` are about
  -- tasks
  have hmem : ∀ i, i ∈ order ↔ i < timerTasks.length := fun i => by
    rw [horder.perm.mem_iff, List.mem_range]
  have hint : ∀ i (h : i < timerTasks.length),
      intervalAt timerTasks i = timerTasks[i].interval := fun i h => by
    simp [intervalAt, List.getElem?_eq_getElem h]
  have hlcm : 0 < period timerTasks := lcmOf_pos (by simpa using hpos)
  have hdvd : ∀ i ∈ order, intervalAt timerTasks i ∣ period timerTasks := fun i hi => by
    have h := (hmem i).mp hi
    rw [hint i h]
    exact dvd_lcmOf (List.mem_map_of_mem (List.getElem_mem h))
  have hnd : order.Nodup := horder.perm.nodup_iff.mpr List.nodup_range
  have hne' : order ≠ [] := by
    intro hnil
    have := (hmem 0).mpr (List.length_pos_of_ne_nil hne)
    simp [hnil] at this
  refine ⟨sch, hsch, fun t₀ stops s hstart hrange hrun => ?_⟩
  obtain ⟨htime, htold⟩ : OnTime (period timerTasks) sch t₀ s ∧ Told timerTasks order t₀ s := by
    -- the run lemma, with `step_spec` for each step
    have htime₀ : OnTime (period timerTasks) sch t₀ (TimedScheduler.start t₀) :=
      Or.inr (by simp [TimedScheduler.start])
    refine run_inv sch.step sch.InInt64
      (fun s => OnTime (period timerTasks) sch t₀ s ∧ Told timerTasks order t₀ s) ?_
      ⟨htime₀, Told.start hne' t₀⟩ hrange hrun
    rintro s stopped s' ⟨htime, htold⟩ hrange hstep
    have hpc : s.pc ≠ .exited := by
      intro hpc
      simp [TimedScheduler.step, hpc] at hstep
    obtain ⟨s₁, hstep', hinv⟩ := step_spec hl hlcm hdvd hnd hne' hstart htime htold hpc hrange
    rw [hstep'] at hstep
    cases hstep
    exact hinv
  refine ⟨fun hpc stopped => step_isSome hl (htime.inTable hpc) stopped, htold.rounds, ?_,
    fun i task hi => ?_⟩
  · obtain ⟨i, hi, hdue⟩ := htold.due
    have h := (hmem i).mp hi
    exact ⟨timerTasks[i], List.getElem_mem h, hint i h ▸ hdue⟩
  · obtain ⟨h, rfl⟩ := List.getElem?_eq_some_iff.mp hi
    have hi' := (hmem i).mpr h
    exact ⟨htold.increasing i hi', hint i h ▸ htold.called i hi'⟩

/-- Two tasks, every 2 ns and every 3 ns, over a period and the beginning of the next. -/
theorem timed_scheduler_time_line_two_three :
    ∃ sch, timedScheduler [⟨2, .p0⟩, ⟨3, .p1⟩] [0, 1] = some sch ∧
      ∃ s, run sch.step (TimedScheduler.start 100) (List.replicate 8 false) = some s ∧
        s.tpCurr = 108 ∧
        ∀ T, 100 + T ∈ callsOf 1 s.calls ↔ (0 ≤ T ∧ (3 : Int) ∣ T) ∧ T < s.tpCurr - 100 := by
  have htable : timedScheduler [⟨2, .p0⟩, ⟨3, .p1⟩] [0, 1] =
      some ⟨6, [0, 1], [(0, [0, 1]), (2, [0]), (3, [1]), (4, [0])]⟩ := by decide +kernel
  obtain ⟨sch, hsch, hline⟩ := @timed_scheduler_time_line [⟨2, .p0⟩, ⟨3, .p1⟩] [0, 1] (by decide)
    (by decide) (by decide) ⟨by decide, by decide⟩
  rw [htable] at hsch
  cases hsch
  exact ⟨_, htable, _, rfl, rfl,
    ((hline 100 (List.replicate 8 false) _ (by decide) (by decide +kernel) rfl).2.2.2 1 ⟨3, .p1⟩
      rfl).2⟩

/-- A task every 8333333333333332992 ns, from a time point of this century on. Its interval is a
64-bit number, and so the only multiple. The first `tp_next` is not: it wraps around to a time before
the start, and the task is called with that as its stamp, and not with `t₀ + 8333333333333332992`. -/
theorem timed_scheduler_wraps :
    period [⟨8333333333333332992, .p0⟩] ≤ INT64_MAX ∧
      ∃ sch, timedScheduler [⟨8333333333333332992, .p0⟩] [0] = some sch ∧
        ∃ s, run sch.step (TimedScheduler.start 1700000000000000000) (List.replicate 5 false) =
            some s ∧
          callsOf 0 s.calls = [1700000000000000000, -8413410740376218624] ∧
            ¬ ∀ T, 1700000000000000000 + T ∈ callsOf 0 s.calls →
              0 ≤ T ∧ (8333333333333332992 : Int) ∣ T := by
  have htable : timedScheduler [⟨8333333333333332992, .p0⟩] [0] =
      some ⟨8333333333333332992, [0], [(0, [0])]⟩ := by decide +kernel
  let last : LoopState := ⟨.inner [], -80077407042885632, false,
    [(0, 1700000000000000000), (0, -8413410740376218624)], 2⟩
  have hrun : run (TimedScheduler.step ⟨8333333333333332992, [0], [(0, [0])]⟩)
      (TimedScheduler.start 1700000000000000000) (List.replicate 5 false) = some last := by
    decide +kernel
  have hcalls : callsOf 0 last.calls = [1700000000000000000, -8413410740376218624] := rfl
  refine ⟨by decide +kernel, _, htable, last, hrun, hcalls, fun hall => ?_⟩
  have hneg := (hall (-10113410740376218624) (by rw [hcalls]; decide)).1
  revert hneg
  decide

end Cppev
