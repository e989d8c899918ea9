import Cppev.Lib.Monitor

/-!
# The one-time fence

`pshared_one_time_fence`, statement by statement, for any number of threads or processes that call
`wait` and `notify` as often as they like. `pthread_cond_signal` wakes at least one waiter; how many
more is left open.

* `fence_spec`: no `wait` returns before `ok_` is set; nobody is left blocked once a `notify` has
  returned, as long as every signal wakes all who wait at that time.
-/

namespace Cppev

/-! ## The fence -/

/-- Where a thread is in `wait` or in `notify`. -/
inductive FencePc where
  | outside
  /-- At `if (!ok_)`, without the lock. -/
  | waitTest
  | waitLock
  /-- At the second `if (!ok_)`. -/
  | waitRetest
  /-- At the predicate of `cond_.wait`, and at the `pthread_cond_wait` after it. -/
  | waitPredicate | waitCond
  | waitUnlock | waitReturn
  /-- At `if (!ok_)`, without the lock. -/
  | notifyTest
  | notifyLock
  /-- At `ok_ = true`, and at `cond_.notify_one()` after it. -/
  | notifySet | notifySignal
  | notifyUnlock | notifyReturn
  deriving DecidableEq, Repr

/-- `ok_`, and whether some `notify` has returned. -/
structure PsharedOneTimeFence where
  ok : Bool
  /-- The history: how often `ok_` was set, and how many calls of each kind have returned. -/
  sets : Nat
  waited : Nat
  notified : Nat
  deriving DecidableEq, Repr

namespace PsharedOneTimeFence

/-- The statements of `wait` and of `notify`. -/
def stmt : FencePc → Stmt PsharedOneTimeFence FencePc
  | .outside => .outside
  | .waitTest => .act fun f => (f, if f.ok then .waitReturn else .waitLock)
  | .waitLock => .lock .waitRetest
  | .waitRetest => .act fun f => (f, if f.ok then .waitUnlock else .waitPredicate)
  | .waitPredicate => .act fun f => (f, if f.ok then .waitUnlock else .waitCond)
  | .waitCond => .wait .waitPredicate
  | .waitUnlock => .unlock .waitReturn
  | .waitReturn => .act fun f => ({ f with waited := f.waited + 1 }, .outside)
  | .notifyTest => .act fun f => (f, if f.ok then .notifyReturn else .notifyLock)
  | .notifyLock => .lock .notifySet
  | .notifySet => .act fun f => ({ f with ok := true, sets := f.sets + 1 }, .notifySignal)
  | .notifySignal => .notifyOne .notifyUnlock
  | .notifyUnlock => .unlock .notifyReturn
  | .notifyReturn => .act fun f => ({ f with notified := f.notified + 1 }, .outside)

/-- The fence with `n` threads. -/
def threads (n : Nat) : Threads (Fin n) PsharedOneTimeFence FencePc where
  stmt := fun _ => stmt
  calls := fun _ k k' => k = .outside && (k' = .waitTest || k' = .notifyTest)

/-- `ok_` is not set. -/
def init (n : Nat) : Monitor (Fin n) PsharedOneTimeFence FencePc where
  data := ⟨false, 0, 0, 0⟩
  owner := none
  depth := 0
  pc := fun _ => .outside
  mode := fun _ => .running

variable {n : Nat} {s s' : Monitor (Fin n) PsharedOneTimeFence FencePc}
  {l : MonitorLabel (Fin n) FencePc}

/-! ## What `ok_` says about the threads

`ok_` is set once and for ever, under the lock. A waiter leaves its loop only when it has seen
it. -/

/-- The claims. -/
def assertions (n : Nat) : Monitor.Assertions (Fin n) PsharedOneTimeFence FencePc where
  always := fun f => (0 < f.waited ∨ 0 < f.notified → f.ok = true) ∧ (f.ok = true → 0 < f.sets)
  free := fun _ => True
  here := fun _ k f =>
    match k with
    | .waitCond => f.ok = false
    | .waitUnlock | .waitReturn | .notifySignal | .notifyUnlock | .notifyReturn => f.ok = true
    | _ => True
  held := fun _ k =>
    match k with
    | .waitRetest | .waitPredicate | .waitCond | .waitUnlock => 1
    | .notifySet | .notifySignal | .notifyUnlock => 1
    | _ => 0
  parked := fun _ k _ => k = .waitPredicate

theorem outline (n : Nat) : Monitor.Outline (threads n) (assertions n) where
  calls := fun _ _ _ _ h _ _ => by
    simp only [threads, Bool.and_eq_true, Bool.or_eq_true, decide_eq_true_eq] at h
    obtain ⟨rfl, rfl | rfl⟩ := h <;> simp [assertions]
  own := fun _ k f halways hhere => by
    cases k with
    | outside => trivial
    | waitTest | waitRetest | notifyTest =>
        refine Monitor.Assertions.shown_test rfl halways ?_ ?_
        · exact fun hset => ⟨hset, rfl⟩
        · exact fun _ => ⟨trivial, rfl⟩
    | waitPredicate =>
        refine Monitor.Assertions.shown_test rfl halways ?_ ?_
        · exact fun hset => ⟨hset, rfl⟩
        · exact fun hunset => ⟨Bool.eq_false_of_not_eq_true hunset, rfl⟩
    | waitLock | notifyLock => exact fun _ => ⟨trivial, rfl⟩
    | waitCond => exact ⟨rfl, rfl, rfl, trivial⟩
    | waitUnlock | notifyUnlock => exact ⟨hhere, rfl, fun _ => trivial⟩
    | waitReturn | notifyReturn =>
        exact ⟨⟨fun _ => hhere, halways.2⟩, trivial, rfl, fun _ _ => trivial⟩
    | notifySet => exact ⟨⟨fun _ => rfl, fun _ => Nat.succ_pos _⟩, rfl, rfl, nofun⟩
    | notifySignal => exact ⟨hhere, rfl⟩
  others := fun _ _ k k' f _ _ _ _ hhere hst hapart => by
    cases k <;> simp only [threads, stmt, reduceCtorEq, Stmt.act.injEq] at hst <;> subst hst
    case notifySet =>
      -- the one statement that changes what the others may rely on; they do not have the lock
      have hheld := hapart.resolve_left Nat.one_ne_zero
      cases k' with
      | waitCond => exact absurd hheld Nat.one_ne_zero
      | waitUnlock | waitReturn | notifySignal | notifyUnlock | notifyReturn => rfl
      | _ => trivial
    all_goals exact hhere
  waiters := fun _ _ _ _ _ _ _ _ _ hparked _ => hparked
  resume := fun _ k _ _ _ hparked => by
    obtain rfl : k = .waitPredicate := hparked
    trivial

theorem outlined {ls : List (MonitorLabel (Fin n) FencePc)}
    (hrun : run (Monitor.step (threads n)) (init n) ls = some s) :
    Monitor.Outlined (assertions n) s := by
  refine Monitor.Outlined.of_run (outline n) (.init ?_ rfl rfl ?_ ?_ trivial ?_) hrun
  · exact fun _ => rfl
  · exact fun _ => rfl
  · simp [assertions, init]
  · exact fun _ => trivial

/-! ## Who is left waiting

A thread that blocks has found `ok_` unset under the lock, so it is blocked before the signal. The
signal may miss it, and nobody signals again; `ReachesAll` excludes this. -/

/-- Nobody is in `cond_.wait` without a wake-up pending. -/
def Quiet (s : Monitor (Fin n) PsharedOneTimeFence FencePc) : Prop := ∀ i, s.mode i ≠ .blocked

instance (s : Monitor (Fin n) PsharedOneTimeFence FencePc) : Decidable (Quiet s) :=
  inferInstanceAs (Decidable (∀ _, _))

/-- A signal wakes every waiter there is, and `notify` is left by its first test only when there is
none. -/
def ReachesAll (s : Monitor (Fin n) PsharedOneTimeFence FencePc) :
    MonitorLabel (Fin n) FencePc → Prop
  | .signal _ woken => ∀ j, s.mode j = .blocked → j ∈ woken
  | .next i => s.pc i = .notifyTest → s.data.ok = true → Quiet s
  | _ => True

instance (s : Monitor (Fin n) PsharedOneTimeFence FencePc) (l : MonitorLabel (Fin n) FencePc) :
    Decidable (ReachesAll s l) := by
  cases l <;> unfold ReachesAll <;> infer_instance

/-- Once `ok_` is set, the signal is still to come or nobody is blocked; after it, nobody is. -/
structure Signalled (s : Monitor (Fin n) PsharedOneTimeFence FencePc) : Prop where
  set : s.data.ok = true → (∃ i, s.pc i = .notifySignal) ∨ Quiet s
  leaving : ∀ i, s.pc i = .notifyUnlock ∨ s.pc i = .notifyReturn → Quiet s
  notified : 0 < s.data.notified → Quiet s

/-! ### What the steps keep -/

/-- `i` goes somewhere else, and nobody blocks. -/
theorem Signalled.goto (hi : Signalled s) {i : Fin n} {k : FencePc} (hpc : s.pc i ≠ .notifySignal)
    (hk : k = .notifyUnlock ∨ k = .notifyReturn → Quiet s) : Signalled (s.goto i k) where
  set := fun hok => by
    refine (hi.set hok).imp (fun ⟨j, hj⟩ => ⟨j, ?_⟩) id
    have hne : j ≠ i := by rintro rfl; exact hpc hj
    simpa [hne] using hj
  leaving := fun j hj => by
    by_cases hne : j = i
    · subst hne; exact hk (by simpa using hj)
    · exact hi.leaving j (by simpa [hne] using hj)
  notified := hi.notified

/-- A wake-up leaves nobody blocked who was not. -/
theorem Quiet.wake (h : Quiet s) (woken : List (Fin n)) : Quiet (s.wake woken) := by
  intro j
  by_cases hj : j ∈ woken <;> simp [hj, h j]

/-- An action signals nobody and blocks nobody. -/
theorem Signalled.act (hi : Signalled s) {i : Fin n}
    {f : PsharedOneTimeFence → PsharedOneTimeFence × FencePc} 
    (hst : (threads n).stmt i (s.pc i) = .act f) (hok : ReachesAll s (.next i)) :
    Signalled ((s.setData (f s.data).1).goto i (f s.data).2) := by
  have hsame : ∀ d, d.ok = s.data.ok → d.notified = s.data.notified → Signalled (s.setData d) :=
    fun d h h' => ⟨fun hd => hi.set (h ▸ hd), hi.leaving, fun hd => hi.notified (h' ▸ hd)⟩
  cases hpc : s.pc i <;>
    simp only [threads, stmt, hpc, reduceCtorEq, Stmt.act.injEq] at hst <;> subst hst
  case notifyTest =>
    refine (hsame _ rfl rfl).goto (by simp [hpc]) fun hk => ?_
    -- it goes to `notifyReturn` only if `ok_` was set
    refine hok hpc ?_
    by_contra hnot
    simp [hnot] at hk
  case notifySet =>
    refine ⟨fun _ => .inl ⟨i, by simp⟩, fun j hj => ?_, hi.notified⟩
    have hne : j ≠ i := by rintro rfl; simp at hj
    exact hi.leaving j (by simpa [hne] using hj)
  case notifyReturn =>
    have hquiet : Quiet s := hi.leaving i (.inr hpc)
    exact ⟨fun _ => .inr hquiet, fun _ _ => hquiet, fun _ => hquiet⟩
  case waitReturn =>
    refine (hsame { s.data with waited := s.data.waited + 1 } rfl rfl).goto ?_ ?_
    · simp [hpc]
    · simp
  all_goals
    refine (hsame _ rfl rfl).goto (by simp [hpc]) fun hk => ?_
    simp only at hk
    split at hk <;> simp at hk

/-- The step lemma: `signal` wakes all that wait, and nobody blocks once `ok_` is set. -/
theorem Signalled.step (hi : Signalled s) (ho : Monitor.Outlined (assertions n) s)
    (hok : ReachesAll s l) (h : Monitor.Step (threads n) s l s') : Signalled s' := by
  cases h with
  | call i k hm hc =>
      simp only [threads, Bool.and_eq_true, Bool.or_eq_true, decide_eq_true_eq] at hc
      refine hi.goto (by simp [hc.1]) fun hk => ?_
      rcases hc.2 with rfl | rfl <;> simp at hk
  | act i f hm hst => exact hi.act hst hok
  | lock i next hm hst =>
      cases hpc : s.pc i <;>
        simp only [threads, stmt, hpc, reduceCtorEq, Stmt.lock.injEq] at hst <;> subst hst <;>
        exact Signalled.goto (s := s.acquire i) ⟨hi.set, hi.leaving, hi.notified⟩
          (by simp [hpc]) (by simp)
  | unlock i next hm hst =>
      have hrel : Signalled s.release := ⟨hi.set, hi.leaving, hi.notified⟩
      cases hpc : s.pc i <;>
        simp only [threads, stmt, hpc, reduceCtorEq, Stmt.unlock.injEq] at hst <;> subst hst
      case waitUnlock => exact hrel.goto (by simp [hpc]) (by simp)
      case notifyUnlock => exact hrel.goto (by simp [hpc]) fun _ => hi.leaving i (.inl hpc)
  | wait i next hm hst =>
      have hpc : s.pc i = .waitCond := by
        cases hpc : s.pc i <;> simp [threads, stmt, hpc] at hst
        rfl
      have hunset : s.data.ok = false := by simpa [assertions, hpc] using ho.here i hm
      -- the history says that nobody has signalled yet
      refine ⟨fun hok => ?_, fun j hj => ?_, fun hpos => ?_⟩
      · simp [hunset] at hok
      · have hne : j ≠ i := by
          rintro rfl
          cases hpc : s.pc j <;> simp [threads, stmt, hpc] at hst
          subst hst; simp at hj
        simp only [Monitor.setMode_pc, Monitor.goto_pc, Function.update_of_ne hne,
          Monitor.release_pc] at hj
        have hjm : s.mode j = .running := ho.running_of_not_parked (by
          rcases hj with hj | hj <;> simp [assertions, hj])
        have hset := ho.here j hjm
        rcases hj with hj | hj <;> simp [assertions, hj, hunset] at hset
      · have := ho.always.1 (.inr hpos)
        simp [hunset] at this
  | notifyOne i next woken hm hst hw =>
      have hquiet : Quiet (s.wake woken) := by
        intro j
        by_cases hj : j ∈ woken
        · simp [hj]
        · simpa [hj] using fun hb => hj (hok j hb)
      exact ⟨fun _ => .inr hquiet, fun _ _ => hquiet, fun _ => hquiet⟩
  | spuriousWakeup i hm =>
      exact ⟨fun h => (hi.set h).imp id fun hq => hq.wake [i],
        fun j hj => (hi.leaving j hj).wake [i], fun h => (hi.notified h).wake [i]⟩
  | reacquire i hm =>
      have hset : ∀ {t : Monitor (Fin n) PsharedOneTimeFence FencePc}, t.mode = s.mode → Quiet s →
          Quiet (t.setMode i .running) := by
        intro t ht hq j
        by_cases hj : j = i
        · subst hj; simp
        · simpa [hj, ht] using hq j
      exact ⟨fun h => (hi.set h).imp id (hset rfl), fun j hj => hset rfl (hi.leaving j hj),
        fun h => hset rfl (hi.notified h)⟩
  | await i cond next hm hst => cases hpc : s.pc i <;> simp [threads, stmt, hpc] at hst
  | notifyAll i next hm hst => cases hpc : s.pc i <;> simp [threads, stmt, hpc] at hst

theorem inv_of_reachesAll {ls : List (MonitorLabel (Fin n) FencePc)}
    (hok : AllSteps (Monitor.step (threads n)) ReachesAll (init n) ls)
    (hrun : run (Monitor.step (threads n)) (init n) ls = some s) :
    Monitor.Outlined (assertions n) s ∧ Signalled s := by
  refine Monitor.inv_of_allSteps ReachesAll
    (fun s => Monitor.Outlined (assertions n) s ∧ Signalled s)
    (fun s l s' hi hok h => ⟨hi.1.step (outline n) h, hi.2.step hi.1 hok h⟩)
    ⟨outlined (run_nil _ _), ?_⟩ hok hrun
  refine ⟨nofun, fun i h => ?_, nofun⟩
  simp [init] at h

/-! ### Outside of the condition

The steps that the condition excludes: a signal that does not reach all, and a test between the
store and the signal. -/

/-- A signal that misses a waiter: `notify` goes on to its end and leaves it behind. -/
theorem stranded_of_signal (ho : Monitor.Outlined (assertions n) s) {i j : Fin n}
    {woken : List (Fin n)} (h : Monitor.Step (threads n) s (.signal i woken) s')
    (hj : s.mode j = .blocked) (hmiss : j ∉ woken) :
    ∃ ls t, run (Monitor.step (threads n)) s' ls = some t ∧ 0 < t.data.notified ∧ ¬ Quiet t := by
  cases h with
  | notifyOne i next woken hm hst hw =>
    cases hpc : s.pc i <;>
      simp only [threads, stmt, hpc, reduceCtorEq, Stmt.notifyOne.injEq] at hst
    subst hst
    have howner : s.owner = some i := (ho.owner_iff hm).mpr (by simp [assertions, hpc])
    have hi : i ∉ woken := fun hmem => by simp [hw.1 i hmem] at hm
    have hleave : Monitor.Step (threads n) ((s.wake woken).goto i .notifyUnlock) (.next i) _ :=
      .unlock i .notifyReturn (by simpa [hi] using hm) (by simp [threads, stmt]) howner
    have hreturn : Monitor.Step (threads n)
        (((s.wake woken).goto i .notifyUnlock).release.goto i .notifyReturn) (.next i) _ :=
      .act i (fun f => ({ f with notified := f.notified + 1 }, .outside)) (by simpa [hi] using hm)
        (by simp [threads, stmt])
    refine ⟨[.next i, .next i], _, (run_cons_of_some (Monitor.step_complete hleave)).trans
      (run_cons_of_some (Monitor.step_complete hreturn)), ?_, fun hquiet => hquiet j ?_⟩
    · simp
    · simpa [hmiss] using hj

/-- A `notify` that is left by its first test, with a waiter still blocked. -/
theorem stranded_of_test {i : Fin n} (h : Monitor.Step (threads n) s (.next i) s')
    (hpc : s.pc i = .notifyTest) (hset : s.data.ok = true) (hquiet : ¬ Quiet s) :
    ∃ ls t, run (Monitor.step (threads n)) s' ls = some t ∧ 0 < t.data.notified ∧ ¬ Quiet t := by
  cases h with
  | act i f hm hst =>
    simp only [threads, stmt, hpc, Stmt.act.injEq] at hst
    subst hst
    have hreturn : Monitor.Step (threads n) ((s.setData s.data).goto i .notifyReturn) (.next i) _ :=
      .act i (fun f => ({ f with notified := f.notified + 1 }, .outside)) hm
        (by simp [threads, stmt])
    simp only [hset, if_true]
    exact ⟨[.next i], _, run_cons_of_some (Monitor.step_complete hreturn), by simp, hquiet⟩
  | _ => simp_all [threads, stmt]

/-! ## The theorem -/

/-- **The fence.** While every signal reaches all who wait, no `wait` returns before `ok_` is set,
and nobody is left blocked once a `notify` has returned. A step that does otherwise lets a `notify`
return with a waiter blocked. -/
theorem fence_spec (n : Nat) :
    (∀ ls s, AllSteps (Monitor.step (threads n)) ReachesAll (init n) ls →
      run (Monitor.step (threads n)) (init n) ls = some s →
      (0 < s.data.waited → 0 < s.data.sets) ∧ (0 < s.data.notified → Quiet s)) ∧
    (∀ ls s l s', run (Monitor.step (threads n)) (init n) ls = some s →
      s.step (threads n) l = some s' → ¬ ReachesAll s l →
      ∃ ls' t, run (Monitor.step (threads n)) s' ls' = some t ∧ 0 < t.data.notified ∧
        ¬ Quiet t) := by
  refine ⟨fun ls s hok hrun => ?_, fun ls s l s' hrun hstep hl => ?_⟩
  · obtain ⟨ho, hi⟩ := inv_of_reachesAll hok hrun
    exact ⟨fun hpos => ho.always.2 (ho.always.1 (.inl hpos)), hi.notified⟩
  · have h := Monitor.step_sound hstep
    cases l with
    | signal i woken =>
        simp only [ReachesAll, not_forall] at hl
        obtain ⟨j, hj, hmiss⟩ := hl
        exact stranded_of_signal (outlined hrun) h hj hmiss
    | next i =>
        simp only [ReachesAll, Classical.not_imp] at hl
        exact stranded_of_test h hl.1 hl.2.1 hl.2.2
    | _ => exact (hl trivial).elim

/-- `i` calls `wait` and blocks. -/
def waitBlocks (i : Fin n) : List (MonitorLabel (Fin n) FencePc) :=
  .call i .waitTest :: List.replicate 5 (.next i)

/-- `i` calls `notify`, up to its signal. -/
def notifySets (i : Fin n) : List (MonitorLabel (Fin n) FencePc) :=
  .call i .notifyTest :: List.replicate 3 (.next i)

/-- One waiter, and the signal wakes it. -/
theorem fence_spec_one :
    ∃ s, run (Monitor.step (threads 2)) (init 2)
        (waitBlocks 0 ++ notifySets 1 ++ [.signal 1 [0], .next 1, .next 1]) = some s ∧
      s.data.notified = 1 ∧ (0 < s.data.waited → 0 < s.data.sets) ∧
      (0 < s.data.notified → Quiet s) :=
  ⟨_, rfl, rfl, (fence_spec 2).1 (waitBlocks 0 ++ notifySets 1 ++ [.signal 1 [0], .next 1, .next 1])
    _ (by decide) rfl⟩

/-- Two waiters; the signal wakes one of them, and the other stays behind. -/
theorem fence_not_released :
    ¬ ∀ (n : Nat) (ls : List (MonitorLabel (Fin n) FencePc))
        (s : Monitor (Fin n) PsharedOneTimeFence FencePc),
      run (Monitor.step (threads n)) (init n) ls = some s →
      (0 < s.data.waited → 0 < s.data.sets) ∧ (0 < s.data.notified → Quiet s) := by
  intro h
  have hend := (h 3 (waitBlocks 0 ++ waitBlocks 1 ++ notifySets 2 ++ [.signal 2 [0], .next 2, .next 2]) _ rfl).2
  exact hend (by decide) 1 (by decide)

end PsharedOneTimeFence

end Cppev
