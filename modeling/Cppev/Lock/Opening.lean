import Cppev.Lib.Settling
import Cppev.Lock.Barrier
import Cppev.Lock.OneTimeFence

/-!
# Barrier and fence open

`barrier_spec` and `fence_spec` say that nobody is left behind; here the calls return. A call of
`wait` or `notify` goes through its statements once, but for the predicate of `cond_.wait`, to which
a waiter comes back for every wake-up.

* `barrier_opens`: when `n` calls come to a barrier for `n` and there are no others, all of them
  return, in every weakly fair execution with finitely many spurious wake-ups.
* `fence_opens`: all calls return once `notify` has been called, if signals reach all who wait.
-/

namespace Cppev

/-! ## The barrier

A statement costs a thread at most `cost`, and a wake-up takes a waiter back by three statements;
`Monitor.Descends` turns this into a rank. What is left is to see who is at rest: with `n` calls
counted, nobody is in `cond_.wait`. -/

namespace PsharedBarrier

variable {m n : Nat} {s s' : Monitor (Fin m) PsharedBarrier BarrierPc}
  {l : MonitorLabel (Fin m) BarrierPc}

/-- How many statements a thread goes through at most before it is outside or blocked, and what the
wake-ups cost that it causes. -/
def cost (m : Nat) : BarrierPc → Nat
  | .outside => 0
  | .leave _ _ | .cond _ => 1
  | .unlock _ _ => 2
  | .predicate _ => 3
  | .testPositive _ => 4
  | .notify _ => 3 + m * 4
  | .testZero _ => 5 + m * 4
  | .decrement => 6 + m * 4
  | .lock => 7 + m * 4

/-- Each statement costs less than the one before, and what it costs the others is paid for. -/
theorem descends (m n : Nat) :
    Monitor.Descends (threads m) (assertions m n) (fun _ k _ => cost m k) (fun _ => 0) 3 where
  act _ k d f _ _ hst := by
    cases k <;> simp only [threads, stmt, reduceCtorEq, Stmt.act.injEq] at hst <;> subst hst
    case decrement => simp only [cost]; omega
    case leave => simp [cost]
    case testZero =>
      show cost m (if d.count = 0 then _ else _) < _
      split <;> simp only [cost] <;> omega
    case testPositive =>
      show cost m (if d.count > 0 then _ else _) < _
      split <;> simp [cost]
    case predicate =>
      show cost m (if d.count = 0 then _ else _) < _
      split <;> simp [cost]
  others _ _ _ _ _ _ _ _ _ _ := le_rfl
  lock _ k next _ _ hst := by
    obtain ⟨rfl, rfl⟩ := stmt_eq_lock hst
    simp [cost]
  unlock _ k next _ _ hst := by
    obtain ⟨no, e, rfl, rfl⟩ := stmt_eq_unlock hst
    simp [cost]
  await _ k cond next _ _ hst := absurd hst stmt_ne_await
  wait _ k next _ _ hst := by
    obtain ⟨no, rfl, rfl⟩ := stmt_eq_wait hst
    simp [cost]
  notifyOne _ k next _ _ hst := absurd hst stmt_ne_notifyOne
  notifyAll _ k next _ _ hst := by
    obtain ⟨no, rfl, rfl⟩ := stmt_eq_notifyAll hst
    simp only [cost, Fintype.card_fin]
    omega
  parked _ k d h := by
    obtain ⟨no, rfl, -⟩ := h
    simp [cost]

/-- A thread that has nothing to do is outside: it is in no call. -/
theorem outside_of_rests {i : Fin m} {k : BarrierPc} {d : PsharedBarrier}
    (h : Monitor.Rests ((threads m).stmt i k) d) : k = .outside := by
  cases k <;> simp_all [Monitor.Rests, threads, stmt]

/-! ### How many calls have come -/

/-- A call that has come and has not counted itself yet. -/
def coming : BarrierPc → Nat
  | .lock | .decrement => 1
  | _ => 0

/-- Whatever a test decides, the call has been counted. -/
theorem coming_ite {c : Prop} [Decidable c] {k k' : BarrierPc} (hk : coming k = 0)
    (hk' : coming k' = 0) : coming (if c then k else k') = 0 := by
  split
  · exact hk
  · exact hk'

/-- The calls that have come. -/
def called (s : Monitor (Fin m) PsharedBarrier BarrierPc) : Nat :=
  s.data.entered + ∑ i, coming (s.pc i)

theorem called_goto_add (s : Monitor (Fin m) PsharedBarrier BarrierPc) (i : Fin m)
    (k : BarrierPc) : called (s.goto i k) + coming (s.pc i) = called s + coming k := by
  have hsum := sum_update_add (fun _ => coming) s.pc i k
  show s.data.entered + ∑ j, coming (Function.update s.pc i k j) + _ = _
  unfold called
  omega

/-- Whether a step is a call. -/
def newCalls : MonitorLabel (Fin m) BarrierPc → Nat
  | .call _ _ => 1
  | _ => 0

/-- The calls become more by a call only. -/
theorem called_step (h : Monitor.Step (threads m) s l s') : called s' = called s + newCalls l := by
  cases h with
  | call i k hm hc =>
      simp only [threads, Bool.and_eq_true, decide_eq_true_eq] at hc
      have hadd := called_goto_add s i k
      rw [hc.1, hc.2] at hadd
      rw [hc.2]
      exact hadd
  | act i f hm hst =>
      have hadd := called_goto_add (s.setData (f s.data).1) i (f s.data).2
      cases hpc : s.pc i <;>
        simp only [threads, stmt, hpc, reduceCtorEq, Stmt.act.injEq] at hst <;> subst hst <;>
        rw [Monitor.setData_pc, hpc] at hadd
      case decrement =>
        -- the call that counts itself was counted as coming
        have hone : called (s.setData ⟨s.data.count - 1, s.data.entered + 1, s.data.finished⟩) =
            called s + 1 := Nat.add_right_comm _ _ _
        rw [hone] at hadd
        exact Nat.add_right_cancel hadd
      case leave no e => exact hadd
      all_goals
        rw [coming_ite rfl rfl] at hadd
        exact hadd
  | lock i next hm hst =>
      obtain ⟨hpc, rfl⟩ := stmt_eq_lock hst
      have hadd := called_goto_add (s.acquire i) i .decrement
      rw [Monitor.acquire_pc, hpc] at hadd
      exact Nat.add_right_cancel hadd
  | unlock i next hm hst =>
      obtain ⟨no, e, hpc, rfl⟩ := stmt_eq_unlock hst
      have hadd := called_goto_add s.release i (.leave no e)
      rw [Monitor.release_pc, hpc] at hadd
      exact hadd
  | wait i next hm hst =>
      obtain ⟨no, hpc, rfl⟩ := stmt_eq_wait hst
      have hadd := called_goto_add s.release i (.predicate no)
      rw [Monitor.release_pc, hpc] at hadd
      exact hadd
  | notifyAll i next hm hst =>
      obtain ⟨no, hpc, rfl⟩ := stmt_eq_notifyAll hst
      have hadd := called_goto_add s.wakeAll i (.unlock no .returns)
      rw [Monitor.wakeAll_pc, hpc] at hadd
      exact hadd
  | spuriousWakeup i hm => rfl
  | reacquire i hm => rfl
  | await i cond next hm hst => exact absurd hst stmt_ne_await
  | notifyOne i next woken hm hst => exact absurd hst stmt_ne_notifyOne

/-! ### No call is lost -/

/-- Every call that has counted itself has ended, or is the call of a thread. -/
def Kept (s : Monitor (Fin m) PsharedBarrier BarrierPc) : Prop :=
  ∀ no, 1 ≤ no → no ≤ s.data.entered →
    no ∈ s.data.finished.map Prod.fst ∨ ∃ i, noOf (s.pc i) = some no

theorem Kept.goto (h : Kept s) {i : Fin m} {k : BarrierPc} (hk : noOf k = noOf (s.pc i)) :
    Kept (s.goto i k) := by
  intro no hpos hle
  rcases h no hpos hle with hdone | ⟨j, hj⟩
  · exact .inl hdone
  · refine .inr ⟨j, ?_⟩
    rcases eq_or_ne j i with rfl | hji
    · simpa [hk] using hj
    · simpa [hji] using hj

/-- Each statement keeps a call or ends it; the number of those that have ended goes up with it. -/
theorem Kept.step (h : Kept s) (hstep : Monitor.Step (threads m) s l s') : Kept s' := by
  cases hstep with
  | call i k hm hc =>
      simp only [threads, Bool.and_eq_true, decide_eq_true_eq] at hc
      exact h.goto (by rw [hc.1, hc.2]; rfl)
  | act i f hm hst =>
      cases hpc : s.pc i <;>
        simp only [threads, stmt, hpc, reduceCtorEq, Stmt.act.injEq] at hst <;> subst hst
      case decrement =>
        -- a new number is that of the thread itself, the others are where they were
        intro no hpos hle
        have hle : no ≤ s.data.entered + 1 := hle
        rcases Nat.le_succ_iff.mp hle with hold | rfl
        · rcases h no hpos hold with hdone | ⟨j, hj⟩
          · exact .inl hdone
          · have hji : j ≠ i := by
              rintro rfl
              simp [hpc, noOf] at hj
            exact .inr ⟨j, by simpa [hji] using hj⟩
        · exact .inr ⟨i, by simp [noOf]⟩
      case leave no e =>
        intro no' hpos hle
        rcases h no' hpos hle with hdone | ⟨j, hj⟩
        · have hmem : no' ∈ (s.data.finished ++ [(no, e)]).map Prod.fst := by
            rw [List.map_append]
            exact List.mem_append_left _ hdone
          exact .inl hmem
        · -- who leaves is noted as finished
          rcases eq_or_ne j i with rfl | hji
          · have hno : no = no' := by simpa [hpc, noOf] using hj
            exact .inl (by simp [hno])
          · exact .inr ⟨j, by simpa [hji] using hj⟩
      all_goals
        refine Kept.goto (s := s.setData s.data) h ?_
        simp only [Monitor.setData_pc, hpc]
        split <;> rfl
  | lock i next hm hst =>
      obtain ⟨hpc, rfl⟩ := stmt_eq_lock hst
      exact Kept.goto (s := s.acquire i) h (by rw [Monitor.acquire_pc, hpc]; rfl)
  | unlock i next hm hst =>
      obtain ⟨no, e, hpc, rfl⟩ := stmt_eq_unlock hst
      exact Kept.goto (s := s.release) h (by rw [Monitor.release_pc, hpc]; rfl)
  | wait i next hm hst =>
      obtain ⟨no, hpc, rfl⟩ := stmt_eq_wait hst
      exact Kept.goto (s := s.release) h (by rw [Monitor.release_pc, hpc]; rfl)
  | notifyAll i next hm hst =>
      obtain ⟨no, hpc, rfl⟩ := stmt_eq_notifyAll hst
      exact Kept.goto (s := s.wakeAll) h (by rw [Monitor.wakeAll_pc, hpc]; rfl)
  | spuriousWakeup i hm => exact h
  | reacquire i hm => exact h
  | await i cond next hm hst => exact absurd hst stmt_ne_await
  | notifyOne i next woken hm hst => exact absurd hst stmt_ne_notifyOne

/-! ### All of them return -/

/-- No call is lost, and nobody is left behind. -/
structure Sound (n : Nat) (s : Monitor (Fin m) PsharedBarrier BarrierPc) : Prop where
  outlined : Monitor.Outlined (assertions m n) s
  numbered : Numbered s
  kept : Kept s
  noneStuck : NoneStuck n s

theorem sound_init (m n : Nat) : Sound n (init m n) where
  outlined := PsharedBarrier.outlined (run_nil _ _)
  numbered := PsharedBarrier.numbered (n := n) (run_nil _ _)
  kept no hpos hle := by
    have hle : no ≤ 0 := hle
    omega
  noneStuck _ := .inr fun i h => by simp [init, inWait] at h

/-- The parts of it are kept by the steps, one by one. -/
theorem Sound.step (h : Sound n s) (hturn : InTurn n s l)
    (hstep : Monitor.Step (threads m) s l s') : Sound n s' where
  outlined := h.outlined.step (outline m n) hstep
  numbered := h.numbered.step hstep
  kept := h.kept.step hstep
  noneStuck := h.noneStuck.step h.outlined hturn hstep

/-- When all threads have come to rest and `n` calls have come, nobody is in the barrier. -/
theorem Sound.outside (h : Sound n s) (hall : n ≤ called s)
    (hrest : ∀ i, Monitor.Settled (threads m) s i) (i : Fin m) : s.pc i = .outside := by
  -- who is blocked is at the predicate
  have hpc : ∀ j, s.pc j = .outside ∨ s.mode j = .blocked ∧ ∃ no, s.pc j = .predicate no := by
    intro j
    rcases hrest j with hblocked | ⟨-, hout⟩
    · obtain ⟨no, hno, -⟩ := h.outlined.parked j (by simp [hblocked])
      exact .inr ⟨hblocked, no, hno⟩
    · exact .inl (outside_of_rests hout)
  have hnone : ∀ j, coming (s.pc j) = 0 := by
    intro j
    rcases hpc j with hj | ⟨-, no, hj⟩ <;> rw [hj] <;> rfl
  have hentered : n ≤ s.data.entered := by
    simpa [called, hnone] using hall
  rcases hpc i with hi | ⟨hblocked, no, hi⟩
  · exact hi
  · rcases h.noneStuck hentered with ⟨j, hj⟩ | hreleased
    · rcases hpc j with hj' | ⟨-, no', hj'⟩ <;> simp [hj'] at hj
    · exact absurd hblocked (hreleased i (by rw [hi]; rfl)).1

/-- A call that has returned is in the history with that end. -/
theorem mem_returned {b : PsharedBarrier} {no : Nat} :
    no ∈ returned b ↔ (no, .returns) ∈ b.finished := by
  simp [returned]

/-- When `n` calls have come and all threads are outside, the first `n` have returned. -/
theorem Sound.returned (h : Sound n s) (hall : n ≤ called s) (hout : ∀ i, s.pc i = .outside) :
    (PsharedBarrier.returned s.data).Perm (List.range' 1 n) := by
  have hentered : n ≤ s.data.entered := by
    simpa [called, coming, hout] using hall
  have hends := h.outlined.always.2
  have hnodup : (PsharedBarrier.returned s.data).Nodup :=
    h.numbered.finished.sublist (List.filter_sublist.map _)
  refine (List.perm_ext_iff_of_nodup hnodup List.nodup_range').mpr fun no => ?_
  rw [mem_returned, List.mem_range'_1]
  constructor
  · intro hmem
    obtain ⟨hpos, hle, -⟩ := hends _ hmem
    exact ⟨hpos, by omega⟩
  · rintro ⟨hpos, hlt⟩
    rcases h.kept no hpos (by omega) with hdone | ⟨i, hi⟩
    · obtain ⟨⟨no', e⟩, hmem, rfl⟩ := List.mem_map.mp hdone
      cases e with
      | returns => exact hmem
      | throws ex =>
          have hlate := (hends _ hmem).1
          simp only at hlt hlate
          omega
    · simp [hout i, noOf] at hi

theorem called_monotone (e : Execution (Monitor.step (threads m))) :
    Monotone fun k => called (e.state k) := by
  refine monotone_nat_of_le_succ fun k => ?_
  rcases moves_cases (e.next k) with hsame | ⟨l, -, hstep⟩
  · rw [hsame]
  · rw [called_step (Monitor.step_sound hstep)]
    exact Nat.le_add_right _ _

/-- While later calls come in turn, the barrier opens once `n` calls have come. -/
theorem opens_of_inTurn (e : Execution (Monitor.step (threads m))) (h0 : e.state 0 = init m n)
    (hfair : e.WeaklyFair Monitor.Progress)
    (hturn : ∀ k l, e.label k = some l → InTurn n (e.state k) l) {k₀ : Nat}
    (hall : n ≤ called (e.state k₀))
    (hquiet : ∃ N, ∀ k l, N ≤ k → e.label k = some l → l.ofThread = true) :
    ∃ k, (∀ i, (e.state k).pc i = .outside) ∧
      (returned (e.state k).data).Perm (List.range' 1 n) := by
  have hsound : ∀ k, Sound n (e.state k) := by
    intro k
    refine e.invariant_from (Sound n) (n := 0) (fun k l _ hl hstep hi => ?_) ?_ (Nat.zero_le k)
    · exact hi.step (hturn k l hl) (Monitor.step_sound hstep)
    · rw [h0]
      exact sound_init m n
  obtain ⟨k, hk, hrest⟩ := Monitor.settles (descends m n) (outline m n) e (hsound 0).outlined
    hfair hquiet k₀
  have hsettled := hrest.settled (hsound k).outlined fun i pc d hpc => by
    rw [outside_of_rests hpc]
    rfl
  have hcalled : n ≤ called (e.state k) := hall.trans (called_monotone e hk)
  have hout := (hsound k).outside hcalled hsettled
  exact ⟨k, hout, (hsound k).returned hcalled hout⟩

/-- With a call that is about to count itself, less than `n` have done so. -/
theorem inTurn_of_called (h : called s ≤ n) : InTurn n s l := by
  cases l with
  | next i =>
      intro hpc hlate
      have hle : coming (s.pc i) ≤ ∑ j, coming (s.pc j) :=
        Finset.single_le_sum (f := fun j => coming (s.pc j)) (fun _ _ => Nat.zero_le _)
          (Finset.mem_univ i)
      rw [hpc] at hle
      simp only [coming, called] at hle h
      omega
  | _ => trivial

/-! ### The result -/

/-- **The barrier opens.** In every weakly fair execution in which `n` calls come, and no more, and
waiters wake up by chance finitely often, there comes a state in which all of them have returned. -/
theorem barrier_opens (e : Execution (Monitor.step (threads m))) (h0 : e.state 0 = init m n)
    (hfair : e.WeaklyFair Monitor.Progress)
    (hcalls : ∀ k i pc, e.label k = some (.call i pc) → called (e.state k) < n)
    (hall : ∃ k, n ≤ called (e.state k))
    (hwake : ∃ N, ∀ k i, N ≤ k → e.label k ≠ some (.spuriousWakeup i)) :
    ∃ k, (∀ i, (e.state k).pc i = .outside) ∧
      (returned (e.state k).data).Perm (List.range' 1 n) := by
  have hle : ∀ k, called (e.state k) ≤ n := by
    intro k
    refine e.invariant_from (called · ≤ n) (n := 0) (fun k l _ hl hstep hi => ?_) ?_ (Nat.zero_le k)
    · rw [called_step (Monitor.step_sound hstep)]
      cases l with
      | call i pc => exact hcalls k i pc hl
      | _ => exact hi
    · simp [h0, called, init, coming]
  obtain ⟨k₀, hk₀⟩ := hall
  obtain ⟨N, hN⟩ := hwake
  refine opens_of_inTurn e h0 hfair (fun k l _ => inTurn_of_called (hle k)) hk₀
    ⟨max k₀ N, fun k l hk hl => ?_⟩
  cases l with
  | call i pc =>
      -- from `k₀` on nobody calls any more
      have hdone : n ≤ called (e.state k) := hk₀.trans (called_monotone e (by omega))
      exact absurd (hcalls k i pc hl) (Nat.not_lt.mpr hdone)
  | spuriousWakeup i => exact absurd hl (hN k i (by omega))
  | _ => rfl

/-- `i` blocks, `j` opens the barrier, and both return. -/
def openTwo (i j : Fin m) : List (MonitorLabel (Fin m) BarrierPc) :=
  waitCall i ++ waitCall j ++ returnCall i

theorem barrier_opens_two :
    ∃ e : Execution (Monitor.step (threads 2)), e.state 0 = init 2 2 ∧
      called (e.state 17) = 2 ∧
      ∃ k, (∀ i, (e.state k).pc i = .outside) ∧ (returned (e.state k).data).Perm [1, 2] := by
  obtain ⟨s, hs, hrest⟩ : ∃ s,
      run (Monitor.step (threads 2)) (init 2 2) (openTwo 0 1) = some s ∧
        ∀ i, s.mode i = .running ∧ s.pc i = .outside := ⟨_, rfl, by decide⟩
  have hcalls : AllSteps (Monitor.step (threads 2)) (fun s l => newCalls l = 1 → called s < 2)
      (init 2 2) (openTwo 0 1) := by decide
  have hall : called ((Execution.ofRun hs).state 17) = 2 := rfl
  refine ⟨Execution.ofRun hs, rfl, hall, barrier_opens (Execution.ofRun hs) rfl ?_ ?_ ⟨_, hall.ge⟩
    ⟨18, fun k i hk h => ?_⟩⟩
  · refine Execution.weaklyFair_ofRun hs (Monitor.not_enabled_of_settled fun i => ?_)
    obtain ⟨hmode, hpc⟩ := hrest i
    exact .inr ⟨hmode, .inl (by rw [hpc]; rfl)⟩
  · exact fun k i pc hl => Execution.ok_of_allSteps hcalls hs hl rfl
  · exact absurd (Execution.lt_of_label hs h) (Nat.not_lt.mpr hk)

end PsharedBarrier

/-! ## The fence

The same in smaller: a waiter returns when the flag is set, and the flag is set by `notify` for
good. That a `notify` is on its way to set it is kept until it has. -/

namespace PsharedOneTimeFence

variable {n : Nat} {s s' : Monitor (Fin n) PsharedOneTimeFence FencePc}
  {l : MonitorLabel (Fin n) FencePc}

/-- How many statements a thread goes through at most before it is outside or blocked, and what the
wake-ups cost that it causes. -/
def cost (n : Nat) : FencePc → Nat
  | .outside => 0
  | .waitReturn | .waitCond | .notifyReturn => 1
  | .waitUnlock | .notifyUnlock => 2
  | .waitPredicate => 3
  | .waitRetest => 4
  | .waitLock => 5
  | .waitTest => 6
  | .notifySignal => 3 + n * 4
  | .notifySet => 4 + n * 4
  | .notifyLock => 5 + n * 4
  | .notifyTest => 6 + n * 4

/-- Each statement costs less than the one before. -/
theorem descends (n : Nat) :
    Monitor.Descends (threads n) (assertions n) (fun _ k _ => cost n k) (fun _ => 0) 3 where
  act _ k f g _ _ hst := by
    cases k <;> simp only [threads, stmt, reduceCtorEq, Stmt.act.injEq] at hst <;> subst hst
    case waitTest | waitRetest | waitPredicate =>
      simp only
      split <;> simp [cost]
    case notifyTest =>
      simp only
      split <;> simp only [cost] <;> omega
    case waitReturn | notifyReturn | notifySet => simp [cost]
  others _ _ _ _ _ _ _ _ _ _ := le_rfl
  lock _ k next _ _ hst := by
    cases k <;> simp only [threads, stmt, reduceCtorEq, Stmt.lock.injEq] at hst <;> subst hst <;>
      simp [cost]
  unlock _ k next _ _ hst := by
    cases k <;> simp only [threads, stmt, reduceCtorEq, Stmt.unlock.injEq] at hst <;> subst hst <;>
      simp [cost]
  await _ k cond next _ _ hst := by
    cases k <;> simp [threads, stmt] at hst
  wait _ k next _ _ hst := by
    cases k <;> simp_all [threads, stmt, cost]
  notifyOne _ k next _ _ hst := by
    cases k <;> simp only [threads, stmt, reduceCtorEq, Stmt.notifyOne.injEq] at hst
    subst hst
    simp only [cost, Fintype.card_fin]
    omega
  notifyAll _ k next _ _ hst := by
    cases k <;> simp [threads, stmt] at hst
  parked _ k f h := by
    obtain rfl : k = .waitPredicate := h
    simp [cost]

/-- A thread that has nothing to do is outside. -/
theorem outside_of_rests {i : Fin n} {k : FencePc} {f : PsharedOneTimeFence}
    (h : Monitor.Rests ((threads n).stmt i k) f) : k = .outside := by
  cases k <;> simp_all [Monitor.Rests, threads, stmt]

/-- On the way to `ok_ = true`. -/
def setting : FencePc → Bool
  | .notifyTest | .notifyLock | .notifySet => true
  | _ => false

/-- A call of `notify` that `i` has begun is on its way to `ok_ = true`, or `ok_` is set. -/
def Notifying (s : Monitor (Fin n) PsharedOneTimeFence FencePc) (i : Fin n) : Prop :=
  s.data.ok = true ∨ setting (s.pc i) = true

theorem Notifying.of_call {i : Fin n} (h : Monitor.Step (threads n) s (.call i .notifyTest) s') :
    Notifying s' i := by
  cases h with
  | call i k hm hc => exact .inr (by simp [setting])

/-- `j` goes on; if it is `i`, then on the way to `ok_ = true`. -/
theorem Notifying.goto {i j : Fin n} (h : Notifying s i) {k : FencePc}
    (hk : setting (s.pc j) = true → s.data.ok = true ∨ setting k = true) :
    Notifying (s.goto j k) i := by
  rcases h with hok | hset
  · exact .inl hok
  · rcases eq_or_ne i j with rfl | hne
    · exact (hk hset).imp id fun h => by simpa using h
    · exact .inr (by simpa [hne] using hset)

/-- Until it has set the flag it is on its way; then it is set. -/
theorem Notifying.act {i j : Fin n} {f : PsharedOneTimeFence → PsharedOneTimeFence × FencePc}
    (h : Notifying s i) (hst : (threads n).stmt j (s.pc j) = .act f) :
    Notifying ((s.setData (f s.data).1).goto j (f s.data).2) i := by
  cases hpc : s.pc j <;>
    simp only [threads, stmt, hpc, reduceCtorEq, Stmt.act.injEq] at hst <;> subst hst
  case notifySet => exact .inl rfl
  case notifyTest =>
    refine Notifying.goto (s := s.setData s.data) h fun _ => ?_
    cases hok : s.data.ok with
    | false => exact .inr (by simp [hok, setting])
    | true => exact .inl hok
  case waitReturn =>
    refine Notifying.goto (s := s.setData { s.data with waited := s.data.waited + 1 }) h ?_
    simp [hpc, setting]
  case notifyReturn =>
    refine Notifying.goto (s := s.setData { s.data with notified := s.data.notified + 1 }) h ?_
    simp [hpc, setting]
  all_goals
    refine Notifying.goto (s := s.setData s.data) h ?_
    simp [hpc, setting]

theorem Notifying.step {i : Fin n} (h : Notifying s i)
    (hstep : Monitor.Step (threads n) s l s') : Notifying s' i := by
  cases hstep with
  | call j k hm hc =>
      simp only [threads, Bool.and_eq_true, Bool.or_eq_true, decide_eq_true_eq] at hc
      exact h.goto (by simp [hc.1, setting])
  | act j f hm hst => exact h.act hst
  | lock j next hm hst =>
      cases hpc : s.pc j <;>
        simp only [threads, stmt, hpc, reduceCtorEq, Stmt.lock.injEq] at hst <;> subst hst
      case waitLock => exact Notifying.goto (s := s.acquire j) h (by simp [hpc, setting])
      case notifyLock => exact Notifying.goto (s := s.acquire j) h fun _ => .inr rfl
  | unlock j next hm hst =>
      refine Notifying.goto (s := s.release) h ?_
      cases hpc : s.pc j <;> simp [threads, stmt, hpc, setting] at hst ⊢
  | wait j next hm hst =>
      have hgoto : Notifying (s.release.goto j next) i := by
        refine Notifying.goto (s := s.release) h ?_
        cases hpc : s.pc j <;> simp [threads, stmt, hpc, setting] at hst ⊢
      exact hgoto
  | notifyOne j next woken hm hst hw =>
      refine Notifying.goto (s := s.wake woken) h ?_
      cases hpc : s.pc j <;> simp [threads, stmt, hpc, setting] at hst ⊢
  | notifyAll j next hm hst => cases hpc : s.pc j <;> simp [threads, stmt, hpc] at hst
  | await j cond next hm hst => cases hpc : s.pc j <;> simp [threads, stmt, hpc] at hst
  | spuriousWakeup j hm => exact h
  | reacquire j hm => exact h

/-- When all threads have come to rest after `notify` was called, nobody is in the fence. -/
theorem outside_of_settled (ho : Monitor.Outlined (assertions n) s) (hsig : Signalled s)
    {i : Fin n} (hi : Notifying s i) (hrest : ∀ j, Monitor.Settled (threads n) s j) (j : Fin n) :
    s.pc j = .outside := by
  have hpc : ∀ j, s.pc j = .outside ∨ s.mode j = .blocked ∧ s.pc j = .waitPredicate := by
    intro j
    rcases hrest j with hblocked | ⟨-, hout⟩
    · exact .inr ⟨hblocked, ho.parked j (by simp [hblocked])⟩
    · exact .inl (outside_of_rests hout)
  have hset : s.data.ok = true := by
    refine hi.resolve_right fun hset => ?_
    rcases hpc i with h | ⟨-, h⟩ <;> rw [h] at hset <;> cases hset
  rcases hpc j with hj | ⟨hblocked, -⟩
  · exact hj
  · rcases hsig.set hset with ⟨i', hi'⟩ | hquiet
    · rcases hpc i' with h | ⟨-, h⟩ <;> rw [h] at hi' <;> cases hi'
    · exact absurd hblocked (hquiet j)

/-! ### The result -/

/-- **The fence opens.** In every weakly fair execution in which `notify` is called, calls come and
waiters wake up by chance finitely often, and signals reach all who wait, there comes a state in
which all calls have returned. -/
theorem fence_opens (e : Execution (Monitor.step (threads n))) (h0 : e.state 0 = init n)
    (hfair : e.WeaklyFair Monitor.Progress)
    (hreach : ∀ k l, e.label k = some l → ReachesAll (e.state k) l)
    (hnotify : ∃ k i, e.label k = some (.call i .notifyTest))
    (hquiet : ∃ N, ∀ k l, N ≤ k → e.label k = some l → l.ofThread = true) :
    ∃ k, (∀ i, (e.state k).pc i = .outside) ∧ (e.state k).data.ok = true := by
  have hinv : ∀ k, Monitor.Outlined (assertions n) (e.state k) ∧ Signalled (e.state k) := by
    intro k
    refine e.invariant_from (fun s => Monitor.Outlined (assertions n) s ∧ Signalled s) (n := 0)
      (fun k l _ hl hstep hi => ?_) ?_ (Nat.zero_le k)
    · have h := Monitor.step_sound hstep
      exact ⟨hi.1.step (outline n) h, hi.2.step hi.1 (hreach k l hl) h⟩
    · rw [h0]
      have hnil : AllSteps (Monitor.step (threads n)) ReachesAll (init n) [] := trivial
      exact inv_of_reachesAll hnil (run_nil _ _)
  obtain ⟨k₀, i, hcall⟩ := hnotify
  have hnotifying : ∀ k, k₀ + 1 ≤ k → Notifying (e.state k) i := by
    intro k hk
    refine e.invariant_from (Notifying · i)
      (fun k l _ _ hstep hi => hi.step (Monitor.step_sound hstep)) ?_ hk
    have hnext := e.next k₀
    rw [hcall] at hnext
    exact .of_call (Monitor.step_sound hnext)
  obtain ⟨k, hk, hrest⟩ := Monitor.settles (descends n) (outline n) e (hinv 0).1 hfair hquiet
    (k₀ + 1)
  have hsettled := hrest.settled (hinv k).1 fun i pc d hpc => by
    rw [outside_of_rests hpc]
    rfl
  have hout := outside_of_settled (hinv k).1 (hinv k).2 (hnotifying k hk) hsettled
  refine ⟨k, hout, (hnotifying k hk).resolve_right fun hset => ?_⟩
  rw [hout i] at hset
  cases hset

/-- `i` blocks, the signal of `j` wakes it up, and both return. -/
def openOne (i j : Fin n) : List (MonitorLabel (Fin n) FencePc) :=
  waitBlocks i ++ notifySets j ++ .signal j [i] :: .next j :: .next j :: .reacquire i ::
    List.replicate 3 (.next i)

/-- One thread waits, and the other one notifies. -/
theorem fence_opens_one :
    ∃ e : Execution (Monitor.step (threads 2)), e.state 0 = init 2 ∧
      ∃ k, (∀ i, (e.state k).pc i = .outside) ∧ (e.state k).data.ok = true := by
  obtain ⟨s, hs, hrest⟩ : ∃ s, run (Monitor.step (threads 2)) (init 2) (openOne 0 1) = some s ∧
      ∀ i, s.mode i = .running ∧ s.pc i = .outside := ⟨_, rfl, by decide⟩
  have hreach : AllSteps (Monitor.step (threads 2)) ReachesAll (init 2) (openOne 0 1) := by decide
  refine ⟨Execution.ofRun hs, rfl, fence_opens (Execution.ofRun hs) rfl ?_ ?_ ⟨6, 1, rfl⟩
    ⟨17, fun k l hk h => ?_⟩⟩
  · refine Execution.weaklyFair_ofRun hs (Monitor.not_enabled_of_settled fun i => ?_)
    obtain ⟨hmode, hpc⟩ := hrest i
    exact .inr ⟨hmode, .inl (by rw [hpc]; rfl)⟩
  · exact fun k l hl => Execution.ok_of_allSteps hreach hs hl
  · exact absurd (Execution.lt_of_label hs h) (Nat.not_lt.mpr hk)

end PsharedOneTimeFence

end Cppev
