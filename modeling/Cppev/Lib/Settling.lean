import Mathlib.Algebra.BigOperators.Group.Finset.Basic
import Mathlib.Algebra.Order.BigOperators.Group.Finset
import Mathlib.Algebra.Ring.Nat
import Cppev.Lib.Fairness
import Cppev.Lib.Monitor

/-!
# Threads that come to rest

A program under one lock whose control points have a cost that every statement brings down. It may
wait as often as it is woken up, and it pays for the wake-ups that it causes; what it leaves for
others to do in the data it pays for by a potential.

* `Monitor.settles`: when threads are called finitely often and wake up by chance finitely often,
  every weakly fair execution comes to a state in which each of them is outside, blocked, or awaits
  what does not come, or in which one of them keeps the lock there.
-/

namespace Cppev

variable {ι σ κ : Type}

/-! ## Costs

A program says how much a thread at a control point has left to do at most, with the data as they
are. Three things pay for each other: a statement brings the cost of its thread down; it may raise
the costs of others, but by no more than it gives up; and a wake-up costs the thread that is woken
what a parked one has left. -/

/-- Everything but calls and wake-ups by chance. -/
def MonitorLabel.ofThread : MonitorLabel ι κ → Bool
  | .call _ _ | .spuriousWakeup _ => false
  | _ => true

/-- How far a thread is from its rest, at a point with this cost. -/
def Mode.left (m : Mode) (cost : Nat) : Nat :=
  match m with
  | .running => cost
  | .woken => cost + 1
  | .blocked => 0

namespace Monitor

variable [DecidableEq ι]

/-- The steps that a scheduler does not leave out for ever. -/
def Progress (_ : Monitor ι σ κ) (l : MonitorLabel ι κ) : Prop := l.ofThread = true

/-- Where a thread stays as long as it is not called and not woken up, and the data do not change. -/
def Rests (st : Stmt σ κ) (d : σ) : Prop :=
  st = .outside ∨ ∃ cond next, st = .await cond next ∧ cond d = false

def Settled (prog : Threads ι σ κ) (s : Monitor ι σ κ) (i : ι) : Prop :=
  s.mode i = .blocked ∨ s.mode i = .running ∧ Rests (prog.stmt i (s.pc i)) s.data

/-- What a statement of `i` at `k` costs. Who waits is free until it is woken up; then it has to go
on from a point where threads are `parked`. -/
structure Descends [Fintype ι] (prog : Threads ι σ κ) (a : Assertions ι σ κ)
    (cost : ι → κ → σ → Nat) (potential : σ → Nat) (parked : Nat) : Prop where
  act : ∀ i k d f, a.always d → a.here i k d → prog.stmt i k = .act f →
    cost i (f d).2 (f d).1 + potential (f d).1 < cost i k d + potential d
  others : ∀ i j k k' d f, j ≠ i → a.always d → a.here i k d → prog.stmt i k = .act f →
    cost j k' (f d).1 ≤ cost j k' d
  lock : ∀ i k next d, a.here i k d → prog.stmt i k = .lock next → cost i next d < cost i k d
  unlock : ∀ i k next d, a.here i k d → prog.stmt i k = .unlock next → cost i next d < cost i k d
  await : ∀ i k cond next d, a.here i k d → prog.stmt i k = .await cond next →
    cost i next d < cost i k d
  wait : ∀ i k next d, a.here i k d → prog.stmt i k = .wait next → 0 < cost i k d
  notifyOne : ∀ i k next d, a.here i k d → prog.stmt i k = .notifyOne next →
    cost i next d + Fintype.card ι * (parked + 1) < cost i k d
  notifyAll : ∀ i k next d, a.here i k d → prog.stmt i k = .notifyAll next →
    cost i next d + Fintype.card ι * (parked + 1) < cost i k d
  parked : ∀ i k d, a.parked i k d → cost i k d ≤ parked

section

variable [Fintype ι] {prog : Threads ι σ κ} {a : Assertions ι σ κ} {s s' : Monitor ι σ κ}
  {cost : ι → κ → σ → Nat} {potential : σ → Nat} {parked : Nat} {i : ι}

/-! ## The rank

The sum of what all threads have left, a wake-up for each parked one included. -/

/-- What all threads have left to do. -/
def work (cost : ι → κ → σ → Nat) (s : Monitor ι σ κ) : Nat :=
  ∑ i, (s.mode i).left (cost i (s.pc i) s.data)

def rank (cost : ι → κ → σ → Nat) (potential : σ → Nat) (s : Monitor ι σ κ) : Nat :=
  work cost s + potential s.data

omit [DecidableEq ι] in
/-- Only `i` moves. -/
theorem work_lt_of_one
    (hothers : ∀ j, j ≠ i → s'.mode j = s.mode j ∧ s'.pc j = s.pc j) (hd : s'.data = s.data)
    (hlt : (s'.mode i).left (cost i (s'.pc i) s'.data) <
      (s.mode i).left (cost i (s.pc i) s.data)) : work cost s' < work cost s := by
  apply Finset.sum_lt_sum
  · intro j _
    rcases eq_or_ne j i with rfl | hji
    · exact hlt.le
    · obtain ⟨hmode, hpc⟩ := hothers j hji
      rw [hmode, hpc, hd]
  · exact ⟨i, Finset.mem_univ i, hlt⟩

omit [DecidableEq ι] in
/-- Waking up costs each thread as much as a parked one has left. -/
theorem work_le_of_woken (hpc : ∀ j, s'.pc j = s.pc j) (hd : s'.data = s.data)
    (hmode : ∀ j, s'.mode j = s.mode j ∨
      s.mode j = .blocked ∧ s'.mode j = .woken ∧ cost j (s.pc j) s.data ≤ parked) :
    work cost s' ≤ work cost s + Fintype.card ι * (parked + 1) := by
  calc work cost s'
      ≤ ∑ j, ((s.mode j).left (cost j (s.pc j) s.data) + (parked + 1)) := by
        apply Finset.sum_le_sum
        intro j _
        rw [hpc j, hd]
        rcases hmode j with hsame | ⟨hblocked, hwoken, hcost⟩
        · rw [hsame]
          exact Nat.le_add_right _ _
        · rw [hblocked, hwoken]
          simp only [Mode.left]
          omega
    _ = work cost s + Fintype.card ι * (parked + 1) := by
        rw [Finset.sum_add_distrib, Finset.sum_const, Finset.card_univ, Nat.nsmul_eq_mul]
        rfl

variable (cost) in
/-- The running thread `i` goes on. -/
theorem work_goto_add (hm : s.mode i = .running) (k : κ) :
    work cost (s.goto i k) + cost i (s.pc i) s.data = work cost s + cost i k s.data := by
  have hsum := sum_update_add (fun j k' => (s.mode j).left (cost j k' s.data)) s.pc i k
  rw [hm] at hsum
  exact hsum

/-- The running thread `i` goes on and writes to the data, by which nobody else gets more to do. -/
theorem work_act_add {d : σ} {k : κ} (hm : s.mode i = .running)
    (hothers : ∀ j k', j ≠ i → cost j k' d ≤ cost j k' s.data) :
    work cost ((s.setData d).goto i k) + cost i (s.pc i) s.data ≤ work cost s + cost i k d := by
  have hsum : ∑ j ∈ Finset.univ.erase i, (s.mode j).left (cost j (Function.update s.pc i k j) d) ≤
      ∑ j ∈ Finset.univ.erase i, (s.mode j).left (cost j (s.pc j) s.data) := by
    apply Finset.sum_le_sum
    intro j hj
    have hji := Finset.ne_of_mem_erase hj
    rw [Function.update_of_ne hji]
    have hle := hothers j (s.pc j) hji
    cases s.mode j <;> simp only [Mode.left] <;> omega
  have hnew : work cost ((s.setData d).goto i k) = cost i k d +
      ∑ j ∈ Finset.univ.erase i, (s.mode j).left (cost j (Function.update s.pc i k j) d) := by
    have hself : (s.mode i).left (cost i (Function.update s.pc i k i) d) = cost i k d := by
      simp [hm, Mode.left]
    rw [← hself]
    exact (Finset.add_sum_erase Finset.univ
      (fun j => (s.mode j).left (cost j (Function.update s.pc i k j) d)) (Finset.mem_univ i)).symm
  have hold : work cost s = cost i (s.pc i) s.data +
      ∑ j ∈ Finset.univ.erase i, (s.mode j).left (cost j (s.pc j) s.data) := by
    have hself : (s.mode i).left (cost i (s.pc i) s.data) = cost i (s.pc i) s.data := by
      simp [hm, Mode.left]
    rw [← hself]
    exact (Finset.add_sum_erase Finset.univ
      (fun j => (s.mode j).left (cost j (s.pc j) s.data)) (Finset.mem_univ i)).symm
  omega

/-- Every statement brings the rank down. -/
theorem rank_step (hd : Descends prog a cost potential parked) (ho : Outlined a s)
    {l : MonitorLabel ι κ} (hl : l.ofThread = true) (h : Step prog s l s') :
    rank cost potential s' < rank cost potential s := by
  cases h with
  | call i k | spuriousWakeup i => cases hl
  | act i f hm hst =>
      -- what the action costs the others it has paid for (`Descends.others`)
      have hhere := ho.here i hm
      have hlt := hd.act i _ _ f ho.always hhere hst
      have hadd := work_act_add (k := (f s.data).2) hm fun j k' hji =>
        hd.others i j _ k' _ f hji ho.always hhere hst
      unfold rank
      simp only [goto_data, setData_data]
      omega
  | await i cond next hm hst hc =>
      have hlt := hd.await i _ cond next s.data (ho.here i hm) hst
      have hadd := work_goto_add cost hm next
      unfold rank
      simp only [goto_data]
      omega
  | lock i next hm hst =>
      have hlt := hd.lock i _ next s.data (ho.here i hm) hst
      have hadd := work_goto_add cost (s := s.acquire i) hm next
      have hsame : work cost (s.acquire i) = work cost s := rfl
      unfold rank
      simp only [acquire_pc, acquire_data, goto_data] at hadd ⊢
      omega
  | unlock i next hm hst =>
      have hlt := hd.unlock i _ next s.data (ho.here i hm) hst
      have hadd := work_goto_add cost (s := s.release) hm next
      have hsame : work cost s.release = work cost s := rfl
      unfold rank
      simp only [release_pc, release_data, goto_data] at hadd ⊢
      omega
  | wait i next hm hst =>
      -- a blocked thread has nothing left of its own; what it does next is paid for by who wakes it
      -- up
      have hlt : work cost ((s.release.goto i next).setMode i .blocked) < work cost s := by
        refine work_lt_of_one (i := i) (fun j hji => ?_) ?_ ?_
        · simp [hji]
        · rfl
        · simpa [hm, Mode.left] using hd.wait i _ next s.data (ho.here i hm) hst
      exact Nat.add_lt_add_right hlt _
  | notifyOne i next woken hm hst hw =>
      have hlt := hd.notifyOne i _ next s.data (ho.here i hm) hst
      -- who notifies is running, so it does not wake up itself
      have hi : i ∉ woken := by
        intro hmem
        rw [hw.1 i hmem] at hm
        cases hm
      have hadd := work_goto_add cost (s := s.wake woken) (i := i) (by simp [hi, hm]) next
      -- each of those who wake up costs `parked` at most
      have hwoken : work cost (s.wake woken) ≤ work cost s + Fintype.card ι * (parked + 1) := by
        refine work_le_of_woken (fun _ => ?_) ?_ fun j => ?_
        · rfl
        · rfl
        by_cases hj : j ∈ woken
        · have hblocked := hw.1 j hj
          refine .inr ⟨hblocked, by simp [hj], hd.parked j _ _ (ho.parked j ?_)⟩
          simp [hblocked]
        · exact .inl (by simp [hj])
      unfold rank
      simp only [wake_pc, wake_data, goto_data] at hadd ⊢
      omega
  | notifyAll i next hm hst =>
      have hlt := hd.notifyAll i _ next s.data (ho.here i hm) hst
      have hadd := work_goto_add cost (s := s.wakeAll) (i := i) (by simp [hm]) next
      have hwoken : work cost s.wakeAll ≤ work cost s + Fintype.card ι * (parked + 1) := by
        refine work_le_of_woken (fun _ => ?_) ?_ fun j => ?_
        · rfl
        · rfl
        by_cases hj : s.mode j = .blocked
        · refine .inr ⟨hj, by simp [hj], hd.parked j _ _ (ho.parked j ?_)⟩
          simp [hj]
        · exact .inl (by simp [hj])
      unfold rank
      simp only [wakeAll_pc, wakeAll_data, goto_data] at hadd ⊢
      omega
  | reacquire i hm =>
      have hlt : work cost ((s.acquire i).setMode i .running) < work cost s := by
        refine work_lt_of_one (i := i) (fun j hji => ?_) ?_ ?_
        · simp [hji]
        · rfl
        · simp [hm, Mode.left]
      exact Nat.add_lt_add_right hlt _

/-! ## Who can go on

A thread that rests has nothing to do. Of the others, one can always take a step: the one with the
lock if somebody has it, and any of them if nobody has. -/

/-- A running thread that does not rest can go on if it can have the lock. -/
theorem enabled_of_running (ho : Outline prog a) (h : Outlined a s) (hm : s.mode i = .running)
    (hin : ¬ Rests (prog.stmt i (s.pc i)) s.data) (hfree : s.Free i) :
    Enabled (Monitor.step prog) Progress s := by
  have hown := ho.own i (s.pc i) s.data h.always (h.here i hm)
  -- who is to give the lock back has it
  have howner : a.held i (s.pc i) ≠ 0 → s.owner = some i := (h.owner_iff hm).mpr
  cases hst : prog.stmt i (s.pc i) with
  | outside => exact absurd (.inl hst) hin
  | await cond next =>
      have hc : cond s.data = true := by
        by_contra hc
        exact hin (.inr ⟨cond, next, hst, by simpa using hc⟩)
      exact ⟨.next i, rfl, by simp [step, hm, hst, exec, hc]⟩
  | act f => exact ⟨.next i, rfl, by simp [step, hm, hst, exec]⟩
  | lock next => exact ⟨.next i, rfl, by simp [step, hm, hst, exec, hfree]⟩
  | unlock next =>
      rw [hst] at hown
      have hhas := howner (by have := hown.2.1; omega)
      exact ⟨.next i, rfl, by simp [step, hm, hst, exec, hhas]⟩
  | wait next =>
      rw [hst] at hown
      have hhas := howner (by have := hown.2.1; omega)
      exact ⟨.next i, rfl, by simp [step, hm, hst, exec, hhas]⟩
  | notifyOne next =>
      let woken := (Finset.univ.filter fun j => s.mode j = .blocked).toList
      have hmay : s.MayWake woken := by
        constructor
        · intro j hj
          simpa [woken] using hj
        · intro hnone j hj
          have hmem : j ∈ woken := by simp [woken, hj]
          rw [hnone] at hmem
          cases hmem
      exact ⟨.signal i woken, rfl, by simp [step, hm, hst, hmay]⟩
  | notifyAll next => exact ⟨.next i, rfl, by simp [step, hm, hst, exec]⟩

/-- Nobody is on the way, or the thread with the lock is not. -/
def AtRest (prog : Threads ι σ κ) (s : Monitor ι σ κ) : Prop :=
  (∀ i, Settled prog s i) ∨ ∃ i, s.owner = some i ∧ Settled prog s i

/-- Before that, one of them can go on: that with the lock, if there is one. -/
theorem enabled_of_not_atRest (ho : Outline prog a) (h : Outlined a s) (hs : ¬ AtRest prog s) :
    Enabled (Monitor.step prog) Progress s := by
  obtain ⟨hsome, howner⟩ := not_or.mp hs
  cases hown : s.owner with
  | some j =>
      have hm : s.mode j = .running := by
        by_contra hm
        exact (h.waiting j hm).1 hown
      refine enabled_of_running ho h hm (fun hrests => ?_) (.inr hown)
      exact howner ⟨j, hown, .inr ⟨hm, hrests⟩⟩
  | none =>
      obtain ⟨i, hi⟩ := not_forall.mp hsome
      obtain ⟨hblocked, hrunning⟩ := not_or.mp hi
      cases hm : s.mode i with
      | blocked => exact absurd hm hblocked
      | running =>
          exact enabled_of_running ho h hm (fun hrests => hrunning ⟨hm, hrests⟩) (.inl hown)
      | woken => exact ⟨.reacquire i, rfl, by simp [step, hm, Free, hown]⟩

/-- When all rest, nothing that counts is left to do. -/
theorem not_enabled_of_settled (h : ∀ i, Settled prog s i) :
    ¬ Enabled (Monitor.step prog) Progress s := by
  rintro ⟨l, hl, hsome⟩
  obtain ⟨s', hs'⟩ := Option.isSome_iff_exists.mp hsome
  -- who takes a step is not blocked, and is at a statement or woken up
  have hnot : ∀ i, s.mode i ≠ .blocked →
      s.mode i = .running ∧ Rests (prog.stmt i (s.pc i)) s.data :=
    fun i hm => (h i).resolve_left hm
  cases step_sound hs' with
  | call i k | spuriousWakeup i => cases hl
  | act i f hm hst | lock i next hm hst | unlock i next hm hst | wait i next hm hst
  | notifyAll i next hm hst | notifyOne i next woken hm hst hw =>
      have hrests := (hnot i (by simp [hm])).2
      simp [Rests, hst] at hrests
  | await i cond next hm hst hc =>
      have hrests := (hnot i (by simp [hm])).2
      simp [Rests, hst, hc] at hrests
  | reacquire i hm =>
      have hrunning := (hnot i (by simp [hm])).1
      rw [hm] at hrunning
      cases hrunning

/-! ## The rule -/

/-- **Threads settle.** In every weakly fair execution in which threads are called finitely often
and wake up by chance finitely often, there comes, as late as one likes, a state in which they are
at rest. -/
theorem settles (hd : Descends prog a cost potential parked) (ho : Outline prog a)
    (e : Execution (Monitor.step prog)) (h0 : Outlined a (e.state 0))
    (hfair : e.WeaklyFair Progress)
    (hquiet : ∃ N, ∀ k l, N ≤ k → e.label k = some l → l.ofThread = true) (m : Nat) :
    ∃ k, m ≤ k ∧ AtRest prog (e.state k) := by
  have hranked : Ranked (Execution.restricted (Monitor.step prog) MonitorLabel.ofThread)
      (Outlined a) (AtRest prog) Progress (rank cost potential) := by
    have hdown : ∀ {s s' : Monitor ι σ κ} {l : MonitorLabel ι κ}, Outlined a s →
        Execution.restricted (Monitor.step prog) MonitorLabel.ofThread s l = some s' →
          Outlined a s' ∧ rank cost potential s' < rank cost potential s := by
      intro s s' l hs h
      obtain ⟨hl, hstep⟩ := Execution.restricted_eq_some h
      exact ⟨hs.step ho (step_sound hstep), rank_step hd hs hl (step_sound hstep)⟩
    constructor
    case keeps =>
      intro s l s' hs h
      exact (hdown hs h).1
    case enabled =>
      intro s hs hgoal
      obtain ⟨l, hl, hsome⟩ := enabled_of_not_atRest ho hs hgoal
      refine ⟨l, hl, ?_⟩
      unfold Execution.restricted
      rwa [if_pos (show l.ofThread = true from hl)]
    case le =>
      intro s l s' hs _ h
      exact (hdown hs h).2.le
    case lt =>
      intro s l s' hs _ _ h
      exact (hdown hs h).2
  obtain ⟨N, hN⟩ := hquiet
  have hown : ∀ j l, (e.drop (max m N)).label j = some l → l.ofThread = true := by
    intro j l hl
    exact hN _ l ((Nat.le_max_right m N).trans (Nat.le_add_right _ j)) hl
  have hstart : Outlined a (e.state (max m N)) :=
    e.invariant (fun _ _ _ hs h => hs.step ho (step_sound h)) h0 _
  obtain ⟨j, hj⟩ := hranked.reaches ((e.drop (max m N)).restrict _ hown) hstart
    ((hfair.drop _).restrict hown)
  exact ⟨max m N + j, (Nat.le_max_left m N).trans (Nat.le_add_right _ j), hj⟩

omit [Fintype ι] in
/-- When nobody rests with the lock, all have settled. -/
theorem AtRest.settled (h : AtRest prog s) (hs : Outlined a s)
    (hfree : ∀ i k d, Rests (prog.stmt i k) d → a.held i k = 0) (i : ι) : Settled prog s i := by
  rcases h with hall | ⟨j, hown, hblocked | ⟨hm, hrests⟩⟩
  · exact hall i
  · exact absurd hown (hs.waiting j (by simp [hblocked])).1
  · exact absurd (hfree j _ _ hrests) ((hs.owner_iff hm).mp hown)

end

end Monitor

end Cppev
