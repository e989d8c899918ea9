import Mathlib.Algebra.BigOperators.Group.Finset.Basic
import Mathlib.Data.Prod.Lex
import Mathlib.Order.WellFounded
import Cppev.Lib.Transition

/-!
# Fair executions

An execution goes on for ever; when nothing moves, its state stays as it is. Some of its steps
count, those that `progress` names; it is weakly fair if it does not leave them out for ever while
one of them is always possible.

* `Ranked.reaches`: if one of them is possible up to the goal, each brings a well-founded rank down
  and no other step brings it up, then a weakly fair execution comes to the goal.
* `Execution.invariant`, `invariant_from`: an invariant of the steps holds all the way.
* `Execution.ofRun`, `weaklyFair_ofRun`: a run after which no step that counts is possible, and then
  nothing, is such an execution.
-/

namespace Cppev

variable {σ ℓ α : Type}

/-! ## Executions

A machine that is not possible to go on stays where it is, so every state has an execution from it.
Fairness is weak: a step that counts may be put off as long as it becomes impossible again and
again. -/

/-- A step, or nothing. -/
def moves (step : σ → ℓ → Option σ) (s : σ) : Option ℓ → Option σ
  | none => some s
  | some l => step s l

structure Execution (step : σ → ℓ → Option σ) where
  state : Nat → σ
  label : Nat → Option ℓ
  next : ∀ n, moves step (state n) (label n) = some (state (n + 1))

/-- A step that counts is possible. -/
def Enabled (step : σ → ℓ → Option σ) (progress : σ → ℓ → Prop) (s : σ) : Prop :=
  ∃ l, progress s l ∧ (step s l).isSome = true

variable {step : σ → ℓ → Option σ} {inv goal : σ → Prop} {progress : σ → ℓ → Prop}

theorem moves_cases {s s' : σ} {o : Option ℓ} (h : moves step s o = some s') :
    s' = s ∨ ∃ l, o = some l ∧ step s l = some s' := by
  cases o with
  | none => exact .inl (Option.some.inj h).symm
  | some l => exact .inr ⟨l, rfl, h⟩

namespace Execution

def WeaklyFair (e : Execution step) (progress : σ → ℓ → Prop) : Prop :=
  ∀ n, (∀ m, n ≤ m → Enabled step progress (e.state m)) →
    ∃ m l, n ≤ m ∧ e.label m = some l ∧ progress (e.state m) l

variable (inv) in
/-- What the steps of `e` keep, from some time on. -/
theorem invariant_from (e : Execution step) {n k : Nat}
    (hstep : ∀ k l, n ≤ k → e.label k = some l → step (e.state k) l = some (e.state (k + 1)) →
      inv (e.state k) → inv (e.state (k + 1)))
    (hn : inv (e.state n)) (hk : n ≤ k) : inv (e.state k) := by
  induction k, hk using Nat.le_induction with
  | base => exact hn
  | succ k hk ih =>
      rcases moves_cases (e.next k) with hsame | ⟨l, hl, hnext⟩
      · exact hsame ▸ ih
      · exact hstep k l hk hl hnext ih

theorem invariant (e : Execution step)
    (hstep : ∀ s l s', inv s → step s l = some s' → inv s') (h0 : inv (e.state 0)) (n : Nat) :
    inv (e.state n) :=
  e.invariant_from inv (fun _ _ _ _ hnext hi => hstep _ _ _ hi hnext) h0 (Nat.zero_le n)

/-! ### Parts of an execution -/

/-- What is left of an execution from the `n`-th state on. -/
def drop (e : Execution step) (n : Nat) : Execution step where
  state m := e.state (n + m)
  label m := e.label (n + m)
  next m := e.next (n + m)

theorem WeaklyFair.drop {e : Execution step} (h : e.WeaklyFair progress) (n : Nat) :
    (e.drop n).WeaklyFair progress := by
  intro k henabled
  obtain ⟨m, l, hm, hlabel, hprogress⟩ := h (n + k) fun m hm => by
    obtain ⟨j, rfl⟩ := Nat.exists_eq_add_of_le hm
    rw [Nat.add_assoc]
    exact henabled (k + j) (Nat.le_add_right k j)
  obtain ⟨j, rfl⟩ := Nat.exists_eq_add_of_le hm
  rw [Nat.add_assoc] at hlabel hprogress
  exact ⟨k + j, l, Nat.le_add_right k j, hlabel, hprogress⟩

/-- The machine that takes no other steps than those that are `ok`. -/
def restricted (step : σ → ℓ → Option σ) (ok : ℓ → Bool) (s : σ) (l : ℓ) : Option σ :=
  if ok l then step s l else none

theorem restricted_eq_some {ok : ℓ → Bool} {s s' : σ} {l : ℓ}
    (h : restricted step ok s l = some s') : ok l = true ∧ step s l = some s' := by
  unfold restricted at h
  split at h
  case isTrue hok => exact ⟨hok, h⟩
  case isFalse => cases h

def restrict (e : Execution step) (ok : ℓ → Bool) (h : ∀ n l, e.label n = some l → ok l = true) :
    Execution (restricted step ok) where
  state := e.state
  label := e.label
  next n := by
    have hnext := e.next n
    cases hlabel : e.label n with
    | none => rwa [hlabel] at hnext
    | some l =>
        rw [hlabel] at hnext
        show restricted step ok (e.state n) l = some (e.state (n + 1))
        unfold restricted
        rw [if_pos (h n l hlabel)]
        exact hnext

/-- Fairness does not depend on labels that do not occur. -/
theorem WeaklyFair.restrict {e : Execution step} (hfair : e.WeaklyFair progress) {ok : ℓ → Bool}
    (h : ∀ n l, e.label n = some l → ok l = true) : (e.restrict ok h).WeaklyFair progress := by
  intro n henabled
  refine hfair n fun m hm => ?_
  obtain ⟨l, hprogress, hsome⟩ := henabled m hm
  obtain ⟨s', hs'⟩ := Option.isSome_iff_exists.mp hsome
  exact ⟨l, hprogress, Option.isSome_iff_exists.mpr ⟨s', (restricted_eq_some hs').2⟩⟩

/-- The beginning of an execution is a run. -/
theorem exists_run (e : Execution step) (n : Nat) :
    ∃ ls, run step (e.state 0) ls = some (e.state n) := by
  induction n with
  | zero => exact ⟨[], rfl⟩
  | succ n ih =>
      obtain ⟨ls, hls⟩ := ih
      rcases moves_cases (e.next n) with hsame | ⟨l, -, hnext⟩
      · exact ⟨ls, hsame ▸ hls⟩
      · refine ⟨ls ++ [l], ?_⟩
        rw [run_append, hls]
        exact run_cons_of_some hnext

/-! ### A run and then nothing

A run that ends where nothing that counts is possible is the beginning of a fair execution, which is
how witnesses are given. -/

/-- A run, and then nothing. -/
def ofRun {s₀ s : σ} {ls : List ℓ} (h : run step s₀ ls = some s) : Execution step where
  state n := (run step s₀ (ls.take n)).getD s
  label n := ls[n]?
  next n := by
    have hsome : ∀ k, ∃ s', run step s₀ (ls.take k) = some s' := fun k => by
      rw [← List.take_append_drop k ls, run_append] at h
      obtain ⟨s', hs', -⟩ := Option.bind_eq_some_iff.mp h
      exact ⟨s', hs'⟩
    obtain ⟨s', hs'⟩ := hsome n
    obtain ⟨s'', hs''⟩ := hsome (n + 1)
    rw [hs', hs'']
    show moves step s' ls[n]? = some s''
    rw [List.take_add_one, run_append, hs'] at hs''
    cases hl : ls[n]? with
    | none =>
        rw [hl] at hs''
        exact hs''
    | some l =>
        rw [hl] at hs''
        show step s' l = some s''
        change run step s' [l] = some s'' at hs''
        unfold run at hs''
        split at hs''
        case h_1 t ht => exact ht.trans hs''
        case h_2 => cases hs''

/-- From the end of the run on, nothing moves. -/
theorem state_ofRun {s₀ s : σ} {ls : List ℓ} (h : run step s₀ ls = some s) {n : Nat}
    (hn : ls.length ≤ n) : (ofRun h).state n = s := by
  show (run step s₀ (ls.take n)).getD s = s
  rw [List.take_of_length_le hn, h]
  rfl

theorem lt_of_label {s₀ s : σ} {ls : List ℓ} (h : run step s₀ ls = some s) {k : Nat} {l : ℓ}
    (hl : (ofRun h).label k = some l) : k < ls.length :=
  (List.getElem?_eq_some_iff.mp hl).1

/-- A condition on the steps of the run is one on the steps of the execution. -/
theorem ok_of_allSteps {ok : σ → ℓ → Prop} {s₀ s : σ} {ls : List ℓ}
    (hok : AllSteps step ok s₀ ls) (h : run step s₀ ls = some s) {k : Nat} {l : ℓ}
    (hl : (ofRun h).label k = some l) : ok ((ofRun h).state k) l := by
  induction ls generalizing s₀ k with
  | nil => cases hl
  | cons a ls ih =>
      cases ha : step s₀ a with
      | none => simp [run, ha] at h
      | some s₁ =>
          cases k with
          | zero =>
              obtain rfl : a = l := Option.some.inj hl
              exact hok.head
          | succ k =>
              have hrest : run step s₁ ls = some s := (run_cons_of_some ha).symm.trans h
              have hstate : (ofRun h).state (k + 1) = (ofRun hrest).state k :=
                congrArg (Option.getD · s) (run_cons_of_some ha)
              rw [hstate]
              exact ih (hok.tail ha) hrest hl

/-- Nothing is left out at the end, so the execution is fair. -/
theorem weaklyFair_ofRun {s₀ s : σ} {ls : List ℓ} (h : run step s₀ ls = some s)
    (hend : ¬ Enabled step progress s) : (ofRun h).WeaklyFair progress := by
  intro n henabled
  refine absurd (henabled (max n ls.length) (Nat.le_max_left ..)) ?_
  rw [state_ofRun h (Nat.le_max_right ..)]
  exact hend

end Execution

/-! ## Ranks

The one rule for progress: a goal is reached if up to it something that counts is possible, and
every such step brings a well-founded rank down. -/

/-- A rank for the way to the goal. -/
structure Ranked [Preorder α] (step : σ → ℓ → Option σ) (inv goal : σ → Prop)
    (progress : σ → ℓ → Prop) (rank : σ → α) : Prop where
  keeps : ∀ s l s', inv s → step s l = some s' → inv s'
  enabled : ∀ s, inv s → ¬ goal s → Enabled step progress s
  le : ∀ s l s', inv s → ¬ goal s → step s l = some s' → rank s' ≤ rank s
  lt : ∀ s l s', inv s → ¬ goal s → progress s l → step s l = some s' → rank s' < rank s

variable [Preorder α] {rank : σ → α}

/-- Until the goal the rank does not go up. -/
theorem Ranked.le_of_le (h : Ranked step inv goal progress rank) (e : Execution step)
    (h0 : inv (e.state 0)) {n m : Nat} (hnm : n ≤ m) (hgoal : ∀ k, ¬ goal (e.state k)) :
    rank (e.state m) ≤ rank (e.state n) := by
  induction m, hnm using Nat.le_induction with
  | base => exact le_rfl
  | succ m _ ih =>
      rcases moves_cases (e.next m) with hsame | ⟨l, -, hnext⟩
      · rw [hsame]
        exact ih
      · have hinv : inv (e.state m) := e.invariant h.keeps h0 m
        exact (h.le _ _ _ hinv (hgoal m) hnext).trans ih

/-- **Fair executions come to the goal.** -/
theorem Ranked.reaches [WellFoundedLT α] (h : Ranked step inv goal progress rank)
    (e : Execution step) (h0 : inv (e.state 0)) (hfair : e.WeaklyFair progress) :
    ∃ n, goal (e.state n) := by
  by_contra hnever
  have hgoal : ∀ k, ¬ goal (e.state k) := fun k hk => hnever ⟨k, hk⟩
  have hinv : ∀ k, inv (e.state k) := e.invariant h.keeps h0
  -- from any point on there is a later one with a smaller rank
  have hdown : ∀ n, ∃ m, rank (e.state m) < rank (e.state n) := by
    intro n
    obtain ⟨m, l, hnm, hlabel, hprogress⟩ := hfair n fun m _ => h.enabled _ (hinv m) (hgoal m)
    have hnext := e.next m
    rw [hlabel] at hnext
    refine ⟨m + 1, ?_⟩
    calc rank (e.state (m + 1)) < rank (e.state m) :=
          h.lt _ _ _ (hinv m) (hgoal m) hprogress hnext
      _ ≤ rank (e.state n) := h.le_of_le e h0 hnm hgoal
  obtain ⟨_, ⟨n, rfl⟩, hmin⟩ :=
    WellFounded.has_min wellFounded_lt (Set.range fun n => rank (e.state n)) (Set.range_nonempty _)
  obtain ⟨m, hm⟩ := hdown n
  exact hmin _ ⟨m, rfl⟩ hm

/-- A rank with a part for each `i`, of which one changes. -/
theorem sum_update_add {ι β : Type} [Fintype ι] [DecidableEq ι] (part : ι → β → Nat) (f : ι → β)
    (i : ι) (b : β) :
    ∑ j, part j (Function.update f i b j) + part i (f i) = ∑ j, part j (f j) + part i b := by
  have hold : ∑ j, part j (f j) = part i (f i) + ∑ j ∈ Finset.univ.erase i, part j (f j) :=
    (Finset.add_sum_erase _ _ (Finset.mem_univ i)).symm
  have hnew : ∑ j, part j (Function.update f i b j) =
      part i b + ∑ j ∈ Finset.univ.erase i, part j (f j) := by
    rw [← Finset.add_sum_erase _ _ (Finset.mem_univ i), Function.update_self]
    congr 1
    apply Finset.sum_congr rfl
    intro j hj
    rw [Function.update_of_ne (Finset.ne_of_mem_erase hj)]
  omega

end Cppev
