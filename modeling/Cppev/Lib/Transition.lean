import Mathlib.Tactic.Common

/-!
# Labelled machines

A machine is a partial step function `step : σ → ℓ → Option σ`: the label carries everything the
outside decides (which thread moves, what a system call answers), and `none` says that the label
is not possible in that state. A run is a list of labels.

* `AllSteps step ok s ls`: every step of the run `ls` from `s` meets `ok`, a condition on the
  state before the step and its label.
* `run_inv`: an invariant that holds at the start and is carried by each step that meets `ok`
  holds after the run.
* `run_hist`: the same for what is said about the state and the labels that led to it.
* `run_sim`: a relation carried by each such step makes every run of one machine a run of another.
* `allSteps_iff`: two machines in step meet their conditions on the same runs.
* `allSteps_iff_reached`: a condition on single steps that is exactly what a property of states
  needs is met by those runs in which the property holds all the way; `allSteps_iff_last`: in which
  it holds at the end, if no step brings it back.
-/

namespace Cppev

variable {σ τ ℓ : Type}

/-! ## Runs

A run is a list of labels, and `run` follows it from the front. Labels that are not possible end it
with `none`, so what is claimed of a run is claimed of one that is possible. -/

/-- The state after the labels `ls`, if they are possible one after the other. -/
def run (step : σ → ℓ → Option σ) (s : σ) : List ℓ → Option σ
  | [] => some s
  | l :: ls =>
    match step s l with
    | some s' => run step s' ls
    | none => none

@[simp] theorem run_nil (step : σ → ℓ → Option σ) (s : σ) : run step s [] = some s := rfl

theorem run_cons_of_some {step : σ → ℓ → Option σ} {s s' : σ} {l : ℓ} {ls : List ℓ}
    (h : step s l = some s') : run step s (l :: ls) = run step s' ls := by
  simp [run, h]

theorem run_append (step : σ → ℓ → Option σ) (s : σ) (ls ls' : List ℓ) :
    run step s (ls ++ ls') = (run step s ls).bind fun s' => run step s' ls' := by
  induction ls generalizing s with
  | nil => rfl
  | cons l ls ih =>
      simp only [List.cons_append, run]
      cases step s l with
      | none => rfl
      | some s' => exact ih s'

/-- Labels that stand for others. -/
theorem run_map {κ : Type} (step : σ → ℓ → Option σ) (f : κ → ℓ) (s : σ) (ls : List κ) :
    run (fun s l => step s (f l)) s ls = run step s (ls.map f) := by
  induction ls generalizing s with
  | nil => rfl
  | cons l ls ih =>
      simp only [List.map_cons, run]
      cases step s (f l) with
      | none => rfl
      | some s' => exact ih s'

/-! ## Conditions on steps

`AllSteps` is a condition on the states that a run goes through, written by recursion on the labels
like `run` itself, so that both are taken apart together. -/

/-- Every step of the run meets `ok`. -/
def AllSteps (step : σ → ℓ → Option σ) (ok : σ → ℓ → Prop) (s : σ) : List ℓ → Prop
  | [] => True
  | l :: ls =>
    ok s l ∧
      match step s l with
      | some s' => AllSteps step ok s' ls
      | none => True

instance decidableAllSteps (step : σ → ℓ → Option σ) (ok : σ → ℓ → Prop)
    [∀ s l, Decidable (ok s l)] : ∀ s ls, Decidable (AllSteps step ok s ls)
  | _, [] => isTrue trivial
  | s, l :: ls =>
    have : Decidable (match step s l with
        | some s' => AllSteps step ok s' ls
        | none => True) := by
      cases step s l with
      | none => exact isTrue trivial
      | some s' => exact decidableAllSteps step ok s' ls
    inferInstanceAs (Decidable (ok s l ∧ _))

theorem AllSteps.head {step : σ → ℓ → Option σ} {ok : σ → ℓ → Prop} {s : σ} {l : ℓ} {ls : List ℓ}
    (h : AllSteps step ok s (l :: ls)) : ok s l := h.1

theorem AllSteps.tail {step : σ → ℓ → Option σ} {ok : σ → ℓ → Prop} {s s' : σ} {l : ℓ}
    {ls : List ℓ} (h : AllSteps step ok s (l :: ls)) (hs : step s l = some s') :
    AllSteps step ok s' ls := by
  have := h.2
  rwa [hs] at this

/-- A condition that every label of the run meets in every state. -/
theorem allSteps_of_forall {step : σ → ℓ → Option σ} {ok : σ → ℓ → Prop} {ls : List ℓ}
    (h : ∀ l ∈ ls, ∀ s, ok s l) (s : σ) : AllSteps step ok s ls := by
  induction ls generalizing s with
  | nil => trivial
  | cons l ls ih =>
      obtain ⟨hl, hls⟩ := List.forall_mem_cons.mp h
      refine ⟨hl s, ?_⟩
      cases step s l with
      | none => trivial
      | some s' => exact ih hls s'

/-- Two conditions that together give a third. -/
theorem AllSteps.and {step : σ → ℓ → Option σ} {ok ok' both : σ → ℓ → Prop}
    (h : ∀ s l, ok s l → ok' s l → both s l) {s : σ} {ls : List ℓ} (hok : AllSteps step ok s ls)
    (hok' : AllSteps step ok' s ls) : AllSteps step both s ls := by
  induction ls generalizing s with
  | nil => trivial
  | cons l ls ih =>
      refine ⟨h s l hok.head hok'.head, ?_⟩
      cases hs : step s l with
      | none => trivial
      | some s' => exact ih (hok.tail hs) (hok'.tail hs)

/-- One step more. -/
theorem allSteps_concat {step : σ → ℓ → Option σ} {ok : σ → ℓ → Prop} {s s' : σ} {ls : List ℓ}
    (hrun : run step s ls = some s') (l : ℓ) :
    AllSteps step ok s (ls ++ [l]) ↔ AllSteps step ok s ls ∧ ok s' l := by
  induction ls generalizing s with
  | nil =>
      obtain rfl := Option.some.inj hrun
      cases hs : step s l <;> simp [AllSteps, hs]
  | cons l' ls ih =>
      cases hs : step s l' with
      | none => simp [run, hs] at hrun
      | some t =>
          rw [run_cons_of_some hs] at hrun
          simp only [List.cons_append, AllSteps, hs, ih hrun, and_assoc]

theorem allSteps_true (step : σ → ℓ → Option σ) (s : σ) (ls : List ℓ) :
    AllSteps step (fun _ _ => True) s ls :=
  allSteps_of_forall (fun _ _ _ => trivial) s

/-! ## Invariants and simulations

The inductions on runs, once and for all. What a development adds is a step lemma. -/

/-- **Invariants of runs.** -/
theorem run_inv (step : σ → ℓ → Option σ) (ok : σ → ℓ → Prop) (Inv : σ → Prop)
    (hstep : ∀ s l s', Inv s → ok s l → step s l = some s' → Inv s') {s s' : σ} {ls : List ℓ}
    (h0 : Inv s) (hok : AllSteps step ok s ls) (hrun : run step s ls = some s') : Inv s' := by
  induction ls generalizing s with
  | nil =>
      cases hrun
      exact h0
  | cons l ls ih =>
      cases hs : step s l with
      | none => simp [run, hs] at hrun
      | some t =>
          rw [run_cons_of_some hs] at hrun
          exact ih (hstep s l t h0 hok.head hs) (hok.tail hs) hrun

/-- Invariants that speak of the labels so far. -/
theorem run_hist (step : σ → ℓ → Option σ) (Inv : List ℓ → σ → Prop)
    (hstep : ∀ hist s l s', Inv hist s → step s l = some s' → Inv (hist ++ [l]) s') {s s' : σ}
    {hist ls : List ℓ} (h0 : Inv hist s) (hrun : run step s ls = some s') : Inv (hist ++ ls) s' := by
  induction ls generalizing s hist with
  | nil =>
      cases hrun
      simpa using h0
  | cons l ls ih =>
      cases hs : step s l with
      | none => simp [run, hs] at hrun
      | some t =>
          rw [run_cons_of_some hs] at hrun
          simpa using ih (hstep hist s l t h0 hs) hrun

/-- **Forward simulation.** -/
theorem run_sim (step : σ → ℓ → Option σ) (step' : τ → ℓ → Option τ) (ok : σ → ℓ → Prop)
    (R : σ → τ → Prop)
    (hstep : ∀ s t l s', R s t → ok s l → step s l = some s' →
      ∃ t', step' t l = some t' ∧ R s' t')
    {s s' : σ} {t : τ} {ls : List ℓ} (h0 : R s t) (hok : AllSteps step ok s ls)
    (hrun : run step s ls = some s') : ∃ t', run step' t ls = some t' ∧ R s' t' := by
  induction ls generalizing s t with
  | nil =>
      cases hrun
      exact ⟨t, rfl, h0⟩
  | cons l ls ih =>
      cases hs : step s l with
      | none => simp [run, hs] at hrun
      | some u =>
          rw [run_cons_of_some hs] at hrun
          obtain ⟨v, hv, hR⟩ := hstep s t l u h0 hok.head hs
          obtain ⟨t', ht', hR'⟩ := ih hR (hok.tail hs) hrun
          exact ⟨t', by rw [run_cons_of_some hv]; exact ht', hR'⟩

/-! ## Exact conditions

Where a condition is not only enough but also necessary, one step is an equivalence; these rules
make one of the run out of it. -/

/-- **Equivalent conditions.** The relation `R` is carried by steps that meet the condition, and
related states agree about it. -/
theorem allSteps_iff {step : σ → ℓ → Option σ} {step' : τ → ℓ → Option τ} {ok : σ → ℓ → Prop}
    {ok' : τ → ℓ → Prop} {fits : ℓ → Prop} {R : σ → τ → Prop}
    (hok : ∀ s t l, R s t → fits l → (ok s l ↔ ok' t l))
    (hstep : ∀ s t l, R s t → fits l → ok s l → Option.Rel R (step s l) (step' t l))
    {s : σ} {t : τ} {ls : List ℓ} (h0 : R s t) (hfits : ∀ l ∈ ls, fits l) :
    AllSteps step ok s ls ↔ AllSteps step' ok' t ls := by
  induction ls generalizing s t with
  | nil => exact Iff.rfl
  | cons l ls ih =>
      obtain ⟨hl, hls⟩ := List.forall_mem_cons.mp hfits
      refine and_congr_left' (hok s t l h0 hl) |>.trans (and_congr_right fun hl' => ?_)
      have hrel := hstep s t l h0 hl ((hok s t l h0 hl).mpr hl')
      generalize step s l = o at hrel ⊢
      generalize step' t l = o' at hrel ⊢
      cases hrel with
      | none => exact Iff.rfl
      | some hR => exact ih hR hls

/-- **Exact conditions.** From a state with `P`, a step leads to one with `P` if and only if it meets
the condition; `I` is what such states have besides. -/
theorem allSteps_iff_reached {step : σ → ℓ → Option σ} {ok : σ → ℓ → Prop} {I P : σ → Prop}
    (hinv : ∀ s l s', I s → P s → step s l = some s' → I s')
    (hstep : ∀ s l s', I s → P s → step s l = some s' → (ok s l ↔ P s')) {s s' : σ} {ls : List ℓ}
    (hi : I s) (h0 : P s) (hrun : run step s ls = some s') :
    AllSteps step ok s ls ↔ ∀ ls' t, ls' <+: ls → run step s ls' = some t → P t := by
  induction ls generalizing s with
  | nil =>
      refine iff_of_true trivial fun ls' t hpre ht => ?_
      obtain rfl := List.prefix_nil.mp hpre
      exact Option.some.inj ht ▸ h0
  | cons l ls ih =>
      cases hs : step s l with
      | none => simp [run, hs] at hrun
      | some u =>
          rw [run_cons_of_some hs] at hrun
          have hok := hstep s l u hi h0 hs
          constructor
          · intro hall ls' t hpre ht
            cases ls' with
            | nil => exact Option.some.inj ht ▸ h0
            | cons l' ls' =>
                obtain ⟨rfl, htail⟩ := List.cons_prefix_cons.mp hpre
                rw [run_cons_of_some hs] at ht
                exact (ih (hinv s _ u hi h0 hs) (hok.mp hall.head) hrun).mp (hall.tail hs) ls' t htail ht
          · intro hall
            have hu : P u := by
              refine hall [l] u ?_ ?_
              · exact List.cons_prefix_cons.mpr ⟨rfl, List.nil_prefix⟩
              · rw [run_cons_of_some hs, run_nil]
            refine ⟨hok.mpr hu, ?_⟩
            rw [hs]
            refine (ih (hinv s l u hi h0 hs) hu hrun).mpr fun ls' t hpre ht => ?_
            refine hall (l :: ls') t (List.cons_prefix_cons.mpr ⟨rfl, hpre⟩) ?_
            rw [run_cons_of_some hs, ht]

/-- A property that no step brings back. -/
theorem of_run {step : σ → ℓ → Option σ} {I P : σ → Prop}
    (hinv : ∀ s l s', I s → step s l = some s' → I s')
    (hback : ∀ s l s', I s → step s l = some s' → P s' → P s) {s s' : σ} {ls : List ℓ}
    (hi : I s) (hrun : run step s ls = some s') (hp : P s') : P s := by
  induction ls generalizing s with
  | nil => exact Option.some.inj hrun ▸ hp
  | cons l ls ih =>
      cases hs : step s l with
      | none => simp [run, hs] at hrun
      | some t =>
          rw [run_cons_of_some hs] at hrun
          exact hback s l t hi hs (ih (hinv s l t hi hs) hrun)

/-- Exact conditions for such a property: it is enough to look at the last state. -/
theorem allSteps_iff_last {step : σ → ℓ → Option σ} {ok : σ → ℓ → Prop} {I P : σ → Prop}
    (hinv : ∀ s l s', I s → step s l = some s' → I s')
    (hstep : ∀ s l s', I s → P s → step s l = some s' → (ok s l ↔ P s'))
    (hback : ∀ s l s', I s → step s l = some s' → P s' → P s) {s s' : σ} {ls : List ℓ}
    (hi : I s) (h0 : P s) (hrun : run step s ls = some s') : AllSteps step ok s ls ↔ P s' := by
  rw [allSteps_iff_reached (fun s l s' hi _ => hinv s l s' hi) hstep hi h0 hrun]
  constructor
  · intro hall
    exact hall ls s' List.prefix_rfl hrun
  · rintro hp ls' t ⟨rest, rfl⟩ ht
    rw [run_append, ht] at hrun
    have hit : I t := run_inv step (fun _ _ => True) I (fun s l s' hi _ => hinv s l s' hi) hi
      (allSteps_true step s ls') ht
    exact of_run hinv hback hit hrun hp

/-- A machine that can always take a step that meets `ok` completes every such run. -/
theorem run_isSome (step : σ → ℓ → Option σ) (ok : σ → ℓ → Prop)
    (hstep : ∀ s l, ok s l → (step s l).isSome) {s : σ} {ls : List ℓ}
    (hok : AllSteps step ok s ls) : (run step s ls).isSome := by
  induction ls generalizing s with
  | nil => rfl
  | cons l ls ih =>
      obtain ⟨s', hs⟩ := Option.isSome_iff_exists.mp (hstep s l hok.head)
      rw [run_cons_of_some hs]
      exact ih (hok.tail hs)

end Cppev
