import Mathlib.Tactic.Common

/-!
# Loops with a `break`

`while (true)`: the body goes on with new values of its variables, or breaks with a result. Whether
such a loop comes to an end is not clear from its text, so it is run for a number of rounds.

* `loopFor_spec`: an invariant and a measure that decreases; the loop ends within as many rounds as
  the measure says, with a result that the invariant accounts for.
-/

namespace Cppev

variable {σ ρ : Type}

/-- At most `n` rounds. There is no result when the loop has not come to an end by then. -/
def loopFor (body : σ → σ ⊕ ρ) : Nat → σ → Option ρ
  | 0, _ => none
  | n + 1, s =>
    match body s with
    | .inl s' => loopFor body n s'
    | .inr r => some r

/-- What a round does that keeps `Inv` and decreases `measure`, or breaks with `Post`. -/
structure RoundOk (Inv : σ → Prop) (measure : σ → Nat) (Post : ρ → Prop) (s : σ) (out : σ ⊕ ρ) :
    Prop where
  goesOn : ∀ s', out = .inl s' → Inv s' ∧ measure s' < measure s
  breaks : ∀ r, out = .inr r → Post r

/-- **Total correctness of a loop.** -/
theorem loopFor_spec {body : σ → σ ⊕ ρ} {Inv : σ → Prop} {measure : σ → Nat} {Post : ρ → Prop}
    (hbody : ∀ s, Inv s → RoundOk Inv measure Post s (body s)) {n : Nat} {s : σ} (h : Inv s)
    (hn : measure s < n) : ∃ r, loopFor body n s = some r ∧ Post r := by
  induction n generalizing s with
  | zero => exact absurd hn (Nat.not_lt_zero _)
  | succ n ih =>
      have hround := hbody s h
      simp only [loopFor]
      cases hout : body s with
      | inl s' =>
          obtain ⟨h', hlt⟩ := hround.goesOn s' hout
          exact ih h' (by omega)
      | inr r => exact ⟨r, rfl, hround.breaks r hout⟩

end Cppev
