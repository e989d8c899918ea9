import Mathlib.Data.List.Rotate
import Mathlib.Tactic.Common

/-!
# Words that go round

* `Cyclic p xs`: `xs` is the beginning of `p` repeated over and over.
* `isRotated_of_append`: what completes `r` to `p ++ r` is `p`, turned.
-/

namespace Cppev

variable {α : Type} {p xs : List α}

/-- A prefix of `p ++ p ++ …`. -/
def Cyclic (p xs : List α) : Prop := ∃ n, xs <+: (List.replicate n p).flatten

theorem cyclic_nil : Cyclic p [] := ⟨0, List.nil_prefix⟩

theorem Cyclic.initial {ys : List α} (h : Cyclic p ys) (hpre : xs <+: ys) : Cyclic p xs := by
  obtain ⟨n, hn⟩ := h
  exact ⟨n, hpre.trans hn⟩

theorem Cyclic.append (h : Cyclic p xs) : Cyclic p (p ++ xs) := by
  obtain ⟨n, hn⟩ := h
  refine ⟨n + 1, ?_⟩
  rw [List.replicate_succ, List.flatten_cons]
  exact (List.prefix_append_right_inj p).mpr hn

theorem isRotated_of_append {p r w : List α} (h : p ++ r = r ++ w) : w ~r p := by
  induction hn : r.length using Nat.strong_induction_on generalizing r with
  | _ n ih =>
      rcases List.append_eq_append_iff.mp h with ⟨t, rfl, ht⟩ | ⟨t, rfl, ht⟩
      · -- `r` is `p ++ t`
        rcases eq_or_ne p [] with rfl | hp
        · rw [List.nil_append] at ht
          have hw : w = [] := by simpa using ht
          rw [hw]
        · refine ih t.length ?_ ?_ rfl
          · have hpos := List.length_pos_iff.mpr hp
            rw [← hn, List.length_append]
            omega
          · exact ht
      · -- `p` is `r ++ t`
        rw [ht]
        exact List.isRotated_append

end Cppev
