import Mathlib.Data.List.Perm.Basic

/-!
# Emptying a priority queue

A queue is filled with `due`, and then taken apart: each time an element of the greatest rank leaves
it, whichever of them. `Draining rank due out queue` is what holds in between, with `out` for what
has left the queue so far.

* `Draining.fill` and `Draining.pop`: the two steps.
* `Draining.perm_of_empty`: in the end everything has left, and it left in the order of the ranks.
-/

namespace Cppev

variable {α β : Type} [LE β] {rank : α → β} {due out queue : List α}

structure Draining (rank : α → β) (due out queue : List α) : Prop where
  perm : (out ++ queue).Perm due
  sorted : out.Pairwise fun a a' => rank a' ≤ rank a
  /-- What is left does not go before what came out. -/
  above : ∀ a ∈ out, ∀ a' ∈ queue, rank a' ≤ rank a

namespace Draining

theorem start (rank : α → β) : Draining rank [] [] [] :=
  ⟨.refl [], List.Pairwise.nil, fun _ ha => absurd ha List.not_mem_nil⟩

/-- While nothing has come out. -/
theorem fill (h : Draining rank due [] queue) (more : List α) :
    Draining rank (due ++ more) [] (queue ++ more) := by
  refine ⟨?_, List.Pairwise.nil, fun _ ha => absurd ha List.not_mem_nil⟩
  have hqueue : queue.Perm due := h.perm
  exact hqueue.append_right more

theorem pop (h : Draining rank due out queue) {i : Nat} {a : α} (hget : queue[i]? = some a)
    (hmax : ∀ a' ∈ queue, rank a' ≤ rank a) :
    Draining rank due (out ++ [a]) (queue.eraseIdx i) := by
  obtain ⟨hi, rfl⟩ := List.getElem?_eq_some_iff.mp hget
  have hmem : queue[i] ∈ queue := List.getElem_mem hi
  refine ⟨?_, ?_, ?_⟩
  · have hrest : (queue[i] :: queue.eraseIdx i).Perm queue := List.getElem_cons_eraseIdx_perm hi
    rw [List.append_assoc]
    exact (hrest.append_left out).trans h.perm
  · rw [List.pairwise_append]
    refine ⟨h.sorted, List.pairwise_singleton _ _, ?_⟩
    intro a ha a' ha'
    obtain rfl := List.mem_singleton.mp ha'
    exact h.above a ha _ hmem
  · intro a ha a' ha'
    have hleft : a' ∈ queue := List.mem_of_mem_eraseIdx ha'
    rcases List.mem_append.mp ha with ha | ha
    · exact h.above a ha a' hleft
    · obtain rfl := List.mem_singleton.mp ha
      exact hmax a' hleft

theorem perm_of_empty (h : Draining rank due out []) : out.Perm due := by
  simpa using h.perm

theorem length_add (h : Draining rank due out queue) : out.length + queue.length = due.length := by
  rw [← h.perm.length_eq, List.length_append]

end Draining

end Cppev
