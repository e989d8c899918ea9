import Mathlib.Tactic.Common

/-!
# Framings

A framing cuts a stream into messages and says which tail is not a message yet. What makes it a
framing is that nothing depends on how the stream arrives: a tail that is kept and continued is cut
as if it had come in one piece.

* `Framing.parse_append_of_nil`: after a stream without a tail, the rest is cut on its own.
* `lines`: messages that end with a separator.
-/

namespace Cppev

structure Framing (α μ : Type) where
  /-- The messages of a stream, and its tail. -/
  parse : List α → List μ × List α
  /-- The tail is continued by what comes next. -/
  parse_append : ∀ xs ys, parse (xs ++ ys) =
    ((parse xs).1 ++ (parse ((parse xs).2 ++ ys)).1, (parse ((parse xs).2 ++ ys)).2)
  /-- What is before the tail consists of the messages. -/
  complete : ∀ xs, ∃ taken, xs = taken ++ (parse xs).2 ∧ parse taken = ((parse xs).1, [])

namespace Framing

variable {α μ : Type} (fr : Framing α μ)

/-- The part of a stream before its tail. -/
def taken (xs : List α) : List α := xs.take (xs.length - (fr.parse xs).2.length)

theorem taken_append_tail (xs : List α) : fr.taken xs ++ (fr.parse xs).2 = xs ∧
    fr.parse (fr.taken xs) = ((fr.parse xs).1, []) := by
  obtain ⟨taken, hxs, hparse⟩ := fr.complete xs
  have htaken : fr.taken xs = taken := by
    have hlen : xs.length - (fr.parse xs).2.length = taken.length := by
      have := congrArg List.length hxs
      rw [List.length_append] at this
      omega
    rw [Framing.taken, hlen]
    conv_lhs => rw [hxs]
    exact List.take_left
  rw [htaken]
  exact ⟨hxs.symm, hparse⟩

theorem parse_append_of_nil {xs : List α} (h : (fr.parse xs).2 = []) (ys : List α) :
    fr.parse (xs ++ ys) = ((fr.parse xs).1 ++ (fr.parse ys).1, (fr.parse ys).2) := by
  rw [fr.parse_append, h]
  rfl

theorem parse_nil : fr.parse [] = ([], []) := by
  obtain ⟨taken, hxs, hparse⟩ := fr.complete []
  obtain ⟨rfl, htail⟩ := List.append_eq_nil_iff.mp hxs.symm
  have happend := fr.parse_append_of_nil htail []
  have hmsgs : (fr.parse []).1 = (fr.parse []).1 ++ (fr.parse []).1 := congrArg Prod.fst happend
  exact Prod.ext (List.self_eq_append_left.mp hmsgs) htail

end Framing

/-! ## Lines -/

section Lines

variable {α : Type} [DecidableEq α] (sep : α)

/-- Put an element before the first line. -/
def consLine (x : α) : List (List α) × List α → List (List α) × List α
  | (m :: ms, tail) => ((x :: m) :: ms, tail)
  | ([], tail) => ([], x :: tail)

/-- Cut at each `sep`. -/
def splitLines : List α → List (List α) × List α
  | [] => ([], [])
  | x :: xs =>
    if x = sep then ([] :: (splitLines xs).1, (splitLines xs).2)
    else consLine x (splitLines xs)

theorem splitLines_append (xs ys : List α) : splitLines sep (xs ++ ys) =
    ((splitLines sep xs).1 ++ (splitLines sep ((splitLines sep xs).2 ++ ys)).1,
      (splitLines sep ((splitLines sep xs).2 ++ ys)).2) := by
  induction xs with
  | nil => rfl
  | cons x xs ih =>
      by_cases hx : x = sep
      · simp only [List.cons_append, splitLines, if_pos hx, ih]
      · simp only [List.cons_append, splitLines, if_neg hx, ih]
        rcases splitLines sep xs with ⟨_ | ⟨m, ms⟩, tail⟩
        · simp [consLine, splitLines, if_neg hx]
        · simp [consLine]

theorem splitLines_eq_nil {xs : List α} (h : splitLines sep xs = ([], [])) : xs = [] := by
  cases xs with
  | nil => rfl
  | cons x xs =>
      by_cases hx : x = sep
      · simp [splitLines, hx] at h
      · rcases hs : splitLines sep xs with ⟨_ | ⟨m, ms⟩, tail⟩ <;>
          simp [splitLines, hx, hs, consLine] at h

theorem splitLines_complete (xs : List α) : ∃ taken, xs = taken ++ (splitLines sep xs).2 ∧
    splitLines sep taken = ((splitLines sep xs).1, []) := by
  induction xs with
  | nil => exact ⟨[], rfl, rfl⟩
  | cons x xs ih =>
      obtain ⟨taken, hxs, hparse⟩ := ih
      by_cases hx : x = sep
      · refine ⟨x :: taken, ?_, ?_⟩
        · simp only [splitLines, if_pos hx, List.cons_append]
          rw [← hxs]
        · simp only [splitLines, if_pos hx, hparse]
      · simp only [splitLines, if_neg hx]
        rcases hs : splitLines sep xs with ⟨_ | ⟨m, ms⟩, tail⟩
        · rw [hs] at hxs hparse
          obtain rfl := splitLines_eq_nil sep hparse
          obtain rfl : xs = tail := hxs
          exact ⟨[], rfl, rfl⟩
        · refine ⟨x :: taken, ?_, ?_⟩
          · simp only [consLine, List.cons_append]
            rw [hs] at hxs
            rw [← hxs]
          · rw [hs] at hparse
            simp only [splitLines, if_neg hx, hparse, consLine]

/-- Messages that end with `sep`. -/
def lines : Framing α (List α) where
  parse := splitLines sep
  parse_append := splitLines_append sep
  complete := splitLines_complete sep

end Lines

end Cppev
