import Mathlib

/-!
# Visits that can be broken off

A visit of the elements of a list by an action on a state, which says after each element whether to
go on. Nested visits are one visit of the concatenation (`visit_flatMap`).
-/

set_option autoImplicit false

namespace OpenSplice.Library

variable {σ α β : Type*}

/-- The elements are handed to the action until it answers `false`. -/
def visit (action : σ → α → σ × Bool) : σ → List α → σ × Bool
  | s, [] => (s, true)
  | s, a :: l =>
    let out := action s a
    if out.2 then visit action out.1 l else out

variable {action : σ → α → σ × Bool}

lemma visit_append (s : σ) (l r : List α) : visit action s (l ++ r) =
      if (visit action s l).2 then visit action (visit action s l).1 r else visit action s l := by
  induction l generalizing s with
  | nil => rfl
  | cons a _ ih =>
    simp only [List.cons_append, visit]
    by_cases hgo : (action s a).2
    · simp [hgo, ih]
    · simp [hgo]

lemma visit_flatMap (f : β → List α) (s : σ) (l : List β) :
    visit (fun s b ↦ visit action s (f b)) s l = visit action s (l.flatMap f) := by
  induction l generalizing s with
  | nil => rfl
  | cons _ _ ih => rw [List.flatMap_cons, visit_append, visit, ih]

end OpenSplice.Library
