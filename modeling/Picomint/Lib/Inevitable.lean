/-
Goals that every maximal run of a step relation reaches.
-/

import Mathlib.Order.WellFounded
import Mathlib.Logic.Relation

variable {S : Type*}

/-- However the steps are chosen, the goal holds after finitely many of them. -/
inductive Inevitably (step : S → S → Prop) (goal : S → Prop) : S → Prop
  | now {state : S} (holds : goal state) : Inevitably step goal state
  | later {state : S} (moves : ∃ next, step state next)
      (each : ∀ next, step state next → Inevitably step goal next) : Inevitably step goal state

/-- Steps that lower a well-founded measure cannot put a goal off forever, if
only reaching it leaves them nothing to do. -/
theorem Inevitably.of_measure {step : S → S → Prop} {goal : S → Prop} {β : Type*}
    {lower : β → β → Prop} (wellFounded : WellFounded lower) (measure : S → β)
    {invariant : S → Prop}
    (keeps : ∀ state next, invariant state → step state next → invariant next)
    (lowers : ∀ state next, invariant state → step state next →
      lower (measure next) (measure state))
    (moves : ∀ state, invariant state → goal state ∨ ∃ next, step state next)
    {state : S} (start : invariant state) : Inevitably step goal state := by
  suffices byMeasure : ∀ value state, measure state = value → invariant state →
      Inevitably step goal state from byMeasure _ state rfl start
  intro value
  induction value using wellFounded.induction with
  | _ value ih =>
      intro state isMeasure holds
      rcases moves state holds with reached | goesOn
      · exact Inevitably.now reached
      · refine Inevitably.later goesOn ?_
        intro next stepped
        exact ih (measure next) (isMeasure ▸ lowers state next holds stepped) next rfl
          (keeps state next holds stepped)

/-- The same for a measure that a state is tracked by rather than determines. -/
theorem Inevitably.of_tracked {step : S → S → Prop} {goal : S → Prop} {β : Type*}
    {lower : β → β → Prop} (wellFounded : WellFounded lower) {tracks : β → S → Prop}
    (keeps : ∀ value state next, tracks value state → step state next →
      ∃ after, lower after value ∧ tracks after next)
    (moves : ∀ value state, tracks value state → goal state ∨ ∃ next, step state next)
    {value : β} {state : S} (start : tracks value state) : Inevitably step goal state := by
  induction value using wellFounded.induction generalizing state with
  | _ value ih =>
      rcases moves value state start with reached | goesOn
      · exact Inevitably.now reached
      · refine Inevitably.later goesOn ?_
        intro next stepped
        obtain ⟨after, lowered, tracked⟩ := keeps value state next start stepped
        exact ih after lowered tracked
