/-
Depth-first walks from a stack, with a set of visited items.

A popped item that was visited before is dropped, any other one is listed and
replaced by what it expands to.  The list holds every item the stack leads to,
once; the expansions of the items not visited yet bound the steps.
-/

import Picomint.Lib.SortedMap
import Mathlib.Algebra.BigOperators.Group.Finset.Basic
import Mathlib.Algebra.Order.BigOperators.Group.Finset
import Mathlib.Logic.Relation

namespace DepthFirst

variable {V : Type} [LinearOrder V] (next : V → List V)

/-- The items in the order they are first popped. -/
def walk : Nat → SortedSet V → List V → List V
  | 0, _, _ => []
  | _ + 1, _, [] => []
  | steps + 1, visited, item :: stack =>
      if visited.contains item then walk steps visited stack
      else item :: walk steps (visited.insert item ⟨⟩) (next item ++ stack)

theorem walk_fresh (steps : Nat) (visited : SortedSet V) (stack : List V) :
    (walk next steps visited stack).Nodup ∧
      ∀ item ∈ walk next steps visited stack, visited.contains item = false := by
  induction steps generalizing visited stack with
  | zero => exact ⟨List.nodup_nil, fun _ impossible => by cases impossible⟩
  | succ steps ih =>
      cases stack with
      | nil => exact ⟨List.nodup_nil, fun _ impossible => by cases impossible⟩
      | cons item stack =>
          unfold walk
          split
          · exact ih visited stack
          · rename_i absent
            obtain ⟨distinct, fresh⟩ := ih (visited.insert item ⟨⟩) (next item ++ stack)
            constructor
            · refine List.nodup_cons.mpr ⟨?_, distinct⟩
              intro again
              have unmarked := fresh item again
              rw [(visited.contains_insert item item ⟨⟩).mpr (Or.inl rfl)] at unmarked
              cases unmarked
            · intro other member
              rcases List.mem_cons.mp member with rfl | later
              · exact Bool.eq_false_iff.mpr absent
              · have unmarked := fresh other later
                rw [Bool.eq_false_iff] at unmarked ⊢
                exact fun before =>
                  unmarked ((visited.contains_insert item other ⟨⟩).mpr (Or.inr before))

theorem reached_of_mem_walk (steps : Nat) (visited : SortedSet V) (stack : List V) :
    ∀ item ∈ walk next steps visited stack,
      ∃ root ∈ stack, Relation.ReflTransGen (fun upper lower => lower ∈ next upper) root item := by
  induction steps generalizing visited stack with
  | zero => exact fun _ impossible => by cases impossible
  | succ steps ih =>
      cases stack with
      | nil => exact fun _ impossible => by cases impossible
      | cons top stack =>
          intro item member
          unfold walk at member
          split at member
          · obtain ⟨root, inStack, path⟩ := ih visited stack item member
            exact ⟨root, List.mem_cons_of_mem top inStack, path⟩
          · rcases List.mem_cons.mp member with rfl | later
            · exact ⟨item, List.mem_cons_self, Relation.ReflTransGen.refl⟩
            · obtain ⟨root, inStack, path⟩ := ih _ _ item later
              rcases List.mem_append.mp inStack with child | below
              · exact ⟨top, List.mem_cons_self, Relation.ReflTransGen.head child path⟩
              · exact ⟨root, List.mem_cons_of_mem top below, path⟩

/-! ### Enough steps -/

/-- The pops a walk can still make: the stack and all expansions to come. -/
def remaining (items : Finset V) (visited : SortedSet V) (stack : List V) : Nat :=
  stack.length + ∑ item ∈ items with visited.contains item = false, (next item).length

variable {next}

theorem remaining_insert {items : Finset V} (covers : ∀ item, next item ≠ [] → item ∈ items)
    {visited : SortedSet V} {item : V} (fresh : visited.contains item = false) (stack : List V) :
    remaining next items (visited.insert item ⟨⟩) (next item ++ stack) + 1 =
      remaining next items visited (item :: stack) := by
  have others : (items.filter fun other => visited.contains other = false).erase item =
      items.filter fun other => (visited.insert item ⟨⟩).contains other = false := by
    ext other
    rw [Finset.mem_erase, Finset.mem_filter, Finset.mem_filter, Bool.eq_false_iff,
      Bool.eq_false_iff, Ne, Ne, Ne, visited.contains_insert, not_or, eq_comm]
    tauto
  have split : ∑ other ∈ items with (visited.insert item ⟨⟩).contains other = false,
        (next other).length + (next item).length =
      ∑ other ∈ items with visited.contains other = false, (next other).length := by
    rw [← others]
    by_cases expands : next item = []
    · rw [expands, List.length_nil, add_zero, Finset.sum_erase]
      rw [expands, List.length_nil]
    · exact Finset.sum_erase_add _ _ (Finset.mem_filter.mpr ⟨covers item expands, fresh⟩)
  unfold remaining
  rw [List.length_append, List.length_cons]
  omega

/-- The visited and the listed items hold the stack and every expansion of a
listed item. -/
theorem walk_closed {items : Finset V} (covers : ∀ item, next item ≠ [] → item ∈ items)
    (steps : Nat) (visited : SortedSet V) (stack : List V)
    (enough : remaining next items visited stack < steps) :
    (∀ item ∈ stack, visited.contains item = true ∨ item ∈ walk next steps visited stack) ∧
      ∀ item ∈ walk next steps visited stack, ∀ lower ∈ next item,
        visited.contains lower = true ∨ lower ∈ walk next steps visited stack := by
  induction steps generalizing visited stack with
  | zero => exact absurd enough (Nat.not_lt_zero _)
  | succ steps ih =>
      cases stack with
      | nil =>
          constructor
          · intro item impossible
            cases impossible
          · intro item impossible
            cases impossible
      | cons top stack =>
          unfold walk
          split
          · rename_i present
            obtain ⟨inStack, closed⟩ := ih visited stack (by
              unfold remaining at enough ⊢
              rw [List.length_cons] at enough
              omega)
            refine ⟨?_, closed⟩
            intro item member
            rcases List.mem_cons.mp member with rfl | below
            · exact Or.inl present
            · exact inStack item below
          · rename_i absent
            have fewer := remaining_insert covers (Bool.eq_false_iff.mpr absent) stack
            obtain ⟨inStack, closed⟩ := ih (visited.insert top ⟨⟩) (next top ++ stack) (by omega)
            have seen : ∀ item, (visited.insert top ⟨⟩).contains item = true ∨
                item ∈ walk next steps (visited.insert top ⟨⟩) (next top ++ stack) →
                visited.contains item = true ∨
                item ∈ top :: walk next steps (visited.insert top ⟨⟩) (next top ++ stack) := by
              rintro item (marked | listed)
              · rcases (visited.contains_insert top item ⟨⟩).mp marked with rfl | before
                · exact Or.inr List.mem_cons_self
                · exact Or.inl before
              · exact Or.inr (List.mem_cons_of_mem top listed)
            constructor
            · intro item member
              rcases List.mem_cons.mp member with rfl | below
              · exact Or.inr List.mem_cons_self
              · exact seen item (inStack item (List.mem_append_right _ below))
            · intro item member lower isNext
              rcases List.mem_cons.mp member with rfl | later
              · exact seen lower (inStack lower (List.mem_append_left _ isNext))
              · exact seen lower (closed item later lower isNext)

theorem mem_walk_iff {items : Finset V} (covers : ∀ item, next item ≠ [] → item ∈ items)
    {steps : Nat} {roots : List V} (enough : remaining next items SortedMap.empty roots < steps)
    (item : V) :
    item ∈ walk next steps SortedMap.empty roots ↔
      ∃ root ∈ roots, Relation.ReflTransGen (fun upper lower => lower ∈ next upper) root item := by
  constructor
  · exact reached_of_mem_walk next steps SortedMap.empty roots item
  · obtain ⟨inStack, closed⟩ := walk_closed covers steps SortedMap.empty roots enough
    have unvisited : ∀ other, (SortedMap.empty : SortedSet V).contains other ≠ true := by simp
    rintro ⟨root, isRoot, path⟩
    induction path with
    | refl => exact (inStack root isRoot).resolve_left (unvisited root)
    | tail _ isNext ih => exact (closed _ ih _ isNext).resolve_left (unvisited _)

end DepthFirst
