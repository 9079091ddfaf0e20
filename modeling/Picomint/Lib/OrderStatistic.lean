/-
Places of a sorted list as counts, and the value a quorum supports.

A property that passes down a sorted list holds at a place exactly if more
values have it than come before the place.  The greatest value a quorum
supports grows with the votes and lies among the votes of honest members.
-/

import Mathlib.Order.Bounds.Basic
import Picomint.Lib.VirtualVoting

namespace OrderStatistic

/-! ### Places of a sorted list -/

section Places

variable {α : Type*}

theorem place_satisfies_iff {relation : α → α → Prop} (property : α → Bool)
    (closed : ∀ first second, relation first second → property second = true →
      property first = true)
    {values : List α} (sorted : values.Pairwise relation) {index : Nat} {value : α}
    (place : values[index]? = some value) :
    property value = true ↔ index < values.countP property := by
  induction values generalizing index with
  | nil => cases place
  | cons head rest inductionHypothesis =>
      obtain ⟨first, others⟩ := List.pairwise_cons.mp sorted
      by_cases satisfied : property head = true
      · rw [List.countP_cons_of_pos satisfied]
        cases index with
        | zero =>
            cases place
            exact iff_of_true satisfied (Nat.succ_pos _)
        | succ index => rw [inductionHypothesis others place, Nat.succ_lt_succ_iff]
      · have failing : ∀ other ∈ head :: rest, ¬property other = true := by
          intro other member
          rcases List.mem_cons.mp member with same | later
          · rwa [same]
          · exact fun holds => satisfied (closed head other (first other later) holds)
        rw [List.countP_eq_zero.mpr failing]
        exact iff_of_false (failing value (List.mem_of_getElem? place)) (Nat.not_lt_zero index)

variable [LinearOrder α] {values : List α} {index : Nat} {value : α}

/-- A place of the ascending values is below a bound if more values than come
before it are. -/
theorem ascending_le_iff (place : (values.insertionSort (· ≤ ·))[index]? = some value)
    (bound : α) : value ≤ bound ↔ index < values.countP (fun other => other ≤ bound) := by
  rw [← (List.perm_insertionSort (· ≤ ·) values).countP_eq, ← @decide_eq_true_iff (value ≤ bound)]
  exact place_satisfies_iff (fun other => decide (other ≤ bound))
    (fun first second before below =>
      decide_eq_true (before.trans (of_decide_eq_true below)))
    (List.pairwise_insertionSort (· ≤ ·) values) place

end Places

/-! ### What a quorum supports -/

section Support

variable {ν α : Type} [LinearOrder α] (committee : VirtualVoting.Committee ν)
  {vote later : ν → α} {value next bound : α}

def supporters (vote : ν → α) (value : α) : Finset ν :=
  committee.members.filter (fun member => value ≤ vote member)

def IsConsensus (vote : ν → α) (value : α) : Prop :=
  IsGreatest {supported | committee.quorum ≤ (supporters committee vote supported).card} value

variable {committee}

theorem IsConsensus.unique (first : IsConsensus committee vote value)
    (second : IsConsensus committee vote next) : value = next :=
  IsGreatest.unique first second

theorem IsConsensus.mono (before : IsConsensus committee vote value)
    (after : IsConsensus committee later next)
    (grown : ∀ member ∈ committee.members, vote member ≤ later member) : value ≤ next := by
  apply after.2
  refine before.1.trans (Finset.card_le_card ?_)
  intro member supports
  obtain ⟨isMember, above⟩ := Finset.mem_filter.mp supports
  exact Finset.mem_filter.mpr ⟨isMember, above.trans (grown member isMember)⟩

theorem IsConsensus.honest [DecidableEq ν] (consensus : IsConsensus committee vote value) :
    ∃ member ∈ committee.members, member ∉ committee.faulty ∧ value ≤ vote member := by
  have quorum : committee.quorum ≤ (supporters committee vote value).card := consensus.1
  have bound := committee.faultyBound
  have more : committee.faulty.card < (supporters committee vote value).card := by
    unfold VirtualVoting.Committee.quorum at quorum
    omega
  obtain ⟨member, supports, honest⟩ := Finset.exists_mem_notMem_of_card_lt_card more
  obtain ⟨isMember, above⟩ := Finset.mem_filter.mp supports
  exact ⟨member, isMember, honest, above⟩

theorem IsConsensus.reaches [DecidableEq ν] (consensus : IsConsensus committee vote value)
    (honest : ∀ member ∈ committee.members, member ∉ committee.faulty → bound ≤ vote member) :
    bound ≤ value := by
  apply consensus.2
  have many : committee.members.card - committee.faulty.card ≤
      (committee.members \ committee.faulty).card :=
    Finset.le_card_sdiff committee.faulty committee.members
  have size := committee.size
  have few := committee.faultyBound
  have quorum : committee.quorum ≤ (committee.members \ committee.faulty).card := by
    unfold VirtualVoting.Committee.quorum
    omega
  refine quorum.trans (Finset.card_le_card ?_)
  intro member isHonest
  obtain ⟨isMember, notFaulty⟩ := Finset.mem_sdiff.mp isHonest
  exact Finset.mem_filter.mpr ⟨isMember, honest member isMember notFaulty⟩

end Support

end OrderStatistic
