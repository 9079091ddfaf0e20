/-
Peeling: sums over sets of unknowns, solved one unknown at a time.

A received set gives away one of its members once all others are known.  The
closure under that rule depends on the received sets alone; a reader that
consults every set in passing only may fall behind it.
-/

import Mathlib.Data.Finset.Card
import Mathlib.Data.Set.Basic

namespace Peeling

variable {ι : Type}

inductive Peeled (received : Finset ι → Prop) : ι → Prop
  | peel {set : Finset ι} {index : ι} (member : received set) (inside : index ∈ set)
      (others : ∀ other ∈ set, other ≠ index → Peeled received other) : Peeled received index

/-- Every set whose other members are known has its last member known. -/
def Closed (received : Finset ι → Prop) (known : ι → Prop) : Prop :=
  ∀ set, received set → ∀ index ∈ set, (∀ other ∈ set, other ≠ index → known other) → known index

theorem Peeled.within {received : Finset ι → Prop} {known : ι → Prop}
    (closed : Closed received known) {index : ι} (peeled : Peeled received index) :
    known index := by
  induction peeled with
  | peel member inside _ ih => exact closed _ member _ inside ih

theorem Peeled.mono {received more : Finset ι → Prop} (grows : ∀ set, received set → more set)
    {index : ι} (peeled : Peeled received index) : Peeled more index := by
  induction peeled with
  | peel member inside _ ih => exact .peel (grows _ member) inside ih

/-- What a reader knows that computes the closure only when a singleton
arrives, and at any other set only takes a single missing member from it.  The
latest set comes first. -/
def readOff : List (Finset ι) → ι → Prop
  | [], _ => False
  | set :: earlier, index =>
      (set.card = 1 ∧ Peeled (· ∈ set :: earlier) index) ∨
        (set.card ≠ 1 ∧ (readOff earlier index ∨
          (index ∈ set ∧ ∀ other ∈ set, other ≠ index → readOff earlier other)))

theorem readOff_peeled {history : List (Finset ι)} {index : ι} (known : readOff history index) :
    Peeled (· ∈ history) index := by
  induction history generalizing index with
  | nil => exact known.elim
  | cons set earlier ih =>
      have later : ∀ other, readOff earlier other → Peeled (· ∈ set :: earlier) other :=
        fun other old => (ih old).mono fun _ => List.mem_cons_of_mem set
      rcases known with ⟨_, peeled⟩ | ⟨_, old | ⟨inside, others⟩⟩
      · exact peeled
      · exact later index old
      · exact .peel List.mem_cons_self inside fun other member different =>
          later other (others other member different)

theorem readOff_mono (set : Finset ι) {earlier : List (Finset ι)} {index : ι}
    (known : readOff earlier index) : readOff (set :: earlier) index := by
  by_cases single : set.card = 1
  · exact Or.inl ⟨single, (readOff_peeled known).mono fun _ => List.mem_cons_of_mem set⟩
  · exact Or.inr ⟨single, Or.inl known⟩

end Peeling
