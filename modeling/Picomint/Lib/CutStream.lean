/-
An agreed stream of deliveries, of which some are accepted, cut at a weight or
at a round.

What a delivery does depends on what was accepted before it, so everyone who
walks the stream from its start accepts the same items and cuts at the same
delivery, wherever he stops on the way.
-/

import Mathlib.Data.List.Infix
import Mathlib.Tactic

namespace CutStream

universe u

/-- Which items are accepted after which ones, what they weigh, and where a
stream is cut. -/
structure Rule (α : Type u) where
  accepts : List α → α → Bool
  weight : α → Nat
  target : Nat
  rounds : Nat

/-- The deliveries by their positions, each with its round. -/
abbrev Stream (α : Type u) := Nat → Option (Nat × α)

variable {α : Type u}

namespace Rule

variable (rule : Rule α)

def weigh (log : List α) : Nat := (log.map rule.weight).sum

variable (stream : Stream α) (base : List α)

/-- What is accepted of the first deliveries, after `base`. -/
def walk : Nat → List α
  | 0 => []
  | position + 1 =>
      match stream position with
      | none => walk position
      | some (_, item) =>
          if rule.accepts (base ++ walk position) item then walk position ++ [item]
          else walk position

def Stops (position : Nat) : Prop :=
  rule.target ≤ rule.weigh (rule.walk stream base position) ∨
    ∃ round item, stream position = some (round, item) ∧ rule.rounds ≤ round

structure CutAt (position : Nat) : Prop where
  stops : rule.Stops stream base position
  first : ∀ earlier < position, ¬rule.Stops stream base earlier

section Walk

variable {rule stream base}

theorem walk_succ_accepted {position round : Nat} {item : α}
    (delivered : stream position = some (round, item))
    (accepted : rule.accepts (base ++ rule.walk stream base position) item = true) :
    rule.walk stream base (position + 1) = rule.walk stream base position ++ [item] := by
  rw [walk, delivered]
  exact if_pos accepted

theorem walk_succ_rejected {position round : Nat} {item : α}
    (delivered : stream position = some (round, item))
    (rejected : rule.accepts (base ++ rule.walk stream base position) item = false) :
    rule.walk stream base (position + 1) = rule.walk stream base position := by
  rw [walk, delivered]
  exact if_neg (Bool.eq_false_iff.mp rejected)

theorem walk_succ_cases (rule : Rule α) (stream : Stream α) (base : List α) (position : Nat) :
    rule.walk stream base (position + 1) = rule.walk stream base position ∨
      ∃ item, rule.accepts (base ++ rule.walk stream base position) item = true ∧
        rule.walk stream base (position + 1) = rule.walk stream base position ++ [item] := by
  rw [walk]
  split
  · exact Or.inl rfl
  · rename_i item _
    split
    · rename_i accepted
      exact Or.inr ⟨item, accepted, rfl⟩
    · exact Or.inl rfl

theorem walk_prefix {earlier later : Nat} (order : earlier ≤ later) :
    rule.walk stream base earlier <+: rule.walk stream base later := by
  induction later, order using Nat.le_induction with
  | base => exact List.prefix_rfl
  | succ later _ ih =>
      rcases walk_succ_cases rule stream base later with same | ⟨item, _, grown⟩
      · rw [same]
        exact ih
      · rw [grown]
        exact ih.trans (List.prefix_append _ _)

theorem walk_accepts {position : Nat} {front rest : List α} {item : α}
    (split : rule.walk stream base position = front ++ item :: rest) :
    rule.accepts (base ++ front) item = true := by
  induction position generalizing rest with
  | zero => cases front <;> cases split
  | succ position ih =>
      rcases walk_succ_cases rule stream base position with same | ⟨last, accepted, grown⟩
      · exact ih (same ▸ split)
      · rw [grown] at split
        rcases List.eq_nil_or_concat rest with rfl | ⟨middle, final, rfl⟩
        · obtain ⟨isFront, isItem⟩ := List.append_inj' split rfl
          cases isItem
          rw [← isFront]
          exact accepted
        · rw [List.concat_eq_append, ← List.cons_append, ← List.append_assoc] at split
          exact ih (List.append_inj' split rfl).1

theorem CutAt.unique {left right : Nat} (isLeft : rule.CutAt stream base left)
    (isRight : rule.CutAt stream base right) : left = right := by
  rcases Nat.lt_trichotomy left right with below | same | above
  · exact absurd isLeft.stops (isRight.first left below)
  · exact same
  · exact absurd isRight.stops (isLeft.first right above)

theorem CutAt.ahead {cut position : Nat} (isCut : rule.CutAt stream base cut)
    (running : ∀ earlier < position, ¬rule.Stops stream base earlier) : position ≤ cut := by
  by_contra behind
  exact running cut (Nat.not_le.mp behind) isCut.stops

theorem CutAt.weigh_dropLast {cut : Nat} (isCut : rule.CutAt stream base cut)
    (open' : 0 < rule.target) :
    rule.weigh (rule.walk stream base cut).dropLast < rule.target := by
  have below : ∀ position, (∀ earlier < position, ¬rule.Stops stream base earlier) →
      rule.weigh (rule.walk stream base position).dropLast < rule.target := by
    intro position running
    induction position with
    | zero => exact open'
    | succ position ih =>
        have before := running position (Nat.lt_succ_self position)
        rcases walk_succ_cases rule stream base position with same | ⟨item, _, grown⟩
        · rw [same]
          exact ih fun earlier isEarlier => running earlier (Nat.lt_succ_of_lt isEarlier)
        · rw [grown, List.dropLast_concat]
          exact Nat.not_le.mp fun reached => before (Or.inl reached)
  exact below cut isCut.first

end Walk

/-- The items of the first streams, each cut, one after the other. -/
inductive Chain (streams : Nat → Stream α) : Nat → List α → Prop
  | start : Chain streams 0 []
  | next {count : Nat} {base : List α} {cut : Nat} (chain : Chain streams count base)
      (isCut : rule.CutAt (streams count) base cut) :
      Chain streams (count + 1) (base ++ rule.walk (streams count) base cut)

theorem Chain.unique {rule : Rule α} {streams : Nat → Stream α} {count : Nat}
    {left right : List α} (isLeft : rule.Chain streams count left)
    (isRight : rule.Chain streams count right) : left = right := by
  induction count generalizing left right with
  | zero =>
      cases isLeft
      cases isRight
      rfl
  | succ count ih =>
      cases isLeft with
      | next leftChain leftCut =>
          cases isRight with
          | next rightChain rightCut =>
              cases ih leftChain rightChain
              rw [leftCut.unique rightCut]

end Rule

end CutStream
