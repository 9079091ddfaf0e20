/-
No round is fully excluded.

When every honest creator has a vertex in two successive rounds, some honest
vertex of the lower round is referenced by more creators of the upper one than
there are faulty ones.  Every quorum meets them, so whatever stands two rounds
up or higher votes for it.
-/

import Picomint.Lib.VirtualVoting
import Mathlib.Combinatorics.Enumerative.DoubleCounting

namespace VirtualVoting

namespace Committee

variable {C : Type} [DecidableEq C] (committee : Committee C)

def honest : Finset C := committee.members \ committee.faulty

theorem mem_honest (creator : C) :
    creator ∈ committee.honest ↔ creator ∈ committee.members ∧ creator ∉ committee.faulty :=
  Finset.mem_sdiff

theorem honest_nonempty : 0 < committee.honest.card := by
  have large := Finset.le_card_sdiff committee.faulty committee.members
  have total := committee.size
  have bound := committee.faultyBound
  unfold honest
  omega

/-- More than `f` members of a quorum are honest. -/
theorem IsQuorum.honest_card {group : Finset C} (quorum : committee.IsQuorum group) :
    committee.tolerance + 1 ≤ (group.filter (· ∈ committee.honest)).card := by
  have same : group.filter (· ∈ committee.honest) = group \ committee.faulty := by
    ext creator
    rw [Finset.mem_filter, Finset.mem_sdiff, committee.mem_honest]
    exact and_congr_right fun member => and_iff_right (quorum.1 member)
  have large := Finset.le_card_sdiff committee.faulty group
  have enough := quorum.2
  have bound := committee.faultyBound
  unfold Committee.quorum at enough
  rw [same]
  omega

/-- A quorum meets any `f + 1` members. -/
theorem IsQuorum.meets {group others : Finset C} (quorum : committee.IsQuorum group)
    (within : others ⊆ committee.members) (many : committee.tolerance + 1 ≤ others.card) :
    ∃ creator, creator ∈ group ∧ creator ∈ others := by
  have unionBound : (group ∪ others).card ≤ committee.members.card :=
    Finset.card_le_card (Finset.union_subset quorum.1 within)
  have counted := Finset.card_union_add_card_inter group others
  have large := quorum.2
  have total := committee.size
  unfold Committee.quorum at large
  have positive : 0 < (group ∩ others).card := by omega
  obtain ⟨creator, shared⟩ := Finset.card_pos.mp positive
  exact ⟨creator, Finset.mem_inter.mp shared⟩

/-- Where every honest member names more than `f` honest members, one is named
by more than `f`. -/
theorem exists_named (names : C → C → Prop) [∀ left right, Decidable (names left right)]
    (many : ∀ creator ∈ committee.honest,
      committee.tolerance + 1 ≤ (committee.honest.filter (names creator ·)).card) :
    ∃ creator ∈ committee.honest,
      committee.tolerance + 1 ≤ (committee.honest.filter (names · creator)).card := by
  by_contra none'
  push Not at none'
  have counted := Finset.card_mul_le_card_mul names many
    (fun creator member => Nat.le_of_lt_succ (none' creator member))
  have positive := committee.honest_nonempty
  exact absurd (Nat.le_of_mul_le_mul_left counted positive) (by omega)

end Committee

namespace RoundDag

variable {V C : Type} (dag : RoundDag V C)

def Full (committee : Committee C) (view : Set V) (round : Nat) : Prop :=
  ∀ creator ∈ committee.members, creator ∉ committee.faulty →
    ∃ vertex ∈ view, dag.creator vertex = creator ∧ dag.round vertex = round

/-- More honest creators than there are faulty ones name the candidate from one
round above. -/
def Referenced (committee : Committee C) (view : Set V) (candidate : V) : Prop :=
  ∃ group : Finset C, group ⊆ committee.members ∧ committee.tolerance + 1 ≤ group.card ∧
    ∀ creator ∈ group, creator ∉ committee.faulty ∧ ∃ voter ∈ view,
      dag.creator voter = creator ∧ dag.round voter = dag.round candidate + 1 ∧
        dag.parent voter (dag.creator candidate) = some candidate

theorem Referenced.mono {committee : Committee C} {small large : Set V} {candidate : V}
    (referenced : dag.Referenced committee small candidate) (subset : small ⊆ large) :
    dag.Referenced committee large candidate := by
  obtain ⟨group, within, many, each⟩ := referenced
  refine ⟨group, within, many, ?_⟩
  intro creator member
  obtain ⟨honest, voter, seen, rest⟩ := each creator member
  exact ⟨honest, voter, subset seen, rest⟩

section Counting

variable [DecidableEq C] {committee : Committee C} {known : Set V}

theorem Sound.exists_referenced (sound : dag.Sound committee known) {round : Nat}
    (lower : dag.Full committee known round) (upper : dag.Full committee known (round + 1)) :
    ∃ candidate ∈ known, dag.round candidate = round ∧
      dag.creator candidate ∈ committee.honest ∧ dag.Referenced committee known candidate := by
  classical
  let Names : C → C → Prop := fun creator named => ∃ voter ∈ known, ∃ candidate ∈ known,
    dag.creator voter = creator ∧ dag.round voter = round + 1 ∧
      dag.creator candidate = named ∧ dag.round candidate = round ∧
      dag.parent voter named = some candidate
  have many : ∀ creator ∈ committee.honest,
      committee.tolerance + 1 ≤ (committee.honest.filter (Names creator ·)).card := by
    intro creator member
    obtain ⟨inCommittee, honest⟩ := (committee.mem_honest creator).mp member
    obtain ⟨voter, voterKnown, isCreator, voterRound⟩ := upper creator inCommittee honest
    obtain ⟨group, quorum, names⟩ := sound.references voter voterKnown (by omega)
    refine (quorum.honest_card committee).trans (Finset.card_le_card ?_)
    intro named inGroup
    obtain ⟨inGroup, namedHonest⟩ := Finset.mem_filter.mp inGroup
    obtain ⟨candidate, candidateAt⟩ := names named inGroup
    have candidateRound := sound.parentRound voter voterKnown candidate ⟨named, candidateAt⟩
    exact Finset.mem_filter.mpr ⟨namedHonest, voter, voterKnown, candidate,
      sound.closed voter voterKnown candidate ⟨named, candidateAt⟩, isCreator, voterRound,
      sound.parentCreator voter voterKnown named candidate candidateAt, by omega, candidateAt⟩
  obtain ⟨named, namedHonest, often⟩ := committee.exists_named Names many
  obtain ⟨inCommittee, honest⟩ := (committee.mem_honest named).mp namedHonest
  obtain ⟨candidate, candidateKnown, isNamed, candidateRound⟩ := lower named inCommittee honest
  refine ⟨candidate, candidateKnown, candidateRound, isNamed ▸ namedHonest,
    committee.honest.filter (Names · named), ?_, often, ?_⟩
  · exact fun creator member =>
      ((committee.mem_honest creator).mp (Finset.mem_filter.mp member).1).1
  · intro creator member
    obtain ⟨isHonest, voter, voterKnown, other, otherKnown, isCreator, voterRound, otherCreator,
      otherRound, atVoter⟩ := Finset.mem_filter.mp member
    -- an honest creator has no second candidate of the round
    have same : other = candidate := sound.singleVoiced other otherKnown candidate candidateKnown
      (otherCreator ▸ honest) (otherCreator.trans isNamed.symm)
      (otherRound.trans candidateRound.symm)
    refine ⟨((committee.mem_honest creator).mp isHonest).2, voter, voterKnown, isCreator,
      by rw [voterRound, candidateRound], ?_⟩
    rw [isNamed, ← same]
    exact atVoter

variable {common : V → Nat → Bool} {candidate : V}

/-- Two rounds up every vertex has a parent that references the candidate. -/
theorem Referenced.direct (sound : dag.Sound committee known)
    (referenced : dag.Referenced committee known candidate) {voter : V} (voterKnown : voter ∈ known)
    (voterRound : dag.round voter = dag.round candidate + 2) :
    ∃ ancestor, dag.Parent voter ancestor ∧
      dag.parent ancestor (dag.creator candidate) = some candidate := by
  obtain ⟨group, within, many, each⟩ := referenced
  obtain ⟨quorum, isQuorum, names⟩ := sound.references voter voterKnown (by omega)
  obtain ⟨creator, inQuorum, inGroup⟩ := isQuorum.meets committee within many
  obtain ⟨ancestor, ancestorAt⟩ := names creator inQuorum
  obtain ⟨honest, direct, directKnown, directCreator, directRound, votes⟩ := each creator inGroup
  have isParent : dag.Parent voter ancestor := ⟨creator, ancestorAt⟩
  have ancestorRound := sound.parentRound voter voterKnown ancestor isParent
  have ancestorCreator := sound.parentCreator voter voterKnown creator ancestor ancestorAt
  have same : ancestor = direct := sound.singleVoiced ancestor
    (sound.closed voter voterKnown ancestor isParent) direct directKnown (ancestorCreator ▸ honest)
    (ancestorCreator.trans directCreator.symm) (by omega)
  exact ⟨ancestor, isParent, same ▸ votes⟩

theorem Referenced.seen (sound : dag.Sound committee known)
    (referenced : dag.Referenced committee known candidate) {view : Set V}
    (viewClosed : dag.Closed view) (viewKnown : view ⊆ known) {voter : V} (voterSeen : voter ∈ view)
    (above : dag.round candidate + 2 ≤ dag.round voter) : candidate ∈ view := by
  obtain ⟨distance, isDistance⟩ := Nat.exists_eq_add_of_le above
  induction distance generalizing voter with
  | zero =>
      obtain ⟨ancestor, isParent, direct⟩ :=
        referenced.direct dag sound (viewKnown voterSeen) isDistance
      exact viewClosed ancestor (viewClosed voter voterSeen ancestor isParent) candidate ⟨_, direct⟩
  | succ distance inductionHypothesis =>
      obtain ⟨ancestor, isParent⟩ := sound.has_parent dag (viewKnown voterSeen) (by omega)
      have ancestorRound := sound.parentRound voter (viewKnown voterSeen) ancestor isParent
      exact inductionHypothesis (viewClosed voter voterSeen ancestor isParent) (by omega) (by omega)

theorem Referenced.votesFor_two (sound : dag.Sound committee known)
    (included : common candidate (dag.round candidate + 2) = true)
    (referenced : dag.Referenced committee known candidate) {voter : V} (voterKnown : voter ∈ known)
    (voterRound : dag.round voter = dag.round candidate + 2) :
    dag.VotesFor common candidate voter := by
  obtain ⟨ancestor, isParent, direct⟩ := referenced.direct dag sound voterKnown voterRound
  have ancestorRound := sound.parentRound voter voterKnown ancestor isParent
  have ancestorVotes : dag.VotesFor common candidate ancestor := by
    have depth : dag.round ancestor - dag.round candidate - 1 = 0 := by omega
    rw [VotesFor, depth]
    exact direct
  rw [votesFor_succ dag (by omega) (sound.parentRound voter voterKnown), voterRound]
  exact Or.inr ⟨⟨ancestor, isParent, ancestorVotes⟩, included⟩

theorem Referenced.votesFor (sound : dag.Sound committee known)
    (included : common candidate (dag.round candidate + 2) = true)
    (referenced : dag.Referenced committee known candidate) {voter : V} (voterKnown : voter ∈ known)
    (above : dag.round candidate + 2 ≤ dag.round voter) : dag.VotesFor common candidate voter := by
  have later : ∀ distance, ∀ other ∈ known,
      dag.round other = dag.round candidate + 2 + distance →
      dag.VotesFor common candidate other := by
    intro distance
    induction distance with
    | zero =>
        intro other otherKnown otherRound
        exact referenced.votesFor_two dag sound included otherKnown otherRound
    | succ distance inductionHypothesis =>
        intro other otherKnown otherRound
        rw [votesFor_succ dag (by omega) (sound.parentRound other otherKnown)]
        refine Or.inl ?_
        intro ancestor isParent
        have ancestorRound := sound.parentRound other otherKnown ancestor isParent
        exact inductionHypothesis ancestor (sound.closed other otherKnown ancestor isParent)
          (by omega)
  exact later (dag.round voter - dag.round candidate - 2) voter voterKnown (by omega)

theorem Referenced.not_excluded (sound : dag.Sound committee known)
    (included : common candidate (dag.round candidate + 2) = true)
    (referenced : dag.Referenced committee known candidate) :
    ¬dag.DecidedIn committee common known candidate false := by
  rintro ⟨decider, deciderKnown, decides⟩
  have above := decides.above
  rcases above.eq_or_lt with same | higher
  · have excluded := decides.isCommon
    rw [← same, included] at excluded
    cases excluded
  · obtain ⟨group, quorum, support⟩ := decides.support
    obtain ⟨creator, inGroup⟩ := quorum.nonempty
    obtain ⟨ancestor, ancestorAt, vote⟩ := support creator inGroup
    have isParent : dag.Parent decider ancestor := ⟨creator, ancestorAt⟩
    have ancestorRound := sound.parentRound decider deciderKnown ancestor isParent
    have votes := referenced.votesFor dag sound included
      (sound.closed decider deciderKnown ancestor isParent) (by omega)
    cases vote.mp votes

/-- Any vertex more than two rounds up whose common bit is one decides it one. -/
theorem Referenced.decides (sound : dag.Sound committee known)
    (included : common candidate (dag.round candidate + 2) = true)
    (referenced : dag.Referenced committee known candidate) {decider : V}
    (deciderKnown : decider ∈ known) (above : dag.round candidate + 2 < dag.round decider)
    (isCommon : common candidate (dag.round decider) = true) :
    dag.Decides committee common candidate decider true := by
  obtain ⟨group, quorum, names⟩ := sound.references decider deciderKnown (by omega)
  refine ⟨above.le, isCommon, group, quorum, ?_⟩
  intro creator inGroup
  obtain ⟨ancestor, ancestorAt⟩ := names creator inGroup
  have isParent : dag.Parent decider ancestor := ⟨creator, ancestorAt⟩
  have ancestorRound := sound.parentRound decider deciderKnown ancestor isParent
  have votes := referenced.votesFor dag sound included
    (sound.closed decider deciderKnown ancestor isParent) (by omega)
  exact ⟨ancestor, ancestorAt, iff_of_true votes rfl⟩

end Counting

end RoundDag

end VirtualVoting
