/-
Virtual voting over a round-structured DAG whose vertices may be forked.

A committee of `3f + 1` creators builds the DAG; at most `f` of them are
faulty and may own several vertices of one round.  A vertex votes on an older
candidate through its own ancestry: direct reference one round up, unanimity
of its parents or else a common bit above.  The results are exclusivity of
decisions and uniqueness and stability of round heads, for any two sets of
vertices closed under parents.
-/

import Mathlib.Data.Finset.Card
import Mathlib.Data.Set.Basic
import Mathlib.Order.Defs.LinearOrder
import Mathlib.Tactic

namespace VirtualVoting

/-! ### Committees -/

structure Committee (C : Type) where
  members : Finset C
  faulty : Finset C
  tolerance : Nat
  size : members.card = 3 * tolerance + 1
  faultyBound : faulty.card ≤ tolerance

namespace Committee

variable {C : Type} (committee : Committee C)

def quorum : Nat := 2 * committee.tolerance + 1

def IsQuorum (group : Finset C) : Prop :=
  group ⊆ committee.members ∧ committee.quorum ≤ group.card

theorem IsQuorum.nonempty {group : Finset C} (quorum : committee.IsQuorum group) :
    group.Nonempty := by
  have large := quorum.2
  unfold Committee.quorum at large
  exact Finset.card_pos.mp (by omega)

/-- Two quorums overlap in `f + 1` creators, so in one that is not faulty. -/
theorem quorums_share_honest [DecidableEq C] {left right : Finset C}
    (leftQuorum : committee.IsQuorum left) (rightQuorum : committee.IsQuorum right) :
    ∃ creator, creator ∈ left ∧ creator ∈ right ∧ creator ∉ committee.faulty := by
  have unionBound : (left ∪ right).card ≤ committee.members.card :=
    Finset.card_le_card (Finset.union_subset leftQuorum.1 rightQuorum.1)
  have counted := Finset.card_union_add_card_inter left right
  have leftLarge := leftQuorum.2
  have rightLarge := rightQuorum.2
  have total := committee.size
  have bound := committee.faultyBound
  unfold quorum at leftLarge rightLarge
  have larger : committee.faulty.card < (left ∩ right).card := by omega
  obtain ⟨creator, shared, honest⟩ := Finset.exists_mem_notMem_of_card_lt_card larger
  exact ⟨creator, (Finset.mem_inter.mp shared).1, (Finset.mem_inter.mp shared).2, honest⟩

end Committee

/-! ### Vertices and votes -/

structure RoundDag (V C : Type) where
  round : V → Nat
  creator : V → C
  parent : V → C → Option V

namespace RoundDag

variable {V C : Type} (dag : RoundDag V C)

def Parent (vertex ancestor : V) : Prop := ∃ creator, dag.parent vertex creator = some ancestor

/-- The vote of a vertex `depth + 1` rounds above the candidate. -/
def Votes (common : V → Nat → Bool) (candidate : V) : Nat → V → Prop
  | 0, voter => dag.parent voter (dag.creator candidate) = some candidate
  | depth + 1, voter =>
      (∀ ancestor, dag.Parent voter ancestor → Votes common candidate depth ancestor) ∨
        ((∃ ancestor, dag.Parent voter ancestor ∧ Votes common candidate depth ancestor) ∧
          common candidate (dag.round voter) = true)

def VotesFor (common : V → Nat → Bool) (candidate voter : V) : Prop :=
  dag.Votes common candidate (dag.round voter - dag.round candidate - 1) voter

/-- A vertex decides the common bit of its round when a quorum of its parents
votes that bit. -/
structure Decides (committee : Committee C) (common : V → Nat → Bool)
    (candidate decider : V) (bit : Bool) : Prop where
  above : dag.round candidate + 2 ≤ dag.round decider
  isCommon : common candidate (dag.round decider) = bit
  support : ∃ group, committee.IsQuorum group ∧ ∀ creator ∈ group,
    ∃ ancestor, dag.parent decider creator = some ancestor ∧
      (dag.VotesFor common candidate ancestor ↔ bit = true)

def Closed (known : Set V) : Prop :=
  ∀ vertex ∈ known, ∀ ancestor, dag.Parent vertex ancestor → ancestor ∈ known

/-- What admission guarantees of a set of vertices: it is closed under
parents, a parent was created by the node it is keyed under one round below,
every vertex above round zero names a quorum, and an honest creator owns one
vertex of a round. -/
structure Sound (committee : Committee C) (known : Set V) : Prop where
  closed : dag.Closed known
  parentCreator : ∀ vertex ∈ known, ∀ creator ancestor,
    dag.parent vertex creator = some ancestor → dag.creator ancestor = creator
  parentRound : ∀ vertex ∈ known, ∀ ancestor,
    dag.Parent vertex ancestor → dag.round ancestor + 1 = dag.round vertex
  references : ∀ vertex ∈ known, 0 < dag.round vertex →
    ∃ group, committee.IsQuorum group ∧
      ∀ creator ∈ group, ∃ ancestor, dag.parent vertex creator = some ancestor
  singleVoiced : ∀ left ∈ known, ∀ right ∈ known, dag.creator left ∉ committee.faulty →
    dag.creator left = dag.creator right → dag.round left = dag.round right → left = right

section Decisions

variable {committee : Committee C} {common : V → Nat → Bool} {known : Set V}

/-- Quorums of the parents of two vertices of one round meet in one vertex. -/
theorem Sound.shared_parent [DecidableEq C] (sound : dag.Sound committee known) {left right : V}
    (leftKnown : left ∈ known) (rightKnown : right ∈ known)
    (sameRound : dag.round left = dag.round right) {leftGroup rightGroup : Finset C}
    (leftQuorum : committee.IsQuorum leftGroup) (rightQuorum : committee.IsQuorum rightGroup)
    (leftNames : ∀ creator ∈ leftGroup, ∃ ancestor, dag.parent left creator = some ancestor)
    (rightNames : ∀ creator ∈ rightGroup, ∃ ancestor, dag.parent right creator = some ancestor) :
    ∃ creator ancestor, creator ∈ leftGroup ∧ creator ∈ rightGroup ∧
      dag.parent left creator = some ancestor ∧ dag.parent right creator = some ancestor := by
  obtain ⟨creator, inLeft, inRight, honest⟩ := committee.quorums_share_honest leftQuorum rightQuorum
  obtain ⟨first, firstAt⟩ := leftNames creator inLeft
  obtain ⟨second, secondAt⟩ := rightNames creator inRight
  have firstCreator := sound.parentCreator left leftKnown creator first firstAt
  have secondCreator := sound.parentCreator right rightKnown creator second secondAt
  have firstRound := sound.parentRound left leftKnown first ⟨creator, firstAt⟩
  have secondRound := sound.parentRound right rightKnown second ⟨creator, secondAt⟩
  have same : first = second :=
    sound.singleVoiced first (sound.closed left leftKnown first ⟨creator, firstAt⟩)
      second (sound.closed right rightKnown second ⟨creator, secondAt⟩)
      (by rw [firstCreator]; exact honest) (by rw [firstCreator, secondCreator]) (by omega)
  exact ⟨creator, first, inLeft, inRight, firstAt, same ▸ secondAt⟩

theorem Sound.has_parent (sound : dag.Sound committee known) {vertex : V}
    (vertexKnown : vertex ∈ known) (positive : 0 < dag.round vertex) :
    ∃ ancestor, dag.Parent vertex ancestor := by
  obtain ⟨group, quorum, names⟩ := sound.references vertex vertexKnown positive
  obtain ⟨creator, inGroup⟩ := Committee.IsQuorum.nonempty committee quorum
  obtain ⟨ancestor, ancestorAt⟩ := names creator inGroup
  exact ⟨ancestor, creator, ancestorAt⟩

theorem votesFor_succ {candidate voter : V}
    (above : dag.round candidate + 2 ≤ dag.round voter)
    (parentRound : ∀ ancestor, dag.Parent voter ancestor →
      dag.round ancestor + 1 = dag.round voter) :
    dag.VotesFor common candidate voter ↔
      (∀ ancestor, dag.Parent voter ancestor → dag.VotesFor common candidate ancestor) ∨
        ((∃ ancestor, dag.Parent voter ancestor ∧ dag.VotesFor common candidate ancestor) ∧
          common candidate (dag.round voter) = true) := by
  obtain ⟨depth, depthEq⟩ : ∃ depth, dag.round voter - dag.round candidate - 1 = depth + 1 :=
    ⟨dag.round voter - dag.round candidate - 2, by omega⟩
  have parentDepth : ∀ ancestor, dag.Parent voter ancestor →
      (dag.VotesFor common candidate ancestor ↔ dag.Votes common candidate depth ancestor) := by
    intro ancestor isParent
    have below := parentRound ancestor isParent
    have same : dag.round ancestor - dag.round candidate - 1 = depth := by omega
    rw [VotesFor, same]
  rw [VotesFor, depthEq, Votes]
  constructor
  · rintro (unanimous | ⟨⟨ancestor, isParent, votes⟩, bit⟩)
    · exact Or.inl fun ancestor isParent =>
        (parentDepth ancestor isParent).mpr (unanimous ancestor isParent)
    · exact Or.inr ⟨⟨ancestor, isParent, (parentDepth ancestor isParent).mpr votes⟩, bit⟩
  · rintro (unanimous | ⟨⟨ancestor, isParent, votes⟩, bit⟩)
    · exact Or.inl fun ancestor isParent =>
        (parentDepth ancestor isParent).mp (unanimous ancestor isParent)
    · exact Or.inr ⟨⟨ancestor, isParent, (parentDepth ancestor isParent).mp votes⟩, bit⟩

/-- One deciding vertex forces the vote of its whole round: unanimous vertices
through a shared parent, mixed ones because the common bit is the decision. -/
theorem Decides.same_round [DecidableEq C] (sound : dag.Sound committee known)
    {candidate decider other : V} {bit : Bool}
    (decides : dag.Decides committee common candidate decider bit)
    (deciderKnown : decider ∈ known) (otherKnown : other ∈ known)
    (sameRound : dag.round other = dag.round decider) :
    dag.VotesFor common candidate other ↔ bit = true := by
  have above := decides.above
  obtain ⟨group, quorum, support⟩ := decides.support
  obtain ⟨named, namedQuorum, names⟩ := sound.references other otherKnown (by omega)
  obtain ⟨creator, ancestor, inGroup, _, atDecider, atOther⟩ :=
    sound.shared_parent dag deciderKnown otherKnown sameRound.symm quorum namedQuorum
      (fun creator inGroup => (support creator inGroup).imp fun _ both => both.1) names
  have ancestorVote : dag.VotesFor common candidate ancestor ↔ bit = true := by
    obtain ⟨found, foundAt, vote⟩ := support creator inGroup
    rw [atDecider] at foundAt
    exact Option.some.inj foundAt ▸ vote
  rw [votesFor_succ dag (by omega) (sound.parentRound other otherKnown)]
  cases bit with
  | true =>
      exact ⟨fun _ => rfl, fun _ => Or.inr ⟨⟨ancestor, ⟨creator, atOther⟩, ancestorVote.mpr rfl⟩,
        sameRound ▸ decides.isCommon⟩⟩
  | false =>
      refine ⟨?_, fun impossible => Bool.noConfusion impossible⟩
      rintro (unanimous | ⟨_, isCommon⟩)
      · exact ancestorVote.mp (unanimous ancestor ⟨creator, atOther⟩)
      · rw [sameRound, decides.isCommon] at isCommon
        exact isCommon

theorem Decides.above_round [DecidableEq C] (sound : dag.Sound committee known)
    {candidate decider : V} {bit : Bool}
    (decides : dag.Decides committee common candidate decider bit)
    (deciderKnown : decider ∈ known) (distance : Nat) :
    ∀ other ∈ known, dag.round other = dag.round decider + distance →
      (dag.VotesFor common candidate other ↔ bit = true) := by
  induction distance with
  | zero =>
      intro other otherKnown sameRound
      exact decides.same_round dag sound deciderKnown otherKnown sameRound
  | succ distance ih =>
      intro other otherKnown laterRound
      have above := decides.above
      have inherited : ∀ ancestor, dag.Parent other ancestor →
          (dag.VotesFor common candidate ancestor ↔ bit = true) := by
        intro ancestor isParent
        have below := sound.parentRound other otherKnown ancestor isParent
        exact ih ancestor (sound.closed other otherKnown ancestor isParent) (by omega)
      obtain ⟨some, isParent⟩ := sound.has_parent dag otherKnown (by omega)
      rw [votesFor_succ dag (by omega) (sound.parentRound other otherKnown)]
      constructor
      · rintro (unanimous | ⟨⟨ancestor, isAncestor, votes⟩, _⟩)
        · exact (inherited some isParent).mp (unanimous some isParent)
        · exact (inherited ancestor isAncestor).mp votes
      · intro isTrue
        exact Or.inl fun ancestor isAncestor => (inherited ancestor isAncestor).mpr isTrue

private theorem Decides.unique_of_le [DecidableEq C] (sound : dag.Sound committee known)
    {candidate first second : V} {firstBit secondBit : Bool}
    (firstDecides : dag.Decides committee common candidate first firstBit)
    (secondDecides : dag.Decides committee common candidate second secondBit)
    (firstKnown : first ∈ known) (secondKnown : second ∈ known)
    (ordered : dag.round first ≤ dag.round second) : firstBit = secondBit := by
  rcases ordered.eq_or_lt with same | below
  · rw [← firstDecides.isCommon, ← secondDecides.isCommon, same]
  · obtain ⟨group, quorum, support⟩ := secondDecides.support
    obtain ⟨creator, inGroup⟩ := Committee.IsQuorum.nonempty committee quorum
    obtain ⟨ancestor, ancestorAt, secondVote⟩ := support creator inGroup
    have isParent : dag.Parent second ancestor := ⟨creator, ancestorAt⟩
    have ancestorRound := sound.parentRound second secondKnown ancestor isParent
    have firstVote := firstDecides.above_round dag sound firstKnown
      (dag.round ancestor - dag.round first) ancestor
      (sound.closed second secondKnown ancestor isParent) (by omega)
    exact Bool.eq_iff_iff.mpr (firstVote.symm.trans secondVote)

/-- No candidate is decided both ways, at whatever rounds. -/
theorem Decides.unique [DecidableEq C] (sound : dag.Sound committee known)
    {candidate first second : V} {firstBit secondBit : Bool}
    (firstDecides : dag.Decides committee common candidate first firstBit)
    (secondDecides : dag.Decides committee common candidate second secondBit)
    (firstKnown : first ∈ known) (secondKnown : second ∈ known) : firstBit = secondBit := by
  rcases Nat.le_total (dag.round first) (dag.round second) with ordered | ordered
  · exact firstDecides.unique_of_le dag sound secondDecides firstKnown secondKnown ordered
  · exact (secondDecides.unique_of_le dag sound firstDecides secondKnown firstKnown ordered).symm

/-- The coverage lemma: a vertex three rounds above a candidate that is not
among its ancestors decides it zero. -/
theorem Sound.decides_unseen (sound : dag.Sound committee known)
    (excluded : ∀ candidate, common candidate (dag.round candidate + 3) = false)
    {view : Set V} (viewClosed : dag.Closed view) (viewKnown : view ⊆ known)
    {candidate witness : V} (witnessSeen : witness ∈ view)
    (witnessRound : dag.round witness = dag.round candidate + 3) (unseen : candidate ∉ view) :
    dag.Decides committee common candidate witness false := by
  have noDirect : ∀ voter ∈ view, dag.round voter = dag.round candidate + 1 →
      ¬ dag.VotesFor common candidate voter := by
    intro voter voterSeen voterRound votes
    have direct : dag.parent voter (dag.creator candidate) = some candidate := by
      have depth : dag.round voter - dag.round candidate - 1 = 0 := by omega
      rwa [VotesFor, depth] at votes
    exact unseen (viewClosed voter voterSeen candidate ⟨_, direct⟩)
  have noIndirect : ∀ voter ∈ view, dag.round voter = dag.round candidate + 2 →
      ¬ dag.VotesFor common candidate voter := by
    intro voter voterSeen voterRound votes
    have parentsSilent : ∀ ancestor, dag.Parent voter ancestor →
        ¬ dag.VotesFor common candidate ancestor := by
      intro ancestor isParent
      have below := sound.parentRound voter (viewKnown voterSeen) ancestor isParent
      exact noDirect ancestor (viewClosed voter voterSeen ancestor isParent) (by omega)
    obtain ⟨ancestor, isParent⟩ := sound.has_parent dag (viewKnown voterSeen) (by omega)
    rw [votesFor_succ dag (by omega) (sound.parentRound voter (viewKnown voterSeen))] at votes
    rcases votes with unanimous | ⟨⟨other, isOther, otherVotes⟩, _⟩
    · exact parentsSilent ancestor isParent (unanimous ancestor isParent)
    · exact parentsSilent other isOther otherVotes
  refine ⟨by omega, witnessRound ▸ excluded candidate, ?_⟩
  obtain ⟨group, quorum, names⟩ :=
    sound.references witness (viewKnown witnessSeen) (by omega)
  refine ⟨group, quorum, fun creator inGroup => ?_⟩
  obtain ⟨ancestor, ancestorAt⟩ := names creator inGroup
  have isParent : dag.Parent witness ancestor := ⟨creator, ancestorAt⟩
  have below := sound.parentRound witness (viewKnown witnessSeen) ancestor isParent
  refine ⟨ancestor, ancestorAt, ?_⟩
  constructor
  · intro votes
    exact absurd votes
      (noIndirect ancestor (viewClosed witness witnessSeen ancestor isParent) (by omega))
  · intro impossible
    cases impossible

end Decisions

/-! ### Round heads -/

section Heads

def DecidedIn (committee : Committee C) (common : V → Nat → Bool) (view : Set V)
    (candidate : V) (bit : Bool) : Prop :=
  ∃ decider ∈ view, dag.Decides committee common candidate decider bit

variable {committee : Committee C} {common : V → Nat → Bool} {known left right : Set V}

theorem DecidedIn.mono {candidate : V} {bit : Bool} (subset : left ⊆ right)
    (decided : dag.DecidedIn committee common left candidate bit) :
    dag.DecidedIn committee common right candidate bit := by
  obtain ⟨decider, seen, decides⟩ := decided
  exact ⟨decider, subset seen, decides⟩

theorem DecidedIn.unique [DecidableEq C] (sound : dag.Sound committee known)
    (leftKnown : left ⊆ known) (rightKnown : right ⊆ known) {candidate : V} {leftBit rightBit : Bool}
    (leftDecided : dag.DecidedIn committee common left candidate leftBit)
    (rightDecided : dag.DecidedIn committee common right candidate rightBit) :
    leftBit = rightBit := by
  obtain ⟨first, firstSeen, firstDecides⟩ := leftDecided
  obtain ⟨second, secondSeen, secondDecides⟩ := rightDecided
  exact firstDecides.unique dag sound secondDecides (leftKnown firstSeen) (rightKnown secondSeen)

variable [LinearOrder V]

/-- The head of a round in a view: decided one, every smaller candidate of the
view decided zero, and the view reaches three rounds up. -/
structure IsHead (committee : Committee C) (common : V → Nat → Bool) (view : Set V)
    (round : Nat) (head : V) : Prop where
  covered : ∃ witness ∈ view, dag.round witness = round + 3
  seen : head ∈ view
  atRound : dag.round head = round
  included : dag.DecidedIn committee common view head true
  earlier : ∀ candidate ∈ view, dag.round candidate = round → candidate < head →
    dag.DecidedIn committee common view candidate false

private theorem IsHead.not_below [DecidableEq C] (sound : dag.Sound committee known)
    (excluded : ∀ candidate, common candidate (dag.round candidate + 3) = false)
    (leftClosed : dag.Closed left) (leftKnown : left ⊆ known) (rightKnown : right ⊆ known)
    {round : Nat} {leftHead rightHead : V}
    (leftIs : dag.IsHead committee common left round leftHead)
    (rightIs : dag.IsHead committee common right round rightHead) : ¬ rightHead < leftHead := by
  intro below
  have excludedHere : dag.DecidedIn committee common known rightHead false := by
    by_cases seen : rightHead ∈ left
    · exact (leftIs.earlier rightHead seen rightIs.atRound below).mono dag leftKnown
    · obtain ⟨witness, witnessSeen, witnessRound⟩ := leftIs.covered
      exact ⟨witness, leftKnown witnessSeen, sound.decides_unseen dag excluded leftClosed leftKnown
        witnessSeen (by rw [witnessRound, rightIs.atRound]) seen⟩
  have clash := DecidedIn.unique dag sound (fun _ h => h) rightKnown excludedHere rightIs.included
  cases clash

/-- Any two views that choose a head for a round choose the same one. -/
theorem IsHead.unique [DecidableEq C] (sound : dag.Sound committee known)
    (excluded : ∀ candidate, common candidate (dag.round candidate + 3) = false)
    (leftClosed : dag.Closed left) (rightClosed : dag.Closed right)
    (leftKnown : left ⊆ known) (rightKnown : right ⊆ known)
    {round : Nat} {leftHead rightHead : V}
    (leftIs : dag.IsHead committee common left round leftHead)
    (rightIs : dag.IsHead committee common right round rightHead) : leftHead = rightHead :=
  le_antisymm
    (not_lt.mp (leftIs.not_below dag sound excluded leftClosed leftKnown rightKnown rightIs))
    (not_lt.mp (rightIs.not_below dag sound excluded rightClosed rightKnown leftKnown leftIs))

/-- A head stays the head as the view grows: a candidate seen only later is
already decided zero by what covered the round. -/
theorem IsHead.mono (sound : dag.Sound committee known)
    (excluded : ∀ candidate, common candidate (dag.round candidate + 3) = false)
    (leftClosed : dag.Closed left) (subset : left ⊆ right) (rightKnown : right ⊆ known)
    {round : Nat} {head : V} (isHead : dag.IsHead committee common left round head) :
    dag.IsHead committee common right round head := by
  obtain ⟨witness, witnessSeen, witnessRound⟩ := isHead.covered
  refine ⟨⟨witness, subset witnessSeen, witnessRound⟩, subset isHead.seen, isHead.atRound,
    isHead.included.mono dag subset, ?_⟩
  intro candidate candidateSeen candidateRound below
  by_cases seen : candidate ∈ left
  · exact (isHead.earlier candidate seen candidateRound below).mono dag subset
  · exact ⟨witness, subset witnessSeen, sound.decides_unseen dag excluded leftClosed
      (subset.trans rightKnown) witnessSeen (by rw [witnessRound, candidateRound]) seen⟩

def HeadsOf (committee : Committee C) (common : V → Nat → Bool) (view : Set V)
    (heads : List V) : Prop :=
  ∀ round head, heads[round]? = some head → dag.IsHead committee common view round head

private theorem HeadsOf.prefix_of_le [DecidableEq C] (sound : dag.Sound committee known)
    (excluded : ∀ candidate, common candidate (dag.round candidate + 3) = false)
    (leftClosed : dag.Closed left) (rightClosed : dag.Closed right)
    (leftKnown : left ⊆ known) (rightKnown : right ⊆ known) {leftHeads rightHeads : List V}
    (leftOf : dag.HeadsOf committee common left leftHeads)
    (rightOf : dag.HeadsOf committee common right rightHeads)
    (shorter : leftHeads.length ≤ rightHeads.length) : leftHeads <+: rightHeads := by
  refine List.prefix_iff_getElem.mpr ⟨shorter, fun round within => ?_⟩
  exact IsHead.unique dag sound excluded leftClosed rightClosed leftKnown rightKnown
    (leftOf round _ (List.getElem?_eq_getElem within))
    (rightOf round _ (List.getElem?_eq_getElem (by omega)))

/-- The head sequences of two views extend one another. -/
theorem HeadsOf.comparable [DecidableEq C] (sound : dag.Sound committee known)
    (excluded : ∀ candidate, common candidate (dag.round candidate + 3) = false)
    (leftClosed : dag.Closed left) (rightClosed : dag.Closed right)
    (leftKnown : left ⊆ known) (rightKnown : right ⊆ known) {leftHeads rightHeads : List V}
    (leftOf : dag.HeadsOf committee common left leftHeads)
    (rightOf : dag.HeadsOf committee common right rightHeads) :
    leftHeads <+: rightHeads ∨ rightHeads <+: leftHeads := by
  rcases Nat.le_total leftHeads.length rightHeads.length with shorter | shorter
  · exact Or.inl (leftOf.prefix_of_le dag sound excluded leftClosed rightClosed leftKnown rightKnown
      rightOf shorter)
  · exact Or.inr (rightOf.prefix_of_le dag sound excluded rightClosed leftClosed rightKnown leftKnown
      leftOf shorter)

/-- A head sequence that stops because its view has no further head. -/
structure AllHeadsOf (committee : Committee C) (common : V → Nat → Bool) (view : Set V)
    (heads : List V) : Prop where
  upTo : dag.HeadsOf committee common view heads
  exhausted : ∀ head, ¬ dag.IsHead committee common view heads.length head

/-- A larger view has at least the heads of a smaller one. -/
theorem AllHeadsOf.extends [DecidableEq C] (sound : dag.Sound committee known)
    (excluded : ∀ candidate, common candidate (dag.round candidate + 3) = false)
    (leftClosed : dag.Closed left) (rightClosed : dag.Closed right)
    (subset : left ⊆ right) (rightKnown : right ⊆ known) {leftHeads rightHeads : List V}
    (leftOf : dag.HeadsOf committee common left leftHeads)
    (rightOf : dag.AllHeadsOf committee common right rightHeads) : leftHeads <+: rightHeads := by
  refine leftOf.prefix_of_le dag sound excluded leftClosed rightClosed (subset.trans rightKnown)
    rightKnown rightOf.upTo ?_
  by_contra longer
  have within : rightHeads.length < leftHeads.length := by omega
  exact rightOf.exhausted _
    ((leftOf rightHeads.length _ (List.getElem?_eq_getElem within)).mono dag sound excluded
      leftClosed subset rightKnown)

theorem AllHeadsOf.unique [DecidableEq C] (sound : dag.Sound committee known)
    (excluded : ∀ candidate, common candidate (dag.round candidate + 3) = false)
    (viewClosed : dag.Closed left) (viewKnown : left ⊆ known) {first second : List V}
    (firstOf : dag.AllHeadsOf committee common left first)
    (secondOf : dag.AllHeadsOf committee common left second) : first = second := by
  have forward := AllHeadsOf.extends dag sound excluded viewClosed viewClosed (fun _ h => h)
    viewKnown firstOf.upTo secondOf
  have backward := AllHeadsOf.extends dag sound excluded viewClosed viewClosed (fun _ h => h)
    viewKnown secondOf.upTo firstOf
  exact forward.eq_of_length (Nat.le_antisymm forward.length_le backward.length_le)

end Heads

end RoundDag

end VirtualVoting
