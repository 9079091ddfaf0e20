/-
The extender's votes and decisions against virtual voting on the unit DAG.

A collision-free unit hash makes the DAG of all units a fixed object: `dag`
reads round, creator and parents of a hash off the unit it identifies.  The
memoized recursion of `vote` and the round scan of `decide` are shown to
compute the votes and decisions of that DAG.
-/

import Picomint.Bft.Extender

namespace Picomint.Bft

open VirtualVoting

variable {D : Type}

/-! ### The DAG named by the hashes -/

structure Mint.CollisionFree (mint : Mint D) : Prop where
  unitHash : Function.Injective mint.unitHash
  dataHash : Function.Injective mint.dataHash

open Classical in
noncomputable def Mint.unitOf (mint : Mint D) (hash : UnitHash) : Option BftUnit :=
  if found : ∃ unit, mint.unitHash unit = hash then some found.choose else none

theorem Mint.CollisionFree.unitOf_eq {mint : Mint D} (free : mint.CollisionFree)
    {unit : BftUnit} {hash : UnitHash} (isHash : mint.unitHash unit = hash) :
    mint.unitOf hash = some unit := by
  have found : ∃ unit, mint.unitHash unit = hash := ⟨unit, isHash⟩
  have chosen : mint.unitHash found.choose = hash := found.choose_spec
  rw [Mint.unitOf, dif_pos found, free.unitHash (chosen.trans isHash.symm)]

noncomputable def Mint.dag (mint : Mint D) : RoundDag UnitHash NodeId where
  round hash := ((mint.unitOf hash).map BftUnit.round).getD 0
  creator hash := ((mint.unitOf hash).map BftUnit.creator).getD 0
  parent hash creator := (mint.unitOf hash).bind (fun unit => unit.parents.get? creator)

noncomputable def Mint.common (mint : Mint D) (candidate : UnitHash) (round : Nat) : Bool :=
  match round - mint.dag.round candidate with
  | 2 => true
  | 3 => false
  | _ => mint.seededBit round candidate

theorem Mint.common_three (mint : Mint D) (candidate : UnitHash) :
    mint.common candidate (mint.dag.round candidate + 3) = false := by
  simp [Mint.common]

theorem commonVote_eq (mint : Mint D) {candidate : UnitHash} {round : Nat}
    (above : mint.dag.round candidate ≤ round) :
    commonVote mint candidate (mint.dag.round candidate) round =
      some (mint.common candidate round) := by
  unfold commonVote Mint.common
  rw [if_neg (not_lt.mpr above)]
  generalize round - mint.dag.round candidate = distance
  match distance with
  | 0 | 1 | 2 | 3 | _ + 4 => rfl

/-! ### Extended maps -/

/-- The structural admission checks. -/
structure Mint.Admits (mint : Mint D) (unit : BftUnit) : Prop where
  creator : unit.creator ∈ mint.n.nodeIds
  root : unit.round = 0 → unit.parents.size = 0
  threshold : unit.round ≠ 0 → unit.parents.size = mint.n.threshold
  parentCreators : ∀ creator ∈ unit.parents.keys, creator ∈ mint.n.nodeIds

structure WellExtended (mint : Mint D) (extended : SortedMap UnitHash BftUnit) : Prop where
  hashed : ∀ hash unit, extended.get? hash = some unit → mint.unitHash unit = hash
  admitted : ∀ hash unit, extended.get? hash = some unit → mint.Admits unit
  fed : ∀ hash unit, extended.get? hash = some unit →
    ∀ creator parent, unit.parents.get? creator = some parent →
      ∃ body, extended.get? parent = some body ∧ body.creator = creator ∧
        body.round + 1 = unit.round

def view (extended : SortedMap UnitHash BftUnit) : Set UnitHash :=
  { hash | ∃ unit, extended.get? hash = some unit }

/-- An honest creator has one unit per round among the given ones. -/
def SingleVoiced (byzantine : Finset NodeId) (units : Set BftUnit) : Prop :=
  ∀ left ∈ units, ∀ right ∈ units, left.creator ∉ byzantine → left.creator = right.creator →
    left.round = right.round → left = right

section Reading

variable {mint : Mint D} {extended : SortedMap UnitHash BftUnit}

theorem WellExtended.unitOf (free : mint.CollisionFree) (well : WellExtended mint extended)
    {hash : UnitHash} {unit : BftUnit} (found : extended.get? hash = some unit) :
    mint.unitOf hash = some unit :=
  free.unitOf_eq (well.hashed hash unit found)

theorem WellExtended.dag_round (free : mint.CollisionFree) (well : WellExtended mint extended)
    {hash : UnitHash} {unit : BftUnit} (found : extended.get? hash = some unit) :
    mint.dag.round hash = unit.round := by
  simp only [Mint.dag, well.unitOf free found, Option.map_some, Option.getD_some]

theorem WellExtended.dag_creator (free : mint.CollisionFree) (well : WellExtended mint extended)
    {hash : UnitHash} {unit : BftUnit} (found : extended.get? hash = some unit) :
    mint.dag.creator hash = unit.creator := by
  simp only [Mint.dag, well.unitOf free found, Option.map_some, Option.getD_some]

theorem WellExtended.dag_parent (free : mint.CollisionFree) (well : WellExtended mint extended)
    {hash : UnitHash} {unit : BftUnit} (found : extended.get? hash = some unit)
    (creator : NodeId) : mint.dag.parent hash creator = unit.parents.get? creator := by
  simp only [Mint.dag, well.unitOf free found, Option.bind_some]

theorem WellExtended.dag_Parent (free : mint.CollisionFree) (well : WellExtended mint extended)
    {hash : UnitHash} {unit : BftUnit} (found : extended.get? hash = some unit)
    (parent : UnitHash) : mint.dag.Parent hash parent ↔ parent ∈ unit.parents.values := by
  rw [SortedMap.mem_values]
  exact exists_congr fun creator => by rw [well.dag_parent free found]

theorem WellExtended.closed (free : mint.CollisionFree) (well : WellExtended mint extended) :
    mint.dag.Closed (view extended) := by
  rintro hash ⟨unit, found⟩ parent ⟨creator, parentAt⟩
  rw [well.dag_parent free found] at parentAt
  obtain ⟨body, bodyAt, _, _⟩ := well.fed hash unit found creator parent parentAt
  exact ⟨body, bodyAt⟩

theorem WellExtended.parent_values (well : WellExtended mint extended) {hash : UnitHash}
    {unit : BftUnit} (found : extended.get? hash = some unit) {parent : UnitHash}
    (member : parent ∈ unit.parents.values) :
    ∃ body, extended.get? parent = some body ∧ body.round + 1 = unit.round := by
  obtain ⟨creator, parentAt⟩ := (unit.parents.mem_values parent).mp member
  obtain ⟨body, bodyAt, _, bodyRound⟩ := well.fed hash unit found creator parent parentAt
  exact ⟨body, bodyAt, bodyRound⟩

theorem Mint.Admits.parents_quorum {unit : BftUnit} (admits : mint.Admits unit)
    (positive : unit.round ≠ 0) (byzantine : Finset NodeId)
    (bound : byzantine.card ≤ mint.n.maxEvil) :
    (mint.n.committee byzantine bound).IsQuorum unit.parents.keys.toFinset := by
  constructor
  · intro creator member
    have inMint := admits.parentCreators creator (List.mem_toFinset.mp member)
    exact Finset.mem_range.mpr ((mint.n.mem_nodeIds creator).mp inMint)
  · rw [NumNodes.committee_quorum, List.toFinset_card_of_nodup unit.parents.keys_nodup,
      unit.parents.keys_length, admits.threshold positive]

/-- Extended maps over single-voiced honest creators are sound for voting. -/
theorem WellExtended.sound (free : mint.CollisionFree) (byzantine : Finset NodeId)
    (bound : byzantine.card ≤ mint.n.maxEvil) {known : Set UnitHash}
    (covered : ∀ hash ∈ known, ∃ extended, WellExtended mint extended ∧
      hash ∈ view extended ∧ view extended ⊆ known)
    {units : Set BftUnit} (once : SingleVoiced byzantine units)
    (among : ∀ hash ∈ known, ∀ unit, mint.unitHash unit = hash → unit ∈ units) :
    mint.dag.Sound (mint.n.committee byzantine bound) known := by
  refine ⟨?_, ?_, ?_, ?_, ?_⟩
  · intro hash member parent isParent
    obtain ⟨extended, well, inView, within⟩ := covered hash member
    exact within (well.closed free hash inView parent isParent)
  · intro hash member creator parent parentAt
    obtain ⟨extended, well, ⟨unit, found⟩, _⟩ := covered hash member
    rw [well.dag_parent free found] at parentAt
    obtain ⟨body, bodyAt, bodyCreator, _⟩ := well.fed hash unit found creator parent parentAt
    rw [well.dag_creator free bodyAt, bodyCreator]
  · intro hash member parent isParent
    obtain ⟨extended, well, ⟨unit, found⟩, _⟩ := covered hash member
    rw [well.dag_Parent free found] at isParent
    obtain ⟨body, bodyAt, bodyRound⟩ := well.parent_values found isParent
    rw [well.dag_round free bodyAt, well.dag_round free found, bodyRound]
  · intro hash member positive
    obtain ⟨extended, well, ⟨unit, found⟩, _⟩ := covered hash member
    rw [well.dag_round free found] at positive
    refine ⟨unit.parents.keys.toFinset,
      (well.admitted hash unit found).parents_quorum positive.ne' byzantine bound, ?_⟩
    intro creator named
    rw [well.dag_parent free found]
    exact (unit.parents.mem_keys creator).mp (List.mem_toFinset.mp named)
  · intro left leftMember right rightMember honest sameCreator sameRound
    obtain ⟨_, leftWell, ⟨leftUnit, leftFound⟩, _⟩ := covered left leftMember
    obtain ⟨_, rightWell, ⟨rightUnit, rightFound⟩, _⟩ := covered right rightMember
    rw [leftWell.dag_creator free leftFound] at honest sameCreator
    rw [rightWell.dag_creator free rightFound] at sameCreator
    rw [leftWell.dag_round free leftFound, rightWell.dag_round free rightFound] at sameRound
    have leftHash := leftWell.hashed left leftUnit leftFound
    have rightHash := rightWell.hashed right rightUnit rightFound
    have same := once leftUnit (among left leftMember leftUnit leftHash)
      rightUnit (among right rightMember rightUnit rightHash) honest sameCreator sameRound
    rw [← leftHash, ← rightHash, same]

end Reading

/-! ### Votes -/

def VotesSound (mint : Mint D) (votes : Votes) : Prop :=
  ∀ candidate unit bit, votes.get? (toLex (candidate, unit)) = some bit →
    (bit = true ↔ mint.dag.VotesFor mint.common candidate unit)

theorem VotesSound.empty (mint : Mint D) : VotesSound mint SortedMap.empty := by
  intro candidate unit bit impossible
  cases impossible

theorem VotesSound.insert {mint : Mint D} {votes : Votes} (sound : VotesSound mint votes)
    {candidate unit : UnitHash} {bit : Bool}
    (isVote : bit = true ↔ mint.dag.VotesFor mint.common candidate unit) :
    VotesSound mint (votes.insert (toLex (candidate, unit)) bit) := by
  intro otherCandidate otherUnit otherBit found
  rw [SortedMap.get?_insert] at found
  split at found
  · rename_i same
    have samePair : (candidate, unit) = (otherCandidate, otherUnit) := toLex.injective same
    cases samePair
    cases found
    exact isVote
  · exact sound otherCandidate otherUnit otherBit found

theorem collectVotes_spec (mint : Mint D) {ask : UnitHash → Votes → Option (Bool × Votes)}
    {isVote : UnitHash → Prop} (units : List UnitHash)
    (answers : ∀ unit ∈ units, ∀ votes, VotesSound mint votes →
      ∃ bit votes', ask unit votes = some (bit, votes') ∧ (bit = true ↔ isVote unit) ∧
        VotesSound mint votes')
    {votes : Votes} (sound : VotesSound mint votes) :
    ∃ bits votes', collectVotes ask units votes = some (bits, votes') ∧
      List.Forall₂ (fun unit bit => bit = true ↔ isVote unit) units bits ∧
      VotesSound mint votes' := by
  induction units generalizing votes with
  | nil => exact ⟨[], votes, rfl, List.Forall₂.nil, sound⟩
  | cons unit rest ih =>
      obtain ⟨bit, middle, asked, bitVote, middleSound⟩ := answers unit List.mem_cons_self votes sound
      obtain ⟨bits, final, collected, bitsVote, finalSound⟩ :=
        ih (fun other member => answers other (List.mem_cons_of_mem unit member)) middleSound
      refine ⟨bit :: bits, final, ?_, List.Forall₂.cons bitVote bitsVote, finalSound⟩
      simp only [collectVotes, asked, collected]

theorem aggregate_spec {isVote : UnitHash → Prop} {units : List UnitHash} {bits : List Bool}
    (answers : List.Forall₂ (fun unit bit => bit = true ↔ isVote unit) units bits)
    (default : Bool) :
    aggregate default bits = true ↔
      (∀ unit ∈ units, isVote unit) ∨ ((∃ unit ∈ units, isVote unit) ∧ default = true) := by
  have allTrue : bits.all (fun vote => vote) = true ↔ ∀ unit ∈ units, isVote unit := by
    induction answers with
    | nil => simp
    | cons first _ ih => rw [List.all_cons, Bool.and_eq_true, ih, first]; simp
  have allFalse : bits.all (fun vote => !vote) = true ↔ ∀ unit ∈ units, ¬ isVote unit := by
    clear allTrue
    induction answers with
    | nil => simp
    | cons first _ ih =>
        rw [List.all_cons, Bool.and_eq_true, ih, Bool.not_eq_true', ← Bool.not_eq_true, first]
        simp
  unfold aggregate
  split
  · rename_i unanimous
    exact ⟨fun _ => Or.inl (allTrue.mp unanimous), fun _ => rfl⟩
  · rename_i notAll
    rw [allTrue] at notAll
    split
    · rename_i silent
      rw [allFalse] at silent
      constructor
      · intro impossible
        cases impossible
      · rintro (all | ⟨⟨unit, member, votes⟩, _⟩)
        · exact absurd all notAll
        · exact absurd votes (silent unit member)
    · rename_i notSilent
      rw [allFalse] at notSilent
      push Not at notSilent
      constructor
      · exact fun isDefault => Or.inr ⟨notSilent, isDefault⟩
      · rintro (all | ⟨_, isDefault⟩)
        · exact absurd all notAll
        · exact isDefault

/-- The memoized recursion answers with the vote of the DAG. -/
theorem vote_spec {mint : Mint D} (free : mint.CollisionFree)
    {extended : SortedMap UnitHash BftUnit} (well : WellExtended mint extended)
    {candidate : UnitHash} {cand : BftUnit} (candidateAt : extended.get? candidate = some cand)
    (depth : Nat) {unit : UnitHash} {voter : BftUnit} (unitAt : extended.get? unit = some voter)
    (above : cand.round < voter.round) (within : voter.round - cand.round ≤ depth)
    {votes : Votes} (sound : VotesSound mint votes) :
    ∃ bit votes', vote mint extended candidate depth unit votes = some (bit, votes') ∧
      (bit = true ↔ mint.dag.VotesFor mint.common candidate unit) ∧
      VotesSound mint votes' := by
  have candidateRound := well.dag_round free candidateAt
  induction depth generalizing unit voter votes with
  | zero => omega
  | succ depth ih =>
      have unitRound := well.dag_round free unitAt
      simp only [vote, candidateAt, unitAt]
      by_cases direct : voter.round = cand.round + 1
      · rw [if_pos direct]
        refine ⟨_, votes, rfl, ?_, sound⟩
        have noDepth : mint.dag.round unit - mint.dag.round candidate - 1 = 0 := by omega
        rw [RoundDag.VotesFor, noDepth, RoundDag.Votes, well.dag_parent free unitAt,
          well.dag_creator free candidateAt, beq_iff_eq]
      · rw [if_neg direct]
        cases memo : votes.get? (toLex (candidate, unit)) with
        | some bit => exact ⟨bit, votes, rfl, sound candidate unit bit memo, sound⟩
        | none =>
            have default : commonVote mint candidate cand.round voter.round =
                some (mint.common candidate voter.round) := by
              rw [← candidateRound]
              exact commonVote_eq mint (by omega)
            have answers : ∀ parent ∈ voter.parents.values, ∀ votes, VotesSound mint votes →
                ∃ bit votes', vote mint extended candidate depth parent votes =
                    some (bit, votes') ∧
                  (bit = true ↔ mint.dag.VotesFor mint.common candidate parent) ∧
                  VotesSound mint votes' := by
              intro parent member votes sound
              obtain ⟨body, bodyAt, bodyRound⟩ := well.parent_values unitAt member
              exact ih bodyAt (by omega) (by omega) sound
            obtain ⟨bits, votes', collected, bitsVote, sound'⟩ :=
              collectVotes_spec mint voter.parents.values answers sound
            have isVote : aggregate (mint.common candidate voter.round) bits = true ↔
                mint.dag.VotesFor mint.common candidate unit := by
              rw [aggregate_spec bitsVote, RoundDag.votesFor_succ mint.dag (by omega), unitRound]
              · simp only [well.dag_Parent free unitAt]
              · intro parent isParent
                rw [well.dag_Parent free unitAt] at isParent
                obtain ⟨body, bodyAt, bodyRound⟩ := well.parent_values unitAt isParent
                rw [well.dag_round free bodyAt, unitRound, bodyRound]
            simp only [default, collected]
            exact ⟨_, _, rfl, isVote, sound'.insert isVote⟩

/-! ### Decisions -/

/-- A threshold of matching bits among the parents is a decision: admission
leaves exactly a threshold of parents, so all of them match. -/
theorem threshold_iff_decides {mint : Mint D} (free : mint.CollisionFree)
    {byzantine : Finset NodeId} (bound : byzantine.card ≤ mint.n.maxEvil)
    {extended : SortedMap UnitHash BftUnit} (well : WellExtended mint extended)
    {candidate unit : UnitHash} {body : BftUnit} (unitAt : extended.get? unit = some body)
    (above : mint.dag.round candidate + 2 ≤ body.round) {bits : List Bool}
    (answers : List.Forall₂ (fun parent bit => bit = true ↔
      mint.dag.VotesFor mint.common candidate parent) body.parents.values bits) :
    mint.n.threshold ≤ bits.countP (· == mint.common candidate body.round) ↔
      mint.dag.Decides (mint.n.committee byzantine bound) mint.common candidate unit
        (mint.common candidate body.round) := by
  have unitRound := well.dag_round free unitAt
  have admits := well.admitted unit body unitAt
  have size := admits.threshold (by omega)
  have bitCount : bits.length = mint.n.threshold := by
    rw [← answers.length_eq, body.parents.values_length, size]
  generalize isCommon : mint.common candidate body.round = v
  have allMatch : mint.n.threshold ≤ bits.countP (· == v) ↔
      ∀ parent ∈ body.parents.values,
        (mint.dag.VotesFor mint.common candidate parent ↔ v = true) := by
    have full : mint.n.threshold ≤ bits.countP (· == v) ↔ bits.countP (· == v) = bits.length := by
      have most := bits.countP_le_length (p := (· == v))
      omega
    rw [full, List.countP_eq_length]
    clear full bitCount size
    generalize body.parents.values = parents at answers
    induction answers with
    | nil => simp
    | cons first _ ih =>
        rw [List.forall_mem_cons, List.forall_mem_cons, ← first, beq_iff_eq, Bool.eq_iff_iff]
        exact and_congr_right fun _ => ih
  rw [allMatch]
  constructor
  · intro agreed
    refine ⟨by omega, by rw [unitRound, isCommon], body.parents.keys.toFinset,
      admits.parents_quorum (by omega) byzantine bound, ?_⟩
    intro creator named
    obtain ⟨parent, parentAt⟩ := (body.parents.mem_keys creator).mp (List.mem_toFinset.mp named)
    exact ⟨parent, by rw [well.dag_parent free unitAt, parentAt],
      agreed parent ((body.parents.mem_values parent).mpr ⟨creator, parentAt⟩)⟩
  · rintro ⟨_, _, group, quorum, support⟩ parent member
    obtain ⟨creator, parentAt⟩ := (body.parents.mem_values parent).mp member
    have named : ∀ creator ∈ group, creator ∈ body.parents.keys.toFinset := by
      intro creator inGroup
      obtain ⟨ancestor, ancestorAt, _⟩ := support creator inGroup
      rw [well.dag_parent free unitAt] at ancestorAt
      exact List.mem_toFinset.mpr ((body.parents.mem_keys creator).mpr ⟨ancestor, ancestorAt⟩)
    have same : group = body.parents.keys.toFinset := by
      refine Finset.eq_of_subset_of_card_le named ?_
      have large := quorum.2
      rw [NumNodes.committee_quorum] at large
      rw [List.toFinset_card_of_nodup body.parents.keys_nodup, body.parents.keys_length, size]
      exact large
    have inGroup : creator ∈ group := by
      rw [same, List.mem_toFinset, SortedMap.mem_keys]
      exact ⟨parent, parentAt⟩
    obtain ⟨ancestor, ancestorAt, votes⟩ := support creator inGroup
    rw [well.dag_parent free unitAt, parentAt] at ancestorAt
    exact Option.some.inj ancestorAt ▸ votes

theorem decideRow_spec {mint : Mint D} (free : mint.CollisionFree)
    {byzantine : Finset NodeId} (bound : byzantine.card ≤ mint.n.maxEvil)
    {extended : SortedMap UnitHash BftUnit} (well : WellExtended mint extended)
    {candidate : UnitHash} {cand : BftUnit} (candidateAt : extended.get? candidate = some cand)
    {round : Nat} (above : cand.round + 2 ≤ round) (units : List UnitHash)
    (atRound : ∀ unit ∈ units, ∃ body, extended.get? unit = some body ∧ body.round = round)
    {votes : Votes} (sound : VotesSound mint votes) :
    ∃ decided votes', decideRow mint extended candidate (mint.common candidate round) round
        units votes = some (decided, votes') ∧
      VotesSound mint votes' ∧
      (decided = true ↔ ∃ unit ∈ units, mint.dag.Decides (mint.n.committee byzantine bound)
        mint.common candidate unit (mint.common candidate round)) := by
  have candidateRound := well.dag_round free candidateAt
  induction units generalizing votes with
  | nil =>
      refine ⟨false, votes, rfl, sound, ?_⟩
      simp
  | cons unit rest ih =>
      obtain ⟨body, unitAt, rfl⟩ := atRound unit List.mem_cons_self
      have answers : ∀ parent ∈ body.parents.values, ∀ votes, VotesSound mint votes →
          ∃ bit votes', vote mint extended candidate body.round parent votes =
              some (bit, votes') ∧
            (bit = true ↔ mint.dag.VotesFor mint.common candidate parent) ∧
            VotesSound mint votes' := by
        intro parent member votes sound
        obtain ⟨parentBody, parentAt, parentRound⟩ := well.parent_values unitAt member
        exact vote_spec free well candidateAt body.round parentAt (by omega) (by omega) sound
      obtain ⟨bits, middle, collected, bitsVote, middleSound⟩ :=
        collectVotes_spec mint body.parents.values answers sound
      have counted := threshold_iff_decides free bound well unitAt (by omega) bitsVote
      simp only [decideRow, unitAt, collected]
      split
      · rename_i enough
        exact ⟨true, middle, rfl, middleSound,
          fun _ => ⟨unit, List.mem_cons_self, counted.mp enough⟩, fun _ => rfl⟩
      · rename_i tooFew
        obtain ⟨decided, final, scanned, finalSound, isDecided⟩ :=
          ih (fun other member => atRound other (List.mem_cons_of_mem unit member)) middleSound
        refine ⟨decided, final, scanned, finalSound, isDecided.trans ?_⟩
        constructor
        · rintro ⟨other, member, decides⟩
          exact ⟨other, List.mem_cons_of_mem unit member, decides⟩
        · rintro ⟨other, member, decides⟩
          rcases List.mem_cons.mp member with rfl | later
          · exact absurd (counted.mpr decides) tooFew
          · exact ⟨other, later, decides⟩

def Indexed (rounds : Rounds) (extended : SortedMap UnitHash BftUnit) : Prop :=
  ∀ round hash, hash ∈ extendedAt rounds extended round ↔
    ∃ unit, extended.get? hash = some unit ∧ unit.round = round

theorem WellExtended.row_below {mint : Mint D} {extended : SortedMap UnitHash BftUnit}
    (well : WellExtended mint extended) (distance : Nat) {hash : UnitHash} {unit : BftUnit}
    (found : extended.get? hash = some unit) (far : distance ≤ unit.round) :
    ∃ lower body, extended.get? lower = some body ∧ body.round + distance = unit.round := by
  induction distance with
  | zero => exact ⟨hash, unit, found, rfl⟩
  | succ distance ih =>
      obtain ⟨middle, middleBody, middleAt, middleRound⟩ := ih (by omega)
      have size := (well.admitted middle middleBody middleAt).threshold (by omega)
      have hasParent : ∃ parent, parent ∈ middleBody.parents.values := by
        refine List.exists_mem_of_length_pos ?_
        rw [SortedMap.values_length, size, NumNodes.threshold]
        omega
      obtain ⟨parent, member⟩ := hasParent
      obtain ⟨body, bodyAt, bodyRound⟩ := well.parent_values middleAt member
      exact ⟨parent, body, bodyAt, by omega⟩

/-- The outcome of a scan from a round: a decision of the view, or that no
unit of the view from that round on decides. -/
def ScanResult (mint : Mint D) {byzantine : Finset NodeId}
    (bound : byzantine.card ≤ mint.n.maxEvil) (extended : SortedMap UnitHash BftUnit)
    (candidate : UnitHash) (round : Nat) : Option (Bool × Nat) → Prop
  | some decision => mint.dag.DecidedIn (mint.n.committee byzantine bound) mint.common
      (view extended) candidate decision.1
  | none => ∀ decider ∈ view extended, round ≤ mint.dag.round decider → ∀ bit,
      ¬ mint.dag.Decides (mint.n.committee byzantine bound) mint.common candidate decider bit

theorem decideFrom_spec {mint : Mint D} (free : mint.CollisionFree)
    {byzantine : Finset NodeId} (bound : byzantine.card ≤ mint.n.maxEvil)
    {extended : SortedMap UnitHash BftUnit} (well : WellExtended mint extended)
    {rounds : Rounds} (indexed : Indexed rounds extended)
    {candidate : UnitHash} {cand : BftUnit} (candidateAt : extended.get? candidate = some cand)
    (steps round : Nat) (above : cand.round + 2 ≤ round)
    (enough : ∀ hash ∈ view extended, mint.dag.round hash < round + steps)
    {votes : Votes} (sound : VotesSound mint votes) :
    ∃ result votes', decideFrom mint rounds extended candidate cand.round (steps + 1) round
        votes = some (result, votes') ∧
      VotesSound mint votes' ∧ ScanResult mint bound extended candidate round result := by
  have candidateRound := well.dag_round free candidateAt
  have noneAbove : ∀ start, (extendedAt rounds extended start).isEmpty = true →
      ScanResult mint bound extended candidate start none := by
    intro start empty decider inView reaches
    obtain ⟨unit, found⟩ := inView
    rw [well.dag_round free found] at reaches
    obtain ⟨lower, body, lowerAt, lowerRound⟩ :=
      well.row_below (unit.round - start) found (by omega)
    have member := (indexed start lower).mpr ⟨body, lowerAt, by omega⟩
    rw [List.isEmpty_iff.mp empty] at member
    cases member
  induction steps generalizing round votes with
  | zero =>
      have empty : (extendedAt rounds extended round).isEmpty = true := by
        rw [List.isEmpty_iff, List.eq_nil_iff_forall_not_mem]
        intro hash member
        obtain ⟨unit, found, atRound⟩ := (indexed round hash).mp member
        have tooFar := enough hash ⟨unit, found⟩
        rw [well.dag_round free found] at tooFar
        omega
      refine ⟨none, votes, ?_, sound, noneAbove round empty⟩
      simp only [decideFrom, empty, if_true]
  | succ steps ih =>
      unfold decideFrom
      split
      · rename_i empty
        exact ⟨none, votes, rfl, sound, noneAbove round empty⟩
      · have bit : commonVote mint candidate cand.round round =
            some (mint.common candidate round) := by
          rw [← candidateRound]
          exact commonVote_eq mint (by omega)
        have atRound : ∀ hash ∈ extendedAt rounds extended round,
            ∃ unit, extended.get? hash = some unit ∧ unit.round = round :=
          fun hash member => (indexed round hash).mp member
        obtain ⟨decided, middle, scanned, middleSound, isDecided⟩ :=
          decideRow_spec free bound well candidateAt above _ atRound sound
        simp only [bit, scanned]
        cases decided with
        | true =>
            obtain ⟨unit, member, decides⟩ := isDecided.mp rfl
            obtain ⟨body, unitAt, _⟩ := atRound unit member
            exact ⟨_, middle, rfl, middleSound, unit, ⟨body, unitAt⟩, decides⟩
        | false =>
            obtain ⟨result, final, continued, finalSound, isResult⟩ :=
              ih (round + 1) (by omega)
                (fun hash member => by have := enough hash member; omega) middleSound
            refine ⟨result, final, continued, finalSound, ?_⟩
            cases result with
            | some decision => exact isResult
            | none =>
                intro decider inView reaches bit decides
                rcases reaches.eq_or_lt with here | later
                · obtain ⟨unit, found⟩ := inView
                  have member : decider ∈ extendedAt rounds extended round :=
                    (indexed round decider).mpr
                      ⟨unit, found, by rw [← well.dag_round free found, here]⟩
                  have sameBit : mint.common candidate round = bit :=
                    here ▸ decides.isCommon
                  have impossible := isDecided.mpr ⟨decider, member, sameBit ▸ decides⟩
                  cases impossible
                · exact isResult decider inView later bit decides

end Picomint.Bft
