/-
Decisions, round heads and emitted batches of an engine against its unit DAG.

The caches hold nothing but facts of the view, so `decide` and `choose_head`
answer as if they had none.  The emission loop is a sequence of searches from
the round heads; items and parents of a unit are read off its hash.
-/

import Picomint.Bft.Voting

namespace Picomint.Bft

open VirtualVoting BreadthFirst

variable {D : Type}

/-! ### What a hash determines -/

noncomputable def Mint.next (mint : Mint D) (hash : UnitHash) : Option (List UnitHash) :=
  (mint.unitOf hash).map (fun unit => unit.parents.values)

open Classical in
noncomputable def Mint.payload (mint : Mint D) (commitment : Option Hash) : List D :=
  if found : ∃ data, mint.commitment data = commitment then found.choose else []

/-- What the order carries for one unit. -/
noncomputable def Mint.items (mint : Mint D) (hash : UnitHash) : List (Nat × NodeId × D) :=
  match mint.unitOf hash with
  | none => []
  | some unit => (mint.payload unit.data).map (fun item => (unit.round, unit.creator, item))

theorem Mint.CollisionFree.commitment {mint : Mint D} (free : mint.CollisionFree) :
    Function.Injective mint.commitment := by
  intro left right same
  unfold Mint.commitment at same
  cases left with
  | nil =>
      cases right with
      | nil => rfl
      | cons item rest => cases same
  | cons item rest =>
      cases right with
      | nil => cases same
      | cons other others => exact free.dataHash (Option.some.inj same)

theorem Mint.CollisionFree.payload_eq {mint : Mint D} (free : mint.CollisionFree)
    (data : List D) : mint.payload (mint.commitment data) = data := by
  have found : ∃ other, mint.commitment other = mint.commitment data := ⟨data, rfl⟩
  rw [Mint.payload, dif_pos found]
  exact free.commitment found.choose_spec

theorem Mint.CollisionFree.items_eq {mint : Mint D} (free : mint.CollisionFree)
    {hash : UnitHash} {unit : BftUnit} (isHash : mint.unitHash unit = hash) {data : List D}
    (committed : unit.data = mint.commitment data) :
    mint.items hash = data.map (fun item => (unit.round, unit.creator, item)) := by
  simp only [Mint.items, free.unitOf_eq isHash, committed, free.payload_eq]

theorem WellExtended.next_eq {mint : Mint D} {extended : SortedMap UnitHash BftUnit}
    (free : mint.CollisionFree) (well : WellExtended mint extended) {hash : UnitHash}
    {unit : BftUnit} (found : extended.get? hash = some unit) :
    mint.next hash = some unit.parents.values := by
  rw [Mint.next, well.unitOf free found, Option.map_some]

theorem WellExtended.graded {mint : Mint D} {extended : SortedMap UnitHash BftUnit}
    (free : mint.CollisionFree) (well : WellExtended mint extended) :
    Graded mint.next mint.dag.round (view extended) := by
  rintro hash ⟨unit, found⟩
  refine ⟨unit.parents.values, well.next_eq free found, ?_⟩
  intro parent member
  obtain ⟨body, bodyAt, bodyRound⟩ := well.parent_values found member
  refine ⟨⟨body, bodyAt⟩, ?_⟩
  rw [well.dag_round free bodyAt, well.dag_round free found, bodyRound]

/-! ### Decisions -/

structure CachesSound (mint : Mint D) {byzantine : Finset NodeId}
    (bound : byzantine.card ≤ mint.n.maxEvil) (engine : Engine D) : Prop where
  votes : VotesSound mint engine.votes
  decided : ∀ candidate decision, engine.decided.get? candidate = some decision →
    mint.dag.DecidedIn (mint.n.committee byzantine bound) mint.common (view engine.extended)
      candidate decision.1

theorem roundUnits_within_last {rounds : Rounds} {round : Nat} {hash : UnitHash}
    (member : hash ∈ roundUnits rounds round) : round + 2 ≤ stepBound rounds := by
  unfold roundUnits at member
  cases row : rounds.get? round with
  | none =>
      rw [row] at member
      cases member
  | some units =>
      have key := (rounds.mem_keys round).mpr ⟨units, row⟩
      unfold stepBound
      cases last : rounds.lastKey? with
      | none =>
          unfold SortedMap.keys at key
          rw [rounds.lastKey?_none last] at key
          cases key
      | some top =>
          have below := rounds.lastKey?_above last round key
          simp only [Option.getD_some]
          omega

theorem Indexed.within_last {rounds : Rounds} {extended : SortedMap UnitHash BftUnit}
    (indexed : Indexed rounds extended) {hash : UnitHash} {unit : BftUnit}
    (found : extended.get? hash = some unit) : unit.round + 2 ≤ stepBound rounds :=
  roundUnits_within_last
    (List.mem_of_mem_filter ((indexed unit.round hash).mpr ⟨unit, found, rfl⟩))

section Choice

variable {mint : Mint D} {byzantine : Finset NodeId}

/-- `decide` answers with a decision of the view, and with nothing only where
the view holds none. -/
def DecideResult (mint : Mint D) (bound : byzantine.card ≤ mint.n.maxEvil)
    (extended : SortedMap UnitHash BftUnit) (candidate : UnitHash) : Option Bool → Prop
  | some bit => mint.dag.DecidedIn (mint.n.committee byzantine bound) mint.common
      (view extended) candidate bit
  | none => ∀ bit, ¬ mint.dag.DecidedIn (mint.n.committee byzantine bound) mint.common
      (view extended) candidate bit

theorem decide_spec (free : mint.CollisionFree) (bound : byzantine.card ≤ mint.n.maxEvil)
    {engine : Engine D} (well : WellExtended mint engine.extended)
    (indexed : Indexed engine.rounds engine.extended) (caches : CachesSound mint bound engine)
    {candidate : UnitHash} {body : BftUnit} (found : engine.extended.get? candidate = some body) :
    ∃ result votes decided, engine.decide mint candidate =
        some (result, { engine with votes := votes, decided := decided }) ∧
      CachesSound mint bound { engine with votes := votes, decided := decided } ∧
      DecideResult mint bound engine.extended candidate result := by
  unfold Engine.decide
  cases cached : engine.decided.get? candidate with
  | some decision =>
      exact ⟨some decision.1, engine.votes, engine.decided, rfl, caches,
        caches.decided candidate decision cached⟩
  | none =>
      have enough : ∀ hash ∈ view engine.extended, mint.dag.round hash <
          body.round + 2 + (engine.rounds.lastKey?.getD 0 + 1) := by
        rintro hash ⟨unit, unitAt⟩
        have within := indexed.within_last unitAt
        unfold stepBound at within
        rw [well.dag_round free unitAt]
        omega
      obtain ⟨result, votes, scanned, votesSound, isResult⟩ :=
        decideFrom_spec free bound well indexed found (engine.rounds.lastKey?.getD 0 + 1)
          (body.round + 2) (Nat.le_refl _) enough caches.votes
      have scan : decideFrom mint engine.rounds engine.extended candidate body.round
          (stepBound engine.rounds) (body.round + 2) engine.votes = some (result, votes) := scanned
      simp only [found, scan]
      cases result with
      | none =>
          refine ⟨none, votes, engine.decided, rfl, ⟨votesSound, caches.decided⟩, ?_⟩
          rintro bit ⟨decider, inView, decides⟩
          have above := decides.above
          rw [well.dag_round free found] at above
          exact isResult decider inView above bit decides
      | some decision =>
          refine ⟨some decision.1, votes, engine.decided.insert candidate decision, rfl,
            ⟨votesSound, ?_⟩, isResult⟩
          intro other otherDecision otherFound
          rw [SortedMap.get?_insert] at otherFound
          split at otherFound
          · rename_i same
            cases otherFound
            exact same ▸ isResult
          · exact caches.decided other otherDecision otherFound

/-! ### Heads -/

/-- The candidate a walk stops at: decided one, behind candidates decided
zero only. -/
def Chosen (mint : Mint D) (bound : byzantine.card ≤ mint.n.maxEvil)
    (extended : SortedMap UnitHash BftUnit) (candidates : List UnitHash) (head : UnitHash) : Prop :=
  ∃ before after, candidates = before ++ head :: after ∧
    (∀ candidate ∈ before, mint.dag.DecidedIn (mint.n.committee byzantine bound) mint.common
      (view extended) candidate false) ∧
    mint.dag.DecidedIn (mint.n.committee byzantine bound) mint.common (view extended) head true

def WalkResult (mint : Mint D) (bound : byzantine.card ≤ mint.n.maxEvil)
    (extended : SortedMap UnitHash BftUnit) (candidates : List UnitHash) :
    Option UnitHash → Prop
  | some head => Chosen mint bound extended candidates head
  | none => ∀ head, ¬ Chosen mint bound extended candidates head

theorem Chosen.cons {bound : byzantine.card ≤ mint.n.maxEvil}
    {extended : SortedMap UnitHash BftUnit} {candidate : UnitHash} {rest : List UnitHash}
    {head : UnitHash} (chosen : Chosen mint bound extended rest head)
    (excluded : mint.dag.DecidedIn (mint.n.committee byzantine bound) mint.common
      (view extended) candidate false) :
    Chosen mint bound extended (candidate :: rest) head := by
  obtain ⟨before, after, split, zeros, one⟩ := chosen
  refine ⟨candidate :: before, after, by rw [split, List.cons_append], ?_, one⟩
  intro other member
  rcases List.mem_cons.mp member with same | earlier
  · exact same ▸ excluded
  · exact zeros other earlier

theorem Chosen.of_cons {bound : byzantine.card ≤ mint.n.maxEvil}
    {extended : SortedMap UnitHash BftUnit} {candidate : UnitHash} {rest : List UnitHash}
    {head : UnitHash} (chosen : Chosen mint bound extended (candidate :: rest) head) :
    (candidate = head ∧ mint.dag.DecidedIn (mint.n.committee byzantine bound) mint.common
        (view extended) candidate true) ∨
      (mint.dag.DecidedIn (mint.n.committee byzantine bound) mint.common
        (view extended) candidate false ∧ Chosen mint bound extended rest head) := by
  obtain ⟨before, after, split, zeros, one⟩ := chosen
  cases before with
  | nil =>
      cases split
      exact Or.inl ⟨rfl, one⟩
  | cons first before =>
      cases split
      exact Or.inr ⟨zeros candidate List.mem_cons_self, before, after, rfl,
        fun other member => zeros other (List.mem_cons_of_mem candidate member), one⟩

theorem walkCandidates_spec (free : mint.CollisionFree)
    (bound : byzantine.card ≤ mint.n.maxEvil) (candidates : List UnitHash) (engine : Engine D)
    (well : WellExtended mint engine.extended)
    (sound : mint.dag.Sound (mint.n.committee byzantine bound) (view engine.extended))
    (indexed : Indexed engine.rounds engine.extended) (caches : CachesSound mint bound engine)
    (within : ∀ candidate ∈ candidates, candidate ∈ view engine.extended) :
    ∃ result votes decided, engine.walkCandidates mint candidates =
        some (result, { engine with votes := votes, decided := decided }) ∧
      CachesSound mint bound { engine with votes := votes, decided := decided } ∧
      WalkResult mint bound engine.extended candidates result := by
  induction candidates generalizing engine with
  | nil =>
      refine ⟨none, engine.votes, engine.decided, rfl, caches, ?_⟩
      rintro head ⟨before, after, impossible, _⟩
      cases before <;> cases impossible
  | cons candidate rest ih =>
      obtain ⟨body, found⟩ := within candidate List.mem_cons_self
      obtain ⟨result, votes, decided, decideEq, sound', isResult⟩ :=
        decide_spec free bound well indexed caches found
      simp only [Engine.walkCandidates, decideEq]
      cases result with
      | none =>
          refine ⟨none, votes, decided, rfl, sound', ?_⟩
          intro head chosen
          rcases chosen.of_cons with ⟨_, one⟩ | ⟨zero, _⟩
          · exact isResult true one
          · exact isResult false zero
      | some bit =>
          cases bit with
          | true =>
              refine ⟨some candidate, votes, decided, rfl, sound', [], rest, rfl, ?_, isResult⟩
              intro other impossible
              cases impossible
          | false =>
              obtain ⟨result, votes', decided', walkEq, sound'', isWalk⟩ :=
                ih { engine with votes := votes, decided := decided } well sound indexed sound'
                  (fun other member => within other (List.mem_cons_of_mem candidate member))
              refine ⟨result, votes', decided', walkEq, sound'', ?_⟩
              cases result with
              | some head => exact Chosen.cons isWalk isResult
              | none =>
                  intro head chosen
                  rcases chosen.of_cons with ⟨_, one⟩ | ⟨_, later⟩
                  · have clash := RoundDag.DecidedIn.unique mint.dag sound (fun _ h => h)
                      (fun _ h => h) one isResult
                    cases clash
                  · exact isWalk head later

theorem extendedAt_ascending (rounds : Rounds) (extended : SortedMap UnitHash BftUnit)
    (round : Nat) : (extendedAt rounds extended round).Pairwise (· < ·) := by
  unfold extendedAt roundUnits
  refine List.Pairwise.filter _ ?_
  cases rounds.get? round with
  | none => exact List.Pairwise.nil
  | some units => exact units.keys_ascending

/-- Walking the ascending candidates of a covered round finds its head. -/
theorem chosen_iff_isHead (free : mint.CollisionFree) (bound : byzantine.card ≤ mint.n.maxEvil)
    {rounds : Rounds} {extended : SortedMap UnitHash BftUnit} (well : WellExtended mint extended)
    (indexed : Indexed rounds extended) {round : Nat}
    (covered : extendedAt rounds extended (round + 3) ≠ []) (head : UnitHash) :
    Chosen mint bound extended (extendedAt rounds extended round) head ↔
      mint.dag.IsHead (mint.n.committee byzantine bound) mint.common (view extended)
        round head := by
  have listed : ∀ hash round, hash ∈ extendedAt rounds extended round ↔
      hash ∈ view extended ∧ mint.dag.round hash = round := by
    intro hash round
    rw [indexed]
    constructor
    · rintro ⟨unit, found, atRound⟩
      exact ⟨⟨unit, found⟩, by rw [well.dag_round free found, atRound]⟩
    · rintro ⟨⟨unit, found⟩, atRound⟩
      exact ⟨unit, found, by rw [← well.dag_round free found, atRound]⟩
  have ascending := extendedAt_ascending rounds extended round
  constructor
  · rintro ⟨before, after, split, zeros, one⟩
    obtain ⟨witness, witnessMember⟩ := List.exists_mem_of_ne_nil _ covered
    have headMember : head ∈ extendedAt rounds extended round := by rw [split]; simp
    obtain ⟨headSeen, headRound⟩ := (listed head round).mp headMember
    refine ⟨⟨witness, (listed witness _).mp witnessMember⟩, headSeen, headRound, one, ?_⟩
    intro candidate seen candidateRound below
    have member := (listed candidate round).mpr ⟨seen, candidateRound⟩
    rw [split] at member ascending
    rcases List.mem_append.mp member with earlier | later
    · exact zeros candidate earlier
    · exfalso
      have pairs := List.pairwise_cons.mp (List.pairwise_append.mp ascending).2.1
      rcases List.mem_cons.mp later with same | after
      · exact absurd (same ▸ below) (lt_irrefl head)
      · exact absurd (below.trans (pairs.1 candidate after)) (lt_irrefl candidate)
  · intro isHead
    obtain ⟨before, after, split⟩ :=
      List.append_of_mem ((listed head round).mpr ⟨isHead.seen, isHead.atRound⟩)
    refine ⟨before, after, split, ?_, isHead.included⟩
    intro candidate member
    have inRow : candidate ∈ extendedAt rounds extended round := by
      rw [split]
      exact List.mem_append_left _ member
    obtain ⟨seen, candidateRound⟩ := (listed candidate round).mp inRow
    rw [split] at ascending
    exact isHead.earlier candidate seen candidateRound
      ((List.pairwise_append.mp ascending).2.2 candidate member head List.mem_cons_self)

/-- `choose_head` returns the head of the round whenever the view has one. -/
theorem chooseHead_spec (free : mint.CollisionFree) (bound : byzantine.card ≤ mint.n.maxEvil)
    {engine : Engine D} (well : WellExtended mint engine.extended)
    (sound : mint.dag.Sound (mint.n.committee byzantine bound) (view engine.extended))
    (indexed : Indexed engine.rounds engine.extended) (caches : CachesSound mint bound engine)
    (round : Nat) :
    ∃ result votes decided, engine.chooseHead mint round =
        some (result, { engine with votes := votes, decided := decided }) ∧
      CachesSound mint bound { engine with votes := votes, decided := decided } ∧
      ∀ head, result = some head ↔ mint.dag.IsHead (mint.n.committee byzantine bound)
        mint.common (view engine.extended) round head := by
  unfold Engine.chooseHead
  split
  · rename_i uncovered
    refine ⟨none, engine.votes, engine.decided, rfl, caches, ?_⟩
    intro head
    constructor
    · intro impossible
      cases impossible
    · intro isHead
      obtain ⟨witness, ⟨unit, found⟩, witnessRound⟩ := isHead.covered
      rw [well.dag_round free found] at witnessRound
      have member := (indexed (round + 3) witness).mpr ⟨unit, found, witnessRound⟩
      rw [List.isEmpty_iff.mp uncovered] at member
      cases member
  · rename_i covered
    rw [List.isEmpty_iff] at covered
    have within : ∀ candidate ∈ extendedAt engine.rounds engine.extended round,
        candidate ∈ view engine.extended := by
      intro candidate member
      obtain ⟨unit, found, _⟩ := (indexed round candidate).mp member
      exact ⟨unit, found⟩
    obtain ⟨result, votes, decided, walkEq, caches', isWalk⟩ :=
      walkCandidates_spec free bound _ engine well sound indexed caches within
    refine ⟨result, votes, decided, walkEq, caches', ?_⟩
    intro head
    rw [← chosen_iff_isHead free bound well indexed covered]
    cases result with
    | none =>
        constructor
        · intro impossible
          cases impossible
        · exact fun chosen => absurd chosen (isWalk head)
    | some found =>
        constructor
        · intro same
          cases same
          exact isWalk
        · intro chosen
          have foundIs := (chosen_iff_isHead free bound well indexed covered found).mp isWalk
          have headIs := (chosen_iff_isHead free bound well indexed covered head).mp chosen
          rw [foundIs.unique mint.dag sound mint.common_three (well.closed free)
            (well.closed free) (fun _ h => h) (fun _ h => h) headIs]

end Choice

end Picomint.Bft
