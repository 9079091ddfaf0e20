/-
No event stops a process, however many creators are Byzantine.

The lookups of votes and batches only ever meet extended units, whose rounds
are gap-free; a head stands at the round being decided, above everything
emitted so far; a new own unit stands above every stored own unit.  No count
of honest creators enters.
-/

import Picomint.Bft.Restarts

namespace Picomint.Bft

open VirtualVoting BreadthFirst Engine

variable {D : Type}

/-- The invariant of an engine over its tables that asks nothing of the
creators. -/
structure Consistent (mint : Mint D) (tables : BftTables D) (engine : Engine D) : Prop where
  valid : TablesValid mint tables
  grounded : Grounded tables engine.rounds engine.extended
  complete : Frontier tables engine.extended fun _ => False
  votes : VotesSound mint engine.votes
  emitted : ∀ hash, engine.emitted.contains hash = true →
    ∃ unit, engine.extended.get? hash = some unit ∧ unit.round < engine.nextDecideRound
  cursor : engine.nextDecideRound = 0 ∨ ∃ hash unit, engine.extended.get? hash = some unit ∧
    unit.round = engine.nextDecideRound + 2

/-! ### Decisions -/

section Deciding

variable {mint : Mint D}

theorem faultless (mint : Mint D) : (∅ : Finset NodeId).card ≤ mint.n.maxEvil :=
  Nat.zero_le _

theorem decide_total (free : mint.CollisionFree) {engine : Engine D}
    (well : WellExtended mint engine.extended)
    (indexed : Indexed engine.rounds engine.extended) (memo : VotesSound mint engine.votes)
    {candidate : UnitHash} {body : BftUnit} (found : engine.extended.get? candidate = some body) :
    ∃ result votes decided, engine.decide mint candidate =
        some (result, { engine with votes := votes, decided := decided }) ∧
      VotesSound mint votes := by
  unfold Engine.decide
  cases cached : engine.decided.get? candidate with
  | some decision => exact ⟨some decision.1, engine.votes, engine.decided, rfl, memo⟩
  | none =>
      have enough : ∀ hash ∈ view engine.extended, mint.dag.round hash <
          body.round + 2 + (engine.rounds.lastKey?.getD 0 + 1) := by
        rintro hash ⟨unit, unitAt⟩
        have within := indexed.within_last unitAt
        unfold stepBound at within
        rw [well.dag_round free unitAt]
        omega
      obtain ⟨result, votes, scanned, votesSound, _⟩ :=
        decideFrom_spec free (faultless mint) well indexed found
          (engine.rounds.lastKey?.getD 0 + 1) (body.round + 2) (Nat.le_refl _) enough memo
      have scan : decideFrom mint engine.rounds engine.extended candidate body.round
          (stepBound engine.rounds) (body.round + 2) engine.votes = some (result, votes) := scanned
      simp only [found, scan]
      cases result with
      | none => exact ⟨none, votes, engine.decided, rfl, votesSound⟩
      | some decision =>
          exact ⟨some decision.1, votes, engine.decided.insert candidate decision, rfl, votesSound⟩

theorem walkCandidates_total (free : mint.CollisionFree) (candidates : List UnitHash)
    (engine : Engine D) (well : WellExtended mint engine.extended)
    (indexed : Indexed engine.rounds engine.extended) (memo : VotesSound mint engine.votes)
    (within : ∀ candidate ∈ candidates, candidate ∈ view engine.extended) :
    ∃ result votes decided, engine.walkCandidates mint candidates =
        some (result, { engine with votes := votes, decided := decided }) ∧
      VotesSound mint votes ∧ ∀ head, result = some head → head ∈ candidates := by
  induction candidates generalizing engine with
  | nil =>
      refine ⟨none, engine.votes, engine.decided, rfl, memo, ?_⟩
      intro head impossible
      cases impossible
  | cons candidate rest ih =>
      obtain ⟨body, found⟩ := within candidate List.mem_cons_self
      obtain ⟨result, votes, decided, decideEq, memo'⟩ := decide_total free well indexed memo found
      unfold walkCandidates
      rw [decideEq]
      cases result with
      | none =>
          refine ⟨none, votes, decided, rfl, memo', ?_⟩
          intro head impossible
          cases impossible
      | some bit =>
          cases bit with
          | true =>
              refine ⟨some candidate, votes, decided, rfl, memo', ?_⟩
              intro head isHead
              cases isHead
              exact List.mem_cons_self
          | false =>
              obtain ⟨result, votes', decided', walkEq, memo'', among⟩ :=
                ih { engine with votes := votes, decided := decided } well indexed memo'
                  (fun other member => within other (List.mem_cons_of_mem candidate member))
              exact ⟨result, votes', decided', walkEq, memo'',
                fun head isHead => List.mem_cons_of_mem candidate (among head isHead)⟩

theorem chooseHead_total (free : mint.CollisionFree) {engine : Engine D}
    (well : WellExtended mint engine.extended)
    (indexed : Indexed engine.rounds engine.extended) (memo : VotesSound mint engine.votes)
    (round : Nat) :
    ∃ result votes decided, engine.chooseHead mint round =
        some (result, { engine with votes := votes, decided := decided }) ∧
      VotesSound mint votes ∧ ∀ head, result = some head →
        (∃ unit, engine.extended.get? head = some unit ∧ unit.round = round) ∧
          ∃ above unit, engine.extended.get? above = some unit ∧ unit.round = round + 3 := by
  unfold chooseHead
  split
  · refine ⟨none, engine.votes, engine.decided, rfl, memo, ?_⟩
    intro head impossible
    cases impossible
  · rename_i covered
    obtain ⟨above, listed⟩ := List.exists_mem_of_ne_nil _ (mt List.isEmpty_iff.mpr covered)
    obtain ⟨result, votes, decided, walkEq, memo', among⟩ :=
      walkCandidates_total free (extendedAt engine.rounds engine.extended round) engine well indexed
        memo
        (fun candidate member => by
          obtain ⟨unit, found, _⟩ := (indexed round candidate).mp member
          exact ⟨unit, found⟩)
    refine ⟨result, votes, decided, walkEq, memo', ?_⟩
    intro head isHead
    exact ⟨(indexed round head).mp (among head isHead), above, (indexed _ above).mp listed⟩

end Deciding

/-! ### The drain loop -/

section Draining

variable {setup : Setup D} {tables : BftTables D}

/-- What a batch adds to the emitted marks sits at or below its head. -/
theorem search_below {mint : Mint D} (free : mint.CollisionFree)
    {extended : SortedMap UnitHash BftUnit} (well : WellExtended mint extended)
    {before after : SortedSet UnitHash} {head : UnitHash} {unit : BftUnit}
    (found : extended.get? head = some unit) (unmarked : before.contains head = false)
    {steps : Nat} {batch : List UnitHash}
    (searched : search mint.next steps (before.insert head ⟨⟩) [head] [] = some (batch, after)) :
    (∀ hash ∈ batch, ∃ body, extended.get? hash = some body ∧ body.round ≤ unit.round) ∧
      ∀ hash, after.contains hash = true ↔ before.contains hash = true ∨ hash ∈ batch := by
  have graded := well.graded free
  have inView : head ∈ view extended := ⟨unit, found⟩
  have progress := search_progress graded
    (Progress.start mint.next mint.dag.round inView unmarked) searched
  have single := Batches.root unmarked searched Batches.done
  constructor
  · intro hash member
    obtain ⟨body, bodyAt⟩ := progress.within hash (List.mem_append_left [] member)
    obtain ⟨root, isRoot, below⟩ := single.rank_le graded
      (fun other member => List.mem_singleton.mp member ▸ inView) hash
      (List.mem_append_left [] (List.mem_reverse.mpr member))
    rw [List.mem_singleton.mp isRoot, well.dag_round free found, well.dag_round free bodyAt] at below
    exact ⟨body, bodyAt, below⟩
  · intro hash
    rw [progress.marks, List.append_nil]

/-- One iteration of the loop finds no head, or emits the batch of one. -/
theorem drain_step (free : setup.CollisionFree) {engine : Engine D}
    (consistent : Consistent setup.toMint tables engine) :
    (∃ after, engine.chooseHead setup.toMint engine.nextDecideRound = some (none, after) ∧
      Consistent setup.toMint tables after) ∨
    ∃ head chosen batch marked after,
      engine.chooseHead setup.toMint engine.nextDecideRound = some (some head, chosen) ∧
      chosen.bfsBatch head = some (batch, marked) ∧
      marked.emitBatch setup tables batch = some after ∧
      Consistent setup.toMint tables { after with nextDecideRound := after.nextDecideRound + 1 } ∧
      after.nextDecideRound = engine.nextDecideRound ∧ after.rounds = engine.rounds ∧
      ∃ above unit, engine.extended.get? above = some unit ∧
        unit.round = engine.nextDecideRound + 3 := by
  have well := consistent.grounded.wellExtended consistent.valid
  obtain ⟨result, votes, decided, chooseEq, memo, covered⟩ := chooseHead_total free well
    consistent.grounded.indexed consistent.votes engine.nextDecideRound
  cases result with
  | none =>
      exact Or.inl ⟨_, chooseEq, consistent.valid, consistent.grounded, consistent.complete, memo,
        consistent.emitted, consistent.cursor⟩
  | some head =>
      refine Or.inr ?_
      obtain ⟨⟨unit, found, atRound⟩, above⟩ := covered head rfl
      -- emitted units lie below the round the head stands at
      have unmarked : engine.emitted.contains head = false := by
        cases marked : engine.emitted.contains head with
        | false => rfl
        | true =>
            obtain ⟨other, otherAt, below⟩ := consistent.emitted head marked
            rw [found] at otherAt
            cases otherAt
            omega
      obtain ⟨batch, marks, batchEq, searched⟩ := bfsBatch_spec free
        { engine with votes := votes, decided := decided } well ⟨unit, found⟩ unmarked
      obtain ⟨belowHead, marked⟩ := search_below free well found unmarked searched
      obtain ⟨own, emitEq⟩ := emitBatch_spec free consistent.valid batch.reverse { engine with
          votes := votes, decided := decided, emitted := marks } consistent.grounded.stored
        (fun hash member => by
          obtain ⟨body, bodyAt, _⟩ := belowHead hash (List.mem_reverse.mp member)
          exact ⟨body, bodyAt⟩)
      refine ⟨head, _, _, _, _, chooseEq, batchEq, emitEq, ⟨consistent.valid, consistent.grounded,
        consistent.complete, memo, ?_, Or.inr above⟩, rfl, rfl, above⟩
      intro hash isMarked
      rcases (marked hash).mp isMarked with before | new
      · obtain ⟨body, bodyAt, below⟩ := consistent.emitted hash before
        exact ⟨body, bodyAt, below.trans (Nat.lt_succ_self _)⟩
      · obtain ⟨body, bodyAt, below⟩ := belowHead hash new
        exact ⟨body, bodyAt, by rw [← atRound]; exact Nat.lt_succ_of_le below⟩

theorem drainHeads_total (free : setup.CollisionFree) (steps : Nat) (engine : Engine D)
    (consistent : Consistent setup.toMint tables engine)
    (enough : stepBound engine.rounds ≤ steps + engine.nextDecideRound + 1) :
    ∃ drained, engine.drainHeads setup tables (steps + 1) = some drained ∧
      Consistent setup.toMint tables drained := by
  induction steps generalizing engine with
  | zero =>
      rcases drain_step free consistent with
        ⟨after, chooseEq, consistent'⟩ | ⟨_, _, _, _, _, _, _, _, _, _, _, _, unit, found, above⟩
      · exact ⟨after, by simp only [drainHeads, chooseEq], consistent'⟩
      · have within := consistent.grounded.indexed.within_last found
        omega
  | succ steps ih =>
      unfold drainHeads
      rcases drain_step free consistent with ⟨after, chooseEq, consistent'⟩ |
        ⟨_, _, _, _, after, chooseEq, batchEq, emitEq, consistent', sameCursor, sameRounds, _⟩
      · exact ⟨after, by simp only [chooseEq], consistent'⟩
      · simp only [chooseEq, batchEq, emitEq]
        refine ih _ consistent' ?_
        change stepBound after.rounds ≤ steps + (after.nextDecideRound + 1) + 1
        rw [sameCursor, sameRounds]
        omega

theorem runExtender_total (free : setup.CollisionFree) {engine : Engine D}
    (consistent : Consistent setup.toMint tables engine) :
    ∃ drained, engine.runExtender setup tables = some drained ∧
      Consistent setup.toMint tables drained :=
  drainHeads_total free (engine.rounds.lastKey?.getD 0 + 1) engine consistent
    (by unfold stepBound; omega)

end Draining

/-! ### Stored units -/

section Storing

variable {setup : Setup D} {tables : BftTables D} {engine : Engine D}

theorem Consistent.start (mint : Mint D) :
    Consistent mint BftTables.empty (Engine.new : Engine D) := by
  refine ⟨?_, ⟨?_, ?_, ?_⟩, ?_, VotesSound.empty mint, ?_, Or.inl rfl⟩
  · refine ⟨?_, ?_, ?_, ?_⟩ <;> intro hash unit impossible <;> cases impossible
  · intro round hash
    constructor
    · intro impossible
      cases impossible
    · rintro ⟨unit, impossible, _⟩
      cases impossible
  · intro hash unit impossible
    cases impossible
  · intro hash unit impossible
    cases impossible
  · intro hash unit impossible
    cases impossible
  · intro hash impossible
    cases impossible

/-- Neither the sent messages nor the own bookkeeping enter the invariant. -/
theorem Consistent.unrelated {mint : Mint D} (consistent : Consistent mint tables engine)
    (own : SortedSet Nat) (top : Option (Nat × UnitHash)) (requests : SortedMap UnitHash Nat)
    (ordered : List (Nat × NodeId × D)) (network : List (Recipient × Message D)) :
    Consistent mint tables { engine with
      unorderedOwnData := own
      ownTop := top
      requestSentAt := requests
      orderedTx := ordered
      network := network } :=
  ⟨consistent.valid, consistent.grounded, consistent.complete, consistent.votes,
    consistent.emitted, consistent.cursor⟩

/-- The cascade after a stored unit hands a consistent engine to the
extender. -/
theorem Consistent.extend (consistent : Consistent setup.toMint tables engine)
    {ev : UnitEnvelope D} (checked : Checked setup.toMint ev)
    (absent : tables.unit.get? (setup.unitHash ev.unit) = none) (own : SortedSet Nat) :
    Consistent setup.toMint (tables.insert (setup.unitHash ev.unit) ev)
      (tryExtend (tables.insert (setup.unitHash ev.unit) ev)
        { stored setup engine ev with unorderedOwnData := own } (setup.unitHash ev.unit)) := by
  obtain ⟨extended, extendEq, grounded, keeps, complete⟩ := tryExtend_spec
    (tables.insert (setup.unitHash ev.unit) ev) (fun _ => False)
    { stored setup engine ev with unorderedOwnData := own } (consistent.grounded.store ev absent)
    (setup.unitHash ev.unit) (consistent.complete.store ev (setup.unitHash ev.unit))
  rw [extendEq]
  refine ⟨consistent.valid.insert checked, grounded, complete, consistent.votes, ?_, ?_⟩
  · intro hash marked
    obtain ⟨unit, found, below⟩ := consistent.emitted hash marked
    exact ⟨unit, keeps hash unit found, below⟩
  · refine consistent.cursor.imp_right ?_
    rintro ⟨hash, unit, found, above⟩
    exact ⟨hash, unit, keeps hash unit found, above⟩

/-- Extending and draining after a stored unit goes through. -/
theorem Consistent.advance (free : setup.CollisionFree)
    (consistent : Consistent setup.toMint tables engine) {ev : UnitEnvelope D}
    (checked : Checked setup.toMint ev) (absent : tables.unit.get? (setup.unitHash ev.unit) = none)
    (own : SortedSet Nat) :
    ∃ engine', runExtender setup (tables.insert (setup.unitHash ev.unit) ev)
        (tryExtend (tables.insert (setup.unitHash ev.unit) ev)
          { stored setup engine ev with unorderedOwnData := own } (setup.unitHash ev.unit)) =
          some engine' ∧
      Consistent setup.toMint (tables.insert (setup.unitHash ev.unit) ev) engine' :=
  runExtender_total free (consistent.extend checked absent own)

theorem rebuild_consistent (valid : TablesValid setup.toMint tables) :
    Consistent setup.toMint tables (rebuild setup tables) := by
  obtain ⟨rounds, own, top, extended, rebuildEq, grounded, complete, _⟩ := rebuild_spec valid
  rw [rebuildEq]
  refine ⟨valid, grounded, complete, VotesSound.empty setup.toMint, ?_, Or.inl rfl⟩
  intro hash impossible
  cases impossible

theorem replay_total (free : setup.CollisionFree) (valid : TablesValid setup.toMint tables) :
    ∃ engine, replay setup tables = some engine ∧ Consistent setup.toMint tables engine :=
  runExtender_total free (rebuild_consistent valid)

/-- A stored row answers a request. -/
theorem envelope_total {mint : Mint D} (valid : TablesValid mint tables) (hash : UnitHash) :
    envelope tables hash = some ((tables.unit.get? hash).bind fun unit =>
      (tables.unitData.get? hash).bind fun data =>
        (tables.unitSignature.get? hash).map fun signature => { unit, data, signature }) := by
  unfold envelope
  cases unitAt : tables.unit.get? hash with
  | none => rfl
  | some unit =>
      obtain ⟨data, dataAt, _⟩ := valid.payload hash unit unitAt
      obtain ⟨signature, signatureAt, _⟩ := valid.signed hash unit unitAt
      rw [dataAt, signatureAt]
      rfl

theorem handleMessage_total (free : setup.CollisionFree)
    (consistent : Consistent setup.toMint tables engine) (now : Nat) (sender : NodeId)
    (message : Message D) :
    ∃ outcome engine' tables', handleMessage setup now tables engine sender message =
        some (outcome, engine', tables') ∧ Consistent setup.toMint tables' engine' := by
  cases message with
  | request hash =>
      simp only [handleMessage, handleRequest]
      rw [envelope_total consistent.valid]
      cases (tables.unit.get? hash).bind fun unit =>
          (tables.unitData.get? hash).bind fun data =>
            (tables.unitSignature.get? hash).map fun signature =>
              ({ unit, data, signature } : UnitEnvelope D) with
      | none => exact ⟨_, _, _, rfl, consistent⟩
      | some ev => exact ⟨_, _, _, rfl, consistent.unrelated _ _ _ _ _⟩
  | unit ev =>
      simp only [handleMessage]
      cases validated : validateUnit setup.toMint ev with
      | error message => exact ⟨_, _, _, rfl, consistent⟩
      | ok done =>
          have checked := (validateUnit_ok ev).mp validated
          obtain ⟨requests, messages, cascadedEq, _⟩ :=
            cascadeParents_requested now tables engine sender ev.unit
          have asked : Consistent setup.toMint tables
              (cascadeParents now tables engine sender ev.unit) :=
            cascadedEq ▸ consistent.unrelated _ _ _ _ _
          simp only
          split
          · exact ⟨_, _, _, rfl, asked⟩
          · cases inserted : storeUnit setup tables
                (cascadeParents now tables engine sender ev.unit) ev (setup.unitHash ev.unit) with
            | error message => exact ⟨_, _, _, rfl, asked⟩
            | ok result =>
                obtain ⟨after, grown⟩ := result
                obtain ⟨absent, rfl, rfl⟩ := storeUnit_ok.mp inserted
                obtain ⟨engine', drained, consistent'⟩ := asked.advance free checked absent
                  (cascadeParents now tables engine sender ev.unit).unorderedOwnData
                have drained' : runExtender setup (tables.insert (setup.unitHash ev.unit) ev)
                    (tryExtend (tables.insert (setup.unitHash ev.unit) ev)
                      (stored setup (cascadeParents now tables engine sender ev.unit) ev)
                      (setup.unitHash ev.unit)) = some engine' := drained
                exact ⟨.ok ⟨⟩, engine', _, by simp only [drained'], consistent'⟩

/-- A delivered unit ends up stored, and no other unit does. -/
theorem handleMessage_stores (free : setup.CollisionFree)
    (consistent : Consistent setup.toMint tables engine) {ev : UnitEnvelope D}
    (checked : Checked setup.toMint ev) {now : Nat} {node : NodeId}
    {outcome : Except String Unit} {engine' : Engine D} {tables' : BftTables D}
    (handled : handleMessage setup now tables engine node (.unit ev) =
      some (outcome, engine', tables')) :
    tables'.unit.get? (setup.unitHash ev.unit) = some ev.unit ∧
      (∀ hash unit, tables.unit.get? hash = some unit → tables'.unit.get? hash = some unit) ∧
      ∀ hash unit, tables'.unit.get? hash = some unit →
        unit = ev.unit ∨ tables.unit.get? hash = some unit := by
  obtain ⟨requests, messages, cascadeEq, _⟩ :=
    cascadeParents_requested now tables engine node ev.unit
  simp only [handleMessage, (validateUnit_ok ev).mpr checked, cascadeEq] at handled
  split at handled
  · rename_i listed
    cases handled
    obtain ⟨unit, stored, _⟩ := (consistent.grounded.index _ _).mp (List.contains_iff_mem.mp listed)
    have same : unit = ev.unit := free.unitHash (consistent.valid.hashed _ unit stored)
    exact ⟨same ▸ stored, fun _ _ found => found, fun _ _ found => Or.inr found⟩
  · rename_i notListed
    have absent := absent_of_not_listed free.unitHash consistent.valid consistent.grounded
      (fun listed => notListed (List.contains_iff_mem.mpr listed))
    rw [storeUnit_ok.mpr ⟨absent, rfl, rfl⟩] at handled
    simp only at handled
    split at handled
    · cases handled
    · cases handled
      refine ⟨SortedMap.get?_insert_self _ _ _, ?_, ?_⟩
      · intro hash unit found
        rw [BftTables.insert, SortedMap.get?_insert_of_ne, found]
        intro same
        rw [same, found] at absent
        cases absent
      · intro hash unit found
        rw [BftTables.insert, SortedMap.get?_insert] at found
        split at found
        · exact Or.inl (Option.some.inj found).symm
        · exact Or.inr found

end Storing

/-! ### Own units -/

section Creating

variable {setup : Setup D} {tables : BftTables D} {engine : Engine D}

theorem TopOf.below_next {present : UnitHash → BftUnit → Prop}
    (isTop : TopOf setup.id present engine.ownTop) {hash : UnitHash} {unit : BftUnit}
    (isPresent : present hash unit) (own : unit.creator = setup.id) :
    unit.round < engine.nextRound := by
  unfold nextRound
  cases topEq : engine.ownTop with
  | none =>
      rw [topEq] at isTop
      exact absurd own (isTop hash unit isPresent)
  | some top =>
      rw [topEq] at isTop
      exact Nat.lt_succ_of_le (isTop.2 hash unit isPresent own)

theorem parentsFor_admits (valid : TablesValid setup.toMint tables)
    (grounded : Grounded tables engine.rounds engine.extended)
    (member : setup.id ∈ setup.n.nodeIds) {round : Nat} {parents : SortedMap NodeId UnitHash}
    {data : Option Hash} (chosen : engine.parentsFor setup round = some parents) :
    setup.Admits ⟨round, setup.id, parents, data⟩ := by
  cases round with
  | zero =>
      cases chosen
      refine ⟨member, fun _ => rfl, fun above => absurd rfl above, ?_⟩
      intro creator impossible
      cases impossible
  | succ below =>
      obtain ⟨_, _, size, _⟩ := parentsFor_ok.mp chosen
      refine ⟨member, fun impossible => ?_, fun _ => size, ?_⟩
      · cases impossible
      · intro creator named
        obtain ⟨hash, found⟩ := (parents.mem_keys creator).mp named
        obtain ⟨unit, unitAt, isCreator, _⟩ := parentsFor_named chosen found
        exact isCreator ▸
          (valid.admitted hash unit (grounded.stored hash unit unitAt)).creator

theorem persistUnit_consistent (free : setup.CollisionFree)
    (consistent : Consistent setup.toMint tables engine) {data : List D}
    {built : Option (UnitEnvelope D)} {engine' : Engine D} {tables' : BftTables D}
    (persisted : persistUnit setup data tables engine = some (built, engine', tables')) :
    Consistent setup.toMint tables' engine' := by
  rcases persistUnit_cases persisted with
    ⟨_, rfl, rfl⟩ | ⟨ev, _, own, _, _, _, _, checked, absent, rfl, drained, _⟩
  · exact consistent
  · obtain ⟨advanced, drainedEq, consistent'⟩ := consistent.advance free checked absent own
    rw [drainedEq] at drained
    cases drained
    exact consistent'

/-- What `try_create_unit` stores goes in. -/
theorem persistUnit_total (free : setup.CollisionFree) (member : setup.id ∈ setup.n.nodeIds)
    (signs : ∀ unit : BftUnit, unit.creator = setup.id →
      setup.verify setup.session unit (setup.sign setup.session unit) setup.id = true)
    (consistent : Consistent setup.toMint tables engine)
    (isTop : TopOf setup.id (fun hash unit => tables.unit.get? hash = some unit) engine.ownTop)
    (data : List D) :
    ∃ built engine' tables', persistUnit setup data tables engine =
      some (built, engine', tables') := by
  unfold persistUnit
  cases chosen : engine.parentsFor setup engine.nextRound with
  | none => exact ⟨none, engine, tables, rfl⟩
  | some parents =>
      by_cases idle : (data.isEmpty && !engine.hasUnorderedOwnData) = true
      · exact ⟨none, engine, tables, by simp only [idle, if_true]⟩
      · let ev : UnitEnvelope D :=
          { unit := ⟨engine.nextRound, setup.id, parents, setup.commitment data⟩
            data := data
            signature := setup.sign setup.session
              ⟨engine.nextRound, setup.id, parents, setup.commitment data⟩ }
        have checked : Checked setup.toMint ev :=
          ⟨parentsFor_admits consistent.valid consistent.grounded member chosen, signs _ rfl, rfl⟩
        have absent : tables.unit.get? (setup.unitHash ev.unit) = none := by
          cases stored : tables.unit.get? (setup.unitHash ev.unit) with
          | none => rfl
          | some other =>
              have same : other = ev.unit :=
                free.unitHash (consistent.valid.hashed _ other stored)
              have below : other.round < engine.nextRound :=
                isTop.below_next stored (congrArg BftUnit.creator same)
              rw [same] at below
              exact absurd below (lt_irrefl _)
        have inserted : insertUnit setup tables engine ev (setup.unitHash ev.unit) =
            .ok (stored setup engine ev, tables.insert (setup.unitHash ev.unit) ev) :=
          insertUnit_ok.mpr ⟨checked, absent, rfl, rfl⟩
        obtain ⟨engine', drained, _⟩ := consistent.advance free checked absent
          (if ev.unit.data.isSome then engine.unorderedOwnData.insert ev.unit.round ⟨⟩
            else engine.unorderedOwnData)
        -- the branch on the payload is taken inside the update of the engine
        have extended : runExtender setup (tables.insert (setup.unitHash ev.unit) ev)
            (tryExtend (tables.insert (setup.unitHash ev.unit) ev)
              (if ev.unit.data.isSome then { stored setup engine ev with
                  unorderedOwnData := (stored setup engine ev).unorderedOwnData.insert
                    ev.unit.round ⟨⟩ }
                else stored setup engine ev) (setup.unitHash ev.unit)) = some engine' := by
          cases hasData : ev.unit.data.isSome with
          | true =>
              rw [hasData] at drained
              exact drained
          | false =>
              rw [hasData] at drained
              exact drained
        refine ⟨some ev, engine', tables.insert (setup.unitHash ev.unit) ev, ?_⟩
        simp only [ev] at inserted extended ⊢
        simp only [idle, if_false, inserted, extended, Bool.false_eq_true]

theorem broadcastAntiEntropy_total (valid : TablesValid setup.toMint tables)
    (isTop : TopOf setup.id (fun hash unit => tables.unit.get? hash = some unit) engine.ownTop) :
    ∃ after, broadcastAntiEntropy tables engine = some after := by
  unfold broadcastAntiEntropy
  cases topEq : engine.ownTop with
  | none => exact ⟨engine, rfl⟩
  | some top =>
      rw [topEq] at isTop
      obtain ⟨⟨unit, stored, _⟩, _⟩ := isTop
      obtain ⟨data, dataAt, _⟩ := valid.payload top.2 unit stored
      obtain ⟨signature, signatureAt, _⟩ := valid.signed top.2 unit stored
      refine ⟨engine.send .everyone (.unit { unit, data, signature }), ?_⟩
      simp only [envelope, stored, dataAt, signatureAt]

end Creating

/-! ### The process -/

structure Standing (setup : Setup D) (process : Process D) : Prop where
  engine : Consistent setup.toMint process.committed process.engine
  durable : TablesValid setup.toMint process.durable
  top : TopOf setup.id (fun hash unit => process.committed.unit.get? hash = some unit)
    process.engine.ownTop

section Stepping

variable {setup : Setup D} {process : Process D}

theorem Standing.start (setup : Setup D) : Standing setup Process.start := by
  refine ⟨Consistent.start setup.toMint, TablesValid.start setup, ?_⟩
  intro hash unit impossible
  cases impossible

theorem Standing.restart (free : setup.CollisionFree) (process : Process D)
    (durable : TablesValid setup.toMint process.durable) (sent : List (Recipient × Message D)) :
    ∃ next, process.restart setup sent = some next ∧ Standing setup next := by
  obtain ⟨engine, replayed, consistent⟩ := replay_total free durable
  obtain ⟨_, isTop, _⟩ := replay_frame durable replayed
  refine ⟨{ process with engine, committed := process.durable, sent }, ?_, consistent, durable,
    isTop⟩
  unfold Process.restart
  rw [replayed]

theorem Standing.receive (free : setup.CollisionFree) (standing : Standing setup process)
    (now : Nat) (sender : NodeId) (message : Message D) :
    ∃ outcome engine tables, handleMessage setup now process.committed process.engine sender
        message = some (outcome, engine, tables) ∧
      Standing setup { process with engine := engine, committed := tables } := by
  obtain ⟨outcome, engine, tables, handled, consistent⟩ :=
    handleMessage_total free standing.engine now sender message
  refine ⟨outcome, engine, tables, handled, consistent, standing.durable, ?_⟩
  rcases handleMessage_cases handled with
    ⟨rfl, requests, messages, rfl, _⟩ | ⟨ev, _, rfl, checked, absent, _, rfl, requested, drained⟩
  · exact standing.top
  · obtain ⟨requests, messages, rfl, _⟩ := requested
    exact (stored_frame { process.engine with
        requestSentAt := requests
        network := process.engine.network ++ messages }
      process.engine.unorderedOwnData standing.engine.valid standing.engine.grounded standing.top
      checked absent drained).2.2.1

theorem Standing.persist (free : setup.CollisionFree) (standing : Standing setup process)
    {data : List D} {built : Option (UnitEnvelope D)} {engine : Engine D} {tables : BftTables D}
    (persisted : persistUnit setup data process.committed process.engine =
      some (built, engine, tables)) :
    Consistent setup.toMint tables engine ∧
      TopOf setup.id (fun hash unit => tables.unit.get? hash = some unit) engine.ownTop := by
  refine ⟨persistUnit_consistent free standing.engine persisted, ?_⟩
  rcases persistUnit_cases persisted with
    ⟨_, rfl, rfl⟩ | ⟨_, _, own, _, _, _, _, checked, absent, rfl, drained, _⟩
  · exact standing.top
  · exact (stored_frame process.engine own standing.engine.valid standing.engine.grounded
      standing.top checked absent drained).2.2.1

/-- What a creation ends in, once it returns. -/
theorem Standing.create (free : setup.CollisionFree) (standing : Standing setup process)
    {data : List D} {built : Option (UnitEnvelope D)} {engine : Engine D} {tables : BftTables D}
    (persisted : persistUnit setup data process.committed process.engine =
      some (built, engine, tables)) :
    (∃ next, process.step setup (.create data) = some next ∧ Standing setup next) ∧
      ∃ next, process.step setup (.interruptCreate data) = some next ∧ Standing setup next := by
  obtain ⟨consistent, isTop⟩ := standing.persist free persisted
  simp only [Process.step, tryCreateUnit, persisted]
  cases built with
  | none =>
      exact ⟨⟨_, rfl, consistent, standing.durable, isTop⟩,
        Standing.restart free process standing.durable _⟩
  | some ev =>
      exact ⟨⟨_, rfl, consistent.unrelated _ _ _ _ _, consistent.valid, isTop⟩,
        Standing.restart free { process with
          committed := tables, durable := tables, created := process.created ++ [ev] }
          consistent.valid _⟩

theorem Standing.antiEntropy (standing : Standing setup process) :
    ∃ next, process.step setup .antiEntropy = some next ∧ Standing setup next := by
  obtain ⟨engine, broadcast⟩ := broadcastAntiEntropy_total standing.engine.valid standing.top
  obtain ⟨requests, messages, sameEngine, _⟩ := broadcastAntiEntropy_served broadcast
  refine ⟨{ process with engine }, by simp only [Process.step, broadcast], ?_,
    standing.durable, ?_⟩
  · rw [sameEngine]
    exact standing.engine.unrelated _ _ _ _ _
  · rw [sameEngine]
    exact standing.top

/-- Every event but a creation goes through. -/
theorem Standing.creation_or (free : setup.CollisionFree) (standing : Standing setup process)
    (event : Event D) :
    (∃ data, event = .create data ∨ event = .interruptCreate data) ∨
      ∃ next, process.step setup event = some next ∧ Standing setup next := by
  cases event with
  | receive now sender message =>
      obtain ⟨outcome, engine, tables, handled, standing'⟩ :=
        standing.receive free now sender message
      exact Or.inr ⟨_, by simp only [Process.step, handled], standing'⟩
  | interrupt now sender ev count =>
      refine Or.inr ?_
      simp only [Process.step]
      cases validateUnit setup.toMint ev with
      | error message => exact Standing.restart free process standing.durable _
      | ok done => exact Standing.restart free process standing.durable _
  | create data => exact Or.inl ⟨data, Or.inl rfl⟩
  | interruptCreate data => exact Or.inl ⟨data, Or.inr rfl⟩
  | antiEntropy => exact Or.inr standing.antiEntropy
  | flush => exact Or.inr ⟨_, rfl, standing.engine, standing.engine.valid, standing.top⟩
  | crash => exact Or.inr (Standing.restart free process standing.durable _)

theorem Standing.step (free : setup.CollisionFree) (standing : Standing setup process)
    {event : Event D} {next : Process D} (stepped : process.step setup event = some next) :
    Standing setup next := by
  have same : (∃ reached, process.step setup event = some reached ∧ Standing setup reached) →
      Standing setup next := by
    rintro ⟨reached, reachedEq, standing'⟩
    rw [stepped] at reachedEq
    cases reachedEq
    exact standing'
  rcases standing.creation_or free event with ⟨data, rfl | rfl⟩ | goes
  · cases persisted : persistUnit setup data process.committed process.engine with
    | none =>
        simp only [Process.step, tryCreateUnit, persisted] at stepped
        cases stepped
    | some result => exact same (standing.create free persisted).1
  · cases persisted : persistUnit setup data process.committed process.engine with
    | none =>
        simp only [Process.step, persisted] at stepped
        cases stepped
    | some result => exact same (standing.create free persisted).2
  · exact same goes

/-- An event goes through when the own node is a member that signs for
itself. -/
theorem Standing.progress (free : setup.CollisionFree) (member : setup.id ∈ setup.n.nodeIds)
    (signs : ∀ unit : BftUnit, unit.creator = setup.id →
      setup.verify setup.session unit (setup.sign setup.session unit) setup.id = true)
    (standing : Standing setup process) (event : Event D) :
    ∃ next, process.step setup event = some next := by
  rcases standing.creation_or free event with ⟨data, creation⟩ | ⟨next, stepped, _⟩
  · obtain ⟨built, engine, tables, persisted⟩ :=
      persistUnit_total free member signs standing.engine standing.top data
    obtain ⟨⟨created, createdEq, _⟩, interrupted, interruptedEq, _⟩ :=
      standing.create free persisted
    rcases creation with rfl | rfl
    · exact ⟨created, createdEq⟩
    · exact ⟨interrupted, interruptedEq⟩
  · exact ⟨next, stepped⟩

theorem Runs.standing (free : setup.CollisionFree) {guard : Process D → Event D → Prop}
    (runs : Runs setup guard process) : Standing setup process := by
  induction runs with
  | start => exact Standing.start setup
  | step _ _ stepped ih => exact ih.step free stepped

end Stepping

end Picomint.Bft
