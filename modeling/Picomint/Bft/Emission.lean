/-
What the extender sends: the drain loop against batches from the round heads.

`Emitted` relates an engine to the heads chosen so far and to the order of the
units emitted from them.  `run_extender` extends both until the view has no
further head, whatever the caches hold.
-/

import Picomint.Bft.Engine
import Picomint.Bft.Heads

namespace Picomint.Bft

open VirtualVoting BreadthFirst

variable {D : Type}

/-! ### Stored rows -/

/-- Every stored unit was admitted under its own hash, next to a payload and a
signature that match it. -/
structure TablesValid (mint : Mint D) (tables : BftTables D) : Prop where
  hashed : ∀ hash unit, tables.unit.get? hash = some unit → mint.unitHash unit = hash
  admitted : ∀ hash unit, tables.unit.get? hash = some unit → mint.Admits unit
  payload : ∀ hash unit, tables.unit.get? hash = some unit →
    ∃ data, tables.unitData.get? hash = some data ∧ unit.data = mint.commitment data
  signed : ∀ hash unit, tables.unit.get? hash = some unit →
    ∃ signature, tables.unitSignature.get? hash = some signature ∧
      mint.verify mint.session unit signature unit.creator = true

/-- What the extender leaves alone. -/
structure SameIndexes (before after : Engine D) : Prop where
  rounds : after.rounds = before.rounds
  extended : after.extended = before.extended
  ownTop : after.ownTop = before.ownTop
  requestSentAt : after.requestSentAt = before.requestSentAt
  network : after.network = before.network

theorem SameIndexes.refl (engine : Engine D) : SameIndexes engine engine :=
  ⟨rfl, rfl, rfl, rfl, rfl⟩

theorem SameIndexes.trans {first second third : Engine D} (left : SameIndexes first second)
    (right : SameIndexes second third) : SameIndexes first third :=
  ⟨right.rounds.trans left.rounds, right.extended.trans left.extended,
    right.ownTop.trans left.ownTop, right.requestSentAt.trans left.requestSentAt,
    right.network.trans left.network⟩

/-! ### Batches -/

/-- The emitted order so far: the batches of the heads of the rounds below
`next_decide_round`, and their items. -/
structure Emitted (mint : Mint D) {byzantine : Finset NodeId}
    (bound : byzantine.card ≤ mint.n.maxEvil) (engine : Engine D)
    (heads order : List UnitHash) : Prop where
  chosen : mint.dag.HeadsOf (mint.n.committee byzantine bound) mint.common
    (view engine.extended) heads
  count : heads.length = engine.nextDecideRound
  batches : Batches mint.next SortedMap.empty heads order engine.emitted
  ordered : engine.orderedTx = order.flatMap mint.items

section Batching

variable {mint : Mint D} {byzantine : Finset NodeId}
variable {bound : byzantine.card ≤ mint.n.maxEvil}

theorem Emitted.seen {engine : Engine D} {heads order : List UnitHash}
    (emitted : Emitted mint bound engine heads order) :
    ∀ head ∈ heads, head ∈ view engine.extended ∧
      mint.dag.round head < engine.nextDecideRound := by
  intro head member
  obtain ⟨round, within, headAt⟩ := List.getElem_of_mem member
  have isHead := emitted.chosen round head (by rw [List.getElem?_eq_getElem within, headAt])
  rw [← emitted.count, isHead.atRound]
  exact ⟨isHead.seen, within⟩

theorem Emitted.topological (free : mint.CollisionFree) {engine : Engine D}
    (well : WellExtended mint engine.extended) {heads order : List UnitHash}
    (emitted : Emitted mint bound engine heads order) :
    Topological mint.next (view engine.extended) SortedMap.empty order engine.emitted :=
  emitted.batches.topological (well.graded free) fun head member => (emitted.seen head member).1

theorem Emitted.below (free : mint.CollisionFree) {engine : Engine D}
    (well : WellExtended mint engine.extended) {heads order : List UnitHash}
    (emitted : Emitted mint bound engine heads order) :
    ∀ hash, engine.emitted.contains hash = true →
      mint.dag.round hash < engine.nextDecideRound := by
  intro hash marked
  rcases ((emitted.topological free well).marks hash).mp marked with impossible | inOrder
  · cases impossible
  · obtain ⟨head, member, below⟩ := emitted.batches.rank_le (well.graded free)
      (fun head member => (emitted.seen head member).1) hash inOrder
    have above := (emitted.seen head member).2
    omega

theorem bfsBatch_spec (free : mint.CollisionFree) (engine : Engine D)
    (well : WellExtended mint engine.extended) {head : UnitHash}
    (inView : head ∈ view engine.extended) (unmarked : engine.emitted.contains head = false) :
    ∃ batch emitted, engine.bfsBatch head =
        some (batch.reverse, { engine with emitted := emitted }) ∧
      search mint.next engine.extended.size (engine.emitted.insert head ⟨⟩) [head] [] =
        some (batch, emitted) := by
  have graded := well.graded free
  have agree : ∀ hash ∈ view engine.extended,
      (engine.extended.get? hash).map (fun unit => unit.parents.values) = mint.next hash := by
    rintro hash ⟨unit, found⟩
    rw [found, well.next_eq free found, Option.map_some]
  have closed : ∀ hash ∈ view engine.extended, ∀ found,
      (engine.extended.get? hash).map (fun unit => unit.parents.values) = some found →
        ∀ other ∈ found, other ∈ view engine.extended := by
    intro hash hashSeen found expansion other member
    rw [agree hash hashSeen] at expansion
    obtain ⟨same, sameAt, below⟩ := graded hash hashSeen
    rw [expansion] at sameAt
    exact (below other (Option.some.inj sameAt ▸ member)).1
  have keyed : ∀ hash ∈ view engine.extended, hash ∈ engine.extended.keys :=
    fun hash ⟨unit, found⟩ => (engine.extended.mem_keys hash).mpr ⟨unit, found⟩
  have started := Progress.start mint.next mint.dag.round inView unmarked
  obtain ⟨⟨batch, emitted⟩, searched⟩ := search_total graded
    engine.extended.size started keyed (by rw [engine.extended.keys_length]; rfl)
  refine ⟨batch, emitted, ?_, searched⟩
  have local_ := search_congr agree closed engine.extended.size (engine.emitted.insert head ⟨⟩)
    [head] [] (fun hash member => List.mem_singleton.mp member ▸ inView)
  rw [searched] at local_
  unfold Engine.bfsBatch
  rw [unmarked, if_neg Bool.false_ne_true, local_]

end Batching

section Emission

variable {setup : Setup D} {byzantine : Finset NodeId}
variable {bound : byzantine.card ≤ setup.n.maxEvil}

theorem emitBatch_spec (free : setup.CollisionFree) {tables : BftTables D}
    (valid : TablesValid setup.toMint tables) (batch : List UnitHash) (engine : Engine D)
    (stored : ∀ hash unit, engine.extended.get? hash = some unit →
      tables.unit.get? hash = some unit)
    (within : ∀ hash ∈ batch, hash ∈ view engine.extended) :
    ∃ own, engine.emitBatch setup tables batch = some { engine with
      orderedTx := engine.orderedTx ++ batch.flatMap setup.items
      unorderedOwnData := own } := by
  induction batch generalizing engine with
  | nil =>
      refine ⟨engine.unorderedOwnData, ?_⟩
      rw [List.flatMap_nil, List.append_nil]
      rfl
  | cons hash rest ih =>
      obtain ⟨unit, found⟩ := within hash List.mem_cons_self
      have inTable := stored hash unit found
      obtain ⟨data, dataAt, committed⟩ := valid.payload hash unit inTable
      have items := free.items_eq (valid.hashed hash unit inTable) committed
      simp only [Engine.emitBatch, Engine.emitUnit, found, dataAt, List.flatMap_cons, items]
      obtain ⟨own, emitEq⟩ := ih { engine with
          orderedTx := engine.orderedTx ++ data.map (fun item => (unit.round, unit.creator, item))
          unorderedOwnData :=
            if unit.creator = setup.id then engine.unorderedOwnData.erase unit.round
            else engine.unorderedOwnData } stored
        (fun other member => within other (List.mem_cons_of_mem hash member))
      exact ⟨own, by rw [emitEq, List.append_assoc]⟩

/-! ### The drain loop -/

/-- The loop ends with a step for every round that is still covered. -/
theorem drainHeads_spec (free : setup.CollisionFree) {tables : BftTables D}
    (valid : TablesValid setup.toMint tables) (steps : Nat) (engine : Engine D)
    (well : WellExtended setup.toMint engine.extended)
    (sound : setup.dag.Sound (setup.n.committee byzantine bound) (view engine.extended))
    (indexed : Indexed engine.rounds engine.extended)
    (stored : ∀ hash unit, engine.extended.get? hash = some unit →
      tables.unit.get? hash = some unit)
    (caches : CachesSound setup.toMint bound engine) {heads order : List UnitHash}
    (emitted : Emitted setup.toMint bound engine heads order)
    (enough : stepBound engine.rounds ≤ steps + engine.nextDecideRound + 1) :
    ∃ drained moreHeads moreOrder,
      engine.drainHeads setup tables (steps + 1) = some drained ∧
      SameIndexes engine drained ∧ CachesSound setup.toMint bound drained ∧
      Emitted setup.toMint bound drained moreHeads moreOrder ∧
      ∀ head, ¬ setup.dag.IsHead (setup.n.committee byzantine bound) setup.common
        (view engine.extended) drained.nextDecideRound head := by
  induction steps generalizing engine heads order with
  | zero =>
      obtain ⟨result, votes, decided, chooseEq, caches', isHead⟩ :=
        chooseHead_spec free bound well sound indexed caches engine.nextDecideRound
      have noHead : ∀ head, ¬ setup.dag.IsHead (setup.n.committee byzantine bound) setup.common
          (view engine.extended) engine.nextDecideRound head := by
        intro head isHead
        obtain ⟨witness, ⟨unit, found⟩, witnessRound⟩ := isHead.covered
        have within := indexed.within_last found
        rw [well.dag_round free found] at witnessRound
        omega
      cases result with
      | some head => exact absurd ((isHead head).mp rfl) (noHead head)
      | none =>
          exact ⟨{ engine with votes := votes, decided := decided }, heads, order,
            by simp only [Engine.drainHeads, chooseEq], ⟨rfl, rfl, rfl, rfl, rfl⟩, caches',
            ⟨emitted.chosen, emitted.count, emitted.batches, emitted.ordered⟩, noHead⟩
  | succ steps ih =>
      obtain ⟨result, votes, decided, chooseEq, caches', isHead⟩ :=
        chooseHead_spec free bound well sound indexed caches engine.nextDecideRound
      unfold Engine.drainHeads
      rw [chooseEq]
      cases result with
      | none =>
          refine ⟨{ engine with votes := votes, decided := decided }, heads, order, rfl,
            ⟨rfl, rfl, rfl, rfl, rfl⟩, caches',
            ⟨emitted.chosen, emitted.count, emitted.batches, emitted.ordered⟩, ?_⟩
          intro head isNext
          have impossible := (isHead head).mpr isNext
          cases impossible
      | some head =>
          have headIs := (isHead head).mp rfl
          have unmarked : engine.emitted.contains head = false := by
            cases marked : engine.emitted.contains head with
            | false => rfl
            | true =>
                have below := emitted.below free well head marked
                rw [headIs.atRound] at below
                omega
          obtain ⟨batch, marks, batchEq, searched⟩ := bfsBatch_spec free
            { engine with votes := votes, decided := decided } well headIs.seen unmarked
          have started := Progress.start setup.next setup.dag.round
            headIs.seen unmarked
          have visited := (search_progress (well.graded free) started searched).within
          obtain ⟨own, emitEq⟩ := emitBatch_spec free valid batch.reverse { engine with
              votes := votes, decided := decided, emitted := marks } stored
            (fun hash member => visited hash
              (List.mem_append_left [] (List.mem_reverse.mp member)))
          simp only [batchEq, emitEq]
          let advanced : Engine D := { engine with
            votes := votes
            decided := decided
            emitted := marks
            orderedTx := engine.orderedTx ++ batch.reverse.flatMap setup.items
            unorderedOwnData := own
            nextDecideRound := engine.nextDecideRound + 1 }
          have advancedCaches : CachesSound setup.toMint bound advanced := ⟨caches'.votes, caches'.decided⟩
          have advancedEmitted :
              Emitted setup.toMint bound advanced (heads ++ [head]) (order ++ batch.reverse) := by
            refine ⟨?_, ?_, emitted.batches.snoc unmarked searched, ?_⟩
            · intro round other otherAt
              rcases Nat.lt_or_ge round heads.length with earlier | last
              · rw [List.getElem?_append_left earlier] at otherAt
                exact emitted.chosen round other otherAt
              · rw [List.getElem?_append_right last, List.getElem?_singleton] at otherAt
                split at otherAt
                · cases otherAt
                  have atRound : round = engine.nextDecideRound := by
                    have count := emitted.count
                    omega
                  rw [atRound]
                  exact headIs
                · cases otherAt
            · rw [List.length_append, emitted.count]
              rfl
            · rw [List.flatMap_append, ← emitted.ordered]
          have advancedEnough : stepBound engine.rounds ≤ steps + (engine.nextDecideRound + 1) + 1 := by
            omega
          obtain ⟨drained, moreHeads, moreOrder, drainEq, same, rest⟩ :=
            ih advanced well sound indexed stored advancedCaches advancedEmitted
              advancedEnough
          exact ⟨drained, moreHeads, moreOrder, drainEq,
            ⟨same.rounds, same.extended, same.ownTop, same.requestSentAt, same.network⟩, rest⟩

end Emission

end Picomint.Bft
