/-
The ordered stream of one creator, and the shape of the whole emitted order.

An honest creator's units form a chain, and the emitted order lists every unit
after its parents, so the units it holds of that creator are the first ones of
the chain, in order.
-/

import Picomint.Bft.Network

namespace Picomint.Bft

open VirtualVoting BreadthFirst Engine

variable {D : Type}

/-! ### The emitted order in terms of the stored rows -/

/-- The items a stored unit contributes to the stream. -/
def BftTables.items (tables : BftTables D) (hash : UnitHash) : List (Nat × NodeId × D) :=
  match tables.unit.get? hash, tables.unitData.get? hash with
  | some unit, some data => data.map (fun item => (unit.round, unit.creator, item))
  | _, _ => []

def BftTables.ParentOf (tables : BftTables D) (child parent : UnitHash) : Prop :=
  ∃ unit, tables.unit.get? child = some unit ∧ parent ∈ unit.parents.values

/-- The order behind a stream: every emitted unit once, after its ancestors. -/
structure OrderOf (tables : BftTables D) (engine : Engine D) (order : List UnitHash) : Prop where
  stream : engine.orderedTx = order.flatMap tables.items
  emitted : ∀ hash, engine.emitted.contains hash = true ↔ hash ∈ order
  distinct : order.Nodup
  behind : ∀ earlier hash later, order = earlier ++ hash :: later →
    ∀ ancestor, Relation.TransGen tables.ParentOf hash ancestor → ancestor ∈ earlier

section Order

variable {mint : Mint D} {byzantine : Finset NodeId} {bound : byzantine.card ≤ mint.n.maxEvil}
variable {tables : BftTables D} {engine : Engine D}

theorem TablesValid.items_eq (free : mint.CollisionFree) (valid : TablesValid mint tables)
    {hash : UnitHash} {unit : BftUnit} (inTable : tables.unit.get? hash = some unit) :
    mint.items hash = tables.items hash := by
  obtain ⟨data, dataAt, committed⟩ := valid.payload hash unit inTable
  rw [free.items_eq (valid.hashed hash unit inTable) committed]
  simp only [BftTables.items, inTable, dataAt]

theorem flatMap_congr_of_mem {α β : Type} {f g : α → List β} {l : List α}
    (same : ∀ item ∈ l, f item = g item) : l.flatMap f = l.flatMap g := by
  rw [List.flatMap_def, List.flatMap_def, List.map_congr_left same]

/-- Direct parents come first, so all ancestors do. -/
theorem ancestors_behind {order : List UnitHash}
    (parents : ∀ earlier hash later, order = earlier ++ hash :: later →
      ∀ parent, tables.ParentOf hash parent → parent ∈ earlier)
    {hash ancestor : UnitHash} (descends : Relation.TransGen tables.ParentOf hash ancestor) :
    ∀ earlier later, order = earlier ++ hash :: later → ancestor ∈ earlier := by
  induction descends using Relation.TransGen.head_induction_on with
  | single isParent =>
      intro earlier later split
      exact parents earlier _ later split _ isParent
  | @head child _ isParent _ ih =>
      intro earlier later split
      obtain ⟨first, second, earlierEq⟩ :=
        List.append_of_mem (parents earlier child later split _ isParent)
      have inFirst := ih first (second ++ child :: later) (by rw [split, earlierEq]; simp)
      rw [earlierEq]
      exact List.mem_append_left _ inFirst

theorem Settled.orderOf (free : mint.CollisionFree) (settled : Settled mint bound tables engine) :
    ∃ order, OrderOf tables engine order ∧ ∀ hash ∈ order, hash ∈ view engine.extended := by
  obtain ⟨heads, order, emitted, _⟩ := settled.emission
  have well := settled.grounded.wellExtended settled.valid
  have topological := emitted.topological free well
  refine ⟨order, ⟨?_, ?_, topological.distinct, ?_⟩, topological.within⟩
  · rw [emitted.ordered]
    refine flatMap_congr_of_mem fun hash member => ?_
    obtain ⟨unit, found⟩ := topological.within hash member
    exact settled.valid.items_eq free (settled.grounded.stored hash unit found)
  · intro hash
    rw [topological.marks, SortedMap.contains_empty]
    simp
  · intro earlier hash later split ancestor descends
    refine ancestors_behind ?_ descends earlier later split
    rintro earlier hash later split parent ⟨unit, inTable, member⟩
    have inOrder : hash ∈ order := by rw [split]; simp
    obtain ⟨body, found⟩ := topological.within hash inOrder
    have sameUnit := settled.grounded.stored hash body found
    rw [inTable] at sameUnit
    cases sameUnit
    rcases topological.behind earlier hash later split _ (well.next_eq free found) parent member with
      impossible | isEarlier
    · cases impossible
    · exact isEarlier

end Order

/-! ### One creator's items -/

section Creator

variable {mint : Mint D} {keys : NodeId → Nat → BftUnit → Signature} {byzantine : Finset NodeId}
variable {processes : NodeId → Process D}

def itemsOf (creator : NodeId) (stream : List (Nat × NodeId × D)) : List (Nat × NodeId × D) :=
  stream.filter (fun entry => decide (entry.2.1 = creator))

/-- What a created unit carries into the stream. -/
def UnitEnvelope.items (ev : UnitEnvelope D) : List (Nat × NodeId × D) :=
  ev.data.map (fun item => (ev.unit.round, ev.unit.creator, item))

theorem itemsOf_flatMap (creator : NodeId) (isOwn : UnitHash → Bool) (tables : BftTables D)
    (order : List UnitHash)
    (owns : ∀ hash ∈ order, ∃ unit, tables.unit.get? hash = some unit ∧
      (isOwn hash = true ↔ unit.creator = creator)) :
    itemsOf creator (order.flatMap tables.items) = (order.filter isOwn).flatMap tables.items := by
  induction order with
  | nil => rfl
  | cons hash rest ih =>
      obtain ⟨unit, inTable, isCreator⟩ := owns hash List.mem_cons_self
      have later := ih fun other member => owns other (List.mem_cons_of_mem hash member)
      have here : itemsOf creator (tables.items hash) =
          if unit.creator = creator then tables.items hash else [] := by
        unfold BftTables.items itemsOf
        rw [inTable]
        cases tables.unitData.get? hash with
        | none => simp
        | some data =>
            simp only
            split
            · rename_i same
              exact List.filter_eq_self.mpr fun entry member => by
                obtain ⟨item, _, rfl⟩ := List.mem_map.mp member
                exact decide_eq_true same
            · rename_i different
              exact List.filter_eq_nil_iff.mpr fun entry member => by
                obtain ⟨item, _, rfl⟩ := List.mem_map.mp member
                simpa using different
      rw [List.flatMap_cons, itemsOf, List.filter_append]
      change itemsOf creator (tables.items hash) ++ itemsOf creator (rest.flatMap tables.items) = _
      rw [here, later]
      by_cases own : unit.creator = creator
      · rw [if_pos own, List.filter_cons_of_pos (isCreator.mpr own), List.flatMap_cons]
      · rw [if_neg own, List.filter_cons_of_neg (mt isCreator.mp own), List.nil_append]

def Process.chainHashes (mint : Mint D) (process : Process D) : List UnitHash :=
  process.created.map (fun ev => mint.unitHash ev.unit)

theorem OwnChain.hashes_nodup {setup : Setup D} {tables : BftTables D} {process : Process D}
    (free : setup.CollisionFree) (chain : OwnChain setup tables process.created) :
    (process.chainHashes setup.toMint).Nodup := by
  refine List.pairwise_iff_getElem.mpr fun first second firstWithin secondWithin below same => ?_
  simp only [Process.chainHashes, List.getElem_map, List.length_map] at same firstWithin secondWithin
  have sameUnit := free.unitHash same
  have firstRound := chain.round first _ (List.getElem?_eq_getElem firstWithin)
  have secondRound := chain.round second _ (List.getElem?_eq_getElem secondWithin)
  rw [sameUnit] at firstRound
  omega

theorem NetworkRuns.emitted_chain (free : mint.CollisionFree)
    (bound : byzantine.card ≤ mint.n.maxEvil) (runs : NetworkRuns mint keys byzantine processes)
    {creator : NodeId} (honest : creator ∉ byzantine) {node : NodeId} {order : List UnitHash}
    (isOrder : OrderOf (processes node).committed (processes node).engine order)
    (within : ∀ hash ∈ order, hash ∈ view (processes node).engine.extended) :
    order.filter (fun hash => decide (mint.dag.creator hash = creator)) <+:
      (processes creator).chainHashes mint := by
  have settled := runs.settled free bound node
  have well := settled.grounded.wellExtended settled.valid
  have chain := (runs.intact creator).chain
  refine filter_prefix_chain (chain.hashes_nodup free) isOrder.distinct ?_ ?_ ?_
  · intro hash member
    obtain ⟨ev, created, rfl⟩ := List.mem_map.mp member
    refine decide_eq_true ?_
    simp only [Mint.dag, free.unitOf_eq rfl, Option.map_some, Option.getD_some]
    exact (chain.checked ev created).2
  · intro hash member own
    obtain ⟨unit, found⟩ := within hash member
    have isCreator : unit.creator = creator := by
      rw [← well.dag_creator free found]
      exact of_decide_eq_true own
    have inTable := settled.grounded.stored hash unit found
    obtain ⟨ev, created, isUnit⟩ :=
      runs.created_by free bound ⟨hash, inTable⟩ (isCreator ▸ honest)
    rw [isCreator] at created
    refine List.mem_map.mpr ⟨ev, created, ?_⟩
    rw [isUnit, settled.valid.hashed hash unit inTable]
  · intro earlier hash later split index previous previousAt hashAt
    simp only [Process.chainHashes, List.getElem?_map, Option.map_eq_some_iff] at previousAt hashAt
    obtain ⟨last, lastAt, rfl⟩ := previousAt
    obtain ⟨ev, evAt, rfl⟩ := hashAt
    obtain ⟨unit, found⟩ := within (mint.unitHash ev.unit) (by rw [split]; simp)
    have inTable := settled.grounded.stored _ unit found
    have sameUnit := free.unitHash (settled.valid.hashed _ unit inTable)
    refine isOrder.behind earlier _ later split _ (Relation.TransGen.single ⟨unit, inTable, ?_⟩)
    rw [sameUnit, SortedMap.mem_values]
    exact ⟨creator, chain.parent index last ev lastAt evAt⟩

/-- Creator integrity and first-in-first-out: of an honest creator every honest
engine has emitted a prefix of the payloads it created, round by round, and
every engine has emitted every unit once, after its ancestors. -/
theorem creator_stream_prefix (free : mint.CollisionFree)
    (bound : byzantine.card ≤ mint.n.maxEvil) (runs : NetworkRuns mint keys byzantine processes)
    {creator : NodeId} (honest : creator ∉ byzantine) (node : NodeId) :
    itemsOf creator (processes node).engine.orderedTx <+:
        (processes creator).created.flatMap UnitEnvelope.items ∧
      (processes creator).created.map (fun ev => (ev.unit.round, ev.unit.creator)) =
        (List.range (processes creator).created.length).map (fun round => (round, creator)) ∧
      ∃ order, OrderOf (processes node).committed (processes node).engine order := by
  have settled := runs.settled free bound node
  have well := settled.grounded.wellExtended settled.valid
  have chain := (runs.intact creator).chain
  obtain ⟨order, isOrder, within⟩ := settled.orderOf free
  refine ⟨?_, ?_, order, isOrder⟩
  · have owns : ∀ hash ∈ order, ∃ unit, (processes node).committed.unit.get? hash = some unit ∧
        (decide (mint.dag.creator hash = creator) = true ↔ unit.creator = creator) := by
      intro hash member
      obtain ⟨unit, found⟩ := within hash member
      exact ⟨unit, settled.grounded.stored hash unit found,
        by rw [decide_eq_true_iff, well.dag_creator free found]⟩
    have payloads : (processes creator).created.flatMap UnitEnvelope.items =
        ((processes creator).chainHashes mint).flatMap mint.items := by
      rw [Process.chainHashes, List.flatMap_map]
      refine flatMap_congr_of_mem fun ev member => ?_
      exact (free.items_eq rfl (chain.checked ev member).1.committed).symm
    have sameItems : (order.filter fun hash => decide (mint.dag.creator hash = creator)).flatMap
          (processes node).committed.items =
        (order.filter fun hash => decide (mint.dag.creator hash = creator)).flatMap mint.items := by
      refine flatMap_congr_of_mem fun hash member => ?_
      obtain ⟨unit, found⟩ := within hash (List.mem_of_mem_filter member)
      exact (settled.valid.items_eq free (settled.grounded.stored hash unit found)).symm
    rw [isOrder.stream, itemsOf_flatMap creator _ _ order owns, payloads, sameItems]
    exact flatMap_prefix _ (runs.emitted_chain free bound honest isOrder within)
  · refine List.ext_getElem (by simp) fun index within _ => ?_
    simp only [List.length_map] at within
    have evAt := List.getElem?_eq_getElem within
    simp only [List.getElem_map, List.getElem_range, Prod.mk.injEq]
    exact ⟨chain.round index _ evAt, (chain.checked _ (List.getElem_mem within)).2⟩

end Creator

/-- Node 1 has emitted the first of the two payloads of node 0, between those
of the others. -/
theorem creator_stream_prefix_sample :
    ∃ processes : NodeId → Process Nat, NetworkRuns forkMint forkKeys {3} processes ∧
      (processes 1).engine.orderedTx = [(0, 3, 100), (0, 2, 9), (0, 1, 8), (0, 0, 7)] ∧
      (processes 0).created.flatMap UnitEnvelope.items = [(0, 0, 7), (2, 0, 17)] ∧
      itemsOf 0 (processes 1).engine.orderedTx <+:
        (processes 0).created.flatMap UnitEnvelope.items ∧
      ∃ order, OrderOf (processes 1).committed (processes 1).engine order := by
  have evaluated : (runNodes forkMint forkKeys {3} (forkEvents 3 ++ forkExchange 4)
      (List.replicate 3 Process.start)).map (fun last => ((listed last 1).engine.orderedTx,
        (listed last 0).created.flatMap UnitEnvelope.items)) =
      some ([(0, 3, 100), (0, 2, 9), (0, 1, 8), (0, 0, 7)], [(0, 0, 7), (2, 0, 17)]) := by
    decide +kernel
  obtain ⟨last, ran, observed⟩ := Option.map_eq_some_iff.mp evaluated
  obtain ⟨order, created⟩ := Prod.mk.inj observed
  have runs := (NetworkRuns.listed_start 3).run_nodes ran
  have stream := creator_stream_prefix forkMint_collisionFree (by decide) runs
    (by decide : 0 ∉ ({3} : Finset NodeId)) 1
  exact ⟨_, runs, order, created, stream.1, stream.2.2⟩

end Picomint.Bft
