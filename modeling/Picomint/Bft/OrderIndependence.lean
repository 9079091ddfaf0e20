/-
Order independence: what an engine emitted depends on its stored units only.

Every list of admissible envelopes can be delivered in any order; live
processing, replay of the same rows and replay of fewer rows are compared
through the settled state they all end in.
-/

import Picomint.Bft.Agreement

namespace Picomint.Bft

open Engine

variable {D : Type}

/-- A unit of a creator arriving with its payload and signature. -/
structure Delivery (D : Type) where
  now : Nat
  sender : NodeId
  envelope : UnitEnvelope D

def Delivery.event (delivery : Delivery D) : Event D :=
  .receive delivery.now delivery.sender (.unit delivery.envelope)

section Deliveries

variable {setup : Setup D} {byzantine : Finset NodeId} {signed : Set BftUnit}

theorem Orderly.isSettled {bound : byzantine.card ≤ setup.n.maxEvil} {process : Process D}
    (orderly : Orderly setup bound process)
    (signers : HonestSigners setup.toMint byzantine signed) :
    Settled setup.toMint bound process.committed process.engine :=
  orderly.settled (signers.singleVoiced orderly.valid.verified)

theorem mem_units_insert {tables : BftTables D} {hash : UnitHash} {ev : UnitEnvelope D}
    (absent : tables.unit.get? hash = none) (unit : BftUnit) :
    unit ∈ (tables.insert hash ev).units ↔ unit ∈ tables.units ∨ ev.unit = unit := by
  constructor
  · rintro ⟨other, found⟩
    rw [BftTables.insert, SortedMap.get?_insert] at found
    split at found
    · exact Or.inr (Option.some.inj found)
    · exact Or.inl ⟨other, found⟩
  · rintro (⟨other, found⟩ | rfl)
    · refine ⟨other, ?_⟩
      rw [BftTables.insert, SortedMap.get?_insert_of_ne, found]
      intro same
      rw [same, found] at absent
      cases absent
    · exact ⟨hash, SortedMap.get?_insert_self _ _ _⟩

/-- An admissible envelope is always handled, and its unit is stored after. -/
theorem receive_stores (free : setup.CollisionFree) {bound : byzantine.card ≤ setup.n.maxEvil}
    (signers : HonestSigners setup.toMint byzantine signed) {process : Process D}
    (orderly : Orderly setup bound process) (delivery : Delivery D)
    (checked : Checked setup.toMint delivery.envelope) :
    ∃ next, process.step setup delivery.event = some next ∧
      ∀ unit, unit ∈ next.committed.units ↔
        unit ∈ process.committed.units ∨ delivery.envelope.unit = unit := by
  have settled := orderly.isSettled signers
  obtain ⟨now, sender, ev⟩ := delivery
  have accepted := (validateUnit_ok ev).mpr checked
  obtain ⟨requests, messages, cascadedEq, only⟩ :=
    cascadeParents_requested now process.committed process.engine sender ev.unit
  have served := settled.served (Requested.served ⟨requests, messages, rfl, only⟩ _)
  simp only [Delivery.event, Process.step, handleMessage, accepted, cascadedEq]
  by_cases listed : setup.unitHash ev.unit ∈ roundUnits process.engine.rounds ev.unit.round
  · rw [if_pos (List.contains_iff_mem.mpr listed)]
    refine ⟨_, rfl, fun unit => ⟨Or.inl, ?_⟩⟩
    rintro (old | rfl)
    · exact old
    · obtain ⟨other, inTable, _⟩ := (settled.grounded.index _ _).mp listed
      have same := free.unitHash (settled.valid.hashed _ other inTable)
      exact ⟨_, same ▸ inTable⟩
  · rw [if_neg fun contains => listed (List.contains_iff_mem.mp contains)]
    have absent := absent_of_not_listed free.unitHash settled.valid settled.grounded listed
    rw [storeUnit_ok.mpr ⟨absent, rfl, rfl⟩]
    obtain ⟨engine, drained, _⟩ := served.advance free
      (signers.singleVoiced (settled.valid.insert checked).verified) checked absent
      process.engine.unorderedOwnData
      (advanceTop setup.id process.engine.ownTop ev.unit (setup.unitHash ev.unit))
    have extended : runExtender setup (process.committed.insert (setup.unitHash ev.unit) ev)
        (tryExtend (process.committed.insert (setup.unitHash ev.unit) ev)
          (stored setup { process.engine with
            requestSentAt := requests
            network := process.engine.network ++ messages } ev) (setup.unitHash ev.unit)) =
        some engine := drained
    simp only [extended]
    exact ⟨_, rfl, mem_units_insert absent⟩

/-- Any list of admissible envelopes can be delivered, and exactly their units
are stored at the end. -/
theorem deliveries_store (free : setup.CollisionFree) (bound : byzantine.card ≤ setup.n.maxEvil)
    (signers : HonestSigners setup.toMint byzantine signed) (deliveries : List (Delivery D))
    (checked : ∀ delivery ∈ deliveries, Checked setup.toMint delivery.envelope)
    {process : Process D} (before : Reachable setup process) :
    ∃ last, process.run setup (deliveries.map Delivery.event) = some last ∧
      ∀ unit, unit ∈ last.committed.units ↔
        unit ∈ process.committed.units ∨ ∃ delivery ∈ deliveries, delivery.envelope.unit = unit := by
  induction deliveries generalizing process with
  | nil =>
      refine ⟨process, rfl, fun unit => ?_⟩
      simp
  | cons delivery rest ih =>
      obtain ⟨next, stepped, nextUnits⟩ := receive_stores free signers
        (before.orderly free bound) delivery (checked delivery List.mem_cons_self)
      obtain ⟨last, ran, lastUnits⟩ :=
        ih (fun other member => checked other (List.mem_cons_of_mem delivery member))
          (Runs.step before trivial stepped)
      refine ⟨last, ?_, fun unit => ?_⟩
      · rw [List.map_cons, Process.run, stepped]
        exact ran
      · rw [lastUnits, nextUnits, or_assoc]
        simp

end Deliveries

/-- Order independence and replay.  Processes of engines of one mint that
store the same units have emitted the same, however the units arrived; replay
over rows of these units emits the same, replay over fewer rows a prefix; and
every list of admissible envelopes can arrive, in any order. -/
theorem emission_of_units {setup other : Setup D} (sameMint : setup.toMint = other.toMint)
    (free : setup.CollisionFree) {byzantine : Finset NodeId}
    (bound : byzantine.card ≤ setup.n.maxEvil) {signed : Set BftUnit}
    (signers : HonestSigners setup.toMint byzantine signed) :
    (∀ first second, Reachable setup first → Reachable other second →
      first.committed.units = second.committed.units →
        SameEmission first.engine second.engine) ∧
    (∀ process tables, Reachable setup process → TablesValid setup.toMint tables →
      tables.units = process.committed.units →
        ∃ engine, replay setup tables = some engine ∧ SameEmission engine process.engine) ∧
    (∀ process tables, Reachable setup process → SubTables tables process.committed →
      ∃ engine, replay setup tables = some engine ∧
        engine.orderedTx <+: process.engine.orderedTx) ∧
    ∀ deliveries : List (Delivery D),
      (∀ delivery ∈ deliveries, Checked setup.toMint delivery.envelope) →
      ∃ last, Process.start.run setup (deliveries.map Delivery.event) = some last ∧
        Reachable setup last ∧
        ∀ unit, unit ∈ last.committed.units ↔
          ∃ delivery ∈ deliveries, delivery.envelope.unit = unit := by
  obtain ⟨mint, id, sign⟩ := setup
  obtain ⟨otherMint, otherId, otherSign⟩ := other
  cases sameMint
  refine ⟨?_, ?_, ?_, ?_⟩
  · intro first second firstRuns secondRuns sameUnits
    have firstSettled := (firstRuns.orderly free bound).isSettled signers
    have secondOrderly : Orderly ⟨mint, otherId, otherSign⟩ bound second :=
      secondRuns.orderly free bound
    exact firstSettled.same_emission free (secondOrderly.isSettled signers)
      (signers.singleVoiced secondOrderly.valid.verified) sameUnits
  · intro process tables runs valid sameUnits
    have orderly := runs.orderly free bound
    obtain ⟨engine, replayed, settled⟩ :=
      replay_spec free bound (signers.singleVoiced valid.verified) valid
    exact ⟨engine, replayed, settled.same_emission free (orderly.isSettled signers)
      (signers.singleVoiced orderly.valid.verified) sameUnits⟩
  · intro process tables runs sub
    have orderly := runs.orderly free bound
    have valid := orderly.valid.sub sub
    obtain ⟨engine, replayed, settled⟩ :=
      replay_spec free bound (signers.singleVoiced valid.verified) valid
    exact ⟨engine, replayed, settled.prefix_of_units free (orderly.isSettled signers)
      (signers.singleVoiced orderly.valid.verified) sub.units⟩
  · intro deliveries checked
    obtain ⟨last, ran, units⟩ := deliveries_store free bound signers deliveries checked Runs.start
    refine ⟨last, ran, Process.run_runs _ (fun _ _ _ => trivial) Runs.start ran, fun unit => ?_⟩
    rw [units]
    refine or_iff_right ?_
    rintro ⟨hash, impossible⟩
    cases impossible

/-! Every unit of the mint whose fourth node forks arrives at two engines, in
opposite orders; then a row is lost. -/

/-- The tables after the rows of a unit are lost. -/
def BftTables.erase (tables : BftTables D) (hash : UnitHash) : BftTables D :=
  { unit := tables.unit.erase hash
    unitData := tables.unitData.erase hash
    unitSignature := tables.unitSignature.erase hash }

theorem SubTables.erase (tables : BftTables D) (hash : UnitHash) :
    SubTables (tables.erase hash) tables := by
  have kept : ∀ other unit, (tables.erase hash).unit.get? other = some unit → hash ≠ other := by
    intro other unit found same
    rw [BftTables.erase, SortedMap.get?_erase, if_pos same] at found
    cases found
  refine ⟨fun other unit found => ?_, fun other unit found => ?_, fun other unit found => ?_⟩
  · have different := kept other unit found
    rwa [BftTables.erase, SortedMap.get?_erase, if_neg different] at found
  · rw [BftTables.erase, SortedMap.get?_erase, if_neg (kept other unit found)]
  · rw [BftTables.erase, SortedMap.get?_erase, if_neg (kept other unit found)]

def forkDeliveries : List (Delivery Nat) :=
  ([leftEnvelope, rightEnvelope] ++ (List.range 6).flatMap fun round =>
    (List.range 3).map (forkEnvelope round)).map fun ev => ⟨0, ev.unit.creator, ev⟩

theorem forkDeliveries_checked :
    ∀ delivery ∈ forkDeliveries, Checked forkMint delivery.envelope := by
  have accepted : ∀ delivery ∈ forkDeliveries,
      (validateUnit forkMint delivery.envelope).toOption = some () := by
    decide +kernel
  intro delivery member
  have isOk := accepted delivery member
  apply (validateUnit_ok delivery.envelope).mp
  cases outcome : validateUnit forkMint delivery.envelope with
  | error message =>
      rw [outcome] at isOk
      cases isOk
  | ok _ => rfl

theorem emission_of_units_sample :
    ∃ (first second : Process Nat) (engine : Engine Nat),
      Process.start.run (forkSetup 0) (forkDeliveries.map Delivery.event) = some first ∧
      Process.start.run (forkSetup 1) (forkDeliveries.reverse.map Delivery.event) = some second ∧
      SameEmission first.engine second.engine ∧
      first.engine.orderedTx = [(0, 3, 100), (0, 2, 9), (0, 1, 8), (0, 0, 7), (0, 3, 200),
        (2, 0, 17)] ∧
      replay (forkSetup 0) (first.committed.erase (forkHash 4 0)) = some engine ∧
      engine.orderedTx = [(0, 3, 100), (0, 2, 9), (0, 1, 8), (0, 0, 7)] ∧
      engine.orderedTx <+: first.engine.orderedTx := by
  have bound : ({3} : Finset NodeId).card ≤ (forkSetup 0).n.maxEvil := by decide
  obtain ⟨sameUnits, _, fewer, anyOrder⟩ := @emission_of_units Nat (forkSetup 0) (forkSetup 1) rfl
    forkMint_collisionFree {3} bound _ forkMint_signers
  obtain ⟨_, _, _, otherOrder⟩ := @emission_of_units Nat (forkSetup 1) (forkSetup 0) rfl
    forkMint_collisionFree {3} bound _ forkMint_signers
  obtain ⟨first, firstRan, firstRuns, firstUnits⟩ := anyOrder _ forkDeliveries_checked
  obtain ⟨second, secondRan, secondRuns, secondUnits⟩ := otherOrder forkDeliveries.reverse
    fun delivery member => forkDeliveries_checked delivery (List.mem_reverse.mp member)
  have same : first.committed.units = second.committed.units := by
    ext unit
    rw [firstUnits, secondUnits]
    simp only [List.mem_reverse]
  have observed : (Process.start.run (forkSetup 0) (forkDeliveries.map Delivery.event)).map
      (fun last => (last.engine.orderedTx,
        (replay (forkSetup 0) (last.committed.erase (forkHash 4 0))).map Engine.orderedTx)) =
      some ([(0, 3, 100), (0, 2, 9), (0, 1, 8), (0, 0, 7), (0, 3, 200), (2, 0, 17)],
        some [(0, 3, 100), (0, 2, 9), (0, 1, 8), (0, 0, 7)]) := by
    decide +kernel
  rw [firstRan, Option.map_some, Option.some.injEq, Prod.mk.injEq] at observed
  obtain ⟨engine, replayed, prefix_⟩ := fewer first _ firstRuns
    (SubTables.erase first.committed (forkHash 4 0))
  rw [replayed] at observed
  exact ⟨first, second, engine, firstRan, secondRan,
    sameUnits first second firstRuns secondRuns same, observed.1, replayed,
    Option.some.inj observed.2, prefix_⟩

end Picomint.Bft
