/-
The invariant of an engine over its tables, and the steps that keep it.

`Settled` holds between two steps: every fed unit is extended, the caches are
facts of the view, and the emitted order is that of all heads the view has.
Storing an envelope and rebuilding from the tables both end settled.
-/

import Picomint.Bft.Extension

namespace Picomint.Bft

open VirtualVoting BreadthFirst Engine

variable {D : Type}

def BftTables.units (tables : BftTables D) : Set BftUnit :=
  { unit | ∃ hash, tables.unit.get? hash = some unit }

structure Settled (mint : Mint D) {byzantine : Finset NodeId}
    (bound : byzantine.card ≤ mint.n.maxEvil) (tables : BftTables D) (engine : Engine D) :
    Prop where
  valid : TablesValid mint tables
  grounded : Grounded tables engine.rounds engine.extended
  complete : Frontier tables engine.extended fun _ => False
  caches : CachesSound mint bound engine
  emission : ∃ heads order, Emitted mint bound engine heads order ∧
    ∀ head, ¬ mint.dag.IsHead (mint.n.committee byzantine bound) mint.common
      (view engine.extended) engine.nextDecideRound head

section Growing

variable {mint : Mint D} {byzantine : Finset NodeId}
variable {bound : byzantine.card ≤ mint.n.maxEvil}

/-! ### Growing views -/

theorem Grounded.sound (free : mint.CollisionFree) (bound : byzantine.card ≤ mint.n.maxEvil)
    {tables : BftTables D} (once : SingleVoiced byzantine tables.units)
    (valid : TablesValid mint tables) {rounds : Rounds} {extended : SortedMap UnitHash BftUnit}
    (grounded : Grounded tables rounds extended) :
    mint.dag.Sound (mint.n.committee byzantine bound) (view extended) := by
  have well := grounded.wellExtended valid
  refine WellExtended.sound free byzantine bound (fun hash member => ⟨extended, well, member, fun _ h => h⟩)
    once ?_
  rintro hash ⟨unit, found⟩ other isHash
  have same := free.unitHash (isHash.trans (well.hashed hash unit found).symm)
  exact ⟨hash, same ▸ grounded.stored hash unit found⟩

theorem CachesSound.keeps {engine grown : Engine D} (caches : CachesSound mint bound engine)
    (keeps : Keeps engine.extended grown.extended) (sameVotes : grown.votes = engine.votes)
    (sameDecided : grown.decided = engine.decided) : CachesSound mint bound grown := by
  refine ⟨sameVotes ▸ caches.votes, ?_⟩
  intro candidate decision found
  rw [sameDecided] at found
  exact (caches.decided candidate decision found).mono mint.dag keeps.view

theorem Emitted.keeps (free : mint.CollisionFree) {engine grown : Engine D}
    (well : WellExtended mint engine.extended)
    (sound : mint.dag.Sound (mint.n.committee byzantine bound) (view grown.extended))
    (keeps : Keeps engine.extended grown.extended) {heads order : List UnitHash}
    (emitted : Emitted mint bound engine heads order)
    (sameRound : grown.nextDecideRound = engine.nextDecideRound)
    (sameMarks : grown.emitted = engine.emitted) (sameOrder : grown.orderedTx = engine.orderedTx) :
    Emitted mint bound grown heads order := by
  refine ⟨?_, sameRound ▸ emitted.count, sameMarks ▸ emitted.batches, sameOrder ▸ emitted.ordered⟩
  intro round head headAt
  exact (emitted.chosen round head headAt).mono mint.dag sound mint.common_three
    (well.closed free) keeps.view (fun _ h => h)

end Growing

/-! ### Storing a unit -/

section Storing

variable {mint : Mint D}

/-- What `validate_unit` checks. -/
structure Checked (mint : Mint D) (ev : UnitEnvelope D) : Prop where
  admits : mint.Admits ev.unit
  signed : mint.verify mint.session ev.unit ev.signature ev.unit.creator = true
  committed : ev.unit.data = mint.commitment ev.data

theorem ensure_ok {condition : Prop} [Decidable condition] {error : String} :
    ensure condition error = .ok ⟨⟩ ↔ condition := by
  unfold ensure
  split
  · rename_i holds
    exact ⟨fun _ => holds, fun _ => rfl⟩
  · rename_i fails
    constructor
    · intro impossible
      cases impossible
    · exact fun holds => absurd holds fails

theorem ensure_bind_ok {α : Type} {condition : Prop} [Decidable condition] {error : String}
    {next : Unit → Except String α} {result : α} :
    (ensure condition error >>= next) = .ok result ↔ condition ∧ next ⟨⟩ = .ok result := by
  unfold ensure
  split
  · rename_i holds
    exact ⟨fun done => ⟨holds, done⟩, fun both => both.2⟩
  · rename_i fails
    constructor
    · intro impossible
      cases impossible
    · exact fun both => absurd both.1 fails

theorem validateUnit_ok (ev : UnitEnvelope D) :
    validateUnit mint ev = .ok ⟨⟩ ↔ Checked mint ev := by
  unfold validateUnit
  rw [ensure_bind_ok]
  by_cases root : ev.unit.round = 0
  · rw [if_pos root, ensure_bind_ok, ensure_bind_ok, ensure_ok]
    constructor
    · rintro ⟨creator, noParents, signed, committed⟩
      refine ⟨⟨creator, fun _ => noParents, fun above => absurd root above, ?_⟩, signed, committed⟩
      intro parentCreator named
      have empty : ev.unit.parents.keys = [] := by
        rw [← List.length_eq_zero_iff, SortedMap.keys_length, noParents]
      rw [empty] at named
      cases named
    · rintro ⟨⟨creator, noParents, _, _⟩, signed, committed⟩
      exact ⟨creator, noParents root, signed, committed⟩
  · rw [if_neg root, ensure_bind_ok, ensure_bind_ok, ensure_bind_ok, ensure_ok]
    constructor
    · rintro ⟨creator, threshold, named, signed, committed⟩
      exact ⟨⟨creator, fun isRoot => absurd isRoot root, fun _ => threshold, named⟩, signed,
        committed⟩
    · rintro ⟨⟨creator, _, threshold, named⟩, signed, committed⟩
      exact ⟨creator, threshold root, named, signed, committed⟩

theorem mem_indexUnit (rounds : Rounds) (round : Nat) (hash : UnitHash) (other : Nat)
    (otherHash : UnitHash) :
    otherHash ∈ roundUnits (indexUnit rounds round hash) other ↔
      (round = other ∧ hash = otherHash) ∨ otherHash ∈ roundUnits rounds other := by
  unfold roundUnits indexUnit
  rw [SortedMap.get?_insert]
  by_cases sameRound : round = other
  · subst sameRound
    rw [if_pos rfl]
    simp only [true_and]
    cases row : rounds.get? round with
    | none =>
        simp only [Option.getD_none, List.not_mem_nil, or_false]
        rw [SortedMap.mem_keys]
        simp only [SortedMap.get?_insert, SortedMap.get?_empty]
        split <;> simp [*]
    | some units =>
        simp only [Option.getD_some]
        rw [SortedMap.mem_keys, SortedMap.mem_keys]
        simp only [SortedMap.get?_insert]
        split <;> simp [*]
  · rw [if_neg sameRound]
    simp only [sameRound, false_and, false_or]

theorem TablesValid.insert {tables : BftTables D} (valid : TablesValid mint tables)
    {ev : UnitEnvelope D} (checked : Checked mint ev) :
    TablesValid mint (tables.insert (mint.unitHash ev.unit) ev) := by
  have cases_ : ∀ hash unit, (tables.insert (mint.unitHash ev.unit) ev).unit.get? hash = some unit →
      (mint.unitHash ev.unit = hash ∧ ev.unit = unit) ∨
        (mint.unitHash ev.unit ≠ hash ∧ tables.unit.get? hash = some unit) := by
    intro hash unit found
    simp only [BftTables.insert, SortedMap.get?_insert] at found
    split at found
    · rename_i same
      exact Or.inl ⟨same, Option.some.inj found⟩
    · rename_i different
      exact Or.inr ⟨different, found⟩
  refine ⟨?_, ?_, ?_, ?_⟩
  · intro hash unit found
    rcases cases_ hash unit found with ⟨rfl, rfl⟩ | ⟨_, old⟩
    · rfl
    · exact valid.hashed hash unit old
  · intro hash unit found
    rcases cases_ hash unit found with ⟨rfl, rfl⟩ | ⟨_, old⟩
    · exact checked.admits
    · exact valid.admitted hash unit old
  · intro hash unit found
    rcases cases_ hash unit found with ⟨rfl, rfl⟩ | ⟨different, old⟩
    · exact ⟨ev.data, SortedMap.get?_insert_self _ _ _, checked.committed⟩
    · obtain ⟨data, dataAt, committed⟩ := valid.payload hash unit old
      exact ⟨data, by rw [BftTables.insert, SortedMap.get?_insert_of_ne _ _ different, dataAt],
        committed⟩
  · intro hash unit found
    rcases cases_ hash unit found with ⟨rfl, rfl⟩ | ⟨different, old⟩
    · exact ⟨ev.signature, SortedMap.get?_insert_self _ _ _, checked.signed⟩
    · obtain ⟨signature, signatureAt, verified⟩ := valid.signed hash unit old
      exact ⟨signature,
        by rw [BftTables.insert, SortedMap.get?_insert_of_ne _ _ different, signatureAt], verified⟩

theorem Grounded.store {tables : BftTables D} {rounds : Rounds}
    {extended : SortedMap UnitHash BftUnit} (grounded : Grounded tables rounds extended)
    (ev : UnitEnvelope D) {hash : UnitHash} (absent : tables.unit.get? hash = none) :
    Grounded (tables.insert hash ev) (indexUnit rounds ev.unit.round hash) extended := by
  have different : ∀ other unit, tables.unit.get? other = some unit → ¬ hash = other := by
    intro other unit inTable same
    rw [same, inTable] at absent
    cases absent
  refine ⟨?_, ?_, grounded.fed⟩
  · intro round other
    rw [mem_indexUnit, grounded.index]
    simp only [BftTables.insert, SortedMap.get?_insert]
    constructor
    · rintro (⟨sameRound, sameHash⟩ | ⟨unit, inTable, atRound⟩)
      · exact ⟨ev.unit, by rw [if_pos sameHash], sameRound⟩
      · exact ⟨unit, by rw [if_neg (different other unit inTable), inTable], atRound⟩
    · rintro ⟨unit, found, atRound⟩
      split at found
      · rename_i same
        cases found
        exact Or.inl ⟨atRound, same⟩
      · exact Or.inr ⟨unit, found, atRound⟩
  · intro other unit found
    have inTable := grounded.stored other unit found
    simp only [BftTables.insert, SortedMap.get?_insert]
    rw [if_neg (different other unit inTable), inTable]

/-- Only the new unit can be waiting after it is stored. -/
theorem Frontier.store {tables : BftTables D} {extended : SortedMap UnitHash BftUnit}
    {exempt : UnitHash → Prop} (frontier : Frontier tables extended exempt) (ev : UnitEnvelope D)
    (hash : UnitHash) :
    Frontier (tables.insert hash ev) extended fun other => other = hash ∨ exempt other := by
  intro other unit found fed
  simp only [BftTables.insert, SortedMap.get?_insert] at found
  split at found
  · rename_i same
    exact Or.inr (Or.inl same.symm)
  · exact (frontier other unit found fed).imp_right Or.inr

end Storing

/-! ### Steps -/

section Steps

variable {setup : Setup D} {byzantine : Finset NodeId}
variable {bound : byzantine.card ≤ setup.n.maxEvil}

theorem runExtender_spec (free : setup.CollisionFree) {tables : BftTables D}
    (once : SingleVoiced byzantine tables.units) (engine : Engine D)
    (valid : TablesValid setup.toMint tables)
    (grounded : Grounded tables engine.rounds engine.extended)
    (complete : Frontier tables engine.extended fun _ => False)
    (caches : CachesSound setup.toMint bound engine) {heads order : List UnitHash}
    (emitted : Emitted setup.toMint bound engine heads order) :
    ∃ drained, engine.runExtender setup tables = some drained ∧ SameIndexes engine drained ∧
      Settled setup.toMint bound tables drained := by
  have well := grounded.wellExtended valid
  obtain ⟨drained, moreHeads, moreOrder, drainEq, same, caches', emitted', noHead⟩ :=
    drainHeads_spec free valid (engine.rounds.lastKey?.getD 0 + 1) engine well
      (grounded.sound free bound once valid) grounded.indexed grounded.stored caches emitted
      (by unfold stepBound; omega)
  refine ⟨drained, drainEq, same, valid, ?_, ?_, caches', moreHeads, moreOrder, emitted', ?_⟩
  · rw [same.rounds, same.extended]
    exact grounded
  · rw [same.extended]
    exact complete
  · rw [same.extended]
    exact noHead

/-- Extending and draining after a stored unit ends settled. -/
theorem Settled.advance (free : setup.CollisionFree) {tables : BftTables D} {engine : Engine D}
    (settled : Settled setup.toMint bound tables engine) {ev : UnitEnvelope D}
    (once : SingleVoiced byzantine (tables.insert (setup.unitHash ev.unit) ev).units)
    (checked : Checked setup.toMint ev) (absent : tables.unit.get? (setup.unitHash ev.unit) = none)
    (own : SortedSet Nat) (top : Option (Nat × UnitHash)) :
    ∃ engine', runExtender setup (tables.insert (setup.unitHash ev.unit) ev)
        (tryExtend (tables.insert (setup.unitHash ev.unit) ev)
          { engine with
            rounds := indexUnit engine.rounds ev.unit.round (setup.unitHash ev.unit)
            unorderedOwnData := own
            ownTop := top } (setup.unitHash ev.unit)) = some engine' ∧
      Settled setup.toMint bound (tables.insert (setup.unitHash ev.unit) ev) engine' ∧
      Keeps engine.extended engine'.extended ∧
      engine'.ownTop = top ∧ engine'.network = engine.network := by
  have valid' := settled.valid.insert checked
  have grounded' := settled.grounded.store ev absent
  have frontier := settled.complete.store ev (setup.unitHash ev.unit)
  obtain ⟨extended, extendEq, grounded'', keeps, complete'⟩ := tryExtend_spec
    (tables.insert (setup.unitHash ev.unit) ev) (fun _ => False) { engine with
      rounds := indexUnit engine.rounds ev.unit.round (setup.unitHash ev.unit)
      unorderedOwnData := own
      ownTop := top } grounded' (setup.unitHash ev.unit) frontier
  rw [extendEq]
  obtain ⟨heads, order, emitted, _⟩ := settled.emission
  have sound' := grounded''.sound free bound once valid'
  obtain ⟨drained, drainEq, same, settled'⟩ := runExtender_spec free once { engine with
      rounds := indexUnit engine.rounds ev.unit.round (setup.unitHash ev.unit)
      extended := extended
      unorderedOwnData := own
      ownTop := top } valid' grounded'' complete' (settled.caches.keeps keeps rfl rfl)
    (emitted.keeps free (settled.grounded.wellExtended settled.valid) sound' keeps rfl rfl rfl)
  exact ⟨drained, drainEq, settled', fun hash unit found => same.extended ▸ keeps hash unit found,
    same.ownTop, same.network⟩

end Steps

end Picomint.Bft
