/-
When an engine creates a unit.

Creation needs a threshold of extended units one round below the next own one,
the own unit among them, and items to carry or own items to wait for.  Nothing
else can keep a settled process from it, and what it has created stays
extended on its engine across restarts.
-/

import Picomint.Bft.OwnWork
import Picomint.Bft.Network

namespace Picomint.Bft

open Engine

variable {D : Type}

/-! ### Parents -/

theorem extendedRow_fills {engine : Engine D} {hashes : List UnitHash}
    {row : SortedMap NodeId UnitHash} {creator : NodeId}
    (covered : row.contains creator = true ∨ ∃ hash ∈ hashes, ∃ unit,
      engine.extended.get? hash = some unit ∧ unit.creator = creator) :
    (hashes.foldl (fun row hash =>
        match engine.extended.get? hash with
        | none => row
        | some unit => if row.contains unit.creator then row else row.insert unit.creator hash)
      row).contains creator = true := by
  induction hashes generalizing row with
  | nil =>
      rcases covered with present | ⟨hash, impossible, _⟩
      · exact present
      · cases impossible
  | cons first rest inductionHypothesis =>
      rw [List.foldl_cons]
      refine inductionHypothesis ?_
      rcases covered with present | ⟨hash, member, unit, unitAt, isCreator⟩
      · refine Or.inl ?_
        split
        · exact present
        · split
          · exact present
          · exact (SortedMap.contains_insert _ _ _ _).mpr (Or.inr present)
      · rcases List.mem_cons.mp member with isFirst | later
        · subst isFirst isCreator
          refine Or.inl ?_
          simp only [unitAt]
          split
          · assumption
          · exact (SortedMap.contains_insert _ _ _ _).mpr (Or.inl rfl)
        · exact Or.inr ⟨hash, later, unit, unitAt, isCreator⟩

theorem extendedRow_covers {engine : Engine D} {round : Nat} {hash : UnitHash} {unit : BftUnit}
    (listed : hash ∈ extendedAt engine.rounds engine.extended round)
    (found : engine.extended.get? hash = some unit) :
    (engine.extendedRow round).contains unit.creator = true :=
  extendedRow_fills (Or.inr ⟨hash, listed, unit, found, rfl⟩)

theorem ownFirst_length {setup : Setup D} {own : UnitHash} {row : SortedMap NodeId UnitHash}
    (listed : row.contains setup.id = true) : (ownFirst setup own row).length = row.size := by
  obtain ⟨hash, found⟩ := (row.contains_iff setup.id).mp listed
  have sameKeys : ((ownFirst setup own row).map Prod.fst).Perm row.keys := by
    rw [List.perm_ext_iff_of_nodup (ownFirst_distinct setup own row) row.keys_nodup]
    intro creator
    unfold ownFirst SortedMap.keys
    rw [List.map_cons, List.mem_cons, List.mem_map, List.mem_map]
    constructor
    · rintro (isOwn | ⟨entry, kept, same⟩)
      · exact ⟨(setup.id, hash), (row.mem_rows _ _).mpr found, isOwn.symm⟩
      · exact ⟨entry, List.mem_of_mem_filter kept, same⟩
    · rintro ⟨entry, member, same⟩
      by_cases isOwn : creator = setup.id
      · exact Or.inl isOwn
      · refine Or.inr ⟨entry, List.mem_filter.mpr ⟨member, ?_⟩, same⟩
        rw [same]
        simpa using isOwn
  rw [← List.length_map, sameKeys.length_eq, row.keys_length]

/-- A threshold of creators with extended units, the own one among them, is
enough for the parents of the next round. -/
theorem parentsFor_some {setup : Setup D} {engine : Engine D} {round : Nat}
    (group : Finset NodeId) (many : setup.n.threshold ≤ group.card) (own : setup.id ∈ group)
    (each : ∀ creator ∈ group, ∃ hash ∈ extendedAt engine.rounds engine.extended round, ∃ unit,
      engine.extended.get? hash = some unit ∧ unit.creator = creator) :
    ∃ parents, engine.parentsFor setup (round + 1) = some parents := by
  have listed : ∀ creator ∈ group, (engine.extendedRow round).contains creator = true := by
    intro creator member
    obtain ⟨hash, inRow, unit, found, isCreator⟩ := each creator member
    exact isCreator ▸ extendedRow_covers inRow found
  obtain ⟨hash, ownAt⟩ := ((engine.extendedRow round).contains_iff setup.id).mp (listed _ own)
  have enough : setup.n.threshold ≤ (engine.extendedRow round).size := by
    have within : group ⊆ (engine.extendedRow round).keys.toFinset := by
      intro creator member
      rw [List.mem_toFinset, SortedMap.mem_keys]
      exact (SortedMap.contains_iff _ _).mp (listed creator member)
    have counted := Finset.card_le_card within
    rw [List.toFinset_card_of_nodup (SortedMap.keys_nodup _), SortedMap.keys_length] at counted
    exact many.trans counted
  refine ⟨_, parentsFor_ok.mpr ⟨hash, ownAt, ?_, rfl⟩⟩
  rw [SortedMap.size_ofList
    ((ownFirst_distinct setup hash _).sublist ((List.take_sublist _ _).map Prod.fst)),
    List.length_take, ownFirst_length (listed _ own)]
  exact min_eq_left enough

/-! ### Creation -/

section Creating

variable {setup : Setup D} {byzantine : Finset NodeId} {bound : byzantine.card ≤ setup.n.maxEvil}
variable {process : Process D}

theorem Intact.own_below (intact : Intact setup process) {hash : UnitHash} {unit : BftUnit}
    (stored : process.committed.unit.get? hash = some unit) (own : unit.creator = setup.id) :
    unit.round < process.engine.nextRound := by
  obtain ⟨_, ev, member, same⟩ := intact.chain.complete hash unit stored own
  obtain ⟨index, within, evAt⟩ := List.getElem_of_mem member
  have atIndex := intact.chain.round index ev (by rw [List.getElem?_eq_getElem within, evAt])
  rw [intact.chain.nextRound intact.top, ← same]
  omega

theorem Intact.admits (intact : Intact setup process) (member : setup.id ∈ setup.n.nodeIds)
    {parents : SortedMap NodeId UnitHash} {data : Option Hash}
    (chosen : process.engine.parentsFor setup process.engine.nextRound = some parents) :
    setup.Admits ⟨process.engine.nextRound, setup.id, parents, data⟩ := by
  cases round : process.engine.nextRound with
  | zero =>
      rw [round] at chosen
      cases chosen
      refine ⟨member, fun _ => rfl, fun above => absurd rfl above, ?_⟩
      intro creator impossible
      cases impossible
  | succ below =>
      rw [round] at chosen
      obtain ⟨_, _, size, _⟩ := parentsFor_ok.mp chosen
      refine ⟨member, fun impossible => ?_, fun _ => size, ?_⟩
      · cases impossible
      · intro creator named
        obtain ⟨hash, found⟩ := (parents.mem_keys creator).mp named
        obtain ⟨unit, unitAt, isCreator, _⟩ := parentsFor_named chosen found
        exact isCreator ▸
          (intact.valid.admitted hash unit (intact.grounded.stored hash unit unitAt)).creator

theorem SingleVoiced.insert {tables : BftTables D} (once : SingleVoiced byzantine tables.units)
    {hash : UnitHash} {ev : UnitEnvelope D}
    (fresh : ∀ unit ∈ tables.units, unit.creator = ev.unit.creator →
      unit.round ≠ ev.unit.round) : SingleVoiced byzantine (tables.insert hash ev).units := by
  have origin : ∀ unit ∈ (tables.insert hash ev).units, unit ∈ tables.units ∨ ev.unit = unit := by
    rintro unit ⟨other, found⟩
    rw [BftTables.insert, SortedMap.get?_insert] at found
    split at found
    · exact Or.inr (Option.some.inj found)
    · exact Or.inl ⟨other, found⟩
  intro left leftMember right rightMember honest sameCreator sameRound
  rcases origin left leftMember with leftOld | leftNew
  · rcases origin right rightMember with rightOld | rightNew
    · exact once left leftOld right rightOld honest sameCreator sameRound
    · subst rightNew
      exact absurd sameRound (fresh left leftOld sameCreator)
  · rcases origin right rightMember with rightOld | rightNew
    · subst leftNew
      exact absurd sameRound.symm (fresh right rightOld sameCreator.symm)
    · exact leftNew.symm.trans rightNew

/-- With parents chosen and work to do, a unit is created. -/
theorem persistUnit_some (free : setup.CollisionFree) (intact : Intact setup process)
    (settled : Settled setup.toMint bound process.committed process.engine)
    (once : SingleVoiced byzantine process.committed.units)
    (member : setup.id ∈ setup.n.nodeIds)
    (signs : ∀ unit : BftUnit, unit.creator = setup.id →
      setup.verify setup.session unit (setup.sign setup.session unit) setup.id = true)
    {parents : SortedMap NodeId UnitHash}
    (chosen : process.engine.parentsFor setup process.engine.nextRound = some parents)
    {data : List D} (work : (data.isEmpty && !process.engine.hasUnorderedOwnData) = false) :
    ∃ ev engine tables, persistUnit setup data process.committed process.engine =
      some (some ev, engine, tables) := by
  let ev : UnitEnvelope D :=
    { unit := ⟨process.engine.nextRound, setup.id, parents, setup.commitment data⟩
      data := data
      signature := setup.sign setup.session
        ⟨process.engine.nextRound, setup.id, parents, setup.commitment data⟩ }
  have checked : Checked setup.toMint ev := ⟨intact.admits member chosen, signs _ rfl, rfl⟩
  have fresh : ∀ unit ∈ process.committed.units, unit.creator = ev.unit.creator →
      unit.round ≠ ev.unit.round :=
    fun unit stored own => (intact.own_below stored.choose_spec own).ne
  have absent : process.committed.unit.get? (setup.unitHash ev.unit) = none := by
    cases stored : process.committed.unit.get? (setup.unitHash ev.unit) with
    | none => rfl
    | some other =>
        have same : other = ev.unit := free.unitHash (intact.valid.hashed _ other stored)
        exact absurd (congrArg BftUnit.round same)
          (fresh other ⟨_, stored⟩ (congrArg BftUnit.creator same))
  have inserted : insertUnit setup process.committed process.engine ev
      (setup.unitHash ev.unit) = .ok (stored setup process.engine ev,
        process.committed.insert (setup.unitHash ev.unit) ev) :=
    insertUnit_ok.mpr ⟨checked, absent, rfl, rfl⟩
  obtain ⟨engine, drained, _⟩ := settled.advance free (once.insert fresh) checked absent
    (if ev.unit.data.isSome then process.engine.unorderedOwnData.insert ev.unit.round ⟨⟩
      else process.engine.unorderedOwnData)
    (advanceTop setup.id process.engine.ownTop ev.unit (setup.unitHash ev.unit))
  -- the branch on the payload is taken inside the update of the engine
  have extended : runExtender setup (process.committed.insert (setup.unitHash ev.unit) ev)
      (tryExtend (process.committed.insert (setup.unitHash ev.unit) ev)
        (if ev.unit.data.isSome then { stored setup process.engine ev with
            unorderedOwnData := (stored setup process.engine ev).unorderedOwnData.insert
              ev.unit.round ⟨⟩ }
          else stored setup process.engine ev) (setup.unitHash ev.unit)) = some engine := by
    cases hasData : ev.unit.data.isSome with
    | true =>
        rw [hasData] at drained
        exact drained
    | false =>
        rw [hasData] at drained
        exact drained
  refine ⟨ev, engine, process.committed.insert (setup.unitHash ev.unit) ev, ?_⟩
  unfold persistUnit
  simp only [ev] at inserted extended ⊢
  simp only [chosen, work, Bool.false_eq_true, if_false, inserted, extended]

end Creating

end Picomint.Bft
