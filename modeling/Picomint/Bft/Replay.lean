/-
Replay: the engine rebuilt from the tables is settled.

The fold over the stored rows rebuilds the round index and the own top; the
cascade from the round-zero units rebuilds the extended units; one run of the
extender emits all heads of the view.
-/

import Picomint.Bft.Invariant

namespace Picomint.Bft

open VirtualVoting BreadthFirst Engine

variable {D : Type}

/-! ### What the extender leaves alone -/

theorem decide_frame {setup : Setup D} {engine after : Engine D} {candidate : UnitHash}
    {result : Option Bool} (decided : engine.decide setup.toMint candidate = some (result, after)) :
    SameIndexes engine after := by
  unfold Engine.decide at decided
  split at decided
  · cases decided
    exact SameIndexes.refl _
  · split at decided
    · cases decided
    · split at decided
      · cases decided
      · cases decided
        exact ⟨rfl, rfl, rfl, rfl, rfl⟩
      · cases decided
        exact ⟨rfl, rfl, rfl, rfl, rfl⟩

theorem walkCandidates_frame {setup : Setup D} (candidates : List UnitHash)
    {engine after : Engine D} {result : Option UnitHash}
    (walked : engine.walkCandidates setup.toMint candidates = some (result, after)) :
    SameIndexes engine after := by
  induction candidates generalizing engine with
  | nil =>
      cases walked
      exact SameIndexes.refl _
  | cons candidate rest ih =>
      unfold walkCandidates at walked
      split at walked
      · cases walked
      · rename_i decided
        cases walked
        exact decide_frame decided
      · rename_i decided
        exact (decide_frame decided).trans (ih walked)
      · rename_i decided
        cases walked
        exact decide_frame decided

theorem chooseHead_frame {setup : Setup D} {engine after : Engine D} {round : Nat}
    {result : Option UnitHash} (chosen : engine.chooseHead setup.toMint round = some (result, after)) :
    SameIndexes engine after := by
  unfold chooseHead at chosen
  split at chosen
  · cases chosen
    exact SameIndexes.refl _
  · exact walkCandidates_frame _ chosen

theorem bfsBatch_frame {engine after : Engine D} {head : UnitHash} {batch : List UnitHash}
    (searched : engine.bfsBatch head = some (batch, after)) : SameIndexes engine after := by
  unfold bfsBatch at searched
  split at searched
  · cases searched
  · split at searched
    · cases searched
    · cases searched
      exact ⟨rfl, rfl, rfl, rfl, rfl⟩

theorem emitBatch_frame {setup : Setup D} {tables : BftTables D} (batch : List UnitHash)
    {engine after : Engine D} (emitted : engine.emitBatch setup tables batch = some after) :
    SameIndexes engine after := by
  induction batch generalizing engine with
  | nil =>
      cases emitted
      exact SameIndexes.refl _
  | cons hash rest ih =>
      unfold emitBatch emitUnit at emitted
      split at emitted
      · cases emitted
      · rename_i unitEq
        split at unitEq
        · cases unitEq
          have later := ih emitted
          exact ⟨later.rounds, later.extended, later.ownTop, later.requestSentAt, later.network⟩
        · cases unitEq

theorem drainHeads_frame {setup : Setup D} {tables : BftTables D} (steps : Nat)
    {engine after : Engine D} (drained : engine.drainHeads setup tables steps = some after) :
    SameIndexes engine after := by
  induction steps generalizing engine with
  | zero => cases drained
  | succ steps ih =>
      unfold drainHeads at drained
      split at drained
      · cases drained
      · rename_i chosen
        cases drained
        exact chooseHead_frame chosen
      · rename_i chosen
        split at drained
        · cases drained
        · rename_i searched
          split at drained
          · cases drained
          · rename_i emitted
            have first := (chooseHead_frame chosen).trans (bfsBatch_frame searched)
            have later := ih drained
            exact (first.trans (emitBatch_frame _ emitted)).trans
              ⟨later.rounds, later.extended, later.ownTop, later.requestSentAt, later.network⟩

theorem runExtender_frame {setup : Setup D} {tables : BftTables D} {engine after : Engine D}
    (drained : engine.runExtender setup tables = some after) : SameIndexes engine after :=
  drainHeads_frame _ drained

/-! ### The own top -/

def TopOf (id : NodeId) (present : UnitHash → BftUnit → Prop) :
    Option (Nat × UnitHash) → Prop
  | none => ∀ hash unit, present hash unit → unit.creator ≠ id
  | some top => (∃ unit, present top.2 unit ∧ unit.creator = id ∧ unit.round = top.1) ∧
      ∀ hash unit, present hash unit → unit.creator = id → unit.round ≤ top.1

theorem TopOf.advance {id : NodeId} {present grown : UnitHash → BftUnit → Prop}
    {ownTop : Option (Nat × UnitHash)} (isTop : TopOf id present ownTop) {hash : UnitHash}
    {unit : BftUnit}
    (adds : ∀ other body, grown other body ↔ (hash = other ∧ unit = body) ∨ present other body) :
    TopOf id grown (advanceTop id ownTop unit hash) := by
  have new : grown hash unit := (adds hash unit).mpr (Or.inl ⟨rfl, rfl⟩)
  unfold advanceTop
  by_cases own : unit.creator = id
  · rw [if_pos own]
    cases ownTop with
    | none =>
        refine ⟨⟨unit, new, own, rfl⟩, ?_⟩
        intro other body isPresent isOwn
        rcases (adds other body).mp isPresent with ⟨rfl, rfl⟩ | old
        · exact Nat.le_refl _
        · exact absurd isOwn (isTop other body old)
    | some top =>
        obtain ⟨⟨topUnit, topPresent, topOwn, topRound⟩, below⟩ := isTop
        simp only
        split
        · rename_i higher
          refine ⟨⟨unit, new, own, rfl⟩, ?_⟩
          intro other body isPresent isOwn
          rcases (adds other body).mp isPresent with ⟨rfl, rfl⟩ | old
          · exact Nat.le_refl _
          · exact (below other body old isOwn).trans higher.le
        · rename_i notHigher
          refine ⟨⟨topUnit, (adds top.2 topUnit).mpr (Or.inr topPresent), topOwn, topRound⟩, ?_⟩
          intro other body isPresent isOwn
          rcases (adds other body).mp isPresent with ⟨rfl, rfl⟩ | old
          · omega
          · exact below other body old isOwn
  · rw [if_neg own]
    cases ownTop with
    | none =>
        intro other body isPresent
        rcases (adds other body).mp isPresent with ⟨rfl, rfl⟩ | old
        · exact own
        · exact isTop other body old
    | some top =>
        obtain ⟨⟨topUnit, topPresent, rest⟩, below⟩ := isTop
        refine ⟨⟨topUnit, (adds top.2 topUnit).mpr (Or.inr topPresent), rest⟩, ?_⟩
        intro other body isPresent isOwn
        rcases (adds other body).mp isPresent with ⟨rfl, rfl⟩ | old
        · exact absurd isOwn own
        · exact below other body old isOwn

theorem TopOf.congr {id : NodeId} {present same : UnitHash → BftUnit → Prop}
    {ownTop : Option (Nat × UnitHash)} (isTop : TopOf id present ownTop)
    (agree : ∀ hash unit, same hash unit ↔ present hash unit) : TopOf id same ownTop := by
  have equal : same = present := funext fun hash => funext fun unit => propext (agree hash unit)
  exact equal ▸ isTop

/-! ### Rebuilding the indexes -/

theorem indexRows_spec (setup : Setup D) (rows : List (UnitHash × BftUnit)) (engine : Engine D)
    {present : UnitHash → BftUnit → Prop} (isTop : TopOf setup.id present engine.ownTop) :
    ∃ rounds own top, rows.foldl (indexRow setup) engine =
        { engine with rounds := rounds, unorderedOwnData := own, ownTop := top } ∧
      (∀ round hash, hash ∈ roundUnits rounds round ↔
        (∃ unit, (hash, unit) ∈ rows ∧ unit.round = round) ∨
          hash ∈ roundUnits engine.rounds round) ∧
      TopOf setup.id (fun hash unit => (hash, unit) ∈ rows ∨ present hash unit) top := by
  induction rows generalizing engine present with
  | nil =>
      refine ⟨engine.rounds, engine.unorderedOwnData, engine.ownTop, rfl, ?_, ?_⟩
      · intro round hash
        simp
      · exact isTop.congr fun hash unit => by simp
  | cons row rest ih =>
      have isTop' : TopOf setup.id
          (fun hash unit => (row.1 = hash ∧ row.2 = unit) ∨ present hash unit)
          (indexRow setup engine row).ownTop := isTop.advance fun _ _ => Iff.rfl
      obtain ⟨rounds, own, top, foldEq, indexed, topIs⟩ := ih (indexRow setup engine row) isTop'
      refine ⟨rounds, own, top, foldEq, ?_, ?_⟩
      · intro round hash
        rw [indexed, indexRow, mem_indexUnit]
        constructor
        · rintro (⟨unit, member, atRound⟩ | ⟨atRound, same⟩ | old)
          · exact Or.inl ⟨unit, List.mem_cons_of_mem row member, atRound⟩
          · exact Or.inl ⟨row.2, by rw [← same]; exact List.mem_cons_self, atRound⟩
          · exact Or.inr old
        · rintro (⟨unit, member, atRound⟩ | old)
          · rcases List.mem_cons.mp member with rfl | later
            · exact Or.inr (Or.inl ⟨atRound, rfl⟩)
            · exact Or.inl ⟨unit, later, atRound⟩
          · exact Or.inr (Or.inr old)
      · refine topIs.congr fun hash unit => ?_
        rw [List.mem_cons, Prod.ext_iff, eq_comm (a := (hash, unit).1), eq_comm (a := (hash, unit).2)]
        tauto

theorem extendRoots_spec (tables : BftTables D) (roots : List UnitHash) (engine : Engine D)
    (grounded : Grounded tables engine.rounds engine.extended)
    (frontier : Frontier tables engine.extended fun hash => hash ∈ roots) :
    ∃ extended, roots.foldl (tryExtend tables) engine = { engine with extended := extended } ∧
      Grounded tables engine.rounds extended ∧ Frontier tables extended fun _ => False := by
  induction roots generalizing engine with
  | nil =>
      refine ⟨engine.extended, rfl, grounded, ?_⟩
      intro hash unit inTable fed
      exact (frontier hash unit inTable fed).imp_right List.not_mem_nil
  | cons root rest ih =>
      obtain ⟨middle, extendEq, grounded', _, frontier'⟩ :=
        tryExtend_spec tables (fun hash => hash ∈ rest) engine grounded root
          (fun hash unit inTable fed => (frontier hash unit inTable fed).imp_right List.mem_cons.mp)
      rw [List.foldl_cons, extendEq]
      exact ih { engine with extended := middle } grounded' frontier'

/-- The engine `replay` hands to the extender. -/
theorem rebuild_spec {setup : Setup D} {tables : BftTables D} (valid : TablesValid setup.toMint tables) :
    ∃ rounds own top extended, rebuild setup tables =
        { (Engine.new : Engine D) with
          rounds := rounds
          unorderedOwnData := own
          ownTop := top
          extended := extended } ∧
      Grounded tables rounds extended ∧ Frontier tables extended (fun _ => False) ∧
      TopOf setup.id (fun hash unit => tables.unit.get? hash = some unit) top := by
  have noTop : TopOf setup.id (fun _ _ => False) (Engine.new : Engine D).ownTop :=
    fun _ _ impossible => impossible.elim
  obtain ⟨rounds, own, top, foldEq, indexed, topIs⟩ :=
    indexRows_spec setup tables.unit.rows Engine.new noTop
  simp only [rebuild, foldEq]
  have grounded : Grounded tables rounds SortedMap.empty := by
    refine ⟨?_, ?_, ?_⟩
    · intro round hash
      rw [indexed]
      simp only [tables.unit.mem_rows]
      exact or_iff_left List.not_mem_nil
    · intro hash unit impossible
      cases impossible
    · intro hash unit impossible
      cases impossible
  have frontier : Frontier tables SortedMap.empty fun hash => hash ∈ roundUnits rounds 0 := by
    intro hash unit inTable fed
    refine Or.inr ((grounded.index 0 hash).mpr ⟨unit, inTable, ?_⟩)
    by_contra above
    have size := (valid.admitted hash unit inTable).threshold above
    have hasParent : ∃ entry, entry ∈ unit.parents.rows := by
      refine List.exists_mem_of_length_pos ?_
      change 0 < unit.parents.size
      rw [size, NumNodes.threshold]
      omega
    obtain ⟨⟨creator, parent⟩, member⟩ := hasParent
    obtain ⟨body, impossible, _⟩ := (parentsFed_iff _ unit).mp fed creator parent
      ((unit.parents.mem_rows creator parent).mp member)
    cases impossible
  obtain ⟨extended, extendEq, grounded', complete⟩ := extendRoots_spec tables
    (roundUnits rounds 0) { (Engine.new : Engine D) with
      rounds := rounds, unorderedOwnData := own, ownTop := top } grounded frontier
  refine ⟨rounds, own, top, extended, extendEq, grounded', complete, ?_⟩
  exact topIs.congr fun hash unit => by rw [tables.unit.mem_rows, or_false]

theorem replay_frame {setup : Setup D} {tables : BftTables D} (valid : TablesValid setup.toMint tables)
    {engine : Engine D} (replayed : replay setup tables = some engine) :
    Grounded tables engine.rounds engine.extended ∧
      TopOf setup.id (fun hash unit => tables.unit.get? hash = some unit) engine.ownTop ∧
      engine.network = [] := by
  obtain ⟨rounds, own, top, extended, rebuildEq, grounded, _, topIs⟩ := rebuild_spec valid
  unfold replay at replayed
  rw [rebuildEq] at replayed
  have same := runExtender_frame replayed
  rw [same.rounds, same.extended, same.ownTop, same.network]
  exact ⟨grounded, topIs, rfl⟩

/-- Replay over valid tables never fails and ends settled. -/
theorem replay_spec {setup : Setup D} (free : setup.CollisionFree) {byzantine : Finset NodeId}
    (bound : byzantine.card ≤ setup.n.maxEvil) {tables : BftTables D}
    (once : SingleVoiced byzantine tables.units) (valid : TablesValid setup.toMint tables) :
    ∃ engine, replay setup tables = some engine ∧ Settled setup.toMint bound tables engine := by
  obtain ⟨rounds, own, top, extended, rebuildEq, grounded, complete, _⟩ := rebuild_spec valid
  have caches : CachesSound setup.toMint bound { (Engine.new : Engine D) with
      rounds := rounds, unorderedOwnData := own, ownTop := top, extended := extended } :=
    ⟨VotesSound.empty setup.toMint, fun _ _ impossible => by cases impossible⟩
  have emitted : Emitted setup.toMint bound { (Engine.new : Engine D) with
      rounds := rounds, unorderedOwnData := own, ownTop := top, extended := extended } [] [] :=
    ⟨fun _ _ impossible => (by cases impossible), rfl, Batches.done, rfl⟩
  obtain ⟨engine, drainEq, _, settled⟩ :=
    runExtender_spec free once _ valid grounded complete caches emitted
  refine ⟨engine, ?_, settled⟩
  unfold replay
  rw [rebuildEq]
  exact drainEq

end Picomint.Bft
