/-
Extension: the extended units are the least set of stored units closed under
fed parents.

A sweep of one round can only make units of the next round feedable, so
sweeping ascending rounds until one yields nothing leaves no stored unit with
fed parents behind.  `Frontier` says where such units may still wait.
-/

import Picomint.Bft.Emission

namespace Picomint.Bft

open Engine

variable {D : Type}

/-! ### Fed parents -/

theorem parentFed_iff (extended : SortedMap UnitHash BftUnit) (unit : BftUnit)
    (creator : NodeId) (parent : UnitHash) :
    (match extended.get? parent with
      | none => false
      | some body => body.creator == creator && body.round + 1 == unit.round) = true ↔
      ∃ body, extended.get? parent = some body ∧ body.creator = creator ∧
        body.round + 1 = unit.round := by
  cases extended.get? parent with
  | none => simp
  | some body => simp

theorem parentsFed_iff (extended : SortedMap UnitHash BftUnit) (unit : BftUnit) :
    parentsFed extended unit = true ↔
      ∀ creator parent, unit.parents.get? creator = some parent →
        ∃ body, extended.get? parent = some body ∧ body.creator = creator ∧
          body.round + 1 = unit.round := by
  have entry := parentFed_iff extended unit
  unfold parentsFed
  rw [List.all_eq_true]
  constructor
  · intro all creator parent parentAt
    exact (entry creator parent).mp (all _ ((unit.parents.mem_rows creator parent).mpr parentAt))
  · rintro all ⟨creator, parent⟩ member
    exact (entry creator parent).mpr (all creator parent
      ((unit.parents.mem_rows creator parent).mp member))

/-- One map of extended units holds everything another one does. -/
def Keeps (before after : SortedMap UnitHash BftUnit) : Prop :=
  ∀ hash unit, before.get? hash = some unit → after.get? hash = some unit

theorem Keeps.refl (extended : SortedMap UnitHash BftUnit) : Keeps extended extended :=
  fun _ _ found => found

theorem Keeps.trans {first second third : SortedMap UnitHash BftUnit}
    (left : Keeps first second) (right : Keeps second third) : Keeps first third :=
  fun hash unit found => right hash unit (left hash unit found)

theorem Keeps.contains {before after : SortedMap UnitHash BftUnit} (keeps : Keeps before after)
    {hash : UnitHash} (present : before.contains hash = true) : after.contains hash = true := by
  obtain ⟨unit, found⟩ := (before.contains_iff hash).mp present
  exact (after.contains_iff hash).mpr ⟨unit, keeps hash unit found⟩

theorem Keeps.view {before after : SortedMap UnitHash BftUnit} (keeps : Keeps before after) :
    view before ⊆ view after :=
  fun hash ⟨unit, found⟩ => ⟨unit, keeps hash unit found⟩

theorem Keeps.fed {before after : SortedMap UnitHash BftUnit} (keeps : Keeps before after)
    {unit : BftUnit} (fed : parentsFed before unit = true) : parentsFed after unit = true := by
  rw [parentsFed_iff] at fed ⊢
  intro creator parent parentAt
  obtain ⟨body, bodyAt, rest⟩ := fed creator parent parentAt
  exact ⟨body, keeps parent body bodyAt, rest⟩

/-- What is new in `after` sits at one round. -/
def AddsAt (round : Nat) (before after : SortedMap UnitHash BftUnit) : Prop :=
  ∀ hash unit, after.get? hash = some unit → before.get? hash = some unit ∨ unit.round = round

theorem AddsAt.fed_or_above {round : Nat} {before after : SortedMap UnitHash BftUnit}
    (adds : AddsAt round before after) {unit : BftUnit} (fed : parentsFed after unit = true) :
    parentsFed before unit = true ∨ unit.round = round + 1 := by
  by_cases above : unit.round = round + 1
  · exact Or.inr above
  · refine Or.inl ?_
    rw [parentsFed_iff] at fed ⊢
    intro creator parent parentAt
    obtain ⟨body, bodyAt, bodyCreator, bodyRound⟩ := fed creator parent parentAt
    rcases adds parent body bodyAt with old | new
    · exact ⟨body, old, bodyCreator, bodyRound⟩
    · omega

theorem AddsAt.trans {round : Nat} {first second third : SortedMap UnitHash BftUnit}
    (left : AddsAt round first second) (right : AddsAt round second third) :
    AddsAt round first third := by
  intro hash unit found
  rcases right hash unit found with middle | new
  · exact left hash unit middle
  · exact Or.inr new

/-! ### The round index and the extended units -/

/-- The round index lists the stored units, the extended ones among them are
fed by extended parents. -/
structure Grounded (tables : BftTables D) (rounds : Rounds)
    (extended : SortedMap UnitHash BftUnit) : Prop where
  index : ∀ round hash, hash ∈ roundUnits rounds round ↔
    ∃ unit, tables.unit.get? hash = some unit ∧ unit.round = round
  stored : ∀ hash unit, extended.get? hash = some unit → tables.unit.get? hash = some unit
  fed : ∀ hash unit, extended.get? hash = some unit → parentsFed extended unit = true

theorem Grounded.wellExtended {mint : Mint D} {tables : BftTables D} {rounds : Rounds}
    {extended : SortedMap UnitHash BftUnit} (valid : TablesValid mint tables)
    (grounded : Grounded tables rounds extended) : WellExtended mint extended :=
  ⟨fun hash unit found => valid.hashed hash unit (grounded.stored hash unit found),
    fun hash unit found => valid.admitted hash unit (grounded.stored hash unit found),
    fun hash unit found => (parentsFed_iff extended unit).mp (grounded.fed hash unit found)⟩

theorem Grounded.indexed {tables : BftTables D} {rounds : Rounds}
    {extended : SortedMap UnitHash BftUnit} (grounded : Grounded tables rounds extended) :
    Indexed rounds extended := by
  intro round hash
  rw [extendedAt, List.mem_filter, grounded.index, SortedMap.contains_iff]
  constructor
  · rintro ⟨⟨unit, inTable, atRound⟩, body, found⟩
    have same := grounded.stored hash body found
    rw [inTable] at same
    exact ⟨body, found, Option.some.inj same ▸ atRound⟩
  · rintro ⟨unit, found, atRound⟩
    exact ⟨⟨unit, grounded.stored hash unit found, atRound⟩, unit, found⟩

theorem Grounded.insert {tables : BftTables D} {rounds : Rounds}
    {extended : SortedMap UnitHash BftUnit} (grounded : Grounded tables rounds extended)
    {hash : UnitHash} {unit : BftUnit} (inTable : tables.unit.get? hash = some unit)
    (fed : parentsFed extended unit = true) :
    Grounded tables rounds (extended.insert hash unit) ∧
      Keeps extended (extended.insert hash unit) ∧
      AddsAt unit.round extended (extended.insert hash unit) := by
  have keeps : Keeps extended (extended.insert hash unit) := by
    intro other body found
    rw [SortedMap.get?_insert]
    split
    · rename_i same
      have inTable' := grounded.stored other body found
      rw [← same, inTable] at inTable'
      exact inTable'
    · exact found
  have origin : ∀ other body, (extended.insert hash unit).get? other = some body →
      (hash = other ∧ unit = body) ∨ extended.get? other = some body := by
    intro other body found
    rw [SortedMap.get?_insert] at found
    split at found
    · rename_i same
      exact Or.inl ⟨same, Option.some.inj found⟩
    · exact Or.inr found
  refine ⟨⟨grounded.index, ?_, ?_⟩, keeps, ?_⟩
  · intro other body found
    rcases origin other body found with ⟨rfl, rfl⟩ | old
    · exact inTable
    · exact grounded.stored other body old
  · intro other body found
    rcases origin other body found with ⟨rfl, rfl⟩ | old
    · exact keeps.fed fed
    · exact keeps.fed (grounded.fed other body old)
  · intro other body found
    rcases origin other body found with ⟨rfl, rfl⟩ | old
    · exact Or.inr rfl
    · exact Or.inl old

def Frontier (tables : BftTables D) (extended : SortedMap UnitHash BftUnit)
    (exempt : UnitHash → Prop) : Prop :=
  ∀ hash unit, tables.unit.get? hash = some unit → parentsFed extended unit = true →
    extended.contains hash = true ∨ exempt hash

def StoredAt (tables : BftTables D) (round : Nat) (hash : UnitHash) : Prop :=
  ∃ unit, tables.unit.get? hash = some unit ∧ unit.round = round

/-! ### Sweeps -/

theorem maybeExtend_spec (tables : BftTables D) (engine : Engine D) (hash : UnitHash) :
    (∃ unit, tables.unit.get? hash = some unit ∧ parentsFed engine.extended unit = true ∧
      maybeExtend tables engine hash =
        (some unit.round, { engine with extended := engine.extended.insert hash unit })) ∨
    (maybeExtend tables engine hash = (none, engine) ∧
      ∀ unit, tables.unit.get? hash = some unit → parentsFed engine.extended unit = true →
        engine.extended.contains hash = true) := by
  unfold maybeExtend isExtended
  split
  · rename_i present
    exact Or.inr ⟨rfl, fun _ _ _ => present⟩
  · cases stored : tables.unit.get? hash with
    | none =>
        refine Or.inr ⟨rfl, fun unit impossible => ?_⟩
        cases impossible
    | some unit =>
        by_cases fed : parentsFed engine.extended unit = true
        · exact Or.inl ⟨unit, rfl, fed, by simp only [fed, if_true]⟩
        · refine Or.inr ⟨by simp only [fed]; rfl, fun other same isFed => ?_⟩
          cases same
          exact absurd isFed fed

theorem sweep_spec (tables : BftTables D) {round : Nat} (candidates : List UnitHash)
    (atRound : ∀ hash ∈ candidates, ∀ unit, tables.unit.get? hash = some unit → unit.round = round)
    (engine : Engine D) (grounded : Grounded tables engine.rounds engine.extended) :
    ∃ progress extended,
      sweep tables candidates engine = (progress, { engine with extended := extended }) ∧
      Grounded tables engine.rounds extended ∧ Keeps engine.extended extended ∧
      AddsAt round engine.extended extended ∧ (progress = false → extended = engine.extended) ∧
      ∀ hash ∈ candidates, ∀ unit, tables.unit.get? hash = some unit →
        parentsFed engine.extended unit = true → extended.contains hash = true := by
  induction candidates generalizing engine with
  | nil =>
      refine ⟨false, engine.extended, rfl, grounded, Keeps.refl _, fun _ _ => Or.inl,
        fun _ => rfl, ?_⟩
      intro hash impossible
      cases impossible
  | cons candidate rest ih =>
      have restAt := fun hash member => atRound hash (List.mem_cons_of_mem candidate member)
      rcases maybeExtend_spec tables engine candidate with
        ⟨unit, inTable, fed, extendEq⟩ | ⟨extendEq, settled⟩
      · have unitRound := atRound candidate List.mem_cons_self unit inTable
        obtain ⟨grounded', keeps, adds⟩ := grounded.insert inTable fed
        rw [unitRound] at adds
        obtain ⟨progress, extended, sweepEq, grounded'', keeps', adds', _, covers⟩ :=
          ih restAt { engine with extended := engine.extended.insert candidate unit } grounded'
        refine ⟨true, extended, ?_, grounded'', keeps.trans keeps', adds.trans adds', ?_, ?_⟩
        · simp only [sweep, extendEq, sweepEq, Option.isSome_some, Bool.true_or]
        · intro impossible
          cases impossible
        · intro hash member body bodyAt bodyFed
          rcases List.mem_cons.mp member with rfl | later
          · exact keeps'.contains ((SortedMap.contains_iff _ hash).mpr
              ⟨unit, SortedMap.get?_insert_self _ hash unit⟩)
          · exact covers hash later body bodyAt (keeps.fed bodyFed)
      · obtain ⟨progress, extended, sweepEq, grounded', keeps, adds, idle, covers⟩ :=
          ih restAt engine grounded
        refine ⟨progress, extended, ?_, grounded', keeps, adds, idle, ?_⟩
        · simp only [sweep, extendEq, sweepEq, Option.isSome_none, Bool.false_or]
        · intro hash member body bodyAt bodyFed
          rcases List.mem_cons.mp member with rfl | later
          · exact keeps.contains (settled body bodyAt bodyFed)
          · exact covers hash later body bodyAt bodyFed

/-- Sweeping upwards from the round where fed units wait leaves none. -/
theorem sweepFrom_spec (tables : BftTables D) {exempt : UnitHash → Prop} (steps : Nat)
    {round : Nat} (engine : Engine D) (grounded : Grounded tables engine.rounds engine.extended)
    (frontier : Frontier tables engine.extended fun hash => StoredAt tables round hash ∨ exempt hash)
    (enough : ∀ hash unit, tables.unit.get? hash = some unit → unit.round < round + steps) :
    ∃ extended, sweepFrom tables steps round engine = { engine with extended := extended } ∧
      Grounded tables engine.rounds extended ∧ Keeps engine.extended extended ∧
      Frontier tables extended exempt := by
  induction steps generalizing round engine with
  | zero =>
      refine ⟨engine.extended, rfl, grounded, Keeps.refl _, ?_⟩
      intro hash unit inTable fed
      rcases frontier hash unit inTable fed with present | ⟨other, otherAt, atRound⟩ | isExempt
      · exact Or.inl present
      · have below := enough hash other otherAt
        omega
      · exact Or.inr isExempt
  | succ steps ih =>
      have listed : ∀ hash ∈ roundUnits engine.rounds round, ∀ unit,
          tables.unit.get? hash = some unit → unit.round = round := by
        intro hash member unit inTable
        obtain ⟨other, otherAt, atRound⟩ := (grounded.index round hash).mp member
        rw [inTable] at otherAt
        exact Option.some.inj otherAt ▸ atRound
      obtain ⟨progress, extended, sweepEq, grounded', keeps, adds, idle, covers⟩ :=
        sweep_spec tables _ listed engine grounded
      have settled : ∀ hash unit, tables.unit.get? hash = some unit →
          parentsFed engine.extended unit = true → extended.contains hash = true ∨ exempt hash := by
        intro hash unit inTable fed
        rcases frontier hash unit inTable fed with present | waits | isExempt
        · exact Or.inl (keeps.contains present)
        · exact Or.inl (covers hash ((grounded.index round hash).mpr waits) unit inTable fed)
        · exact Or.inr isExempt
      simp only [sweepFrom, sweepEq]
      cases progress with
      | false =>
          refine ⟨extended, rfl, grounded', keeps, ?_⟩
          intro hash unit inTable fed
          exact settled hash unit inTable (idle rfl ▸ fed)
      | true =>
          have frontier' : Frontier tables extended fun hash =>
              StoredAt tables (round + 1) hash ∨ exempt hash := by
            intro hash unit inTable fed
            rcases adds.fed_or_above fed with old | above
            · exact (settled hash unit inTable old).imp_right Or.inr
            · exact Or.inr (Or.inl ⟨unit, inTable, above⟩)
          obtain ⟨final, sweepFromEq, grounded'', keeps', final'⟩ :=
            ih { engine with extended := extended } grounded' frontier'
              (fun hash unit inTable => by have := enough hash unit inTable; omega)
          exact ⟨final, sweepFromEq, grounded'', keeps.trans keeps', final'⟩

theorem Grounded.within_last {tables : BftTables D} {rounds : Rounds}
    {extended : SortedMap UnitHash BftUnit} (grounded : Grounded tables rounds extended)
    {hash : UnitHash} {unit : BftUnit} (inTable : tables.unit.get? hash = some unit) :
    unit.round + 2 ≤ stepBound rounds := by
  have member := (grounded.index unit.round hash).mpr ⟨unit, inTable, rfl⟩
  exact roundUnits_within_last member

theorem tryExtend_spec (tables : BftTables D) (exempt : UnitHash → Prop) (engine : Engine D)
    (grounded : Grounded tables engine.rounds engine.extended) (hash : UnitHash)
    (frontier : Frontier tables engine.extended fun other => other = hash ∨ exempt other) :
    ∃ extended, tryExtend tables engine hash = { engine with extended := extended } ∧
      Grounded tables engine.rounds extended ∧ Keeps engine.extended extended ∧
      Frontier tables extended exempt := by
  unfold tryExtend
  rcases maybeExtend_spec tables engine hash with
    ⟨unit, inTable, fed, extendEq⟩ | ⟨extendEq, settled⟩
  · rw [extendEq]
    obtain ⟨grounded', keeps, adds⟩ := grounded.insert inTable fed
    have frontier' : Frontier tables (engine.extended.insert hash unit) fun other =>
        StoredAt tables (unit.round + 1) other ∨ exempt other := by
      intro other body inTable' fed'
      rcases adds.fed_or_above fed' with old | above
      · rcases frontier other body inTable' old with present | rfl | isExempt
        · exact Or.inl (keeps.contains present)
        · exact Or.inl ((SortedMap.contains_iff _ other).mpr
            ⟨unit, SortedMap.get?_insert_self _ other unit⟩)
        · exact Or.inr (Or.inr isExempt)
      · exact Or.inr (Or.inl ⟨body, inTable', above⟩)
    obtain ⟨final, sweepEq, grounded'', keeps', final'⟩ := sweepFrom_spec tables
      (stepBound engine.rounds)
      { engine with extended := engine.extended.insert hash unit } grounded' frontier'
      (fun other body inTable' => by have := grounded.within_last inTable'; omega)
    exact ⟨final, sweepEq, grounded'', keeps.trans keeps', final'⟩
  · rw [extendEq]
    refine ⟨engine.extended, rfl, grounded, Keeps.refl _, ?_⟩
    intro other unit inTable fed
    rcases frontier other unit inTable fed with present | rfl | isExempt
    · exact Or.inl present
    · exact Or.inl (settled unit inTable fed)
    · exact Or.inr isExempt

end Picomint.Bft
