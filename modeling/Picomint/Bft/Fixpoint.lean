/-
The extension cascade computes a least fixpoint.

Whatever units arrive, and in whatever order, the extended units of an engine
are the least set of stored units closed under fed parents; a replay of the
same tables ends at the same set.  Sweeping stops by itself at the first round
that yields nothing: the step count of the model never cuts it short.
-/

import Picomint.Bft.Totality

namespace Picomint.Bft

open Engine

variable {D : Type}

/-! ### The closure -/

/-- A stored unit belongs to the set when every entry of its parent map does,
created by the node it is keyed under at exactly one round below. -/
def ExtensionClosed (tables : BftTables D) (known : Set UnitHash) : Prop :=
  ∀ hash unit, tables.unit.get? hash = some unit →
    (∀ creator parent, unit.parents.get? creator = some parent → parent ∈ known ∧
      ∃ body, tables.unit.get? parent = some body ∧ body.creator = creator ∧
        body.round + 1 = unit.round) → hash ∈ known

theorem Grounded.extensionClosed {tables : BftTables D} {rounds : Rounds}
    {extended : SortedMap UnitHash BftUnit} (grounded : Grounded tables rounds extended)
    (complete : Frontier tables extended fun _ => False) :
    ExtensionClosed tables (view extended) := by
  intro hash unit stored parents
  have fed : parentsFed extended unit = true := by
    rw [parentsFed_iff]
    intro creator parent parentAt
    obtain ⟨⟨body, found⟩, other, otherAt, keyed⟩ := parents creator parent parentAt
    rw [grounded.stored parent body found] at otherAt
    cases otherAt
    exact ⟨body, found, keyed⟩
  rcases complete hash unit stored fed with present | impossible
  · exact (extended.contains_iff hash).mp present
  · exact impossible.elim

theorem Grounded.within_closed {tables : BftTables D} {rounds : Rounds}
    {extended : SortedMap UnitHash BftUnit} (grounded : Grounded tables rounds extended)
    {known : Set UnitHash} (closed : ExtensionClosed tables known) : view extended ⊆ known := by
  have byRound : ∀ bound hash unit, extended.get? hash = some unit → unit.round < bound →
      hash ∈ known := by
    intro bound
    induction bound with
    | zero => exact fun _ _ _ impossible => absurd impossible (Nat.not_lt_zero _)
    | succ bound ih =>
        intro hash unit found below
        refine closed hash unit (grounded.stored hash unit found) ?_
        intro creator parent parentAt
        obtain ⟨body, bodyAt, isCreator, oneBelow⟩ :=
          (parentsFed_iff extended unit).mp (grounded.fed hash unit found) creator parent parentAt
        exact ⟨ih parent body bodyAt (by omega), body, grounded.stored parent body bodyAt,
          isCreator, oneBelow⟩
  rintro hash ⟨unit, found⟩
  exact byRound (unit.round + 1) hash unit found (Nat.lt_succ_self _)

/-- Membership in the least set the extension cascade computes. -/
def Extendable (tables : BftTables D) (hash : UnitHash) : Prop :=
  ∀ known, ExtensionClosed tables known → hash ∈ known

theorem Grounded.extendable {tables : BftTables D} {rounds : Rounds}
    {extended : SortedMap UnitHash BftUnit} (grounded : Grounded tables rounds extended)
    {hash : UnitHash} {unit : BftUnit} (found : extended.get? hash = some unit) :
    Extendable tables hash :=
  fun _ closed => grounded.within_closed closed ⟨unit, found⟩

theorem Grounded.isLeast {tables : BftTables D} {rounds : Rounds}
    {extended : SortedMap UnitHash BftUnit} (grounded : Grounded tables rounds extended)
    (complete : Frontier tables extended fun _ => False) :
    IsLeast { known | ExtensionClosed tables known } (view extended) :=
  ⟨grounded.extensionClosed complete, fun _ closed => grounded.within_closed closed⟩

/-! ### Termination -/

/-- The loop of `try_extend` without a step count: it goes on while a sweep
extends something. -/
inductive Sweeping (tables : BftTables D) : Nat → Engine D → Engine D → Prop
  | idle {round : Nat} {engine : Engine D}
      (nothing : (sweep tables (roundUnits engine.rounds round) engine).1 = false) :
      Sweeping tables round engine (sweep tables (roundUnits engine.rounds round) engine).2
  | again {round : Nat} {engine final : Engine D}
      (progress : (sweep tables (roundUnits engine.rounds round) engine).1 = true)
      (later : Sweeping tables (round + 1)
        (sweep tables (roundUnits engine.rounds round) engine).2 final) :
      Sweeping tables round engine final

/-- `try_extend` without a step count. -/
inductive Cascade (tables : BftTables D) (engine : Engine D) (hash : UnitHash) :
    Engine D → Prop
  | settled (nothing : (maybeExtend tables engine hash).1 = none) :
      Cascade tables engine hash (maybeExtend tables engine hash).2
  | extended {round : Nat} {final : Engine D}
      (first : (maybeExtend tables engine hash).1 = some round)
      (sweeping : Sweeping tables (round + 1) (maybeExtend tables engine hash).2 final) :
      Cascade tables engine hash final

/-- The loop of `replay` over the round-zero units. -/
inductive Cascades (tables : BftTables D) : List UnitHash → Engine D → Engine D → Prop
  | done {engine : Engine D} : Cascades tables [] engine engine
  | root {hash : UnitHash} {rest : List UnitHash} {engine middle final : Engine D}
      (first : Cascade tables engine hash middle) (later : Cascades tables rest middle final) :
      Cascades tables (hash :: rest) engine final

theorem Grounded.listed {tables : BftTables D} {rounds : Rounds}
    {extended : SortedMap UnitHash BftUnit} (grounded : Grounded tables rounds extended)
    (round : Nat) : ∀ hash ∈ roundUnits rounds round, ∀ unit,
      tables.unit.get? hash = some unit → unit.round = round := by
  intro hash member unit inTable
  obtain ⟨other, otherAt, atRound⟩ := (grounded.index round hash).mp member
  rw [inTable] at otherAt
  exact Option.some.inj otherAt ▸ atRound

/-- A round without stored units ends the loop, so the stored rounds bound it. -/
theorem sweepFrom_sweeping (tables : BftTables D) (steps : Nat) {round : Nat} (engine : Engine D)
    (grounded : Grounded tables engine.rounds engine.extended)
    (enough : ∀ hash unit, tables.unit.get? hash = some unit → unit.round < round + steps) :
    Sweeping tables round engine (sweepFrom tables (steps + 1) round engine) := by
  induction steps generalizing round engine with
  | zero =>
      have empty : roundUnits engine.rounds round = [] := by
        rw [List.eq_nil_iff_forall_not_mem]
        intro hash member
        obtain ⟨unit, inTable, atRound⟩ := (grounded.index round hash).mp member
        have below := enough hash unit inTable
        omega
      have idle : sweep tables (roundUnits engine.rounds round) engine = (false, engine) := by
        rw [empty]
        rfl
      have stops : Sweeping tables round engine
          (sweep tables (roundUnits engine.rounds round) engine).2 := Sweeping.idle (by rw [idle])
      simpa only [sweepFrom, idle, Bool.false_eq_true, if_false] using stops
  | succ steps ih =>
      obtain ⟨progress, extended, sweepEq, grounded', _⟩ :=
        sweep_spec tables _ (grounded.listed round) engine grounded
      cases progress with
      | false =>
          have stops : Sweeping tables round engine
              (sweep tables (roundUnits engine.rounds round) engine).2 :=
            Sweeping.idle (by rw [sweepEq])
          unfold sweepFrom
          simpa only [sweepEq, Bool.false_eq_true, if_false] using stops
      | true =>
          refine Sweeping.again (by rw [sweepEq]) ?_
          rw [sweepEq]
          unfold sweepFrom
          simp only [sweepEq, if_true]
          exact ih { engine with extended := extended } grounded'
            (fun hash unit inTable => by have := enough hash unit inTable; omega)

theorem tryExtend_cascade (tables : BftTables D) (engine : Engine D)
    (grounded : Grounded tables engine.rounds engine.extended) (hash : UnitHash) :
    Cascade tables engine hash (tryExtend tables engine hash) := by
  rcases maybeExtend_spec tables engine hash with ⟨unit, inTable, fed, extendEq⟩ | ⟨extendEq, _⟩
  · obtain ⟨grounded', _, _⟩ := grounded.insert inTable fed
    have sweeping := sweepFrom_sweeping tables (engine.rounds.lastKey?.getD 0 + 1)
      { engine with extended := engine.extended.insert hash unit } grounded'
      (fun other body inTable' => by
        have within := grounded.within_last inTable'
        unfold stepBound at within
        change body.round < unit.round + 1 + (engine.rounds.lastKey?.getD 0 + 1)
        omega)
    have cascade : Cascade tables engine hash (sweepFrom tables (stepBound engine.rounds)
        (unit.round + 1) { engine with extended := engine.extended.insert hash unit }) :=
      Cascade.extended (by rw [extendEq]) (by rw [extendEq]; exact sweeping)
    unfold tryExtend
    simpa only [extendEq] using cascade
  · have settled : Cascade tables engine hash (maybeExtend tables engine hash).2 :=
      Cascade.settled (by rw [extendEq])
    unfold tryExtend
    simpa only [extendEq] using settled

theorem extendRoots_cascades (tables : BftTables D) (roots : List UnitHash) (engine : Engine D)
    (grounded : Grounded tables engine.rounds engine.extended) :
    Cascades tables roots engine (roots.foldl (tryExtend tables) engine) := by
  induction roots generalizing engine with
  | nil => exact Cascades.done
  | cons root rest ih =>
      refine Cascades.root (tryExtend_cascade tables engine grounded root) ?_
      obtain ⟨extended, extendEq, grounded', _⟩ := tryExtend_spec tables (fun _ => True) engine
        grounded root (fun _ _ _ _ => Or.inr (Or.inr trivial))
      rw [List.foldl_cons, extendEq]
      exact ih { engine with extended := extended } grounded'

/-! ### Every run -/

/-- The engine `replay` extends the round-zero units of. -/
def indexed (setup : Setup D) (tables : BftTables D) : Engine D :=
  tables.unit.rows.foldl (indexRow setup) Engine.new

theorem indexed_grounded (setup : Setup D) (tables : BftTables D) :
    Grounded tables (indexed setup tables).rounds (indexed setup tables).extended := by
  have noTop : TopOf setup.id (fun _ _ => False) (Engine.new : Engine D).ownTop :=
    fun _ _ impossible => impossible.elim
  obtain ⟨rounds, own, top, foldEq, listed, _⟩ :=
    indexRows_spec setup tables.unit.rows Engine.new noTop
  unfold indexed
  rw [foldEq]
  refine ⟨?_, ?_, ?_⟩
  · intro round hash
    rw [listed]
    simp only [tables.unit.mem_rows]
    exact or_iff_left List.not_mem_nil
  · intro hash unit impossible
    cases impossible
  · intro hash unit impossible
    cases impossible

/-- The extended units of a process are the least closed set, before and after
a replay, and every cascade stops by itself. -/
theorem cascade_computes_fixpoint {setup : Setup D} (free : setup.CollisionFree)
    {process : Process D} (reachable : Reachable setup process) :
    IsLeast { known | ExtensionClosed process.committed known } (view process.engine.extended) ∧
    (∃ engine, replay setup process.committed = some engine ∧
      view engine.extended = view process.engine.extended) ∧
    (∀ ev, Checked setup.toMint ev → process.committed.unit.get? (setup.unitHash ev.unit) = none →
      Cascade (process.committed.insert (setup.unitHash ev.unit) ev)
        (stored setup process.engine ev) (setup.unitHash ev.unit)
        (tryExtend (process.committed.insert (setup.unitHash ev.unit) ev)
          (stored setup process.engine ev) (setup.unitHash ev.unit))) ∧
    Cascades process.committed (roundUnits (indexed setup process.committed).rounds 0)
      (indexed setup process.committed) (rebuild setup process.committed) := by
  have consistent := (reachable.standing free).engine
  have least := consistent.grounded.isLeast consistent.complete
  obtain ⟨engine, replayed, replayConsistent⟩ := replay_total free consistent.valid
  refine ⟨least, ⟨engine, replayed, ?_⟩, ?_, ?_⟩
  · exact (replayConsistent.grounded.isLeast replayConsistent.complete).unique least
  · intro ev _ absent
    exact tryExtend_cascade _ _ (consistent.grounded.store ev absent) _
  · exact extendRoots_cascades _ _ _ (indexed_grounded setup process.committed)

/-! Four nodes: the child of three round-zero units arrives before any of
them, and a unit keys the first one under another creator. -/

def quadMint : Mint Nat where
  session := 0
  n := ⟨1⟩
  unitHash := encodeUnit
  dataHash := Encodable.encode
  seededBit _ _ := false
  verify _ _ _ _ := true

def quadSetup : Setup Nat where
  toMint := quadMint
  id := 0
  sign _ _ := 0

theorem quadMint_collisionFree : quadMint.CollisionFree :=
  ⟨encodeUnit_injective, fun _ _ same => Encodable.encode_injective same⟩

def quadRoot (creator : NodeId) : BftUnit := ⟨0, creator, SortedMap.empty, none⟩

def quadChild (creator first second third : NodeId) : BftUnit :=
  ⟨1, creator, SortedMap.ofList [(1, encodeUnit (quadRoot first)), (2, encodeUnit (quadRoot second)),
    (3, encodeUnit (quadRoot third))], none⟩

def quadArrivals : List (Event Nat) :=
  [quadChild 1 1 2 3, quadChild 2 2 1 3, quadRoot 3, quadRoot 1, quadRoot 2].map
    fun unit => .receive 0 1 (.unit ⟨unit, [], 0⟩)

theorem cascade_computes_fixpoint_quad : ∃ process : Process Nat,
    Reachable quadSetup process ∧
    process.engine.extended.contains (encodeUnit (quadChild 1 1 2 3)) = true ∧
    process.engine.extended.contains (encodeUnit (quadChild 2 2 1 3)) = false ∧
    IsLeast { known | ExtensionClosed process.committed known } (view process.engine.extended) := by
  have ran : (Process.start.run quadSetup quadArrivals).map (fun process =>
      (process.engine.extended.contains (encodeUnit (quadChild 1 1 2 3)),
        process.engine.extended.contains (encodeUnit (quadChild 2 2 1 3)))) =
      some (true, false) := by decide +kernel
  obtain ⟨process, runEq, holds⟩ := Option.map_eq_some_iff.mp ran
  obtain ⟨child, spoofed⟩ := Prod.mk.inj holds
  have reachable : Reachable quadSetup process :=
    Process.run_runs _ (fun _ _ _ => trivial) Runs.start runEq
  exact ⟨process, reachable, child, spoofed,
    (cascade_computes_fixpoint quadMint_collisionFree reachable).1⟩

end Picomint.Bft
