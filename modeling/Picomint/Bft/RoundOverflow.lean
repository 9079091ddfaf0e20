/-
A sequence of admissible units that overflows a round sum.

Three creators build a full row for every round up to the last one, and one of
them a unit of the last round over the last row.  All of it is stored before
the one root that holds the chain back.  When that arrives, the cascade climbs
through every row, and the unit on top asks for the round above the last one.
-/

import Picomint.Bft.RoundWidth

namespace Picomint.Bft

open Engine

variable {D : Type}

/-! ### What a sweep that returns has done -/

theorem Strict.parentsFed_some {extended : SortedMap UnitHash BftUnit} {unit : BftUnit}
    (entries : List (NodeId × UnitHash)) {fed : Bool}
    (returned : Strict.parentsFed extended unit entries = some fed) :
    fed = entries.all fun entry =>
      match extended.get? entry.2 with
      | none => false
      | some parent => parent.creator == entry.1 && parent.round + 1 == unit.round := by
  induction entries with
  | nil =>
      cases returned
      rfl
  | cons entry rest ih =>
      unfold Strict.parentsFed at returned
      rw [List.all_cons]
      cases found : extended.get? entry.2 with
      | none =>
          rw [found] at returned
          cases returned
          rfl
      | some parent =>
          rw [found] at returned
          simp only at returned
          by_cases creator : parent.creator = entry.1
          · rw [if_pos creator] at returned
            unfold Strict.plus at returned
            split at returned
            · cases returned
            · rename_i above sum
              split at sum
              · cases sum
                by_cases round : parent.round + 1 = unit.round
                · rw [if_pos round] at returned
                  simp only [beq_iff_eq.mpr creator, beq_iff_eq.mpr round, Bool.true_and]
                  exact ih returned
                · rw [if_neg round] at returned
                  cases returned
                  simp only [beq_eq_false_iff_ne.mpr round, Bool.and_false, Bool.false_and]
              · cases sum
          · rw [if_neg creator] at returned
            cases returned
            simp only [beq_eq_false_iff_ne.mpr creator, Bool.false_and]

theorem Strict.maybeExtend_some {tables : BftTables D} {engine : Engine D} {hash : UnitHash}
    {result : Option Nat × Engine D}
    (returned : Strict.maybeExtend tables engine hash = some result) :
    result = Engine.maybeExtend tables engine hash := by
  unfold Strict.maybeExtend at returned
  unfold Engine.maybeExtend
  split at returned
  · rename_i isExtended
    cases returned
    exact (if_pos isExtended).symm
  · rename_i notExtended
    rw [if_neg notExtended]
    cases stored : tables.unit.get? hash with
    | none =>
        rw [stored] at returned
        cases returned
        rfl
    | some unit =>
        rw [stored] at returned
        simp only at returned ⊢
        split at returned
        · cases returned
        · rename_i isFed
          cases returned
          have fed : Engine.parentsFed engine.extended unit = true :=
            (Strict.parentsFed_some _ isFed).symm
          rw [if_pos fed]
        · rename_i notFed
          cases returned
          have unfed : Engine.parentsFed engine.extended unit = false :=
            (Strict.parentsFed_some _ notFed).symm
          rw [unfed, if_neg Bool.false_ne_true]

theorem Strict.sweep_some {tables : BftTables D} (candidates : List UnitHash) {engine : Engine D}
    {result : Bool × Engine D} (returned : Strict.sweep tables candidates engine = some result) :
    result = Engine.sweep tables candidates engine := by
  induction candidates generalizing engine result with
  | nil =>
      cases returned
      rfl
  | cons candidate rest ih =>
      unfold Strict.sweep at returned
      unfold Engine.sweep
      split at returned
      · cases returned
      · rename_i first middle firstEq
        have same := Strict.maybeExtend_some firstEq
        split at returned
        · cases returned
        · rename_i remaining final restEq
          cases returned
          have later := ih restEq
          rw [← same]
          simp only [← later]

theorem Strict.handleMessage_stops {setup : Setup D} {now : Nat} {tables grown : BftTables D}
    {engine after : Engine D} {sender : NodeId} {ev : UnitEnvelope D}
    (valid : validateUnit setup.toMint ev = .ok ⟨⟩)
    (unlisted : (roundUnits (cascadeParents now tables engine sender ev.unit).rounds
      ev.unit.round).contains (setup.unitHash ev.unit) = false)
    (inserted : storeUnit setup tables (cascadeParents now tables engine sender ev.unit) ev
      (setup.unitHash ev.unit) = .ok (after, grown))
    (stops : Strict.advance setup grown after (setup.unitHash ev.unit) = none) :
    Strict.handleMessage setup now tables engine sender (.unit ev) = none := by
  simp only [Strict.handleMessage, valid, unlisted, inserted, stops, Bool.false_eq_true, if_false]

/-- A waiting candidate over an extended unit of the last round stops the
sweep. -/
theorem Strict.sweep_overflows {tables : BftTables D} (candidates : List UnitHash)
    (engine : Engine D) (grounded : Grounded tables engine.rounds engine.extended)
    {hash : UnitHash} {unit parent : BftUnit} {entry : NodeId × UnitHash}
    {rest : List (NodeId × UnitHash)} (member : hash ∈ candidates)
    (stored : tables.unit.get? hash = some unit) (rows : unit.parents.rows = entry :: rest)
    (found : engine.extended.get? entry.2 = some parent) (creator : parent.creator = entry.1)
    (last : parent.round = Strict.roundMax) (below : unit.round ≤ Strict.roundMax) :
    Strict.sweep tables candidates engine = none := by
  induction candidates generalizing engine with
  | nil => cases member
  | cons candidate others ih =>
      unfold Strict.sweep
      by_cases isHash : candidate = hash
      · subst isHash
        have notExtended : engine.isExtended candidate = false := by
          rw [isExtended, Bool.eq_false_iff]
          intro present
          obtain ⟨body, bodyAt⟩ := (engine.extended.contains_iff candidate).mp present
          have same := grounded.stored candidate body bodyAt
          rw [stored] at same
          cases same
          have fed := grounded.fed candidate unit bodyAt
          unfold Engine.parentsFed at fed
          rw [rows, List.all_cons, found, Bool.and_eq_true] at fed
          have above := (Bool.and_eq_true _ _).mp fed.1
          have tooHigh := beq_iff_eq.mp above.2
          omega
        have overflows : Strict.parentsFed engine.extended unit unit.parents.rows = none := by
          rw [rows]
          unfold Strict.parentsFed
          have noRoom : Strict.plus parent.round 1 = none := if_neg (by omega)
          simp only [found, if_pos creator, noRoom]
        have stops : Strict.maybeExtend tables engine candidate = none := by
          unfold Strict.maybeExtend
          rw [notExtended, if_neg Bool.false_ne_true, stored]
          simp only [overflows]
        rw [stops]
      · have later := (List.mem_cons.mp member).resolve_left (fun same => isHash same.symm)
        cases first : Strict.maybeExtend tables engine candidate with
        | none => rfl
        | some result =>
            have same := Strict.maybeExtend_some first
            obtain ⟨body, inTable, fed, extendEq⟩ | ⟨extendEq, _⟩ :=
              maybeExtend_spec tables engine candidate
            · rw [extendEq] at same
              subst same
              obtain ⟨grounded', keeps, _⟩ := grounded.insert inTable fed
              have stops := ih { engine with extended := engine.extended.insert candidate body }
                grounded' later (keeps entry.2 parent found)
              simp only [stops]
            · rw [extendEq] at same
              subst same
              simp only [ih engine grounded later found]

def Strict.run (setup : Setup D) (process : Process D) : List (Event D) → Option (Process D)
  | [] => some process
  | event :: rest =>
      match Strict.step setup process event with
      | none => none
      | some next => Strict.run setup next rest

theorem Strict.run_append {setup : Setup D} {process middle : Process D} (first later : List (Event D))
    (ran : Strict.run setup process first = some middle) :
    Strict.run setup process (first ++ later) = Strict.run setup middle later := by
  induction first generalizing process with
  | nil =>
      cases ran
      rfl
  | cons event rest ih =>
      simp only [List.cons_append, Strict.run] at ran ⊢
      cases stepped : Strict.step setup process event with
      | none =>
          rw [stepped] at ran
          cases ran
      | some next =>
          rw [stepped] at ran
          exact ih ran

/-! ### The chain -/

def rowParents (row : NodeId → UnitHash) : SortedMap NodeId UnitHash :=
  SortedMap.ofList [(1, row 1), (2, row 2), (3, row 3)]

/-- The unit of a creator over the full row below. -/
def tallUnit : Nat → NodeId → BftUnit
  | 0, creator => ⟨0, creator, SortedMap.empty, none⟩
  | round + 1, creator =>
      ⟨round + 1, creator, rowParents fun node => encodeUnit (tallUnit round node), none⟩

def crown : BftUnit :=
  ⟨Strict.roundMax, 1, rowParents fun node => encodeUnit (tallUnit Strict.roundMax node), none⟩

theorem crown_round : crown.round = Strict.roundMax := rfl

/-- All but the root that arrives last. -/
def tallEarly : List BftUnit :=
  tallUnit 0 1 :: tallUnit 0 2 :: crown :: (List.range Strict.roundMax).flatMap fun round =>
    [tallUnit (round + 1) 1, tallUnit (round + 1) 2, tallUnit (round + 1) 3]

def arrival (unit : BftUnit) : Event Nat := .receive 0 1 (.unit ⟨unit, [], 0⟩)

theorem rowParents_rows (row : NodeId → UnitHash) :
    (rowParents row).rows = [(1, row 1), (2, row 2), (3, row 3)] := rfl

theorem rowParents_get? {row : NodeId → UnitHash} {creator : NodeId} {hash : UnitHash} :
    (rowParents row).get? creator = some hash ↔
      (creator = 1 ∨ creator = 2 ∨ creator = 3) ∧ hash = row creator := by
  rw [← SortedMap.mem_rows, rowParents_rows]
  simp only [List.mem_cons, List.not_mem_nil, or_false, Prod.mk.injEq]
  constructor
  · rintro (⟨rfl, rfl⟩ | ⟨rfl, rfl⟩ | ⟨rfl, rfl⟩) <;> simp
  · rintro ⟨rfl | rfl | rfl, rfl⟩ <;> simp

theorem tallUnit_round (round : Nat) (creator : NodeId) : (tallUnit round creator).round = round := by
  cases round <;> rfl

theorem tallUnit_creator (round : Nat) (creator : NodeId) :
    (tallUnit round creator).creator = creator := by
  cases round <;> rfl

/-- What every unit but the missing root has: a valid envelope, and above
round zero a parent of the creator whose root is missing. -/
structure Early (unit : BftUnit) : Prop where
  checked : Checked quadSetup.toMint ⟨unit, [], 0⟩
  parent : unit.round ≠ 0 → ∃ hash, unit.parents.get? 3 = some hash
  root : unit.round = 0 → unit.creator ≠ 3

theorem over_checked {round : Nat} (positive : round ≠ 0) {creator : NodeId}
    (member : creator ∈ quadSetup.n.nodeIds) (row : NodeId → UnitHash) :
    Checked quadSetup.toMint ⟨⟨round, creator, rowParents row, none⟩, [], 0⟩ := by
  refine ⟨⟨member, fun isRoot => absurd isRoot positive, fun _ => rfl, ?_⟩, rfl, rfl⟩
  intro parentCreator named
  obtain ⟨hash, found⟩ := (SortedMap.mem_keys _ _).mp named
  obtain ⟨rfl | rfl | rfl, _⟩ := rowParents_get?.mp found <;> decide

theorem tallUnit_checked (round : Nat) {creator : NodeId} (member : creator ∈ quadSetup.n.nodeIds) :
    Checked quadSetup.toMint ⟨tallUnit round creator, [], 0⟩ := by
  cases round with
  | zero =>
      refine ⟨⟨member, fun _ => rfl, fun positive => absurd rfl positive, ?_⟩, rfl, rfl⟩
      intro parentCreator impossible
      cases impossible
  | succ round => exact over_checked (Nat.succ_ne_zero round) member _

theorem over_early {round : Nat} (positive : round ≠ 0) {creator : NodeId}
    (member : creator ∈ quadSetup.n.nodeIds) (row : NodeId → UnitHash) :
    Early ⟨round, creator, rowParents row, none⟩ :=
  ⟨over_checked positive member row,
    fun _ => ⟨row 3, rowParents_get?.mpr ⟨Or.inr (Or.inr rfl), rfl⟩⟩,
    fun isRoot => absurd isRoot positive⟩

theorem tallEarly_early : ∀ unit ∈ tallEarly, Early unit := by
  have root : ∀ creator ∈ quadSetup.n.nodeIds, creator ≠ 3 → Early (tallUnit 0 creator) :=
    fun creator member notThree => ⟨tallUnit_checked 0 member, fun positive => absurd rfl positive,
      fun _ => notThree⟩
  intro unit member
  unfold tallEarly at member
  rcases List.mem_cons.mp member with rfl | member
  · exact root 1 (by decide) (by decide)
  rcases List.mem_cons.mp member with rfl | member
  · exact root 2 (by decide) (by decide)
  rcases List.mem_cons.mp member with rfl | member
  · exact over_early (by decide) (by decide) _
  obtain ⟨round, _, inRow⟩ := List.mem_flatMap.mp member
  simp only [List.mem_cons, List.not_mem_nil, or_false] at inRow
  rcases inRow with rfl | rfl | rfl
  · exact over_early (Nat.succ_ne_zero round) (by decide) _
  · exact over_early (Nat.succ_ne_zero round) (by decide) _
  · exact over_early (Nat.succ_ne_zero round) (by decide) _

/-- Without the missing root nothing above round zero can be extended. -/
theorem extendable_root {tables : BftTables Nat}
    (early : ∀ hash unit, tables.unit.get? hash = some unit → Early unit) {hash : UnitHash}
    {unit : BftUnit} (extendable : Extendable tables hash)
    (stored : tables.unit.get? hash = some unit) : unit.round = 0 := by
  have closed : ExtensionClosed tables { hash | ∀ unit, tables.unit.get? hash = some unit →
      unit.round = 0 } := by
    intro other body bodyAt parents same sameAt
    rw [bodyAt] at sameAt
    cases sameAt
    by_contra positive
    obtain ⟨parent, parentAt⟩ := (early other body bodyAt).parent positive
    obtain ⟨isRoot, lower, lowerAt, creator, _⟩ := parents 3 parent parentAt
    exact (early parent lower lowerAt).root (isRoot lower lowerAt) creator
  exact extendable _ closed unit stored

theorem early_headroom {tables : BftTables Nat}
    (early : ∀ hash unit, tables.unit.get? hash = some unit → Early unit) : Headroom tables := by
  intro hash unit extendable stored
  rw [extendable_root early extendable stored]
  decide

/-! ### The run -/

theorem arrivals (units : List BftUnit) (all : ∀ unit ∈ units, Early unit) {process : Process Nat}
    (runs : StrictRuns quadSetup process)
    (early : ∀ hash unit, process.committed.unit.get? hash = some unit → Early unit) :
    ∃ final, Strict.run quadSetup process (units.map arrival) = some final ∧
      StrictRuns quadSetup final ∧
      (∀ hash unit, final.committed.unit.get? hash = some unit → Early unit) ∧
      (∀ hash unit, process.committed.unit.get? hash = some unit →
        final.committed.unit.get? hash = some unit) ∧
      ∀ unit ∈ units, final.committed.unit.get? (encodeUnit unit) = some unit := by
  induction units generalizing process with
  | nil =>
      refine ⟨process, rfl, runs, early, fun _ _ => id, ?_⟩
      intro unit impossible
      cases impossible
  | cons unit rest ih =>
      have isEarly := all unit List.mem_cons_self
      have fits : Fits quadSetup process (arrival unit) := by
        intro ev same _
        cases same
        refine early_headroom fun hash body found => ?_
        rw [BftTables.insert, SortedMap.get?_insert] at found
        split at found
        · cases found
          exact isEarly
        · exact early hash body found
      have standing := runs.standing quadMint_collisionFree
      obtain ⟨outcome, engine, tables, handled, _⟩ :=
        standing.receive quadMint_collisionFree 0 1 (.unit ⟨unit, [], 0⟩)
      have stepped : Strict.step quadSetup process (arrival unit) =
          some { process with engine := engine, committed := tables } := by
        rw [Strict.step_eq quadMint_collisionFree standing fits, arrival]
        simp only [Process.step, handled]
      obtain ⟨stored, kept, origin⟩ :=
        handleMessage_stores quadMint_collisionFree standing.engine isEarly.checked handled
      have early' : ∀ hash body, tables.unit.get? hash = some body → Early body := by
        intro hash body found
        rcases origin hash body found with rfl | old
        · exact isEarly
        · exact early hash body old
      obtain ⟨final, ran, runs', finalEarly, finalKept, finalStored⟩ :=
        ih (fun other member => all other (List.mem_cons_of_mem unit member))
          (runs.step fits stepped) early'
      refine ⟨final, ?_, runs', finalEarly, fun hash body found =>
        finalKept hash body (kept hash body found), ?_⟩
      · rw [List.map_cons]
        unfold Strict.run
        rw [stepped]
        exact ran
      · intro other member
        rcases List.mem_cons.mp member with rfl | later
        · exact finalKept _ _ stored
        · exact finalStored other later

def Rower (creator : NodeId) : Prop := creator = 1 ∨ creator = 2 ∨ creator = 3

theorem rowParents_fed {extended : SortedMap UnitHash BftUnit} {round : Nat} (creator : NodeId)
    (row : ∀ lower, Rower lower →
      extended.get? (encodeUnit (tallUnit round lower)) = some (tallUnit round lower)) :
    parentsFed extended (tallUnit (round + 1) creator) = true := by
  rw [parentsFed_iff]
  intro lower parent named
  obtain ⟨rower, rfl⟩ := rowParents_get?.mp named
  exact ⟨tallUnit round lower, row lower rower, tallUnit_creator round lower,
    by rw [tallUnit_round, tallUnit_round]⟩

/-- Once a row is extended the cascade climbs to the last one, and overflows
over it. -/
theorem climb {tables : BftTables Nat}
    (crowned : tables.unit.get? (encodeUnit crown) = some crown)
    (tall : ∀ round, round + 1 ≤ Strict.roundMax → ∀ creator, Rower creator →
      tables.unit.get? (encodeUnit (tallUnit (round + 1) creator)) =
        some (tallUnit (round + 1) creator))
    (distance : Nat) {below steps : Nat} (engine : Engine Nat)
    (grounded : Grounded tables engine.rounds engine.extended)
    (reaches : below + distance = Strict.roundMax) (enough : distance + 1 ≤ steps)
    (row : ∀ creator, Rower creator →
      engine.extended.get? (encodeUnit (tallUnit below creator)) = some (tallUnit below creator))
    (bounded : ∀ hash unit, engine.extended.get? hash = some unit → unit.round ≤ below) :
    Strict.sweepFrom tables steps (Strict.saturatingSucc below) engine = none := by
  obtain ⟨steps, rfl⟩ : ∃ fewer, steps = fewer + 1 := ⟨steps - 1, by omega⟩
  unfold Strict.sweepFrom
  induction distance generalizing below steps engine with
  | zero =>
      obtain rfl : below = Strict.roundMax := by omega
      have atLast : Strict.saturatingSucc Strict.roundMax = Strict.roundMax :=
        min_eq_right (Nat.le_succ _)
      have member := (grounded.index _ _).mpr ⟨crown, crowned, crown_round⟩
      have rows := rowParents_rows fun node => encodeUnit (tallUnit Strict.roundMax node)
      have overflows := Strict.sweep_overflows _ engine grounded member crowned rows
        (row 1 (Or.inl rfl)) (tallUnit_creator _ 1) (tallUnit_round _ 1) (le_of_eq crown_round)
      rw [atLast, overflows]
  | succ distance ih =>
      have above : Strict.saturatingSucc below = below + 1 := min_eq_left (by omega)
      rw [above]
      cases swept : Strict.sweep tables (roundUnits engine.rounds (below + 1)) engine with
      | none => rfl
      | some result =>
          have same := Strict.sweep_some _ swept
          obtain ⟨progress, extended, sweepEq, grounded', _, adds, settled, covers⟩ :=
            sweep_spec tables _ (grounded.listed (below + 1)) engine grounded
          rw [sweepEq] at same
          subst same
          have row' : ∀ creator, Rower creator → extended.get?
              (encodeUnit (tallUnit (below + 1) creator)) = some (tallUnit (below + 1) creator) := by
            intro creator rower
            have stored := tall below (by omega) creator rower
            have listed := (grounded.index (below + 1) _).mpr
              ⟨_, stored, tallUnit_round (below + 1) creator⟩
            obtain ⟨body, found⟩ := (extended.contains_iff _).mp
              (covers _ listed _ stored (rowParents_fed creator row))
            have inTable := grounded'.stored _ body found
            rw [stored] at inTable
            cases inTable
            exact found
          cases progress with
          | false =>
              have old := row' 1 (Or.inl rfl)
              rw [settled rfl] at old
              have low := bounded _ _ old
              rw [tallUnit_round] at low
              omega
          | true =>
              obtain ⟨fewer, rfl⟩ : ∃ fewer, steps = fewer + 1 := ⟨steps - 1, by omega⟩
              simp only
              unfold Strict.sweepFrom
              refine ih { engine with extended := extended } grounded' (by omega) row' ?_ fewer
                (by omega)
              intro hash unit found
              rcases adds hash unit found with old | new
              · exact (bounded hash unit old).trans (Nat.le_succ below)
              · omega

/-- What is stored and extended before the missing root arrives. -/
structure Poised (tables : BftTables Nat) (engine : Engine Nat) : Prop where
  consistent : Consistent quadMint tables engine
  early : ∀ hash unit, tables.unit.get? hash = some unit → Early unit
  crowned : tables.unit.get? (encodeUnit crown) = some crown
  roots : ∀ creator, creator = 1 ∨ creator = 2 →
    tables.unit.get? (encodeUnit (tallUnit 0 creator)) = some (tallUnit 0 creator)
  tall : ∀ round, round + 1 ≤ Strict.roundMax → ∀ creator, Rower creator →
    tables.unit.get? (encodeUnit (tallUnit (round + 1) creator)) =
      some (tallUnit (round + 1) creator)

theorem Poised.absent {tables : BftTables Nat} {engine : Engine Nat}
    (poised : Poised tables engine) : tables.unit.get? (encodeUnit (tallUnit 0 3)) = none := by
  cases found : tables.unit.get? (encodeUnit (tallUnit 0 3)) with
  | none => rfl
  | some unit =>
      have hashed : encodeUnit unit = encodeUnit (tallUnit 0 3) :=
        poised.consistent.valid.hashed _ unit found
      have same := quadMint_collisionFree.unitHash hashed
      subst same
      exact absurd rfl ((poised.early _ _ found).root rfl)

theorem Poised.overflows {tables : BftTables Nat} {engine : Engine Nat}
    (poised : Poised tables engine) {ev : UnitEnvelope Nat} (isRoot : ev.unit = tallUnit 0 3) :
    Strict.advance quadSetup (tables.insert (encodeUnit ev.unit) ev) (stored quadSetup engine ev)
      (encodeUnit ev.unit) = none := by
  have absent : tables.unit.get? (encodeUnit ev.unit) = none := by
    rw [isRoot]
    exact poised.absent
  have grounded := poised.consistent.grounded.store ev absent
  have rootStored : (tables.insert (encodeUnit ev.unit) ev).unit.get? (encodeUnit ev.unit) =
      some ev.unit := SortedMap.get?_insert_self _ _ _
  have kept : ∀ hash unit, tables.unit.get? hash = some unit →
      (tables.insert (encodeUnit ev.unit) ev).unit.get? hash = some unit := by
    intro hash unit found
    rw [BftTables.insert, SortedMap.get?_insert, if_neg, found]
    rintro rfl
    rw [absent] at found
    cases found
  have notExtended : (stored quadSetup engine ev).isExtended (encodeUnit ev.unit) = false := by
    rw [isExtended, Bool.eq_false_iff]
    intro present
    obtain ⟨unit, found⟩ := (SortedMap.contains_iff _ _).mp present
    have inTable := poised.consistent.grounded.stored _ unit found
    rw [absent] at inTable
    cases inTable
  have rootless : ev.unit.parents.rows = [] := by
    rw [isRoot]
    rfl
  have fed : parentsFed engine.extended ev.unit = true := by
    unfold parentsFed
    rw [rootless]
    rfl
  have atZero : ev.unit.round = 0 := by
    rw [isRoot]
    rfl
  have extendEq : Strict.maybeExtend (tables.insert (encodeUnit ev.unit) ev)
      (stored quadSetup engine ev) (encodeUnit ev.unit) =
      some (some 0, { stored quadSetup engine ev with
        extended := engine.extended.insert (encodeUnit ev.unit) ev.unit }) := by
    unfold Strict.maybeExtend
    rw [notExtended, if_neg Bool.false_ne_true, rootStored]
    simp only [rootless, Strict.parentsFed, atZero]
    rfl
  obtain ⟨grounded', keeps, _⟩ := grounded.insert rootStored fed
  suffices climbs : Strict.sweepFrom (tables.insert (encodeUnit ev.unit) ev)
      (stepBound (stored quadSetup engine ev).rounds) (Strict.saturatingSucc 0)
      { stored quadSetup engine ev with
        extended := engine.extended.insert (encodeUnit ev.unit) ev.unit } = none by
    unfold Strict.advance Strict.tryExtend
    rw [extendEq]
    simp only [climbs]
  refine climb (kept _ _ poised.crowned)
    (fun round below creator rower => kept _ _ (poised.tall round below creator rower))
    Strict.roundMax _ grounded' (Nat.zero_add _) ?_ ?_ ?_
  · have member := (grounded.index _ _).mpr ⟨crown, kept _ _ poised.crowned, crown_round⟩
    exact (Nat.le_succ _).trans (roundUnits_within_last member)
  · have below : ∀ creator, creator = 1 ∨ creator = 2 →
        (engine.extended.insert (encodeUnit ev.unit) ev.unit).get? (encodeUnit (tallUnit 0 creator)) =
          some (tallUnit 0 creator) := by
      intro creator early
      have inTable := poised.roots creator early
      obtain ⟨unit, found⟩ := (engine.extended.contains_iff _).mp
        ((poised.consistent.complete _ _ inTable rfl).resolve_right id)
      have same := poised.consistent.grounded.stored _ unit found
      rw [inTable] at same
      cases same
      exact keeps _ _ found
    rintro creator (rfl | rfl | rfl)
    · exact below 1 (Or.inl rfl)
    · exact below 2 (Or.inr rfl)
    · rw [← isRoot]
      exact SortedMap.get?_insert_self _ _ _
  · intro hash unit found
    simp only [SortedMap.get?_insert] at found
    split at found
    · cases found
      exact atZero.le
    · exact (extendable_root poised.early (poised.consistent.grounded.extendable found)
        (poised.consistent.grounded.stored _ _ found)).le

/-- The root that completes the chain makes the cascade overflow. -/
theorem events_overflow :
    Strict.run quadSetup Process.start ((tallEarly ++ [tallUnit 0 3]).map arrival) = none := by
  obtain ⟨process, ran, runs, early, _, inTable⟩ := arrivals tallEarly tallEarly_early
    (StrictRuns.start : StrictRuns quadSetup Process.start) (fun hash unit impossible => by cases impossible)
  have consistent := (runs.standing quadMint_collisionFree).engine
  rw [List.map_append, Strict.run_append _ _ ran]
  obtain ⟨requests, messages, cascadeEq, _⟩ :=
    cascadeParents_requested 0 process.committed process.engine 1 (tallUnit 0 3)
  have poised : Poised process.committed
      (cascadeParents 0 process.committed process.engine 1 (tallUnit 0 3)) := by
    refine ⟨cascadeEq ▸ consistent.unrelated _ _ _ _ _, early, inTable _ ?_, ?_, ?_⟩
    · exact List.mem_cons_of_mem _ (List.mem_cons_of_mem _ List.mem_cons_self)
    · rintro creator (rfl | rfl)
      · exact inTable _ List.mem_cons_self
      · exact inTable _ (List.mem_cons_of_mem _ List.mem_cons_self)
    · intro round below creator rower
      refine inTable _ (List.mem_cons_of_mem _ (List.mem_cons_of_mem _ (List.mem_cons_of_mem _ ?_)))
      refine List.mem_flatMap.mpr ⟨round, List.mem_range.mpr below, ?_⟩
      rcases rower with rfl | rfl | rfl <;> simp
  have valid : validateUnit quadSetup.toMint ⟨tallUnit 0 3, [], 0⟩ = .ok ⟨⟩ :=
    (validateUnit_ok _).mpr (tallUnit_checked 0 (by decide))
  have absent := poised.absent
  have unlisted : (roundUnits (cascadeParents 0 process.committed process.engine 1
      (tallUnit 0 3)).rounds 0).contains (encodeUnit (tallUnit 0 3)) = false := by
    rw [Bool.eq_false_iff, Ne, List.contains_iff_mem]
    intro listed
    obtain ⟨unit, found, _⟩ := (poised.consistent.grounded.index 0 _).mp listed
    rw [absent] at found
    cases found
  have inserted : storeUnit quadSetup process.committed
      (cascadeParents 0 process.committed process.engine 1 (tallUnit 0 3)) ⟨tallUnit 0 3, [], 0⟩
      (encodeUnit (tallUnit 0 3)) = .ok (stored quadSetup _ _, process.committed.insert _ _) :=
    storeUnit_ok.mpr ⟨absent, rfl, rfl⟩
  have overflows := @Poised.overflows _ _ poised ⟨tallUnit 0 3, [], 0⟩ rfl
  have stops := Strict.handleMessage_stops valid unlisted inserted overflows
  have stepped : Strict.step quadSetup process (arrival (tallUnit 0 3)) = none := by
    unfold Strict.step arrival
    simp only [stops]
  rw [List.map_singleton]
  unfold Strict.run
  rw [stepped]

end Picomint.Bft
