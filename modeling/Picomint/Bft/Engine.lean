/-
The engine: admission, storage, extension, unit creation and replay.

Every function mirrors one of `engine.rs` over the in-memory `Engine` and the
tables as its write transaction sees them.  A returned table value is the
committed one; a rejected message returns the tables it was given.
-/

import Picomint.Bft.Extender

namespace Picomint.Bft

/-- `REQUEST_DEDUP_INTERVAL`, in milliseconds. -/
def requestDedupInterval : Nat := 1000

/-- `ensure!` -/
def ensure (condition : Prop) [Decidable condition] (error : String) : Except String Unit :=
  if condition then .ok ⟨⟩ else .error error

namespace Engine

variable {D : Type}

/-! ### Extension -/

def isExtended (engine : Engine D) (hash : UnitHash) : Bool := engine.extended.contains hash

/-- Every parent is an extended unit created by the node it is keyed under at
exactly one round below. -/
def parentsFed (extended : SortedMap UnitHash BftUnit) (unit : BftUnit) : Bool :=
  unit.parents.rows.all (fun entry =>
    match extended.get? entry.2 with
    | none => false
    | some parent => parent.creator == entry.1 && parent.round + 1 == unit.round)

def maybeExtend (tables : BftTables D) (engine : Engine D) (hash : UnitHash) :
    Option Nat × Engine D :=
  if engine.isExtended hash then (none, engine)
  else match tables.unit.get? hash with
    | none => (none, engine)
    | some unit =>
        if parentsFed engine.extended unit then
          (some unit.round, { engine with extended := engine.extended.insert hash unit })
        else (none, engine)

def sweep (tables : BftTables D) : List UnitHash → Engine D → Bool × Engine D
  | [], engine => (false, engine)
  | candidate :: rest, engine =>
      let step := maybeExtend tables engine candidate
      let remaining := sweep tables rest step.2
      (step.1.isSome || remaining.1, remaining.2)

/-- Sweep ascending rounds until one yields nothing. -/
def sweepFrom (tables : BftTables D) : Nat → Nat → Engine D → Engine D
  | 0, _, engine => engine
  | steps + 1, round, engine =>
      let step := sweep tables (roundUnits engine.rounds round) engine
      if step.1 then sweepFrom tables steps (round + 1) step.2 else step.2

def tryExtend (tables : BftTables D) (engine : Engine D) (hash : UnitHash) : Engine D :=
  match maybeExtend tables engine hash with
  | (none, engine) => engine
  | (some round, engine) => sweepFrom tables (stepBound engine.rounds) (round + 1) engine

/-! ### Admission -/

def validateUnit (mint : Mint D) (ev : UnitEnvelope D) : Except String Unit := do
  ensure (ev.unit.creator ∈ mint.n.nodeIds) "unit creator not in mint"
  if ev.unit.round = 0 then
    ensure (ev.unit.parents.size = 0) "round 0 unit must have no parents"
  else
    ensure (ev.unit.parents.size = mint.n.threshold)
      "non-zero round unit must have threshold parents"
    ensure (∀ creator ∈ ev.unit.parents.keys, creator ∈ mint.n.nodeIds)
      "parent creator not in mint"
  ensure (mint.verify mint.session ev.unit ev.signature ev.unit.creator = true)
    "invalid creator signature"
  ensure (ev.unit.data = mint.commitment ev.data)
    "payload does not match the unit's data commitment"

def indexUnit (rounds : Rounds) (round : Nat) (hash : UnitHash) : Rounds :=
  rounds.insert round (((rounds.get? round).getD SortedMap.empty).insert hash ⟨⟩)

/-- `own_top` after a unit of the given creator. -/
def advanceTop (id : NodeId) (ownTop : Option (Nat × UnitHash)) (unit : BftUnit)
    (hash : UnitHash) : Option (Nat × UnitHash) :=
  if unit.creator = id then
    match ownTop with
    | none => some (unit.round, hash)
    | some top => if top.1 < unit.round then some (unit.round, hash) else some top
  else ownTop

def storeUnit (setup : Setup D) (tables : BftTables D) (engine : Engine D) (ev : UnitEnvelope D)
    (hash : UnitHash) : Except String (Engine D × BftTables D) := do
  ensure (tables.unit.get? hash = none) "unit already stored"
  .ok ({ engine with
      rounds := indexUnit engine.rounds ev.unit.round hash
      ownTop := advanceTop setup.id engine.ownTop ev.unit hash },
    tables.insert hash ev)

def insertUnit (setup : Setup D) (tables : BftTables D) (engine : Engine D) (ev : UnitEnvelope D)
    (hash : UnitHash) : Except String (Engine D × BftTables D) := do
  validateUnit setup.toMint ev
  storeUnit setup tables engine ev hash

/-! ### Messages -/

def send (engine : Engine D) (recipient : Recipient) (message : Message D) : Engine D :=
  { engine with network := engine.network ++ [(recipient, message)] }

def trySendRequest (now : Nat) (engine : Engine D) (node : NodeId) (hash : UnitHash) : Engine D :=
  match engine.requestSentAt.get? hash with
  | some sentAt =>
      if now - sentAt < requestDedupInterval then engine
      else { engine with requestSentAt := engine.requestSentAt.insert hash now }.send
        (.node node) (.request hash)
  | none => { engine with requestSentAt := engine.requestSentAt.insert hash now }.send
      (.node node) (.request hash)

/-- The stack walk of `cascade_parents`.  A stored unit is expanded at most
once, so the parent entries of all stored units bound the steps. -/
def cascadeWalk (now : Nat) (tables : BftTables D) (sender : NodeId) :
    Nat → SortedSet UnitHash → List UnitHash → Engine D → Engine D
  | 0, _, _, engine => engine
  | _ + 1, _, [], engine => engine
  | steps + 1, visited, hash :: stack, engine =>
      if visited.contains hash then cascadeWalk now tables sender steps visited stack engine
      else if engine.isExtended hash then
        cascadeWalk now tables sender steps (visited.insert hash ⟨⟩) stack engine
      else match tables.unit.get? hash with
        | none =>
            cascadeWalk now tables sender steps (visited.insert hash ⟨⟩) stack
              (trySendRequest now engine sender hash)
        | some unit =>
            cascadeWalk now tables sender steps (visited.insert hash ⟨⟩)
              (unit.parents.values.reverse ++ stack) engine

def cascadeParents (now : Nat) (tables : BftTables D) (engine : Engine D) (sender : NodeId)
    (top : BftUnit) : Engine D :=
  cascadeWalk now tables sender
    (top.parents.size + tables.unit.total (fun _ unit => unit.parents.size) + 1)
    SortedMap.empty top.parents.values.reverse engine

/-- The stored envelope under a hash: outer `none` is a missing row of a
stored unit. -/
def envelope (tables : BftTables D) (hash : UnitHash) : Option (Option (UnitEnvelope D)) :=
  match tables.unit.get? hash with
  | none => some none
  | some unit =>
      match tables.unitData.get? hash, tables.unitSignature.get? hash with
      | some data, some signature => some (some { unit, data, signature })
      | _, _ => none

def handleRequest (tables : BftTables D) (engine : Engine D) (requester : NodeId)
    (hash : UnitHash) : Option (Engine D) :=
  match envelope tables hash with
  | none => none
  | some none => some engine
  | some (some ev) => some (engine.send (.node requester) (.unit ev))

/-- The result carries the outcome of the message, the engine and the
committed tables. -/
def handleMessage (setup : Setup D) (now : Nat) (tables : BftTables D) (engine : Engine D)
    (sender : NodeId) : Message D → Option (Except String Unit × Engine D × BftTables D)
  | .unit ev =>
      match validateUnit setup.toMint ev with
      | .error error => some (.error error, engine, tables)
      | .ok _ =>
          let engine := cascadeParents now tables engine sender ev.unit
          let hash := setup.unitHash ev.unit
          if (roundUnits engine.rounds ev.unit.round).contains hash then
            some (.ok ⟨⟩, engine, tables)
          else match storeUnit setup tables engine ev hash with
            | .error error => some (.error error, engine, tables)
            | .ok (engine, stored) =>
                match runExtender setup stored (tryExtend stored engine hash) with
                | none => none
                | some engine => some (.ok ⟨⟩, engine, stored)
  | .request hash =>
      match handleRequest tables engine sender hash with
      | none => none
      | some engine => some (.ok ⟨⟩, engine, tables)

def broadcastAntiEntropy (tables : BftTables D) (engine : Engine D) : Option (Engine D) :=
  match engine.ownTop with
  | none => some engine
  | some (_, hash) =>
      match envelope tables hash with
      | some (some ev) => some (engine.send .everyone (.unit ev))
      | _ => none

/-! ### Creation -/

def hasUnorderedOwnData (engine : Engine D) : Bool := engine.unorderedOwnData.size != 0

def extendedRow (engine : Engine D) (round : Nat) : SortedMap NodeId UnitHash :=
  (extendedAt engine.rounds engine.extended round).foldl
    (fun row hash =>
      match engine.extended.get? hash with
      | none => row
      | some unit => if row.contains unit.creator then row else row.insert unit.creator hash)
    SortedMap.empty

def parentsFor (setup : Setup D) (engine : Engine D) (round : Nat) :
    Option (SortedMap NodeId UnitHash) :=
  match round with
  | 0 => some SortedMap.empty
  | parentRound + 1 =>
      match (engine.extendedRow parentRound).get? setup.id with
      | none => none
      | some own =>
          let others := (engine.extendedRow parentRound).rows.filter
            (fun entry => entry.1 ≠ setup.id)
          let parents := SortedMap.ofList (((setup.id, own) :: others).take setup.n.threshold)
          if parents.size = setup.n.threshold then some parents else none

/-- The round `try_create_unit` builds at. -/
def nextRound (engine : Engine D) : Nat :=
  match engine.ownTop with
  | none => 0
  | some (top, _) => top + 1

/-- `try_create_unit` up to its durable commit, with what `get_data` draws:
the new envelope, or nothing when no unit is built. -/
def persistUnit (setup : Setup D) (data : List D) (tables : BftTables D) (engine : Engine D) :
    Option (Option (UnitEnvelope D) × Engine D × BftTables D) :=
  match engine.parentsFor setup engine.nextRound with
  | none => some (none, engine, tables)
  | some parents =>
      if data.isEmpty && !engine.hasUnorderedOwnData then some (none, engine, tables)
      else
        let unit : BftUnit :=
          { round := engine.nextRound
            creator := setup.id
            parents := parents
            data := setup.commitment data }
        let hash := setup.unitHash unit
        let ev : UnitEnvelope D := { unit, data, signature := setup.sign setup.session unit }
        match insertUnit setup tables engine ev hash with
        | .error _ => none
        | .ok (inserted, stored) =>
            let inserted :=
              if unit.data.isSome then
                { inserted with
                  unorderedOwnData := inserted.unorderedOwnData.insert unit.round ⟨⟩ }
              else inserted
            match runExtender setup stored (tryExtend stored inserted hash) with
            | none => none
            | some engine => some (some ev, engine, stored)

/-- The unit that was built stands for the `true` of the source. -/
def tryCreateUnit (setup : Setup D) (data : List D) (tables : BftTables D) (engine : Engine D) :
    Option (Option (UnitEnvelope D) × Engine D × BftTables D) :=
  match engine.persistUnit setup data tables with
  | none => none
  | some (none, engine, tables) => some (none, engine, tables)
  | some (some ev, engine, tables) => some (some ev, engine.send .everyone (.unit ev), tables)

/-! ### Replay -/

def indexRow (setup : Setup D) (engine : Engine D) (row : UnitHash × BftUnit) : Engine D :=
  { engine with
    rounds := indexUnit engine.rounds row.2.round row.1
    unorderedOwnData :=
      if row.2.creator = setup.id ∧ row.2.data.isSome then
        engine.unorderedOwnData.insert row.2.round ⟨⟩
      else engine.unorderedOwnData
    ownTop := advanceTop setup.id engine.ownTop row.2 row.1 }

def rebuild (setup : Setup D) (tables : BftTables D) : Engine D :=
  let indexed := tables.unit.rows.foldl (indexRow setup) Engine.new
  (roundUnits indexed.rounds 0).foldl (tryExtend tables) indexed

/-- Rebuild a fresh engine from the stored units. -/
def replay (setup : Setup D) (tables : BftTables D) : Option (Engine D) :=
  runExtender setup tables (rebuild setup tables)

end Engine

end Picomint.Bft
