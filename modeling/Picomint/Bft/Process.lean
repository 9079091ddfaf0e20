/-
A process that runs engines over one database across crashes.

A message commits relaxed, a created unit durably; a crash reverts the tables
to the last durable commit and a fresh engine replays them.  A crash may fall
inside the handling of a unit, after its requests left and before its commit,
or between the commit of a created unit and its broadcast.
-/

import Picomint.Bft.Replay
import Mathlib.Logic.Encodable.Basic
import Mathlib.Logic.Equiv.List

namespace Picomint.Bft

open Engine

variable {D : Type}

structure Process (D : Type) where
  engine : Engine D
  committed : BftTables D
  durable : BftTables D
  /-- What the engines before the last crash sent. -/
  sent : List (Recipient × Message D)
  /-- The own units, in the order of their durable commits. -/
  created : List (UnitEnvelope D)

inductive Event (D : Type) where
  | receive (now : Nat) (sender : NodeId) (message : Message D)
  | interrupt (now : Nat) (sender : NodeId) (envelope : UnitEnvelope D) (count : Nat)
  | create (data : List D)
  | interruptCreate (data : List D)
  | antiEntropy
  | flush
  | crash

namespace Process

def start : Process D :=
  { engine := Engine.new
    committed := BftTables.empty
    durable := BftTables.empty
    sent := []
    created := [] }

/-- Everything that went to the network so far. -/
def network (process : Process D) : List (Recipient × Message D) :=
  process.sent ++ process.engine.network

/-- Revert to the durable tables and replay them. -/
def restart (setup : Setup D) (process : Process D) (sent : List (Recipient × Message D)) :
    Option (Process D) :=
  match replay setup process.durable with
  | none => none
  | some engine => some { process with engine, committed := process.durable, sent }

def step (setup : Setup D) (process : Process D) : Event D → Option (Process D)
  | .receive now sender message =>
      match handleMessage setup now process.committed process.engine sender message with
      | none => none
      | some (_, engine, tables) => some { process with engine, committed := tables }
  | .interrupt now sender ev count =>
      match validateUnit setup.toMint ev with
      | .error _ => process.restart setup process.network
      | .ok _ =>
          process.restart setup (process.sent ++
            (cascadeParents now process.committed process.engine sender ev.unit).network.take
              (process.engine.network.length + count))
  | .create data =>
      match process.engine.tryCreateUnit setup data process.committed with
      | none => none
      | some (none, engine, tables) => some { process with engine, committed := tables }
      | some (some ev, engine, tables) =>
          some { process with
            engine, committed := tables, durable := tables, created := process.created ++ [ev] }
  | .interruptCreate data =>
      match process.engine.persistUnit setup data process.committed with
      | none => none
      | some (none, _, _) => process.restart setup process.network
      | some (some ev, _, tables) =>
          { process with
            committed := tables
            durable := tables
            created := process.created ++ [ev] }.restart setup process.network
  | .antiEntropy =>
      match broadcastAntiEntropy process.committed process.engine with
      | none => none
      | some engine => some { process with engine }
  | .flush => some { process with durable := process.committed }
  | .crash => process.restart setup process.network

end Process

inductive Runs (setup : Setup D) (guard : Process D → Event D → Prop) : Process D → Prop
  | start : Runs setup guard Process.start
  | step {process next : Process D} {event : Event D} (before : Runs setup guard process)
      (allowed : guard process event) (stepped : process.step setup event = some next) :
      Runs setup guard next

/-- The states of a process under any events. -/
abbrev Reachable (setup : Setup D) (process : Process D) : Prop :=
  Runs setup (fun _ _ => True) process

def Process.run (setup : Setup D) (process : Process D) : List (Event D) → Option (Process D)
  | [] => some process
  | event :: rest =>
      match process.step setup event with
      | none => none
      | some next => next.run setup rest

theorem Process.run_runs {setup : Setup D} {guard : Process D → Event D → Prop}
    (events : List (Event D)) (allowed : ∀ event ∈ events, ∀ process, guard process event)
    {process last : Process D} (before : Runs setup guard process)
    (ran : process.run setup events = some last) : Runs setup guard last := by
  induction events generalizing process with
  | nil =>
      cases ran
      exact before
  | cons event rest ih =>
      unfold Process.run at ran
      split at ran
      · cases ran
      · rename_i stepped
        exact ih (fun other member => allowed other (List.mem_cons_of_mem event member))
          (Runs.step before (allowed event List.mem_cons_self process) stepped) ran

/-! ### Messages -/

/-- Requests went out, nothing else happened. -/
def Requested (before after : Engine D) : Prop :=
  ∃ requests messages,
    after = { before with
      requestSentAt := requests
      network := before.network ++ messages } ∧
    ∀ entry ∈ messages, ∃ hash, entry.2 = Message.request hash

theorem Requested.refl (engine : Engine D) : Requested engine engine :=
  ⟨engine.requestSentAt, [], by rw [List.append_nil], fun _ impossible => by cases impossible⟩

theorem Requested.trans {first second third : Engine D} (left : Requested first second)
    (right : Requested second third) : Requested first third := by
  obtain ⟨_, leftMessages, rfl, leftOnly⟩ := left
  obtain ⟨requests, rightMessages, rfl, rightOnly⟩ := right
  refine ⟨requests, leftMessages ++ rightMessages, by simp only [List.append_assoc], ?_⟩
  intro entry member
  exact (List.mem_append.mp member).elim (leftOnly entry) (rightOnly entry)

theorem trySendRequest_requested (now : Nat) (engine : Engine D) (node : NodeId)
    (hash : UnitHash) : Requested engine (trySendRequest now engine node hash) := by
  have asks : Requested engine ({ engine with
      requestSentAt := engine.requestSentAt.insert hash now }.send (.node node) (.request hash)) :=
    ⟨engine.requestSentAt.insert hash now, [(.node node, .request hash)], rfl,
      fun entry member => ⟨hash, by rw [List.mem_singleton.mp member]⟩⟩
  unfold trySendRequest
  split
  · split
    · exact Requested.refl engine
    · exact asks
  · exact asks

theorem cascadeWalk_requested (now : Nat) (tables : BftTables D) (sender : NodeId) (steps : Nat)
    (visited : SortedSet UnitHash) (stack : List UnitHash) (engine : Engine D) :
    Requested engine (cascadeWalk now tables sender steps visited stack engine) := by
  induction steps generalizing visited stack engine with
  | zero => exact Requested.refl engine
  | succ steps ih =>
      cases stack with
      | nil => exact Requested.refl engine
      | cons hash stack =>
          unfold cascadeWalk
          split
          · exact ih _ _ _
          · split
            · exact ih _ _ _
            · split
              · exact (trySendRequest_requested now engine sender hash).trans (ih _ _ _)
              · exact ih _ _ _

theorem cascadeParents_requested (now : Nat) (tables : BftTables D) (engine : Engine D)
    (sender : NodeId) (top : BftUnit) :
    Requested engine (cascadeParents now tables engine sender top) :=
  cascadeWalk_requested now tables sender _ _ _ engine

theorem envelope_stored {tables : BftTables D} {hash : UnitHash} {ev : UnitEnvelope D}
    (found : envelope tables hash = some (some ev)) :
    tables.unit.get? hash = some ev.unit ∧ tables.unitData.get? hash = some ev.data ∧
      tables.unitSignature.get? hash = some ev.signature := by
  unfold envelope at found
  split at found
  · cases found
  · rename_i unit unitAt
    split at found
    · rename_i data signature dataAt signatureAt
      cases found
      exact ⟨unitAt, dataAt, signatureAt⟩
    · cases found

/-- Nothing but stored envelopes and requests went out. -/
def Served (tables : BftTables D) (before after : Engine D) : Prop :=
  ∃ requests messages,
    after = { before with
      requestSentAt := requests
      network := before.network ++ messages } ∧
    ∀ entry ∈ messages, ∀ ev, entry.2 = Message.unit ev →
      ∃ hash, tables.unit.get? hash = some ev.unit

theorem Requested.served {before after : Engine D} (requested : Requested before after)
    (tables : BftTables D) : Served tables before after := by
  obtain ⟨requests, messages, same, only⟩ := requested
  refine ⟨requests, messages, same, ?_⟩
  intro entry member ev isUnit
  obtain ⟨hash, isRequest⟩ := only entry member
  rw [isRequest] at isUnit
  cases isUnit

theorem Served.send {tables : BftTables D} {engine : Engine D} {recipient : Recipient}
    {hash : UnitHash} {ev : UnitEnvelope D} (found : envelope tables hash = some (some ev)) :
    Served tables engine (engine.send recipient (.unit ev)) := by
  refine ⟨engine.requestSentAt, [(recipient, .unit ev)], rfl, ?_⟩
  intro entry member other isUnit
  rw [List.mem_singleton.mp member] at isUnit
  cases isUnit
  exact ⟨hash, (envelope_stored found).1⟩

theorem broadcastAntiEntropy_served {tables : BftTables D} {engine after : Engine D}
    (broadcast : broadcastAntiEntropy tables engine = some after) :
    Served tables engine after := by
  unfold broadcastAntiEntropy at broadcast
  split at broadcast
  · cases broadcast
    exact (Requested.refl _).served _
  · split at broadcast
    · rename_i found
      cases broadcast
      exact Served.send found
    · cases broadcast

/-- The engine that `store_unit` hands on. -/
def stored (setup : Setup D) (engine : Engine D) (ev : UnitEnvelope D) : Engine D :=
  { engine with
    rounds := indexUnit engine.rounds ev.unit.round (setup.unitHash ev.unit)
    ownTop := advanceTop setup.id engine.ownTop ev.unit (setup.unitHash ev.unit) }

theorem storeUnit_ok {setup : Setup D} {tables stored' : BftTables D} {engine after : Engine D}
    {ev : UnitEnvelope D} :
    storeUnit setup tables engine ev (setup.unitHash ev.unit) = .ok (after, stored') ↔
      tables.unit.get? (setup.unitHash ev.unit) = none ∧ after = stored setup engine ev ∧
        stored' = tables.insert (setup.unitHash ev.unit) ev := by
  unfold storeUnit
  rw [ensure_bind_ok, Except.ok.injEq, Prod.mk.injEq, eq_comm (b := after), eq_comm (b := stored')]
  rfl

section Handling

variable {setup : Setup D} {tables tables' : BftTables D} {engine engine' : Engine D}

theorem absent_of_not_listed (free : Function.Injective setup.unitHash)
    (valid : TablesValid setup.toMint tables)
    (grounded : Grounded tables engine.rounds engine.extended) {unit : BftUnit}
    (missing : setup.unitHash unit ∉ roundUnits engine.rounds unit.round) :
    tables.unit.get? (setup.unitHash unit) = none := by
  cases stored : tables.unit.get? (setup.unitHash unit) with
  | none => rfl
  | some other =>
      have same : other = unit := free (valid.hashed _ other stored)
      exact absurd ((grounded.index unit.round _).mpr ⟨other, stored, by rw [same]⟩) missing

/-- A message either leaves the tables alone or stores the unit it carries. -/
theorem handleMessage_cases {now : Nat} {sender : NodeId} {message : Message D}
    {outcome : Except String Unit}
    (handled : handleMessage setup now tables engine sender message =
      some (outcome, engine', tables')) :
    (tables' = tables ∧ Served tables engine engine') ∨
    ∃ ev cascaded, message = .unit ev ∧ Checked setup.toMint ev ∧
      tables.unit.get? (setup.unitHash ev.unit) = none ∧
      setup.unitHash ev.unit ∉ roundUnits engine.rounds ev.unit.round ∧
      tables' = tables.insert (setup.unitHash ev.unit) ev ∧ Requested engine cascaded ∧
      runExtender setup tables' (tryExtend tables' (stored setup cascaded ev)
        (setup.unitHash ev.unit)) = some engine' := by
  cases message with
  | request hash =>
      refine Or.inl ?_
      simp only [handleMessage, handleRequest] at handled
      split at handled
      · cases handled
      · rename_i served
        cases handled
        split at served
        · cases served
        · cases served
          exact ⟨rfl, (Requested.refl _).served _⟩
        · rename_i found
          cases served
          exact ⟨rfl, Served.send found⟩
  | unit ev =>
      simp only [handleMessage] at handled
      split at handled
      · cases handled
        exact Or.inl ⟨rfl, (Requested.refl _).served _⟩
      · rename_i accepted
        have checked := (validateUnit_ok ev).mp accepted
        have asked := cascadeParents_requested now tables engine sender ev.unit
        split at handled
        · cases handled
          exact Or.inl ⟨rfl, asked.served _⟩
        · rename_i notListed
          split at handled
          · cases handled
            exact Or.inl ⟨rfl, asked.served _⟩
          · rename_i storedEq
            obtain ⟨absent, rfl, rfl⟩ := storeUnit_ok.mp storedEq
            split at handled
            · cases handled
            · rename_i drained
              cases handled
              refine Or.inr ⟨ev, _, rfl, checked, absent, ?_, rfl, asked, drained⟩
              intro listed
              obtain ⟨requests, messages, cascadedEq, _⟩ := asked
              rw [cascadedEq] at notListed
              exact notListed (List.contains_iff_mem.mpr listed)

theorem insertUnit_ok {ev : UnitEnvelope D} {after : Engine D} :
    insertUnit setup tables engine ev (setup.unitHash ev.unit) = .ok (after, tables') ↔
      Checked setup.toMint ev ∧ tables.unit.get? (setup.unitHash ev.unit) = none ∧
        after = stored setup engine ev ∧ tables' = tables.insert (setup.unitHash ev.unit) ev := by
  unfold insertUnit
  rw [← validateUnit_ok, ← storeUnit_ok]
  cases validateUnit setup.toMint ev with
  | error message =>
      constructor
      · intro impossible
        cases impossible
      · rintro ⟨impossible, _⟩
        cases impossible
  | ok done => exact ⟨fun stored => ⟨rfl, stored⟩, fun both => both.2⟩

/-- A creation either leaves everything alone or stores a new unit on top of
the own chain. -/
theorem persistUnit_cases {data : List D} {built : Option (UnitEnvelope D)}
    (persisted : persistUnit setup data tables engine = some (built, engine', tables')) :
    (built = none ∧ engine' = engine ∧ tables' = tables) ∨
    ∃ ev parents own, built = some ev ∧
      ev.unit = ⟨engine.nextRound, setup.id, parents, setup.commitment data⟩ ∧ ev.data = data ∧
      parentsFor setup engine engine.nextRound = some parents ∧ Checked setup.toMint ev ∧
      tables.unit.get? (setup.unitHash ev.unit) = none ∧
      tables' = tables.insert (setup.unitHash ev.unit) ev ∧
      runExtender setup tables' (tryExtend tables' { stored setup engine ev with
        unorderedOwnData := own } (setup.unitHash ev.unit)) = some engine' ∧
      own = if ev.unit.data.isSome then engine.unorderedOwnData.insert engine.nextRound ⟨⟩
        else engine.unorderedOwnData := by
  unfold persistUnit at persisted
  split at persisted
  · cases persisted
    exact Or.inl ⟨rfl, rfl, rfl⟩
  · rename_i parents parentsEq
    split at persisted
    · cases persisted
      exact Or.inl ⟨rfl, rfl, rfl⟩
    · simp only at persisted
      split at persisted
      · cases persisted
      · rename_i inserted storedTables insertedEq
        obtain ⟨checked, absent, rfl, rfl⟩ := insertUnit_ok.mp insertedEq
        split at persisted
        · cases persisted
        · rename_i drained
          cases persisted
          refine Or.inr ⟨_, parents,
            (if (setup.commitment data).isSome then
              engine.unorderedOwnData.insert engine.nextRound ⟨⟩
            else engine.unorderedOwnData),
            rfl, rfl, rfl, parentsEq, checked, absent, rfl, ?_, rfl⟩
          split at drained
          · rename_i hasData
            rw [if_pos hasData]
            exact drained
          · rename_i noData
            rw [if_neg noData]
            exact drained

end Handling

/-! ### A mint of four nodes

Node 3 signs two units of round zero.  Nodes 1 and 2 build their second units
over different ones of them. -/

/-- An injective stand-in for the unit hash. -/
def encodeUnit (unit : BftUnit) : Nat :=
  Encodable.encode (unit.round, unit.creator, unit.parents.rows, unit.data)

theorem encodeUnit_injective : Function.Injective encodeUnit := by
  rintro ⟨round, creator, ⟨rows, ascending⟩, data⟩ ⟨round', creator', ⟨rows', ascending'⟩, data'⟩ same
  have fields := Encodable.encode_injective same
  simp only [Prod.mk.injEq] at fields
  obtain ⟨rfl, rfl, rfl, rfl⟩ := fields
  rfl

def forkLeft : BftUnit := ⟨0, 3, SortedMap.empty, some (Encodable.encode [100])⟩

def forkRight : BftUnit := ⟨0, 3, SortedMap.empty, some (Encodable.encode [200])⟩

def forkHash (round creator : Nat) : Nat := 4 + 6 * round + 2 * creator

def forkParents : Nat → NodeId → SortedMap NodeId UnitHash
  | 0, _ => SortedMap.empty
  | 1, 1 => SortedMap.ofList [(1, forkHash 0 1), (2, forkHash 0 2), (3, 0)]
  | 1, 2 => SortedMap.ofList [(0, forkHash 0 0), (2, forkHash 0 2), (3, 2)]
  | round + 1, _ =>
      SortedMap.ofList [(0, forkHash round 0), (1, forkHash round 1), (2, forkHash round 2)]

def forkData : Nat → NodeId → List Nat
  | 0, creator => [7 + creator]
  | 2, 0 => [17]
  | _, _ => []

def forkUnit (round : Nat) (creator : NodeId) : BftUnit :=
  { round
    creator
    parents := forkParents round creator
    data :=
      if (forkData round creator).isEmpty then none
      else some (Encodable.encode (forkData round creator)) }

/-- Short hashes for the units that occur. -/
def forkDigest (unit : BftUnit) : Nat :=
  if unit = forkLeft then 0
  else if unit = forkRight then 2
  else if unit.creator < 3 ∧ unit = forkUnit unit.round unit.creator then
    forkHash unit.round unit.creator
  else 2 * encodeUnit unit + 1

def forkMint : Mint Nat where
  session := 0
  n := ⟨1⟩
  unitHash := forkDigest
  dataHash := Encodable.encode
  seededBit _ _ := true
  verify _ unit _ node := decide (node = 3 ∨ unit = forkUnit unit.round unit.creator)

def forkKeys : NodeId → Nat → BftUnit → Signature := fun _ _ _ => 0

def forkSetup (id : NodeId) : Setup Nat where
  toMint := forkMint
  id := id
  sign := forkKeys id

theorem forkDigest_cases (unit : BftUnit) :
    unit = forkLeft ∧ forkDigest unit = 0 ∨ unit = forkRight ∧ forkDigest unit = 2 ∨
      (unit.creator < 3 ∧ unit = forkUnit unit.round unit.creator ∧
        forkDigest unit = 4 + 6 * unit.round + 2 * unit.creator) ∨
      forkDigest unit = 2 * encodeUnit unit + 1 := by
  unfold forkDigest
  split
  · exact Or.inl ⟨by assumption, rfl⟩
  · split
    · exact Or.inr (Or.inl ⟨by assumption, rfl⟩)
    · split
      · rename_i honest
        exact Or.inr (Or.inr (Or.inl ⟨honest.1, honest.2, rfl⟩))
      · exact Or.inr (Or.inr (Or.inr rfl))

theorem forkHash_injective {round creator round' creator' : Nat} (small : creator < 3)
    (small' : creator' < 3) (same : forkHash round creator = forkHash round' creator') :
    round = round' ∧ creator = creator' := by
  unfold forkHash at same
  omega

theorem forkDigest_injective : Function.Injective forkDigest := by
  intro left right same
  rcases forkDigest_cases left with ⟨isLeft, digest⟩ | ⟨isRight, digest⟩ |
      ⟨known, honest, digest⟩ | digest <;>
    rcases forkDigest_cases right with ⟨isLeft', digest'⟩ | ⟨isRight', digest'⟩ |
      ⟨known', honest', digest'⟩ | digest' <;>
    rw [digest, digest'] at same
  case inl.inl => exact isLeft.trans isLeft'.symm
  case inr.inl.inr.inl => exact isRight.trans isRight'.symm
  case inr.inr.inl.inr.inr.inl =>
    obtain ⟨sameRound, sameCreator⟩ := forkHash_injective known known' same
    rw [honest, honest', sameRound, sameCreator]
  case inr.inr.inr.inr.inr.inr => exact encodeUnit_injective (by omega)
  all_goals omega

theorem forkMint_collisionFree : forkMint.CollisionFree :=
  ⟨forkDigest_injective, fun _ _ same => Encodable.encode_injective same⟩

/-- The same mint with a keychain that accepts every signature. -/
def openMint : Mint Nat := { forkMint with verify := fun _ _ _ _ => true }

theorem openMint_collisionFree : openMint.CollisionFree :=
  ⟨forkMint_collisionFree.unitHash, forkMint_collisionFree.dataHash⟩

/-! What reaches the engines of nodes 0 and 1, and the units they create. -/

def forkEnvelope (round : Nat) (creator : NodeId) : UnitEnvelope Nat :=
  ⟨forkUnit round creator, forkData round creator, 0⟩

def forkArrival (ev : UnitEnvelope Nat) : Event Nat := .receive 0 ev.unit.creator (.unit ev)

def leftEnvelope : UnitEnvelope Nat := ⟨forkLeft, [100], 0⟩

def rightEnvelope : UnitEnvelope Nat := ⟨forkRight, [200], 0⟩

/-- Node 0 hears of both units of node 3 before its second unit. -/
def firstEvents (rounds : Nat) : List (Event Nat) :=
  [.create [7], forkArrival (forkEnvelope 0 1), forkArrival (forkEnvelope 0 2), forkArrival rightEnvelope,
      forkArrival leftEnvelope] ++
    (List.range rounds).flatMap fun round => [.create (forkData (round + 1) 0),
      forkArrival (forkEnvelope (round + 1) 2), forkArrival (forkEnvelope (round + 1) 1)]

/-- Node 1 builds its second unit over one of them and hears of the other
later. -/
def secondEvents (rounds : Nat) : List (Event Nat) :=
  [.create [8], forkArrival (forkEnvelope 0 2), forkArrival leftEnvelope, .create [],
      forkArrival (forkEnvelope 0 0), forkArrival rightEnvelope, forkArrival (forkEnvelope 1 0),
      forkArrival (forkEnvelope 1 2)] ++
    (List.range rounds).flatMap fun round => [.create (forkData (round + 2) 1),
      forkArrival (forkEnvelope (round + 2) 0), forkArrival (forkEnvelope (round + 2) 2)]

end Picomint.Bft
