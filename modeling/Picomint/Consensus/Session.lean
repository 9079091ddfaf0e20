/-
A consensus session of a node: the ordering of its items up to the cut, the
signing of its header, and its close with signatures of its own or with an
outcome adopted from another node.

Only what is committed survives a crash: the tables, the accepted items and the
position from which the deliveries are processed.
-/

import Picomint.Lib.CutStream
import Picomint.Consensus.Items

namespace Picomint.Consensus

open Tss

variable {curve : Curve}

def ROUNDS_PER_SESSION : Nat := 1000

def SESSION_OUTCOME_BYTE_TARGET : Nat := 1000000

structure AcceptedItem (curve : Curve) where
  node : NodeId
  item : ConsensusItem curve
deriving DecidableEq

/-- The hashes of a session header, and the wire size of an item. -/
structure SessionCodec (curve : Curve) where
  /-- `consensus_hash` of the index of the session. -/
  indexHash : Nat → Hash
  /-- `consensus_hash` of a header and the next item. -/
  foldHash : Hash → AcceptedItem curve → Hash
  itemLength : AcceptedItem curve → Nat

/-- A session as far as its accepted items go. -/
structure SessionState where
  index : Nat
  header : Hash
  bytes : Nat
deriving DecidableEq, Repr

namespace SessionState

variable (codec : SessionCodec curve)

def new (session : Nat) : SessionState :=
  { index := 0
    header := codec.indexHash session
    bytes := 0 }

def fold (state : SessionState) (item : AcceptedItem curve) : SessionState :=
  { index := state.index + 1
    header := codec.foldHash state.header item
    bytes := state.bytes + codec.itemLength item }

end SessionState

def sessionHeader (codec : SessionCodec curve) (session : Nat) (items : List (AcceptedItem curve)) :
    Hash :=
  items.foldl codec.foldHash (codec.indexHash session)

structure SessionOutcome (curve : Curve) where
  items : List (AcceptedItem curve)
  signatures : SortedMap NodeId Signature

/-! ### The database of a node -/

structure NodeDb (curve : Curve) where
  ledger : Ledger curve
  /-- Keyed by the session and the position in it. -/
  acceptedItem : SortedMap (Nat ×ₗ Nat) (AcceptedItem curve)
  resumeIndex : Option Nat
  sessionSignatures : SortedMap Nat (SortedMap NodeId Signature)

namespace NodeDb

def empty : NodeDb curve :=
  { ledger := Ledger.empty
    acceptedItem := SortedMap.empty
    resumeIndex := none
    sessionSignatures := SortedMap.empty }

/-- `get_finished_session_count`. -/
def finishedSessionCount (db : NodeDb curve) : Nat :=
  match db.sessionSignatures.lastKey? with
  | none => 0
  | some last => last + 1

def acceptedItems (db : NodeDb curve) (session : Nat) : List (AcceptedItem curve) :=
  (db.acceptedItem.rows.filter fun row => (ofLex row.1).1 = session).map Prod.snd

end NodeDb

/-! ### Ordering -/

/-- A delivery of the BFT engine: its round, the node whose unit carries the
item, and the item. -/
abbrev Delivery (curve : Curve) := Nat × AcceptedItem curve

/-- What an iteration of the ordering loop leaves. -/
inductive Ordered (curve : Curve) where
  | next (db : NodeDb curve) (state : SessionState) (index : Nat)
  | cut (header : Hash)

/-- An iteration of `order_items_until_cut`.  Without a delivery it waits. -/
def orderItem (codec : SessionCodec curve) (server : Server curve) (session resumeFrom : Nat)
    (db : NodeDb curve) (state : SessionState) (index : Nat) (delivery : Option (Delivery curve)) :
    Except Panic (Ordered curve) :=
  if SESSION_OUTCOME_BYTE_TARGET ≤ state.bytes then .ok (.cut state.header)
  else match delivery with
    | none => .ok (.next db state index)
    | some (round, item) =>
        if index < resumeFrom then .ok (.next db state (index + 1))
        else if ROUNDS_PER_SESSION ≤ round then .ok (.cut state.header)
        else match processConsensusItem server db.ledger item.node item.item with
          | .error (.panic panic) => .error panic
          -- a rejection is rolled back with the position written for it
          | .error (.error _) => .ok (.next db state (index + 1))
          | .ok ledger =>
              .ok (.next
                { db with
                  ledger := ledger
                  acceptedItem := db.acceptedItem.insert (toLex (session, state.index)) item
                  resumeIndex := some (index + 1) }
                (state.fold codec item) (index + 1))

/-! ### Closing -/

/-- `validate_session_outcome`. -/
def validateSessionOutcome (codec : SessionCodec curve)
    (verify : Nat → Hash → Signature → NodeId → Bool) (threshold session : Nat)
    (outcome : SessionOutcome curve) : Bool :=
  if outcome.signatures.size ≠ threshold then false
  else
    let header := sessionHeader codec session outcome.items
    outcome.signatures.rows.all fun entry => verify session header entry.2 entry.1

inductive SessionClose (curve : Curve) where
  | signed (signatures : SortedMap NodeId Signature)
  | adopted (outcome : SessionOutcome curve)

/-- The assertions and expects of `finalize_session`. -/
inductive FinalizePanic where
  | acceptedMoreItems
  | acceptedItemsDisagree
  | rejectedItem
  | item (panic : Panic)
  | alreadySigned
deriving DecidableEq, Repr

/-- The items of an adopted outcome that the node has not ordered itself. -/
def processSuffix (server : Server curve) (session : Nat) :
    NodeDb curve → Nat → List (AcceptedItem curve) → Except FinalizePanic (NodeDb curve)
  | db, _, [] => .ok db
  | db, index, item :: rest =>
      match processConsensusItem server db.ledger item.node item.item with
      | .error (.panic panic) => .error (.item panic)
      | .error (.error _) => .error .rejectedItem
      | .ok ledger =>
          processSuffix server session
            { db with
              ledger := ledger
              acceptedItem := db.acceptedItem.insert (toLex (session, index)) item }
            (index + 1) rest

/-- The part of `finalize_session` that depends on how the session closes. -/
def adoptItems (server : Server curve) (session : Nat) (db : NodeDb curve) :
    SessionClose curve → Except FinalizePanic (NodeDb curve × SortedMap NodeId Signature)
  | .signed signatures => .ok (db, signatures)
  | .adopted outcome =>
      let accepted := db.acceptedItems session
      if outcome.items.length < accepted.length then .error .acceptedMoreItems
      else if accepted ≠ outcome.items.take accepted.length then .error .acceptedItemsDisagree
      else do
        let db ← processSuffix server session db accepted.length
          (outcome.items.drop accepted.length)
        return (db, outcome.signatures)

def finalizeSession (server : Server curve) (db : NodeDb curve) (session : Nat)
    (close : SessionClose curve) : Except FinalizePanic (NodeDb curve) := do
  let (db, signatures) ← adoptItems server session db close
  if db.sessionSignatures.contains session then .error .alreadySigned
  else
    return { db with
      sessionSignatures := db.sessionSignatures.insert session signatures
      resumeIndex := none }

end Picomint.Consensus
