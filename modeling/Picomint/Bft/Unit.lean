/-
Units of the broadcast DAG, their wire envelopes and the engine's tables.

The hash functions, the seeded common-vote bits and the node's keychain are
parameters collected in `Setup`, next to the constants every engine is built
with.
-/

import Picomint.Core.Node
import Picomint.Lib.SortedMap

namespace Picomint.Bft

abbrev UnitHash := Hash

/-- The `Unit` of the source: position, parent map and payload commitment. -/
structure BftUnit where
  round : Nat
  creator : NodeId
  parents : SortedMap NodeId UnitHash
  data : Option Hash
deriving DecidableEq

structure UnitEnvelope (D : Type) where
  unit : BftUnit
  data : List D
  signature : Signature
deriving DecidableEq

inductive Message (D : Type) where
  | unit (envelope : UnitEnvelope D)
  | request (hash : UnitHash)
deriving DecidableEq

inductive Recipient where
  | everyone
  | node (node : NodeId)
deriving DecidableEq, Repr

/-- The three daemon-declared tables keyed by unit hash. -/
structure BftTables (D : Type) where
  unit : SortedMap UnitHash BftUnit
  unitData : SortedMap UnitHash (List D)
  unitSignature : SortedMap UnitHash Signature

def BftTables.empty {D : Type} : BftTables D :=
  { unit := SortedMap.empty
    unitData := SortedMap.empty
    unitSignature := SortedMap.empty }

/-- The rows of one stored envelope. -/
def BftTables.insert {D : Type} (tables : BftTables D) (hash : UnitHash) (ev : UnitEnvelope D) :
    BftTables D :=
  { unit := tables.unit.insert hash ev.unit
    unitData := tables.unitData.insert hash ev.data
    unitSignature := tables.unitSignature.insert hash ev.signature }

/-- What the engines of one session share. `unitHash` and `dataHash` are the
sha256 consensus hashes of a unit and of a payload, `seededBit` is the low bit
of the first byte of the hash of a round and a candidate, `verify` is the
keychain's check of a signature over the session and a unit. -/
structure Mint (D : Type) where
  session : Nat
  n : NumNodes
  unitHash : BftUnit → UnitHash
  dataHash : List D → Hash
  seededBit : Nat → UnitHash → Bool
  verify : Nat → BftUnit → Signature → NodeId → Bool

/-- What one engine is constructed with. -/
structure Setup (D : Type) extends Mint D where
  id : NodeId
  sign : Nat → BftUnit → Signature

/-- The commitment a unit makes to its payload: absent iff it is empty. -/
def Mint.commitment {D : Type} (mint : Mint D) (data : List D) : Option Hash :=
  if data.isEmpty then none else some (mint.dataHash data)

end Picomint.Bft
