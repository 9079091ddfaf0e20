/-
Transactions, consensus items and their errors, as they cross the wire.

Scripts, x-only keys, preimages and the signatures of users are opaque
integers; the items of the signing log carry the values of the curve they are
parameterized by.
-/

import Picomint.Core.Amount
import Picomint.Core.Node
import Picomint.Tss.Signing
import Mathlib.Data.Prod.Lex
import Mathlib.Order.Lattice

namespace Picomint

open Tss

abbrev TransactionId := Hash

/-- The id of a bitcoin transaction. -/
abbrev Txid := Hash

abbrev XOnlyPublicKey := Nat

abbrev Script := Nat

/-- An output of a mint transaction. -/
structure OutPoint where
  txid : TransactionId
  outIdx : Nat
deriving DecidableEq, Repr

theorem OutPoint.toLex_injective :
    Function.Injective (fun point : OutPoint => toLex (point.txid, point.outIdx)) := by
  intro left right same
  cases left
  cases right
  cases toLex.injective same
  rfl

instance : LinearOrder OutPoint :=
  LinearOrder.lift' (fun point => toLex (point.txid, point.outIdx)) OutPoint.toLex_injective

/-! ### Ecash -/

abbrev Denomination := Nat

/-- The shift of a 64-bit integer takes its count modulo 64. -/
def Denomination.amount (denomination : Denomination) : Nat := 2 ^ (denomination % 64)

abbrev BlindedNonce := Nat

structure Note where
  denomination : Denomination
  nonce : XOnlyPublicKey
  signature : Nat
deriving DecidableEq, Repr

structure EcashInput where
  note : Note
deriving DecidableEq, Repr

structure EcashOutput where
  denomination : Denomination
  nonce : BlindedNonce
deriving DecidableEq, Repr

inductive EcashInputError where
  | spentCoin
  | invalidDenomination
  | invalidSignature
deriving DecidableEq, Repr

inductive EcashOutputError where
  | reusedNonce
  | invalidDenomination
deriving DecidableEq, Repr

/-! ### Lightning -/

structure IncomingContract where
  amount : Nat
  fee : Nat
  claimPk : XOnlyPublicKey
  ephemeralPk : Nat
deriving DecidableEq, Repr

def IncomingContract.claimAmount (contract : IncomingContract) : Option Nat :=
  checkedSub contract.amount contract.fee

structure OutgoingContract where
  paymentHash : Hash
  amount : Nat
  fee : Nat
  claimPk : XOnlyPublicKey
  refundPk : XOnlyPublicKey
  invoice : Hash
deriving DecidableEq, Repr

inductive OutgoingWitness where
  | claim (preimage : Nat)
  | cancel (signature : Signature)
deriving DecidableEq, Repr

inductive LightningInput where
  | outgoing (outpoint : OutPoint) (witness : OutgoingWitness)
  | incoming (outpoint : OutPoint)
deriving DecidableEq, Repr

inductive LightningOutput where
  | outgoing (contract : OutgoingContract)
  | incoming (contract : IncomingContract)
deriving DecidableEq, Repr

inductive LightningInputError where
  | unknownContract
  | invalidPreimage
  | invalidForfeitSignature
  | arithmeticOverflow
deriving DecidableEq, Repr

inductive LightningOutputError where
  | arithmeticOverflow
deriving DecidableEq, Repr

/-! ### Onchain -/

/-- A `bitcoin::OutPoint`. -/
structure BtcOutPoint where
  txid : Txid
  vout : Nat
deriving DecidableEq, Repr

structure TxOut where
  value : Nat
  scriptPubkey : Script
deriving DecidableEq, Repr

structure TrackedOutput where
  outpoint : BtcOutPoint
  out : TxOut
deriving DecidableEq, Repr

structure BlockTx where
  txid : Txid
  outputs : List (Nat × TxOut)
deriving DecidableEq, Repr

structure BlockVote where
  height : Nat
  txs : List BlockTx
deriving DecidableEq, Repr

inductive StandardScript where
  | p2pkh (hash : Hash)
  | p2sh (hash : Hash)
  | p2wpkh (hash : Hash)
  | p2wsh (hash : Hash)
  | p2tr (key : XOnlyPublicKey)
deriving DecidableEq, Repr

structure OnchainInput where
  outputIndex : Nat
  tweak : XOnlyPublicKey
  fee : Nat
deriving DecidableEq, Repr

structure OnchainOutput where
  destination : StandardScript
  value : Nat
  fee : Nat
deriving DecidableEq, Repr

inductive OnchainConsensusItem (curve : Curve) where
  | block (vote : BlockVote)
  | feerate (vote : Option Nat)
  | nonces (txid : Txid) (nonces : List (PublicNonce curve))
  | signatureShares (txid : Txid) (shares : List (SignatureShare curve))
      (nonces : List (PublicNonce curve))
deriving DecidableEq

inductive OnchainInputError where
  | outputAlreadySpent
  | unknownOutputIndex
  | wrongTweak
  | noConsensusFeerateAvailable
  | insufficientTotalFee
  | arithmeticOverflow
  | pendingTransaction
deriving DecidableEq, Repr

inductive OnchainOutputError where
  | underDustLimit
  | noMintUtxo
  | noConsensusFeerateAvailable
  | insufficientTotalFee
  | changeUnderDustLimit
  | arithmeticOverflow
  | pendingTransaction
deriving DecidableEq, Repr

/-! ### Transactions and items -/

inductive Input where
  | ecash (input : EcashInput)
  | onchain (input : OnchainInput)
  | lightning (input : LightningInput)
deriving DecidableEq, Repr

inductive Output where
  | ecash (output : EcashOutput)
  | onchain (output : OnchainOutput)
  | lightning (output : LightningOutput)
deriving DecidableEq, Repr

inductive InputError where
  | ecash (error : EcashInputError)
  | onchain (error : OnchainInputError)
  | lightning (error : LightningInputError)
deriving DecidableEq, Repr

inductive OutputError where
  | ecash (error : EcashOutputError)
  | onchain (error : OnchainOutputError)
  | lightning (error : LightningOutputError)
deriving DecidableEq, Repr

structure Transaction where
  inputs : List Input
  outputs : List Output
  signatures : List Signature
deriving DecidableEq, Repr

def MAX_INPUTS : Nat := 1024

def MAX_OUTPUTS : Nat := 1024

inductive TxError where
  | emptyInputs
  | emptyOutputs
  | tooManyInputs
  | tooManyOutputs
  | underfunded
  | overflow
  | invalidWitnessLength
  | invalidSignature
  | input (error : InputError)
  | output (error : OutputError)
deriving DecidableEq, Repr

structure ConsensusVersion where
  major : Nat
  minor : Nat
deriving DecidableEq, Repr

theorem ConsensusVersion.toLex_injective :
    Function.Injective
      (fun version : ConsensusVersion => toLex (version.major, version.minor)) := by
  intro left right same
  cases left
  cases right
  cases toLex.injective same
  rfl

/-- Versions compare lexicographically. -/
instance : LinearOrder ConsensusVersion :=
  LinearOrder.lift' (fun version => toLex (version.major, version.minor))
    ConsensusVersion.toLex_injective

def CONSENSUS_VERSION : ConsensusVersion :=
  { major := 1
    minor := 0 }

inductive ConsensusItem (curve : Curve) where
  | tx (tx : Transaction)
  | onchain (item : OnchainConsensusItem curve)
  | blockHeight (vote : Nat)
  | version (vote : ConsensusVersion)
deriving DecidableEq

end Picomint
