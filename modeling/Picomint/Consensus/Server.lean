/-
The processing of transactions: the inputs, their signatures, the outputs and
the funding of the outputs and fees by the inputs.
-/

import Picomint.Consensus.Ecash
import Picomint.Consensus.Lightning
import Picomint.Consensus.Onchain

namespace Picomint.Consensus

open Tss

variable {curve : Curve}

/-! ### Fees, in msat -/

def ECASH_INPUT_FEE : Nat := 100

def ECASH_OUTPUT_FEE : Nat := 100

def LIGHTNING_INPUT_FEE : Nat := 100

def LIGHTNING_OUTPUT_FEE : Nat := fromSat 1

def ONCHAIN_INPUT_FEE : Nat := fromSat 10

def ONCHAIN_OUTPUT_FEE : Nat := fromSat 10

def inputFee : Input → Nat
  | .ecash _ => ECASH_INPUT_FEE
  | .onchain _ => ONCHAIN_INPUT_FEE
  | .lightning _ => LIGHTNING_INPUT_FEE

def outputFee : Output → Nat
  | .ecash _ => ECASH_OUTPUT_FEE
  | .onchain _ => ONCHAIN_OUTPUT_FEE
  | .lightning _ => LIGHTNING_OUTPUT_FEE

/-! ### Funding -/

structure FundingVerifier where
  inputs : Nat
  outputs : Nat
  fees : Nat
deriving DecidableEq, Repr

namespace FundingVerifier

def default : FundingVerifier :=
  { inputs := 0
    outputs := 0
    fees := 0 }

def addInput (verifier : FundingVerifier) (amount fee : Nat) :
    Outcome TxError FundingVerifier := do
  let inputs ← okOr (checkedAdd verifier.inputs amount) .overflow
  let fees ← okOr (checkedAdd verifier.fees fee) .overflow
  return { verifier with inputs, fees }

def addOutput (verifier : FundingVerifier) (amount fee : Nat) :
    Outcome TxError FundingVerifier := do
  let outputs ← okOr (checkedAdd verifier.outputs amount) .overflow
  let fees ← okOr (checkedAdd verifier.fees fee) .overflow
  return { verifier with outputs, fees }

def verifyFunding (verifier : FundingVerifier) : Outcome TxError Unit := do
  let outputsAndFees ← okOr (checkedAdd verifier.outputs verifier.fees) .overflow
  ensure (outputsAndFees ≤ verifier.inputs) .underfunded

end FundingVerifier

/-! ### Transactions -/

def processInput (mint : MintConfig curve) (ledger : Ledger curve) :
    Input → Outcome InputError ((Nat × XOnlyPublicKey) × Ledger curve)
  | .ecash input => mapError .ecash (Ecash.processInput mint ledger input)
  | .onchain input => mapError .onchain (Onchain.processInput mint ledger input)
  | .lightning input => mapError .lightning (Lightning.processInput mint ledger input)

def processOutput (server : Server curve) (ledger : Ledger curve) (outpoint : OutPoint) :
    Output → Outcome OutputError (Nat × Ledger curve)
  | .ecash output => mapError .ecash (Ecash.processOutput server ledger output outpoint)
  | .onchain output =>
      mapError .onchain (Onchain.processOutput server.toMintConfig ledger output outpoint)
  | .lightning output =>
      mapError .lightning (Lightning.processOutput server.toMintConfig ledger outpoint output)

/-- What the loops over inputs and outputs carry. -/
structure Progress (curve : Curve) where
  ledger : Ledger curve
  verifier : FundingVerifier
  publicKeys : List XOnlyPublicKey

def inputStep (mint : MintConfig curve) (progress : Progress curve) (input : Input) :
    Outcome TxError (Progress curve) := do
  let ((amount, pubKey), ledger) ← mapError .input (processInput mint progress.ledger input)
  let verifier ← progress.verifier.addInput amount (inputFee input)
  return { ledger, verifier, publicKeys := progress.publicKeys ++ [pubKey] }

def outputStep (server : Server curve) (txid : TransactionId) (progress : Progress curve)
    (entry : Output × Nat) : Outcome TxError (Progress curve) := do
  let (amount, ledger) ←
    mapError .output (processOutput server progress.ledger { txid, outIdx := entry.2 } entry.1)
  let verifier ← progress.verifier.addOutput amount (outputFee entry.1)
  return { progress with ledger, verifier }

def computeTxid (mint : MintConfig curve) (tx : Transaction) : TransactionId :=
  mint.txHash tx.inputs tx.outputs

def validateSignatures (mint : MintConfig curve) (tx : Transaction)
    (publicKeys : List XOnlyPublicKey) : Outcome TxError Unit := do
  ensure (publicKeys.length = tx.signatures.length) .invalidWitnessLength
  (publicKeys.zip tx.signatures).forM (fun entry =>
    ensure (mint.verifySchnorr entry.2 (computeTxid mint tx) entry.1) .invalidSignature)

def checkCounts (tx : Transaction) : Outcome TxError Unit := do
  ensure (!tx.inputs.isEmpty) .emptyInputs
  ensure (!tx.outputs.isEmpty) .emptyOutputs
  ensure (tx.inputs.length ≤ MAX_INPUTS) .tooManyInputs
  ensure (tx.outputs.length ≤ MAX_OUTPUTS) .tooManyOutputs
  ensure (tx.signatures.length = tx.inputs.length) .invalidWitnessLength

def processTx (server : Server curve) (ledger : Ledger curve) (tx : Transaction) :
    Outcome TxError (Ledger curve) := do
  checkCounts tx
  let txid := computeTxid server.toMintConfig tx
  let progress ← tx.inputs.foldlM (inputStep server.toMintConfig)
    { ledger, verifier := FundingVerifier.default, publicKeys := [] }
  validateSignatures server.toMintConfig tx progress.publicKeys
  let progress ← tx.outputs.zipIdx.foldlM (outputStep server txid) progress
  progress.verifier.verifyFunding
  return progress.ledger

end Picomint.Consensus
