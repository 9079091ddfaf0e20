/-
The lightning module: contracts are funded as outputs and spent as inputs.
-/

import Picomint.Consensus.Ledger

namespace Picomint.Consensus

open Tss

variable {curve : Curve}

/-- The preimage that settles the payment: the contract's own hash. -/
def MintConfig.contractPreimage (mint : MintConfig curve) (contract : IncomingContract) : Nat :=
  mint.incomingContractHash contract

def MintConfig.contractPaymentHash (mint : MintConfig curve) (contract : IncomingContract) : Hash :=
  mint.preimageHash (mint.contractPreimage contract)

def MintConfig.verifyPreimage (mint : MintConfig curve) (contract : OutgoingContract)
    (preimage : Nat) : Bool :=
  mint.preimageHash preimage = contract.paymentHash

def MintConfig.verifyForfeitSignature (mint : MintConfig curve) (contract : OutgoingContract)
    (signature : Signature) : Bool :=
  mint.verifySchnorr signature (mint.contractId contract) contract.claimPk

namespace Lightning

/-- The key that has to sign for an outgoing contract, with the preimage of a
claim recorded. -/
def processWitness (mint : MintConfig curve) (ledger : Ledger curve) (outpoint : OutPoint)
    (contract : OutgoingContract) :
    OutgoingWitness → Outcome LightningInputError (XOnlyPublicKey × Ledger curve)
  | .claim preimage => do
      ensure (mint.verifyPreimage contract preimage) .invalidPreimage
      return (contract.claimPk,
        { ledger with preimage := ledger.preimage.insert outpoint preimage })
  | .cancel signature => do
      ensure (mint.verifyForfeitSignature contract signature) .invalidForfeitSignature
      return (contract.refundPk, ledger)

def processInput (mint : MintConfig curve) (ledger : Ledger curve) :
    LightningInput → Outcome LightningInputError ((Nat × XOnlyPublicKey) × Ledger curve)
  | .outgoing outpoint witness => do
      let contract ← okOr (ledger.outgoingContract.get? outpoint) .unknownContract
      let ledger := { ledger with outgoingContract := ledger.outgoingContract.erase outpoint }
      let (pk, ledger) ← processWitness mint ledger outpoint contract witness
      let amount ← okOr (checkedAdd contract.amount contract.fee) .arithmeticOverflow
      return ((amount, pk), ledger)
  | .incoming outpoint => do
      let contract ← okOr (ledger.incomingContract.get? outpoint) .unknownContract
      let index ← expect (ledger.incomingContractIndex.get? outpoint) .contractIndex
      let ledger := { ledger with
        incomingContract := ledger.incomingContract.erase outpoint
        incomingContractIndex := ledger.incomingContractIndex.erase outpoint
        incomingContractStream := ledger.incomingContractStream.erase index }
      let amount ← okOr contract.claimAmount .arithmeticOverflow
      return ((amount, contract.claimPk), ledger)

def processOutput (mint : MintConfig curve) (ledger : Ledger curve) (outpoint : OutPoint) :
    LightningOutput → Outcome LightningOutputError (Nat × Ledger curve)
  | .outgoing contract => do
      let amount ← okOr (checkedAdd contract.amount contract.fee) .arithmeticOverflow
      return (amount,
        { ledger with outgoingContract := ledger.outgoingContract.insert outpoint contract })
  | .incoming contract => do
      let amount ← okOr contract.claimAmount .arithmeticOverflow
      let streamIndex := ledger.incomingContractStreamNextIndex.getD 0
      return (amount, { ledger with
        incomingContract := ledger.incomingContract.insert outpoint contract
        incomingPayment := ledger.incomingPayment.insert (mint.contractPaymentHash contract)
          (mint.contractPreimage contract)
        incomingContractStream :=
          ledger.incomingContractStream.insert streamIndex (outpoint, contract)
        incomingContractIndex := ledger.incomingContractIndex.insert outpoint streamIndex
        incomingContractStreamNextIndex := some (streamIndex + 1) })

/-! ### What an accepted input or output did -/

theorem processWitness_ok {mint : MintConfig curve} {ledger after : Ledger curve}
    {outpoint : OutPoint} {contract : OutgoingContract} {witness : OutgoingWitness}
    {pk : XOnlyPublicKey}
    (processed : processWitness mint ledger outpoint contract witness = .ok (pk, after)) :
    ∃ preimage, after = { ledger with preimage := preimage } := by
  cases witness with
  | claim preimage =>
      simp only [processWitness, bind_eq_ok, ensure_eq_ok] at processed
      obtain ⟨_, _, result⟩ := processed
      cases result
      exact ⟨_, rfl⟩
  | cancel signature =>
      simp only [processWitness, bind_eq_ok, ensure_eq_ok] at processed
      obtain ⟨_, _, result⟩ := processed
      cases result
      exact ⟨_, rfl⟩

theorem processInput_outgoing_ok {mint : MintConfig curve} {ledger after : Ledger curve}
    {outpoint : OutPoint} {witness : OutgoingWitness} {amount : Nat} {pk : XOnlyPublicKey}
    (processed : processInput mint ledger (.outgoing outpoint witness) =
      .ok ((amount, pk), after)) :
    ∃ contract preimage, ledger.outgoingContract.get? outpoint = some contract ∧
      (∃ kept, processWitness mint kept outpoint contract witness = .ok (pk, after)) ∧
      amount = contract.amount + contract.fee ∧ amount < U64_BOUND ∧
      after = { ledger with
        outgoingContract := ledger.outgoingContract.erase outpoint
        preimage := preimage } := by
  simp only [processInput, bind_eq_ok, okOr_eq_ok] at processed
  obtain ⟨contract, found, ⟨key, kept⟩, witnessed, sum, added, result⟩ := processed
  cases result
  obtain ⟨preimage, same⟩ := processWitness_ok witnessed
  obtain ⟨exact, bounded⟩ := checkedAdd_eq_some.mp added
  exact ⟨contract, preimage, found, ⟨_, witnessed⟩, exact, bounded, same⟩

theorem processInput_incoming_ok {mint : MintConfig curve} {ledger after : Ledger curve}
    {outpoint : OutPoint} {amount : Nat} {pk : XOnlyPublicKey}
    (processed : processInput mint ledger (.incoming outpoint) = .ok ((amount, pk), after)) :
    ∃ contract index, ledger.incomingContract.get? outpoint = some contract ∧
      ledger.incomingContractIndex.get? outpoint = some index ∧
      contract.amount = amount + contract.fee ∧ pk = contract.claimPk ∧
      after = { ledger with
        incomingContract := ledger.incomingContract.erase outpoint
        incomingContractIndex := ledger.incomingContractIndex.erase outpoint
        incomingContractStream := ledger.incomingContractStream.erase index } := by
  simp only [processInput, bind_eq_ok, okOr_eq_ok, expect_eq_ok] at processed
  obtain ⟨contract, found, index, indexed, claim, claimed, result⟩ := processed
  cases result
  exact ⟨contract, index, found, indexed, checkedSub_eq_some.mp claimed, rfl, rfl⟩

theorem processOutput_outgoing_ok {mint : MintConfig curve} {ledger after : Ledger curve}
    {outpoint : OutPoint} {contract : OutgoingContract} {amount : Nat}
    (processed : processOutput mint ledger outpoint (.outgoing contract) =
      .ok (amount, after)) :
    amount = contract.amount + contract.fee ∧ amount < U64_BOUND ∧
      after = { ledger with
        outgoingContract := ledger.outgoingContract.insert outpoint contract } := by
  simp only [processOutput, bind_eq_ok, okOr_eq_ok] at processed
  obtain ⟨sum, added, result⟩ := processed
  cases result
  obtain ⟨exact, bounded⟩ := checkedAdd_eq_some.mp added
  exact ⟨exact, bounded, rfl⟩

theorem processOutput_incoming_ok {mint : MintConfig curve} {ledger after : Ledger curve}
    {outpoint : OutPoint} {contract : IncomingContract} {amount : Nat}
    (processed : processOutput mint ledger outpoint (.incoming contract) =
      .ok (amount, after)) :
    contract.amount = amount + contract.fee ∧
      after = { ledger with
        incomingContract := ledger.incomingContract.insert outpoint contract
        incomingPayment := ledger.incomingPayment.insert (mint.contractPaymentHash contract)
          (mint.contractPreimage contract)
        incomingContractStream := ledger.incomingContractStream.insert
          (ledger.incomingContractStreamNextIndex.getD 0) (outpoint, contract)
        incomingContractIndex := ledger.incomingContractIndex.insert outpoint
          (ledger.incomingContractStreamNextIndex.getD 0)
        incomingContractStreamNextIndex :=
          some (ledger.incomingContractStreamNextIndex.getD 0 + 1) } := by
  simp only [processOutput, bind_eq_ok, okOr_eq_ok] at processed
  obtain ⟨claim, claimed, result⟩ := processed
  cases result
  exact ⟨checkedSub_eq_some.mp claimed, rfl⟩

end Lightning

end Picomint.Consensus
