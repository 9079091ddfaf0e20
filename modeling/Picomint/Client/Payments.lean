/-
The transactions the modules of a client hand to the ecash module.

Each starts from one input or one output, with the amount and the fee the
client expects the mint to find for it.
-/

import Picomint.Client.Operations

namespace Picomint.Client

open Consensus

/-! ### Onchain -/

/-- The sum and the difference of `bitcoin::Amount`s panic out of bounds. -/
def submitSendBuilder (destination : StandardScript) (amount fee : Nat) : Attempt TxBuilder := do
  let total ← demand (checkedAdd amount fee)
  return .fromOutput
    { output := .onchain
        { destination
          value := amount
          fee }
      amount := amountFromSat total
      fee := ONCHAIN_OUTPUT_FEE }

def receiveOutputBuilder (ctx : ClientContext) (tweak : Keypair) (outputIndex amount fee : Nat) :
    Attempt TxBuilder := do
  let value ← demand (checkedSub amount fee)
  return .fromInput
    { input := .onchain
        { outputIndex
          tweak := ctx.secret.xOnlyPublicKey tweak
          fee }
      keypair := tweak
      amount := amountFromSat value
      fee := ONCHAIN_INPUT_FEE }

/-! ### Lightning -/

def incomingContractBuilder (contract : IncomingContract) (amount : Nat) : TxBuilder :=
  .fromOutput
    { output := .lightning (.incoming contract)
      amount
      fee := LIGHTNING_OUTPUT_FEE }

def gatewayStartReceiveBuilder (contract : IncomingContract) : Attempt TxBuilder := do
  let claimAmount ← demand contract.claimAmount
  return incomingContractBuilder contract claimAmount

/-- The sender authors the contract itself, at no fee. -/
def lnurlSendDirectBuilder (claimPk : XOnlyPublicKey) (ephemeralPk amount : Nat) : TxBuilder :=
  incomingContractBuilder
    { amount
      fee := 0
      claimPk
      ephemeralPk } amount

def sendInnerBuilder (contract : OutgoingContract) : TxBuilder :=
  .fromOutput
    { output := .lightning (.outgoing contract)
      amount := amountAdd contract.amount contract.fee
      fee := LIGHTNING_OUTPUT_FEE }

/-- The claim of the gateway and the refund of the sender. -/
def outgoingContractBuilder (contract : OutgoingContract) (outpoint : OutPoint)
    (witness : OutgoingWitness) (keypair : Keypair) : TxBuilder :=
  .fromInput
    { input := .lightning (.outgoing outpoint witness)
      keypair
      amount := amountAdd contract.amount contract.fee
      fee := LIGHTNING_INPUT_FEE }

def gatewayFinalizeSendBuilder (contract : OutgoingContract) (outpoint : OutPoint)
    (preimage : Nat) (keypair : Keypair) : TxBuilder :=
  outgoingContractBuilder contract outpoint (.claim preimage) keypair

def submitRefundBuilder (contract : OutgoingContract) (outpoint : OutPoint)
    (signature : Signature) (keypair : Keypair) : TxBuilder :=
  outgoingContractBuilder contract outpoint (.cancel signature) keypair

def receiveIncomingContractBuilder (contract : IncomingContract) (outpoint : OutPoint)
    (keypair : Keypair) : Attempt TxBuilder := do
  let claimAmount ← demand contract.claimAmount
  return .fromInput
    { input := .lightning (.incoming outpoint)
      keypair
      amount := claimAmount
      fee := LIGHTNING_INPUT_FEE }

/-! ### What the mint finds -/

/-- The rows of the mint the inputs of a client refer to. -/
structure MintView where
  outputValue : Nat → Nat
  outgoingContract : OutPoint → OutgoingContract
  incomingContract : OutPoint → IncomingContract

namespace MintView

def input (view : MintView) : Input → Nat
  | .ecash input => input.note.denomination.amount
  | .onchain input => fromSat (view.outputValue input.outputIndex - input.fee)
  | .lightning (.outgoing outpoint _) =>
      (view.outgoingContract outpoint).amount + (view.outgoingContract outpoint).fee
  | .lightning (.incoming outpoint) =>
      (view.incomingContract outpoint).amount - (view.incomingContract outpoint).fee

def output : Output → Nat
  | .ecash output => output.denomination.amount
  | .onchain output => fromSat (output.value + output.fee)
  | .lightning (.outgoing contract) => contract.amount + contract.fee
  | .lightning (.incoming contract) => contract.amount - contract.fee

end MintView

inductive ClientBuilder (ctx : ClientContext) (view : MintView) : TxBuilder → Prop
  | send (destination : StandardScript) (amount fee : Nat) (builder : TxBuilder)
      (built : submitSendBuilder destination amount fee = .ok builder) :
      ClientBuilder ctx view builder
  | receiveOutput (tweak : Keypair) (outputIndex fee : Nat) (builder : TxBuilder)
      (built : receiveOutputBuilder ctx tweak outputIndex (view.outputValue outputIndex) fee =
        .ok builder) :
      ClientBuilder ctx view builder
  | gatewayStartReceive (contract : IncomingContract) (builder : TxBuilder)
      (bounded : contract.amount < U64_BOUND)
      (built : gatewayStartReceiveBuilder contract = .ok builder) :
      ClientBuilder ctx view builder
  | lnurlSendDirect (claimPk : XOnlyPublicKey) (ephemeralPk amount : Nat)
      (bounded : amount < U64_BOUND) :
      ClientBuilder ctx view (lnurlSendDirectBuilder claimPk ephemeralPk amount)
  | sendInner (contract : OutgoingContract) : ClientBuilder ctx view (sendInnerBuilder contract)
  | gatewayFinalizeSend (outpoint : OutPoint) (preimage : Nat) (keypair : Keypair) :
      ClientBuilder ctx view
        (gatewayFinalizeSendBuilder (view.outgoingContract outpoint) outpoint preimage keypair)
  | submitRefund (outpoint : OutPoint) (signature : Signature) (keypair : Keypair) :
      ClientBuilder ctx view
        (submitRefundBuilder (view.outgoingContract outpoint) outpoint signature keypair)
  | receiveIncomingContract (outpoint : OutPoint) (keypair : Keypair) (builder : TxBuilder)
      (bounded : (view.incomingContract outpoint).amount < U64_BOUND)
      (built : receiveIncomingContractBuilder (view.incomingContract outpoint) outpoint keypair =
        .ok builder) :
      ClientBuilder ctx view builder
  | ecashSend (targets : List NoteIssuanceRequest) :
      ClientBuilder ctx view (ecashSendBuilder ctx targets)
  | ecashReceive (notes : List SpendableNote) :
      ClientBuilder ctx view (ecashReceiveBuilder ctx notes)

structure TxBuilder.Declares (view : MintView) (builder : TxBuilder) : Prop where
  inputs : ∀ entry ∈ builder.inputs,
    entry.amount = view.input entry.input % U64_BOUND ∧ entry.fee = inputFee entry.input
  outputs : ∀ entry ∈ builder.outputs,
    entry.amount = MintView.output entry.output % U64_BOUND ∧
      entry.fee = outputFee entry.output

section Declared

variable {ctx : ClientContext} {view : MintView} {builder : TxBuilder}

theorem declares_fromInput {entry : TxInput}
    (amount : entry.amount = view.input entry.input % U64_BOUND)
    (fee : entry.fee = inputFee entry.input) : (TxBuilder.fromInput entry).Declares view := by
  constructor
  · intro other member
    cases List.mem_singleton.mp member
    exact ⟨amount, fee⟩
  · intro other member
    cases member

theorem declares_fromOutput {entry : TxOutput}
    (amount : entry.amount = MintView.output entry.output % U64_BOUND)
    (fee : entry.fee = outputFee entry.output) : (TxBuilder.fromOutput entry).Declares view := by
  constructor
  · intro other member
    cases member
  · intro other member
    cases List.mem_singleton.mp member
    exact ⟨amount, fee⟩

theorem amount_below (denomination : Denomination) : denomination.amount < U64_BOUND :=
  Nat.pow_lt_pow_right (by decide) (Nat.mod_lt _ (by decide))

theorem noteInput_declares (note : SpendableNote) :
    (noteInput ctx note).amount = view.input (noteInput ctx note).input % U64_BOUND ∧
      (noteInput ctx note).fee = inputFee (noteInput ctx note).input :=
  ⟨(Nat.mod_eq_of_lt (amount_below note.denomination)).symm, rfl⟩

theorem requestOutput_declares (request : NoteIssuanceRequest) :
    (requestOutput ctx request).amount =
        MintView.output (requestOutput ctx request).output % U64_BOUND ∧
      (requestOutput ctx request).fee = outputFee (requestOutput ctx request).output :=
  ⟨(Nat.mod_eq_of_lt (amount_below request.denomination)).symm, rfl⟩

theorem ClientBuilder.declares (sent : ClientBuilder ctx view builder) :
    builder.Declares view := by
  cases sent with
  | send destination amount fee _ built =>
      unfold submitSendBuilder at built
      simp only [attempt_bind_eq_ok, demand_eq_ok, checkedAdd_eq_some] at built
      obtain ⟨total, ⟨sum, _⟩, result⟩ := built
      cases result
      subst sum
      exact declares_fromOutput rfl rfl
  | receiveOutput tweak outputIndex fee _ built =>
      unfold receiveOutputBuilder at built
      simp only [attempt_bind_eq_ok, demand_eq_ok, checkedSub_eq_some] at built
      obtain ⟨value, rest, result⟩ := built
      cases result
      have same : view.outputValue outputIndex - fee = value := by omega
      refine declares_fromInput ?_ rfl
      unfold MintView.input
      simp only
      rw [same]
      rfl
  | gatewayStartReceive contract _ bounded built =>
      unfold gatewayStartReceiveBuilder IncomingContract.claimAmount at built
      simp only [attempt_bind_eq_ok, demand_eq_ok, checkedSub_eq_some] at built
      obtain ⟨claimAmount, rest, result⟩ := built
      cases result
      refine declares_fromOutput ?_ rfl
      unfold MintView.output
      simp only
      rw [Nat.mod_eq_of_lt (by omega)]
      omega
  | lnurlSendDirect claimPk ephemeralPk amount bounded =>
      exact declares_fromOutput (Nat.mod_eq_of_lt bounded).symm rfl
  | sendInner contract => exact declares_fromOutput rfl rfl
  | gatewayFinalizeSend outpoint preimage keypair => exact declares_fromInput rfl rfl
  | submitRefund outpoint signature keypair => exact declares_fromInput rfl rfl
  | receiveIncomingContract outpoint keypair _ bounded built =>
      unfold receiveIncomingContractBuilder IncomingContract.claimAmount at built
      simp only [attempt_bind_eq_ok, demand_eq_ok, checkedSub_eq_some] at built
      obtain ⟨claimAmount, rest, result⟩ := built
      cases result
      refine declares_fromInput ?_ rfl
      unfold MintView.input
      simp only
      rw [Nat.mod_eq_of_lt (by omega)]
      omega
  | ecashSend targets =>
      unfold ecashSendBuilder
      rw [TxBuilder.addOutputs_eq]
      constructor
      · intro entry member
        cases member
      · intro entry member
        obtain ⟨request, _, same⟩ := List.mem_map.mp member
        rw [← same]
        exact requestOutput_declares request
  | ecashReceive notes =>
      unfold ecashReceiveBuilder
      rw [TxBuilder.addInputs_eq]
      constructor
      · intro entry member
        obtain ⟨note, _, same⟩ := List.mem_map.mp member
        rw [← same]
        exact noteInput_declares note
      · intro entry member
        cases member

end Declared

end Picomint.Client
