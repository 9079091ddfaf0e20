/-
The amounts of a bundle of notes that was handed over.

A denomination is any byte and a bundle any list of notes.  The shift and the
sums wrap around, so the amounts are those of the integers only below 64 bits.
-/

import Picomint.Client.Funding

namespace Picomint.Client

open Consensus

/-! ### What a bundle is worth -/

/-- A note of denomination `d` is worth `2^d` msat. -/
def faceValue (notes : List SpendableNote) : Nat :=
  (notes.map fun note => 2 ^ note.denomination).sum

def checkedShift (denomination : Denomination) : Option Nat :=
  if denomination < 64 then some (2 ^ denomination) else none

/-- Every note fits the shift, and their sum the amount. -/
def Fits (notes : List SpendableNote) : Prop :=
  (∀ note ∈ notes, note.denomination < 64) ∧ faceValue notes < U64_BOUND

theorem faceValue_append (first second : List SpendableNote) :
    faceValue (first ++ second) = faceValue first + faceValue second := by
  unfold faceValue
  rw [List.map_append, List.sum_append]

theorem faceValue_perm {first second : List SpendableNote} (same : first.Perm second) :
    faceValue first = faceValue second :=
  (same.map _).sum_eq

theorem amount_eq_face {denomination : Denomination} (below : denomination < 64) :
    denomination.amount = 2 ^ denomination := by
  unfold Denomination.amount
  rw [Nat.mod_eq_of_lt below]

theorem amounts_eq_face {notes : List SpendableNote}
    (below : ∀ note ∈ notes, note.denomination < 64) :
    (notes.map SpendableNote.amount).sum = faceValue notes := by
  unfold faceValue
  congr 1
  exact List.map_congr_left fun note member => amount_eq_face (below note member)

theorem client_fits {notes : List SpendableNote}
    (client : ∀ note ∈ notes, note.denomination ∈ clientDenominations) :
    ∀ note ∈ notes, note.denomination < 64 := fun note member =>
  (clientDenominations_bounds (client note member)).2.trans (by decide)

/-- Every total the builder computes is that of the integers. -/
structure TxBuilder.Totals (builder : TxBuilder) (inputs outputs fees : Nat) : Prop where
  inputAmount : builder.inputAmount = inputs
  outputAmount : builder.outputAmount = outputs
  totalFee : builder.totalFee = fees
  deficit : builder.deficit = outputs + fees - inputs
  excessInput : builder.excessInput = inputs - (outputs + fees)

def receiveStage (ctx : ClientContext) (notes drawn : List SpendableNote)
    (requests : List NoteIssuanceRequest) : TxBuilder :=
  ((ecashReceiveBuilder ctx notes).addNotes ctx drawn).addChange ctx requests

def requestsFace (requests : List NoteIssuanceRequest) : Nat :=
  (requests.map fun request => 2 ^ request.denomination).sum

def receiveFees (notes drawn : List SpendableNote) (requests : List NoteIssuanceRequest) : Nat :=
  ECASH_INPUT_FEE * (notes.length + drawn.length) + ECASH_OUTPUT_FEE * requests.length

section Totals

variable {ctx : ClientContext} {notes drawn : List SpendableNote}
  {requests : List NoteIssuanceRequest}

theorem receiveStage_inputs :
    (receiveStage ctx notes drawn requests).inputs = (notes ++ drawn).map (noteInput ctx) := by
  unfold receiveStage ecashReceiveBuilder TxBuilder.addChange TxBuilder.addNotes
  rw [TxBuilder.addInputs_eq, List.map_append]
  rfl

theorem receiveStage_outputs :
    (receiveStage ctx notes drawn requests).outputs = requests.map (requestOutput ctx) := by
  unfold receiveStage ecashReceiveBuilder TxBuilder.addChange TxBuilder.addNotes
  rw [TxBuilder.addInputs_eq]
  rfl

theorem receiveStage_inputAmount :
    (receiveStage ctx notes drawn requests).inputAmount =
      ((notes ++ drawn).map SpendableNote.amount).sum % U64_BOUND := by
  unfold TxBuilder.inputAmount
  rw [amountSum_eq, receiveStage_inputs, List.map_map]
  rfl

theorem receiveStage_totals (below : ∀ note ∈ notes ++ drawn, note.denomination < 64)
    (issued : ∀ request ∈ requests, request.denomination < 64)
    (incoming : faceValue (notes ++ drawn) < U64_BOUND)
    (outgoing : requestsFace requests + receiveFees notes drawn requests < U64_BOUND) :
    (receiveStage ctx notes drawn requests).Totals (faceValue (notes ++ drawn))
      (requestsFace requests) (receiveFees notes drawn requests) := by
  have isInput : (receiveStage ctx notes drawn requests).inputAmount =
      faceValue (notes ++ drawn) := by
    rw [receiveStage_inputAmount, amounts_eq_face below, Nat.mod_eq_of_lt incoming]
  have isOutput : (receiveStage ctx notes drawn requests).outputAmount = requestsFace requests := by
    have faces : (requests.map (TxOutput.amount ∘ requestOutput ctx)).sum =
        requestsFace requests := by
      unfold requestsFace
      congr 1
      exact List.map_congr_left fun request member => amount_eq_face (issued request member)
    unfold TxBuilder.outputAmount
    rw [amountSum_eq, receiveStage_outputs, List.map_map, faces, Nat.mod_eq_of_lt (by omega)]
  have isFee : (receiveStage ctx notes drawn requests).totalFee =
      receiveFees notes drawn requests := by
    have inputFees : ((notes ++ drawn).map (TxInput.fee ∘ noteInput ctx)).sum =
        ECASH_INPUT_FEE * (notes.length + drawn.length) := by
      rw [show TxInput.fee ∘ noteInput ctx = fun _ => ECASH_INPUT_FEE from rfl, List.map_const',
        List.sum_replicate, smul_eq_mul, Nat.mul_comm, List.length_append]
    have outputFees : (requests.map (TxOutput.fee ∘ requestOutput ctx)).sum =
        ECASH_OUTPUT_FEE * requests.length := by
      rw [show TxOutput.fee ∘ requestOutput ctx = fun _ => ECASH_OUTPUT_FEE from rfl,
        List.map_const', List.sum_replicate, smul_eq_mul, Nat.mul_comm]
    unfold receiveFees at outgoing ⊢
    unfold TxBuilder.totalFee amountAdd
    rw [amountSum_eq, amountSum_eq, receiveStage_inputs, receiveStage_outputs, List.map_map,
      List.map_map, inputFees, outputFees, ← Nat.add_mod, Nat.mod_eq_of_lt (by omega)]
  have sum : amountAdd (receiveStage ctx notes drawn requests).outputAmount
      (receiveStage ctx notes drawn requests).totalFee =
        requestsFace requests + receiveFees notes drawn requests := by
    rw [isOutput, isFee]
    exact Nat.mod_eq_of_lt outgoing
  refine ⟨isInput, isOutput, isFee, ?_, ?_⟩
  · unfold TxBuilder.deficit
    rw [sum, isInput]
  · unfold TxBuilder.excessInput
    rw [sum, isInput]

end Totals

/-! ### Receiving -/

section Receive

variable {ctx : ClientContext} {tables : Tables} {account : Account} {operation : OperationId}
  {notes : List SpendableNote} {ids : MachineIds}

theorem requests_exact {requests : List NoteIssuanceRequest} {excess : Nat}
    (issued : requests.map NoteIssuanceRequest.denomination = changeDenoms excess false) :
    (∀ request ∈ requests, request.denomination < 64) ∧
      requestsFace requests + ECASH_OUTPUT_FEE * requests.length ≤ excess := by
  obtain ⟨_, client, cost⟩ := change_spec false excess
  have sorted : (changeDenoms excess false).Perm _ := List.perm_insertionSort _ _
  have below : ∀ request ∈ requests, request.denomination < 64 := by
    intro request member
    have listed : request.denomination ∈ changeDenoms excess false :=
      issued ▸ List.mem_map_of_mem member
    exact (clientDenominations_bounds (client _ (sorted.mem_iff.mp listed))).2.trans (by decide)
  refine ⟨below, ?_⟩
  have faces : (requests.map fun request => request.denomination.amount).sum =
      requestsFace requests :=
    congrArg List.sum
      (List.map_congr_left fun request member => amount_eq_face (below request member))
  rw [← faces, requests_cost, issued, changeCost_perm sorted]
  exact cost

/-- What holds of a bundle that gets as far as the funding and stays below. -/
structure Draws (ctx : ClientContext) (tables : Tables) (account : Account)
    (notes : List SpendableNote) : Prop where
  start : (receiveStage ctx notes [] []).Totals (faceValue notes) 0 (receiveFees notes [] [])
  chosen : selectFundingInput (tables.accountNotes account)
    (ecashReceiveBuilder ctx notes).deficit = some (surplus (tables.accountNotes account))
  funded : (receiveStage ctx notes (sortByDenomination (surplus (tables.accountNotes account)))
    []).Totals (faceValue (notes ++ surplus (tables.accountNotes account))) 0
      (receiveFees notes (surplus (tables.accountNotes account)) [])
  covered : receiveFees notes (surplus (tables.accountNotes account)) [] ≤
    faceValue (notes ++ surplus (tables.accountNotes account))

/-- The transaction with change for the excess. -/
theorem Draws.change (draws : Draws ctx tables account notes) (fits : Fits notes)
    (below : faceValue notes + faceValue (surplus (tables.accountNotes account)) < U64_BOUND)
    {requests : List NoteIssuanceRequest}
    (issued : requests.map NoteIssuanceRequest.denomination = changeDenoms (receiveStage ctx notes
      (sortByDenomination (surplus (tables.accountNotes account))) []).excessInput false) :
    (receiveStage ctx notes (sortByDenomination (surplus (tables.accountNotes account)))
      requests).Totals (faceValue (notes ++ surplus (tables.accountNotes account)))
        (requestsFace requests)
        (receiveFees notes (surplus (tables.accountNotes account)) requests) ∧
      (receiveStage ctx notes (sortByDenomination (surplus (tables.accountNotes account)))
        requests).deficit = 0 := by
  obtain ⟨small, cost⟩ := requests_exact issued
  rw [draws.funded.excessInput] at cost
  have covered := draws.covered
  obtain ⟨drawn, isDrawn⟩ : ∃ drawn, surplus (tables.accountNotes account) = drawn := ⟨_, rfl⟩
  rw [isDrawn] at cost covered below ⊢
  have client : ∀ note ∈ drawn, note.denomination ∈ clientDenominations :=
    fun note member => (surplus_client (isDrawn ▸ member)).2
  have same := sort_perm drawn
  have whole := faceValue_append notes drawn
  have sorted : faceValue (notes ++ sortByDenomination drawn) = faceValue (notes ++ drawn) :=
    faceValue_perm (same.append_left notes)
  have sortedFees : receiveFees notes (sortByDenomination drawn) requests =
      receiveFees notes drawn requests := by
    unfold receiveFees
    rw [same.length_eq]
  have split : receiveFees notes drawn requests =
      receiveFees notes drawn [] + ECASH_OUTPUT_FEE * requests.length := by
    unfold receiveFees
    rw [List.length_nil, Nat.mul_zero, Nat.add_zero]
  have totals : (receiveStage ctx notes (sortByDenomination drawn) requests).Totals
      (faceValue (notes ++ sortByDenomination drawn)) (requestsFace requests)
      (receiveFees notes (sortByDenomination drawn) requests) := by
    refine receiveStage_totals ?_ small (by omega) (by omega)
    exact List.forall_mem_append.mpr
      ⟨fits.1, fun note member => client_fits client note (same.mem_iff.mp member)⟩
  rw [sorted, sortedFees] at totals
  refine ⟨totals, ?_⟩
  rw [totals.deficit]
  omega

end Receive

def sampleNoteOf (number denomination : Nat) : SpendableNote :=
  { sampleNote number with denomination := denomination }

end Picomint.Client
