/-
The sums of a transaction the account funds.

As long as no sum wraps the assertions of the funding hold, and an operation
whose notes suffice goes through.
-/

import Picomint.Client.Coverage
import Picomint.Client.Operations

namespace Picomint.Client

open Consensus

/-! ### Adding notes and change -/

section Sums

variable (ctx : ClientContext)

theorem totalValue_face {notes : List SpendableNote}
    (client : ∀ note ∈ notes, note.denomination ∈ clientDenominations) :
    (notes.map SpendableNote.amount).sum =
      totalValue notes + ECASH_INPUT_FEE * notes.length := by
  induction notes with
  | nil => rfl
  | cons note rest inductionHypothesis =>
      have face := noteValue_add (client note List.mem_cons_self)
      have others := inductionHypothesis
        (fun other member => client other (List.mem_cons_of_mem note member))
      unfold totalValue noteValues at others ⊢
      simp only [List.map_cons, List.sum_cons, List.length_cons]
      rw [others]
      unfold SpendableNote.amount
      rw [Nat.mul_succ]
      omega

def changeCost (denominations : List Denomination) : Nat :=
  (denominations.map (fun denomination => denomination.amount + ECASH_OUTPUT_FEE)).sum

theorem requests_cost (requests : List NoteIssuanceRequest) :
    (requests.map (fun request => request.denomination.amount)).sum +
        ECASH_OUTPUT_FEE * requests.length =
      changeCost (requests.map NoteIssuanceRequest.denomination) := by
  induction requests with
  | nil => rfl
  | cons request rest inductionHypothesis =>
      unfold changeCost at inductionHypothesis ⊢
      simp only [List.map_cons, List.sum_cons, List.length_cons, Nat.mul_succ]
      omega

theorem incoming_addNotes (builder : TxBuilder) {notes : List SpendableNote}
    (client : ∀ note ∈ notes, note.denomination ∈ clientDenominations) :
    (builder.addNotes ctx notes).incoming =
      builder.incoming + (totalValue notes + ECASH_INPUT_FEE * notes.length) := by
  have faces : (notes.map (TxInput.amount ∘ noteInput ctx)).sum =
      totalValue notes + ECASH_INPUT_FEE * notes.length :=
    totalValue_face client
  unfold TxBuilder.addNotes TxBuilder.incoming
  rw [List.map_append, List.sum_append, List.map_map, faces]

theorem outgoing_addNotes (builder : TxBuilder) (notes : List SpendableNote) :
    (builder.addNotes ctx notes).outgoing =
      builder.outgoing + ECASH_INPUT_FEE * notes.length := by
  have fees : (notes.map (TxInput.fee ∘ noteInput ctx)).sum = ECASH_INPUT_FEE * notes.length := by
    rw [show TxInput.fee ∘ noteInput ctx = fun _ => ECASH_INPUT_FEE from rfl, List.map_const',
      List.sum_replicate, smul_eq_mul, Nat.mul_comm]
  unfold TxBuilder.addNotes TxBuilder.outgoing
  simp only [List.map_append, List.sum_append, List.map_map, fees]
  omega

theorem incoming_addChange (builder : TxBuilder) (requests : List NoteIssuanceRequest) :
    (builder.addChange ctx requests).incoming = builder.incoming := rfl

theorem outgoing_addChange (builder : TxBuilder) (requests : List NoteIssuanceRequest) :
    (builder.addChange ctx requests).outgoing =
      builder.outgoing + changeCost (requests.map NoteIssuanceRequest.denomination) := by
  have fees : (requests.map (TxOutput.fee ∘ requestOutput ctx)).sum =
      ECASH_OUTPUT_FEE * requests.length := by
    rw [show TxOutput.fee ∘ requestOutput ctx = fun _ => ECASH_OUTPUT_FEE from rfl,
      List.map_const', List.sum_replicate, smul_eq_mul, Nat.mul_comm]
  have amounts : (requests.map (TxOutput.amount ∘ requestOutput ctx)).sum =
      (requests.map (fun request => request.denomination.amount)).sum := rfl
  rw [← requests_cost]
  unfold TxBuilder.addChange TxBuilder.outgoing
  simp only [List.map_append, List.sum_append, List.map_map, fees, amounts]
  omega

theorem changeCost_perm {first second : List Denomination} (same : first.Perm second) :
    changeCost first = changeCost second :=
  (same.map _).sum_eq

end Sums

/-! ### What funding leaves -/

section Balanced

variable {ctx : ClientContext} {tables : Tables} {account : Account} {builder after : TxBuilder}
  {max : Bool} {spendableNotes : List SpendableNote} {requests : List NoteIssuanceRequest}

theorem Funded.client
    (funded : Funded ctx tables account builder max spendableNotes requests after) :
    ∀ note ∈ spendableNotes, note.denomination ∈ clientDenominations := by
  obtain ⟨selected, chosen, same⟩ := funded.selected
  obtain ⟨_, members⟩ :=
    selectFundingInput_members (Tables.accountNotes_nodup tables account) chosen
  exact fun note member => (members note (same.mem_iff.mp member)).2

theorem Funded.after_eq
    (funded : Funded ctx tables account builder max spendableNotes requests after) :
    after = (builder.addNotes ctx spendableNotes).addChange ctx requests := by
  have inputs := funded.inputs
  have outputs := funded.outputs
  cases after
  simp only at inputs outputs
  subst inputs outputs
  rfl

theorem Funded.sums
    (funded : Funded ctx tables account builder max spendableNotes requests after) :
    after.incoming = builder.incoming +
        (totalValue spendableNotes + ECASH_INPUT_FEE * spendableNotes.length) ∧
      after.outgoing = builder.outgoing + ECASH_INPUT_FEE * spendableNotes.length +
        changeCost (requests.map NoteIssuanceRequest.denomination) := by
  rw [funded.after_eq, incoming_addChange, outgoing_addChange, outgoing_addNotes,
    incoming_addNotes _ _ funded.client]
  exact ⟨rfl, rfl⟩

/-- The excess of the drawn notes is what they deliver beyond the deficit. -/
theorem excess_addNotes (ctx : ClientContext) {notes : List SpendableNote}
    (client : ∀ note ∈ notes, note.denomination ∈ clientDenominations)
    (covered : builder.outgoing ≤ builder.incoming + totalValue notes)
    (incoming : builder.incoming + (totalValue notes + ECASH_INPUT_FEE * notes.length) <
      U64_BOUND) :
    (builder.addNotes ctx notes).deficit = 0 ∧
      (builder.addNotes ctx notes).excessInput =
        builder.incoming + totalValue notes - builder.outgoing := by
  have isIncoming := incoming_addNotes ctx builder client
  have isOutgoing := outgoing_addNotes ctx builder notes
  rw [TxBuilder.deficit_eq (by omega) (by omega), TxBuilder.excessInput_eq (by omega) (by omega),
    isIncoming, isOutgoing]
  omega

/-- The drawn notes deliver the deficit, and the change costs no more than what
is left. -/
theorem Funded.balance
    (funded : Funded ctx tables account builder max spendableNotes requests after)
    (outgoing : builder.outgoing < U64_BOUND) (incoming : after.incoming < U64_BOUND) :
    builder.outgoing ≤ builder.incoming + totalValue spendableNotes ∧
      after.outgoing ≤ after.incoming ∧
      requests.length =
        changeNumber max (builder.incoming + totalValue spendableNotes - builder.outgoing) := by
  obtain ⟨isIncoming, isOutgoing⟩ := funded.sums
  obtain ⟨selected, chosen, same⟩ := funded.selected
  have enough := (selectFundingInput_some chosen).2
  rw [← totalValue_perm same, TxBuilder.deficit_eq (by omega) outgoing] at enough
  have covered : builder.outgoing ≤ builder.incoming + totalValue spendableNotes := by omega
  have excess := (excess_addNotes ctx funded.client covered (by omega)).2
  have change := funded.change
  rw [funded.inputs] at change
  change (requests.map NoteIssuanceRequest.denomination).Perm (selectOutputDenominations _
    (builder.addNotes ctx spendableNotes).excessInput _) at change
  rw [excess] at change
  obtain ⟨number, _, cost⟩ := change_spec max
    (builder.incoming + totalValue spendableNotes - builder.outgoing)
  have sum := changeCost_perm change
  have count := change.length_eq
  rw [List.length_map] at count
  change changeCost _ ≤ _ at cost
  exact ⟨covered, by omega, count.trans number⟩

end Balanced

/-! ### Operations that go through -/

section Succeeds

variable {ctx : ClientContext} {tables : Tables} {account : Account} {builder : TxBuilder}
  {max : Bool} {selected : List SpendableNote}

theorem sort_perm (notes : List SpendableNote) : (sortByDenomination notes).Perm notes :=
  List.perm_insertionSort _ _

/-- Notes that cover the deficit fund the transaction if it has an output, its
own or change. -/
theorem fund_succeeds (ctx : ClientContext)
    (chosen : selectFundingInput (tables.accountNotes account) builder.deficit = some selected)
    (outgoing : builder.outgoing < U64_BOUND)
    (incoming : builder.incoming + (totalValue selected + ECASH_INPUT_FEE * selected.length) <
      U64_BOUND)
    (carried : builder.outputs ≠ [] ∨
      0 < changeNumber max (builder.incoming + totalValue selected - builder.outgoing)) :
    ∃ requests balanced after, fund ctx tables account builder max =
      .ok ((sortByDenomination selected, requests), balanced, after) := by
  have same := sort_perm selected
  obtain ⟨nodup, members⟩ :=
    selectFundingInput_members (Tables.accountNotes_nodup tables account) chosen
  have client : ∀ note ∈ sortByDenomination selected,
      note.denomination ∈ clientDenominations :=
    fun note member => (members note (same.mem_iff.mp member)).2
  have enough := (selectFundingInput_some chosen).2
  rw [TxBuilder.deficit_eq (by omega) outgoing, ← totalValue_perm same] at enough
  rw [← totalValue_perm same] at incoming carried
  rw [← same.length_eq] at incoming
  obtain ⟨covered, excess⟩ := excess_addNotes ctx client (by omega) incoming
  obtain ⟨removed, spent⟩ := Tables.removeNotes_succeeds tables account
    (same.nodup_iff.mpr nodup) (fun note member => (members note (same.mem_iff.mp member)).1)
  obtain ⟨number, _, cost⟩ := change_spec max
    (builder.addNotes ctx (sortByDenomination selected)).excessInput
  have sorted : (changeDenoms (builder.addNotes ctx (sortByDenomination selected)).excessInput
      max).Perm _ := List.perm_insertionSort _ _
  have issued := issueRequests_issued ctx account removed
    (changeDenoms (builder.addNotes ctx (sortByDenomination selected)).excessInput max)
  obtain ⟨requests, after, isIssued⟩ : ∃ requests after, issueRequests ctx account removed
      (changeDenoms (builder.addNotes ctx (sortByDenomination selected)).excessInput max) =
        (requests, after) := ⟨_, _, rfl⟩
  rw [isIssued] at issued
  have isCost : changeCost (requests.map NoteIssuanceRequest.denomination) ≤
      (builder.addNotes ctx (sortByDenomination selected)).excessInput := by
    rw [issued.denominations, changeCost_perm sorted]
    exact cost
  have isIncoming := incoming_addNotes ctx builder client
  have isOutgoing := outgoing_addNotes ctx builder (sortByDenomination selected)
  have afterIncoming :=
    incoming_addChange ctx (builder.addNotes ctx (sortByDenomination selected)) requests
  have afterOutgoing :=
    outgoing_addChange ctx (builder.addNotes ctx (sortByDenomination selected)) requests
  refine ⟨requests, _, after, fund_eq_ok.mpr ⟨selected, removed, chosen, rfl, covered, ?_, spent,
    isIssued, rfl, ?_⟩⟩
  · rcases carried with outputs | change
    · exact Or.inr outputs
    · left
      intro noChange
      rw [noChange] at sorted
      rw [← sorted.length_eq, excess] at number
      rw [← number] at change
      exact absurd change (by decide)
  · rw [TxBuilder.deficit_eq (by omega) (by omega)]
    omega

variable {operation : OperationId} {targets : List NoteIssuanceRequest}
  {event : TransactionId → Event} {ids : MachineIds}

theorem submit_succeeds {reissue : Nat} {id : SmId} (inputs : builder.inputs ≠ [])
    (outputs : builder.outputs ≠ [])
    (fresh : tables.txSubmissionStateMachine.contains id = false) :
    ∃ txid after, submit ctx tables account operation builder reissue event id =
      .ok (txid, after) ∧ after.ecashStateMachine = tables.ecashStateMachine := by
  obtain ⟨tx, built⟩ : ∃ tx, builder.build ctx = .ok tx := by
    unfold TxBuilder.build
    simp only [attempt_bind_eq_ok, insist_eq_ok, Bool.not_eq_true', List.isEmpty_eq_false_iff]
    exact ⟨_, (), inputs, (), outputs, rfl⟩
  have added : tables.addTxSubmissionStateMachine id { account, operation, tx } = .ok
      { tables with txSubmissionStateMachine :=
          tables.txSubmissionStateMachine.insert id { account, operation, tx } } := by
    unfold Tables.addTxSubmissionStateMachine
    rw [fresh]
    rfl
  unfold submit
  rw [built]
  change ∃ txid after, (tables.addTxSubmissionStateMachine id { account, operation, tx } >>= _) =
    _ ∧ _
  rw [added]
  exact ⟨_, _, rfl, rfl⟩

/-- A funded transaction with an input is submitted. -/
theorem finalizeAndSubmitTx_of_fund {spendableNotes : List SpendableNote}
    {requests : List NoteIssuanceRequest} {balanced : TxBuilder} {funds : Tables}
    (funded : fund ctx tables account builder max =
      .ok ((spendableNotes, requests), balanced, funds))
    (spends : builder.inputs ≠ [] ∨ spendableNotes ≠ [])
    (freshSubmission : tables.txSubmissionStateMachine.contains ids.submission = false)
    (freshMachine : tables.ecashStateMachine.contains ids.ecash = false) :
    ∃ txid after,
      finalizeAndSubmitTx ctx tables account operation builder targets max event ids =
        .ok (txid, after) := by
  obtain ⟨isFunded, removed, denoms, spent, issued⟩ := fund_ok funded
  have rows := (Tables.removeNotes_ok spent).2.2.only
  have frame := issued.only
  have inputs : balanced.inputs ≠ [] := by
    rw [isFunded.inputs, ne_eq, List.append_eq_nil_iff, List.map_eq_nil_iff, not_and_or]
    exact spends
  obtain ⟨txid, after, handed, machines⟩ : ∃ txid after,
      submit ctx funds account operation balanced
        (amountSum (spendableNotes.map SpendableNote.amount) - builder.deficit)
        event ids.submission = .ok (txid, after) ∧
        after.ecashStateMachine = funds.ecashStateMachine := by
    apply submit_succeeds inputs isFunded.carried
    rw [frame, rows]
    exact freshSubmission
  unfold finalizeAndSubmitTx
  simp only [attempt_bind_eq_ok]
  refine ⟨txid, ?_⟩
  by_cases nothing : spendableNotes.isEmpty && (targets ++ requests).isEmpty
  · refine ⟨after, _, funded, _, handed, ?_⟩
    simp only
    rw [if_pos nothing]
    rfl
  · have fresh : after.ecashStateMachine.contains ids.ecash = false := by
      rw [machines, frame, rows]
      exact freshMachine
    obtain ⟨final, added⟩ : ∃ final, after.addEcashStateMachine ids.ecash
        { account
          operation
          txid
          spendableNotes
          issuanceRequests := targets ++ requests
          targets := targets.length } = .ok final := by
      unfold Tables.addEcashStateMachine
      rw [fresh]
      exact ⟨_, rfl⟩
    refine ⟨final, _, funded, _, handed, ?_⟩
    simp only
    rw [if_neg nothing, added]
    rfl

theorem finalizeAndSubmitTx_succeeds
    (chosen : selectFundingInput (tables.accountNotes account) builder.deficit = some selected)
    (outgoing : builder.outgoing < U64_BOUND)
    (incoming : builder.incoming + (totalValue selected + ECASH_INPUT_FEE * selected.length) <
      U64_BOUND)
    (carried : builder.outputs ≠ [] ∨
      0 < changeNumber max (builder.incoming + totalValue selected - builder.outgoing))
    (spends : builder.inputs ≠ [] ∨ selected ≠ [])
    (freshSubmission : tables.txSubmissionStateMachine.contains ids.submission = false)
    (freshMachine : tables.ecashStateMachine.contains ids.ecash = false) :
    ∃ txid after,
      finalizeAndSubmitTx ctx tables account operation builder targets max event ids =
        .ok (txid, after) := by
  obtain ⟨requests, balanced, funds, funded⟩ :=
    fund_succeeds ctx chosen outgoing incoming carried
  refine finalizeAndSubmitTx_of_fund funded (spends.imp_right (fun some noNotes => some ?_))
    freshSubmission freshMachine
  have same := sort_perm selected
  rw [noNotes] at same
  exact same.symm.eq_nil

end Succeeds

end Picomint.Client
