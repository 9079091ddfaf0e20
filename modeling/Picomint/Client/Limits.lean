/-
The transactions a client builds against the limits of the mint.

The mint checks the counts and the funding of a transaction; the client bounds
neither count in its selection.  A transaction passes exactly if the numbers of
the account's notes keep it within the limits.
-/

import Picomint.Client.Balance
import Picomint.Client.Payments
import Picomint.Consensus.Solvency

namespace Picomint.Client

open Tss Consensus

/-! ### What the mint counts -/

def fundingCheck (view : MintView) (tx : Transaction) : Outcome TxError Unit := do
  let verifier ← tx.inputs.foldlM (fun (verifier : FundingVerifier) input =>
    verifier.addInput (view.input input) (inputFee input)) FundingVerifier.default
  let verifier ← tx.outputs.foldlM (fun (verifier : FundingVerifier) output =>
    verifier.addOutput (MintView.output output) (outputFee output)) verifier
  verifier.verifyFunding

structure PassesLimits (view : MintView) (tx : Transaction) : Prop where
  counts : checkCounts tx = .ok ()
  funding : fundingCheck view tx = .ok ()

/-- No amount wraps, so every entry declares what the mint finds. -/
structure TxBuilder.Exact (view : MintView) (builder : TxBuilder) : Prop where
  inputs : ∀ entry ∈ builder.inputs, view.input entry.input < U64_BOUND
  outputs : ∀ entry ∈ builder.outputs, MintView.output entry.output < U64_BOUND

section Checks

variable {view : MintView} {tx : Transaction}

theorem checkCounts_iff :
    checkCounts tx = .ok () ↔
      tx.inputs ≠ [] ∧ tx.outputs ≠ [] ∧ tx.inputs.length ≤ MAX_INPUTS ∧
        tx.outputs.length ≤ MAX_OUTPUTS ∧ tx.signatures.length = tx.inputs.length := by
  unfold checkCounts
  simp only [bind_eq_ok, ensure_eq_ok, Bool.not_eq_true', List.isEmpty_eq_false_iff,
    decide_eq_true_eq]
  constructor
  · rintro ⟨_, inputs, _, outputs, _, fewInputs, _, fewOutputs, signatures⟩
    exact ⟨inputs, outputs, fewInputs, fewOutputs, signatures⟩
  · rintro ⟨inputs, outputs, fewInputs, fewOutputs, signatures⟩
    exact ⟨(), inputs, (), outputs, (), fewInputs, (), fewOutputs, signatures⟩

theorem addInput_iff {verifier next : FundingVerifier} {amount fee : Nat} :
    verifier.addInput amount fee = .ok next ↔
      verifier.inputs + amount < U64_BOUND ∧ verifier.fees + fee < U64_BOUND ∧
        next = { verifier with
          inputs := verifier.inputs + amount
          fees := verifier.fees + fee } := by
  unfold FundingVerifier.addInput
  simp only [bind_eq_ok, okOr_eq_ok, checkedAdd_eq_some]
  constructor
  · rintro ⟨inputs, ⟨inputsSum, inputsBelow⟩, fees, ⟨feesSum, feesBelow⟩, result⟩
    cases result
    exact ⟨inputsSum ▸ inputsBelow, feesSum ▸ feesBelow, by rw [inputsSum, feesSum]⟩
  · rintro ⟨inputs, fees, rfl⟩
    exact ⟨_, ⟨rfl, inputs⟩, _, ⟨rfl, fees⟩, rfl⟩

theorem addOutput_iff {verifier next : FundingVerifier} {amount fee : Nat} :
    verifier.addOutput amount fee = .ok next ↔
      verifier.outputs + amount < U64_BOUND ∧ verifier.fees + fee < U64_BOUND ∧
        next = { verifier with
          outputs := verifier.outputs + amount
          fees := verifier.fees + fee } := by
  unfold FundingVerifier.addOutput
  simp only [bind_eq_ok, okOr_eq_ok, checkedAdd_eq_some]
  constructor
  · rintro ⟨outputs, ⟨outputsSum, outputsBelow⟩, fees, ⟨feesSum, feesBelow⟩, result⟩
    cases result
    exact ⟨outputsSum ▸ outputsBelow, feesSum ▸ feesBelow, by rw [outputsSum, feesSum]⟩
  · rintro ⟨outputs, fees, rfl⟩
    exact ⟨_, ⟨rfl, outputs⟩, _, ⟨rfl, fees⟩, rfl⟩

theorem addInputs_iff {inputs : List Input} {verifier finish : FundingVerifier}
    (below : verifier.inputs < U64_BOUND) (feesBelow : verifier.fees < U64_BOUND) :
    inputs.foldlM (fun (verifier : FundingVerifier) input =>
        verifier.addInput (view.input input) (inputFee input)) verifier = .ok finish ↔
      verifier.inputs + (inputs.map view.input).sum < U64_BOUND ∧
        verifier.fees + (inputs.map inputFee).sum < U64_BOUND ∧
        finish = { verifier with
          inputs := verifier.inputs + (inputs.map view.input).sum
          fees := verifier.fees + (inputs.map inputFee).sum } := by
  induction inputs generalizing verifier with
  | nil =>
      constructor
      · intro same
        cases same
        exact ⟨below, feesBelow, rfl⟩
      · rintro ⟨_, _, rfl⟩
        rfl
  | cons input rest inductionHypothesis =>
      rw [List.foldlM_cons, bind_eq_ok]
      simp only [addInput_iff, List.map_cons, List.sum_cons, ← Nat.add_assoc]
      constructor
      · rintro ⟨next, ⟨inputBelow, feeBelow, rfl⟩, following⟩
        exact (inductionHypothesis inputBelow feeBelow).mp following
      · rintro ⟨inputsBelow, allFees, same⟩
        refine ⟨_, ⟨by omega, by omega, rfl⟩, ?_⟩
        exact (inductionHypothesis (by simp only; omega) (by simp only; omega)).mpr
          ⟨inputsBelow, allFees, same⟩

theorem addOutputs_iff {outputs : List Output} {verifier finish : FundingVerifier}
    (below : verifier.outputs < U64_BOUND) (feesBelow : verifier.fees < U64_BOUND) :
    outputs.foldlM (fun (verifier : FundingVerifier) output =>
        verifier.addOutput (MintView.output output) (outputFee output)) verifier = .ok finish ↔
      verifier.outputs + (outputs.map MintView.output).sum < U64_BOUND ∧
        verifier.fees + (outputs.map outputFee).sum < U64_BOUND ∧
        finish = { verifier with
          outputs := verifier.outputs + (outputs.map MintView.output).sum
          fees := verifier.fees + (outputs.map outputFee).sum } := by
  induction outputs generalizing verifier with
  | nil =>
      constructor
      · intro same
        cases same
        exact ⟨below, feesBelow, rfl⟩
      · rintro ⟨_, _, rfl⟩
        rfl
  | cons output rest inductionHypothesis =>
      rw [List.foldlM_cons, bind_eq_ok]
      simp only [addOutput_iff, List.map_cons, List.sum_cons, ← Nat.add_assoc]
      constructor
      · rintro ⟨next, ⟨outputBelow, feeBelow, rfl⟩, following⟩
        exact (inductionHypothesis outputBelow feeBelow).mp following
      · rintro ⟨outputsBelow, allFees, same⟩
        refine ⟨_, ⟨by omega, by omega, rfl⟩, ?_⟩
        exact (inductionHypothesis (by simp only; omega) (by simp only; omega)).mpr
          ⟨outputsBelow, allFees, same⟩

theorem fundingCheck_iff :
    fundingCheck view tx = .ok () ↔
      (tx.inputs.map view.input).sum < U64_BOUND ∧
        (tx.outputs.map MintView.output).sum +
            ((tx.inputs.map inputFee).sum + (tx.outputs.map outputFee).sum) ≤
          (tx.inputs.map view.input).sum := by
  have start : FundingVerifier.default.inputs < U64_BOUND ∧
      FundingVerifier.default.fees < U64_BOUND := by
    decide
  unfold fundingCheck
  simp only [bind_eq_ok]
  constructor
  · rintro ⟨spent, inputs, issued, outputs, verified⟩
    obtain ⟨inputsBelow, feesBelow, isSpent⟩ := (addInputs_iff start.1 start.2).mp inputs
    have noOutputs : spent.outputs < U64_BOUND := by
      rw [isSpent]
      exact Nat.two_pow_pos 64
    have spentFees : spent.fees < U64_BOUND := by
      rw [isSpent]
      exact feesBelow
    obtain ⟨_, _, isIssued⟩ := (addOutputs_iff noOutputs spentFees).mp outputs
    unfold FundingVerifier.verifyFunding at verified
    simp only [bind_eq_ok, okOr_eq_ok, checkedAdd_eq_some, ensure_eq_ok,
      decide_eq_true_eq] at verified
    obtain ⟨total, ⟨totalSum, _⟩, covered⟩ := verified
    rw [isIssued, isSpent] at totalSum covered
    simp only [FundingVerifier.default, Nat.zero_add] at inputsBelow totalSum covered
    exact ⟨inputsBelow, by omega⟩
  · rintro ⟨inputsBelow, funded⟩
    refine ⟨_, (addInputs_iff start.1 start.2).mpr ⟨?_, ?_, rfl⟩, _,
      (addOutputs_iff ?_ ?_).mpr ⟨?_, ?_, rfl⟩, ?_⟩
    · simp only [FundingVerifier.default, Nat.zero_add]
      exact inputsBelow
    · simp only [FundingVerifier.default, Nat.zero_add]
      omega
    · exact Nat.two_pow_pos 64
    · simp only [FundingVerifier.default, Nat.zero_add]
      omega
    · simp only [FundingVerifier.default, Nat.zero_add]
      omega
    · simp only [FundingVerifier.default, Nat.zero_add]
      omega
    · unfold FundingVerifier.verifyFunding
      simp only [bind_eq_ok, okOr_eq_ok, checkedAdd_eq_some, ensure_eq_ok, decide_eq_true_eq,
        FundingVerifier.default, Nat.zero_add]
      exact ⟨_, ⟨rfl, by omega⟩, by omega⟩

end Checks

/-! ### The limits in the processing of a transaction -/

/-- The errors of the structural checks and the funding check. -/
def isLimit : TxError → Bool
  | .emptyInputs | .emptyOutputs | .tooManyInputs | .tooManyOutputs | .underfunded | .overflow
  | .invalidWitnessLength => true
  | .invalidSignature | .input _ | .output _ => false

structure MintView.Agrees {curve : Curve} (view : MintView) (ledger : Ledger curve) : Prop where
  output : ∀ index tracked, ledger.output.get? index = some tracked →
    tracked.out.value = view.outputValue index
  outgoing : ∀ outpoint contract, ledger.outgoingContract.get? outpoint = some contract →
    contract = view.outgoingContract outpoint
  incoming : ∀ outpoint contract, ledger.incomingContract.get? outpoint = some contract →
    contract = view.incomingContract outpoint

section Processing

variable {curve : Curve} {server : Server curve} {mint : MintConfig curve}
  {start ledger after : Ledger curve} {view : MintView} {tx : Transaction}

theorem MintView.Agrees.narrowed (agrees : view.Agrees start) (narrowed : Narrowed start ledger) :
    view.Agrees ledger where
  output := fun index tracked found => agrees.output index tracked (narrowed.output ▸ found)
  outgoing := fun outpoint contract found =>
    agrees.outgoing outpoint contract (narrowed.outgoing outpoint contract found)
  incoming := fun outpoint contract found =>
    agrees.incoming outpoint contract (narrowed.incoming outpoint contract found)

theorem processInput_view {input : Input} {result : Nat × XOnlyPublicKey}
    (agrees : view.Agrees ledger)
    (processed : processInput mint ledger input = .ok (result, after)) :
    result.1 = view.input input ∧ view.Agrees after := by
  refine ⟨?_, agrees.narrowed (processInput_narrowed processed
    ⟨fun _ _ found => found, fun _ _ found => found, rfl⟩)⟩
  obtain ⟨amount, pk⟩ := result
  cases input with
  | ecash input => exact (Ecash.processInput_ok (mapError_eq_ok.mp processed)).2.2.1
  | onchain input =>
      obtain ⟨tracked, outputValue, checked, isAmount, _⟩ :=
        Onchain.processInput_ok (mapError_eq_ok.mp processed)
      have value := checked.value
      rw [agrees.output _ _ checked.known] at value
      change amount = fromSat (view.outputValue input.outputIndex - input.fee)
      rw [value, Nat.add_sub_cancel]
      exact isAmount
  | lightning input =>
      cases input with
      | outgoing outpoint witness =>
          obtain ⟨contract, _, found, _, isAmount, _⟩ :=
            Lightning.processInput_outgoing_ok (mapError_eq_ok.mp processed)
          rw [agrees.outgoing _ _ found] at isAmount
          exact isAmount
      | incoming outpoint =>
          obtain ⟨contract, _, found, _, isAmount, _⟩ :=
            Lightning.processInput_incoming_ok (mapError_eq_ok.mp processed)
          rw [agrees.incoming _ _ found] at isAmount
          exact (Nat.sub_eq_of_eq_add isAmount).symm

theorem processOutput_view {output : Output} {outpoint : OutPoint} {amount : Nat}
    (processed : processOutput server ledger outpoint output = .ok (amount, after)) :
    amount = MintView.output output := by
  cases output with
  | ecash output => exact (Ecash.processOutput_ok (mapError_eq_ok.mp processed)).2.2
  | onchain output =>
      obtain ⟨_, _, _, _, _, isAmount, _⟩ := Onchain.processOutput_ok (mapError_eq_ok.mp processed)
      exact isAmount
  | lightning output =>
      cases output with
      | outgoing contract =>
          exact (Lightning.processOutput_outgoing_ok (mapError_eq_ok.mp processed)).1
      | incoming contract =>
          have isAmount := (Lightning.processOutput_incoming_ok (mapError_eq_ok.mp processed)).1
          exact (Nat.sub_eq_of_eq_add isAmount).symm

theorem inputsProcessed_view {inputs : List Input} {results : List (Nat × XOnlyPublicKey)}
    (processed : InputsProcessed mint ledger inputs results after) (agrees : view.Agrees ledger) :
    results.map Prod.fst = inputs.map view.input := by
  induction processed with
  | nil => rfl
  | cons first _ inductionHypothesis =>
      obtain ⟨worth, still⟩ := processInput_view agrees first
      rw [List.map_cons, List.map_cons, worth, inductionHypothesis still]

theorem outputsProcessed_view {txid : TransactionId} {entries : List (Output × Nat)}
    {amounts : List Nat}
    (processed : OutputsProcessed server txid ledger entries amounts after) :
    amounts = entries.map (fun entry => MintView.output entry.1) := by
  induction processed with
  | nil => rfl
  | cons first _ inductionHypothesis =>
      rw [List.map_cons, processOutput_view first, inductionHypothesis]

theorem processTx_passes (agrees : view.Agrees ledger)
    (processed : processTx server ledger tx = .ok after) : PassesLimits view tx := by
  obtain ⟨results, middle, amounts, accepted⟩ := processTx_ok processed
  have inputs := inputsProcessed_view accepted.inputs agrees
  have outputs := outputsProcessed_view accepted.outputs
  change amounts = tx.outputs.zipIdx.map (MintView.output ∘ Prod.fst) at outputs
  rw [← List.map_map, List.zipIdx_map_fst] at outputs
  refine ⟨accepted.counts, fundingCheck_iff.mpr ⟨?_, ?_⟩⟩
  · rw [← inputs]
    exact accepted.below
  · rw [← inputs, ← outputs]
    exact accepted.funded

def Spares {α : Type} (outcome : Outcome TxError α) : Prop :=
  ∀ error, outcome = .error (.error error) → isLimit error = false

theorem ok_spares {α : Type} {outcome : Outcome TxError α} {value : α}
    (succeeds : outcome = .ok value) : Spares outcome := by
  intro error failed
  cases succeeds.symm.trans failed

theorem bind_spares {α β : Type} {outcome : Outcome TxError α} {next : α → Outcome TxError β}
    (first : Spares outcome) (rest : ∀ value, outcome = .ok value → Spares (next value)) :
    Spares (outcome >>= next) := by
  cases outcome with
  | error fault =>
      intro error failed
      cases failed
      exact first error rfl
  | ok value => exact rest value rfl

theorem ensure_spares (condition : Bool) {error : TxError} (spared : isLimit error = false) :
    Spares (ensure condition error) := by
  intro other failed
  cases condition with
  | false =>
      cases failed
      exact spared
  | true => cases failed

theorem mapError_spares {ε α : Type} {wrap : ε → TxError} {outcome : Outcome ε α}
    (spared : ∀ error, isLimit (wrap error) = false) : Spares (mapError wrap outcome) := by
  intro error failed
  cases outcome with
  | ok value => cases failed
  | error fault =>
      cases fault with
      | error inner =>
          cases failed
          exact spared inner
      | panic panic => cases failed

theorem inputs_spare {inputs : List Input} {start : Progress curve}
    (agrees : view.Agrees start.ledger)
    (below : start.verifier.inputs + (inputs.map view.input).sum < U64_BOUND)
    (feesBelow : start.verifier.fees + (inputs.map inputFee).sum < U64_BOUND) :
    Spares (inputs.foldlM (inputStep mint) start) := by
  induction inputs generalizing start with
  | nil => exact ok_spares rfl
  | cons input rest inductionHypothesis =>
      rw [List.map_cons, List.sum_cons] at below feesBelow
      rw [List.foldlM_cons]
      unfold inputStep
      rw [bind_assoc]
      apply bind_spares (mapError_spares (fun _ => rfl))
      rintro ⟨⟨amount, key⟩, ledger⟩ processed
      obtain ⟨worth, still⟩ := processInput_view agrees (mapError_eq_ok.mp processed)
      simp only at worth
      have added := addInput_iff.mpr ⟨(by omega : start.verifier.inputs + amount < U64_BOUND),
        (by omega : start.verifier.fees + inputFee input < U64_BOUND), rfl⟩
      simp only [bind_assoc]
      apply bind_spares (ok_spares added)
      intro verifier isVerifier
      cases added.symm.trans isVerifier
      apply inductionHypothesis
      · exact still
      · simp only
        omega
      · simp only
        omega

theorem outputs_spare {txid : TransactionId} {entries : List (Output × Nat)}
    {start : Progress curve}
    (below : start.verifier.outputs +
      (entries.map (fun entry => MintView.output entry.1)).sum < U64_BOUND)
    (feesBelow : start.verifier.fees +
      (entries.map (fun entry => outputFee entry.1)).sum < U64_BOUND) :
    Spares (entries.foldlM (outputStep server txid) start) := by
  induction entries generalizing start with
  | nil => exact ok_spares rfl
  | cons entry rest inductionHypothesis =>
      rw [List.map_cons, List.sum_cons] at below feesBelow
      rw [List.foldlM_cons]
      unfold outputStep
      rw [bind_assoc]
      apply bind_spares (mapError_spares (fun _ => rfl))
      rintro ⟨amount, ledger⟩ processed
      have worth := processOutput_view (mapError_eq_ok.mp processed)
      have added := addOutput_iff.mpr ⟨(by omega : start.verifier.outputs + amount < U64_BOUND),
        (by omega : start.verifier.fees + outputFee entry.1 < U64_BOUND), rfl⟩
      simp only [bind_assoc]
      apply bind_spares (ok_spares added)
      intro verifier isVerifier
      cases added.symm.trans isVerifier
      apply inductionHypothesis
      · simp only
        omega
      · simp only
        omega

theorem signatures_spare {publicKeys : List XOnlyPublicKey}
    (length : publicKeys.length = tx.signatures.length) :
    Spares (validateSignatures mint tx publicKeys) := by
  unfold validateSignatures
  rw [length, decide_eq_true rfl]
  apply bind_spares
  · exact ok_spares rfl
  · intro _ _
    generalize publicKeys.zip tx.signatures = entries
    induction entries with
    | nil => exact ok_spares rfl
    | cons entry rest inductionHypothesis =>
        change Spares (_ >>= fun _ => rest.forM _)
        apply bind_spares
        · exact ensure_spares _ rfl
        · exact fun _ _ => inductionHypothesis

theorem processTx_spares (agrees : view.Agrees ledger) (passes : PassesLimits view tx) :
    Spares (processTx server ledger tx) := by
  obtain ⟨below, covered⟩ := fundingCheck_iff.mp passes.funding
  obtain ⟨_, _, _, _, sameLength⟩ := checkCounts_iff.mp passes.counts
  unfold processTx
  apply bind_spares (ok_spares passes.counts)
  intro _ _
  apply bind_spares
  · apply inputs_spare agrees
    · simp only [FundingVerifier.default, Nat.zero_add]
      exact below
    · simp only [FundingVerifier.default, Nat.zero_add]
      omega
  intro spent folded
  obtain ⟨results, processed, inputSum, inputFees, noOutputs, keys, _⟩ := inputs_foldlM_ok folded
  rw [inputsProcessed_view processed agrees] at inputSum
  simp only [FundingVerifier.default, Nat.zero_add, List.nil_append]
    at inputSum inputFees noOutputs keys
  apply bind_spares
  · apply signatures_spare
    rw [keys, List.length_map, processed.length, sameLength]
  intro _ _
  have outputSum : (tx.outputs.zipIdx.map (fun entry => MintView.output entry.1)).sum =
      (tx.outputs.map MintView.output).sum := by
    change (tx.outputs.zipIdx.map (MintView.output ∘ Prod.fst)).sum = _
    rw [← List.map_map, List.zipIdx_map_fst]
  have feeSum : (tx.outputs.zipIdx.map (fun entry => outputFee entry.1)).sum =
      (tx.outputs.map outputFee).sum := by
    change (tx.outputs.zipIdx.map (outputFee ∘ Prod.fst)).sum = _
    rw [← List.map_map, List.zipIdx_map_fst]
  apply bind_spares
  · apply outputs_spare
    · rw [outputSum, noOutputs]
      omega
    · rw [feeSum, inputFees]
      omega
  intro issued folded
  obtain ⟨amounts, outputsProcessed, issuedSum, issuedFees, inputKept⟩ := outputs_foldlM_ok folded
  rw [outputsProcessed_view outputsProcessed, outputSum, noOutputs] at issuedSum
  rw [feeSum, inputFees] at issuedFees
  have funded : issued.verifier.verifyFunding = .ok () := by
    unfold FundingVerifier.verifyFunding
    simp only [bind_eq_ok, okOr_eq_ok, checkedAdd_eq_some, ensure_eq_ok, decide_eq_true_eq]
    exact ⟨_, ⟨rfl, by omega⟩, by omega⟩
  exact bind_spares (ok_spares funded) (fun _ _ => ok_spares rfl)

end Processing

/-! ### The numbers of a balanced transaction -/

/-- The number of inputs the account adds and of change outputs, from the
numbers of its notes, keep the transaction within the limits. -/
def WithinLimits (notes : List SpendableNote) (builder : TxBuilder) (max : Bool) : Prop :=
  builder.outgoing < U64_BOUND ∧
    ∃ draw, drawn notes (builder.outgoing - builder.incoming) = some draw ∧
      draw.peak < U64_BOUND ∧
      builder.incoming + (draw.value + ECASH_INPUT_FEE * draw.number) < U64_BOUND ∧
      builder.inputs.length + draw.number ≤ MAX_INPUTS ∧
      builder.outputs.length +
        changeNumber max (builder.incoming + draw.value - builder.outgoing) ≤ MAX_OUTPUTS

section Balanced

variable {ctx : ClientContext} {tables : Tables} {account : Account} {builder after : TxBuilder}
  {max : Bool} {spendableNotes : List SpendableNote} {requests : List NoteIssuanceRequest}

theorem Funded.declares {view : MintView} (declared : builder.Declares view)
    (funded : Funded ctx tables account builder max spendableNotes requests after) :
    after.Declares view := by
  constructor
  · intro entry member
    rw [funded.inputs] at member
    rcases List.mem_append.mp member with callers | drawn
    · exact declared.inputs entry callers
    · obtain ⟨note, _, same⟩ := List.mem_map.mp drawn
      rw [← same]
      exact noteInput_declares note
  · intro entry member
    rw [funded.outputs] at member
    rcases List.mem_append.mp member with callers | change
    · exact declared.outputs entry callers
    · obtain ⟨request, _, same⟩ := List.mem_map.mp change
      rw [← same]
      exact requestOutput_declares request

theorem Funded.exact_iff {view : MintView}
    (funded : Funded ctx tables account builder max spendableNotes requests after) :
    after.Exact view ↔ builder.Exact view := by
  constructor
  · intro exact_
    constructor
    · intro entry member
      apply exact_.inputs
      rw [funded.inputs]
      exact List.mem_append_left _ member
    · intro entry member
      apply exact_.outputs
      rw [funded.outputs]
      exact List.mem_append_left _ member
  · intro exact_
    constructor
    · intro entry member
      rw [funded.inputs] at member
      rcases List.mem_append.mp member with callers | drawn
      · exact exact_.inputs entry callers
      · obtain ⟨note, _, same⟩ := List.mem_map.mp drawn
        rw [← same]
        exact amount_below note.denomination
    · intro entry member
      rw [funded.outputs] at member
      rcases List.mem_append.mp member with callers | change
      · exact exact_.outputs entry callers
      · obtain ⟨request, _, same⟩ := List.mem_map.mp change
        rw [← same]
        exact amount_below request.denomination

theorem exact_of_funding {view : MintView} {tx : Transaction}
    (passes : fundingCheck view tx = .ok ()) (built : after.build ctx = .ok tx) :
    after.Exact view := by
  obtain ⟨_, _, inputs, outputs, _⟩ := TxBuilder.build_ok built
  obtain ⟨below, covered⟩ := fundingCheck_iff.mp passes
  constructor
  · intro entry member
    have single := List.single_le_sum (l := tx.inputs.map view.input)
      (fun _ _ => Nat.zero_le _) (view.input entry.input) (by
        rw [inputs, List.map_map]
        exact List.mem_map.mpr ⟨entry, member, rfl⟩)
    omega
  · intro entry member
    have single := List.single_le_sum (l := tx.outputs.map MintView.output)
      (fun _ _ => Nat.zero_le _) (MintView.output entry.output) (by
        rw [outputs, List.map_map]
        exact List.mem_map.mpr ⟨entry, member, rfl⟩)
    omega

theorem build_passes_iff {view : MintView} (declared : after.Declares view) {tx : Transaction}
    (built : after.build ctx = .ok tx) :
    PassesLimits view tx ↔
      after.Exact view ∧ after.inputs.length ≤ MAX_INPUTS ∧ after.outputs.length ≤ MAX_OUTPUTS ∧
        after.incoming < U64_BOUND ∧ after.outgoing ≤ after.incoming := by
  obtain ⟨someInputs, someOutputs, inputs, outputs, signatures⟩ := TxBuilder.build_ok built
  have counts : checkCounts tx = .ok () ↔
      after.inputs.length ≤ MAX_INPUTS ∧ after.outputs.length ≤ MAX_OUTPUTS := by
    rw [checkCounts_iff, signatures, inputs, outputs, List.length_map, List.length_map, ne_eq,
      ne_eq, List.map_eq_nil_iff, List.map_eq_nil_iff]
    exact ⟨fun all => ⟨all.2.2.1, all.2.2.2.1⟩,
      fun both => ⟨someInputs, someOutputs, both.1, both.2, rfl⟩⟩
  have funding : after.Exact view → (fundingCheck view tx = .ok () ↔
      after.incoming < U64_BOUND ∧ after.outgoing ≤ after.incoming) := by
    intro exact_
    have inputAmounts : tx.inputs.map view.input = after.inputs.map TxInput.amount := by
      rw [inputs, List.map_map]
      apply List.map_congr_left
      intro entry member
      rw [(declared.inputs entry member).1, Nat.mod_eq_of_lt (exact_.inputs entry member)]
      rfl
    have inputFees : tx.inputs.map inputFee = after.inputs.map TxInput.fee := by
      rw [inputs, List.map_map]
      apply List.map_congr_left
      exact fun entry member => ((declared.inputs entry member).2).symm
    have outputAmounts : tx.outputs.map MintView.output = after.outputs.map TxOutput.amount := by
      rw [outputs, List.map_map]
      apply List.map_congr_left
      intro entry member
      rw [(declared.outputs entry member).1, Nat.mod_eq_of_lt (exact_.outputs entry member)]
      rfl
    have outputFees : tx.outputs.map outputFee = after.outputs.map TxOutput.fee := by
      rw [outputs, List.map_map]
      apply List.map_congr_left
      exact fun entry member => ((declared.outputs entry member).2).symm
    rw [fundingCheck_iff, inputAmounts, inputFees, outputAmounts, outputFees]
    rfl
  constructor
  · intro passes
    have exact_ := exact_of_funding passes.funding built
    obtain ⟨fewInputs, fewOutputs⟩ := counts.mp passes.counts
    obtain ⟨below, funded⟩ := (funding exact_).mp passes.funding
    exact ⟨exact_, fewInputs, fewOutputs, below, funded⟩
  · rintro ⟨exact_, fewInputs, fewOutputs, below, funded⟩
    exact ⟨counts.mpr ⟨fewInputs, fewOutputs⟩, (funding exact_).mpr ⟨below, funded⟩⟩

end Balanced

/-! ### Submitted transactions -/

section Submitted

variable {ctx : ClientContext} {tables after : Tables} {account : Account}
  {operation : OperationId} {builder : TxBuilder} {targets : List NoteIssuanceRequest} {max : Bool}
  {event : TransactionId → Event} {ids : MachineIds} {txid : TransactionId}

/-- A transaction submitted for one of the client's builders passes the limits
of the mint exactly if no amount of the builder wraps and the numbers of the
account's notes keep it within them. -/
theorem submitted_tx_passes_iff {view : MintView} (sent : ClientBuilder ctx view builder)
    (submitted : finalizeAndSubmitTx ctx tables account operation builder targets max event ids =
      .ok (txid, after)) :
    ∃ tx, after.txSubmissionStateMachine.get? ids.submission = some { account, operation, tx } ∧
      txid = ctx.txHash tx.inputs tx.outputs ∧
      (PassesLimits view tx ↔
        builder.Exact view ∧ WithinLimits (tables.accountNotes account) builder max) := by
  obtain ⟨notes, requests, balanced, tx, done⟩ := finalizeAndSubmitTx_ok submitted
  have funded := done.funded
  have built := done.built
  refine ⟨tx, ?_, done.hash, ?_⟩
  · rw [done.submission.2]
    exact (SortedMap.get?_insert _ _ _ _).trans (if_pos rfl)
  rw [build_passes_iff (funded.declares sent.declares) built, funded.exact_iff]
  apply and_congr_right
  intro _
  obtain ⟨isIncoming, isOutgoing⟩ := funded.sums
  have inputs : balanced.inputs.length = builder.inputs.length + notes.length := by
    rw [funded.inputs, List.length_append, List.length_map]
  have outputs : balanced.outputs.length = builder.outputs.length + requests.length := by
    rw [funded.outputs, List.length_append, List.length_map]
  obtain ⟨selected, chosen, same⟩ := funded.selected
  have value := totalValue_perm same
  have number := same.length_eq
  constructor
  · rintro ⟨fewInputs, fewOutputs, below, covered⟩
    have outgoing : builder.outgoing < U64_BOUND := by omega
    obtain ⟨_, _, change⟩ := funded.balance outgoing below
    rw [TxBuilder.deficit_eq (by omega) outgoing] at chosen
    obtain ⟨draw, predicted, peak, isNumber, isValue⟩ := selectFundingInput_drawn (by omega) chosen
      (show totalValue selected < U64_BOUND by omega)
    change draw.value = totalValue selected at isValue
    refine ⟨outgoing, draw, predicted, peak, ?_, by omega, ?_⟩
    · rw [isValue, isNumber, ← value, ← number]
      omega
    · rw [isValue, ← value, ← change]
      omega
  · rintro ⟨outgoing, draw, predicted, peak, below, fewInputs, fewOutputs⟩
    rw [TxBuilder.deficit_eq (by omega) outgoing] at chosen
    obtain ⟨isNumber, isValue⟩ := drawn_selectFundingInput chosen predicted peak (by omega)
    change draw.value = totalValue selected at isValue
    rw [isNumber, isValue, ← value, ← number] at below
    obtain ⟨_, covered, change⟩ := funded.balance outgoing (by omega)
    rw [isValue, ← value, ← change] at fewOutputs
    exact ⟨by omega, by omega, by omega, covered⟩

end Submitted

/-! A bundle received into an empty account, and one of 1024 notes received into
an account with a seventh note of a denomination. -/

def sampleView : MintView :=
  { outputValue := fun _ => 0
    outgoingContract := fun _ =>
      { paymentHash := 0
        amount := 0
        fee := 0
        claimPk := 0
        refundPk := 0
        invoice := 0 }
    incomingContract := fun _ =>
      { amount := 0
        fee := 0
        claimPk := 0
        ephemeralPk := 0 } }

def sampleBundle (number : Nat) : List SpendableNote :=
  (List.range number).map (fun index => sampleNote (index + 7))

/-- An account with one note more than it keeps of a denomination. -/
def sampleSeven : Tables :=
  { Tables.empty with
    note := SortedMap.ofList ((List.range 7).map (fun index =>
      (({ account := .primary, note := sampleNote index } : NoteKey), ⟨⟩))) }

theorem sampleBundle_denomination {number : Nat} :
    ∀ note ∈ sampleBundle number, note.denomination = 9 := by
  intro note member
  obtain ⟨index, _, same⟩ := List.mem_map.mp member
  rw [← same]
  rfl

theorem sampleBundle_sums (number : Nat) :
    (ecashReceiveBuilder sampleContext (sampleBundle number)).incoming = 512 * number ∧
      (ecashReceiveBuilder sampleContext (sampleBundle number)).outgoing = 100 * number := by
  have length : (sampleBundle number).length = number := by
    unfold sampleBundle
    rw [List.length_map, List.length_range]
  have value : totalValue (sampleBundle number) = 412 * number := by
    unfold totalValue
    rw [noteValues_same _ 9 sampleBundle_denomination, List.sum_replicate, length, smul_eq_mul,
      Nat.mul_comm]
    rfl
  have builder : ecashReceiveBuilder sampleContext (sampleBundle number) =
      TxBuilder.new.addNotes sampleContext (sampleBundle number) :=
    TxBuilder.addInputs_eq _ _
  have client : ∀ note ∈ sampleBundle number, note.denomination ∈ clientDenominations := by
    intro note member
    rw [sampleBundle_denomination note member]
    decide
  rw [builder, incoming_addNotes _ _ client, outgoing_addNotes, value, length]
  constructor
  · change 0 + (412 * number + 100 * number) = _
    omega
  · exact Nat.zero_add _

theorem submitted_tx_passes_sample :
    ∃ txid after, finalizeAndSubmitTx sampleContext Tables.empty .primary 0
        (ecashReceiveBuilder sampleContext (sampleBundle 2)) [] false Event.reissuance sampleIds =
          .ok (txid, after) ∧
      ∃ tx, after.txSubmissionStateMachine.get? 0 =
          some { account := .primary, operation := 0, tx } ∧
        txid = sampleContext.txHash tx.inputs tx.outputs ∧
        (PassesLimits sampleView tx ↔
          (ecashReceiveBuilder sampleContext (sampleBundle 2)).Exact sampleView ∧
            WithinLimits (Tables.empty.accountNotes .primary)
              (ecashReceiveBuilder sampleContext (sampleBundle 2)) false) := by
  have chosen : selectFundingInput (Tables.empty.accountNotes .primary)
      (ecashReceiveBuilder sampleContext (sampleBundle 2)).deficit = some [] := by
    decide +kernel
  obtain ⟨txid, after, submitted⟩ : ∃ txid after, finalizeAndSubmitTx sampleContext Tables.empty
      .primary 0 (ecashReceiveBuilder sampleContext (sampleBundle 2)) [] false Event.reissuance
        sampleIds = .ok (txid, after) :=
    finalizeAndSubmitTx_succeeds chosen (by decide) (by decide) (Or.inr (by decide +kernel))
      (Or.inl (by decide)) rfl rfl
  exact ⟨txid, after, submitted, submitted_tx_passes_iff (.ecashReceive _) submitted⟩

/-- The seventh note joins any 1024 inputs that bring more than they cost. -/
theorem sampleSeven_submits (builder : TxBuilder) (event : TransactionId → Event)
    (inputs : builder.inputs.length = 1024) (incoming : builder.incoming = 512 * 1024)
    (outgoing : builder.outgoing = 100 * 1024) :
    ∃ txid after, finalizeAndSubmitTx sampleContext (sampleSeven.markReceived 0) .primary 0
        builder [] false event sampleIds = .ok (txid, after) ∧
      ∃ tx, after.txSubmissionStateMachine.get? 0 =
          some { account := .primary, operation := 0, tx } ∧
        checkCounts tx = bail .tooManyInputs := by
  have notes : (sampleSeven.markReceived 0).accountNotes .primary =
      (List.range 7).map sampleNote := by
    decide +kernel
  have deficit : builder.deficit = 0 := by
    rw [TxBuilder.deficit_eq, incoming, outgoing]
    · rw [incoming]
      decide
    · rw [outgoing]
      decide
  have chosen : selectFundingInput ((sampleSeven.markReceived 0).accountNotes .primary)
      builder.deficit = some [sampleNote 6] := by
    rw [deficit, notes]
    decide +kernel
  obtain ⟨txid, after, submitted⟩ : ∃ txid after, finalizeAndSubmitTx sampleContext
      (sampleSeven.markReceived 0) .primary 0 builder [] false event sampleIds =
        .ok (txid, after) := by
    apply finalizeAndSubmitTx_succeeds chosen
    · rw [outgoing]
      decide
    · rw [incoming]
      decide
    · rw [incoming, outgoing]
      exact Or.inr (by decide +kernel)
    · left
      rw [← List.length_pos_iff, inputs]
      decide
    · rfl
    · rfl
  obtain ⟨spendableNotes, requests, balanced, tx, done⟩ := finalizeAndSubmitTx_ok submitted
  refine ⟨txid, after, submitted, tx, ?_, ?_⟩
  · rw [done.submission.2]
    exact (SortedMap.get?_insert _ _ _ _).trans (if_pos rfl)
  · obtain ⟨selected, isSelected, same⟩ := done.funded.selected
    rw [chosen, Option.some.injEq] at isSelected
    obtain ⟨someInputs, someOutputs, isInputs, isOutputs, _⟩ := TxBuilder.build_ok done.built
    have number : tx.inputs.length = 1025 := by
      rw [isInputs, List.length_map, done.funded.inputs, List.length_append, List.length_map,
        inputs, same.length_eq, ← isSelected]
      rfl
    have outputs : tx.outputs.isEmpty = false := by
      rw [isOutputs, List.isEmpty_map, List.isEmpty_eq_false_iff]
      exact someOutputs
    have full : tx.inputs.isEmpty = false := by
      rw [isInputs, List.isEmpty_map, List.isEmpty_eq_false_iff]
      exact someInputs
    unfold checkCounts
    rw [full, outputs, number]
    rfl

theorem submitted_tx_fails :
    ∃ txid after, ecashReceive sampleContext sampleSeven .primary 0 (sampleBundle 1024) sampleIds =
        .ok (txid, after) ∧
      ∃ tx, after.txSubmissionStateMachine.get? 0 =
          some { account := .primary, operation := 0, tx } ∧
        ¬PassesLimits sampleView tx := by
  have length : (sampleBundle 1024).length = 1024 := by
    unfold sampleBundle
    rw [List.length_map, List.length_range]
  have inputs : (ecashReceiveBuilder sampleContext (sampleBundle 1024)).inputs.length = 1024 := by
    unfold ecashReceiveBuilder
    rw [TxBuilder.addInputs_eq]
    change ([] ++ (sampleBundle 1024).map (noteInput sampleContext)).length = 1024
    rw [List.nil_append, List.length_map, length]
  have bundle : ReceivableBundle (sampleBundle 1024) := by
    refine ⟨?_, length.le, ?_⟩
    · rw [← List.length_pos_iff, length]
      decide
    · intro note member
      unfold SpendableNote.amount
      rw [sampleBundle_denomination note member]
      decide
  obtain ⟨incoming, outgoing⟩ := sampleBundle_sums 1024
  obtain ⟨txid, after, submitted, tx, machine, fails⟩ := sampleSeven_submits
    (ecashReceiveBuilder sampleContext (sampleBundle 1024))
    (fun txid => .receive txid (amountSum ((sampleBundle 1024).map SpendableNote.amount)))
    inputs incoming outgoing
  refine ⟨txid, after, ecashReceive_eq_ok.mpr ⟨bundle, rfl, submitted⟩, tx, machine, ?_⟩
  intro passes
  cases fails.symm.trans passes.counts

end Picomint.Client
