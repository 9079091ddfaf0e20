/-
What an accepted transaction did, and the histories of processed items.

The loops over inputs and outputs are read as derivations, one rule for each
processed element; every invariant of transactions is an induction on them.
-/

import Picomint.Consensus.Items

namespace Picomint.Consensus

open Tss

variable {curve : Curve}

/-! ### Derivations of the loops -/

inductive InputsProcessed (mint : MintConfig curve) :
    Ledger curve → List Input → List (Nat × XOnlyPublicKey) → Ledger curve → Prop where
  | nil (ledger : Ledger curve) : InputsProcessed mint ledger [] [] ledger
  | cons {ledger middle after : Ledger curve} {input : Input} {inputs : List Input}
      {result : Nat × XOnlyPublicKey} {results : List (Nat × XOnlyPublicKey)}
      (first : processInput mint ledger input = .ok (result, middle))
      (rest : InputsProcessed mint middle inputs results after) :
      InputsProcessed mint ledger (input :: inputs) (result :: results) after

inductive OutputsProcessed (server : Server curve) (txid : TransactionId) :
    Ledger curve → List (Output × Nat) → List Nat → Ledger curve → Prop where
  | nil (ledger : Ledger curve) : OutputsProcessed server txid ledger [] [] ledger
  | cons {ledger middle after : Ledger curve} {entry : Output × Nat}
      {entries : List (Output × Nat)} {amount : Nat} {amounts : List Nat}
      (first : processOutput server ledger { txid, outIdx := entry.2 } entry.1 =
        .ok (amount, middle))
      (rest : OutputsProcessed server txid middle entries amounts after) :
      OutputsProcessed server txid ledger (entry :: entries) (amount :: amounts) after

variable {server : Server curve} {mint : MintConfig curve} {txid : TransactionId}
  {ledger middle after : Ledger curve}

theorem InputsProcessed.preserves_of {inputs : List Input}
    {results : List (Nat × XOnlyPublicKey)} {motive : Ledger curve → Prop}
    (processed : InputsProcessed mint ledger inputs results after)
    (step : ∀ (ledger after : Ledger curve), ∀ input ∈ inputs,
      ∀ result : Nat × XOnlyPublicKey,
        processInput mint ledger input = .ok (result, after) → motive ledger → motive after)
    (holds : motive ledger) : motive after := by
  induction processed with
  | nil => exact holds
  | cons first _ inductionHypothesis =>
      refine inductionHypothesis ?_ (step _ _ _ List.mem_cons_self _ first holds)
      exact fun ledger after input member => step ledger after input (List.mem_cons_of_mem _ member)

theorem InputsProcessed.preserves {inputs : List Input}
    {results : List (Nat × XOnlyPublicKey)} {motive : Ledger curve → Prop}
    (processed : InputsProcessed mint ledger inputs results after)
    (step : ∀ (ledger after : Ledger curve) (input : Input) (result : Nat × XOnlyPublicKey),
      processInput mint ledger input = .ok (result, after) → motive ledger → motive after)
    (holds : motive ledger) : motive after :=
  processed.preserves_of (fun ledger after input _ => step ledger after input) holds

theorem OutputsProcessed.preserves_of {entries : List (Output × Nat)} {amounts : List Nat}
    {motive : Ledger curve → Prop}
    (processed : OutputsProcessed server txid ledger entries amounts after)
    (step : ∀ (ledger after : Ledger curve) (outpoint : OutPoint), ∀ entry ∈ entries,
      ∀ amount, processOutput server ledger outpoint entry.1 = .ok (amount, after) →
        motive ledger → motive after)
    (holds : motive ledger) : motive after := by
  induction processed with
  | nil => exact holds
  | cons first _ inductionHypothesis =>
      refine inductionHypothesis ?_ (step _ _ _ _ List.mem_cons_self _ first holds)
      exact fun ledger after outpoint entry member =>
        step ledger after outpoint entry (List.mem_cons_of_mem _ member)

theorem OutputsProcessed.preserves {entries : List (Output × Nat)} {amounts : List Nat}
    {motive : Ledger curve → Prop}
    (processed : OutputsProcessed server txid ledger entries amounts after)
    (step : ∀ (ledger after : Ledger curve) (outpoint : OutPoint) (output : Output)
      (amount : Nat), processOutput server ledger outpoint output = .ok (amount, after) →
        motive ledger → motive after)
    (holds : motive ledger) : motive after :=
  processed.preserves_of (fun ledger after outpoint entry _ => step ledger after outpoint entry.1)
    holds

theorem InputsProcessed.length {inputs : List Input} {results : List (Nat × XOnlyPublicKey)}
    (processed : InputsProcessed mint ledger inputs results after) :
    results.length = inputs.length := by
  induction processed with
  | nil => rfl
  | cons _ _ inductionHypothesis => rw [List.length_cons, List.length_cons, inductionHypothesis]

/-! ### The loops of `processTx` -/

theorem addInput_ok {verifier next : FundingVerifier} {amount fee : Nat}
    (added : verifier.addInput amount fee = .ok next) :
    next.inputs = verifier.inputs + amount ∧ next.fees = verifier.fees + fee ∧
      next.outputs = verifier.outputs ∧ next.inputs < U64_BOUND ∧ next.fees < U64_BOUND := by
  unfold FundingVerifier.addInput at added
  simp only [bind_eq_ok, okOr_eq_ok, checkedAdd_eq_some] at added
  obtain ⟨inputs, ⟨inputsSum, inputsBelow⟩, fees, ⟨feesSum, feesBelow⟩, result⟩ := added
  cases result
  exact ⟨inputsSum, feesSum, rfl, inputsBelow, feesBelow⟩

theorem addOutput_ok {verifier next : FundingVerifier} {amount fee : Nat}
    (added : verifier.addOutput amount fee = .ok next) :
    next.outputs = verifier.outputs + amount ∧ next.fees = verifier.fees + fee ∧
      next.inputs = verifier.inputs ∧ next.outputs < U64_BOUND ∧ next.fees < U64_BOUND := by
  unfold FundingVerifier.addOutput at added
  simp only [bind_eq_ok, okOr_eq_ok, checkedAdd_eq_some] at added
  obtain ⟨outputs, ⟨outputsSum, outputsBelow⟩, fees, ⟨feesSum, feesBelow⟩, result⟩ := added
  cases result
  exact ⟨outputsSum, feesSum, rfl, outputsBelow, feesBelow⟩

theorem inputs_foldlM_ok {inputs : List Input} {start finish : Progress curve}
    (folded : inputs.foldlM (inputStep mint) start = .ok finish) :
    ∃ results, InputsProcessed mint start.ledger inputs results finish.ledger ∧
      finish.verifier.inputs = start.verifier.inputs + (results.map Prod.fst).sum ∧
      finish.verifier.fees = start.verifier.fees + (inputs.map inputFee).sum ∧
      finish.verifier.outputs = start.verifier.outputs ∧
      finish.publicKeys = start.publicKeys ++ results.map Prod.snd ∧
      (start.verifier.inputs < U64_BOUND → finish.verifier.inputs < U64_BOUND) := by
  induction inputs generalizing start with
  | nil =>
      cases folded
      exact ⟨[], .nil _, by simp, by simp, rfl, by simp, id⟩
  | cons input rest inductionHypothesis =>
      rw [List.foldlM_cons, bind_eq_ok] at folded
      obtain ⟨next, step, following⟩ := folded
      obtain ⟨results, processed, inputSum, feeSum, outputSum, keys, below⟩ :=
        inductionHypothesis following
      unfold inputStep at step
      simp only [bind_eq_ok, mapError_eq_ok] at step
      obtain ⟨⟨⟨amount, key⟩, ledger⟩, first, verifier, added, result⟩ := step
      cases result
      obtain ⟨inputAdded, feeAdded, outputKept, inputBelow, _⟩ := addInput_ok added
      refine ⟨(amount, key) :: results, .cons first processed, ?_, ?_, ?_, ?_, ?_⟩
      · rw [List.map_cons, List.sum_cons, ← Nat.add_assoc, ← inputAdded]
        exact inputSum
      · rw [List.map_cons, List.sum_cons, ← Nat.add_assoc, ← feeAdded]
        exact feeSum
      · exact outputSum.trans outputKept
      · rw [keys, List.map_cons, List.append_assoc, List.singleton_append]
      · exact fun _ => below inputBelow

theorem outputs_foldlM_ok {entries : List (Output × Nat)} {start finish : Progress curve}
    (folded : entries.foldlM (outputStep server txid) start = .ok finish) :
    ∃ amounts, OutputsProcessed server txid start.ledger entries amounts finish.ledger ∧
      finish.verifier.outputs = start.verifier.outputs + amounts.sum ∧
      finish.verifier.fees =
        start.verifier.fees + (entries.map (fun entry => outputFee entry.1)).sum ∧
      finish.verifier.inputs = start.verifier.inputs := by
  induction entries generalizing start with
  | nil =>
      cases folded
      exact ⟨[], .nil _, by simp, by simp, rfl⟩
  | cons entry rest inductionHypothesis =>
      rw [List.foldlM_cons, bind_eq_ok] at folded
      obtain ⟨next, step, following⟩ := folded
      obtain ⟨amounts, processed, outputSum, feeSum, inputKept⟩ := inductionHypothesis following
      unfold outputStep at step
      simp only [bind_eq_ok, mapError_eq_ok] at step
      obtain ⟨⟨amount, ledger⟩, first, verifier, added, result⟩ := step
      cases result
      obtain ⟨outputAdded, feeAdded, kept, _, _⟩ := addOutput_ok added
      refine ⟨amount :: amounts, .cons first processed, ?_, ?_, ?_⟩
      · rw [List.sum_cons, ← Nat.add_assoc, ← outputAdded]
        exact outputSum
      · rw [List.map_cons, List.sum_cons, ← Nat.add_assoc, ← feeAdded]
        exact feeSum
      · exact inputKept.trans kept

/-- An accepted transaction: its loops, and the sums its funding compares. -/
structure Accepted (server : Server curve) (ledger : Ledger curve) (tx : Transaction)
    (results : List (Nat × XOnlyPublicKey)) (middle : Ledger curve) (amounts : List Nat)
    (after : Ledger curve) : Prop where
  counts : checkCounts tx = .ok ()
  inputs : InputsProcessed server.toMintConfig ledger tx.inputs results middle
  signatures : validateSignatures server.toMintConfig tx (results.map Prod.snd) = .ok ()
  outputs : OutputsProcessed server (computeTxid server.toMintConfig tx) middle
    tx.outputs.zipIdx amounts after
  funded : amounts.sum + ((tx.inputs.map inputFee).sum + (tx.outputs.map outputFee).sum) ≤
    (results.map Prod.fst).sum
  below : (results.map Prod.fst).sum < U64_BOUND

theorem processTx_ok {tx : Transaction} (processed : processTx server ledger tx = .ok after) :
    ∃ results middle amounts, Accepted server ledger tx results middle amounts after := by
  unfold processTx at processed
  simp only [bind_eq_ok] at processed
  obtain ⟨_, counts, spent, inputs, _, signatures, issued, outputs, _, funding, result⟩ := processed
  cases result
  obtain ⟨results, inputsProcessed, inputSum, inputFees, noOutputs, keys, below⟩ :=
    inputs_foldlM_ok inputs
  obtain ⟨amounts, outputsProcessed, outputSum, outputFees, inputKept⟩ := outputs_foldlM_ok outputs
  unfold FundingVerifier.verifyFunding at funding
  simp only [bind_eq_ok, okOr_eq_ok, checkedAdd_eq_some, ensure_eq_ok, decide_eq_true_eq] at funding
  obtain ⟨total, ⟨totalSum, _⟩, covered⟩ := funding
  have feesOf : (tx.outputs.zipIdx.map (fun entry => outputFee entry.1)).sum =
      (tx.outputs.map outputFee).sum := by
    change (tx.outputs.zipIdx.map (outputFee ∘ Prod.fst)).sum = _
    rw [← List.map_map, List.zipIdx_map_fst]
  simp only [FundingVerifier.default, Nat.zero_add] at inputSum inputFees noOutputs below
  refine ⟨results, spent.ledger, amounts, counts, inputsProcessed, ?_, outputsProcessed, ?_, ?_⟩
  · rw [List.nil_append] at keys
    rwa [keys] at signatures
  · omega
  · rw [← inputSum]
    exact below (by decide)

/-- A property its processed inputs and outputs preserve, an accepted
transaction preserves. -/
theorem processTx_preserves_of {tx : Transaction} {motive : Ledger curve → Prop}
    (processed : processTx server ledger tx = .ok after)
    (inputStep : ∀ (ledger after : Ledger curve), ∀ input ∈ tx.inputs,
      ∀ result : Nat × XOnlyPublicKey,
        processInput server.toMintConfig ledger input = .ok (result, after) →
          motive ledger → motive after)
    (outputStep : ∀ (ledger after : Ledger curve) (outpoint : OutPoint), ∀ output ∈ tx.outputs,
      ∀ amount, processOutput server ledger outpoint output = .ok (amount, after) →
        motive ledger → motive after)
    (holds : motive ledger) : motive after := by
  obtain ⟨_, _, _, accepted⟩ := processTx_ok processed
  refine accepted.outputs.preserves_of ?_ (accepted.inputs.preserves_of inputStep holds)
  intro ledger after outpoint entry member
  exact outputStep ledger after outpoint entry.1 (List.fst_mem_of_mem_zipIdx member)

theorem processTx_preserves {tx : Transaction} {motive : Ledger curve → Prop}
    (processed : processTx server ledger tx = .ok after)
    (inputStep : ∀ (ledger after : Ledger curve) (input : Input)
      (result : Nat × XOnlyPublicKey),
      processInput server.toMintConfig ledger input = .ok (result, after) →
        motive ledger → motive after)
    (outputStep : ∀ (ledger after : Ledger curve) (outpoint : OutPoint) (output : Output)
      (amount : Nat), processOutput server ledger outpoint output = .ok (amount, after) →
        motive ledger → motive after)
    (holds : motive ledger) : motive after :=
  processTx_preserves_of processed (fun ledger after input _ => inputStep ledger after input)
    (fun ledger after outpoint output _ => outputStep ledger after outpoint output) holds

theorem processTxItem_ok {tx : Transaction}
    (processed : processTxItem server ledger tx = .ok after) :
    ledger.acceptedTxid.contains (computeTxid server.toMintConfig tx) = false ∧
      ∃ judged, processTx server ledger tx = .ok judged ∧
        after = { judged with
          acceptedTxid := judged.acceptedTxid.insert (computeTxid server.toMintConfig tx) ⟨⟩ } := by
  unfold processTxItem at processed
  simp only [bind_eq_ok, ensure_eq_ok, mapError_eq_ok, Bool.not_eq_true'] at processed
  obtain ⟨_, fresh, judged, processed, result⟩ := processed
  cases result
  exact ⟨fresh, judged, processed, rfl⟩

/-! ### What transactions leave alone -/

/-- The tables no transaction writes: the votes, the tracked block and the
signing log. -/
structure BeyondTx (ledger after : Ledger curve) : Prop where
  blockHeightVote : after.blockHeightVote = ledger.blockHeightVote
  consensusVersionVote : after.consensusVersionVote = ledger.consensusVersionVote
  feeRateVote : after.feeRateVote = ledger.feeRateVote
  blockHeight : after.blockHeight = ledger.blockHeight
  blockVote : after.blockVote = ledger.blockVote
  output : after.output = ledger.output
  unconfirmedTx : after.unconfirmedTx = ledger.unconfirmedTx
  nonceLog : after.nonceLog = ledger.nonceLog
  signatureShares : after.signatureShares = ledger.signatureShares

theorem BeyondTx.refl (ledger : Ledger curve) : BeyondTx ledger ledger := by
  constructor <;> rfl

theorem BeyondTx.trans {middle : Ledger curve} (first : BeyondTx ledger middle)
    (second : BeyondTx middle after) : BeyondTx ledger after where
  blockHeightVote := second.blockHeightVote.trans first.blockHeightVote
  consensusVersionVote := second.consensusVersionVote.trans first.consensusVersionVote
  feeRateVote := second.feeRateVote.trans first.feeRateVote
  blockHeight := second.blockHeight.trans first.blockHeight
  blockVote := second.blockVote.trans first.blockVote
  output := second.output.trans first.output
  unconfirmedTx := second.unconfirmedTx.trans first.unconfirmedTx
  nonceLog := second.nonceLog.trans first.nonceLog
  signatureShares := second.signatureShares.trans first.signatureShares

theorem processInput_beyond {mint : MintConfig curve} {input : Input}
    {result : Nat × XOnlyPublicKey}
    (processed : processInput mint ledger input = .ok (result, after)) :
    BeyondTx ledger after := by
  obtain ⟨amount, pk⟩ := result
  cases input with
  | ecash input =>
      obtain ⟨_, _, _, _, final⟩ := Ecash.processInput_ok (mapError_eq_ok.mp processed)
      subst final
      constructor <;> rfl
  | onchain input =>
      obtain ⟨_, _, _, _, _, ⟨_, final⟩ | ⟨_, _, _, _, _, final⟩⟩ :=
        Onchain.processInput_ok (mapError_eq_ok.mp processed)
      · subst final
        constructor <;> rfl
      · subst final
        constructor <;> rfl
  | lightning input =>
      cases input with
      | outgoing outpoint witness =>
          obtain ⟨_, _, _, _, _, _, final⟩ :=
            Lightning.processInput_outgoing_ok (mapError_eq_ok.mp processed)
          subst final
          constructor <;> rfl
      | incoming outpoint =>
          obtain ⟨_, _, _, _, _, _, final⟩ :=
            Lightning.processInput_incoming_ok (mapError_eq_ok.mp processed)
          subst final
          constructor <;> rfl

theorem processOutput_beyond {output : Output} {outpoint : OutPoint} {amount : Nat}
    (processed : processOutput server ledger outpoint output = .ok (amount, after)) :
    BeyondTx ledger after := by
  cases output with
  | ecash output =>
      obtain ⟨_, ⟨_, _, final⟩, _⟩ := Ecash.processOutput_ok (mapError_eq_ok.mp processed)
      subst final
      constructor <;> rfl
  | onchain output =>
      obtain ⟨_, _, _, _, _, _, _, final⟩ :=
        Onchain.processOutput_ok (mapError_eq_ok.mp processed)
      subst final
      constructor <;> rfl
  | lightning output =>
      cases output with
      | outgoing contract =>
          obtain ⟨_, _, final⟩ :=
            Lightning.processOutput_outgoing_ok (mapError_eq_ok.mp processed)
          subst final
          constructor <;> rfl
      | incoming contract =>
          obtain ⟨_, final⟩ :=
            Lightning.processOutput_incoming_ok (mapError_eq_ok.mp processed)
          subst final
          constructor <;> rfl

theorem processTxItem_beyond {tx : Transaction}
    (processed : processTxItem server ledger tx = .ok after) : BeyondTx ledger after := by
  obtain ⟨_, judged, judgedOk, result⟩ := processTxItem_ok processed
  have kept : BeyondTx ledger judged := by
    apply processTx_preserves (motive := BeyondTx ledger) judgedOk
    · exact fun _ _ _ _ step same => same.trans (processInput_beyond step)
    · exact fun _ _ _ _ _ step same => same.trans (processOutput_beyond step)
    · exact BeyondTx.refl ledger
  subst result
  exact kept.trans (by constructor <;> rfl)

/-! ### Histories -/

/-- A ledger with the transactions accepted into it, each with the ledger it
was judged against. -/
structure History (curve : Curve) where
  ledger : Ledger curve
  accepted : List (Ledger curve × Transaction)

namespace History

def start : History curve :=
  { ledger := Ledger.empty
    accepted := [] }

/-- An item is accepted and committed or rejected and rolled back; a panic
ends the run. -/
def step (server : Server curve) (history : History curve)
    (entry : NodeId × ConsensusItem curve) : Option (History curve) :=
  match processConsensusItem server history.ledger entry.1 entry.2 with
  | .ok ledger =>
      some
        { ledger
          accepted := match entry.2 with
            | .tx tx => history.accepted ++ [(history.ledger, tx)]
            | _ => history.accepted }
  | .error (.error _) => some history
  | .error (.panic _) => none

def run (server : Server curve) (history : History curve)
    (items : List (NodeId × ConsensusItem curve)) : Option (History curve) :=
  items.foldlM (step server) history

theorem run_preserves {motive : History curve → Prop}
    {items : List (NodeId × ConsensusItem curve)} {history final : History curve}
    (ran : run server history items = some final)
    (step : ∀ (history next : History curve) (entry : NodeId × ConsensusItem curve),
      step server history entry = some next → motive history → motive next)
    (holds : motive history) : motive final := by
  induction items generalizing history with
  | nil =>
      cases ran
      exact holds
  | cons entry rest inductionHypothesis =>
      unfold run at ran
      rw [List.foldlM_cons, Option.bind_eq_bind, Option.bind_eq_some_iff] at ran
      obtain ⟨next, stepped, following⟩ := ran
      exact inductionHypothesis following (step _ _ _ stepped holds)

theorem run_concat (items : List (NodeId × ConsensusItem curve)) (history : History curve)
    (entry : NodeId × ConsensusItem curve) :
    run server history (items ++ [entry]) =
      (run server history items).bind (fun next => step server next entry) := by
  unfold run
  rw [List.foldlM_append]
  congr 1
  funext next
  exact Option.bind_fun_some (step server next entry)

theorem run_induction {motive : List (NodeId × ConsensusItem curve) → History curve → Prop}
    {items : List (NodeId × ConsensusItem curve)} {final : History curve}
    (ran : run server start items = some final) (base : motive [] start)
    (step : ∀ (items : List (NodeId × ConsensusItem curve)) (history next : History curve)
      (entry : NodeId × ConsensusItem curve), run server start items = some history →
        step server history entry = some next → motive items history →
        motive (items ++ [entry]) next) : motive items final := by
  induction items using List.reverseRecOn generalizing final with
  | nil =>
      cases ran
      exact base
  | append_singleton items entry inductionHypothesis =>
      rw [run_concat, Option.bind_eq_some_iff] at ran
      obtain ⟨history, reached, stepped⟩ := ran
      exact step items history final entry reached stepped (inductionHypothesis reached)

/-- A step is a rejection, an accepted transaction, or another accepted item. -/
theorem step_cases {history next : History curve} {entry : NodeId × ConsensusItem curve}
    (stepped : step server history entry = some next) :
    next = history ∨
      (∃ tx, entry.2 = .tx tx ∧ processTxItem server history.ledger tx = .ok next.ledger ∧
        next.accepted = history.accepted ++ [(history.ledger, tx)]) ∨
      (processConsensusItem server history.ledger entry.1 entry.2 = .ok next.ledger ∧
        (∀ tx, entry.2 ≠ .tx tx) ∧ next.accepted = history.accepted) := by
  obtain ⟨node, item⟩ := entry
  unfold step at stepped
  split at stepped
  · rename_i ledger processed
    cases stepped
    cases item with
    | tx tx => exact Or.inr (Or.inl ⟨tx, rfl, processed, rfl⟩)
    | onchain item =>
        refine Or.inr (Or.inr ⟨processed, ?_, rfl⟩)
        intro tx same
        cases same
    | blockHeight vote =>
        refine Or.inr (Or.inr ⟨processed, ?_, rfl⟩)
        intro tx same
        cases same
    | version vote =>
        refine Or.inr (Or.inr ⟨processed, ?_, rfl⟩)
        intro tx same
        cases same
  · cases stepped
    exact Or.inl rfl
  · cases stepped

end History

end Picomint.Consensus
