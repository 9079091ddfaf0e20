/-
Where the processing of an item can panic.

One lemma for each function says that it avoids every panic other than its
own; those of the fee and of the contract index are left to the caller.
-/

import Picomint.Consensus.Items

namespace Picomint.Consensus

open Tss

variable {curve : Curve} {server : Server curve} {mint : MintConfig curve}
  {ledger : Ledger curve} {panic : Panic}

section Outcomes

variable {ε δ α β : Type}

instance (outcome : Outcome ε α) : Decidable (Avoids panic outcome) :=
  match outcome with
  | .ok _ => isTrue (fun same => by cases same)
  | .error (.error _) => isTrue (fun same => by cases same)
  | .error (.panic other) =>
      if same : other = panic then isFalse (fun avoids => avoids (by rw [same]))
      else isTrue (fun panicked => same (by cases panicked; rfl))

theorem mapError_avoids {wrap : ε → δ} {outcome : Outcome ε α} (avoids : Avoids panic outcome) :
    Avoids panic (mapError wrap outcome) := by
  intro same
  cases outcome with
  | ok value => cases same
  | error fault =>
      cases fault with
      | error error => cases same
      | panic other =>
          cases same
          exact avoids rfl

theorem foldlM_avoids (invariant : α → Prop) {step : α → β → Outcome ε α} {items : List β}
    {start : α} (holds : invariant start)
    (avoids : ∀ state, ∀ item ∈ items, invariant state → Avoids panic (step state item))
    (keeps : ∀ state, ∀ item ∈ items, ∀ next, invariant state → step state item = .ok next →
      invariant next) : Avoids panic (items.foldlM step start) := by
  induction items generalizing start with
  | nil => exact pure_avoids _
  | cons item rest inductionHypothesis =>
      rw [List.foldlM_cons]
      apply bind_avoids (avoids start item List.mem_cons_self holds)
      intro next stepped
      exact inductionHypothesis (keeps start item List.mem_cons_self next holds stepped)
        (fun state other member => avoids state other (List.mem_cons_of_mem item member))
        (fun state other member => keeps state other (List.mem_cons_of_mem item member))

theorem foldlM_keeps (invariant : α → Prop) {step : α → β → Outcome ε α} {items : List β}
    {start last : α}
    (keeps : ∀ state, ∀ item ∈ items, ∀ next, invariant state → step state item = .ok next →
      invariant next)
    (holds : invariant start) (folded : items.foldlM step start = .ok last) : invariant last := by
  induction items generalizing start with
  | nil =>
      cases folded
      exact holds
  | cons item rest inductionHypothesis =>
      rw [List.foldlM_cons, bind_eq_ok] at folded
      obtain ⟨next, stepped, following⟩ := folded
      exact inductionHypothesis
        (fun state other member => keeps state other (List.mem_cons_of_mem item member))
        (keeps start item List.mem_cons_self next holds stepped) following

end Outcomes

/-! ### The wallet -/

theorem tweakPublicKey_avoids {ε : Type} (tweaked : Panic.tweak ≠ panic) (key : PublicKey curve)
    (tweak : Hash) : Avoids panic (Onchain.tweakPublicKey key tweak : Outcome ε _) := by
  apply bind_avoids (expect_avoids _ tweaked)
  exact fun scalar _ => expect_avoids _ tweaked

theorem scriptPubkey_avoids {ε : Type} (tweaked : Panic.tweak ≠ panic) (tweak : Hash) :
    Avoids panic (Onchain.scriptPubkey mint tweak : Outcome ε _) := by
  apply bind_avoids (tweakPublicKey_avoids tweaked _ _)
  exact fun key _ => pure_avoids _

theorem consensusBlockHeight_avoids {ε : Type} (heights : Panic.heightVotes ≠ panic) :
    Avoids panic (consensusBlockHeight mint ledger : Outcome ε Nat) := by
  apply bind_avoids (assert_avoids _ heights)
  exact fun _ _ => pure_avoids _

theorem consensusFeerate_avoids {ε : Type} (rates : Panic.feerateVotes ≠ panic) :
    Avoids panic (consensusFeerate mint ledger : Outcome ε (Option Nat)) := by
  apply bind_avoids (assert_avoids _ rates)
  exact fun _ _ => pure_avoids _

theorem consensusFee_avoids {ε : Type} (txVbytes : Nat) (stack : Panic.pendingTxs ≠ panic)
    (rates : Panic.feerateVotes ≠ panic) (vbytes : Panic.stackVbytes ≠ panic) :
    Avoids panic (Onchain.consensusFee mint ledger txVbytes : Outcome ε _) := by
  apply bind_avoids (assert_avoids _ stack)
  intro _ _
  apply bind_avoids (consensusFeerate_avoids rates)
  intro rate _
  cases rate with
  | none => exact pure_avoids _
  | some rate =>
      apply bind_avoids (expect_avoids _ vbytes)
      exact fun _ _ => pure_avoids _

theorem advanceWallet_avoids {ε : Type} (heights : Panic.heightVotes ≠ panic) (wallet : MintUtxo)
    (mintTx : MintTx curve) (changeValue : Nat) : Avoids panic
      (Onchain.advanceWallet mint ledger wallet mintTx changeValue : Outcome ε _) := by
  apply bind_avoids (consensusBlockHeight_avoids heights)
  exact fun _ _ => pure_avoids _

theorem insertUnsigned_avoids {ε : Type} (unsigned : MintTx curve) (pending : ε) :
    Avoids panic (Onchain.insertUnsigned ledger unsigned pending) := by
  apply bind_avoids (ensure_avoids _ _)
  exact fun _ _ => pure_avoids _

theorem moveWallet_avoids (tweaked : Panic.tweak ≠ panic) (heights : Panic.heightVotes ≠ panic)
    (tracked : TrackedOutput) (input : OnchainInput) (outputValue : Nat) :
    Avoids panic (Onchain.moveWallet mint ledger tracked input outputValue) := by
  unfold Onchain.moveWallet
  split
  · apply bind_avoids (okOr_avoids _ _)
    intro changeValue _
    apply bind_avoids (scriptPubkey_avoids tweaked _)
    intro script _
    apply bind_avoids (advanceWallet_avoids heights _ _ _)
    exact fun ledger _ => insertUnsigned_avoids _ _
  · exact pure_avoids _

theorem onchain_processInput_avoids (tweaked : Panic.tweak ≠ panic)
    (heights : Panic.heightVotes ≠ panic)
    (fee : Avoids panic (Onchain.receiveFee mint ledger : Outcome OnchainInputError _))
    (input : OnchainInput) : Avoids panic (Onchain.processInput mint ledger input) := by
  apply bind_avoids (ensure_avoids _ _)
  intro _ _
  apply bind_avoids (okOr_avoids _ _)
  intro tracked _
  apply bind_avoids (scriptPubkey_avoids tweaked _)
  intro script _
  apply bind_avoids (ensure_avoids _ _)
  intro _ _
  apply bind_avoids fee
  intro rate _
  apply bind_avoids (okOr_avoids _ _)
  intro receiveFee _
  apply bind_avoids (ensure_avoids _ _)
  intro _ _
  apply bind_avoids (okOr_avoids _ _)
  intro outputValue _
  apply bind_avoids (moveWallet_avoids tweaked heights _ _ _)
  intro moved _
  apply bind_avoids (okOr_avoids _ _)
  exact fun amount _ => pure_avoids _

theorem onchain_processOutput_avoids (tweaked : Panic.tweak ≠ panic)
    (heights : Panic.heightVotes ≠ panic)
    (fee : Avoids panic (Onchain.sendFee mint ledger : Outcome OnchainOutputError _))
    (output : OnchainOutput) (outpoint : OutPoint) :
    Avoids panic (Onchain.processOutput mint ledger output outpoint) := by
  apply bind_avoids (ensure_avoids _ _)
  intro _ _
  apply bind_avoids (okOr_avoids _ _)
  intro wallet _
  apply bind_avoids fee
  intro rate _
  apply bind_avoids (okOr_avoids _ _)
  intro sendFee _
  apply bind_avoids (ensure_avoids _ _)
  intro _ _
  apply bind_avoids (okOr_avoids _ _)
  intro outputValue _
  apply bind_avoids (okOr_avoids _ _)
  intro changeValue _
  apply bind_avoids (ensure_avoids _ _)
  intro _ _
  apply bind_avoids (scriptPubkey_avoids tweaked _)
  intro script _
  apply bind_avoids (advanceWallet_avoids heights _ _ _)
  intro moved _
  apply bind_avoids (insertUnsigned_avoids _ _)
  intro pending _
  apply bind_avoids (okOr_avoids _ _)
  exact fun amount _ => pure_avoids _

/-! ### Inputs and outputs -/

theorem processInput_avoids {input : Input} (tweaked : Panic.tweak ≠ panic) (heights : Panic.heightVotes ≠ panic)
    (fee : ∀ claim, input = .onchain claim →
      Avoids panic (Onchain.receiveFee mint ledger : Outcome OnchainInputError _))
    (index : ∀ outpoint contract, ledger.incomingContract.get? outpoint = some contract →
      Avoids panic (expect (ledger.incomingContractIndex.get? outpoint) .contractIndex :
        Outcome LightningInputError Nat)) :
    Avoids panic (processInput mint ledger input) := by
  cases input with
  | ecash input =>
      apply mapError_avoids
      apply bind_avoids (ensure_avoids _ _)
      intro _ _
      apply bind_avoids (okOr_avoids _ _)
      intro key _
      apply bind_avoids (ensure_avoids _ _)
      exact fun _ _ => pure_avoids _
  | onchain input =>
      exact mapError_avoids (onchain_processInput_avoids tweaked heights (fee input rfl) input)
  | lightning input =>
      apply mapError_avoids
      cases input with
      | outgoing outpoint witness =>
          apply bind_avoids (okOr_avoids _ _)
          intro contract _
          apply bind_avoids
          · cases witness with
            | claim preimage =>
                apply bind_avoids (ensure_avoids _ _)
                exact fun _ _ => pure_avoids _
            | cancel signature =>
                apply bind_avoids (ensure_avoids _ _)
                exact fun _ _ => pure_avoids _
          · intro witnessed _
            apply bind_avoids (okOr_avoids _ _)
            exact fun amount _ => pure_avoids _
      | incoming outpoint =>
          apply bind_avoids (okOr_avoids _ _)
          intro contract found
          apply bind_avoids (index outpoint contract (okOr_eq_ok.mp found))
          intro position _
          apply bind_avoids (okOr_avoids _ _)
          exact fun amount _ => pure_avoids _

theorem processOutput_avoids {output : Output} (tweaked : Panic.tweak ≠ panic)
    (heights : Panic.heightVotes ≠ panic)
    (fee : ∀ send, output = .onchain send → Avoids panic
      (Onchain.sendFee server.toMintConfig ledger : Outcome OnchainOutputError _))
    (outpoint : OutPoint) :
    Avoids panic (processOutput server ledger outpoint output) := by
  cases output with
  | ecash output =>
      apply mapError_avoids
      apply bind_avoids (ensure_avoids _ _)
      intro _ _
      apply bind_avoids (okOr_avoids _ _)
      exact fun key _ => pure_avoids _
  | onchain output =>
      apply mapError_avoids
      exact onchain_processOutput_avoids tweaked heights (fee output rfl) output outpoint
  | lightning output =>
      apply mapError_avoids
      cases output with
      | outgoing contract =>
          apply bind_avoids (okOr_avoids _ _)
          exact fun amount _ => pure_avoids _
      | incoming contract =>
          apply bind_avoids (okOr_avoids _ _)
          exact fun amount _ => pure_avoids _

/-! ### Transactions -/

theorem addInput_avoids (verifier : FundingVerifier) (amount fee : Nat) :
    Avoids panic (verifier.addInput amount fee) := by
  apply bind_avoids (okOr_avoids _ _)
  intro inputs _
  apply bind_avoids (okOr_avoids _ _)
  exact fun fees _ => pure_avoids _

theorem addOutput_avoids (verifier : FundingVerifier) (amount fee : Nat) :
    Avoids panic (verifier.addOutput amount fee) := by
  apply bind_avoids (okOr_avoids _ _)
  intro outputs _
  apply bind_avoids (okOr_avoids _ _)
  exact fun fees _ => pure_avoids _

theorem validateSignatures_avoids (tx : Transaction) (publicKeys : List XOnlyPublicKey) :
    Avoids panic (validateSignatures mint tx publicKeys) := by
  apply bind_avoids (ensure_avoids _ _)
  intro _ _
  apply forM_avoids
  exact fun entry _ => ensure_avoids _ _

theorem checkCounts_avoids (tx : Transaction) : Avoids panic (checkCounts tx) := by
  apply bind_avoids (ensure_avoids _ _)
  intro _ _
  apply bind_avoids (ensure_avoids _ _)
  intro _ _
  apply bind_avoids (ensure_avoids _ _)
  intro _ _
  apply bind_avoids (ensure_avoids _ _)
  exact fun _ _ => ensure_avoids _ _

/-- A transaction avoids what its inputs and its outputs avoid, under an
invariant of each loop. -/
theorem processTxItem_avoids_of {tx : Transaction} (inputs outputs : Ledger curve → Prop)
    (holds : inputs ledger)
    (input : ∀ ledger, ∀ input ∈ tx.inputs, inputs ledger →
      Avoids panic (processInput server.toMintConfig ledger input))
    (inputKeeps : ∀ ledger, ∀ input ∈ tx.inputs, ∀ result after, inputs ledger →
      processInput server.toMintConfig ledger input = .ok (result, after) → inputs after)
    (between : ∀ ledger, inputs ledger → outputs ledger)
    (output : ∀ ledger outpoint, ∀ output ∈ tx.outputs, outputs ledger →
      Avoids panic (processOutput server ledger outpoint output))
    (outputKeeps : ∀ ledger outpoint, ∀ output ∈ tx.outputs, ∀ amount after, outputs ledger →
      processOutput server ledger outpoint output = .ok (amount, after) → outputs after) :
    Avoids panic (processTxItem server ledger tx) := by
  have inputStepKeeps : ∀ (progress : Progress curve), ∀ entry ∈ tx.inputs, ∀ next,
      inputs progress.ledger → inputStep server.toMintConfig progress entry = .ok next →
        inputs next.ledger := by
    intro progress entry member next before stepped
    unfold inputStep at stepped
    simp only [bind_eq_ok, mapError_eq_ok] at stepped
    obtain ⟨⟨⟨amount, key⟩, ledger⟩, processed, verifier, _, result⟩ := stepped
    cases result
    exact inputKeeps _ _ member _ _ before processed
  apply bind_avoids (ensure_avoids _ _)
  intro _ _
  apply bind_avoids
  · apply mapError_avoids
    apply bind_avoids (checkCounts_avoids tx)
    intro _ _
    apply bind_avoids
    · apply foldlM_avoids (fun progress : Progress curve => inputs progress.ledger) holds
      · intro progress entry member before
        apply bind_avoids (mapError_avoids (input _ entry member before))
        rintro ⟨⟨amount, key⟩, ledger⟩ _
        apply bind_avoids (addInput_avoids _ _ _)
        exact fun verifier _ => pure_avoids _
      · exact inputStepKeeps
    · intro progress spent
      have after : outputs progress.ledger := by
        apply between
        exact foldlM_keeps (fun progress : Progress curve => inputs progress.ledger)
          inputStepKeeps holds spent
      apply bind_avoids (validateSignatures_avoids tx _)
      intro _ _
      apply bind_avoids
      · apply foldlM_avoids (fun progress : Progress curve => outputs progress.ledger) after
        · intro progress entry member before
          have issued := List.fst_mem_of_mem_zipIdx member
          apply bind_avoids (mapError_avoids (output _ _ _ issued before))
          rintro ⟨amount, ledger⟩ _
          apply bind_avoids (addOutput_avoids _ _ _)
          exact fun verifier _ => pure_avoids _
        · intro progress entry member next before stepped
          unfold outputStep at stepped
          simp only [bind_eq_ok, mapError_eq_ok] at stepped
          obtain ⟨⟨amount, ledger⟩, processed, verifier, _, result⟩ := stepped
          cases result
          exact outputKeeps _ _ _ (List.fst_mem_of_mem_zipIdx member) _ _ before processed
      · intro progress _
        apply bind_avoids
        · apply bind_avoids (okOr_avoids _ _)
          exact fun total _ => ensure_avoids _ _
        · exact fun _ _ => pure_avoids _
  · exact fun judged _ => pure_avoids _

/-! ### Signing -/

structure BeyondVerifying (panic : Panic) : Prop where
  tweaked : Panic.tweak ≠ panic
  keyed : Panic.publicKeyShare ≠ panic
  nonced : Panic.missingNonce ≠ panic
  prevouts : Panic.spentTxOuts ≠ panic
  signed : Panic.tss ≠ panic

section Verifying

variable {ε : Type}

theorem nonceColumn_avoids (beyond : BeyondVerifying panic) (chunk : List (NonceEntry curve))
    (index : Nat) : Avoids panic (Onchain.nonceColumn chunk index : Outcome ε _) := by
  apply bind_avoids
  · apply mapM_avoids
    intro entry _
    apply bind_avoids (expect_avoids _ beyond.nonced)
    exact fun nonce _ => pure_avoids _
  · exact fun column _ => pure_avoids _

theorem sighashes_avoids (beyond : BeyondVerifying panic) (unsigned : MintTx curve) :
    Avoids panic (Onchain.sighashes mint unsigned : Outcome ε _) := by
  apply bind_avoids
  · apply mapM_avoids
    intro utxo _
    apply bind_avoids (scriptPubkey_avoids beyond.tweaked _)
    exact fun script _ => pure_avoids _
  · intro prevouts _
    apply mapM_avoids
    exact fun index _ => expect_avoids _ beyond.prevouts

theorem verifyShares_avoids (beyond : BeyondVerifying panic) (node : NodeId)
    (chunk : List (NonceEntry curve)) (unsigned : MintTx curve) (msgs : List Hash)
    (shares : List (SignatureShare curve)) :
    Avoids panic (Onchain.verifyShares mint node chunk unsigned msgs shares) := by
  apply forM_avoids
  intro entry _
  apply bind_avoids
  · apply bind_avoids
    · apply bind_avoids (expect_avoids _ beyond.keyed)
      exact fun pks _ => tweakPublicKey_avoids beyond.tweaked _ _
    · intro pks _
      apply bind_avoids (nonceColumn_avoids beyond _ _)
      intro column _
      apply bind_avoids (tweakPublicKey_avoids beyond.tweaked _ _)
      exact fun aggPk _ => expect_avoids _ beyond.signed
  · exact fun valid _ => ensure_avoids _ _

/-- Before a session is finalised only its checks can panic. -/
theorem processSignatureShares_avoids (beyond : BeyondVerifying panic) (node : NodeId)
    (txid : Txid) (shares : List (SignatureShare curve)) (freshNonces : List (PublicNonce curve))
    (finalized : ∀ unsigned latest msgs,
      Onchain.SharesChecked mint ledger node txid shares freshNonces unsigned latest msgs →
        Avoids panic (Onchain.finalizeTx mint unsigned msgs
          (Onchain.sessionChunk mint ledger.nonceLog latest)
          (Onchain.sessionResponses mint (ledger.signatureShares.insert latest shares) latest) :
            Outcome Onchain.SigningError _)) :
    Avoids panic (Onchain.processSignatureShares mint ledger node txid shares freshNonces) := by
  apply bind_avoids (okOr_avoids _ _)
  intro unsigned present
  apply bind_avoids (ensure_avoids _ _)
  intro _ sameTx
  apply bind_avoids (ensure_avoids _ _)
  intro _ shareCount
  apply bind_avoids (ensure_avoids _ _)
  intro _ nonceCount
  apply bind_avoids (okOr_avoids _ _)
  intro latest entered
  apply bind_avoids (ensure_avoids _ _)
  intro _ complete
  apply bind_avoids (sighashes_avoids beyond _)
  intro msgs messages
  apply bind_avoids (verifyShares_avoids beyond _ _ _ _ _)
  intro _ verified
  apply bind_avoids (ensure_avoids _ _)
  intro _ unposted
  simp only [okOr_eq_ok] at present entered
  simp only [ensure_eq_ok, decide_eq_true_eq] at sameTx shareCount nonceCount complete
  simp only [ensure_eq_ok, Bool.not_eq_true'] at unposted
  dsimp only
  split
  · apply bind_avoids (finalized unsigned latest msgs
      ⟨present, sameTx, shareCount, nonceCount, entered, complete, messages, verified, unposted⟩)
    exact fun signed _ => pure_avoids _
  · exact pure_avoids _

end Verifying

structure BeyondSigning (panic : Panic) : Prop extends BeyondVerifying panic where
  shared : Panic.missingShare ≠ panic
  aggregated : Panic.aggregatedSignature ≠ panic

theorem finalizeTx_avoids {ε : Type} (beyond : BeyondSigning panic) (unsigned : MintTx curve)
    (msgs : List Hash) (chunk : List (NonceEntry curve))
    (responses : List (List (SignatureShare curve))) :
    Avoids panic (Onchain.finalizeTx mint unsigned msgs chunk responses : Outcome ε _) := by
  apply bind_avoids (assert_avoids _ beyond.prevouts)
  intro _ _
  apply bind_avoids
  · apply mapM_avoids
    intro entry _
    apply bind_avoids
    · apply mapM_avoids
      intro entry _
      apply bind_avoids (expect_avoids _ beyond.shared)
      exact fun share _ => pure_avoids _
    · intro shares _
      apply bind_avoids (nonceColumn_avoids beyond.toBeyondVerifying _ _)
      intro column _
      apply bind_avoids (tweakPublicKey_avoids beyond.tweaked _ _)
      intro aggPk _
      apply bind_avoids (expect_avoids _ beyond.signed)
      intro signature _
      apply bind_avoids (assert_avoids _ beyond.aggregated)
      exact fun _ _ => pure_avoids _
  · exact fun signatures _ => pure_avoids _

/-! ### Items -/

theorem processNonces_avoids (node : NodeId) (txid : Txid) (nonces : List (PublicNonce curve)) :
    Avoids panic (Onchain.processNonces mint ledger node txid nonces) := by
  apply bind_avoids (okOr_avoids _ _)
  intro unsigned _
  apply bind_avoids (ensure_avoids _ _)
  intro _ _
  apply bind_avoids (ensure_avoids _ _)
  intro _ _
  apply bind_avoids (ensure_avoids _ _)
  exact fun _ _ => pure_avoids _

theorem processBlock_avoids (node : NodeId) (vote : BlockVote) :
    Avoids panic (Onchain.processBlock mint ledger node vote) := by
  apply bind_avoids (ensure_avoids _ _)
  intro _ _
  apply bind_avoids (ensure_avoids _ _)
  intro _ _
  dsimp only
  split
  · exact pure_avoids _
  · exact pure_avoids _

theorem processBlockHeight_avoids (heights : Panic.heightVotes ≠ panic)
    (decreased : Panic.heightDecreased ≠ panic) (node : NodeId) (vote : Nat) :
    Avoids panic (processBlockHeight mint ledger node vote) := by
  apply bind_avoids (consensusBlockHeight_avoids heights)
  intro oldHeight _
  apply bind_avoids (ensure_avoids _ _)
  intro _ _
  apply bind_avoids (consensusBlockHeight_avoids heights)
  intro newHeight _
  apply bind_avoids (assert_avoids _ decreased)
  exact fun _ _ => pure_avoids _

theorem processVersion_avoids (unsupported : Panic.unsupportedVersion ≠ panic) (node : NodeId)
    (vote : ConsensusVersion) : Avoids panic (processVersion mint ledger node vote) := by
  apply bind_avoids (ensure_avoids _ _)
  intro _ _
  apply bind_avoids (assert_avoids _ unsupported)
  exact fun _ _ => pure_avoids _

structure BeyondItems (panic : Panic) : Prop extends BeyondSigning panic where
  heights : Panic.heightVotes ≠ panic
  decreased : Panic.heightDecreased ≠ panic
  unsupported : Panic.unsupportedVersion ≠ panic

theorem processConsensusItem_avoids {item : ConsensusItem curve} (beyond : BeyondItems panic)
    (judged : ∀ tx, item = .tx tx → Avoids panic (processTxItem server ledger tx))
    (node : NodeId) : Avoids panic (processConsensusItem server ledger node item) := by
  cases item with
  | tx tx => exact judged tx rfl
  | onchain item =>
      cases item with
      | block vote => exact processBlock_avoids node vote
      | feerate feerate =>
          apply bind_avoids (ensure_avoids _ _)
          exact fun _ _ => pure_avoids _
      | nonces txid nonces => exact mapError_avoids (processNonces_avoids node txid nonces)
      | signatureShares txid shares nonces =>
          apply mapError_avoids
          apply processSignatureShares_avoids beyond.toBeyondVerifying
          exact fun unsigned _ msgs _ => finalizeTx_avoids beyond.toBeyondSigning unsigned msgs _ _
  | blockHeight vote => exact processBlockHeight_avoids beyond.heights beyond.decreased node vote
  | version vote => exact processVersion_avoids beyond.unsupported node vote

end Picomint.Consensus
