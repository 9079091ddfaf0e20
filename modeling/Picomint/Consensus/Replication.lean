/-
Two nodes of one mint that process the same items.

A node reads its private keys in one place, the signing of a blinded nonce.
The tables of two nodes are therefore the same but for the signature shares
they stored, and they accept and reject the same items.
-/

import Picomint.Consensus.Transitions

namespace Picomint.Consensus

open Tss

variable {curve : Curve} {ε δ α β γ : Type}

/-! ### Outcomes of two nodes -/

/-- Both succeed with related values, or both fail the same way. -/
inductive Parallel (related : α → β → Prop) : Outcome ε α → Outcome ε β → Prop where
  | ok {left : α} {right : β} (same : related left right) : Parallel related (.ok left) (.ok right)
  | error (fault : Fault ε) : Parallel related (.error fault) (.error fault)

namespace Parallel

theorem refl {related : α → α → Prop} (same : ∀ value, related value value)
    (outcome : Outcome ε α) : Parallel related outcome outcome := by
  cases outcome with
  | ok value => exact .ok (same value)
  | error fault => exact .error fault

theorem bind {related : α → β → Prop} {α' β' : Type} {related' : α' → β' → Prop}
    {left : Outcome ε α} {right : Outcome ε β} {leftNext : α → Outcome ε α'}
    {rightNext : β → Outcome ε β'} (first : Parallel related left right)
    (rest : ∀ leftValue rightValue, related leftValue rightValue →
      Parallel related' (leftNext leftValue) (rightNext rightValue)) :
    Parallel related' (left >>= leftNext) (right >>= rightNext) := by
  cases first with
  | ok same => exact rest _ _ same
  | error fault => exact .error fault

/-- A step that is the same on both sides. -/
theorem bindSame {α' β' : Type} {related' : α' → β' → Prop} (outcome : Outcome ε α)
    {leftNext : α → Outcome ε α'} {rightNext : α → Outcome ε β'}
    (rest : ∀ value, Parallel related' (leftNext value) (rightNext value)) :
    Parallel related' (outcome >>= leftNext) (outcome >>= rightNext) := by
  cases outcome with
  | ok value => exact rest value
  | error fault => exact .error fault

theorem ite {related : α → β → Prop} {condition : Prop} [Decidable condition]
    {left left' : Outcome ε α} {right right' : Outcome ε β}
    (holds : Parallel related left right) (fails : Parallel related left' right') :
    Parallel related (if condition then left else left')
      (if condition then right else right') := by
  split
  · exact holds
  · exact fails

theorem mapError {related : α → β → Prop} {left : Outcome ε α} {right : Outcome ε β}
    (parallel : Parallel related left right) (wrap : ε → δ) :
    Parallel related (Consensus.mapError wrap left) (Consensus.mapError wrap right) := by
  cases parallel with
  | ok same => exact .ok same
  | error fault =>
      cases fault with
      | error error => exact .error _
      | panic panic => exact .error _

theorem foldlM {κ : Type} {related : α → β → Prop} {leftStep : α → κ → Outcome ε α}
    {rightStep : β → κ → Outcome ε β}
    (step : ∀ left right item, related left right →
      Parallel related (leftStep left item) (rightStep right item))
    (items : List κ) {left : α} {right : β} (same : related left right) :
    Parallel related (items.foldlM leftStep left) (items.foldlM rightStep right) := by
  induction items generalizing left right with
  | nil => exact .ok same
  | cons item rest inductionHypothesis =>
      rw [List.foldlM_cons, List.foldlM_cons]
      exact (step left right item same).bind (fun _ _ next => inductionHypothesis next)

end Parallel

/-! ### The tables two nodes share -/

/-- The tables with other signature shares. -/
def Ledger.withShares (ledger : Ledger curve) (shares : SortedMap OutPoint Nat)
    (restore : SortedMap BlindedNonce Nat) : Ledger curve :=
  { ledger with
    blindedSignatureShare := shares
    blindedSignatureShareRestore := restore }

structure SameTables (left right : Ledger curve) : Prop where
  tables : ∃ shares restore, left = right.withShares shares restore
  shares : left.blindedSignatureShare.keys = right.blindedSignatureShare.keys
  restore : left.blindedSignatureShareRestore.keys = right.blindedSignatureShareRestore.keys

theorem SameTables.refl (ledger : Ledger curve) : SameTables ledger ledger where
  tables := ⟨_, _, rfl⟩
  shares := rfl
  restore := rfl

section

variable {mint : MintConfig curve} {left right : Ledger curve}

def SameNext (left right : α × Ledger curve) : Prop :=
  left.1 = right.1 ∧ SameTables left.2 right.2

theorem ecash_processInput_same (same : SameTables left right) (input : EcashInput) :
    Parallel SameNext (Ecash.processInput mint left input)
      (Ecash.processInput mint right input) := by
  obtain ⟨⟨shares, restore, rfl⟩, shareKeys, restoreKeys⟩ := same
  unfold Ecash.processInput
  refine .bindSame _ (fun _ => ?_)
  refine .bindSame _ (fun _ => ?_)
  refine .bindSame _ (fun _ => ?_)
  exact .ok ⟨rfl, ⟨_, _, rfl⟩, shareKeys, restoreKeys⟩

theorem lightning_processInput_same (same : SameTables left right) (input : LightningInput) :
    Parallel SameNext (Lightning.processInput mint left input)
      (Lightning.processInput mint right input) := by
  obtain ⟨⟨shares, restore, rfl⟩, shareKeys, restoreKeys⟩ := same
  cases input with
  | outgoing outpoint witness =>
      unfold Lightning.processInput
      refine .bindSame _ (fun contract => ?_)
      have witnessed : Parallel SameNext
          (Lightning.processWitness mint (Ledger.withShares { right with
            outgoingContract := right.outgoingContract.erase outpoint } shares restore)
              outpoint contract witness)
          (Lightning.processWitness mint { right with
            outgoingContract := right.outgoingContract.erase outpoint } outpoint contract
              witness) := by
        cases witness with
        | claim preimage =>
            refine .bindSame _ (fun _ => ?_)
            exact .ok ⟨rfl, ⟨_, _, rfl⟩, shareKeys, restoreKeys⟩
        | cancel signature =>
            refine .bindSame _ (fun _ => ?_)
            exact .ok ⟨rfl, ⟨_, _, rfl⟩, shareKeys, restoreKeys⟩
      refine witnessed.bind ?_
      rintro ⟨leftKey, leftLedger⟩ ⟨rightKey, rightLedger⟩ ⟨sameKey, sameLedger⟩
      cases sameKey
      refine .bindSame _ (fun amount => ?_)
      exact .ok ⟨rfl, sameLedger⟩
  | incoming outpoint =>
      unfold Lightning.processInput
      refine .bindSame _ (fun contract => ?_)
      refine .bindSame _ (fun index => ?_)
      refine .bindSame _ (fun amount => ?_)
      exact .ok ⟨rfl, ⟨_, _, rfl⟩, shareKeys, restoreKeys⟩

theorem onchain_moveWallet_same (same : SameTables left right) (tracked : TrackedOutput)
    (input : OnchainInput) (outputValue : Nat) :
    Parallel SameTables (Onchain.moveWallet mint left tracked input outputValue)
      (Onchain.moveWallet mint right tracked input outputValue) := by
  obtain ⟨⟨shares, restore, rfl⟩, shareKeys, restoreKeys⟩ := same
  have sameWallet : (right.withShares shares restore).mintUtxo = right.mintUtxo := rfl
  unfold Onchain.moveWallet
  rw [sameWallet]
  cases held : right.mintUtxo with
  | none => exact .ok ⟨⟨_, _, rfl⟩, shareKeys, restoreKeys⟩
  | some wallet =>
      unfold Onchain.receive Onchain.advanceWallet Onchain.insertUnsigned
      refine .bindSame _ (fun changeValue => ?_)
      refine .bindSame _ (fun script => ?_)
      simp only [bind_assoc, pure_bind]
      refine .bindSame (consensusBlockHeight mint right) (fun created => ?_)
      refine .bindSame _ (fun _ => ?_)
      exact .ok ⟨⟨_, _, rfl⟩, shareKeys, restoreKeys⟩

theorem onchain_processInput_same (same : SameTables left right) (input : OnchainInput) :
    Parallel SameNext (Onchain.processInput mint left input)
      (Onchain.processInput mint right input) := by
  obtain ⟨⟨shares, restore, rfl⟩, shareKeys, restoreKeys⟩ := same
  unfold Onchain.processInput
  refine .bindSame _ (fun _ => ?_)
  refine .bindSame _ (fun tracked => ?_)
  refine .bindSame _ (fun script => ?_)
  refine .bindSame _ (fun _ => ?_)
  refine .bindSame (Onchain.receiveFee mint right) (fun fee => ?_)
  refine .bindSame _ (fun fee => ?_)
  refine .bindSame _ (fun _ => ?_)
  refine .bindSame _ (fun outputValue => ?_)
  have marked : SameTables
      (Ledger.withShares { right with
        spentOutputIndex := right.spentOutputIndex.insert input.outputIndex ⟨⟩ } shares restore)
      { right with spentOutputIndex := right.spentOutputIndex.insert input.outputIndex ⟨⟩ } :=
    ⟨⟨_, _, rfl⟩, shareKeys, restoreKeys⟩
  refine (onchain_moveWallet_same marked tracked input outputValue).bind
    (fun leftLedger rightLedger sameLedger => ?_)
  refine .bindSame _ (fun amount => ?_)
  exact .ok ⟨rfl, sameLedger⟩

theorem onchain_processOutput_same (same : SameTables left right) (output : OnchainOutput)
    (outpoint : OutPoint) :
    Parallel SameNext (Onchain.processOutput mint left output outpoint)
      (Onchain.processOutput mint right output outpoint) := by
  obtain ⟨⟨shares, restore, rfl⟩, shareKeys, restoreKeys⟩ := same
  unfold Onchain.processOutput Onchain.advanceWallet Onchain.insertUnsigned
  refine .bindSame _ (fun _ => ?_)
  refine .bindSame _ (fun wallet => ?_)
  refine .bindSame (Onchain.sendFee mint { right with mintUtxo := none }) (fun fee => ?_)
  refine .bindSame _ (fun fee => ?_)
  refine .bindSame _ (fun _ => ?_)
  refine .bindSame _ (fun outputValue => ?_)
  refine .bindSame _ (fun changeValue => ?_)
  refine .bindSame _ (fun _ => ?_)
  refine .bindSame _ (fun script => ?_)
  simp only [bind_assoc, pure_bind]
  refine .bindSame (consensusBlockHeight mint right) (fun created => ?_)
  refine .bindSame _ (fun _ => ?_)
  refine .bindSame _ (fun amount => ?_)
  exact .ok ⟨rfl, ⟨_, _, rfl⟩, shareKeys, restoreKeys⟩

theorem lightning_processOutput_same (same : SameTables left right) (outpoint : OutPoint)
    (output : LightningOutput) :
    Parallel SameNext (Lightning.processOutput mint left outpoint output)
      (Lightning.processOutput mint right outpoint output) := by
  obtain ⟨⟨shares, restore, rfl⟩, shareKeys, restoreKeys⟩ := same
  cases output with
  | outgoing contract =>
      refine .bindSame _ (fun amount => ?_)
      exact .ok ⟨rfl, ⟨_, _, rfl⟩, shareKeys, restoreKeys⟩
  | incoming contract =>
      refine .bindSame _ (fun amount => ?_)
      exact .ok ⟨rfl, ⟨_, _, rfl⟩, shareKeys, restoreKeys⟩

theorem processInput_same (same : SameTables left right) (input : Input) :
    Parallel SameNext (processInput mint left input) (processInput mint right input) := by
  cases input with
  | ecash input => exact (ecash_processInput_same same input).mapError _
  | onchain input => exact (onchain_processInput_same same input).mapError _
  | lightning input => exact (lightning_processInput_same same input).mapError _

/-! ### Consensus items of the onchain module -/

theorem trackTxs_withShares (shares : SortedMap OutPoint Nat)
    (restore : SortedMap BlindedNonce Nat) (txs : List BlockTx) (ledger : Ledger curve)
    (next : Nat) :
    (txs.foldl Onchain.trackTx (ledger.withShares shares restore, next)).1 =
      (txs.foldl Onchain.trackTx (ledger, next)).1.withShares shares restore := by
  let restock : Ledger curve × Nat → Ledger curve × Nat :=
    fun state => (state.1.withShares shares restore, state.2)
  have output : ∀ (txid : Txid) (state : Ledger curve × Nat) (entry : Nat × TxOut),
      Onchain.trackOutput txid (restock state) entry =
        restock (Onchain.trackOutput txid state entry) := fun _ _ _ => rfl
  have outputs : ∀ (state : Ledger curve × Nat) (tx : BlockTx),
      Onchain.trackTx (restock state) tx = restock (Onchain.trackTx state tx) := by
    intro state tx
    let cleared : Ledger curve × Nat :=
      ({ state.1 with unconfirmedTx := state.1.unconfirmedTx.erase tx.txid }, state.2)
    have folded : tx.outputs.foldl (Onchain.trackOutput tx.txid) (restock cleared) =
        restock (tx.outputs.foldl (Onchain.trackOutput tx.txid) cleared) :=
      List.foldl_hom restock (output tx.txid)
    exact folded
  have all : txs.foldl Onchain.trackTx (restock (ledger, next)) =
      restock (txs.foldl Onchain.trackTx (ledger, next)) := List.foldl_hom restock outputs
  exact congrArg Prod.fst all

theorem onchain_processBlock_same (same : SameTables left right) (node : NodeId)
    (vote : BlockVote) :
    Parallel SameTables (Onchain.processBlock mint left node vote)
      (Onchain.processBlock mint right node vote) := by
  obtain ⟨⟨shares, restore, rfl⟩, shareKeys, restoreKeys⟩ := same
  unfold Onchain.processBlock
  refine .bindSame _ (fun _ => ?_)
  refine .bindSame _ (fun _ => ?_)
  have tracked := trackTxs_withShares shares restore vote.txs
    { right with blockVote := right.blockVote.insert node vote } (nextIndex right.output)
  obtain ⟨output, unconfirmed, frame⟩ := Onchain.trackTx_frame vote.txs
    ({ right with blockVote := right.blockVote.insert node vote }, nextIndex right.output)
  refine .ite (.ok ⟨⟨shares, restore, ?_⟩, ?_, ?_⟩)
    (.ok ⟨⟨_, _, rfl⟩, shareKeys, restoreKeys⟩)
  · change ({ (vote.txs.foldl Onchain.trackTx (Ledger.withShares
        { right with blockVote := right.blockVote.insert node vote } shares restore,
          nextIndex right.output)).1 with
        blockHeight := some (vote.height + 1)
        blockVote := SortedMap.empty } : Ledger curve) = _
    rw [tracked]
    rfl
  · change (vote.txs.foldl Onchain.trackTx (Ledger.withShares
        { right with blockVote := right.blockVote.insert node vote } shares restore,
          nextIndex right.output)).1.blindedSignatureShare.keys = _
    rw [tracked, frame]
    exact shareKeys
  · change (vote.txs.foldl Onchain.trackTx (Ledger.withShares
        { right with blockVote := right.blockVote.insert node vote } shares restore,
          nextIndex right.output)).1.blindedSignatureShareRestore.keys = _
    rw [tracked, frame]
    exact restoreKeys

theorem onchain_processNonces_same (same : SameTables left right) (node : NodeId) (txid : Txid)
    (nonces : List (PublicNonce curve)) :
    Parallel SameTables (Onchain.processNonces mint left node txid nonces)
      (Onchain.processNonces mint right node txid nonces) := by
  obtain ⟨⟨shares, restore, rfl⟩, shareKeys, restoreKeys⟩ := same
  unfold Onchain.processNonces
  refine .bindSame _ (fun unsigned => ?_)
  refine .bindSame _ (fun _ => ?_)
  refine .bindSame _ (fun _ => ?_)
  refine .bindSame _ (fun _ => ?_)
  exact .ok ⟨⟨_, _, rfl⟩, shareKeys, restoreKeys⟩

theorem onchain_processSignatureShares_same (same : SameTables left right) (node : NodeId)
    (txid : Txid) (responses : List (SignatureShare curve)) (nonces : List (PublicNonce curve)) :
    Parallel SameTables (Onchain.processSignatureShares mint left node txid responses nonces)
      (Onchain.processSignatureShares mint right node txid responses nonces) := by
  obtain ⟨⟨shares, restore, rfl⟩, shareKeys, restoreKeys⟩ := same
  unfold Onchain.processSignatureShares
  refine .bindSame _ (fun unsigned => ?_)
  refine .bindSame _ (fun _ => ?_)
  refine .bindSame _ (fun _ => ?_)
  refine .bindSame _ (fun _ => ?_)
  refine .bindSame _ (fun latest => ?_)
  refine .bindSame _ (fun _ => ?_)
  refine .bindSame _ (fun msgs => ?_)
  refine .bindSame _ (fun _ => ?_)
  refine .bindSame _ (fun _ => ?_)
  refine .ite ?_ (.ok ⟨⟨_, _, rfl⟩, shareKeys, restoreKeys⟩)
  refine .bindSame _ (fun signed => ?_)
  exact .ok ⟨⟨_, _, rfl⟩, shareKeys, restoreKeys⟩

theorem onchain_processConsensusItem_same (same : SameTables left right) (node : NodeId)
    (item : OnchainConsensusItem curve) :
    Parallel SameTables (Onchain.processConsensusItem mint left node item)
      (Onchain.processConsensusItem mint right node item) := by
  cases item with
  | block vote => exact onchain_processBlock_same same node vote
  | feerate feerate =>
      obtain ⟨⟨shares, restore, rfl⟩, shareKeys, restoreKeys⟩ := same
      refine .bindSame _ (fun _ => ?_)
      exact .ok ⟨⟨_, _, rfl⟩, shareKeys, restoreKeys⟩
  | nonces txid nonces => exact (onchain_processNonces_same same node txid nonces).mapError _
  | signatureShares txid responses nonces =>
      exact (onchain_processSignatureShares_same same node txid responses nonces).mapError _

theorem processBlockHeight_same (same : SameTables left right) (node : NodeId) (vote : Nat) :
    Parallel SameTables (processBlockHeight mint left node vote)
      (processBlockHeight mint right node vote) := by
  obtain ⟨⟨shares, restore, rfl⟩, shareKeys, restoreKeys⟩ := same
  unfold processBlockHeight
  refine .bindSame (consensusBlockHeight mint right) (fun oldHeight => ?_)
  refine .bindSame _ (fun _ => ?_)
  refine .bindSame (consensusBlockHeight mint { right with
    blockHeightVote := right.blockHeightVote.insert node vote }) (fun newHeight => ?_)
  refine .bindSame _ (fun _ => ?_)
  split
  · exact .ok ⟨⟨_, _, rfl⟩, shareKeys, restoreKeys⟩
  · unfold Onchain.initializeBlockHeight
    split
    · exact .ok ⟨⟨_, _, rfl⟩, shareKeys, restoreKeys⟩
    · exact .ok ⟨⟨_, _, rfl⟩, shareKeys, restoreKeys⟩

theorem processVersion_same (same : SameTables left right) (node : NodeId)
    (vote : ConsensusVersion) :
    Parallel SameTables (processVersion mint left node vote)
      (processVersion mint right node vote) := by
  obtain ⟨⟨shares, restore, rfl⟩, shareKeys, restoreKeys⟩ := same
  unfold processVersion
  refine .bindSame _ (fun _ => ?_)
  refine .bindSame (assert (consensusVersion mint { right with
    consensusVersionVote := right.consensusVersionVote.insert node vote } ≤ CONSENSUS_VERSION)
      .unsupportedVersion) (fun _ => ?_)
  exact .ok ⟨⟨_, _, rfl⟩, shareKeys, restoreKeys⟩

end

/-! ### Two servers of one mint -/

section

variable {server other : Server curve} {left right : Ledger curve}

/-- Both nodes hold a key for every denomination, whichever key it is. -/
theorem tbsSks_parallel (server other : Server curve) (denomination : Denomination) (error : ε) :
    Parallel (fun _ _ => True) (okOr (server.tbsSks.get? denomination) error)
      (okOr (other.tbsSks.get? denomination) error) := by
  have sameKeys : server.tbsSks.keys = other.tbsSks.keys :=
    server.tbsSks_denominations.trans other.tbsSks_denominations.symm
  have paired := server.tbsSks.mem_keys denomination
  rw [sameKeys, other.tbsSks.mem_keys] at paired
  cases held : server.tbsSks.get? denomination with
  | none =>
      rw [held] at paired
      cases otherHeld : other.tbsSks.get? denomination with
      | none => exact .error _
      | some key =>
          obtain ⟨_, impossible⟩ := paired.mp ⟨key, otherHeld⟩
          cases impossible
  | some key =>
      obtain ⟨_, otherHeld⟩ := paired.mpr ⟨key, held⟩
      rw [otherHeld]
      exact .ok trivial

theorem ecash_processOutput_same (same : SameTables left right) (output : EcashOutput)
    (outpoint : OutPoint) :
    Parallel SameNext (Ecash.processOutput server left output outpoint)
      (Ecash.processOutput other right output outpoint) := by
  obtain ⟨⟨shares, restore, rfl⟩, shareKeys, restoreKeys⟩ := same
  unfold Ecash.processOutput
  refine .bindSame _ (fun _ => ?_)
  refine (tbsSks_parallel server other output.denomination _).bind (fun key otherKey _ => ?_)
  exact .ok ⟨rfl, ⟨_, _, rfl⟩, SortedMap.keys_insert_congr shareKeys _ _ _,
    SortedMap.keys_insert_congr restoreKeys _ _ _⟩

variable (sameMint : server.toMintConfig = other.toMintConfig)

include sameMint

theorem processOutput_same (same : SameTables left right) (outpoint : OutPoint)
    (output : Output) :
    Parallel SameNext (processOutput server left outpoint output)
      (processOutput other right outpoint output) := by
  cases output with
  | ecash output => exact (ecash_processOutput_same same output outpoint).mapError _
  | onchain output =>
      unfold processOutput
      rw [sameMint]
      exact (onchain_processOutput_same same output outpoint).mapError _
  | lightning output =>
      unfold processOutput
      rw [sameMint]
      exact (lightning_processOutput_same same outpoint output).mapError _

/-- What two nodes carry through the loops over inputs and outputs. -/
def SameProgress (left right : Progress curve) : Prop :=
  SameTables left.ledger right.ledger ∧ left.verifier = right.verifier ∧
    left.publicKeys = right.publicKeys

omit sameMint in
theorem inputStep_same {mint : MintConfig curve} (left right : Progress curve) (input : Input)
    (same : SameProgress left right) :
    Parallel SameProgress (inputStep mint left input) (inputStep mint right input) := by
  obtain ⟨sameLedger, sameVerifier, sameKeys⟩ := same
  unfold inputStep
  refine ((processInput_same sameLedger input).mapError _).bind ?_
  rintro ⟨⟨amount, key⟩, leftLedger⟩ ⟨⟨_, _⟩, rightLedger⟩ ⟨sameResult, sameNext⟩
  cases sameResult
  simp only
  rw [sameVerifier, sameKeys]
  refine .bindSame _ (fun verifier => ?_)
  exact .ok ⟨sameNext, rfl, rfl⟩

theorem outputStep_same (txid : TransactionId) (left right : Progress curve)
    (entry : Output × Nat) (same : SameProgress left right) :
    Parallel SameProgress (outputStep server txid left entry)
      (outputStep other txid right entry) := by
  obtain ⟨sameLedger, sameVerifier, sameKeys⟩ := same
  unfold outputStep
  refine ((processOutput_same sameMint sameLedger _ entry.1).mapError _).bind ?_
  rintro ⟨amount, leftLedger⟩ ⟨_, rightLedger⟩ ⟨sameResult, sameNext⟩
  cases sameResult
  simp only
  rw [sameVerifier]
  refine .bindSame _ (fun verifier => ?_)
  exact .ok ⟨sameNext, rfl, sameKeys⟩

theorem processTx_same (same : SameTables left right) (tx : Transaction) :
    Parallel SameTables (processTx server left tx) (processTx other right tx) := by
  have start : SameProgress
      { ledger := left, verifier := FundingVerifier.default, publicKeys := [] }
      { ledger := right, verifier := FundingVerifier.default, publicKeys := [] } :=
    ⟨same, rfl, rfl⟩
  unfold processTx
  rw [sameMint]
  refine .bindSame _ (fun _ => ?_)
  refine (Parallel.foldlM inputStep_same tx.inputs start).bind
    (fun leftProgress rightProgress sameProgress => ?_)
  rw [sameProgress.2.2]
  refine .bindSame _ (fun _ => ?_)
  refine (Parallel.foldlM (outputStep_same sameMint _) tx.outputs.zipIdx sameProgress).bind
    (fun leftProgress rightProgress sameProgress => ?_)
  rw [sameProgress.2.1]
  refine .bindSame _ (fun _ => ?_)
  exact .ok sameProgress.1

theorem processTxItem_same (same : SameTables left right) (tx : Transaction) :
    Parallel SameTables (processTxItem server left tx) (processTxItem other right tx) := by
  have judged := processTx_same sameMint same tx
  unfold processTxItem
  rw [sameMint]
  obtain ⟨⟨shares, restore, rfl⟩, shareKeys, restoreKeys⟩ := same
  refine .bindSame _ (fun _ => ?_)
  refine (judged.mapError _).bind (fun leftLedger rightLedger sameLedger => ?_)
  obtain ⟨⟨shares, restore, rfl⟩, shareKeys, restoreKeys⟩ := sameLedger
  exact .ok ⟨⟨_, _, rfl⟩, shareKeys, restoreKeys⟩

theorem processConsensusItem_same (same : SameTables left right) (node : NodeId)
    (item : ConsensusItem curve) :
    Parallel SameTables (processConsensusItem server left node item)
      (processConsensusItem other right node item) := by
  cases item with
  | tx tx => exact processTxItem_same sameMint same tx
  | onchain item =>
      unfold processConsensusItem
      rw [sameMint]
      exact onchain_processConsensusItem_same same node item
  | blockHeight vote =>
      unfold processConsensusItem
      rw [sameMint]
      exact processBlockHeight_same same node vote
  | version vote =>
      unfold processConsensusItem
      rw [sameMint]
      exact processVersion_same same node vote

def SameHistory (left right : History curve) : Prop :=
  SameTables left.ledger right.ledger ∧
    left.accepted.map Prod.snd = right.accepted.map Prod.snd

theorem History.step_same {left right next : History curve} (same : SameHistory left right)
    {entry : NodeId × ConsensusItem curve} (stepped : History.step server left entry = some next) :
    ∃ reached, History.step other right entry = some reached ∧ SameHistory next reached := by
  have outcomes := processConsensusItem_same sameMint same.1 entry.1 entry.2
  unfold History.step at stepped ⊢
  cases leftCase : processConsensusItem server left.ledger entry.1 entry.2 with
  | error fault =>
      rw [leftCase] at outcomes stepped
      generalize processConsensusItem other right.ledger entry.1 entry.2 = outcome at outcomes
      cases outcomes
      cases fault with
      | error error =>
          cases stepped
          exact ⟨right, rfl, same⟩
      | panic panic => cases stepped
  | ok ledger =>
      rw [leftCase] at outcomes stepped
      generalize processConsensusItem other right.ledger entry.1 entry.2 = outcome at outcomes
      cases outcomes with
      | ok sameLedger =>
          cases stepped
          refine ⟨_, rfl, sameLedger, ?_⟩
          cases entry.2 with
          | tx tx => simp only [List.map_append, same.2, List.map_singleton]
          | onchain item => exact same.2
          | blockHeight vote => exact same.2
          | version vote => exact same.2

theorem History.run_same {left right next : History curve} (same : SameHistory left right)
    {items : List (NodeId × ConsensusItem curve)}
    (ran : History.run server left items = some next) :
    ∃ reached, History.run other right items = some reached ∧ SameHistory next reached := by
  induction items generalizing left right with
  | nil =>
      cases ran
      exact ⟨right, rfl, same⟩
  | cons entry rest inductionHypothesis =>
      unfold History.run at ran ⊢
      rw [List.foldlM_cons, Option.bind_eq_bind, Option.bind_eq_some_iff] at ran
      obtain ⟨middle, stepped, following⟩ := ran
      obtain ⟨middle', stepped', sameMiddle⟩ := History.step_same sameMint same stepped
      obtain ⟨reached, ran', sameReached⟩ := inductionHypothesis sameMiddle following
      refine ⟨reached, ?_, sameReached⟩
      rw [List.foldlM_cons, stepped']
      exact ran'

end

end Picomint.Consensus
