/-
The processing of consensus items, and the item sequences it runs through.
-/

import Picomint.Consensus.Server
import Picomint.Consensus.Signing

namespace Picomint.Consensus

open Tss

variable {curve : Curve}

/-- Why an item was rejected. -/
inductive ItemError where
  | alreadyAccepted
  | tx (error : TxError)
  | blockHeightMismatch
  | alreadyVoted
  | redundantFeerate
  | signing (error : Onchain.SigningError)
  | redundantHeight
  | redundantVersion
deriving DecidableEq, Repr

namespace Onchain

/-- Track one output of a block under the running index. -/
def trackOutput (txid : Txid) (state : Ledger curve × Nat) (entry : Nat × TxOut) :
    Ledger curve × Nat :=
  ({ state.1 with
      output := state.1.output.insert state.2
        { outpoint := { txid, vout := entry.1 }, out := entry.2 } },
    state.2 + 1)

/-- Drop the mint transaction a block confirms and track its outputs. -/
def trackTx (state : Ledger curve × Nat) (tx : BlockTx) : Ledger curve × Nat :=
  tx.outputs.foldl (trackOutput tx.txid)
    ({ state.1 with unconfirmedTx := state.1.unconfirmedTx.erase tx.txid }, state.2)

def processBlock (mint : MintConfig curve) (ledger : Ledger curve) (node : NodeId)
    (vote : BlockVote) : Outcome ItemError (Ledger curve) := do
  ensure (some vote.height = ledger.blockHeight) .blockHeightMismatch
  ensure (!ledger.blockVote.contains node) .alreadyVoted
  let ledger := { ledger with blockVote := ledger.blockVote.insert node vote }
  let votes := (ledger.blockVote.values.filter (fun other => other = vote)).length
  if threshold mint ≤ votes then
    let ledger := (vote.txs.foldl trackTx (ledger, nextIndex ledger.output)).1
    return { ledger with
      blockHeight := some (vote.height + 1)
      blockVote := SortedMap.empty }
  else return ledger

def processFeerate (ledger : Ledger curve) (node : NodeId) (feerate : Option Nat) :
    Outcome ItemError (Ledger curve) := do
  ensure (some feerate ≠ ledger.feeRateVote.get? node) .redundantFeerate
  return { ledger with feeRateVote := ledger.feeRateVote.insert node feerate }

def processConsensusItem (mint : MintConfig curve) (ledger : Ledger curve) (node : NodeId) :
    OnchainConsensusItem curve → Outcome ItemError (Ledger curve)
  | .block vote => processBlock mint ledger node vote
  | .feerate feerate => processFeerate ledger node feerate
  | .nonces txid nonces =>
      mapError .signing (processNonces mint ledger node txid nonces)
  | .signatureShares txid shares nonces =>
      mapError .signing (processSignatureShares mint ledger node txid shares nonces)

/-- The first nonzero consensus height is where tracking starts. -/
def initializeBlockHeight (ledger : Ledger curve) (oldHeight newHeight : Nat) : Ledger curve :=
  if oldHeight = 0 then { ledger with blockHeight := some newHeight } else ledger

end Onchain

def processBlockHeight (mint : MintConfig curve) (ledger : Ledger curve) (node : NodeId)
    (vote : Nat) : Outcome ItemError (Ledger curve) := do
  let oldHeight ← consensusBlockHeight mint ledger
  let currentVote := (ledger.blockHeightVote.get? node).getD 0
  let ledger := { ledger with blockHeightVote := ledger.blockHeightVote.insert node vote }
  ensure (currentVote < vote) .redundantHeight
  let newHeight ← consensusBlockHeight mint ledger
  assert (oldHeight ≤ newHeight) .heightDecreased
  return if newHeight = oldHeight then ledger
    else Onchain.initializeBlockHeight ledger oldHeight newHeight

def processVersion (mint : MintConfig curve) (ledger : Ledger curve) (node : NodeId)
    (vote : ConsensusVersion) : Outcome ItemError (Ledger curve) := do
  let currentVote := (ledger.consensusVersionVote.get? node).getD mint.defaultVersion
  let ledger := { ledger with
    consensusVersionVote := ledger.consensusVersionVote.insert node vote }
  ensure (currentVote < vote) .redundantVersion
  assert (consensusVersion mint ledger ≤ CONSENSUS_VERSION) .unsupportedVersion
  return ledger

/-- A transaction is judged unless its id is already accepted. -/
def processTxItem (server : Server curve) (ledger : Ledger curve) (tx : Transaction) :
    Outcome ItemError (Ledger curve) := do
  let txid := computeTxid server.toMintConfig tx
  ensure (!ledger.acceptedTxid.contains txid) .alreadyAccepted
  let ledger ← mapError .tx (processTx server ledger tx)
  return { ledger with acceptedTxid := ledger.acceptedTxid.insert txid ⟨⟩ }

def processConsensusItem (server : Server curve) (ledger : Ledger curve) (node : NodeId) :
    ConsensusItem curve → Outcome ItemError (Ledger curve)
  | .tx tx => processTxItem server ledger tx
  | .onchain item => Onchain.processConsensusItem server.toMintConfig ledger node item
  | .blockHeight vote => processBlockHeight server.toMintConfig ledger node vote
  | .version vote => processVersion server.toMintConfig ledger node vote

/-! ### What an accepted item did -/

section Inversion

variable {server : Server curve} {mint : MintConfig curve} {ledger after : Ledger curve}
  {node : NodeId}

theorem Onchain.trackTx_frame (txs : List BlockTx) (state : Ledger curve × Nat) :
    ∃ output unconfirmed, (txs.foldl Onchain.trackTx state).1 =
      { state.1 with output := output, unconfirmedTx := unconfirmed } := by
  have outputs : ∀ (txid : Txid) (entries : List (Nat × TxOut)) (state : Ledger curve × Nat),
      ∃ output, (entries.foldl (Onchain.trackOutput txid) state).1 =
        { state.1 with output := output } := by
    intro txid entries
    induction entries with
    | nil => exact fun state => ⟨state.1.output, rfl⟩
    | cons entry rest inductionHypothesis =>
        intro state
        obtain ⟨output, same⟩ := inductionHypothesis (Onchain.trackOutput txid state entry)
        exact ⟨output, same⟩
  induction txs generalizing state with
  | nil => exact ⟨state.1.output, state.1.unconfirmedTx, rfl⟩
  | cons tx rest inductionHypothesis =>
      obtain ⟨output, unconfirmed, same⟩ := inductionHypothesis (Onchain.trackTx state tx)
      obtain ⟨tracked, first⟩ := outputs tx.txid tx.outputs
        ({ state.1 with unconfirmedTx := state.1.unconfirmedTx.erase tx.txid }, state.2)
      refine ⟨output, unconfirmed, ?_⟩
      rw [List.foldl_cons, same, Onchain.trackTx, first]

theorem Onchain.processBlock_ok {vote : BlockVote}
    (processed : Onchain.processBlock mint ledger node vote = .ok after) :
    some vote.height = ledger.blockHeight ∧ ledger.blockVote.contains node = false ∧
      (after = { ledger with blockVote := ledger.blockVote.insert node vote } ∨
        after = { (vote.txs.foldl Onchain.trackTx
            ({ ledger with blockVote := ledger.blockVote.insert node vote },
              nextIndex ledger.output)).1 with
          blockHeight := some (vote.height + 1)
          blockVote := SortedMap.empty }) := by
  unfold Onchain.processBlock at processed
  simp only [bind_eq_ok, ensure_eq_ok, decide_eq_true_eq, Bool.not_eq_true'] at processed
  obtain ⟨_, height, _, unvoted, result⟩ := processed
  refine ⟨height, unvoted, ?_⟩
  split at result
  · cases result
    exact Or.inr rfl
  · cases result
    exact Or.inl rfl

theorem Onchain.processFeerate_ok {feerate : Option Nat}
    (processed : Onchain.processFeerate ledger node feerate = .ok after) :
    after = { ledger with feeRateVote := ledger.feeRateVote.insert node feerate } := by
  unfold Onchain.processFeerate at processed
  simp only [bind_eq_ok] at processed
  obtain ⟨_, _, result⟩ := processed
  cases result
  rfl

theorem processBlockHeight_ok {vote : Nat}
    (processed : processBlockHeight mint ledger node vote = .ok after) :
    ∃ height, after = { ledger with
      blockHeightVote := ledger.blockHeightVote.insert node vote
      blockHeight := height } := by
  unfold processBlockHeight at processed
  simp only [bind_eq_ok] at processed
  obtain ⟨_, _, _, _, _, _, _, _, result⟩ := processed
  cases result
  split
  · exact ⟨_, rfl⟩
  · unfold Onchain.initializeBlockHeight
    split
    · exact ⟨_, rfl⟩
    · exact ⟨_, rfl⟩

theorem processVersion_ok {vote : ConsensusVersion}
    (processed : processVersion mint ledger node vote = .ok after) :
    after = { ledger with
      consensusVersionVote := ledger.consensusVersionVote.insert node vote } := by
  unfold processVersion at processed
  simp only [bind_eq_ok] at processed
  obtain ⟨_, _, _, _, result⟩ := processed
  cases result
  rfl

/-- The tables that only transactions change. -/
structure SameAccounts (ledger after : Ledger curve) : Prop where
  acceptedTxid : after.acceptedTxid = ledger.acceptedTxid
  noteNonce : after.noteNonce = ledger.noteNonce
  blindedNonce : after.blindedNonce = ledger.blindedNonce
  blindedSignatureShare : after.blindedSignatureShare = ledger.blindedSignatureShare
  incomingContract : after.incomingContract = ledger.incomingContract
  outgoingContract : after.outgoingContract = ledger.outgoingContract
  incomingContractIndex : after.incomingContractIndex = ledger.incomingContractIndex
  incomingContractStream : after.incomingContractStream = ledger.incomingContractStream
  streamNextIndex : after.incomingContractStreamNextIndex = ledger.incomingContractStreamNextIndex
  spentOutputIndex : after.spentOutputIndex = ledger.spentOutputIndex
  mintUtxo : after.mintUtxo = ledger.mintUtxo
  txInfo : after.txInfo = ledger.txInfo

theorem processConsensusItem_sameAccounts {item : ConsensusItem curve}
    (processed : processConsensusItem server ledger node item = .ok after)
    (notTx : ∀ tx, item ≠ .tx tx) : SameAccounts ledger after := by
  cases item with
  | tx tx => exact absurd rfl (notTx tx)
  | blockHeight vote =>
      obtain ⟨height, result⟩ := processBlockHeight_ok processed
      subst result
      constructor <;> rfl
  | version vote =>
      have result := processVersion_ok processed
      subst result
      constructor <;> rfl
  | onchain item =>
      cases item with
      | block vote =>
          obtain ⟨_, _, result | result⟩ := Onchain.processBlock_ok processed
          · subst result
            constructor <;> rfl
          · obtain ⟨output, unconfirmed, tracked⟩ := Onchain.trackTx_frame vote.txs
              ({ ledger with blockVote := ledger.blockVote.insert node vote },
                nextIndex ledger.output)
            rw [tracked] at result
            subst result
            constructor <;> rfl
      | feerate vote =>
          have result := Onchain.processFeerate_ok processed
          subst result
          constructor <;> rfl
      | nonces txid nonces =>
          obtain ⟨_, _, _, _, _, result⟩ :=
            Onchain.processNonces_ok (mapError_eq_ok.mp processed)
          subst result
          constructor <;> rfl
      | signatureShares txid shares nonces =>
          obtain ⟨_, _, _, _, ⟨_, result⟩ | ⟨_, _, _, result⟩⟩ :=
            Onchain.processSignatureShares_ok (mapError_eq_ok.mp processed)
          · subst result
            constructor <;> rfl
          · subst result
            constructor <;> rfl

end Inversion

end Picomint.Consensus
