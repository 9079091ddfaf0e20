/-
The signing sessions of a run: what their shares aggregate to, and that they
neither get stuck nor go on forever.
-/

import Picomint.Consensus.Finalizing
import Picomint.Consensus.Solvency
import Picomint.Consensus.Panics

namespace Picomint.Consensus

open Tss ChunkLog Polynomial

variable {curve : Curve}

namespace Onchain

variable {mint : MintConfig curve} {ledger : Ledger curve} {ε : Type}

/-! ### The assertion on aggregated signatures -/

/-- The shares that pass the checks are accepted, so the assertion after them
holds. -/
theorem processSignatureShares_asserts {secret : curve.Scalar[X]}
    (shared : SharedSecret mint secret) (sound : LogSound mint ledger) {node : NodeId}
    {txid : Txid} {shares : List (SignatureShare curve)} {freshNonces : List (PublicNonce curve)}
    (regular : ∀ unsigned latest msgs,
      SharesChecked mint ledger node txid shares freshNonces unsigned latest msgs →
        SessionRegular mint ledger unsigned latest msgs shares) :
    Avoids .aggregatedSignature
      (processSignatureShares mint ledger node txid shares freshNonces) := by
  intro panicked
  refine processSignatureShares_avoids (by constructor <;> decide) node txid shares freshNonces ?_
    panicked
  intro unsigned latest msgs checked
  -- from here on the whole function is known to accept
  obtain ⟨after, accepted⟩ := processSignatureShares_accepts shared sound checked
    (regular unsigned latest msgs checked)
  rw [panicked] at accepted
  cases accepted

/-! ### Proposals -/

end Onchain

/-! ### The items of a run -/

/-- The item with the shares that was accepted for the node's entry. -/
def PostedBy (server : Server curve) (items : List (NodeId × ConsensusItem curve)) (index : Nat)
    (node : NodeId) (shares : List (SignatureShare curve)) : Prop :=
  ∃ before rest txid freshNonces history,
    items = before ++ (node, .onchain (.signatureShares txid shares freshNonces)) :: rest ∧
      History.run server History.start before = some history ∧
      Onchain.latestEntry history.ledger.nonceLog node = some index ∧
      history.ledger.signatureShares.contains index = false ∧
      ∃ after, Onchain.processSignatureShares server.toMintConfig history.ledger node txid shares
        freshNonces = .ok after

theorem PostedBy.append {server : Server curve} {items : List (NodeId × ConsensusItem curve)}
    {index : Nat} {node : NodeId} {shares : List (SignatureShare curve)}
    (posted : PostedBy server items index node shares)
    (entry : NodeId × ConsensusItem curve) :
    PostedBy server (items ++ [entry]) index node shares := by
  obtain ⟨before, rest, txid, freshNonces, history, split, reached⟩ := posted
  refine ⟨before, rest ++ [entry], txid, freshNonces, history, ?_, reached⟩
  rw [split, List.append_assoc, List.cons_append]

section Runs

variable {server : Server curve} {ledger after : Ledger curve}

/-- The tables of the signing log. -/
structure SameLog (ledger after : Ledger curve) : Prop where
  nonceLog : after.nonceLog = ledger.nonceLog
  signatureShares : after.signatureShares = ledger.signatureShares

theorem processTxItem_sameLog {tx : Transaction}
    (processed : processTxItem server ledger tx = .ok after) : SameLog ledger after := by
  have kept := processTxItem_beyond processed
  exact ⟨kept.nonceLog, kept.signatureShares⟩

/-- Only the two signing items change the log. -/
theorem processConsensusItem_log {node : NodeId} {item : ConsensusItem curve}
    (processed : processConsensusItem server ledger node item = .ok after) :
    SameLog ledger after ∨
      (∃ txid nonces, item = .onchain (.nonces txid nonces) ∧
        Onchain.processNonces server.toMintConfig ledger node txid nonces = .ok after) ∨
      (∃ txid shares nonces, item = .onchain (.signatureShares txid shares nonces) ∧
        Onchain.processSignatureShares server.toMintConfig ledger node txid shares nonces =
          .ok after) := by
  cases item with
  | tx tx => exact Or.inl (processTxItem_sameLog processed)
  | blockHeight vote =>
      obtain ⟨height, result⟩ := processBlockHeight_ok processed
      subst result
      exact Or.inl ⟨rfl, rfl⟩
  | version vote =>
      have result := processVersion_ok processed
      subst result
      exact Or.inl ⟨rfl, rfl⟩
  | onchain item =>
      cases item with
      | block vote =>
          left
          obtain ⟨_, _, result | result⟩ := Onchain.processBlock_ok processed
          · subst result
            exact ⟨rfl, rfl⟩
          · obtain ⟨output, unconfirmed, tracked⟩ := Onchain.trackTx_frame vote.txs
              ({ ledger with blockVote := ledger.blockVote.insert node vote },
                nextIndex ledger.output)
            rw [tracked] at result
            subst result
            exact ⟨rfl, rfl⟩
      | feerate vote =>
          have result := Onchain.processFeerate_ok processed
          subst result
          exact Or.inl ⟨rfl, rfl⟩
      | nonces txid nonces =>
          exact Or.inr (Or.inl ⟨txid, nonces, rfl, mapError_eq_ok.mp processed⟩)
      | signatureShares txid shares nonces =>
          exact Or.inr (Or.inr ⟨txid, shares, nonces, rfl, mapError_eq_ok.mp processed⟩)

/-- A share verifies for its signer, verified shares of a signing set aggregate
to a valid signature, and the node's assertion on the aggregate never fails. -/
theorem threshold_signatures (curve : Curve) :
    (∀ (msg identity : Nat) (tweak : curve.Scalar) (sks tweakedSks : SecretKey curve)
      (nonce : SecretNonce curve) (nonces : SortedMap Nat (PublicNonce curve))
      (tweakedPks pk : PublicKey curve) (share : SignatureShare curve),
      nonces.get? identity = some (derivePublicNonce nonce) →
      sks.addTweak tweak = some tweakedSks →
      (derivePkShare sks).addExpTweak tweak = some tweakedPks →
      signShare msg tweakedSks nonce nonces identity pk = some share →
      verifySignatureShare msg identity tweakedPks share nonces pk = some true) ∧
    (∀ (signers : SigningSet curve) (msg : Nat) (nonces : SortedMap Nat (PublicNonce curve))
      (shares : SortedMap Nat (SignatureShare curve)), nonces.keys = signers.ids →
      shares.keys = signers.ids →
      (∀ id share, shares.get? id = some share →
        verifySignatureShare msg id (signers.pks id) share nonces signers.pk = some true) →
      SigningSet.GroupNonceFinite msg nonces signers.pk →
      SigningSet.PartialSumsNonzero shares →
      ∃ signature, aggregateSignatureShares msg nonces shares signers.pk = some signature ∧
        verify msg signature signers.pk = true) ∧
    (∀ (server : Server curve) (secret : curve.Scalar[X])
      (items : List (NodeId × ConsensusItem curve)) (history : History curve) (node : NodeId)
      (txid : Txid) (shares : List (SignatureShare curve)) (freshNonces : List (PublicNonce curve)),
      Onchain.SharedSecret server.toMintConfig secret →
      (∀ entry ∈ items, entry.1 ∈ server.n.nodeIds) →
      History.run server History.start items = some history →
      (∀ unsigned latest msgs, Onchain.SharesChecked server.toMintConfig history.ledger node txid
          shares freshNonces unsigned latest msgs →
        Onchain.SessionRegular server.toMintConfig history.ledger unsigned latest msgs shares) →
      Avoids .aggregatedSignature (Onchain.processSignatureShares server.toMintConfig
        history.ledger node txid shares freshNonces) ∧
      ∀ unsigned latest msgs, Onchain.SharesChecked server.toMintConfig history.ledger node txid
          shares freshNonces unsigned latest msgs →
        ∃ after, Onchain.processSignatureShares server.toMintConfig history.ledger node txid shares
          freshNonces = .ok after) := by
  refine ⟨?_, ?_, ?_⟩
  · intro msg identity tweak sks tweakedSks nonce nonces tweakedPks pk share member tweaked
      tweakedKey signed
    have same : tweakedPks = derivePkShare tweakedSks :=
      Option.some.inj (tweakedKey.symm.trans (publicKey_addExpTweak tweaked))
    rw [same]
    exact signShare_verifies member signed
  · intro signers msg nonces shares nonceIds shareIds verified finite sums
    exact signers.aggregate_verifies nonceIds shareIds verified finite sums
  · intro server secret items history node txid shares freshNonces shared members ran regular
    have sound := History.run_logSound members ran
    constructor
    · exact Onchain.processSignatureShares_asserts shared sound regular
    · intro unsigned latest msgs checked
      exact Onchain.processSignatureShares_accepts shared sound checked
        (regular unsigned latest msgs checked)

end Runs

/-! Two deposits are claimed, and three nodes sign the sweep of the second. -/

theorem sample_pks_nodes : sampleServer.pks.keys = sampleServer.n.nodeIds :=
  sampleServer.pks_nodes

theorem sample_denominations : sampleServer.tbsAggPks.keys = CONSENSUS_DENOMINATIONS :=
  sampleServer.tbsAggPks_denominations

def sampleNode (identity : NodeId) : Server scalarCurve := { sampleServer with identity }

def sampleSweep : Transaction :=
  { inputs := [.onchain { outputIndex := 1, tweak := 5, fee := 10000 }]
    outputs :=
      [.ecash { denomination := 20, nonce := 2 }, .ecash { denomination := 20, nonce := 3 }]
    signatures := [0] }

def sampleTwoDeposits : BlockVote :=
  { height := 1
    txs :=
      [{ txid := 7
         outputs :=
           [(0, { value := 50000, scriptPubkey := 6 }),
             (1, { value := 50000, scriptPubkey := 6 })] }] }

def sampleUnsigned : List (NodeId × ConsensusItem scalarCurve) :=
  sampleVotes (.blockHeight 1) ++ sampleVotes (.onchain (.block sampleTwoDeposits)) ++
    sampleVotes (.onchain (.feerate (some 1000))) ++ [(0, .tx sampleClaim), (0, .tx sampleSweep)]

def sampleHistory (items : List (NodeId × ConsensusItem scalarCurve)) : History scalarCurve :=
  (History.run sampleServer History.start items).getD History.start

/-- The node's proposal after the items, appended to them. -/
def sampleProposal (items : List (NodeId × ConsensusItem scalarCurve)) (node : NodeId) :
    List (NodeId × ConsensusItem scalarCurve) :=
  match (Onchain.signingSessionProposal (sampleNode node) (sampleHistory items).ledger :
    Outcome Onchain.SigningError _) with
  | .ok (some item) => items ++ [(node, .onchain item)]
  | _ => items

def sampleEntered : List (NodeId × ConsensusItem scalarCurve) :=
  [0, 1, 2].foldl sampleProposal sampleUnsigned

theorem sample_ran {items : List (NodeId × ConsensusItem scalarCurve)}
    (ran : (History.run sampleServer History.start items).isSome = true) :
    History.run sampleServer History.start items = some (sampleHistory items) := by
  obtain ⟨history, reached⟩ := Option.isSome_iff_exists.mp ran
  rw [sampleHistory, reached, Option.getD_some]

theorem sample_shared :
    Onchain.SharedSecret sampleServer.toMintConfig (C (1 : scalarCurve.Scalar)) where
  degree := lt_of_le_of_lt degree_C_le (by decide)
  share := by
    intro node key found
    have member := (SortedMap.mem_rows _ node key).mpr found
    have all : ∀ row ∈ sampleServer.pks.rows, row.2.point = scalarCurve.generator := by
      decide +kernel
    rw [eval_C]
    exact (all _ member).trans (one_smul _ _).symm
  aggregate := by
    rw [eval_C]
    rfl

def sampleUnsignedTx : MintTx scalarCurve :=
  (sampleHistory sampleUnsigned).ledger.unsignedTx.getD
    { tx := { input := [], output := [] }, spentTxOuts := [], vbytes := 0, fee := 0 }

def sampleShares (items : List (NodeId × ConsensusItem scalarCurve)) (node : NodeId) :
    List (SignatureShare scalarCurve) :=
  match (Onchain.signTx (sampleNode node) sampleUnsignedTx [0, 1]
    (Onchain.deriveSecretNonces (sampleNode node)
      (Onchain.computeTxid sampleServer.toMintConfig sampleUnsignedTx.tx) 0 2)
    (Onchain.sessionChunk sampleServer.toMintConfig (sampleHistory items).ledger.nonceLog node) :
    Outcome Onchain.SigningError _) with
  | .ok shares => shares
  | .error _ => []

def sampleNonce : SecretNonce scalarCurve := { first := ScalarCurve.one, second := ScalarCurve.one }

def sampleNonces : SortedMap Nat (PublicNonce scalarCurve) :=
  SortedMap.ofList ((List.range 3).map (fun id => (id, derivePublicNonce sampleNonce)))

def sampleKey : SecretKey scalarCurve :=
  ⟨((3 : Nat) : scalarCurve.Scalar), by decide +kernel⟩

def sampleShare (id : Nat) : SignatureShare scalarCurve :=
  (signShare 9 sampleKey sampleNonce sampleNonces id sampleKey.publicKey).getD ⟨sampleKey⟩

noncomputable def sampleSigners : SigningSet scalarCurve where
  ids := [0, 1, 2]
  distinct := by decide
  nonempty := by decide
  secret := C (1 : scalarCurve.Scalar)
  degree := lt_of_le_of_lt degree_C_le (by decide)
  tweak := ((2 : Nat) : scalarCurve.Scalar)
  pks := fun _ => sampleKey.publicKey
  pk := sampleKey.publicKey
  share := by
    intro id _
    rw [eval_C]
    decide +kernel
  aggregate := by
    rw [eval_C]
    decide +kernel

def sampleColumn : SortedMap Nat (SignatureShare scalarCurve) :=
  SortedMap.ofList ((List.range 3).map (fun id => (id, sampleShare id)))

/-- All but the last node have posted their shares. -/
def sampleSigning : List (NodeId × ConsensusItem scalarCurve) :=
  [0, 1].foldl sampleProposal sampleEntered

theorem sample_checked :
    Onchain.SharesChecked sampleServer.toMintConfig (sampleHistory sampleSigning).ledger 2
      (Onchain.computeTxid sampleServer.toMintConfig sampleUnsignedTx.tx)
      (sampleShares sampleSigning 2)
      ((Onchain.deriveSecretNonces (sampleNode 2) 0 0 2).map derivePublicNonce)
      sampleUnsignedTx 2 [0, 1] where
  present := by decide +kernel
  sameTx := rfl
  shareCount := by decide +kernel
  nonceCount := by decide +kernel
  entered := by decide +kernel
  complete := by decide +kernel
  messages := by decide +kernel
  verified := by decide +kernel
  unposted := by decide +kernel

theorem threshold_signatures_sample :
    verifySignatureShare 9 0 sampleKey.publicKey (sampleShare 0) sampleNonces
        sampleKey.publicKey = some true ∧
      (∃ signature, aggregateSignatureShares 9 sampleNonces sampleColumn sampleKey.publicKey =
        some signature ∧ verify 9 signature sampleKey.publicKey = true) ∧
      ∃ after, Onchain.processSignatureShares sampleServer.toMintConfig
        (sampleHistory sampleSigning).ledger 2
        (Onchain.computeTxid sampleServer.toMintConfig sampleUnsignedTx.tx)
        (sampleShares sampleSigning 2)
        ((Onchain.deriveSecretNonces (sampleNode 2) 0 0 2).map derivePublicNonce) =
          .ok after := by
  obtain ⟨shares, aggregates, accepts⟩ := threshold_signatures scalarCurve
  refine ⟨?_, ?_, ?_⟩
  · exact shares 9 0 2 ScalarCurve.one sampleKey sampleNonce sampleNonces sampleKey.publicKey
      sampleKey.publicKey (sampleShare 0) (by decide +kernel) (by decide +kernel)
      (by decide +kernel) (by decide +kernel)
  · apply aggregates sampleSigners 9 sampleNonces sampleColumn (by decide +kernel)
      (by decide +kernel) _ (by decide +kernel) (by decide +kernel)
    intro id share found
    have all : ∀ row ∈ sampleColumn.rows, verifySignatureShare 9 row.1 sampleKey.publicKey row.2
        sampleNonces sampleKey.publicKey = some true := by
      decide +kernel
    exact all (id, share) ((SortedMap.mem_rows _ id share).mpr found)
  · apply (accepts sampleServer _ sampleSigning (sampleHistory sampleSigning) 2 _ _ _ sample_shared
      (by decide +kernel) (sample_ran (by decide +kernel)) _).2 _ _ _ sample_checked
    intro unsigned latest msgs checked
    cases sample_checked.present.symm.trans checked.present
    cases sample_checked.entered.symm.trans checked.entered
    cases sample_checked.messages.symm.trans checked.messages
    decide +kernel

end Picomint.Consensus
