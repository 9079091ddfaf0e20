/-
The signing of the unsigned mint transaction.

Consecutive chunks of threshold entries of the nonce log form the signing
sessions.  A node that posts the shares of its latest entry's session appends
a fresh entry in the same step; once a whole chunk has signed, the
transaction is finalized and the log is cleared.
-/

import Picomint.Consensus.Onchain

namespace Picomint.Consensus.Onchain

open Tss

variable {curve : Curve} {ε : Type}

inductive SigningError where
  | noUnsignedTx
  | txidMismatch
  | nonceCount
  | redundantNonces
  | shareCount
  | replacementNonceCount
  | noNonceEntry
  | sessionForming
  | invalidShare
  | sharesReceived
deriving DecidableEq, Repr

def threshold (mint : MintConfig curve) : Nat := mint.n.threshold

/-! ### Keys, nonces and messages -/

def tweakedSks (server : Server curve) (tweak : Hash) : Outcome ε (SecretKey curve) := do
  let scalar ← tweakScalar curve tweak
  expect (server.sks.addTweak scalar) .tweak

def tweakedPks (mint : MintConfig curve) (node : NodeId) (tweak : Hash) :
    Outcome ε (PublicKey curve) := do
  let pks ← expect (mint.pks.get? node) .publicKeyShare
  tweakPublicKey pks tweak

def tweakedAggPk (mint : MintConfig curve) (tweak : Hash) : Outcome ε (PublicKey curve) :=
  tweakPublicKey mint.aggPk tweak

/-- The seed of one input's nonce pair; generation `n` is the node's `n`-th
entry in the log of the transaction. -/
def nonceSeed (server : Server curve) (txid : Txid) (generation input : Nat) : Nat :=
  server.secretBytes (server.secretChild
    (server.secretChild (server.secretChildTxid (server.secretRoot server.sks) txid) generation)
    input)

def deriveSecretNonces (server : Server curve) (txid : Txid) (generation inputs : Nat) :
    List (SecretNonce curve) :=
  (List.range inputs).map (fun input => server.deriveNonce (nonceSeed server txid generation input))

/-- The nonces of a signing session for one input, keyed by signer. -/
def nonceColumn (chunk : List (NonceEntry curve)) (index : Nat) :
    Outcome ε (SortedMap Nat (PublicNonce curve)) := do
  let column ← chunk.mapM (fun entry => do
    let nonce ← expect entry.nonces[index]? .missingNonce
    return (entry.node, nonce))
  return SortedMap.ofList column

/-- The sighash of every input of the transaction. -/
def sighashes (mint : MintConfig curve) (unsignedTx : MintTx curve) : Outcome ε (List Hash) := do
  let prevouts ← unsignedTx.spentTxOuts.mapM (fun utxo => do
    let script ← scriptPubkey mint utxo.tweak
    return ({ value := utxo.value, scriptPubkey := script } : TxOut))
  let outpoints := unsignedTx.tx.input.map TxIn.previousOutput
  (List.range unsignedTx.spentTxOuts.length).mapM (fun index =>
    expect
      (if prevouts.length = outpoints.length then
        some (mint.btcSighash outpoints unsignedTx.tx.output prevouts index)
      else none)
      .spentTxOuts)

/-! ### Proposals -/

def signInput (server : Server curve) (chunk : List (NonceEntry curve)) (index : Nat)
    (utxo : SpentTxOut) (msg : Hash) (nonce : SecretNonce curve) :
    Outcome ε (SignatureShare curve) := do
  let sks ← tweakedSks server utxo.tweak
  let column ← nonceColumn chunk index
  let aggPk ← tweakedAggPk server.toMintConfig utxo.tweak
  expect (signShare msg sks nonce column server.identity aggPk) .tss

def signTx (server : Server curve) (unsignedTx : MintTx curve) (sighashes : List Hash)
    (secretNonces : List (SecretNonce curve)) (chunk : List (NonceEntry curve)) :
    Outcome ε (List (SignatureShare curve)) :=
  ((unsignedTx.spentTxOuts.zip sighashes).zip secretNonces).zipIdx.mapM (fun entry =>
    signInput server chunk entry.2 entry.1.1.1 entry.1.1.2 entry.1.2)

def latestEntry (log : SortedMap Nat (NonceEntry curve)) (node : NodeId) : Option Nat :=
  (log.rows.reverse.find? (fun row => row.2.node = node)).map Prod.fst

/-- How many entries of the log are the node's. -/
def entryCount (log : SortedMap Nat (NonceEntry curve)) (node : NodeId) : Nat :=
  (log.values.filter (fun entry => entry.node = node)).length

def signingSessionProposal (server : Server curve) (ledger : Ledger curve) :
    Outcome ε (Option (OnchainConsensusItem curve)) :=
  match ledger.unsignedTx with
  | none => .ok none
  | some unsignedTx =>
      let txid := computeTxid server.toMintConfig unsignedTx.tx
      let inputs := unsignedTx.spentTxOuts.length
      match latestEntry ledger.nonceLog server.identity with
      | none =>
          let nonces := deriveSecretNonces server txid 0 inputs
          .ok (some (.nonces txid (nonces.map derivePublicNonce)))
      | some latest =>
          let session := latest / threshold server.toMintConfig
          let chunk := (ledger.nonceLog.values.drop (session * threshold server.toMintConfig)).take
            (threshold server.toMintConfig)
          if chunk.length < threshold server.toMintConfig then .ok none
          else do
            let sighashes ← sighashes server.toMintConfig unsignedTx
            let generation := entryCount ledger.nonceLog server.identity - 1
            let nonces := deriveSecretNonces server txid generation inputs
            let shares ← signTx server unsignedTx sighashes nonces chunk
            let freshNonces := deriveSecretNonces server txid (generation + 1) inputs
            return some (.signatureShares txid shares (freshNonces.map derivePublicNonce))

/-! ### Items -/

def processNonces (mint : MintConfig curve) (ledger : Ledger curve) (node : NodeId) (txid : Txid)
    (nonces : List (PublicNonce curve)) : Outcome SigningError (Ledger curve) := do
  let unsigned ← okOr ledger.unsignedTx .noUnsignedTx
  ensure (computeTxid mint unsigned.tx = txid) .txidMismatch
  ensure (nonces.length = unsigned.spentTxOuts.length) .nonceCount
  ensure (ledger.nonceLog.values.all (fun entry => entry.node ≠ node)) .redundantNonces
  return { ledger with
    nonceLog := ledger.nonceLog.insert (nextIndex ledger.nonceLog) { node, nonces } }

def verifyInput (mint : MintConfig curve) (node : NodeId) (chunk : List (NonceEntry curve))
    (index : Nat) (utxo : SpentTxOut) (msg : Hash) (share : SignatureShare curve) :
    Outcome ε Bool := do
  let pks ← tweakedPks mint node utxo.tweak
  let column ← nonceColumn chunk index
  let aggPk ← tweakedAggPk mint utxo.tweak
  expect (verifySignatureShare msg node pks share column aggPk) .tss

def finalizeInput (mint : MintConfig curve) (chunk : List (NonceEntry curve))
    (responses : List (List (SignatureShare curve))) (index : Nat) (utxo : SpentTxOut)
    (msg : Hash) : Outcome ε (SchnorrSignature curve) := do
  let shares ← (chunk.zip responses).mapM (fun entry => do
    let share ← expect entry.2[index]? .missingShare
    return (entry.1.node, share))
  let column ← nonceColumn chunk index
  let aggPk ← tweakedAggPk mint utxo.tweak
  let signature ← expect
    (aggregateSignatureShares msg column (SortedMap.ofList shares) aggPk) .tss
  assert (verify msg signature aggPk) .aggregatedSignature
  return signature

def finalizeTx (mint : MintConfig curve) (mintTx : MintTx curve) (sighashes : List Hash)
    (chunk : List (NonceEntry curve)) (responses : List (List (SignatureShare curve))) :
    Outcome ε (MintTx curve) := do
  assert (mintTx.spentTxOuts.length = mintTx.tx.input.length) .spentTxOuts
  let signatures ← (mintTx.spentTxOuts.zip sighashes).zipIdx.mapM (fun entry =>
    finalizeInput mint chunk responses entry.2 entry.1.1 entry.1.2)
  return { mintTx with
    tx := { mintTx.tx with
      input := (mintTx.tx.input.zip signatures).map (fun entry =>
        { entry.1 with witness := some entry.2 }) } }

def verifyShares (mint : MintConfig curve) (node : NodeId) (chunk : List (NonceEntry curve))
    (unsigned : MintTx curve) (sighashes : List Hash) (shares : List (SignatureShare curve)) :
    Outcome SigningError Unit :=
  ((unsigned.spentTxOuts.zip sighashes).zip shares).zipIdx.forM (fun entry => do
    let valid ← verifyInput mint node chunk entry.2 entry.1.1.1 entry.1.1.2 entry.1.2
    ensure valid .invalidShare)

/-- The entries at the indices of the session an entry falls in. -/
def sessionChunk (mint : MintConfig curve) (log : SortedMap Nat (NonceEntry curve)) (latest : Nat) :
    List (NonceEntry curve) :=
  let session := latest / threshold mint
  (log.range (session * threshold mint) ((session + 1) * threshold mint)).map Prod.snd

/-- The shares at the indices of the session an entry falls in. -/
def sessionResponses (mint : MintConfig curve)
    (posted : SortedMap Nat (List (SignatureShare curve))) (latest : Nat) :
    List (List (SignatureShare curve)) :=
  let session := latest / threshold mint
  (posted.range (session * threshold mint) ((session + 1) * threshold mint)).map Prod.snd

/-- The shares stand under the node's latest entry, and its next entry at the
end of the log. -/
def postShares (ledger : Ledger curve) (latest : Nat) (node : NodeId)
    (shares : List (SignatureShare curve)) (freshNonces : List (PublicNonce curve)) :
    Ledger curve :=
  { ledger with
    signatureShares := ledger.signatureShares.insert latest shares
    nonceLog := ledger.nonceLog.insert (nextIndex ledger.nonceLog) { node, nonces := freshNonces } }

def closeSigning (ledger : Ledger curve) (txid : Txid) (signed : MintTx curve) : Ledger curve :=
  { ledger with
    unsignedTx := none
    nonceLog := SortedMap.empty
    signatureShares := SortedMap.empty
    unconfirmedTx := ledger.unconfirmedTx.insert txid signed }

def processSignatureShares (mint : MintConfig curve) (ledger : Ledger curve) (node : NodeId)
    (txid : Txid) (shares : List (SignatureShare curve)) (freshNonces : List (PublicNonce curve)) :
    Outcome SigningError (Ledger curve) := do
  let unsigned ← okOr ledger.unsignedTx .noUnsignedTx
  ensure (computeTxid mint unsigned.tx = txid) .txidMismatch
  ensure (shares.length = unsigned.spentTxOuts.length) .shareCount
  ensure (freshNonces.length = unsigned.spentTxOuts.length) .replacementNonceCount
  let latest ← okOr (latestEntry ledger.nonceLog node) .noNonceEntry
  let chunk := sessionChunk mint ledger.nonceLog latest
  ensure (chunk.length = threshold mint) .sessionForming
  let sighashes ← sighashes mint unsigned
  verifyShares mint node chunk unsigned sighashes shares
  ensure (!ledger.signatureShares.contains latest) .sharesReceived
  let ledger := postShares ledger latest node shares freshNonces
  let responses := sessionResponses mint ledger.signatureShares latest
  if responses.length = threshold mint then do
    let signed ← finalizeTx mint unsigned sighashes chunk responses
    return closeSigning ledger txid signed
  else return ledger

/-! ### What an accepted item did -/

theorem processNonces_ok {mint : MintConfig curve} {ledger after : Ledger curve} {node : NodeId}
    {txid : Txid} {nonces : List (PublicNonce curve)}
    (processed : processNonces mint ledger node txid nonces = .ok after) :
    ∃ unsigned, ledger.unsignedTx = some unsigned ∧ computeTxid mint unsigned.tx = txid ∧
      nonces.length = unsigned.spentTxOuts.length ∧
      (∀ entry ∈ ledger.nonceLog.values, entry.node ≠ node) ∧
      after = { ledger with
        nonceLog := ledger.nonceLog.insert (nextIndex ledger.nonceLog) { node, nonces } } := by
  unfold processNonces at processed
  simp only [bind_eq_ok, ensure_eq_ok, okOr_eq_ok, decide_eq_true_eq, List.all_eq_true] at processed
  obtain ⟨unsigned, present, _, sameTx, _, count, _, absent, result⟩ := processed
  cases result
  exact ⟨unsigned, present, sameTx, count, absent, rfl⟩

structure SharesChecked (mint : MintConfig curve) (ledger : Ledger curve) (node : NodeId)
    (txid : Txid) (shares : List (SignatureShare curve)) (freshNonces : List (PublicNonce curve))
    (unsigned : MintTx curve) (latest : Nat) (msgs : List Hash) : Prop where
  present : ledger.unsignedTx = some unsigned
  sameTx : computeTxid mint unsigned.tx = txid
  shareCount : shares.length = unsigned.spentTxOuts.length
  nonceCount : freshNonces.length = unsigned.spentTxOuts.length
  entered : latestEntry ledger.nonceLog node = some latest
  complete : (sessionChunk mint ledger.nonceLog latest).length = threshold mint
  messages : (sighashes mint unsigned : Outcome SigningError _) = .ok msgs
  verified : verifyShares mint node (sessionChunk mint ledger.nonceLog latest) unsigned msgs
    shares = .ok ()
  unposted : ledger.signatureShares.contains latest = false

theorem processSignatureShares_ok {mint : MintConfig curve} {ledger after : Ledger curve}
    {node : NodeId} {txid : Txid} {shares : List (SignatureShare curve)}
    {freshNonces : List (PublicNonce curve)}
    (processed : processSignatureShares mint ledger node txid shares freshNonces = .ok after) :
    ∃ unsigned latest msgs,
      SharesChecked mint ledger node txid shares freshNonces unsigned latest msgs ∧
      (((sessionResponses mint (ledger.signatureShares.insert latest shares) latest).length ≠
          threshold mint ∧ after = postShares ledger latest node shares freshNonces) ∨
        ((sessionResponses mint (ledger.signatureShares.insert latest shares) latest).length =
            threshold mint ∧
          ∃ signed, (finalizeTx mint unsigned msgs (sessionChunk mint ledger.nonceLog latest)
              (sessionResponses mint (ledger.signatureShares.insert latest shares) latest) :
                Outcome SigningError _) = .ok signed ∧
            after = closeSigning (postShares ledger latest node shares freshNonces) txid
              signed)) := by
  unfold processSignatureShares at processed
  simp only [bind_eq_ok, ensure_eq_ok, okOr_eq_ok, decide_eq_true_eq,
    Bool.not_eq_true'] at processed
  obtain ⟨unsigned, present, _, sameTx, _, shareCount, _, nonceCount, latest, entered, _, complete,
    msgs, messages, _, verified, _, unposted, result⟩ := processed
  refine ⟨unsigned, latest, msgs, ⟨present, sameTx, shareCount, nonceCount, entered, complete,
    messages, verified, unposted⟩, ?_⟩
  split at result
  · rename_i full
    rw [bind_eq_ok] at result
    obtain ⟨signed, finalized, closed⟩ := result
    cases closed
    exact Or.inr ⟨full, signed, finalized, rfl⟩
  · rename_i unfinished
    cases result
    exact Or.inl ⟨unfinished, rfl⟩

end Picomint.Consensus.Onchain
