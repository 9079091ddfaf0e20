/-
The consensus tables of a node, and what it processes items with.

A processing function takes the tables and returns the changed ones; an error
or a panic drops them, as a write transaction that is not committed.
-/

import Picomint.Core.Tx
import Picomint.Lib.SortedMap

namespace Picomint.Consensus

open Tss

/-! ### Outcomes -/

/-- The assertions and expects on the way of a consensus item. -/
inductive Panic where
  | feerateVotes
  | pendingTxs
  | stackVbytes
  | tweak
  | contractIndex
  | publicKeyShare
  | missingNonce
  | missingShare
  | tss
  | spentTxOuts
  | aggregatedSignature
  | heightVotes
  | heightDecreased
  | unsupportedVersion
deriving DecidableEq, Repr

inductive Fault (ε : Type) where
  | error (error : ε)
  | panic (panic : Panic)
deriving DecidableEq, Repr

abbrev Outcome (ε α : Type) := Except (Fault ε) α

def bail {ε α : Type} (error : ε) : Outcome ε α := .error (.error error)

/-- `ok_or`. -/
def okOr {ε α : Type} (value : Option α) (error : ε) : Outcome ε α :=
  match value with
  | some value => .ok value
  | none => .error (.error error)

/-- `expect`. -/
def expect {ε α : Type} (value : Option α) (panic : Panic) : Outcome ε α :=
  match value with
  | some value => .ok value
  | none => .error (.panic panic)

/-- `ensure!`. -/
def ensure {ε : Type} (condition : Bool) (error : ε) : Outcome ε Unit :=
  if condition then .ok () else .error (.error error)

/-- `assert!`. -/
def assert {ε : Type} (condition : Bool) (panic : Panic) : Outcome ε Unit :=
  if condition then .ok () else .error (.panic panic)

/-- `map_err`; a panic stays one. -/
def mapError {ε δ α : Type} (wrap : ε → δ) : Outcome ε α → Outcome δ α
  | .ok value => .ok value
  | .error (.error error) => .error (.error (wrap error))
  | .error (.panic panic) => .error (.panic panic)

section Inversion

variable {ε δ α β : Type}

theorem bind_eq_ok {outcome : Outcome ε α} {next : α → Outcome ε β} {result : β} :
    (outcome >>= next) = .ok result ↔ ∃ value, outcome = .ok value ∧ next value = .ok result := by
  cases outcome with
  | error fault =>
      constructor
      · intro impossible
        cases impossible
      · rintro ⟨value, impossible, _⟩
        cases impossible
  | ok value =>
      constructor
      · intro continued
        exact ⟨value, rfl, continued⟩
      · rintro ⟨other, same, continued⟩
        cases same
        exact continued

@[simp] theorem okOr_eq_ok {value : Option α} {error : ε} {result : α} :
    okOr value error = .ok result ↔ value = some result := by
  cases value with
  | none => simp [okOr]
  | some found => simp [okOr]

@[simp] theorem expect_eq_ok {value : Option α} {panic : Panic} {result : α} :
    (expect value panic : Outcome ε α) = .ok result ↔ value = some result := by
  cases value with
  | none => simp [expect]
  | some found => simp [expect]

@[simp] theorem ensure_eq_ok {condition : Bool} {error : ε} {result : Unit} :
    ensure condition error = .ok result ↔ condition = true := by
  cases condition with
  | false => simp [ensure]
  | true => simp [ensure]

@[simp] theorem assert_eq_ok {condition : Bool} {panic : Panic} {result : Unit} :
    (assert condition panic : Outcome ε Unit) = .ok result ↔ condition = true := by
  cases condition with
  | false => simp [assert]
  | true => simp [assert]

@[simp] theorem bail_ne_ok {error : ε} {result : α} :
    (bail error : Outcome ε α) = .ok result ↔ False := by
  simp [bail]

@[simp] theorem mapError_eq_ok {wrap : ε → δ} {outcome : Outcome ε α} {result : α} :
    mapError wrap outcome = .ok result ↔ outcome = .ok result := by
  cases outcome with
  | ok value => simp [mapError]
  | error fault => cases fault <;> simp [mapError]

theorem mapM_eq_ok {items : List α} {step : α → Outcome ε β} {results : List β} :
    items.mapM step = .ok results ↔
      List.Forall₂ (fun item result => step item = .ok result) items results := by
  induction items generalizing results with
  | nil =>
      rw [List.mapM_nil]
      constructor
      · intro empty
        cases empty
        exact List.Forall₂.nil
      · intro none
        cases none
        rfl
  | cons item rest inductionHypothesis =>
      simp only [List.mapM_cons, bind_eq_ok]
      constructor
      · rintro ⟨first, here, others, following, result⟩
        cases result
        exact List.Forall₂.cons here (inductionHypothesis.mp following)
      · intro all
        cases all with
        | cons here others => exact ⟨_, here, _, inductionHypothesis.mpr others, rfl⟩

theorem mapM_ok_map {γ : Type} {items : List α} {step : α → Outcome ε β} {results : List β}
    (mapped : items.mapM step = .ok results) (source : α → γ) (target : β → γ)
    (keeps : ∀ item result, step item = .ok result → target result = source item) :
    results.map target = items.map source := by
  have aligned := mapM_eq_ok.mp mapped
  clear mapped
  induction aligned with
  | nil => rfl
  | cons here _ inductionHypothesis =>
      rw [List.map_cons, List.map_cons, keeps _ _ here, inductionHypothesis]

theorem mapM_exists_ok {items : List α} {step : α → Outcome ε β}
    (all : ∀ item ∈ items, ∃ result, step item = .ok result) :
    ∃ results, items.mapM step = .ok results := by
  induction items with
  | nil => exact ⟨[], rfl⟩
  | cons item rest inductionHypothesis =>
      obtain ⟨first, here⟩ := all item List.mem_cons_self
      obtain ⟨others, following⟩ :=
        inductionHypothesis (fun other member => all other (List.mem_cons_of_mem item member))
      refine ⟨first :: others, ?_⟩
      rw [mapM_eq_ok] at following ⊢
      exact List.Forall₂.cons here following

theorem forM_eq_ok {items : List α} {step : α → Outcome ε PUnit} :
    items.forM step = .ok ⟨⟩ ↔ ∀ item ∈ items, step item = .ok ⟨⟩ := by
  induction items with
  | nil =>
      constructor
      · intro _ item member
        cases member
      · exact fun _ => rfl
  | cons item rest inductionHypothesis =>
      rw [List.forall_mem_cons, ← inductionHypothesis]
      change (step item >>= fun _ => rest.forM step) = .ok ⟨⟩ ↔ _
      rw [bind_eq_ok]
      constructor
      · rintro ⟨_, here, following⟩
        exact ⟨here, following⟩
      · rintro ⟨here, following⟩
        exact ⟨⟨⟩, here, following⟩

end Inversion

/-! ### Panics that cannot happen -/

def Avoids {ε α : Type} (panic : Panic) (outcome : Outcome ε α) : Prop :=
  outcome ≠ .error (.panic panic)

section Avoids

variable {ε δ α β : Type} {panic : Panic}

theorem okOr_avoids (value : Option α) (error : ε) : Avoids panic (okOr value error) := by
  cases value with
  | none => exact fun same => by cases same
  | some found => exact fun same => by cases same

theorem ensure_avoids (condition : Bool) (error : ε) : Avoids panic (ensure condition error) := by
  cases condition with
  | false => exact fun same => by cases same
  | true => exact fun same => by cases same

theorem expect_avoids (value : Option α) {other : Panic} (different : other ≠ panic) :
    Avoids panic (expect value other : Outcome ε α) := by
  cases value with
  | none =>
      intro same
      cases same
      exact different rfl
  | some found => exact fun same => by cases same

theorem assert_avoids (condition : Bool) {other : Panic} (different : other ≠ panic) :
    Avoids panic (assert condition other : Outcome ε Unit) := by
  cases condition with
  | false =>
      intro same
      cases same
      exact different rfl
  | true => exact fun same => by cases same

theorem pure_avoids (value : α) : Avoids panic (pure value : Outcome ε α) :=
  fun same => by cases same

theorem bind_avoids {outcome : Outcome ε α} {next : α → Outcome ε β}
    (first : Avoids panic outcome)
    (rest : ∀ value, outcome = .ok value → Avoids panic (next value)) :
    Avoids panic (outcome >>= next) := by
  cases outcome with
  | error fault =>
      intro same
      cases same
      exact first rfl
  | ok value => exact rest value rfl

theorem mapM_avoids {items : List α} {step : α → Outcome ε β}
    (all : ∀ item ∈ items, Avoids panic (step item)) : Avoids panic (items.mapM step) := by
  induction items with
  | nil => exact fun same => by cases same
  | cons item rest inductionHypothesis =>
      rw [List.mapM_cons]
      apply bind_avoids (all item List.mem_cons_self)
      intro first _
      apply bind_avoids
      · exact inductionHypothesis (fun other member => all other (List.mem_cons_of_mem item member))
      · exact fun others _ => pure_avoids _

theorem forM_avoids {items : List α} {step : α → Outcome ε PUnit}
    (all : ∀ item ∈ items, Avoids panic (step item)) : Avoids panic (items.forM step) := by
  induction items with
  | nil => exact fun same => by cases same
  | cons item rest inductionHypothesis =>
      apply bind_avoids (all item List.mem_cons_self)
      intro _ _
      exact inductionHypothesis (fun other member => all other (List.mem_cons_of_mem item member))

end Avoids

/-! ### The wallet's own records -/

structure MintUtxo where
  value : Nat
  outpoint : BtcOutPoint
  tweak : Hash
deriving DecidableEq, Repr

structure TxInfo where
  index : Nat
  txid : Txid
  input : Nat
  output : Nat
  fee : Nat
  vbytes : Nat
  created : Nat
deriving DecidableEq, Repr

structure TxIn (curve : Curve) where
  previousOutput : BtcOutPoint
  witness : Option (SchnorrSignature curve)
deriving DecidableEq

/-- A `bitcoin::Transaction` of version 2 with lock time zero, whose inputs
all signal replacement. -/
structure BtcTransaction (curve : Curve) where
  input : List (TxIn curve)
  output : List TxOut
deriving DecidableEq

structure SpentTxOut where
  value : Nat
  tweak : Hash
deriving DecidableEq, Repr

structure MintTx (curve : Curve) where
  tx : BtcTransaction curve
  spentTxOuts : List SpentTxOut
  vbytes : Nat
  fee : Nat
deriving DecidableEq

/-- One node's entry in a transaction's nonce log. -/
structure NonceEntry (curve : Curve) where
  node : NodeId
  nonces : List (PublicNonce curve)
deriving DecidableEq

/-! ### The server -/

def CONSENSUS_DENOMINATIONS : List Denomination := List.range 42

/-- What all nodes of a mint share: the consensus config and the hash,
signature and script functions of the libraries. -/
structure MintConfig (curve : Curve) where
  n : NumNodes
  aggPk : PublicKey curve
  pks : SortedMap NodeId (PublicKey curve)
  pks_nodes : pks.keys = n.nodeIds
  tbsAggPks : SortedMap Denomination Nat
  tbsAggPks_denominations : tbsAggPks.keys = CONSENSUS_DENOMINATIONS
  defaultVersion : ConsensusVersion
  /-- `Transaction::compute_txid_from_parts`. -/
  txHash : List Input → List Output → TransactionId
  verifySchnorr : Signature → Hash → XOnlyPublicKey → Bool
  verifyNote : Note → Nat → Bool
  signNonce : BlindedNonce → Nat → Nat
  tweakHash : XOnlyPublicKey → Hash
  utxoHash : MintUtxo → Hash
  preimageHash : Nat → Hash
  incomingContractHash : IncomingContract → Nat
  contractId : OutgoingContract → Hash
  /-- `ScriptBuf::new_p2tr_tweaked`. -/
  p2trScript : Nat → Script
  standardScript : StandardScript → Script
  /-- `compute_txid`, which leaves the witnesses out. -/
  btcTxid : List BtcOutPoint → List TxOut → Txid
  /-- The BIP341 keyspend sighash of one input over all prevouts. -/
  btcSighash : List BtcOutPoint → List TxOut → List TxOut → Nat → Hash

/-- A node: its private keys and the derivation of its signing nonces. -/
structure Server (curve : Curve) extends MintConfig curve where
  identity : NodeId
  sks : SecretKey curve
  tbsSks : SortedMap Denomination Nat
  tbsSks_denominations : tbsSks.keys = CONSENSUS_DENOMINATIONS
  /-- `Secret::new_root`. -/
  secretRoot : SecretKey curve → Hash
  /-- `Secret::child` of a txid. -/
  secretChildTxid : Hash → Txid → Hash
  /-- `Secret::child` of an integer. -/
  secretChild : Hash → Nat → Hash
  secretBytes : Hash → Nat
  deriveNonce : Nat → SecretNonce curve

/-! ### The tables -/

structure Ledger (curve : Curve) where
  acceptedTxid : SortedSet TransactionId
  blockHeightVote : SortedMap NodeId Nat
  consensusVersionVote : SortedMap NodeId ConsensusVersion
  noteNonce : SortedSet XOnlyPublicKey
  blindedNonce : SortedMap BlindedNonce Denomination
  blindedSignatureShare : SortedMap OutPoint Nat
  blindedSignatureShareRestore : SortedMap BlindedNonce Nat
  incomingContract : SortedMap OutPoint IncomingContract
  outgoingContract : SortedMap OutPoint OutgoingContract
  preimage : SortedMap OutPoint Nat
  incomingPayment : SortedMap Hash Nat
  incomingContractStreamNextIndex : Option Nat
  incomingContractStream : SortedMap Nat (OutPoint × IncomingContract)
  incomingContractIndex : SortedMap OutPoint Nat
  output : SortedMap Nat TrackedOutput
  blockHeight : Option Nat
  blockVote : SortedMap NodeId BlockVote
  spentOutputIndex : SortedSet Nat
  mintUtxo : Option MintUtxo
  txInfo : SortedMap Nat TxInfo
  txInfoIndex : SortedMap OutPoint Nat
  unsignedTx : Option (MintTx curve)
  nonceLog : SortedMap Nat (NonceEntry curve)
  signatureShares : SortedMap Nat (List (SignatureShare curve))
  unconfirmedTx : SortedMap Txid (MintTx curve)
  feeRateVote : SortedMap NodeId (Option Nat)

def Ledger.empty {curve : Curve} : Ledger curve :=
  { acceptedTxid := SortedMap.empty
    blockHeightVote := SortedMap.empty
    consensusVersionVote := SortedMap.empty
    noteNonce := SortedMap.empty
    blindedNonce := SortedMap.empty
    blindedSignatureShare := SortedMap.empty
    blindedSignatureShareRestore := SortedMap.empty
    incomingContract := SortedMap.empty
    outgoingContract := SortedMap.empty
    preimage := SortedMap.empty
    incomingPayment := SortedMap.empty
    incomingContractStreamNextIndex := none
    incomingContractStream := SortedMap.empty
    incomingContractIndex := SortedMap.empty
    output := SortedMap.empty
    blockHeight := none
    blockVote := SortedMap.empty
    spentOutputIndex := SortedMap.empty
    mintUtxo := none
    txInfo := SortedMap.empty
    txInfoIndex := SortedMap.empty
    unsignedTx := none
    nonceLog := SortedMap.empty
    signatureShares := SortedMap.empty
    unconfirmedTx := SortedMap.empty
    feeRateVote := SortedMap.empty }

/-- The key a scan in descending order starts at, plus one. -/
def nextIndex {β : Type} (table : SortedMap Nat β) : Nat :=
  match table.lastKey? with
  | none => 0
  | some last => last + 1

theorem nextIndex_above {β : Type} (table : SortedMap Nat β) :
    ∀ key ∈ table.keys, key < nextIndex table := by
  intro key member
  unfold nextIndex
  cases last : table.lastKey? with
  | none =>
      have empty := table.lastKey?_none last
      unfold SortedMap.keys at member
      rw [empty] at member
      cases member
  | some last' => exact Nat.lt_succ_of_le (table.lastKey?_above last key member)

theorem get?_nextIndex {β : Type} (table : SortedMap Nat β) :
    table.get? (nextIndex table) = none := by
  cases found : table.get? (nextIndex table) with
  | none => rfl
  | some value =>
      have below := nextIndex_above table _ ((table.mem_keys _).mpr ⟨value, found⟩)
      exact absurd below (lt_irrefl _)

theorem rows_insert_nextIndex {β : Type} (table : SortedMap Nat β) (value : β) :
    (table.insert (nextIndex table) value).rows = table.rows ++ [(nextIndex table, value)] :=
  table.rows_insert_above _ _ (nextIndex_above table)

theorem nextIndex_insert {β : Type} (table : SortedMap Nat β) (value : β) :
    nextIndex (table.insert (nextIndex table) value) = nextIndex table + 1 := by
  have last : (table.insert (nextIndex table) value).lastKey? = some (nextIndex table) := by
    unfold SortedMap.lastKey? SortedMap.keys
    rw [rows_insert_nextIndex, List.map_append, List.map_singleton, List.getLast?_concat]
  conv_lhs => rw [nextIndex]
  rw [last]

theorem values_insert_nextIndex {β : Type} (table : SortedMap Nat β) (value : β) :
    (table.insert (nextIndex table) value).values = table.values ++ [value] := by
  unfold SortedMap.values
  rw [rows_insert_nextIndex, List.map_append, List.map_singleton]

theorem nextIndex_dense {β : Type} {table : SortedMap Nat β} (dense : table.Dense) :
    nextIndex table = table.size := by
  unfold nextIndex SortedMap.lastKey?
  rw [dense, List.getLast?_range]
  cases table.size with
  | zero => rfl
  | succ last => simp

theorem dense_insert_nextIndex {β : Type} {table : SortedMap Nat β} (dense : table.Dense)
    (value : β) : (table.insert (nextIndex table) value).Dense := by
  unfold SortedMap.Dense SortedMap.keys SortedMap.size at *
  rw [rows_insert_nextIndex, List.map_append, List.length_append, List.map_singleton,
    List.length_singleton, List.range_succ, nextIndex_dense dense, dense]
  rfl

/-! ### A mint to evaluate with -/

def samplePks : SortedMap NodeId (PublicKey scalarCurve) :=
  SortedMap.ofList ((List.range 4).map (fun node => (node, ScalarCurve.one.publicKey)))

def sampleKeys : SortedMap Denomination Nat :=
  SortedMap.ofList (CONSENSUS_DENOMINATIONS.map (fun denomination => (denomination, 0)))

/-- Four nodes with the same keys, whose checks all pass. -/
def sampleServer : Server scalarCurve where
  n := ⟨1⟩
  aggPk := ScalarCurve.one.publicKey
  pks := samplePks
  pks_nodes := by decide
  tbsAggPks := sampleKeys
  tbsAggPks_denominations := by decide +kernel
  defaultVersion := CONSENSUS_VERSION
  txHash := fun inputs outputs => 2000 * inputs.length + outputs.length
  verifySchnorr := fun _ _ _ => true
  verifyNote := fun _ _ => true
  signNonce := fun nonce _ => nonce
  tweakHash := id
  utxoHash := fun utxo => utxo.outpoint.txid + 1
  preimageHash := id
  incomingContractHash := fun contract => contract.ephemeralPk
  contractId := fun contract => contract.paymentHash
  p2trScript := id
  standardScript := fun _ => 0
  btcTxid := fun outpoints _ => (outpoints.map BtcOutPoint.txid).sum + 1
  btcSighash := fun _ _ _ index => index
  identity := 0
  sks := ScalarCurve.one
  tbsSks := sampleKeys
  tbsSks_denominations := by decide +kernel
  secretRoot := fun _ => 0
  secretChildTxid := fun root txid => root + txid
  secretChild := fun parent path => parent + path
  secretBytes := id
  deriveNonce := fun _ => { first := ScalarCurve.one, second := ScalarCurve.one }

end Picomint.Consensus
