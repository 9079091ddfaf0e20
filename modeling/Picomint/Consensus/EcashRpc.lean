/-
The ecash endpoints of a node, and what transactions do to the tables they read.

An issued nonce keeps its denomination, and only an output naming a nonce
issues it.
-/

import Picomint.Consensus.Transitions

namespace Picomint

open Tss

/-! ### The nonces an item asks to sign -/

def Output.blindedNonce : Output → Option BlindedNonce
  | .ecash output => some output.nonce
  | _ => none

def ConsensusItem.blindedNonces {curve : Curve} : ConsensusItem curve → List BlindedNonce
  | .tx accepted => accepted.outputs.filterMap Output.blindedNonce
  | _ => []

namespace Consensus

variable {curve : Curve} {server : Server curve} {mint : MintConfig curve}
  {ledger middle after : Ledger curve}

/-! ### Endpoints -/

namespace Ecash

def spendState (ledger : Ledger curve) (nonces : List XOnlyPublicKey) : List Bool :=
  nonces.map (fun nonce => (ledger.noteNonce.get? nonce).isSome)

def issuanceState (ledger : Ledger curve) (nonces : List BlindedNonce) :
    List (Option Denomination) :=
  nonces.map ledger.blindedNonce.get?

end Ecash

/-! ### Issued nonces -/

theorem processInput_issued {input : Input} {result : Nat × XOnlyPublicKey}
    (processed : processInput mint ledger input = .ok (result, after)) :
    after.blindedNonce = ledger.blindedNonce ∧
      after.blindedSignatureShare = ledger.blindedSignatureShare := by
  obtain ⟨amount, pk⟩ := result
  cases input with
  | ecash input =>
      obtain ⟨_, _, _, _, same⟩ := Ecash.processInput_ok (mapError_eq_ok.mp processed)
      exact same ▸ ⟨rfl, rfl⟩
  | onchain input =>
      obtain ⟨_, _, _, _, _, ⟨_, same⟩ | ⟨_, _, _, _, _, same⟩⟩ :=
        Onchain.processInput_ok (mapError_eq_ok.mp processed)
      · exact same ▸ ⟨rfl, rfl⟩
      · exact same ▸ ⟨rfl, rfl⟩
  | lightning input =>
      cases input with
      | outgoing outpoint witness =>
          obtain ⟨_, _, _, _, _, _, same⟩ :=
            Lightning.processInput_outgoing_ok (mapError_eq_ok.mp processed)
          exact same ▸ ⟨rfl, rfl⟩
      | incoming outpoint =>
          obtain ⟨_, _, _, _, _, _, same⟩ :=
            Lightning.processInput_incoming_ok (mapError_eq_ok.mp processed)
          exact same ▸ ⟨rfl, rfl⟩

theorem processOutput_issued {output : Output} {outpoint : OutPoint} {amount : Nat}
    (processed : processOutput server ledger outpoint output = .ok (amount, after)) :
    (∃ request key, output = .ecash request ∧
        ledger.blindedNonce.contains request.nonce = false ∧
        server.tbsSks.get? request.denomination = some key ∧
        after.blindedNonce = ledger.blindedNonce.insert request.nonce request.denomination ∧
        after.blindedSignatureShare =
          ledger.blindedSignatureShare.insert outpoint (server.signNonce request.nonce key)) ∨
      (output.blindedNonce = none ∧ after.blindedNonce = ledger.blindedNonce ∧
        after.blindedSignatureShare = ledger.blindedSignatureShare) := by
  cases output with
  | ecash request =>
      obtain ⟨fresh, ⟨key, found, same⟩, _⟩ := Ecash.processOutput_ok (mapError_eq_ok.mp processed)
      exact Or.inl ⟨request, key, rfl, fresh, found, by rw [same], by rw [same]⟩
  | onchain output =>
      obtain ⟨_, _, _, _, _, _, _, same⟩ := Onchain.processOutput_ok (mapError_eq_ok.mp processed)
      exact Or.inr ⟨rfl, by rw [same], by rw [same]⟩
  | lightning output =>
      cases output with
      | outgoing contract =>
          obtain ⟨_, _, same⟩ :=
            Lightning.processOutput_outgoing_ok (mapError_eq_ok.mp processed)
          exact Or.inr ⟨rfl, by rw [same], by rw [same]⟩
      | incoming contract =>
          obtain ⟨_, same⟩ := Lightning.processOutput_incoming_ok (mapError_eq_ok.mp processed)
          exact Or.inr ⟨rfl, by rw [same], by rw [same]⟩

theorem InputsProcessed.issued {inputs : List Input} {results : List (Nat × XOnlyPublicKey)}
    (processed : InputsProcessed mint ledger inputs results after) :
    after.blindedNonce = ledger.blindedNonce ∧
      after.blindedSignatureShare = ledger.blindedSignatureShare := by
  induction processed with
  | nil => exact ⟨rfl, rfl⟩
  | cons first _ inductionHypothesis =>
      obtain ⟨nonces, shares⟩ := processInput_issued first
      exact ⟨inductionHypothesis.1.trans nonces, inductionHypothesis.2.trans shares⟩

def IssuedBy (outputs : List Output) (ledger after : Ledger curve) (nonce : BlindedNonce) : Prop :=
  after.blindedNonce.get? nonce = ledger.blindedNonce.get? nonce ∨
    (ledger.blindedNonce.get? nonce = none ∧ nonce ∈ outputs.filterMap Output.blindedNonce)

theorem OutputsProcessed.issued {txid : TransactionId} {entries : List (Output × Nat)}
    {amounts : List Nat} (processed : OutputsProcessed server txid ledger entries amounts after)
    (nonce : BlindedNonce) : IssuedBy (entries.map Prod.fst) ledger after nonce := by
  induction processed with
  | nil => exact Or.inl rfl
  | @cons ledger middle after entry rest amount amounts first _ inductionHypothesis =>
      rcases processOutput_issued first with ⟨request, _, isEcash, fresh, _, nonces, _⟩ |
        ⟨isOther, nonces, _⟩
      · have named : entry.1.blindedNonce = some request.nonce := by
          rw [isEcash]
          rfl
        by_cases same : request.nonce = nonce
        · refine Or.inr ⟨?_, ?_⟩
          · rw [← same]
            exact Option.not_isSome_iff_eq_none.mp (by
              intro present
              unfold SortedMap.contains at fresh
              rw [present] at fresh
              cases fresh)
          · rw [List.map_cons, List.filterMap_cons_some named, same]
            exact List.mem_cons_self
        · unfold IssuedBy at inductionHypothesis ⊢
          rw [nonces, SortedMap.get?_insert_of_ne _ _ same] at inductionHypothesis
          rw [List.map_cons, List.filterMap_cons_some named]
          exact inductionHypothesis.imp id
            (fun issued => ⟨issued.1, List.mem_cons_of_mem _ issued.2⟩)
      · unfold IssuedBy at inductionHypothesis ⊢
        rw [nonces] at inductionHypothesis
        rw [List.map_cons, List.filterMap_cons_none isOther]
        exact inductionHypothesis

theorem History.step_issued {history next : History curve} {entry : NodeId × ConsensusItem curve}
    (stepped : History.step server history entry = some next) (nonce : BlindedNonce) :
    next.ledger.blindedNonce.get? nonce = history.ledger.blindedNonce.get? nonce ∨
      (history.ledger.blindedNonce.get? nonce = none ∧
        nonce ∈ entry.2.blindedNonces) := by
  rcases History.step_cases stepped with same | ⟨tx, isTx, processed, _⟩ | ⟨processed, notTx, _⟩
  · exact Or.inl (same ▸ rfl)
  · obtain ⟨_, judged, judgedTx, result⟩ := processTxItem_ok processed
    obtain ⟨results, middle, amounts, accepted⟩ := processTx_ok judgedTx
    have inputs := accepted.inputs.issued.1
    have outputs := accepted.outputs.issued nonce
    unfold IssuedBy at outputs
    rw [inputs, List.zipIdx_map_fst] at outputs
    rw [result, isTx]
    exact outputs
  · rw [(processConsensusItem_sameAccounts processed notTx).blindedNonce]
    exact Or.inl rfl

end Consensus

end Picomint
