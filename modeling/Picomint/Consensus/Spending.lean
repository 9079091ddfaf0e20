/-
Nothing is spent twice: notes, contracts and tracked outputs.

Each kind of input names a key, and the tables tell which keys are gone.  An
accepted input finds its key present and leaves it gone, and what is gone
stays gone: a nonce or an index is never removed from its table, and the
outpoint of a contract is created once, by the one transaction of its txid.
-/

import Picomint.Consensus.Transitions

namespace Picomint

/-! ### What the inputs name -/

def Input.note : Input → Option XOnlyPublicKey
  | .ecash input => some input.note.nonce
  | _ => none

def Input.contract : Input → Option OutPoint
  | .lightning (.outgoing outpoint _) => some outpoint
  | .lightning (.incoming outpoint) => some outpoint
  | _ => none

def Input.tracked : Input → Option Nat
  | .onchain input => some input.outputIndex
  | _ => none

namespace Consensus

open Tss

variable {curve : Curve} {server : Server curve} {mint : MintConfig curve}
  {ledger middle after : Ledger curve}

/-- The keys the inputs of the accepted transactions name, in order. -/
def History.spent {κ : Type} (kind : Input → Option κ) (history : History curve) : List κ :=
  history.accepted.flatMap (fun entry => entry.2.inputs.filterMap kind)

/-! ### Spending in general -/

/-- What one kind of input needs: under an invariant of the ledger, an
accepted input finds its key present and leaves it gone. -/
structure Spends (mint : MintConfig curve) {κ : Type} (kind : Input → Option κ)
    (gone : Ledger curve → κ → Prop) (property : Ledger curve → Prop) : Prop where
  kept : ∀ (ledger after : Ledger curve) (input : Input) (result : Nat × XOnlyPublicKey),
    processInput mint ledger input = .ok (result, after) → property ledger → property after
  stays : ∀ (ledger after : Ledger curve) (input : Input) (result : Nat × XOnlyPublicKey),
    processInput mint ledger input = .ok (result, after) →
      ∀ key, gone ledger key → gone after key
  spends : ∀ (ledger after : Ledger curve) (input : Input) (result : Nat × XOnlyPublicKey),
    processInput mint ledger input = .ok (result, after) → property ledger →
      ∀ key, kind input = some key → ¬ gone ledger key ∧ gone after key

theorem InputsProcessed.spends {κ : Type} {kind : Input → Option κ}
    {gone : Ledger curve → κ → Prop} {property : Ledger curve → Prop}
    {inputs : List Input} {results : List (Nat × XOnlyPublicKey)}
    (processed : InputsProcessed mint ledger inputs results after)
    (rule : Spends mint kind gone property) (holds : property ledger) :
    (inputs.filterMap kind).Nodup ∧
      (∀ key ∈ inputs.filterMap kind, ¬ gone ledger key ∧ gone after key) ∧
      (∀ key, gone ledger key → gone after key) := by
  induction processed with
  | nil => exact ⟨List.nodup_nil, (fun key member => by cases member), fun _ => id⟩
  | @cons ledger middle after input inputs result results first rest inductionHypothesis =>
      obtain ⟨distinct, later, stays⟩ :=
        inductionHypothesis (rule.kept _ _ _ _ first holds)
      have staysFirst := rule.stays _ _ _ _ first
      have stayAll : ∀ key, gone ledger key → gone after key :=
        fun key before => stays key (staysFirst key before)
      have laterAll : ∀ key ∈ inputs.filterMap kind, ¬ gone ledger key ∧ gone after key := by
        intro key member
        obtain ⟨present, spent⟩ := later key member
        exact ⟨fun before => present (staysFirst key before), spent⟩
      cases named : kind input with
      | none =>
          rw [List.filterMap_cons_none named]
          exact ⟨distinct, laterAll, stayAll⟩
      | some key =>
          rw [List.filterMap_cons_some named]
          obtain ⟨present, spent⟩ := rule.spends _ _ _ _ first holds key named
          refine ⟨List.nodup_cons.mpr ⟨?_, distinct⟩, ?_, stayAll⟩
          · intro again
            exact (later key again).1 spent
          · intro other member
            rcases List.mem_cons.mp member with same | rest
            · exact same ▸ ⟨present, stays key spent⟩
            · exact laterAll other rest

/-- Keys spent over a history are distinct and gone, if outputs and other items
keep what is gone. -/
theorem History.spent_nodup {κ : Type} {kind : Input → Option κ}
    {gone : Ledger curve → κ → Prop} {property : Ledger curve → Prop}
    (rule : Spends server.toMintConfig kind gone property) (start : property Ledger.empty)
    (txKept : ∀ (ledger after : Ledger curve) (tx : Transaction),
      processTxItem server ledger tx = .ok after → property ledger → property after)
    (itemKept : ∀ (ledger after : Ledger curve) (node : NodeId) (item : ConsensusItem curve),
      processConsensusItem server ledger node item = .ok after → (∀ tx, item ≠ .tx tx) →
        property ledger → property after)
    (txStays : ∀ (ledger middle after : Ledger curve) (tx : Transaction)
      (results : List (Nat × XOnlyPublicKey)) (amounts : List Nat),
      ledger.acceptedTxid.contains (computeTxid server.toMintConfig tx) = false → property ledger →
        Accepted server ledger tx results middle amounts after → ∀ key, gone middle key →
          gone { after with
            acceptedTxid := after.acceptedTxid.insert (computeTxid server.toMintConfig tx) ⟨⟩ } key)
    (itemStays : ∀ (ledger after : Ledger curve) (node : NodeId) (item : ConsensusItem curve),
      processConsensusItem server ledger node item = .ok after → (∀ tx, item ≠ .tx tx) →
        ∀ key, gone ledger key → gone after key)
    {items : List (NodeId × ConsensusItem curve)} {final : History curve}
    (ran : History.run server History.start items = some final) :
    (final.spent kind).Nodup := by
  have invariant : property final.ledger ∧ (final.spent kind).Nodup ∧
      ∀ key ∈ final.spent kind, gone final.ledger key := by
    refine History.run_preserves (motive := fun history => property history.ledger ∧
      (history.spent kind).Nodup ∧ ∀ key ∈ history.spent kind, gone history.ledger key) ran ?_
      ⟨start, List.nodup_nil, (fun key member => by cases member)⟩
    rintro history next ⟨node, item⟩ stepped ⟨holds, distinct, spentGone⟩
    rcases History.step_cases stepped with same | ⟨tx, isTx, processed, extended⟩ |
      ⟨processed, notTx, extended⟩
    · exact same ▸ ⟨holds, distinct, spentGone⟩
    · refine ⟨txKept _ _ _ processed holds, ?_⟩
      have spentNext : next.spent kind = history.spent kind ++ tx.inputs.filterMap kind := by
        unfold History.spent
        rw [extended, List.flatMap_append, List.flatMap_singleton]
      obtain ⟨fresh, judged, judgedTx, result⟩ := processTxItem_ok processed
      obtain ⟨results, middle, amounts, accepted⟩ := processTx_ok judgedTx
      obtain ⟨newDistinct, newSpent, stays⟩ := accepted.inputs.spends rule holds
      have after := txStays _ _ _ _ _ _ fresh holds accepted
      rw [spentNext, result]
      refine ⟨List.nodup_append'.mpr ⟨distinct, newDistinct, ?_⟩, ?_⟩
      · intro key before again
        exact (newSpent key again).1 (spentGone key before)
      · intro key member
        rcases List.mem_append.mp member with before | new
        · exact after key (stays key (spentGone key before))
        · exact after key (newSpent key new).2
    · have spentNext : next.spent kind = history.spent kind := by
        unfold History.spent
        rw [extended]
      rw [spentNext]
      exact ⟨itemKept _ _ _ _ processed notTx holds, distinct,
        fun key member => itemStays _ _ _ _ processed notTx key (spentGone key member)⟩
  exact invariant.2.1

/-! ### What an input leaves alone -/

/-- The tables an onchain input or output leaves alone. -/
structure SameClaims (ledger after : Ledger curve) : Prop where
  acceptedTxid : after.acceptedTxid = ledger.acceptedTxid
  noteNonce : after.noteNonce = ledger.noteNonce
  incomingContract : after.incomingContract = ledger.incomingContract
  outgoingContract : after.outgoingContract = ledger.outgoingContract
  incomingContractIndex : after.incomingContractIndex = ledger.incomingContractIndex
  streamNextIndex : after.incomingContractStreamNextIndex = ledger.incomingContractStreamNextIndex
  output : after.output = ledger.output

theorem onchain_processInput_frame {input : OnchainInput} {amount : Nat} {pk : XOnlyPublicKey}
    (processed : Onchain.processInput mint ledger input = .ok ((amount, pk), after)) :
    SameClaims ledger after ∧
      after.spentOutputIndex = ledger.spentOutputIndex.insert input.outputIndex ⟨⟩ := by
  obtain ⟨_, _, _, _, _, ⟨_, first⟩ | ⟨_, _, _, _, _, result⟩⟩ := Onchain.processInput_ok processed
  · subst first
    exact ⟨by constructor <;> rfl, rfl⟩
  · subst result
    exact ⟨by constructor <;> rfl, rfl⟩

theorem onchain_processOutput_frame {output : OnchainOutput} {outpoint : OutPoint} {amount : Nat}
    (processed : Onchain.processOutput mint ledger output outpoint = .ok (amount, after)) :
    SameClaims ledger after ∧ after.spentOutputIndex = ledger.spentOutputIndex := by
  obtain ⟨_, _, _, _, _, _, _, result⟩ := Onchain.processOutput_ok processed
  subst result
  exact ⟨by constructor <;> rfl, rfl⟩

/-! ### Notes and tracked outputs -/

theorem spends_of_table {κ : Type} [LinearOrder κ] {kind : Input → Option κ}
    (table : Ledger curve → SortedSet κ)
    (step : ∀ (ledger after : Ledger curve) (input : Input) (result : Nat × XOnlyPublicKey),
      processInput mint ledger input = .ok (result, after) →
        (∃ key, kind input = some key ∧ (table ledger).contains key = false ∧
          table after = (table ledger).insert key ⟨⟩) ∨
        (kind input = none ∧ table after = table ledger)) :
    Spends mint kind (fun ledger key => (table ledger).contains key = true)
      (fun _ => True) where
  kept := fun _ _ _ _ _ _ => trivial
  stays := by
    intro ledger after input result processed key before
    rcases step _ _ _ _ processed with ⟨other, _, _, same⟩ | ⟨_, same⟩
    · rw [same]
      exact (SortedMap.contains_insert _ _ _ _).mpr (Or.inr before)
    · rwa [same]
  spends := by
    intro ledger after input result processed _ key named
    rcases step _ _ _ _ processed with ⟨other, isOther, fresh, same⟩ | ⟨unnamed, _⟩
    · cases Option.some.inj (isOther.symm.trans named)
      rw [same, fresh]
      exact ⟨Bool.false_ne_true, (SortedMap.contains_insert _ _ _ _).mpr (Or.inl rfl)⟩
    · cases unnamed.symm.trans named

theorem processInput_noteNonce {input : Input} {result : Nat × XOnlyPublicKey}
    (processed : processInput mint ledger input = .ok (result, after)) :
    (∃ nonce, input.note = some nonce ∧ ledger.noteNonce.contains nonce = false ∧
        after.noteNonce = ledger.noteNonce.insert nonce ⟨⟩) ∨
      (input.note = none ∧ after.noteNonce = ledger.noteNonce) := by
  obtain ⟨amount, pk⟩ := result
  cases input with
  | ecash input =>
      obtain ⟨fresh, _, _, _, same⟩ := Ecash.processInput_ok (mapError_eq_ok.mp processed)
      subst same
      exact Or.inl ⟨input.note.nonce, rfl, fresh, rfl⟩
  | onchain input =>
      exact Or.inr ⟨rfl, (onchain_processInput_frame (mapError_eq_ok.mp processed)).1.noteNonce⟩
  | lightning input =>
      cases input with
      | outgoing outpoint witness =>
          obtain ⟨_, _, _, _, _, _, same⟩ :=
            Lightning.processInput_outgoing_ok (mapError_eq_ok.mp processed)
          subst same
          exact Or.inr ⟨rfl, rfl⟩
      | incoming outpoint =>
          obtain ⟨_, _, _, _, _, _, same⟩ :=
            Lightning.processInput_incoming_ok (mapError_eq_ok.mp processed)
          subst same
          exact Or.inr ⟨rfl, rfl⟩

theorem processInput_spentOutputIndex {input : Input} {result : Nat × XOnlyPublicKey}
    (processed : processInput mint ledger input = .ok (result, after)) :
    (∃ index, input.tracked = some index ∧ ledger.spentOutputIndex.contains index = false ∧
        after.spentOutputIndex = ledger.spentOutputIndex.insert index ⟨⟩) ∨
      (input.tracked = none ∧ after.spentOutputIndex = ledger.spentOutputIndex) := by
  obtain ⟨amount, pk⟩ := result
  cases input with
  | ecash input =>
      obtain ⟨_, _, _, _, same⟩ := Ecash.processInput_ok (mapError_eq_ok.mp processed)
      subst same
      exact Or.inr ⟨rfl, rfl⟩
  | onchain input =>
      have processed := mapError_eq_ok.mp processed
      obtain ⟨_, _, checked, _⟩ := Onchain.processInput_ok processed
      exact Or.inl ⟨input.outputIndex, rfl, checked.unspent,
        (onchain_processInput_frame processed).2⟩
  | lightning input =>
      cases input with
      | outgoing outpoint witness =>
          obtain ⟨_, _, _, _, _, _, same⟩ :=
            Lightning.processInput_outgoing_ok (mapError_eq_ok.mp processed)
          subst same
          exact Or.inr ⟨rfl, rfl⟩
      | incoming outpoint =>
          obtain ⟨_, _, _, _, _, _, same⟩ :=
            Lightning.processInput_incoming_ok (mapError_eq_ok.mp processed)
          subst same
          exact Or.inr ⟨rfl, rfl⟩

theorem processOutput_spentTables {output : Output} {outpoint : OutPoint} {amount : Nat}
    (processed : processOutput server ledger outpoint output = .ok (amount, after)) :
    after.noteNonce = ledger.noteNonce ∧ after.spentOutputIndex = ledger.spentOutputIndex := by
  cases output with
  | ecash output =>
      obtain ⟨_, ⟨_, _, same⟩, _⟩ := Ecash.processOutput_ok (mapError_eq_ok.mp processed)
      subst same
      exact ⟨rfl, rfl⟩
  | onchain output =>
      obtain ⟨claims, spent⟩ := onchain_processOutput_frame (mapError_eq_ok.mp processed)
      exact ⟨claims.noteNonce, spent⟩
  | lightning output =>
      cases output with
      | outgoing contract =>
          obtain ⟨_, _, same⟩ :=
            Lightning.processOutput_outgoing_ok (mapError_eq_ok.mp processed)
          subst same
          exact ⟨rfl, rfl⟩
      | incoming contract =>
          obtain ⟨_, same⟩ := Lightning.processOutput_incoming_ok (mapError_eq_ok.mp processed)
          subst same
          exact ⟨rfl, rfl⟩

variable {items : List (NodeId × ConsensusItem curve)} {final : History curve}

theorem spent_notes_nodup (ran : History.run server History.start items = some final) :
    (final.spent Input.note).Nodup := by
  refine History.spent_nodup
    (spends_of_table Ledger.noteNonce (fun _ _ _ _ => processInput_noteNonce)) trivial
    (fun _ _ _ _ _ => trivial) (fun _ _ _ _ _ _ _ => trivial) ?_ ?_ ran
  · intro ledger middle after tx results amounts _ _ accepted key before
    exact accepted.outputs.preserves
      (motive := fun ledger => ledger.noteNonce.contains key = true)
      (fun _ _ _ _ _ processed gone => by rwa [(processOutput_spentTables processed).1]) before
  · intro ledger after node item processed notTx key before
    rwa [(processConsensusItem_sameAccounts processed notTx).noteNonce]

theorem spent_tracked_nodup (ran : History.run server History.start items = some final) :
    (final.spent Input.tracked).Nodup := by
  refine History.spent_nodup
    (spends_of_table Ledger.spentOutputIndex (fun _ _ _ _ => processInput_spentOutputIndex))
    trivial (fun _ _ _ _ _ => trivial) (fun _ _ _ _ _ _ _ => trivial) ?_ ?_ ran
  · intro ledger middle after tx results amounts _ _ accepted key before
    exact accepted.outputs.preserves
      (motive := fun ledger => ledger.spentOutputIndex.contains key = true)
      (fun _ _ _ _ _ processed gone => by rwa [(processOutput_spentTables processed).2]) before
  · intro ledger after node item processed notTx key before
    rwa [(processConsensusItem_sameAccounts processed notTx).spentOutputIndex]

/-! ### Contracts -/

/-- The outpoint holds a contract of either kind. -/
def Funded (ledger : Ledger curve) (outpoint : OutPoint) : Prop :=
  (∃ contract, ledger.outgoingContract.get? outpoint = some contract) ∨
    ∃ contract, ledger.incomingContract.get? outpoint = some contract

/-- Contracts are held under outpoints of accepted transactions, or of the
given transaction below the given index, and under one kind each. -/
structure ContractsOwned (txid : TransactionId) (index : Nat) (ledger : Ledger curve) : Prop where
  owned : ∀ outpoint, Funded ledger outpoint →
    ledger.acceptedTxid.contains outpoint.txid = true ∨
      (outpoint.txid = txid ∧ outpoint.outIdx < index)
  apart : ∀ outpoint contract, ledger.outgoingContract.get? outpoint = some contract →
    ledger.incomingContract.get? outpoint = none

def ContractGone (ledger : Ledger curve) (outpoint : OutPoint) : Prop :=
  ledger.acceptedTxid.contains outpoint.txid = true ∧ ¬ Funded ledger outpoint

theorem processInput_contracts {input : Input} {result : Nat × XOnlyPublicKey}
    (processed : processInput mint ledger input = .ok (result, after)) :
    after.acceptedTxid = ledger.acceptedTxid ∧
      ((∃ outpoint contract, input.contract = some outpoint ∧
          ledger.outgoingContract.get? outpoint = some contract ∧
          after.outgoingContract = ledger.outgoingContract.erase outpoint ∧
          after.incomingContract = ledger.incomingContract) ∨
        (∃ outpoint contract, input.contract = some outpoint ∧
          ledger.incomingContract.get? outpoint = some contract ∧
          after.outgoingContract = ledger.outgoingContract ∧
          after.incomingContract = ledger.incomingContract.erase outpoint) ∨
        (input.contract = none ∧ after.outgoingContract = ledger.outgoingContract ∧
          after.incomingContract = ledger.incomingContract)) := by
  obtain ⟨amount, pk⟩ := result
  cases input with
  | ecash input =>
      obtain ⟨_, _, _, _, same⟩ := Ecash.processInput_ok (mapError_eq_ok.mp processed)
      subst same
      exact ⟨rfl, Or.inr (Or.inr ⟨rfl, rfl, rfl⟩)⟩
  | onchain input =>
      obtain ⟨claims, _⟩ := onchain_processInput_frame (mapError_eq_ok.mp processed)
      exact ⟨claims.acceptedTxid,
        Or.inr (Or.inr ⟨rfl, claims.outgoingContract, claims.incomingContract⟩)⟩
  | lightning input =>
      cases input with
      | outgoing outpoint witness =>
          obtain ⟨contract, _, found, _, _, _, same⟩ :=
            Lightning.processInput_outgoing_ok (mapError_eq_ok.mp processed)
          subst same
          exact ⟨rfl, Or.inl ⟨outpoint, contract, rfl, found, rfl, rfl⟩⟩
      | incoming outpoint =>
          obtain ⟨contract, _, found, _, _, _, same⟩ :=
            Lightning.processInput_incoming_ok (mapError_eq_ok.mp processed)
          subst same
          exact ⟨rfl, Or.inr (Or.inl ⟨outpoint, contract, rfl, found, rfl, rfl⟩)⟩

theorem processOutput_contracts {output : Output} {outpoint : OutPoint} {amount : Nat}
    (processed : processOutput server ledger outpoint output = .ok (amount, after)) :
    after.acceptedTxid = ledger.acceptedTxid ∧
      ((∃ contract,
          after.outgoingContract = ledger.outgoingContract.insert outpoint contract ∧
          after.incomingContract = ledger.incomingContract) ∨
        (∃ contract, after.outgoingContract = ledger.outgoingContract ∧
          after.incomingContract = ledger.incomingContract.insert outpoint contract) ∨
        (after.outgoingContract = ledger.outgoingContract ∧
          after.incomingContract = ledger.incomingContract)) := by
  cases output with
  | ecash output =>
      obtain ⟨_, ⟨_, _, same⟩, _⟩ := Ecash.processOutput_ok (mapError_eq_ok.mp processed)
      subst same
      exact ⟨rfl, Or.inr (Or.inr ⟨rfl, rfl⟩)⟩
  | onchain output =>
      obtain ⟨claims, _⟩ := onchain_processOutput_frame (mapError_eq_ok.mp processed)
      exact ⟨claims.acceptedTxid,
        Or.inr (Or.inr ⟨claims.outgoingContract, claims.incomingContract⟩)⟩
  | lightning output =>
      cases output with
      | outgoing contract =>
          obtain ⟨_, _, same⟩ :=
            Lightning.processOutput_outgoing_ok (mapError_eq_ok.mp processed)
          subst same
          exact ⟨rfl, Or.inl ⟨contract, rfl, rfl⟩⟩
      | incoming contract =>
          obtain ⟨_, same⟩ := Lightning.processOutput_incoming_ok (mapError_eq_ok.mp processed)
          subst same
          exact ⟨rfl, Or.inr (Or.inl ⟨contract, rfl, rfl⟩)⟩

theorem funded_of_erase {outpoint other : OutPoint}
    (shrunk : (after.outgoingContract = ledger.outgoingContract.erase outpoint ∧
        after.incomingContract = ledger.incomingContract) ∨
      (after.outgoingContract = ledger.outgoingContract ∧
        after.incomingContract = ledger.incomingContract.erase outpoint))
    (funded : Funded after other) : Funded ledger other := by
  rcases shrunk with ⟨outgoing, incoming⟩ | ⟨outgoing, incoming⟩
  · rcases funded with ⟨contract, found⟩ | ⟨contract, found⟩
    · rw [outgoing, SortedMap.get?_erase] at found
      split at found
      · cases found
      · exact Or.inl ⟨contract, found⟩
    · exact Or.inr ⟨contract, incoming ▸ found⟩
  · rcases funded with ⟨contract, found⟩ | ⟨contract, found⟩
    · exact Or.inl ⟨contract, outgoing ▸ found⟩
    · rw [incoming, SortedMap.get?_erase] at found
      split at found
      · cases found
      · exact Or.inr ⟨contract, found⟩

theorem processInput_funded {input : Input} {result : Nat × XOnlyPublicKey}
    (processed : processInput mint ledger input = .ok (result, after)) {outpoint : OutPoint}
    (funded : Funded after outpoint) : Funded ledger outpoint := by
  rcases (processInput_contracts processed).2 with ⟨_, _, _, _, outgoing, incoming⟩ |
    ⟨_, _, _, _, outgoing, incoming⟩ | ⟨_, outgoing, incoming⟩
  · exact funded_of_erase (Or.inl ⟨outgoing, incoming⟩) funded
  · exact funded_of_erase (Or.inr ⟨outgoing, incoming⟩) funded
  · unfold Funded at funded ⊢
    rwa [outgoing, incoming] at funded

theorem processInput_owned {input : Input} {result : Nat × XOnlyPublicKey}
    (processed : processInput mint ledger input = .ok (result, after)) {txid : TransactionId}
    {index : Nat} (owned : ContractsOwned txid index ledger) : ContractsOwned txid index after := by
  obtain ⟨sameTxids, contracts⟩ := processInput_contracts processed
  constructor
  · intro outpoint funded
    rw [sameTxids]
    exact owned.owned outpoint (processInput_funded processed funded)
  · intro outpoint contract found
    rcases contracts with ⟨_, _, _, _, outgoing, incoming⟩ | ⟨_, _, _, _, outgoing, incoming⟩ |
      ⟨_, outgoing, incoming⟩
    · rw [outgoing, SortedMap.get?_erase] at found
      split at found
      · cases found
      · rw [incoming]
        exact owned.apart outpoint contract found
    · rw [outgoing] at found
      rw [incoming, SortedMap.get?_erase, owned.apart outpoint contract found, ite_self]
    · rw [outgoing] at found
      rw [incoming]
      exact owned.apart outpoint contract found

theorem contracts_spends (txid : TransactionId) :
    Spends mint Input.contract (@ContractGone curve) (ContractsOwned txid 0) where
  kept := fun _ _ _ _ processed owned => processInput_owned processed owned
  stays := by
    rintro ledger after input result processed outpoint ⟨known, empty⟩
    refine ⟨?_, fun funded => empty (processInput_funded processed funded)⟩
    rwa [(processInput_contracts processed).1]
  spends := by
    intro ledger after input result processed owned outpoint named
    obtain ⟨sameTxids, contracts⟩ := processInput_contracts processed
    have accepted : Funded ledger outpoint →
        ledger.acceptedTxid.contains outpoint.txid = true :=
      fun funded => (owned.owned outpoint funded).resolve_right (fun own => by omega)
    unfold ContractGone
    rw [sameTxids]
    rcases contracts with ⟨other, contract, isOther, found, outgoing, incoming⟩ |
      ⟨other, contract, isOther, found, outgoing, incoming⟩ | ⟨unnamed, _⟩
    · cases Option.some.inj (isOther.symm.trans named)
      refine ⟨fun gone => gone.2 (Or.inl ⟨contract, found⟩),
        accepted (Or.inl ⟨contract, found⟩), ?_⟩
      rintro (⟨left, still⟩ | ⟨left, still⟩)
      · rw [outgoing, SortedMap.get?_erase_self] at still
        cases still
      · rw [incoming, owned.apart outpoint contract found] at still
        cases still
    · cases Option.some.inj (isOther.symm.trans named)
      refine ⟨fun gone => gone.2 (Or.inr ⟨contract, found⟩),
        accepted (Or.inr ⟨contract, found⟩), ?_⟩
      rintro (⟨left, still⟩ | ⟨left, still⟩)
      · rw [outgoing] at still
        cases (owned.apart outpoint left still).symm.trans found
      · rw [incoming, SortedMap.get?_erase_self] at still
        cases still
    · cases unnamed.symm.trans named

/-! ### Outputs fund fresh outpoints -/

theorem ContractsOwned.ofAccepted {txid other : TransactionId} {index : Nat}
    (owned : ContractsOwned txid 0 ledger) : ContractsOwned other index ledger where
  owned := fun outpoint funded =>
    Or.inl ((owned.owned outpoint funded).resolve_right (fun own => by omega))
  apart := owned.apart

theorem ContractsOwned.unfunded {txid : TransactionId} {index : Nat}
    (owned : ContractsOwned txid index ledger)
    (fresh : ledger.acceptedTxid.contains txid = false) :
    ¬ Funded ledger { txid, outIdx := index } := by
  intro funded
  rcases owned.owned _ funded with accepted | ⟨_, below⟩
  · rw [fresh] at accepted
    cases accepted
  · exact absurd below (lt_irrefl index)

theorem processOutput_funded {output : Output} {outpoint other : OutPoint} {amount : Nat}
    (processed : processOutput server ledger outpoint output = .ok (amount, after))
    (funded : Funded after other) : Funded ledger other ∨ other = outpoint := by
  by_cases same : outpoint = other
  · exact Or.inr same.symm
  · refine Or.inl ?_
    unfold Funded at funded ⊢
    rcases (processOutput_contracts processed).2 with ⟨_, outgoing, incoming⟩ |
      ⟨_, outgoing, incoming⟩ | ⟨outgoing, incoming⟩
    · rwa [outgoing, incoming, SortedMap.get?_insert_of_ne _ _ same] at funded
    · rwa [outgoing, incoming, SortedMap.get?_insert_of_ne _ _ same] at funded
    · rwa [outgoing, incoming] at funded

theorem processOutput_owned {output : Output} {txid : TransactionId} {index amount : Nat}
    (processed : processOutput server ledger { txid, outIdx := index } output =
      .ok (amount, after))
    (fresh : ledger.acceptedTxid.contains txid = false)
    (owned : ContractsOwned txid index ledger) : ContractsOwned txid (index + 1) after := by
  obtain ⟨sameTxids, contracts⟩ := processOutput_contracts processed
  have unfunded := owned.unfunded fresh
  constructor
  · intro outpoint funded
    rw [sameTxids]
    rcases processOutput_funded processed funded with before | own
    · rcases owned.owned outpoint before with accepted | ⟨sameTxid, below⟩
      · exact Or.inl accepted
      · exact Or.inr ⟨sameTxid, below.trans (Nat.lt_succ_self index)⟩
    · subst own
      exact Or.inr ⟨rfl, Nat.lt_succ_self index⟩
  · intro outpoint contract found
    rcases contracts with ⟨new, outgoing, incoming⟩ | ⟨new, outgoing, incoming⟩ |
      ⟨outgoing, incoming⟩
    · rw [incoming]
      by_cases own : ({ txid, outIdx := index } : OutPoint) = outpoint
      · subst own
        cases absent : ledger.incomingContract.get? { txid, outIdx := index } with
        | none => rfl
        | some other => exact absurd (Or.inr ⟨other, absent⟩) unfunded
      · rw [outgoing, SortedMap.get?_insert_of_ne _ _ own] at found
        exact owned.apart outpoint contract found
    · rw [outgoing] at found
      rw [incoming]
      by_cases own : ({ txid, outIdx := index } : OutPoint) = outpoint
      · subst own
        exact absurd (Or.inl ⟨contract, found⟩) unfunded
      · rw [SortedMap.get?_insert_of_ne _ _ own]
        exact owned.apart outpoint contract found
    · rw [outgoing] at found
      rw [incoming]
      exact owned.apart outpoint contract found

theorem OutputsProcessed.owned {txid : TransactionId} {outputs : List Output} {index : Nat}
    {amounts : List Nat}
    (processed : OutputsProcessed server txid ledger (outputs.zipIdx index) amounts after)
    (fresh : ledger.acceptedTxid.contains txid = false)
    (owned : ContractsOwned txid index ledger) :
    ContractsOwned txid (index + outputs.length) after ∧
      after.acceptedTxid = ledger.acceptedTxid ∧
      ∀ outpoint, Funded after outpoint → Funded ledger outpoint ∨ outpoint.txid = txid := by
  induction outputs generalizing ledger index amounts with
  | nil =>
      cases processed
      exact ⟨owned, rfl, fun _ => Or.inl⟩
  | cons output rest inductionHypothesis =>
      rw [List.zipIdx_cons] at processed
      cases processed with
      | cons first following =>
          have sameFirst := (processOutput_contracts first).1
          obtain ⟨final, same, funded⟩ := inductionHypothesis following (by rwa [sameFirst])
            (processOutput_owned first fresh owned)
          rw [List.length_cons, Nat.add_comm rest.length, ← Nat.add_assoc]
          refine ⟨final, same.trans sameFirst, ?_⟩
          intro outpoint later
          rcases funded outpoint later with middle | own
          · rcases processOutput_funded first middle with before | here
            · exact Or.inl before
            · exact Or.inr (congrArg OutPoint.txid here)
          · exact Or.inr own

theorem InputsProcessed.acceptedTxid {inputs : List Input}
    {results : List (Nat × XOnlyPublicKey)}
    (processed : InputsProcessed mint ledger inputs results after) :
    after.acceptedTxid = ledger.acceptedTxid :=
  processed.preserves (motive := fun reached => reached.acceptedTxid = ledger.acceptedTxid)
    (fun _ _ _ _ step same => (processInput_contracts step).1.trans same) rfl

theorem InputsProcessed.owned {inputs : List Input} {results : List (Nat × XOnlyPublicKey)}
    {txid : TransactionId} {index : Nat}
    (processed : InputsProcessed mint ledger inputs results after)
    (owned : ContractsOwned txid index ledger) : ContractsOwned txid index after :=
  processed.preserves (fun _ _ _ _ step owned => processInput_owned step owned) owned

theorem Accepted.owned {tx : Transaction} {results : List (Nat × XOnlyPublicKey)}
    {amounts : List Nat} (accepted : Accepted server ledger tx results middle amounts after)
    (fresh : ledger.acceptedTxid.contains (computeTxid server.toMintConfig tx) = false)
    (owned : ContractsOwned 0 0 ledger) :
    ContractsOwned 0 0 { after with
        acceptedTxid := after.acceptedTxid.insert (computeTxid server.toMintConfig tx) ⟨⟩ } ∧
      after.acceptedTxid = ledger.acceptedTxid ∧
      ∀ outpoint, Funded after outpoint →
        Funded middle outpoint ∨ outpoint.txid = computeTxid server.toMintConfig tx := by
  have sameMiddle := accepted.inputs.acceptedTxid
  obtain ⟨final, same, funded⟩ := accepted.outputs.owned (by rwa [sameMiddle])
    (accepted.inputs.owned owned).ofAccepted
  refine ⟨⟨?_, final.apart⟩, same.trans sameMiddle, funded⟩
  intro outpoint held
  apply Or.inl
  apply (SortedMap.contains_insert _ _ _ _).mpr
  rcases final.owned outpoint held with known | ⟨own, _⟩
  · exact Or.inr known
  · exact Or.inl own.symm

theorem processTxItem_owned {tx : Transaction}
    (processed : processTxItem server ledger tx = .ok after)
    (owned : ContractsOwned 0 0 ledger) : ContractsOwned 0 0 after := by
  obtain ⟨fresh, judged, judgedTx, result⟩ := processTxItem_ok processed
  obtain ⟨_, _, _, accepted⟩ := processTx_ok judgedTx
  rw [result]
  exact (accepted.owned fresh owned).1

theorem processConsensusItem_owned {node : NodeId} {item : ConsensusItem curve}
    (processed : processConsensusItem server ledger node item = .ok after)
    (notTx : ∀ tx, item ≠ .tx tx) (owned : ContractsOwned 0 0 ledger) :
    ContractsOwned 0 0 after := by
  have same := processConsensusItem_sameAccounts processed notTx
  constructor
  · intro outpoint funded
    unfold Funded at funded
    rw [same.outgoingContract, same.incomingContract] at funded
    rw [same.acceptedTxid]
    exact owned.owned outpoint funded
  · rw [same.outgoingContract, same.incomingContract]
    exact owned.apart

theorem empty_owned : ContractsOwned 0 0 (Ledger.empty : Ledger curve) where
  owned := by
    rintro outpoint (⟨_, found⟩ | ⟨_, found⟩) <;> cases found
  apart := fun _ _ found => by cases found

theorem spent_contracts_nodup (ran : History.run server History.start items = some final) :
    (final.spent Input.contract).Nodup := by
  refine History.spent_nodup (contracts_spends 0) empty_owned
    (fun _ _ _ processed => processTxItem_owned processed)
    (fun _ _ _ _ processed notTx => processConsensusItem_owned processed notTx) ?_ ?_ ran
  · rintro ledger middle after tx results amounts fresh owned accepted outpoint ⟨known, empty⟩
    obtain ⟨_, same, funded⟩ := accepted.owned fresh owned
    have sameMiddle := accepted.inputs.acceptedTxid
    rw [sameMiddle] at known
    refine ⟨?_, ?_⟩
    · change (after.acceptedTxid.insert _ _).contains _ = true
      rw [same]
      exact (SortedMap.contains_insert _ _ _ _).mpr (Or.inr known)
    · intro later
      rcases funded outpoint later with before | own
      · exact empty before
      · rw [own, fresh] at known
        cases known
  · rintro ledger after node item processed notTx outpoint ⟨known, empty⟩
    have same := processConsensusItem_sameAccounts processed notTx
    unfold ContractGone Funded
    rw [same.acceptedTxid, same.outgoingContract, same.incomingContract]
    exact ⟨known, empty⟩

end Consensus

end Picomint
