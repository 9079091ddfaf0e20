/-
The mint's transactions as one chain.

Every mint transaction of a run spends the change of the one before it, and a
transaction cannot spend an output of itself or of a descendant.  What the
inputs spend is compared with the outputs that really stand on the chain.
-/

import Picomint.Consensus.Wallet

namespace Picomint.Consensus

open Tss

variable {curve : Curve} {server : Server curve} {mint : MintConfig curve}
  {ledger after : Ledger curve}

/-! ### The mint transactions of a run -/

/-- The mint transaction an item created, if any. -/
def newMintTxs (ledger after : Ledger curve) : List (MintTx curve) :=
  match ledger.unsignedTx with
  | none => after.unsignedTx.toList
  | some _ => []

/-- The mint transactions created by the items, in order. -/
def History.mintTxs (server : Server curve) :
    History curve → List (NodeId × ConsensusItem curve) → List (MintTx curve)
  | _, [] => []
  | history, entry :: rest =>
      match History.step server history entry with
      | none => []
      | some next => newMintTxs history.ledger next.ledger ++ mintTxs server next rest

theorem newMintTxs_self (ledger : Ledger curve) : newMintTxs ledger ledger = [] := by
  unfold newMintTxs
  cases unsigned : ledger.unsignedTx with
  | none => rfl
  | some mintTx => rfl

theorem newMintTxs_kept (unsigned : after.unsignedTx = ledger.unsignedTx) :
    newMintTxs ledger after = [] := by
  unfold newMintTxs
  rw [unsigned]
  cases ledger.unsignedTx with
  | none => rfl
  | some mintTx => rfl

theorem newMintTxs_cleared (unsigned : after.unsignedTx = none) : newMintTxs ledger after = [] := by
  unfold newMintTxs
  rw [unsigned]
  cases ledger.unsignedTx with
  | none => rfl
  | some mintTx => rfl

theorem newMintTxs_begun {mintTx : MintTx curve} (idle : ledger.unsignedTx = none)
    (unsigned : after.unsignedTx = some mintTx) : newMintTxs ledger after = [mintTx] := by
  unfold newMintTxs
  rw [idle, unsigned]
  rfl

namespace History

theorem mintTxs_append {first second : List (NodeId × ConsensusItem curve)}
    {history next : History curve} (ran : run server history first = some next) :
    mintTxs server history (first ++ second) =
      mintTxs server history first ++ mintTxs server next second := by
  induction first generalizing history with
  | nil =>
      cases ran
      rfl
  | cons entry rest inductionHypothesis =>
      unfold run at ran
      rw [List.foldlM_cons, Option.bind_eq_bind, Option.bind_eq_some_iff] at ran
      obtain ⟨middle, stepped, following⟩ := ran
      rw [List.cons_append, mintTxs, mintTxs, stepped]
      simp only
      rw [inductionHypothesis following, List.append_assoc]

theorem mintTxs_concat {items : List (NodeId × ConsensusItem curve)} {history middle next :
    History curve} {entry : NodeId × ConsensusItem curve}
    (ran : run server history items = some middle) (stepped : step server middle entry = some next) :
    mintTxs server history (items ++ [entry]) =
      mintTxs server history items ++ newMintTxs middle.ledger next.ledger := by
  rw [mintTxs_append ran]
  simp only [mintTxs, stepped, List.append_nil]

end History

/-! ### Steps of an invariant on the wallet -/

/-- The tables of the wallet, which only transactions and finished signatures
change. -/
structure SameWallet (ledger after : Ledger curve) : Prop where
  mintUtxo : after.mintUtxo = ledger.mintUtxo
  txInfo : after.txInfo = ledger.txInfo
  spentOutputIndex : after.spentOutputIndex = ledger.spentOutputIndex
  unsignedTx : after.unsignedTx = ledger.unsignedTx ∨ after.unsignedTx = none

/-- An accepted transaction is a sequence of wallet steps, which create at most
one mint transaction between them. -/
theorem processTxItem_wallet {motive : Ledger curve → List (MintTx curve) → Prop} {tx : Transaction}
    {created : List (MintTx curve)} (processed : processTxItem server ledger tx = .ok after)
    (frame : ∀ (before next : Ledger curve) (created : List (MintTx curve)),
      SameWallet before next → SameTracking before next →
      next.unsignedTx = before.unsignedTx → motive before created → motive next created)
    (step : ∀ (before next : Ledger curve) (created : List (MintTx curve)),
      WalletStep server.toMintConfig before next → SameTracking before next →
      motive before created → motive next (created ++ newMintTxs before next))
    (holds : motive ledger created) : motive after (created ++ newMintTxs ledger after) := by
  obtain ⟨_, judged, judgedOk, result⟩ := processTxItem_ok processed
  let carried : Ledger curve → Prop := fun next =>
    motive next (created ++ newMintTxs ledger next) ∧
      (ledger.unsignedTx ≠ none → next.unsignedTx = ledger.unsignedTx)
  have one : ∀ {before next : Ledger curve}, WalletStep server.toMintConfig before next →
      SameTracking before next → carried before → carried next := by
    rintro before next walletStep tracking ⟨inductive', unsigned⟩
    have stepped := step before next _ walletStep tracking inductive'
    have begun : newMintTxs ledger before ++ newMintTxs before next = newMintTxs ledger next ∧
        (ledger.unsignedTx ≠ none → next.unsignedTx = ledger.unsignedTx) := by
      have sameUnsigned : next.unsignedTx = before.unsignedTx →
          newMintTxs ledger before ++ newMintTxs before next = newMintTxs ledger next ∧
            (ledger.unsignedTx ≠ none → next.unsignedTx = ledger.unsignedTx) := by
        intro same
        constructor
        · rw [newMintTxs_kept same, List.append_nil]
          unfold newMintTxs
          rw [same]
        · exact fun pending => same.trans (unsigned pending)
      cases walletStep with
      | kept _ _ same _ => exact sameUnsigned same
      | adopted _ _ _ _ _ same _ => exact sameUnsigned same
      | extended wallet deposit mintTx changeValue extension =>
          have idle : ledger.unsignedTx = none := by
            by_contra pending
            exact pending ((unsigned pending).symm.trans extension.idle)
          constructor
          · rw [newMintTxs_cleared extension.idle, newMintTxs_begun extension.idle
              extension.unsigned, newMintTxs_begun idle extension.unsigned]
            rfl
          · exact fun pending => absurd idle pending
    refine ⟨?_, begun.2⟩
    rw [← begun.1, ← List.append_assoc]
    exact stepped
  have final : carried judged := by
    apply processTx_preserves (motive := carried) judgedOk
    · intro before next input result processed holds
      obtain ⟨walletStep, tracking⟩ := processInput_walletStep processed
      exact one walletStep tracking holds
    · intro before next outpoint output amount processed holds
      obtain ⟨walletStep, tracking⟩ := processOutput_walletStep processed
      exact one walletStep tracking holds
    · refine ⟨?_, fun _ => rfl⟩
      rw [newMintTxs_self, List.append_nil]
      exact holds
  subst result
  exact frame judged _ _ ⟨rfl, rfl, rfl, Or.inl rfl⟩ ⟨rfl, rfl⟩ rfl final.1

/-- Other items leave the wallet alone and create no mint transaction. -/
theorem processConsensusItem_wallet {node : NodeId} {item : ConsensusItem curve}
    (processed : processConsensusItem server ledger node item = .ok after)
    (notTx : ∀ tx, item ≠ .tx tx) :
    SameWallet ledger after ∧ newMintTxs ledger after = [] := by
  have accounts := processConsensusItem_sameAccounts processed notTx
  have unsigned : after.unsignedTx = ledger.unsignedTx ∨ after.unsignedTx = none := by
    cases item with
    | tx tx => exact absurd rfl (notTx tx)
    | blockHeight vote =>
        obtain ⟨height, result⟩ := processBlockHeight_ok processed
        subst result
        exact Or.inl rfl
    | version vote =>
        have result := processVersion_ok processed
        subst result
        exact Or.inl rfl
    | onchain item =>
        cases item with
        | block vote =>
            left
            obtain ⟨_, _, result | result⟩ := Onchain.processBlock_ok processed
            · subst result
              rfl
            · obtain ⟨output, unconfirmed, tracked⟩ := Onchain.trackTx_frame vote.txs
                ({ ledger with blockVote := ledger.blockVote.insert node vote },
                  nextIndex ledger.output)
              rw [tracked] at result
              subst result
              rfl
        | feerate vote =>
            have result := Onchain.processFeerate_ok processed
            subst result
            exact Or.inl rfl
        | nonces txid nonces =>
            obtain ⟨_, _, _, _, _, result⟩ := Onchain.processNonces_ok (mapError_eq_ok.mp processed)
            subst result
            exact Or.inl rfl
        | signatureShares txid shares nonces =>
            obtain ⟨_, _, _, _, ⟨_, result⟩ | ⟨_, _, _, result⟩⟩ :=
              Onchain.processSignatureShares_ok (mapError_eq_ok.mp processed)
            · subst result
              exact Or.inl rfl
            · subst result
              exact Or.inr rfl
  refine ⟨⟨accounts.mintUtxo, accounts.txInfo, accounts.spentOutputIndex, unsigned⟩, ?_⟩
  rcases unsigned with same | cleared
  · exact newMintTxs_kept same
  · exact newMintTxs_cleared cleared

/-! ### The order of the chain -/

/-- No transaction spends an output of itself or of a descendant. -/
def Acyclic (mint : MintConfig curve) (rank : Txid → Nat) : Prop :=
  ∀ outpoints outputs, ∀ outpoint ∈ outpoints,
    rank outpoint.txid < rank (mint.btcTxid outpoints outputs)

def MintTx.txid (mint : MintConfig curve) (mintTx : MintTx curve) : Txid :=
  Onchain.computeTxid mint mintTx.tx

theorem Acyclic.inputs {rank : Txid → Nat} (acyclic : Acyclic mint rank) (mintTx : MintTx curve) :
    ∀ outpoint ∈ mintTx.inputs, rank outpoint.txid < rank (mintTx.txid mint) :=
  acyclic _ _

/-- The wallet is the change of the newest mint transaction, and nothing spent
or created so far comes after it. -/
structure Linked (mint : MintConfig curve) (rank : Txid → Nat) (ledger : Ledger curve)
    (created : List (MintTx curve)) : Prop where
  held : ledger.mintUtxo = none → created = []
  newest : ∀ mintTx, ledger.unsignedTx = some mintTx → created.getLast? = some mintTx
  wallet : ∀ utxo mintTx, ledger.mintUtxo = some utxo → created.getLast? = some mintTx →
    utxo.outpoint = { txid := mintTx.txid mint, vout := 0 }
  older : ∀ utxo, ledger.mintUtxo = some utxo → ∀ mintTx ∈ created,
    (∀ outpoint ∈ mintTx.inputs, rank outpoint.txid < rank utxo.outpoint.txid) ∧
      rank (mintTx.txid mint) ≤ rank utxo.outpoint.txid
  increasing : (created.map (fun mintTx => rank (mintTx.txid mint))).Pairwise (· < ·)

section Linked

variable {rank : Txid → Nat} {created : List (MintTx curve)}

theorem Linked.empty : Linked mint rank (Ledger.empty : Ledger curve) [] where
  held := fun _ => rfl
  newest := fun _ unsigned => by cases unsigned
  wallet := fun _ _ held => by cases held
  older := fun _ held => by cases held
  increasing := List.Pairwise.nil

theorem Linked.frame (linked : Linked mint rank ledger created) (same : SameWallet ledger after) :
    Linked mint rank after created where
  held := by
    rw [same.mintUtxo]
    exact linked.held
  newest := by
    intro mintTx unsigned
    rcases same.unsignedTx with kept | cleared
    · exact linked.newest mintTx (kept ▸ unsigned)
    · cases cleared.symm.trans unsigned
  wallet := by
    rw [same.mintUtxo]
    exact linked.wallet
  older := by
    rw [same.mintUtxo]
    exact linked.older
  increasing := linked.increasing

theorem Linked.step (acyclic : Acyclic mint rank) (linked : Linked mint rank ledger created)
    (walletStep : WalletStep mint ledger after) :
    Linked mint rank after (created ++ newMintTxs ledger after) := by
  cases walletStep with
  | kept wallet infos unsigned spent =>
      rw [newMintTxs_kept unsigned, List.append_nil]
      exact linked.frame ⟨wallet, infos, spent, Or.inl unsigned⟩
  | adopted deposit valid absent wallet infos unsigned spent =>
      have none := linked.held absent
      rw [newMintTxs_kept unsigned, List.append_nil, none]
      constructor
      · exact fun _ => rfl
      · intro mintTx pending
        have newest := linked.newest mintTx (unsigned ▸ pending)
        rw [none] at newest
        cases newest
      · intro utxo mintTx _ last
        cases last
      · intro utxo _ mintTx member
        cases member
      · exact List.Pairwise.nil
  | extended wallet deposit mintTx changeValue extension =>
      rw [newMintTxs_begun extension.idle extension.unsigned]
      have below := acyclic.inputs mintTx
      have spendsWallet : rank wallet.outpoint.txid < rank (mintTx.txid mint) := by
        apply below
        rw [extension.inputs]
        exact List.mem_cons_self
      have older := linked.older wallet extension.held
      constructor
      · intro absent
        rw [extension.advanced] at absent
        cases absent
      · intro unsigned pending
        cases Option.some.inj (extension.unsigned.symm.trans pending)
        exact List.getLast?_concat
      · intro utxo newest held last
        rw [List.getLast?_concat] at last
        cases last
        cases Option.some.inj (extension.advanced.symm.trans held)
        rfl
      · intro utxo held other member
        cases Option.some.inj (extension.advanced.symm.trans held)
        change (∀ outpoint ∈ other.inputs, rank outpoint.txid < rank (mintTx.txid mint)) ∧
          rank (other.txid mint) ≤ rank (mintTx.txid mint)
        rcases List.mem_append.mp member with earlier | new
        · constructor
          · exact fun outpoint spent => ((older other earlier).1 outpoint spent).trans spendsWallet
          · exact (older other earlier).2.trans spendsWallet.le
        · rw [List.mem_singleton.mp new]
          exact ⟨below, le_refl _⟩
      · rw [List.map_append, List.pairwise_append]
        refine ⟨linked.increasing, List.pairwise_singleton _ _, ?_⟩
        intro earlier member new isNew
        obtain ⟨other, inCreated, same⟩ := List.mem_map.mp member
        rw [List.map_singleton, List.mem_singleton] at isNew
        rw [isNew, ← same]
        exact lt_of_le_of_lt (older other inCreated).2 spendsWallet

theorem History.run_linked {items : List (NodeId × ConsensusItem curve)} {history : History curve}
    (acyclic : Acyclic server.toMintConfig rank)
    (ran : History.run server History.start items = some history) :
    Linked server.toMintConfig rank history.ledger
      (History.mintTxs server History.start items) := by
  apply History.run_induction (motive := fun items history =>
    Linked server.toMintConfig rank history.ledger
      (History.mintTxs server History.start items)) ran
  · exact Linked.empty
  · intro items history next entry reached stepped linked
    rw [History.mintTxs_concat reached stepped]
    rcases History.step_cases stepped with same | ⟨tx, _, accepted, _⟩ | ⟨accepted, notTx, _⟩
    · rw [same, newMintTxs_self, List.append_nil]
      exact linked
    · apply processTxItem_wallet (motive := Linked server.toMintConfig rank) accepted
      · exact fun before next created same _ _ linked => linked.frame same
      · exact fun before next created walletStep _ linked => linked.step acyclic walletStep
      · exact linked
    · obtain ⟨same, none⟩ := processConsensusItem_wallet accepted notTx
      rw [none, List.append_nil]
      exact linked.frame same

end Linked

theorem sample_acyclic : Acyclic sampleServer.toMintConfig id := by
  intro outpoints outputs outpoint member
  exact Nat.lt_succ_of_le (List.single_le_sum (fun _ _ => Nat.zero_le _) _
    (List.mem_map_of_mem member))

end Picomint.Consensus
