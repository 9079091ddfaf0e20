/-
The tracked height, the votes on its block and the transactions that wait for
one.

An item either leaves the three as they are, up to new waiting transactions,
or starts the tracking, or is a vote on the tracked block; a vote that
completes a threshold advances the height, clears the votes and drops the
transactions of the block.
-/

import Picomint.Consensus.WalletHistory

namespace Picomint.Consensus

open Tss

variable {curve : Curve} {server : Server curve} {mint : MintConfig curve}
  {ledger after : Ledger curve} {node : NodeId}

/-! ### What transactions leave alone -/

/-- The tables of the tracked block, and the ones that start it. -/
structure SameBlockVotes (ledger after : Ledger curve) : Prop where
  blockHeightVote : after.blockHeightVote = ledger.blockHeightVote
  blockHeight : after.blockHeight = ledger.blockHeight
  blockVote : after.blockVote = ledger.blockVote
  output : after.output = ledger.output
  unconfirmedTx : after.unconfirmedTx = ledger.unconfirmedTx

theorem processTxItem_blockVotes {tx : Transaction}
    (processed : processTxItem server ledger tx = .ok after) : SameBlockVotes ledger after := by
  have kept := processTxItem_beyond processed
  exact ⟨kept.blockHeightVote, kept.blockHeight, kept.blockVote, kept.output, kept.unconfirmedTx⟩

/-! ### Before the first block -/

/-- No deposit is known, so there is no wallet and nothing it sent. -/
structure Untouched (ledger : Ledger curve) : Prop where
  output : ledger.output = SortedMap.empty
  mintUtxo : ledger.mintUtxo = none
  unsignedTx : ledger.unsignedTx = none
  unconfirmedTx : ledger.unconfirmedTx = SortedMap.empty

theorem Untouched.empty : Untouched (Ledger.empty : Ledger curve) := ⟨rfl, rfl, rfl, rfl⟩

theorem processInput_untouched {input : Input} {result : Nat × XOnlyPublicKey}
    (untouched : Untouched ledger)
    (processed : processInput mint ledger input = .ok (result, after)) : Untouched after := by
  rcases processInput_onchain processed with same | ⟨onchain, _, step⟩
  · exact ⟨same.output.trans untouched.output, same.mintUtxo.trans untouched.mintUtxo,
      same.unsignedTx.trans untouched.unsignedTx,
      same.unconfirmedTx.trans untouched.unconfirmedTx⟩
  · obtain ⟨amount, pk⟩ := result
    obtain ⟨tracked, _, checked, _⟩ := Onchain.processInput_ok step
    have known := checked.known
    rw [untouched.output] at known
    cases known

theorem processOutput_untouched {output : Output} {outpoint : OutPoint} {amount : Nat}
    (untouched : Untouched ledger)
    (processed : processOutput server ledger outpoint output = .ok (amount, after)) :
    Untouched after := by
  rcases processOutput_onchain processed with same | ⟨onchain, _, step⟩
  · exact ⟨same.output.trans untouched.output, same.mintUtxo.trans untouched.mintUtxo,
      same.unsignedTx.trans untouched.unsignedTx,
      same.unconfirmedTx.trans untouched.unconfirmedTx⟩
  · obtain ⟨_, _, _, _, checked, _⟩ := Onchain.processOutput_ok step
    have held := checked.held
    rw [untouched.mintUtxo] at held
    cases held

theorem processTxItem_untouched {tx : Transaction} (untouched : Untouched ledger)
    (processed : processTxItem server ledger tx = .ok after) : Untouched after := by
  obtain ⟨_, judged, judgedOk, result⟩ := processTxItem_ok processed
  have kept : Untouched judged := by
    apply processTx_preserves (motive := Untouched) judgedOk
    · exact fun _ _ _ _ step untouched => processInput_untouched untouched step
    · exact fun _ _ _ _ _ step untouched => processOutput_untouched untouched step
    · exact untouched
  subst result
  exact ⟨kept.output, kept.mintUtxo, kept.unsignedTx, kept.unconfirmedTx⟩

/-! ### The start of the tracking -/

/-- A tracked height was started by a height above zero that a threshold of
nodes voted for. -/
def Started (mint : MintConfig curve) (ledger : Ledger curve) : Prop :=
  ledger.blockHeight = none ∨
    ∃ height, (consensusBlockHeight mint ledger : Outcome ItemError Nat) = .ok (height + 1)

theorem consensusBlockHeight_congr (same : after.blockHeightVote = ledger.blockHeightVote) :
    (consensusBlockHeight mint after : Outcome ItemError Nat) =
      consensusBlockHeight mint ledger := by
  unfold consensusBlockHeight
  rw [same]

theorem Started.frame (started : Started mint ledger)
    (votes : after.blockHeightVote = ledger.blockHeightVote)
    (height : after.blockHeight = none ↔ ledger.blockHeight = none) : Started mint after := by
  rcases started with absent | ⟨reached, voted⟩
  · exact Or.inl (height.mpr absent)
  · exact Or.inr ⟨reached, (consensusBlockHeight_congr votes).trans voted⟩

theorem processBlockHeight_started {vote : Nat} (started : Started mint ledger)
    (processed : processBlockHeight mint ledger node vote = .ok after) :
    Started mint after ∧ (after = { ledger with
        blockHeightVote := ledger.blockHeightVote.insert node vote } ∨
      ∃ height, ledger.blockHeight = none ∧ after = { ledger with
        blockHeightVote := ledger.blockHeightVote.insert node vote
        blockHeight := some height }) := by
  unfold processBlockHeight at processed
  simp only [bind_eq_ok, ensure_eq_ok, assert_eq_ok, decide_eq_true_eq] at processed
  obtain ⟨oldHeight, before, _, _, newHeight, counted, _, grown, result⟩ := processed
  cases result
  have recounted : ∀ height : Option Nat, (consensusBlockHeight mint { ledger with
      blockHeightVote := ledger.blockHeightVote.insert node vote
      blockHeight := height } : Outcome ItemError Nat) = .ok newHeight := fun _ => counted
  rcases started with absent | ⟨height, voted⟩
  · split
    · exact ⟨Or.inl absent, Or.inl rfl⟩
    · rename_i moved
      unfold Onchain.initializeBlockHeight
      split
      · rename_i zero
        obtain ⟨previous, successor⟩ : ∃ previous, newHeight = previous + 1 :=
          Nat.exists_eq_succ_of_ne_zero (fun same => moved (same.trans zero.symm))
        refine ⟨Or.inr ⟨previous, ?_⟩, Or.inr ⟨newHeight, absent, rfl⟩⟩
        rw [← successor]
        exact recounted _
      · exact ⟨Or.inl absent, Or.inl rfl⟩
  · rw [before] at voted
    cases voted
    obtain ⟨previous, successor⟩ : ∃ previous, newHeight = previous + 1 :=
      Nat.exists_eq_succ_of_ne_zero (by omega)
    have kept : Started mint { ledger with
        blockHeightVote := ledger.blockHeightVote.insert node vote } :=
      Or.inr ⟨previous, successor ▸ counted⟩
    split
    · exact ⟨kept, Or.inl rfl⟩
    · unfold Onchain.initializeBlockHeight
      rw [if_neg (Nat.succ_ne_zero height)]
      exact ⟨kept, Or.inl rfl⟩

/-! ### One item -/

/-- The nodes of a table whose vote is the given one. -/
def votesFor (votes : SortedMap NodeId BlockVote) (vote : BlockVote) : Nat :=
  (votes.values.filter (fun other => other = vote)).length

inductive Tracked (mint : MintConfig curve) (ledger : Ledger curve) (node : NodeId)
    (item : ConsensusItem curve) (after : Ledger curve) : Prop where
  | kept (height : after.blockHeight = ledger.blockHeight)
      (votes : after.blockVote = ledger.blockVote)
      (waiting : ∀ txid, ledger.unconfirmedTx.contains txid = true →
        after.unconfirmedTx.contains txid = true)
      (untouched : Untouched ledger → Untouched after)
  | begun (start : ledger.blockHeight = none)
      (votes : after.blockVote = ledger.blockVote)
      (waiting : after.unconfirmedTx = ledger.unconfirmedTx)
      (untouched : Untouched ledger → Untouched after)
  | voted (vote : BlockVote) (isVote : item = .onchain (.block vote))
      (height : ledger.blockHeight = some vote.height)
      (fresh : ledger.blockVote.contains node = false)
      (short : votesFor (ledger.blockVote.insert node vote) vote < Onchain.threshold mint)
      (result : after = { ledger with blockVote := ledger.blockVote.insert node vote })
  | advanced (vote : BlockVote) (isVote : item = .onchain (.block vote))
      (height : ledger.blockHeight = some vote.height)
      (fresh : ledger.blockVote.contains node = false)
      (full : Onchain.threshold mint ≤ votesFor (ledger.blockVote.insert node vote) vote)
      (next : after.blockHeight = some (vote.height + 1))
      (cleared : after.blockVote = SortedMap.empty)
      (waiting : ∀ txid, after.unconfirmedTx.get? txid =
        if txid ∈ blockTxids vote then none else ledger.unconfirmedTx.get? txid)

/-- A vote on the tracked block is counted, or completes a threshold. -/
theorem processBlock_votes {vote : BlockVote}
    (processed : Onchain.processBlock mint ledger node vote = .ok after) :
    ledger.blockHeight = some vote.height ∧ ledger.blockVote.contains node = false ∧
      ((votesFor (ledger.blockVote.insert node vote) vote < Onchain.threshold mint ∧
          after = { ledger with blockVote := ledger.blockVote.insert node vote }) ∨
        (Onchain.threshold mint ≤ votesFor (ledger.blockVote.insert node vote) vote ∧
          after.blockHeight = some (vote.height + 1) ∧ after.blockVote = SortedMap.empty ∧
          after.blockHeightVote = ledger.blockHeightVote ∧
          ∀ txid, after.unconfirmedTx.get? txid =
            if txid ∈ blockTxids vote then none else ledger.unconfirmedTx.get? txid)) := by
  unfold Onchain.processBlock at processed
  simp only [bind_eq_ok, ensure_eq_ok, decide_eq_true_eq, Bool.not_eq_true'] at processed
  obtain ⟨_, height, _, fresh, result⟩ := processed
  refine ⟨height.symm, fresh, ?_⟩
  split at result
  · rename_i full
    obtain ⟨_, _, waiting⟩ := Onchain.trackTxs_values vote.txs
      ({ ledger with blockVote := ledger.blockVote.insert node vote }, nextIndex ledger.output) rfl
    obtain ⟨output, unconfirmed, frame⟩ := Onchain.trackTx_frame vote.txs
      ({ ledger with blockVote := ledger.blockVote.insert node vote }, nextIndex ledger.output)
    cases result
    refine Or.inr ⟨full, rfl, rfl, ?_, waiting⟩
    change (vote.txs.foldl Onchain.trackTx _).1.blockHeightVote = _
    rw [frame]
  · rename_i short
    cases result
    exact Or.inl ⟨Nat.lt_of_not_le short, rfl⟩

theorem processBlock_accepts {vote : BlockVote} (height : ledger.blockHeight = some vote.height)
    (fresh : ledger.blockVote.contains node = false) :
    ∃ after, Onchain.processBlock mint ledger node vote = .ok after := by
  unfold Onchain.processBlock
  simp only [bind_eq_ok, ensure_eq_ok, decide_eq_true_eq, Bool.not_eq_true']
  by_cases full : Onchain.threshold mint ≤ votesFor (ledger.blockVote.insert node vote) vote
  · exact ⟨_, ⟨⟩, height.symm, ⟨⟩, fresh, if_pos full⟩
  · exact ⟨_, ⟨⟩, height.symm, ⟨⟩, fresh, if_neg full⟩

theorem processBlock_tracked {vote : BlockVote} (started : Started mint ledger)
    (processed : Onchain.processBlock mint ledger node vote = .ok after) :
    Started mint after ∧ Tracked mint ledger node (.onchain (.block vote)) after := by
  obtain ⟨height, fresh, ⟨short, result⟩ | ⟨full, next, cleared, heights, waiting⟩⟩ :=
    processBlock_votes processed
  · subst result
    exact ⟨started.frame rfl Iff.rfl, .voted vote rfl height fresh short rfl⟩
  · refine ⟨started.frame heights ?_, .advanced vote rfl height fresh full next cleared waiting⟩
    rw [height, next]
    exact iff_of_false (Option.some_ne_none _) (Option.some_ne_none _)

theorem processSignatureShares_tracked {txid : Txid} {shares : List (SignatureShare curve)}
    {nonces : List (PublicNonce curve)}
    (processed : Onchain.processSignatureShares mint ledger node txid shares nonces = .ok after) :
    after.blockHeightVote = ledger.blockHeightVote ∧ after.blockHeight = ledger.blockHeight ∧
      after.blockVote = ledger.blockVote ∧ (∀ txid, ledger.unconfirmedTx.contains txid = true →
        after.unconfirmedTx.contains txid = true) ∧ ¬Untouched ledger := by
  obtain ⟨unsigned, _, _, checked, outcome⟩ := Onchain.processSignatureShares_ok processed
  have signing : ¬Untouched ledger := by
    intro untouched
    have present := checked.present
    rw [untouched.unsignedTx] at present
    cases present
  rcases outcome with ⟨_, result⟩ | ⟨_, signed, _, result⟩
  · subst result
    exact ⟨rfl, rfl, rfl, fun _ waiting => waiting, signing⟩
  · subst result
    refine ⟨rfl, rfl, rfl, ?_, signing⟩
    intro other waiting
    exact (SortedMap.contains_insert _ _ _ _).mpr (Or.inr waiting)

/-- An accepted item keeps the tracking started, and changes it in one of the
four ways. -/
theorem processConsensusItem_tracked {item : ConsensusItem curve}
    (started : Started server.toMintConfig ledger)
    (processed : processConsensusItem server ledger node item = .ok after) :
    Started server.toMintConfig after ∧ Tracked server.toMintConfig ledger node item after := by
  cases item with
  | tx tx =>
      have same := processTxItem_blockVotes processed
      refine ⟨started.frame same.blockHeightVote (by rw [same.blockHeight]), ?_⟩
      refine .kept same.blockHeight same.blockVote ?_
        (fun untouched => processTxItem_untouched untouched processed)
      intro txid waiting
      rwa [same.unconfirmedTx]
  | blockHeight vote =>
      obtain ⟨next, result | ⟨height, absent, result⟩⟩ :=
        processBlockHeight_started started processed
      · subst result
        exact ⟨next, .kept rfl rfl (fun _ => id) (fun untouched => ⟨untouched.output,
          untouched.mintUtxo, untouched.unsignedTx, untouched.unconfirmedTx⟩)⟩
      · subst result
        exact ⟨next, .begun absent rfl rfl (fun untouched => ⟨untouched.output,
          untouched.mintUtxo, untouched.unsignedTx, untouched.unconfirmedTx⟩)⟩
  | version vote =>
      have result := processVersion_ok processed
      subst result
      exact ⟨started.frame rfl Iff.rfl, .kept rfl rfl (fun _ => id) (fun untouched =>
        ⟨untouched.output, untouched.mintUtxo, untouched.unsignedTx, untouched.unconfirmedTx⟩)⟩
  | onchain item =>
      cases item with
      | block vote => exact processBlock_tracked started processed
      | feerate vote =>
          have result := Onchain.processFeerate_ok processed
          subst result
          exact ⟨started.frame rfl Iff.rfl, .kept rfl rfl (fun _ => id) (fun untouched =>
            ⟨untouched.output, untouched.mintUtxo, untouched.unsignedTx,
              untouched.unconfirmedTx⟩)⟩
      | nonces txid nonces =>
          obtain ⟨_, _, _, _, _, result⟩ :=
            Onchain.processNonces_ok (mapError_eq_ok.mp processed)
          subst result
          exact ⟨started.frame rfl Iff.rfl, .kept rfl rfl (fun _ => id) (fun untouched =>
            ⟨untouched.output, untouched.mintUtxo, untouched.unsignedTx,
              untouched.unconfirmedTx⟩)⟩
      | signatureShares txid shares nonces =>
          obtain ⟨heights, height, votes, waiting, signing⟩ :=
            processSignatureShares_tracked (mapError_eq_ok.mp processed)
          exact ⟨started.frame heights (by rw [height]),
            .kept height votes waiting (fun untouched => absurd untouched signing)⟩

/-- An item leaves the tables alone or was accepted. -/
theorem History.step_tracked {history next : History curve}
    {entry : NodeId × ConsensusItem curve}
    (started : Started server.toMintConfig history.ledger)
    (stepped : History.step server history entry = some next) :
    Started server.toMintConfig next.ledger ∧ (next = history ∨
      Tracked server.toMintConfig history.ledger entry.1 entry.2 next.ledger) := by
  rcases History.step_cases stepped with rfl | ⟨tx, isTx, processed, _⟩ | ⟨processed, _, _⟩
  · exact ⟨started, Or.inl rfl⟩
  · have accepted : processConsensusItem server history.ledger entry.1 entry.2 =
        .ok next.ledger := by
      rw [isTx]
      exact processed
    obtain ⟨kept, tracked⟩ := processConsensusItem_tracked started accepted
    exact ⟨kept, Or.inr tracked⟩
  · obtain ⟨kept, tracked⟩ := processConsensusItem_tracked started processed
    exact ⟨kept, Or.inr tracked⟩

end Picomint.Consensus
