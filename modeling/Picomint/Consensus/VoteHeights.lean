/-
The block height and the version the mint runs at.

Both are the greatest value that a quorum of nodes supports, where a node
without a vote supports the least one.  Votes only grow, so both only grow, and
the first height above zero is where the tracked height starts.
-/

import Picomint.Consensus.Tracking
import Picomint.Lib.OrderStatistic

namespace Picomint.Consensus

open Tss

variable {curve : Curve} {server : Server curve} {mint : MintConfig curve}
  {ledger after : Ledger curve} {node : NodeId}

def heightSupport (ledger : Ledger curve) (node : NodeId) : Nat :=
  (ledger.blockHeightVote.get? node).getD 0

def versionSupport (mint : MintConfig curve) (ledger : Ledger curve) (node : NodeId) :
    ConsensusVersion :=
  (ledger.consensusVersionVote.get? node).getD mint.defaultVersion

/-! ### Votes as counts -/

section Counts

variable {α : Type} {votes : SortedMap NodeId α}

end Counts

section Consensus

variable {byzantine : Finset NodeId} (few : byzantine.card ≤ mint.n.maxEvil)

end Consensus

/-! ### One item -/

/-- The change of the tracked height by an accepted item. -/
inductive HeightStep (mint : MintConfig curve) (ledger : Ledger curve) (node : NodeId)
    (item : ConsensusItem curve) (after : Ledger curve) : Prop where
  | kept (same : after.blockHeight = ledger.blockHeight)
  | begun (height : Nat) (unset : ledger.blockHeight = none) (positive : 0 < height)
      (before : (consensusBlockHeight mint ledger : Outcome ItemError Nat) = .ok 0)
      (reached : (consensusBlockHeight mint after : Outcome ItemError Nat) = .ok height)
      (set : after.blockHeight = some height)
  | advanced (vote : BlockVote) (isVote : item = .onchain (.block vote))
      (current : ledger.blockHeight = some vote.height)
      (quorum : mint.n.threshold ≤ votesFor (ledger.blockVote.insert node vote) vote)
      (next : after.blockHeight = some (vote.height + 1))

/-- The voters are nodes, and the tracked height is unset up to the first
consensus height above zero. -/
structure VotesSound (mint : MintConfig curve) (ledger : Ledger curve) : Prop where
  heightVoters : ∀ node ∈ ledger.blockHeightVote.keys, node < mint.n.total
  versionVoters : ∀ node ∈ ledger.consensusVersionVote.keys, node < mint.n.total
  unset_iff : ledger.blockHeight = none ↔
    (consensusBlockHeight mint ledger : Outcome ItemError Nat) = .ok 0

structure VotesGrow (mint : MintConfig curve) (ledger after : Ledger curve) : Prop where
  height : ∀ node, heightSupport ledger node ≤ heightSupport after node
  version : ∀ node, versionSupport mint ledger node ≤ versionSupport mint after node

theorem VotesGrow.of_eq (heights : after.blockHeightVote = ledger.blockHeightVote)
    (versions : after.consensusVersionVote = ledger.consensusVersionVote) :
    VotesGrow mint ledger after where
  height := by
    intro node
    unfold heightSupport
    rw [heights]
  version := by
    intro node
    unfold versionSupport
    rw [versions]

theorem VotesGrow.trans {middle : Ledger curve} (first : VotesGrow mint ledger middle)
    (second : VotesGrow mint middle after) : VotesGrow mint ledger after where
  height := fun node => (first.height node).trans (second.height node)
  version := fun node => (first.version node).trans (second.version node)

theorem VotesSound.empty (mint : MintConfig curve) : VotesSound mint Ledger.empty where
  heightVoters := fun _ impossible => absurd impossible List.not_mem_nil
  versionVoters := fun _ impossible => absurd impossible List.not_mem_nil
  unset_iff := iff_of_true rfl rfl

theorem VotesSound.frame (sound : VotesSound mint ledger)
    (heights : after.blockHeightVote = ledger.blockHeightVote)
    (versions : after.consensusVersionVote = ledger.consensusVersionVote)
    (height : after.blockHeight = none ↔ ledger.blockHeight = none) : VotesSound mint after where
  heightVoters := by
    rw [heights]
    exact sound.heightVoters
  versionVoters := by
    rw [versions]
    exact sound.versionVoters
  unset_iff := by
    rw [height, consensusBlockHeight_congr heights]
    exact sound.unset_iff

/-- What an accepted item of a node does to the votes and the tracked height. -/
structure VotesAdvance (mint : MintConfig curve) (ledger : Ledger curve) (node : NodeId)
    (item : ConsensusItem curve) (after : Ledger curve) : Prop where
  sound : VotesSound mint after
  grow : VotesGrow mint ledger after
  height : HeightStep mint ledger node item after

theorem VotesAdvance.of_eq {item : ConsensusItem curve} (sound : VotesSound mint ledger)
    (heights : after.blockHeightVote = ledger.blockHeightVote)
    (versions : after.consensusVersionVote = ledger.consensusVersionVote)
    (same : after.blockHeight = ledger.blockHeight) : VotesAdvance mint ledger node item after where
  sound := sound.frame heights versions (by rw [same])
  grow := .of_eq heights versions
  height := .kept same

end Picomint.Consensus
