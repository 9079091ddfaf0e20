/-
The votes on bitcoin blocks, and the chain, backends and log they come from.

A node votes on the block at the tracked height once its backend has the
confirmations for it.  The block is read from the backend, the pending mint
transactions from the tables at the place in the log the node had reached
when it began to propose.
-/

import Picomint.Consensus.Tracking
import Picomint.Consensus.Replication

namespace Picomint.Consensus

open Tss

variable {curve : Curve}

/-! ### Proposals -/

def CONFIRMATIONS : Nat := 6

/-- A transaction of a block, as its id and its outputs. -/
structure ChainTx where
  txid : Txid
  output : List TxOut
deriving DecidableEq, Repr

abbrev Block := List ChainTx

/-- The first two bytes of the hash of the mint's key and the script are zero. -/
def isPotentialReceive (receiveHash : Script → List Nat) (script : Script) : Bool :=
  ((receiveHash script).take 2).all (fun byte => byte = 0)

namespace Onchain

/-- A block's transaction is voted for if the receive filter lets one of its
outputs through or if it is a pending mint transaction. -/
def voteTx? (receiveHash : Script → List Nat) (ledger : Ledger curve) (tx : ChainTx) :
    Option BlockTx :=
  let outputs := (tx.output.zipIdx.map Prod.swap).filter (fun entry =>
    isPotentialReceive receiveHash entry.2.scriptPubkey)
  if !outputs.isEmpty || ledger.unconfirmedTx.contains tx.txid then
    some { txid := tx.txid, outputs }
  else none

def blockProposal (server : Server curve) (receiveHash : Script → List Nat)
    (ledger : Ledger curve) (getBlockHeight : Option Nat) (getBlock : Nat → Option Block) :
    Option BlockVote := do
  let height ← ledger.blockHeight
  let backendHeight ← getBlockHeight
  if backendHeight + 1 < height + CONFIRMATIONS then none
  else if ledger.blockVote.contains server.identity then none
  else
    let block ← getBlock height
    return { height, txs := block.filterMap (voteTx? receiveHash ledger) }

end Onchain

/-- The backend's height, whenever it is above the node's last vote. -/
def heightProposal (server : Server curve) (ledger : Ledger curve)
    (getBlockHeight : Option Nat) : Option Nat := do
  let blockHeight ← getBlockHeight
  if (ledger.blockHeightVote.get? server.identity).getD 0 < blockHeight then some blockHeight
  else none

theorem Onchain.blockProposal_some {server : Server curve} {receiveHash : Script → List Nat}
    {ledger : Ledger curve} {getBlockHeight : Option Nat} {getBlock : Nat → Option Block}
    {vote : BlockVote}
    (proposed : blockProposal server receiveHash ledger getBlockHeight getBlock = some vote) :
    ∃ backendHeight block, ledger.blockHeight = some vote.height ∧
      getBlockHeight = some backendHeight ∧ vote.height + CONFIRMATIONS ≤ backendHeight + 1 ∧
      ledger.blockVote.contains server.identity = false ∧ getBlock vote.height = some block ∧
      vote.txs = block.filterMap (voteTx? receiveHash ledger) := by
  unfold blockProposal at proposed
  simp only [Option.bind_eq_bind, Option.bind_eq_some_iff] at proposed
  obtain ⟨height, tracked, backendHeight, answered, proposed⟩ := proposed
  split at proposed
  · cases proposed
  · rename_i confirmed
    split at proposed
    · cases proposed
    · rename_i unvoted
      rw [Option.bind_eq_some_iff] at proposed
      obtain ⟨block, found, result⟩ := proposed
      cases result
      exact ⟨backendHeight, block, tracked, answered, Nat.le_of_not_lt confirmed,
        Bool.eq_false_iff.mpr unvoted, found, rfl⟩

/-- A pending mint transaction is always voted for. -/
theorem Onchain.voteTx?_waiting {receiveHash : Script → List Nat} {ledger : Ledger curve}
    {tx : ChainTx} (waits : ledger.unconfirmedTx.contains tx.txid = true) :
    ∃ voted, voteTx? receiveHash ledger tx = some voted ∧ voted.txid = tx.txid := by
  unfold voteTx?
  simp only [waits, Bool.or_true, ↓reduceIte]
  exact ⟨_, rfl, rfl⟩

/-- The vote depends on the tables only through the pending transactions. -/
theorem Onchain.voteTx?_congr {receiveHash : Script → List Nat} {left right : Ledger curve}
    {tx : ChainTx}
    (same : left.unconfirmedTx.contains tx.txid = right.unconfirmedTx.contains tx.txid) :
    voteTx? receiveHash left tx = voteTx? receiveHash right tx := by
  unfold voteTx?
  rw [same]

/-! ### The nodes of a mint -/

/-- The servers of a mint, at most `f` of them byzantine, and the hash behind
the receive filter. -/
structure Setup (curve : Curve) where
  servers : NodeId → Server curve
  mint : MintConfig curve
  sameMint : ∀ node, (servers node).toMintConfig = mint
  identity : ∀ node, (servers node).identity = node
  receiveHash : Script → List Nat
  byzantine : Finset NodeId
  bound : byzantine.card ≤ mint.n.maxEvil

def Setup.ledgerAt (setup : Setup curve) (node : NodeId)
    (log : List (NodeId × ConsensusItem curve)) (place : Nat) : Option (Ledger curve) :=
  (History.run (setup.servers node) History.start (log.take place)).map History.ledger

/-- The item at the place completes the signatures of the mint transaction. -/
def Setup.finalises (setup : Setup curve) (log : List (NodeId × ConsensusItem curve))
    (place : Nat) (txid : Txid) : Bool :=
  match setup.ledgerAt 0 log place, setup.ledgerAt 0 log (place + 1) with
  | some before, some after =>
      !before.unconfirmedTx.contains txid && after.unconfirmedTx.contains txid
  | _, _ => false

/-- The items a node only proposes from what its backend sees. -/
def fromBackend : ConsensusItem curve → Bool
  | .onchain (.block _) => true
  | .blockHeight _ => true
  | _ => false

/-! ### Runs -/

/-- The chain, the agreed log, the place every node has reached in it, what
its backend has shown since its start, and the items it has proposed. -/
structure World (curve : Curve) where
  chain : List Block
  log : List (NodeId × ConsensusItem curve)
  position : NodeId → Nat
  views : NodeId → List (List Block)
  proposed : List (NodeId × ConsensusItem curve)

inductive Happening (curve : Curve) where
  /-- The chain continues with the blocks after its first `keep`. -/
  | mine (keep : Nat) (blocks : List Block)
  /-- The node's backend sees the first `length` blocks of the chain. -/
  | observe (node : NodeId) (length : Nat)
  /-- The node processes the log up to the place. -/
  | process (node : NodeId) (place : Nat)
  /-- The node proposes from its tables at the place; the height is read off
  the view `earlier` of its backend and the block off the view `later`. -/
  | proposeBlock (node : NodeId) (place earlier later : Nat)
  | proposeHeight (node : NodeId) (place seen : Nat)
  /-- The item is ordered next. -/
  | order (node : NodeId) (item : ConsensusItem curve)

namespace World

def start : World curve :=
  { chain := []
    log := []
    position := fun _ => 0
    views := fun _ => []
    proposed := [] }

def tip (view : List Block) : Option Nat :=
  if view.isEmpty then none else some (view.length - 1)

/-- A mint transaction is mined after some node has processed the item that
finalises it. -/
def Broadcast (setup : Setup curve) (world : World curve) (blocks : List Block) : Prop :=
  ∀ block ∈ blocks, ∀ tx ∈ block, ∀ place < world.log.length,
    setup.finalises world.log place tx.txid = true →
    ∃ node ∈ setup.mint.n.nodeIds, place < world.position node

instance (setup : Setup curve) (world : World curve) (blocks : List Block) :
    Decidable (Broadcast setup world blocks) :=
  inferInstanceAs (Decidable (∀ block ∈ blocks, ∀ tx ∈ block, ∀ place < world.log.length,
    setup.finalises world.log place tx.txid = true →
    ∃ node ∈ setup.mint.n.nodeIds, place < world.position node))

/-- No block has a mint transaction that the item only now finalises. -/
def Unmined (setup : Setup curve) (world : World curve)
    (entry : NodeId × ConsensusItem curve) : Prop :=
  ∀ block ∈ world.chain, ∀ tx ∈ block,
    setup.finalises (world.log ++ [entry]) world.log.length tx.txid = false

instance (setup : Setup curve) (world : World curve) (entry : NodeId × ConsensusItem curve) :
    Decidable (Unmined setup world entry) :=
  inferInstanceAs (Decidable (∀ block ∈ world.chain, ∀ tx ∈ block,
    setup.finalises (world.log ++ [entry]) world.log.length tx.txid = false))

/-- A vote of an honest node was proposed by it. -/
def Genuine (setup : Setup curve) (world : World curve)
    (entry : NodeId × ConsensusItem curve) : Prop :=
  entry.1 ∉ setup.byzantine → fromBackend entry.2 = true → entry ∈ world.proposed

instance (setup : Setup curve) (world : World curve) (entry : NodeId × ConsensusItem curve) :
    Decidable (Genuine setup world entry) :=
  inferInstanceAs (Decidable (entry.1 ∉ setup.byzantine → fromBackend entry.2 = true →
    entry ∈ world.proposed))

/-- What happens, with reorganisations of at most `depth` blocks. -/
def step (setup : Setup curve) (depth : Nat) (world : World curve) :
    Happening curve → Option (World curve)
  | .mine keep blocks =>
      if keep ≤ world.chain.length ∧ world.chain.length ≤ keep + depth ∧
          world.chain.length < keep + blocks.length ∧ Broadcast setup world blocks then
        some { world with chain := world.chain.take keep ++ blocks }
      else none
  | .observe node length =>
      some { world with
        views := Function.update world.views node
          (world.views node ++ [world.chain.take length]) }
  | .process node place =>
      if world.position node ≤ place ∧ place ≤ world.log.length ∧
          (setup.ledgerAt node world.log place).isSome then
        some { world with position := Function.update world.position node place }
      else none
  | .proposeBlock node place earlier later => do
      let first ← (world.views node)[earlier]?
      let second ← (world.views node)[later]?
      let ledger ← setup.ledgerAt node world.log place
      let vote ← Onchain.blockProposal (setup.servers node) setup.receiveHash ledger (tip first)
        (fun height => second[height]?)
      if place ≤ world.position node ∧ earlier ≤ later then
        some { world with proposed := world.proposed ++ [(node, .onchain (.block vote))] }
      else none
  | .proposeHeight node place seen => do
      let view ← (world.views node)[seen]?
      let ledger ← setup.ledgerAt node world.log place
      let height ← heightProposal (setup.servers node) ledger (tip view)
      if place ≤ world.position node then
        some { world with proposed := world.proposed ++ [(node, .blockHeight height)] }
      else none
  | .order node item =>
      if node ∈ setup.mint.n.nodeIds ∧ Genuine setup world (node, item) ∧
          Unmined setup world (node, item) then
        some { world with log := world.log ++ [(node, item)] }
      else none

def run (setup : Setup curve) (depth : Nat) (world : World curve)
    (happenings : List (Happening curve)) : Option (World curve) :=
  happenings.foldlM (step setup depth) world

end World

end Picomint.Consensus
