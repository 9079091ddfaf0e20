/-
What the mint's transactions spend.

The outputs of deposits are those the threshold of nodes found on the chain;
the outputs of mint transactions are their own.  Against these the wallet, the
recorded spent outputs and the log of transactions are exact, and no output is
spent twice.
-/

import Picomint.Consensus.SigningProgress
import Picomint.Consensus.WalletChain

namespace Picomint.Consensus

open Tss

variable {curve : Curve} {server : Server curve} {mint : MintConfig curve}
  {ledger after : Ledger curve}

/-! ### Tracking blocks -/

def blockOutputs (vote : BlockVote) : List TrackedOutput :=
  vote.txs.flatMap (fun tx => tx.outputs.map (fun entry =>
    { outpoint := { txid := tx.txid, vout := entry.1 }, out := entry.2 }))

def blockTxids (vote : BlockVote) : List Txid := vote.txs.map BlockTx.txid

namespace Onchain

theorem trackOutputs_values (txid : Txid) (entries : List (Nat × TxOut))
    (state : Ledger curve × Nat) (next : state.2 = nextIndex state.1.output) :
    (entries.foldl (trackOutput txid) state).1.output.values = state.1.output.values ++
        entries.map (fun entry => { outpoint := { txid, vout := entry.1 }, out := entry.2 }) ∧
      (state.1.output.Dense → (entries.foldl (trackOutput txid) state).1.output.Dense) ∧
      (entries.foldl (trackOutput txid) state).2 =
        nextIndex (entries.foldl (trackOutput txid) state).1.output ∧
      (entries.foldl (trackOutput txid) state).1.unconfirmedTx = state.1.unconfirmedTx := by
  induction entries generalizing state with
  | nil => exact ⟨(List.append_nil _).symm, id, next, rfl⟩
  | cons entry rest inductionHypothesis =>
      rw [List.foldl_cons]
      have step : (trackOutput txid state entry).2 =
          nextIndex (trackOutput txid state entry).1.output := by
        unfold trackOutput
        simp only
        rw [next, nextIndex_insert]
      obtain ⟨values, dense, index, unconfirmed⟩ := inductionHypothesis _ step
      have first : (trackOutput txid state entry).1.output.values = state.1.output.values ++
          [{ outpoint := { txid, vout := entry.1 }, out := entry.2 }] := by
        unfold trackOutput
        simp only
        rw [next, values_insert_nextIndex]
      refine ⟨?_, ?_, index, unconfirmed⟩
      · rw [values, first, List.append_assoc, List.map_cons]
        rfl
      · intro before
        apply dense
        unfold trackOutput
        simp only
        rw [next]
        exact dense_insert_nextIndex before _

theorem trackTx_values (tx : BlockTx) (state : Ledger curve × Nat)
    (next : state.2 = nextIndex state.1.output) :
    (trackTx state tx).1.output.values = state.1.output.values ++ tx.outputs.map (fun entry =>
        { outpoint := { txid := tx.txid, vout := entry.1 }, out := entry.2 }) ∧
      (state.1.output.Dense → (trackTx state tx).1.output.Dense) ∧
      (trackTx state tx).2 = nextIndex (trackTx state tx).1.output ∧
      (trackTx state tx).1.unconfirmedTx = state.1.unconfirmedTx.erase tx.txid :=
  trackOutputs_values tx.txid tx.outputs _ next

theorem trackTxs_values (txs : List BlockTx) (state : Ledger curve × Nat)
    (next : state.2 = nextIndex state.1.output) :
    (txs.foldl trackTx state).1.output.values = state.1.output.values ++
        txs.flatMap (fun tx => tx.outputs.map (fun entry =>
          { outpoint := { txid := tx.txid, vout := entry.1 }, out := entry.2 })) ∧
      (state.1.output.Dense → (txs.foldl trackTx state).1.output.Dense) ∧
      ∀ txid, (txs.foldl trackTx state).1.unconfirmedTx.get? txid =
        if txid ∈ txs.map BlockTx.txid then none else state.1.unconfirmedTx.get? txid := by
  induction txs generalizing state with
  | nil =>
      refine ⟨(List.append_nil _).symm, id, ?_⟩
      intro txid
      rw [if_neg (by simp)]
      rfl
  | cons tx rest inductionHypothesis =>
      obtain ⟨values, dense, index, unconfirmed⟩ := trackTx_values tx state next
      obtain ⟨restValues, restDense, restUnconfirmed⟩ := inductionHypothesis _ index
      rw [List.foldl_cons]
      refine ⟨?_, fun before => restDense (dense before), ?_⟩
      · rw [restValues, values, List.append_assoc, List.flatMap_cons]
      · intro txid
        rw [restUnconfirmed, unconfirmed, SortedMap.get?_erase, List.map_cons]
        by_cases inRest : txid ∈ rest.map BlockTx.txid
        · rw [if_pos inRest, if_pos (List.mem_cons_of_mem _ inRest)]
        · rw [if_neg inRest]
          by_cases same : tx.txid = txid
          · rw [if_pos same, if_pos (same ▸ List.mem_cons_self)]
          · rw [if_neg same, if_neg]
            intro member
            rcases List.mem_cons.mp member with atHead | later
            · exact same atHead.symm
            · exact inRest later

/-- The source's report on the transactions that are not confirmed yet. -/
def pendingTxChain (ledger : Ledger curve) : List TxInfo :=
  ledger.txInfo.values.reverse.take (pendingTxsUnordered ledger).length

end Onchain

/-! ### The real chain -/

/-- The chain has an output of the value at the outpoint, under the script of
the tweak. -/
def RealOutput (mint : MintConfig curve) (real : BtcOutPoint → Option TxOut)
    (outpoint : BtcOutPoint) (value : Nat) (tweak : Hash) : Prop :=
  ∃ script, HasScript mint tweak script ∧
    real outpoint = some { value, scriptPubkey := script }

def IsChange (mint : MintConfig curve) (real : BtcOutPoint → Option TxOut)
    (outpoint : BtcOutPoint) : Prop :=
  ∃ wallet value, RealOutput mint real outpoint value (mint.utxoHash wallet)

def ClaimedOutput (ledger : Ledger curve) (outpoint : BtcOutPoint) : Prop :=
  ∃ index tracked, ledger.spentOutputIndex.contains index = true ∧
    ledger.output.get? index = some tracked ∧ tracked.outpoint = outpoint

/-- No deposit key has the script of a change output. -/
def Separated (mint : MintConfig curve) : Prop :=
  ∀ key wallet script, HasScript mint (mint.tweakHash key) script →
    ¬HasScript mint (mint.utxoHash wallet) script

/-- The outputs of a mint transaction are the ones it was built with. -/
def Mined (mint : MintConfig curve) (real : BtcOutPoint → Option TxOut)
    (created : List (MintTx curve)) : Prop :=
  ∀ mintTx ∈ created, ∀ vout, real { txid := mintTx.txid mint, vout } = mintTx.tx.output[vout]?

/-- A block with real outputs, none of them tracked before, which confirms a
pending mint transaction not before the ones it descends from. -/
structure RealBlock (real : BtcOutPoint → Option TxOut) (ledger : Ledger curve)
    (vote : BlockVote) : Prop where
  outputs : ∀ tracked ∈ blockOutputs vote, real tracked.outpoint = some tracked.out
  once : ((ledger.output.values ++ blockOutputs vote).map TrackedOutput.outpoint).Nodup
  ordered : ∀ index later info info', index < later →
    ledger.txInfo.get? index = some info → ledger.txInfo.get? later = some info' →
    ledger.unconfirmedTx.contains info.txid = true → info'.txid ∈ blockTxids vote →
    info.txid ∈ blockTxids vote

/-- The vote reaches the threshold and advances the tracked height. -/
def Advances (mint : MintConfig curve) (ledger : Ledger curve) (node : NodeId)
    (vote : BlockVote) : Prop :=
  ∃ after, Onchain.processBlock mint ledger node vote = .ok after ∧
    after.blockHeight = some (vote.height + 1)

/-- Every block vote of the run that reaches the threshold is real. -/
def RealBlocks (server : Server curve) (real : BtcOutPoint → Option TxOut)
    (items : List (NodeId × ConsensusItem curve)) : Prop :=
  ∀ before node vote rest history, items = before ++ (node, .onchain (.block vote)) :: rest →
    History.run server History.start before = some history →
    Advances server.toMintConfig history.ledger node vote → RealBlock real history.ledger vote

theorem RealBlocks.initial {real : BtcOutPoint → Option TxOut}
    {items : List (NodeId × ConsensusItem curve)} {entry : NodeId × ConsensusItem curve}
    (blocks : RealBlocks server real (items ++ [entry])) : RealBlocks server real items := by
  intro before node vote rest history split reached advances
  apply blocks before node vote (rest ++ [entry]) history _ reached advances
  rw [split, List.append_assoc, List.cons_append]

/-! ### The invariant -/

/-- The log entry of a mint transaction. -/
structure Records (mint : MintConfig curve) (info : TxInfo) (mintTx : MintTx curve) : Prop where
  txid : info.txid = mintTx.txid mint
  input : (mintTx.spentTxOuts.map SpentTxOut.value).head? = some info.input
  output : (mintTx.tx.output.map TxOut.value).head? = some info.output
  fee : info.fee = mintTx.fee
  vbytes : info.vbytes = mintTx.vbytes

structure TracksReal (real : BtcOutPoint → Option TxOut) (ledger : Ledger curve) : Prop where
  dense : ledger.output.Dense
  outputs : ∀ tracked ∈ ledger.output.values, real tracked.outpoint = some tracked.out
  once : (ledger.output.values.map TrackedOutput.outpoint).Nodup

/-- Everything spent so far is a claimed deposit or the change of a mint
transaction, with the value and the script that was recorded for it. -/
structure SpendsReal (mint : MintConfig curve) (real : BtcOutPoint → Option TxOut)
    (ledger : Ledger curve) (mintTx : MintTx curve) : Prop where
  outputs : List.Forall₂ (fun outpoint spent =>
    RealOutput mint real outpoint spent.value spent.tweak) mintTx.inputs mintTx.spentTxOuts
  balanced : (mintTx.spentTxOuts.map SpentTxOut.value).sum =
    (mintTx.tx.output.map TxOut.value).sum + mintTx.fee
  origin : ∀ outpoint ∈ mintTx.inputs,
    ClaimedOutput ledger outpoint ∨ IsChange mint real outpoint

structure WalletSound (mint : MintConfig curve) (real : BtcOutPoint → Option TxOut)
    (ledger : Ledger curve) (created : List (MintTx curve)) : Prop where
  tracking : TracksReal real ledger
  wallet : ∀ utxo, ledger.mintUtxo = some utxo →
    RealOutput mint real utxo.outpoint utxo.value utxo.tweak ∧
      (ClaimedOutput ledger utxo.outpoint ∨ IsChange mint real utxo.outpoint)
  unclaimed : ledger.mintUtxo = none → ledger.spentOutputIndex.keys = []
  first : created = [] → ∀ utxo, ledger.mintUtxo = some utxo → ∃ index tracked,
    ledger.spentOutputIndex.keys = [index] ∧ ledger.output.get? index = some tracked ∧
      utxo.outpoint = tracked.outpoint
  claims : ∀ index, ledger.spentOutputIndex.contains index = true → ∃ key tracked,
    ledger.output.get? index = some tracked ∧
      HasScript mint (mint.tweakHash key) tracked.out.scriptPubkey
  chained : ∀ (index : Nat) earlier later, created[index]? = some earlier →
    created[index + 1]? = some later →
    later.inputs.head? = some { txid := earlier.txid mint, vout := 0 }
  changes : ∀ mintTx ∈ created, IsChange mint real { txid := mintTx.txid mint, vout := 0 }
  spends : ∀ mintTx ∈ created, SpendsReal mint real ledger mintTx
  distinct : (created.flatMap MintTx.inputs).Nodup
  dense : ledger.txInfo.Dense
  records : List.Forall₂ (Records mint) ledger.txInfo.values created
  numbered : ∀ index info, ledger.txInfo.get? index = some info → info.index = index
  linked : ∀ index info next, ledger.txInfo.get? index = some info →
    ledger.txInfo.get? (index + 1) = some next → next.input = info.output
  last : ∀ info utxo, ledger.txInfo.values.getLast? = some info →
    ledger.mintUtxo = some utxo → utxo.value = info.output
  pending : ∃ confirmed waiting, created = confirmed ++ waiting ++ ledger.unsignedTx.toList ∧
    ledger.unconfirmedTx.keys.Perm (waiting.map (MintTx.txid mint))

section Preservation

variable {real : BtcOutPoint → Option TxOut} {rank : Txid → Nat} {created : List (MintTx curve)}

theorem TracksReal.at_index (tracking : TracksReal real ledger) {index : Nat}
    {tracked : TrackedOutput} (found : ledger.output.get? index = some tracked) :
    real tracked.outpoint = some tracked.out :=
  tracking.outputs tracked ((ledger.output.mem_values tracked).mpr ⟨index, found⟩)

/-- No outpoint is tracked under two indices. -/
theorem TracksReal.index_unique (tracking : TracksReal real ledger) {index index' : Nat}
    {tracked tracked' : TrackedOutput} (found : ledger.output.get? index = some tracked)
    (found' : ledger.output.get? index' = some tracked')
    (same : tracked.outpoint = tracked'.outpoint) : index = index' := by
  rw [tracking.dense.get?] at found found'
  have here : (ledger.output.values.map TrackedOutput.outpoint)[index]? =
      some tracked.outpoint := by
    rw [List.getElem?_map, found, Option.map_some]
  have there : (ledger.output.values.map TrackedOutput.outpoint)[index']? =
      some tracked.outpoint := by
    rw [List.getElem?_map, found', Option.map_some, same]
  exact (List.getElem?_inj (List.getElem?_eq_some_iff.mp here).1 tracking.once).mp
    (here.trans there.symm)

/-- A valid claim is of an output nothing has spent. -/
theorem Deposit.Valid.unspent_outpoint {deposit : Deposit} (separated : Separated mint)
    (tracking : TracksReal real ledger) (valid : deposit.Valid mint ledger)
    {outpoint : BtcOutPoint}
    (origin : ClaimedOutput ledger outpoint ∨ IsChange mint real outpoint) :
    deposit.tracked.outpoint ≠ outpoint := by
  intro same
  rcases origin with ⟨index, tracked, claimed, found, isOutpoint⟩ |
    ⟨wallet, value, script, changeScript, isReal⟩
  · have index_eq := tracking.index_unique valid.known found (same.trans isOutpoint.symm)
    rw [← index_eq, valid.unspent] at claimed
    cases claimed
  · have standing := tracking.at_index valid.known
    rw [same, isReal] at standing
    have sameScript := congrArg TxOut.scriptPubkey (Option.some.inj standing)
    have depositScript := valid.script
    rw [← sameScript] at depositScript
    exact separated deposit.key wallet script depositScript changeScript

theorem ClaimedOutput.mono {outpoint : BtcOutPoint} (claimed : ClaimedOutput ledger outpoint)
    (spent : ∀ index, ledger.spentOutputIndex.contains index = true →
      after.spentOutputIndex.contains index = true)
    (output : ∀ index tracked, ledger.output.get? index = some tracked →
      after.output.get? index = some tracked) : ClaimedOutput after outpoint := by
  obtain ⟨index, tracked, isSpent, found, same⟩ := claimed
  exact ⟨index, tracked, spent index isSpent, output index tracked found, same⟩

theorem SpendsReal.mono {mintTx : MintTx curve} (spends : SpendsReal mint real ledger mintTx)
    (claimed : ∀ outpoint, ClaimedOutput ledger outpoint → ClaimedOutput after outpoint) :
    SpendsReal mint real after mintTx where
  outputs := spends.outputs
  balanced := spends.balanced
  origin := by
    intro outpoint member
    rcases spends.origin outpoint member with wasClaimed | change
    · exact Or.inl (claimed outpoint wasClaimed)
    · exact Or.inr change

theorem WalletSound.empty : WalletSound mint real (Ledger.empty : Ledger curve) [] where
  tracking := by
    refine ⟨SortedMap.dense_empty, ?_, List.nodup_nil⟩
    intro tracked member
    cases member
  wallet := fun _ held => by cases held
  unclaimed := fun _ => rfl
  first := fun _ _ held => by cases held
  claims := fun _ claimed => by cases claimed
  chained := fun _ _ _ found => by cases found
  changes := fun _ member => by cases member
  spends := fun _ member => by cases member
  distinct := List.nodup_nil
  dense := SortedMap.dense_empty
  records := List.Forall₂.nil
  numbered := fun _ _ found => by cases found
  linked := fun _ _ _ found => by cases found
  last := fun _ _ last => by cases last
  pending := ⟨[], [], rfl, List.Perm.refl _⟩

/-- What the wallet's tables say does not depend on how the tracked outputs and
the unconfirmed transactions go on. -/
theorem WalletSound.carry (sound : WalletSound mint real ledger created)
    (same : SameWallet ledger after) (tracking : TracksReal real after)
    (kept : ∀ index tracked, ledger.output.get? index = some tracked →
      after.output.get? index = some tracked)
    (pending : ∃ confirmed waiting, created = confirmed ++ waiting ++ after.unsignedTx.toList ∧
      after.unconfirmedTx.keys.Perm (waiting.map (MintTx.txid mint))) :
    WalletSound mint real after created := by
  have claimed : ∀ outpoint, ClaimedOutput ledger outpoint → ClaimedOutput after outpoint := by
    intro outpoint wasClaimed
    apply wasClaimed.mono _ kept
    rw [same.spentOutputIndex]
    exact fun _ => id
  refine ⟨tracking, ?_, ?_, ?_, ?_, sound.chained, sound.changes, ?_, sound.distinct, ?_, ?_, ?_,
    ?_, ?_, pending⟩
  · intro utxo held
    rw [same.mintUtxo] at held
    obtain ⟨isReal, origin⟩ := sound.wallet utxo held
    exact ⟨isReal, origin.imp (claimed _) id⟩
  · rw [same.mintUtxo, same.spentOutputIndex]
    exact sound.unclaimed
  · intro none utxo held
    rw [same.mintUtxo] at held
    obtain ⟨index, tracked, keys, found, isOutpoint⟩ := sound.first none utxo held
    exact ⟨index, tracked, by rw [same.spentOutputIndex, keys], kept index tracked found,
      isOutpoint⟩
  · intro index contained
    rw [same.spentOutputIndex] at contained
    obtain ⟨key, tracked, found, script⟩ := sound.claims index contained
    exact ⟨key, tracked, kept index tracked found, script⟩
  · exact fun mintTx member => (sound.spends mintTx member).mono claimed
  · rw [same.txInfo]
    exact sound.dense
  · rw [same.txInfo]
    exact sound.records
  · rw [same.txInfo]
    exact sound.numbered
  · rw [same.txInfo]
    exact sound.linked
  · rw [same.txInfo, same.mintUtxo]
    exact sound.last

theorem TracksReal.frame (tracking : TracksReal real ledger)
    (output : after.output = ledger.output) : TracksReal real after := by
  obtain ⟨dense, outputs, once⟩ := tracking
  constructor <;> rwa [output]

theorem WalletSound.frame (sound : WalletSound mint real ledger created)
    (same : SameWallet ledger after) (tracking : SameTracking ledger after)
    (unsigned : after.unsignedTx = ledger.unsignedTx) : WalletSound mint real after created := by
  apply sound.carry same (sound.tracking.frame tracking.output)
  · rw [tracking.output]
    exact fun _ _ => id
  · rw [unsigned, tracking.unconfirmedTx]
    exact sound.pending

theorem keys_eq_nil {table : SortedSet Nat} (none : table.keys = []) : table = SortedMap.empty := by
  apply SortedMap.ext
  intro key
  cases found : table.get? key with
  | none => rfl
  | some value =>
      have member := (table.mem_keys key).mpr ⟨value, found⟩
      rw [none] at member
      cases member

theorem WalletSound.adopt (linked : Linked mint rank ledger created)
    (sound : WalletSound mint real ledger created) (tracking : SameTracking ledger after)
    {deposit : Deposit} (valid : deposit.Valid mint ledger) (absent : ledger.mintUtxo = none)
    (wallet : after.mintUtxo = some
      { value := deposit.tracked.out.value
        outpoint := deposit.tracked.outpoint
        tweak := mint.tweakHash deposit.key })
    (infos : after.txInfo = ledger.txInfo) (unsigned : after.unsignedTx = ledger.unsignedTx)
    (spent : after.spentOutputIndex = ledger.spentOutputIndex.insert deposit.index ⟨⟩) :
    WalletSound mint real after created := by
  have none := linked.held absent
  have unspent := sound.unclaimed absent
  have standing := sound.tracking.at_index valid.known
  have claimed : ClaimedOutput after deposit.tracked.outpoint := by
    refine ⟨deposit.index, deposit.tracked, ?_, ?_, rfl⟩
    · rw [spent, SortedMap.contains_insert]
      exact Or.inl rfl
    · rw [tracking.output]
      exact valid.known
  constructor
  · exact sound.tracking.frame tracking.output
  · intro utxo held
    cases Option.some.inj (wallet.symm.trans held)
    exact ⟨⟨_, valid.script, standing⟩, Or.inl claimed⟩
  · intro stillAbsent
    cases wallet.symm.trans stillAbsent
  · intro _ utxo held
    cases Option.some.inj (wallet.symm.trans held)
    refine ⟨deposit.index, deposit.tracked, ?_, ?_, rfl⟩
    · rw [spent, keys_eq_nil unspent]
      rfl
    · rw [tracking.output]
      exact valid.known
  · intro index contained
    rw [spent, SortedMap.contains_insert] at contained
    rw [tracking.output]
    rcases contained with same | earlier
    · exact ⟨deposit.key, deposit.tracked, same ▸ valid.known, valid.script⟩
    · exact sound.claims index earlier
  · exact sound.chained
  · exact sound.changes
  · rw [none]
    intro mintTx member
    cases member
  · exact sound.distinct
  · rw [infos]
    exact sound.dense
  · rw [infos]
    exact sound.records
  · rw [infos]
    exact sound.numbered
  · rw [infos]
    exact sound.linked
  · intro info utxo last _
    have noInfos := sound.records
    rw [none, List.forall₂_nil_right_iff] at noInfos
    rw [infos, noInfos] at last
    cases last
  · rw [unsigned, tracking.unconfirmedTx]
    exact sound.pending

/-- The wallet moves on to the change of a new mint transaction. -/
theorem WalletSound.extend (separated : Separated mint)
    (linked : Linked mint rank ledger created) (sound : WalletSound mint real ledger created)
    (tracking : SameTracking ledger after) {wallet : MintUtxo} {deposit : Option Deposit}
    {mintTx : MintTx curve} {changeValue : Nat}
    (extension : Extends mint ledger after wallet deposit mintTx changeValue)
    (mined : ∀ vout, real { txid := mintTx.txid mint, vout } = mintTx.tx.output[vout]?) :
    WalletSound mint real after (created ++ [mintTx]) := by
  obtain ⟨script, payments, changeScript, outputs⟩ := extension.change
  obtain ⟨block, recorded⟩ := extension.recorded
  obtain ⟨walletReal, walletOrigin⟩ := sound.wallet wallet extension.held
  have older := linked.older wallet extension.held
  have claimed : ∀ outpoint, ClaimedOutput ledger outpoint → ClaimedOutput after outpoint := by
    intro outpoint wasClaimed
    apply wasClaimed.mono
    · intro index contained
      rw [extension.marked]
      cases deposit with
      | none => exact contained
      | some claim =>
          rw [SortedMap.contains_insert]
          exact Or.inr contained
    · rw [tracking.output]
      exact fun _ _ => id
  have depositClaimed : ∀ claim, deposit = some claim →
      ClaimedOutput after claim.tracked.outpoint := by
    intro claim same
    refine ⟨claim.index, claim.tracked, ?_, ?_, rfl⟩
    · rw [extension.marked, same]
      exact (SortedMap.contains_insert _ _ _ _).mpr (Or.inl rfl)
    · rw [tracking.output]
      exact (extension.valid claim same).known
  have changeReal : RealOutput mint real { txid := mintTx.txid mint, vout := 0 } changeValue
      (mint.utxoHash wallet) := by
    refine ⟨script, changeScript, ?_⟩
    rw [mined, outputs]
    rfl
  have spendsNew : SpendsReal mint real after mintTx := by
    refine ⟨?_, extension.balanced, ?_⟩
    · rw [extension.inputs, extension.spent, List.forall₂_cons]
      refine ⟨walletReal, ?_⟩
      cases deposit with
      | none => exact List.Forall₂.nil
      | some claim =>
          have valid := extension.valid claim rfl
          rw [Option.toList_some, List.map_singleton, List.map_singleton, List.forall₂_cons]
          exact ⟨⟨_, valid.script, sound.tracking.at_index valid.known⟩, List.Forall₂.nil⟩
    · intro outpoint member
      rw [extension.inputs] at member
      rcases List.mem_cons.mp member with isWallet | isDeposit
      · rw [isWallet]
        exact walletOrigin.imp (claimed _) id
      · obtain ⟨claim, inDeposit, same⟩ := List.mem_map.mp isDeposit
        exact Or.inl (same ▸ depositClaimed claim (Option.mem_toList.mp inDeposit))
  constructor
  · exact sound.tracking.frame tracking.output
  · intro utxo held
    cases Option.some.inj (extension.advanced.symm.trans held)
    exact ⟨changeReal, Or.inr ⟨wallet, changeValue, changeReal⟩⟩
  · intro absent
    cases extension.advanced.symm.trans absent
  · intro empty
    cases List.append_eq_nil_iff.mp empty |>.2
  · intro index contained
    rw [tracking.output]
    rw [extension.marked] at contained
    cases deposit with
    | none => exact sound.claims index contained
    | some claim =>
        have valid := extension.valid claim rfl
        rw [SortedMap.contains_insert] at contained
        rcases contained with same | earlier
        · exact ⟨claim.key, claim.tracked, same ▸ valid.known, valid.script⟩
        · exact sound.claims index earlier
  · intro index earlier later here there
    rw [List.getElem?_append] at here there
    split at there
    · rename_i inside
      rw [if_pos (by omega)] at here
      exact sound.chained index earlier later here there
    · rename_i outside
      obtain ⟨atEnd, isNew⟩ := List.getElem?_eq_some_iff.mp there
      rw [List.length_singleton] at atEnd
      have same : mintTx = later := by
        simpa [Nat.lt_one_iff.mp atEnd] using isNew
      split at here
      · rename_i inside
        have last : created.getLast? = some earlier := by
          rw [List.getLast?_eq_getElem?, ← here]
          congr 1
          omega
        rw [← same, extension.inputs, List.head?_cons,
          linked.wallet wallet earlier extension.held last]
      · omega
  · intro other member
    rcases List.mem_append.mp member with earlier | new
    · exact sound.changes other earlier
    · rw [List.mem_singleton.mp new]
      exact ⟨wallet, changeValue, changeReal⟩
  · intro other member
    rcases List.mem_append.mp member with earlier | new
    · exact (sound.spends other earlier).mono claimed
    · rw [List.mem_singleton.mp new]
      exact spendsNew
  · rw [List.flatMap_append, List.nodup_append]
    refine ⟨sound.distinct, ?_, ?_⟩
    · rw [List.flatMap_singleton, extension.inputs]
      cases deposit with
      | none => exact List.nodup_singleton _
      | some claim =>
          have apart := (extension.valid claim rfl).unspent_outpoint separated sound.tracking
            walletOrigin
          simp only [Option.toList_some, List.map_cons, List.map_nil, List.nodup_cons,
            List.mem_singleton, List.not_mem_nil, not_false_eq_true, List.nodup_nil, and_true]
          exact apart.symm
    · intro outpoint spentBefore other spentNow same
      subst same
      rw [List.flatMap_singleton, extension.inputs] at spentNow
      obtain ⟨earlier, member, spent⟩ := List.mem_flatMap.mp spentBefore
      rcases List.mem_cons.mp spentNow with isWallet | isDeposit
      · have below := (older earlier member).1 outpoint spent
        rw [isWallet] at below
        exact absurd below (lt_irrefl _)
      · obtain ⟨claim, inDeposit, isOutpoint⟩ := List.mem_map.mp isDeposit
        exact (extension.valid claim (Option.mem_toList.mp inDeposit)).unspent_outpoint separated
          sound.tracking ((sound.spends earlier member).origin outpoint spent) isOutpoint
  · rw [recorded]
    exact dense_insert_nextIndex sound.dense _
  · rw [recorded, values_insert_nextIndex]
    refine List.rel_append sound.records (List.Forall₂.cons ⟨rfl, ?_, ?_, rfl, rfl⟩ List.Forall₂.nil)
    · rw [extension.spent]
      rfl
    · rw [outputs]
      rfl
  · intro index info found
    rw [recorded, SortedMap.get?_insert] at found
    split at found
    · rename_i atEnd
      cases found
      exact atEnd
    · exact sound.numbered index info found
  · intro index info next found follows
    rw [recorded, SortedMap.get?_insert] at found follows
    split at found
    · rename_i atEnd
      rw [if_neg (by omega)] at follows
      have beyond := (ledger.txInfo.contains_iff (index + 1)).mpr ⟨next, follows⟩
      rw [sound.dense.contains, ← nextIndex_dense sound.dense] at beyond
      omega
    · split at follows
      · rename_i atEnd
        cases follows
        have lastInfo : ledger.txInfo.values.getLast? = some info := by
          rw [sound.dense.get?] at found
          rw [List.getLast?_eq_getElem?, ledger.txInfo.values_length, ← nextIndex_dense sound.dense,
            atEnd]
          exact found
        exact sound.last info wallet lastInfo extension.held
      · exact sound.linked index info next found follows
  · intro info utxo last held
    rw [recorded, values_insert_nextIndex, List.getLast?_concat] at last
    cases last
    cases Option.some.inj (extension.advanced.symm.trans held)
    rfl
  · obtain ⟨confirmed, waiting, split, unconfirmed⟩ := sound.pending
    rw [extension.idle, Option.toList_none, List.append_nil] at split
    refine ⟨confirmed, waiting, ?_, ?_⟩
    · rw [extension.unsigned, split]
      rfl
    · rw [tracking.unconfirmedTx]
      exact unconfirmed

theorem WalletSound.step (separated : Separated mint) (linked : Linked mint rank ledger created)
    (sound : WalletSound mint real ledger created) (walletStep : WalletStep mint ledger after)
    (tracking : SameTracking ledger after)
    (mined : Mined mint real (created ++ newMintTxs ledger after)) :
    WalletSound mint real after (created ++ newMintTxs ledger after) := by
  cases walletStep with
  | kept wallet infos unsigned spent =>
      rw [newMintTxs_kept unsigned, List.append_nil]
      exact sound.frame ⟨wallet, infos, spent, Or.inl unsigned⟩ tracking unsigned
  | adopted deposit valid absent wallet infos unsigned spent =>
      rw [newMintTxs_kept unsigned, List.append_nil]
      exact sound.adopt linked tracking valid absent wallet infos unsigned spent
  | extended wallet deposit mintTx changeValue extension =>
      rw [newMintTxs_begun extension.idle extension.unsigned] at mined ⊢
      exact sound.extend separated linked tracking extension
        (mined mintTx (List.mem_append_right _ List.mem_cons_self))

theorem split_closed {α : Type} {property : α → Prop} {items : List α}
    (closed : items.Pairwise (fun earlier later => property later → property earlier)) :
    ∃ gone left, items = gone ++ left ∧ (∀ item ∈ gone, property item) ∧
      ∀ item ∈ left, ¬property item := by
  induction closed with
  | nil => exact ⟨[], [], rfl, List.forall_mem_nil _, List.forall_mem_nil _⟩
  | @cons item rest before _ inductionHypothesis =>
      by_cases holds : property item
      · obtain ⟨gone, left, split, all, none⟩ := inductionHypothesis
        refine ⟨item :: gone, left, by rw [split, List.cons_append], ?_, none⟩
        exact List.forall_mem_cons.mpr ⟨holds, all⟩
      · refine ⟨[], item :: rest, rfl, List.forall_mem_nil _, ?_⟩
        rw [List.forall_mem_cons]
        exact ⟨holds, fun later member isLater => holds (before later member isLater)⟩

theorem unconfirmed_confirm {waiting : List (MintTx curve)} {txids : List Txid}
    (keys : ledger.unconfirmedTx.keys.Perm (waiting.map (MintTx.txid mint)))
    (erased : ∀ txid, after.unconfirmedTx.get? txid =
      if txid ∈ txids then none else ledger.unconfirmedTx.get? txid)
    (closed : waiting.Pairwise (fun earlier later =>
      later.txid mint ∈ txids → earlier.txid mint ∈ txids)) :
    ∃ gone left, waiting = gone ++ left ∧
      after.unconfirmedTx.keys.Perm (left.map (MintTx.txid mint)) := by
  obtain ⟨gone, left, split, all, none⟩ := split_closed closed
  refine ⟨gone, left, split, ?_⟩
  have distinct := keys.nodup ledger.unconfirmedTx.keys_nodup
  rw [split, List.map_append] at distinct keys
  rw [List.perm_ext_iff_of_nodup after.unconfirmedTx.keys_nodup
    (List.nodup_append.mp distinct).2.1]
  intro txid
  rw [SortedMap.mem_keys, erased]
  constructor
  · rintro ⟨signed, found⟩
    split at found
    · cases found
    · rename_i outside
      have member := keys.mem_iff.mp ((ledger.unconfirmedTx.mem_keys txid).mpr ⟨signed, found⟩)
      rcases List.mem_append.mp member with inGone | inLeft
      · obtain ⟨mintTx, isGone, same⟩ := List.mem_map.mp inGone
        exact absurd (same ▸ all mintTx isGone) outside
      · exact inLeft
  · intro inLeft
    obtain ⟨mintTx, isLeft, same⟩ := List.mem_map.mp inLeft
    rw [if_neg (same ▸ none mintTx isLeft)]
    exact (ledger.unconfirmedTx.mem_keys txid).mp
      (keys.mem_iff.mpr (List.mem_append_right _ inLeft))

/-- A real block confirms pending transactions from the oldest on. -/
theorem WalletSound.block (sound : WalletSound mint real ledger created) {vote : BlockVote}
    (block : RealBlock real ledger vote) (same : SameWallet ledger after)
    (unsigned : after.unsignedTx = ledger.unsignedTx)
    (values : after.output.values = ledger.output.values ++ blockOutputs vote)
    (dense : after.output.Dense)
    (erased : ∀ txid, after.unconfirmedTx.get? txid =
      if txid ∈ blockTxids vote then none else ledger.unconfirmedTx.get? txid) :
    WalletSound mint real after created := by
  have kept : ∀ index tracked, ledger.output.get? index = some tracked →
      after.output.get? index = some tracked := by
    intro index tracked found
    rw [sound.tracking.dense.get?] at found
    rw [dense.get?, values, List.getElem?_append_left (List.getElem?_eq_some_iff.mp found).1]
    exact found
  apply sound.carry same _ kept
  · obtain ⟨confirmed, waiting, split, unconfirmed⟩ := sound.pending
    have recorded : ∀ (position : Nat) (mintTx : MintTx curve),
        waiting[position]? = some mintTx → ∃ info,
          ledger.txInfo.get? (confirmed.length + position) = some info ∧
            info.txid = mintTx.txid mint := by
      intro position mintTx found
      have inCreated : created[confirmed.length + position]? = some mintTx := by
        rw [split, List.append_assoc, List.getElem?_append_right (by omega),
          Nat.add_sub_cancel_left,
          List.getElem?_append_left (List.getElem?_eq_some_iff.mp found).1, found]
      obtain ⟨inside, isTx⟩ := List.getElem?_eq_some_iff.mp inCreated
      have within : confirmed.length + position < ledger.txInfo.values.length := by
        rw [sound.records.length_eq]
        exact inside
      have record := sound.records.get within inside
      simp only [List.get_eq_getElem, isTx] at record
      refine ⟨ledger.txInfo.values[confirmed.length + position], ?_, record.txid⟩
      rw [sound.dense.get?]
      exact List.getElem?_eq_getElem within
    have closed : waiting.Pairwise (fun earlier later =>
        later.txid mint ∈ blockTxids vote → earlier.txid mint ∈ blockTxids vote) := by
      rw [List.pairwise_iff_getElem]
      intro earlier later insideEarlier insideLater before listed
      obtain ⟨info, found, isTxid⟩ := recorded earlier _ (List.getElem?_eq_getElem insideEarlier)
      obtain ⟨info', found', isTxid'⟩ := recorded later _ (List.getElem?_eq_getElem insideLater)
      rw [← isTxid'] at listed
      rw [← isTxid]
      apply block.ordered _ _ info info' (Nat.add_lt_add_left before _) found found' _ listed
      rw [SortedMap.contains_iff, ← SortedMap.mem_keys, unconfirmed.mem_iff, isTxid]
      exact List.mem_map_of_mem (List.getElem_mem insideEarlier)
    obtain ⟨gone, left, parts, keys⟩ := unconfirmed_confirm unconfirmed erased closed
    refine ⟨confirmed ++ gone, left, ?_, keys⟩
    rw [split, parts, unsigned, List.append_assoc confirmed gone]
  · refine ⟨dense, ?_, by rw [values]; exact block.once⟩
    intro tracked member
    rw [values] at member
    rcases List.mem_append.mp member with earlier | new
    · exact sound.tracking.outputs tracked earlier
    · exact block.outputs tracked new

/-- The unsigned transaction becomes the last unconfirmed one. -/
theorem WalletSound.sign (linked : Linked mint rank ledger created)
    (sound : WalletSound mint real ledger created) {unsigned : MintTx curve}
    (present : ledger.unsignedTx = some unsigned) (same : SameWallet ledger after)
    (output : after.output = ledger.output) (cleared : after.unsignedTx = none)
    (signs : ∃ signed,
      after.unconfirmedTx = ledger.unconfirmedTx.insert (unsigned.txid mint) signed) :
    WalletSound mint real after created := by
  obtain ⟨signed, inserted⟩ := signs
  obtain ⟨confirmed, waiting, split, unconfirmed⟩ := sound.pending
  rw [present] at split
  have absent : ledger.unconfirmedTx.get? (unsigned.txid mint) = none := by
    cases found : ledger.unconfirmedTx.get? (unsigned.txid mint) with
    | none => rfl
    | some other =>
        have member := unconfirmed.mem_iff.mp
          ((ledger.unconfirmedTx.mem_keys _).mpr ⟨other, found⟩)
        obtain ⟨mintTx, isWaiting, sameTxid⟩ := List.mem_map.mp member
        have increasing := linked.increasing
        rw [split, List.map_append, List.pairwise_append] at increasing
        have below := increasing.2.2 (rank (mintTx.txid mint)) (List.mem_map_of_mem
          (List.mem_append_right confirmed isWaiting)) (rank (unsigned.txid mint))
          List.mem_cons_self
        rw [sameTxid] at below
        exact absurd below (lt_irrefl _)
  have permuted := (ledger.unconfirmedTx.rows_insert_perm (unsigned.txid mint) signed).map Prod.fst
  rw [SortedMap.erase_of_get?_none _ absent, List.map_cons] at permuted
  apply sound.carry same (sound.tracking.frame output)
  · rw [output]
    exact fun _ _ => id
  · refine ⟨confirmed, waiting ++ [unsigned], ?_, ?_⟩
    · rw [split, cleared, List.append_assoc confirmed, Option.toList_none, List.append_nil]
      rfl
    · rw [inserted, List.map_append]
      exact permuted.trans ((unconfirmed.cons _).trans (List.perm_append_singleton _ _).symm)

/-- An item other than a transaction tracks a real block, finishes a signature
or leaves all of this alone. -/
theorem processConsensusItem_walletSound {node : NodeId} {item : ConsensusItem curve}
    (linked : Linked server.toMintConfig rank ledger created)
    (sound : WalletSound server.toMintConfig real ledger created)
    (processed : processConsensusItem server ledger node item = .ok after)
    (notTx : ∀ tx, item ≠ .tx tx)
    (real' : ∀ vote, item = .onchain (.block vote) →
      Advances server.toMintConfig ledger node vote → RealBlock real ledger vote) :
    WalletSound server.toMintConfig real after created := by
  have same := (processConsensusItem_wallet processed notTx).1
  cases item with
  | tx tx => exact absurd rfl (notTx tx)
  | blockHeight vote =>
      obtain ⟨height, result⟩ := processBlockHeight_ok processed
      subst result
      exact sound.frame same ⟨rfl, rfl⟩ rfl
  | version vote =>
      have result := processVersion_ok processed
      subst result
      exact sound.frame same ⟨rfl, rfl⟩ rfl
  | onchain item =>
      cases item with
      | block vote =>
          obtain ⟨_, _, result | result⟩ := Onchain.processBlock_ok processed
          · subst result
            exact sound.frame same ⟨rfl, rfl⟩ rfl
          · have block := real' vote rfl ⟨after, processed, by rw [result]⟩
            obtain ⟨values, dense, erased⟩ := Onchain.trackTxs_values vote.txs
              ({ ledger with blockVote := ledger.blockVote.insert node vote },
                nextIndex ledger.output) rfl
            obtain ⟨output, unconfirmed, tracked⟩ := Onchain.trackTx_frame vote.txs
              ({ ledger with blockVote := ledger.blockVote.insert node vote },
                nextIndex ledger.output)
            have unsigned : after.unsignedTx = ledger.unsignedTx := by
              rw [result, tracked]
            rw [result] at same unsigned ⊢
            exact sound.block block same unsigned values (dense sound.tracking.dense) erased
      | feerate vote =>
          have result := Onchain.processFeerate_ok processed
          subst result
          exact sound.frame same ⟨rfl, rfl⟩ rfl
      | nonces txid nonces =>
          obtain ⟨_, _, _, _, _, result⟩ := Onchain.processNonces_ok (mapError_eq_ok.mp processed)
          subst result
          exact sound.frame same ⟨rfl, rfl⟩ rfl
      | signatureShares txid shares nonces =>
          obtain ⟨unsigned, _, _, checked, ⟨_, result⟩ | ⟨_, signed, _, result⟩⟩ :=
            Onchain.processSignatureShares_ok (mapError_eq_ok.mp processed)
          · subst result
            exact sound.frame same ⟨rfl, rfl⟩ rfl
          · have isTxid : unsigned.txid server.toMintConfig = txid := checked.sameTx
            rw [result] at same ⊢
            refine sound.sign linked checked.present same rfl rfl ⟨signed, ?_⟩
            rw [isTxid]
            rfl

end Preservation

/-! ### Histories -/

structure UnbrokenChain (mint : MintConfig curve) (real : BtcOutPoint → Option TxOut)
    (ledger : Ledger curve) (created : List (MintTx curve)) : Prop where
  wallet : ∀ utxo, ledger.mintUtxo = some utxo →
    RealOutput mint real utxo.outpoint utxo.value utxo.tweak
  newest : ∀ utxo mintTx, ledger.mintUtxo = some utxo → created.getLast? = some mintTx →
    utxo.outpoint = { txid := mintTx.txid mint, vout := 0 }
  deposit : created = [] → ∀ utxo, ledger.mintUtxo = some utxo → ∃ index tracked,
    ledger.spentOutputIndex.keys = [index] ∧ ledger.output.get? index = some tracked ∧
      utxo.outpoint = tracked.outpoint
  chained : ∀ (index : Nat) earlier later, created[index]? = some earlier →
    created[index + 1]? = some later →
    later.inputs.head? = some { txid := earlier.txid mint, vout := 0 }
  spends : ∀ mintTx ∈ created, List.Forall₂ (fun outpoint spent =>
    RealOutput mint real outpoint spent.value spent.tweak) mintTx.inputs mintTx.spentTxOuts
  balanced : ∀ mintTx ∈ created, (mintTx.spentTxOuts.map SpentTxOut.value).sum =
    (mintTx.tx.output.map TxOut.value).sum + mintTx.fee
  unsigned : ∀ mintTx, ledger.unsignedTx = some mintTx → created.getLast? = some mintTx
  dense : ledger.txInfo.keys = List.range created.length
  numbered : ∀ index info, ledger.txInfo.get? index = some info → info.index = index
  records : List.Forall₂ (Records mint) ledger.txInfo.values created
  linked : ∀ index info next, ledger.txInfo.get? index = some info →
    ledger.txInfo.get? (index + 1) = some next → next.input = info.output
  pending : ((Onchain.pendingTxChain ledger).map TxInfo.txid).Perm
    (ledger.unsignedTx.toList.map (MintTx.txid mint) ++ ledger.unconfirmedTx.keys)
  distinct : (created.flatMap MintTx.inputs).Nodup
  change : ∀ mintTx ∈ created, ∀ index tracked, ledger.output.get? index = some tracked →
    tracked.outpoint = { txid := mintTx.txid mint, vout := 0 } →
    ledger.spentOutputIndex.contains index = false ∧ ∀ input result after,
      input.outputIndex = index → Onchain.processInput mint ledger input ≠ .ok (result, after)

section Histories

variable {real : BtcOutPoint → Option TxOut} {rank : Txid → Nat} {created : List (MintTx curve)}

theorem History.run_walletSound {items : List (NodeId × ConsensusItem curve)}
    {history : History curve} (acyclic : Acyclic server.toMintConfig rank)
    (separated : Separated server.toMintConfig)
    (ran : History.run server History.start items = some history)
    (blocks : RealBlocks server real items)
    (mined : Mined server.toMintConfig real (History.mintTxs server History.start items)) :
    WalletSound server.toMintConfig real history.ledger
      (History.mintTxs server History.start items) := by
  have sound : RealBlocks server real items →
      Mined server.toMintConfig real (History.mintTxs server History.start items) →
      WalletSound server.toMintConfig real history.ledger
        (History.mintTxs server History.start items) := by
    apply History.run_induction (motive := fun items history => RealBlocks server real items →
      Mined server.toMintConfig real (History.mintTxs server History.start items) →
      WalletSound server.toMintConfig real history.ledger
        (History.mintTxs server History.start items)) ran
    · exact fun _ _ => WalletSound.empty
    · intro items history next entry reached stepped inductionHypothesis blocks
      rw [History.mintTxs_concat reached stepped]
      intro mined
      have sound := inductionHypothesis blocks.initial
        (fun mintTx member => mined mintTx (List.mem_append_left _ member))
      have linked := History.run_linked acyclic reached
      rcases History.step_cases stepped with same | ⟨tx, _, accepted, _⟩ | ⟨accepted, notTx, _⟩
      · rw [same, newMintTxs_self, List.append_nil]
        exact sound
      · have carried := processTxItem_wallet (motive := fun ledger created =>
          Linked server.toMintConfig rank ledger created ∧
            (Mined server.toMintConfig real created →
              WalletSound server.toMintConfig real ledger created)) accepted
          (fun before next created same tracking unsigned carried =>
            ⟨carried.1.frame same,
              fun mined => (carried.2 mined).frame same tracking unsigned⟩)
          (fun before next created walletStep tracking carried =>
            ⟨carried.1.step acyclic walletStep, fun mined =>
              (carried.2 (fun mintTx member =>
                mined mintTx (List.mem_append_left _ member))).step separated carried.1 walletStep
                  tracking mined⟩)
          ⟨linked, fun _ => sound⟩
        exact carried.2 mined
      · rw [(processConsensusItem_wallet accepted notTx).2, List.append_nil]
        apply processConsensusItem_walletSound linked sound accepted notTx
        intro vote isBlock advances
        exact blocks items entry.1 vote [] history (by rw [← isBlock]) reached advances
  exact sound blocks mined

theorem records_txids {infos : List TxInfo}
    (records : List.Forall₂ (Records mint) infos created) :
    infos.map TxInfo.txid = created.map (MintTx.txid mint) := by
  induction records with
  | nil => rfl
  | cons record _ inductionHypothesis =>
      rw [List.map_cons, List.map_cons, inductionHypothesis, record.txid]

/-- The report on pending transactions is the end of the log. -/
theorem WalletSound.pendingTxChain (sound : WalletSound mint real ledger created) :
    ((Onchain.pendingTxChain ledger).map TxInfo.txid).Perm
      (ledger.unsignedTx.toList.map (MintTx.txid mint) ++ ledger.unconfirmedTx.keys) := by
  obtain ⟨confirmed, waiting, split, unconfirmed⟩ := sound.pending
  have count : (Onchain.pendingTxsUnordered ledger).length =
      (waiting ++ ledger.unsignedTx.toList).length := by
    rw [Onchain.pendingTxsUnordered, List.length_append, List.length_append,
      ledger.unconfirmedTx.values_length, ← ledger.unconfirmedTx.keys_length,
      unconfirmed.length_eq, List.length_map, Nat.add_comm]
  have reported : (Onchain.pendingTxChain ledger).map TxInfo.txid =
      ((waiting ++ ledger.unsignedTx.toList).map (MintTx.txid mint)).reverse := by
    rw [Onchain.pendingTxChain, List.map_take, List.map_reverse, records_txids sound.records, split, List.append_assoc,
      List.map_append, List.reverse_append, count]
    apply List.take_left'
    rw [List.length_reverse, List.length_map]
  rw [reported]
  apply (List.reverse_perm _).trans
  rw [List.map_append]
  exact List.perm_append_comm.trans (unconfirmed.symm.append_left _)

theorem WalletSound.change_unclaimable (separated : Separated mint)
    (sound : WalletSound mint real ledger created) {mintTx : MintTx curve}
    (member : mintTx ∈ created) {index : Nat} {tracked : TrackedOutput}
    (found : ledger.output.get? index = some tracked)
    (isChange : tracked.outpoint = { txid := mintTx.txid mint, vout := 0 }) :
    ledger.spentOutputIndex.contains index = false ∧ ∀ input result after,
      input.outputIndex = index → Onchain.processInput mint ledger input ≠ .ok (result, after) := by
  obtain ⟨wallet, value, script, changeScript, isReal⟩ := sound.changes mintTx member
  have standing := sound.tracking.at_index found
  rw [isChange, isReal] at standing
  have sameScript := congrArg TxOut.scriptPubkey (Option.some.inj standing)
  have noKey : ∀ key, ¬HasScript mint (mint.tweakHash key) tracked.out.scriptPubkey := by
    intro key depositScript
    rw [← sameScript] at depositScript
    exact separated key wallet script depositScript changeScript
  constructor
  · rw [Bool.eq_false_iff]
    intro contained
    obtain ⟨key, tracked', found', script'⟩ := sound.claims index contained
    cases found.symm.trans found'
    exact noKey key script'
  · rintro input ⟨amount, pk⟩ after same processed
    obtain ⟨tracked', _, checked, _⟩ := Onchain.processInput_ok processed
    have known := checked.known
    rw [same] at known
    cases found.symm.trans known
    exact noKey input.tweak (scriptPubkey_eq_ok.mp checked.tweak)

/-- In every reachable state the mint's transactions are one chain from the
first deposit to the wallet, exact in what they spend, and spend no output
twice. -/
theorem mint_chain_unbroken (server : Server curve) (real : BtcOutPoint → Option TxOut)
    (rank : Txid → Nat) (acyclic : Acyclic server.toMintConfig rank)
    (separated : Separated server.toMintConfig) (items : List (NodeId × ConsensusItem curve))
    (history : History curve) (ran : History.run server History.start items = some history)
    (blocks : RealBlocks server real items)
    (mined : Mined server.toMintConfig real (History.mintTxs server History.start items)) :
    UnbrokenChain server.toMintConfig real history.ledger
      (History.mintTxs server History.start items) := by
  have linked := History.run_linked acyclic ran
  have sound := History.run_walletSound acyclic separated ran blocks mined
  have count : history.ledger.txInfo.size =
      (History.mintTxs server History.start items).length := by
    rw [← history.ledger.txInfo.values_length, sound.records.length_eq]
  exact
    { wallet := fun utxo held => (sound.wallet utxo held).1
      newest := linked.wallet
      deposit := sound.first
      chained := sound.chained
      spends := fun mintTx member => (sound.spends mintTx member).outputs
      balanced := fun mintTx member => (sound.spends mintTx member).balanced
      unsigned := linked.newest
      dense := count ▸ sound.dense
      numbered := sound.numbered
      records := sound.records
      linked := sound.linked
      pending := sound.pendingTxChain
      distinct := sound.distinct
      change := fun _ member _ _ found isChange =>
        sound.change_unclaimable separated member found isChange }

end Histories

/-! Two deposits, and the sweep of the second. -/

/-- The change stands under a script no deposit has. -/
def sampleTraced : Server scalarCurve :=
  { sampleServer with
    tweakHash := (· % 100)
    utxoHash := fun _ => 1000 }

def sampleReal (outpoint : BtcOutPoint) : Option TxOut :=
  if outpoint.txid = 7 then [{ value := 50000, scriptPubkey := 6 },
    { value := 50000, scriptPubkey := 6 }][outpoint.vout]?
  else if outpoint.txid = 15 then [{ value := 90000, scriptPubkey := 1001 }][outpoint.vout]?
  else none

def sampleBlock? : ConsensusItem scalarCurve → Option BlockVote
  | .onchain (.block vote) => some vote
  | _ => none

theorem sample_separated : Separated sampleTraced.toMintConfig := by
  intro key wallet script depositScript changeScript
  have change : (Onchain.scriptPubkey sampleTraced.toMintConfig 1000 :
      Outcome OnchainInputError Script) = .ok 1001 := by
    decide +kernel
  have deposits : ∀ residue < 100, (Onchain.scriptPubkey sampleTraced.toMintConfig residue :
      Outcome OnchainInputError Script) ≠ .ok 1001 := by
    decide +kernel
  have same := changeScript.unique (scriptPubkey_eq_ok.mp change)
  rw [same] at depositScript
  exact deposits (key % 100) (Nat.mod_lt _ (by decide)) (scriptPubkey_eq_ok.mpr depositScript)

theorem sample_realBlocks : RealBlocks sampleTraced sampleReal sampleUnsigned := by
  intro before node vote rest history split reached _
  have checked : ∀ place ∈ List.range sampleUnsigned.length,
      ∀ vote ∈ sampleUnsigned[place]?.bind (fun entry => sampleBlock? entry.2),
      vote = sampleTwoDeposits ∧ ∀ history ∈ History.run sampleTraced History.start
        (sampleUnsigned.take place), history.ledger.output.values = [] ∧
          history.ledger.txInfo.rows = [] := by
    decide +kernel
  have place : before.length ∈ List.range sampleUnsigned.length := by
    rw [List.mem_range, split, List.length_append, List.length_cons]
    omega
  obtain ⟨isSample, blank⟩ := checked before.length place vote (by
    rw [split, List.getElem?_append_right (le_refl _), Nat.sub_self]
    rfl)
  rw [split, List.take_left] at blank
  obtain ⟨noOutput, noInfo⟩ := blank history reached
  subst isSample
  refine ⟨by decide, ?_, ?_⟩
  · rw [noOutput]
    decide
  · intro index later info info' _ found
    have member := (SortedMap.mem_rows _ index info).mpr found
    rw [noInfo] at member
    cases member

theorem sample_mined : Mined sampleTraced.toMintConfig sampleReal
    (History.mintTxs sampleTraced History.start sampleUnsigned) := by
  have created : (History.mintTxs sampleTraced History.start sampleUnsigned).map
      (fun mintTx => (mintTx.txid sampleTraced.toMintConfig, mintTx.tx.output)) =
      [(15, [{ value := 90000, scriptPubkey := 1001 }])] := by
    decide +kernel
  intro mintTx member vout
  have same := List.mem_map_of_mem (f := fun mintTx : MintTx scalarCurve =>
    (mintTx.txid sampleTraced.toMintConfig, mintTx.tx.output)) member
  rw [created, List.mem_singleton, Prod.mk.injEq] at same
  rw [same.1, same.2]
  rfl

theorem mint_chain_unbroken_sample : ∃ history : History scalarCurve, ∃ utxo mintTx,
    History.run sampleTraced History.start sampleUnsigned = some history ∧
      history.ledger.mintUtxo = some utxo ∧
      History.mintTxs sampleTraced History.start sampleUnsigned = [mintTx] ∧
      utxo.outpoint = { txid := mintTx.txid sampleTraced.toMintConfig, vout := 0 } := by
  have ran : (History.run sampleTraced History.start sampleUnsigned).map
      (fun history => history.ledger.mintUtxo.isSome) = some true := by
    decide +kernel
  have count : (History.mintTxs sampleTraced History.start sampleUnsigned).length = 1 := by
    decide +kernel
  obtain ⟨history, reached, held⟩ := Option.map_eq_some_iff.mp ran
  obtain ⟨utxo, wallet⟩ := Option.isSome_iff_exists.mp held
  obtain ⟨mintTx, created⟩ := List.length_eq_one_iff.mp count
  have chain := mint_chain_unbroken sampleTraced sampleReal id sample_acyclic sample_separated
    sampleUnsigned history reached sample_realBlocks sample_mined
  exact ⟨history, utxo, mintTx, reached, wallet, created,
    chain.newest utxo mintTx wallet (by rw [created]; rfl)⟩

end Picomint.Consensus
