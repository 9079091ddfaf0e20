/-
The invariant of the signing log.

The nonce log is dense, its chunks are the signing sessions, and the shares
table holds exactly the entries whose node has entered again.  A session is
closed as soon as its last node has signed, so no session is ever full.
-/

import Picomint.Consensus.Transitions
import Picomint.Lib.ChunkLog

namespace Picomint.Consensus

open Tss ChunkLog

variable {curve : Curve} {server : Server curve} {mint : MintConfig curve}
  {ledger after : Ledger curve}

/-! ### What ecash and lightning leave alone -/

structure SameOnchain (ledger after : Ledger curve) : Prop where
  output : after.output = ledger.output
  blockHeight : after.blockHeight = ledger.blockHeight
  blockVote : after.blockVote = ledger.blockVote
  spentOutputIndex : after.spentOutputIndex = ledger.spentOutputIndex
  mintUtxo : after.mintUtxo = ledger.mintUtxo
  txInfo : after.txInfo = ledger.txInfo
  txInfoIndex : after.txInfoIndex = ledger.txInfoIndex
  unsignedTx : after.unsignedTx = ledger.unsignedTx
  nonceLog : after.nonceLog = ledger.nonceLog
  signatureShares : after.signatureShares = ledger.signatureShares
  unconfirmedTx : after.unconfirmedTx = ledger.unconfirmedTx
  feeRateVote : after.feeRateVote = ledger.feeRateVote

theorem processInput_onchain {input : Input} {result : Nat × XOnlyPublicKey}
    (processed : processInput mint ledger input = .ok (result, after)) :
    SameOnchain ledger after ∨ ∃ onchain, input = .onchain onchain ∧
      Onchain.processInput mint ledger onchain = .ok (result, after) := by
  obtain ⟨amount, pk⟩ := result
  cases input with
  | ecash input =>
      obtain ⟨_, _, _, _, final⟩ := Ecash.processInput_ok (mapError_eq_ok.mp processed)
      subst final
      exact Or.inl (by constructor <;> rfl)
  | onchain input => exact Or.inr ⟨input, rfl, mapError_eq_ok.mp processed⟩
  | lightning input =>
      left
      cases input with
      | outgoing outpoint witness =>
          obtain ⟨_, _, _, _, _, _, final⟩ :=
            Lightning.processInput_outgoing_ok (mapError_eq_ok.mp processed)
          subst final
          constructor <;> rfl
      | incoming outpoint =>
          obtain ⟨_, _, _, _, _, _, final⟩ :=
            Lightning.processInput_incoming_ok (mapError_eq_ok.mp processed)
          subst final
          constructor <;> rfl

theorem processOutput_onchain {output : Output} {outpoint : OutPoint} {amount : Nat}
    (processed : processOutput server ledger outpoint output = .ok (amount, after)) :
    SameOnchain ledger after ∨ ∃ onchain, output = .onchain onchain ∧
      Onchain.processOutput server.toMintConfig ledger onchain outpoint = .ok (amount, after) := by
  cases output with
  | ecash output =>
      obtain ⟨_, ⟨_, _, final⟩, _⟩ := Ecash.processOutput_ok (mapError_eq_ok.mp processed)
      subst final
      exact Or.inl (by constructor <;> rfl)
  | onchain output => exact Or.inr ⟨output, rfl, mapError_eq_ok.mp processed⟩
  | lightning output =>
      left
      cases output with
      | outgoing contract =>
          obtain ⟨_, _, final⟩ :=
            Lightning.processOutput_outgoing_ok (mapError_eq_ok.mp processed)
          subst final
          constructor <;> rfl
      | incoming contract =>
          obtain ⟨_, final⟩ :=
            Lightning.processOutput_incoming_ok (mapError_eq_ok.mp processed)
          subst final
          constructor <;> rfl

namespace Onchain

theorem threshold_pos (mint : MintConfig curve) : 0 < threshold mint :=
  Nat.succ_pos _

def owners (log : SortedMap Nat (NonceEntry curve)) : List NodeId :=
  log.values.map NonceEntry.node

/-! ### Reading the log -/

section Log

variable {log : SortedMap Nat (NonceEntry curve)}

theorem owners_length (log : SortedMap Nat (NonceEntry curve)) : (owners log).length = log.size := by
  rw [owners, List.length_map, log.values_length]

theorem owners_getElem? (dense : log.Dense) (index : Nat) :
    (owners log)[index]? = (log.get? index).map NonceEntry.node := by
  rw [owners, List.getElem?_map, dense.get?]

theorem owners_insert (entry : NonceEntry curve) :
    owners (log.insert (nextIndex log) entry) = owners log ++ [entry.node] := by
  rw [owners, values_insert_nextIndex, List.map_append, List.map_singleton]
  rfl

theorem latestEntry_latest (dense : log.Dense) {node : NodeId} {index : Nat}
    (latest : latestEntry log node = some index) : IsLatest (owners log) node index := by
  unfold latestEntry at latest
  obtain ⟨row, found, same⟩ := Option.map_eq_some_iff.mp latest
  obtain ⟨isNode, before, rest, split, others⟩ := List.find?_eq_some_iff_append.mp found
  have isNode := of_decide_eq_true isNode
  have member : row ∈ log.rows :=
    List.mem_reverse.mp (by rw [split]; exact List.mem_append_right _ List.mem_cons_self)
  have here := (log.mem_rows row.1 row.2).mp member
  rw [same] at here
  refine ⟨by rw [owners_getElem? dense, here, Option.map_some, isNode], ?_⟩
  intro later after there
  rw [owners_getElem? dense, Option.map_eq_some_iff] at there
  obtain ⟨entry, there, sameNode⟩ := there
  have inRows := (log.mem_rows later entry).mpr there
  rw [← List.mem_reverse, split, List.mem_append, List.mem_cons] at inRows
  -- the scan in descending order meets the largest key of the node first
  rcases inRows with first | atRow | last
  · have excluded := others _ first
    simp [sameNode] at excluded
  · rw [← same, ← atRow] at after
    exact absurd after (lt_irrefl _)
  · have ordered := log.ascending
    unfold SortedRows.Ascending at ordered
    rw [← List.reverse_reverse log.rows, List.pairwise_reverse, split,
      List.pairwise_append] at ordered
    have below := (List.pairwise_cons.mp ordered.2.1).1 _ last
    rw [same] at below
    exact absurd below (by simpa using after.le)

theorem latestEntry_none {node : NodeId} :
    latestEntry log node = none ↔ node ∉ owners log := by
  unfold latestEntry owners
  rw [Option.map_eq_none_iff, List.find?_eq_none, List.mem_map]
  constructor
  · rintro absent ⟨entry, member, same⟩
    obtain ⟨row, inRows, isEntry⟩ := List.mem_map.mp member
    have excluded := absent row (List.mem_reverse.mpr inRows)
    rw [isEntry] at excluded
    simp [same] at excluded
  · intro absent row member isNode
    have isNode := of_decide_eq_true isNode
    exact absent ⟨row.2, List.mem_map_of_mem (List.mem_reverse.mp member), isNode⟩

theorem latestEntry_isLatest (dense : log.Dense) {node : NodeId} {index : Nat} :
    latestEntry log node = some index ↔ IsLatest (owners log) node index := by
  constructor
  · exact latestEntry_latest dense
  · intro isLatest
    cases found : latestEntry log node with
    | none => exact absurd (List.mem_of_getElem? isLatest.1) (latestEntry_none.mp found)
    | some other => rw [(latestEntry_latest dense found).unique isLatest]

theorem sessionChunk_eq (mint : MintConfig curve) (dense : log.Dense) (latest : Nat) :
    sessionChunk mint log latest =
      (log.values.drop (latest / threshold mint * threshold mint)).take (threshold mint) := by
  unfold sessionChunk
  rw [dense.range_values, Nat.add_mul, Nat.one_mul, Nat.add_sub_cancel_left]

theorem sessionChunk_nodes (mint : MintConfig curve) (dense : log.Dense) (latest : Nat) :
    (sessionChunk mint log latest).map NonceEntry.node =
      chunkOf (threshold mint) (owners log) (latest / threshold mint) := by
  rw [sessionChunk_eq mint dense, owners, chunkOf, List.map_take, List.map_drop]

theorem sessionChunk_complete (mint : MintConfig curve) (dense : log.Dense) (latest : Nat) :
    (sessionChunk mint log latest).length = threshold mint ↔
      Complete (threshold mint) (owners log) (latest / threshold mint) := by
  have positive := threshold_pos mint
  rw [sessionChunk_eq mint dense, List.length_take, List.length_drop, log.values_length,
    Complete, owners_length, Nat.add_mul, Nat.one_mul]
  omega

theorem sessionChunk_insert (mint : MintConfig curve) (dense : log.Dense) {latest : Nat}
    (complete : (sessionChunk mint log latest).length = threshold mint)
    (entry : NonceEntry curve) :
    sessionChunk mint (log.insert (nextIndex log) entry) latest = sessionChunk mint log latest := by
  have full := (sessionChunk_complete mint dense latest).mp complete
  unfold Complete at full
  rw [owners_length, Nat.add_mul, Nat.one_mul] at full
  rw [sessionChunk_eq mint dense, sessionChunk_eq mint (dense_insert_nextIndex dense entry),
    values_insert_nextIndex, List.drop_append_of_le_length (by rw [log.values_length]; omega),
    List.take_append_of_le_length (by rw [List.length_drop, log.values_length]; omega)]

end Log

/-! ### The invariant -/

/-- A row of the shares table: shares of the entry's node that verify for the
session of the entry. -/
structure Posted (mint : MintConfig curve) (log : SortedMap Nat (NonceEntry curve))
    (unsigned : MintTx curve) (index : Nat) (shares : List (SignatureShare curve)) : Prop where
  complete : (sessionChunk mint log index).length = threshold mint
  count : shares.length = unsigned.spentTxOuts.length
  verified : ∃ entry msgs, log.get? index = some entry ∧
    (sighashes mint unsigned : Outcome SigningError _) = .ok msgs ∧
    verifyShares mint entry.node (sessionChunk mint log index) unsigned msgs shares = .ok ()

structure LogSound (mint : MintConfig curve) (ledger : Ledger curve) : Prop where
  idle : ledger.unsignedTx = none →
    ledger.nonceLog = SortedMap.empty ∧ ledger.signatureShares = SortedMap.empty
  dense : ledger.nonceLog.Dense
  members : ∀ node ∈ owners ledger.nonceLog, node < mint.n.total
  spread : Spread (threshold mint) (owners ledger.nonceLog)
  unfinished : Unfinished (threshold mint) (owners ledger.nonceLog)
  superseded : ∀ index, ledger.signatureShares.contains index = true ↔
    Superseded (owners ledger.nonceLog) index
  inputs : ∀ unsigned, ledger.unsignedTx = some unsigned →
    unsigned.spentTxOuts.length = unsigned.tx.input.length
  nonces : ∀ unsigned, ledger.unsignedTx = some unsigned → ∀ entry ∈ ledger.nonceLog.values,
    entry.nonces.length = unsigned.spentTxOuts.length
  posted : ∀ unsigned, ledger.unsignedTx = some unsigned → ∀ index shares,
    ledger.signatureShares.get? index = some shares →
      Posted mint ledger.nonceLog unsigned index shares

theorem LogSound.of_empty (log : ledger.nonceLog = SortedMap.empty)
    (shares : ledger.signatureShares = SortedMap.empty)
    (inputs : ∀ unsigned, ledger.unsignedTx = some unsigned →
      unsigned.spentTxOuts.length = unsigned.tx.input.length) : LogSound mint ledger where
  idle := fun _ => ⟨log, shares⟩
  dense := by rw [log]; exact SortedMap.dense_empty
  members := by
    rw [log]
    intro node member
    cases member
  spread := by
    rw [log]
    intro index later owner _ here
    cases here
  unfinished := by
    rw [log]
    intro chunk complete
    exact absurd (Nat.mul_pos (Nat.succ_pos chunk) (threshold_pos mint)) (Nat.not_lt.mpr complete)
  superseded := by
    rw [log, shares]
    intro index
    constructor
    · intro contained
      cases contained
    · rintro ⟨_, _, _, here, _⟩
      cases here
  inputs := inputs
  nonces := by
    rw [log]
    intro _ _ entry member
    cases member
  posted := by
    rw [shares]
    intro _ _ index row found
    cases found

theorem LogSound.frame (sound : LogSound mint ledger)
    (unsigned : after.unsignedTx = ledger.unsignedTx) (log : after.nonceLog = ledger.nonceLog)
    (shares : after.signatureShares = ledger.signatureShares) : LogSound mint after := by
  obtain ⟨idle, dense, members, spread, unfinished, superseded, inputs, nonces, posted⟩ := sound
  constructor
  · rwa [unsigned, log, shares]
  · rwa [log]
  · rwa [log]
  · rwa [log]
  · rwa [log]
  · rwa [log, shares]
  · rwa [unsigned]
  · rwa [unsigned, log]
  · rwa [unsigned, log, shares]

theorem LogSound.begin (sound : LogSound mint ledger) (idle : ledger.unsignedTx = none)
    {mintTx : MintTx curve} (unsigned : after.unsignedTx = some mintTx)
    (log : after.nonceLog = ledger.nonceLog)
    (shares : after.signatureShares = ledger.signatureShares)
    (inputs : mintTx.spentTxOuts.length = mintTx.tx.input.length) : LogSound mint after := by
  obtain ⟨emptyLog, emptyShares⟩ := sound.idle idle
  apply LogSound.of_empty (log.trans emptyLog) (shares.trans emptyShares)
  intro other present
  cases Option.some.inj (unsigned.symm.trans present)
  exact inputs

theorem Posted.insert {log : SortedMap Nat (NonceEntry curve)} {unsigned : MintTx curve}
    {index : Nat} {shares : List (SignatureShare curve)} (dense : log.Dense)
    (posted : Posted mint log unsigned index shares) (entry : NonceEntry curve) :
    Posted mint (log.insert (nextIndex log) entry) unsigned index shares := by
  obtain ⟨complete, count, owner, msgs, here, messages, verified⟩ := posted
  have same := sessionChunk_insert mint dense complete entry
  refine ⟨by rw [same]; exact complete, count, owner, msgs, ?_, messages, by rwa [same]⟩
  rw [SortedMap.get?_insert_of_ne, here]
  intro atEnd
  rw [← atEnd, get?_nextIndex] at here
  cases here

theorem processNonces_logSound {node : NodeId} {txid : Txid} {nonces : List (PublicNonce curve)}
    (member : node < mint.n.total) (sound : LogSound mint ledger)
    (processed : processNonces mint ledger node txid nonces = .ok after) :
    LogSound mint after := by
  obtain ⟨unsigned, present, _, count, others, result⟩ := processNonces_ok processed
  have absent : node ∉ owners ledger.nonceLog := by
    intro entered
    obtain ⟨entry, inValues, same⟩ := List.mem_map.mp entered
    exact others entry inValues same
  have dense := sound.dense
  subst result
  constructor
  · intro idle
    cases present.symm.trans idle
  · exact dense_insert_nextIndex dense _
  · intro other entered
    rw [owners_insert, List.mem_append, List.mem_singleton] at entered
    rcases entered with earlier | same
    · exact sound.members other earlier
    · exact same ▸ member
  · rw [owners_insert]
    apply sound.spread.append
    intro index here
    exact absurd (List.mem_of_getElem? here) absent
  · rw [owners_insert]
    exact sound.unfinished.enter (threshold_pos mint) absent
  · intro index
    rw [owners_insert, superseded_append, ← sound.superseded]
    constructor
    · exact Or.inl
    · rintro (contained | here)
      · exact contained
      · exact absurd (List.mem_of_getElem? here) absent
  · exact sound.inputs
  · intro other present' entry inValues
    cases Option.some.inj (present.symm.trans present')
    rw [values_insert_nextIndex, List.mem_append, List.mem_singleton] at inValues
    rcases inValues with earlier | same
    · exact sound.nonces unsigned present entry earlier
    · exact same ▸ count
  · intro other present' index shares found
    exact (sound.posted other present' index shares found).insert dense _

/-- Posting leaves the session open unless every entry of it has its shares. -/
theorem postShares_logSound {node : NodeId} {txid : Txid} {shares : List (SignatureShare curve)}
    {freshNonces : List (PublicNonce curve)} {unsigned : MintTx curve} {latest : Nat}
    {msgs : List Hash} (sound : LogSound mint ledger)
    (checked : SharesChecked mint ledger node txid shares freshNonces unsigned latest msgs)
    (left : (sessionResponses mint (ledger.signatureShares.insert latest shares) latest).length ≠
      threshold mint) :
    LogSound mint (postShares ledger latest node shares freshNonces) := by
  have dense := sound.dense
  have isLatest := (latestEntry_isLatest dense).mp checked.entered
  have complete := (sessionChunk_complete mint dense latest).mp checked.complete
  have positive := threshold_pos mint
  have table : ∀ index, (ledger.signatureShares.insert latest shares).contains index = true ↔
      Superseded (owners ledger.nonceLog ++ [node]) index := by
    intro index
    rw [SortedMap.contains_insert, superseded_append, ← sound.superseded]
    constructor
    · rintro (same | contained)
      · exact Or.inr (same ▸ isLatest.1)
      · exact Or.inl contained
    · rintro (contained | here)
      · exact Or.inr contained
      · by_cases same : latest = index
        · exact Or.inl same
        · right
          rw [sound.superseded]
          have before : index < latest := by
            by_contra notBefore
            exact isLatest.2 index (by omega) here
          exact ⟨latest, node, before, here, isLatest.1⟩
  constructor
  · intro idle
    cases checked.present.symm.trans idle
  · exact dense_insert_nextIndex dense _
  · intro other entered
    change other ∈ owners (ledger.nonceLog.insert _ _) at entered
    rw [owners_insert, List.mem_append, List.mem_singleton] at entered
    rcases entered with earlier | same
    · exact sound.members other earlier
    · rw [same]
      exact sound.members node (List.mem_of_getElem? isLatest.1)
  · change Spread _ (owners (ledger.nonceLog.insert _ _))
    rw [owners_insert]
    apply sound.spread.append
    intro index here
    have before : index ≤ latest := by
      by_contra notBefore
      exact isLatest.2 index (by omega) here
    have chunks := Nat.div_le_div_right (c := threshold mint) before
    have beyond : latest / threshold mint + 1 ≤
        (owners ledger.nonceLog).length / threshold mint :=
      (Nat.le_div_iff_mul_le positive).mpr complete
    omega
  · change Unfinished _ (owners (ledger.nonceLog.insert _ _))
    rw [owners_insert]
    apply sound.unfinished.respond positive isLatest
    by_contra allPosted
    apply left
    have width : (latest / threshold mint + 1) * threshold mint -
        latest / threshold mint * threshold mint = threshold mint := by
      rw [Nat.add_mul, Nat.one_mul, Nat.add_sub_cancel_left]
    unfold sessionResponses
    rw [List.length_map]
    conv_rhs => rw [← width]
    rw [SortedMap.range_full_iff]
    intro index start stop
    rw [table]
    by_contra unposted
    apply allPosted
    refine ⟨index, ?_, unposted⟩
    rw [Nat.add_mul, Nat.one_mul] at stop
    rw [Nat.div_eq_iff positive]
    omega
  · intro index
    change (ledger.signatureShares.insert latest shares).contains index = true ↔
      Superseded (owners (ledger.nonceLog.insert _ _)) index
    rw [owners_insert]
    exact table index
  · exact sound.inputs
  · intro other present entry inValues
    cases Option.some.inj (checked.present.symm.trans present)
    change entry ∈ (ledger.nonceLog.insert _ _).values at inValues
    rw [values_insert_nextIndex, List.mem_append, List.mem_singleton] at inValues
    rcases inValues with earlier | same
    · exact sound.nonces unsigned checked.present entry earlier
    · exact same ▸ checked.nonceCount
  · intro other present index row found
    cases Option.some.inj (checked.present.symm.trans present)
    change (ledger.signatureShares.insert latest shares).get? index = some row at found
    apply Posted.insert dense
    rw [SortedMap.get?_insert] at found
    split at found
    · rename_i same
      cases found
      have here := isLatest.1
      rw [owners_getElem? dense, Option.map_eq_some_iff] at here
      obtain ⟨entry, here, sameNode⟩ := here
      subst same sameNode
      exact ⟨checked.complete, checked.shareCount, entry, msgs, here, checked.messages,
        checked.verified⟩
    · exact sound.posted unsigned checked.present index row found

theorem processSignatureShares_logSound {node : NodeId} {txid : Txid}
    {shares : List (SignatureShare curve)} {freshNonces : List (PublicNonce curve)}
    (sound : LogSound mint ledger)
    (processed : processSignatureShares mint ledger node txid shares freshNonces = .ok after) :
    LogSound mint after := by
  obtain ⟨unsigned, latest, msgs, checked, ⟨left, result⟩ | ⟨_, signed, _, result⟩⟩ :=
    processSignatureShares_ok processed
  · subst result
    exact postShares_logSound sound checked left
  · subst result
    apply LogSound.of_empty rfl rfl
    intro other present
    cases present

theorem processInput_logSound {input : OnchainInput} {result : Nat × XOnlyPublicKey}
    (sound : LogSound mint ledger)
    (processed : processInput mint ledger input = .ok (result, after)) : LogSound mint after := by
  obtain ⟨tracked, outputValue, _, _, _, ⟨_, final⟩ | ⟨wallet, script, created, _, built, final⟩⟩ :=
    processInput_ok processed
  · subst final
    exact sound.frame rfl rfl rfl
  · exact sound.begin built.idle built.unsigned (by rw [final]) (by rw [final]) rfl

theorem processOutput_logSound {output : OnchainOutput} {outpoint : OutPoint} {amount : Nat}
    (sound : LogSound mint ledger)
    (processed : processOutput mint ledger output outpoint = .ok (amount, after)) :
    LogSound mint after := by
  obtain ⟨wallet, changeValue, script, created, _, _, built, final⟩ := processOutput_ok processed
  exact sound.begin built.idle built.unsigned (by rw [final]) (by rw [final]) rfl

end Onchain

/-! ### Runs -/

theorem processTxItem_logSound {tx : Transaction}
    (sound : Onchain.LogSound server.toMintConfig ledger)
    (processed : processTxItem server ledger tx = .ok after) :
    Onchain.LogSound server.toMintConfig after := by
  obtain ⟨_, judged, judgedOk, result⟩ := processTxItem_ok processed
  have kept : Onchain.LogSound server.toMintConfig judged := by
    apply processTx_preserves (motive := Onchain.LogSound server.toMintConfig) judgedOk _ _ sound
    · intro ledger after input result step sound
      rcases processInput_onchain step with same | ⟨onchain, _, step⟩
      · exact sound.frame same.unsignedTx same.nonceLog same.signatureShares
      · exact Onchain.processInput_logSound sound step
    · intro ledger after outpoint output amount step sound
      rcases processOutput_onchain step with same | ⟨onchain, _, step⟩
      · exact sound.frame same.unsignedTx same.nonceLog same.signatureShares
      · exact Onchain.processOutput_logSound sound step
  subst result
  exact kept.frame rfl rfl rfl

theorem processConsensusItem_logSound {node : NodeId} {item : ConsensusItem curve}
    (member : node < server.n.total) (sound : Onchain.LogSound server.toMintConfig ledger)
    (processed : processConsensusItem server ledger node item = .ok after) :
    Onchain.LogSound server.toMintConfig after := by
  cases item with
  | tx tx => exact processTxItem_logSound sound processed
  | blockHeight vote =>
      obtain ⟨height, result⟩ := processBlockHeight_ok processed
      subst result
      exact sound.frame rfl rfl rfl
  | version vote =>
      have result := processVersion_ok processed
      subst result
      exact sound.frame rfl rfl rfl
  | onchain item =>
      cases item with
      | block vote =>
          obtain ⟨_, _, result | result⟩ := Onchain.processBlock_ok processed
          · subst result
            exact sound.frame rfl rfl rfl
          · obtain ⟨output, unconfirmed, tracked⟩ := Onchain.trackTx_frame vote.txs
              ({ ledger with blockVote := ledger.blockVote.insert node vote },
                nextIndex ledger.output)
            rw [tracked] at result
            subst result
            exact sound.frame rfl rfl rfl
      | feerate vote =>
          have result := Onchain.processFeerate_ok processed
          subst result
          exact sound.frame rfl rfl rfl
      | nonces txid nonces =>
          exact Onchain.processNonces_logSound member sound (mapError_eq_ok.mp processed)
      | signatureShares txid shares nonces =>
          exact Onchain.processSignatureShares_logSound sound (mapError_eq_ok.mp processed)

theorem History.run_logSound {items : List (NodeId × ConsensusItem curve)}
    {history : History curve} (members : ∀ entry ∈ items, entry.1 ∈ server.n.nodeIds)
    (ran : History.run server History.start items = some history) :
    Onchain.LogSound server.toMintConfig history.ledger := by
  have sound : (∀ entry ∈ items, entry.1 ∈ server.n.nodeIds) →
      Onchain.LogSound server.toMintConfig history.ledger := by
    apply History.run_induction
      (motive := fun items history => (∀ entry ∈ items, entry.1 ∈ server.n.nodeIds) →
        Onchain.LogSound server.toMintConfig history.ledger) ran
    · intro _
      apply Onchain.LogSound.of_empty rfl rfl
      intro unsigned present
      cases present
    · intro items history next entry _ stepped inductionHypothesis members
      have before := inductionHypothesis
        (fun other member => members other (List.mem_append_left _ member))
      have member := members entry (List.mem_append_right _ List.mem_cons_self)
      rcases History.step_cases stepped with same | ⟨tx, _, accepted, _⟩ | ⟨accepted, _, _⟩
      · exact same ▸ before
      · exact processTxItem_logSound before accepted
      · exact processConsensusItem_logSound ((server.n.mem_nodeIds _).mp member) before accepted
  exact sound members

end Picomint.Consensus
