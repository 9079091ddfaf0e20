/-
The size of a session outcome on the wire.

An outcome reaches a node that fell behind as one message.  Its items stop at
the byte target but for the last one, and every item has a bounded size except
a block vote, whose transactions nothing counts.
-/

import Picomint.Consensus.SessionReplication
import Picomint.Consensus.SigningLog
import Picomint.Consensus.Solvency

namespace Picomint.Consensus

open Tss

variable {curve : Curve}

def MAX_P2P_MESSAGE_SIZE : Nat := 10000000

/-! ### Encoded lengths -/

/-- A `Vec`: a `u32` and the items. -/
def vecLength {α : Type} (length : α → Nat) (items : List α) : Nat := 4 + (items.map length).sum

def outPointLength : Nat := 32 + 2

/-- Denomination, nonce and signature. -/
def noteLength : Nat := 1 + 32 + 48

def inputLength : Input → Nat
  | .ecash _ => 1 + noteLength
  | .onchain _ => 1 + (8 + 32 + 8)
  | .lightning (.outgoing _ (.claim _)) => 1 + (1 + outPointLength + (1 + 32))
  | .lightning (.outgoing _ (.cancel _)) => 1 + (1 + outPointLength + (1 + 64))
  | .lightning (.incoming _) => 1 + (1 + outPointLength)

def standardScriptLength : StandardScript → Nat
  | .p2pkh _ => 1 + 20
  | .p2sh _ => 1 + 20
  | .p2wpkh _ => 1 + 20
  | .p2wsh _ => 1 + 32
  | .p2tr _ => 1 + 32

def outputLength : Output → Nat
  | .ecash _ => 1 + (1 + 48)
  | .onchain output => 1 + (standardScriptLength output.destination + 8 + 8)
  | .lightning (.outgoing _) => 1 + (1 + (32 + 8 + 8 + 32 + 32 + 32))
  | .lightning (.incoming _) => 1 + (1 + (8 + 8 + 32 + 33))

def transactionLength (tx : Transaction) : Nat :=
  vecLength inputLength tx.inputs + vecLength outputLength tx.outputs +
    vecLength (fun _ => 64) tx.signatures

section Lengths

variable (scriptLength : Script → Nat)

def blockTxLength (tx : BlockTx) : Nat :=
  32 + vecLength (fun output => 4 + (8 + (4 + scriptLength output.2.scriptPubkey))) tx.outputs

def blockVoteLength (vote : BlockVote) : Nat := 4 + vecLength (blockTxLength scriptLength) vote.txs

def onchainItemLength : OnchainConsensusItem curve → Nat
  | .block vote => 1 + blockVoteLength scriptLength vote
  | .feerate none => 1 + 1
  | .feerate (some _) => 1 + (1 + 4)
  | .nonces _ nonces => 1 + (32 + vecLength (fun _ => 33 + 33) nonces)
  | .signatureShares _ shares nonces =>
      1 + (32 + vecLength (fun _ => 32) shares + vecLength (fun _ => 33 + 33) nonces)

def consensusItemLength : ConsensusItem curve → Nat
  | .tx tx => 1 + transactionLength tx
  | .onchain item => 1 + (1 + onchainItemLength scriptLength item)
  | .blockHeight _ => 1 + 4
  | .version _ => 1 + (1 + 1)

def acceptedItemLength (item : AcceptedItem curve) : Nat :=
  1 + consensusItemLength scriptLength item.item

/-- The message with everything but its items. -/
def outcomeOverhead (signatures : Nat) : Nat := 1 + (4 + (4 + signatures * (1 + 64)))

/-- `P2PMessage::SessionOutcome`. -/
def outcomeMessageLength (outcome : SessionOutcome curve) : Nat :=
  outcomeOverhead outcome.signatures.size +
    (outcome.items.map (acceptedItemLength scriptLength)).sum

/-- `P2PMessage::Bft` of a unit with its payload, after the first round. -/
def unitMessageLength (parents : Nat) (data : List (ConsensusItem curve)) : Nat :=
  1 + (1 + ((4 + 1 + (4 + parents * (1 + 32)) + (1 + 32)) +
    vecLength (consensusItemLength scriptLength) data + 64))

end Lengths

/-! ### Items of a bounded size -/

theorem sum_map_le {α : Type} {length : α → Nat} {bound : Nat} {items : List α}
    (each : ∀ item ∈ items, length item ≤ bound) :
    (items.map length).sum ≤ items.length * bound := by
  have below := List.sum_le_card_nsmul (items.map length) bound
    (List.forall_mem_map.mpr each)
  rw [List.length_map] at below
  exact below

theorem inputLength_le (input : Input) : inputLength input ≤ 101 := by
  cases input with
  | ecash input => simp [inputLength, noteLength]
  | onchain input => simp [inputLength]
  | lightning input =>
      cases input with
      | outgoing outpoint witness => cases witness <;> simp [inputLength, outPointLength]
      | incoming outpoint => simp [inputLength, outPointLength]

theorem outputLength_le (output : Output) : outputLength output ≤ 146 := by
  cases output with
  | ecash output => simp [outputLength]
  | onchain output =>
      obtain ⟨destination, value, fee⟩ := output
      cases destination <;> simp [outputLength, standardScriptLength]
  | lightning output => cases output <;> simp [outputLength]

theorem transactionLength_le {tx : Transaction} (inputs : tx.inputs.length ≤ MAX_INPUTS)
    (outputs : tx.outputs.length ≤ MAX_OUTPUTS)
    (signatures : tx.signatures.length = tx.inputs.length) :
    transactionLength tx ≤ 318476 := by
  have fromInputs := sum_map_le fun input (_ : input ∈ tx.inputs) => inputLength_le input
  have fromOutputs := sum_map_le fun output (_ : output ∈ tx.outputs) => outputLength_le output
  have fromSignatures : (tx.signatures.map fun _ => 64).sum ≤ tx.signatures.length * 64 :=
    sum_map_le fun _ _ => Nat.le_refl 64
  unfold transactionLength vecLength
  unfold MAX_INPUTS at inputs
  unfold MAX_OUTPUTS at outputs
  omega

/-! ### The transaction being signed -/

/-- It spends the wallet and at most one deposit. -/
def FewInputs (ledger : Ledger curve) : Prop :=
  ∀ unsigned, ledger.unsignedTx = some unsigned → unsigned.spentTxOuts.length ≤ 2

section FewInputs

variable {server : Server curve} {mint : MintConfig curve} {ledger after : Ledger curve}

theorem FewInputs.frame (few : FewInputs ledger) (same : after.unsignedTx = ledger.unsignedTx) :
    FewInputs after := by
  unfold FewInputs
  rwa [same]

theorem FewInputs.of_some {mintTx : MintTx curve} (unsigned : after.unsignedTx = some mintTx)
    (spent : mintTx.spentTxOuts.length ≤ 2) : FewInputs after := by
  intro other present
  cases unsigned.symm.trans present
  exact spent

theorem processInput_fewInputs {input : Input} {result : Nat × XOnlyPublicKey}
    (processed : processInput mint ledger input = .ok (result, after)) (few : FewInputs ledger) :
    FewInputs after := by
  rcases processInput_onchain processed with same | ⟨onchain, _, step⟩
  · exact few.frame same.unsignedTx
  · obtain ⟨_, _, _, _, _, ⟨_, final⟩ | ⟨_, _, _, _, built, _⟩⟩ := Onchain.processInput_ok step
    · subst final
      exact few.frame rfl
    · exact FewInputs.of_some built.unsigned (Nat.le_refl 2)

theorem processOutput_fewInputs {outpoint : OutPoint} {output : Output} {amount : Nat}
    (processed : processOutput server ledger outpoint output = .ok (amount, after))
    (few : FewInputs ledger) : FewInputs after := by
  rcases processOutput_onchain processed with same | ⟨onchain, _, step⟩
  · exact few.frame same.unsignedTx
  · obtain ⟨_, _, _, _, _, _, built, _⟩ := Onchain.processOutput_ok step
    exact FewInputs.of_some built.unsigned (Nat.le_succ 1)

theorem processConsensusItem_fewInputs {node : NodeId} {item : ConsensusItem curve}
    (processed : processConsensusItem server ledger node item = .ok after)
    (few : FewInputs ledger) : FewInputs after := by
  cases item with
  | tx tx =>
      obtain ⟨_, judged, judgedOk, result⟩ := processTxItem_ok processed
      have kept : FewInputs judged :=
        processTx_preserves judgedOk (fun _ _ _ _ => processInput_fewInputs)
          (fun _ _ _ _ _ => processOutput_fewInputs) few
      subst result
      exact kept.frame rfl
  | blockHeight vote =>
      obtain ⟨height, result⟩ := processBlockHeight_ok processed
      subst result
      exact few.frame rfl
  | version vote =>
      have result := processVersion_ok processed
      subst result
      exact few.frame rfl
  | onchain item =>
      cases item with
      | block vote =>
          obtain ⟨_, _, result | result⟩ := Onchain.processBlock_ok processed
          · subst result
            exact few.frame rfl
          · obtain ⟨output, unconfirmed, tracked⟩ := Onchain.trackTx_frame vote.txs
              ({ ledger with blockVote := ledger.blockVote.insert node vote },
                nextIndex ledger.output)
            rw [tracked] at result
            subst result
            exact few.frame rfl
      | feerate vote =>
          have result := Onchain.processFeerate_ok processed
          subst result
          exact few.frame rfl
      | nonces txid nonces =>
          obtain ⟨_, _, _, _, _, result⟩ :=
            Onchain.processNonces_ok (mapError_eq_ok.mp processed)
          subst result
          exact few.frame rfl
      | signatureShares txid shares nonces =>
          obtain ⟨_, _, _, _, ⟨_, result⟩ | ⟨_, _, _, result⟩⟩ :=
            Onchain.processSignatureShares_ok (mapError_eq_ok.mp processed)
          · subst result
            exact few.frame rfl
          · subst result
            intro unsigned present
            cases present

theorem replay_fewInputs {log : List (AcceptedItem curve)}
    (replayed : replay server log = some ledger) : FewInputs ledger := by
  induction log using List.reverseRecOn generalizing ledger with
  | nil =>
      cases replayed
      intro unsigned present
      cases present
  | append_singleton log item ih =>
      rw [replay_concat, Option.bind_eq_some_iff] at replayed
      obtain ⟨before, first, accepted⟩ := replayed
      exact processConsensusItem_fewInputs (toOption_eq_some.mp accepted) (ih first)

end FewInputs

/-! ### Accepted items -/

section Accepted

variable {server : Server curve} {scriptLength : Script → Nat}

theorem acceptedItemLength_le {log : List (AcceptedItem curve)} {item : AcceptedItem curve}
    (accepted : acceptsAfter server log item = true)
    (notBlock : ∀ vote, item.item ≠ .onchain (.block vote)) :
    acceptedItemLength scriptLength item ≤ 318478 := by
  obtain ⟨node, item⟩ := item
  unfold acceptsAfter at accepted
  split at accepted
  · cases accepted
  · rename_i ledger replayed
    have few := replay_fewInputs replayed
    cases processed : processConsensusItem server ledger node item with
    | error fault =>
        rw [processed] at accepted
        cases accepted
    | ok after =>
        unfold acceptedItemLength
        cases item with
        | tx tx =>
            obtain ⟨_, judged, judgedOk, _⟩ := processTxItem_ok processed
            obtain ⟨_, _, _, accepted⟩ := processTx_ok judgedOk
            obtain ⟨_, _, inputs, outputs, signatures⟩ := checkCounts_ok accepted.counts
            have bound := transactionLength_le inputs outputs signatures
            simp only [consensusItemLength]
            omega
        | blockHeight vote => simp [consensusItemLength]
        | version vote => simp [consensusItemLength]
        | onchain item =>
            cases item with
            | block vote => exact absurd rfl (notBlock vote)
            | feerate vote => cases vote <;> simp [consensusItemLength, onchainItemLength]
            | nonces txid nonces =>
                obtain ⟨unsigned, present, _, count, _⟩ :=
                  Onchain.processNonces_ok (mapError_eq_ok.mp processed)
                have spent := few unsigned present
                simp only [consensusItemLength, onchainItemLength, vecLength, List.map_const',
                  List.sum_replicate, smul_eq_mul]
                omega
            | signatureShares txid shares nonces =>
                obtain ⟨unsigned, _, _, checked, _⟩ :=
                  Onchain.processSignatureShares_ok (mapError_eq_ok.mp processed)
                have spent := few unsigned checked.present
                have shareCount := checked.shareCount
                have nonceCount := checked.nonceCount
                simp only [consensusItemLength, onchainItemLength, vecLength, List.map_const',
                  List.sum_replicate, smul_eq_mul]
                omega

end Accepted

/-! ### Outcomes -/

section Outcomes

variable {setup : SessionSetup curve} {scriptLength : Script → Nat}

theorem IsOutcome.sum_dropLast (bytes : setup.codec.itemLength = acceptedItemLength scriptLength)
    {session : Nat} {items : List (AcceptedItem curve)}
    (isOutcome : IsOutcome setup session items) :
    (items.dropLast.map (acceptedItemLength scriptLength)).sum < SESSION_OUTCOME_BYTE_TARGET := by
  obtain ⟨base, cut, _, isCut, rfl⟩ := isOutcome
  rw [← bytes]
  exact isCut.weigh_dropLast (show 0 < SESSION_OUTCOME_BYTE_TARGET by decide)

theorem IsOutcome.accepted {session : Nat} {before rest : List (AcceptedItem curve)}
    {item : AcceptedItem curve} (isOutcome : IsOutcome setup session (before ++ item :: rest)) :
    ∃ log, acceptsAfter (setup.server 0) log item = true := by
  obtain ⟨base, cut, _, _, split⟩ := isOutcome
  exact ⟨_, CutStream.Rule.walk_accepts split.symm⟩

/-- The outcome of a closed session fits into a message exactly if each of its
block votes fits into what the items before it leave of the message. -/
theorem outcome_fits_iff (sound : setup.Sound) {sessions : Sessions curve}
    (reached : Sessions.Reachable setup sessions)
    (bytes : setup.codec.itemLength = acceptedItemLength scriptLength)
    (identities : setup.nodes.total ≤ 256) {node : NodeId} (honest : setup.Honest node)
    {session : Nat} (closed : session < (sessions.node node).db.finishedSessionCount)
    {outcome : SessionOutcome curve}
    (rows : HasRows (sessions.node node).db session outcome.items)
    (signed : outcome.signatures.size = setup.nodes.threshold) :
    outcomeMessageLength scriptLength outcome ≤ MAX_P2P_MESSAGE_SIZE ↔
      ∀ before item rest vote, outcome.items = before ++ item :: rest →
        item.item = .onchain (.block vote) →
        outcomeOverhead setup.nodes.threshold +
          (before.map (acceptedItemLength scriptLength)).sum +
          acceptedItemLength scriptLength item ≤ MAX_P2P_MESSAGE_SIZE := by
  obtain ⟨_, holds, _⟩ := (replicated_of_reachable sound reached).node node honest
  obtain ⟨items, isOutcome, isRows⟩ := holds.closed session closed
  have same : outcome.items = items := rows.acceptedItems.symm.trans isRows.acceptedItems
  unfold outcomeMessageLength
  rw [signed, same]
  constructor
  · rintro fits before item rest vote rfl _
    rw [List.map_append, List.sum_append, List.map_cons, List.sum_cons] at fits
    omega
  · intro blocksFit
    have overhead : outcomeOverhead setup.nodes.threshold ≤ 20000 := by
      unfold outcomeOverhead NumNodes.threshold
      unfold NumNodes.total at identities
      omega
    rcases List.eq_nil_or_concat items with rfl | ⟨front, last, rfl⟩
    · unfold MAX_P2P_MESSAGE_SIZE
      rw [List.map_nil, List.sum_nil]
      omega
    · rw [List.concat_eq_append] at isOutcome blocksFit ⊢
      rw [List.map_append, List.sum_append, List.map_singleton, List.sum_singleton]
      by_cases isBlock : ∃ vote, last.item = .onchain (.block vote)
      · obtain ⟨vote, isVote⟩ := isBlock
        have fits := blocksFit front last [] vote rfl isVote
        omega
      · -- only the last item crosses the target, and it is bounded
        have below := isOutcome.sum_dropLast bytes
        rw [List.dropLast_concat] at below
        obtain ⟨log, accepted⟩ := isOutcome.accepted
        have bounded : acceptedItemLength scriptLength last ≤ 318478 :=
          acceptedItemLength_le accepted fun vote isVote => isBlock ⟨vote, isVote⟩
        unfold SESSION_OUTCOME_BYTE_TARGET at below
        unfold MAX_P2P_MESSAGE_SIZE
        omega

end Outcomes

/-! Three nodes vote for a height, and the Byzantine one for a block with an
output whose script leaves no room. -/

def paddedVote : BlockVote :=
  { height := 1
    txs := [{ txid := 0, outputs := [(0, { value := 0, scriptPubkey := 9999722 })] }] }

def paddedItems : List (AcceptedItem scalarCurve) :=
  [{ node := 0, item := .blockHeight 1 }, { node := 1, item := .blockHeight 1 },
    { node := 2, item := .blockHeight 1 }, { node := 2, item := .onchain (.block paddedVote) }]

/-- A header counts the items it has, as long as they are these. -/
def paddedCodec : SessionCodec scalarCurve :=
  { indexHash := fun _ => 0
    foldHash := fun header item => if paddedItems[header]? = some item then header + 1 else 5
    itemLength := acceptedItemLength id }

def paddedOrder : Nat → CutStream.Stream (AcceptedItem scalarCurve)
  | 0, position => paddedItems[position]?.map fun item => (1, item)
  | _, _ => none

def paddedSessions : SessionSetup scalarCurve :=
  { nodes := ⟨1⟩
    codec := paddedCodec
    server := fun _ => sampleServer
    verify := fun _ _ _ node => node < 4
    order := paddedOrder
    byzantine := {2} }

theorem paddedSessions_walk : paddedSessions.rule.walk (paddedOrder 0) [] 4 = paddedItems := by
  decide +kernel

theorem paddedSessions_cutAt : paddedSessions.rule.CutAt (paddedOrder 0) [] 4 := by
  refine ⟨Or.inl (by decide +kernel), ?_⟩
  intro earlier before
  have light : ∀ earlier < 4,
      paddedSessions.rule.weigh (paddedSessions.rule.walk (paddedOrder 0) [] earlier) <
        SESSION_OUTCOME_BYTE_TARGET := by decide +kernel
  rintro (heavy | ⟨round, item, delivered, late⟩)
  · exact absurd heavy (Nat.not_le.mpr (light earlier before))
  · obtain ⟨_, _, isDelivery⟩ := Option.map_eq_some_iff.mp delivered
    cases isDelivery
    exact absurd late (by decide)

theorem paddedSessions_outcome {session : Nat} {items : List (AcceptedItem scalarCurve)}
    (isOutcome : IsOutcome paddedSessions session items) : session = 0 ∧ items = paddedItems := by
  obtain ⟨base, cut, chain, isCut, rfl⟩ := isOutcome
  cases session with
  | zero =>
      cases chain
      rw [isCut.unique paddedSessions_cutAt]
      exact ⟨rfl, paddedSessions_walk⟩
  | succ session =>
      have empty : ∀ position,
          paddedSessions.rule.walk (paddedOrder (session + 1)) base position = [] := by
        intro position
        induction position with
        | zero => rfl
        | succ position ih => exact ih
      rcases isCut.stops with heavy | ⟨round, item, delivered, _⟩
      · change _ ≤ paddedSessions.rule.weigh
          (paddedSessions.rule.walk (paddedOrder (session + 1)) base cut) at heavy
        rw [empty] at heavy
        exact absurd heavy (by decide)
      · cases delivered

theorem paddedCodec_header {session count : Nat} {items : List (AcceptedItem scalarCurve)}
    (few : count ≤ 4) (isHeader : sessionHeader paddedCodec session items = count) :
    items = paddedItems.take count := by
  induction items using List.reverseRecOn generalizing count with
  | nil =>
      cases isHeader
      rfl
  | append_singleton front last ih =>
      unfold sessionHeader at isHeader
      rw [List.foldl_append] at isHeader
      change (if paddedItems[sessionHeader paddedCodec session front]? = some last then
        sessionHeader paddedCodec session front + 1 else 5) = count at isHeader
      split at isHeader
      · rename_i isNext
        subst isHeader
        rw [List.take_add_one, isNext, ← ih (by omega) rfl]
        rfl
      · subst isHeader
        exact absurd few (by decide)

theorem paddedSessions_sound : paddedSessions.Sound where
  bound := by decide
  sameMint := fun _ => rfl
  collisionFree := by
    intro session items other isOutcome same
    obtain ⟨rfl, rfl⟩ := paddedSessions_outcome isOutcome
    exact paddedCodec_header (Nat.le_refl 4) (same.trans (by decide))
  known := by
    intro session header signature node verifies
    exact of_decide_eq_true verifies

/-- The database of a node that has ordered the first items. -/
def paddedDb (count : Nat) : NodeDb scalarCurve :=
  { ledger := (replay sampleServer (paddedItems.take count)).getD Ledger.empty
    acceptedItem := (paddedItems.take count).zipIdx.foldl
      (fun table entry => table.insert (toLex (0, entry.2)) entry.1) SortedMap.empty
    resumeIndex := if count = 0 then none else some count
    sessionSignatures := SortedMap.empty }

def paddedState (count : Nat) : SessionState :=
  (paddedItems.take count).foldl (SessionState.fold paddedCodec) (SessionState.new paddedCodec 0)

theorem paddedSessions_order {count : Nat} (more : count < 4) :
    orderItem paddedCodec sampleServer 0 0 (paddedDb count) (paddedState count) count
      (paddedOrder 0 count) =
        .ok (.next (paddedDb (count + 1)) (paddedState (count + 1)) (count + 1)) := by
  interval_cases count <;> rfl

theorem paddedSessions_honest : paddedSessions.Honest 0 := ⟨by decide, by decide⟩

theorem paddedSessions_ordering {count : Nat} (few : count ≤ 4) :
    ∃ sessions : Sessions scalarCurve, Sessions.Reachable paddedSessions sessions ∧
      sessions.node 0 = ⟨paddedDb count, .ordering 0 (paddedState count) count⟩ := by
  induction count with
  | zero => exact ⟨_, .step .start (.start paddedSessions_honest rfl), Sessions.set_self ..⟩
  | succ count ih =>
      obtain ⟨sessions, reached, ordering⟩ := ih (Nat.le_of_succ_le few)
      exact ⟨_, reached.step (.order paddedSessions_honest ordering (paddedSessions_order few)),
        Sessions.set_self ..⟩

def paddedClosed : NodeDb scalarCurve :=
  { paddedDb 4 with
    resumeIndex := none
    sessionSignatures := SortedMap.empty.insert 0 sampleSignatures }

theorem paddedSessions_closed : ∃ sessions : Sessions scalarCurve,
    Sessions.Reachable paddedSessions sessions ∧
      0 < (sessions.node 0).db.finishedSessionCount ∧
      HasRows (sessions.node 0).db 0 paddedItems := by
  obtain ⟨sessions, reached, ordering⟩ := paddedSessions_ordering (Nat.le_refl 4)
  let header := (paddedState 4).header
  let signed : Sessions scalarCurve :=
    { sessions.set 0 ⟨paddedDb 4, .signing header⟩ with
      signed := (0, 0, header) :: sessions.signed }
  have signing : Sessions.Reachable paddedSessions signed :=
    reached.step (.cut paddedSessions_honest ordering rfl)
  have phase : signed.node 0 = ⟨paddedDb 4, .signing header⟩ :=
    Sessions.set_self sessions 0 ⟨paddedDb 4, .signing header⟩
  have finalized : finalizeSession (paddedSessions.server 0) (paddedDb 4)
      (paddedDb 4).finishedSessionCount (.signed sampleSignatures) = .ok paddedClosed := rfl
  have closed : Sessions.Reachable paddedSessions (signed.set 0 ⟨paddedClosed, .down⟩) := by
    refine signing.step (.close paddedSessions_honest phase (by decide) ?_ finalized)
    intro other signature found _
    have member := (sampleSignatures.mem_keys other).mpr ⟨signature, found⟩
    exact (show ∀ other ∈ sampleSignatures.keys, decide (other < 4) = true by decide) other member
  refine ⟨_, closed, ?_, ?_⟩
  · rw [Sessions.set_self]
    decide
  · rw [Sessions.set_self]
    intro index
    match index with
    | 0 | 1 | 2 | 3 => rfl
    | index + 4 => rfl

theorem outcome_over_limit : paddedSessions.Sound ∧
    paddedSessions.codec.itemLength = acceptedItemLength id ∧
    (∀ item ∈ paddedItems, unitMessageLength id 3 [item.item] ≤ MAX_P2P_MESSAGE_SIZE) ∧
    sampleSignatures.size = paddedSessions.nodes.threshold ∧
    (∃ sessions : Sessions scalarCurve, Sessions.Reachable paddedSessions sessions ∧
      0 < (sessions.node 0).db.finishedSessionCount ∧
      HasRows (sessions.node 0).db 0 paddedItems) ∧
    MAX_P2P_MESSAGE_SIZE < outcomeMessageLength id ⟨paddedItems, sampleSignatures⟩ :=
  ⟨paddedSessions_sound, rfl, by decide +kernel, by decide, paddedSessions_closed,
    by decide +kernel⟩

theorem outcome_fits_iff_sample :
    ¬∀ before item rest vote, paddedItems = before ++ item :: rest →
      item.item = .onchain (.block vote) →
      outcomeOverhead 3 + (before.map (acceptedItemLength id)).sum + acceptedItemLength id item ≤
        MAX_P2P_MESSAGE_SIZE := by
  obtain ⟨sessions, reached, closed, rows⟩ := paddedSessions_closed
  have fits : outcomeMessageLength id ⟨paddedItems, sampleSignatures⟩ ≤ MAX_P2P_MESSAGE_SIZE ↔ _ :=
    outcome_fits_iff paddedSessions_sound reached rfl (by decide) paddedSessions_honest closed rows
      (by decide)
  exact fun blocksFit => absurd (fits.mpr blocksFit) (by decide +kernel)

end Picomint.Consensus
