/-
Signing nonces are used once.

A node derives its secret nonces again whenever it proposes its shares, also
after a restart.  What it signs with one nonce is fixed by the generation: the
chunk of its entry does not change while the transaction is unsigned, and no
transaction becomes unsigned twice.
-/

import Picomint.Consensus.SigningProgress
import Picomint.Consensus.WalletChain

namespace Picomint.Consensus

open Tss ChunkLog

variable {curve : Curve} {server : Server curve}

/-! ### Runs with crashes -/

/-- An item is processed and committed, or its write transaction is lost in a
crash before the commit. -/
inductive Event (curve : Curve) where
  | committed (entry : NodeId × ConsensusItem curve)
  | interrupted (entry : NodeId × ConsensusItem curve)

namespace Event

def entry? : Event curve → Option (NodeId × ConsensusItem curve)
  | .committed entry => some entry
  | .interrupted _ => none

/-- A restarted node continues from what it had committed. -/
def step (server : Server curve) (history : History curve) : Event curve → Option (History curve)
  | .committed entry => History.step server history entry
  | .interrupted _ => some history

def run (server : Server curve) (history : History curve) (events : List (Event curve)) :
    Option (History curve) :=
  events.foldlM (step server) history

/-- The committed states are those of the run without the crashes. -/
theorem run_eq (events : List (Event curve)) (history : History curve) :
    run server history events = History.run server history (events.filterMap entry?) := by
  induction events generalizing history with
  | nil => rfl
  | cons event rest inductionHypothesis =>
      cases event with
      | committed entry =>
          change (History.step server history entry).bind (fun next => run server next rest) =
            (History.step server history entry).bind
              (fun next => History.run server next (rest.filterMap entry?))
          congr 1
          funext next
          exact inductionHypothesis next
      | interrupted entry => exact inductionHypothesis history

end Event

/-! ### While a transaction is unsigned -/

section Unsigned

variable {ledger after : Ledger curve}

theorem processTxItem_pending {tx : Transaction}
    (processed : processTxItem server ledger tx = .ok after) {mintTx : MintTx curve}
    (pending : ledger.unsignedTx = some mintTx) : after.unsignedTx = some mintTx := by
  apply @processTxItem_wallet _ _ _ _ (fun next _ => next.unsignedTx = some mintTx) _ [] processed
  · exact fun before next _ _ _ same pending => same.trans pending
  · intro before next _ walletStep _ pending
    cases walletStep with
    | kept _ _ same _ => exact same.trans pending
    | adopted _ _ _ _ _ same _ => exact same.trans pending
    | extended wallet deposit other changeValue extension =>
        cases extension.idle.symm.trans pending
  · exact pending

/-- The log of the transaction only grows. -/
def Grown (mintTx : MintTx curve) (ledger after : Ledger curve) : Prop :=
  after.unsignedTx = some mintTx ∧ ledger.nonceLog.values <+: after.nonceLog.values

theorem step_grown {history next : History curve} {entry : NodeId × ConsensusItem curve}
    {mintTx : MintTx curve} (stepped : History.step server history entry = some next)
    (pending : history.ledger.unsignedTx = some mintTx) :
    Grown mintTx history.ledger next.ledger ∨ next.ledger.unsignedTx = none := by
  rcases History.step_cases stepped with same | ⟨tx, _, accepted, _⟩ | ⟨accepted, notTx, _⟩
  · rw [same]
    exact Or.inl ⟨pending, List.prefix_refl _⟩
  · left
    refine ⟨processTxItem_pending accepted pending, ?_⟩
    rw [(processTxItem_sameLog accepted).nonceLog]
  · rcases (processConsensusItem_wallet accepted notTx).1.unsignedTx with kept | cleared
    · left
      refine ⟨kept.trans pending, ?_⟩
      rcases processConsensusItem_log accepted with same | ⟨_, _, _, accepted⟩ |
        ⟨_, _, _, _, accepted⟩
      · rw [same.nonceLog]
      · obtain ⟨_, _, _, _, _, result⟩ := Onchain.processNonces_ok accepted
        rw [result, values_insert_nextIndex]
        exact List.prefix_append _ _
      · obtain ⟨_, _, _, _, ⟨_, result⟩ | ⟨_, _, _, result⟩⟩ :=
          Onchain.processSignatureShares_ok accepted
        · rw [result]
          change _ <+: (history.ledger.nonceLog.insert _ _).values
          rw [values_insert_nextIndex]
          exact List.prefix_append _ _
        · rw [result] at kept
          cases kept.trans pending
    · exact Or.inr cleared

/-- Without a new mint transaction an idle signing slot stays idle. -/
theorem run_idle {items : List (NodeId × ConsensusItem curve)} {history next : History curve}
    (ran : History.run server history items = some next)
    (unchanged : History.mintTxs server history items = [])
    (idle : history.ledger.unsignedTx = none) : next.ledger.unsignedTx = none := by
  induction items generalizing history with
  | nil =>
      cases ran
      exact idle
  | cons entry rest inductionHypothesis =>
      unfold History.run at ran
      rw [List.foldlM_cons, Option.bind_eq_bind, Option.bind_eq_some_iff] at ran
      obtain ⟨middle, stepped, following⟩ := ran
      rw [History.mintTxs, stepped] at unchanged
      obtain ⟨first, others⟩ := List.append_eq_nil_iff.mp unchanged
      unfold newMintTxs at first
      rw [idle] at first
      exact inductionHypothesis following others (Option.toList_eq_nil_iff.mp first)

theorem run_grown {items : List (NodeId × ConsensusItem curve)} {history next : History curve}
    {mintTx : MintTx curve} (ran : History.run server history items = some next)
    (unchanged : History.mintTxs server history items = [])
    (pending : history.ledger.unsignedTx = some mintTx) :
    Grown mintTx history.ledger next.ledger ∨ next.ledger.unsignedTx = none := by
  induction items generalizing history with
  | nil =>
      cases ran
      exact Or.inl ⟨pending, List.prefix_refl _⟩
  | cons entry rest inductionHypothesis =>
      unfold History.run at ran
      rw [List.foldlM_cons, Option.bind_eq_bind, Option.bind_eq_some_iff] at ran
      obtain ⟨middle, stepped, following⟩ := ran
      rw [History.mintTxs, stepped] at unchanged
      obtain ⟨_, others⟩ := List.append_eq_nil_iff.mp unchanged
      rcases step_grown stepped pending with ⟨still, grown⟩ | cleared
      · rcases inductionHypothesis following others still with ⟨kept, later⟩ | cleared
        · exact Or.inl ⟨kept, grown.trans later⟩
        · exact Or.inr cleared
      · exact Or.inr (run_idle following others cleared)

/-- Two states of a run in which the same transaction id is unsigned belong to
one signing of one transaction. -/
theorem run_same_txid {rank : Txid → Nat} (acyclic : Acyclic server.toMintConfig rank)
    {early late : List (NodeId × ConsensusItem curve)} {first second : History curve}
    {mintTx other : MintTx curve} (reached : History.run server History.start early = some first)
    (continued : History.run server first late = some second)
    (pending : first.ledger.unsignedTx = some mintTx)
    (pending' : second.ledger.unsignedTx = some other)
    (sameTxid : mintTx.txid server.toMintConfig = other.txid server.toMintConfig) :
    Grown mintTx first.ledger second.ledger := by
  have whole : History.run server History.start (early ++ late) = some second := by
    unfold History.run at reached continued ⊢
    rw [List.foldlM_append, reached]
    exact continued
  have linkedFirst := History.run_linked acyclic reached
  have linkedSecond := History.run_linked acyclic whole
  have lastFirst := linkedFirst.newest mintTx pending
  have lastSecond := linkedSecond.newest other pending'
  rw [History.mintTxs_append reached] at lastSecond
  have increasing := linkedSecond.increasing
  rw [History.mintTxs_append reached, List.map_append, List.pairwise_append] at increasing
  have unchanged : History.mintTxs server first late = [] := by
    cases added : History.mintTxs server first late with
    | nil => rfl
    | cons head tail =>
        rw [added, List.getLast?_append, List.getLast?_cons] at lastSecond
        have member : other ∈ History.mintTxs server first late := by
          rw [added]
          apply List.mem_of_getLast?
          rw [List.getLast?_cons]
          simpa using lastSecond
        have below := increasing.2.2 _ (List.mem_map_of_mem (List.mem_of_getLast? lastFirst)) _
          (List.mem_map_of_mem member)
        rw [sameTxid] at below
        exact absurd below (lt_irrefl _)
  rcases run_grown continued unchanged pending with grown | cleared
  · exact grown
  · cases cleared.symm.trans pending'

end Unsigned

/-! ### What a proposal signs -/

namespace Onchain

/-- The generation whose nonces the node's proposal signs with. -/
def signingGeneration (server : Server curve) (ledger : Ledger curve) : Nat :=
  entryCount ledger.nonceLog server.identity - 1

/-- The nonce entries the node's proposal signs for. -/
def signingChunk (server : Server curve) (ledger : Ledger curve) : List (NonceEntry curve) :=
  match latestEntry ledger.nonceLog server.identity with
  | none => []
  | some latest =>
      (ledger.nonceLog.values.drop
        (latest / threshold server.toMintConfig * threshold server.toMintConfig)).take
        (threshold server.toMintConfig)

/-- The messages the node's proposal signs. -/
def signingMessages (server : Server curve) (ledger : Ledger curve) :
    Outcome SigningError (List Hash) :=
  match ledger.unsignedTx with
  | none => .ok []
  | some unsigned => sighashes server.toMintConfig unsigned

theorem signingSessionProposal_shares {ledger : Ledger curve} {txid : Txid}
    {shares : List (SignatureShare curve)} {freshNonces : List (PublicNonce curve)}
    (proposed : (signingSessionProposal server ledger : Outcome SigningError _) =
      .ok (some (.signatureShares txid shares freshNonces))) :
    ∃ unsigned latest msgs, ledger.unsignedTx = some unsigned ∧
      unsigned.txid server.toMintConfig = txid ∧
      latestEntry ledger.nonceLog server.identity = some latest ∧
      threshold server.toMintConfig ≤ (signingChunk server ledger).length ∧
      signingMessages server ledger = .ok msgs ∧
      (signTx server unsigned msgs
        (deriveSecretNonces server txid (signingGeneration server ledger)
          unsigned.spentTxOuts.length) (signingChunk server ledger) :
        Outcome SigningError _) = .ok shares := by
  unfold signingSessionProposal at proposed
  cases present : ledger.unsignedTx with
  | none =>
      simp only [present] at proposed
      cases proposed
  | some unsigned =>
      simp only [present] at proposed
      cases entered : latestEntry ledger.nonceLog server.identity with
      | none =>
          simp only [entered] at proposed
          cases proposed
      | some latest =>
          simp only [entered] at proposed
          split at proposed
          · cases proposed
          · rename_i complete
            simp only [bind_eq_ok] at proposed
            obtain ⟨msgs, messages, signed, computed, result⟩ := proposed
            cases result
            have chunk : signingChunk server ledger = (ledger.nonceLog.values.drop
                (latest / threshold server.toMintConfig * threshold server.toMintConfig)).take
                (threshold server.toMintConfig) := by
              unfold signingChunk
              rw [entered]
            refine ⟨unsigned, latest, msgs, rfl, rfl, rfl, ?_, ?_, ?_⟩
            · rw [chunk]
              exact Nat.le_of_not_lt complete
            · unfold signingMessages
              rw [present]
              exact messages
            · rw [chunk]
              exact computed

/-- As long as the node does not enter again, its entry and a complete chunk
stay as they are. -/
theorem signingChunk_grown {ledger after : Ledger curve} (dense : ledger.nonceLog.Dense)
    (dense' : after.nonceLog.Dense)
    (grown : ledger.nonceLog.values <+: after.nonceLog.values) {latest : Nat}
    (entered : latestEntry ledger.nonceLog server.identity = some latest)
    (complete : threshold server.toMintConfig ≤ (signingChunk server ledger).length)
    (generation : signingGeneration server ledger = signingGeneration server after) :
    signingChunk server ledger = signingChunk server after := by
  obtain ⟨rest, split⟩ := grown
  have isLatest := latestEntry_latest dense entered
  have count : entryCount after.nonceLog server.identity =
      entryCount ledger.nonceLog server.identity +
        (rest.filter (fun entry => entry.node = server.identity)).length := by
    unfold entryCount
    rw [← split, List.filter_append, List.length_append]
  have positive : 0 < entryCount ledger.nonceLog server.identity := by
    have member := List.mem_of_getElem? isLatest.1
    obtain ⟨entry, inValues, same⟩ := List.mem_map.mp member
    exact List.length_pos_of_mem (List.mem_filter.mpr ⟨inValues, by simpa using same⟩)
  have absent : rest.filter (fun entry => entry.node = server.identity) = [] := by
    rw [← List.length_eq_zero_iff]
    unfold signingGeneration at generation
    omega
  have owned : owners after.nonceLog = owners ledger.nonceLog ++ rest.map NonceEntry.node := by
    unfold owners
    rw [← split, List.map_append]
  have stillLatest : IsLatest (owners after.nonceLog) server.identity latest := by
    have inside := (List.getElem?_eq_some_iff.mp isLatest.1).1
    constructor
    · rw [owned, List.getElem?_append_left inside]
      exact isLatest.1
    · intro later beyond here
      rw [owned] at here
      rcases Nat.lt_or_ge later (owners ledger.nonceLog).length with within | outside
      · rw [List.getElem?_append_left within] at here
        exact isLatest.2 later beyond here
      · rw [List.getElem?_append_right outside] at here
        obtain ⟨entry, inRest, same⟩ := List.mem_map.mp (List.mem_of_getElem? here)
        have kept : entry ∈ rest.filter (fun entry => entry.node = server.identity) :=
          List.mem_filter.mpr ⟨inRest, by simpa using same⟩
        rw [absent] at kept
        cases kept
  have entered' := (latestEntry_isLatest dense').mpr stillLatest
  unfold signingChunk at complete ⊢
  rw [entered] at complete ⊢
  rw [entered']
  simp only [List.length_take, List.length_drop] at complete
  have room := threshold_pos server.toMintConfig
  simp only
  rw [← split, List.drop_append_of_le_length (by omega),
    List.take_append_of_le_length (by rw [List.length_drop]; omega)]

end Onchain

/-! ### Uses of a nonce -/

theorem proposals_agree {rank : Txid → Nat} (acyclic : Acyclic server.toMintConfig rank)
    (injective : ∀ txid generation input txid' generation' input',
      Onchain.nonceSeed server txid generation input =
        Onchain.nonceSeed server txid' generation' input' →
      txid = txid' ∧ generation = generation' ∧ input = input')
    {early late : List (NodeId × ConsensusItem curve)} {first second : History curve}
    (members : ∀ entry ∈ early ++ late, entry.1 ∈ server.n.nodeIds)
    (reached : History.run server History.start early = some first)
    (continued : History.run server first late = some second) {txid txid' : Txid}
    {shares shares' : List (SignatureShare curve)} {fresh fresh' : List (PublicNonce curve)}
    (proposed : (Onchain.signingSessionProposal server first.ledger :
      Outcome Onchain.SigningError _) = .ok (some (.signatureShares txid shares fresh)))
    (proposed' : (Onchain.signingSessionProposal server second.ledger :
      Outcome Onchain.SigningError _) = .ok (some (.signatureShares txid' shares' fresh')))
    {input input' : Nat}
    (sameSeed : Onchain.nonceSeed server txid
        (Onchain.signingGeneration server first.ledger) input =
      Onchain.nonceSeed server txid' (Onchain.signingGeneration server second.ledger) input') :
    input = input' ∧
      Onchain.signingChunk server first.ledger = Onchain.signingChunk server second.ledger ∧
      Onchain.signingMessages server first.ledger =
        Onchain.signingMessages server second.ledger ∧ shares = shares' := by
  obtain ⟨sameTxid, generation, sameInput⟩ := injective _ _ _ _ _ _ sameSeed
  obtain ⟨unsigned, latest, msgs, present, isTxid, entered, complete, messages, signed⟩ :=
    Onchain.signingSessionProposal_shares proposed
  obtain ⟨unsigned', latest', msgs', present', isTxid', entered', complete', messages', signed'⟩ :=
    Onchain.signingSessionProposal_shares proposed'
  have grown := run_same_txid acyclic reached continued present present'
    (isTxid.trans (sameTxid.trans isTxid'.symm))
  have whole : History.run server History.start (early ++ late) = some second := by
    unfold History.run at reached continued ⊢
    rw [List.foldlM_append, reached]
    exact continued
  have soundFirst := History.run_logSound
    (fun entry member => members entry (List.mem_append_left _ member)) reached
  have soundSecond := History.run_logSound members whole
  have sameChunk := Onchain.signingChunk_grown soundFirst.dense soundSecond.dense grown.2 entered
    complete generation
  have sameMessages : Onchain.signingMessages server first.ledger =
      Onchain.signingMessages server second.ledger := by
    unfold Onchain.signingMessages
    rw [present, grown.1]
  have sameUnsigned : unsigned = unsigned' := Option.some.inj (grown.1.symm.trans present')
  have sameMsgs : msgs = msgs' :=
    Except.ok.inj (messages.symm.trans (sameMessages.trans messages'))
  refine ⟨sameInput, sameChunk, sameMessages, ?_⟩
  rw [sameUnsigned, sameMsgs, sameTxid, generation, sameChunk] at signed
  exact Except.ok.inj (signed.symm.trans signed')

/-- Two proposals of shares, computed from any two committed states of a run,
that sign with one secret nonce sign the same message in the same session. -/
theorem nonces_used_once (server : Server curve) (rank : Txid → Nat)
    (acyclic : Acyclic server.toMintConfig rank)
    (injective : ∀ txid generation input txid' generation' input',
      Onchain.nonceSeed server txid generation input =
        Onchain.nonceSeed server txid' generation' input' →
      txid = txid' ∧ generation = generation' ∧ input = input')
    (events : List (Event curve))
    (members : ∀ entry ∈ events.filterMap Event.entry?, entry.1 ∈ server.n.nodeIds)
    (place place' : Nat) (first second : History curve)
    (reached : Event.run server History.start (events.take place) = some first)
    (reached' : Event.run server History.start (events.take place') = some second)
    (txid txid' : Txid) (shares shares' : List (SignatureShare curve))
    (fresh fresh' : List (PublicNonce curve))
    (proposed : (Onchain.signingSessionProposal server first.ledger :
      Outcome Onchain.SigningError _) = .ok (some (.signatureShares txid shares fresh)))
    (proposed' : (Onchain.signingSessionProposal server second.ledger :
      Outcome Onchain.SigningError _) = .ok (some (.signatureShares txid' shares' fresh')))
    (input input' : Nat)
    (sameSeed : Onchain.nonceSeed server txid
        (Onchain.signingGeneration server first.ledger) input =
      Onchain.nonceSeed server txid' (Onchain.signingGeneration server second.ledger) input') :
    input = input' ∧
      Onchain.signingChunk server first.ledger = Onchain.signingChunk server second.ledger ∧
      Onchain.signingMessages server first.ledger =
        Onchain.signingMessages server second.ledger ∧ shares = shares' := by
  have ordered : ∀ {place place' : Nat} {first second : History curve}, place ≤ place' →
      Event.run server History.start (events.take place) = some first →
      Event.run server History.start (events.take place') = some second →
      ∃ late, History.run server first late = some second ∧
        ∀ entry ∈ (events.take place).filterMap Event.entry? ++ late,
          entry.1 ∈ server.n.nodeIds := by
    intro place place' first second before reached reached'
    obtain ⟨rest, split⟩ := List.take_prefix_take_left (l := events) before
    rw [Event.run_eq] at reached reached'
    rw [← split, List.filterMap_append] at reached'
    unfold History.run at reached reached'
    rw [List.foldlM_append, reached] at reached'
    refine ⟨rest.filterMap Event.entry?, reached', ?_⟩
    intro entry member
    rw [← List.filterMap_append, split] at member
    exact members entry (List.mem_filterMap.mpr (by
      obtain ⟨event, inPrefix, same⟩ := List.mem_filterMap.mp member
      exact ⟨event, List.mem_of_mem_take inPrefix, same⟩))
  have fromStart := reached
  have fromStart' := reached'
  rw [Event.run_eq] at fromStart fromStart'
  rcases Nat.le_total place place' with before | after
  · obtain ⟨late, continued, committee⟩ := ordered before reached reached'
    exact proposals_agree acyclic injective committee fromStart continued proposed proposed'
      sameSeed
  · obtain ⟨late, continued, committee⟩ := ordered after reached' reached
    obtain ⟨sameInput, sameChunk, sameMessages, sameShares⟩ := proposals_agree acyclic injective
      committee fromStart' continued proposed' proposed sameSeed.symm
    exact ⟨sameInput.symm, sameChunk.symm, sameMessages.symm, sameShares.symm⟩

/-! A node proposes its shares, is interrupted, and proposes them again after
another node has posted. -/

/-- The derivation of nonces as nested pairs, which is injective. -/
def sampleSealed : Server scalarCurve :=
  { sampleServer with
    secretChildTxid := Nat.pair
    secretChild := Nat.pair }

def sampleEvents : List (Event scalarCurve) :=
  sampleEntered.map Event.committed ++
    (sampleProposal sampleEntered 0).map Event.interrupted ++
    ((sampleProposal sampleEntered 1).drop sampleEntered.length).map Event.committed

def sampleFreshNonces : List (PublicNonce scalarCurve) :=
  (Onchain.deriveSecretNonces sampleSealed 0 0 2).map derivePublicNonce

theorem nonces_used_once_sample :
    ∃ first second : History scalarCurve,
      Event.run sampleSealed History.start (sampleEvents.take sampleEntered.length) = some first ∧
      Event.run sampleSealed History.start sampleEvents = some second ∧
      Onchain.signingChunk sampleSealed first.ledger =
        Onchain.signingChunk sampleSealed second.ledger := by
  have reached : ∀ place ∈ [sampleEntered.length, sampleEvents.length],
      (Event.run sampleSealed History.start (sampleEvents.take place)).map (fun history =>
        decide ((Onchain.signingSessionProposal sampleSealed history.ledger :
          Outcome Onchain.SigningError _) = .ok (some (.signatureShares
            (Onchain.computeTxid sampleServer.toMintConfig sampleUnsignedTx.tx)
            (sampleShares sampleEntered 0) sampleFreshNonces)) ∧
          Onchain.signingGeneration sampleSealed history.ledger = 0)) = some true := by
    decide +kernel
  obtain ⟨first, ranFirst, factsFirst⟩ :=
    Option.map_eq_some_iff.mp (reached sampleEntered.length (by simp))
  obtain ⟨second, ranSecond, factsSecond⟩ :=
    Option.map_eq_some_iff.mp (reached sampleEvents.length (by simp))
  obtain ⟨proposed, generation⟩ := of_decide_eq_true factsFirst
  obtain ⟨proposed', generation'⟩ := of_decide_eq_true factsSecond
  refine ⟨first, second, ranFirst, by rw [← ranSecond, List.take_length], ?_⟩
  apply (nonces_used_once sampleSealed id sample_acyclic _ sampleEvents (by decide +kernel)
    sampleEntered.length sampleEvents.length first second ranFirst ranSecond _ _ _ _ _ _ proposed
    proposed' 0 0 (by rw [generation, generation'])).2.1
  intro txid generation input txid' generation' input' same
  have outer := Nat.pair_eq_pair.mp same
  have middle := Nat.pair_eq_pair.mp outer.1
  have inner := Nat.pair_eq_pair.mp middle.1
  exact ⟨inner.2, middle.2, outer.2⟩

end Picomint.Consensus
