/-
An instance of the key generation among honest nodes.

What it holds is a function of how many messages it has received from each
peer, and no message that is next from a peer is refused.
-/

import Picomint.Dkg.Network

namespace Picomint.Config

variable {scheme : Scheme}

/-! ### What everybody sends -/

/-- All nodes are honest, and none of their sums fails: every share, and every
key of the result. -/
structure Regular (setup : Setup scheme) (share : NodeId → NodeId → scheme.Key)
    (pks : List scheme.Commitment) (sks : NodeId → scheme.Key) : Prop where
  honest : setup.byzantine = ∅
  evaluated : ∀ dealer node, dealer < setup.nodes.total → node < setup.nodes.total →
    scheme.evalPolyScalar (setup.polynomial dealer) node = .ok (share dealer node)
  valid : ∀ dealer node, dealer < setup.nodes.total → node < setup.nodes.total →
    scheme.checksum ((setup.polynomial dealer).map scheme.commit) node =
      .ok (scheme.commit (share dealer node))
  keys : ∀ node < setup.nodes.total,
    scheme.sumKeys (setup.nodes.nodeIds.map fun dealer => share dealer node) = .ok (sks node)
  commitments : (List.range setup.nodes.threshold).mapM (coefficientSum
    (setup.nodes.nodeIds.map fun dealer => (setup.polynomial dealer).map scheme.commit)) = .ok pks

section Honest

variable {setup : Setup scheme} {share : NodeId → NodeId → scheme.Key}
  {pks : List scheme.Commitment} {sks : NodeId → scheme.Key} {node sender : NodeId}
  {row : NodeId → Nat} {dkg : Dkg scheme}

def Setup.commitment (setup : Setup scheme) (node : NodeId) : List scheme.Commitment :=
  (setup.polynomial node).map scheme.commit

def script (setup : Setup scheme) (share : NodeId → NodeId → scheme.Key) (sender node : NodeId) :
    List (Message scheme) :=
  [.hash (scheme.hash (setup.commitment sender)), .commitment (setup.commitment sender),
    .share (share sender node)]

/-- A node has received so many messages from each other one. -/
def Past (setup : Setup scheme) (node : NodeId) (row : NodeId → Nat) (count : Nat) : Prop :=
  ∀ sender < setup.nodes.total, sender ≠ node → count ≤ row sender

instance (setup : Setup scheme) (node : NodeId) (row : NodeId → Nat) (count : Nat) :
    Decidable (Past setup node row count) :=
  inferInstanceAs (Decidable (∀ sender < _, _))

theorem Past.mono {count fewer : Nat} (past : Past setup node row count) (less : fewer ≤ count) :
    Past setup node row fewer :=
  fun sender known other => less.trans (past sender known other)

theorem not_past {count : Nat} (known : sender < setup.nodes.total) (other : sender ≠ node)
    (less : row sender < count) : ¬Past setup node row count :=
  fun past => Nat.not_le.mpr less (past sender known other)

/-- What a node holds that has received so many messages from each other one. -/
structure Row (setup : Setup scheme) (share : NodeId → NodeId → scheme.Key) (node : NodeId)
    (row : NodeId → Nat) (dkg : Dkg scheme) : Prop where
  nodes : dkg.numNodes = setup.nodes
  identity : dkg.identity = node
  polynomial : dkg.polynomial = setup.polynomial node
  hashes : ∀ sender, dkg.hashCommitments.get? sender =
    if sender = node ∨ (sender < setup.nodes.total ∧ 1 ≤ row sender) then
      some (scheme.hash (setup.commitment sender))
    else none
  commitments : ∀ sender, dkg.commitments.get? sender =
    if sender = node ∨ (sender < setup.nodes.total ∧ 2 ≤ row sender) then
      some (setup.commitment sender)
    else none
  shares : ∀ sender, dkg.skShares.get? sender =
    if (sender = node ∧ Past setup node row 2) ∨
        (sender ≠ node ∧ sender < setup.nodes.total ∧ 3 ≤ row sender) then
      some (share sender node)
    else none

theorem size_eq_iff {β : Type} {table : SortedMap NodeId β} {value : NodeId → β}
    {present : NodeId → Prop} [DecidablePred present]
    (entries : ∀ sender, table.get? sender = if present sender then some (value sender) else none)
    (below : ∀ sender, present sender → sender < setup.nodes.total) :
    table.size = setup.nodes.total ↔ ∀ sender < setup.nodes.total, present sender := by
  have isMember : ∀ sender, sender ∈ table.keys ↔ present sender := by
    intro sender
    rw [SortedMap.mem_keys, entries]
    split
    · rename_i there
      exact ⟨fun _ => there, fun _ => ⟨_, rfl⟩⟩
    · rename_i absent
      refine ⟨?_, fun there => absurd there absent⟩
      rintro ⟨_, impossible⟩
      cases impossible
  have members : ∀ sender ∈ table.keys, sender < setup.nodes.total :=
    fun sender member => below sender ((isMember sender).mp member)
  constructor
  · intro full sender known
    rw [← isMember, keys_of_full members full]
    exact (NumNodes.mem_nodeIds _ _).mpr known
  · intro all
    refine le_antisymm (size_le members) ?_
    have subset : List.range setup.nodes.total ⊆ table.keys :=
      fun sender member => (isMember sender).mpr (all sender (List.mem_range.mp member))
    have fewer := (List.nodup_range.subperm subset).length_le
    rwa [SortedMap.keys_length, List.length_range] at fewer

/-- A table that holds our own entry and those received is full once the node
is past the message. -/
theorem own_or_received_iff {count : Nat} :
    (∀ sender < setup.nodes.total,
      sender = node ∨ (sender < setup.nodes.total ∧ count ≤ row sender)) ↔
      Past setup node row count := by
  constructor
  · intro all sender known other
    rcases all sender known with same | ⟨_, enough⟩
    · exact absurd same other
    · exact enough
  · intro past sender known
    by_cases same : sender = node
    · exact Or.inl same
    · exact Or.inr ⟨known, past sender known same⟩

theorem Row.hashes_full (holds : Row setup share node row dkg) (known : node < setup.nodes.total) :
    dkg.hashCommitments.size = setup.nodes.total ↔ Past setup node row 1 := by
  rw [size_eq_iff holds.hashes, own_or_received_iff]
  rintro sender (rfl | ⟨below, _⟩)
  · exact known
  · exact below

theorem Row.commitments_full (holds : Row setup share node row dkg)
    (known : node < setup.nodes.total) :
    dkg.commitments.size = setup.nodes.total ↔ Past setup node row 2 := by
  rw [size_eq_iff holds.commitments, own_or_received_iff]
  rintro sender (rfl | ⟨below, _⟩)
  · exact known
  · exact below

theorem Row.shares_full (holds : Row setup share node row dkg) (known : node < setup.nodes.total) :
    dkg.skShares.size = setup.nodes.total ↔ Past setup node row 3 := by
  rw [size_eq_iff holds.shares]
  · constructor
    · intro all sender below other
      rcases all sender below with ⟨same, _⟩ | ⟨_, _, enough⟩
      · exact absurd same other
      · exact enough
    · intro past sender below
      by_cases same : sender = node
      · exact Or.inl ⟨same, past.mono (by decide)⟩
      · exact Or.inr ⟨same, below, past sender below same⟩
  · rintro sender (⟨rfl, _⟩ | ⟨_, below, _⟩)
    · exact known
    · exact below

/-! ### A message received -/

variable {row' : NodeId → Nat}

/-- A node receives the next message of a peer. -/
structure Next (setup : Setup scheme) (node sender : NodeId) (row row' : NodeId → Nat)
    (count : Nat) : Prop where
  known : sender < setup.nodes.total
  other : sender ≠ node
  before : row sender = count
  after : row' sender = count + 1
  others : ∀ peer, peer ≠ sender → row' peer = row peer

/-- Another count is passed exactly as before. -/
theorem Next.past_iff {count reached : Nat} (next : Next setup node sender row row' count)
    (different : reached ≠ count + 1) :
    Past setup node row' reached ↔ Past setup node row reached := by
  obtain ⟨known, other, before, after, others⟩ := next
  constructor
  · intro past peer below isOther
    have enough := past peer below isOther
    by_cases same : peer = sender
    · subst same
      omega
    · rwa [others peer same] at enough
  · intro past peer below isOther
    have enough := past peer below isOther
    by_cases same : peer = sender
    · subst same
      omega
    · rwa [others peer same]

theorem Next.received_iff {count reached : Nat} (next : Next setup node sender row row' count)
    (different : reached ≠ count + 1) (peer : NodeId) :
    reached ≤ row' peer ↔ reached ≤ row peer := by
  obtain ⟨known, other, before, after, others⟩ := next
  by_cases same : peer = sender
  · subst same
    omega
  · rw [others peer same]

/-- The table a message enters. -/
theorem Next.entries {count : Nat} (next : Next setup node sender row row' count) {β : Type}
    {table : SortedMap NodeId β} {value : NodeId → β}
    (entries : ∀ peer, table.get? peer =
      if peer = node ∨ (peer < setup.nodes.total ∧ count + 1 ≤ row peer) then some (value peer)
      else none) (peer : NodeId) :
    (table.insert sender (value sender)).get? peer =
      if peer = node ∨ (peer < setup.nodes.total ∧ count + 1 ≤ row' peer) then some (value peer)
      else none := by
  obtain ⟨known, other, before, after, others⟩ := next
  rw [SortedMap.get?_insert]
  by_cases same : peer = sender
  · subst same
    rw [if_pos rfl, if_pos (Or.inr ⟨known, after.ge⟩)]
  · rw [if_neg (Ne.symm same), entries, others peer same]

theorem Next.fresh {count : Nat} (next : Next setup node sender row row' count) {β : Type}
    {table : SortedMap NodeId β} {value : NodeId → β}
    (entries : ∀ peer, table.get? peer =
      if peer = node ∨ (peer < setup.nodes.total ∧ count + 1 ≤ row peer) then some (value peer)
      else none) : table.get? sender = none := by
  obtain ⟨known, other, before, after, others⟩ := next
  rw [entries, if_neg]
  rintro (same | ⟨_, enough⟩)
  · exact other same
  · omega

theorem Row.takeHash (holds : Row setup share node row dkg) (known : node < setup.nodes.total)
    (next : Next setup node sender row row' 0) :
    ∃ after out, dkg.step sender (.hash (scheme.hash (setup.commitment sender))) =
        .ok (after, out) ∧ Row setup share node row' after ∧
      out = if Past setup node row' 1 then .broadcast (.commitment (setup.commitment node))
        else .messages [] := by
  let after : Dkg scheme :=
    { dkg with
      hashCommitments :=
        dkg.hashCommitments.insert sender (scheme.hash (setup.commitment sender)) }
  have fresh := next.fresh holds.hashes
  have holdsAfter : Row setup share node row' after := by
    refine ⟨holds.nodes, holds.identity, holds.polynomial, next.entries holds.hashes, ?_, ?_⟩
    · intro peer
      simp only [next.received_iff (show 2 ≠ 0 + 1 by decide)]
      exact holds.commitments peer
    · intro peer
      simp only [next.received_iff (show 3 ≠ 0 + 1 by decide),
        next.past_iff (show 2 ≠ 0 + 1 by decide)]
      exact holds.shares peer
  have full := holdsAfter.hashes_full known
  have commitment : dkg.commitment = setup.commitment node := by
    unfold Dkg.commitment Setup.commitment
    rw [holds.polynomial]
  by_cases past : Past setup node row' 1
  · refine ⟨after, _, ?_, holdsAfter, (if_pos past).symm⟩
    rw [← commitment]
    exact Dkg.step_eq_ok.mpr (.lastHash fresh rfl (holds.nodes ▸ full.mpr past))
  · refine ⟨after, _, ?_, holdsAfter, (if_neg past).symm⟩
    exact Dkg.step_eq_ok.mpr (.hash fresh rfl (holds.nodes ▸ full.not.mpr past))

def dealt (setup : Setup scheme) (share : NodeId → NodeId → scheme.Key) (node : NodeId) :
    List (NodeId × Message scheme) :=
  (setup.nodes.nodeIds.filter fun peer => peer ≠ node).map fun peer =>
    (peer, .share (share node peer))

theorem Row.takeCommitment (regular : Regular setup share pks sks)
    (holds : Row setup share node row dkg) (known : node < setup.nodes.total)
    (next : Next setup node sender row row' 1) :
    ∃ after out, dkg.step sender (.commitment (setup.commitment sender)) = .ok (after, out) ∧
      Row setup share node row' after ∧
      out = .messages (if Past setup node row' 2 then dealt setup share node else []) := by
  let middle : Dkg scheme :=
    { dkg with commitments := dkg.commitments.insert sender (setup.commitment sender) }
  have fresh := next.fresh holds.commitments
  have opened : dkg.hashCommitments.get? sender =
      some (scheme.hash (setup.commitment sender)) := by
    rw [holds.hashes, if_pos (Or.inr ⟨next.known, next.before.ge⟩)]
  have degree : (setup.commitment sender).length = dkg.numNodes.threshold := by
    rw [Setup.commitment, List.length_map, setup.degree, holds.nodes]
  have notBefore : ¬Past setup node row 2 :=
    not_past next.known next.other (by rw [next.before]; decide)
  have hashes : ∀ peer, dkg.hashCommitments.get? peer =
      if peer = node ∨ (peer < setup.nodes.total ∧ 1 ≤ row' peer) then
        some (scheme.hash (setup.commitment peer))
      else none := by
    intro peer
    simp only [next.received_iff (show 1 ≠ 1 + 1 by decide)]
    exact holds.hashes peer
  have full : middle.commitments.size = setup.nodes.total ↔ Past setup node row' 2 := by
    rw [size_eq_iff (next.entries holds.commitments), own_or_received_iff]
    rintro peer (rfl | ⟨below, _⟩)
    · exact known
    · exact below
  by_cases past : Past setup node row' 2
  · let after : Dkg scheme :=
      { middle with skShares := dkg.skShares.insert node (share node node) }
    have isDealt : middle.deal =
        .ok (dkg.skShares.insert node (share node node), dealt setup share node) := by
      have each : ∀ peer ∈ middle.numNodes.nodeIds,
          scheme.evalPolyScalar middle.polynomial peer = .ok (share node peer) := by
        intro peer member
        change scheme.evalPolyScalar dkg.polynomial peer = _
        rw [holds.polynomial]
        refine regular.evaluated node peer known ?_
        rw [← holds.nodes]
        exact (NumNodes.mem_nodeIds _ _).mp member
      have own : middle.identity ∈ middle.numNodes.nodeIds := by
        change dkg.identity ∈ dkg.numNodes.nodeIds
        rw [holds.identity, holds.nodes]
        exact (NumNodes.mem_nodeIds _ _).mpr known
      rw [Dkg.deal_eq each own]
      change Except.ok (dkg.skShares.insert dkg.identity (share node dkg.identity),
        (dkg.numNodes.nodeIds.filter fun peer => peer ≠ dkg.identity).map fun peer =>
          (peer, Message.share (share node peer))) = _
      rw [holds.identity, holds.nodes]
      rfl
    refine ⟨after, _, Dkg.step_eq_ok.mpr (.lastCommitment opened degree fresh rfl
      (holds.nodes ▸ full.mpr past) isDealt rfl), ?_, by rw [if_pos past]⟩
    refine ⟨holds.nodes, holds.identity, holds.polynomial, hashes,
      next.entries holds.commitments, ?_⟩
    intro peer
    change (dkg.skShares.insert node (share node node)).get? peer = _
    rw [SortedMap.get?_insert]
    by_cases same : peer = node
    · subst same
      rw [if_pos rfl, if_pos (Or.inl ⟨rfl, past⟩)]
    · rw [if_neg (Ne.symm same), holds.shares]
      simp only [same, false_and, false_or, next.received_iff (show 3 ≠ 1 + 1 by decide)]
  · refine ⟨middle, _, Dkg.step_eq_ok.mpr (.commitment opened degree fresh rfl
      (holds.nodes ▸ full.not.mpr past)), ?_, by rw [if_neg past]⟩
    refine ⟨holds.nodes, holds.identity, holds.polynomial, hashes,
      next.entries holds.commitments, ?_⟩
    intro peer
    change dkg.skShares.get? peer = _
    rw [holds.shares]
    simp only [notBefore, past, and_false, false_or, next.received_iff (show 3 ≠ 1 + 1 by decide)]

theorem values_eq {β : Type} {table : SortedMap NodeId β} {value : NodeId → β}
    (keys : table.keys = setup.nodes.nodeIds)
    (entries : ∀ peer < setup.nodes.total, table.get? peer = some (value peer)) :
    table.values = setup.nodes.nodeIds.map value := by
  have mapped := table.map_values id (value 0)
  rw [List.map_id, keys] at mapped
  rw [mapped]
  apply List.map_congr_left
  intro peer member
  rw [entries peer ((NumNodes.mem_nodeIds _ _).mp member)]
  rfl

theorem keys_eq {β : Type} {table : SortedMap NodeId β} {value : NodeId → β}
    {present : NodeId → Prop} [DecidablePred present]
    (entries : ∀ sender, table.get? sender = if present sender then some (value sender) else none)
    (below : ∀ sender, present sender → sender < setup.nodes.total)
    (full : table.size = setup.nodes.total) : table.keys = setup.nodes.nodeIds := by
  refine keys_of_full (fun sender member => ?_) full
  obtain ⟨found, isFound⟩ := (SortedMap.mem_keys _ _).mp member
  rw [entries] at isFound
  split at isFound
  · rename_i there
    exact below sender there
  · cases isFound

theorem Row.takeShare (regular : Regular setup share pks sks)
    (holds : Row setup share node row dkg) (known : node < setup.nodes.total)
    (next : Next setup node sender row row' 2) :
    ∃ after out, dkg.step sender (.share (share sender node)) = .ok (after, out) ∧
      Row setup share node row' after ∧
      out = if Past setup node row' 3 then .result pks (sks node) else .messages [] := by
  let after : Dkg scheme :=
    { dkg with skShares := dkg.skShares.insert sender (share sender node) }
  have committed : dkg.commitments.get? sender = some (setup.commitment sender) := by
    rw [holds.commitments, if_pos (Or.inr ⟨next.known, next.before.ge⟩)]
  have valid : scheme.checksum (setup.commitment sender) dkg.identity =
      .ok (scheme.commit (share sender node)) := by
    rw [holds.identity]
    exact regular.valid sender node next.known known
  have fresh : dkg.skShares.get? sender = none := by
    rw [holds.shares, if_neg]
    rintro (⟨same, _⟩ | ⟨_, _, enough⟩)
    · exact next.other same
    · rw [next.before] at enough
      omega
  have holdsAfter : Row setup share node row' after := by
    refine ⟨holds.nodes, holds.identity, holds.polynomial, ?_, ?_, ?_⟩
    · intro peer
      simp only [next.received_iff (show 1 ≠ 2 + 1 by decide)]
      exact holds.hashes peer
    · intro peer
      simp only [next.received_iff (show 2 ≠ 2 + 1 by decide)]
      exact holds.commitments peer
    · intro peer
      change (dkg.skShares.insert sender (share sender node)).get? peer = _
      rw [SortedMap.get?_insert]
      by_cases same : peer = sender
      · subst same
        rw [if_pos rfl, if_pos (Or.inr ⟨next.other, next.known, next.after.ge⟩)]
      · rw [if_neg (Ne.symm same), holds.shares]
        simp only [next.others peer same, next.past_iff (show 2 ≠ 2 + 1 by decide)]
  have full := holdsAfter.shares_full known
  by_cases past : Past setup node row' 3
  · have shareBelow : ∀ peer, (peer = node ∧ Past setup node row' 2) ∨
        (peer ≠ node ∧ peer < setup.nodes.total ∧ 3 ≤ row' peer) → peer < setup.nodes.total := by
      rintro peer (⟨rfl, _⟩ | ⟨_, below, _⟩)
      · exact known
      · exact below
    have commitmentBelow : ∀ peer, peer = node ∨ (peer < setup.nodes.total ∧ 2 ≤ row' peer) →
        peer < setup.nodes.total := by
      rintro peer (rfl | ⟨below, _⟩)
      · exact known
      · exact below
    have shareValues : after.skShares.values =
        setup.nodes.nodeIds.map fun dealer => share dealer node := by
      refine values_eq (keys_eq holdsAfter.shares shareBelow (full.mpr past)) fun peer below => ?_
      rw [holdsAfter.shares, if_pos]
      by_cases same : peer = node
      · exact Or.inl ⟨same, past.mono (by decide)⟩
      · exact Or.inr ⟨same, below, past peer below same⟩
    have commitmentsFull := (holdsAfter.commitments_full known).mpr (past.mono (by decide))
    have commitmentValues : after.commitments.values =
        setup.nodes.nodeIds.map fun dealer => setup.commitment dealer := by
      refine values_eq (keys_eq holdsAfter.commitments commitmentBelow commitmentsFull)
        fun peer below => ?_
      rw [holdsAfter.commitments, if_pos]
      by_cases same : peer = node
      · exact Or.inl same
      · exact Or.inr ⟨below, (past.mono (by decide : 2 ≤ 3)) peer below same⟩
    refine ⟨after, _, ?_, holdsAfter, (if_pos past).symm⟩
    refine Dkg.step_eq_ok.mpr (.lastShare committed valid fresh rfl
      (holds.nodes ▸ full.mpr past) ?_ ?_)
    · rw [shareValues]
      exact regular.keys node known
    · rw [holds.nodes, commitmentValues]
      exact regular.commitments
  · refine ⟨after, _, ?_, holdsAfter, (if_neg past).symm⟩
    exact Dkg.step_eq_ok.mpr (.share committed valid fresh rfl (holds.nodes ▸ full.not.mpr past))

end Honest

end Picomint.Config
