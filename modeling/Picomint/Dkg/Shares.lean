/-
What an instance of the key generation holds, whatever its peers send.

Every commitment in its table opens the hash its peer had sent, and every share
lies on the commitment of its peer, so a result that is returned is a share of
the polynomial returned with it.
-/

import Picomint.Dkg.Groups

namespace Picomint.Config

open SharePolynomial

variable {scheme : Scheme}

/-! ### Steps -/

namespace Dkg

variable {dkg next : Dkg scheme} {node : NodeId} {message : Message scheme}
  {out : DkgStep scheme}

/-- The ways a step returns. -/
inductive Stepped (dkg : Dkg scheme) (node : NodeId) :
    Message scheme → Dkg scheme → DkgStep scheme → Prop
  | hash {hash : Hash} {next : Dkg scheme} (fresh : dkg.hashCommitments.get? node = none)
      (isNext : next = { dkg with hashCommitments := dkg.hashCommitments.insert node hash })
      (more : next.hashCommitments.size ≠ dkg.numNodes.total) :
      Stepped dkg node (.hash hash) next (.messages [])
  | lastHash {hash : Hash} {next : Dkg scheme} (fresh : dkg.hashCommitments.get? node = none)
      (isNext : next = { dkg with hashCommitments := dkg.hashCommitments.insert node hash })
      (full : next.hashCommitments.size = dkg.numNodes.total) :
      Stepped dkg node (.hash hash) next (.broadcast (.commitment dkg.commitment))
  | commitment {polynomial : List scheme.Commitment} {next : Dkg scheme}
      (opened : dkg.hashCommitments.get? node = some (scheme.hash polynomial))
      (degree : polynomial.length = dkg.numNodes.threshold)
      (fresh : dkg.commitments.get? node = none)
      (isNext : next = { dkg with commitments := dkg.commitments.insert node polynomial })
      (more : next.commitments.size ≠ dkg.numNodes.total) :
      Stepped dkg node (.commitment polynomial) next (.messages [])
  | lastCommitment {polynomial : List scheme.Commitment} {middle next : Dkg scheme}
      {skShares : SortedMap NodeId scheme.Key} {messages : List (NodeId × Message scheme)}
      (opened : dkg.hashCommitments.get? node = some (scheme.hash polynomial))
      (degree : polynomial.length = dkg.numNodes.threshold)
      (fresh : dkg.commitments.get? node = none)
      (isMiddle : middle = { dkg with commitments := dkg.commitments.insert node polynomial })
      (full : middle.commitments.size = dkg.numNodes.total)
      (dealt : middle.deal = .ok (skShares, messages))
      (isNext : next = { middle with skShares := skShares }) :
      Stepped dkg node (.commitment polynomial) next (.messages messages)
  | share {share : scheme.Key} {polynomial : List scheme.Commitment} {next : Dkg scheme}
      (committed : dkg.commitments.get? node = some polynomial)
      (valid : scheme.checksum polynomial dkg.identity = .ok (scheme.commit share))
      (fresh : dkg.skShares.get? node = none)
      (isNext : next = { dkg with skShares := dkg.skShares.insert node share })
      (more : next.skShares.size ≠ dkg.numNodes.total) :
      Stepped dkg node (.share share) next (.messages [])
  | lastShare {share : scheme.Key} {polynomial : List scheme.Commitment} {next : Dkg scheme}
      {pks : List scheme.Commitment} {sks : scheme.Key}
      (committed : dkg.commitments.get? node = some polynomial)
      (valid : scheme.checksum polynomial dkg.identity = .ok (scheme.commit share))
      (fresh : dkg.skShares.get? node = none)
      (isNext : next = { dkg with skShares := dkg.skShares.insert node share })
      (full : next.skShares.size = dkg.numNodes.total)
      (summed : scheme.sumKeys next.skShares.values = .ok sks)
      (added : (List.range dkg.numNodes.threshold).mapM
        (coefficientSum next.commitments.values) = .ok pks) :
      Stepped dkg node (.share share) next (.result pks sks)

theorem contains_eq_false {β : Type} {table : SortedMap NodeId β} {node : NodeId} :
    table.contains node = false ↔ table.get? node = none := by
  unfold SortedMap.contains
  rw [Option.isSome_eq_false_iff, Option.isNone_iff_eq_none]

theorem step_eq_ok :
    dkg.step node message = .ok (next, out) ↔ Stepped dkg node message next out := by
  constructor
  · intro stepped
    cases message with
    | hash hash =>
        simp only [step, bind_eq_ok, ensure_eq_ok] at stepped
        obtain ⟨_, fresh, stepped⟩ := stepped
        split at stepped
        · rename_i full
          cases stepped
          exact .lastHash fresh rfl full
        · rename_i more
          cases stepped
          exact .hash fresh rfl more
    | commitment polynomial =>
        simp only [step, bind_eq_ok, ensure_eq_ok, context_eq_ok, contains_eq_false] at stepped
        obtain ⟨hash, opened, _, same, _, degree, _, fresh, stepped⟩ := stepped
        subst same
        split at stepped
        · rename_i full
          rw [bind_eq_ok] at stepped
          obtain ⟨⟨skShares, messages⟩, dealt, stepped⟩ := stepped
          cases stepped
          exact .lastCommitment opened degree.symm fresh rfl full dealt rfl
        · rename_i more
          cases stepped
          exact .commitment opened degree.symm fresh rfl more
    | share share =>
        simp only [step, bind_eq_ok, ensure_eq_ok, context_eq_ok, contains_eq_false] at stepped
        obtain ⟨polynomial, committed, checksum, valid, _, same, _, fresh, stepped⟩ := stepped
        subst same
        split at stepped
        · rename_i full
          simp only [bind_eq_ok] at stepped
          obtain ⟨sks, summed, pks, added, stepped⟩ := stepped
          cases stepped
          exact .lastShare committed valid fresh rfl full summed added
        · rename_i more
          cases stepped
          exact .share committed valid fresh rfl more
  · intro stepped
    cases stepped with
    | hash fresh isNext more =>
        subst isNext
        simp only [step, bind_eq_ok, ensure_eq_ok]
        exact ⟨(), fresh, if_neg more⟩
    | lastHash fresh isNext full =>
        subst isNext
        simp only [step, bind_eq_ok, ensure_eq_ok]
        exact ⟨(), fresh, if_pos full⟩
    | commitment opened degree fresh isNext more =>
        subst isNext
        simp only [step, bind_eq_ok, ensure_eq_ok, context_eq_ok, contains_eq_false]
        exact ⟨_, opened, (), rfl, (), degree.symm, (), fresh, if_neg more⟩
    | lastCommitment opened degree fresh isMiddle full dealt isNext =>
        subst isMiddle isNext
        simp only [step, bind_eq_ok, ensure_eq_ok, context_eq_ok, contains_eq_false]
        refine ⟨_, opened, (), rfl, (), degree.symm, (), fresh, ?_⟩
        rw [if_pos full, dealt]
        rfl
    | share committed valid fresh isNext more =>
        subst isNext
        simp only [step, bind_eq_ok, ensure_eq_ok, context_eq_ok, contains_eq_false]
        exact ⟨_, committed, _, valid, (), rfl, (), fresh, if_neg more⟩
    | lastShare committed valid fresh isNext full summed added =>
        subst isNext
        simp only [step, bind_eq_ok, ensure_eq_ok, context_eq_ok, contains_eq_false]
        refine ⟨_, committed, _, valid, (), rfl, (), fresh, ?_⟩
        rw [if_pos full, summed]
        simp only [bind_eq_ok]
        exact ⟨_, rfl, _, added, rfl⟩

/-! ### Dealing -/

theorem deal_eq {share : NodeId → scheme.Key}
    (each : ∀ node ∈ dkg.numNodes.nodeIds,
      scheme.evalPolyScalar dkg.polynomial node = .ok (share node))
    (own : dkg.identity ∈ dkg.numNodes.nodeIds) :
    dkg.deal = .ok (dkg.skShares.insert dkg.identity (share dkg.identity),
      (dkg.numNodes.nodeIds.filter fun node => node ≠ dkg.identity).map fun node =>
        (node, .share (share node))) := by
  unfold deal
  generalize dkg.numNodes.nodeIds = nodes at each own ⊢
  -- the own share is in the table once our own node is passed
  have folded : ∀ front : List NodeId, (∀ node ∈ front, node ∈ nodes) →
      front.foldlM (fun dealt node => do
        let share ← scheme.evalPolyScalar dkg.polynomial node
        if node = dkg.identity then return (dealt.1.insert dkg.identity share, dealt.2)
        else return (dealt.1, dealt.2 ++ [(node, Message.share share)])) (dkg.skShares, []) =
      (.ok (if dkg.identity ∈ front then dkg.skShares.insert dkg.identity (share dkg.identity)
        else dkg.skShares, (front.filter fun node => node ≠ dkg.identity).map fun node =>
          (node, .share (share node))) : Outcome _) := by
    intro front
    induction front using List.reverseRecOn with
    | nil =>
        intro _
        rfl
    | append_singleton front node ih =>
        intro members
        rw [List.foldlM_append,
          ih fun other member => members other (List.mem_append_left _ member)]
        simp only [List.foldlM_cons, List.foldlM_nil, bind_pure]
        change (scheme.evalPolyScalar dkg.polynomial node >>= _) = _
        rw [each node (members node (List.mem_append_right _ List.mem_cons_self))]
        change (if node = dkg.identity then _ else _) = _
        by_cases isOwn : node = dkg.identity
        · subst isOwn
          rw [if_pos rfl]
          by_cases passed : dkg.identity ∈ front
          · simp [passed, SortedMap.insert_insert]
            rfl
          · simp [passed]
            rfl
        · rw [if_neg isOwn]
          simp [isOwn, Ne.symm isOwn]
          rfl
  rw [folded nodes fun _ member => member, if_pos own]

theorem deal_evaluated {dealt : SortedMap NodeId scheme.Key × List (NodeId × Message scheme)}
    (computed : dkg.deal = .ok dealt) :
    ∀ node ∈ dkg.numNodes.nodeIds, ∃ share,
      scheme.evalPolyScalar dkg.polynomial node = .ok share := by
  unfold deal at computed
  generalize dkg.numNodes.nodeIds = nodes at computed ⊢
  induction nodes using List.reverseRecOn generalizing dealt with
  | nil =>
      intro node member
      cases member
  | append_singleton front last ih =>
      rw [List.foldlM_append, bind_eq_ok] at computed
      obtain ⟨before, first, computed⟩ := computed
      rw [List.foldlM_cons, bind_eq_ok] at computed
      obtain ⟨after, computed, _⟩ := computed
      rw [bind_eq_ok] at computed
      obtain ⟨share, evaluated, _⟩ := computed
      intro node member
      rcases List.mem_append.mp member with earlier | isLast
      · exact ih first node earlier
      · rw [List.mem_singleton.mp isLast]
        exact ⟨share, evaluated⟩

end Dkg

theorem Dkg.deal_messages {dkg : Dkg scheme} (own : dkg.identity ∈ dkg.numNodes.nodeIds)
    {skShares : SortedMap NodeId scheme.Key} {messages : List (NodeId × Message scheme)}
    (dealt : dkg.deal = .ok (skShares, messages)) :
    ∃ share : NodeId → scheme.Key,
      (∀ node ∈ dkg.numNodes.nodeIds,
        scheme.evalPolyScalar dkg.polynomial node = .ok (share node)) ∧
      skShares = dkg.skShares.insert dkg.identity (share dkg.identity) ∧
      messages = (dkg.numNodes.nodeIds.filter fun node => node ≠ dkg.identity).map fun node =>
        (node, .share (share node)) := by
  obtain ⟨first, evaluated⟩ := deal_evaluated dealt _ own
  have : Nonempty scheme.Key := ⟨first⟩
  choose! share each using deal_evaluated dealt
  rw [deal_eq each own] at dealt
  cases dealt
  exact ⟨share, each, rfl, rfl⟩

/-! ### Full tables -/

section Full

variable {β : Type} {table : SortedMap NodeId β} {nodes : NumNodes}

theorem keys_of_full (members : ∀ node ∈ table.keys, node < nodes.total)
    (full : table.size = nodes.total) : table.keys = nodes.nodeIds := by
  have subset : table.keys.toFinset ⊆ Finset.range nodes.total := by
    intro node member
    exact Finset.mem_range.mpr (members node (List.mem_toFinset.mp member))
  have same : table.keys.toFinset = Finset.range nodes.total := by
    refine Finset.eq_of_subset_of_card_le subset ?_
    rw [List.toFinset_card_of_nodup table.keys_nodup, table.keys_length, full, Finset.card_range]
  refine List.Perm.eq_of_pairwise ?_ table.keys_ascending List.pairwise_lt_range ?_
  · intro first second _ _ forward backward
    exact absurd (forward.trans backward) (lt_irrefl _)
  · refine (List.perm_ext_iff_of_nodup table.keys_nodup List.nodup_range).mpr fun node => ?_
    rw [← List.mem_toFinset, same, Finset.mem_range, List.mem_range]

theorem size_le (members : ∀ node ∈ table.keys, node < nodes.total) :
    table.size ≤ nodes.total := by
  rw [← table.keys_length, ← List.toFinset_card_of_nodup table.keys_nodup,
    ← Finset.card_range nodes.total]
  refine Finset.card_le_card fun node member => ?_
  exact Finset.mem_range.mpr (members node (List.mem_toFinset.mp member))

end Full

/-! ### The invariant -/

section Checked

variable {F M : Type} [Field F] [AddCommGroup M] [Module F M] {linear : Linear scheme F M}
  {dkg next : Dkg scheme} {node : NodeId} {message : Message scheme} {out : DkgStep scheme}

structure Checked (linear : Linear scheme F M) (dkg : Dkg scheme) : Prop where
  own : dkg.identity < dkg.numNodes.total
  degree : dkg.polynomial.length = dkg.numNodes.threshold
  members : ∀ node ∈ dkg.hashCommitments.keys, node < dkg.numNodes.total
  opened : ∀ node polynomial, dkg.commitments.get? node = some polynomial →
    dkg.hashCommitments.get? node = some (scheme.hash polynomial) ∧
      polynomial.length = dkg.numNodes.threshold
  ownCommitment : dkg.commitments.get? dkg.identity = some dkg.commitment
  onCommitment : ∀ node share, dkg.skShares.get? node = some share → ∃ polynomial,
    dkg.commitments.get? node = some polynomial ∧
      linear.scalar share • linear.base =
        valueAt (polynomial.map linear.point) (linear.at' dkg.identity)

theorem Linear.point_commitment (linear : Linear scheme F M) (polynomial : List scheme.Key)
    (x : F) :
    valueAt ((polynomial.map scheme.commit).map linear.point) x =
      valueAt (polynomial.map linear.scalar) x • linear.base := by
  rw [← valueAt_smul, List.map_map, List.map_map]
  congr 1
  exact List.map_congr_left fun key _ => linear.point_commit key

theorem Checked.new {numNodes : NumNodes} {identity : NodeId} {polynomial : List scheme.Key}
    (own : identity < numNodes.total) (degree : polynomial.length = numNodes.threshold) :
    Checked linear (Dkg.new numNodes identity polynomial) where
  own := own
  degree := degree
  members := by
    intro node member
    rcases (SortedMap.mem_keys_insert _ _ _ _).mp member with same | impossible
    · exact same ▸ own
    · cases impossible
  opened := by
    intro node committed found
    change (SortedMap.empty.insert identity _).get? node = _ at found
    rw [SortedMap.get?_insert] at found
    split at found
    · rename_i same
      cases found
      subst same
      exact ⟨SortedMap.get?_insert_self .., by rw [List.length_map, degree]; rfl⟩
    · cases found
  ownCommitment := SortedMap.get?_insert_self ..
  onCommitment := by
    intro node share found
    cases found

theorem Checked.commitment_members (checked : Checked linear dkg) :
    ∀ node ∈ dkg.commitments.keys, node < dkg.numNodes.total := by
  intro node member
  obtain ⟨polynomial, found⟩ := (SortedMap.mem_keys _ _).mp member
  exact checked.members node
    ((SortedMap.mem_keys _ _).mpr ⟨_, (checked.opened node polynomial found).1⟩)

theorem Checked.share_members (checked : Checked linear dkg) :
    ∀ node ∈ dkg.skShares.keys, node < dkg.numNodes.total := by
  intro node member
  obtain ⟨share, found⟩ := (SortedMap.mem_keys _ _).mp member
  obtain ⟨polynomial, committed, _⟩ := checked.onCommitment node share found
  exact checked.commitment_members node ((SortedMap.mem_keys _ _).mpr ⟨_, committed⟩)

theorem Checked.hashes_full (checked : Checked linear dkg)
    (full : dkg.skShares.size = dkg.numNodes.total) :
    dkg.hashCommitments.size = dkg.numNodes.total := by
  have shareKeys := keys_of_full checked.share_members full
  have hashKeys : dkg.hashCommitments.keys = dkg.skShares.keys := by
    refine SortedMap.keys_eq_of_mem_iff fun node => ⟨?_, ?_⟩
    · intro member
      rw [shareKeys, NumNodes.mem_nodeIds]
      exact checked.members node member
    · intro member
      obtain ⟨share, found⟩ := (SortedMap.mem_keys _ _).mp member
      obtain ⟨polynomial, committed, _⟩ := checked.onCommitment node share found
      exact (SortedMap.mem_keys _ _).mpr ⟨_, (checked.opened node polynomial committed).1⟩
  rw [← SortedMap.keys_length, hashKeys, SortedMap.keys_length, full]

theorem Checked.insertHash (checked : Checked linear dkg) (known : node < dkg.numNodes.total)
    (fresh : dkg.hashCommitments.get? node = none) (hash : Hash) :
    Checked linear { dkg with hashCommitments := dkg.hashCommitments.insert node hash } where
  own := checked.own
  degree := checked.degree
  members := by
    intro other member
    rcases (SortedMap.mem_keys_insert _ _ _ _).mp member with same | earlier
    · exact same ▸ known
    · exact checked.members other earlier
  opened := by
    intro other polynomial found
    obtain ⟨opened, degree⟩ := checked.opened other polynomial found
    refine ⟨?_, degree⟩
    rw [SortedMap.get?_insert_of_ne]
    · exact opened
    · rintro rfl
      rw [fresh] at opened
      cases opened
  ownCommitment := checked.ownCommitment
  onCommitment := checked.onCommitment

theorem Checked.insertCommitment (checked : Checked linear dkg)
    {polynomial : List scheme.Commitment}
    (opened : dkg.hashCommitments.get? node = some (scheme.hash polynomial))
    (degree : polynomial.length = dkg.numNodes.threshold)
    (fresh : dkg.commitments.get? node = none) :
    Checked linear { dkg with commitments := dkg.commitments.insert node polynomial } where
  own := checked.own
  degree := checked.degree
  members := checked.members
  opened := by
    intro other committed found
    change (dkg.commitments.insert node polynomial).get? other = _ at found
    rw [SortedMap.get?_insert] at found
    split at found
    · rename_i same
      cases found
      exact same ▸ ⟨opened, degree⟩
    · exact checked.opened other committed found
  ownCommitment := by
    change (dkg.commitments.insert node polynomial).get? dkg.identity = _
    rw [SortedMap.get?_insert_of_ne]
    · exact checked.ownCommitment
    · rintro rfl
      cases fresh.symm.trans checked.ownCommitment
  onCommitment := by
    intro other share found
    obtain ⟨committed, held, value⟩ := checked.onCommitment other share found
    refine ⟨committed, ?_, value⟩
    change (dkg.commitments.insert node polynomial).get? other = _
    rw [SortedMap.get?_insert_of_ne]
    · exact held
    · rintro rfl
      cases fresh.symm.trans held

theorem Checked.insertShare (checked : Checked linear dkg) {share : scheme.Key}
    {polynomial : List scheme.Commitment} (committed : dkg.commitments.get? node = some polynomial)
    (value : linear.scalar share • linear.base =
      valueAt (polynomial.map linear.point) (linear.at' dkg.identity)) :
    Checked linear { dkg with skShares := dkg.skShares.insert node share } where
  own := checked.own
  degree := checked.degree
  members := checked.members
  opened := checked.opened
  ownCommitment := checked.ownCommitment
  onCommitment := by
    intro other found isFound
    change (dkg.skShares.insert node share).get? other = _ at isFound
    rw [SortedMap.get?_insert] at isFound
    split at isFound
    · rename_i same
      cases isFound
      exact ⟨polynomial, same ▸ committed, value⟩
    · exact checked.onCommitment other found isFound

theorem Linear.share_value (linear : Linear scheme F M) {polynomial : List scheme.Commitment}
    {identity : NodeId} {share : scheme.Key}
    (valid : scheme.checksum polynomial identity = .ok (scheme.commit share)) :
    linear.scalar share • linear.base =
      valueAt (polynomial.map linear.point) (linear.at' identity) := by
  rw [← linear.point_commit, linear.checksum valid]

theorem Checked.step (checked : Checked linear dkg) (known : node < dkg.numNodes.total)
    (stepped : Dkg.Stepped dkg node message next out) : Checked linear next := by
  cases stepped with
  | hash fresh isNext more =>
      subst isNext
      exact checked.insertHash known fresh _
  | lastHash fresh isNext full =>
      subst isNext
      exact checked.insertHash known fresh _
  | commitment opened degree fresh isNext more =>
      subst isNext
      exact checked.insertCommitment opened degree fresh
  | lastCommitment opened degree fresh isMiddle full dealt isNext =>
      have middle := checked.insertCommitment opened degree fresh
      rw [← isMiddle] at middle
      have ownMember := (NumNodes.mem_nodeIds _ _).mpr middle.own
      obtain ⟨share, each, isShares, _⟩ := Dkg.deal_messages ownMember dealt
      subst isShares
      subst isNext
      refine middle.insertShare middle.ownCommitment ?_
      rw [Dkg.commitment, linear.point_commitment, linear.evalPolyScalar (each _ ownMember)]
  | share committed valid fresh isNext more =>
      subst isNext
      exact checked.insertShare committed (linear.share_value valid)
  | lastShare committed valid fresh isNext full summed added =>
      subst isNext
      exact checked.insertShare committed (linear.share_value valid)

/-! ### Results -/

/-- The polynomial of all nodes, from their commitments. -/
theorem coefficientSums_point {count : Nat} {commitments : List (List scheme.Commitment)}
    {pks : List scheme.Commitment}
    (added : (List.range count).mapM (coefficientSum commitments) = .ok pks) :
    pks.map linear.point =
      sumColumns count (commitments.map fun polynomial => polynomial.map linear.point) := by
  unfold sumColumns
  rw [← List.forall₂_eq_eq_eq, List.forall₂_map_left_iff, List.forall₂_map_right_iff]
  refine List.Forall₂.flip ((mapM_eq_ok.mp added).imp ?_)
  intro index pk summed
  unfold coefficientSum at summed
  obtain ⟨coefficients, taken, summed⟩ := bind_eq_ok.mp summed
  change linear.point pk = _
  rw [linear.sumCommitments summed, List.map_map]
  congr 1
  rw [← List.forall₂_eq_eq_eq, List.forall₂_map_left_iff, List.forall₂_map_right_iff]
  refine List.Forall₂.flip ((mapM_eq_ok.mp taken).imp ?_)
  intro polynomial coefficient found
  rw [expect_eq_ok] at found
  change linear.point coefficient = _
  rw [Function.comp_apply, List.getD_eq_getElem?_getD, List.getElem?_map, found]
  rfl

theorem coefficientSums_nonempty {nodes : NumNodes} {commitments : List (List scheme.Commitment)}
    {pks : List scheme.Commitment}
    (added : (List.range nodes.threshold).mapM (coefficientSum commitments) = .ok pks) :
    pks ≠ [] := by
  rintro rfl
  have length := (mapM_eq_ok.mp added).length_eq
  rw [List.length_range] at length
  exact Nat.succ_ne_zero _ length

theorem Checked.result (checked : Checked linear dkg)
    (full : dkg.skShares.size = dkg.numNodes.total) {sks : scheme.Key}
    {pks : List scheme.Commitment} (summed : scheme.sumKeys dkg.skShares.values = .ok sks)
    (added : (List.range dkg.numNodes.threshold).mapM
      (coefficientSum dkg.commitments.values) = .ok pks) :
    linear.scalar sks • linear.base =
      valueAt (pks.map linear.point) (linear.at' dkg.identity) := by
  have shareKeys := keys_of_full checked.share_members full
  -- every node with a share has a commitment
  have sameKeys : dkg.skShares.keys = dkg.commitments.keys := by
    refine SortedMap.keys_eq_of_mem_iff fun node => ⟨?_, ?_⟩
    · intro member
      obtain ⟨share, found⟩ := (SortedMap.mem_keys _ _).mp member
      obtain ⟨polynomial, committed, _⟩ := checked.onCommitment node share found
      exact (SortedMap.mem_keys _ _).mpr ⟨_, committed⟩
    · intro member
      rw [shareKeys, NumNodes.mem_nodeIds]
      exact checked.commitment_members node member
  rw [coefficientSums_point added, valueAt_sumColumns, linear.sumKeys summed, List.sum_smul,
    List.map_map, List.map_map]
  · rw [SortedMap.map_values _ _ 0, SortedMap.map_values _ _ 0, sameKeys]
    congr 1
    apply List.map_congr_left
    intro node member
    rw [← sameKeys] at member
    obtain ⟨share, found⟩ := (SortedMap.mem_keys _ _).mp member
    obtain ⟨polynomial, committed, value⟩ := checked.onCommitment node share found
    rw [found, committed]
    exact value
  · intro polynomial member
    obtain ⟨committed, listed, rfl⟩ := List.mem_map.mp member
    obtain ⟨node, found⟩ := (SortedMap.mem_values _ _).mp listed
    rw [List.length_map]
    exact (checked.opened node committed found).2

end Checked

end Picomint.Config
