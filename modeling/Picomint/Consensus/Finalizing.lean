/-
A fully signed session finalizes its transaction.

The shares of a session were verified one by one when they were posted; under
the nodes' shared secret they aggregate to signatures of the tweaked aggregate
key, unless a group nonce or an intermediate sum of responses vanishes.
-/

import Picomint.Consensus.SigningLog
import Picomint.Tss.Aggregation

namespace Picomint.Consensus.Onchain

open Tss Polynomial

variable {curve : Curve} {mint : MintConfig curve}

structure SharedSecret (mint : MintConfig curve) (secret : curve.Scalar[X]) : Prop where
  degree : secret.degree < threshold mint
  share : ∀ node key, mint.pks.get? node = some key →
    key.point = secret.eval (evaluationPoint curve node) • curve.generator
  aggregate : mint.aggPk.point = secret.eval 0 • curve.generator

/-- The shares of a session for one input, keyed by signer. -/
def shareColumn {ε : Type} (chunk : List (NonceEntry curve))
    (responses : List (List (SignatureShare curve))) (index : Nat) :
    Outcome ε (SortedMap Nat (SignatureShare curve)) := do
  let shares ← (chunk.zip responses).mapM (fun entry => do
    let share ← expect entry.2[index]? .missingShare
    return (entry.1.node, share))
  return SortedMap.ofList shares

/-- Neither the group nonce of one input's session nor an intermediate sum of
its responses vanishes. -/
def Regular (mint : MintConfig curve) (chunk : List (NonceEntry curve))
    (responses : List (List (SignatureShare curve))) (index : Nat) (utxo : SpentTxOut)
    (msg : Hash) : Prop :=
  ∀ nonces shares aggPk, (nonceColumn chunk index : Outcome SigningError _) = .ok nonces →
    (shareColumn chunk responses index : Outcome SigningError _) = .ok shares →
    (tweakedAggPk mint utxo.tweak : Outcome SigningError _) = .ok aggPk →
    SigningSet.GroupNonceFinite msg nonces aggPk ∧ SigningSet.PartialSumsNonzero shares

instance (mint : MintConfig curve) (chunk : List (NonceEntry curve))
    (responses : List (List (SignatureShare curve))) (index : Nat) (utxo : SpentTxOut)
    (msg : Hash) : Decidable (Regular mint chunk responses index utxo msg) :=
  match nonceColumnOk : (nonceColumn chunk index : Outcome SigningError _),
      shareColumnOk : (shareColumn chunk responses index : Outcome SigningError _),
      keyOk : (tweakedAggPk mint utxo.tweak : Outcome SigningError _) with
  | .ok nonces, .ok shares, .ok aggPk =>
      decidable_of_iff
        (SigningSet.GroupNonceFinite msg nonces aggPk ∧ SigningSet.PartialSumsNonzero shares)
        ⟨fun regular _ _ _ sameNonces sameShares sameKey => by
          cases nonceColumnOk.symm.trans sameNonces
          cases shareColumnOk.symm.trans sameShares
          cases keyOk.symm.trans sameKey
          exact regular,
          fun regular => regular nonces shares aggPk nonceColumnOk shareColumnOk keyOk⟩
  | .error _, _, _ =>
      isTrue (fun _ _ _ same _ _ => by cases nonceColumnOk.symm.trans same)
  | .ok _, .error _, _ =>
      isTrue (fun _ _ _ _ same _ => by cases shareColumnOk.symm.trans same)
  | .ok _, .ok _, .error _ =>
      isTrue (fun _ _ _ _ _ same => by cases keyOk.symm.trans same)

/-! ### Tweaked keys and columns -/

theorem tweakPublicKey_point {ε : Type} {key tweaked : PublicKey curve} {tweak : Hash}
    (computed : (tweakPublicKey key tweak : Outcome ε _) = .ok tweaked) :
    tweaked.point = key.point + (tweak : curve.Scalar) • curve.generator := by
  unfold tweakPublicKey tweakScalar at computed
  simp only [bind_eq_ok, expect_eq_ok] at computed
  obtain ⟨scalar, found, added⟩ := computed
  split at found
  · cases found
    exact PublicKey.ofPoint?_point added
  · cases found

theorem column_keys {β : Type} {nodes : List NodeId} {column : List (NodeId × β)}
    (aligned : column.map Prod.fst = nodes) (distinct : nodes.Nodup) (node : NodeId) :
    node ∈ (SortedMap.ofList column).keys ↔ node ∈ nodes := by
  rw [SortedMap.mem_keys_ofList (by rwa [aligned]), aligned]

theorem nonceColumn_ok {ε : Type} {chunk : List (NonceEntry curve)} {index : Nat}
    {nonces : SortedMap Nat (PublicNonce curve)}
    (computed : (nonceColumn chunk index : Outcome ε _) = .ok nonces) :
    ∃ column, nonces = SortedMap.ofList column ∧
      column.map Prod.fst = chunk.map NonceEntry.node := by
  unfold nonceColumn at computed
  rw [bind_eq_ok] at computed
  obtain ⟨column, mapped, result⟩ := computed
  cases result
  refine ⟨column, rfl, mapM_ok_map mapped NonceEntry.node Prod.fst ?_⟩
  intro entry picked here
  rw [bind_eq_ok] at here
  obtain ⟨nonce, _, same⟩ := here
  cases same
  rfl

theorem shareColumn_ok {ε : Type} {chunk : List (NonceEntry curve)}
    {responses : List (List (SignatureShare curve))} {index : Nat}
    (rows : responses.length = chunk.length)
    (present : ∀ row ∈ responses, index < row.length) :
    ∃ column, (shareColumn chunk responses index : Outcome ε _) = .ok (SortedMap.ofList column) ∧
      column.map Prod.fst = chunk.map NonceEntry.node ∧
      ∀ entry ∈ column, ∃ (position : Nat) (owner : NonceEntry curve)
        (row : List (SignatureShare curve)), chunk[position]? = some owner ∧
        responses[position]? = some row ∧ owner.node = entry.1 ∧ row[index]? = some entry.2 := by
  let pick : NonceEntry curve × List (SignatureShare curve) →
      Outcome ε (NodeId × SignatureShare curve) := fun entry => do
    let share ← expect entry.2[index]? .missingShare
    return (entry.1.node, share)
  have all : ∀ entry ∈ chunk.zip responses, ∃ picked, pick entry = .ok picked := by
    intro entry member
    have inside := present entry.2 (List.of_mem_zip member).2
    exact ⟨(entry.1.node, entry.2[index]), by
      change (expect entry.2[index]? Panic.missingShare >>= _) = _
      rw [List.getElem?_eq_getElem inside]
      rfl⟩
  obtain ⟨column, mapped⟩ := mapM_exists_ok all
  have aligned := mapM_eq_ok.mp mapped
  refine ⟨column, ?_, ?_, ?_⟩
  · change ((chunk.zip responses).mapM pick >>= _) = _
    rw [mapped]
    rfl
  · have firsts := mapM_ok_map mapped (NonceEntry.node ∘ Prod.fst) Prod.fst (by
      intro entry picked here
      simp only [pick, bind_eq_ok] at here
      obtain ⟨share, _, same⟩ := here
      cases same
      rfl)
    rw [firsts, ← List.map_map, List.map_fst_zip rows.ge]
  · intro entry member
    obtain ⟨position, inside, same⟩ := List.getElem_of_mem member
    have zipped : position < (chunk.zip responses).length := by
      rw [aligned.length_eq]
      exact inside
    have here := aligned.get zipped inside
    simp only [List.get_eq_getElem, same, pick, bind_eq_ok, expect_eq_ok] at here
    obtain ⟨share, found, picked⟩ := here
    cases picked
    rw [List.getElem_zip] at found
    rw [List.length_zip] at zipped
    refine ⟨position, chunk[position], responses[position], ?_, ?_, ?_, found⟩
    · exact List.getElem?_eq_getElem (by omega)
    · exact List.getElem?_eq_getElem (by omega)
    · simp only [List.getElem_zip]

/-! ### One input -/

theorem verifyInput_ok {ε : Type} {node : NodeId} {chunk : List (NonceEntry curve)} {index : Nat}
    {utxo : SpentTxOut} {msg : Hash} {share : SignatureShare curve} {valid : Bool}
    (verified : (verifyInput mint node chunk index utxo msg share : Outcome ε Bool) = .ok valid) :
    ∃ pks nonces aggPk, (tweakedPks mint node utxo.tweak : Outcome ε _) = .ok pks ∧
      (nonceColumn chunk index : Outcome ε _) = .ok nonces ∧
      (tweakedAggPk mint utxo.tweak : Outcome ε _) = .ok aggPk ∧
      verifySignatureShare msg node pks share nonces aggPk = some valid := by
  unfold verifyInput at verified
  simp only [bind_eq_ok, expect_eq_ok] at verified
  obtain ⟨pks, tweaked, nonces, column, aggPk, aggregate, same⟩ := verified
  exact ⟨pks, nonces, aggPk, tweaked, column, aggregate, same⟩

/-- The signing set of a session, under the tweak of the spent output. -/
noncomputable def signingSet {secret : curve.Scalar[X]} (shared : SharedSecret mint secret)
    {nodes : List NodeId} (distinct : nodes.Nodup) (size : nodes.length = threshold mint)
    (tweak : Hash) {aggPk : PublicKey curve} (pks : Nat → PublicKey curve)
    (tweaked : ∀ node ∈ nodes,
      (tweakedPks mint node tweak : Outcome SigningError _) = .ok (pks node))
    (aggregate : (tweakedAggPk mint tweak : Outcome SigningError _) = .ok aggPk) :
    SigningSet curve where
  ids := nodes
  distinct := distinct
  nonempty := by
    intro empty
    rw [empty] at size
    exact absurd size (threshold_pos mint).ne
  secret := secret
  degree := by
    rw [size]
    exact shared.degree
  tweak := (tweak : curve.Scalar)
  pks := pks
  pk := aggPk
  share := by
    intro node member
    have computed := tweaked node member
    unfold tweakedPks at computed
    simp only [bind_eq_ok, expect_eq_ok] at computed
    obtain ⟨key, found, computed⟩ := computed
    rw [tweakPublicKey_point computed, shared.share node key found, add_smul]
  aggregate := by
    rw [tweakPublicKey_point aggregate, shared.aggregate, add_smul]

/-- Verified shares of a whole session aggregate to a valid signature. -/
theorem finalizeInput_ok {secret : curve.Scalar[X]} (shared : SharedSecret mint secret)
    {chunk : List (NonceEntry curve)} {responses : List (List (SignatureShare curve))}
    {index : Nat} {utxo : SpentTxOut} {msg : Hash} (size : chunk.length = threshold mint)
    (distinct : (chunk.map NonceEntry.node).Nodup) (rows : responses.length = chunk.length)
    (verified : ∀ (position : Nat) entry row, chunk[position]? = some entry →
      responses[position]? = some row → ∃ share, row[index]? = some share ∧
        (verifyInput mint entry.node chunk index utxo msg share : Outcome SigningError _) =
          .ok true)
    (regular : Regular mint chunk responses index utxo msg) :
    ∃ signature,
      (finalizeInput mint chunk responses index utxo msg : Outcome SigningError _) =
        .ok signature := by
  have nonempty : 0 < chunk.length := by
    rw [size]
    exact threshold_pos mint
  have answered : 0 < responses.length := by omega
  obtain ⟨_, _, first⟩ := verified 0 chunk[0] responses[0]
    (List.getElem?_eq_getElem nonempty) (List.getElem?_eq_getElem answered)
  obtain ⟨_, nonces, aggPk, _, columnOk, aggregateOk, _⟩ := verifyInput_ok first
  have present : ∀ row ∈ responses, index < row.length := by
    intro row member
    obtain ⟨position, inside, same⟩ := List.getElem_of_mem member
    have entered : position < chunk.length := by omega
    obtain ⟨share, found, _⟩ := verified position chunk[position] row
      (List.getElem?_eq_getElem entered) (same ▸ List.getElem?_eq_getElem inside)
    exact (List.getElem?_eq_some_iff.mp found).1
  obtain ⟨shareRows, shareColumnOk, shareNodes, origin⟩ :=
    shareColumn_ok (ε := SigningError) rows present
  obtain ⟨nonceRows, nonceMap, nonceNodes⟩ := nonceColumn_ok columnOk
  let pks : Nat → PublicKey curve := fun node =>
    match (tweakedPks mint node utxo.tweak : Outcome SigningError _) with
    | .ok key => key
    | .error _ => aggPk
  have keysOf : ∀ {node key}, (tweakedPks mint node utxo.tweak : Outcome SigningError _) = .ok key →
      pks node = key := by
    intro node key computed
    simp only [pks, computed]
  have atNode : ∀ node ∈ nonces.keys, ∃ (position : Nat) (entry : NonceEntry curve),
      chunk[position]? = some entry ∧ entry.node = node := by
    intro node member
    rw [nonceMap, column_keys nonceNodes distinct] at member
    obtain ⟨entry, inChunk, same⟩ := List.mem_map.mp member
    obtain ⟨position, found⟩ := List.getElem?_of_mem inChunk
    exact ⟨position, entry, found, same⟩
  have keysLength : nonces.keys.length = threshold mint := by
    have same : nonces.keys.Perm (chunk.map NonceEntry.node) := by
      rw [List.perm_ext_iff_of_nodup nonces.keys_nodup distinct]
      intro node
      rw [nonceMap]
      exact column_keys nonceNodes distinct node
    rw [same.length_eq, List.length_map, size]
  let signers := signingSet shared nonces.keys_nodup keysLength utxo.tweak pks (by
    intro node member
    obtain ⟨position, entry, found, same⟩ := atNode node member
    have inside := (List.getElem?_eq_some_iff.mp found).1
    have responded : position < responses.length := by omega
    obtain ⟨share, _, valid⟩ := verified position entry responses[position] found
      (List.getElem?_eq_getElem responded)
    obtain ⟨key, _, _, computed, _⟩ := verifyInput_ok valid
    rw [same] at computed
    rw [computed, keysOf computed]) aggregateOk
  have shareKeys : (SortedMap.ofList shareRows).keys = signers.ids := by
    apply SortedMap.keys_eq_of_mem_iff
    intro node
    rw [column_keys shareNodes distinct, nonceMap, column_keys nonceNodes distinct]
  have everyShare : ∀ id share, (SortedMap.ofList shareRows).get? id = some share →
      verifySignatureShare msg id (signers.pks id) share nonces signers.pk = some true := by
    intro id share found
    have inRows : (id, share) ∈ shareRows := by
      have nodes : (shareRows.map Prod.fst).Nodup := by rwa [shareNodes]
      by_cases member : id ∈ shareRows.map Prod.fst
      · obtain ⟨row, isRow, same⟩ := List.mem_map.mp member
        have atRow := SortedMap.get?_ofList_mem nodes isRow
        rw [same, found] at atRow
        cases atRow
        rw [← same]
        exact isRow
      · rw [SortedMap.get?_ofList_absent member] at found
        cases found
    obtain ⟨position, owner, row, here, there, same, picked⟩ := origin _ inRows
    obtain ⟨share', found', valid⟩ := verified position owner row here there
    obtain ⟨key, nonces', aggPk', computed, column', aggregate', valid⟩ := verifyInput_ok valid
    cases columnOk.symm.trans column'
    cases aggregateOk.symm.trans aggregate'
    cases picked.symm.trans found'
    change owner.node = id at same
    rw [same] at computed valid
    change verifySignatureShare msg id (pks id) share nonces aggPk = some true
    rw [keysOf computed]
    exact valid
  obtain ⟨finite, sums⟩ := regular nonces _ aggPk columnOk shareColumnOk aggregateOk
  obtain ⟨signature, aggregated, valid⟩ :=
    signers.aggregate_verifies rfl shareKeys everyShare finite sums
  change verify msg signature aggPk = true at valid
  change aggregateSignatureShares msg nonces _ aggPk = _ at aggregated
  refine ⟨signature, ?_⟩
  unfold shareColumn at shareColumnOk
  rw [bind_eq_ok] at shareColumnOk
  obtain ⟨column, mapped, result⟩ := shareColumnOk
  have sameMap : SortedMap.ofList column = SortedMap.ofList shareRows := Except.ok.inj result
  unfold finalizeInput
  simp only [bind_eq_ok, expect_eq_ok, assert_eq_ok]
  exact ⟨column, mapped, nonces, columnOk, aggPk, aggregateOk, signature, sameMap ▸ aggregated,
    ⟨⟩, valid, rfl⟩

/-! ### The transaction -/

theorem verifyShares_iff {node : NodeId} {chunk : List (NonceEntry curve)}
    {unsigned : MintTx curve} {msgs : List Hash} {shares : List (SignatureShare curve)} :
    verifyShares mint node chunk unsigned msgs shares = .ok () ↔
      ∀ index utxo msg share, unsigned.spentTxOuts[index]? = some utxo →
        msgs[index]? = some msg → shares[index]? = some share →
        (verifyInput mint node chunk index utxo msg share : Outcome SigningError _) =
          .ok true := by
  unfold verifyShares
  rw [show (() : Unit) = ⟨⟩ from rfl, forM_eq_ok]
  simp only [bind_eq_ok, ensure_eq_ok]
  constructor
  · intro all index utxo msg share here sighash posted
    obtain ⟨valid, verified, isValid⟩ := all (((utxo, msg), share), index) (by
      rw [List.mem_zipIdx_iff_getElem?, List.getElem?_zip_eq_some, List.getElem?_zip_eq_some]
      exact ⟨⟨here, sighash⟩, posted⟩)
    rwa [isValid] at verified
  · rintro all ⟨⟨⟨utxo, msg⟩, share⟩, index⟩ member
    rw [List.mem_zipIdx_iff_getElem?, List.getElem?_zip_eq_some,
      List.getElem?_zip_eq_some] at member
    obtain ⟨⟨here, sighash⟩, posted⟩ := member
    exact ⟨true, all index utxo msg share here sighash posted, rfl⟩

theorem finalizeTx_ok {secret : curve.Scalar[X]} (shared : SharedSecret mint secret)
    {unsigned : MintTx curve} {msgs : List Hash} {chunk : List (NonceEntry curve)}
    {responses : List (List (SignatureShare curve))}
    (inputs : unsigned.spentTxOuts.length = unsigned.tx.input.length)
    (size : chunk.length = threshold mint) (distinct : (chunk.map NonceEntry.node).Nodup)
    (rows : responses.length = chunk.length)
    (verified : ∀ (position : Nat) entry row, chunk[position]? = some entry →
      responses[position]? = some row → row.length = unsigned.spentTxOuts.length ∧
        verifyShares mint entry.node chunk unsigned msgs row = .ok ())
    (regular : ∀ (index : Nat) utxo msg, unsigned.spentTxOuts[index]? = some utxo →
      msgs[index]? = some msg → Regular mint chunk responses index utxo msg) :
    ∃ signed, (finalizeTx mint unsigned msgs chunk responses : Outcome SigningError _) =
      .ok signed := by
  have every : ∀ entry ∈ (unsigned.spentTxOuts.zip msgs).zipIdx, ∃ signature,
      (finalizeInput mint chunk responses entry.2 entry.1.1 entry.1.2 : Outcome SigningError _) =
        .ok signature := by
    rintro ⟨⟨utxo, msg⟩, index⟩ member
    rw [List.mem_zipIdx_iff_getElem?, List.getElem?_zip_eq_some] at member
    obtain ⟨here, sighash⟩ := member
    apply finalizeInput_ok shared size distinct rows _ (regular index utxo msg here sighash)
    intro position entry row atChunk atResponses
    obtain ⟨count, shares⟩ := verified position entry row atChunk atResponses
    have inside : index < row.length := by
      rw [count]
      exact (List.getElem?_eq_some_iff.mp here).1
    have found := List.getElem?_eq_getElem inside
    exact ⟨row[index], found, verifyShares_iff.mp shares index utxo msg _ here sighash found⟩
  obtain ⟨signatures, mapped⟩ := mapM_exists_ok every
  unfold finalizeTx
  simp only [bind_eq_ok, assert_eq_ok, decide_eq_true_eq]
  exact ⟨_, ⟨⟩, inputs, signatures, mapped, rfl⟩

/-! ### The last shares of a session -/

variable {ledger : Ledger curve} {node : NodeId} {txid : Txid}
  {shares : List (SignatureShare curve)} {freshNonces : List (PublicNonce curve)}
  {unsigned : MintTx curve} {latest : Nat} {msgs : List Hash}

def SessionRegular (mint : MintConfig curve) (ledger : Ledger curve) (unsigned : MintTx curve)
    (latest : Nat) (msgs : List Hash) (shares : List (SignatureShare curve)) : Prop :=
  ∀ (index : Nat) utxo msg, unsigned.spentTxOuts[index]? = some utxo → msgs[index]? = some msg →
    Regular mint (sessionChunk mint ledger.nonceLog latest)
      (sessionResponses mint (ledger.signatureShares.insert latest shares) latest) index utxo msg

instance (mint : MintConfig curve) (ledger : Ledger curve) (unsigned : MintTx curve)
    (latest : Nat) (msgs : List Hash) (shares : List (SignatureShare curve)) :
    Decidable (SessionRegular mint ledger unsigned latest msgs shares) :=
  decidable_of_iff (∀ entry ∈ (unsigned.spentTxOuts.zip msgs).zipIdx,
      Regular mint (sessionChunk mint ledger.nonceLog latest)
        (sessionResponses mint (ledger.signatureShares.insert latest shares) latest) entry.2
        entry.1.1 entry.1.2)
    ⟨fun regular index utxo msg here sighash => regular ((utxo, msg), index) (by
      rw [List.mem_zipIdx_iff_getElem?, List.getElem?_zip_eq_some]
      exact ⟨here, sighash⟩),
      fun regular entry member => by
        rw [List.mem_zipIdx_iff_getElem?, List.getElem?_zip_eq_some] at member
        exact regular entry.2 entry.1.1 entry.1.2 member.1 member.2⟩

theorem session_width (mint : MintConfig curve) (latest : Nat) :
    (latest / threshold mint + 1) * threshold mint - latest / threshold mint * threshold mint =
      threshold mint := by
  rw [Nat.add_mul, Nat.one_mul, Nat.add_sub_cancel_left]

/-- Entries and shares of a full session stand under the same indices. -/
theorem session_paired
    (complete : (sessionChunk mint ledger.nonceLog latest).length = threshold mint)
    {posted : SortedMap Nat (List (SignatureShare curve))}
    (full : (sessionResponses mint posted latest).length = threshold mint) {position : Nat}
    (inside : position < threshold mint) :
    (sessionChunk mint ledger.nonceLog latest)[position]? =
        ledger.nonceLog.get? (latest / threshold mint * threshold mint + position) ∧
      (sessionResponses mint posted latest)[position]? =
        posted.get? (latest / threshold mint * threshold mint + position) := by
  have width := session_width mint latest
  constructor
  · unfold sessionChunk at complete ⊢
    rw [List.length_map] at complete
    exact SortedMap.range_full_values (by rw [complete, width]) (by rw [width]; exact inside)
  · unfold sessionResponses at full ⊢
    rw [List.length_map] at full
    exact SortedMap.range_full_values (by rw [full, width]) (by rw [width]; exact inside)

theorem session_verified (sound : LogSound mint ledger)
    (checked : SharesChecked mint ledger node txid shares freshNonces unsigned latest msgs)
    (full : (sessionResponses mint (ledger.signatureShares.insert latest shares) latest).length =
      threshold mint) (position : Nat) (entry : NonceEntry curve)
    (row : List (SignatureShare curve))
    (atChunk : (sessionChunk mint ledger.nonceLog latest)[position]? = some entry)
    (atResponses : (sessionResponses mint (ledger.signatureShares.insert latest shares)
      latest)[position]? = some row) :
    row.length = unsigned.spentTxOuts.length ∧ verifyShares mint entry.node
      (sessionChunk mint ledger.nonceLog latest) unsigned msgs row = .ok () := by
  have inside : position < threshold mint := by
    rw [← full]
    exact (List.getElem?_eq_some_iff.mp atResponses).1
  obtain ⟨entryAt, rowAt⟩ := session_paired checked.complete full inside
  rw [entryAt] at atChunk
  rw [rowAt, SortedMap.get?_insert] at atResponses
  split at atResponses
  · rename_i same
    cases atResponses
    rw [← same] at atChunk
    have isLatest := ((latestEntry_isLatest sound.dense).mp checked.entered).1
    rw [owners_getElem? sound.dense, atChunk, Option.map_some, Option.some.injEq] at isLatest
    rw [isLatest]
    exact ⟨checked.shareCount, checked.verified⟩
  · obtain ⟨_, count, owner, msgs', here, messages, verified⟩ :=
      sound.posted unsigned checked.present _ row atResponses
    cases atChunk.symm.trans here
    cases checked.messages.symm.trans messages
    have sameChunk : sessionChunk mint ledger.nonceLog
        (latest / threshold mint * threshold mint + position) =
        sessionChunk mint ledger.nonceLog latest := by
      unfold sessionChunk
      rw [Nat.mul_comm (latest / threshold mint), Nat.mul_add_div (threshold_pos mint),
        Nat.div_eq_of_lt inside, Nat.add_zero]
    rw [sameChunk] at verified
    exact ⟨count, verified⟩

theorem processSignatureShares_accepts {secret : curve.Scalar[X]}
    (shared : SharedSecret mint secret) (sound : LogSound mint ledger)
    (checked : SharesChecked mint ledger node txid shares freshNonces unsigned latest msgs)
    (regular : SessionRegular mint ledger unsigned latest msgs shares) :
    ∃ after, processSignatureShares mint ledger node txid shares freshNonces = .ok after := by
  have distinct : ((sessionChunk mint ledger.nonceLog latest).map NonceEntry.node).Nodup := by
    rw [sessionChunk_nodes mint sound.dense]
    exact sound.spread.chunkOf_nodup (threshold_pos mint) _
  have finalizes : (sessionResponses mint (ledger.signatureShares.insert latest shares)
      latest).length = threshold mint → ∃ signed, (finalizeTx mint unsigned msgs
        (sessionChunk mint ledger.nonceLog latest) (sessionResponses mint
          (ledger.signatureShares.insert latest shares) latest) : Outcome SigningError _) =
        .ok signed := fun full =>
    finalizeTx_ok shared (sound.inputs unsigned checked.present) checked.complete distinct
      (full.trans checked.complete.symm) (session_verified sound checked full) regular
  have outcome : ∃ after, (if (sessionResponses mint
      (postShares ledger latest node shares freshNonces).signatureShares latest).length =
        threshold mint then do
        let signed ← finalizeTx mint unsigned msgs (sessionChunk mint ledger.nonceLog latest)
          (sessionResponses mint (postShares ledger latest node shares freshNonces).signatureShares
            latest)
        return closeSigning (postShares ledger latest node shares freshNonces) txid signed
      else return postShares ledger latest node shares freshNonces : Outcome SigningError _) =
        .ok after := by
    split
    · rename_i full
      obtain ⟨signed, finalized⟩ := finalizes full
      exact ⟨_, bind_eq_ok.mpr ⟨signed, finalized, rfl⟩⟩
    · exact ⟨_, rfl⟩
  obtain ⟨after, final⟩ := outcome
  refine ⟨after, ?_⟩
  unfold processSignatureShares
  simp only [bind_eq_ok, ensure_eq_ok, okOr_eq_ok, decide_eq_true_eq, Bool.not_eq_true']
  exact ⟨unsigned, checked.present, ⟨⟩, checked.sameTx, ⟨⟩, checked.shareCount, ⟨⟩,
    checked.nonceCount, latest, checked.entered, ⟨⟩, checked.complete, msgs, checked.messages,
    ⟨⟩, checked.verified, ⟨⟩, checked.unposted, final⟩

end Picomint.Consensus.Onchain
