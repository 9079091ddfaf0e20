/-
The stream of incoming contracts, and the clients that follow it.

Every funded contract takes the next index of the stream, and a claim removes
its entry: the stream is the list of all contracts ever funded with holes where
they were claimed.  A client that polls from its cursor on sees every entry
that was not claimed before it came by.
-/

import Picomint.Lib.Paging
import Picomint.Consensus.Spending
import Picomint.Consensus.Panics

namespace Picomint

open Tss

/-! ### What a transaction funds and claims -/

def Input.incomingContract : Input → Option OutPoint
  | .lightning (.incoming outpoint) => some outpoint
  | _ => none

def Output.incomingContract : Output → Option IncomingContract
  | .lightning (.incoming contract) => some contract
  | _ => none

def incomingContracts (txid : TransactionId) (entries : List (Output × Nat)) :
    List (OutPoint × IncomingContract) :=
  entries.filterMap (fun entry =>
    entry.1.incomingContract.map (fun contract => ({ txid, outIdx := entry.2 }, contract)))

namespace Consensus

variable {curve : Curve} {server : Server curve} {mint : MintConfig curve}
  {ledger middle after : Ledger curve}

def History.fundedContracts (mint : MintConfig curve) (history : History curve) :
    List (OutPoint × IncomingContract) :=
  history.accepted.flatMap (fun entry =>
    incomingContracts (computeTxid mint entry.2) entry.2.outputs.zipIdx)

def History.claimedContracts (history : History curve) : List OutPoint :=
  history.spent Input.incomingContract

/-! ### The tables of the stream -/

/-- The three tables hold the contracts funded so far and not claimed; the
outpoints belong to accepted transactions, or to the given one below the given
index. -/
structure StreamTables (txid : TransactionId) (index : Nat) (ledger : Ledger curve)
    (funded : List (OutPoint × IncomingContract)) (claimed : List OutPoint) : Prop where
  stream : ∀ position row, ledger.incomingContractStream.get? position = some row ↔
    funded[position]? = some row ∧ row.1 ∉ claimed
  indexed : ∀ outpoint position, ledger.incomingContractIndex.get? outpoint = some position ↔
    ∃ contract, ledger.incomingContractStream.get? position = some (outpoint, contract)
  held : ∀ outpoint contract, ledger.incomingContract.get? outpoint = some contract ↔
    ∃ position, ledger.incomingContractStream.get? position = some (outpoint, contract)
  next : ledger.incomingContractStreamNextIndex.getD 0 = funded.length
  distinct : (funded.map Prod.fst).Nodup
  known : ∀ outpoint ∈ funded.map Prod.fst, ledger.acceptedTxid.contains outpoint.txid = true ∨
    (outpoint.txid = txid ∧ outpoint.outIdx < index)
  claimed : ∀ outpoint ∈ claimed, outpoint ∈ funded.map Prod.fst

theorem streamTables_empty : StreamTables 0 0 (Ledger.empty : Ledger curve) [] [] where
  stream := fun position row => by
    change SortedMap.empty.get? position = some row ↔ _
    simp
  indexed := fun outpoint position => by
    change SortedMap.empty.get? outpoint = some position ↔
      ∃ contract, SortedMap.empty.get? position = some (outpoint, contract)
    simp
  held := fun outpoint contract => by
    change SortedMap.empty.get? outpoint = some contract ↔
      ∃ position, SortedMap.empty.get? position = some (outpoint, contract)
    simp
  next := rfl
  distinct := List.nodup_nil
  known := fun _ member => by cases member
  claimed := fun _ member => by cases member

/-- The tables of the stream are those of the other ledger. -/
structure SameStream (ledger after : Ledger curve) : Prop where
  acceptedTxid : after.acceptedTxid = ledger.acceptedTxid
  incomingContract : after.incomingContract = ledger.incomingContract
  incomingContractIndex : after.incomingContractIndex = ledger.incomingContractIndex
  incomingContractStream : after.incomingContractStream = ledger.incomingContractStream
  streamNextIndex : after.incomingContractStreamNextIndex = ledger.incomingContractStreamNextIndex

section

variable {txid : TransactionId} {index : Nat} {funded : List (OutPoint × IncomingContract)}
  {claimed : List OutPoint}

theorem StreamTables.same (tables : StreamTables txid index ledger funded claimed)
    (same : SameStream ledger after) : StreamTables txid index after funded claimed where
  stream := by
    rw [same.incomingContractStream]
    exact tables.stream
  indexed := by
    rw [same.incomingContractStream, same.incomingContractIndex]
    exact tables.indexed
  held := by
    rw [same.incomingContractStream, same.incomingContract]
    exact tables.held
  next := by
    rw [same.streamNextIndex]
    exact tables.next
  distinct := tables.distinct
  known := by
    rw [same.acceptedTxid]
    exact tables.known
  claimed := tables.claimed

theorem StreamTables.position_unique (tables : StreamTables txid index ledger funded claimed)
    {first second : Nat} {outpoint : OutPoint} {one other : IncomingContract}
    (atFirst : ledger.incomingContractStream.get? first = some (outpoint, one))
    (atSecond : ledger.incomingContractStream.get? second = some (outpoint, other)) :
    first = second := by
  have left := ((tables.stream _ _).mp atFirst).1
  have right := ((tables.stream _ _).mp atSecond).1
  have inside : first < (funded.map Prod.fst).length := by
    rw [List.length_map]
    exact (List.getElem?_eq_some_iff.mp left).1
  apply (List.getElem?_inj inside tables.distinct).mp
  rw [List.getElem?_map, List.getElem?_map, left, right, Option.map_some, Option.map_some]

theorem StreamTables.index_exists (tables : StreamTables txid index ledger funded claimed)
    {outpoint : OutPoint} {contract : IncomingContract}
    (found : ledger.incomingContract.get? outpoint = some contract) :
    ∃ position, ledger.incomingContractIndex.get? outpoint = some position ∧
      ledger.incomingContractStream.get? position = some (outpoint, contract) := by
  obtain ⟨position, streamed⟩ := (tables.held _ _).mp found
  exact ⟨position, (tables.indexed _ _).mpr ⟨contract, streamed⟩, streamed⟩

/-! ### Claims -/

theorem StreamTables.claim (tables : StreamTables txid index ledger funded claimed)
    {outpoint : OutPoint} {contract : IncomingContract} {position : Nat}
    (streamed : ledger.incomingContractStream.get? position = some (outpoint, contract))
    (sameTxid : after.acceptedTxid = ledger.acceptedTxid)
    (contracts : after.incomingContract = ledger.incomingContract.erase outpoint)
    (indices : after.incomingContractIndex = ledger.incomingContractIndex.erase outpoint)
    (stream : after.incomingContractStream = ledger.incomingContractStream.erase position)
    (next : after.incomingContractStreamNextIndex = ledger.incomingContractStreamNextIndex) :
    StreamTables txid index after funded (claimed ++ [outpoint]) := by
  have others : ∀ other row, after.incomingContractStream.get? other = some row ↔
      ledger.incomingContractStream.get? other = some row ∧ row.1 ≠ outpoint := by
    intro other row
    rw [stream, SortedMap.get?_erase]
    by_cases same : position = other
    · rw [if_pos same]
      subst same
      constructor
      · intro found
        cases found
      · rintro ⟨found, different⟩
        cases streamed.symm.trans found
        exact absurd rfl different
    · rw [if_neg same]
      refine ⟨fun found => ⟨found, ?_⟩, And.left⟩
      intro sameOutpoint
      subst sameOutpoint
      exact same (tables.position_unique streamed found)
  refine ⟨?_, ?_, ?_, ?_, tables.distinct, ?_, ?_⟩
  · intro other row
    rw [others, tables.stream, List.mem_append, List.mem_singleton, not_or, and_assoc]
  · intro other found
    rw [indices, SortedMap.get?_erase]
    by_cases same : outpoint = other
    · subst same
      rw [if_pos rfl]
      constructor
      · intro impossible
        cases impossible
      · rintro ⟨_, kept⟩
        exact absurd rfl ((others _ _).mp kept).2
    · rw [if_neg same, tables.indexed]
      constructor
      · rintro ⟨held, atFound⟩
        exact ⟨held, (others _ _).mpr ⟨atFound, Ne.symm same⟩⟩
      · rintro ⟨held, kept⟩
        exact ⟨held, ((others _ _).mp kept).1⟩
  · intro other held
    rw [contracts, SortedMap.get?_erase]
    by_cases same : outpoint = other
    · subst same
      rw [if_pos rfl]
      constructor
      · intro impossible
        cases impossible
      · rintro ⟨_, kept⟩
        exact absurd rfl ((others _ _).mp kept).2
    · rw [if_neg same, tables.held]
      constructor
      · rintro ⟨found, atFound⟩
        exact ⟨found, (others _ _).mpr ⟨atFound, Ne.symm same⟩⟩
      · rintro ⟨found, kept⟩
        exact ⟨found, ((others _ _).mp kept).1⟩
  · rw [next]
    exact tables.next
  · rw [sameTxid]
    exact tables.known
  · intro other member
    rcases List.mem_append.mp member with before | here
    · exact tables.claimed other before
    · rw [List.mem_singleton.mp here]
      have inside := List.mem_of_getElem? ((tables.stream _ _).mp streamed).1
      exact List.mem_map.mpr ⟨_, inside, rfl⟩

theorem processInput_streamTables {input : Input} {result : Nat × XOnlyPublicKey}
    (processed : processInput mint ledger input = .ok (result, after))
    (tables : StreamTables txid index ledger funded claimed) :
    StreamTables txid index after funded (claimed ++ input.incomingContract.toList) := by
  obtain ⟨amount, pk⟩ := result
  cases input with
  | ecash input =>
      obtain ⟨_, _, _, _, same⟩ := Ecash.processInput_ok (mapError_eq_ok.mp processed)
      rw [show Input.incomingContract (.ecash input) = none from rfl, Option.toList_none,
        List.append_nil]
      exact tables.same (by subst same; constructor <;> rfl)
  | onchain input =>
      rw [show Input.incomingContract (.onchain input) = none from rfl, Option.toList_none,
        List.append_nil]
      obtain ⟨_, _, _, _, _, ⟨_, same⟩ | ⟨_, _, _, _, _, same⟩⟩ :=
        Onchain.processInput_ok (mapError_eq_ok.mp processed)
      · exact tables.same (by subst same; constructor <;> rfl)
      · exact tables.same (by subst same; constructor <;> rfl)
  | lightning input =>
      cases input with
      | outgoing outpoint witness =>
          obtain ⟨_, _, _, _, _, _, same⟩ :=
            Lightning.processInput_outgoing_ok (mapError_eq_ok.mp processed)
          rw [show Input.incomingContract (.lightning (.outgoing outpoint witness)) = none from rfl,
            Option.toList_none, List.append_nil]
          exact tables.same (by subst same; constructor <;> rfl)
      | incoming outpoint =>
          obtain ⟨contract, position, found, indexed, _, _, same⟩ :=
            Lightning.processInput_incoming_ok (mapError_eq_ok.mp processed)
          obtain ⟨other, atOther, streamed⟩ := tables.index_exists found
          cases indexed.symm.trans atOther
          exact tables.claim streamed (by rw [same]) (by rw [same]) (by rw [same]) (by rw [same])
            (by rw [same])

/-! ### Fundings -/

theorem StreamTables.unfunded (tables : StreamTables txid index ledger funded claimed)
    (fresh : ledger.acceptedTxid.contains txid = false) :
    ({ txid, outIdx := index } : OutPoint) ∉ funded.map Prod.fst := by
  intro member
  rcases tables.known _ member with accepted | ⟨_, below⟩
  · rw [fresh] at accepted
    cases accepted
  · exact absurd below (lt_irrefl index)

theorem StreamTables.fund (tables : StreamTables txid index ledger funded claimed)
    (fresh : ledger.acceptedTxid.contains txid = false) {contract : IncomingContract}
    (sameTxid : after.acceptedTxid = ledger.acceptedTxid)
    (contracts : after.incomingContract =
      ledger.incomingContract.insert { txid, outIdx := index } contract)
    (indices : after.incomingContractIndex =
      ledger.incomingContractIndex.insert { txid, outIdx := index } funded.length)
    (stream : after.incomingContractStream =
      ledger.incomingContractStream.insert funded.length ({ txid, outIdx := index }, contract))
    (next : after.incomingContractStreamNextIndex = some (funded.length + 1)) :
    StreamTables txid (index + 1) after (funded ++ [({ txid, outIdx := index }, contract)])
      claimed := by
  have unfunded := tables.unfunded fresh
  obtain ⟨outpoint, named⟩ : ∃ outpoint, outpoint = ({ txid, outIdx := index } : OutPoint) :=
    ⟨_, rfl⟩
  rw [← named] at contracts indices stream unfunded ⊢
  have unclaimed : outpoint ∉ claimed := fun member => unfunded (tables.claimed _ member)
  have beyond : ∀ row, ledger.incomingContractStream.get? funded.length ≠ some row := by
    intro row found
    have inside := ((tables.stream _ _).mp found).1
    rw [List.getElem?_eq_none le_rfl] at inside
    cases inside
  have absent : ∀ position held,
      ledger.incomingContractStream.get? position ≠ some (outpoint, held) := by
    intro position held found
    have inside := List.mem_of_getElem? ((tables.stream _ _).mp found).1
    exact unfunded (List.mem_map.mpr ⟨_, inside, rfl⟩)
  have rows : ∀ position row, after.incomingContractStream.get? position = some row ↔
      ledger.incomingContractStream.get? position = some row ∨
        (position = funded.length ∧ row = (outpoint, contract)) := by
    intro position row
    rw [stream, SortedMap.get?_insert]
    by_cases same : funded.length = position
    · subst same
      rw [if_pos rfl]
      simp only [beyond row, true_and, false_or, Option.some.injEq]
      exact eq_comm
    · rw [if_neg same]
      simp only [Ne.symm same, false_and, or_false]
  refine ⟨?_, ?_, ?_, ?_, ?_, ?_, ?_⟩
  · intro position row
    rw [rows, tables.stream]
    by_cases inside : position < funded.length
    · rw [List.getElem?_append_left inside]
      simp only [inside.ne, false_and, or_false]
    · rw [List.getElem?_eq_none (not_lt.mp inside), List.getElem?_append_right (not_lt.mp inside)]
      by_cases here : position = funded.length
      · subst here
        simp only [Nat.sub_self, List.getElem?_cons_zero, Option.some.injEq, reduceCtorEq,
          false_and, true_and, false_or]
        constructor
        · rintro rfl
          exact ⟨rfl, unclaimed⟩
        · exact fun both => both.1.symm
      · have past : (position - funded.length) ≠ 0 := by omega
        obtain ⟨rest, isRest⟩ := Nat.exists_eq_succ_of_ne_zero past
        rw [isRest]
        simp [here]
  · intro other position
    rw [indices, SortedMap.get?_insert]
    by_cases same : outpoint = other
    · subst same
      rw [if_pos rfl]
      constructor
      · intro here
        cases here
        exact ⟨contract, (rows _ _).mpr (Or.inr ⟨rfl, rfl⟩)⟩
      · rintro ⟨held, found⟩
        rcases (rows _ _).mp found with before | ⟨here, _⟩
        · exact absurd before (absent position held)
        · rw [here]
    · rw [if_neg same, tables.indexed]
      constructor
      · rintro ⟨held, found⟩
        exact ⟨held, (rows _ _).mpr (Or.inl found)⟩
      · rintro ⟨held, found⟩
        rcases (rows _ _).mp found with before | ⟨_, here⟩
        · exact ⟨held, before⟩
        · cases here
          exact absurd rfl same
  · intro other held
    rw [contracts, SortedMap.get?_insert]
    by_cases same : outpoint = other
    · subst same
      rw [if_pos rfl]
      constructor
      · intro here
        cases here
        exact ⟨_, (rows _ _).mpr (Or.inr ⟨rfl, rfl⟩)⟩
      · rintro ⟨position, found⟩
        rcases (rows _ _).mp found with before | ⟨_, here⟩
        · exact absurd before (absent position held)
        · cases here
          rfl
    · rw [if_neg same, tables.held]
      constructor
      · rintro ⟨position, found⟩
        exact ⟨position, (rows _ _).mpr (Or.inl found)⟩
      · rintro ⟨position, found⟩
        rcases (rows _ _).mp found with before | ⟨_, here⟩
        · exact ⟨position, before⟩
        · cases here
          exact absurd rfl same
  · rw [next, List.length_append, List.length_singleton, Option.getD_some]
  · rw [List.map_append, List.map_singleton, List.nodup_append']
    refine ⟨tables.distinct, List.nodup_singleton _, ?_⟩
    intro other member here
    rw [List.mem_singleton.mp here] at member
    exact unfunded member
  · intro other member
    rw [List.map_append, List.map_singleton, List.mem_append, List.mem_singleton] at member
    rw [sameTxid]
    rcases member with before | here
    · rcases tables.known other before with accepted | ⟨own, below⟩
      · exact Or.inl accepted
      · exact Or.inr ⟨own, below.trans (Nat.lt_succ_self index)⟩
    · change other = outpoint at here
      rw [here, named]
      exact Or.inr ⟨rfl, Nat.lt_succ_self index⟩
  · intro other member
    rw [List.map_append]
    exact List.mem_append_left _ (tables.claimed other member)

theorem StreamTables.succ (tables : StreamTables txid index ledger funded claimed) :
    StreamTables txid (index + 1) ledger funded claimed :=
  { tables with
    known := fun outpoint member => (tables.known outpoint member).imp id
      (fun own => ⟨own.1, own.2.trans (Nat.lt_succ_self index)⟩) }

theorem StreamTables.ofAccepted {other : TransactionId}
    (tables : StreamTables txid 0 ledger funded claimed) :
    StreamTables other index ledger funded claimed :=
  { tables with
    known := fun outpoint member =>
      Or.inl ((tables.known outpoint member).resolve_right (fun own => by omega)) }

theorem processOutput_streamTables {output : Output} {amount : Nat}
    (processed : processOutput server ledger { txid, outIdx := index } output =
      .ok (amount, after))
    (fresh : ledger.acceptedTxid.contains txid = false)
    (tables : StreamTables txid index ledger funded claimed) :
    StreamTables txid (index + 1) after (funded ++ incomingContracts txid [(output, index)])
        claimed ∧
      after.acceptedTxid = ledger.acceptedTxid := by
  cases output with
  | ecash request =>
      obtain ⟨_, ⟨_, _, same⟩, _⟩ := Ecash.processOutput_ok (mapError_eq_ok.mp processed)
      refine ⟨?_, by rw [same]⟩
      rw [show incomingContracts txid [(.ecash request, index)] = [] from rfl, List.append_nil]
      exact tables.succ.same (by subst same; constructor <;> rfl)
  | onchain output =>
      obtain ⟨_, _, _, _, _, _, _, same⟩ := Onchain.processOutput_ok (mapError_eq_ok.mp processed)
      refine ⟨?_, by rw [same]⟩
      rw [show incomingContracts txid [(.onchain output, index)] = [] from rfl, List.append_nil]
      exact tables.succ.same (by subst same; constructor <;> rfl)
  | lightning output =>
      cases output with
      | outgoing contract =>
          obtain ⟨_, _, same⟩ :=
            Lightning.processOutput_outgoing_ok (mapError_eq_ok.mp processed)
          refine ⟨?_, by rw [same]⟩
          rw [show incomingContracts txid [(.lightning (.outgoing contract), index)] = [] from rfl,
            List.append_nil]
          exact tables.succ.same (by subst same; constructor <;> rfl)
      | incoming contract =>
          obtain ⟨_, same⟩ := Lightning.processOutput_incoming_ok (mapError_eq_ok.mp processed)
          rw [tables.next] at same
          exact ⟨tables.fund fresh (by rw [same]) (by rw [same]) (by rw [same]) (by rw [same])
            (by rw [same]), by rw [same]⟩

/-! ### Transactions and histories -/

theorem InputsProcessed.streamTables {inputs : List Input}
    {results : List (Nat × XOnlyPublicKey)}
    (processed : InputsProcessed mint ledger inputs results after)
    (tables : StreamTables txid index ledger funded claimed) :
    StreamTables txid index after funded (claimed ++ inputs.filterMap Input.incomingContract) := by
  induction processed generalizing claimed with
  | nil =>
      rw [List.filterMap_nil, List.append_nil]
      exact tables
  | @cons ledger middle after input inputs result results first _ inductionHypothesis =>
      have rest := inductionHypothesis (processInput_streamTables first tables)
      cases named : input.incomingContract with
      | none =>
          rw [List.filterMap_cons_none named]
          rwa [named, Option.toList_none, List.append_nil] at rest
      | some outpoint =>
          rw [List.filterMap_cons_some named]
          rwa [named, Option.toList_some, List.append_assoc, List.singleton_append] at rest

theorem OutputsProcessed.streamTables {outputs : List Output} {amounts : List Nat}
    (processed : OutputsProcessed server txid ledger (outputs.zipIdx index) amounts after)
    (fresh : ledger.acceptedTxid.contains txid = false)
    (tables : StreamTables txid index ledger funded claimed) :
    StreamTables txid (index + outputs.length) after
        (funded ++ incomingContracts txid (outputs.zipIdx index)) claimed ∧
      after.acceptedTxid = ledger.acceptedTxid := by
  induction outputs generalizing ledger index funded amounts with
  | nil =>
      cases processed
      refine ⟨?_, rfl⟩
      rw [show incomingContracts txid (List.zipIdx ([] : List Output) index) = [] from rfl,
        List.append_nil]
      exact tables
  | cons output rest inductionHypothesis =>
      rw [List.zipIdx_cons] at processed
      cases processed with
      | cons first following =>
          obtain ⟨head, sameFirst⟩ := processOutput_streamTables first fresh tables
          obtain ⟨final, same⟩ := inductionHypothesis following (by rwa [sameFirst]) head
          refine ⟨?_, same.trans sameFirst⟩
          rw [List.length_cons, Nat.add_comm rest.length, ← Nat.add_assoc, List.zipIdx_cons]
          have split : incomingContracts txid ((output, index) :: rest.zipIdx (index + 1)) =
              incomingContracts txid [(output, index)] ++
                incomingContracts txid (rest.zipIdx (index + 1)) := by
            unfold incomingContracts
            rw [← List.filterMap_append, List.singleton_append]
          rwa [split, ← List.append_assoc]

theorem processTxItem_streamTables {tx : Transaction}
    (processed : processTxItem server ledger tx = .ok after)
    (tables : StreamTables 0 0 ledger funded claimed) :
    StreamTables 0 0 after
      (funded ++ incomingContracts (computeTxid server.toMintConfig tx) tx.outputs.zipIdx)
      (claimed ++ tx.inputs.filterMap Input.incomingContract) := by
  obtain ⟨fresh, judged, judgedTx, result⟩ := processTxItem_ok processed
  obtain ⟨results, middle, amounts, accepted⟩ := processTx_ok judgedTx
  have sameMiddle := accepted.inputs.acceptedTxid
  obtain ⟨final, _⟩ := accepted.outputs.streamTables (by rwa [sameMiddle])
    (accepted.inputs.streamTables tables).ofAccepted
  subst result
  exact
    { final with
      known := by
        intro outpoint member
        apply Or.inl
        apply (SortedMap.contains_insert _ _ _ _).mpr
        rcases final.known outpoint member with known | ⟨own, _⟩
        · exact Or.inr known
        · exact Or.inl own.symm }

end

/-- In every state of every run the stream is the list of the funded contracts
with holes where they were claimed. -/
theorem History.streamTables {items : List (NodeId × ConsensusItem curve)}
    {final : History curve} (ran : History.run server History.start items = some final) :
    StreamTables 0 0 final.ledger (final.fundedContracts server.toMintConfig)
      final.claimedContracts := by
  refine History.run_preserves (motive := fun history => StreamTables 0 0 history.ledger
    (history.fundedContracts server.toMintConfig) history.claimedContracts) ran ?_
    streamTables_empty
  rintro history next ⟨node, item⟩ stepped tables
  rcases History.step_cases stepped with same | ⟨tx, isTx, processed, extended⟩ |
    ⟨processed, notTx, extended⟩
  · exact same ▸ tables
  · have following := processTxItem_streamTables processed tables
    unfold History.fundedContracts History.claimedContracts History.spent at following ⊢
    rwa [extended, List.flatMap_append, List.flatMap_append, List.flatMap_singleton,
      List.flatMap_singleton]
  · have same := processConsensusItem_sameAccounts processed notTx
    have kept := tables.same ⟨same.acceptedTxid, same.incomingContract,
      same.incomingContractIndex, same.incomingContractStream, same.streamNextIndex⟩
    unfold History.fundedContracts History.claimedContracts History.spent at kept ⊢
    rwa [extended]

/-! ### The expect on a claim -/

theorem processTxItem_avoids {funded : List (OutPoint × IncomingContract)}
    {claimed : List OutPoint} (tables : StreamTables 0 0 ledger funded claimed)
    (tx : Transaction) : Avoids .contractIndex (processTxItem server ledger tx) := by
  refine processTxItem_avoids_of
    (fun ledger => ∃ claimed, StreamTables 0 0 ledger funded claimed) (fun _ => True)
    ⟨claimed, tables⟩ ?_ ?_ (fun _ _ => trivial) ?_ (fun _ _ _ _ _ _ _ _ => trivial)
  · rintro ledger input _ ⟨claimed, tables⟩
    have fee : Avoids .contractIndex
        (Onchain.receiveFee server.toMintConfig ledger : Outcome OnchainInputError _) :=
      consensusFee_avoids _ (by decide) (by decide) (by decide)
    refine processInput_avoids (by decide) (by decide) (fun _ _ => fee) ?_
    intro outpoint contract found
    obtain ⟨position, indexed, _⟩ := tables.index_exists found
    rw [indexed]
    exact pure_avoids _
  · rintro ledger input _ ⟨amount, key⟩ after ⟨claimed, tables⟩ processed
    exact ⟨_, processInput_streamTables processed tables⟩
  · intro ledger outpoint output _ _
    have fee : Avoids .contractIndex
        (Onchain.sendFee server.toMintConfig ledger : Outcome OnchainOutputError _) :=
      consensusFee_avoids _ (by decide) (by decide) (by decide)
    exact processOutput_avoids (by decide) (by decide) (fun _ _ => fee) outpoint

end Consensus

end Picomint
