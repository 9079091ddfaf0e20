/-
Clients that follow the stream of incoming contracts.

A client asks for the contracts from its cursor on and moves the cursor to the
answer's next index.  Polls and consensus items interleave freely; what a poll
does not return was claimed before it.
-/

import Picomint.Consensus.ContractStream

namespace Picomint.Consensus

open Tss

variable {curve : Curve} {server : Server curve} {mint : MintConfig curve}
  {ledger : Ledger curve}

/-! ### The endpoint -/

structure AwaitIncomingContractsRequest where
  start : Nat
  batch : Nat
deriving DecidableEq, Repr

structure AwaitIncomingContractsResponse where
  contracts : List (OutPoint × IncomingContract)
  nextIndex : Nat
deriving DecidableEq, Repr

namespace Lightning

/-- The counter once it is above the start; the request waits until then. -/
def streamBeyond (ledger : Ledger curve) (start : Nat) : Option Nat :=
  ledger.incomingContractStreamNextIndex.filter (fun index => start < index)

/-- The answer built from the scanned entries: the next index follows the last
entry, and is the counter when there is none. -/
def collectContracts (entries : List (Nat × OutPoint × IncomingContract)) (nextIndex : Nat) :
    AwaitIncomingContractsResponse :=
  entries.foldl
    (fun response entry =>
      { contracts := response.contracts ++ [entry.2]
        nextIndex := entry.1 + 1 })
    { contracts := []
      nextIndex }

/-- `none` while the request waits.  The scan ends at the top of the index type. -/
def awaitIncomingContracts (ledger : Ledger curve) (request : AwaitIncomingContractsRequest) :
    Option (Except String AwaitIncomingContractsResponse) :=
  if request.batch = 0 then some (.error "Batch size must be greater than 0")
  else
    (streamBeyond ledger request.start).map (fun nextIndex =>
      .ok (collectContracts (ledger.incomingContractStream.page request.start request.batch)
        nextIndex))

/-! ### What an answer holds -/

theorem collectContracts_eq (entries : List (Nat × OutPoint × IncomingContract))
    (nextIndex : Nat) :
    collectContracts entries nextIndex =
      { contracts := entries.map Prod.snd
        nextIndex := (entries.getLast?.map (fun entry => entry.1 + 1)).getD nextIndex } := by
  induction entries using List.reverseRecOn with
  | nil => rfl
  | append_singleton entries entry inductionHypothesis =>
      unfold collectContracts at inductionHypothesis ⊢
      rw [List.foldl_append, inductionHypothesis]
      simp

/-- An answer to a request that waited for the counter to pass its start. -/
theorem awaitIncomingContracts_ok {request : AwaitIncomingContractsRequest}
    {response : AwaitIncomingContractsResponse}
    (answered : awaitIncomingContracts ledger request = some (.ok response)) :
    0 < request.batch ∧ request.start < ledger.incomingContractStreamNextIndex.getD 0 ∧
      response.contracts =
        (ledger.incomingContractStream.page request.start request.batch).map Prod.snd ∧
      response.nextIndex =
        (((ledger.incomingContractStream.page request.start request.batch).getLast?.map
          (fun entry => entry.1 + 1)).getD (ledger.incomingContractStreamNextIndex.getD 0)) := by
  unfold awaitIncomingContracts at answered
  split at answered
  · cases answered
  · rename_i positive
    obtain ⟨nextIndex, beyond, result⟩ := Option.map_eq_some_iff.mp answered
    obtain ⟨counter, above⟩ := Option.filter_eq_some_iff.mp beyond
    cases result
    rw [collectContracts_eq, counter, Option.getD_some]
    exact ⟨Nat.pos_of_ne_zero positive, of_decide_eq_true above, rfl, rfl⟩

end Lightning

/-! ### Clients -/

/-- One answered poll: the state it was answered in, and where it started. -/
structure Poll (curve : Curve) where
  history : History curve
  request : AwaitIncomingContractsRequest
  response : AwaitIncomingContractsResponse

/-- A mint and a client that follows its stream. -/
structure Follower (curve : Curve) where
  history : History curve
  cursor : Nat
  polls : List (Poll curve)

inductive FollowerEvent (curve : Curve) where
  | item (node : NodeId) (item : ConsensusItem curve)
  | poll (batch : Nat)

namespace Follower

def start : Follower curve :=
  { history := History.start
    cursor := 0
    polls := [] }

/-- A poll that waits or is refused leaves the client where it is. -/
def step (server : Server curve) (follower : Follower curve) :
    FollowerEvent curve → Option (Follower curve)
  | .item node item =>
      (follower.history.step server (node, item)).map (fun history => { follower with history })
  | .poll batch =>
      match Lightning.awaitIncomingContracts follower.history.ledger
          { start := follower.cursor, batch } with
      | some (.ok response) =>
          some
            { follower with
              cursor := response.nextIndex
              polls := follower.polls ++
                [{ history := follower.history
                   request := { start := follower.cursor, batch }
                   response }] }
      | _ => some follower

def run (server : Server curve) (follower : Follower curve)
    (events : List (FollowerEvent curve)) : Option (Follower curve) :=
  events.foldlM (step server) follower

theorem step_poll {follower next : Follower curve} {batch : Nat}
    (stepped : follower.step server (.poll batch) = some next) :
    next = follower ∨ ∃ response,
      Lightning.awaitIncomingContracts follower.history.ledger
        { start := follower.cursor, batch } = some (.ok response) ∧
      next =
        { follower with
          cursor := response.nextIndex
          polls := follower.polls ++
            [{ history := follower.history
               request := { start := follower.cursor, batch }
               response }] } := by
  simp only [step] at stepped
  split at stepped
  · rename_i response answered
    exact Or.inr ⟨response, answered, (Option.some.inj stepped).symm⟩
  · exact Or.inl (Option.some.inj stepped).symm

/-- The contracts returned so far, in order. -/
def returned (follower : Follower curve) : List (OutPoint × IncomingContract) :=
  follower.polls.flatMap (fun poll => poll.response.contracts)

end Follower

/-! ### What holds in every run -/

/-- The three tables name the same contracts, the index and the stream are
inverse to each other, and the stream stays below its counter. -/
structure StreamConsistent (ledger : Ledger curve) : Prop where
  indexed : ∀ outpoint, ledger.incomingContract.contains outpoint = true ↔
    ledger.incomingContractIndex.contains outpoint = true
  streamed : ∀ outpoint contract, ledger.incomingContract.get? outpoint = some contract ↔
    (outpoint, contract) ∈ ledger.incomingContractStream.values
  inverse : ∀ outpoint position, ledger.incomingContractIndex.get? outpoint = some position ↔
    ∃ contract, ledger.incomingContractStream.get? position = some (outpoint, contract)
  below : ∀ position row, ledger.incomingContractStream.get? position = some row →
    position < ledger.incomingContractStreamNextIndex.getD 0

theorem StreamTables.consistent {txid : TransactionId} {index : Nat}
    {funded : List (OutPoint × IncomingContract)} {claimed : List OutPoint}
    (tables : StreamTables txid index ledger funded claimed) : StreamConsistent ledger where
  indexed := by
    intro outpoint
    rw [SortedMap.contains_iff, SortedMap.contains_iff]
    constructor
    · rintro ⟨contract, found⟩
      obtain ⟨position, indexed, _⟩ := tables.index_exists found
      exact ⟨position, indexed⟩
    · rintro ⟨position, indexed⟩
      obtain ⟨contract, streamed⟩ := (tables.indexed _ _).mp indexed
      exact ⟨contract, (tables.held _ _).mpr ⟨position, streamed⟩⟩
  streamed := by
    intro outpoint contract
    rw [SortedMap.mem_values]
    exact tables.held outpoint contract
  inverse := tables.indexed
  below := by
    intro position row streamed
    rw [tables.next]
    exact (List.getElem?_eq_some_iff.mp ((tables.stream _ _).mp streamed).1).1

/-- What the client saw: the returned contracts stand at ascending positions of
the list of all funded contracts, and a contract below the cursor was returned
or was claimed before the poll that passed it. -/
structure Followed (server : Server curve) (follower : Follower curve) : Prop where
  ordered : ∃ positions : List Nat, positions.Pairwise (· < ·) ∧
    (∀ position ∈ positions, position < follower.cursor) ∧
    List.Forall₂ (fun position row =>
      (follower.history.fundedContracts server.toMintConfig)[position]? = some row)
      positions follower.returned
  complete : ∀ position row,
    (follower.history.fundedContracts server.toMintConfig)[position]? = some row →
      position < follower.cursor → row ∈ follower.returned ∨
        ∃ poll ∈ follower.polls, poll.request.start ≤ position ∧
          position < poll.response.nextIndex ∧ row.1 ∈ poll.history.claimedContracts

theorem History.step_fundedContracts {history next : History curve}
    {entry : NodeId × ConsensusItem curve} (stepped : history.step server entry = some next) :
    history.fundedContracts mint <+: next.fundedContracts mint := by
  unfold History.fundedContracts
  rcases History.step_cases stepped with same | ⟨tx, _, _, extended⟩ | ⟨_, _, extended⟩
  · rw [same]
  · rw [extended, List.flatMap_append]
    exact List.prefix_append _ _
  · rw [extended]

theorem followed_item {follower next : Follower curve} {node : NodeId}
    {item : ConsensusItem curve} (stepped : follower.step server (.item node item) = some next)
    (bounded : follower.cursor ≤
      (follower.history.fundedContracts server.toMintConfig).length)
    (followed : Followed server follower) :
    next.cursor ≤ (next.history.fundedContracts server.toMintConfig).length ∧
      Followed server next := by
  obtain ⟨history, processed, result⟩ := Option.map_eq_some_iff.mp stepped
  obtain ⟨later, extended⟩ : follower.history.fundedContracts server.toMintConfig <+:
      history.fundedContracts server.toMintConfig := History.step_fundedContracts processed
  subst result
  have kept : ∀ position, position < follower.cursor →
      (history.fundedContracts server.toMintConfig)[position]? =
        (follower.history.fundedContracts server.toMintConfig)[position]? := by
    intro position below
    rw [← extended, List.getElem?_append_left (below.trans_le bounded)]
  refine ⟨?_, ?_, ?_⟩
  · change follower.cursor ≤ (history.fundedContracts server.toMintConfig).length
    rw [← extended, List.length_append]
    exact bounded.trans (Nat.le_add_right _ _)
  · obtain ⟨positions, ascending, below, rows⟩ := followed.ordered
    refine ⟨positions, ascending, below, ?_⟩
    have inside := (List.forall₂_and_left _ _).mpr ⟨below, rows⟩
    exact inside.imp (fun position row both => (kept position both.1).trans both.2)
  · intro position row found below
    exact followed.complete position row ((kept position below).symm.trans found) below

theorem followed_poll {follower : Follower curve} {batch : Nat}
    {response : AwaitIncomingContractsResponse}
    (tables : StreamTables 0 0 follower.history.ledger
      (follower.history.fundedContracts server.toMintConfig) follower.history.claimedContracts)
    (answered : Lightning.awaitIncomingContracts follower.history.ledger
      { start := follower.cursor, batch } = some (.ok response))
    (followed : Followed server follower) :
    response.nextIndex ≤ (follower.history.fundedContracts server.toMintConfig).length ∧
      Followed server
        { follower with
          cursor := response.nextIndex
          polls := follower.polls ++
            [{ history := follower.history
               request := { start := follower.cursor, batch }
               response }] } := by
  obtain ⟨positive, above, contracts, nextIndex⟩ := Lightning.awaitIncomingContracts_ok answered
  rw [tables.next] at above nextIndex
  change 0 < batch at positive
  change follower.cursor < _ at above
  obtain ⟨page, isPage⟩ : ∃ page,
      page = follower.history.ledger.incomingContractStream.page follower.cursor batch := ⟨_, rfl⟩
  change response.contracts = List.map Prod.snd
    (follower.history.ledger.incomingContractStream.page follower.cursor batch) at contracts
  change response.nextIndex = (Option.map _
    (follower.history.ledger.incomingContractStream.page follower.cursor batch).getLast?).getD _
      at nextIndex
  rw [← isPage] at contracts nextIndex
  -- every entry of the page stands at its position of the funded contracts
  have entries : ∀ entry ∈ page,
      (follower.history.fundedContracts server.toMintConfig)[entry.1]? = some entry.2 ∧
        follower.cursor ≤ entry.1 ∧ entry.1 < response.nextIndex := by
    intro entry member
    have atPage := SortedMap.mem_of_mem_page (isPage ▸ member)
    refine ⟨((tables.stream _ _).mp atPage.1).1, atPage.2, ?_⟩
    cases reached : page.getLast? with
    | none =>
        rw [List.getLast?_eq_none_iff.mp reached] at member
        cases member
    | some last =>
        have below := SortedMap.le_last_of_mem_page (isPage ▸ reached) (isPage ▸ member)
        rw [reached, Option.map_some, Option.getD_some] at nextIndex
        omega
  have advanced : follower.cursor < response.nextIndex ∧
      response.nextIndex ≤ (follower.history.fundedContracts server.toMintConfig).length := by
    cases reached : page.getLast? with
    | none =>
        rw [reached, Option.map_none, Option.getD_none] at nextIndex
        omega
    | some last =>
        obtain ⟨found, from_, below⟩ := entries last (List.mem_of_getLast? reached)
        rw [reached, Option.map_some, Option.getD_some] at nextIndex
        have inside := (List.getElem?_eq_some_iff.mp found).1
        omega
  have returned : ∀ row, row ∈ follower.returned ++ response.contracts ↔
      row ∈ follower.returned ∨ ∃ entry ∈ page, entry.2 = row := by
    intro row
    rw [List.mem_append, contracts, List.mem_map]
  have extended : ({ follower with
      cursor := response.nextIndex
      polls := follower.polls ++
        [{ history := follower.history
           request := { start := follower.cursor, batch }
           response }] } : Follower curve).returned = follower.returned ++ response.contracts := by
    unfold Follower.returned
    rw [List.flatMap_append, List.flatMap_singleton]
  refine ⟨advanced.2, ?_, ?_⟩
  · obtain ⟨positions, ascending, below, rows⟩ := followed.ordered
    refine ⟨positions ++ page.map Prod.fst, ?_, ?_, ?_⟩
    · refine List.pairwise_append.mpr ⟨ascending, ?_, ?_⟩
      · rw [isPage]
        exact List.pairwise_map.mpr (SortedMap.page_ascending _ _ _)
      · intro before member after laterMember
        obtain ⟨entry, inPage, same⟩ := List.mem_map.mp laterMember
        have passed := below before member
        have from_ := (entries entry inPage).2.1
        omega
    · intro position member
      rcases List.mem_append.mp member with before | here
      · exact (below position before).trans advanced.1
      · obtain ⟨entry, inPage, same⟩ := List.mem_map.mp here
        exact same ▸ (entries entry inPage).2.2
    · rw [extended, contracts]
      refine List.rel_append rows ?_
      rw [List.forall₂_map_left_iff, List.forall₂_map_right_iff, List.forall₂_same]
      exact fun entry member => (entries entry member).1
  · intro position row found below
    change position < response.nextIndex at below
    rw [extended]
    by_cases before : position < follower.cursor
    · rcases followed.complete position row found before with seen | ⟨poll, past, passed⟩
      · exact Or.inl (List.mem_append_left _ seen)
      · exact Or.inr ⟨poll, List.mem_append_left _ past, passed⟩
    · by_cases gone : row.1 ∈ follower.history.claimedContracts
      · exact Or.inr ⟨_, List.mem_append_right _ (List.mem_singleton.mpr rfl),
          not_lt.mp before, below, gone⟩
      · left
        have streamed := (tables.stream _ _).mpr ⟨found, gone⟩
        rw [returned]
        right
        cases reached : page.getLast? with
        | none =>
            have none := List.getLast?_eq_none_iff.mp reached
            exact absurd (SortedMap.page_eq_nil positive (isPage ▸ none) streamed) before
        | some last =>
            rw [reached, Option.map_some, Option.getD_some] at nextIndex
            have member := SortedMap.mem_page_of_le_last (isPage ▸ reached) streamed
              (not_lt.mp before) (by omega)
            exact ⟨_, isPage ▸ member, rfl⟩

theorem Follower.run_induction {motive : Follower curve → Prop}
    {events : List (FollowerEvent curve)} {follower final : Follower curve}
    (ran : Follower.run server follower events = some final)
    (step : ∀ (follower next : Follower curve) (event : FollowerEvent curve),
      follower.step server event = some next → motive follower → motive next)
    (holds : motive follower) : motive final := by
  induction events generalizing follower with
  | nil =>
      cases ran
      exact holds
  | cons event rest inductionHypothesis =>
      unfold Follower.run at ran
      rw [List.foldlM_cons, Option.bind_eq_bind, Option.bind_eq_some_iff] at ran
      obtain ⟨next, stepped, following⟩ := ran
      exact inductionHypothesis following (step _ _ _ stepped holds)

theorem Follower.step_reached {follower next : Follower curve} {event : FollowerEvent curve}
    (stepped : follower.step server event = some next)
    (reached : ∃ items, History.run server History.start items = some follower.history) :
    ∃ items, History.run server History.start items = some next.history := by
  obtain ⟨items, ran⟩ := reached
  cases event with
  | item node item =>
      obtain ⟨history, processed, result⟩ := Option.map_eq_some_iff.mp stepped
      subst result
      refine ⟨items ++ [(node, item)], ?_⟩
      rw [History.run_concat, ran, Option.bind_some]
      exact processed
  | poll batch =>
      rcases Follower.step_poll stepped with same | ⟨response, _, result⟩
      · exact ⟨items, same ▸ ran⟩
      · exact ⟨items, result ▸ ran⟩

/-- In every run of consensus items and polls the tables of the stream agree,
no claim fails its expect, and the polls return every contract once and in
order, but for those claimed before the poll that passed them. -/
theorem contract_stream_complete (server : Server curve) (events : List (FollowerEvent curve))
    (final : Follower curve) (ran : Follower.run server Follower.start events = some final) :
    StreamConsistent final.history.ledger ∧
      (∀ tx, Avoids .contractIndex (processTxItem server final.history.ledger tx)) ∧
      Followed server final := by
  have invariant : (∃ items, History.run server History.start items = some final.history) ∧
      final.cursor ≤ (final.history.fundedContracts server.toMintConfig).length ∧
      Followed server final := by
    refine Follower.run_induction (motive := fun follower =>
      (∃ items, History.run server History.start items = some follower.history) ∧
        follower.cursor ≤ (follower.history.fundedContracts server.toMintConfig).length ∧
        Followed server follower) ran ?_ ⟨⟨[], rfl⟩, le_refl 0, ?_⟩
    · rintro follower next event stepped ⟨reached, bounded, followed⟩
      refine ⟨Follower.step_reached stepped reached, ?_⟩
      cases event with
      | item node item => exact followed_item stepped bounded followed
      | poll batch =>
          obtain ⟨items, itemsRan⟩ := reached
          rcases Follower.step_poll stepped with same | ⟨response, answered, result⟩
          · exact same ▸ ⟨bounded, followed⟩
          · subst result
            exact followed_poll (History.streamTables itemsRan) answered followed
    · refine ⟨⟨[], List.Pairwise.nil, ?_, List.Forall₂.nil⟩, ?_⟩
      · intro position member
        cases member
      · intro position row _ below
        cases below
  obtain ⟨⟨items, itemsRan⟩, _, followed⟩ := invariant
  have tables := History.streamTables itemsRan
  exact ⟨tables.consistent, fun tx => processTxItem_avoids tables tx, followed⟩

/-! Two contracts are funded, the first is claimed, and the client polls. -/

def sampleFunding : Transaction :=
  { inputs := [.ecash { note := { denomination := 30, nonce := 1, signature := 0 } }]
    outputs :=
      [.lightning (.incoming { amount := 5000, fee := 0, claimPk := 1, ephemeralPk := 1 }),
        .lightning (.incoming { amount := 6000, fee := 0, claimPk := 2, ephemeralPk := 2 })]
    signatures := [0] }

def sampleClaimed : Transaction :=
  { inputs := [.lightning (.incoming { txid := 2002, outIdx := 0 })]
    outputs := [.ecash { denomination := 10, nonce := 2 }]
    signatures := [0] }

def samplePolls : List (FollowerEvent scalarCurve) :=
  [.item 0 (.tx sampleFunding), .poll 0, .item 1 (.tx sampleClaimed), .poll 1, .poll 1]

theorem contract_stream_complete_sample :
    ∃ final, Follower.run sampleServer Follower.start samplePolls = some final ∧
      final.cursor = 2 ∧ final.returned.length = 1 ∧ Followed sampleServer final := by
  have ran : (Follower.run sampleServer Follower.start samplePolls).map
      (fun follower => (follower.cursor, follower.returned.length)) = some (2, 1) := by
    decide +kernel
  obtain ⟨final, reached, counts⟩ := Option.map_eq_some_iff.mp ran
  exact ⟨final, reached, congrArg Prod.fst counts, congrArg Prod.snd counts,
    (contract_stream_complete sampleServer samplePolls final reached).2.2⟩

end Picomint.Consensus
