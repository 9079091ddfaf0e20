/-
The incoming contracts the gateway funds.

An incoming contract is registered under a payment hash the Lightning node has
never held, and funding it removes its row, so whichever way its invoice is
paid, and however often the daemon crashes, it is funded once.
-/

import Picomint.Gateway.EventLoop

namespace Picomint.Gateway

open Client

/-! ### What is funded -/

def ClientRecord.funding : ClientRecord → Option (OperationId × IncomingContract)
  | .receive operation contract => some (operation, contract)
  | _ => none

def fundings (log : List ClientRecord) : List (OperationId × IncomingContract) :=
  log.filterMap ClientRecord.funding

theorem fundings_append (left right : List ClientRecord) :
    fundings (left ++ right) = fundings left ++ fundings right :=
  List.filterMap_append

/-- What pays for a funding: the claim of an HTLC over its amount, or an
outgoing contract over its amount that was taken on for its payment hash. -/
def Backed (ctx : GatewayContext) (calls : List LdkCall) (log : List ClientRecord)
    (funding : OperationId × IncomingContract) : Prop :=
  .claimForHash funding.1 funding.2.amount (ctx.preimage funding.2) ∈ calls ∨
  ∃ contract outpoint, contract.paymentHash = funding.1 ∧ contract.amount = funding.2.amount ∧
    .send (ctx.contractId contract) outpoint contract.amount contract.fee ∈ log

theorem Backed.mono {ctx : GatewayContext} {calls calls' : List LdkCall}
    {log log' : List ClientRecord} {funding : OperationId × IncomingContract}
    (backed : Backed ctx calls log funding) (moreCalls : calls ⊆ calls') (more : log ⊆ log') :
    Backed ctx calls' log' funding := by
  rcases backed with claimed | ⟨contract, outpoint, hash, amount, taken⟩
  · exact Or.inl (moreCalls claimed)
  · exact Or.inr ⟨contract, outpoint, hash, amount, more taken⟩

theorem get?_foldl_erase {α β : Type*} (removed : List α) (key : α → Hash) {operation : Hash}
    {row : β} (table : SortedMap Hash β)
    (found : (removed.foldl (fun table entry => table.erase (key entry)) table).get? operation =
      some row) : table.get? operation = some row := by
  induction removed generalizing table with
  | nil => exact found
  | cons entry rest ih =>
      have later := ih (table.erase (key entry)) found
      rw [SortedMap.get?_erase] at later
      split at later
      · cases later
      · exact later

/-! ### What a step does to the incoming contracts -/

/-- A step leaves the incoming contracts, or drops some; or it registers one;
or it funds one, which is paid for. -/
inductive Incoming (ctx : GatewayContext) (system next : System) : Prop
  | kept (records : List ClientRecord) (log : next.db.log = system.db.log ++ records)
      (unfunded : fundings records = [])
      (rows : ∀ operation row, next.db.incomingContract.get? operation = some row →
        system.db.incomingContract.get? operation = some row)
  | registered (paymentHash : Hash) (row : IncomingContractRow)
      (unheld : system.ldk.payments.contains paymentHash = false)
      (held : next.ldk.payments.contains paymentHash = true)
      (hash : ctx.paymentHash row.contract = paymentHash) (log : next.db.log = system.db.log)
      (rows : next.db.incomingContract = system.db.incomingContract.insert paymentHash row)
  | funded (paymentHash : Hash) (row : IncomingContractRow) (records : List ClientRecord)
      (registered : system.db.incomingContract.get? paymentHash = some row)
      (log : next.db.log = system.db.log ++ records)
      (funding : fundings records = [(paymentHash, row.contract)])
      (rows : next.db.incomingContract = system.db.incomingContract.erase paymentHash)
      (backed : Backed ctx next.calls next.db.log (paymentHash, row.contract))

section Steps

variable {ctx : GatewayContext} {system next : System} {action : Action}

theorem Incoming.same (db : next.db = system.db) : Incoming ctx system next :=
  .kept [] (by rw [db, List.append_nil]) rfl (fun _ _ found => db ▸ found)

theorem commit_incoming {head : Head} {wallet : Wallet} {db : GatewayDb} {calls : List LdkCall}
    (handled : processLdkEvent ctx system.ldk wallet system.db head.event = .ok (db, calls)) :
    Incoming ctx system (system.commit head db calls) := by
  have marked : ∀ paymentHash, db = system.db.mark paymentHash →
      Incoming ctx system (system.commit head db calls) := by
    rintro paymentHash rfl
    exact .kept [] (List.append_nil _).symm rfl (fun _ _ found => found)
  have settled : ∀ {paymentHash : Hash} {success : Option (Nat × Nat)},
      settleOutgoing wallet system.db paymentHash success = .ok (db, calls) →
      Incoming ctx system (system.commit head db calls) := by
    intro paymentHash success done
    rcases (settleOutgoing_cases done).2 with ⟨_, rfl⟩ | ⟨_, _, isDb⟩ |
      ⟨_, operation, row, _, _, finalized⟩
    · exact .same rfl
    · exact marked paymentHash isDb
    · obtain ⟨_, rfl⟩ := gatewayFinalizeSend_eq_ok.mp finalized
      cases success with
      | none => exact .kept [.sendCancel operation row.contract] rfl rfl (fun _ _ found => found)
      | some outcome =>
          obtain ⟨preimage, lightningFee⟩ := outcome
          dsimp only
          by_cases claims : wallet.claims = true
          · rw [if_pos claims]
            exact .kept [.sendSuccess operation row.contract row.outpoint preimage lightningFee]
              rfl rfl (fun _ _ found => found)
          · exact marked paymentHash (if_neg claims)
  cases isEvent : head.event with
  | paymentClaimable paymentHash amountMsat =>
      rw [isEvent] at handled
      rcases handlePaymentClaimable_cases handled with
        ⟨_, rfl, _⟩ | ⟨_, isDb, _⟩ | ⟨_, row, registered, amount, rfl, rfl⟩
      · exact .same rfl
      · exact marked paymentHash isDb
      · refine .funded paymentHash row [.receive paymentHash row.contract] registered rfl rfl rfl ?_
        rw [← amount]
        exact Or.inl (List.mem_append_right _ List.mem_cons_self)
  | paymentSuccessful paymentHash preimage feePaidMsat =>
      rw [isEvent] at handled
      exact settled handled
  | paymentFailed paymentHash =>
      rw [isEvent] at handled
      exact settled handled

theorem Sent.incoming {wallet : Wallet} {answer : LdkAnswer} {payload : SendRequest}
    {db : GatewayDb} {ldk : Ldk}
    (sent : Sent ctx wallet answer system.db system.ldk payload db ldk) :
    Incoming ctx system { system with db := db, ldk := ldk } := by
  cases sent with
  | known => exact .same rfl
  | paid => exact .kept [_] rfl rfl (fun _ _ found => found)
  | refused => exact .kept [_, _] (List.append_assoc _ _ _) rfl (fun _ _ found => found)
  | cancelled => exact .kept [_, _] (List.append_assoc _ _ _) rfl (fun _ _ found => found)
  | @swapped fresh row registered amount =>
      -- the outgoing contract taken on by this request pays
      have backed : ∀ {log : List ClientRecord}, ClientRecord.send (ctx.contractId payload.contract)
          payload.outpoint payload.contract.amount payload.contract.fee ∈ log →
          Backed ctx system.calls log (payload.contract.paymentHash, row.contract) :=
        fun taken => Or.inr ⟨payload.contract, payload.outpoint, rfl, amount.symm, taken⟩
      by_cases claims : wallet.claims = true
      · rw [if_pos claims]
        refine .funded _ row [_, _, _] registered
          ((List.append_assoc _ _ _).trans (List.append_assoc _ _ _)) ?_ rfl (backed ?_)
        · rfl
        · exact List.mem_append_left _ (List.mem_append_left _
            (List.mem_append_right _ List.mem_cons_self))
      · rw [if_neg claims]
        refine .funded _ row [_, _] registered (List.append_assoc _ _ _) ?_ rfl (backed ?_)
        · rfl
        · exact List.mem_append_left _ (List.mem_append_right _ List.mem_cons_self)

theorem Step.incoming (step : Step ctx system action next) : Incoming ctx system next := by
  cases step with
  | next idle event => exact .same rfl
  | commit working wallet handled => exact commit_incoming handled
  | lose working wallet handled => exact .same rfl
  | mark working committed => exact .same rfl
  | send wallet answer payload held sent => exact (send_cases sent).2.incoming
  | loseSend wallet answer payload held sent => exact .same rfl
  | receive payload invoice received =>
      obtain ⟨_, _, _, unheld, rfl, invoice, rfl⟩ := receive_cases received
      refine .registered _ _ unheld ?_ rfl rfl rfl
      exact (SortedMap.contains_insert _ _ _ _).mpr (Or.inl rfl)
  | loseReceive payload invoice received => exact .same rfl
  | addMint mint => exact .kept [] (List.append_nil _).symm rfl (fun _ _ found => found)
  | removeMint mint =>
      exact .kept [] (List.append_nil _).symm rfl
        (fun _ _ found => get?_foldl_erase _ _ _ found)
  | node paymentHash payment => exact .same rfl

theorem Ldk.send_contains {ldk : Ldk} (paymentHash : Hash) (answer : LdkAnswer) {other : Hash}
    (held : ldk.payments.contains other = true) :
    (ldk.send paymentHash answer).payments.contains other = true := by
  cases answer with
  | accepted => exact (SortedMap.contains_insert _ _ _ _).mpr (Or.inr held)
  | refused recorded =>
      cases recorded with
      | true => exact (SortedMap.contains_insert _ _ _ _).mpr (Or.inr held)
      | false => exact held

/-- The node never forgets a payment. -/
theorem Step.held (step : Step ctx system action next) {paymentHash : Hash}
    (held : system.ldk.payments.contains paymentHash = true) :
    next.ldk.payments.contains paymentHash = true := by
  have asked : ∀ {wallet : Wallet} {answer : LdkAnswer} {payload : SendRequest} {db : GatewayDb}
      {ldk : Ldk}, Sent ctx wallet answer system.db system.ldk payload db ldk →
      ldk.payments.contains paymentHash = true := by
    intro wallet answer payload db ldk sent
    cases sent with
    | known => exact held
    | paid => exact Ldk.send_contains _ _ held
    | refused => exact Ldk.send_contains _ _ held
    | cancelled => exact held
    | swapped => exact held
  cases step with
  | next idle event => exact held
  | commit working wallet handled => exact held
  | lose working wallet handled => exact held
  | mark working committed => exact held
  | send wallet answer payload held sent => exact asked (send_cases sent).2
  | loseSend wallet answer payload held sent => exact asked (send_cases sent).2
  | receive payload invoice received =>
      obtain ⟨_, _, _, _, rfl, _⟩ := receive_cases received
      exact (SortedMap.contains_insert _ _ _ _).mpr (Or.inr held)
  | loseReceive payload invoice received =>
      obtain ⟨_, _, _, _, rfl, _⟩ := receive_cases received
      exact (SortedMap.contains_insert _ _ _ _).mpr (Or.inr held)
  | addMint mint => exact held
  | removeMint mint => exact held
  | node other payment => exact (SortedMap.contains_insert _ _ _ _).mpr (Or.inr held)

/-- Nothing the node was asked for is taken back. -/
theorem Step.calls_subset (step : Step ctx system action next) : system.calls ⊆ next.calls := by
  cases step with
  | commit working wallet handled => exact List.subset_append_left _ _
  | lose working wallet handled => exact List.subset_append_left _ _
  | next idle event => exact List.Subset.refl _
  | mark working committed => exact List.Subset.refl _
  | send wallet answer payload held sent => exact List.Subset.refl _
  | loseSend wallet answer payload held sent => exact List.Subset.refl _
  | receive payload invoice received => exact List.Subset.refl _
  | loseReceive payload invoice received => exact List.Subset.refl _
  | addMint mint => exact List.Subset.refl _
  | removeMint mint => exact List.Subset.refl _
  | node paymentHash payment => exact List.Subset.refl _

end Steps

/-! ### Over a run -/

/-- A row is that of a contract the node holds the hash of, and is not funded;
what is funded was funded once and paid for. -/
structure Funding (ctx : GatewayContext) (system : System) : Prop where
  rows : ∀ operation row, system.db.incomingContract.get? operation = some row →
    ctx.paymentHash row.contract = operation ∧ system.ldk.payments.contains operation = true ∧
      operation ∉ (fundings system.db.log).map Prod.fst
  once : ((fundings system.db.log).map Prod.fst).Nodup
  funded : ∀ funding ∈ fundings system.db.log, ctx.paymentHash funding.2 = funding.1 ∧
    system.ldk.payments.contains funding.1 = true ∧ Backed ctx system.calls system.db.log funding

theorem Funding.start (ctx : GatewayContext) : Funding ctx System.start := by
  refine ⟨?_, List.nodup_nil, ?_⟩
  · intro operation row impossible
    cases impossible
  · intro funding impossible
    cases impossible

theorem Funding.step {ctx : GatewayContext} {system next : System} {action : Action}
    (funding : Funding ctx system) (step : Step ctx system action next) : Funding ctx next := by
  cases step.incoming with
  | kept records log unfunded rows =>
      have same : fundings next.db.log = fundings system.db.log := by
        rw [log, fundings_append, unfunded, List.append_nil]
      refine ⟨?_, same ▸ funding.once, ?_⟩
      · intro operation row found
        obtain ⟨hash, held, open'⟩ := funding.rows operation row (rows operation row found)
        exact ⟨hash, step.held held, same ▸ open'⟩
      · intro entry member
        obtain ⟨hash, held, backed⟩ := funding.funded entry (same ▸ member)
        refine ⟨hash, step.held held, backed.mono step.calls_subset ?_⟩
        rw [log]
        exact List.subset_append_left _ _
  | registered paymentHash row unheld held hash log rows =>
      -- the node has never held the hash, so nothing was funded under it
      have unfunded : paymentHash ∉ (fundings system.db.log).map Prod.fst := by
        intro member
        obtain ⟨entry, isFunded, same⟩ := List.mem_map.mp member
        have known := (funding.funded entry isFunded).2.1
        rw [same, unheld] at known
        cases known
      refine ⟨?_, log ▸ funding.once, ?_⟩
      · intro operation other found
        rw [rows, SortedMap.get?_insert] at found
        rw [log]
        split at found
        · rename_i same
          cases found
          exact ⟨hash.trans same, same ▸ held, same ▸ unfunded⟩
        · obtain ⟨hash, held, open'⟩ := funding.rows operation other found
          exact ⟨hash, step.held held, open'⟩
      · intro entry member
        rw [log] at member ⊢
        obtain ⟨hash, held, backed⟩ := funding.funded entry member
        exact ⟨hash, step.held held, backed.mono step.calls_subset (List.Subset.refl _)⟩
  | funded paymentHash row records registered log isFunding rows backed =>
      obtain ⟨hash, held, open'⟩ := funding.rows paymentHash row registered
      have grown : fundings next.db.log =
          fundings system.db.log ++ [(paymentHash, row.contract)] := by
        rw [log, fundings_append, isFunding]
      refine ⟨?_, ?_, ?_⟩
      · intro operation other found
        rw [rows, SortedMap.get?_erase] at found
        split at found
        · cases found
        · rename_i different
          obtain ⟨hash, held, open'⟩ := funding.rows operation other found
          refine ⟨hash, step.held held, ?_⟩
          rw [grown, List.map_append, List.mem_append]
          rintro (before | now)
          · exact open' before
          · exact different (List.mem_singleton.mp now).symm
      · rw [grown, List.map_append]
        exact funding.once.append (List.nodup_singleton _)
          (List.disjoint_singleton.mpr open')
      · intro entry member
        rw [grown] at member
        rcases List.mem_append.mp member with before | now
        · obtain ⟨hash, held, backed⟩ := funding.funded entry before
          refine ⟨hash, step.held held, backed.mono step.calls_subset ?_⟩
          rw [log]
          exact List.subset_append_left _ _
        · cases List.mem_singleton.mp now
          exact ⟨hash, step.held held, backed⟩

theorem funding_of_reachable {ctx : GatewayContext} {allowed : System → Action → Prop}
    {system : System} (reached : Reachable ctx allowed system) : Funding ctx system :=
  reached.induction (Funding.start ctx) fun funding _ step => funding.step step

/-- However events are repeated, requests made, mints removed and the daemon
crashes: no incoming contract is funded twice. -/
theorem incoming_funded_once {ctx : GatewayContext} {system : System}
    (reached : Reachable ctx anything system) :
    ((fundings system.db.log).map Prod.fst).Nodup :=
  (funding_of_reachable reached).once

/-! The contract over 1000 msat, funded for an HTLC over its amount. -/

def sampleClaimed : System :=
  (sampleRegistered.arrive (.paymentClaimable 8 1000)).commit
    ⟨.paymentClaimable 8 1000, [], 0, false, false⟩
    { (sampleRegistered.db.mark 8).record (.receive 8 sampleIncoming) with
      incomingContract := SortedMap.empty }
    [.claimForHash 8 1000 7]

theorem sampleClaimed_reachable : Reachable sampleGateway anything sampleClaimed :=
  (sampleRegistered_reachable.step trivial (.next rfl (.paymentClaimable 8 1000))).step trivial
    (.commit rfl sampleWallet rfl)

theorem incoming_funded_once_sample :
    ((fundings sampleClaimed.db.log).map Prod.fst).Nodup ∧
      (fundings sampleClaimed.db.log).map Prod.fst = [8] :=
  ⟨incoming_funded_once sampleClaimed_reachable, rfl⟩

/-- A funded incoming contract is the one of its payment hash, and was paid
for: the node was asked to claim an HTLC over its amount with its preimage, or
an outgoing contract over its amount was taken on for its payment hash. -/
theorem incoming_funding_backed {ctx : GatewayContext} {system : System}
    (reached : Reachable ctx anything system) {paymentHash : Hash} {contract : IncomingContract}
    (funded : .receive paymentHash contract ∈ system.db.log) :
    ctx.paymentHash contract = paymentHash ∧
      (.claimForHash paymentHash contract.amount (ctx.preimage contract) ∈ system.calls ∨
      ∃ outgoing outpoint, outgoing.paymentHash = paymentHash ∧
        outgoing.amount = contract.amount ∧
        .send (ctx.contractId outgoing) outpoint outgoing.amount outgoing.fee ∈ system.db.log) := by
  obtain ⟨hash, _, backed⟩ := (funding_of_reachable reached).funded (paymentHash, contract)
    (List.mem_filterMap.mpr ⟨_, funded, rfl⟩)
  exact ⟨hash, backed⟩

theorem incoming_funding_backed_sample : sampleGateway.paymentHash sampleIncoming = 8 ∧
    (.claimForHash 8 1000 7 ∈ sampleClaimed.calls ∨
    ∃ outgoing outpoint, outgoing.paymentHash = 8 ∧ outgoing.amount = 1000 ∧
      .send (sampleGateway.contractId outgoing) outpoint outgoing.amount outgoing.fee ∈
        sampleClaimed.db.log) :=
  incoming_funding_backed sampleClaimed_reachable (by decide)

end Picomint.Gateway
