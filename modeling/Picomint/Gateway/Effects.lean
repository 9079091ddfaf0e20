/-
What the handlers and the requests of the gateway daemon do.

One lemma says everything an event or a request can change; the invariants of
the daemon follow from these.
-/

import Picomint.Gateway.Daemon

namespace Picomint.Gateway

open Client

/-! ### Events -/

section Handlers

variable {ctx : GatewayContext} {ldk : Ldk} {wallet : Wallet} {db db' : GatewayDb}
  {calls : List LdkCall}

theorem gatewayStartReceive_eq_ok {funds : Bool} {mint : MintId} {operation : OperationId}
    {contract : IncomingContract} :
    gatewayStartReceive db funds mint operation contract = .ok db' ↔
      mint ∈ db.mints ∧ contract.claimAmount ≠ none ∧ funds = true ∧
        db' = db.record (.receive operation contract) := by
  unfold gatewayStartReceive
  by_cases added : mint ∈ db.mints
  · rw [if_pos added]
    cases contract.claimAmount with
    | none => simp
    | some _ =>
        cases funds with
        | false => simp
        | true => simp [added, eq_comm]
  · rw [if_neg added]
    simp [added]

theorem gatewayFinalizeSend_eq_ok {claims : Bool} {mint : MintId} {operation : OperationId}
    {contract : OutgoingContract} {outpoint : OutPoint} {success : Option (Nat × Nat)} :
    gatewayFinalizeSend db claims mint operation contract outpoint success = .ok db' ↔
      mint ∈ db.mints ∧ db' = match success with
        | some (preimage, lightningFee) => if claims then
            db.record (.sendSuccess operation contract outpoint preimage lightningFee) else db
        | none => db.record (.sendCancel operation contract) := by
  unfold gatewayFinalizeSend
  by_cases added : mint ∈ db.mints
  · rw [if_pos added]
    cases success with
    | none => simp [added, eq_comm]
    | some settled =>
        cases claims with
        | false => simp [added, eq_comm]
        | true => simp [added, eq_comm]
  · rw [if_neg added]
    simp [added]

theorem failForHash_eq_ok {paymentHash : Hash} :
    failForHash ldk db paymentHash = .ok (db', calls) ↔
      ldk.payments.contains paymentHash = true ∧ db' = db ∧ calls = [.failForHash paymentHash] := by
  unfold failForHash
  simp only [attempt_bind_eq_ok, demand_eq_ok, SortedMap.contains_iff]
  constructor
  · rintro ⟨payment, found, same⟩
    cases same
    exact ⟨⟨payment, found⟩, rfl, rfl⟩
  · rintro ⟨⟨payment, found⟩, rfl, rfl⟩
    exact ⟨payment, found, rfl⟩

def GatewayDb.mark (db : GatewayDb) (paymentHash : Hash) : GatewayDb :=
  { db with ldkEventPaymentHash := db.ldkEventPaymentHash.insert paymentHash () }

/-- An inbound HTLC of a payment hash that has its mark is passed over; any
other is failed, or claimed with the contract of its row funded. -/
theorem handlePaymentClaimable_cases {paymentHash : Hash} {amountMsat : Nat}
    (handled : handlePaymentClaimable ctx ldk wallet db paymentHash amountMsat = .ok (db', calls)) :
    (db.ldkEventPaymentHash.contains paymentHash = true ∧ db' = db ∧ calls = []) ∨
    (db.ldkEventPaymentHash.contains paymentHash = false ∧ db' = db.mark paymentHash ∧
      calls = [.failForHash paymentHash]) ∨
    (db.ldkEventPaymentHash.contains paymentHash = false ∧ ∃ row,
      db.incomingContract.get? paymentHash = some row ∧ row.contract.amount = amountMsat ∧
      db' = { (db.mark paymentHash).record (.receive paymentHash row.contract) with
        incomingContract := db.incomingContract.erase paymentHash } ∧
      calls = [.claimForHash paymentHash amountMsat (ctx.preimage row.contract)]) := by
  unfold handlePaymentClaimable at handled
  by_cases marked : db.ldkEventPaymentHash.contains paymentHash = true
  · rw [if_pos marked] at handled
    cases handled
    exact Or.inl ⟨marked, rfl, rfl⟩
  · have fresh := Bool.not_eq_true _ ▸ marked
    rw [if_neg marked] at handled
    simp only at handled
    refine Or.inr ?_
    split at handled
    · obtain ⟨_, rfl, rfl⟩ := failForHash_eq_ok.mp handled
      exact Or.inl ⟨fresh, rfl, rfl⟩
    · rename_i row found
      split at handled
      · obtain ⟨_, rfl, rfl⟩ := failForHash_eq_ok.mp handled
        exact Or.inl ⟨fresh, rfl, rfl⟩
      · rename_i amount
        split at handled
        · cases handled
        · obtain ⟨_, rfl, rfl⟩ := failForHash_eq_ok.mp handled
          exact Or.inl ⟨fresh, rfl, rfl⟩
        · rename_i funded started
          obtain ⟨_, _, _, rfl⟩ := gatewayStartReceive_eq_ok.mp started
          cases handled
          exact Or.inr ⟨fresh, row, found, not_not.mp amount, rfl, rfl⟩

/-- A settled payment of a payment hash that has its mark is passed over; any
other settles the contract of its attempt, if there is one. -/
theorem settleOutgoing_cases {paymentHash : Hash} {success : Option (Nat × Nat)}
    (handled : settleOutgoing wallet db paymentHash success = .ok (db', calls)) :
    calls = [] ∧
    ((db.ldkEventPaymentHash.contains paymentHash = true ∧ db' = db) ∨
    (db.ldkEventPaymentHash.contains paymentHash = false ∧ db.outgoing paymentHash = none ∧
      db' = db.mark paymentHash) ∨
    (db.ldkEventPaymentHash.contains paymentHash = false ∧ ∃ operation row,
      db.outgoing paymentHash = some (operation, row) ∧ row.mint ∈ db.mints ∧
      gatewayFinalizeSend (db.mark paymentHash) wallet.claims row.mint operation row.contract
        row.outpoint success = .ok db')) := by
  unfold settleOutgoing at handled
  by_cases marked : db.ldkEventPaymentHash.contains paymentHash = true
  · rw [if_pos marked] at handled
    cases handled
    exact ⟨rfl, Or.inl ⟨marked, rfl⟩⟩
  · have fresh := Bool.not_eq_true _ ▸ marked
    rw [if_neg marked] at handled
    simp only at handled
    split at handled
    · rename_i absent
      cases handled
      exact ⟨rfl, Or.inr (Or.inl ⟨fresh, absent, rfl⟩)⟩
    · rename_i operation row found
      split at handled
      · cases handled
      · rename_i settled finalized
        cases handled
        exact ⟨rfl, Or.inr (Or.inr ⟨fresh, operation, row, found,
          (gatewayFinalizeSend_eq_ok.mp finalized).1, finalized⟩)⟩

theorem gatewayFinalizeSend_marks {claims : Bool} {mint : MintId} {operation : OperationId}
    {contract : OutgoingContract} {outpoint : OutPoint} {success : Option (Nat × Nat)}
    (finalized : gatewayFinalizeSend db claims mint operation contract outpoint success = .ok db') :
    db'.ldkEventPaymentHash = db.ldkEventPaymentHash := by
  obtain ⟨_, rfl⟩ := gatewayFinalizeSend_eq_ok.mp finalized
  cases success with
  | none => rfl
  | some settled =>
      cases claims with
      | false => rfl
      | true => rfl

end Handlers

/-! ### Requests -/

def GatewayDb.take (db : GatewayDb) (operation : OperationId) (payload : SendRequest) : GatewayDb :=
  GatewayDb.record { db with
    outgoingContract := db.outgoingContract.insert operation
      { mint := payload.mint
        contract := payload.contract
        outpoint := payload.outpoint
        invoice := payload.invoice } }
    (.send operation payload.outpoint payload.contract.amount payload.contract.fee)

def GatewayDb.attempt (db : GatewayDb) (paymentHash : Hash) (operation : OperationId) : GatewayDb :=
  { db with paymentHash := db.paymentHash.insert paymentHash operation }

def GatewayDb.fund (db : GatewayDb) (paymentHash : Hash) (contract : IncomingContract) :
    GatewayDb :=
  { db.record (.receive paymentHash contract) with
    incomingContract := db.incomingContract.erase paymentHash }

/-- Everything a send that is answered can do to the database and the node. -/
inductive Sent (ctx : GatewayContext) (wallet : Wallet) (answer : LdkAnswer) (db : GatewayDb)
    (ldk : Ldk) (payload : SendRequest) : GatewayDb → Ldk → Prop
  /-- The contract was taken on before. -/
  | known (taken : db.outgoingContract.contains (ctx.contractId payload.contract) = true) :
      Sent ctx wallet answer db ldk payload db ldk
  /-- The node takes the payment on. -/
  | paid (fresh : db.outgoingContract.contains (ctx.contractId payload.contract) = false)
      (unattempted : db.paymentHash.contains payload.contract.paymentHash = false)
      (unheld : ldk.payments.contains payload.contract.paymentHash = false)
      (accepted : answer = .accepted) :
      Sent ctx wallet answer db ldk payload
        ((db.take (ctx.contractId payload.contract) payload).attempt payload.contract.paymentHash
          (ctx.contractId payload.contract))
        (ldk.send payload.contract.paymentHash .accepted)
  /-- The node is asked and refuses the payment, and the contract is forfeited. -/
  | refused (fresh : db.outgoingContract.contains (ctx.contractId payload.contract) = false)
      (unattempted : db.paymentHash.contains payload.contract.paymentHash = false)
      (unheld : ldk.payments.contains payload.contract.paymentHash = false) (recorded : Bool) :
      Sent ctx wallet answer db ldk payload
        (((db.take (ctx.contractId payload.contract) payload).attempt payload.contract.paymentHash
          (ctx.contractId payload.contract)).record
            (.sendCancel (ctx.contractId payload.contract) payload.contract))
        (ldk.send payload.contract.paymentHash (.refused recorded))
  /-- The contract is forfeited without the node being asked. -/
  | cancelled (fresh : db.outgoingContract.contains (ctx.contractId payload.contract) = false) :
      Sent ctx wallet answer db ldk payload
        ((db.take (ctx.contractId payload.contract) payload).record
          (.sendCancel (ctx.contractId payload.contract) payload.contract)) ldk
  /-- The incoming contract of the invoice is funded, and the send claimed. -/
  | swapped (fresh : db.outgoingContract.contains (ctx.contractId payload.contract) = false)
      {row : IncomingContractRow}
      (registered : db.incomingContract.get? payload.contract.paymentHash = some row)
      (amount : row.contract.amount = payload.contract.amount) :
      Sent ctx wallet answer db ldk payload
        (if wallet.claims then
          ((db.take (ctx.contractId payload.contract) payload).fund payload.contract.paymentHash
            row.contract).record (.sendSuccess (ctx.contractId payload.contract) payload.contract
              payload.outpoint (ctx.preimage row.contract) 0)
        else (db.take (ctx.contractId payload.contract) payload).fund payload.contract.paymentHash
          row.contract) ldk

section Requests

variable {ctx : GatewayContext} {ldk ldk' : Ldk} {wallet : Wallet} {answer : LdkAnswer}
  {db db' : GatewayDb} {payload : SendRequest} {operation : OperationId}

theorem startLightning_cases (answer : LdkAnswer) (db : GatewayDb) (ldk : Ldk)
    (payload : SendRequest) (operation : OperationId) :
    (∃ error, startLightning answer db ldk payload operation = ⟨db, ldk, some error⟩) ∨
    (db.paymentHash.contains payload.contract.paymentHash = false ∧
      ldk.payments.contains payload.contract.paymentHash = false ∧
      startLightning answer db ldk payload operation =
        ⟨db.attempt payload.contract.paymentHash operation,
          ldk.send payload.contract.paymentHash answer,
          if answer = .accepted then none else some .ldkRefused⟩) := by
  unfold startLightning
  by_cases attempted : db.paymentHash.contains payload.contract.paymentHash = true
  · rw [if_pos attempted]
    exact Or.inl ⟨_, rfl⟩
  · by_cases held : ldk.payments.contains payload.contract.paymentHash = true
    · rw [if_neg attempted, if_pos held]
      exact Or.inl ⟨_, rfl⟩
    · rw [if_neg attempted, if_neg held]
      exact Or.inr ⟨Bool.not_eq_true _ ▸ attempted, Bool.not_eq_true _ ▸ held, rfl⟩

theorem startSwap_cases {amount : Nat} {started : Started}
    (swapped : startSwap ctx wallet db ldk payload operation amount = .ok started) :
    (∃ error, started = ⟨db, ldk, some error⟩) ∨
    ∃ row, db.incomingContract.get? payload.contract.paymentHash = some row ∧
      row.contract.amount = amount ∧ started =
        ⟨if wallet.claims then (db.fund payload.contract.paymentHash row.contract).record
            (.sendSuccess operation payload.contract payload.outpoint (ctx.preimage row.contract) 0)
          else db.fund payload.contract.paymentHash row.contract, ldk, none⟩ := by
  unfold startSwap at swapped
  simp only at swapped
  split at swapped
  · cases swapped
    exact Or.inl ⟨_, rfl⟩
  · rename_i row registered
    split at swapped
    · cases swapped
      exact Or.inl ⟨_, rfl⟩
    · rename_i isAmount
      split at swapped
      · cases swapped
      · cases swapped
        exact Or.inl ⟨_, rfl⟩
      · rename_i funded isFunded
        obtain ⟨_, _, _, rfl⟩ := gatewayStartReceive_eq_ok.mp isFunded
        obtain ⟨settled, finalized, same⟩ := attempt_bind_eq_ok.mp swapped
        obtain ⟨_, rfl⟩ := gatewayFinalizeSend_eq_ok.mp finalized
        cases same
        exact Or.inr ⟨row, registered, not_not.mp isAmount, rfl⟩

theorem startPayment_cases {started : Started}
    (start : startPayment ctx wallet answer db ldk payload operation = .ok started) :
    (∃ error, started = ⟨db, ldk, some error⟩) ∨
    started = startLightning answer db ldk payload operation ∨
    startSwap ctx wallet db ldk payload operation payload.contract.amount = .ok started := by
  unfold startPayment at start
  split at start
  · cases start
    exact Or.inl ⟨_, rfl⟩
  · split at start
    · cases start
      exact Or.inl ⟨_, rfl⟩
    · rename_i amount _
      split at start
      · cases start
        exact Or.inl ⟨_, rfl⟩
      · split at start
        · cases start
          exact Or.inl ⟨_, rfl⟩
        · rename_i isAmount
          split at start
          · cases start
            exact Or.inl ⟨_, rfl⟩
          · split at start
            · cases start
              exact Or.inr (Or.inl rfl)
            · rw [← not_not.mp isAmount] at start
              exact Or.inr (Or.inr start)

theorem send_cases {held : Option Hash}
    (sent : send ctx wallet answer db ldk payload held = .ok (db', ldk')) :
    payload.mint ∈ db.mints ∧ Sent ctx wallet answer db ldk payload db' ldk' := by
  unfold send at sent
  split at sent
  · cases sent
  · rename_i checked
    refine ⟨not_not.mp fun absent => checked (Or.inl absent), ?_⟩
    split at sent
    · cases sent
    · simp only at sent
      split at sent
      · rename_i taken
        cases sent
        exact .known taken
      · rename_i untaken
        have fresh : db.outgoingContract.contains (ctx.contractId payload.contract) = false :=
          Bool.not_eq_true _ ▸ untaken
        obtain ⟨started, start, finished⟩ := attempt_bind_eq_ok.mp sent
        change startPayment ctx wallet answer
          (db.take (ctx.contractId payload.contract) payload) ldk
          payload (ctx.contractId payload.contract) = .ok started at start
        have forfeits : ∀ {taken : GatewayDb}, gatewayFinalizeSend taken wallet.claims payload.mint
            (ctx.contractId payload.contract) payload.contract payload.outpoint none = .ok db' →
            db' = taken.record (.sendCancel (ctx.contractId payload.contract) payload.contract) :=
          fun finalized => (gatewayFinalizeSend_eq_ok.mp finalized).2
        rcases startPayment_cases start with ⟨error, rfl⟩ | lightning | swap
        · obtain ⟨settled, finalized, same⟩ := attempt_bind_eq_ok.mp finished
          cases same
          rw [forfeits finalized]
          exact .cancelled fresh
        · rcases startLightning_cases answer (db.take (ctx.contractId payload.contract) payload) ldk
              payload (ctx.contractId payload.contract) with
            ⟨error, stopped⟩ | ⟨unattempted, unheld, asked⟩
          · rw [lightning, stopped] at finished
            obtain ⟨settled, finalized, same⟩ := attempt_bind_eq_ok.mp finished
            cases same
            rw [forfeits finalized]
            exact .cancelled fresh
          · rw [lightning, asked] at finished
            cases answer with
            | accepted =>
                cases finished
                exact .paid fresh unattempted unheld rfl
            | refused recorded =>
                obtain ⟨settled, finalized, same⟩ := attempt_bind_eq_ok.mp finished
                cases same
                rw [forfeits finalized]
                exact .refused fresh unattempted unheld recorded
        · rcases startSwap_cases swap with ⟨error, rfl⟩ | ⟨row, registered, amount, rfl⟩
          · obtain ⟨settled, finalized, same⟩ := attempt_bind_eq_ok.mp finished
            cases same
            rw [forfeits finalized]
            exact .cancelled fresh
          · cases finished
            exact .swapped fresh registered amount

/-- A contract is registered under a payment hash that neither the daemon nor
the node has seen. -/
theorem receive_cases {request : ReceiveRequest} {invoice : Option Bolt11Invoice}
    (received : receive ctx db ldk request invoice = .ok (db', ldk')) :
    request.mint ∈ db.mints ∧ request.contract.claimAmount ≠ none ∧
      db.paymentHash.contains (ctx.paymentHash request.contract) = false ∧
      ldk.payments.contains (ctx.paymentHash request.contract) = false ∧
      ldk' = ldk.receiveForHash (ctx.paymentHash request.contract) ∧
      ∃ invoice, db' = { db with
        incomingContract := db.incomingContract.insert (ctx.paymentHash request.contract)
          { mint := request.mint
            contract := request.contract
            invoice := invoice } } := by
  unfold receive at received
  split at received
  · cases received
  · rename_i added
    split at received
    · cases received
    · split at received
      · cases received
      · rename_i claimable
        split at received
        · cases received
        · rename_i unattempted
          split at received
          · cases received
          · rename_i unheld
            split at received
            · cases received
            · rename_i made
              cases received
              exact ⟨not_not.mp added, claimable, Bool.not_eq_true _ ▸ unattempted,
                Bool.not_eq_true _ ▸ unheld, rfl, made, rfl⟩

end Requests

end Picomint.Gateway
