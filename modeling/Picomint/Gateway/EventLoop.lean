/-
The loop over the events of the Lightning node, beside the requests.

The loop works on one event until the node has it marked as handled.  A crash
before the commit loses the write transaction but not what was asked of the
node, and the event is delivered again, as it is after a crash before the mark.
-/

import Picomint.Gateway.Effects

namespace Picomint.Gateway

open Client

/-- The event the loop works on: what was asked of the node for it, how often a
crash lost the write transaction after that, whether an event of the same
payment hash had been committed before, and whether this one is. -/
structure Head where
  event : LdkEvent
  calls : List LdkCall
  lost : Nat
  seen : Bool
  committed : Bool

structure System where
  db : GatewayDb
  ldk : Ldk
  head : Option Head
  /-- The payment hashes of the committed events. -/
  history : List Hash
  /-- Everything the node was asked for HTLCs. -/
  calls : List LdkCall

def System.start : System :=
  { db := GatewayDb.empty
    ldk := { payments := SortedMap.empty }
    head := none
    history := []
    calls := [] }

def System.arrive (system : System) (event : LdkEvent) : System :=
  { system with
    head := some
      { event := event
        calls := []
        lost := 0
        seen := system.history.contains event.paymentHash
        committed := false } }

def Ldk.set (ldk : Ldk) (paymentHash : Hash) (payment : LdkPayment) : Ldk :=
  { payments := ldk.payments.insert paymentHash payment }

/-- The transaction of the event is committed. -/
def System.commit (system : System) (head : Head) (db : GatewayDb) (calls : List LdkCall) :
    System :=
  { system with
    db := db
    head := some
      { head with
        calls := head.calls ++ calls
        committed := true }
    history := head.event.paymentHash :: system.history
    calls := system.calls ++ calls }

/-- The transaction of the event is lost, but not what was asked of the node. -/
def System.lose (system : System) (head : Head) (calls : List LdkCall) : System :=
  { system with
    head := some
      { head with
        calls := head.calls ++ calls
        lost := if head.committed then head.lost else head.lost + 1 }
    calls := system.calls ++ calls }

/-- What happens to the daemon. -/
inductive Action where
  /-- The next event is delivered. -/
  | next (event : LdkEvent)
  | commit (wallet : Wallet)
  /-- A crash before the commit. -/
  | lose (wallet : Wallet)
  /-- `event_handled`. -/
  | mark
  | send (wallet : Wallet) (answer : LdkAnswer) (payload : SendRequest)
  | loseSend (wallet : Wallet) (answer : LdkAnswer) (payload : SendRequest)
  | receive (payload : ReceiveRequest)
  | loseReceive (payload : ReceiveRequest)
  | addMint (mint : MintId)
  | removeMint (mint : MintId)
  /-- The node settles a payment, or its operator makes one. -/
  | node (paymentHash : Hash) (payment : LdkPayment)

inductive Step (ctx : GatewayContext) : System → Action → System → Prop
  | next {system : System} (idle : system.head = none) (event : LdkEvent) :
      Step ctx system (.next event) (system.arrive event)
  | commit {system : System} {head : Head} (working : system.head = some head) (wallet : Wallet)
      {db : GatewayDb} {calls : List LdkCall}
      (handled : processLdkEvent ctx system.ldk wallet system.db head.event = .ok (db, calls)) :
      Step ctx system (.commit wallet) (system.commit head db calls)
  | lose {system : System} {head : Head} (working : system.head = some head) (wallet : Wallet)
      {db : GatewayDb} {calls : List LdkCall}
      (handled : processLdkEvent ctx system.ldk wallet system.db head.event = .ok (db, calls)) :
      Step ctx system (.lose wallet) (system.lose head calls)
  | mark {system : System} {head : Head} (working : system.head = some head)
      (committed : head.committed = true) : Step ctx system .mark { system with head := none }
  | send {system : System} (wallet : Wallet) (answer : LdkAnswer) (payload : SendRequest)
      (held : Option Hash) {db : GatewayDb} {ldk : Ldk}
      (sent : Gateway.send ctx wallet answer system.db system.ldk payload held = .ok (db, ldk)) :
      Step ctx system (.send wallet answer payload) { system with db := db, ldk := ldk }
  | loseSend {system : System} (wallet : Wallet) (answer : LdkAnswer) (payload : SendRequest)
      (held : Option Hash) {db : GatewayDb} {ldk : Ldk}
      (sent : Gateway.send ctx wallet answer system.db system.ldk payload held = .ok (db, ldk)) :
      Step ctx system (.loseSend wallet answer payload) { system with ldk := ldk }
  | receive {system : System} (payload : ReceiveRequest) (invoice : Option Bolt11Invoice)
      {db : GatewayDb} {ldk : Ldk}
      (received : Gateway.receive ctx system.db system.ldk payload invoice = .ok (db, ldk)) :
      Step ctx system (.receive payload) { system with db := db, ldk := ldk }
  | loseReceive {system : System} (payload : ReceiveRequest) (invoice : Option Bolt11Invoice)
      {db : GatewayDb} {ldk : Ldk}
      (received : Gateway.receive ctx system.db system.ldk payload invoice = .ok (db, ldk)) :
      Step ctx system (.loseReceive payload) { system with ldk := ldk }
  | addMint {system : System} (mint : MintId) : Step ctx system (.addMint mint)
      { system with db := { system.db with mints := mint :: system.db.mints } }
  | removeMint {system : System} (mint : MintId) : Step ctx system (.removeMint mint)
      { system with db := system.db.removeMint mint }
  | node {system : System} (paymentHash : Hash) (payment : LdkPayment) :
      Step ctx system (.node paymentHash payment)
        { system with ldk := system.ldk.set paymentHash payment }

inductive Reachable (ctx : GatewayContext) (allowed : System → Action → Prop) : System → Prop
  | start : Reachable ctx allowed System.start
  | step {system next : System} {action : Action} (reached : Reachable ctx allowed system)
      (isAllowed : allowed system action) (step : Step ctx system action next) :
      Reachable ctx allowed next

/-- An invariant of the steps holds of every state that is reached. -/
theorem Reachable.induction {ctx : GatewayContext} {allowed : System → Action → Prop}
    {invariant : System → Prop} (start : invariant System.start)
    (step : ∀ {system next : System} {action : Action}, invariant system →
      allowed system action → Step ctx system action next → invariant next)
    {system : System} (reached : Reachable ctx allowed system) : invariant system := by
  induction reached with
  | start => exact start
  | step _ isAllowed isStep ih => exact step ih isAllowed isStep

/-- Anything may happen. -/
def anything (_ : System) (_ : Action) : Prop := True

/-! ### Marks -/

section Marks

variable {ctx : GatewayContext} {ldk ldk' : Ldk} {wallet : Wallet} {db db' : GatewayDb}
  {calls : List LdkCall}

/-- What the marks say after an event, and how often the node is asked. -/
theorem processLdkEvent_marks {event : LdkEvent}
    (handled : processLdkEvent ctx ldk wallet db event = .ok (db', calls)) :
    (∀ other, db'.ldkEventPaymentHash.contains other = true ↔
      other = event.paymentHash ∨ db.ldkEventPaymentHash.contains other = true) ∧
    (∀ call ∈ calls, call.paymentHash = event.paymentHash) ∧
    ∀ paymentHash amountMsat, event = .paymentClaimable paymentHash amountMsat →
      calls.length = if db.ldkEventPaymentHash.contains paymentHash then 0 else 1 := by
  have kept : ∀ paymentHash, db.ldkEventPaymentHash.contains paymentHash = true →
      ∀ other, db.ldkEventPaymentHash.contains other = true ↔
        other = paymentHash ∨ db.ldkEventPaymentHash.contains other = true := by
    intro paymentHash marked other
    exact ⟨Or.inr, fun either => either.elim (fun same => same ▸ marked) id⟩
  have marks : ∀ paymentHash other,
      (db.mark paymentHash).ldkEventPaymentHash.contains other = true ↔
      other = paymentHash ∨ db.ldkEventPaymentHash.contains other = true := by
    intro paymentHash other
    unfold GatewayDb.mark
    rw [SortedMap.contains_insert]
    exact or_congr_left eq_comm
  have settled : ∀ {paymentHash : Hash} {success : Option (Nat × Nat)},
      settleOutgoing wallet db paymentHash success = .ok (db', calls) →
      ∀ other, db'.ldkEventPaymentHash.contains other = true ↔
        other = paymentHash ∨ db.ldkEventPaymentHash.contains other = true := by
    intro paymentHash success done
    rcases (settleOutgoing_cases done).2 with
      ⟨marked, rfl⟩ | ⟨_, _, rfl⟩ | ⟨_, _, _, _, _, finalized⟩
    · exact kept paymentHash marked
    · exact marks paymentHash
    · intro other
      rw [gatewayFinalizeSend_marks finalized]
      exact marks paymentHash other
  cases event with
  | paymentClaimable paymentHash amountMsat =>
      rcases handlePaymentClaimable_cases handled with
        ⟨marked, rfl, rfl⟩ | ⟨fresh, rfl, rfl⟩ | ⟨fresh, row, _, _, rfl, rfl⟩
      · refine ⟨kept paymentHash marked, List.forall_mem_nil _, ?_⟩
        intro _ _ same
        cases same
        rw [if_pos marked]
        rfl
      · refine ⟨marks paymentHash, List.forall_mem_singleton.mpr rfl, ?_⟩
        intro _ _ same
        cases same
        rw [fresh]
        rfl
      · refine ⟨marks paymentHash, List.forall_mem_singleton.mpr rfl, ?_⟩
        intro _ _ same
        cases same
        rw [fresh]
        rfl
  | paymentSuccessful paymentHash preimage feePaidMsat =>
      obtain ⟨rfl, _⟩ := settleOutgoing_cases handled
      refine ⟨settled handled, List.forall_mem_nil _, ?_⟩
      intro _ _ impossible
      cases impossible
  | paymentFailed paymentHash =>
      obtain ⟨rfl, _⟩ := settleOutgoing_cases handled
      refine ⟨settled handled, List.forall_mem_nil _, ?_⟩
      intro _ _ impossible
      cases impossible
theorem Sent.marks {answer : LdkAnswer} {payload : SendRequest}
    (sent : Sent ctx wallet answer db ldk payload db' ldk') :
    db'.ldkEventPaymentHash = db.ldkEventPaymentHash := by
  cases sent with
  | known => rfl
  | paid => rfl
  | refused => rfl
  | cancelled => rfl
  | swapped =>
      split <;> rfl

end Marks

/-! ### Inbound HTLCs -/

/-- The marks are the hashes of the committed events, and the node was asked
once for every attempt at a new hash. -/
structure Answering (system : System) : Prop where
  marks : ∀ paymentHash, system.db.ldkEventPaymentHash.contains paymentHash = true ↔
    paymentHash ∈ system.history
  committed : ∀ head, system.head = some head → head.committed = true →
    head.event.paymentHash ∈ system.history
  waiting : ∀ head, system.head = some head → head.committed = false →
    (head.seen = true ↔ head.event.paymentHash ∈ system.history)
  own : ∀ head, system.head = some head →
    ∀ call ∈ head.calls, call.paymentHash = head.event.paymentHash
  asked : ∀ head, system.head = some head → ∀ paymentHash amountMsat,
    head.event = .paymentClaimable paymentHash amountMsat →
      head.calls.length =
        if head.seen then 0 else head.lost + (if head.committed then 1 else 0)

theorem Answering.start : Answering System.start := by
  refine ⟨fun paymentHash => ?_, ?_, ?_, ?_, ?_⟩
  · constructor
    · intro impossible
      cases impossible
    · intro impossible
      cases impossible
  · intro head impossible
    cases impossible
  · intro head impossible
    cases impossible
  · intro head impossible
    cases impossible
  · intro head impossible
    cases impossible

theorem Answering.frame {system next : System} (answering : Answering system)
    (marks : next.db.ldkEventPaymentHash = system.db.ldkEventPaymentHash)
    (head : next.head = system.head) (history : next.history = system.history) :
    Answering next := by
  refine ⟨?_, ?_, ?_, ?_, ?_⟩
  · rw [marks, history]
    exact answering.marks
  · rw [head, history]
    exact answering.committed
  · rw [head, history]
    exact answering.waiting
  · rw [head]
    exact answering.own
  · rw [head]
    exact answering.asked

theorem Answering.step {ctx : GatewayContext} {system next : System} {action : Action}
    (answering : Answering system) (step : Step ctx system action next) : Answering next := by
  cases step with
  | next idle event =>
      refine ⟨answering.marks, ?_, ?_, ?_, ?_⟩
      · intro head same impossible
        cases same
        cases impossible
      · intro head same _
        cases same
        exact List.contains_iff_mem
      · intro head same call impossible
        cases same
        cases impossible
      · intro head same paymentHash amountMsat _
        cases same
        simp
  | @commit head working wallet db calls handled =>
      obtain ⟨marks, own, asked⟩ := processLdkEvent_marks handled
      refine ⟨?_, ?_, ?_, ?_, ?_⟩
      · intro other
        change db.ldkEventPaymentHash.contains other = true ↔
          other ∈ head.event.paymentHash :: system.history
        rw [marks, List.mem_cons, answering.marks]
      · intro other same _
        cases same
        exact List.mem_cons_self
      · intro other same impossible
        cases same
        cases impossible
      · intro other same
        cases same
        exact List.forall_mem_append.mpr ⟨answering.own head working, own⟩
      · intro other same paymentHash amountMsat isHtlc
        cases same
        change (head.calls ++ calls).length = if head.seen then 0 else head.lost + 1
        have before := answering.asked head working paymentHash amountMsat isHtlc
        have now := asked paymentHash amountMsat isHtlc
        have hash : head.event.paymentHash = paymentHash := by rw [isHtlc]; rfl
        rw [List.length_append, before, now]
        by_cases done : head.committed = true
        · have marked := (answering.marks paymentHash).mpr
            (hash ▸ answering.committed head working done)
          rw [if_pos marked, if_pos done, Nat.add_zero]
        · have waiting := answering.waiting head working (Bool.not_eq_true _ ▸ done)
          rw [hash, ← answering.marks paymentHash] at waiting
          rw [if_neg done, Nat.add_zero]
          by_cases seen : head.seen = true
          · rw [if_pos seen, if_pos (waiting.mp seen), if_pos seen]
          · rw [if_neg seen, if_neg fun marked => seen (waiting.mpr marked), if_neg seen]
  | @lose head working wallet db calls handled =>
      obtain ⟨_, own, asked⟩ := processLdkEvent_marks handled
      refine ⟨answering.marks, ?_, ?_, ?_, ?_⟩
      · intro other same done
        cases same
        exact answering.committed head working done
      · intro other same waiting
        cases same
        exact answering.waiting head working waiting
      · intro other same
        cases same
        exact List.forall_mem_append.mpr ⟨answering.own head working, own⟩
      · intro other same paymentHash amountMsat isHtlc
        cases same
        change (head.calls ++ calls).length = if head.seen then 0 else
          (if head.committed then head.lost else head.lost + 1) + (if head.committed then 1 else 0)
        have before := answering.asked head working paymentHash amountMsat isHtlc
        have now := asked paymentHash amountMsat isHtlc
        have hash : head.event.paymentHash = paymentHash := by rw [isHtlc]; rfl
        rw [List.length_append, before, now]
        by_cases done : head.committed = true
        · have marked := (answering.marks paymentHash).mpr
            (hash ▸ answering.committed head working done)
          rw [if_pos marked, if_pos done, if_pos done, Nat.add_zero]
        · have waiting := answering.waiting head working (Bool.not_eq_true _ ▸ done)
          rw [hash, ← answering.marks paymentHash] at waiting
          rw [if_neg done, if_neg done]
          by_cases seen : head.seen = true
          · rw [if_pos seen, if_pos (waiting.mp seen), if_pos seen]
          · rw [if_neg seen, if_neg fun marked => seen (waiting.mpr marked), if_neg seen]
  | mark working committed =>
      refine ⟨answering.marks, ?_, ?_, ?_, ?_⟩
      · intro head impossible
        cases impossible
      · intro head impossible
        cases impossible
      · intro head impossible
        cases impossible
      · intro head impossible
        cases impossible
  | send wallet answer payload held sent =>
      exact answering.frame (send_cases sent).2.marks rfl rfl
  | loseSend wallet answer payload held sent => exact answering.frame rfl rfl rfl
  | receive payload invoice received =>
      obtain ⟨_, _, _, _, _, _, rfl⟩ := receive_cases received
      exact answering.frame rfl rfl rfl
  | loseReceive payload invoice received => exact answering.frame rfl rfl rfl
  | addMint mint => exact answering.frame rfl rfl rfl
  | removeMint mint => exact answering.frame rfl rfl rfl
  | node paymentHash payment => exact answering.frame rfl rfl rfl

theorem answering_of_reachable {ctx : GatewayContext} {allowed : System → Action → Prop}
    {system : System} (reached : Reachable ctx allowed system) : Answering system :=
  reached.induction Answering.start fun answering _ step => answering.step step

/-- An inbound HTLC whose event is about to be marked as handled was answered
exactly once if and only if no event of its payment hash had been committed
before it and no crash lost its transaction. -/
theorem inbound_answered_iff {ctx : GatewayContext} {system : System}
    (reached : Reachable ctx anything system) {head : Head} (working : system.head = some head)
    (committed : head.committed = true) {paymentHash : Hash} {amountMsat : Nat}
    (isHtlc : head.event = .paymentClaimable paymentHash amountMsat) :
    (∃ call, head.calls = [call] ∧ call.paymentHash = paymentHash) ↔
      head.seen = false ∧ head.lost = 0 := by
  have answering := answering_of_reachable reached
  have asked := answering.asked head working paymentHash amountMsat isHtlc
  rw [if_pos committed] at asked
  constructor
  · rintro ⟨call, isCall, _⟩
    rw [isCall, List.length_singleton] at asked
    split at asked
    · cases asked
    · rename_i unseen
      exact ⟨Bool.not_eq_true _ ▸ unseen, by omega⟩
  · rintro ⟨unseen, none⟩
    rw [unseen, none] at asked
    obtain ⟨call, isCall⟩ := List.length_eq_one_iff.mp asked
    refine ⟨call, isCall, ?_⟩
    rw [answering.own head working call (isCall ▸ List.mem_cons_self), isHtlc]
    rfl

/-! A contract over 1000 msat, an HTLC over 999 msat for it, and another one
over 1000 msat once the first was failed. -/

def sampleGateway : GatewayContext :=
  { contractId := fun contract => contract.paymentHash + 100
    contractHash := fun contract => contract.ephemeralPk
    preimageHash := fun preimage => preimage + 1
    gatewayPk := fun _ => 3
    nodeId := 9
    sendFee := ⟨0, 0⟩
    receiveFee := ⟨0, 0⟩ }

def sampleIncoming : IncomingContract :=
  { amount := 1000
    fee := 0
    claimPk := 4
    ephemeralPk := 7 }

def sampleInvoice : Bolt11Invoice :=
  { digest := 5
    paymentHash := 8
    amountMilliSatoshis := some 1000
    payeePubKey := 9 }

/-- The daemon with the contract registered. -/
def sampleRegistered : System :=
  { System.start with
    db := { GatewayDb.empty with
      incomingContract := SortedMap.empty.insert 8
        { mint := 0
          contract := sampleIncoming
          invoice := sampleInvoice }
      mints := [0] }
    ldk := System.start.ldk.receiveForHash 8 }

theorem sampleRegistered_reachable : Reachable sampleGateway anything sampleRegistered :=
  (Reachable.start.step trivial (.addMint 0)).step trivial
    (.receive
      { mint := 0
        contract := sampleIncoming } (some sampleInvoice) rfl)

def sampleWallet : Wallet :=
  { funds := true
    claims := true }

/-- The first HTLC pays one millisatoshi too much and is failed. -/
def sampleFailed : System :=
  (sampleRegistered.arrive (.paymentClaimable 8 1001)).commit
    ⟨.paymentClaimable 8 1001, [], 0, false, false⟩ (sampleRegistered.db.mark 8) [.failForHash 8]

theorem sampleFailed_reachable : Reachable sampleGateway anything sampleFailed :=
  (sampleRegistered_reachable.step trivial (.next rfl (.paymentClaimable 8 1001))).step trivial
    (.commit rfl sampleWallet rfl)

theorem inbound_answered_iff_sample : ∃ head, sampleFailed.head = some head ∧
    ((∃ call, head.calls = [call] ∧ call.paymentHash = 8) ↔ head.seen = false ∧ head.lost = 0) :=
  ⟨_, rfl, inbound_answered_iff sampleFailed_reachable rfl rfl rfl⟩

/-- The second HTLC is committed and was never answered. -/
theorem inbound_unanswered : ∃ system head, Reachable sampleGateway anything system ∧
    system.head = some head ∧ head.event = .paymentClaimable 8 1000 ∧ head.committed = true ∧
    head.lost = 0 ∧ head.calls = [] := by
  have marked := sampleFailed_reachable.step trivial (.mark rfl rfl)
  have arrived := marked.step trivial (.next rfl (.paymentClaimable 8 1000))
  exact ⟨_, _, arrived.step trivial (.commit rfl sampleWallet rfl), rfl, rfl, rfl, rfl, rfl⟩

end Picomint.Gateway
