/-
The outgoing contracts the gateway settles.

The Lightning node and the database have no transaction in common.  What the
node holds of a payment hash is compared here with what the database says of
it, over runs in which no crash falls between a payment the node takes on and
the commit of its request, and no mint is removed.
-/

import Picomint.Gateway.Funding

namespace Picomint.Gateway

open Client

/-! ### Runs -/

/-- What the node holds of a payment hash for good. -/
def Final (held : Option LdkPayment) : Prop :=
  held = some .inbound ∨ (∃ preimage, held = some (.outbound (.succeeded preimage))) ∨
    held = some (.outbound .failed)

/-- The node reports what it holds. -/
def Reported (ldk : Ldk) : LdkEvent → Prop
  | .paymentClaimable paymentHash _ => ldk.payments.get? paymentHash = some .inbound
  | .paymentSuccessful paymentHash preimage _ =>
      ldk.payments.get? paymentHash = some (.outbound (.succeeded preimage))
  | .paymentFailed paymentHash => ldk.payments.get? paymentHash = some (.outbound .failed)

/-- The node settles a payment it has taken on; the operator has it pay one of
his own payment hashes, or issue an invoice, under a hash it does not hold. -/
def Settles (operator : Hash → Prop) (system : System) (paymentHash : Hash)
    (payment : LdkPayment) : Prop :=
  (system.ldk.payments.get? paymentHash = some (.outbound .pending) ∧
    ((∃ preimage, payment = .outbound (.succeeded preimage)) ∨ payment = .outbound .failed)) ∨
  (system.ldk.payments.get? paymentHash = none ∧
    system.db.paymentHash.contains paymentHash = false ∧
    (payment = .inbound ∨ (operator paymentHash ∧ payment = .outbound .pending)))

/-- The actions considered here: no request is lost once the node has taken its
payment on, no mint is removed, and, where asked for, no contract is too small
to be claimed. -/
def Careful (operator : Hash → Prop) (claiming : Prop) (system : System) : Action → Prop
  | .next event => Reported system.ldk event
  | .commit wallet => claiming → wallet.claims = true
  | .loseSend _ answer _ => answer ≠ .accepted
  | .removeMint _ => False
  | .node paymentHash payment => Settles operator system paymentHash payment
  | _ => True

/-! ### Outcomes -/

def ClientRecord.outcome : ClientRecord → Option OperationId
  | .sendSuccess operation _ _ _ _ => some operation
  | .sendCancel operation _ => some operation
  | _ => none

/-- The outgoing contracts the records settle, in their order. -/
def outcomes (log : List ClientRecord) : List OperationId := log.filterMap ClientRecord.outcome

theorem outcomes_append (left right : List ClientRecord) :
    outcomes (left ++ right) = outcomes left ++ outcomes right :=
  List.filterMap_append

theorem mem_outcomes_of_cancel {log : List ClientRecord} {operation : OperationId}
    {contract : OutgoingContract} (cancelled : .sendCancel operation contract ∈ log) :
    operation ∈ outcomes log :=
  List.mem_filterMap.mpr ⟨_, cancelled, rfl⟩

/-- How the node and the database agree on the payments.  A payment that the
node has not refused and whose event is not handled has no outcome. -/
structure Settling (operator : Hash → Prop) (claiming : Prop) (system : System) : Prop where
  taken : ∀ operation ∈ outcomes system.db.log,
    system.db.outgoingContract.contains operation = true
  once : (outcomes system.db.log).Nodup
  linked : ∀ paymentHash operation, system.db.paymentHash.get? paymentHash = some operation →
    ∃ row, system.db.outgoingContract.get? operation = some row ∧
      row.contract.paymentHash = paymentHash
  waiting : ∀ paymentHash operation status,
    system.db.paymentHash.get? paymentHash = some operation →
    system.ldk.payments.get? paymentHash = some (.outbound status) → status ≠ .refused →
    system.db.ldkEventPaymentHash.contains paymentHash = false →
    operation ∉ outcomes system.db.log
  paid : ∀ paymentHash operation preimage,
    system.db.paymentHash.get? paymentHash = some operation →
    system.ldk.payments.get? paymentHash = some (.outbound (.succeeded preimage)) →
    ∀ contract, .sendCancel operation contract ∉ system.db.log
  outbound : ∀ paymentHash, system.db.paymentHash.contains paymentHash = true →
    system.ldk.payments.get? paymentHash ≠ some .inbound
  marks : ∀ paymentHash, system.db.ldkEventPaymentHash.contains paymentHash = true →
    Final (system.ldk.payments.get? paymentHash)
  head : ∀ head, system.head = some head → Reported system.ldk head.event
  attempted : ∀ paymentHash status,
    system.ldk.payments.get? paymentHash = some (.outbound status) → status ≠ .refused →
    operator paymentHash ∨ system.db.paymentHash.contains paymentHash = true
  claimed : claiming → ∀ paymentHash operation preimage,
    system.db.paymentHash.get? paymentHash = some operation →
    system.ldk.payments.get? paymentHash = some (.outbound (.succeeded preimage)) →
    system.db.ldkEventPaymentHash.contains paymentHash = true →
    ∃ row lightningFee, system.db.outgoingContract.get? operation = some row ∧
      .sendSuccess operation row.contract row.outpoint preimage lightningFee ∈ system.db.log

theorem Settling.start (operator : Hash → Prop) (claiming : Prop) :
    Settling operator claiming System.start where
  taken := by intro operation impossible; cases impossible
  once := List.nodup_nil
  linked := by intro paymentHash operation impossible; cases impossible
  waiting := by intro paymentHash operation status impossible; cases impossible
  paid := by intro paymentHash operation preimage impossible; cases impossible
  outbound := by intro paymentHash impossible; cases impossible
  marks := by intro paymentHash impossible; cases impossible
  head := by intro head impossible; cases impossible
  attempted := by intro paymentHash status impossible; cases impossible
  claimed := by intro _ paymentHash operation preimage impossible; cases impossible

section Changes

variable {operator : Hash → Prop} {claiming : Prop} {system next : System}

theorem Final.not_none {held : Option LdkPayment} (final : Final held) : held ≠ none := by
  rintro rfl
  rcases final with impossible | ⟨_, impossible⟩ | impossible <;> cases impossible

theorem Final.not_pending {held : Option LdkPayment} (final : Final held) :
    held ≠ some (.outbound .pending) := by
  rintro rfl
  rcases final with impossible | ⟨_, impossible⟩ | impossible <;> cases impossible

theorem Reported.stable {ldk ldk' : Ldk} {event : LdkEvent} (reported : Reported ldk event)
    (stable : ∀ paymentHash, Final (ldk.payments.get? paymentHash) →
      ldk'.payments.get? paymentHash = ldk.payments.get? paymentHash) : Reported ldk' event := by
  cases event with
  | paymentClaimable paymentHash amountMsat =>
      exact (stable paymentHash (Or.inl reported)).trans reported
  | paymentSuccessful paymentHash preimage feePaidMsat =>
      exact (stable paymentHash (Or.inr (Or.inl ⟨preimage, reported⟩))).trans reported
  | paymentFailed paymentHash =>
      exact (stable paymentHash (Or.inr (Or.inr reported))).trans reported

theorem Reported.final {ldk : Ldk} {event : LdkEvent} (reported : Reported ldk event) :
    Final (ldk.payments.get? event.paymentHash) := by
  cases event with
  | paymentClaimable paymentHash amountMsat => exact Or.inl reported
  | paymentSuccessful paymentHash preimage feePaidMsat => exact Or.inr (Or.inl ⟨preimage, reported⟩)
  | paymentFailed paymentHash => exact Or.inr (Or.inr reported)

theorem Settling.attempt_injective (settling : Settling operator claiming system)
    {left right : Hash} {operation : OperationId}
    (isLeft : system.db.paymentHash.get? left = some operation)
    (isRight : system.db.paymentHash.get? right = some operation) : left = right := by
  obtain ⟨row, found, hash⟩ := settling.linked left operation isLeft
  obtain ⟨other, foundOther, hashOther⟩ := settling.linked right operation isRight
  rw [foundOther] at found
  cases found
  exact hash.symm.trans hashOther

/-- Nothing about an attempt changes, apart from marks of payment hashes without one. -/
theorem Settling.frame (settling : Settling operator claiming system)
    (outgoing : next.db.outgoingContract = system.db.outgoingContract)
    (attempts : next.db.paymentHash = system.db.paymentHash) {records : List ClientRecord}
    (log : next.db.log = system.db.log ++ records) (unsettled : outcomes records = [])
    (ldk : next.ldk = system.ldk)
    (kept : ∀ paymentHash, system.db.ldkEventPaymentHash.contains paymentHash = true →
      next.db.ldkEventPaymentHash.contains paymentHash = true)
    (marks : ∀ paymentHash, next.db.ldkEventPaymentHash.contains paymentHash = true →
      system.db.ldkEventPaymentHash.contains paymentHash = true ∨
      ((system.db.paymentHash.get? paymentHash = none ∨ ¬claiming) ∧
        Final (system.ldk.payments.get? paymentHash)))
    (head : ∀ head, next.head = some head → Reported system.ldk head.event) :
    Settling operator claiming next := by
  have same : outcomes next.db.log = outcomes system.db.log := by
    rw [log, outcomes_append, unsettled, List.append_nil]
  refine ⟨?_, ?_, ?_, ?_, ?_, ?_, ?_, ?_, ?_, ?_⟩
  · rw [same, outgoing]
    exact settling.taken
  · rw [same]
    exact settling.once
  · rw [outgoing, attempts]
    exact settling.linked
  · rw [attempts, ldk, same]
    intro paymentHash operation status isAttempt held accepted unmarked
    refine settling.waiting paymentHash operation status isAttempt held accepted ?_
    exact Bool.eq_false_iff.mpr fun marked =>
      Bool.eq_false_iff.mp unmarked (kept paymentHash marked)
  · rw [attempts, ldk]
    intro paymentHash operation preimage isAttempt held contract cancelled
    rw [log] at cancelled
    rcases List.mem_append.mp cancelled with before | now
    · exact settling.paid paymentHash operation preimage isAttempt held contract before
    · have outcome := mem_outcomes_of_cancel now
      rw [unsettled] at outcome
      cases outcome
  · rw [attempts, ldk]
    exact settling.outbound
  · rw [ldk]
    intro paymentHash marked
    rcases marks paymentHash marked with before | ⟨_, final⟩
    · exact settling.marks paymentHash before
    · exact final
  · rw [ldk]
    exact head
  · rw [attempts, ldk]
    exact settling.attempted
  · rw [attempts, ldk, outgoing, log]
    intro claims paymentHash operation preimage isAttempt held marked
    rcases marks paymentHash marked with before | ⟨unattempted | unclaimed, _⟩
    · obtain ⟨row, lightningFee, found, success⟩ :=
        settling.claimed claims paymentHash operation preimage isAttempt held before
      exact ⟨row, lightningFee, found, List.mem_append_left _ success⟩
    · rw [unattempted] at isAttempt
      cases isAttempt
    · exact absurd claims unclaimed

theorem Settling.settle (settling : Settling operator claiming system) {paymentHash : Hash}
    {operation : OperationId} (record : ClientRecord) {status : PaymentStatus}
    (isAttempt : system.db.paymentHash.get? paymentHash = some operation)
    (held : system.ldk.payments.get? paymentHash = some (.outbound status))
    (final : Final (some (.outbound status)))
    (unmarked : system.db.ldkEventPaymentHash.contains paymentHash = false)
    (outcome : record.outcome = some operation)
    (success : ∀ preimage, status = .succeeded preimage →
      ∃ row lightningFee, system.db.outgoingContract.get? operation = some row ∧
        record = .sendSuccess operation row.contract row.outpoint preimage lightningFee)
    (outgoing : next.db.outgoingContract = system.db.outgoingContract)
    (attempts : next.db.paymentHash = system.db.paymentHash)
    (log : next.db.log = system.db.log ++ [record]) (ldk : next.ldk = system.ldk)
    (marks : next.db.ldkEventPaymentHash = system.db.ldkEventPaymentHash.insert paymentHash ())
    (head : ∀ head, next.head = some head → Reported system.ldk head.event) :
    Settling operator claiming next := by
  have accepted : status ≠ .refused := by
    rintro rfl
    rcases final with impossible | ⟨_, impossible⟩ | impossible <;> cases impossible
  have settled : outcomes next.db.log = outcomes system.db.log ++ [operation] := by
    rw [log, outcomes_append]
    congr 1
    exact List.filterMap_cons_some outcome
  have open' := settling.waiting paymentHash operation status isAttempt held accepted unmarked
  -- the attempts of other payment hashes are other ones
  have others : ∀ {other : Hash} {attempt : OperationId}, paymentHash ≠ other →
      system.db.paymentHash.get? other = some attempt → attempt ≠ operation := by
    rintro other attempt different isOther rfl
    exact different (settling.attempt_injective isAttempt isOther)
  refine ⟨?_, ?_, ?_, ?_, ?_, ?_, ?_, ?_, ?_, ?_⟩
  · rw [settled, outgoing]
    refine List.forall_mem_append.mpr ⟨settling.taken, List.forall_mem_singleton.mpr ?_⟩
    obtain ⟨row, found, _⟩ := settling.linked paymentHash operation isAttempt
    exact (SortedMap.contains_iff _ _).mpr ⟨row, found⟩
  · rw [settled]
    exact settling.once.append (List.nodup_singleton _) (List.disjoint_singleton.mpr open')
  · rw [outgoing, attempts]
    exact settling.linked
  · rw [attempts, ldk, settled, marks]
    intro other attempt otherStatus isOther otherHeld otherAccepted otherUnmarked
    rw [Bool.eq_false_iff, Ne, SortedMap.contains_insert, not_or] at otherUnmarked
    rw [List.mem_append, not_or, List.mem_singleton]
    exact ⟨settling.waiting other attempt otherStatus isOther otherHeld otherAccepted
      (Bool.eq_false_iff.mpr otherUnmarked.2), others otherUnmarked.1 isOther⟩
  · rw [attempts, ldk, log]
    intro other attempt preimage isOther otherHeld contract cancelled
    rcases List.mem_append.mp cancelled with before | now
    · exact settling.paid other attempt preimage isOther otherHeld contract before
    · have isRecord := List.mem_singleton.mp now
      rw [← isRecord] at outcome
      cases outcome
      obtain rfl := settling.attempt_injective isAttempt isOther
      rw [held] at otherHeld
      cases otherHeld
      obtain ⟨_, _, _, isSuccess⟩ := success preimage rfl
      rw [← isRecord] at isSuccess
      cases isSuccess
  · rw [attempts, ldk]
    exact settling.outbound
  · rw [ldk, marks]
    intro other marked
    rcases (SortedMap.contains_insert _ _ _ _).mp marked with rfl | before
    · rw [held]
      exact final
    · exact settling.marks other before
  · rw [ldk]
    exact head
  · rw [attempts, ldk]
    exact settling.attempted
  · rw [attempts, ldk, log, marks, outgoing]
    intro claims other attempt preimage isOther otherHeld marked
    rcases (SortedMap.contains_insert _ _ _ _).mp marked with rfl | before
    · rw [isAttempt] at isOther
      rw [held] at otherHeld
      cases isOther
      cases otherHeld
      obtain ⟨row, lightningFee, found, isSuccess⟩ := success preimage rfl
      exact ⟨row, lightningFee, found,
        List.mem_append_right _ (List.mem_singleton.mpr isSuccess.symm)⟩
    · obtain ⟨row, lightningFee, found, isSuccess⟩ :=
        settling.claimed claims other attempt preimage isOther otherHeld before
      exact ⟨row, lightningFee, found, List.mem_append_left _ isSuccess⟩

/-- A contract is taken on that is not attempted, and settled at once or never. -/
theorem Settling.take (settling : Settling operator claiming system) {operation : OperationId}
    {row : OutgoingContractRow} {records : List ClientRecord}
    (fresh : system.db.outgoingContract.contains operation = false)
    (outgoing : next.db.outgoingContract = system.db.outgoingContract.insert operation row)
    (attempts : next.db.paymentHash = system.db.paymentHash)
    (log : next.db.log = system.db.log ++ records)
    (settled : outcomes records = [] ∨ outcomes records = [operation])
    (ldk : next.ldk = system.ldk)
    (marks : next.db.ldkEventPaymentHash = system.db.ldkEventPaymentHash)
    (head : next.head = system.head) : Settling operator claiming next := by
  have now : ∀ other ∈ outcomes records, other = operation := by
    intro other member
    rcases settled with none | one
    · rw [none] at member
      cases member
    · rw [one] at member
      exact List.mem_singleton.mp member
  have unsettled : operation ∉ outcomes system.db.log := fun member =>
    Bool.eq_false_iff.mp fresh (settling.taken operation member)
  have others : ∀ {paymentHash : Hash} {attempt : OperationId},
      system.db.paymentHash.get? paymentHash = some attempt → attempt ≠ operation := by
    rintro paymentHash attempt isAttempt rfl
    obtain ⟨row, found, _⟩ := settling.linked paymentHash attempt isAttempt
    exact Bool.eq_false_iff.mp fresh ((SortedMap.contains_iff _ _).mpr ⟨row, found⟩)
  refine ⟨?_, ?_, ?_, ?_, ?_, ?_, ?_, ?_, ?_, ?_⟩
  · rw [log, outcomes_append, outgoing]
    intro other member
    refine (SortedMap.contains_insert _ _ _ _).mpr ?_
    rcases List.mem_append.mp member with before | isNow
    · exact Or.inr (settling.taken other before)
    · exact Or.inl (now other isNow).symm
  · rw [log, outcomes_append]
    refine settling.once.append ?_ ?_
    · rcases settled with none | one
      · rw [none]
        exact List.nodup_nil
      · rw [one]
        exact List.nodup_singleton _
    · intro other before isNow
      exact unsettled (now other isNow ▸ before)
  · rw [attempts, outgoing]
    intro paymentHash attempt isAttempt
    obtain ⟨found, isFound, hash⟩ := settling.linked paymentHash attempt isAttempt
    refine ⟨found, ?_, hash⟩
    rw [SortedMap.get?_insert_of_ne _ _ (others isAttempt).symm]
    exact isFound
  · rw [attempts, ldk, log, outcomes_append, marks]
    intro paymentHash attempt status isAttempt held accepted unmarked
    rw [List.mem_append, not_or]
    exact ⟨settling.waiting paymentHash attempt status isAttempt held accepted unmarked,
      fun member => others isAttempt (now attempt member)⟩
  · rw [attempts, ldk, log]
    intro paymentHash attempt preimage isAttempt held contract cancelled
    rcases List.mem_append.mp cancelled with before | isNow
    · exact settling.paid paymentHash attempt preimage isAttempt held contract before
    · exact others isAttempt (now attempt (mem_outcomes_of_cancel isNow))
  · rw [attempts, ldk]
    exact settling.outbound
  · rw [ldk, marks]
    exact settling.marks
  · rw [ldk, head]
    exact settling.head
  · rw [attempts, ldk]
    exact settling.attempted
  · rw [attempts, ldk, marks, log, outgoing]
    intro claims paymentHash attempt preimage isAttempt held marked
    obtain ⟨row, lightningFee, found, isSuccess⟩ :=
      settling.claimed claims paymentHash attempt preimage isAttempt held marked
    refine ⟨row, lightningFee, ?_, List.mem_append_left _ isSuccess⟩
    rw [SortedMap.get?_insert_of_ne _ _ (others isAttempt).symm]
    exact found

theorem Settling.hold (settling : Settling operator claiming system) (paymentHash : Hash)
    (payment : LdkPayment) (db : next.db = system.db) (head : next.head = system.head)
    (ldk : next.ldk = system.ldk.set paymentHash payment)
    (open' : ¬Final (system.ldk.payments.get? paymentHash))
    (before : ∀ status, payment = .outbound status → status ≠ .refused →
      operator paymentHash ∨ system.db.paymentHash.contains paymentHash = true)
    (unsettled : ∀ operation, system.db.paymentHash.get? paymentHash = some operation →
      system.ldk.payments.get? paymentHash = some (.outbound .pending) ∧ payment ≠ .inbound) :
    Settling operator claiming next := by
  have unmarked : system.db.ldkEventPaymentHash.contains paymentHash = false :=
    Bool.eq_false_iff.mpr fun marked => open' (settling.marks paymentHash marked)
  have holds : ∀ other, next.ldk.payments.get? other =
      if paymentHash = other then some payment else system.ldk.payments.get? other := by
    intro other
    rw [ldk]
    exact SortedMap.get?_insert _ _ _ _
  have stable : ∀ other, Final (system.ldk.payments.get? other) →
      next.ldk.payments.get? other = system.ldk.payments.get? other := by
    intro other final
    rw [holds, if_neg]
    rintro rfl
    exact open' final
  -- an attempt of this payment hash is pending and has no outcome
  have waits : ∀ operation, system.db.paymentHash.get? paymentHash = some operation →
      operation ∉ outcomes system.db.log := fun operation isAttempt =>
    settling.waiting paymentHash operation .pending isAttempt (unsettled operation isAttempt).1
      PaymentStatus.noConfusion unmarked
  refine ⟨?_, ?_, ?_, ?_, ?_, ?_, ?_, ?_, ?_, ?_⟩
  · rw [db]
    exact settling.taken
  · rw [db]
    exact settling.once
  · rw [db]
    exact settling.linked
  · rw [db]
    intro other operation status isAttempt held accepted isUnmarked
    rw [holds] at held
    split at held
    · rename_i same
      exact waits operation (same ▸ isAttempt)
    · exact settling.waiting other operation status isAttempt held accepted isUnmarked
  · rw [db]
    intro other operation preimage isAttempt held contract cancelled
    rw [holds] at held
    split at held
    · rename_i same
      exact waits operation (same ▸ isAttempt) (mem_outcomes_of_cancel cancelled)
    · exact settling.paid other operation preimage isAttempt held contract cancelled
  · rw [db]
    intro other attempted held
    rw [holds] at held
    split at held
    · rename_i same
      obtain ⟨operation, isAttempt⟩ := (SortedMap.contains_iff _ _).mp attempted
      exact (unsettled operation (same ▸ isAttempt)).2 (Option.some.inj held)
    · exact settling.outbound other attempted held
  · rw [db]
    intro other marked
    have final := settling.marks other marked
    rw [stable other final]
    exact final
  · rw [head]
    intro head working
    exact (settling.head head working).stable stable
  · rw [db]
    intro other status held accepted
    rw [holds] at held
    split at held
    · rename_i same
      rw [← same]
      exact before status (Option.some.inj held) accepted
    · exact settling.attempted other status held accepted
  · rw [db]
    intro claims other operation preimage isAttempt held marked
    rw [stable other (settling.marks other marked)] at held
    exact settling.claimed claims other operation preimage isAttempt held marked

/-- A payment hash the node does not hold gets its attempt, and the node is
asked; a contract that is settled already was refused. -/
theorem Settling.begin (settling : Settling operator claiming system) {paymentHash : Hash}
    {operation : OperationId} {row : OutgoingContractRow} (answer : LdkAnswer)
    (unheld : system.ldk.payments.contains paymentHash = false)
    (found : system.db.outgoingContract.get? operation = some row)
    (hash : row.contract.paymentHash = paymentHash)
    (unsettled : answer = .accepted → operation ∉ outcomes system.db.log)
    (db : next.db = system.db.attempt paymentHash operation)
    (ldk : next.ldk = system.ldk.send paymentHash answer) (head : next.head = system.head) :
    Settling operator claiming next := by
  have open' : system.ldk.payments.get? paymentHash = none :=
    Option.isNone_iff_eq_none.mp (Option.not_isSome_iff_eq_none.mp
      (Bool.eq_false_iff.mp unheld) ▸ rfl)
  have others : ∀ other, paymentHash ≠ other →
      next.ldk.payments.get? other = system.ldk.payments.get? other := by
    intro other different
    rw [ldk]
    cases answer with
    | accepted => exact SortedMap.get?_insert_of_ne _ _ different
    | refused recorded =>
        cases recorded with
        | true => exact SortedMap.get?_insert_of_ne _ _ different
        | false => rfl
  have holds : ∀ status, next.ldk.payments.get? paymentHash = some (.outbound status) →
      status ≠ .refused → answer = .accepted ∧ status = .pending := by
    intro status held accepted
    rw [ldk] at held
    cases answer with
    | accepted =>
        cases (SortedMap.get?_insert_self _ _ _).symm.trans held
        exact ⟨rfl, rfl⟩
    | refused recorded =>
        cases recorded with
        | true =>
            cases (SortedMap.get?_insert_self _ _ _).symm.trans held
            exact absurd rfl accepted
        | false =>
            change system.ldk.payments.get? paymentHash = _ at held
            rw [open'] at held
            cases held
  have outbound : next.ldk.payments.get? paymentHash ≠ some .inbound := by
    rw [ldk]
    intro held
    cases answer with
    | accepted => cases (SortedMap.get?_insert_self _ _ _).symm.trans held
    | refused recorded =>
        cases recorded with
        | true => cases (SortedMap.get?_insert_self _ _ _).symm.trans held
        | false =>
            change system.ldk.payments.get? paymentHash = _ at held
            rw [open'] at held
            cases held
  have stable : ∀ other, Final (system.ldk.payments.get? other) →
      next.ldk.payments.get? other = system.ldk.payments.get? other := by
    intro other final
    refine others other ?_
    rintro rfl
    exact final.not_none open'
  have attempts : ∀ {other : Hash} {attempt : OperationId},
      (system.db.attempt paymentHash operation).paymentHash.get? other = some attempt →
      (paymentHash = other ∧ attempt = operation) ∨
      (paymentHash ≠ other ∧ system.db.paymentHash.get? other = some attempt) := by
    intro other attempt isAttempt
    unfold GatewayDb.attempt at isAttempt
    rw [SortedMap.get?_insert] at isAttempt
    split at isAttempt
    · rename_i same
      exact Or.inl ⟨same, (Option.some.inj isAttempt).symm⟩
    · rename_i different
      exact Or.inr ⟨different, isAttempt⟩
  refine ⟨?_, ?_, ?_, ?_, ?_, ?_, ?_, ?_, ?_, ?_⟩
  · rw [db]
    exact settling.taken
  · rw [db]
    exact settling.once
  · rw [db]
    intro other attempt isAttempt
    rcases attempts isAttempt with ⟨rfl, rfl⟩ | ⟨_, before⟩
    · exact ⟨row, found, hash⟩
    · exact settling.linked other attempt before
  · rw [db]
    intro other attempt status isAttempt held accepted unmarked
    rcases attempts isAttempt with ⟨rfl, rfl⟩ | ⟨different, before⟩
    · exact unsettled (holds status held accepted).1
    · rw [others other different] at held
      exact settling.waiting other attempt status before held accepted unmarked
  · rw [db]
    intro other attempt preimage isAttempt held contract cancelled
    rcases attempts isAttempt with ⟨rfl, rfl⟩ | ⟨different, before⟩
    · cases (holds _ held PaymentStatus.noConfusion).2
    · rw [others other different] at held
      exact settling.paid other attempt preimage before held contract cancelled
  · rw [db]
    intro other attempted held
    obtain ⟨attempt, isAttempt⟩ := (SortedMap.contains_iff _ _).mp attempted
    rcases attempts isAttempt with ⟨rfl, rfl⟩ | ⟨different, before⟩
    · exact outbound held
    · rw [others other different] at held
      exact settling.outbound other ((SortedMap.contains_iff _ _).mpr ⟨attempt, before⟩) held
  · rw [db]
    intro other marked
    have final := settling.marks other marked
    rw [stable other final]
    exact final
  · rw [head]
    intro head working
    exact (settling.head head working).stable stable
  · rw [db]
    intro other status held accepted
    refine (em (paymentHash = other)).elim (fun same => Or.inr ?_) fun different => ?_
    · exact (SortedMap.contains_insert _ _ _ _).mpr (Or.inl same)
    · rw [others other different] at held
      exact (settling.attempted other status held accepted).imp_right fun before =>
        (SortedMap.contains_insert _ _ _ _).mpr (Or.inr before)
  · rw [db]
    intro claims other attempt preimage isAttempt held marked
    have final := settling.marks other marked
    rcases attempts isAttempt with ⟨rfl, rfl⟩ | ⟨different, before⟩
    · exact absurd open' final.not_none
    · rw [others other different] at held
      exact settling.claimed claims other attempt preimage before held marked

end Changes

/-! ### Steps -/

section Steps

variable {ctx : GatewayContext} {operator : Hash → Prop} {claiming : Prop} {system next : System}

theorem outgoing_eq_some {db : GatewayDb} {paymentHash : Hash} {operation : OperationId}
    {row : OutgoingContractRow} : db.outgoing paymentHash = some (operation, row) ↔
      db.paymentHash.get? paymentHash = some operation ∧
      db.outgoingContract.get? operation = some row := by
  unfold GatewayDb.outgoing
  constructor
  · intro found
    obtain ⟨attempt, isAttempt, later⟩ := Option.bind_eq_some_iff.mp found
    obtain ⟨_, isRow, same⟩ := Option.map_eq_some_iff.mp later
    cases same
    exact ⟨isAttempt, isRow⟩
  · rintro ⟨isAttempt, isRow⟩
    rw [isAttempt, Option.bind_some, isRow]
    rfl

theorem Settling.commit (settling : Settling operator claiming system) {head : Head}
    (working : system.head = some head) {wallet : Wallet} (claims : claiming → wallet.claims = true)
    {db : GatewayDb} {calls : List LdkCall}
    (handled : processLdkEvent ctx system.ldk wallet system.db head.event = .ok (db, calls)) :
    Settling operator claiming (system.commit head db calls) := by
  have reported := settling.head head working
  have still : ∀ other, (system.commit head db calls).head = some other →
      Reported system.ldk other.event := by
    intro other same
    cases same
    exact reported
  have kept : ∀ {other : GatewayDb}, db = other → other = system.db →
      Settling operator claiming (system.commit head db calls) := by
    rintro _ rfl rfl
    exact settling.frame rfl rfl (List.append_nil _).symm rfl rfl (fun _ marked => marked)
      (fun _ marked => Or.inl marked) still
  -- marking a payment hash that has no attempt
  have marked : ∀ {records : List ClientRecord}, db.outgoingContract = system.db.outgoingContract →
      db.paymentHash = system.db.paymentHash → db.log = system.db.log ++ records →
      outcomes records = [] →
      db.ldkEventPaymentHash = system.db.ldkEventPaymentHash.insert head.event.paymentHash () →
      system.db.paymentHash.get? head.event.paymentHash = none ∨ ¬claiming →
      Settling operator claiming (system.commit head db calls) := by
    intro records outgoing attempts log unsettled marks unattempted
    refine settling.frame outgoing attempts log unsettled rfl ?_ ?_ still
    · intro other before
      change db.ldkEventPaymentHash.contains other = true
      rw [marks]
      exact (SortedMap.contains_insert _ _ _ _).mpr (Or.inr before)
    · intro other isMarked
      change db.ldkEventPaymentHash.contains other = true at isMarked
      rw [marks] at isMarked
      rcases (SortedMap.contains_insert _ _ _ _).mp isMarked with same | before
      · exact Or.inr (same ▸ ⟨unattempted, reported.final⟩)
      · exact Or.inl before
  have settled : ∀ {paymentHash : Hash} {status : PaymentStatus} {success : Option (Nat × Nat)},
      head.event.paymentHash = paymentHash →
      system.ldk.payments.get? paymentHash = some (.outbound status) →
      ((∃ preimage lightningFee, status = .succeeded preimage ∧
        success = some (preimage, lightningFee)) ∨ (status = .failed ∧ success = none)) →
      settleOutgoing wallet system.db paymentHash success = .ok (db, calls) →
      Settling operator claiming (system.commit head db calls) := by
    intro paymentHash status success isHash held either done
    rcases (settleOutgoing_cases done).2 with ⟨_, isDb⟩ | ⟨_, absent, rfl⟩ |
      ⟨fresh, operation, row, found, _, finalized⟩
    · exact kept isDb rfl
    · refine @marked [] rfl rfl (List.append_nil _).symm rfl (isHash ▸ rfl) (Or.inl ?_)
      -- an attempt has its contract
      rw [isHash]
      cases isAttempt : system.db.paymentHash.get? paymentHash with
      | none => rfl
      | some operation =>
          obtain ⟨row, found, _⟩ := settling.linked paymentHash operation isAttempt
          rw [outgoing_eq_some.mpr ⟨isAttempt, found⟩] at absent
          cases absent
    · obtain ⟨isAttempt, isRow⟩ := outgoing_eq_some.mp found
      obtain ⟨_, isDb⟩ := gatewayFinalizeSend_eq_ok.mp finalized
      rcases either with ⟨preimage, lightningFee, rfl, rfl⟩ | ⟨rfl, rfl⟩
      · by_cases claimable : wallet.claims = true
        · obtain rfl := isDb.trans (if_pos claimable)
          refine settling.settle
            (.sendSuccess operation row.contract row.outpoint preimage lightningFee) isAttempt held
            (Or.inr (Or.inl ⟨preimage, rfl⟩)) fresh rfl ?_ rfl rfl rfl rfl rfl still
          rintro _ same
          cases same
          exact ⟨row, lightningFee, isRow, rfl⟩
        · obtain rfl := isDb.trans (if_neg claimable)
          exact @marked [] rfl rfl (List.append_nil _).symm rfl (isHash ▸ rfl)
            (Or.inr fun claims' => claimable (claims claims'))
      · obtain rfl := isDb
        refine settling.settle (.sendCancel operation row.contract) isAttempt held
          (Or.inr (Or.inr rfl)) fresh rfl ?_ rfl rfl rfl rfl rfl still
        rintro preimage impossible
        cases impossible
  cases isEvent : head.event with
  | paymentClaimable paymentHash amountMsat =>
      rw [isEvent] at handled reported
      have isHash : head.event.paymentHash = paymentHash := by rw [isEvent]; rfl
      have unattempted : system.db.paymentHash.get? head.event.paymentHash = none := by
        rw [isHash]
        exact Option.not_isSome_iff_eq_none.mp fun attempted =>
          settling.outbound paymentHash attempted reported
      rcases handlePaymentClaimable_cases handled with
        ⟨_, isDb, _⟩ | ⟨_, rfl, _⟩ | ⟨_, row, _, _, rfl, _⟩
      · exact kept isDb rfl
      · refine @marked [] rfl rfl (List.append_nil _).symm rfl ?_ (Or.inl unattempted)
        rw [isHash]
        rfl
      · refine @marked [.receive paymentHash row.contract] rfl rfl rfl rfl ?_ (Or.inl unattempted)
        rw [isHash]
        rfl
  | paymentSuccessful paymentHash preimage feePaidMsat =>
      rw [isEvent] at handled reported
      exact settled (by rw [isEvent]; rfl) reported
        (Or.inl ⟨preimage, feePaidMsat.getD 0, rfl, rfl⟩) handled
  | paymentFailed paymentHash =>
      rw [isEvent] at handled reported
      exact settled (by rw [isEvent]; rfl) reported (Or.inr ⟨rfl, rfl⟩) handled

/-- A request that the node does not take on leaves at most a refusal there. -/
theorem Settling.lost (settling : Settling operator claiming system) {paymentHash : Hash}
    {recorded : Bool} (unattempted : system.db.paymentHash.contains paymentHash = false)
    (unheld : system.ldk.payments.contains paymentHash = false) :
    Settling operator claiming
      { system with ldk := system.ldk.send paymentHash (.refused recorded) } := by
  cases recorded with
  | false => exact settling
  | true =>
      refine settling.hold paymentHash (.outbound .refused) rfl rfl rfl ?_ ?_ ?_
      · intro final
        exact Bool.eq_false_iff.mp unheld
          (Option.ne_none_iff_isSome.mp final.not_none)
      · intro status same accepted
        cases same
        exact absurd rfl accepted
      · intro operation isAttempt
        exact absurd ((SortedMap.contains_iff _ _).mpr ⟨operation, isAttempt⟩)
          (Bool.eq_false_iff.mp unattempted)

theorem Settling.sent (settling : Settling operator claiming system) {wallet : Wallet}
    {answer : LdkAnswer} {payload : SendRequest} {db : GatewayDb} {ldk : Ldk}
    (sent : Sent ctx wallet answer system.db system.ldk payload db ldk) :
    Settling operator claiming { system with db := db, ldk := ldk } := by
  cases sent with
  | known => exact settling
  | paid fresh unattempted unheld accepted =>
      have taken : Settling operator claiming
          { system with db := system.db.take (ctx.contractId payload.contract) payload } :=
        settling.take fresh rfl rfl rfl (Or.inl rfl) rfl rfl rfl
      refine taken.begin .accepted unheld (SortedMap.get?_insert_self _ _ _) rfl ?_
        rfl rfl rfl
      intro _ settled
      rw [show outcomes _ = outcomes system.db.log ++ [] from outcomes_append _ _,
        List.append_nil] at settled
      exact Bool.eq_false_iff.mp fresh (settling.taken _ settled)
  | refused fresh unattempted unheld recorded =>
      have taken : Settling operator claiming
          { system with
            db := (system.db.take (ctx.contractId payload.contract) payload).record
              (.sendCancel (ctx.contractId payload.contract) payload.contract) } :=
        settling.take fresh rfl rfl (List.append_assoc _ _ _) (Or.inr rfl) rfl rfl rfl
      refine taken.begin (.refused recorded) unheld (SortedMap.get?_insert_self _ _ _)
        rfl ?_ rfl rfl rfl
      intro impossible
      cases impossible
  | cancelled fresh =>
      exact settling.take fresh rfl rfl (List.append_assoc _ _ _) (Or.inr rfl) rfl rfl rfl
  | swapped fresh registered amount =>
      by_cases claims : wallet.claims = true
      · rw [if_pos claims]
        exact settling.take fresh rfl rfl
          ((List.append_assoc _ _ _).trans (List.append_assoc _ _ _)) (Or.inr rfl) rfl rfl rfl
      · rw [if_neg claims]
        exact settling.take fresh rfl rfl (List.append_assoc _ _ _) (Or.inl rfl) rfl rfl rfl

theorem Settling.step {action : Action} (settling : Settling operator claiming system)
    (careful : Careful operator claiming system action) (step : Step ctx system action next) :
    Settling operator claiming next := by
  -- what is neither an event nor a request for a payment
  have idle : ∀ {next : System}, next.db.outgoingContract = system.db.outgoingContract →
      next.db.paymentHash = system.db.paymentHash → next.db.log = system.db.log →
      next.ldk = system.ldk → next.db.ldkEventPaymentHash = system.db.ldkEventPaymentHash →
      (∀ head, next.head = some head → Reported system.ldk head.event) →
      Settling operator claiming next := by
    intro next outgoing attempts log ldk marks head
    refine settling.frame outgoing attempts (log.trans (List.append_nil _).symm) rfl ldk ?_ ?_ head
    · rw [marks]
      exact fun _ marked => marked
    · rw [marks]
      exact fun _ marked => Or.inl marked
  -- an invoice, or a payment of the operator, under a hash that is free
  have fresh : ∀ {paymentHash : Hash} {payment : LdkPayment},
      system.db.paymentHash.contains paymentHash = false →
      system.ldk.payments.contains paymentHash = false →
      (∀ status, payment = .outbound status → status ≠ .refused → operator paymentHash) →
      Settling operator claiming
        { system with ldk := system.ldk.set paymentHash payment } := by
    intro paymentHash payment unattempted unheld owned
    refine settling.hold paymentHash payment rfl rfl rfl ?_ ?_ ?_
    · exact fun final => Bool.eq_false_iff.mp unheld (Option.ne_none_iff_isSome.mp final.not_none)
    · exact fun status same accepted => Or.inl (owned status same accepted)
    · intro operation isAttempt
      exact absurd ((SortedMap.contains_iff _ _).mpr ⟨operation, isAttempt⟩)
        (Bool.eq_false_iff.mp unattempted)
  have inbound : ∀ {paymentHash : Hash} (status : PaymentStatus),
      LdkPayment.inbound = .outbound status → status ≠ .refused → operator paymentHash := by
    intro paymentHash status impossible
    cases impossible
  cases step with
  | next idle' event =>
      refine idle rfl rfl rfl rfl rfl ?_
      intro head same
      cases same
      exact careful
  | commit working wallet handled => exact settling.commit working careful handled
  | @lose head working wallet db calls handled =>
      refine idle rfl rfl rfl rfl rfl ?_
      intro other same
      cases same
      exact settling.head head working
  | mark working committed =>
      refine idle rfl rfl rfl rfl rfl ?_
      intro head impossible
      cases impossible
  | send wallet answer payload held sent => exact settling.sent (send_cases sent).2
  | loseSend wallet answer payload held sent =>
      cases (send_cases sent).2 with
      | known => exact settling
      | paid _ _ _ accepted => exact absurd accepted careful
      | refused _ unattempted unheld recorded => exact settling.lost unattempted unheld
      | cancelled => exact settling
      | swapped => exact settling
  | receive payload invoice received =>
      obtain ⟨_, _, unattempted, unheld, rfl, _, rfl⟩ := receive_cases received
      refine (fresh unattempted unheld inbound).frame rfl rfl (List.append_nil _).symm rfl rfl
        (fun _ marked => marked) (fun _ marked => Or.inl marked) ?_
      exact (fresh unattempted unheld inbound).head
  | loseReceive payload invoice received =>
      obtain ⟨_, _, unattempted, unheld, rfl, _, rfl⟩ := receive_cases received
      exact fresh unattempted unheld inbound
  | addMint mint => exact idle rfl rfl rfl rfl rfl settling.head
  | removeMint mint => exact absurd careful id
  | node paymentHash payment =>
      rcases careful with ⟨pending, settles⟩ | ⟨unheld, unattempted, either⟩
      · refine settling.hold paymentHash payment rfl rfl rfl ?_ ?_ ?_
        · exact fun final => final.not_pending pending
        · exact fun _ _ _ =>
            settling.attempted paymentHash .pending pending PaymentStatus.noConfusion
        · intro operation isAttempt
          refine ⟨pending, ?_⟩
          rintro rfl
          rcases settles with ⟨_, impossible⟩ | impossible <;> cases impossible
      · refine fresh unattempted (Option.isSome_eq_false_iff.mpr
          (Option.isNone_iff_eq_none.mpr unheld)) ?_
        rcases either with rfl | ⟨owned, rfl⟩
        · exact inbound
        · exact fun _ _ _ => owned

theorem settling_of_reachable
    (reached : Reachable ctx (Careful operator claiming) system) :
    Settling operator claiming system :=
  reached.induction (Settling.start operator claiming) fun settling careful step =>
    settling.step careful step

end Steps

/-! ### Over a run -/

/-- An outgoing contract has at most one outcome: it is claimed once or
forfeited once. -/
theorem outgoing_settled_once {ctx : GatewayContext} {operator : Hash → Prop} {system : System}
    (reached : Reachable ctx (Careful operator False) system) :
    (outcomes system.db.log).Nodup :=
  (settling_of_reachable reached).once

/-! Two contracts for one invoice: the first is paid, the second forfeited. -/

def sampleSender : GatewayContext :=
  { sampleGateway with contractId := fun contract => contract.refundPk + 100 }

def sampleOutgoing (refundPk : XOnlyPublicKey) : OutgoingContract :=
  { paymentHash := 6
    amount := 1000
    fee := 0
    claimPk := 3
    refundPk := refundPk
    invoice := 4 }

def sampleRequest (refundPk : XOnlyPublicKey) : SendRequest :=
  { mint := 0
    outpoint := ⟨refundPk, 0⟩
    contract := sampleOutgoing refundPk
    invoice :=
      { digest := 4
        paymentHash := 6
        amountMilliSatoshis := some 1000
        payeePubKey := 2 } }

theorem Reachable.after {ctx : GatewayContext} {allowed : System → Action → Prop}
    {system next : System} (reached : Reachable ctx allowed system) (action : Action)
    (isAllowed : allowed system action) (step : Step ctx system action next) :
    Reachable ctx allowed next := reached.step isAllowed step

/-- The first request is answered. -/
def samplePending : System :=
  { System.start with
    db := ({ GatewayDb.empty with mints := [0] }.take 101 (sampleRequest 1)).attempt 6 101
    ldk := System.start.ldk.send 6 .accepted }

/-- Both requests are answered. -/
def sampleSent : System :=
  { samplePending with
    db :=
      (samplePending.db.take 102 (sampleRequest 2)).record (.sendCancel 102 (sampleOutgoing 2)) }

theorem sampleSent_reachable (claiming : Prop) :
    Reachable sampleSender (Careful (fun _ => False) claiming) sampleSent := by
  have added : Reachable sampleSender (Careful (fun _ => False) claiming)
      { System.start with db := { GatewayDb.empty with mints := [0] } } :=
    Reachable.start.after (.addMint 0) trivial (.addMint 0)
  have first : Reachable sampleSender (Careful (fun _ => False) claiming) samplePending :=
    added.after (.send sampleWallet .accepted (sampleRequest 1)) trivial
      (.send sampleWallet .accepted (sampleRequest 1) (some 101) rfl)
  exact first.after (.send sampleWallet .accepted (sampleRequest 2)) trivial
    (.send sampleWallet .accepted (sampleRequest 2) (some 102) rfl)

theorem outgoing_settled_once_sample :
    outcomes sampleSent.db.log = [102] ∧ (outcomes sampleSent.db.log).Nodup :=
  ⟨rfl, outgoing_settled_once (sampleSent_reachable False)⟩

/-- A forfeited contract whose payment hash the node has paid, or may still
pay, is not the one the payment is for: the operator pays the hash himself, or
it is the attempt of another contract. -/
theorem outgoing_forfeit_safe {ctx : GatewayContext} {operator : Hash → Prop} {system : System}
    (reached : Reachable ctx (Careful operator False) system) {operation : OperationId}
    {contract : OutgoingContract} (forfeited : .sendCancel operation contract ∈ system.db.log)
    (paid : system.ldk.payments.get? contract.paymentHash = some (.outbound .pending) ∨
      ∃ preimage, system.ldk.payments.get? contract.paymentHash =
        some (.outbound (.succeeded preimage))) :
    operator contract.paymentHash ∨ ∃ other,
      system.db.paymentHash.get? contract.paymentHash = some other ∧ other ≠ operation := by
  have settling := settling_of_reachable reached
  have attempted : operator contract.paymentHash ∨
      system.db.paymentHash.contains contract.paymentHash = true := by
    rcases paid with pending | ⟨preimage, succeeded⟩
    · exact settling.attempted _ _ pending PaymentStatus.noConfusion
    · exact settling.attempted _ _ succeeded PaymentStatus.noConfusion
  refine attempted.imp_right fun isAttempted => ?_
  obtain ⟨other, isOther⟩ := (SortedMap.contains_iff _ _).mp isAttempted
  refine ⟨other, isOther, ?_⟩
  rintro rfl
  rcases paid with pending | ⟨preimage, succeeded⟩
  · refine settling.waiting _ other .pending isOther pending PaymentStatus.noConfusion ?_
      (mem_outcomes_of_cancel forfeited)
    exact Bool.eq_false_iff.mpr fun marked =>
      (settling.marks _ marked).not_pending pending
  · exact settling.paid _ other preimage isOther succeeded contract forfeited

theorem outgoing_forfeit_safe_sample :
    False ∨ ∃ other, sampleSent.db.paymentHash.get? 6 = some other ∧ other ≠ 102 :=
  outgoing_forfeit_safe (sampleSent_reachable False)
    (show .sendCancel 102 (sampleOutgoing 2) ∈ sampleSent.db.log by decide) (Or.inl rfl)

/-- Once the event of a payment that succeeded is handled, the contract it is
for is claimed with the preimage and not forfeited, where no contract is too
small to be claimed. -/
theorem outgoing_paid_claimed {ctx : GatewayContext} {operator : Hash → Prop} {system : System}
    (reached : Reachable ctx (Careful operator True) system) {paymentHash : Hash}
    {operation : OperationId} {preimage : Nat}
    (isAttempt : system.db.paymentHash.get? paymentHash = some operation)
    (succeeded : system.ldk.payments.get? paymentHash = some (.outbound (.succeeded preimage)))
    (handled : system.db.ldkEventPaymentHash.contains paymentHash = true) :
    (∃ row lightningFee, system.db.outgoing paymentHash = some (operation, row) ∧
      row.contract.paymentHash = paymentHash ∧
      .sendSuccess operation row.contract row.outpoint preimage lightningFee ∈ system.db.log) ∧
    ∀ contract, .sendCancel operation contract ∉ system.db.log := by
  have settling := settling_of_reachable reached
  refine ⟨?_, settling.paid paymentHash operation preimage isAttempt succeeded⟩
  obtain ⟨row, lightningFee, found, success⟩ :=
    settling.claimed trivial paymentHash operation preimage isAttempt succeeded handled
  obtain ⟨other, foundOther, hash⟩ := settling.linked paymentHash operation isAttempt
  rw [found] at foundOther
  cases foundOther
  exact ⟨row, lightningFee, outgoing_eq_some.mpr ⟨isAttempt, found⟩, hash, success⟩

def samplePaid : System :=
  let settled := { sampleSent with ldk := sampleSent.ldk.set 6 (.outbound (.succeeded 5)) }
  (settled.arrive (.paymentSuccessful 6 5 none)).commit
    ⟨.paymentSuccessful 6 5 none, [], 0, false, false⟩
    ((sampleSent.db.mark 6).record (.sendSuccess 101 (sampleOutgoing 1) ⟨1, 0⟩ 5 0)) []

theorem samplePaid_reachable :
    Reachable sampleSender (Careful (fun _ => False) True) samplePaid :=
  (((sampleSent_reachable True).after (.node 6 (.outbound (.succeeded 5)))
    (Or.inl ⟨rfl, Or.inl ⟨5, rfl⟩⟩) (.node 6 (.outbound (.succeeded 5)))).after
    (.next (.paymentSuccessful 6 5 none)) rfl (.next rfl (.paymentSuccessful 6 5 none))).after
    (.commit sampleWallet) (fun _ => rfl) (.commit rfl sampleWallet rfl)

theorem outgoing_paid_claimed_sample :
    (∃ row lightningFee, samplePaid.db.outgoing 6 = some (101, row) ∧
      row.contract.paymentHash = 6 ∧
      .sendSuccess 101 row.contract row.outpoint 5 lightningFee ∈ samplePaid.db.log) ∧
    ∀ contract, .sendCancel 101 contract ∉ samplePaid.db.log :=
  outgoing_paid_claimed samplePaid_reachable rfl rfl rfl

end Picomint.Gateway
