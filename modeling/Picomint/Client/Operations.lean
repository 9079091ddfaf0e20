/-
The write transactions of the client's ecash module.

The other modules hand it a builder; it funds the builder from an account,
mints the change and submits the transaction.
-/

import Picomint.Client.Selection
import Picomint.Client.Tables

namespace Picomint.Client

open Consensus

/-! ### Balancing a transaction -/

def noteInput (ctx : ClientContext) (note : SpendableNote) : TxInput :=
  { input := .ecash { note := note.note ctx.secret.toNoteKeys }
    keypair := note.keypair
    amount := note.amount
    fee := ECASH_INPUT_FEE }

def requestOutput (ctx : ClientContext) (request : NoteIssuanceRequest) : TxOutput :=
  { output := .ecash (request.output ctx.secret.toNoteKeys)
    amount := request.denomination.amount
    fee := ECASH_OUTPUT_FEE }

/-- A request under the account's next counter. -/
def issueRequest (ctx : ClientContext) (account : Account)
    (state : List NoteIssuanceRequest × Tables) (denomination : Denomination) :
    List NoteIssuanceRequest × Tables :=
  let (counter, tables) := state.2.nextCounter account
  (state.1 ++ [NoteIssuanceRequest.new ctx.secret account denomination counter], tables)

def issueRequests (ctx : ClientContext) (account : Account) (tables : Tables)
    (denominations : List Denomination) : List NoteIssuanceRequest × Tables :=
  denominations.foldl (issueRequest ctx account) ([], tables)

/-- `sort_by_key`, which is stable. -/
def sortByDenomination (notes : List SpendableNote) : List SpendableNote :=
  notes.insertionSort (fun left right => left.denomination ≤ right.denomination)

/-- Pull funding notes and mint the excess as change. -/
def fund (ctx : ClientContext) (tables : Tables) (account : Account) (builder : TxBuilder)
    (max : Bool) :
    Attempt ((List SpendableNote × List NoteIssuanceRequest) × TxBuilder × Tables) := do
  let selected ← refuse (selectFundingInput (tables.accountNotes account) builder.deficit)
  let spendableNotes := sortByDenomination selected
  let builder := (spendableNotes.map (noteInput ctx)).foldl TxBuilder.addInput builder
  insist (builder.deficit = 0)
  let denoms := (selectOutputDenominations ECASH_OUTPUT_FEE builder.excessInput
    (changeDenominations max)).insertionSort (fun left right => left ≤ right)
  if denoms.isEmpty && !builder.hasOutputs then .error .refused
  else
    let tables ← spendableNotes.foldlM (Tables.removeSpendableNote account) tables
    let (issuanceRequests, tables) := issueRequests ctx account tables denoms
    let builder := (issuanceRequests.map (requestOutput ctx)).foldl TxBuilder.addOutput builder
    insist (builder.deficit = 0)
    return ((spendableNotes, issuanceRequests), builder, tables)

/-- The random keys of the state machines of a transaction. -/
structure MachineIds where
  submission : SmId
  ecash : SmId
deriving DecidableEq, Repr

def submit (ctx : ClientContext) (tables : Tables) (account : Account) (operation : OperationId)
    (builder : TxBuilder) (reissue : Nat) (event : TransactionId → Event) (id : SmId) :
    Attempt (TransactionId × Tables) := do
  let fee := builder.totalFee
  let tx ← builder.build ctx
  let txid := ctx.txHash tx.inputs tx.outputs
  let tables ← tables.addTxSubmissionStateMachine id { account, operation, tx }
  let tables := tables.logEvent account operation (event txid)
  return (txid, tables.logEvent account operation (.txCreate txid reissue fee))

def finalizeAndSubmitTx (ctx : ClientContext) (tables : Tables) (account : Account)
    (operation : OperationId) (builder : TxBuilder) (targets : List NoteIssuanceRequest)
    (max : Bool) (event : TransactionId → Event) (ids : MachineIds) :
    Attempt (TransactionId × Tables) := do
  let deficit := builder.deficit
  let ((spendableNotes, changeRequests), builder, tables) ← fund ctx tables account builder max
  let issuanceRequests := targets ++ changeRequests
  let funding := amountSum (spendableNotes.map SpendableNote.amount)
  let reissue := funding - deficit
  let (txid, tables) ← submit ctx tables account operation builder reissue event ids.submission
  if spendableNotes.isEmpty && issuanceRequests.isEmpty then return (txid, tables)
  else
    let tables ← tables.addEcashStateMachine ids.ecash
      { account
        operation
        txid
        spendableNotes
        issuanceRequests
        targets := targets.length }
    return (txid, tables)

/-! ### Sending and receiving ecash -/

/-- `next_multiple_of`, which wraps. -/
def roundToMultiple (amount minDenomination : Nat) : Nat :=
  if amount % minDenomination = 0 then amount
  else amountAdd amount (minDenomination - amount % minDenomination)

def smallestAmount : Nat := Denomination.amount 9

def sendNote (state : Nat × List SpendableNote) (note : SpendableNote) :
    Nat × List SpendableNote :=
  match checkedSub state.1 note.denomination.amount with
  | some amount => (amount, state.2 ++ [note])
  | none => state

/-- `send_ecash_dbtx`: notes of exactly the amount, taken out of the table. -/
def sendEcash (tables : Tables) (account : Account) (remainingAmount : Nat) :
    Attempt (List SpendableNote × Tables) := do
  let sorted := (tables.accountNotes account).insertionSort
    (fun left right => right.denomination ≤ left.denomination)
  let (remaining, notes) := sorted.foldl sendNote (remainingAmount, [])
  if remaining ≠ 0 then .error .refused
  else
    let tables ← notes.foldlM (Tables.removeSpendableNote account) tables
    return (notes, tables)

/-- The fast path of `ecash_send`. -/
def ecashSendDirect (tables : Tables) (account : Account) (operation : OperationId)
    (amount : Nat) : Attempt Tables := do
  let amount := roundToMultiple amount smallestAmount
  let (ecash, tables) ← sendEcash tables account amount
  let tables := tables.logEvent account operation (.send amount)
  return tables.logEvent account operation (.sendSuccess ecash)

def ecashSendBuilder (ctx : ClientContext) (targets : List NoteIssuanceRequest) : TxBuilder :=
  (targets.map (requestOutput ctx)).foldl TxBuilder.addOutput TxBuilder.new

/-- The slow path of `ecash_send`: reissue notes for the amount. -/
def ecashSendReissue (ctx : ClientContext) (tables : Tables) (account : Account)
    (operation : OperationId) (amount : Nat) (ids : MachineIds) :
    Attempt (TransactionId × Tables) := do
  let amount := roundToMultiple amount smallestAmount
  let (targets, tables) := issueRequests ctx account tables (representAmount amount)
  let tables := tables.logEvent account operation (.send amount)
  finalizeAndSubmitTx ctx tables account operation (ecashSendBuilder ctx targets) targets false
    Event.reissuance ids

def ecashSendMax (tables : Tables) (account : Account) (operation : OperationId) :
    Attempt Tables := do
  let notes := tables.accountNotes account
  if notes.isEmpty then .error .refused
  else
    let tables ← notes.foldlM (Tables.removeSpendableNote account) tables
    let tables := tables.logEvent account operation
      (.send (amountSum (notes.map SpendableNote.amount)))
    return tables.logEvent account operation (.sendSuccess notes)

def ecashReceiveBuilder (ctx : ClientContext) (notes : List SpendableNote) : TxBuilder :=
  (notes.map (noteInput ctx)).foldl TxBuilder.addInput TxBuilder.new

/-- The operation is the hash of the bundle. -/
def ecashReceive (ctx : ClientContext) (tables : Tables) (account : Account)
    (operation : OperationId) (notes : List SpendableNote) (ids : MachineIds) :
    Attempt (TransactionId × Tables) := do
  if notes.isEmpty then .error .refused
  else if MAX_INPUTS < notes.length then .error .refused
  else if notes.any (fun note => note.amount ≤ ECASH_INPUT_FEE) then .error .refused
  else if tables.receiveOperationId.contains operation then .error .refused
  else
    let tables := { tables with
      receiveOperationId := tables.receiveOperationId.insert operation ⟨⟩ }
    let amount := amountSum (notes.map SpendableNote.amount)
    finalizeAndSubmitTx ctx tables account operation (ecashReceiveBuilder ctx notes) [] false
      (fun txid => .receive txid amount) ids

def Tables.markReceived (tables : Tables) (operation : OperationId) : Tables :=
  { tables with receiveOperationId := tables.receiveOperationId.insert operation ⟨⟩ }

/-- The checks of a bundle on its own. -/
structure ReceivableBundle (notes : List SpendableNote) : Prop where
  nonempty : notes ≠ []
  few : notes.length ≤ MAX_INPUTS
  worth : ∀ note ∈ notes, ECASH_INPUT_FEE < note.amount

theorem ecashReceive_eq_ok {ctx : ClientContext} {tables after : Tables} {account : Account}
    {operation : OperationId} {notes : List SpendableNote} {ids : MachineIds}
    {txid : TransactionId} :
    ecashReceive ctx tables account operation notes ids = .ok (txid, after) ↔
      ReceivableBundle notes ∧ tables.receiveOperationId.contains operation = false ∧
        finalizeAndSubmitTx ctx (tables.markReceived operation) account operation
          (ecashReceiveBuilder ctx notes) [] false
          (fun txid => .receive txid (amountSum (notes.map SpendableNote.amount))) ids =
            .ok (txid, after) := by
  unfold ecashReceive
  constructor
  · intro received
    split at received
    · cases received
    rename_i nonempty
    split at received
    · cases received
    rename_i few
    split at received
    · cases received
    rename_i worth
    split at received
    · cases received
    rename_i fresh
    rw [List.isEmpty_iff] at nonempty
    rw [List.any_eq_true, not_exists] at worth
    refine ⟨⟨nonempty, not_lt.mp few, ?_⟩, Bool.not_eq_true _ ▸ fresh, received⟩
    intro note member
    exact not_le.mp (fun cheap => worth note ⟨member, decide_eq_true cheap⟩)
  · rintro ⟨bundle, fresh, submitted⟩
    rw [if_neg (by rw [List.isEmpty_iff]; exact bundle.nonempty), if_neg (not_lt.mpr bundle.few),
      if_neg, if_neg (by rw [fresh]; decide)]
    · exact submitted
    · rw [List.any_eq_true]
      rintro ⟨note, member, cheap⟩
      exact absurd (bundle.worth note member) (not_lt.mpr (of_decide_eq_true cheap))

/-! ### What balancing does -/

section Fund

variable {ctx : ClientContext} {account : Account}

def Tables.counter (tables : Tables) (account : Account) : Nat :=
  (tables.derivationCounter.get? account).getD 0

/-- Requests under consecutive counters of the account, which is all that
changes. -/
structure Requested (ctx : ClientContext) (account : Account) (tables after : Tables)
    (denominations : List Denomination) (requests : List NoteIssuanceRequest) : Prop where
  denominations : requests.map NoteIssuanceRequest.denomination = denominations
  issuances : requests.map NoteIssuanceRequest.issuance =
    (List.range' (tables.counter account) requests.length).map
      (NoteIssuance.new ctx.secret account)
  only : after = { tables with derivationCounter := after.derivationCounter }
  counter : ∀ other, after.counter other =
    if other = account then tables.counter account + requests.length else tables.counter other

theorem Requested.nil (ctx : ClientContext) (account : Account) (tables : Tables) :
    Requested ctx account tables tables [] [] where
  denominations := rfl
  issuances := rfl
  only := rfl
  counter := by
    intro other
    split
    · rename_i same
      rw [same]
      rfl
    · rfl

theorem Requested.step {tables : Tables} {denominations : List Denomination}
    {state : List NoteIssuanceRequest × Tables}
    (issued : Requested ctx account tables state.2 denominations state.1)
    (denomination : Denomination) :
    Requested ctx account tables (issueRequest ctx account state denomination).2
      (denominations ++ [denomination]) (issueRequest ctx account state denomination).1 := by
  have current : state.2.counter account = tables.counter account + state.1.length := by
    rw [issued.counter, if_pos rfl]
  have next : (issueRequest ctx account state denomination).1 = state.1 ++
      [NoteIssuanceRequest.new ctx.secret account denomination (state.2.counter account)] := rfl
  have rows : (issueRequest ctx account state denomination).2 = { state.2 with
      derivationCounter :=
        state.2.derivationCounter.insert account (state.2.counter account + 1) } := rfl
  constructor
  · rw [next, List.map_append, issued.denominations]
    rfl
  · rw [next, List.map_append, issued.issuances, List.length_append, current,
      List.length_singleton, List.range'_concat, List.map_append, Nat.one_mul]
    rfl
  · rw [rows, issued.only]
  · intro other
    rw [rows, next, List.length_append, List.length_singleton]
    unfold Tables.counter
    simp only
    rw [SortedMap.get?_insert]
    by_cases same : account = other
    · subst same
      rw [if_pos rfl, if_pos rfl]
      change state.2.counter account + 1 = _
      rw [current]
      rfl
    · rw [if_neg same, if_neg (Ne.symm same)]
      have before := issued.counter other
      rw [if_neg (Ne.symm same)] at before
      exact before

theorem issueRequests_issued (ctx : ClientContext) (account : Account) (tables : Tables)
    (denominations : List Denomination) :
    Requested ctx account tables (issueRequests ctx account tables denominations).2 denominations
      (issueRequests ctx account tables denominations).1 := by
  have folded : ∀ (denominations : List Denomination) (done : List Denomination)
      (state : List NoteIssuanceRequest × Tables),
      Requested ctx account tables state.2 done state.1 →
        Requested ctx account tables (denominations.foldl (issueRequest ctx account) state).2
          (done ++ denominations) (denominations.foldl (issueRequest ctx account) state).1 := by
    intro denominations
    induction denominations with
    | nil =>
        intro done state issued
        rw [List.append_nil]
        exact issued
    | cons denomination rest inductionHypothesis =>
        intro done state issued
        rw [List.append_cons]
        exact inductionHypothesis _ _ (issued.step denomination)
  exact folded denominations [] ([], tables) (Requested.nil ctx account tables)

/-- The balanced transaction: the drawn notes after the caller's inputs, the
change after the caller's outputs. -/
structure Funded (ctx : ClientContext) (tables : Tables) (account : Account)
    (builder : TxBuilder) (max : Bool) (spendableNotes : List SpendableNote)
    (requests : List NoteIssuanceRequest) (after : TxBuilder) : Prop where
  selected : ∃ selected,
    selectFundingInput (tables.accountNotes account) builder.deficit = some selected ∧
      spendableNotes.Perm selected
  inputs : after.inputs = builder.inputs ++ spendableNotes.map (noteInput ctx)
  outputs : after.outputs = builder.outputs ++ requests.map (requestOutput ctx)
  covered : TxBuilder.deficit { builder with inputs := after.inputs } = 0
  change : (requests.map NoteIssuanceRequest.denomination).Perm
    (selectOutputDenominations ECASH_OUTPUT_FEE
      (TxBuilder.excessInput { builder with inputs := after.inputs }) (changeDenominations max))
  carried : after.outputs ≠ []
  balanced : after.deficit = 0

def TxBuilder.addNotes (ctx : ClientContext) (builder : TxBuilder)
    (notes : List SpendableNote) : TxBuilder :=
  { builder with inputs := builder.inputs ++ notes.map (noteInput ctx) }

def TxBuilder.addChange (ctx : ClientContext) (builder : TxBuilder)
    (requests : List NoteIssuanceRequest) : TxBuilder :=
  { builder with outputs := builder.outputs ++ requests.map (requestOutput ctx) }

def changeDenoms (excess : Nat) (max : Bool) : List Denomination :=
  (selectOutputDenominations ECASH_OUTPUT_FEE excess (changeDenominations max)).insertionSort
    (fun left right => left ≤ right)

variable {tables after : Tables} {builder builder' : TxBuilder} {max : Bool}
  {spendableNotes : List SpendableNote} {requests : List NoteIssuanceRequest}

theorem fund_eq_ok :
    fund ctx tables account builder max = .ok ((spendableNotes, requests), builder', after) ↔
      ∃ selected removed,
        selectFundingInput (tables.accountNotes account) builder.deficit = some selected ∧
        spendableNotes = sortByDenomination selected ∧
        (builder.addNotes ctx spendableNotes).deficit = 0 ∧
        (changeDenoms (builder.addNotes ctx spendableNotes).excessInput max ≠ [] ∨
          builder.outputs ≠ []) ∧
        spendableNotes.foldlM (Tables.removeSpendableNote account) tables = .ok removed ∧
        issueRequests ctx account removed
          (changeDenoms (builder.addNotes ctx spendableNotes).excessInput max) =
            (requests, after) ∧
        builder' = (builder.addNotes ctx spendableNotes).addChange ctx requests ∧
        builder'.deficit = 0 := by
  unfold fund
  simp only [attempt_bind_eq_ok, refuse_eq_ok, insist_eq_ok, decide_eq_true_eq,
    TxBuilder.addInputs_eq]
  constructor
  · rintro ⟨selected, chosen, _, covered, funded⟩
    split at funded
    · cases funded
    · rename_i carried
      simp only [attempt_bind_eq_ok, insist_eq_ok, decide_eq_true_eq,
        TxBuilder.addOutputs_eq] at funded
      obtain ⟨removed, spent, _, balanced, result⟩ := funded
      cases result
      refine ⟨selected, removed, chosen, rfl, covered, ?_, spent, rfl, rfl, balanced⟩
      rw [Bool.and_eq_true, not_and_or, List.isEmpty_iff] at carried
      refine carried.imp_right (fun outputs => ?_)
      unfold TxBuilder.hasOutputs at outputs
      simp only [Bool.not_not, List.isEmpty_iff] at outputs
      exact outputs
  · rintro ⟨selected, removed, chosen, rfl, covered, carried, spent, issued, rfl, balanced⟩
    refine ⟨selected, chosen, (), covered, ?_⟩
    rw [if_neg]
    · simp only [attempt_bind_eq_ok, insist_eq_ok, decide_eq_true_eq, TxBuilder.addOutputs_eq]
      refine ⟨removed, spent, (), ?_, ?_⟩
      · change TxBuilder.deficit ((builder.addNotes ctx (sortByDenomination selected)).addChange
          ctx (issueRequests ctx account removed (changeDenoms
            (builder.addNotes ctx (sortByDenomination selected)).excessInput max)).1) = 0
        rw [issued]
        exact balanced
      · exact congrArg (fun issue : List NoteIssuanceRequest × Tables => Except.ok
          ((sortByDenomination selected, issue.1),
            (builder.addNotes ctx (sortByDenomination selected)).addChange ctx issue.1, issue.2))
          issued
    · rw [Bool.and_eq_true, not_and_or, List.isEmpty_iff]
      refine carried.imp_right (fun outputs => ?_)
      unfold TxBuilder.hasOutputs
      simp only [Bool.not_not, List.isEmpty_iff]
      exact outputs

theorem fund_ok
    (funded : fund ctx tables account builder max =
      .ok ((spendableNotes, requests), builder', after)) :
    Funded ctx tables account builder max spendableNotes requests builder' ∧
      ∃ removed denoms,
        spendableNotes.foldlM (Tables.removeSpendableNote account) tables = .ok removed ∧
          Requested ctx account removed after denoms requests := by
  obtain ⟨selected, removed, chosen, rfl, covered, carried, spent, isIssued, rfl, balanced⟩ :=
    fund_eq_ok.mp funded
  have issued := issueRequests_issued ctx account removed
    (changeDenoms (builder.addNotes ctx (sortByDenomination selected)).excessInput max)
  rw [isIssued] at issued
  refine ⟨⟨⟨selected, chosen, List.perm_insertionSort _ _⟩, rfl, rfl, covered, ?_, ?_, balanced⟩,
    removed, _, spent, issued⟩
  · rw [issued.denominations]
    exact List.perm_insertionSort _ _
  · change builder.outputs ++ requests.map (requestOutput ctx) ≠ []
    rw [ne_eq, List.append_eq_nil_iff, List.map_eq_nil_iff, not_and_or]
    refine carried.symm.imp_right (fun change noRequests => change ?_)
    rw [← issued.denominations, noRequests]
    rfl

end Fund

/-! ### What a submission does -/

/-- What a submission spends, issues and records. -/
structure Submitted (ctx : ClientContext) (tables : Tables) (account : Account)
    (operation : OperationId) (builder : TxBuilder) (targets : List NoteIssuanceRequest)
    (max : Bool) (event : TransactionId → Event) (ids : MachineIds) (txid : TransactionId)
    (after : Tables) (spendableNotes : List SpendableNote)
    (requests : List NoteIssuanceRequest) (balanced : TxBuilder) (tx : Transaction) : Prop where
  funded : Funded ctx tables account builder max spendableNotes requests balanced
  built : balanced.build ctx = .ok tx
  hash : txid = ctx.txHash tx.inputs tx.outputs
  issued : ∃ removed kept denoms,
    spendableNotes.foldlM (Tables.removeSpendableNote account) tables = .ok removed ∧
      Requested ctx account removed kept denoms requests ∧ after.note = removed.note ∧
      after.derivationCounter = kept.derivationCounter
  receives : after.receiveOperationId = tables.receiveOperationId
  submission : tables.txSubmissionStateMachine.contains ids.submission = false ∧
    after.txSubmissionStateMachine =
      tables.txSubmissionStateMachine.insert ids.submission { account, operation, tx }
  machine :
    (spendableNotes = [] ∧ targets ++ requests = [] ∧
        after.ecashStateMachine = tables.ecashStateMachine) ∨
      ((spendableNotes ≠ [] ∨ targets ++ requests ≠ []) ∧
        tables.ecashStateMachine.contains ids.ecash = false ∧
        after.ecashStateMachine = tables.ecashStateMachine.insert ids.ecash
          { account
            operation
            txid
            spendableNotes
            issuanceRequests := targets ++ requests
            targets := targets.length })
  log : after.eventLog = tables.eventLog ++
    [{ account, operation, event := event txid },
      { account
        operation
        event := .txCreate txid
          (amountSum (spendableNotes.map SpendableNote.amount) - builder.deficit)
          balanced.totalFee }]

section Submit

variable {ctx : ClientContext} {tables after : Tables} {account : Account}
  {operation : OperationId} {builder : TxBuilder} {targets : List NoteIssuanceRequest} {max : Bool}
  {event : TransactionId → Event} {ids : MachineIds} {txid : TransactionId}

theorem finalizeAndSubmitTx_ok
    (submitted : finalizeAndSubmitTx ctx tables account operation builder targets max event ids =
      .ok (txid, after)) :
    ∃ spendableNotes requests balanced tx,
      Submitted ctx tables account operation builder targets max event ids txid after
        spendableNotes requests balanced tx := by
  unfold finalizeAndSubmitTx at submitted
  simp only [attempt_bind_eq_ok] at submitted
  obtain ⟨⟨⟨notes, requests⟩, balanced, funds⟩, funded, ⟨hash, submission⟩, handed, result⟩ :=
    submitted
  obtain ⟨isFunded, removed, denoms, spent, issued⟩ := fund_ok funded
  have rows := (Tables.removeNotes_ok spent).2.2.only
  unfold submit at handed
  simp only [attempt_bind_eq_ok] at handed
  obtain ⟨tx, built, added, machine, logged⟩ := handed
  unfold Tables.addTxSubmissionStateMachine at machine
  simp only [attempt_bind_eq_ok, insist_eq_ok, Bool.not_eq_true'] at machine
  obtain ⟨_, freshSubmission, machine⟩ := machine
  cases machine
  cases logged
  have frame := issued.only
  rw [frame, rows] at freshSubmission
  refine ⟨notes, requests, balanced, tx, ?_⟩
  split at result
  · rename_i nothing
    cases result
    rw [Bool.and_eq_true, List.isEmpty_iff, List.isEmpty_iff] at nothing
    refine ⟨isFunded, built, rfl, ⟨removed, funds, denoms, spent, issued, ?_, rfl⟩, ?_,
      ⟨freshSubmission, ?_⟩, Or.inl ⟨nothing.1, nothing.2, ?_⟩, ?_⟩
    · change funds.note = removed.note
      rw [frame]
    · change funds.receiveOperationId = _
      rw [frame, rows]
    · change funds.txSubmissionStateMachine.insert _ _ = _
      rw [frame, rows]
    · change funds.ecashStateMachine = _
      rw [frame, rows]
    · simp only [Tables.logEvent, List.append_assoc, List.singleton_append]
      rw [frame, rows]
  · rename_i something
    simp only [attempt_bind_eq_ok] at result
    obtain ⟨last, ecash, result⟩ := result
    unfold Tables.addEcashStateMachine at ecash
    simp only [attempt_bind_eq_ok, insist_eq_ok, Bool.not_eq_true'] at ecash
    obtain ⟨_, freshMachine, ecash⟩ := ecash
    cases ecash
    cases result
    rw [Bool.and_eq_true, List.isEmpty_iff, List.isEmpty_iff, not_and_or] at something
    change funds.ecashStateMachine.contains ids.ecash = false at freshMachine
    rw [frame, rows] at freshMachine
    refine ⟨isFunded, built, rfl, ⟨removed, funds, denoms, spent, issued, ?_, rfl⟩, ?_,
      ⟨freshSubmission, ?_⟩, Or.inr ⟨something, freshMachine, ?_⟩, ?_⟩
    · change funds.note = removed.note
      rw [frame]
    · change funds.receiveOperationId = _
      rw [frame, rows]
    · change funds.txSubmissionStateMachine.insert _ _ = _
      rw [frame, rows]
    · change funds.ecashStateMachine.insert _ _ = _
      rw [frame, rows]
    · simp only [Tables.logEvent, List.append_assoc, List.singleton_append]
      rw [frame, rows]

end Submit

/-! ### A client to evaluate with -/

def sampleContext : ClientContext :=
  { secret := sampleSecret
    txHash := fun inputs outputs => inputs.length + outputs.length
    signSchnorr := fun hash keypair => hash + keypair }

def sampleIds : MachineIds :=
  { submission := 0
    ecash := 0 }

end Picomint.Client
