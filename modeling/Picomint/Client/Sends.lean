/-
The bundles a client hands out.

A send takes notes of exactly the amount, a max send takes all notes, and a
reissue sends the notes of its leading outputs once the mint has issued them.
The number of notes and their value follow from the numbers of the account's
notes, or from the amount.
-/

import Picomint.Client.EcashMachine
import Picomint.Client.Limits

namespace Picomint.Client

open Consensus

/-! ### Notes of exactly an amount -/

def faceValues (notes : List SpendableNote) : List Nat := notes.map SpendableNote.amount

/-- What the notes of every denomination are worth and how many there are, from
the largest denomination down. -/
def faceGroups (notes : List SpendableNote) : List (Nat × Nat) :=
  clientDenominations.reverse.map (fun denomination =>
    (denomination.amount, noteCount notes denomination))

def startFilling : Greedy.Filling :=
  { sum := 0
    number := 0
    peak := 0
    left := none }

def sentNumber (notes : List SpendableNote) (amount : Nat) : Nat :=
  (Greedy.fillGroups amount startFilling (faceGroups notes)).number

theorem sendNote_fit {amount : Nat} {state : Nat × List SpendableNote}
    (exact_ : state.1 + (faceValues state.2).sum = amount) {filling : Greedy.Filling}
    (sum : filling.sum = (faceValues state.2).sum) (number : filling.number = state.2.length)
    (note : SpendableNote) :
    let next := sendNote state note
    let filled := Greedy.fit amount filling note.amount
    next.1 + (faceValues next.2).sum = amount ∧ filled.sum = (faceValues next.2).sum ∧
      filled.number = next.2.length := by
  unfold sendNote Greedy.fit
  cases fits : checkedSub state.1 note.denomination.amount with
  | some rest =>
      have taken := checkedSub_eq_some.mp fits
      have bound : note.amount + filling.sum ≤ amount := by
        unfold SpendableNote.amount
        omega
      rw [if_pos bound]
      unfold faceValues at exact_ sum ⊢
      simp only [List.map_append, List.sum_append, List.map_singleton, List.sum_singleton,
        List.length_append, List.length_singleton, number]
      unfold SpendableNote.amount at *
      exact ⟨by omega, by omega, trivial⟩
  | none =>
      have large : state.1 < note.denomination.amount := by
        unfold checkedSub at fits
        split at fits
        · cases fits
        · rename_i small
          exact not_le.mp small
      have bound : ¬note.amount + filling.sum ≤ amount := by
        unfold SpendableNote.amount
        omega
      rw [if_neg bound]
      exact ⟨exact_, sum, number⟩

theorem sendNotes_fill {amount : Nat} (notes : List SpendableNote)
    {state : Nat × List SpendableNote} (exact_ : state.1 + (faceValues state.2).sum = amount)
    {filling : Greedy.Filling} (sum : filling.sum = (faceValues state.2).sum)
    (number : filling.number = state.2.length) :
    let last := notes.foldl sendNote state
    last.1 + (faceValues last.2).sum = amount ∧
      (Greedy.fill amount filling (faceValues notes)).sum = (faceValues last.2).sum ∧
      (Greedy.fill amount filling (faceValues notes)).number = last.2.length := by
  induction notes generalizing state filling with
  | nil => exact ⟨exact_, sum, number⟩
  | cons note rest inductionHypothesis =>
      obtain ⟨exact', sum', number'⟩ := sendNote_fit exact_ sum number note
      exact inductionHypothesis exact' sum' number'

def descending (notes : List SpendableNote) : List SpendableNote :=
  notes.insertionSort (fun left right => right.denomination ≤ left.denomination)

theorem descending_values {notes : List SpendableNote} (distinct : notes.Nodup)
    (client : ∀ note ∈ notes, note.denomination ∈ clientDenominations) :
    faceValues (descending notes) =
      (faceGroups notes).flatMap (fun group => List.replicate group.2 group.1) := by
  have grouped : notes.Perm (clientDenominations.reverse.flatMap (ofDenomination notes)) := by
    refine (List.perm_ext_iff_of_nodup distinct (flatMap_denominations_nodup distinct id
      (fun list => List.Sublist.refl list))).mpr (fun note => ?_)
    simp only [id_eq, List.mem_flatMap, mem_ofDenomination]
    constructor
    · intro member
      exact ⟨_, List.mem_reverse.mpr (client note member), member, rfl⟩
    · rintro ⟨_, _, member, _⟩
      exact member
  have denominations : (descending notes).map SpendableNote.denomination =
      (clientDenominations.reverse.flatMap (ofDenomination notes)).map
        SpendableNote.denomination := by
    refine List.Perm.eq_of_pairwise (fun left right _ _ (above : right ≤ left)
      (below : left ≤ right) => le_antisymm below above) ?_ ?_ ?_
    · rw [List.pairwise_map]
      exact List.pairwise_insertionSort _ _
    · rw [List.pairwise_map, List.pairwise_flatMap]
      constructor
      · intro denomination _
        apply List.pairwise_of_forall_mem_list
        intro left inLeft right inRight
        rw [(mem_ofDenomination.mp inLeft).2, (mem_ofDenomination.mp inRight).2]
      · rw [List.pairwise_reverse]
        have ascending : clientDenominations.Pairwise (· < ·) := List.pairwise_lt_range'
        refine ascending.imp (fun {low high} below left inLeft right inRight => ?_)
        rw [(mem_ofDenomination.mp inLeft).2, (mem_ofDenomination.mp inRight).2]
        exact below.le
    · exact ((List.perm_insertionSort _ _).trans grouped).map _
  have values : ∀ list : List SpendableNote,
      faceValues list = (list.map SpendableNote.denomination).map Denomination.amount := by
    intro list
    rw [List.map_map]
    rfl
  rw [values, denominations, ← values]
  unfold faceValues faceGroups noteCount
  rw [List.map_flatMap, List.flatMap_map]
  apply List.flatMap_congr
  intro denomination _
  rw [List.eq_replicate_iff, List.length_map]
  refine ⟨rfl, fun value member => ?_⟩
  obtain ⟨note, inGroup, isValue⟩ := List.mem_map.mp member
  rw [← isValue]
  exact congrArg Denomination.amount (mem_ofDenomination.mp inGroup).2

theorem sendEcash_ok {tables after : Tables} {account : Account} {amount : Nat}
    {notes : List SpendableNote}
    (client : ∀ note ∈ tables.accountNotes account, note.denomination ∈ clientDenominations)
    (sent : sendEcash tables account amount = .ok (notes, after)) :
    notes.length = sentNumber (tables.accountNotes account) amount ∧
      (faceValues notes).sum = amount ∧ (∀ note ∈ notes, note ∈ tables.accountNotes account) ∧
      Tables.Removed account notes tables after ∧ after.eventLog = tables.eventLog := by
  unfold sendEcash at sent
  simp only at sent
  split at sent
  · cases sent
  · rename_i paid
    rw [not_not] at paid
    simp only [attempt_bind_eq_ok] at sent
    obtain ⟨removed, spent, result⟩ := sent
    cases result
    obtain ⟨_, members, rows⟩ := Tables.removeNotes_ok spent
    have start : (amount, ([] : List SpendableNote)).1 +
        (faceValues (amount, ([] : List SpendableNote)).2).sum = amount := rfl
    have nothing : startFilling.sum = (faceValues []).sum := rfl
    obtain ⟨exact_, _, number⟩ :=
      sendNotes_fill (descending (tables.accountNotes account)) start nothing rfl
    have distinct := Tables.accountNotes_nodup tables account
    rw [descending_values distinct client, Greedy.fill_groups (Nat.zero_le _)] at number
    · refine ⟨number.symm, ?_, members, rows, by rw [rows.only]⟩
      change ((descending (tables.accountNotes account)).foldl sendNote (amount, [])).1 = 0 at paid
      rw [paid, Nat.zero_add] at exact_
      exact exact_
    · intro group member
      obtain ⟨denomination, inClient, isGroup⟩ := List.mem_map.mp member
      rw [← isGroup]
      have bounds := amount_bounds (List.mem_reverse.mp inClient)
      simp only
      omega

/-- Nothing is a send of nothing. -/
theorem sendEcash_zero (tables : Tables) (account : Account) :
    sendEcash tables account 0 = .ok ([], tables) := by
  have untouched : ∀ notes : List SpendableNote, notes.foldl sendNote (0, []) = (0, []) := by
    intro notes
    induction notes with
    | nil => rfl
    | cons note rest inductionHypothesis =>
        have positive : 0 < note.denomination.amount := Nat.two_pow_pos _
        have skipped : sendNote (0, []) note = (0, []) := by
          unfold sendNote checkedSub
          rw [if_neg (not_le.mpr positive)]
        rw [List.foldl_cons, skipped]
        exact inductionHypothesis
  unfold sendEcash
  simp only [untouched]
  rfl

/-! ### Representing an amount -/

def representNumber (amount : Nat) : Nat :=
  Greedy.coins (clientDenominations.reverse.map Denomination.amount) amount

def representStep (state : Nat × List Denomination) (denomination : Denomination) :
    Nat × List Denomination :=
  let nAdd := state.1 / denomination.amount
  (state.1 - nAdd * denomination.amount, state.2 ++ List.replicate nAdd denomination)

theorem representStep_rest (state : Nat × List Denomination) (denomination : Denomination) :
    (representStep state denomination).1 = state.1 % denomination.amount := by
  have divided := Nat.div_add_mod' state.1 denomination.amount
  unfold representStep
  simp only
  omega

theorem representSteps_spec (denominations : List Denomination) (state : Nat × List Denomination) :
    let last := denominations.foldl representStep state
    last.2.length = state.2.length + Greedy.coins (denominations.map Denomination.amount) state.1 ∧
      last.1 + (last.2.map Denomination.amount).sum =
        state.1 + (state.2.map Denomination.amount).sum ∧
      ∀ denomination ∈ last.2, denomination ∈ state.2 ∨ denomination ∈ denominations := by
  induction denominations generalizing state with
  | nil => exact ⟨rfl, rfl, fun _ member => Or.inl member⟩
  | cons denomination rest inductionHypothesis =>
      have rests := representStep_rest state denomination
      obtain ⟨length, total, members⟩ := inductionHypothesis (representStep state denomination)
      refine ⟨?_, ?_, ?_⟩
      · rw [List.foldl_cons, length, rests, List.map_cons, Greedy.coins, ← Nat.add_assoc]
        unfold representStep
        rw [List.length_append, List.length_replicate]
      · rw [List.foldl_cons, total, rests]
        unfold representStep
        have divided := Nat.div_add_mod' state.1 denomination.amount
        simp only [List.map_append, List.sum_append, List.map_replicate, List.sum_replicate,
          smul_eq_mul]
        omega
      · intro other member
        rcases members other member with before | later
        · rcases List.mem_append.mp before with earlier | new
          · exact Or.inl earlier
          · exact Or.inr (List.eq_of_mem_replicate new ▸ List.mem_cons_self)
        · exact Or.inr (List.mem_cons_of_mem _ later)

theorem smallestAmount_dvd {denomination : Denomination}
    (client : denomination ∈ clientDenominations) : smallestAmount ∣ denomination.amount := by
  obtain ⟨low, high⟩ := clientDenominations_bounds client
  rw [Ecash.amount_of_below high]
  exact Nat.pow_dvd_pow 2 low

theorem representAmount_spec (amount : Nat) :
    (representAmount amount).length = representNumber amount ∧
      (∀ denomination ∈ representAmount amount, denomination ∈ clientDenominations) ∧
      (smallestAmount ∣ amount → ((representAmount amount).map Denomination.amount).sum = amount) := by
  obtain ⟨length, total, members⟩ := representSteps_spec clientDenominations.reverse (amount, [])
  have client : ∀ denomination ∈ representAmount amount, denomination ∈ clientDenominations :=
    fun denomination member =>
      List.mem_reverse.mp ((members denomination member).resolve_left List.not_mem_nil)
  refine ⟨length.trans (Nat.zero_add _), client, fun divides => ?_⟩
  have last : (clientDenominations.reverse.foldl representStep (amount, [])).1 <
      smallestAmount := by
    have split : clientDenominations.reverse = (List.range' 10 32).reverse ++ [9] := by
      decide
    rw [split, List.foldl_append, List.foldl_cons, List.foldl_nil, representStep_rest]
    exact Nat.mod_lt _ (by decide)
  change _ + ((representAmount amount).map Denomination.amount).sum = amount at total
  have parts : smallestAmount ∣ ((representAmount amount).map Denomination.amount).sum := by
    apply List.dvd_sum
    intro value member
    obtain ⟨denomination, inside, isValue⟩ := List.mem_map.mp member
    exact isValue ▸ smallestAmount_dvd (client denomination inside)
  rw [← total] at divides
  have zero := Nat.eq_zero_of_dvd_of_lt ((Nat.dvd_add_left parts).mp divides) last
  rw [zero, Nat.zero_add] at total
  exact total

theorem roundToMultiple_dvd (amount : Nat) :
    smallestAmount ∣ roundToMultiple amount smallestAmount := by
  unfold roundToMultiple
  split
  · rename_i multiple
    exact Nat.dvd_of_mod_eq_zero multiple
  · have wraps : smallestAmount ∣ U64_BOUND := by
      decide
    unfold amountAdd
    rw [Nat.dvd_mod_iff wraps]
    have divided := Nat.div_add_mod amount smallestAmount
    have below := Nat.mod_lt amount (show 0 < smallestAmount by decide)
    exact ⟨amount / smallestAmount + 1, by rw [Nat.mul_succ]; omega⟩

/-! ### Handing out a bundle -/

def Tables.LastSent (tables : Tables) (account : Account) (operation : OperationId)
    (bundle : List SpendableNote) : Prop :=
  tables.eventLog.getLast? = some { account, operation, event := .sendSuccess bundle }

theorem Tables.lastSent_logEvent {tables : Tables} {account : Account} {operation : OperationId}
    {sent bundle : List SpendableNote} :
    (tables.logEvent account operation (.sendSuccess sent)).LastSent account operation bundle ↔
      sent = bundle := by
  unfold LastSent logEvent
  simp

/-- Which send hands out a bundle, and on what. -/
inductive Send where
  | direct (tables : Tables) (amount : Nat)
  | max (tables : Tables)
  | reissue (amount : Nat)

namespace Send

def notes (account : Account) : Send → List SpendableNote
  | .direct tables _ => tables.accountNotes account
  | .max tables => tables.accountNotes account
  | .reissue _ => []

def number (account : Account) : Send → Nat
  | .direct tables amount =>
      sentNumber (tables.accountNotes account) (roundToMultiple amount smallestAmount)
  | .max tables => (tables.accountNotes account).length
  | .reissue amount => representNumber (roundToMultiple amount smallestAmount)

def value (account : Account) : Send → Nat
  | .direct _ amount => roundToMultiple amount smallestAmount
  | .max tables => (faceValues (tables.accountNotes account)).sum
  | .reissue amount => roundToMultiple amount smallestAmount

end Send

/-- A send that goes through and the bundle it hands out.  A reissue follows a
direct send that was refused; its transaction was accepted, and the machine
settles in later tables. -/
inductive HandsOut (ctx : ClientContext) (library : NoteSignatures) (account : Account) :
    Send → List SpendableNote → Prop
  | direct {tables after : Tables} {operation : OperationId} {amount : Nat}
      {bundle : List SpendableNote}
      (sent : ecashSendDirect tables account operation amount = .ok after)
      (handed : after.LastSent account operation bundle) :
      HandsOut ctx library account (.direct tables amount) bundle
  | max {tables after : Tables} {operation : OperationId} {bundle : List SpendableNote}
      (sent : ecashSendMax tables account operation = .ok after)
      (handed : after.LastSent account operation bundle) :
      HandsOut ctx library account (.max tables) bundle
  | reissue {earlier tables submitted later finished : Tables} {operation : OperationId}
      {amount : Nat} {ids : MachineIds} {txid : TransactionId} {tx : Transaction}
      {machine : EcashStateMachine} {signatures : SortedMap NodeId (List Nat)}
      {notes : List (Account × SpendableNote)} {bundle : List SpendableNote} {view : MintView}
      (refused : ecashSendDirect earlier account operation amount = .error .refused)
      (sent : ecashSendReissue ctx tables account operation amount ids = .ok (txid, submitted))
      (submission : submitted.txSubmissionStateMachine.get? ids.submission =
        some { account, operation, tx })
      (accepted : PassesLimits view tx)
      (started : submitted.ecashStateMachine.get? ids.ecash = some machine)
      (issued : machine.trigger ctx library true signatures = .ok (.issued notes))
      (settled : machine.drive later ids.ecash (.issued notes) = .ok finished)
      (handed : finished.LastSent account operation bundle) :
      HandsOut ctx library account (.reissue amount) bundle

/-! ### What a bundle contains -/

structure Holds (bundle : List SpendableNote) (number value : Nat) : Prop where
  number : bundle.length = number
  value : (faceValues bundle).sum = value
  client : ∀ note ∈ bundle, note.denomination ∈ clientDenominations

section HandedOut

variable {ctx : ClientContext} {library : NoteSignatures} {tables after : Tables}
  {account : Account} {operation : OperationId} {bundle : List SpendableNote}

theorem ecashSendDirect_holds {amount : Nat}
    (client : ∀ note ∈ tables.accountNotes account, note.denomination ∈ clientDenominations)
    (sent : ecashSendDirect tables account operation amount = .ok after)
    (handed : after.LastSent account operation bundle) :
    Holds bundle (sentNumber (tables.accountNotes account) (roundToMultiple amount smallestAmount))
      (roundToMultiple amount smallestAmount) := by
  unfold ecashSendDirect at sent
  simp only [attempt_bind_eq_ok] at sent
  obtain ⟨⟨notes, removed⟩, taken, result⟩ := sent
  cases result
  obtain ⟨number, value, members, _⟩ := sendEcash_ok client taken
  cases Tables.lastSent_logEvent.mp handed
  exact ⟨number, value, fun note member => client note (members note member)⟩

theorem ecashSendMax_holds
    (client : ∀ note ∈ tables.accountNotes account, note.denomination ∈ clientDenominations)
    (sent : ecashSendMax tables account operation = .ok after)
    (handed : after.LastSent account operation bundle) :
    Holds bundle (tables.accountNotes account).length
      (faceValues (tables.accountNotes account)).sum := by
  unfold ecashSendMax at sent
  simp only at sent
  split at sent
  · cases sent
  · simp only [attempt_bind_eq_ok] at sent
    obtain ⟨removed, _, result⟩ := sent
    cases result
    cases Tables.lastSent_logEvent.mp handed
    exact ⟨rfl, rfl, client⟩

theorem ecashSendDirect_refused {amount : Nat}
    (refused : ecashSendDirect tables account operation amount = .error .refused) :
    roundToMultiple amount smallestAmount ≠ 0 := by
  intro zero
  unfold ecashSendDirect at refused
  simp only [zero, sendEcash_zero] at refused
  cases refused

theorem transition_handed {machine : EcashStateMachine}
    {notes : List (Account × SpendableNote)} (some : 0 < machine.targets) (nonempty : notes ≠ [])
    (settled : machine.transition tables (.issued notes) = .ok after)
    (handed : after.LastSent account operation bundle) :
    bundle = (notes.take machine.targets).map Prod.snd := by
  cases notes with
  | nil => exact absurd rfl nonempty
  | cons first rest =>
      unfold EcashStateMachine.transition at settled
      simp only [attempt_bind_eq_ok] at settled
      obtain ⟨_, _, credited, _, result⟩ := settled
      cases result
      unfold EcashStateMachine.logSendSuccess at handed
      have sends : ((first :: rest).take machine.targets).isEmpty = false := by
        rw [List.isEmpty_eq_false_iff, ← List.length_pos_iff, List.length_take]
        exact Nat.lt_min.mpr ⟨some, Nat.succ_pos _⟩
      rw [if_neg (by rw [sends]; decide)] at handed
      unfold Tables.LastSent Tables.logEvent at handed
      simp only [List.getLast?_append, List.getLast?_singleton, Option.some_or,
        Option.some.injEq, EventLogEntry.mk.injEq, Event.sendSuccess.injEq] at handed
      exact handed.2.2.symm

theorem finalized_denominations {requests : List NoteIssuanceRequest}
    {notes : List (Account × SpendableNote)}
    (each : List.Forall₂ (FinalizedAs ctx library) requests notes) :
    (notes.map Prod.snd).map SpendableNote.denomination =
      requests.map NoteIssuanceRequest.denomination := by
  induction each with
  | nil => rfl
  | cons first _ inductionHypothesis =>
      obtain ⟨signature, same⟩ := first.finalized
      rw [List.map_cons, List.map_cons, List.map_cons, same, inductionHypothesis]
      rfl

theorem ecashSendReissue_holds {submitted later finished : Tables} {amount : Nat}
    {ids : MachineIds} {txid : TransactionId} {tx : Transaction} {machine : EcashStateMachine}
    {signatures : SortedMap NodeId (List Nat)} {notes : List (Account × SpendableNote)}
    {view : MintView} (nonzero : roundToMultiple amount smallestAmount ≠ 0)
    (sent : ecashSendReissue ctx tables account operation amount ids = .ok (txid, submitted))
    (submission : submitted.txSubmissionStateMachine.get? ids.submission =
      some { account, operation, tx })
    (accepted : PassesLimits view tx)
    (started : submitted.ecashStateMachine.get? ids.ecash = some machine)
    (issued : machine.trigger ctx library true signatures = .ok (.issued notes))
    (settled : machine.drive later ids.ecash (.issued notes) = .ok finished)
    (handed : finished.LastSent account operation bundle) :
    Holds bundle (representNumber (roundToMultiple amount smallestAmount))
        (roundToMultiple amount smallestAmount) ∧
      representNumber (roundToMultiple amount smallestAmount) ≤ MAX_OUTPUTS := by
  obtain ⟨length, client, value⟩ := representAmount_spec (roundToMultiple amount smallestAmount)
  have exact_ := value (roundToMultiple_dvd amount)
  have some : 0 < (representAmount (roundToMultiple amount smallestAmount)).length := by
    rw [List.length_pos_iff]
    intro empty
    rw [empty] at exact_
    exact nonzero exact_.symm
  unfold ecashSendReissue at sent
  simp only at sent
  have requested := issueRequests_issued ctx account tables
    (representAmount (roundToMultiple amount smallestAmount))
  generalize issueRequests ctx account tables
    (representAmount (roundToMultiple amount smallestAmount)) = targets at sent requested
  have number : targets.1.length = representNumber (roundToMultiple amount smallestAmount) := by
    rw [← length, ← requested.denominations, List.length_map]
  obtain ⟨spendableNotes, requests, balanced, built, done⟩ := finalizeAndSubmitTx_ok sent
  rw [done.submission.2, SortedMap.get?_insert_self] at submission
  cases submission
  have machineIs : machine =
      { account
        operation
        txid
        spendableNotes
        issuanceRequests := targets.1 ++ requests
        targets := targets.1.length } := by
    rcases done.machine with ⟨_, none, _⟩ | ⟨_, _, row⟩
    · rw [List.append_eq_nil_iff] at none
      rw [none.1] at number
      exact absurd (number.trans length.symm) some.ne
    · rw [row, SortedMap.get?_insert_self] at started
      exact (Option.some.inj started).symm
  have each := (EcashStateMachine.trigger_issued issued).2
  unfold EcashStateMachine.drive at settled
  simp only [attempt_bind_eq_ok] at settled
  obtain ⟨after, moved, result⟩ := settled
  cases result
  have nonempty : notes ≠ [] := by
    intro none
    have count := each.length_eq
    rw [none, machineIs] at count
    simp only [List.length_append, List.length_nil] at count
    omega
  have targeted : 0 < machine.targets := by
    rw [machineIs]
    simp only
    omega
  have bundleIs := transition_handed targeted nonempty moved handed
  have denominations : bundle.map SpendableNote.denomination =
      representAmount (roundToMultiple amount smallestAmount) := by
    have part : List.Forall₂ (FinalizedAs ctx library) targets.1
        (notes.take targets.1.length) := by
      have taken := List.forall₂_take targets.1.length each
      rw [machineIs] at taken
      simp only [List.take_left] at taken
      exact taken
    rw [bundleIs, machineIs]
    exact (finalized_denominations part).trans requested.denominations
  have count : bundle.length = representNumber (roundToMultiple amount smallestAmount) := by
    rw [← length, ← denominations, List.length_map]
  refine ⟨⟨count, ?_, ?_⟩, ?_⟩
  · have faces : faceValues bundle =
        (bundle.map SpendableNote.denomination).map Denomination.amount := by
      rw [List.map_map]
      rfl
    rw [faces, denominations]
    exact exact_
  · intro note member
    exact client _ (denominations ▸ List.mem_map_of_mem member)
  · obtain ⟨_, _, _, fewOutputs, _⟩ := checkCounts_iff.mp accepted.counts
    obtain ⟨_, _, _, isOutputs, _⟩ := TxBuilder.build_ok done.built
    rw [isOutputs, List.length_map, done.funded.outputs, List.length_append] at fewOutputs
    have outputs : (ecashSendBuilder ctx targets.1).outputs.length = targets.1.length := by
      unfold ecashSendBuilder
      rw [TxBuilder.addOutputs_eq]
      change ([] ++ targets.1.map (requestOutput ctx)).length = _
      rw [List.nil_append, List.length_map]
    omega

/-- What a handed out bundle contains, from the account's notes and the amount.
A reissued one is no larger than the transaction that issued it. -/
theorem HandsOut.holds {send : Send} (handed : HandsOut ctx library account send bundle)
    (client : ∀ note ∈ send.notes account, note.denomination ∈ clientDenominations) :
    Holds bundle (send.number account) (send.value account) := by
  cases handed with
  | direct sent handed => exact ecashSendDirect_holds client sent handed
  | max sent handed => exact ecashSendMax_holds client sent handed
  | reissue refused sent submission accepted started issued settled handed =>
      exact (ecashSendReissue_holds (ecashSendDirect_refused refused) sent submission accepted
        started issued settled handed).1

end HandedOut

end Picomint.Client
