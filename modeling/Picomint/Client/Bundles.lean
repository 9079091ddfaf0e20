/-
Receiving a bundle a client handed out.

A bundle travels as text.  Its receiver spends every note in one transaction,
which the mint bounds in inputs and outputs; no send looks at these bounds.
-/

import Picomint.Client.Sends
import Picomint.Encoding.Base32
import Picomint.Encoding.Collections
import Picomint.Encoding.Derive

namespace Picomint.Client

open Consensus Encoding

/-! ### The text of a bundle -/

abbrev MintId := Hash

structure Ecash where
  mint : MintId
  notes : List SpendableNote
deriving DecidableEq, Repr

/-- A number the program holds in an array of the given size. -/
def narrowCodec (width : Nat) : Codec Nat where
  consensusEncode value := if value < 256 ^ width then some (toBigEndian width value) else none
  consensusDecodePartial := do
    let buffer ← readExact width
    return ofBigEndian buffer

theorem narrowCodec_exact (width : Nat) : (narrowCodec width).Exact fun _ => True := by
  refine (Decoder.Reads.bind (Decoder.Reads.readExact width Fault.unexpectedEof)
    fun buffer _ _ => Decoder.Reads.pure (ofBigEndian buffer)).of_iff fun value used => ?_
  simp only [narrowCodec, and_true, Option.ite_none_right_eq_some, Option.some.injEq]
  constructor
  · rintro ⟨buffer, front, back, ⟨rfl, full⟩, ⟨rfl, rfl⟩, rfl⟩
    refine ⟨full ▸ ofBigEndian_lt buffer, ?_⟩
    rw [← full, toBigEndian_ofBigEndian, List.append_nil]
  · rintro ⟨fits, rfl⟩
    exact ⟨_, _, [], ⟨rfl, toBigEndian_length _ _⟩, ⟨(ofBigEndian_toBigEndian fits).symm, rfl⟩,
      (List.append_nil _).symm⟩

theorem narrowCodec_writes {width value : Nat} (fits : value < 256 ^ width) :
    (narrowCodec width).consensusEncode value = some (toBigEndian width value) :=
  if_pos fits

/-- The codecs of the key and signature types of the libraries. -/
structure NoteCodecs where
  keypair : Codec Keypair
  signature : Codec Nat
  keypairCanonical : keypair.Canonical
  signatureCanonical : signature.Canonical

def spendableNoteCodec (codecs : NoteCodecs) : Codec SpendableNote :=
  structCodec (.cons (narrowCodec 1) (.cons codecs.keypair (.cons codecs.signature .nil)))
    ⟨fun note => (note.denomination, note.keypair, note.signature, ()),
      fun (denomination, keypair, signature, _) => { denomination, keypair, signature },
      fun _ => rfl, fun _ => rfl⟩

def ecashCodec (codecs : NoteCodecs) : Codec Ecash :=
  structCodec (.cons (narrowCodec 32) (.cons (vecCodec (spendableNoteCodec codecs)) .nil))
    ⟨fun ecash => (ecash.mint, ecash.notes, ()), fun (mint, notes, _) => { mint, notes },
      fun _ => rfl, fun _ => rfl⟩

theorem spendableNoteCodec_exact (codecs : NoteCodecs) :
    (spendableNoteCodec codecs).Exact fun _ => True := by
  have keypair := Codec.canonical_iff_exact.mp codecs.keypairCanonical
  have signature := Codec.canonical_iff_exact.mp codecs.signatureCanonical
  exact (structCodec_exact (FieldCodecs.cons_exact (narrowCodec_exact 1)
    (FieldCodecs.cons_exact keypair (FieldCodecs.cons_exact signature
      FieldCodecs.nil_exact))) _).of_iff fun _ => by simp

theorem ecashCodec_canonical (codecs : NoteCodecs) : (ecashCodec codecs).Canonical := by
  refine Codec.canonical_iff_exact.mpr ((structCodec_exact (FieldCodecs.cons_exact
    (narrowCodec_exact 32) (FieldCodecs.cons_exact
      (vecCodec_exact (spendableNoteCodec_exact codecs)) FieldCodecs.nil_exact)) _).of_iff ?_)
  intro _
  simp

/-! ### Receiving -/

/-- What a receiver without notes does with a bundle: the submission goes
through and its transaction is within the limits of the mint. -/
def ReceivedWithinLimits (notes : List SpendableNote) : Prop :=
  ∀ (ctx : ClientContext) (view : MintView) (tables : Tables) (account : Account)
    (operation : OperationId) (ids : MachineIds),
    tables.accountNotes account = [] →
      tables.receiveOperationId.contains operation = false →
      tables.txSubmissionStateMachine.contains ids.submission = false →
      tables.ecashStateMachine.contains ids.ecash = false →
      ∃ txid after tx,
        ecashReceive ctx tables account operation notes ids = .ok (txid, after) ∧
        after.txSubmissionStateMachine.get? ids.submission = some { account, operation, tx } ∧
        PassesLimits view tx

/-- The text decodes to a bundle of the mint that passes the checks, and a
value worth a note of change is received. -/
structure Receivable (codecs : NoteCodecs) (mint : MintId) (text : List Char) (ecash : Ecash) :
    Prop where
  decoded : decodeText "Ecash" (ecashCodec codecs) text = .ok ecash
  mint : ecash.mint = mint
  bundle : ReceivableBundle ecash.notes
  received : smallestAmount + ECASH_OUTPUT_FEE ≤
      (faceValues ecash.notes).sum - ECASH_INPUT_FEE * ecash.notes.length →
    ReceivedWithinLimits ecash.notes

/-- The bounds of a transaction on a bundle of so many notes and that value. -/
def ReceiverFits (number value : Nat) : Prop :=
  0 < number ∧ number ≤ MAX_INPUTS ∧
    changeNumber false (value - ECASH_INPUT_FEE * number) ≤ MAX_OUTPUTS

section Receiving

variable {ctx : ClientContext} {view : MintView} {tables after : Tables} {account : Account}
  {operation : OperationId} {ids : MachineIds} {txid : TransactionId} {notes : List SpendableNote}

theorem receiveBuilder_eq (ctx : ClientContext) (notes : List SpendableNote) :
    ecashReceiveBuilder ctx notes = TxBuilder.new.addNotes ctx notes :=
  TxBuilder.addInputs_eq _ _

theorem receiveBuilder_sums (ctx : ClientContext)
    (client : ∀ note ∈ notes, note.denomination ∈ clientDenominations) :
    (ecashReceiveBuilder ctx notes).incoming = (faceValues notes).sum ∧
      (ecashReceiveBuilder ctx notes).outgoing = ECASH_INPUT_FEE * notes.length ∧
      (faceValues notes).sum = totalValue notes + ECASH_INPUT_FEE * notes.length := by
  have face := totalValue_face client
  rw [receiveBuilder_eq, incoming_addNotes _ _ client, outgoing_addNotes]
  unfold faceValues
  rw [face]
  exact ⟨Nat.zero_add _, Nat.zero_add _, rfl⟩

/-- An account without notes draws none for a builder that owes nothing. -/
theorem selectFundingInput_none (none : tables.accountNotes account = []) :
    selectFundingInput (tables.accountNotes account) 0 = some [] := by
  rw [none]
  decide

theorem bundle_below (client : ∀ note ∈ notes, note.denomination ∈ clientDenominations)
    (few : notes.length ≤ MAX_INPUTS) : (faceValues notes).sum < U64_BOUND := by
  have bound : (faceValues notes).sum ≤ notes.length * 2 ^ 42 := by
    unfold faceValues
    rw [← List.length_map SpendableNote.amount, ← smul_eq_mul]
    apply List.sum_le_card_nsmul
    intro value member
    obtain ⟨note, inNotes, isValue⟩ := List.mem_map.mp member
    exact isValue ▸ (amount_bounds (client note inNotes)).2.le
  unfold MAX_INPUTS at few
  unfold U64_BOUND
  omega

theorem receive_passes_iff {event : TransactionId → Event}
    (client : ∀ note ∈ notes, note.denomination ∈ clientDenominations)
    (few : notes.length ≤ MAX_INPUTS) (none : tables.accountNotes account = [])
    (submitted : finalizeAndSubmitTx ctx tables account operation (ecashReceiveBuilder ctx notes)
      [] false event ids = .ok (txid, after)) :
    ∃ tx, after.txSubmissionStateMachine.get? ids.submission = some { account, operation, tx } ∧
      (PassesLimits view tx ↔ changeNumber false
        ((faceValues notes).sum - ECASH_INPUT_FEE * notes.length) ≤ MAX_OUTPUTS) := by
  obtain ⟨spendableNotes, requests, balanced, tx, done⟩ := finalizeAndSubmitTx_ok submitted
  have funded := done.funded
  obtain ⟨incoming, outgoing, face⟩ := receiveBuilder_sums ctx client
  have below := bundle_below client few
  have noNotes : spendableNotes = [] := by
    obtain ⟨selected, chosen, same⟩ := funded.selected
    rw [TxBuilder.deficit_eq (by omega) (by omega), incoming, outgoing, face,
      Nat.sub_eq_zero_of_le (Nat.le_add_left _ _), selectFundingInput_none none,
      Option.some.injEq] at chosen
    exact (chosen ▸ same).eq_nil
  subst noNotes
  obtain ⟨isIncoming, isOutgoing⟩ := funded.sums
  have sent : ClientBuilder ctx view (ecashReceiveBuilder ctx notes) := .ecashReceive notes
  have total : totalValue [] = 0 := rfl
  rw [total, List.length_nil, Nat.mul_zero, Nat.add_zero] at isIncoming
  obtain ⟨_, covered, change⟩ := funded.balance (by omega) (by omega)
  rw [incoming, outgoing, total, Nat.add_zero] at change
  have inputs : balanced.inputs.length = notes.length := by
    rw [funded.inputs, receiveBuilder_eq]
    simp [TxBuilder.addNotes, TxBuilder.new]
  have outputs : balanced.outputs.length = requests.length := by
    rw [funded.outputs, receiveBuilder_eq]
    simp [TxBuilder.addNotes, TxBuilder.new]
  have exact_ : (ecashReceiveBuilder ctx notes).Exact view := by
    rw [receiveBuilder_eq]
    constructor
    · intro entry member
      obtain ⟨note, _, same⟩ := List.mem_map.mp member
      rw [← same]
      exact amount_below note.denomination
    · intro entry member
      cases member
  refine ⟨tx, ?_, ?_⟩
  · rw [done.submission.2]
    exact (SortedMap.get?_insert _ _ _ _).trans (if_pos rfl)
  · rw [build_passes_iff (funded.declares sent.declares) done.built, funded.exact_iff, inputs,
      outputs, change]
    constructor
    · exact fun passes => passes.2.2.1
    · exact fun fewOutputs => ⟨exact_, few, fewOutputs, by omega, covered⟩

theorem received_iff (client : ∀ note ∈ notes, note.denomination ∈ clientDenominations)
    (bundle : ReceivableBundle notes)
    (worth : smallestAmount + ECASH_OUTPUT_FEE ≤
      (faceValues notes).sum - ECASH_INPUT_FEE * notes.length) :
    ReceivedWithinLimits notes ↔ changeNumber false
      ((faceValues notes).sum - ECASH_INPUT_FEE * notes.length) ≤ MAX_OUTPUTS := by
  have succeeds : ∀ (ctx : ClientContext) (tables : Tables) (account : Account)
      (operation : OperationId) (ids : MachineIds), tables.accountNotes account = [] →
        tables.receiveOperationId.contains operation = false →
        tables.txSubmissionStateMachine.contains ids.submission = false →
        tables.ecashStateMachine.contains ids.ecash = false →
        ∃ txid after, ecashReceive ctx tables account operation notes ids = .ok (txid, after) := by
    intro ctx tables account operation ids none fresh freshSubmission freshMachine
    obtain ⟨incoming, outgoing, face⟩ := receiveBuilder_sums ctx client
    have below := bundle_below client bundle.few
    have noNotes : (tables.markReceived operation).accountNotes account = [] := none
    have owes : (ecashReceiveBuilder ctx notes).deficit = 0 := by
      rw [TxBuilder.deficit_eq (by omega) (by omega), incoming, outgoing, face]
      exact Nat.sub_eq_zero_of_le (Nat.le_add_left _ _)
    have chosen := selectFundingInput_none noNotes
    rw [← owes] at chosen
    obtain ⟨txid, after, submitted⟩ : ∃ txid after, finalizeAndSubmitTx ctx
        (tables.markReceived operation) account operation (ecashReceiveBuilder ctx notes) [] false
        (fun txid => .receive txid (amountSum (notes.map SpendableNote.amount))) ids =
          .ok (txid, after) := by
      apply finalizeAndSubmitTx_succeeds chosen
      · omega
      · rw [incoming]
        exact below
      · right
        rw [incoming, outgoing, Nat.pos_iff_ne_zero]
        unfold changeNumber
        rw [ne_eq, Greedy.coins_eq_zero_iff]
        · intro cheap
          have first : (9 : Denomination) ∈ (changeDenominations false).reverse := by
            decide
          have smallest := cheap _ (List.mem_map_of_mem first)
          have total : totalValue [] = 0 := rfl
          have cost : smallestAmount = Denomination.amount 9 := rfl
          omega
        · intro cost member
          obtain ⟨denomination, _, isCost⟩ := List.mem_map.mp member
          rw [← isCost]
          exact Nat.add_pos_right _ (by decide)
      · left
        rw [receiveBuilder_eq]
        simp [TxBuilder.addNotes, TxBuilder.new, bundle.nonempty]
      · exact freshSubmission
      · exact freshMachine
    exact ⟨txid, after, ecashReceive_eq_ok.mpr ⟨bundle, fresh, submitted⟩⟩
  constructor
  · intro received
    obtain ⟨txid, after, tx, sent, row, passes⟩ :=
      received sampleContext sampleView Tables.empty .primary 0 sampleIds rfl rfl rfl rfl
    obtain ⟨_, _, submitted⟩ := ecashReceive_eq_ok.mp sent
    obtain ⟨same, row', iff⟩ := receive_passes_iff client bundle.few rfl submitted
    rw [row] at row'
    cases row'
    exact iff.mp passes
  · intro fits ctx view tables account operation ids none fresh freshSubmission freshMachine
    obtain ⟨txid, after, sent⟩ :=
      succeeds ctx tables account operation ids none fresh freshSubmission freshMachine
    obtain ⟨_, _, submitted⟩ := ecashReceive_eq_ok.mp sent
    have noNotes : (tables.markReceived operation).accountNotes account = [] := none
    obtain ⟨tx, row, iff⟩ := receive_passes_iff client bundle.few noNotes submitted
    exact ⟨txid, after, tx, sent, row, iff.mpr fits⟩

theorem receivable_iff {codecs : NoteCodecs} {mint : MintId} {text : List Char} {number value : Nat}
    (holds : Holds notes number value)
    (written : encodeText (ecashCodec codecs) { mint, notes } = some text) :
    (∃ ecash, Receivable codecs mint text ecash) ↔ ReceiverFits number value := by
  have read : decodeText "Ecash" (ecashCodec codecs) text = .ok { mint, notes } :=
    decodeText_encodeText (ecashCodec_canonical codecs) written
  obtain ⟨isNumber, isValue, client⟩ := holds
  subst isNumber isValue
  unfold ReceiverFits
  constructor
  · rintro ⟨ecash, receivable⟩
    have same := receivable.decoded
    rw [read] at same
    cases same
    refine ⟨List.length_pos_iff.mpr receivable.bundle.nonempty, receivable.bundle.few, ?_⟩
    by_cases worth : smallestAmount + ECASH_OUTPUT_FEE ≤
        (faceValues notes).sum - ECASH_INPUT_FEE * notes.length
    · exact (received_iff client receivable.bundle worth).mp (receivable.received worth)
    · have nothing : changeNumber false
          ((faceValues notes).sum - ECASH_INPUT_FEE * notes.length) = 0 := by
        unfold changeNumber
        rw [Greedy.coins_eq_zero_iff]
        · intro cost member
          obtain ⟨denomination, inChange, isCost⟩ := List.mem_map.mp member
          have bounds := amount_bounds (mem_changeDenominations (List.mem_reverse.mp inChange))
          have smallest : smallestAmount = 512 := by
            decide
          omega
        · intro cost member
          obtain ⟨denomination, _, isCost⟩ := List.mem_map.mp member
          rw [← isCost]
          exact Nat.add_pos_right _ (by decide)
      rw [nothing]
      exact Nat.zero_le _
  · rintro ⟨some, few, fits⟩
    have bundle : ReceivableBundle notes := by
      refine ⟨List.length_pos_iff.mp some, few, fun note member => ?_⟩
      have bounds := amount_bounds (client note member)
      unfold ECASH_INPUT_FEE SpendableNote.amount
      omega
    exact ⟨_, read, rfl, bundle, fun worth => (received_iff client bundle worth).mpr fits⟩

end Receiving

/-- A bundle handed out as text can be received exactly if the number and the
value of its notes, as the send determines them, keep to the mint's bounds. -/
theorem handed_out_receivable_iff {ctx : ClientContext} {library : NoteSignatures}
    {account : Account} {send : Send} {bundle : List SpendableNote} {codecs : NoteCodecs}
    {mint : MintId} {text : List Char}
    (client : ∀ note ∈ send.notes account, note.denomination ∈ clientDenominations)
    (handed : HandsOut ctx library account send bundle)
    (written : encodeText (ecashCodec codecs) { mint, notes := bundle } = some text) :
    (∃ ecash, Receivable codecs mint text ecash) ↔
      ReceiverFits (send.number account) (send.value account) :=
  receivable_iff (handed.holds client) written

/-! Max sends of accounts with one note and with one more than fit a
transaction, and a send of nothing. -/

def sampleCodecs : NoteCodecs where
  keypair := narrowCodec 32
  signature := narrowCodec 48
  keypairCanonical := Codec.canonical_iff_exact.mpr (narrowCodec_exact 32)
  signatureCanonical := Codec.canonical_iff_exact.mpr (narrowCodec_exact 48)

def sampleSignatures : NoteSignatures :=
  { tbsAggPks := SortedMap.empty
    aggregateSignatureShares := fun shares => (shares.map Prod.snd).sum
    verifyNote := fun _ _ => true }

def sampleHolder (number : Nat) : Tables :=
  { Tables.empty with
    note := SortedMap.ofList ((List.range number).map (fun index =>
      (({ account := .primary, note := sampleNote index } : NoteKey), ⟨⟩))) }

theorem sampleHolder_notes (number : Nat) :
    ((sampleHolder number).accountNotes .primary).Perm
      ((List.range number).map sampleNote) := by
  have injective : Function.Injective sampleNote := by
    intro left right same
    cases same
    rfl
  apply Tables.accountNotes_perm (List.nodup_range.map injective)
  intro note
  have distinct : (((List.range number).map (fun index =>
      (({ account := .primary, note := sampleNote index } : NoteKey), Unit.unit))).map
        Prod.fst).Nodup := by
    rw [List.map_map]
    apply List.nodup_range.map
    intro left right same
    cases same
    rfl
  rw [SortedMap.contains_iff, ← SortedMap.mem_keys]
  unfold sampleHolder
  rw [SortedMap.mem_keys_ofList distinct, List.map_map, List.mem_map, List.mem_map]
  constructor
  · rintro ⟨index, inside, same⟩
    exact ⟨index, inside, by rw [← same]; rfl⟩
  · rintro ⟨index, inside, same⟩
    cases same
    exact ⟨index, inside, rfl⟩

theorem sampleHolder_client (number : Nat) :
    ∀ note ∈ (sampleHolder number).accountNotes .primary,
      note.denomination ∈ clientDenominations := by
  intro note member
  obtain ⟨index, _, same⟩ := List.mem_map.mp ((sampleHolder_notes number).mem_iff.mp member)
  have isClient : (9 : Denomination) ∈ clientDenominations := by
    decide
  exact same ▸ isClient

theorem ecashSendMax_handsOut {ctx : ClientContext} {library : NoteSignatures} {tables : Tables}
    {account : Account} (some : tables.accountNotes account ≠ []) :
    HandsOut ctx library account (.max tables) (tables.accountNotes account) := by
  obtain ⟨removed, spent⟩ := Tables.removeNotes_succeeds tables account
    (Tables.accountNotes_nodup tables account) (fun _ member => member)
  have sent : ecashSendMax tables account 0 = .ok ((removed.logEvent account 0 (.send (amountSum
      ((tables.accountNotes account).map SpendableNote.amount)))).logEvent account 0
        (.sendSuccess (tables.accountNotes account))) := by
    unfold ecashSendMax
    rw [if_neg (by rw [List.isEmpty_iff]; exact some), spent]
    rfl
  exact .max sent (Tables.lastSent_logEvent.mpr rfl)

theorem sampleCodecs_writes {notes : List SpendableNote}
    (small : ∀ note ∈ notes, ∃ index < 2 ^ 16, note = sampleNote index)
    (few : notes.length < 2 ^ 32) :
    ∃ text, encodeText (ecashCodec sampleCodecs) { mint := 0, notes } = some text := by
  have each : ∃ bytes, encodeItems (spendableNoteCodec sampleCodecs).consensusEncode notes =
      some bytes := by
    clear few
    induction notes with
    | nil => exact ⟨[], rfl⟩
    | cons note rest inductionHypothesis =>
        obtain ⟨bytes, written⟩ := inductionHypothesis
          (fun other member => small other (List.mem_cons_of_mem note member))
        obtain ⟨index, below, isNote⟩ := small note List.mem_cons_self
        have keypair : index < 256 ^ 32 := below.trans (by decide)
        have first : ∃ front, (spendableNoteCodec sampleCodecs).consensusEncode note =
            some front := by
          subst isNote
          have denomination : 9 < 256 ^ 1 := by
            decide
          have signature : 0 < 256 ^ 48 := by
            decide
          exact ⟨_, andThen_eq_some.mpr ⟨_, _, narrowCodec_writes denomination,
            andThen_eq_some.mpr ⟨_, _, narrowCodec_writes keypair, andThen_eq_some.mpr
              ⟨_, _, narrowCodec_writes signature, rfl, rfl⟩, rfl⟩, rfl⟩⟩
        obtain ⟨front, isFront⟩ := first
        exact ⟨_, andThen_eq_some.mpr ⟨_, _, isFront, written, rfl⟩⟩
  obtain ⟨bytes, written⟩ := each
  have length : encodeLength notes.length =
      some (toBigEndian 4 (UInt32.ofNat notes.length).toNat) := by
    unfold encodeLength
    rw [if_pos few]
    rfl
  have mint : 0 < 256 ^ 32 := by
    decide
  have encoded : ∃ all, (ecashCodec sampleCodecs).consensusEncode { mint := 0, notes } =
      some all :=
    ⟨_, andThen_eq_some.mpr ⟨_, _, narrowCodec_writes mint, andThen_eq_some.mpr
      ⟨_, _, andThen_eq_some.mpr ⟨_, _, length, written, rfl⟩, rfl, rfl⟩, rfl⟩⟩
  obtain ⟨all, isAll⟩ := encoded
  exact ⟨_, congrArg (Option.map _) isAll⟩

theorem sampleHolder_writes {number : Nat} (small : number < 2 ^ 16) :
    ∃ text, encodeText (ecashCodec sampleCodecs)
      { mint := 0, notes := (sampleHolder number).accountNotes .primary } = some text := by
  apply sampleCodecs_writes
  · intro note member
    obtain ⟨index, inside, same⟩ :=
      List.mem_map.mp ((sampleHolder_notes number).mem_iff.mp member)
    exact ⟨index, (List.mem_range.mp inside).trans small, same.symm⟩
  · rw [(sampleHolder_notes number).length_eq, List.length_map, List.length_range]
    omega

theorem sampleHolder_length (number : Nat) :
    ((sampleHolder number).accountNotes .primary).length = number := by
  rw [(sampleHolder_notes number).length_eq, List.length_map, List.length_range]

/-- Eight notes go out and are received. -/
theorem handed_out_receivable_sample :
    ∃ bundle text, HandsOut sampleContext sampleSignatures .primary (.max (sampleHolder 8)) bundle ∧
      encodeText (ecashCodec sampleCodecs) { mint := 0, notes := bundle } = some text ∧
      bundle.length = 8 ∧ ∃ ecash, Receivable sampleCodecs 0 text ecash ∧
        smallestAmount + ECASH_OUTPUT_FEE ≤
          (faceValues ecash.notes).sum - ECASH_INPUT_FEE * ecash.notes.length := by
  have some : (sampleHolder 8).accountNotes .primary ≠ [] := by
    rw [← List.length_pos_iff, sampleHolder_length]
    decide
  obtain ⟨text, written⟩ := sampleHolder_writes (show 8 < 2 ^ 16 by decide)
  have handed : HandsOut sampleContext sampleSignatures .primary (.max (sampleHolder 8))
      ((sampleHolder 8).accountNotes .primary) :=
    ecashSendMax_handsOut some
  have fits : ReceiverFits ((Send.max (sampleHolder 8)).number .primary)
      ((Send.max (sampleHolder 8)).value .primary) := by
    unfold ReceiverFits
    decide +kernel
  have condition : (∃ ecash, Receivable sampleCodecs 0 text ecash) ↔
      ReceiverFits ((Send.max (sampleHolder 8)).number .primary)
        ((Send.max (sampleHolder 8)).value .primary) :=
    handed_out_receivable_iff (sampleHolder_client 8) handed written
  obtain ⟨ecash, receivable⟩ := condition.mpr fits
  have same : ecash = { mint := 0, notes := (sampleHolder 8).accountNotes .primary } :=
    Except.ok.inj (receivable.decoded.symm.trans
      (decodeText_encodeText (ecashCodec_canonical sampleCodecs) written))
  refine ⟨_, text, handed, written, sampleHolder_length 8, ecash, receivable, ?_⟩
  rw [same]
  decide +kernel

theorem handed_out_not_receivable :
    (∃ bundle text, HandsOut sampleContext sampleSignatures .primary (.max (sampleHolder 1025))
        bundle ∧
      (∀ note ∈ bundle, note.denomination ∈ clientDenominations) ∧
      encodeText (ecashCodec sampleCodecs) { mint := 0, notes := bundle } = some text ∧
      ¬∃ ecash, Receivable sampleCodecs 0 text ecash) ∧
    ∃ text, HandsOut sampleContext sampleSignatures .primary (.direct Tables.empty 0) [] ∧
      encodeText (ecashCodec sampleCodecs) { mint := 0, notes := [] } = some text ∧
      ¬∃ ecash, Receivable sampleCodecs 0 text ecash := by
  constructor
  · have some : (sampleHolder 1025).accountNotes .primary ≠ [] := by
      rw [← List.length_pos_iff, sampleHolder_length]
      decide
    obtain ⟨text, written⟩ := sampleHolder_writes (show 1025 < 2 ^ 16 by decide)
    refine ⟨_, text, ecashSendMax_handsOut some, sampleHolder_client 1025, written, ?_⟩
    intro received
    have fits := (receivable_iff ⟨rfl, rfl, sampleHolder_client 1025⟩ written).mp received
    have few := fits.2.1
    rw [sampleHolder_length] at few
    exact absurd few (by decide)
  · obtain ⟨text, written⟩ := sampleHolder_writes (show 0 < 2 ^ 16 by decide)
    have nothing : (sampleHolder 0).accountNotes .primary = [] := by
      rw [← List.length_eq_zero_iff, sampleHolder_length]
    rw [nothing] at written
    have handed : HandsOut sampleContext sampleSignatures .primary (.direct Tables.empty 0) [] := by
      have zero : roundToMultiple 0 smallestAmount = 0 := rfl
      have sent : ecashSendDirect Tables.empty .primary 0 0 = .ok ((Tables.empty.logEvent .primary
          0 (.send 0)).logEvent .primary 0 (.sendSuccess [])) := by
        unfold ecashSendDirect
        simp only [zero, sendEcash_zero]
        rfl
      exact .direct sent (Tables.lastSent_logEvent.mpr rfl)
    refine ⟨text, handed, written, fun received => ?_⟩
    have empty : Holds [] 0 0 :=
      ⟨rfl, rfl, fun _ impossible => absurd impossible List.not_mem_nil⟩
    exact absurd ((receivable_iff empty written).mp received).1 (lt_irrefl 0)

end Picomint.Client
