/-
The tables of a client for one mint.

An operation takes the tables and returns the changed ones, as a write
transaction that is committed; one that halts leaves them as they are.
-/

import Picomint.Client.Builder
import Picomint.Lib.SortedMap

namespace Picomint.Client

open Consensus

/-! ### Keys -/

theorem Account.index_injective : Function.Injective Account.index := by
  intro left right same
  cases left <;> cases right <;> first
    | rfl
    | cases same

instance : LinearOrder Account := LinearOrder.lift' Account.index Account.index_injective

theorem SpendableNote.toLex_injective : Function.Injective (fun note : SpendableNote =>
    toLex (note.denomination, toLex (note.keypair, note.signature))) := by
  intro left right same
  cases left
  cases right
  cases toLex.injective same
  rfl

/-- Notes are ordered as their encodings are. -/
instance : LinearOrder SpendableNote :=
  LinearOrder.lift' (fun note => toLex (note.denomination, toLex (note.keypair, note.signature)))
    SpendableNote.toLex_injective

/-- A row of the note table. -/
structure NoteKey where
  account : Account
  note : SpendableNote
deriving DecidableEq, Repr

theorem NoteKey.toLex_injective :
    Function.Injective (fun key : NoteKey => toLex (key.account, key.note)) := by
  intro left right same
  cases left
  cases right
  cases toLex.injective same
  rfl

instance : LinearOrder NoteKey :=
  LinearOrder.lift' (fun key => toLex (key.account, key.note)) NoteKey.toLex_injective

abbrev OperationId := Hash

/-- The random key of a state machine. -/
abbrev SmId := Nat

/-! ### Rows -/

structure EcashStateMachine where
  account : Account
  operation : OperationId
  txid : TransactionId
  spendableNotes : List SpendableNote
  issuanceRequests : List NoteIssuanceRequest
  targets : Nat
deriving DecidableEq, Repr

structure TxSubmissionStateMachine where
  account : Account
  operation : OperationId
  tx : Transaction
deriving DecidableEq, Repr

/-- The events the ecash module logs, and those of the other modules that open
an operation. -/
inductive Event where
  | send (amount : Nat)
  | reissuance (txid : TransactionId)
  | receive (txid : TransactionId) (amount : Nat)
  | other (txid : TransactionId)
  | txCreate (txid : TransactionId) (reissue fee : Nat)
  | txAccept (txid : TransactionId)
  | txReject (txid : TransactionId)
  | issuanceSuccess (txid : TransactionId) (amount : Nat)
  | issuanceFailure
  | sendSuccess (ecash : List SpendableNote)
  | sendFailure
deriving DecidableEq, Repr

structure EventLogEntry where
  account : Account
  operation : OperationId
  event : Event
deriving DecidableEq, Repr

structure Tables where
  note : SortedSet NoteKey
  receiveOperationId : SortedSet OperationId
  derivationCounter : SortedMap Account Nat
  ecashStateMachine : SortedMap SmId EcashStateMachine
  txSubmissionStateMachine : SortedMap SmId TxSubmissionStateMachine
  eventLog : List EventLogEntry

namespace Tables

def empty : Tables :=
  { note := SortedMap.empty
    receiveOperationId := SortedMap.empty
    derivationCounter := SortedMap.empty
    ecashStateMachine := SortedMap.empty
    txSubmissionStateMachine := SortedMap.empty
    eventLog := [] }

def logEvent (tables : Tables) (account : Account) (operation : OperationId) (event : Event) :
    Tables :=
  { tables with eventLog := tables.eventLog ++ [{ account, operation, event }] }

/-- `insert_new` on the note table. -/
def insertNote (account : Account) (tables : Tables) (note : SpendableNote) : Attempt Tables := do
  insist (!tables.note.contains { account, note })
  return { tables with note := tables.note.insert { account, note } ⟨⟩ }

def removeSpendableNote (account : Account) (tables : Tables) (note : SpendableNote) :
    Attempt Tables := do
  insist (tables.note.contains { account, note })
  return { tables with note := tables.note.erase { account, note } }

def accountNotes (tables : Tables) (account : Account) : List SpendableNote :=
  (tables.note.keys.filter (fun key => key.account = account)).map NoteKey.note

def nextCounter (tables : Tables) (account : Account) : Nat × Tables :=
  let counter := (tables.derivationCounter.get? account).getD 0
  (counter, { tables with
    derivationCounter := tables.derivationCounter.insert account (counter + 1) })

/-- `add_state_machine_dbtx`; the random key is new. -/
def addEcashStateMachine (tables : Tables) (id : SmId) (machine : EcashStateMachine) :
    Attempt Tables := do
  insist (!tables.ecashStateMachine.contains id)
  return { tables with ecashStateMachine := tables.ecashStateMachine.insert id machine }

def addTxSubmissionStateMachine (tables : Tables) (id : SmId)
    (machine : TxSubmissionStateMachine) : Attempt Tables := do
  insist (!tables.txSubmissionStateMachine.contains id)
  return { tables with
    txSubmissionStateMachine := tables.txSubmissionStateMachine.insert id machine }

/-! ### The notes of an account -/

section Notes

variable {tables : Tables} {account : Account}

theorem mem_accountNotes {note : SpendableNote} :
    note ∈ tables.accountNotes account ↔ tables.note.contains { account, note } = true := by
  unfold accountNotes
  rw [SortedMap.contains_iff, ← SortedMap.mem_keys, List.mem_map]
  constructor
  · rintro ⟨key, member, same⟩
    obtain ⟨inKeys, isAccount⟩ := List.mem_filter.mp member
    cases key
    cases same
    cases of_decide_eq_true isAccount
    exact inKeys
  · intro member
    exact ⟨_, List.mem_filter.mpr ⟨member, decide_eq_true rfl⟩, rfl⟩

theorem accountNotes_nodup (tables : Tables) (account : Account) :
    (tables.accountNotes account).Nodup := by
  unfold accountNotes
  apply List.Nodup.map_on
  · intro left inLeft right inRight same
    have leftAccount := of_decide_eq_true (List.mem_filter.mp inLeft).2
    have rightAccount := of_decide_eq_true (List.mem_filter.mp inRight).2
    cases left
    cases right
    cases leftAccount
    cases rightAccount
    cases same
    rfl
  · exact tables.note.keys_nodup.filter _

theorem accountNotes_perm {notes : List SpendableNote} (distinct : notes.Nodup)
    (same : ∀ note, note ∈ notes ↔ tables.note.contains { account, note } = true) :
    (tables.accountNotes account).Perm notes :=
  (List.perm_ext_iff_of_nodup (accountNotes_nodup tables account) distinct).mpr
    (fun note => mem_accountNotes.trans (same note).symm)

theorem removeSpendableNote_eq_ok {note : SpendableNote} {after : Tables} :
    removeSpendableNote account tables note = .ok after ↔
      tables.note.contains { account, note } = true ∧
        after = { tables with note := tables.note.erase { account, note } } := by
  unfold removeSpendableNote
  simp only [attempt_bind_eq_ok, insist_eq_ok]
  constructor
  · rintro ⟨_, present, result⟩
    cases result
    exact ⟨present, rfl⟩
  · rintro ⟨present, rfl⟩
    exact ⟨(), present, rfl⟩

structure Removed (account : Account) (notes : List SpendableNote) (tables after : Tables) :
    Prop where
  only : after = { tables with note := after.note }
  note : ∀ key, after.note.contains key = true ↔
    tables.note.contains key = true ∧ (key.account = account → key.note ∉ notes)

theorem removeNotes_ok {notes : List SpendableNote} {after : Tables}
    (removed : notes.foldlM (removeSpendableNote account) tables = .ok after) :
    notes.Nodup ∧ (∀ note ∈ notes, note ∈ tables.accountNotes account) ∧
      Removed account notes tables after := by
  induction notes generalizing tables with
  | nil =>
      cases removed
      exact ⟨List.nodup_nil, fun _ impossible => absurd impossible List.not_mem_nil, rfl,
        fun key => ⟨fun present => ⟨present, fun _ => List.not_mem_nil⟩, fun both => both.1⟩⟩
  | cons note rest inductionHypothesis =>
      rw [List.foldlM_cons, attempt_bind_eq_ok] at removed
      obtain ⟨next, first, following⟩ := removed
      obtain ⟨present, same⟩ := removeSpendableNote_eq_ok.mp first
      obtain ⟨distinct, members, only, rows⟩ := inductionHypothesis following
      subst same
      have erased : ∀ key, (tables.note.erase { account, note }).contains key = true ↔
          tables.note.contains key = true ∧ (key.account = account → key.note ≠ note) := by
        intro key
        unfold SortedMap.contains
        rw [SortedMap.get?_erase]
        split
        · rename_i isKey
          subst isKey
          simp
        · rename_i notKey
          constructor
          · intro found
            refine ⟨found, fun isAccount isNote => notKey ?_⟩
            cases key
            cases isAccount
            cases isNote
            rfl
          · exact fun both => both.1
      refine ⟨List.nodup_cons.mpr ⟨fun again => ?_, distinct⟩, ?_, only, ?_⟩
      · have still := mem_accountNotes.mp (members note again)
        exact ((erased _).mp still).2 rfl rfl
      · intro other member
        rcases List.mem_cons.mp member with isNote | later
        · exact isNote ▸ mem_accountNotes.mpr present
        · exact mem_accountNotes.mpr ((erased _).mp (mem_accountNotes.mp (members other later))).1
      · intro key
        rw [rows, erased, and_assoc]
        apply and_congr_right
        intro _
        simp only [List.mem_cons, not_or]
        exact ⟨fun both isAccount => ⟨both.1 isAccount, both.2 isAccount⟩,
          fun both => ⟨fun isAccount => (both isAccount).1, fun isAccount => (both isAccount).2⟩⟩

theorem removeNotes_succeeds (tables : Tables) (account : Account) {notes : List SpendableNote}
    (distinct : notes.Nodup)
    (members : ∀ note ∈ notes, note ∈ tables.accountNotes account) :
    ∃ after, notes.foldlM (removeSpendableNote account) tables = .ok after := by
  induction notes generalizing tables with
  | nil => exact ⟨tables, rfl⟩
  | cons note rest inductionHypothesis =>
      obtain ⟨absent, restDistinct⟩ := List.nodup_cons.mp distinct
      have present := mem_accountNotes.mp (members note List.mem_cons_self)
      have first := removeSpendableNote_eq_ok.mpr ⟨present, rfl⟩
      obtain ⟨after, following⟩ := inductionHypothesis
        { tables with note := tables.note.erase { account, note } } restDistinct (by
          intro other member
          rw [mem_accountNotes]
          unfold SortedMap.contains
          rw [SortedMap.get?_erase_of_ne]
          · exact mem_accountNotes.mp (members other (List.mem_cons_of_mem note member))
          · intro same
            cases same
            exact absent member)
      exact ⟨after, by rw [List.foldlM_cons, first]; exact following⟩

end Notes

end Tables

end Picomint.Client
