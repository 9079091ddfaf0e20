/-
The state machine behind the ecash of a transaction.

It waits for the outcome of the transaction.  A rejection puts the drawn notes
back; an acceptance turns the signature shares of the nodes into notes, in the
order of the requests.  The leading ones are the bundle of a send, the others
go into the note table.
-/

import Picomint.Client.Tables

namespace Picomint.Client

open Consensus

/-- The aggregate keys of the mint and the functions of the signature library. -/
structure NoteSignatures where
  tbsAggPks : SortedMap Denomination Nat
  aggregateSignatureShares : List (NodeId × Nat) → BlindedSignature
  verifyNote : Note → Nat → Bool

inductive IssuanceOutcome where
  | rejected
  | issued (notes : List (Account × SpendableNote))
  | invalid
deriving DecidableEq, Repr

def NoteIssuanceRequest.account (request : NoteIssuanceRequest) : Account :=
  request.issuance.account

/-! ### Issuance -/

def shareColumn (signatures : SortedMap NodeId (List Nat)) (index : Nat) :
    Attempt (List (NodeId × Nat)) :=
  signatures.rows.mapM (fun entry => do
    let share ← demand entry.2[index]?
    return (entry.1, share))

/-- The loop over the requests, which stops at a note that does not verify. -/
def finalizeRequests (ctx : ClientContext) (library : NoteSignatures)
    (signatures : SortedMap NodeId (List Nat)) :
    List (NoteIssuanceRequest × Nat) → List (Account × SpendableNote) → Attempt IssuanceOutcome
  | [], notes => .ok (.issued notes)
  | (request, index) :: rest, notes => do
      let shares ← shareColumn signatures index
      let spendableNote := request.finalize ctx.secret.toNoteKeys
        (library.aggregateSignatureShares shares)
      let pk ← demand (library.tbsAggPks.get? request.denomination)
      if library.verifyNote (spendableNote.note ctx.secret.toNoteKeys) pk then
        finalizeRequests ctx library signatures rest (notes ++ [(request.account, spendableNote)])
      else return .invalid

namespace EcashStateMachine

def trigger (ctx : ClientContext) (library : NoteSignatures) (accepted : Bool)
    (signatures : SortedMap NodeId (List Nat)) (machine : EcashStateMachine) :
    Attempt IssuanceOutcome :=
  if !accepted then .ok .rejected
  else if machine.issuanceRequests.isEmpty then .ok (.issued [])
  else finalizeRequests ctx library signatures machine.issuanceRequests.zipIdx []

/-- Put an issued note into the account of its request. -/
def credit (tables : Tables) (entry : Account × SpendableNote) : Attempt Tables :=
  tables.insertNote entry.1 entry.2

def logSendFailure (machine : EcashStateMachine) (tables : Tables) : Tables :=
  if 0 < machine.targets then
    tables.logEvent machine.account machine.operation .sendFailure
  else tables

def logSendSuccess (machine : EcashStateMachine) (tables : Tables)
    (sent : List (Account × SpendableNote)) : Tables :=
  if sent.isEmpty then tables
  else tables.logEvent machine.account machine.operation (.sendSuccess (sent.map Prod.snd))

def transition (machine : EcashStateMachine) (tables : Tables) :
    IssuanceOutcome → Attempt Tables
  | .rejected => do
      let tables ← machine.spendableNotes.foldlM (Tables.insertNote machine.account) tables
      return machine.logSendFailure tables
  | .invalid => do
      let tables := tables.logEvent machine.account machine.operation .issuanceFailure
      return machine.logSendFailure tables
  | .issued [] => .ok tables
  | .issued notes => do
      let amount := amountSum ((notes.filter (fun entry => entry.1 = machine.account)).map
        (fun entry => entry.2.amount))
      -- `split_off` panics beyond the end
      insist (machine.targets ≤ notes.length)
      let tables ← (notes.drop machine.targets).foldlM credit tables
      let tables := tables.logEvent machine.account machine.operation
        (.issuanceSuccess machine.txid amount)
      return machine.logSendSuccess tables (notes.take machine.targets)

/-- The last iteration of `drive`: the transition and the removal of the row. -/
def drive (tables : Tables) (id : SmId) (machine : EcashStateMachine)
    (outcome : IssuanceOutcome) : Attempt Tables := do
  let tables ← machine.transition tables outcome
  return { tables with ecashStateMachine := tables.ecashStateMachine.erase id }

end EcashStateMachine

/-! ### What an issuance gives -/

structure FinalizedAs (ctx : ClientContext) (library : NoteSignatures)
    (request : NoteIssuanceRequest) (entry : Account × SpendableNote) : Prop where
  account : entry.1 = request.account
  finalized : ∃ signature, entry.2 = request.finalize ctx.secret.toNoteKeys signature
  verified : ∃ pk, library.tbsAggPks.get? request.denomination = some pk ∧
    library.verifyNote (entry.2.note ctx.secret.toNoteKeys) pk = true

section Issued

variable {ctx : ClientContext} {library : NoteSignatures}
  {signatures : SortedMap NodeId (List Nat)}

theorem finalizeRequests_issued {requests : List (NoteIssuanceRequest × Nat)}
    {before notes : List (Account × SpendableNote)}
    (issued : finalizeRequests ctx library signatures requests before = .ok (.issued notes)) :
    ∃ new, notes = before ++ new ∧
      List.Forall₂ (FinalizedAs ctx library) (requests.map Prod.fst) new := by
  induction requests generalizing before with
  | nil =>
      cases issued
      exact ⟨[], (List.append_nil _).symm, .nil⟩
  | cons entry rest inductionHypothesis =>
      obtain ⟨request, index⟩ := entry
      unfold finalizeRequests at issued
      simp only [attempt_bind_eq_ok, demand_eq_ok] at issued
      obtain ⟨shares, _, pk, found, following⟩ := issued
      split at following
      · rename_i verifies
        obtain ⟨new, same, each⟩ := inductionHypothesis following
        refine ⟨_ :: new, by rw [same, List.append_assoc]; rfl, ?_⟩
        exact .cons ⟨rfl, ⟨_, rfl⟩, pk, found, verifies⟩ each
      · cases following

namespace EcashStateMachine

variable {machine : EcashStateMachine} {accepted : Bool}

theorem trigger_issued {notes : List (Account × SpendableNote)}
    (issued : machine.trigger ctx library accepted signatures = .ok (.issued notes)) :
    accepted = true ∧
      List.Forall₂ (FinalizedAs ctx library) machine.issuanceRequests notes := by
  unfold trigger at issued
  split at issued
  · cases issued
  · rename_i wasAccepted
    refine ⟨by simpa using wasAccepted, ?_⟩
    split at issued
    · rename_i nothing
      rw [List.isEmpty_iff] at nothing
      cases issued
      rw [nothing]
      exact .nil
    · obtain ⟨new, same, each⟩ := finalizeRequests_issued issued
      rw [List.zipIdx_map_fst] at each
      rw [same]
      exact each

end EcashStateMachine

end Issued

end Picomint.Client
