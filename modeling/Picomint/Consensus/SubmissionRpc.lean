/-
The submission of a transaction, interleaved with the consensus of its node.

A notification of a table is a count of the calls that woke its waiters; a
future that waits for it keeps the count at its creation and has fired once
the count is past it.  The watched rejections carry a version in the same way.
One task commits, and wakes the waiters of a commit after it is visible.
-/

import Picomint.Consensus.Server

namespace Picomint.Consensus

open Tss

variable {curve : Curve}

/-- The tables whose notifications the submission waits for. -/
inductive WaitTable where
  | acceptedItem
  | sessionSignatures
deriving DecidableEq, Repr

/-- The futures of a submission: the version of the rejections it has seen and
the counts at the creation of its two notified futures. -/
structure Futures where
  rejected : Nat
  notifiedItem : Nat
  notifiedSession : Nat
deriving DecidableEq, Repr

/-- Where the submission stands.  From `rearmItem` on it has read a table
without its transaction and still awaits the new future. -/
inductive SubmitTx where
  | validate
  | subscribe
  | notifyItem (rejected : Nat)
  | notifySession (rejected notifiedItem : Nat)
  | checkAccepted (futures : Futures)
  | submit (futures : Futures)
  | checkRejected (futures : Futures)
  | select (futures : Futures)
  | recheckAccepted (futures : Futures)
  | rearmItem (futures : Futures)
  | resubmit (futures : Futures)
  | rearmSession (futures : Futures)
  | done (outcome : Except TxError Unit)

/-- The task that commits: the tables it still has to notify for, and whether
it closes the session. -/
inductive Writer where
  | idle
  | notifying (touched : List WaitTable) (closes : Bool)
deriving DecidableEq, Repr

structure SubmissionWorld where
  acceptedTxid : SortedMap TransactionId PUnit
  rejected : SortedMap TransactionId TxError
  rejectedVersion : Nat
  itemNotifications : Nat
  sessionNotifications : Nat
  writer : Writer
  rpc : SubmitTx

inductive SubmissionEvent where
  /-- The submission takes the step it stands at. -/
  | proceed
  /-- The submission takes a branch of its select. -/
  | itemFired
  | rejectedChanged
  | sessionFired
  /-- A commit with accepted items, or one that closes the session. -/
  | commit (accepted : List TransactionId) (items closes : Bool)
  | notify
  | clearRejected
  /-- A transaction of this node is rejected. -/
  | reject (txid : TransactionId) (error : TxError)

/-- The tables a commit touched, in the order of their names. -/
def touchedTables (items closes : Bool) : List WaitTable :=
  (if items then [.acceptedItem] else []) ++ (if closes then [.sessionSignatures] else [])

/-- The step the submission stands at. -/
def SubmissionWorld.proceed (mint : MintConfig curve) (tx : Transaction)
    (world : SubmissionWorld) : Option SubmitTx :=
  let txid := computeTxid mint tx
  match world.rpc with
  | .validate =>
      match checkCounts tx with
      | .ok _ => some .subscribe
      | .error (.error error) => some (.done (.error error))
      | .error (.panic _) => none
  | .subscribe => some (.notifyItem world.rejectedVersion)
  | .notifyItem rejected => some (.notifySession rejected world.itemNotifications)
  | .notifySession rejected notifiedItem =>
      some (.checkAccepted { rejected, notifiedItem, notifiedSession := world.sessionNotifications })
  | .checkAccepted futures =>
      some (if world.acceptedTxid.contains txid then .done (.ok ()) else .submit futures)
  | .submit futures => some (.checkRejected futures)
  | .checkRejected futures =>
      match world.rejected.get? txid with
      | some error => some (.done (.error error))
      | none => some (.select { futures with rejected := world.rejectedVersion })
  | .recheckAccepted futures =>
      some (if world.acceptedTxid.contains txid then .done (.ok ()) else .rearmItem futures)
  | .rearmItem futures =>
      some (.checkRejected { futures with notifiedItem := world.itemNotifications })
  | .resubmit futures => some (.rearmSession futures)
  | .rearmSession futures =>
      some (.checkRejected { futures with notifiedSession := world.sessionNotifications })
  | .select _ => none
  | .done _ => none

/-- The branches of the select, each once its future has fired. -/
def SubmissionWorld.itemFired (world : SubmissionWorld) (futures : Futures) : Bool :=
  futures.notifiedItem < world.itemNotifications

def SubmissionWorld.rejectedChanged (world : SubmissionWorld) (futures : Futures) : Bool :=
  futures.rejected < world.rejectedVersion

def SubmissionWorld.sessionFired (world : SubmissionWorld) (futures : Futures) : Bool :=
  futures.notifiedSession < world.sessionNotifications

def SubmissionWorld.step (mint : MintConfig curve) (tx : Transaction) (world : SubmissionWorld) :
    SubmissionEvent → Option SubmissionWorld
  | .proceed => (world.proceed mint tx).map (fun rpc => { world with rpc })
  | .itemFired =>
      match world.rpc with
      | .select futures =>
          if world.itemFired futures then some { world with rpc := .recheckAccepted futures }
          else none
      | _ => none
  | .rejectedChanged =>
      match world.rpc with
      | .select futures =>
          if world.rejectedChanged futures then
            some { world with
              rpc := .checkRejected { futures with rejected := world.rejectedVersion } }
          else none
      | _ => none
  | .sessionFired =>
      match world.rpc with
      | .select futures =>
          if world.sessionFired futures then some { world with rpc := .resubmit futures } else none
      | _ => none
  | .commit accepted items closes =>
      if world.writer = .idle ∧ (accepted = [] ∨ items) then
        some { world with
          acceptedTxid := accepted.foldl (fun table txid => table.insert txid ⟨⟩) world.acceptedTxid
          writer := .notifying (touchedTables items closes) closes }
      else none
  | .notify =>
      match world.writer with
      | .notifying (.acceptedItem :: rest) closes =>
          some { world with
            itemNotifications := world.itemNotifications + 1
            writer := .notifying rest closes }
      | .notifying (.sessionSignatures :: rest) closes =>
          some { world with
            sessionNotifications := world.sessionNotifications + 1
            writer := .notifying rest closes }
      | .notifying [] false => some { world with writer := .idle }
      | _ => none
  | .clearRejected =>
      match world.writer with
      | .notifying [] true =>
          some { world with
            rejected := SortedMap.empty
            rejectedVersion := world.rejectedVersion + 1
            writer := .idle }
      | _ => none
  | .reject txid error =>
      if world.writer = .idle then
        some { world with
          rejected := world.rejected.insert txid error
          rejectedVersion := world.rejectedVersion + 1 }
      else none

def SubmissionWorld.run (mint : MintConfig curve) (tx : Transaction) (world : SubmissionWorld)
    (events : List SubmissionEvent) : Option SubmissionWorld :=
  events.foldlM (SubmissionWorld.step mint tx) world

/-! ### Wakeups -/

/-- The commit under way will still notify for the table. -/
def Writer.notifies (writer : Writer) (table : WaitTable) : Prop :=
  ∃ touched closes, writer = .notifying touched closes ∧ table ∈ touched

/-- Nothing will make the waiting submission look again. -/
def SubmissionWorld.Asleep (world : SubmissionWorld) (futures : Futures) : Prop :=
  world.rpc = .select futures ∧ world.writer = .idle ∧ world.itemFired futures = false ∧
    world.rejectedChanged futures = false ∧ world.sessionFired futures = false

/-- The transaction is accepted, or rejected and not yet cleared, while the
submission sleeps. -/
def SubmissionWorld.LostWakeup (mint : MintConfig curve) (tx : Transaction)
    (world : SubmissionWorld) : Prop :=
  (∃ futures, world.Asleep futures) ∧
    (world.acceptedTxid.contains (computeTxid mint tx) = true ∨
      world.rejected.contains (computeTxid mint tx) = true)

/-! ### The futures of a submission -/

/-- The version of the rejections the submission has seen. -/
def SubmitTx.seen : SubmitTx → Option Nat
  | .validate | .subscribe | .done _ => none
  | .notifyItem rejected | .notifySession rejected _ => some rejected
  | .checkAccepted futures | .submit futures | .checkRejected futures | .select futures
  | .recheckAccepted futures | .rearmItem futures | .resubmit futures | .rearmSession futures =>
      some futures.rejected

/-- The count its future on accepted items was created at. -/
def SubmitTx.item : SubmitTx → Option Nat
  | .validate | .subscribe | .notifyItem _ | .done _ => none
  | .notifySession _ notifiedItem => some notifiedItem
  | .checkAccepted futures | .submit futures | .checkRejected futures | .select futures
  | .recheckAccepted futures | .rearmItem futures | .resubmit futures | .rearmSession futures =>
      some futures.notifiedItem

/-- The submission relies on that future for what it has not read. -/
def SubmitTx.armed : SubmitTx → Option Nat
  | .submit futures | .checkRejected futures | .select futures | .resubmit futures
  | .rearmSession futures => some futures.notifiedItem
  | _ => none

variable {mint : MintConfig curve} {tx : Transaction} {world next : SubmissionWorld}

structure RejectionSound (txid : TransactionId) (world : SubmissionWorld) : Prop where
  seen : ∀ version, world.rpc.seen = some version → version ≤ world.rejectedVersion
  select : ∀ futures, world.rpc = .select futures → world.rejected.contains txid = true →
    futures.rejected < world.rejectedVersion

/-- An acceptance the submission has not read is one its future catches. -/
structure AcceptanceSound (txid : TransactionId) (world : SubmissionWorld) : Prop where
  item : ∀ count, world.rpc.item = some count → count ≤ world.itemNotifications
  armed : ∀ count, world.rpc.armed = some count → world.acceptedTxid.contains txid = true →
    count < world.itemNotifications ∨ world.writer.notifies .acceptedItem
  rearm : ∀ futures, world.rpc = .rearmItem futures → world.acceptedTxid.contains txid = true →
    world.writer.notifies .acceptedItem

theorem Writer.not_notifies_idle {table : WaitTable} : ¬Writer.idle.notifies table := by
  rintro ⟨touched, closes, same, _⟩
  cases same

theorem Writer.notifies_tail {table first : WaitTable} {rest : List WaitTable} {closes : Bool}
    (notifies : (Writer.notifying (first :: rest) closes).notifies table)
    (other : table ≠ first) : (Writer.notifying rest closes).notifies table := by
  obtain ⟨touched, _, same, member⟩ := notifies
  cases same
  exact ⟨rest, closes, rfl, (List.mem_cons.mp member).resolve_left other⟩

theorem Writer.not_notifies_nil {table : WaitTable} {closes : Bool} :
    ¬(Writer.notifying [] closes).notifies table := by
  rintro ⟨touched, _, same, member⟩
  cases same
  cases member

/-! ### Steps -/

theorem SubmissionWorld.proceed_seen {rpc : SubmitTx} {version : Nat}
    (proceeded : world.proceed mint tx = some rpc) (seen : rpc.seen = some version) :
    world.rpc.seen = some version ∨ version = world.rejectedVersion := by
  unfold SubmissionWorld.proceed at proceeded
  split at proceeded
  all_goals grind [SubmitTx.seen]

theorem SubmissionWorld.proceed_select {futures : Futures}
    (proceeded : world.proceed mint tx = some (.select futures)) :
    world.rejected.contains (computeTxid mint tx) = false ∧
      ∃ before, world.rpc = .checkRejected before ∧
        futures = { before with rejected := world.rejectedVersion } := by
  unfold SubmissionWorld.proceed at proceeded
  split at proceeded
  all_goals grind [SortedMap.contains]

theorem SubmissionWorld.proceed_item {rpc : SubmitTx} {count : Nat}
    (proceeded : world.proceed mint tx = some rpc) (item : rpc.item = some count) :
    world.rpc.item = some count ∨ count = world.itemNotifications := by
  unfold SubmissionWorld.proceed at proceeded
  split at proceeded
  all_goals grind [SubmitTx.item]

/-- The submission comes to rely on its future after it read the table, or
after it created the future anew. -/
theorem SubmissionWorld.proceed_armed {rpc : SubmitTx} {count : Nat}
    (proceeded : world.proceed mint tx = some rpc) (armed : rpc.armed = some count) :
    world.rpc.armed = some count ∨ world.acceptedTxid.contains (computeTxid mint tx) = false ∨
      ∃ futures, world.rpc = .rearmItem futures := by
  unfold SubmissionWorld.proceed at proceeded
  split at proceeded
  all_goals grind [SubmitTx.armed]

theorem SubmissionWorld.proceed_rearm {futures : Futures}
    (proceeded : world.proceed mint tx = some (.rearmItem futures)) :
    world.acceptedTxid.contains (computeTxid mint tx) = false := by
  unfold SubmissionWorld.proceed at proceeded
  split at proceeded
  all_goals grind

/-- What a step can do. -/
inductive SubmissionStep (mint : MintConfig curve) (tx : Transaction) (world : SubmissionWorld) :
    SubmissionEvent → SubmissionWorld → Prop where
  | proceed {event : SubmissionEvent} {rpc : SubmitTx}
      (proceeded : world.proceed mint tx = some rpc) :
      SubmissionStep mint tx world event { world with rpc }
  | itemFired {event : SubmissionEvent} {futures : Futures}
      (waiting : world.rpc = .select futures) :
      SubmissionStep mint tx world event { world with rpc := .recheckAccepted futures }
  | rejectedChanged {event : SubmissionEvent} {futures : Futures}
      (waiting : world.rpc = .select futures) :
      SubmissionStep mint tx world event
        { world with rpc := .checkRejected { futures with rejected := world.rejectedVersion } }
  | sessionFired {event : SubmissionEvent} {futures : Futures}
      (waiting : world.rpc = .select futures) :
      SubmissionStep mint tx world event { world with rpc := .resubmit futures }
  | commit {event : SubmissionEvent} {accepted : List TransactionId} {items closes : Bool}
      (idle : world.writer = .idle) (touched : accepted = [] ∨ items = true) :
      SubmissionStep mint tx world event
        { world with
          acceptedTxid := accepted.foldl (fun table txid => table.insert txid ⟨⟩) world.acceptedTxid
          writer := .notifying (touchedTables items closes) closes }
  | notifyItem {rest : List WaitTable} {closes : Bool}
      (notifying : world.writer = .notifying (.acceptedItem :: rest) closes) :
      SubmissionStep mint tx world .notify
        { world with
          itemNotifications := world.itemNotifications + 1
          writer := .notifying rest closes }
  | notifySession {event : SubmissionEvent} {rest : List WaitTable} {closes : Bool}
      (notifying : world.writer = .notifying (.sessionSignatures :: rest) closes) :
      SubmissionStep mint tx world event
        { world with
          sessionNotifications := world.sessionNotifications + 1
          writer := .notifying rest closes }
  | settle {event : SubmissionEvent} {closes : Bool}
      (notifying : world.writer = .notifying [] closes) :
      SubmissionStep mint tx world event { world with writer := .idle }
  | clear {event : SubmissionEvent} {closes : Bool}
      (notifying : world.writer = .notifying [] closes) :
      SubmissionStep mint tx world event
        { world with
          rejected := SortedMap.empty
          rejectedVersion := world.rejectedVersion + 1
          writer := .idle }
  | reject {event : SubmissionEvent} {txid : TransactionId} {error : TxError} :
      SubmissionStep mint tx world event
        { world with
          rejected := world.rejected.insert txid error
          rejectedVersion := world.rejectedVersion + 1 }

theorem SubmissionWorld.step_cases {event : SubmissionEvent}
    (stepped : world.step mint tx event = some next) : SubmissionStep mint tx world event next := by
  cases event with
  | proceed =>
      obtain ⟨rpc, proceeded, same⟩ := Option.map_eq_some_iff.mp stepped
      subst same
      exact .proceed proceeded
  | itemFired =>
      unfold SubmissionWorld.step at stepped
      dsimp only at stepped
      split at stepped
      · rename_i futures waiting
        split at stepped
        · cases stepped
          exact .itemFired waiting
        · cases stepped
      · cases stepped
  | rejectedChanged =>
      unfold SubmissionWorld.step at stepped
      dsimp only at stepped
      split at stepped
      · rename_i futures waiting
        split at stepped
        · cases stepped
          exact .rejectedChanged waiting
        · cases stepped
      · cases stepped
  | sessionFired =>
      unfold SubmissionWorld.step at stepped
      dsimp only at stepped
      split at stepped
      · rename_i futures waiting
        split at stepped
        · cases stepped
          exact .sessionFired waiting
        · cases stepped
      · cases stepped
  | commit accepted items closes =>
      unfold SubmissionWorld.step at stepped
      dsimp only at stepped
      split at stepped
      · rename_i allowed
        cases stepped
        exact .commit allowed.1 allowed.2
      · cases stepped
  | notify =>
      unfold SubmissionWorld.step at stepped
      dsimp only at stepped
      split at stepped
      · rename_i rest closes notifying
        cases stepped
        exact .notifyItem notifying
      · rename_i rest closes notifying
        cases stepped
        exact .notifySession notifying
      · rename_i notifying
        cases stepped
        exact .settle notifying
      · cases stepped
  | clearRejected =>
      unfold SubmissionWorld.step at stepped
      dsimp only at stepped
      split at stepped
      · rename_i notifying
        cases stepped
        exact .clear notifying
      · cases stepped
  | reject txid error =>
      unfold SubmissionWorld.step at stepped
      dsimp only at stepped
      split at stepped
      · cases stepped
        exact .reject
      · cases stepped

theorem RejectionSound.step {event : SubmissionEvent}
    (sound : RejectionSound (computeTxid mint tx) world)
    (stepped : SubmissionStep mint tx world event next) :
    RejectionSound (computeTxid mint tx) next := by
  cases stepped with
  | proceed proceeded =>
      refine ⟨?_, ?_⟩
      · intro version seen
        rcases SubmissionWorld.proceed_seen proceeded seen with before | current
        · exact sound.seen version before
        · exact current.le
      · rintro futures rfl recorded
        have selected := SubmissionWorld.proceed_select proceeded
        cases recorded.symm.trans selected.1
  | itemFired waiting =>
      refine ⟨?_, fun _ isSelect => by cases isSelect⟩
      intro version seen
      exact sound.seen version (by rw [waiting]; exact seen)
  | rejectedChanged waiting =>
      refine ⟨?_, fun _ isSelect => by cases isSelect⟩
      intro version seen
      cases seen
      exact le_refl _
  | sessionFired waiting =>
      refine ⟨?_, fun _ isSelect => by cases isSelect⟩
      intro version seen
      exact sound.seen version (by rw [waiting]; exact seen)
  | commit => exact ⟨sound.seen, sound.select⟩
  | notifyItem => exact ⟨sound.seen, sound.select⟩
  | notifySession => exact ⟨sound.seen, sound.select⟩
  | settle => exact ⟨sound.seen, sound.select⟩
  | clear =>
      refine ⟨fun version seen => (sound.seen version seen).trans (Nat.le_succ _), ?_⟩
      intro futures _ recorded
      cases recorded
  | reject =>
      refine ⟨fun version seen => (sound.seen version seen).trans (Nat.le_succ _), ?_⟩
      intro futures isSelect _
      have seen : world.rpc.seen = some futures.rejected := by
        rw [show world.rpc = .select futures from isSelect]
        rfl
      exact Nat.lt_succ_of_le (sound.seen _ seen)

theorem contains_foldl_insert {accepted : List TransactionId}
    {table : SortedMap TransactionId PUnit} {txid : TransactionId}
    (found : (accepted.foldl (fun table txid => table.insert txid ⟨⟩) table).contains txid = true) :
    accepted ≠ [] ∨ table.contains txid = true := by
  cases accepted with
  | nil => exact Or.inr found
  | cons first rest => exact Or.inl (List.cons_ne_nil first rest)

/-- The acceptance is not notified between the second look at the table and
the creation of the new future. -/
def SubmissionWorld.Unmissed (mint : MintConfig curve) (tx : Transaction)
    (world : SubmissionWorld) (event : SubmissionEvent) : Prop :=
  ∀ futures rest closes, event = .notify → world.rpc = .rearmItem futures →
    world.writer = .notifying (.acceptedItem :: rest) closes →
      world.acceptedTxid.contains (computeTxid mint tx) = false

theorem AcceptanceSound.step {event : SubmissionEvent}
    (sound : AcceptanceSound (computeTxid mint tx) world)
    (unmissed : world.Unmissed mint tx event)
    (stepped : SubmissionStep mint tx world event next) :
    AcceptanceSound (computeTxid mint tx) next := by
  cases stepped with
  | proceed proceeded =>
      refine ⟨?_, ?_, ?_⟩
      · intro count item
        rcases SubmissionWorld.proceed_item proceeded item with before | current
        · exact sound.item count before
        · exact current.le
      · intro count armed accepted
        rcases SubmissionWorld.proceed_armed proceeded armed with before | absent | ⟨futures, isRearm⟩
        · exact sound.armed count before accepted
        · cases accepted.symm.trans absent
        · exact Or.inr (sound.rearm futures isRearm accepted)
      · rintro futures rfl accepted
        have absent := SubmissionWorld.proceed_rearm proceeded
        cases accepted.symm.trans absent
  | itemFired waiting =>
      refine ⟨?_, fun _ armed => (by cases armed), fun _ isRearm => (by cases isRearm)⟩
      intro count item
      exact sound.item count (by rw [waiting]; exact item)
  | rejectedChanged waiting =>
      refine ⟨?_, ?_, fun _ isRearm => (by cases isRearm)⟩
      · intro count item
        exact sound.item count (by rw [waiting]; exact item)
      · intro count armed
        exact sound.armed count (by rw [waiting]; exact armed)
  | sessionFired waiting =>
      refine ⟨?_, ?_, fun _ isRearm => (by cases isRearm)⟩
      · intro count item
        exact sound.item count (by rw [waiting]; exact item)
      · intro count armed
        exact sound.armed count (by rw [waiting]; exact armed)
  | commit idle touched =>
      rename_i accepted items closes
      have notifies : accepted ≠ [] →
          (Writer.notifying (touchedTables items closes) closes).notifies .acceptedItem := by
        intro some
        have isTouched : items = true := touched.resolve_left some
        refine ⟨_, _, rfl, ?_⟩
        unfold touchedTables
        rw [isTouched]
        exact List.mem_cons_self
      refine ⟨sound.item, ?_, ?_⟩
      · intro count armed found
        rcases contains_foldl_insert found with some | before
        · exact Or.inr (notifies some)
        · rcases sound.armed count armed before with fired | pending
          · exact Or.inl fired
          · exact absurd (idle ▸ pending) Writer.not_notifies_idle
      · intro futures isRearm found
        rcases contains_foldl_insert found with some | before
        · exact notifies some
        · exact absurd (idle ▸ sound.rearm futures isRearm before) Writer.not_notifies_idle
  | notifyItem notifying =>
      rename_i rest closes
      refine ⟨fun count item => (sound.item count item).trans (Nat.le_succ _), ?_, ?_⟩
      · intro count armed _
        have item : world.rpc.item = some count := by
          cases position : world.rpc <;> grind [SubmitTx.armed, SubmitTx.item]
        exact Or.inl (Nat.lt_succ_of_le (sound.item count item))
      · intro futures isRearm accepted
        have absent := unmissed futures rest closes rfl isRearm notifying
        cases accepted.symm.trans absent
  | notifySession notifying =>
      refine ⟨sound.item, ?_, ?_⟩
      · intro count armed accepted
        rcases sound.armed count armed accepted with fired | pending
        · exact Or.inl fired
        · exact Or.inr (Writer.notifies_tail (notifying ▸ pending) (by decide))
      · intro futures isRearm accepted
        exact Writer.notifies_tail (notifying ▸ sound.rearm futures isRearm accepted) (by decide)
  | settle notifying =>
      refine ⟨sound.item, ?_, ?_⟩
      · intro count armed accepted
        rcases sound.armed count armed accepted with fired | pending
        · exact Or.inl fired
        · exact absurd (notifying ▸ pending) Writer.not_notifies_nil
      · intro futures isRearm accepted
        exact absurd (notifying ▸ sound.rearm futures isRearm accepted) Writer.not_notifies_nil
  | clear notifying =>
      refine ⟨sound.item, ?_, ?_⟩
      · intro count armed accepted
        rcases sound.armed count armed accepted with fired | pending
        · exact Or.inl fired
        · exact absurd (notifying ▸ pending) Writer.not_notifies_nil
      · intro futures isRearm accepted
        exact absurd (notifying ▸ sound.rearm futures isRearm accepted) Writer.not_notifies_nil
  | reject => exact ⟨sound.item, sound.armed, sound.rearm⟩

/-! ### Runs -/

/-- No step of the run notifies for the acceptance in that window. -/
def SubmissionWorld.UnmissedRun (mint : MintConfig curve) (tx : Transaction)
    (start : SubmissionWorld) (events : List SubmissionEvent) : Prop :=
  ∀ front event back middle, events = front ++ event :: back →
    start.run mint tx front = some middle → middle.Unmissed mint tx event

theorem SubmissionWorld.run_sound {start : SubmissionWorld} (begins : start.rpc = .validate)
    (events : List SubmissionEvent) : ∀ final, start.run mint tx events = some final →
      RejectionSound (computeTxid mint tx) final ∧
        (start.UnmissedRun mint tx events → AcceptanceSound (computeTxid mint tx) final) := by
  induction events using List.reverseRecOn with
  | nil =>
      intro final ran
      cases ran
      refine ⟨⟨?_, ?_⟩, fun _ => ⟨?_, ?_, ?_⟩⟩
      all_goals
        intro found
        rw [begins]
        intro impossible
        cases impossible
  | append_singleton front event inductionHypothesis =>
      intro final ran
      unfold SubmissionWorld.run at ran
      rw [List.foldlM_append, Option.bind_eq_bind, Option.bind_eq_some_iff] at ran
      obtain ⟨middle, before, last⟩ := ran
      simp only [List.foldlM_cons, List.foldlM_nil, bind_pure] at last
      obtain ⟨rejection, acceptance⟩ := inductionHypothesis middle before
      have step := SubmissionWorld.step_cases last
      refine ⟨rejection.step step, fun unmissed => ?_⟩
      have earlier : start.UnmissedRun mint tx front := by
        intro first other rest state split
        exact unmissed first other (rest ++ [event]) state (by rw [split, List.append_assoc]; rfl)
      exact (acceptance earlier).step (unmissed front event [] middle rfl before) step

/-- A waiting submission is woken for every recorded rejection, and for its
acceptance unless that is notified while it creates its future anew. -/
theorem submission_awaits_outcome {start final : SubmissionWorld}
    {events : List SubmissionEvent} (begins : start.rpc = .validate)
    (ran : start.run mint tx events = some final) :
    (∀ futures, final.rpc = .select futures →
      final.rejected.contains (computeTxid mint tx) = true →
        final.rejectedChanged futures = true) ∧
      (start.UnmissedRun mint tx events →
        (∀ futures, final.rpc = .select futures →
          final.acceptedTxid.contains (computeTxid mint tx) = true →
            final.itemFired futures = true ∨ final.writer.notifies .acceptedItem) ∧
          ¬final.LostWakeup mint tx) := by
  obtain ⟨rejection, acceptance⟩ := SubmissionWorld.run_sound begins events final ran
  have changed : ∀ futures, final.rpc = .select futures →
      final.rejected.contains (computeTxid mint tx) = true →
        final.rejectedChanged futures = true := by
    intro futures waiting recorded
    exact decide_eq_true (rejection.select futures waiting recorded)
  refine ⟨changed, fun unmissed => ?_⟩
  have woken : ∀ futures, final.rpc = .select futures →
      final.acceptedTxid.contains (computeTxid mint tx) = true →
        final.itemFired futures = true ∨ final.writer.notifies .acceptedItem := by
    intro futures waiting accepted
    have armed : final.rpc.armed = some futures.notifiedItem := by
      rw [waiting]
      rfl
    rcases (acceptance unmissed).armed _ armed accepted with fired | pending
    · exact Or.inl (decide_eq_true fired)
    · exact Or.inr pending
  refine ⟨woken, ?_⟩
  rintro ⟨⟨futures, waiting, idle, item, watch, _⟩, accepted | recorded⟩
  · rcases woken futures waiting accepted with fired | pending
    · cases fired.symm.trans item
    · exact Writer.not_notifies_idle (idle ▸ pending)
  · cases (changed futures waiting recorded).symm.trans watch

/-! Another item wakes the submission of a transaction, which is accepted right
after the submission looked. -/

def sampleSubmission : Transaction where
  inputs := [.ecash { note := { denomination := 0, nonce := 0, signature := 0 } }]
  outputs := [.ecash { denomination := 0, nonce := 0 }]
  signatures := [0]

def sampleIdle : SubmissionWorld where
  acceptedTxid := SortedMap.empty
  rejected := SortedMap.empty
  rejectedVersion := 0
  itemNotifications := 0
  sessionNotifications := 0
  writer := .idle
  rpc := .validate

def sampleUntilSelect : List SubmissionEvent := List.replicate 7 .proceed

def sampleTxid : TransactionId := computeTxid sampleServer.toMintConfig sampleSubmission

def sampleAccepted : List SubmissionEvent :=
  sampleUntilSelect ++ [.commit [sampleTxid] true false, .notify]

theorem sampleAccepted_unmissed :
    sampleIdle.UnmissedRun sampleServer.toMintConfig sampleSubmission sampleAccepted := by
  have calm : ∀ count ∈ List.range 9,
      (sampleIdle.run sampleServer.toMintConfig sampleSubmission
        (sampleAccepted.take count)).all (fun world =>
          match world.rpc with
          | .rearmItem _ => false
          | _ => true) = true := by
    decide +kernel
  intro front event back middle split ran futures rest closes _ isRearm _
  have short : front.length < 9 := by
    have total : sampleAccepted.length = 9 := rfl
    rw [split, List.length_append, List.length_cons] at total
    omega
  have other := calm front.length (List.mem_range.mpr short)
  rw [split, List.take_left, ran, Option.all_some, isRearm] at other
  cases other

theorem submission_awaits_outcome_sample :
    ∃ final, sampleIdle.run sampleServer.toMintConfig sampleSubmission sampleAccepted =
        some final ∧
      final.acceptedTxid.contains sampleTxid = true ∧
        ¬final.LostWakeup sampleServer.toMintConfig sampleSubmission :=
  ⟨_, rfl, rfl, ((submission_awaits_outcome rfl rfl).2 sampleAccepted_unmissed).2⟩

def sampleWoken : List SubmissionEvent :=
  sampleUntilSelect ++ [.commit [] true false, .notify, .notify, .itemFired, .proceed]

/-- The acceptance is committed and notified before the new future exists. -/
theorem submission_loses_wakeup :
    ∃ final, sampleIdle.run sampleServer.toMintConfig sampleSubmission
      (sampleWoken ++ [.commit [sampleTxid] true false, .notify, .notify, .proceed, .proceed]) =
        some final ∧ final.LostWakeup sampleServer.toMintConfig sampleSubmission := by
  refine ⟨_, rfl, ⟨_, rfl, rfl, rfl, rfl, rfl⟩, Or.inl rfl⟩

end Picomint.Consensus
