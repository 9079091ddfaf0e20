/-
The deposit scanner over a mint's whole history.

Consensus items track outputs, the scanner runs at any time, and a restore
starts it again from nothing.  A completed run moves the cursor unless no
taproot output is left, or none is within the slice: the mint filters the slice
by script type, and the cursor follows the last output it returned.
-/

import Picomint.Client.DepositScan
import Picomint.Consensus.Solvency

namespace Picomint.Consensus

open Tss

variable {curve : Curve} {server : Server curve}

/-! ### The table of tracked outputs -/

theorem processConsensusItem_outputs {ledger after : Ledger curve} {node : NodeId}
    {item : ConsensusItem curve}
    (processed : processConsensusItem server ledger node item = .ok after) :
    (∃ new, after.output.values = ledger.output.values ++ new) ∧
      (ledger.output.Dense → after.output.Dense) := by
  have unchanged : after.output = ledger.output →
      (∃ new, after.output.values = ledger.output.values ++ new) ∧
        (ledger.output.Dense → after.output.Dense) := by
    intro same
    rw [same]
    exact ⟨⟨[], (List.append_nil _).symm⟩, id⟩
  cases item with
  | tx tx => exact unchanged (processTxItem_blockVotes processed).output
  | blockHeight vote =>
      obtain ⟨_, result⟩ := processBlockHeight_ok processed
      exact unchanged (by rw [result])
  | version vote => exact unchanged (by rw [processVersion_ok processed])
  | onchain item =>
      cases item with
      | block vote =>
          obtain ⟨_, _, result | result⟩ := Onchain.processBlock_ok processed
          · exact unchanged (by rw [result])
          · obtain ⟨values, dense, _⟩ := Onchain.trackTxs_values vote.txs
              ({ ledger with blockVote := ledger.blockVote.insert node vote },
                nextIndex ledger.output) rfl
            rw [result]
            exact ⟨⟨_, values⟩, dense⟩
      | feerate vote => exact unchanged (by rw [Onchain.processFeerate_ok processed])
      | nonces txid nonces =>
          obtain ⟨_, _, _, _, _, result⟩ := Onchain.processNonces_ok (mapError_eq_ok.mp processed)
          exact unchanged (by rw [result])
      | signatureShares txid shares nonces =>
          obtain ⟨_, _, _, _, ⟨_, result⟩ | ⟨_, _, _, result⟩⟩ :=
            Onchain.processSignatureShares_ok (mapError_eq_ok.mp processed)
          · subst result
            exact unchanged rfl
          · subst result
            exact unchanged rfl

theorem processBlock_tracks {mint : MintConfig curve} {ledger after : Ledger curve} {node : NodeId}
    {vote : BlockVote} (processed : Onchain.processBlock mint ledger node vote = .ok after)
    (moved : after.blockHeight ≠ ledger.blockHeight) :
    after.output.values = ledger.output.values ++ blockOutputs vote := by
  obtain ⟨_, _, result | result⟩ := Onchain.processBlock_ok processed
  · exact absurd (by rw [result]) moved
  · obtain ⟨values, _, _⟩ := Onchain.trackTxs_values vote.txs
      ({ ledger with blockVote := ledger.blockVote.insert node vote },
        nextIndex ledger.output) rfl
    rw [result]
    exact values

/-- The outputs are numbered in the order they are tracked, and stay. -/
theorem History.step_outputs {history next : History curve}
    {entry : NodeId × ConsensusItem curve} (stepped : history.step server entry = some next)
    (dense : history.ledger.output.Dense) :
    next.ledger.output.Dense ∧
      history.ledger.output.values <+: next.ledger.output.values := by
  have grown : (∃ new, next.ledger.output.values = history.ledger.output.values ++ new) ∧
      (history.ledger.output.Dense → next.ledger.output.Dense) := by
    rcases History.step_cases stepped with same | ⟨tx, isTx, processed, _⟩ | ⟨processed, _, _⟩
    · exact same ▸ ⟨⟨[], (List.append_nil _).symm⟩, id⟩
    · have asItem : processConsensusItem server history.ledger entry.1 (.tx tx) =
          .ok next.ledger := processed
      exact processConsensusItem_outputs asItem
    · exact processConsensusItem_outputs processed
  obtain ⟨⟨new, values⟩, kept⟩ := grown
  exact ⟨kept dense, new, values.symm⟩

end Picomint.Consensus

namespace Picomint.Client

open Consensus Tss

variable {curve : Curve} {addresses : Addresses} {server : Server curve}

/-! ### Worlds -/

/-- A mint, a client's scanner, the addresses the client ever returned, and
the deposits the scanner passed since it last started from nothing. -/
structure DepositWorld (curve : Curve) where
  history : History curve
  tables : ScannerTables
  returned : List AddressKey
  passed : List Deposit

namespace DepositWorld

def start : DepositWorld curve :=
  { history := History.start
    tables := ScannerTables.empty
    returned := []
    passed := [] }

def check (addresses : Addresses) (answers : Nat → DepositAnswers) (world : DepositWorld curve) :
    Scan × Option ScanStop :=
  checkOutputs addresses answers world.history.ledger world.tables

/-- The committed part of a run. -/
def scan (addresses : Addresses) (answers : Nat → DepositAnswers) (world : DepositWorld curve) :
    DepositWorld curve :=
  { world with
    tables := (world.check addresses answers).1.tables
    passed := world.passed ++ (world.check addresses answers).1.passed }

end DepositWorld

inductive DepositEvent (curve : Curve) where
  | item (node : NodeId) (item : ConsensusItem curve)
  | seed (account : Account)
  | receive (key : AddressKey)
  | scan (answers : Nat → DepositAnswers)
  | restore

/-- A payer knows an address from the client; the scanner runs once every
account has an address, and hands one out while it runs or later. -/
inductive DepositStep (addresses : Addresses) (server : Server curve) :
    DepositWorld curve → DepositEvent curve → DepositWorld curve → Prop where
  | item {world : DepositWorld curve} {node : NodeId} {item : ConsensusItem curve}
      {history : History curve} (stepped : world.history.step server (node, item) = some history)
      (disclosed : ∀ place key, PaysTo addresses history.ledger place key →
        PaysTo addresses world.history.ledger place key ∨ key ∈ world.returned) :
      DepositStep addresses server world (.item node item) { world with history }
  | seed {world : DepositWorld curve} (account : Account) :
      DepositStep addresses server world (.seed account)
        { world with tables := seedAddress addresses world.tables account }
  | receive {world : DepositWorld curve} {key : AddressKey}
      (opened : key ∈ world.tables.validAddressIndex.keys) :
      DepositStep addresses server world (.receive key)
        { world with returned := world.returned ++ [key] }
  | scan {world : DepositWorld curve} (answers : Nat → DepositAnswers)
      (seeded : Seeded world.tables) :
      DepositStep addresses server world (.scan answers) (world.scan addresses answers)
  | restore {world : DepositWorld curve} :
      DepositStep addresses server world .restore
        { world with
          tables := ScannerTables.empty
          passed := [] }

inductive DepositReached (addresses : Addresses) (server : Server curve) :
    DepositWorld curve → Prop where
  | start : DepositReached addresses server DepositWorld.start
  | step {world next : DepositWorld curve} {event : DepositEvent curve}
      (reached : DepositReached addresses server world)
      (stepped : DepositStep addresses server world event next) :
      DepositReached addresses server next

theorem onchainReceive_opened {tables : ScannerTables} {account : Account} {key : AddressKey}
    (returned : onchainReceive tables account = some key) :
    key ∈ tables.validAddressIndex.keys := by
  unfold onchainReceive ScannerTables.highestValidIndex at returned
  obtain ⟨index, found, same⟩ := Option.map_eq_some_iff.mp returned
  obtain ⟨last, isLast, sameIndex⟩ := Option.map_eq_some_iff.mp found
  have member := List.mem_filter.mp (List.mem_of_getLast? isLast)
  have account := of_decide_eq_true member.2
  cases last
  cases account
  cases sameIndex
  exact same ▸ member.1

/-! ### The invariant -/

structure DepositSound (addresses : Addresses) (world : DepositWorld curve) : Prop where
  dense : world.history.ledger.output.Dense
  inOrder : InOrder addresses world.history.ledger
  returned : ∀ key ∈ world.returned, addresses.Valid key ∧ ∀ index < key.index,
    addresses.Valid { account := key.account, index } →
      ∃ place, PaysTo addresses world.history.ledger place { account := key.account, index }
  scanned : Scanned addresses world.history.ledger world.tables.cursor world.tables world.passed
  bounded : world.tables.cursor ≤ world.history.ledger.output.size

theorem Scanned.empty (ledger : Ledger curve) :
    Scanned addresses ledger 0 ScannerTables.empty [] where
  valid := fun _ member => by cases member
  closed := fun _ member => by cases member
  paid := fun _ member => by cases member
  opened := fun _ below => by cases below
  matched := fun _ below => by cases below
  settled := fun _ member => by cases member

theorem DepositSound.start : DepositSound addresses (DepositWorld.start : DepositWorld curve) where
  dense := SortedMap.dense_empty
  inOrder := by
    rintro place key ⟨tracked, found, _⟩
    cases found
  returned := fun _ member => by cases member
  scanned := Scanned.empty _
  bounded := Nat.zero_le _

/-- An account without an address gets its first valid one. -/
theorem Scanned.seed {ledger : Ledger curve} {position : Nat} {tables : ScannerTables}
    {passed : List Deposit} (scanned : Scanned addresses ledger position tables passed)
    (account : Account) :
    Scanned addresses ledger position (seedAddress addresses tables account) passed := by
  unfold seedAddress
  split
  · exact scanned
  · have first : ∀ index < addresses.nextValidIndex account 0,
        ¬addresses.Valid { account, index } := by
      intro index below valid
      exact absurd below (not_lt.mpr (addresses.nextValidIndex_le (Nat.zero_le index) valid))
    refine ⟨?_, ?_, ?_, ?_, scanned.matched, scanned.settled⟩
    · intro key member
      rcases mem_insertAddress.mp member with isNew | old
      · exact isNew ▸ addresses.nextValidIndex_valid account 0
      · exact scanned.valid key old
    · intro key member index below valid
      rcases mem_insertAddress.mp member with isNew | old
      · subst isNew
        exact absurd valid (first index below)
      · exact mem_insertAddress.mpr (Or.inr (scanned.closed key old index below valid))
    · intro key member index below valid
      rcases mem_insertAddress.mp member with isNew | old
      · subst isNew
        exact absurd valid (first index below)
      · exact scanned.paid key old index below valid
    · intro place below key pays
      obtain ⟨next, inTable, sameAccount, above⟩ := scanned.opened place below key pays
      exact ⟨next, mem_insertAddress.mpr (Or.inr inTable), sameAccount, above⟩

theorem seedAddress_cursor (tables : ScannerTables) (account : Account) :
    (seedAddress addresses tables account).cursor = tables.cursor := by
  unfold seedAddress
  split
  · rfl
  · rfl

/-- What one run over the slice does. -/
theorem check_sound {world : DepositWorld curve} (sound : DepositSound addresses world)
    (seeded : Seeded world.tables) (answers : Nat → DepositAnswers) :
    (world.check addresses answers).2 ≠ some .panicked ∧
      Scanned addresses world.history.ledger (world.scan addresses answers).tables.cursor
        (world.scan addresses answers).tables (world.scan addresses answers).passed ∧
      world.tables.cursor ≤ (world.scan addresses answers).tables.cursor ∧
      ((world.scan addresses answers).tables.cursor = world.tables.cursor ∨
        ∃ place, Taproot addresses world.history.ledger place ∧
          (world.scan addresses answers).tables.cursor = place + 1) ∧
      ((world.check addresses answers).2 = none →
        (world.scan addresses answers).tables.cursor =
          ((Onchain.getOutputs addresses.isP2tr world.history.ledger world.tables.cursor
            (world.tables.cursor + SLICE_SIZE)).getLast?.map
              (fun info => info.index + 1)).getD world.tables.cursor) := by
  have slice := getOutputs_slice addresses world.history.ledger world.tables.cursor
    (world.tables.cursor + SLICE_SIZE)
  have started : ScanSound addresses world.history.ledger world.tables.cursor world.passed
      (Scan.start addresses world.tables) := by
    refine ⟨Scan.start_synced seeded, ?_⟩
    change Scanned _ _ _ _ (world.passed ++ [])
    rw [List.append_nil]
    exact sound.scanned
  obtain ⟨next, reason, ran, unbroken, after, above, place, complete⟩ :=
    started.outputs sound.inOrder answers slice rfl
  have result : world.check addresses answers = (next, reason) := ran
  have tables : (world.scan addresses answers).tables = next.tables := by
    unfold DepositWorld.scan
    rw [result]
  have passed : (world.scan addresses answers).passed = world.passed ++ next.passed := by
    unfold DepositWorld.scan
    rw [result]
  rw [result, tables, passed]
  exact ⟨unbroken, after.scanned, above, place, complete⟩

/-- Outputs below the table's size keep what they pay. -/
theorem paysTo_grown {ledger after : Ledger curve} (dense : ledger.output.Dense)
    (dense' : after.output.Dense) (grown : ledger.output.values <+: after.output.values)
    {place : Nat} {key : AddressKey} :
    (PaysTo addresses ledger place key → PaysTo addresses after place key) ∧
      (place < ledger.output.size → PaysTo addresses after place key →
        PaysTo addresses ledger place key) := by
  obtain ⟨new, values⟩ := grown
  have same : place < ledger.output.size →
      after.output.get? place = ledger.output.get? place := by
    intro below
    rw [dense.get?, dense'.get?, ← values, List.getElem?_append_left]
    rwa [SortedMap.values_length]
  constructor
  · rintro ⟨tracked, found, pays⟩
    have below := (dense.contains place).mp ((ledger.output.contains_iff _).mpr ⟨_, found⟩)
    exact ⟨tracked, (same below).trans found, pays⟩
  · rintro below ⟨tracked, found, pays⟩
    exact ⟨tracked, (same below).symm.trans found, pays⟩

theorem DepositSound.item {world : DepositWorld curve} (sound : DepositSound addresses world)
    {entry : NodeId × ConsensusItem curve} {history : History curve}
    (stepped : world.history.step server entry = some history)
    (disclosed : ∀ place key, PaysTo addresses history.ledger place key →
      PaysTo addresses world.history.ledger place key ∨ key ∈ world.returned) :
    DepositSound addresses { world with history } := by
  obtain ⟨dense, grown⟩ := History.step_outputs stepped sound.dense
  have kept : ∀ place key, PaysTo addresses world.history.ledger place key →
      PaysTo addresses history.ledger place key :=
    fun _ _ => (paysTo_grown sound.dense dense grown).1
  have old : ∀ place key, place < world.history.ledger.output.size →
      PaysTo addresses history.ledger place key →
      PaysTo addresses world.history.ledger place key :=
    fun _ _ => (paysTo_grown sound.dense dense grown).2
  have larger : world.history.ledger.output.size ≤ history.ledger.output.size := by
    rw [← SortedMap.values_length, ← SortedMap.values_length]
    exact grown.length_le
  refine ⟨dense, ?_, ?_, ⟨sound.scanned.valid, sound.scanned.closed, ?_, ?_, ?_,
    sound.scanned.settled⟩, sound.bounded.trans larger⟩
  · intro place key pays
    by_cases below : place < world.history.ledger.output.size
    · obtain ⟨valid, earlier⟩ := sound.inOrder place key (old place key below pays)
      refine ⟨valid, ?_⟩
      intro index smaller validIndex
      obtain ⟨first, before, paysFirst⟩ := earlier index smaller validIndex
      exact ⟨first, before, kept _ _ paysFirst⟩
    · rcases disclosed place key pays with before | returned
      · obtain ⟨tracked, found, _⟩ := before
        exact absurd ((sound.dense.contains place).mp
          ((SortedMap.contains_iff _ _).mpr ⟨_, found⟩)) below
      · obtain ⟨valid, earlier⟩ := sound.returned key returned
        refine ⟨valid, ?_⟩
        intro index smaller validIndex
        obtain ⟨first, paysFirst⟩ := earlier index smaller validIndex
        refine ⟨first, ?_, kept _ _ paysFirst⟩
        obtain ⟨tracked, found, _⟩ := paysFirst
        have inside := (sound.dense.contains first).mp
          ((SortedMap.contains_iff _ _).mpr ⟨_, found⟩)
        omega
  · intro key returned
    obtain ⟨valid, earlier⟩ := sound.returned key returned
    refine ⟨valid, ?_⟩
    intro index smaller validIndex
    obtain ⟨first, paysFirst⟩ := earlier index smaller validIndex
    exact ⟨first, kept _ _ paysFirst⟩
  · intro key member index smaller validIndex
    obtain ⟨first, paysFirst⟩ := sound.scanned.paid key member index smaller validIndex
    exact ⟨first, kept _ _ paysFirst⟩
  · intro place below key pays
    exact sound.scanned.opened place below key (old place key (below.trans_le sound.bounded) pays)
  · intro place below key pays
    exact sound.scanned.matched place below key (old place key (below.trans_le sound.bounded) pays)

theorem DepositSound.step {world next : DepositWorld curve} {event : DepositEvent curve}
    (sound : DepositSound addresses world)
    (stepped : DepositStep addresses server world event next) : DepositSound addresses next := by
  cases stepped with
  | item stepped disclosed => exact sound.item stepped disclosed
  | seed account =>
      have cursor : (seedAddress addresses world.tables account).cursor = world.tables.cursor :=
        seedAddress_cursor world.tables account
      refine ⟨sound.dense, sound.inOrder, sound.returned, ?_, ?_⟩
      · rw [cursor]
        exact sound.scanned.seed account
      · rw [cursor]
        exact sound.bounded
  | @receive key opened =>
      refine ⟨sound.dense, sound.inOrder, ?_, sound.scanned, sound.bounded⟩
      intro other member
      rcases List.mem_append.mp member with old | new
      · exact sound.returned other old
      · rw [List.mem_singleton.mp new]
        exact ⟨sound.scanned.valid key opened, sound.scanned.paid key opened⟩
  | scan answers seeded =>
      obtain ⟨_, scanned, _, place, _⟩ := check_sound sound seeded answers
      refine ⟨sound.dense, sound.inOrder, sound.returned, scanned, ?_⟩
      rcases place with same | ⟨place, ⟨tracked, found, _⟩, same⟩
      · rw [same]
        exact sound.bounded
      · rw [same]
        exact (sound.dense.contains place).mp ((SortedMap.contains_iff _ _).mpr ⟨_, found⟩)
  | restore =>
      exact ⟨sound.dense, sound.inOrder, sound.returned, Scanned.empty _, Nat.zero_le _⟩

theorem DepositReached.sound {world : DepositWorld curve}
    (reached : DepositReached addresses server world) : DepositSound addresses world := by
  induction reached with
  | start => exact DepositSound.start
  | step _ stepped inductionHypothesis => exact inductionHypothesis.step stepped

/-! ### Progress -/

/-- The slice from the cursor on holds a taproot output, or none is left. -/
def SliceServes (addresses : Addresses) (world : DepositWorld curve) : Prop :=
  (∃ place, world.tables.cursor ≤ place ∧ place < world.tables.cursor + SLICE_SIZE ∧
      Taproot addresses world.history.ledger place) ∨
    ∀ place, world.tables.cursor ≤ place → ¬Taproot addresses world.history.ledger place

/-- A run to the end of its slice moves the cursor, or there is nothing left to
reach, exactly if the slice serves. -/
theorem completed_advances_iff {world : DepositWorld curve} (sound : DepositSound addresses world)
    (seeded : Seeded world.tables) {answers : Nat → DepositAnswers}
    (completed : (world.check addresses answers).2 = none) :
    (world.tables.cursor < (world.scan addresses answers).tables.cursor ∨
        ∀ place, world.tables.cursor ≤ place → ¬Taproot addresses world.history.ledger place) ↔
      SliceServes addresses world := by
  obtain ⟨_, _, _, _, cursor⟩ := check_sound sound seeded answers
  have slice := getOutputs_slice addresses world.history.ledger world.tables.cursor
    (world.tables.cursor + SLICE_SIZE)
  rw [cursor completed]
  unfold SliceServes
  refine or_congr ?_ Iff.rfl
  constructor
  · intro advanced
    cases last : (Onchain.getOutputs addresses.isP2tr world.history.ledger world.tables.cursor
        (world.tables.cursor + SLICE_SIZE)).getLast? with
    | none =>
        rw [last] at advanced
        exact absurd advanced (lt_irrefl _)
    | some info =>
        have member := List.mem_of_getLast? last
        obtain ⟨above, below⟩ := slice.inside info member
        obtain ⟨tracked, found, same, taproot⟩ := slice.script info member
        exact ⟨info.index, above, below, tracked, found, same ▸ taproot⟩
  · rintro ⟨place, above, below, taproot⟩
    obtain ⟨info, member, _⟩ := slice.complete place above below taproot
    cases last : (Onchain.getOutputs addresses.isP2tr world.history.ledger world.tables.cursor
        (world.tables.cursor + SLICE_SIZE)).getLast? with
    | none =>
        rw [List.getLast?_eq_none_iff.mp last] at member
        cases member
    | some final =>
        have inside := slice.inside final (List.mem_of_getLast? last)
        rw [Option.map_some, Option.getD_some]
        omega

/-- Steps without a restore, counted by the runs to the end of a slice that
serves. -/
inductive Polls (addresses : Addresses) (server : Server curve) :
    DepositWorld curve → Nat → DepositWorld curve → Prop where
  | refl (world : DepositWorld curve) : Polls addresses server world 0 world
  | quiet {world middle next : DepositWorld curve} {runs : Nat} {event : DepositEvent curve}
      (before : Polls addresses server world runs middle)
      (stepped : DepositStep addresses server middle event next) (kept : event ≠ .restore) :
      Polls addresses server world runs next
  | served {world middle next : DepositWorld curve} {runs : Nat} {answers : Nat → DepositAnswers}
      (before : Polls addresses server world runs middle)
      (stepped : DepositStep addresses server middle (.scan answers) next)
      (completed : (middle.check addresses answers).2 = none)
      (serves : SliceServes addresses middle) :
      Polls addresses server world (runs + 1) next

theorem DepositStep.taproot {world next : DepositWorld curve} {event : DepositEvent curve}
    (sound : DepositSound addresses world)
    (stepped : DepositStep addresses server world event next) {place : Nat}
    (taproot : Taproot addresses world.history.ledger place) :
    Taproot addresses next.history.ledger place := by
  cases stepped with
  | item stepped _ =>
      obtain ⟨dense, new, values⟩ := History.step_outputs stepped sound.dense
      obtain ⟨tracked, found, isTaproot⟩ := taproot
      refine ⟨tracked, ?_, isTaproot⟩
      rw [sound.dense.get?] at found
      rw [dense.get?, ← values,
        List.getElem?_append_left (List.getElem?_eq_some_iff.mp found).1]
      exact found
  | seed account => exact taproot
  | receive opened => exact taproot
  | scan answers seeded => exact taproot
  | restore => exact taproot

theorem DepositStep.cursor {world next : DepositWorld curve} {event : DepositEvent curve}
    (sound : DepositSound addresses world)
    (stepped : DepositStep addresses server world event next) (kept : event ≠ .restore) :
    world.tables.cursor ≤ next.tables.cursor := by
  cases stepped with
  | item stepped _ => exact le_refl _
  | seed account => exact (seedAddress_cursor world.tables account).ge
  | receive opened => exact le_refl _
  | scan answers seeded => exact (check_sound sound seeded answers).2.2.1
  | restore => exact absurd rfl kept

/-- Enough runs over slices that serve pass every taproot output. -/
theorem Polls.passes {world final : DepositWorld curve} {runs : Nat}
    (polls : Polls addresses server world runs final) (sound : DepositSound addresses world)
    {place : Nat} (taproot : Taproot addresses world.history.ledger place) :
    DepositSound addresses final ∧ Taproot addresses final.history.ledger place ∧
      (place < final.tables.cursor ∨ world.tables.cursor + runs ≤ final.tables.cursor) := by
  induction polls with
  | refl => exact ⟨sound, taproot, Or.inr (le_refl _)⟩
  | quiet before stepped kept inductionHypothesis =>
      obtain ⟨middleSound, still, reached⟩ := inductionHypothesis
      have grown := stepped.cursor middleSound kept
      refine ⟨middleSound.step stepped, stepped.taproot middleSound still, ?_⟩
      omega
  | @served middle next runs answers before stepped completed serves inductionHypothesis =>
      obtain ⟨middleSound, still, reached⟩ := inductionHypothesis
      refine ⟨middleSound.step stepped, stepped.taproot middleSound still, ?_⟩
      cases stepped with
      | scan _ seeded =>
          have grown := (check_sound middleSound seeded answers).2.2.1
          rcases (completed_advances_iff middleSound seeded completed).mpr serves with advanced |
            exhausted
          · omega
          · rcases reached with passed | _
            · omega
            · left
              by_contra notPassed
              exact exhausted place (by omega) still

/-- A run over a slice without taproot outputs completes and changes nothing. -/
theorem check_of_no_taproot {world : DepositWorld curve}
    (none : ∀ place, world.tables.cursor ≤ place → place < world.tables.cursor + SLICE_SIZE →
      ¬Taproot addresses world.history.ledger place) (answers : Nat → DepositAnswers) :
    (world.check addresses answers).2 = Option.none ∧
      (world.scan addresses answers).tables = world.tables := by
  have slice := getOutputs_slice addresses world.history.ledger world.tables.cursor
    (world.tables.cursor + SLICE_SIZE)
  have empty : Onchain.getOutputs addresses.isP2tr world.history.ledger world.tables.cursor
      (world.tables.cursor + SLICE_SIZE) = [] := by
    apply List.eq_nil_iff_forall_not_mem.mpr
    intro info member
    obtain ⟨above, below⟩ := slice.inside info member
    obtain ⟨tracked, found, same, taproot⟩ := slice.script info member
    exact none info.index above below ⟨tracked, found, same ▸ taproot⟩
  have stays : world.check addresses answers = (Scan.start addresses world.tables, Option.none) := by
    unfold DepositWorld.check checkOutputs
    rw [empty]
    rfl
  unfold DepositWorld.scan
  rw [stays]
  exact ⟨rfl, rfl⟩

/-- Every deposit the cursor passed is matched, a completed run moves the cursor
or has nothing left to reach exactly if its slice serves, and runs whose slices
serve pass every taproot output. -/
theorem deposit_scanner_iff (addresses : Addresses) (server : Server curve)
    (world : DepositWorld curve) (reached : DepositReached addresses server world) :
    (∀ place < world.tables.cursor, ∀ key, PaysTo addresses world.history.ledger place key →
        ∃ deposit ∈ world.passed, deposit.output.index = place ∧ deposit.address = key ∧
          deposit.Settled) ∧
      (∀ answers, Seeded world.tables → (world.check addresses answers).2 = none →
        ((world.tables.cursor < (world.scan addresses answers).tables.cursor ∨
            ∀ place, world.tables.cursor ≤ place →
              ¬Taproot addresses world.history.ledger place) ↔
          SliceServes addresses world)) ∧
      (∀ place runs final, Taproot addresses world.history.ledger place →
        Polls addresses server world runs final → place + 1 ≤ world.tables.cursor + runs →
          place < final.tables.cursor) := by
  have sound := reached.sound
  refine ⟨?_, ?_, ?_⟩
  · intro place below key pays
    obtain ⟨deposit, member, here, same⟩ := sound.scanned.matched place below key pays
    exact ⟨deposit, member, here, same, sound.scanned.settled deposit member⟩
  · exact fun answers seeded completed => completed_advances_iff sound seeded completed
  · intro place runs final taproot polls enough
    rcases (polls.passes sound taproot).2.2 with passed | many
    · exact passed
    · omega

/-! Every account gets its first address, and one of them is handed out. -/

/-- Even scripts are taproot, and the filter lets every script through. -/
def sampleAddresses : Addresses where
  isP2tr := fun script => script % 2 = 0
  isPotentialReceive := fun _ => true
  deriveAddress := fun key => 2 * (5 * key.index + key.account.index)
  address_p2tr := fun key => by simp
  address_injective := by
    rintro ⟨account, index⟩ ⟨account', index'⟩ same
    have below : ∀ account : Account, account.index < 5 := fun account => by cases account <;> decide
    have first := below account
    have second := below account'
    change 2 * (5 * index + account.index) = 2 * (5 * index' + account'.index) at same
    have sameIndex : index = index' := by omega
    have sameAccount : account.index = account'.index := by omega
    rw [sameIndex, Account.index_injective sameAccount]
  valid_exists := fun _ startIndex => ⟨startIndex, le_refl _, rfl⟩

def sampleKeysOpened : List AddressKey :=
  [.primary, .secondary, .tertiary, .quaternary, .quinary].map (fun account =>
    { account, index := 0 })

def sampleSeeded : ScannerTables :=
  sampleKeysOpened.foldl ScannerTables.insertAddress ScannerTables.empty

def sampleOpened : DepositWorld scalarCurve :=
  { DepositWorld.start with
    tables := sampleSeeded
    returned := sampleKeysOpened }

theorem sampleSeeded_seeded : Seeded sampleSeeded := by
  intro account
  cases account <;> decide

theorem seedAddress_sample {tables : ScannerTables} {account : Account}
    (absent : tables.highestValidIndex account = none) :
    seedAddress sampleAddresses tables account = tables.insertAddress { account, index := 0 } := by
  have first : sampleAddresses.nextValidIndex account 0 = 0 :=
    Nat.le_zero.mp (Addresses.nextValidIndex_le (le_refl 0) rfl)
  unfold seedAddress
  rw [absent]
  simp only [first]

theorem sampleOpened_reached : DepositReached sampleAddresses sampleServer sampleOpened := by
  have seed : ∀ {tables : ScannerTables} (account : Account),
      tables.highestValidIndex account = none →
      DepositReached sampleAddresses sampleServer { DepositWorld.start with tables } →
      DepositReached sampleAddresses sampleServer
        { DepositWorld.start with tables := tables.insertAddress { account, index := 0 } } := by
    intro tables account absent reached
    rw [← seedAddress_sample absent]
    exact .step reached (.seed account)
  have receive : ∀ {returned : List AddressKey} (key : AddressKey),
      key ∈ sampleSeeded.validAddressIndex.keys →
      DepositReached sampleAddresses sampleServer
        { DepositWorld.start with tables := sampleSeeded, returned } →
      DepositReached sampleAddresses sampleServer
        { DepositWorld.start with tables := sampleSeeded, returned := returned ++ [key] } :=
    fun key opened reached => .step reached (.receive opened)
  have seeded : DepositReached sampleAddresses sampleServer
      { DepositWorld.start with tables := sampleSeeded } :=
    seed .quinary (by decide) (seed .quaternary (by decide) (seed .tertiary (by decide)
      (seed .secondary (by decide) (seed .primary (by decide) .start))))
  have opened : ∀ account, { account, index := 0 } ∈ sampleSeeded.validAddressIndex.keys := by
    intro account
    cases account <;> decide
  exact receive _ (opened .quinary) (receive _ (opened .quaternary) (receive _ (opened .tertiary)
    (receive _ (opened .secondary) (receive _ (opened .primary) seeded))))

/-- Items whose tracked outputs pay only addresses handed out before. -/
theorem DepositReached.items {world : DepositWorld curve}
    (reached : DepositReached addresses server world) {items : List (NodeId × ConsensusItem curve)}
    {history : History curve} (ran : History.run server world.history items = some history)
    (disclosed : ∀ place key, PaysTo addresses history.ledger place key → key ∈ world.returned) :
    DepositReached addresses server { world with history } := by
  induction items generalizing world with
  | nil =>
      cases ran
      exact reached
  | cons entry rest inductionHypothesis =>
      unfold History.run at ran
      rw [List.foldlM_cons, Option.bind_eq_bind, Option.bind_eq_some_iff] at ran
      obtain ⟨next, stepped, following⟩ := ran
      obtain ⟨dense, _⟩ := History.step_outputs stepped reached.sound.dense
      have grown : next.ledger.output.values <+: history.ledger.output.values ∧
          history.ledger.output.Dense :=
        History.run_preserves (motive := fun later =>
          next.ledger.output.values <+: later.ledger.output.values ∧ later.ledger.output.Dense)
          following (fun _ _ _ step both =>
            have after := History.step_outputs step both.2
            ⟨both.1.trans after.2, after.1⟩) ⟨List.prefix_refl _, dense⟩
      have known : ∀ place key, PaysTo addresses next.ledger place key → key ∈ world.returned :=
        fun place key pays =>
          disclosed place key ((paysTo_grown dense grown.2 grown.1).1 pays)
      have moved : DepositReached addresses server { world with history := next } :=
        .step reached (.item stepped (fun place key pays => Or.inr (known place key pays)))
      have later := inductionHypothesis moved following disclosed
      exact later

/-! Deposits to two accounts are tracked around an output of another kind, and a
run passes them. -/

def sampleMixed : BlockVote :=
  { height := 1
    txs :=
      [{ txid := 7
         outputs :=
           [(0, { value := 50000, scriptPubkey := 6 }), (1, { value := 30000, scriptPubkey := 1 }),
             (2, { value := 70000, scriptPubkey := 2 })] }] }

def sampleTrackedItems : List (NodeId × ConsensusItem scalarCurve) :=
  sampleVotes (.blockHeight 1) ++ sampleVotes (.onchain (.block sampleMixed))

def sampleAnswers : DepositAnswers :=
  { pendingTxChain := some 0
    receiveFee := some (some 1000)
    affordable := true
    accepted := true }

theorem deposit_scanner_sample :
    ∃ world : DepositWorld scalarCurve, DepositReached sampleAddresses sampleServer world ∧
      world.tables.cursor = 3 ∧
      (∃ deposit ∈ world.passed, deposit.output.index = 0 ∧
        deposit.address = { account := .quaternary, index := 0 }) ∧
      ∃ deposit ∈ world.passed, deposit.output.index = 2 ∧
        deposit.address = { account := .secondary, index := 0 } := by
  have ran : (History.run sampleServer History.start sampleTrackedItems).map (fun history =>
      (history.ledger.output.rows.map (fun row => (row.1, row.2.out.scriptPubkey)),
        ({ sampleOpened with history }.scan sampleAddresses
          (fun _ => sampleAnswers)).tables.cursor)) = some ([(0, 6), (1, 1), (2, 2)], 3) := by
    decide +kernel
  obtain ⟨history, reached, outcome⟩ := Option.map_eq_some_iff.mp ran
  obtain ⟨outputs, cursor⟩ := Prod.mk.inj outcome
  have only : ∀ place tracked, history.ledger.output.get? place = some tracked →
      (place, tracked.out.scriptPubkey) ∈ [(0, 6), (1, 1), (2, 2)] := by
    intro place tracked found
    rw [← outputs]
    exact List.mem_map_of_mem ((history.ledger.output.mem_rows place tracked).mpr found)
  have paid : ∀ place key, (place, sampleAddresses.deriveAddress key) ∈
      [(0, 6), (1, 1), (2, 2)] → PaysTo sampleAddresses history.ledger place key := by
    intro place key member
    rw [← outputs] at member
    obtain ⟨⟨_, tracked⟩, inRows, same⟩ := List.mem_map.mp member
    obtain ⟨rfl, script⟩ := Prod.mk.inj same
    exact ⟨tracked, (history.ledger.output.mem_rows _ tracked).mp inRows, script⟩
  have scanned : DepositReached sampleAddresses sampleServer
      ({ sampleOpened with history }.scan sampleAddresses (fun _ => sampleAnswers)) := by
    refine .step (sampleOpened_reached.items reached ?_) (.scan _ sampleSeeded_seeded)
    rintro place key ⟨tracked, found, same⟩
    have member := only place tracked found
    rw [same] at member
    simp only [List.mem_cons, Prod.mk.injEq, List.not_mem_nil, or_false] at member
    rcases member with ⟨_, script⟩ | ⟨_, script⟩ | ⟨_, script⟩
    · have isKey : key = { account := .quaternary, index := 0 } :=
        sampleAddresses.address_injective script
      rw [isKey]
      decide
    · have odd : 2 * (5 * key.index + key.account.index) = 1 := script
      omega
    · have isKey : key = { account := .secondary, index := 0 } :=
        sampleAddresses.address_injective script
      rw [isKey]
      decide
  have passes := (deposit_scanner_iff sampleAddresses sampleServer _ scanned).1
  refine ⟨_, scanned, cursor, ?_, ?_⟩
  · obtain ⟨deposit, member, here, address, _⟩ := passes 0
      ((by decide : 0 < 3).trans_eq cursor.symm) { account := .quaternary, index := 0 }
      (paid _ _ (by decide))
    exact ⟨deposit, member, here, address⟩
  · obtain ⟨deposit, member, here, address, _⟩ := passes 2
      ((by decide : 2 < 3).trans_eq cursor.symm) { account := .secondary, index := 0 }
      (paid _ _ (by decide))
    exact ⟨deposit, member, here, address⟩

/-! A deposit to a returned address is tracked behind a thousand outputs of
another kind. -/

def sampleCrowd : List (Nat × TxOut) :=
  (List.range 1000).map (fun vout => (vout, { value := 1, scriptPubkey := 1 }))

def sampleCrowded : BlockVote :=
  { height := 1
    txs :=
      [{ txid := 7
         outputs := sampleCrowd ++ [(1000, { value := 50000, scriptPubkey := 0 })] }] }

theorem sampleCrowded_outs :
    (blockOutputs sampleCrowded).map TrackedOutput.out =
      List.replicate 1000 { value := 1, scriptPubkey := 1 } ++
        [{ value := 50000, scriptPubkey := 0 }] := by
  have crowd : sampleCrowd.map Prod.snd = List.replicate 1000 { value := 1, scriptPubkey := 1 } := by
    unfold sampleCrowd
    rw [List.map_map, List.eq_replicate_iff]
    refine ⟨by rw [List.length_map, List.length_range], ?_⟩
    intro out member
    obtain ⟨vout, _, same⟩ := List.mem_map.mp member
    exact same.symm
  rw [← crowd]
  unfold blockOutputs sampleCrowded
  rw [List.flatMap_singleton, List.map_map, List.map_append]
  rfl

theorem sampleCrowded_tracked :
    ∃ history, History.run sampleServer History.start (sampleVotes (.blockHeight 1) ++
        sampleVotes (.onchain (.block sampleCrowded))) = some history ∧
      history.ledger.output.Dense ∧
      history.ledger.output.values.map TrackedOutput.out =
        List.replicate 1000 { value := 1, scriptPubkey := 1 } ++
          [{ value := 50000, scriptPubkey := 0 }] := by
  obtain ⟨front, isFront⟩ : ∃ front, front = sampleVotes (.blockHeight 1) ++
      (sampleVotes (.onchain (.block sampleCrowded))).take 2 := ⟨_, rfl⟩
  have split : sampleVotes (.blockHeight 1) ++ sampleVotes (.onchain (.block sampleCrowded)) =
      front ++ [(2, ConsensusItem.onchain (.block sampleCrowded))] := by
    rw [isFront]
    rfl
  have ran : (History.run sampleServer History.start front).map (fun history =>
      (history.ledger.output.rows, history.ledger.blockHeight)) = some ([], some 1) := by
    rw [isFront]
    decide +kernel
  have finished : (History.run sampleServer History.start
      (sampleVotes (.blockHeight 1) ++ sampleVotes (.onchain (.block sampleCrowded)))).map
        (fun history => history.ledger.blockHeight) = some (some 2) := by
    decide +kernel
  obtain ⟨before, ranBefore, tables⟩ := Option.map_eq_some_iff.mp ran
  obtain ⟨after, ranAfter, height⟩ := Option.map_eq_some_iff.mp finished
  have noOutputs : before.ledger.output.rows = [] := congrArg Prod.fst tables
  have heightBefore : before.ledger.blockHeight = some 1 := congrArg Prod.snd tables
  refine ⟨after, ranAfter, ?_⟩
  rw [split, History.run_concat, ranBefore, Option.bind_some] at ranAfter
  have values : before.ledger.output.values = [] := by
    unfold SortedMap.values
    rw [noOutputs, List.map_nil]
  have dense : before.ledger.output.Dense := by
    unfold SortedMap.Dense SortedMap.keys SortedMap.size
    rw [noOutputs]
    rfl
  refine ⟨(History.step_outputs ranAfter dense).1, ?_⟩
  rcases History.step_cases ranAfter with same | ⟨tx, isTx, _⟩ | ⟨processed, _, _⟩
  · rw [same, heightBefore] at height
    cases height
  · cases isTx
  · have moved : after.ledger.blockHeight ≠ before.ledger.blockHeight := by
      rw [height, heightBefore]
      decide
    rw [processBlock_tracks processed moved, values, List.nil_append]
    exact sampleCrowded_outs

/-- The scanner stays below the deposit: every run completes and changes nothing. -/
theorem deposit_scanner_stalls :
    ∃ world : DepositWorld scalarCurve, DepositReached sampleAddresses sampleServer world ∧
      world.tables.cursor = 0 ∧ Seeded world.tables ∧
      (∃ key ∈ world.returned, PaysTo sampleAddresses world.history.ledger 1000 key) ∧
      ∀ answers, (world.check sampleAddresses answers).2 = none ∧
        (world.scan sampleAddresses answers).tables = world.tables := by
  obtain ⟨history, ran, dense, outs⟩ := sampleCrowded_tracked
  have out : ∀ place, (history.ledger.output.get? place).map TrackedOutput.out =
      (List.replicate 1000 { value := 1, scriptPubkey := 1 } ++
        [{ value := 50000, scriptPubkey := 0 }])[place]? := by
    intro place
    rw [dense.get?, ← List.getElem?_map, outs]
  have others : ∀ place < 1000, ¬Taproot sampleAddresses history.ledger place := by
    rintro place below ⟨tracked, found, taproot⟩
    have here := out place
    rw [found, Option.map_some, List.getElem?_append_left (by rwa [List.length_replicate]),
      List.getElem?_replicate, if_pos below, Option.some.injEq] at here
    rw [here] at taproot
    cases taproot
  have paid : PaysTo sampleAddresses history.ledger 1000 { account := .primary, index := 0 } := by
    have here := out 1000
    rw [List.getElem?_append_right (by rw [List.length_replicate]), List.length_replicate] at here
    obtain ⟨tracked, found, same⟩ := Option.map_eq_some_iff.mp here
    exact ⟨tracked, found, by rw [same]; rfl⟩
  refine ⟨{ sampleOpened with history }, ?_, rfl, sampleSeeded_seeded, ?_, ?_⟩
  · apply sampleOpened_reached.items ran
    intro place key pays
    obtain ⟨tracked, found, same⟩ := pays
    have here := out place
    rw [found, Option.map_some] at here
    rcases List.mem_append.mp (List.mem_of_getElem? here.symm) with other | last
    · rw [(List.mem_replicate.mp other).2] at same
      change 1 = 2 * (5 * key.index + key.account.index) at same
      omega
    · rw [List.mem_singleton.mp last] at same
      change 0 = 2 * (5 * key.index + key.account.index) at same
      have isPrimary : key = { account := .primary, index := 0 } := by
        apply sampleAddresses.address_injective
        exact same.symm
      rw [isPrimary]
      decide
  · exact ⟨_, List.mem_cons_self, paid⟩
  · intro answers
    apply check_of_no_taproot
    intro place _ below
    change place < 0 + SLICE_SIZE at below
    exact others place (below.trans_eq (by decide))

end Picomint.Client
