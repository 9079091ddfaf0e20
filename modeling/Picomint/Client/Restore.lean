/-
Restoring an account from its seed.

The scan walks the counters in batches and stops at the first batch without a
trace at the mint.  So it finds every live note, and resumes above every signed
counter, exactly while no batch below a signed counter is without a trace.
-/

import Picomint.Client.Issuance
import Picomint.Consensus.EcashRpc
import Picomint.Consensus.Solvency

namespace Picomint.Client

open Tss Consensus

variable {curve : Curve}

/-! ### The scan -/

def RESTORE_BATCH : Nat := 500

/-- The walk over the counter space; none stands for running out of fuel.  The
ledger answers as the threshold of nodes does. -/
def scanCountersFrom (secret : EcashSecret) (account : Account) (ledger : Ledger curve) :
    Nat → Nat → List NoteIssuanceRequest → Option (Nat × List NoteIssuanceRequest)
  | 0, _, _ => none
  | fuel + 1, counter, found =>
      let candidates := (List.range' counter RESTORE_BATCH).map (NoteIssuance.new secret account)
      let spent := Ecash.spendState ledger
        (candidates.map (NoteIssuance.nonce secret.toNoteKeys))
      let unspent := ((candidates.zip spent).filter
        (fun entry : NoteIssuance × Bool => !entry.2)).map Prod.fst
      let issued := Ecash.issuanceState ledger
        (unspent.map (NoteIssuance.blindedNonce secret.toNoteKeys))
      if issued.all Option.isNone && !spent.contains true then some (counter, found)
      else scanCountersFrom secret account ledger fuel (counter + RESTORE_BATCH)
        (found ++ (unspent.zip issued).filterMap
          (fun entry : NoteIssuance × Option Denomination => entry.2.map entry.1.request))

/-- Every batch but the last has a row of its own in one of the two tables. -/
def scanCounters (secret : EcashSecret) (account : Account) (ledger : Ledger curve) :
    Option (Nat × List NoteIssuanceRequest) :=
  scanCountersFrom secret account ledger (ledger.noteNonce.size + ledger.blindedNonce.size + 1) 0 []

/-! ### Traces -/

section Traces

variable (secret : EcashSecret) (account : Account) (ledger : Ledger curve)

def Signed (counter : Nat) : Prop :=
  ledger.blindedNonce.contains (secret.blindedNonce account counter) = true

def Spent (counter : Nat) : Prop :=
  ledger.noteNonce.contains (secret.nonce account counter) = true

instance (counter : Nat) : Decidable (Signed secret account ledger counter) :=
  inferInstanceAs (Decidable (_ = true))

instance (counter : Nat) : Decidable (Spent secret account ledger counter) :=
  inferInstanceAs (Decidable (_ = true))

def Seen (counter : Nat) : Prop :=
  Spent secret account ledger counter ∨ Signed secret account ledger counter

instance (counter : Nat) : Decidable (Seen secret account ledger counter) :=
  inferInstanceAs (Decidable (_ ∨ _))

def BatchSeen (batch : Nat) : Prop :=
  ∃ counter, counter / RESTORE_BATCH = batch ∧ Seen secret account ledger counter

def Covered (awaited : List Nat) : Prop :=
  ∀ counter, Signed secret account ledger counter ∨ counter ∈ awaited →
    ∀ batch ≤ counter / RESTORE_BATCH, BatchSeen secret account ledger batch

/-- The notes found are the live ones, and the counter is above every signed
one. -/
structure Complete (result : Nat × List NoteIssuanceRequest) : Prop where
  live : ∀ counter denomination,
    ledger.blindedNonce.get? (secret.blindedNonce account counter) = some denomination →
      ¬Spent secret account ledger counter →
      NoteIssuanceRequest.new secret account denomination counter ∈ result.2
  above : ∀ counter, Signed secret account ledger counter → counter < result.1

end Traces

/-! ### One batch -/

section Batch

variable (secret : EcashSecret) (account : Account) (ledger : Ledger curve)

def liveRequest (counter : Nat) : Option NoteIssuanceRequest :=
  if Spent secret account ledger counter then none
  else (ledger.blindedNonce.get? (secret.blindedNonce account counter)).map
    (fun denomination => NoteIssuanceRequest.new secret account denomination counter)

theorem liveRequest_eq_some {counter : Nat} {request : NoteIssuanceRequest} :
    liveRequest secret account ledger counter = some request ↔
      ¬Spent secret account ledger counter ∧ ∃ denomination,
        ledger.blindedNonce.get? (secret.blindedNonce account counter) = some denomination ∧
          NoteIssuanceRequest.new secret account denomination counter = request := by
  unfold liveRequest
  split
  · rename_i spent
    simp [spent]
  · rename_i unspent
    simp [unspent]

/-- The candidates that survive the spend check. -/
theorem unspent_eq (counters : List Nat) :
    ((((counters.map (NoteIssuance.new secret account)).zip (Ecash.spendState ledger
        ((counters.map (NoteIssuance.new secret account)).map
          (NoteIssuance.nonce secret.toNoteKeys)))).filter
        (fun entry : NoteIssuance × Bool => !entry.2)).map Prod.fst) =
      (counters.filter (fun counter => ¬Spent secret account ledger counter)).map
        (NoteIssuance.new secret account) := by
  unfold Ecash.spendState
  rw [List.map_map, List.map_map, List.zip_map', List.filter_map, List.map_map]
  congr 1
  apply List.filter_congr
  intro counter _
  simp only [Function.comp_apply, Spent, SortedMap.contains, EcashSecret.nonce,
    Bool.not_eq_true, Bool.decide_eq_false]

theorem batch_found (counters : List Nat) (unspent : List NoteIssuance)
    (survived : unspent = (counters.filter
      (fun counter => ¬Spent secret account ledger counter)).map
        (NoteIssuance.new secret account)) :
    (unspent.zip (Ecash.issuanceState ledger
        (unspent.map (NoteIssuance.blindedNonce secret.toNoteKeys)))).filterMap
        (fun entry : NoteIssuance × Option Denomination => entry.2.map entry.1.request) =
      counters.filterMap (liveRequest secret account ledger) := by
  rw [survived]
  unfold Ecash.issuanceState
  rw [List.map_map, List.map_map, List.zip_map', List.filterMap_map, List.filterMap_filter]
  apply List.filterMap_congr
  intro counter _
  unfold liveRequest
  by_cases spent : Spent secret account ledger counter
  · simp [spent]
  · simp only [spent, not_false_eq_true, decide_true, if_true, if_false]
    rfl

theorem batch_empty (counters : List Nat) (unspent : List NoteIssuance)
    (survived : unspent = (counters.filter
      (fun counter => ¬Spent secret account ledger counter)).map
        (NoteIssuance.new secret account)) :
    ((Ecash.issuanceState ledger
          (unspent.map (NoteIssuance.blindedNonce secret.toNoteKeys))).all Option.isNone &&
        !(Ecash.spendState ledger ((counters.map (NoteIssuance.new secret account)).map
          (NoteIssuance.nonce secret.toNoteKeys))).contains true) = true ↔
      ∀ counter ∈ counters, ¬Seen secret account ledger counter := by
  rw [survived]
  unfold Ecash.issuanceState Ecash.spendState
  have issued : ((((counters.filter (fun counter => ¬Spent secret account ledger counter)).map
        (NoteIssuance.new secret account)).map
          (NoteIssuance.blindedNonce secret.toNoteKeys)).map
            ledger.blindedNonce.get?).all Option.isNone = true ↔
      ∀ counter ∈ counters, ¬Spent secret account ledger counter →
        ¬Signed secret account ledger counter := by
    simp only [List.map_map, List.all_map, List.all_filter, List.all_eq_true]
    apply forall₂_congr
    intro counter _
    by_cases spent : Spent secret account ledger counter
    · simp [spent]
    · simp only [spent, not_false_eq_true, decide_true, Bool.not_true, Bool.false_or, true_imp_iff]
      simp only [Function.comp_apply, Option.isNone_iff_eq_none, Signed, SortedMap.contains,
        EcashSecret.blindedNonce, Bool.not_eq_true, Option.isSome_eq_false_iff]
  have clean : (!(((counters.map (NoteIssuance.new secret account)).map
        (NoteIssuance.nonce secret.toNoteKeys)).map
          (fun nonce => (ledger.noteNonce.get? nonce).isSome)).contains true) = true ↔
      ∀ counter ∈ counters, ¬Spent secret account ledger counter := by
    simp only [Bool.not_eq_true', List.contains_eq_mem, decide_eq_false_iff_not, List.mem_map,
      List.map_map, Function.comp_apply, not_exists, not_and]
    rfl
  rw [Bool.and_eq_true, issued, clean]
  constructor
  · rintro ⟨unsigned, unspent⟩ counter member (spent | signed)
    · exact unspent counter member spent
    · exact unsigned counter member (unspent counter member) signed
  · intro unseen
    exact ⟨fun counter member _ signed => unseen counter member (Or.inr signed),
      fun counter member spent => unseen counter member (Or.inl spent)⟩

theorem scanCountersFrom_succ (fuel counter : Nat) (found : List NoteIssuanceRequest) :
    scanCountersFrom secret account ledger (fuel + 1) counter found =
      if ∀ other ∈ List.range' counter RESTORE_BATCH, ¬Seen secret account ledger other then
        some (counter, found)
      else scanCountersFrom secret account ledger fuel (counter + RESTORE_BATCH)
        (found ++ (List.range' counter RESTORE_BATCH).filterMap
          (liveRequest secret account ledger)) := by
  have survived := unspent_eq secret account ledger (List.range' counter RESTORE_BATCH)
  have empty := batch_empty secret account ledger _ _ survived
  have more := batch_found secret account ledger _ _ survived
  rw [scanCountersFrom]
  simp only [empty, more]

end Batch

/-! ### The walk -/

section Walk

variable {secret : EcashSecret} {account : Account} {ledger : Ledger curve}

theorem mem_batch {batch counter : Nat} :
    counter ∈ List.range' (RESTORE_BATCH * batch) RESTORE_BATCH ↔
      counter / RESTORE_BATCH = batch := by
  rw [List.mem_range'_1]
  unfold RESTORE_BATCH
  omega

theorem batchSeen_iff (batch : Nat) :
    BatchSeen secret account ledger batch ↔
      ¬∀ counter ∈ List.range' (RESTORE_BATCH * batch) RESTORE_BATCH,
        ¬Seen secret account ledger counter := by
  constructor
  · rintro ⟨counter, inBatch, seen⟩ unseen
    exact unseen counter (mem_batch.mpr inBatch) seen
  · intro some
    push Not at some
    obtain ⟨counter, member, seen⟩ := some
    exact ⟨counter, mem_batch.mp member, seen⟩

/-- The walk ends at the first batch without a trace. -/
theorem scanCountersFrom_ok {fuel batch : Nat} {found : List NoteIssuanceRequest}
    {result : Nat × List NoteIssuanceRequest}
    (scanned : scanCountersFrom secret account ledger fuel (RESTORE_BATCH * batch) found =
      some result) :
    ∃ last, batch ≤ last ∧ result.1 = RESTORE_BATCH * last ∧
      ¬BatchSeen secret account ledger last ∧
      (∀ middle, batch ≤ middle → middle < last → BatchSeen secret account ledger middle) ∧
      result.2 = found ++ (List.range' (RESTORE_BATCH * batch)
        (RESTORE_BATCH * (last - batch))).filterMap (liveRequest secret account ledger) := by
  induction fuel generalizing batch found with
  | zero => cases scanned
  | succ fuel inductionHypothesis =>
      rw [scanCountersFrom_succ] at scanned
      split at scanned
      · rename_i unseen
        cases scanned
        refine ⟨batch, le_refl batch, rfl, ?_, ?_, ?_⟩
        · exact fun seen => (batchSeen_iff batch).mp seen unseen
        · intro middle from_ below
          omega
        · rw [Nat.sub_self, Nat.mul_zero, List.range'_zero, List.filterMap_nil, List.append_nil]
      · rename_i some
        rw [← Nat.mul_succ] at scanned
        obtain ⟨last, later, counter, unseen, seen, requests⟩ := inductionHypothesis scanned
        have split : RESTORE_BATCH * (last - batch) =
            RESTORE_BATCH + RESTORE_BATCH * (last - (batch + 1)) := by
          unfold RESTORE_BATCH
          omega
        refine ⟨last, by omega, counter, unseen, ?_, ?_⟩
        · intro middle from_ below
          rcases Nat.eq_or_lt_of_le from_ with same | after
          · exact same ▸ (batchSeen_iff batch).mpr some
          · exact seen middle after below
        · rw [requests, split, ← List.range'_append_1, List.filterMap_append, List.append_assoc,
            ← Nat.mul_succ]

/-- Out of fuel, every batch on the way was seen. -/
theorem scanCountersFrom_none {fuel batch : Nat} {found : List NoteIssuanceRequest}
    (exhausted : scanCountersFrom secret account ledger fuel (RESTORE_BATCH * batch) found =
      none) :
    ∀ middle, batch ≤ middle → middle < batch + fuel →
      BatchSeen secret account ledger middle := by
  induction fuel generalizing batch found with
  | zero =>
      intro middle from_ below
      omega
  | succ fuel inductionHypothesis =>
      rw [scanCountersFrom_succ] at exhausted
      split at exhausted
      · cases exhausted
      · rename_i some
        rw [← Nat.mul_succ] at exhausted
        intro middle from_ below
        rcases Nat.eq_or_lt_of_le from_ with same | after
        · exact same ▸ (batchSeen_iff batch).mpr some
        · exact inductionHypothesis exhausted middle after (by omega)

/-- Batches with traces have different rows in the tables. -/
theorem batches_bounded (distinct : secret.Distinct) {count : Nat}
    (seen : ∀ batch < count, BatchSeen secret account ledger batch) :
    count ≤ ledger.noteNonce.size + ledger.blindedNonce.size := by
  classical
  have chosen : ∀ batch, ∃ counter, batch < count →
      counter / RESTORE_BATCH = batch ∧ Seen secret account ledger counter := by
    intro batch
    by_cases below : batch < count
    · obtain ⟨counter, inBatch, traced⟩ := seen batch below
      exact ⟨counter, fun _ => ⟨inBatch, traced⟩⟩
    · exact ⟨0, fun inside => absurd inside below⟩
  choose counter traced using chosen
  let row : Nat → XOnlyPublicKey ⊕ BlindedNonce := fun batch =>
    if Spent secret account ledger (counter batch) then
      Sum.inl (secret.nonce account (counter batch))
    else Sum.inr (secret.blindedNonce account (counter batch))
  have inTables : ∀ batch ∈ Finset.range count, row batch ∈
      ledger.noteNonce.keys.toFinset.disjSum ledger.blindedNonce.keys.toFinset := by
    intro batch member
    obtain ⟨_, spent | signed⟩ := traced batch (Finset.mem_range.mp member)
    · simp only [row, if_pos spent, Finset.inl_mem_disjSum, List.mem_toFinset]
      exact (SortedMap.mem_keys _ _).mpr ((SortedMap.contains_iff _ _).mp spent)
    · by_cases spent : Spent secret account ledger (counter batch)
      · simp only [row, if_pos spent, Finset.inl_mem_disjSum, List.mem_toFinset]
        exact (SortedMap.mem_keys _ _).mpr ((SortedMap.contains_iff _ _).mp spent)
      · simp only [row, if_neg spent, Finset.inr_mem_disjSum, List.mem_toFinset]
        exact (SortedMap.mem_keys _ _).mpr ((SortedMap.contains_iff _ _).mp signed)
  have injective : Set.InjOn row (Finset.range count) := by
    intro left leftMember right rightMember same
    have leftBatch := (traced left (Finset.mem_range.mp leftMember)).1
    have rightBatch := (traced right (Finset.mem_range.mp rightMember)).1
    rw [← leftBatch, ← rightBatch]
    congr 1
    simp only [row] at same
    split at same <;> split at same
    · exact (distinct.nonces _ _ _ _ (Sum.inl.inj same)).2
    · cases same
    · cases same
    · exact (distinct.blindedNonces _ _ _ _ (Sum.inr.inj same)).2
  have bounded := Finset.card_le_card_of_injOn row inTables injective
  rw [Finset.card_range, Finset.card_disjSum, List.toFinset_card_of_nodup (SortedMap.keys_nodup _),
    List.toFinset_card_of_nodup (SortedMap.keys_nodup _), SortedMap.keys_length,
    SortedMap.keys_length] at bounded
  exact bounded

theorem scanCounters_ok {result : Nat × List NoteIssuanceRequest}
    (scanned : scanCounters secret account ledger = some result) :
    ∃ last, result.1 = RESTORE_BATCH * last ∧ ¬BatchSeen secret account ledger last ∧
      (∀ batch < last, BatchSeen secret account ledger batch) ∧
      result.2 = (List.range' 0 result.1).filterMap (liveRequest secret account ledger) := by
  change scanCountersFrom secret account ledger _ (RESTORE_BATCH * 0) [] = some result at scanned
  obtain ⟨last, _, counter, unseen, seen, requests⟩ := scanCountersFrom_ok scanned
  rw [List.nil_append, Nat.mul_zero, Nat.sub_zero, ← counter] at requests
  exact ⟨last, counter, unseen, fun batch below => seen batch (Nat.zero_le batch) below, requests⟩

theorem scanCounters_ends (distinct : secret.Distinct) :
    ∃ result, scanCounters secret account ledger = some result := by
  cases scanned : scanCounters secret account ledger with
  | some result => exact ⟨result, rfl⟩
  | none =>
      change scanCountersFrom secret account ledger _ (RESTORE_BATCH * 0) [] = none at scanned
      have seen := scanCountersFrom_none scanned
      rw [Nat.zero_add] at seen
      have bounded := batches_bounded distinct
        (fun batch below => seen batch (Nat.zero_le batch) below)
      omega

/-- The scan is complete exactly if it does not have to cross an empty batch. -/
theorem scanCounters_complete_iff {result : Nat × List NoteIssuanceRequest}
    (scanned : scanCounters secret account ledger = some result) :
    Complete secret account ledger result ↔ Covered secret account ledger [] := by
  obtain ⟨last, counter, unseen, seen, requests⟩ := scanCounters_ok scanned
  constructor
  · intro complete signed isSigned batch before
    have isSigned := isSigned.resolve_right (List.not_mem_nil)
    have below := complete.above signed isSigned
    rw [counter] at below
    exact seen batch (before.trans_lt (Nat.div_lt_of_lt_mul below))
  · intro covered
    have above : ∀ signed, Signed secret account ledger signed → signed < result.1 := by
      intro signed isSigned
      rw [counter]
      by_contra beyond
      have reached := (Nat.le_div_iff_mul_le (by decide)).mpr
        ((Nat.mul_comm last RESTORE_BATCH).trans_le (not_lt.mp beyond))
      exact unseen (covered signed (Or.inl isSigned) last reached)
    refine ⟨?_, above⟩
    intro live denomination issued unspent
    have below := above live ((SortedMap.contains_iff _ _).mpr ⟨denomination, issued⟩)
    rw [requests, List.mem_filterMap]
    refine ⟨live, ?_, (liveRequest_eq_some secret account ledger).mpr
      ⟨unspent, denomination, issued, rfl⟩⟩
    rw [List.mem_range'_1, Nat.zero_add]
    exact ⟨Nat.zero_le live, below⟩

theorem scanCounters_sound {result : Nat × List NoteIssuanceRequest}
    (scanned : scanCounters secret account ledger = some result) :
    ∀ request ∈ result.2, ∃ counter, ¬Spent secret account ledger counter ∧ ∃ denomination,
      ledger.blindedNonce.get? (secret.blindedNonce account counter) = some denomination ∧
        NoteIssuanceRequest.new secret account denomination counter = request := by
  obtain ⟨_, _, _, _, requests⟩ := scanCounters_ok scanned
  intro request member
  rw [requests, List.mem_filterMap] at member
  obtain ⟨counter, _, live⟩ := member
  exact ⟨counter, (liveRequest_eq_some secret account ledger).mp live⟩

theorem covered_of_gaps (gaps : ∀ signed, Signed secret account ledger signed →
    ∀ start, start + RESTORE_BATCH ≤ signed →
      ∃ counter, start ≤ counter ∧ counter < start + RESTORE_BATCH ∧
        Seen secret account ledger counter) : Covered secret account ledger [] := by
  intro signed isSigned batch before
  have isSigned := isSigned.resolve_right (List.not_mem_nil)
  rcases Nat.eq_or_lt_of_le before with same | earlier
  · exact ⟨signed, same.symm, Or.inr isSigned⟩
  · have fits : RESTORE_BATCH * batch + RESTORE_BATCH ≤ signed := by
      rw [← Nat.mul_succ, Nat.mul_comm]
      exact (Nat.le_div_iff_mul_le (by decide)).mp earlier
    obtain ⟨counter, start, stop, seen⟩ := gaps signed isSigned _ fits
    exact ⟨counter, mem_batch.mp (List.mem_range'_1.mpr ⟨start, stop⟩), seen⟩

end Walk

/-! ### Histories of an account -/

def issue (secret : EcashSecret) (account : Account) (counter : Nat)
    (denominations : List Denomination) : List NoteIssuanceRequest × Nat :=
  denominations.foldl (fun (state : List NoteIssuanceRequest × Nat) denomination =>
    (state.1 ++ [NoteIssuanceRequest.new secret account denomination state.2], state.2 + 1))
    ([], counter)

theorem issue_eq (secret : EcashSecret) (account : Account) (counter : Nat)
    (denominations : List Denomination) :
    issue secret account counter denominations =
      ((denominations.zipIdx counter).map (fun entry : Denomination × Nat =>
        NoteIssuanceRequest.new secret account entry.1 entry.2),
        counter + denominations.length) := by
  have folded : ∀ (denominations : List Denomination) (state : List NoteIssuanceRequest × Nat),
      denominations.foldl (fun (state : List NoteIssuanceRequest × Nat) denomination =>
        (state.1 ++ [NoteIssuanceRequest.new secret account denomination state.2],
          state.2 + 1)) state =
        (state.1 ++ (denominations.zipIdx state.2).map (fun entry : Denomination × Nat =>
          NoteIssuanceRequest.new secret account entry.1 entry.2),
          state.2 + denominations.length) := by
    intro denominations
    induction denominations with
    | nil => simp
    | cons denomination rest inductionHypothesis =>
        intro state
        rw [List.foldl_cons, inductionHypothesis, List.zipIdx_cons, List.map_cons,
          List.length_cons, List.append_assoc, List.singleton_append]
        simp only [Prod.mk.injEq, true_and]
        omega
  unfold issue
  rw [folded, List.nil_append]

/-- The mint, the account's next counter and the outputs of its transactions
that are not decided yet. -/
structure AccountState (curve : Curve) where
  history : History curve
  counter : Nat
  undecided : List (List NoteIssuanceRequest)

namespace AccountState

def start : AccountState curve :=
  { history := History.start
    counter := 0
    undecided := [] }

def submit (secret : EcashSecret) (account : Account) (state : AccountState curve)
    (denominations : List Denomination) : AccountState curve :=
  let issued := issue secret account state.counter denominations
  { state with
    counter := issued.2
    undecided := state.undecided ++ [issued.1] }

/-- The counters an undecided transaction may still have signed. -/
def awaited (state : AccountState curve) : List Nat :=
  state.undecided.flatten.map (fun request => request.issuance.counter)

end AccountState

/-- The histories of an account at a mint, with restores only where the gate
admits them.  Only an undecided transaction has a nonce of the account signed. -/
inductive Reached (server : Server curve) (secret : EcashSecret) (account : Account)
    (gate : AccountState curve → Prop) : AccountState curve → Prop where
  | start : Reached server secret account gate AccountState.start
  | submitted {state : AccountState curve} (denominations : List Denomination) :
      Reached server secret account gate state →
        Reached server secret account gate (state.submit secret account denominations)
  | processed {state : AccountState curve} {next : History curve}
      (entry : NodeId × ConsensusItem curve) :
      Reached server secret account gate state →
        (∀ counter, secret.blindedNonce account counter ∈ entry.2.blindedNonces →
          counter ∈ state.awaited) →
        History.step server state.history entry = some next →
        Reached server secret account gate { state with history := next }
  | decided {state : AccountState curve} (index : Nat) :
      Reached server secret account gate state →
        Reached server secret account gate
          { state with undecided := state.undecided.eraseIdx index }
  | restored {state : AccountState curve} (result : Nat × List NoteIssuanceRequest) :
      Reached server secret account gate state → gate state →
        scanCounters secret account state.history.ledger = some result →
        Reached server secret account gate { state with counter := result.1 }

/-- The scan crosses no empty batch below a counter that is signed or may
still be. -/
def Restorable (secret : EcashSecret) (account : Account) (state : AccountState curve) : Prop :=
  Covered secret account state.history.ledger state.awaited

/-- Signed counters and those that may still be signed are below the next. -/
structure Issued (secret : EcashSecret) (account : Account) (state : AccountState curve) :
    Prop where
  signed : ∀ counter, Signed secret account state.history.ledger counter → counter < state.counter
  awaited : ∀ counter ∈ state.awaited, counter < state.counter

section Histories

variable {server : Server curve} {secret : EcashSecret} {account : Account}
  {state : AccountState curve}

theorem Issued.submit (issued : Issued secret account state) (denominations : List Denomination) :
    Issued secret account (state.submit secret account denominations) := by
  have above : (state.submit secret account denominations).counter =
      state.counter + denominations.length := by
    unfold AccountState.submit
    rw [issue_eq]
  constructor
  · intro counter signed
    rw [above]
    exact Nat.lt_add_right _ (issued.signed counter signed)
  · intro counter member
    rw [above]
    unfold AccountState.awaited AccountState.submit at member
    rw [List.flatten_append, List.map_append, List.mem_append] at member
    rcases member with before | new
    · exact Nat.lt_add_right _ (issued.awaited counter before)
    · rw [issue_eq, List.flatten_singleton, List.map_map, List.mem_map] at new
      obtain ⟨entry, inRange, same⟩ := new
      have bounds := List.mem_zipIdx inRange
      change entry.2 = counter at same
      omega

/-- Only an awaited counter becomes signed. -/
theorem Issued.process (issued : Issued secret account state)
    {entry : NodeId × ConsensusItem curve} {next : History curve}
    (own : ∀ counter, secret.blindedNonce account counter ∈ entry.2.blindedNonces →
      counter ∈ state.awaited)
    (stepped : History.step server state.history entry = some next) :
    Issued secret account { state with history := next } := by
  refine ⟨?_, issued.awaited⟩
  intro counter signed
  unfold Signed SortedMap.contains at signed
  rcases History.step_issued stepped (secret.blindedNonce account counter) with same | ⟨_, asked⟩
  · rw [same] at signed
    exact issued.signed counter signed
  · exact issued.awaited counter (own counter asked)

theorem Issued.decide (issued : Issued secret account state) (index : Nat) :
    Issued secret account { state with undecided := state.undecided.eraseIdx index } := by
  refine ⟨issued.signed, ?_⟩
  intro counter member
  apply issued.awaited counter
  unfold AccountState.awaited at member ⊢
  obtain ⟨request, inUndecided, same⟩ := List.mem_map.mp member
  obtain ⟨requests, kept, inRequests⟩ := List.mem_flatten.mp inUndecided
  exact List.mem_map.mpr ⟨request, List.mem_flatten.mpr
    ⟨requests, List.mem_of_mem_eraseIdx kept, inRequests⟩, same⟩

/-- The first batch without a trace is above everything the gate speaks of. -/
theorem Restorable.restore (restorable : Restorable secret account state)
    {result : Nat × List NoteIssuanceRequest}
    (scanned : scanCounters secret account state.history.ledger = some result) :
    Issued secret account { state with counter := result.1 } := by
  obtain ⟨last, counter, unseen, _, _⟩ := scanCounters_ok scanned
  have above : ∀ other, Signed secret account state.history.ledger other ∨
      other ∈ state.awaited → other < result.1 := by
    intro other outstanding
    rw [counter]
    by_contra beyond
    have reached := (Nat.le_div_iff_mul_le (by decide)).mpr
      ((Nat.mul_comm last RESTORE_BATCH).trans_le (not_lt.mp beyond))
    exact unseen (restorable other outstanding last reached)
  exact ⟨fun other signed => above other (Or.inl signed),
    fun other member => above other (Or.inr member)⟩

/-- Within the first batch any trace makes the account restorable. -/
theorem Issued.restorable (issued : Issued secret account state)
    (few : state.counter ≤ RESTORE_BATCH) (seen : Seen secret account state.history.ledger 0) :
    Restorable secret account state := by
  intro counter outstanding batch before
  have below : counter < RESTORE_BATCH := by
    rcases outstanding with signed | awaited
    · exact (issued.signed counter signed).trans_le few
    · exact (issued.awaited counter awaited).trans_le few
  rw [Nat.div_eq_of_lt below] at before
  exact ⟨0, (Nat.le_zero.mp before).symm, seen⟩

theorem Reached.issued (reached : Reached server secret account (Restorable secret account) state) :
    Issued secret account state := by
  induction reached with
  | start =>
      refine ⟨?_, fun counter member => by cases member⟩
      intro counter signed
      cases signed
  | submitted denominations _ inductionHypothesis => exact inductionHypothesis.submit denominations
  | processed entry _ own stepped inductionHypothesis =>
      exact inductionHypothesis.process own stepped
  | decided index _ inductionHypothesis => exact inductionHypothesis.decide index
  | restored result _ restorable scanned _ => exact restorable.restore scanned

/-- In every history whose restores cross no empty batch below a counter that
is signed or may still be, no signed nonce is issued again; and the scan ends,
finds only live notes, and is complete exactly if no batch up to that of a
signed counter is without a trace, so in particular if every gap below a signed
counter is shorter than a batch. -/
theorem seed_restore_complete (distinct : secret.Distinct)
    (reached : Reached server secret account (Restorable secret account) state) :
    (∀ denominations, ∀ request ∈ (issue secret account state.counter denominations).1,
        state.history.ledger.blindedNonce.contains (request.blindedNonce secret.toNoteKeys) =
          false) ∧
      ∃ result, scanCounters secret account state.history.ledger = some result ∧
        (∀ request ∈ result.2, ∃ counter,
          ¬Spent secret account state.history.ledger counter ∧ ∃ denomination,
            state.history.ledger.blindedNonce.get? (secret.blindedNonce account counter) =
                some denomination ∧
              NoteIssuanceRequest.new secret account denomination counter = request) ∧
        (Complete secret account state.history.ledger result ↔
          Covered secret account state.history.ledger []) ∧
        ((∀ signed, Signed secret account state.history.ledger signed →
            ∀ start, start + RESTORE_BATCH ≤ signed → ∃ counter, start ≤ counter ∧
              counter < start + RESTORE_BATCH ∧ Seen secret account state.history.ledger counter) →
          Complete secret account state.history.ledger result) := by
  obtain ⟨result, scanned⟩ :
      ∃ result, scanCounters secret account state.history.ledger = some result :=
    scanCounters_ends distinct
  have complete := scanCounters_complete_iff scanned
  refine ⟨?_, result, scanned, scanCounters_sound scanned, complete,
    fun gaps => complete.mpr (covered_of_gaps gaps)⟩
  intro denominations request member
  rw [issue_eq, List.mem_map] at member
  obtain ⟨entry, inRange, same⟩ := member
  rw [← same]
  have bounds := List.mem_zipIdx inRange
  apply Bool.eq_false_iff.mpr
  intro signed
  have below := reached.issued.signed entry.2 signed
  omega

end Histories

/-! One account claims a deposit, has a transaction rejected, spends a note and
goes on after a restore.  The others have rejected transactions use up a batch
of counters, or restore while a transaction is undecided; then a deposit is
claimed for one of their notes. -/

def sampleFundedItems : List (NodeId × ConsensusItem scalarCurve) :=
  sampleVotes (.blockHeight 1) ++ sampleVotes (.onchain (.block sampleDeposit)) ++
    sampleVotes (.onchain (.feerate (some 1000)))

/-- A transaction for notes of the given denominations and counters. -/
def sampleIssue (inputs : List Input) (outputs : List (Denomination × Nat)) : Transaction :=
  { inputs
    outputs := outputs.map (fun entry =>
      .ecash { denomination := entry.1
               nonce := sampleSecret.blindedNonce .primary entry.2 })
    signatures := inputs.map (fun _ => 0) }

def sampleNoteClaim (counter : Nat) : Transaction :=
  sampleIssue [.onchain { outputIndex := 0, tweak := 5, fee := 10000 }] [(20, counter)]

def sampleNoteInput (denomination : Denomination) (counter : Nat) : Input :=
  .ecash { note := { denomination
                     nonce := sampleSecret.nonce .primary counter
                     signature := 0 } }

section Samples

variable {server : Server curve} {secret : EcashSecret} {account : Account}
  {gate : AccountState curve → Prop} {state : AccountState curve}

theorem Reached.run {items : List (NodeId × ConsensusItem curve)} {next : History curve}
    (reached : Reached server secret account gate state)
    (foreign : ∀ entry ∈ items, entry.2.blindedNonces = [])
    (ran : History.run server state.history items = some next) :
    Reached server secret account gate { state with history := next } := by
  induction items generalizing state with
  | nil =>
      cases ran
      exact reached
  | cons entry rest inductionHypothesis =>
      unfold History.run at ran
      rw [List.foldlM_cons, Option.bind_eq_bind, Option.bind_eq_some_iff] at ran
      obtain ⟨middle, stepped, following⟩ := ran
      have first := Reached.processed entry reached (by
        intro counter own
        rw [foreign entry List.mem_cons_self] at own
        cases own) stepped
      have later := inductionHypothesis first (fun other member => foreign other
        (List.mem_cons_of_mem entry member)) following
      exact later

/-- Transactions of 25 outputs each are submitted and rejected. -/
theorem Reached.burn (reached : Reached server secret account gate state)
    (idle : state.undecided = []) (count : Nat) :
    Reached server secret account gate { state with counter := state.counter + 25 * count } := by
  induction count with
  | zero => exact reached
  | succ count inductionHypothesis =>
      have submitted := Reached.submitted (List.replicate 25 9) inductionHypothesis
      have decided := Reached.decided 0 submitted
      have counter : (AccountState.submit secret account
          { state with counter := state.counter + 25 * count } (List.replicate 25 9)).counter =
            state.counter + 25 * (count + 1) := by
        unfold AccountState.submit
        simp only [issue_eq, List.length_replicate]
        omega
      have undecided : (AccountState.submit secret account
          { state with counter := state.counter + 25 * count }
            (List.replicate 25 9)).undecided.eraseIdx 0 = state.undecided := by
        unfold AccountState.submit
        rw [idle]
        rfl
      rw [undecided, counter] at decided
      exact decided

end Samples

theorem sampleFundedItems_foreign : ∀ entry ∈ sampleFundedItems,
    ConsensusItem.blindedNonces entry.2 = [] := by
  decide

theorem sampleIssue_own {inputs : List Input} {outputs : List (Denomination × Nat)}
    {awaited : List Nat} (members : ∀ entry ∈ outputs, entry.2 ∈ awaited) :
    ∀ other, sampleSecret.blindedNonce .primary other ∈
        (ConsensusItem.tx (sampleIssue inputs outputs) :
          ConsensusItem scalarCurve).blindedNonces →
      other ∈ awaited := by
  intro other asked
  obtain ⟨output, listed, isEcash⟩ := List.mem_filterMap.mp asked
  obtain ⟨entry, member, rfl⟩ := List.mem_map.mp listed
  have same := (sampleSecret_distinct.blindedNonces _ _ _ _ (Option.some.inj isEcash)).2
  exact same ▸ members entry member

theorem sampleNoteClaim_own {awaited : List Nat} {counter : Nat} (member : counter ∈ awaited) :
    ∀ other, sampleSecret.blindedNonce .primary other ∈
        (ConsensusItem.tx (sampleNoteClaim counter) :
          ConsensusItem scalarCurve).blindedNonces →
      other ∈ awaited :=
  sampleIssue_own (List.forall_mem_singleton.mpr member)

/-- The deposit, two of its notes spent one after the other. -/
def sampleFirstClaim : Transaction :=
  sampleIssue [.onchain { outputIndex := 0, tweak := 5, fee := 10000 }] [(24, 0), (20, 1)]

def sampleFirstSpend : Transaction :=
  sampleIssue [sampleNoteInput 24 0] [(22, 3), (21, 4), (21, 5)]

def sampleSecondSpend : Transaction := sampleIssue [sampleNoteInput 20 1] [(9, 500)]

/-- What the account restores after its first spend. -/
def sampleRestored : Nat × List NoteIssuanceRequest :=
  (500, [NoteIssuanceRequest.new sampleSecret .primary 20 1,
    NoteIssuanceRequest.new sampleSecret .primary 22 3,
    NoteIssuanceRequest.new sampleSecret .primary 21 4,
    NoteIssuanceRequest.new sampleSecret .primary 21 5])

/-- Counter 2 belongs to a rejected transaction. -/
theorem sampleHistory_reached :
    ∃ state : AccountState scalarCurve,
      Reached sampleServer sampleSecret .primary (Restorable sampleSecret .primary) state ∧
        state.counter = 501 ∧ Spent sampleSecret .primary state.history.ledger 0 ∧
        Spent sampleSecret .primary state.history.ledger 1 ∧
        ¬Seen sampleSecret .primary state.history.ledger 2 ∧
        Signed sampleSecret .primary state.history.ledger 500 ∧
        scanCounters sampleSecret .primary state.history.ledger =
          some (1000, [NoteIssuanceRequest.new sampleSecret .primary 22 3,
            NoteIssuanceRequest.new sampleSecret .primary 21 4,
            NoteIssuanceRequest.new sampleSecret .primary 21 5,
            NoteIssuanceRequest.new sampleSecret .primary 9 500]) := by
  have evaluated : (History.run sampleServer History.start sampleFundedItems).any (fun history =>
      (History.step sampleServer history (0, .tx sampleFirstClaim)).any (fun claimed =>
        (History.step sampleServer claimed (1, .tx sampleFirstSpend)).any (fun spent =>
          (Spent sampleSecret .primary spent.ledger 0 ∧
            scanCounters sampleSecret .primary spent.ledger = some sampleRestored) ∧
          (History.step sampleServer spent (2, .tx sampleSecondSpend)).any (fun next =>
            Spent sampleSecret .primary next.ledger 0 ∧ Spent sampleSecret .primary next.ledger 1 ∧
              ¬Seen sampleSecret .primary next.ledger 2 ∧
              Signed sampleSecret .primary next.ledger 500 ∧
              scanCounters sampleSecret .primary next.ledger =
                some (1000, [NoteIssuanceRequest.new sampleSecret .primary 22 3,
                  NoteIssuanceRequest.new sampleSecret .primary 21 4,
                  NoteIssuanceRequest.new sampleSecret .primary 21 5,
                  NoteIssuanceRequest.new sampleSecret .primary 9 500]))))) = true := by
    decide +kernel
  rw [Option.any_eq_true] at evaluated
  obtain ⟨history, ran, evaluated⟩ := evaluated
  rw [Option.any_eq_true] at evaluated
  obtain ⟨claimed, claimStep, evaluated⟩ := evaluated
  rw [Option.any_eq_true] at evaluated
  obtain ⟨spent, spendStep, evaluated⟩ := evaluated
  obtain ⟨⟨traced, scanned⟩, evaluated⟩ := of_decide_eq_true evaluated
  rw [Option.any_eq_true] at evaluated
  obtain ⟨next, nextStep, holds⟩ := evaluated
  have fresh : Reached sampleServer sampleSecret .primary (Restorable sampleSecret .primary)
      (AccountState.start : AccountState scalarCurve) := Reached.start
  have funded := fresh.run sampleFundedItems_foreign ran
  have firstOwn : ∀ entry ∈ ([(24, 0), (20, 1)] : List (Denomination × Nat)),
      entry.2 ∈ [0, 1] := by
    decide
  have secondOwn : ∀ entry ∈ ([(22, 3), (21, 4), (21, 5)] : List (Denomination × Nat)),
      entry.2 ∈ [3, 4, 5] := by
    decide
  have lastOwn : ∀ entry ∈ ([(9, 500)] : List (Denomination × Nat)), entry.2 ∈ [500] := by
    decide
  have first := Reached.decided 0 (Reached.processed (0, .tx sampleFirstClaim)
    (Reached.submitted [24, 20] funded) (sampleIssue_own firstOwn) claimStep)
  have rejected := Reached.decided 0 (Reached.submitted [9] first)
  have second := Reached.decided 0 (Reached.processed (1, .tx sampleFirstSpend)
    (Reached.submitted [22, 21, 21] rejected) (sampleIssue_own secondOwn) spendStep)
  have restorable := second.issued.restorable (by decide : 6 ≤ RESTORE_BATCH) (Or.inl traced)
  have restored := Reached.restored sampleRestored second restorable scanned
  have last := Reached.processed (2, .tx sampleSecondSpend)
    (Reached.submitted [9] restored) (sampleIssue_own lastOwn) nextStep
  exact ⟨_, last, rfl, of_decide_eq_true holds⟩

theorem seed_restore_complete_sample :
    ∃ state : AccountState scalarCurve,
      Reached sampleServer sampleSecret .primary (Restorable sampleSecret .primary) state ∧
        state.counter = 501 ∧ Spent sampleSecret .primary state.history.ledger 0 ∧
        ¬Seen sampleSecret .primary state.history.ledger 2 ∧
        Signed sampleSecret .primary state.history.ledger 500 ∧
        (∀ request ∈ (issue sampleSecret .primary state.counter [9, 10]).1,
          state.history.ledger.blindedNonce.contains
            (request.blindedNonce sampleSecret.toNoteKeys) = false) ∧
        Complete sampleSecret .primary state.history.ledger
          (1000, [NoteIssuanceRequest.new sampleSecret .primary 22 3,
            NoteIssuanceRequest.new sampleSecret .primary 21 4,
            NoteIssuanceRequest.new sampleSecret .primary 21 5,
            NoteIssuanceRequest.new sampleSecret .primary 9 500]) := by
  obtain ⟨state, reached, counter, spent, spentToo, unseen, signed, scanned⟩ :=
    sampleHistory_reached
  obtain ⟨fresh, result, ends, _, _, complete⟩ :=
    seed_restore_complete sampleSecret_distinct reached
  obtain rfl := Option.some.inj (scanned.symm.trans ends)
  refine ⟨state, reached, counter, spent, unseen, signed, fresh [9, 10], complete ?_⟩
  intro other isSigned start before
  have below := reached.issued.signed other isSigned
  rw [counter] at below
  unfold RESTORE_BATCH at before ⊢
  exact ⟨1, by omega, by omega, Or.inl spentToo⟩

/-- After 500 counters of rejected transactions the scan misses a signed note;
and a transaction undecided at a restore has a counter signed that is then
issued again. -/
theorem seed_restore_incomplete :
    (∃ state : AccountState scalarCurve,
      Reached sampleServer sampleSecret .primary (fun _ => True) state ∧
        Signed sampleSecret .primary state.history.ledger 500 ∧
        ¬Spent sampleSecret .primary state.history.ledger 500 ∧
        scanCounters sampleSecret .primary state.history.ledger = some (0, [])) ∧
      ∃ state : AccountState scalarCurve,
        Reached sampleServer sampleSecret .primary (fun _ => True) state ∧
          Signed sampleSecret .primary state.history.ledger 0 ∧ state.counter = 0 := by
  have fresh : Reached sampleServer sampleSecret .primary (fun _ => True)
      (AccountState.start : AccountState scalarCurve) := Reached.start
  constructor
  · have evaluated : (History.run sampleServer History.start sampleFundedItems).any (fun history =>
        (History.step sampleServer history (0, .tx (sampleNoteClaim 500))).any (fun next =>
          Signed sampleSecret .primary next.ledger 500 ∧
            ¬Spent sampleSecret .primary next.ledger 500 ∧
            scanCounters sampleSecret .primary next.ledger = some (0, []))) = true := by
      decide +kernel
    rw [Option.any_eq_true] at evaluated
    obtain ⟨history, ran, stepped⟩ := evaluated
    rw [Option.any_eq_true] at stepped
    obtain ⟨next, claimed, holds⟩ := stepped
    have burned := (fresh.run sampleFundedItems_foreign ran).burn rfl 20
    have submitted := Reached.submitted [20] burned
    have own := sampleNoteClaim_own (List.mem_singleton.mpr (Eq.refl 500))
    exact ⟨_, Reached.processed _ submitted own claimed, of_decide_eq_true holds⟩
  · have evaluated : (History.run sampleServer History.start sampleFundedItems).any (fun history =>
        (History.step sampleServer history (0, .tx (sampleNoteClaim 0))).any (fun next =>
          Signed sampleSecret .primary next.ledger 0 ∧
            scanCounters sampleSecret .primary history.ledger = some (0, []))) = true := by
      decide +kernel
    rw [Option.any_eq_true] at evaluated
    obtain ⟨history, ran, stepped⟩ := evaluated
    rw [Option.any_eq_true] at stepped
    obtain ⟨next, claimed, holds⟩ := stepped
    obtain ⟨signed, scanned⟩ := of_decide_eq_true holds
    have submitted := Reached.submitted [20] (fresh.run sampleFundedItems_foreign ran)
    have restored := Reached.restored _ submitted trivial scanned
    have own := sampleNoteClaim_own (List.mem_singleton.mpr (Eq.refl 0))
    exact ⟨_, Reached.processed _ restored own claimed, signed, rfl⟩

end Picomint.Client
