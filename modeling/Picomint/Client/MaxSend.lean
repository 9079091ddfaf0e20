/-
Sends of everything an account holds.

The amount is the largest whole number of sats the notes pay for.  The account
is emptied exactly if the selection skips a single note.
-/

import Picomint.Client.Balance
import Picomint.Client.Payments

namespace Picomint.Client

open Consensus

/-! ### The amount -/

def maxSpendable (notes : List SpendableNote) : Nat := amountSum (noteValues notes)

/-- The loop of the search; the interval shrinks with every turn. -/
def searchAmount (total : Nat → Nat) (spendable : Nat) : Nat → Nat → Nat → Nat
  | 0, lo, _ => lo
  | fuel + 1, lo, hi =>
      if lo < hi then
        let mid := (lo + hi + 1) / 2
        if total (amountFromSat mid) ≤ spendable then searchAmount total spendable fuel mid hi
        else searchAmount total spendable fuel lo (mid - 1)
      else lo

def largestAffordableAmount (notes : List SpendableNote) (railFees : Nat → Nat) : Nat :=
  let spendable := maxSpendable notes
  let total := fun amount => amountAdd amount (railFees amount)
  if spendable < total 0 then 0
  else amountFromSat (searchAmount total spendable (spendable / 1000) 0 (spendable / 1000))

/-! ### The fees of the rails -/

structure PaymentFee where
  base : Nat
  ppm : Nat
deriving DecidableEq, Repr

namespace PaymentFee

def SEND_FEE_LIMIT : PaymentFee :=
  { base := fromSat 50
    ppm := 10000 }

def isWithin (fee limit : PaymentFee) : Bool := fee.base ≤ limit.base && fee.ppm ≤ limit.ppm

def absoluteFee (fee : PaymentFee) (msat : Nat) : Attempt Nat :=
  demand (checkedAdd (saturatingMul msat fee.ppm / 1000000) fee.base)

end PaymentFee

/-- What a rail adds to an amount.  A step of one sat raises the fee by little
enough to stay below the change floor of a max send. -/
structure RailFees where
  fees : Nat → Nat
  bounded : ∀ amount, fees amount < U64_BOUND
  monotone : Monotone fees
  step : ∀ amount, fees (amount + 1000) < fees amount + 1149

def RailFees.onchain (fee : Nat) : RailFees where
  fees := fun _ => amountAdd (amountFromSat fee) ONCHAIN_OUTPUT_FEE
  bounded := fun _ => Nat.mod_lt _ (by decide)
  monotone := monotone_const
  step := fun _ => Nat.lt_add_of_pos_right (by decide)

def RailFees.direct : RailFees where
  fees := fun _ => LIGHTNING_OUTPUT_FEE
  bounded := fun _ => by decide
  monotone := monotone_const
  step := fun _ => Nat.lt_add_of_pos_right (by decide)

theorem saturatingMul_mono {left right : Nat} (factor : Nat) (below : left ≤ right) :
    saturatingMul left factor ≤ saturatingMul right factor :=
  min_le_min_right _ (Nat.mul_le_mul_right _ below)

def RailFees.gateway (fee : PaymentFee) (within : fee.isWithin PaymentFee.SEND_FEE_LIMIT) :
    RailFees where
  fees := fun amount => saturatingMul amount fee.ppm / 1000000 + fee.base + LIGHTNING_OUTPUT_FEE
  bounded := by
    intro amount
    unfold PaymentFee.isWithin PaymentFee.SEND_FEE_LIMIT at within
    rw [Bool.and_eq_true, decide_eq_true_eq, decide_eq_true_eq] at within
    have base : fee.base ≤ 50000 := within.1
    have part : saturatingMul amount fee.ppm / 1000000 ≤ (U64_BOUND - 1) / 1000000 :=
      Nat.div_le_div_right (min_le_right _ _)
    have numeral : (U64_BOUND - 1) / 1000000 + 50000 + LIGHTNING_OUTPUT_FEE < U64_BOUND := by
      decide
    omega
  monotone := by
    intro left right below
    exact Nat.add_le_add_right (Nat.add_le_add_right
      (Nat.div_le_div_right (saturatingMul_mono fee.ppm below)) _) _
  step := by
    intro amount
    unfold PaymentFee.isWithin PaymentFee.SEND_FEE_LIMIT at within
    rw [Bool.and_eq_true, decide_eq_true_eq, decide_eq_true_eq] at within
    have parts : saturatingMul (amount + 1000) fee.ppm ≤
        saturatingMul amount fee.ppm + 10000000 := by
      have product : (amount + 1000) * fee.ppm ≤ amount * fee.ppm + 10000000 := by
        rw [Nat.add_mul]
        have limit : fee.ppm ≤ 10000 := within.2
        omega
      unfold saturatingMul
      omega
    omega

/-! ### The search -/

section Search

variable {spendable top : Nat}

theorem searchAmount_spec (total : Nat → Nat) (fuel lo hi : Nat) (enough : hi - lo ≤ fuel)
    (ordered : lo ≤ hi)
    (covered : total (amountFromSat lo) ≤ spendable)
    (bound : hi = top ∨ spendable < total (amountFromSat (hi + 1))) :
    searchAmount total spendable fuel lo hi ≤ hi ∧
      total (amountFromSat (searchAmount total spendable fuel lo hi)) ≤ spendable ∧
      (searchAmount total spendable fuel lo hi = top ∨
        spendable < total (amountFromSat (searchAmount total spendable fuel lo hi + 1))) := by
  induction fuel generalizing lo hi with
  | zero =>
      have same : lo = hi := by omega
      subst same
      exact ⟨le_refl _, covered, bound⟩
  | succ fuel inductionHypothesis =>
      unfold searchAmount
      by_cases open_ : lo < hi
      · rw [if_pos open_]
        simp only
        by_cases fits : total (amountFromSat ((lo + hi + 1) / 2)) ≤ spendable
        · rw [if_pos fits]
          exact inductionHypothesis _ _ (by omega) (by omega) fits bound
        · rw [if_neg fits]
          obtain ⟨below, rest⟩ := inductionHypothesis lo ((lo + hi + 1) / 2 - 1) (by omega)
            (by omega) covered (Or.inr (by
              rw [Nat.sub_add_cancel (by omega)]
              exact not_le.mp fits))
          exact ⟨by omega, rest⟩
      · rw [if_neg open_]
        have same : lo = hi := by omega
        subst same
        exact ⟨le_refl _, covered, bound⟩

end Search

theorem maxSpendable_bound (notes : List SpendableNote) : maxSpendable notes < U64_BOUND := by
  unfold maxSpendable
  rw [amountSum_eq]
  exact Nat.mod_lt _ (by decide)

theorem amountFromSat_of_le {sat limit : Nat} (below : sat ≤ limit / 1000)
    (bound : limit < U64_BOUND) : amountFromSat sat = sat * 1000 := by
  unfold amountFromSat
  exact Nat.mod_eq_of_lt (by omega)

/-- The amount found is a whole number of sats the notes cover with its fees. -/
theorem largestAffordableAmount_covered {notes : List SpendableNote} {railFees : Nat → Nat}
    (nonzero : largestAffordableAmount notes railFees ≠ 0) :
    amountAdd 0 (railFees 0) ≤ maxSpendable notes ∧
      amountAdd (largestAffordableAmount notes railFees)
        (railFees (largestAffordableAmount notes railFees)) ≤ maxSpendable notes ∧
      ∃ sat, largestAffordableAmount notes railFees = sat * 1000 ∧
        sat ≤ maxSpendable notes / 1000 ∧
        (sat = maxSpendable notes / 1000 ∨ maxSpendable notes <
          amountAdd (amountFromSat (sat + 1)) (railFees (amountFromSat (sat + 1)))) := by
  unfold largestAffordableAmount at nonzero ⊢
  simp only at nonzero ⊢
  split at nonzero
  · exact absurd rfl nonzero
  rename_i affordable
  rw [if_neg affordable]
  have start : amountAdd (amountFromSat 0) (railFees (amountFromSat 0)) ≤ maxSpendable notes :=
    not_lt.mp affordable
  obtain ⟨below, covered, maximal⟩ := searchAmount_spec
    (fun amount => amountAdd amount (railFees amount))
    (maxSpendable notes / 1000) 0 (maxSpendable notes / 1000) (by omega) (Nat.zero_le _)
    start (Or.inl rfl)
  exact ⟨not_lt.mp affordable, covered, _,
    amountFromSat_of_le below (maxSpendable_bound notes), below, maximal⟩

/-- Without a wrap less than the change floor remains. -/
theorem remainder_below_floor {notes : List SpendableNote} (rail : RailFees)
    (nonzero : largestAffordableAmount notes rail.fees ≠ 0)
    (small : maxSpendable notes < 2 ^ 61) :
    largestAffordableAmount notes rail.fees +
        rail.fees (largestAffordableAmount notes rail.fees) ≤ maxSpendable notes ∧
      maxSpendable notes < largestAffordableAmount notes rail.fees +
        rail.fees (largestAffordableAmount notes rail.fees) + 2148 := by
  obtain ⟨start, covered, sat, isAmount, below, maximal⟩ :=
    largestAffordableAmount_covered nonzero
  have exact_ : ∀ left right, left + right < U64_BOUND → amountAdd left right = left + right :=
    fun left right fits => Nat.mod_eq_of_lt fits
  have bound : U64_BOUND = 2 ^ 64 := rfl
  have steps : ∀ count, rail.fees (count * 1000) ≤ rail.fees 0 + count * 1148 := by
    intro count
    induction count with
    | zero => simp
    | succ count inductionHypothesis =>
        have step := rail.step (count * 1000)
        rw [Nat.succ_mul]
        refine (Nat.le_of_lt_succ step).trans ?_
        omega
  have base := rail.bounded 0
  rw [exact_ _ _ (by omega)] at start
  have fees := steps sat
  rw [isAmount] at covered ⊢
  rw [exact_ _ _ (by omega)] at covered
  refine ⟨covered, ?_⟩
  rcases maximal with top | more
  · omega
  · have next : amountFromSat (sat + 1) = sat * 1000 + 1000 := by
      unfold amountFromSat
      rw [Nat.succ_mul]
      exact Nat.mod_eq_of_lt (by omega)
    obtain ⟨nextFees, isNext⟩ : ∃ fees, fees = rail.fees (amountFromSat (sat + 1)) := ⟨_, rfl⟩
    have step : nextFees < rail.fees (sat * 1000) + 1149 := by
      rw [isNext, next]
      exact rail.step _
    rw [← isNext, next, exact_ _ _ (by omega)] at more
    omega

/-! ### A single skipped note -/

section Skipped

variable {excessOutput : Nat} {state : List SpendableNote × Option SpendableNote}

theorem amountSum_append (first second : List SpendableNote) :
    amountSum (noteValues (first ++ second)) =
      (amountSum (noteValues first) + totalValue second) % U64_BOUND := by
  unfold totalValue
  rw [amountSum_eq, amountSum_eq, noteValues_append, List.sum_append, Nat.mod_add_mod]

theorem totalValue_cons (note : SpendableNote) (notes : List SpendableNote) :
    totalValue (note :: notes) = noteValue note.denomination + totalValue notes := rfl

theorem selectNotes_take (notes : List SpendableNote) (limit : excessOutput < U64_BOUND)
    (fits : amountSum (noteValues state.1) + totalValue notes ≤ excessOutput) :
    notes.foldl (selectNote excessOutput) state = (state.1 ++ notes, state.2) := by
  induction notes generalizing state with
  | nil => simp
  | cons note rest inductionHypothesis =>
      rw [totalValue_cons] at fits
      have single : totalValue [note] = noteValue note.denomination := rfl
      have next : amountSum (noteValues (state.1 ++ [note])) =
          amountSum (noteValues state.1) + noteValue note.denomination := by
        rw [amountSum_append, single]
        exact Nat.mod_eq_of_lt (by omega)
      have taken : selectNote excessOutput state note = (state.1 ++ [note], state.2) := by
        unfold selectNote
        rw [if_pos]
        rw [appended_sum, next]
        omega
      rw [List.foldl_cons, taken, inductionHypothesis]
      · rw [List.append_assoc, List.singleton_append]
      · simp only
        rw [next]
        omega

/-- A pass takes at most every note, and then the last sum did not exceed. -/
theorem selectNotes_length (excessOutput : Nat)
    (state : List SpendableNote × Option SpendableNote) (notes : List SpendableNote) :
    (notes.foldl (selectNote excessOutput) state).1.length ≤ state.1.length + notes.length ∧
      ((notes.foldl (selectNote excessOutput) state).1.length = state.1.length + notes.length →
        (notes.foldl (selectNote excessOutput) state).1 = state.1 ++ notes ∧
          (notes ≠ [] → amountSum (noteValues (state.1 ++ notes)) ≤ excessOutput)) := by
  induction notes using List.reverseRecOn with
  | nil =>
      refine ⟨le_refl _, fun _ => ⟨(List.append_nil _).symm, fun impossible => ?_⟩⟩
      exact absurd rfl impossible
  | append_singleton notes note inductionHypothesis =>
      obtain ⟨bound, full⟩ := inductionHypothesis
      rw [List.foldl_append, List.foldl_cons, List.foldl_nil]
      generalize notes.foldl (selectNote excessOutput) state = passed at bound full ⊢
      unfold selectNote
      rw [appended_sum]
      split
      · rename_i fits
        simp only [List.length_append, List.length_singleton]
        refine ⟨by omega, fun same => ?_⟩
        obtain ⟨isAll, _⟩ := full (by omega)
        rw [isAll, List.append_assoc] at fits
        rw [isAll, List.append_assoc]
        exact ⟨rfl, fun _ => fits⟩
      · simp only [List.length_append, List.length_singleton]
        exact ⟨by omega, fun same => by omega⟩

/-- The loop skips a single note exactly if its filling leaves one. -/
theorem skipped_once_iff (notes start : List SpendableNote)
    (limit : excessOutput < U64_BOUND)
    (small : amountSum (noteValues start) + totalValue notes < U64_BOUND)
    (short : amountSum (noteValues start) ≤ excessOutput) :
    (∃ note, (notes.foldl (selectNote excessOutput) (start, none)).2 = some note ∧
        (notes.foldl (selectNote excessOutput) (start, none)).1.length + 1 =
          start.length + notes.length) ↔
      Greedy.LeavesOne excessOutput (amountSum (noteValues start)) (noteValues notes) := by
  induction notes generalizing start with
  | nil =>
      constructor
      · rintro ⟨note, impossible, _⟩
        cases impossible
      · exact fun impossible => absurd impossible Greedy.not_leavesOne_nil
  | cons note rest inductionHypothesis =>
      rw [totalValue_cons] at small
      have single : totalValue [note] = noteValue note.denomination := rfl
      have next : amountSum (noteValues (start ++ [note])) =
          amountSum (noteValues start) + noteValue note.denomination := by
        rw [amountSum_append, single]
        exact Nat.mod_eq_of_lt (by omega)
      rw [List.foldl_cons]
      unfold selectNote
      rw [appended_sum]
      change (∃ other, (rest.foldl (selectNote excessOutput) _).2 = some other ∧
        (rest.foldl (selectNote excessOutput) _).1.length + 1 = _) ↔ _
      by_cases fits : amountSum (noteValues (start ++ [note])) ≤ excessOutput
      · rw [if_pos fits, List.length_cons]
        have following := inductionHypothesis (start ++ [note]) (by omega) fits
        rw [List.length_append, List.length_singleton, next] at following
        change _ ↔ Greedy.LeavesOne _ _ (noteValue note.denomination :: noteValues rest)
        rw [Greedy.leavesOne_cons_fits (next ▸ fits), ← following]
        simp only [Nat.add_assoc, Nat.add_comm 1]
      · rw [if_neg fits, List.length_cons]
        rw [next] at fits
        change _ ↔ Greedy.LeavesOne _ _ (noteValue note.denomination :: noteValues rest)
        rw [Greedy.leavesOne_cons_exceeds (not_le.mp fits)]
        obtain ⟨_, full⟩ := selectNotes_length excessOutput (start, some note) rest
        simp only at full ⊢
        constructor
        · rintro ⟨_, _, length⟩
          obtain ⟨_, below⟩ := full (by omega)
          cases rest with
          | nil => exact short
          | cons other others =>
              have sum := below (by simp)
              rw [amountSum_append, Nat.mod_eq_of_lt (by omega)] at sum
              exact sum
        · intro below
          rw [selectNotes_take rest limit below]
          refine ⟨note, rfl, ?_⟩
          simp only [List.length_append]
          omega

theorem noteValue_mono {left right : Denomination} (client : right ∈ clientDenominations)
    (below : left ≤ right) : noteValue left ≤ noteValue right := by
  obtain ⟨_, high⟩ := clientDenominations_bounds client
  unfold noteValue
  rw [Ecash.amount_of_below (below.trans_lt high), Ecash.amount_of_below high]
  exact Nat.sub_le_sub_right (Nat.pow_le_pow_right (by decide) below) _

theorem kept_descending (notes : List SpendableNote) :
    (noteValues (kept notes)).Pairwise (fun left right => right ≤ left) := by
  have descending : clientDenominations.reverse.Pairwise (fun left right => right < left) := by
    decide
  rw [kept_values]
  unfold keptGroups
  rw [List.flatMap_map, List.pairwise_flatMap]
  constructor
  · intro denomination _
    exact List.pairwise_replicate_of_refl
  · refine descending.imp_of_mem ?_
    intro left right inLeft _ below first inFirst second inSecond
    rw [List.eq_of_mem_replicate inFirst, List.eq_of_mem_replicate inSecond]
    exact noteValue_mono (List.mem_reverse.mp inLeft) below.le

theorem kept_small (notes : List SpendableNote) : totalValue (kept notes) < 2 ^ 50 := by
  have length : (kept notes).length ≤ 198 := by
    unfold kept
    rw [List.length_flatMap]
    refine (List.sum_le_card_nsmul _ (2 * TARGET_PER_DENOMINATION) ?_).trans ?_
    · intro number member
      obtain ⟨denomination, _, same⟩ := List.mem_map.mp member
      rw [← same, List.length_take]
      exact min_le_left _ _
    · rw [List.length_map, List.length_reverse]
      decide
  have values : (noteValues (kept notes)).sum ≤ (noteValues (kept notes)).length • 2 ^ 42 := by
    apply List.sum_le_card_nsmul
    intro value member
    obtain ⟨note, inKept, same⟩ := List.mem_map.mp member
    rw [← same]
    exact (Nat.sub_le _ _).trans (amount_bounds (kept_client inKept).2).2.le
  unfold totalValue
  rw [smul_eq_mul] at values
  unfold noteValues at values ⊢
  rw [List.length_map] at values
  omega

/-- One kept note reaches the remainder, and those that do not fall short of it
together. -/
def OneReaches (notes : List SpendableNote) (remainder : Nat) : Prop :=
  0 < remainder ∧ (∃ value ∈ noteValues (kept notes), remainder ≤ value) ∧
    ((noteValues (kept notes)).filter (fun value => value < remainder)).sum < remainder

theorem selects_all_iff {notes : List SpendableNote} (distinct : notes.Nodup)
    (client : ∀ note ∈ notes, note.denomination ∈ clientDenominations) (nonempty : notes ≠ [])
    (covered : excessOutput ≤ maxSpendable notes) :
    (∃ selected, selectFundingInput notes excessOutput = some selected ∧
        selected.length = notes.length) ↔
      amountSum (noteValues (surplus notes)) < excessOutput ∧
        OneReaches notes (maxSpendable notes - excessOutput) := by
  have all := surplus_kept_perm distinct client
  have spendable : maxSpendable notes =
      (amountSum (noteValues (surplus notes)) + totalValue (kept notes)) % U64_BOUND := by
    rw [← amountSum_append, amountSum_eq]
    unfold maxSpendable
    rw [amountSum_eq]
    exact congrArg (· % U64_BOUND) (totalValue_perm all).symm
  have limit := covered.trans_lt (maxSpendable_bound notes)
  have swept : amountSum (noteValues (surplus notes)) < U64_BOUND := by
    rw [amountSum_eq]
    exact Nat.mod_lt _ (by decide)
  have few := kept_small notes
  have bound : U64_BOUND = 2 ^ 64 := rfl
  have length := all.length_eq
  rw [List.length_append] at length
  rw [selectFundingInput_eq]
  by_cases covers : excessOutput ≤ amountSum (noteValues (surplus notes))
  · rw [if_pos covers]
    constructor
    · rintro ⟨selected, same, full⟩
      cases same
      have some := List.length_pos_iff.mpr (kept_nonempty client nonempty)
      omega
    · exact fun both => absurd both.1 (not_lt.mpr covers)
  · rw [if_neg covers]
    have small : amountSum (noteValues (surplus notes)) + totalValue (kept notes) < U64_BOUND := by
      by_contra wraps
      rw [Nat.mod_eq_sub_mod (not_lt.mp wraps), Nat.mod_eq_of_lt (by omega)] at spendable
      omega
    rw [Nat.mod_eq_of_lt small] at spendable
    have once := skipped_once_iff (kept notes) (surplus notes) limit small (not_le.mp covers).le
    rw [Greedy.leavesOne_iff (kept_descending notes)] at once
    change _ ↔ OneReaches notes (amountSum (noteValues (surplus notes)) +
      totalValue (kept notes) - excessOutput) at once
    rw [spendable, and_iff_right (not_le.mp covers), ← once]
    constructor
    · rintro ⟨selected, chosen, full⟩
      obtain ⟨note, last, result⟩ := Option.map_eq_some_iff.mp chosen
      rw [← result, List.length_append, List.length_singleton] at full
      exact ⟨note, last, by omega⟩
    · rintro ⟨note, last, full⟩
      refine ⟨_, Option.map_eq_some_iff.mpr ⟨note, last, rfl⟩, ?_⟩
      rw [List.length_append, List.length_singleton]
      omega

end Skipped

/-! ### Emptying the account -/

/-- The transaction spends the notes of the account and has no output beyond
those of the builder, and the account is left without a note. -/
def Empties (ctx : ClientContext) (tables : Tables) (account : Account) (operation : OperationId)
    (builder : TxBuilder) (event : TransactionId → Event) (ids : MachineIds) : Prop :=
  ∃ txid after tx,
    finalizeAndSubmitTx ctx tables account operation builder [] true event ids =
      .ok (txid, after) ∧
    after.txSubmissionStateMachine.get? ids.submission = some { account, operation, tx } ∧
    tx.inputs.Perm ((tables.accountNotes account).map (fun note => (noteInput ctx note).input)) ∧
    tx.outputs = builder.outputs.map TxOutput.output ∧ after.accountNotes account = []

/-- A max send mints no change below the floor. -/
theorem noChange_iff (excess : Nat) : changeDenoms excess true = [] ↔ excess < 2148 := by
  have sorted : (changeDenoms excess true).Perm _ := List.perm_insertionSort _ _
  rw [← List.length_eq_zero_iff, sorted.length_eq, (change_spec true excess).1]
  unfold changeNumber
  rw [Greedy.coins_eq_zero_iff (by decide)]
  have floor : ∀ cost ∈ (changeDenominations true).reverse.map (fun denomination =>
      denomination.amount + ECASH_OUTPUT_FEE), 2148 ≤ cost := by
    decide
  constructor
  · exact fun below => below 2148 (by decide)
  · exact fun below cost member => below.trans_le (floor cost member)

section Emptied

variable {ctx : ClientContext} {tables : Tables} {account : Account} {operation : OperationId}
  {builder : TxBuilder} {event : TransactionId → Event} {ids : MachineIds}

theorem deficit_wraps (builder : TxBuilder) :
    builder.deficit = builder.outgoing % U64_BOUND - builder.incoming % U64_BOUND := by
  unfold TxBuilder.deficit
  rw [TxBuilder.outgoing_wraps, TxBuilder.inputAmount_eq]

theorem excessInput_wraps (builder : TxBuilder) :
    builder.excessInput = builder.incoming % U64_BOUND - builder.outgoing % U64_BOUND := by
  unfold TxBuilder.excessInput
  rw [TxBuilder.outgoing_wraps, TxBuilder.inputAmount_eq]

theorem allNotes_sums (ctx : ClientContext) (inputs : builder.inputs = [])
    {notes selected : List SpendableNote}
    (same : selected.Perm notes)
    (client : ∀ note ∈ notes, note.denomination ∈ clientDenominations) :
    (builder.addNotes ctx selected).incoming % U64_BOUND =
        (maxSpendable notes + ECASH_INPUT_FEE * notes.length) % U64_BOUND ∧
      (builder.addNotes ctx selected).outgoing % U64_BOUND =
        (builder.deficit + ECASH_INPUT_FEE * notes.length) % U64_BOUND := by
  have nothing : builder.incoming = 0 := by
    unfold TxBuilder.incoming
    rw [inputs]
    rfl
  rw [incoming_addNotes _ _ (fun note member => client note (same.mem_iff.mp member)),
    outgoing_addNotes, deficit_wraps, nothing, totalValue_perm same, same.length_eq, Nat.zero_mod,
    Nat.sub_zero, Nat.zero_add, Nat.mod_add_mod]
  unfold maxSpendable
  rw [amountSum_eq, Nat.mod_add_mod]
  exact ⟨rfl, rfl⟩

/-- The sums of the deficit and of the spendable value with the fees of all
notes differ by less than the change floor. -/
def NearBalance (spendable deficit number : Nat) : Prop :=
  (deficit + ECASH_INPUT_FEE * number) % U64_BOUND ≤
      (spendable + ECASH_INPUT_FEE * number) % U64_BOUND ∧
    (spendable + ECASH_INPUT_FEE * number) % U64_BOUND <
      (deficit + ECASH_INPUT_FEE * number) % U64_BOUND + 2148

theorem selected_all {selected : List SpendableNote} {deficit : Nat}
    (chosen : selectFundingInput (tables.accountNotes account) deficit = some selected)
    (full : selected.length = (tables.accountNotes account).length) :
    selected.Perm (tables.accountNotes account) := by
  obtain ⟨nodup, members⟩ :=
    selectFundingInput_members (Tables.accountNotes_nodup tables account) chosen
  have part : selected.Subperm (tables.accountNotes account) :=
    nodup.subperm (fun note member => (members note member).1)
  exact part.perm_of_length_le full.ge

theorem empties_iff
    (client : ∀ note ∈ tables.accountNotes account, note.denomination ∈ clientDenominations)
    (nonempty : tables.accountNotes account ≠ []) (inputs : builder.inputs = [])
    (outputs : builder.outputs ≠ [])
    (covered : builder.deficit ≤ maxSpendable (tables.accountNotes account))
    (freshSubmission : tables.txSubmissionStateMachine.contains ids.submission = false)
    (freshMachine : tables.ecashStateMachine.contains ids.ecash = false) :
    Empties ctx tables account operation builder event ids ↔
      amountSum (noteValues (surplus (tables.accountNotes account))) < builder.deficit ∧
        OneReaches (tables.accountNotes account)
          (maxSpendable (tables.accountNotes account) - builder.deficit) ∧
        NearBalance (maxSpendable (tables.accountNotes account)) builder.deficit
          (tables.accountNotes account).length := by
  have distinct := Tables.accountNotes_nodup tables account
  rw [← and_assoc, ← selects_all_iff distinct client nonempty covered]
  constructor
  · rintro ⟨txid, after, tx, submitted, machine, spends, noChange, _⟩
    obtain ⟨spendableNotes, requests, balanced, built, done⟩ := finalizeAndSubmitTx_ok submitted
    have funded := done.funded
    obtain ⟨_, _, isInputs, isOutputs, _⟩ := TxBuilder.build_ok done.built
    rw [done.submission.2, SortedMap.get?_insert_self] at machine
    cases machine
    have number := spends.length_eq
    rw [isInputs, funded.inputs, inputs, List.nil_append, List.length_map, List.length_map,
      List.length_map] at number
    have noRequests : requests = [] := by
      have length := congrArg List.length noChange
      rw [isOutputs, funded.outputs, List.length_map, List.length_map, List.length_append,
        List.length_map] at length
      exact List.length_eq_zero_iff.mp (by omega)
    obtain ⟨selected, chosen, same⟩ := funded.selected
    have full := same.length_eq.symm.trans number
    have all := same.trans (selected_all chosen full)
    obtain ⟨isIncoming, isOutgoing⟩ := allNotes_sums ctx inputs all client
    have balance := funded.covered
    have change := funded.change
    rw [funded.inputs] at balance change
    change (builder.addNotes ctx spendableNotes).deficit = 0 at balance
    rw [noRequests] at change
    have none : changeDenoms (builder.addNotes ctx spendableNotes).excessInput true = [] :=
      ((List.perm_insertionSort _ _).trans change.symm).eq_nil
    rw [noChange_iff, excessInput_wraps, isIncoming, isOutgoing] at none
    rw [deficit_wraps, isIncoming, isOutgoing] at balance
    refine ⟨⟨selected, chosen, full⟩, ?_⟩
    unfold NearBalance
    omega
  · rintro ⟨⟨selected, chosen, full⟩, near⟩
    have same := sort_perm selected
    have all := same.trans (selected_all chosen full)
    obtain ⟨isIncoming, isOutgoing⟩ := allNotes_sums ctx inputs all client
    have balance : (builder.addNotes ctx (sortByDenomination selected)).deficit = 0 := by
      rw [deficit_wraps, isIncoming, isOutgoing]
      exact Nat.sub_eq_zero_of_le near.1
    have none : changeDenoms
        (builder.addNotes ctx (sortByDenomination selected)).excessInput true = [] := by
      rw [noChange_iff, excessInput_wraps, isIncoming, isOutgoing]
      exact Nat.sub_lt_left_of_lt_add near.1 near.2
    obtain ⟨removed, spent⟩ := Tables.removeNotes_succeeds tables account
      (all.nodup_iff.mpr distinct) (fun note member => all.mem_iff.mp member)
    have unchanged : (builder.addNotes ctx (sortByDenomination selected)).addChange ctx [] =
        builder.addNotes ctx (sortByDenomination selected) := by
      unfold TxBuilder.addChange
      rw [List.map_nil, List.append_nil]
    have funded : fund ctx tables account builder true = .ok ((sortByDenomination selected, []),
        builder.addNotes ctx (sortByDenomination selected), removed) := by
      refine fund_eq_ok.mpr ⟨selected, removed, chosen, rfl, balance, Or.inr outputs, spent, ?_,
        unchanged.symm, balance⟩
      rw [none]
      rfl
    obtain ⟨txid, after, submitted⟩ : ∃ txid after, finalizeAndSubmitTx ctx tables account
        operation builder [] true event ids = .ok (txid, after) := by
      refine finalizeAndSubmitTx_of_fund funded (Or.inr ?_) freshSubmission freshMachine
      rw [ne_eq, ← List.length_eq_zero_iff, all.length_eq, List.length_eq_zero_iff]
      exact nonempty
    obtain ⟨spendableNotes, requests, balanced, tx, done⟩ := finalizeAndSubmitTx_ok submitted
    obtain ⟨other, isOther, sorted⟩ := done.funded.selected
    cases chosen.symm.trans isOther
    have every := sorted.trans (selected_all chosen full)
    obtain ⟨_, _, isInputs, isOutputs, _⟩ := TxBuilder.build_ok done.built
    have noRequests := done.funded.change
    rw [done.funded.inputs] at noRequests
    change List.Perm _ (selectOutputDenominations _
      (builder.addNotes ctx spendableNotes).excessInput _) at noRequests
    obtain ⟨isIncoming', isOutgoing'⟩ := allNotes_sums ctx inputs every client
    rw [excessInput_wraps, isIncoming', isOutgoing', ← isIncoming, ← isOutgoing,
      ← excessInput_wraps] at noRequests
    have noChange := ((List.perm_insertionSort _ _).symm.trans (List.Perm.of_eq none)).eq_nil
    rw [noChange] at noRequests
    have empty := List.map_eq_nil_iff.mp noRequests.eq_nil
    refine ⟨txid, after, tx, submitted, ?_, ?_, ?_, ?_⟩
    · rw [done.submission.2, SortedMap.get?_insert_self]
    · rw [isInputs, done.funded.inputs, inputs, List.nil_append, List.map_map]
      exact every.map _
    · rw [isOutputs, done.funded.outputs, empty, List.map_nil, List.append_nil]
    · obtain ⟨without, _, _, spentAll, _, rows, _⟩ := done.issued
      have gone := (Tables.removeNotes_ok spentAll).2.2.note
      rw [List.eq_nil_iff_forall_not_mem]
      intro note member
      rw [Tables.mem_accountNotes, rows] at member
      obtain ⟨present, absent⟩ := (gone _).mp member
      exact absent rfl (every.mem_iff.mpr (Tables.mem_accountNotes.mpr present))

theorem fees_le_totalValue {notes : List SpendableNote}
    (client : ∀ note ∈ notes, note.denomination ∈ clientDenominations) :
    ECASH_INPUT_FEE * notes.length ≤ totalValue notes := by
  induction notes with
  | nil => exact Nat.zero_le _
  | cons note rest inductionHypothesis =>
      have low := (amount_bounds (client note List.mem_cons_self)).1
      have face := noteValue_add (client note List.mem_cons_self)
      have others := inductionHypothesis
        (fun other member => client other (List.mem_cons_of_mem note member))
      rw [totalValue_cons, List.length_cons, Nat.mul_succ]
      unfold ECASH_INPUT_FEE at *
      omega

theorem kept_of_surplus {notes : List SpendableNote} (some : surplus notes ≠ []) :
    2148 < totalValue (kept notes) := by
  obtain ⟨note, member⟩ := List.exists_mem_of_ne_nil _ some
  obtain ⟨denomination, client, inDrop⟩ := List.mem_flatMap.mp member
  have long := List.length_pos_of_mem inDrop
  rw [List.length_drop] at long
  have part : ((ofDenomination notes denomination).take (2 * TARGET_PER_DENOMINATION)).Sublist
      (kept notes) := by
    unfold kept
    rw [List.flatMap_def]
    exact List.sublist_flatten_of_mem (List.mem_map.mpr ⟨denomination, client, rfl⟩)
  have value := totalValue_subperm part.subperm
  have low := (amount_bounds (List.mem_reverse.mp client)).1
  have face := noteValue_add (List.mem_reverse.mp client)
  have six : (2 * TARGET_PER_DENOMINATION) * noteValue denomination =
      totalValue ((ofDenomination notes denomination).take (2 * TARGET_PER_DENOMINATION)) := by
    unfold totalValue
    rw [noteValues_same _ denomination (fun note member =>
      (mem_ofDenomination.mp (List.mem_of_mem_take member)).2), List.sum_replicate,
      List.length_take, Nat.min_eq_left (by omega), smul_eq_mul]
  unfold TARGET_PER_DENOMINATION at six
  unfold ECASH_INPUT_FEE at face
  unfold TARGET_PER_DENOMINATION at value
  omega

/-- For an account worth less than the bound, a max send empties it exactly if
one kept note reaches what the amount and its fees leave, and the smaller ones
do not reach it together. -/
theorem max_send_empties_iff
    (client : ∀ note ∈ tables.accountNotes account, note.denomination ∈ clientDenominations)
    (rail : RailFees)
    (nonzero : largestAffordableAmount (tables.accountNotes account) rail.fees ≠ 0)
    (inputs : builder.inputs = []) (outputs : builder.outputs ≠ [])
    (priced : builder.deficit =
      amountAdd (largestAffordableAmount (tables.accountNotes account) rail.fees)
        (rail.fees (largestAffordableAmount (tables.accountNotes account) rail.fees)))
    (freshSubmission : tables.txSubmissionStateMachine.contains ids.submission = false)
    (freshMachine : tables.ecashStateMachine.contains ids.ecash = false) :
    (Empties ctx tables account operation builder event ids ↔
      amountSum (noteValues (surplus (tables.accountNotes account))) < builder.deficit ∧
        OneReaches (tables.accountNotes account)
          (maxSpendable (tables.accountNotes account) - builder.deficit) ∧
        NearBalance (maxSpendable (tables.accountNotes account)) builder.deficit
          (tables.accountNotes account).length) ∧
      (totalValue (tables.accountNotes account) < 2 ^ 61 →
        (Empties ctx tables account operation builder event ids ↔
          OneReaches (tables.accountNotes account)
            (totalValue (tables.accountNotes account) - builder.deficit))) := by
  have covered := (largestAffordableAmount_covered nonzero).2.1
  rw [← priced] at covered
  have nonempty : tables.accountNotes account ≠ [] := by
    intro empty
    have zero : maxSpendable (tables.accountNotes account) = 0 := by
      rw [empty]
      rfl
    obtain ⟨_, _, sat, isAmount, below, _⟩ := largestAffordableAmount_covered nonzero
    rw [zero] at below
    omega
  have general : Empties ctx tables account operation builder event ids ↔ _ :=
    empties_iff client nonempty inputs outputs covered freshSubmission freshMachine
  refine ⟨general, fun small => ?_⟩
  have bound : U64_BOUND = 2 ^ 64 := rfl
  have spendable : maxSpendable (tables.accountNotes account) =
      totalValue (tables.accountNotes account) := by
    unfold maxSpendable
    rw [amountSum_eq]
    exact Nat.mod_eq_of_lt (small.trans (by decide))
  obtain ⟨enough, floor⟩ := remainder_below_floor rail nonzero (spendable ▸ small)
  have fees := fees_le_totalValue client
  have all := totalValue_perm
    (surplus_kept_perm (Tables.accountNotes_nodup tables account) client)
  rw [totalValue_append] at all
  rw [spendable] at general covered enough floor
  unfold amountAdd at priced
  rw [Nat.mod_eq_of_lt (by omega)] at priced
  rw [← priced] at enough floor
  rw [general]
  have near : NearBalance (totalValue (tables.accountNotes account)) builder.deficit
      (tables.accountNotes account).length := by
    unfold NearBalance
    rw [Nat.mod_eq_of_lt (by omega), Nat.mod_eq_of_lt (by omega)]
    omega
  have short : amountSum (noteValues (surplus (tables.accountNotes account))) <
      builder.deficit := by
    rw [amountSum_eq]
    refine (Nat.mod_le _ _).trans_lt ?_
    change totalValue (surplus (tables.accountNotes account)) < _
    by_cases none : surplus (tables.accountNotes account) = []
    · rw [none]
      change 0 < _
      omega
    · have six := kept_of_surplus none
      omega
  exact ⟨fun both => both.2.1, fun reaches => ⟨short, reaches, near⟩⟩

end Emptied

/-! ### The builders of the rails -/

theorem submitSendBuilder_priced {destination : StandardScript} {sat fee : Nat}
    {builder : TxBuilder} (built : submitSendBuilder destination sat fee = .ok builder) :
    builder.inputs = [] ∧ builder.outputs ≠ [] ∧
      builder.deficit = amountAdd (amountFromSat sat)
        ((RailFees.onchain fee).fees (amountFromSat sat)) := by
  unfold submitSendBuilder at built
  simp only [attempt_bind_eq_ok, demand_eq_ok, checkedAdd_eq_some] at built
  obtain ⟨total, ⟨sum, _⟩, result⟩ := built
  cases result
  refine ⟨rfl, List.cons_ne_nil _ _, ?_⟩
  change amountAdd (amountAdd 0 (amountFromSat total)) (amountAdd 0 (amountAdd 0
    ONCHAIN_OUTPUT_FEE)) - 0 = amountAdd (amountFromSat sat) (amountAdd (amountFromSat fee)
      ONCHAIN_OUTPUT_FEE)
  unfold amountAdd amountFromSat ONCHAIN_OUTPUT_FEE fromSat U64_BOUND
  omega

theorem lnurlSendDirectBuilder_priced (claimPk : XOnlyPublicKey) (ephemeralPk amount : Nat) :
    (lnurlSendDirectBuilder claimPk ephemeralPk amount).inputs = [] ∧
      (lnurlSendDirectBuilder claimPk ephemeralPk amount).outputs ≠ [] ∧
      (lnurlSendDirectBuilder claimPk ephemeralPk amount).deficit =
        amountAdd amount (RailFees.direct.fees amount) := by
  refine ⟨rfl, List.cons_ne_nil _ _, ?_⟩
  change amountAdd (amountAdd 0 amount) (amountAdd 0 (amountAdd 0 LIGHTNING_OUTPUT_FEE)) - 0 =
    amountAdd amount LIGHTNING_OUTPUT_FEE
  unfold amountAdd LIGHTNING_OUTPUT_FEE fromSat U64_BOUND
  omega

theorem sendInnerBuilder_priced {fee : PaymentFee}
    (within : fee.isWithin PaymentFee.SEND_FEE_LIMIT) {contract : OutgoingContract}
    (charged : fee.absoluteFee contract.amount = .ok contract.fee) :
    (sendInnerBuilder contract).inputs = [] ∧ (sendInnerBuilder contract).outputs ≠ [] ∧
      (sendInnerBuilder contract).deficit =
        amountAdd contract.amount ((RailFees.gateway fee within).fees contract.amount) := by
  unfold PaymentFee.absoluteFee at charged
  rw [demand_eq_ok, checkedAdd_eq_some] at charged
  refine ⟨rfl, List.cons_ne_nil _ _, ?_⟩
  change amountAdd (amountAdd 0 (amountAdd contract.amount contract.fee))
    (amountAdd 0 (amountAdd 0 LIGHTNING_OUTPUT_FEE)) - 0 = amountAdd contract.amount
      (saturatingMul contract.amount fee.ppm / 1000000 + fee.base + LIGHTNING_OUTPUT_FEE)
  rw [← charged.1]
  unfold amountAdd LIGHTNING_OUTPUT_FEE fromSat U64_BOUND
  omega

/-! An account with eight notes of one denomination among others, and one whose
notes are worth exactly an amount with its fee. -/

def sampleAccount (denominations : List Denomination) : Tables :=
  { Tables.empty with
    note := SortedMap.ofList (denominations.map (fun denomination =>
      (({ account := .primary
          note :=
            { denomination
              keypair := denomination
              signature := 0 } } : NoteKey), ⟨⟩))) }

/-- Notes of any denominations under successive keypairs. -/
def sampleSavings (denominations : List Denomination) : Tables :=
  { Tables.empty with
    note := SortedMap.ofList (denominations.zipIdx.map (fun entry =>
      (({ account := .primary
          note :=
            { denomination := entry.1
              keypair := entry.2
              signature := 0 } } : NoteKey), ⟨⟩))) }

def sampleDenominations : List Denomination := List.replicate 8 10 ++ [9, 12, 13, 13, 20]

/-- Two notes are swept, the kept ones pay the rest of 1,075,000 msat, and the
note that is skipped is less than what is missing. -/
theorem max_send_empties_sample :
    largestAffordableAmount ((sampleSavings sampleDenominations).accountNotes .primary)
        RailFees.direct.fees = 1075000 ∧
      (surplus ((sampleSavings sampleDenominations).accountNotes .primary)).length = 2 ∧
      Empties sampleContext (sampleSavings sampleDenominations) .primary 0
        (lnurlSendDirectBuilder 0 0 1075000) Event.other sampleIds := by
  refine ⟨by decide +kernel, by decide +kernel, ?_⟩
  have condition := (max_send_empties_iff (by decide +kernel) .direct (by decide +kernel) rfl
    (List.cons_ne_nil _ _) (by decide +kernel) rfl rfl :
      (Empties sampleContext (sampleSavings sampleDenominations) .primary 0
        (lnurlSendDirectBuilder 0 0 1075000) Event.other sampleIds ↔ _) ∧ _).2
    (by decide +kernel)
  have reaches : OneReaches ((sampleSavings sampleDenominations).accountNotes .primary)
      (totalValue ((sampleSavings sampleDenominations).accountNotes .primary) -
        (lnurlSendDirectBuilder 0 0 1075000).deficit) := by
    unfold OneReaches
    decide +kernel
  exact condition.mpr reaches

theorem max_send_refused :
    largestAffordableAmount ((sampleAccount [11, 21]).accountNotes .primary)
        RailFees.direct.fees = 2098000 ∧
      finalizeAndSubmitTx sampleContext (sampleAccount [11, 21]) .primary 0
        (lnurlSendDirectBuilder 0 0 2098000) [] true Event.other sampleIds = .error .refused ∧
      ¬Empties sampleContext (sampleAccount [11, 21]) .primary 0
        (lnurlSendDirectBuilder 0 0 2098000) Event.other sampleIds := by
  have missing : selectFundingInput ((sampleAccount [11, 21]).accountNotes .primary)
      (lnurlSendDirectBuilder 0 0 2098000).deficit = none := by
    decide +kernel
  have refused : finalizeAndSubmitTx sampleContext (sampleAccount [11, 21]) .primary 0
      (lnurlSendDirectBuilder 0 0 2098000) [] true Event.other sampleIds = .error .refused := by
    unfold finalizeAndSubmitTx fund
    rw [missing]
    rfl
  refine ⟨by decide +kernel, refused, ?_⟩
  rintro ⟨txid, after, _, submitted, _⟩
  cases refused.symm.trans submitted

end Picomint.Client
