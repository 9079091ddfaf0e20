/-
The choice of the notes a transaction spends and of the change it mints.

How many notes are drawn, and what they are worth, follows from the numbers of
the notes of each denomination alone.
-/

import Picomint.Client.Builder
import Picomint.Lib.Greedy

namespace Picomint.Client

open Consensus

/-! ### Denominations -/

def clientDenominations : List Denomination := List.range' 9 33

def TARGET_PER_DENOMINATION : Nat := 3

/-- A max send skips the two smallest. -/
def changeDenominations (max : Bool) : List Denomination :=
  clientDenominations.drop (if max then 2 else 0)

/-- What a note delivers when spent; every client denomination is worth more
than the fee. -/
def noteValue (denomination : Denomination) : Nat := denomination.amount - ECASH_INPUT_FEE

theorem clientDenominations_bounds {denomination : Denomination}
    (client : denomination ∈ clientDenominations) : 9 ≤ denomination ∧ denomination < 42 :=
  List.mem_range'_1.mp client

theorem amount_bounds {denomination : Denomination} (client : denomination ∈ clientDenominations) :
    512 ≤ denomination.amount ∧ denomination.amount < 2 ^ 42 := by
  obtain ⟨low, high⟩ := clientDenominations_bounds client
  rw [Ecash.amount_of_below high]
  exact ⟨(by decide : 512 ≤ 2 ^ 9).trans (Nat.pow_le_pow_right (by decide) low),
    Nat.pow_lt_pow_right (by decide) high⟩

theorem noteValue_add {denomination : Denomination} (client : denomination ∈ clientDenominations) :
    noteValue denomination + ECASH_INPUT_FEE = denomination.amount := by
  have bounds := amount_bounds client
  unfold noteValue ECASH_INPUT_FEE
  omega

theorem noteValue_bounds {denomination : Denomination}
    (client : denomination ∈ clientDenominations) :
    0 < noteValue denomination ∧ noteValue denomination < U64_BOUND := by
  have bounds := amount_bounds client
  unfold noteValue ECASH_INPUT_FEE U64_BOUND
  omega

/-! ### Selection -/

def ofDenomination (notes : List SpendableNote) (denomination : Denomination) :
    List SpendableNote :=
  notes.filter (fun note => note.denomination = denomination)

def noteValues (notes : List SpendableNote) : List Nat :=
  notes.map (fun note => noteValue note.denomination)

/-- The loop over the denominations: the surplus notes and the kept ones. -/
def sweep (allNotes : List SpendableNote) : List SpendableNote × List SpendableNote :=
  clientDenominations.reverse.foldl
    (fun (state : List SpendableNote × List SpendableNote) denomination =>
      let notes := ofDenomination allNotes denomination
      (state.1 ++ notes.drop (2 * TARGET_PER_DENOMINATION),
        state.2 ++ notes.take (2 * TARGET_PER_DENOMINATION)))
    ([], [])

/-- One kept note: selected if it fits, else the last that did not. -/
def selectNote (excessOutput : Nat) (state : List SpendableNote × Option SpendableNote)
    (note : SpendableNote) : List SpendableNote × Option SpendableNote :=
  if amountAdd (noteValue note.denomination) (amountSum (noteValues state.1)) ≤ excessOutput then
    (state.1 ++ [note], state.2)
  else (state.1, some note)

def selectFundingInput (allNotes : List SpendableNote) (excessOutput : Nat) :
    Option (List SpendableNote) :=
  let (selected, targetNotes) := sweep allNotes
  if excessOutput ≤ amountSum (noteValues selected) then some selected
  else
    let (selected, lastNote) := targetNotes.foldl (selectNote excessOutput) (selected, none)
    lastNote.map (fun note => selected ++ [note])

/-- The inner loop: one output for every time its cost still fits. -/
def outputLoop (cost : Nat) (denomination : Denomination) :
    Nat → Nat × List Denomination → Nat × List Denomination
  | 0, state => state
  | fuel + 1, state =>
      match checkedSub state.1 cost with
      | some remaining =>
          outputLoop cost denomination fuel (remaining, state.2 ++ [denomination])
      | none => state

/-- A cost is positive, so the excess is fuel enough. -/
def selectOutputDenominations (outputFee excessInput : Nat) (denominations : List Denomination) :
    List Denomination :=
  (denominations.reverse.foldl (fun (state : Nat × List Denomination) denomination =>
    outputLoop (amountAdd denomination.amount outputFee) denomination (state.1 + 1) state)
    (excessInput, [])).2

def representAmount (remainingAmount : Nat) : List Denomination :=
  (clientDenominations.reverse.foldl (fun (state : Nat × List Denomination) denomination =>
    let nAdd := state.1 / denomination.amount
    (state.1 - nAdd * denomination.amount, state.2 ++ List.replicate nAdd denomination))
    (remainingAmount, [])).2

/-! ### Numbers of notes -/

def noteCount (notes : List SpendableNote) (denomination : Denomination) : Nat :=
  (ofDenomination notes denomination).length

def sweptNumber (notes : List SpendableNote) : Nat :=
  (clientDenominations.map (fun denomination =>
    noteCount notes denomination - 2 * TARGET_PER_DENOMINATION)).sum

def sweptValue (notes : List SpendableNote) : Nat :=
  (clientDenominations.map (fun denomination =>
    (noteCount notes denomination - 2 * TARGET_PER_DENOMINATION) * noteValue denomination)).sum

def keptGroups (notes : List SpendableNote) : List (Nat × Nat) :=
  clientDenominations.reverse.map (fun denomination =>
    (noteValue denomination, min (2 * TARGET_PER_DENOMINATION) (noteCount notes denomination)))

/-- The number of drawn notes, what they deliver, and the largest sum compared
on the way. -/
structure Draw where
  number : Nat
  value : Nat
  peak : Nat
deriving DecidableEq, Repr

/-- The surplus is always drawn.  If it falls short, of every denomination as
many kept notes as fit into the rest, and the last that does not. -/
def drawn (notes : List SpendableNote) (deficit : Nat) : Option Draw :=
  if deficit ≤ sweptValue notes then
    some
      { number := sweptNumber notes
        value := sweptValue notes
        peak := 0 }
  else
    let filling := Greedy.fillGroups deficit
      { sum := sweptValue notes
        number := sweptNumber notes
        peak := 0
        left := none } (keptGroups notes)
    filling.left.map (fun last =>
      { number := filling.number + 1
        value := last + filling.sum
        peak := filling.peak })

def changeNumber (max : Bool) (excess : Nat) : Nat :=
  Greedy.coins ((changeDenominations max).reverse.map (fun denomination =>
    denomination.amount + ECASH_OUTPUT_FEE)) excess

/-! ### Sweeping -/

theorem foldl_append_both {α β : Type} (items : List α) (first second : α → List β)
    (state : List β × List β) :
    items.foldl (fun (state : List β × List β) item =>
        (state.1 ++ first item, state.2 ++ second item)) state =
      (state.1 ++ items.flatMap first, state.2 ++ items.flatMap second) := by
  induction items generalizing state with
  | nil => simp
  | cons item rest inductionHypothesis =>
      rw [List.foldl_cons, inductionHypothesis, List.flatMap_cons, List.flatMap_cons,
        List.append_assoc, List.append_assoc]

def surplus (notes : List SpendableNote) : List SpendableNote :=
  clientDenominations.reverse.flatMap (fun denomination =>
    (ofDenomination notes denomination).drop (2 * TARGET_PER_DENOMINATION))

def kept (notes : List SpendableNote) : List SpendableNote :=
  clientDenominations.reverse.flatMap (fun denomination =>
    (ofDenomination notes denomination).take (2 * TARGET_PER_DENOMINATION))

theorem sweep_eq (notes : List SpendableNote) : sweep notes = (surplus notes, kept notes) := by
  unfold sweep
  rw [foldl_append_both]
  rfl

theorem mem_ofDenomination {notes : List SpendableNote} {denomination : Denomination}
    {note : SpendableNote} :
    note ∈ ofDenomination notes denomination ↔
      note ∈ notes ∧ note.denomination = denomination := by
  unfold ofDenomination
  rw [List.mem_filter, decide_eq_true_eq]

theorem noteValues_same (notes : List SpendableNote) (denomination : Denomination)
    (same : ∀ note ∈ notes, note.denomination = denomination) :
    noteValues notes = List.replicate notes.length (noteValue denomination) := by
  unfold noteValues
  rw [List.eq_replicate_iff, List.length_map]
  refine ⟨rfl, ?_⟩
  intro value member
  obtain ⟨note, inNotes, isValue⟩ := List.mem_map.mp member
  rw [← isValue, same note inNotes]

theorem noteValues_append (first second : List SpendableNote) :
    noteValues (first ++ second) = noteValues first ++ noteValues second :=
  List.map_append

theorem surplus_length (notes : List SpendableNote) :
    (surplus notes).length = sweptNumber notes := by
  unfold surplus sweptNumber noteCount
  rw [List.length_flatMap, List.map_reverse, List.sum_reverse]
  simp only [List.length_drop]

theorem surplus_value (notes : List SpendableNote) :
    (noteValues (surplus notes)).sum = sweptValue notes := by
  unfold surplus sweptValue noteCount noteValues
  rw [List.map_flatMap, List.flatMap_def, List.sum_flatten, List.map_map, List.map_reverse,
    List.sum_reverse]
  congr 1
  apply List.map_congr_left
  intro denomination _
  have values : noteValues ((ofDenomination notes denomination).drop
      (2 * TARGET_PER_DENOMINATION)) =
        List.replicate ((ofDenomination notes denomination).length - 2 * TARGET_PER_DENOMINATION)
          (noteValue denomination) := by
    rw [noteValues_same _ denomination (fun note member =>
      (mem_ofDenomination.mp (List.mem_of_mem_drop member)).2), List.length_drop]
  unfold noteValues at values
  rw [Function.comp_apply, values, List.sum_replicate, smul_eq_mul]

theorem kept_values (notes : List SpendableNote) :
    noteValues (kept notes) =
      (keptGroups notes).flatMap (fun group => List.replicate group.2 group.1) := by
  unfold kept keptGroups noteCount
  rw [List.flatMap_map]
  conv_lhs => rw [noteValues, List.map_flatMap]
  apply List.flatMap_congr
  intro denomination _
  have values := noteValues_same
    ((ofDenomination notes denomination).take (2 * TARGET_PER_DENOMINATION)) denomination
    (fun note member => (mem_ofDenomination.mp (List.mem_of_mem_take member)).2)
  rw [List.length_take] at values
  exact values

theorem keptGroups_positive (notes : List SpendableNote) :
    ∀ group ∈ keptGroups notes, 0 < group.1 := by
  intro group member
  unfold keptGroups at member
  obtain ⟨denomination, client, same⟩ := List.mem_map.mp member
  rw [← same]
  exact (noteValue_bounds (List.mem_reverse.mp client)).1

theorem kept_client {notes : List SpendableNote} {note : SpendableNote}
    (member : note ∈ kept notes) : note ∈ notes ∧ note.denomination ∈ clientDenominations := by
  unfold kept at member
  obtain ⟨denomination, client, inTaken⟩ := List.mem_flatMap.mp member
  obtain ⟨inNotes, same⟩ := mem_ofDenomination.mp (List.mem_of_mem_take inTaken)
  exact ⟨inNotes, same ▸ List.mem_reverse.mp client⟩

theorem surplus_client {notes : List SpendableNote} {note : SpendableNote}
    (member : note ∈ surplus notes) : note ∈ notes ∧ note.denomination ∈ clientDenominations := by
  unfold surplus at member
  obtain ⟨denomination, client, inTaken⟩ := List.mem_flatMap.mp member
  obtain ⟨inNotes, same⟩ := mem_ofDenomination.mp (List.mem_of_mem_drop inTaken)
  exact ⟨inNotes, same ▸ List.mem_reverse.mp client⟩

/-! ### The fill -/

def fillingOf (state : List SpendableNote × Option SpendableNote) (peak : Nat) : Greedy.Filling :=
  { sum := (noteValues state.1).sum
    number := state.1.length
    peak
    left := state.2.map (fun note => noteValue note.denomination) }

variable {excessOutput : Nat} {state : List SpendableNote × Option SpendableNote}

/-- Without a wrap a step of the loop is a step of the fill. -/
theorem selectNote_fit (excessOutput peak : Nat) {note : SpendableNote}
    (exact_ : noteValue note.denomination + (noteValues state.1).sum < U64_BOUND) :
    ∃ peak', fillingOf (selectNote excessOutput state note) peak' =
      Greedy.fit excessOutput (fillingOf state peak) (noteValue note.denomination) := by
  have sum : amountAdd (noteValue note.denomination) (amountSum (noteValues state.1)) =
      noteValue note.denomination + (noteValues state.1).sum := by
    rw [amountSum_eq, Nat.mod_eq_of_lt (by omega)]
    exact Nat.mod_eq_of_lt exact_
  unfold selectNote Greedy.fit
  rw [sum]
  by_cases fits : noteValue note.denomination + (noteValues state.1).sum ≤ excessOutput
  · refine ⟨max peak (noteValue note.denomination + (noteValues state.1).sum), ?_⟩
    rw [if_pos fits, if_pos (show _ + (fillingOf state peak).sum ≤ _ from fits)]
    simp only [fillingOf, noteValues, List.map_append, List.sum_append, List.length_append,
      List.map_singleton, List.sum_singleton, List.length_singleton, Greedy.Filling.mk.injEq,
      and_true]
    exact Nat.add_comm _ _
  · refine ⟨max peak (noteValue note.denomination + (noteValues state.1).sum), ?_⟩
    rw [if_neg fits, if_neg (show ¬_ + (fillingOf state peak).sum ≤ _ from fits)]
    rfl

theorem selectNote_grows (note : SpendableNote) :
    (noteValues state.1).sum ≤ (noteValues (selectNote excessOutput state note).1).sum := by
  unfold selectNote
  split
  · rw [noteValues_append, List.sum_append]
    exact Nat.le_add_right _ _
  · exact le_refl _

theorem selectNotes_grow (notes : List SpendableNote) :
    (noteValues state.1).sum ≤
      (noteValues (notes.foldl (selectNote excessOutput) state).1).sum := by
  induction notes generalizing state with
  | nil => exact le_refl _
  | cons note rest inductionHypothesis =>
      rw [List.foldl_cons]
      exact (selectNote_grows note).trans inductionHypothesis

theorem selectNote_wraps {note : SpendableNote} (below : (noteValues state.1).sum ≤ excessOutput)
    (limit : excessOutput < U64_BOUND) (single : noteValue note.denomination < U64_BOUND)
    (wraps : U64_BOUND ≤ noteValue note.denomination + (noteValues state.1).sum) :
    U64_BOUND ≤ (noteValues (selectNote excessOutput state note).1).sum := by
  have sum : amountAdd (noteValue note.denomination) (amountSum (noteValues state.1)) ≤
      excessOutput := by
    rw [amountSum_eq, Nat.mod_eq_of_lt (by omega)]
    unfold amountAdd
    rw [Nat.mod_eq_sub_mod wraps, Nat.mod_eq_of_lt (by omega)]
    omega
  unfold selectNote
  rw [if_pos sum, noteValues_append, List.sum_append]
  simp only [noteValues, List.map_singleton, List.sum_singleton]
  unfold noteValues at wraps
  omega

/-- The loop is the fill if no sum of the fill wraps. -/
theorem selectNotes_fill (notes : List SpendableNote) {peak : Nat}
    (small : (Greedy.fill excessOutput (fillingOf state peak) (noteValues notes)).peak <
      U64_BOUND) :
    ∃ peak', fillingOf (notes.foldl (selectNote excessOutput) state) peak' =
      Greedy.fill excessOutput (fillingOf state peak) (noteValues notes) := by
  induction notes generalizing state peak with
  | nil => exact ⟨peak, rfl⟩
  | cons note rest inductionHypothesis =>
      have later : (Greedy.fit excessOutput (fillingOf state peak)
          (noteValue note.denomination)).peak < U64_BOUND :=
        (Greedy.fill_peak _).trans_lt small
      have exact_ : noteValue note.denomination + (noteValues state.1).sum < U64_BOUND := by
        refine lt_of_le_of_lt ?_ later
        unfold Greedy.fit
        split
        · exact le_max_right _ _
        · exact le_max_right _ _
      obtain ⟨peak', stepped⟩ := selectNote_fit excessOutput peak exact_
      change ∃ last, fillingOf (rest.foldl _ _) last = Greedy.fill excessOutput
        (Greedy.fit excessOutput (fillingOf state peak) (noteValue note.denomination))
          (noteValues rest)
      rw [← stepped]
      apply inductionHypothesis
      rw [stepped]
      exact small

/-- If a sum of the fill wraps, the loop ends with at least the bound. -/
theorem selectNotes_wrap (notes : List SpendableNote) {peak : Nat}
    (client : ∀ note ∈ notes, noteValue note.denomination < U64_BOUND)
    (below : (noteValues state.1).sum ≤ excessOutput) (limit : excessOutput < U64_BOUND)
    (small : peak < U64_BOUND)
    (large : U64_BOUND ≤
      (Greedy.fill excessOutput (fillingOf state peak) (noteValues notes)).peak) :
    U64_BOUND ≤ (noteValues (notes.foldl (selectNote excessOutput) state).1).sum := by
  induction notes generalizing state peak with
  | nil => exact absurd large (not_le.mpr small)
  | cons note rest inductionHypothesis =>
      rw [List.foldl_cons]
      by_cases wraps : U64_BOUND ≤ noteValue note.denomination + (noteValues state.1).sum
      · exact (selectNote_wraps below limit (client note List.mem_cons_self) wraps).trans
          (selectNotes_grow rest)
      · obtain ⟨peak', stepped⟩ := selectNote_fit excessOutput peak (not_le.mp wraps)
        have belowNext : (noteValues (selectNote excessOutput state note).1).sum ≤
            excessOutput := by
          have fits : (Greedy.fit excessOutput (fillingOf state peak)
              (noteValue note.denomination)).sum ≤ excessOutput := Greedy.fit_below below _
          rw [← stepped] at fits
          exact fits
        have smallNext : peak' < U64_BOUND := by
          have same : peak' = (Greedy.fit excessOutput (fillingOf state peak)
              (noteValue note.denomination)).peak := by
            rw [← stepped]
            rfl
          rw [same]
          unfold Greedy.fit
          split
          · exact max_lt small (not_le.mp wraps)
          · exact max_lt small (not_le.mp wraps)
        apply inductionHypothesis (fun other member => client other
          (List.mem_cons_of_mem note member)) belowNext smallNext
        rw [stepped]
        exact large

/-! ### What is drawn -/

theorem fillingOf_start (notes : List SpendableNote) :
    fillingOf (surplus notes, none) 0 =
      { sum := sweptValue notes
        number := sweptNumber notes
        peak := 0
        left := none } := by
  unfold fillingOf
  rw [surplus_value, surplus_length]
  rfl

theorem fill_kept (notes : List SpendableNote) (short : sweptValue notes ≤ excessOutput) :
    Greedy.fill excessOutput (fillingOf (surplus notes, none) 0) (noteValues (kept notes)) =
      Greedy.fillGroups excessOutput
        { sum := sweptValue notes
          number := sweptNumber notes
          peak := 0
          left := none } (keptGroups notes) := by
  rw [kept_values, fillingOf_start]
  apply Greedy.fill_groups
  · exact short
  · exact keptGroups_positive notes

theorem kept_single {notes : List SpendableNote} :
    ∀ note ∈ kept notes, noteValue note.denomination < U64_BOUND :=
  fun _ member => (noteValue_bounds (kept_client member).2).2

theorem selectFundingInput_eq (notes : List SpendableNote) (excessOutput : Nat) :
    selectFundingInput notes excessOutput =
      if excessOutput ≤ amountSum (noteValues (surplus notes)) then some (surplus notes)
      else ((kept notes).foldl (selectNote excessOutput) (surplus notes, none)).2.map
        (fun note =>
          ((kept notes).foldl (selectNote excessOutput) (surplus notes, none)).1 ++ [note]) := by
  unfold selectFundingInput
  rw [sweep_eq]

theorem appended_value (selected : List SpendableNote) (note : SpendableNote) :
    (noteValues (selected ++ [note])).sum =
      noteValue note.denomination + (noteValues selected).sum := by
  rw [noteValues_append, List.sum_append, Nat.add_comm]
  rfl

/-- What a selection is worth without a wrap is what the numbers of the notes
say. -/
theorem selectFundingInput_drawn {notes selected : List SpendableNote}
    (limit : excessOutput < U64_BOUND)
    (chosen : selectFundingInput notes excessOutput = some selected)
    (small : (noteValues selected).sum < U64_BOUND) :
    ∃ draw, drawn notes excessOutput = some draw ∧ draw.peak < U64_BOUND ∧
      draw.number = selected.length ∧ draw.value = (noteValues selected).sum := by
  rw [selectFundingInput_eq] at chosen
  by_cases covers : excessOutput ≤ amountSum (noteValues (surplus notes))
  · rw [if_pos covers, Option.some.injEq] at chosen
    rw [← chosen] at small ⊢
    rw [amountSum_eq, Nat.mod_eq_of_lt small, surplus_value] at covers
    exact ⟨_, if_pos covers, Nat.two_pow_pos 64, (surplus_length notes).symm,
      (surplus_value notes).symm⟩
  · rw [if_neg covers, Option.map_eq_some_iff] at chosen
    obtain ⟨note, last, result⟩ := chosen
    rw [← result, appended_value] at small
    have before : (noteValues ((kept notes).foldl (selectNote excessOutput)
        (surplus notes, none)).1).sum < U64_BOUND :=
      (Nat.le_add_left _ _).trans_lt small
    have swept : (noteValues (surplus notes)).sum < U64_BOUND :=
      (selectNotes_grow (kept notes)).trans_lt before
    rw [amountSum_eq, Nat.mod_eq_of_lt swept, surplus_value] at covers
    have short : sweptValue notes ≤ excessOutput := (not_le.mp covers).le
    have fit : (Greedy.fill excessOutput (fillingOf (surplus notes, none) 0)
        (noteValues (kept notes))).peak < U64_BOUND := by
      by_contra large
      have wraps := selectNotes_wrap (kept notes) kept_single
        ((surplus_value notes).trans_le short) limit (Nat.two_pow_pos 64) (not_lt.mp large)
      exact absurd before (not_lt.mpr wraps)
    obtain ⟨peak, filled⟩ := selectNotes_fill (kept notes) fit
    rw [fill_kept notes short] at filled fit
    unfold drawn
    rw [if_neg covers, ← filled]
    rw [← filled] at fit
    refine ⟨_, congrArg (Option.map _) (congrArg (Option.map _) last), fit, ?_, ?_⟩
    · rw [← result, List.length_append]
      rfl
    · rw [← result, appended_value]
      rfl

theorem drawn_selectFundingInput {notes selected : List SpendableNote}
    (chosen : selectFundingInput notes excessOutput = some selected) {draw : Draw}
    (predicted : drawn notes excessOutput = some draw) (peak : draw.peak < U64_BOUND)
    (value : draw.value < U64_BOUND) :
    draw.number = selected.length ∧ draw.value = (noteValues selected).sum := by
  rw [selectFundingInput_eq] at chosen
  unfold drawn at predicted
  by_cases covers : excessOutput ≤ sweptValue notes
  · rw [if_pos covers, Option.some.injEq] at predicted
    rw [← predicted] at value ⊢
    have swept : amountSum (noteValues (surplus notes)) = sweptValue notes := by
      rw [amountSum_eq, surplus_value]
      exact Nat.mod_eq_of_lt value
    rw [swept, if_pos covers, Option.some.injEq] at chosen
    rw [← chosen]
    exact ⟨(surplus_length notes).symm, (surplus_value notes).symm⟩
  · rw [if_neg covers] at predicted
    have short : sweptValue notes ≤ excessOutput := (not_le.mp covers).le
    rw [← fill_kept notes short] at predicted
    have grown : (fillingOf (surplus notes, none) 0).sum ≤
        (Greedy.fill excessOutput (fillingOf (surplus notes, none) 0)
          (noteValues (kept notes))).sum := Greedy.fill_sum _
    obtain ⟨last, left, result⟩ := Option.map_eq_some_iff.mp predicted
    rw [← result] at peak value ⊢
    obtain ⟨peak', filled⟩ := selectNotes_fill (kept notes) peak
    have swept : amountSum (noteValues (surplus notes)) = sweptValue notes := by
      rw [amountSum_eq, surplus_value]
      apply Nat.mod_eq_of_lt
      rw [← surplus_value]
      exact (grown.trans (Nat.le_add_left _ _)).trans_lt value
    rw [swept, if_neg covers, Option.map_eq_some_iff] at chosen
    obtain ⟨note, isLast, selection⟩ := chosen
    rw [← filled] at left ⊢
    have same : noteValue note.denomination = last := by
      have leftValue : (fillingOf ((kept notes).foldl (selectNote excessOutput)
          (surplus notes, none)) peak').left = some (noteValue note.denomination) :=
        congrArg (Option.map _) isLast
      exact Option.some.inj (leftValue.symm.trans left)
    rw [← selection, appended_value, same, List.length_append]
    exact ⟨rfl, rfl⟩

theorem drawn_of_selected {notes selected : List SpendableNote}
    (limit : excessOutput < U64_BOUND)
    (chosen : selectFundingInput notes excessOutput = some selected) :
    ∃ draw, drawn notes excessOutput = some draw := by
  unfold drawn
  by_cases covers : excessOutput ≤ sweptValue notes
  · exact ⟨_, if_pos covers⟩
  · rw [if_neg covers, ← Option.isSome_iff_exists, Option.isSome_map]
    have short : sweptValue notes ≤ excessOutput := (not_le.mp covers).le
    by_contra missing
    rw [Option.isSome_iff_ne_none, not_not, ← fill_kept notes short] at missing
    have peak := Greedy.fill_within (Nat.zero_le excessOutput) missing
    obtain ⟨peak', filled⟩ := selectNotes_fill (kept notes) (peak.trans_lt limit)
    have swept : amountSum (noteValues (surplus notes)) = sweptValue notes := by
      rw [amountSum_eq, surplus_value]
      exact Nat.mod_eq_of_lt (short.trans_lt limit)
    rw [selectFundingInput_eq, swept, if_neg covers, Option.map_eq_some_iff] at chosen
    obtain ⟨note, isLast, _⟩ := chosen
    rw [← filled] at missing
    have leftValue : (fillingOf ((kept notes).foldl (selectNote excessOutput)
        (surplus notes, none)) peak').left = some (noteValue note.denomination) :=
      congrArg (Option.map _) isLast
    cases missing.symm.trans leftValue

/-! ### Change -/

theorem outputLoop_eq {cost : Nat} (positive : 0 < cost) (denomination : Denomination) :
    ∀ (fuel : Nat) (state : Nat × List Denomination), state.1 < fuel →
      outputLoop cost denomination fuel state =
        (state.1 % cost, state.2 ++ List.replicate (state.1 / cost) denomination) := by
  intro fuel
  induction fuel with
  | zero =>
      intro state below
      omega
  | succ fuel inductionHypothesis =>
      intro state below
      rw [outputLoop]
      unfold checkedSub
      by_cases fits : cost ≤ state.1
      · rw [if_pos fits]
        simp only
        rw [inductionHypothesis _ (by simp only; omega)]
        simp only [List.append_assoc]
        have quotient : state.1 / cost = (state.1 - cost) / cost + 1 :=
          (Nat.div_eq_sub_div positive fits)
        rw [quotient, List.replicate_succ, List.singleton_append, Nat.mod_eq_sub_mod fits]
      · rw [if_neg fits]
        simp only
        rw [Nat.mod_eq_of_lt (not_le.mp fits), Nat.div_eq_of_lt (not_le.mp fits),
          List.replicate_zero, List.append_nil]

/-- The outputs for the remaining denominations, after those already chosen. -/
theorem outputDenominations_spec (outputFee : Nat) (denominations : List Denomination)
    (positive : ∀ denomination ∈ denominations, 0 < amountAdd denomination.amount outputFee)
    (state : Nat × List Denomination) :
    let result := denominations.foldl (fun (state : Nat × List Denomination) denomination =>
      outputLoop (amountAdd denomination.amount outputFee) denomination (state.1 + 1) state) state
    result.2.length = state.2.length + Greedy.coins (denominations.map (fun denomination =>
        amountAdd denomination.amount outputFee)) state.1 ∧
      (∀ denomination ∈ result.2, denomination ∈ state.2 ∨ denomination ∈ denominations) ∧
      (result.2.map (fun denomination => amountAdd denomination.amount outputFee)).sum + result.1 =
        (state.2.map (fun denomination => amountAdd denomination.amount outputFee)).sum +
          state.1 := by
  induction denominations generalizing state with
  | nil => exact ⟨rfl, fun _ member => Or.inl member, rfl⟩
  | cons denomination rest inductionHypothesis =>
      have cost := positive denomination List.mem_cons_self
      simp only [List.foldl_cons]
      rw [outputLoop_eq cost denomination _ state (Nat.lt_succ_self _)]
      obtain ⟨length, members, total⟩ := inductionHypothesis
        (fun other member => positive other (List.mem_cons_of_mem denomination member))
        (state.1 % amountAdd denomination.amount outputFee, state.2 ++ List.replicate
          (state.1 / amountAdd denomination.amount outputFee) denomination)
      refine ⟨?_, ?_, ?_⟩
      · rw [length, List.length_append, List.length_replicate, List.map_cons]
        exact Nat.add_assoc _ _ _
      · intro other member
        rcases members other member with before | later
        · rcases List.mem_append.mp before with earlier | new
          · exact Or.inl earlier
          · exact Or.inr (List.eq_of_mem_replicate new ▸ List.mem_cons_self)
        · exact Or.inr (List.mem_cons_of_mem denomination later)
      · rw [total, List.map_append, List.sum_append, List.map_replicate, List.sum_replicate,
          smul_eq_mul]
        have divided := Nat.div_add_mod' state.1 (amountAdd denomination.amount outputFee)
        simp only
        omega

theorem mem_changeDenominations {max : Bool} {denomination : Denomination}
    (member : denomination ∈ changeDenominations max) : denomination ∈ clientDenominations :=
  List.mem_of_mem_drop member

theorem change_cost {denomination : Denomination} (client : denomination ∈ clientDenominations) :
    amountAdd denomination.amount ECASH_OUTPUT_FEE = denomination.amount + ECASH_OUTPUT_FEE := by
  have bounds := amount_bounds client
  unfold amountAdd ECASH_OUTPUT_FEE U64_BOUND
  omega

/-- The change of an excess: its number, its denominations, and that it costs
no more than the excess. -/
theorem change_spec (max : Bool) (excess : Nat) :
    let change := selectOutputDenominations ECASH_OUTPUT_FEE excess (changeDenominations max)
    change.length = changeNumber max excess ∧
      (∀ denomination ∈ change, denomination ∈ clientDenominations) ∧
      (change.map (fun denomination => denomination.amount + ECASH_OUTPUT_FEE)).sum ≤ excess := by
  have client : ∀ denomination ∈ (changeDenominations max).reverse,
      denomination ∈ clientDenominations :=
    fun denomination member => mem_changeDenominations (List.mem_reverse.mp member)
  obtain ⟨length, members, total⟩ := outputDenominations_spec ECASH_OUTPUT_FEE
    (changeDenominations max).reverse (fun denomination member => by
      rw [change_cost (client denomination member)]
      exact Nat.add_pos_right _ (by decide)) (excess, [])
  have members' : ∀ denomination ∈
      selectOutputDenominations ECASH_OUTPUT_FEE excess (changeDenominations max),
        denomination ∈ clientDenominations := by
    intro denomination member
    exact client denomination ((members denomination member).resolve_left (List.not_mem_nil))
  refine ⟨?_, members', ?_⟩
  · unfold selectOutputDenominations changeNumber
    rw [length, List.length_nil, Nat.zero_add]
    congr 1
    apply List.map_congr_left
    intro denomination member
    exact change_cost (client denomination member)
  · have costs : (selectOutputDenominations ECASH_OUTPUT_FEE excess
        (changeDenominations max)).map (fun denomination =>
          amountAdd denomination.amount ECASH_OUTPUT_FEE) =
        (selectOutputDenominations ECASH_OUTPUT_FEE excess (changeDenominations max)).map
          (fun denomination => denomination.amount + ECASH_OUTPUT_FEE) := by
      apply List.map_congr_left
      intro denomination member
      exact change_cost (members' denomination member)
    rw [← costs]
    unfold selectOutputDenominations
    rw [List.map_nil, List.sum_nil, Nat.zero_add] at total
    exact (Nat.le_add_right _ _).trans_eq total

end Picomint.Client
