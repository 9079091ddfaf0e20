/-
When the selection finds enough notes.

The selection gives none exactly if the surplus falls short and every kept note
fits.  Without a wrap that is a deficit of at least what the notes deliver:
for a deficit of exactly that much no note is left to be the last one.
-/

import Picomint.Client.Selection

namespace Picomint.Client

open Consensus

variable {notes selected : List SpendableNote} {excessOutput : Nat}

/-! ### The account's notes, surplus and kept -/

theorem ofDenomination_nodup (distinct : notes.Nodup) (denomination : Denomination) :
    (ofDenomination notes denomination).Nodup :=
  distinct.filter _

theorem clientDenominations_nodup : clientDenominations.reverse.Nodup :=
  List.nodup_reverse.mpr List.nodup_range'

theorem flatMap_denominations_nodup (distinct : notes.Nodup)
    (part : List SpendableNote → List SpendableNote)
    (sublist : ∀ list, (part list).Sublist list) :
    (clientDenominations.reverse.flatMap (fun denomination =>
      part (ofDenomination notes denomination))).Nodup := by
  rw [List.nodup_flatMap]
  refine ⟨fun denomination _ =>
    (ofDenomination_nodup distinct denomination).sublist (sublist _), ?_⟩
  refine clientDenominations_nodup.imp ?_
  intro left right different note inLeft inRight
  have leftIs := (mem_ofDenomination.mp ((sublist _).subset inLeft)).2
  have rightIs := (mem_ofDenomination.mp ((sublist _).subset inRight)).2
  exact different (leftIs.symm.trans rightIs)

theorem surplus_nodup (distinct : notes.Nodup) : (surplus notes).Nodup :=
  flatMap_denominations_nodup distinct _ (fun list => List.drop_sublist _ list)

theorem kept_nodup (distinct : notes.Nodup) : (kept notes).Nodup :=
  flatMap_denominations_nodup distinct _ (fun list => List.take_sublist _ list)

theorem surplus_kept_nodup (distinct : notes.Nodup) : (surplus notes ++ kept notes).Nodup := by
  refine List.nodup_append'.mpr ⟨surplus_nodup distinct, kept_nodup distinct, ?_⟩
  intro note inSurplus inKept
  unfold surplus at inSurplus
  unfold kept at inKept
  obtain ⟨left, _, dropped⟩ := List.mem_flatMap.mp inSurplus
  obtain ⟨right, _, taken⟩ := List.mem_flatMap.mp inKept
  have leftIs := (mem_ofDenomination.mp (List.mem_of_mem_drop dropped)).2
  have rightIs := (mem_ofDenomination.mp (List.mem_of_mem_take taken)).2
  rw [← leftIs] at dropped
  rw [← rightIs] at taken
  exact List.disjoint_take_drop (ofDenomination_nodup distinct note.denomination) (le_refl _)
    taken dropped

theorem mem_surplus_kept (client : ∀ note ∈ notes, note.denomination ∈ clientDenominations)
    (note : SpendableNote) : note ∈ surplus notes ++ kept notes ↔ note ∈ notes := by
  constructor
  · intro member
    rcases List.mem_append.mp member with inSurplus | inKept
    · exact (surplus_client inSurplus).1
    · exact (kept_client inKept).1
  · intro member
    have inGroup : note ∈ (ofDenomination notes note.denomination).take
          (2 * TARGET_PER_DENOMINATION) ++
        (ofDenomination notes note.denomination).drop (2 * TARGET_PER_DENOMINATION) := by
      rw [List.take_append_drop]
      exact mem_ofDenomination.mpr ⟨member, rfl⟩
    have denomination := List.mem_reverse.mpr (client note member)
    rcases List.mem_append.mp inGroup with taken | dropped
    · exact List.mem_append.mpr (Or.inr (List.mem_flatMap.mpr ⟨_, denomination, taken⟩))
    · exact List.mem_append.mpr (Or.inl (List.mem_flatMap.mpr ⟨_, denomination, dropped⟩))

theorem surplus_kept_perm (distinct : notes.Nodup)
    (client : ∀ note ∈ notes, note.denomination ∈ clientDenominations) :
    (surplus notes ++ kept notes).Perm notes :=
  (List.perm_ext_iff_of_nodup (surplus_kept_nodup distinct) distinct).mpr
    (mem_surplus_kept client)

def totalValue (notes : List SpendableNote) : Nat := (noteValues notes).sum

theorem totalValue_perm {left right : List SpendableNote} (same : left.Perm right) :
    totalValue left = totalValue right :=
  (same.map _).sum_eq

theorem totalValue_append (left right : List SpendableNote) :
    totalValue (left ++ right) = totalValue left + totalValue right := by
  unfold totalValue
  rw [noteValues_append, List.sum_append]

/-! ### One pass over the kept notes -/

/-- The kept notes passed so far are those taken and those left, and the last
one left exceeds the deficit together with what is selected. -/
structure Passed (excessOutput : Nat) (start processed : List SpendableNote)
    (state : List SpendableNote × Option SpendableNote) : Prop where
  parts : ∃ taken left, state.1 = start ++ taken ∧ state.2 = left.getLast? ∧
    (taken ++ left).Perm processed
  covers : ∀ note, state.2 = some note →
    excessOutput < noteValue note.denomination + totalValue state.1

theorem amountAdd_sum (value : Nat) (selected : List SpendableNote) :
    amountAdd value (amountSum (noteValues selected)) =
      (value + totalValue selected) % U64_BOUND := by
  unfold amountAdd totalValue
  rw [amountSum_eq, Nat.add_mod_mod]

theorem Passed.step {start processed : List SpendableNote}
    {state : List SpendableNote × Option SpendableNote}
    (passed : Passed excessOutput start processed state) (note : SpendableNote) :
    Passed excessOutput start (processed ++ [note]) (selectNote excessOutput state note) := by
  obtain ⟨taken, left, isTaken, isLast, parts⟩ := passed.parts
  unfold selectNote
  split
  · constructor
    · refine ⟨taken ++ [note], left, ?_, isLast, ?_⟩
      · rw [isTaken, List.append_assoc]
      · rw [List.append_assoc]
        exact (List.perm_append_comm.append_left taken).trans
          (by rw [← List.append_assoc]; exact parts.append_right [note])
    · intro last isSome
      have before := passed.covers last isSome
      rw [totalValue_append]
      omega
  · rename_i exceeds
    constructor
    · refine ⟨taken, left ++ [note], isTaken, ?_, ?_⟩
      · rw [List.getLast?_concat]
      · rw [← List.append_assoc]
        exact parts.append_right [note]
    · intro last isSome
      cases isSome
      rw [amountAdd_sum] at exceeds
      exact (not_le.mp exceeds).trans_le (Nat.mod_le _ _)

theorem passed_all (start : List SpendableNote) (processed : List SpendableNote) :
    Passed excessOutput start processed
      (processed.foldl (selectNote excessOutput) (start, none)) := by
  induction processed using List.reverseRecOn with
  | nil =>
      refine ⟨⟨[], [], (List.append_nil _).symm, rfl, List.Perm.refl _⟩, ?_⟩
      intro note impossible
      cases impossible
  | append_singleton processed note inductionHypothesis =>
      rw [List.foldl_append]
      exact inductionHypothesis.step note

theorem appended_sum (selected : List SpendableNote) (note : SpendableNote) :
    amountAdd (noteValue note.denomination) (amountSum (noteValues selected)) =
      amountSum (noteValues (selected ++ [note])) := by
  rw [amountAdd_sum, amountSum_eq, appended_value]
  rfl

/-- A step leaves no note if it takes its own and none was left before. -/
theorem selectNote_none_iff (state : List SpendableNote × Option SpendableNote)
    (note : SpendableNote) :
    (selectNote excessOutput state note).2 = none ↔
      state.2 = none ∧ amountSum (noteValues (state.1 ++ [note])) ≤ excessOutput := by
  unfold selectNote
  rw [appended_sum]
  split
  · rename_i fits
    exact ⟨fun none_ => ⟨none_, fits⟩, fun both => both.1⟩
  · rename_i exceeds
    simp [exceeds]

theorem selectNote_takes {state : List SpendableNote × Option SpendableNote}
    {note : SpendableNote} (nothing : (selectNote excessOutput state note).2 = none) :
    (selectNote excessOutput state note).1 = state.1 ++ [note] := by
  have fits := ((selectNote_none_iff state note).mp nothing).2
  rw [← appended_sum] at fits
  unfold selectNote
  rw [if_pos fits]

theorem none_left_takes (start processed : List SpendableNote)
    (nothing : (processed.foldl (selectNote excessOutput) (start, none)).2 = none) :
    (processed.foldl (selectNote excessOutput) (start, none)).1 = start ++ processed := by
  induction processed using List.reverseRecOn with
  | nil => exact (List.append_nil start).symm
  | append_singleton processed note inductionHypothesis =>
      rw [List.foldl_append, List.foldl_cons, List.foldl_nil] at nothing ⊢
      rw [selectNote_takes nothing,
        inductionHypothesis ((selectNote_none_iff _ note).mp nothing).1, List.append_assoc]

/-- No note is left exactly if no sum on the way exceeds the deficit. -/
theorem none_left_iff (start processed : List SpendableNote) :
    (processed.foldl (selectNote excessOutput) (start, none)).2 = none ↔
      ∀ count < processed.length,
        amountSum (noteValues (start ++ processed.take (count + 1))) ≤ excessOutput := by
  induction processed using List.reverseRecOn with
  | nil => simp
  | append_singleton processed note inductionHypothesis =>
      rw [List.foldl_append, List.foldl_cons, List.foldl_nil, selectNote_none_iff,
        List.length_append, List.length_singleton]
      constructor
      · rintro ⟨nothing, last⟩ count below
        rw [none_left_takes start processed nothing, List.append_assoc] at last
        rcases Nat.lt_succ_iff_lt_or_eq.mp below with inside | same
        · rw [List.take_append_of_le_length (by omega)]
          exact inductionHypothesis.mp nothing count inside
        · rw [same, List.take_of_length_le (by simp)]
          exact last
      · intro all
        have nothing : (processed.foldl (selectNote excessOutput) (start, none)).2 = none := by
          refine inductionHypothesis.mpr ?_
          intro count below
          have here := all count (by omega)
          rwa [List.take_append_of_le_length (by omega)] at here
        refine ⟨nothing, ?_⟩
        have last := all processed.length (by omega)
        rw [List.take_of_length_le (by simp)] at last
        rw [none_left_takes start processed nothing, List.append_assoc]
        exact last

/-! ### When there is a selection -/

/-- The surplus falls short, and every kept note fits. -/
def Exhausted (notes : List SpendableNote) (excessOutput : Nat) : Prop :=
  amountSum (noteValues (surplus notes)) < excessOutput ∧
    ∀ count < (kept notes).length,
      amountSum (noteValues (surplus notes ++ (kept notes).take (count + 1))) ≤ excessOutput

theorem selectFundingInput_none_iff :
    selectFundingInput notes excessOutput = none ↔ Exhausted notes excessOutput := by
  rw [selectFundingInput_eq]
  unfold Exhausted
  by_cases covers : excessOutput ≤ amountSum (noteValues (surplus notes))
  · rw [if_pos covers]
    simp only [reduceCtorEq, false_iff, not_and]
    intro short
    omega
  · rw [if_neg covers, Option.map_eq_none_iff, none_left_iff]
    exact ⟨fun fits => ⟨not_le.mp covers, fits⟩, fun both => both.2⟩

/-- A selection is a part of the account's notes worth at least the deficit. -/
theorem selectFundingInput_some
    (chosen : selectFundingInput notes excessOutput = some selected) :
    selected.Subperm (surplus notes ++ kept notes) ∧ excessOutput ≤ totalValue selected := by
  rw [selectFundingInput_eq] at chosen
  by_cases covers : excessOutput ≤ amountSum (noteValues (surplus notes))
  · rw [if_pos covers, Option.some.injEq] at chosen
    rw [← chosen]
    refine ⟨(List.sublist_append_left _ _).subperm, covers.trans ?_⟩
    rw [amountSum_eq]
    exact Nat.mod_le _ _
  · rw [if_neg covers, Option.map_eq_some_iff] at chosen
    obtain ⟨note, last, result⟩ := chosen
    have passed : Passed excessOutput (surplus notes) (kept notes) _ := passed_all _ _
    obtain ⟨taken, left, isTaken, isLast, parts⟩ := passed.parts
    rw [last] at isLast
    constructor
    · have member : [note].Sublist left :=
        List.singleton_sublist.mpr (List.mem_of_getLast? isLast.symm)
      rw [← result, isTaken, List.append_assoc, List.subperm_append_left]
      exact ((member.append_left taken).subperm).trans parts.subperm
    · rw [← result, totalValue_append]
      have enough := passed.covers note last
      change excessOutput ≤ totalValue _ + noteValue note.denomination
      omega

theorem selectFundingInput_members (distinct : notes.Nodup)
    (chosen : selectFundingInput notes excessOutput = some selected) :
    selected.Nodup ∧
      ∀ note ∈ selected, note ∈ notes ∧ note.denomination ∈ clientDenominations := by
  obtain ⟨list, same, sublist⟩ := (selectFundingInput_some chosen).1
  refine ⟨same.nodup_iff.mp ((surplus_kept_nodup distinct).sublist sublist), ?_⟩
  intro note member
  rcases List.mem_append.mp (sublist.subset (same.mem_iff.mpr member)) with inSurplus | inKept
  · exact surplus_client inSurplus
  · exact kept_client inKept

/-- What the selection should be: it exists exactly if the notes deliver the
deficit, and then it has distinct notes of the account worth the deficit. -/
structure SelectionExact (notes : List SpendableNote) (excessOutput : Nat) : Prop where
  exists_iff : (∃ selected, selectFundingInput notes excessOutput = some selected) ↔
    excessOutput ≤ totalValue notes
  sound : ∀ selected, selectFundingInput notes excessOutput = some selected →
    selected.Nodup ∧ (∀ note ∈ selected, note ∈ notes) ∧ excessOutput ≤ totalValue selected

theorem totalValue_subperm {left right : List SpendableNote} (part : left.Subperm right) :
    totalValue left ≤ totalValue right := by
  obtain ⟨list, same, sublist⟩ := part
  rw [← totalValue_perm same]
  exact (sublist.map _).sum_le_sum (fun _ _ => Nat.zero_le _)

theorem kept_nonempty (client : ∀ note ∈ notes, note.denomination ∈ clientDenominations)
    (some : notes ≠ []) : kept notes ≠ [] := by
  obtain ⟨note, member⟩ := List.exists_mem_of_ne_nil notes some
  have inGroup : ofDenomination notes note.denomination ≠ [] :=
    List.ne_nil_of_mem (mem_ofDenomination.mpr ⟨member, rfl⟩)
  obtain ⟨first, rest, split⟩ := List.exists_cons_of_ne_nil inGroup
  have taken : first ∈ (ofDenomination notes note.denomination).take
      (2 * TARGET_PER_DENOMINATION) := by
    rw [split]
    exact List.mem_cons_self
  exact List.ne_nil_of_mem (List.mem_flatMap.mpr
    ⟨note.denomination, List.mem_reverse.mpr (client note member), taken⟩)

/-- Below the bound the notes are exhausted by a deficit of what they deliver
or more. -/
theorem exhausted_iff (distinct : notes.Nodup)
    (client : ∀ note ∈ notes, note.denomination ∈ clientDenominations)
    (small : totalValue notes < U64_BOUND) :
    Exhausted notes excessOutput ↔
      totalValue notes ≤ excessOutput ∧ (notes = [] → 0 < excessOutput) := by
  have all := surplus_kept_perm distinct client
  have total : totalValue (surplus notes ++ kept notes) = totalValue notes :=
    totalValue_perm all
  have exact_ : ∀ count, amountSum (noteValues (surplus notes ++ (kept notes).take count)) =
      totalValue (surplus notes) + totalValue ((kept notes).take count) := by
    intro count
    have part : totalValue (surplus notes ++ (kept notes).take count) ≤ totalValue notes := by
      rw [← total]
      exact totalValue_subperm (((List.take_sublist count _).append_left _).subperm)
    rw [amountSum_eq, ← totalValue_append]
    exact Nat.mod_eq_of_lt (part.trans_lt small)
  have swept := exact_ 0
  rw [List.take_zero, List.append_nil] at swept
  change _ = totalValue (surplus notes) + 0 at swept
  rw [totalValue_append] at total
  unfold Exhausted
  rw [swept, Nat.add_zero]
  by_cases empty : notes = []
  · subst empty
    simp only [true_imp_iff]
    change 0 < excessOutput ∧ (∀ count < 0, _) ↔ 0 ≤ excessOutput ∧ 0 < excessOutput
    simp
  · have some := kept_nonempty client empty
    constructor
    · rintro ⟨_, fits⟩
      have positive := List.length_pos_iff.mpr some
      have last := fits ((kept notes).length - 1) (by omega)
      rw [Nat.sub_add_cancel positive, exact_, List.take_length, total] at last
      exact ⟨last, fun isEmpty => absurd isEmpty empty⟩
    · rintro ⟨covers, _⟩
      obtain ⟨first, rest, split⟩ := List.exists_cons_of_ne_nil some
      have positive : 0 < totalValue (kept notes) := by
        have single := (noteValue_bounds (kept_client (split ▸ List.mem_cons_self :
          first ∈ kept notes)).2).1
        rw [split]
        change 0 < noteValue first.denomination + totalValue rest
        omega
      refine ⟨by omega, fun count _ => ?_⟩
      rw [exact_]
      have part := totalValue_subperm (List.take_sublist (count + 1) (kept notes)).subperm
      omega

/-- The selection is what it should be unless the notes are worth the deficit
and exhausted by it.  For an account worth less than the bound that is the
deficit of exactly what its notes deliver. -/
theorem selectFundingInput_exact_iff (distinct : notes.Nodup)
    (client : ∀ note ∈ notes, note.denomination ∈ clientDenominations) :
    (SelectionExact notes excessOutput ↔
        totalValue notes < excessOutput ∨ ¬Exhausted notes excessOutput) ∧
      (totalValue notes < U64_BOUND →
        (SelectionExact notes excessOutput ↔ notes = [] ∨ excessOutput ≠ totalValue notes)) := by
  have all := surplus_kept_perm distinct client
  have sound : ∀ selected, selectFundingInput notes excessOutput = some selected →
      selected.Nodup ∧ (∀ note ∈ selected, note ∈ notes) ∧
        excessOutput ≤ totalValue selected := by
    intro selected chosen
    obtain ⟨nodup, members⟩ := selectFundingInput_members distinct chosen
    exact ⟨nodup, fun note member => (members note member).1, (selectFundingInput_some chosen).2⟩
  have exists_iff : (∃ selected, selectFundingInput notes excessOutput = some selected) ↔
      ¬Exhausted notes excessOutput := by
    rw [← selectFundingInput_none_iff, ← Option.ne_none_iff_exists']
  have reaches : ¬Exhausted notes excessOutput → excessOutput ≤ totalValue notes := by
    intro found
    obtain ⟨selected, chosen⟩ := exists_iff.mpr found
    obtain ⟨part, enough⟩ := selectFundingInput_some chosen
    exact enough.trans (totalValue_subperm (part.trans all.subperm))
  have general : SelectionExact notes excessOutput ↔
      totalValue notes < excessOutput ∨ ¬Exhausted notes excessOutput := by
    constructor
    · intro exact_
      by_cases covered : excessOutput ≤ totalValue notes
      · exact Or.inr (exists_iff.mp (exact_.exists_iff.mpr covered))
      · exact Or.inl (not_le.mp covered)
    · intro condition
      refine ⟨⟨fun found => reaches (exists_iff.mp found), fun covered => ?_⟩, sound⟩
      rcases condition with short | found
      · omega
      · exact exists_iff.mpr found
  refine ⟨general, fun small => ?_⟩
  rw [general, exhausted_iff distinct client small]
  by_cases empty : notes = []
  · subst empty
    change 0 < excessOutput ∨ _ ↔ _
    simp only [true_imp_iff, true_or, iff_true]
    by_cases zero : 0 < excessOutput
    · exact Or.inl zero
    · exact Or.inr (fun both => zero both.2)
  · simp only [empty, false_imp_iff, and_true, false_or]
    omega

/-! Notes of three denominations, eight of them of one, and the deficits they
and a single note deliver exactly. -/

def sampleNote (keypair : Keypair) : SpendableNote :=
  { denomination := 9
    keypair
    signature := 0 }

def sampleNotes : List SpendableNote :=
  (List.range 8).map sampleNote ++
    [{ denomination := 11
       keypair := 8
       signature := 0 },
     { denomination := 12
       keypair := 9
       signature := 0 },
     { denomination := 12
       keypair := 10
       signature := 0 }]

/-- Two notes are surplus, and four kept ones complete a deficit of 6000 msat. -/
theorem selectFundingInput_exact_sample :
    (surplus sampleNotes).length = 2 ∧
      (selectFundingInput sampleNotes 6000).map List.length = some 6 ∧
      SelectionExact sampleNotes 6000 ∧ ¬SelectionExact sampleNotes (totalValue sampleNotes) := by
  have condition : ∀ deficit, SelectionExact sampleNotes deficit ↔
      sampleNotes = [] ∨ deficit ≠ totalValue sampleNotes :=
    fun deficit => (selectFundingInput_exact_iff (by decide) (by decide)).2 (by decide)
  refine ⟨by decide +kernel, by decide +kernel, (condition _).mpr (Or.inr (by decide)), ?_⟩
  intro isExact
  rcases (condition _).mp isExact with empty | different
  · exact absurd empty (by decide)
  · exact different rfl

theorem selectFundingInput_misses :
    totalValue [sampleNote 0] = 412 ∧ selectFundingInput [sampleNote 0] 412 = none ∧
      ¬SelectionExact [sampleNote 0] 412 := by
  have missing : selectFundingInput [sampleNote 0] 412 = none := by decide +kernel
  refine ⟨by decide, missing, ?_⟩
  intro exact_
  obtain ⟨selected, chosen⟩ := exact_.exists_iff.mpr (by decide)
  cases missing.symm.trans chosen

end Picomint.Client
