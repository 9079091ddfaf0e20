/-
Exact change from the notes of an account.

The notes are passed from the largest denomination down and each that still
fits is taken.  Every amount of a denomination divides those of the larger
ones, so the pass finds exact notes whenever the account has them.
-/

import Picomint.Client.Sends

namespace Picomint.Client

open Consensus

/-- `send_ecash_dbtx` on the tables of the caller's write transaction. -/
def sendEcashDbtx (tables : Tables) (account : Account) (remainingAmount : Nat) :
    Attempt (Option (List SpendableNote) × Tables) := do
  let sorted := descending (tables.accountNotes account)
  let (remaining, notes) := sorted.foldl sendNote (remainingAmount, [])
  if remaining ≠ 0 then return (none, tables)
  else
    let tables ← notes.foldlM (Tables.removeSpendableNote account) tables
    return (some notes, tables)

/-- A send is the write with a refusal where it gives nothing. -/
theorem sendEcash_eq (tables : Tables) (account : Account) (amount : Nat) :
    sendEcash tables account amount = (do
      let (ecash, after) ← sendEcashDbtx tables account amount
      let notes ← refuse ecash
      return (notes, after)) := by
  unfold sendEcash sendEcashDbtx descending
  simp only
  generalize ((tables.accountNotes account).insertionSort
    (fun left right => right.denomination ≤ left.denomination)).foldl sendNote (amount, []) = taken
  split
  · rfl
  · cases taken.2.foldlM (Tables.removeSpendableNote account) tables with
    | error halt => rfl
    | ok after => rfl

/-! ### The notes taken -/

/-- What the pass takes, without the tables. -/
def takenNotes (notes : List SpendableNote) (amount : Nat) : Nat × List SpendableNote :=
  (descending notes).foldl sendNote (amount, [])

theorem sendNotes_sublist (notes : List SpendableNote) (state : Nat × List SpendableNote) :
    ∃ part : List SpendableNote, part.Sublist notes ∧
      (notes.foldl sendNote state).2 = state.2 ++ part := by
  induction notes generalizing state with
  | nil => exact ⟨[], List.Sublist.refl [], (List.append_nil _).symm⟩
  | cons note rest inductionHypothesis =>
      obtain ⟨part, sublist, taken⟩ := inductionHypothesis (sendNote state note)
      rw [List.foldl_cons, taken]
      unfold sendNote
      split
      · exact ⟨note :: part, sublist.cons_cons note, List.append_assoc _ _ _⟩
      · exact ⟨part, sublist.cons note, rfl⟩

theorem descending_perm (notes : List SpendableNote) : (descending notes).Perm notes :=
  List.perm_insertionSort _ _

theorem takenNotes_sublist (notes : List SpendableNote) (amount : Nat) :
    (takenNotes notes amount).2.Sublist (descending notes) := by
  obtain ⟨part, sublist, taken⟩ := sendNotes_sublist (descending notes) (amount, [])
  unfold takenNotes
  rw [taken]
  exact sublist

theorem takenNotes_fill (notes : List SpendableNote) (amount : Nat) :
    (takenNotes notes amount).1 + (faceValues (takenNotes notes amount).2).sum = amount ∧
      (Greedy.fill amount startFilling (faceValues (descending notes))).sum =
        (faceValues (takenNotes notes amount).2).sum := by
  have start : (amount, ([] : List SpendableNote)).1 +
      (faceValues (amount, ([] : List SpendableNote)).2).sum = amount := rfl
  have nothing : startFilling.sum = (faceValues []).sum := rfl
  obtain ⟨exact_, sum, _⟩ := sendNotes_fill (descending notes) start nothing rfl
  exact ⟨exact_, sum⟩

/-- From the largest denomination down every amount divides those before it. -/
theorem descending_chain {notes : List SpendableNote}
    (powers : ∀ note ∈ notes, note.denomination < 64) :
    (faceValues (descending notes)).Pairwise (fun earlier later => later ∣ earlier) := by
  have sorted : (descending notes).Pairwise
      (fun left right => right.denomination ≤ left.denomination) :=
    List.pairwise_insertionSort _ _
  unfold faceValues
  rw [List.pairwise_map]
  refine sorted.imp_of_mem (fun {left right} inLeft inRight below => ?_)
  have leftSmall := powers left ((descending_perm notes).mem_iff.mp inLeft)
  have rightSmall := powers right ((descending_perm notes).mem_iff.mp inRight)
  unfold SpendableNote.amount Denomination.amount
  rw [Nat.mod_eq_of_lt leftSmall, Nat.mod_eq_of_lt rightSmall]
  exact Nat.pow_dvd_pow 2 below

/-- Nothing remains exactly if some of the notes sum to the amount. -/
theorem takenNotes_exact_iff {notes : List SpendableNote} {amount : Nat}
    (powers : ∀ note ∈ notes, note.denomination < 64) :
    (takenNotes notes amount).1 = 0 ↔
      ∃ part : Multiset SpendableNote, part ≤ (notes : Multiset SpendableNote) ∧
        (part.map SpendableNote.amount).sum = amount := by
  obtain ⟨total, filled⟩ := takenNotes_fill notes amount
  have reaches : (takenNotes notes amount).1 = 0 ↔
      (Greedy.fill amount startFilling (faceValues (descending notes))).sum = amount := by
    rw [filled]
    omega
  rw [reaches, Greedy.fill_reaches_iff (descending_chain powers) (Nat.zero_le amount)]
  constructor
  · rintro ⟨values, sublist, sum⟩
    obtain ⟨part, within, same⟩ := List.sublist_map_iff.mp sublist
    refine ⟨part, Multiset.coe_le.mpr (within.subperm.trans (descending_perm notes).subperm), ?_⟩
    rw [Multiset.map_coe, Multiset.sum_coe, ← same]
    exact (Nat.zero_add _).symm.trans sum
  · rintro ⟨part, within, sum⟩
    induction part using Quotient.inductionOn with
    | h list =>
        obtain ⟨ordered, same, sublist⟩ :=
          (Multiset.coe_le.mp within).trans (descending_perm notes).symm.subperm
        refine ⟨faceValues ordered, sublist.map _, ?_⟩
        have value : (faceValues ordered).sum = (faceValues list).sum := (same.map _).sum_eq
        rw [value]
        exact (Nat.zero_add _).trans sum

/-! ### The write -/

section Write

variable {tables after : Tables} {account : Account} {amount : Nat} {ecash : List SpendableNote}

theorem sendEcashDbtx_cases (tables : Tables) (account : Account) (amount : Nat) :
    ((takenNotes (tables.accountNotes account) amount).1 ≠ 0 ∧
        sendEcashDbtx tables account amount = .ok (none, tables)) ∨
      ((takenNotes (tables.accountNotes account) amount).1 = 0 ∧
        ∃ after, (takenNotes (tables.accountNotes account) amount).2.foldlM
            (Tables.removeSpendableNote account) tables = .ok after ∧
          sendEcashDbtx tables account amount =
            .ok (some (takenNotes (tables.accountNotes account) amount).2, after)) := by
  have sublist := takenNotes_sublist (tables.accountNotes account) amount
  have same := descending_perm (tables.accountNotes account)
  have distinct := sublist.nodup (same.nodup_iff.mpr (Tables.accountNotes_nodup tables account))
  obtain ⟨after, removed⟩ := Tables.removeNotes_succeeds tables account distinct
    (fun note member => same.mem_iff.mp (sublist.subset member))
  by_cases paid : (takenNotes (tables.accountNotes account) amount).1 = 0
  · refine Or.inr ⟨paid, after, removed, ?_⟩
    unfold takenNotes at paid removed
    unfold sendEcashDbtx
    simp only
    rw [if_neg (not_not.mpr paid), removed]
    rfl
  · refine Or.inl ⟨paid, ?_⟩
    unfold takenNotes at paid
    unfold sendEcashDbtx
    simp only
    rw [if_pos paid]
    rfl

theorem Tables.Removed.accountNotes_perm (distinct : ecash.Nodup)
    (members : ∀ note ∈ ecash, note ∈ tables.accountNotes account)
    (removed : Tables.Removed account ecash tables after) :
    (tables.accountNotes account).Perm (ecash ++ after.accountNotes account) := by
  have left : ∀ note, note ∈ after.accountNotes account ↔
      note ∈ tables.accountNotes account ∧ note ∉ ecash := by
    intro note
    rw [Tables.mem_accountNotes, Tables.mem_accountNotes, removed.note]
    exact and_congr_right (fun _ => ⟨fun away => away rfl, fun away _ => away⟩)
  refine (List.perm_ext_iff_of_nodup (Tables.accountNotes_nodup tables account)
    (List.nodup_append'.mpr ⟨distinct, Tables.accountNotes_nodup after account, ?_⟩)).mpr ?_
  · exact fun note taken still => ((left note).mp still).2 taken
  · intro note
    rw [List.mem_append, left]
    constructor
    · intro member
      by_cases taken : note ∈ ecash
      · exact Or.inl taken
      · exact Or.inr ⟨member, taken⟩
    · rintro (taken | ⟨member, _⟩)
      · exact members note taken
      · exact member

end Write

/-- A send of notes gives something exactly if some of the account's notes sum
to the amount; then it gives such notes and removes just them, else it leaves
the tables as they are. -/
theorem send_exact_iff {tables : Tables} {account : Account} {amount : Nat}
    (powers : ∀ note ∈ tables.accountNotes account, note.denomination < 64) :
    ((∃ ecash after, sendEcashDbtx tables account amount = .ok (some ecash, after)) ↔
      ∃ part : Multiset SpendableNote,
        part ≤ (tables.accountNotes account : Multiset SpendableNote) ∧
          (part.map SpendableNote.amount).sum = amount) ∧
      (∀ ecash after, sendEcashDbtx tables account amount = .ok (some ecash, after) →
        (ecash.map SpendableNote.amount).sum = amount ∧
          (tables.accountNotes account).Perm (ecash ++ after.accountNotes account) ∧
          Tables.Removed account ecash tables after) ∧
      (∀ after, sendEcashDbtx tables account amount = .ok (none, after) → after = tables) ∧
      ∀ halt, sendEcashDbtx tables account amount ≠ .error halt := by
  rw [← takenNotes_exact_iff powers]
  obtain ⟨total, _⟩ := takenNotes_fill (tables.accountNotes account) amount
  rcases sendEcashDbtx_cases tables account amount with ⟨rest, result⟩ |
    ⟨paid, after, removed, result⟩
  · rw [result]
    refine ⟨⟨?_, fun paid => absurd paid rest⟩, ?_, ?_, ?_⟩
    · rintro ⟨ecash, after, impossible⟩
      cases impossible
    · intro ecash after impossible
      cases impossible
    · intro after same
      cases same
      rfl
    · intro halt impossible
      cases impossible
  · rw [result]
    refine ⟨⟨fun _ => paid, fun _ => ⟨_, _, rfl⟩⟩, ?_, ?_, ?_⟩
    · intro ecash final same
      cases same
      obtain ⟨distinct, members, gone⟩ := Tables.removeNotes_ok removed
      rw [paid, Nat.zero_add] at total
      exact ⟨total, gone.accountNotes_perm distinct members, gone⟩
    · intro final impossible
      cases impossible
    · intro halt impossible
      cases impossible

/-! Two of seven notes. -/

theorem send_exact_sample :
    ((∃ ecash after, sendEcashDbtx sampleSeven .primary 1024 = .ok (some ecash, after)) ↔
      ∃ part : Multiset SpendableNote,
        part ≤ (sampleSeven.accountNotes .primary : Multiset SpendableNote) ∧
          (part.map SpendableNote.amount).sum = 1024) ∧
      (∀ ecash after, sendEcashDbtx sampleSeven .primary 1024 = .ok (some ecash, after) →
        (ecash.map SpendableNote.amount).sum = 1024 ∧
          (sampleSeven.accountNotes .primary).Perm (ecash ++ after.accountNotes .primary) ∧
          Tables.Removed .primary ecash sampleSeven after) ∧
      (∀ after, sendEcashDbtx sampleSeven .primary 1024 = .ok (none, after) →
        after = sampleSeven) ∧
      ∀ halt, sendEcashDbtx sampleSeven .primary 1024 ≠ .error halt := by
  have notes : sampleSeven.accountNotes .primary = (List.range 7).map sampleNote := by
    decide +kernel
  apply send_exact_iff
  rw [notes]
  intro note member
  obtain ⟨index, _, same⟩ := List.mem_map.mp member
  have small : (sampleNote index).denomination < 64 := by
    change 9 < 64
    decide
  exact same ▸ small

end Picomint.Client
