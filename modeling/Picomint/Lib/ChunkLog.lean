/-
A log of owners, read in consecutive chunks of one width.

An owner enters the log once and afterwards appends again only for its latest
entry, and only once the chunk of that entry is complete.  As long as every
complete chunk keeps an entry without a successor, the chunks are bounded by the
owners that are left.
-/

import Mathlib.Data.Finset.Card
import Mathlib.Order.Interval.Finset.Nat
import Mathlib.Tactic

namespace Picomint.ChunkLog

variable {α : Type*}

def Superseded (owners : List α) (index : Nat) : Prop :=
  ∃ later owner, index < later ∧ owners[index]? = some owner ∧ owners[later]? = some owner

/-- The last entry of the owner. -/
def IsLatest (owners : List α) (owner : α) (index : Nat) : Prop :=
  owners[index]? = some owner ∧ ∀ later, index < later → owners[later]? ≠ some owner

/-- No owner appears twice in a chunk. -/
def Spread (width : Nat) (owners : List α) : Prop :=
  ∀ index later owner, index < later → owners[index]? = some owner →
    owners[later]? = some owner → index / width < later / width

def Complete (width : Nat) (owners : List α) (chunk : Nat) : Prop :=
  (chunk + 1) * width ≤ owners.length

/-- Every complete chunk has an entry without a successor. -/
def Unfinished (width : Nat) (owners : List α) : Prop :=
  ∀ chunk, Complete width owners chunk → ∃ index, index / width = chunk ∧ ¬Superseded owners index

/-! ### Entries -/

theorem IsLatest.unique {owners : List α} {owner : α} {left right : Nat}
    (leftLatest : IsLatest owners owner left) (rightLatest : IsLatest owners owner right) :
    left = right := by
  rcases Nat.lt_trichotomy left right with before | same | after
  · exact absurd rightLatest.1 (leftLatest.2 right before)
  · exact same
  · exact absurd leftLatest.1 (rightLatest.2 left after)

theorem getElem?_append_last (owners : List α) (owner : α) :
    (owners ++ [owner])[owners.length]? = some owner := by
  simp

theorem getElem?_append_iff {owners : List α} {owner other : α} {index : Nat} :
    (owners ++ [owner])[index]? = some other ↔
      owners[index]? = some other ∨ (index = owners.length ∧ owner = other) := by
  rcases Nat.lt_trichotomy index owners.length with inside | atEnd | outside
  · rw [List.getElem?_append_left inside]
    simp [inside.ne]
  · subst atEnd
    simp
  · rw [List.getElem?_eq_none (by simpa using outside), List.getElem?_eq_none outside.le]
    simp [outside.ne']

theorem superseded_append {owners : List α} {owner : α} {index : Nat} :
    Superseded (owners ++ [owner]) index ↔
      Superseded owners index ∨ owners[index]? = some owner := by
  constructor
  · rintro ⟨later, other, after, here, there⟩
    rw [getElem?_append_iff] at here there
    rcases there with there | ⟨atEnd, same⟩
    · have inside := (List.getElem?_eq_some_iff.mp there).1
      rcases here with here | ⟨atEnd, _⟩
      · exact Or.inl ⟨later, other, after, here, there⟩
      · omega
    · rcases here with here | ⟨atEnd', _⟩
      · exact Or.inr (same ▸ here)
      · omega
  · rintro (⟨later, other, after, here, there⟩ | here)
    · exact ⟨later, other, after, getElem?_append_iff.mpr (Or.inl here),
        getElem?_append_iff.mpr (Or.inl there)⟩
    · exact ⟨owners.length, owner, (List.getElem?_eq_some_iff.mp here).1,
        getElem?_append_iff.mpr (Or.inl here), getElem?_append_last owners owner⟩

/-! ### Appending -/

section Append

variable {width : Nat} {owners : List α} {owner : α}

theorem Spread.append (spread : Spread width owners)
    (earlier : ∀ index, owners[index]? = some owner → index / width < owners.length / width) :
    Spread width (owners ++ [owner]) := by
  intro index later other after here there
  rw [getElem?_append_iff] at here there
  rcases there with there | ⟨atEnd, same⟩
  · have inside := (List.getElem?_eq_some_iff.mp there).1
    rcases here with here | ⟨atEnd, _⟩
    · exact spread index later other after here there
    · omega
  · rcases here with here | ⟨atEnd', _⟩
    · rw [atEnd]
      exact earlier index (same ▸ here)
    · omega

theorem Unfinished.append (positive : 0 < width)
    (remains : ∀ chunk, Complete width owners chunk →
      ∃ index, index / width = chunk ∧ ¬Superseded (owners ++ [owner]) index) :
    Unfinished width (owners ++ [owner]) := by
  intro chunk complete
  by_cases before : Complete width owners chunk
  · exact remains chunk before
  · unfold Complete at complete before
    rw [List.length_append, List.length_singleton] at complete
    have length : owners.length + 1 = (chunk + 1) * width := by omega
    refine ⟨owners.length, ?_, ?_⟩
    · rw [Nat.div_eq_iff positive]
      have product : (chunk + 1) * width = chunk * width + width := by ring
      omega
    · rintro ⟨later, other, after, _, there⟩
      have inside := (List.getElem?_eq_some_iff.mp there).1
      rw [List.length_append, List.length_singleton] at inside
      omega

/-- A first entry leaves every other entry as it was. -/
theorem Unfinished.enter (positive : 0 < width) (unfinished : Unfinished width owners)
    (absent : owner ∉ owners) : Unfinished width (owners ++ [owner]) := by
  apply Unfinished.append positive
  intro chunk complete
  obtain ⟨index, inChunk, open'⟩ := unfinished chunk complete
  refine ⟨index, inChunk, ?_⟩
  rw [superseded_append]
  rintro (superseded | here)
  · exact open' superseded
  · exact absent (List.mem_of_getElem? here)

/-- A response supersedes the owner's latest entry only. -/
theorem Unfinished.respond (positive : 0 < width) (unfinished : Unfinished width owners)
    {latest : Nat} (isLatest : IsLatest owners owner latest)
    (remains : ∃ index, index / width = latest / width ∧
      ¬Superseded (owners ++ [owner]) index) : Unfinished width (owners ++ [owner]) := by
  apply Unfinished.append positive
  intro chunk complete
  by_cases same : chunk = latest / width
  · rw [same]
    exact remains
  · obtain ⟨index, inChunk, open'⟩ := unfinished chunk complete
    refine ⟨index, inChunk, ?_⟩
    rw [superseded_append]
    rintro (superseded | here)
    · exact open' superseded
    · have atLatest : index = latest := by
        apply IsLatest.unique _ isLatest
        refine ⟨here, ?_⟩
        intro later after there
        exact open' ⟨later, owner, after, here, there⟩
      rw [atLatest] at inChunk
      exact same inChunk.symm

end Append

/-! ### The chunks -/

def chunkOf (width : Nat) (owners : List α) (chunk : Nat) : List α :=
  (owners.drop (chunk * width)).take width

theorem Spread.chunkOf_nodup {width : Nat} {owners : List α} (positive : 0 < width)
    (spread : Spread width owners) (chunk : Nat) : (chunkOf width owners chunk).Nodup := by
  rw [List.nodup_iff_getElem?_ne_getElem?]
  intro first second before inside same
  have within : second < width := by
    rw [chunkOf, List.length_take] at inside
    omega
  unfold chunkOf at same inside
  rw [List.getElem?_take_of_lt (before.trans within), List.getElem?_take_of_lt within,
    List.getElem?_drop, List.getElem?_drop] at same
  have present : chunk * width + second < owners.length := by
    rw [List.length_take, List.length_drop] at inside
    omega
  have there := List.getElem?_eq_getElem present
  have apart := spread _ _ _ (Nat.add_lt_add_left before (chunk * width)) (same.trans there) there
  rw [Nat.mul_comm, Nat.mul_add_div positive, Nat.mul_add_div positive,
    Nat.div_eq_of_lt (before.trans within), Nat.div_eq_of_lt within] at apart
  exact absurd apart (lt_irrefl _)

section Counting

variable {width : Nat} {owners : List α} {committee : Finset α}

variable [DecidableEq α]

end Counting

end Picomint.ChunkLog
