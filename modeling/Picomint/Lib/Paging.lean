/-
Scans of a table from a cursor on.

A page is a prefix of the rows from the cursor on.  Its last key tells how far
the page reaches: no row in between is missing.
-/

import Picomint.Lib.SortedMap

universe u v

namespace SortedMap

variable {κ : Type u} {β : Type v} [LinearOrder κ] {map : SortedMap κ β} {start : κ}

def rangeFrom (map : SortedMap κ β) (start : κ) : List (κ × β) :=
  map.rows.filter (fun row => start ≤ row.1)

theorem mem_rangeFrom {row : κ × β} :
    row ∈ map.rangeFrom start ↔ map.get? row.1 = some row.2 ∧ start ≤ row.1 := by
  rw [rangeFrom, List.mem_filter, ← map.mem_rows]
  simp

theorem rangeFrom_ascending (map : SortedMap κ β) (start : κ) :
    (map.rangeFrom start).Pairwise (fun left right => left.1 < right.1) :=
  List.Pairwise.filter _ map.ascending

/-- The first rows from the key on. -/
def page (map : SortedMap κ β) (start : κ) (count : Nat) : List (κ × β) :=
  (map.rangeFrom start).take count

theorem mem_of_mem_page {count : Nat} {row : κ × β} (member : row ∈ map.page start count) :
    map.get? row.1 = some row.2 ∧ start ≤ row.1 :=
  mem_rangeFrom.mp (List.mem_of_mem_take member)

theorem page_ascending (map : SortedMap κ β) (start : κ) (count : Nat) :
    (map.page start count).Pairwise (fun left right => left.1 < right.1) :=
  (map.rangeFrom_ascending start).sublist (List.take_sublist _ _)

/-- A page without rows reaches the end of the table. -/
theorem page_eq_nil {count : Nat} (positive : 0 < count) (empty : map.page start count = [])
    {key : κ} {value : β} (found : map.get? key = some value) : key < start := by
  by_contra above
  have member : (key, value) ∈ map.rangeFrom start :=
    mem_rangeFrom.mpr ⟨found, not_lt.mp above⟩
  rcases List.take_eq_nil_iff.mp empty with zero | none
  · omega
  · rw [none] at member
    cases member

/-- A page holds every row up to its last one. -/
theorem mem_page_of_le_last {count : Nat} {last : κ × β}
    (reached : (map.page start count).getLast? = some last) {key : κ} {value : β}
    (found : map.get? key = some value) (above : start ≤ key) (below : key ≤ last.1) :
    (key, value) ∈ map.page start count := by
  have member : (key, value) ∈ map.rangeFrom start := mem_rangeFrom.mpr ⟨found, above⟩
  have ordered := map.rangeFrom_ascending start
  rw [← List.take_append_drop count (map.rangeFrom start)] at member ordered
  rcases List.mem_append.mp member with inside | beyond
  · exact inside
  · have crossing := (List.pairwise_append.mp ordered).2.2 last (List.mem_of_getLast? reached)
      (key, value) beyond
    exact absurd crossing (not_lt.mpr below)

theorem le_last_of_mem_page {count : Nat} {last row : κ × β}
    (reached : (map.page start count).getLast? = some last)
    (member : row ∈ map.page start count) : row.1 ≤ last.1 := by
  obtain ⟨front, split⟩ := List.getLast?_eq_some_iff.mp reached
  have ordered := map.page_ascending start count
  rw [split] at member ordered
  rcases List.mem_append.mp member with before | here
  · exact ((List.pairwise_append.mp ordered).2.2 row before last
      (List.mem_singleton.mpr rfl)).le
  · rw [List.mem_singleton.mp here]

end SortedMap
