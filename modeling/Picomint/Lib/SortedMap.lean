/-
Finite maps kept as a list of rows in strictly ascending key order.

The order is part of the value, so a scan visits every key once and in key
order, and two maps that answer every lookup alike are equal.  Insertion and
removal recurse on the rows: a closed map evaluates by computation.
-/

import Mathlib.Data.List.Pairwise
import Mathlib.Data.List.Perm.Basic
import Mathlib.Data.Prod.Lex
import Mathlib.Tactic

universe u v

/-! ### Row lists -/

namespace SortedRows

variable {κ : Type u} {β : Type v} [LinearOrder κ]

def Ascending (rows : List (κ × β)) : Prop :=
  rows.Pairwise (fun left right => left.1 < right.1)

def lookup (key : κ) : List (κ × β) → Option β
  | [] => none
  | row :: rest => if row.1 = key then some row.2 else lookup key rest

def insert (key : κ) (value : β) : List (κ × β) → List (κ × β)
  | [] => [(key, value)]
  | row :: rest =>
      if key < row.1 then (key, value) :: row :: rest
      else if key = row.1 then (key, value) :: rest
      else row :: insert key value rest

def erase (key : κ) (rows : List (κ × β)) : List (κ × β) :=
  rows.filter (fun row => row.1 ≠ key)

theorem mem_of_mem_insert {key : κ} {value : β} {row : κ × β} {rows : List (κ × β)}
    (member : row ∈ insert key value rows) : row = (key, value) ∨ row ∈ rows := by
  induction rows with
  | nil => exact Or.inl (List.mem_singleton.mp member)
  | cons head rest ih =>
      unfold insert at member
      split at member
      · simpa using member
      · split at member
        · rcases List.mem_cons.mp member with same | later
          · exact Or.inl same
          · exact Or.inr (List.mem_cons_of_mem head later)
        · rcases List.mem_cons.mp member with same | later
          · exact Or.inr (same ▸ List.mem_cons_self)
          · exact (ih later).imp_right (List.mem_cons_of_mem head)

theorem insert_ascending (key : κ) (value : β) {rows : List (κ × β)}
    (ascending : Ascending rows) : Ascending (insert key value rows) := by
  induction rows with
  | nil => exact List.pairwise_singleton _ _
  | cons head rest ih =>
      obtain ⟨below, restAscending⟩ := List.pairwise_cons.mp ascending
      unfold insert
      split
      · rename_i before
        refine List.pairwise_cons.mpr ⟨?_, ascending⟩
        intro row member
        rcases List.mem_cons.mp member with same | later
        · exact same ▸ before
        · exact before.trans (below row later)
      · split
        · rename_i same
          exact List.pairwise_cons.mpr ⟨fun row member => same ▸ below row member, restAscending⟩
        · rename_i notBefore different
          refine List.pairwise_cons.mpr ⟨?_, ih restAscending⟩
          intro row member
          rcases mem_of_mem_insert member with same | later
          · exact same ▸ lt_of_le_of_ne (not_lt.mp notBefore) (Ne.symm different)
          · exact below row later

theorem erase_ascending (key : κ) {rows : List (κ × β)}
    (ascending : Ascending rows) : Ascending (erase key rows) :=
  List.Pairwise.filter _ ascending

theorem lookup_insert (key other : κ) (value : β) (rows : List (κ × β)) :
    lookup other (insert key value rows) =
      if key = other then some value else lookup other rows := by
  induction rows with
  | nil => rfl
  | cons head rest ih =>
      unfold insert
      split
      · rfl
      · split
        · rename_i same
          by_cases found : key = other
          · simp only [lookup, if_pos found]
          · simp only [lookup, if_neg found, if_neg (same ▸ found)]
        · rename_i different
          simp only [lookup, ih]
          by_cases found : key = other
          · have notHead : head.1 ≠ other := fun atHead => different (found.trans atHead.symm)
            rw [if_neg notHead, if_pos found, if_pos found]
          · rw [if_neg found, if_neg found]

theorem lookup_erase (key other : κ) (rows : List (κ × β)) :
    lookup other (erase key rows) = if key = other then none else lookup other rows := by
  induction rows with
  | nil => simp [erase, lookup]
  | cons head rest ih =>
      unfold erase at ih ⊢
      by_cases removed : head.1 = key
      · rw [List.filter_cons_of_neg (by simpa using removed), ih]
        by_cases found : key = other
        · rw [if_pos found, if_pos found]
        · rw [if_neg found, if_neg found, lookup, if_neg (removed ▸ found)]
      · rw [List.filter_cons_of_pos (by simpa using removed), lookup, ih, lookup]
        by_cases found : key = other
        · rw [if_pos found, if_pos found, if_neg (found ▸ removed)]
        · rw [if_neg found, if_neg found]

theorem mem_iff_lookup {rows : List (κ × β)} (ascending : Ascending rows) (key : κ) (value : β) :
    (key, value) ∈ rows ↔ lookup key rows = some value := by
  induction rows with
  | nil => simp [lookup]
  | cons head rest ih =>
      obtain ⟨below, restAscending⟩ := List.pairwise_cons.mp ascending
      rw [List.mem_cons, ih restAscending, lookup]
      by_cases same : head.1 = key
      · rw [if_pos same]
        constructor
        · rintro (atHead | later)
          · rw [← atHead]
          · have member := (ih restAscending).mpr later
            exact absurd (below _ member) (by simp [same])
        · intro found
          exact Or.inl (Prod.ext same.symm (Option.some.inj found).symm)
      · rw [if_neg same]
        constructor
        · rintro (atHead | later)
          · exact absurd (congrArg Prod.fst atHead).symm same
          · exact later
        · exact Or.inr

theorem eq_of_lookup_eq {left right : List (κ × β)} (leftAscending : Ascending left)
    (rightAscending : Ascending right) (same : ∀ key, lookup key left = lookup key right) :
    left = right := by
  have members : ∀ row, row ∈ left ↔ row ∈ right := by
    intro row
    rw [mem_iff_lookup leftAscending row.1 row.2, mem_iff_lookup rightAscending row.1 row.2, same]
  have distinct : ∀ {rows : List (κ × β)}, Ascending rows → rows.Nodup := by
    intro rows ascending
    refine List.Pairwise.imp ?_ ascending
    intro first second below equal
    exact absurd below (by rw [equal]; exact lt_irrefl _)
  refine List.Perm.eq_of_pairwise ?_ leftAscending rightAscending
    ((List.perm_ext_iff_of_nodup (distinct leftAscending) (distinct rightAscending)).mpr members)
  intro first second _ _ forward backward
  exact absurd (forward.trans backward) (lt_irrefl _)

theorem insert_perm (key : κ) (value : β) {rows : List (κ × β)} (ascending : Ascending rows) :
    (insert key value rows).Perm ((key, value) :: erase key rows) := by
  induction rows with
  | nil => exact List.Perm.refl _
  | cons head rest ih =>
      obtain ⟨below, restAscending⟩ := List.pairwise_cons.mp ascending
      have keepAll : ∀ {tail : List (κ × β)}, (∀ row ∈ tail, key < row.1) →
          erase key tail = tail := by
        intro tail above
        refine List.filter_eq_self.mpr ?_
        intro row member
        simpa using (above row member).ne'
      unfold insert
      split
      · rename_i before
        rw [keepAll]
        intro row member
        rcases List.mem_cons.mp member with same | later
        · exact same ▸ before
        · exact before.trans (below row later)
      · split
        · rename_i same
          have dropped : erase key (head :: rest) = rest := by
            unfold erase
            rw [List.filter_cons_of_neg (by simp [same])]
            exact keepAll (fun row member => same ▸ below row member)
          rw [dropped]
        · rename_i different
          have kept : erase key (head :: rest) = head :: erase key rest := by
            unfold erase
            rw [List.filter_cons_of_pos (by simpa using Ne.symm different)]
          rw [kept]
          exact ((ih restAscending).cons head).trans (List.Perm.swap _ _ _)

end SortedRows

/-! ### Maps -/

structure SortedMap (κ : Type u) (β : Type v) [LinearOrder κ] where
  rows : List (κ × β)
  ascending : SortedRows.Ascending rows

namespace SortedMap

variable {κ : Type u} {β : Type v} [LinearOrder κ]

instance [DecidableEq β] : DecidableEq (SortedMap κ β) := fun left right =>
  decidable_of_iff (left.rows = right.rows)
    ⟨fun same => by cases left; cases right; cases same; rfl, congrArg rows⟩

def empty : SortedMap κ β := ⟨[], List.Pairwise.nil⟩

instance : Inhabited (SortedMap κ β) := ⟨empty⟩

def get? (map : SortedMap κ β) (key : κ) : Option β := SortedRows.lookup key map.rows

def insert (map : SortedMap κ β) (key : κ) (value : β) : SortedMap κ β :=
  ⟨SortedRows.insert key value map.rows, SortedRows.insert_ascending key value map.ascending⟩

def erase (map : SortedMap κ β) (key : κ) : SortedMap κ β :=
  ⟨SortedRows.erase key map.rows, SortedRows.erase_ascending key map.ascending⟩

def contains (map : SortedMap κ β) (key : κ) : Bool := (map.get? key).isSome

def keys (map : SortedMap κ β) : List κ := map.rows.map Prod.fst

def values (map : SortedMap κ β) : List β := map.rows.map Prod.snd

def size (map : SortedMap κ β) : Nat := map.rows.length

/-- The map holding the last of the given rows for each key. -/
def ofList (rows : List (κ × β)) : SortedMap κ β :=
  rows.foldl (fun map row => map.insert row.1 row.2) empty

def range (map : SortedMap κ β) (lower upper : κ) : List (κ × β) :=
  map.rows.filter (fun row => lower ≤ row.1 ∧ row.1 < upper)

/-- The largest key, where a scan in descending order starts. -/
def lastKey? (map : SortedMap κ β) : Option κ := map.keys.getLast?

@[simp] theorem get?_empty (key : κ) : (empty : SortedMap κ β).get? key = none := rfl

@[simp] theorem rows_empty : (empty : SortedMap κ β).rows = [] := rfl

theorem get?_insert (map : SortedMap κ β) (key other : κ) (value : β) :
    (map.insert key value).get? other = if key = other then some value else map.get? other :=
  SortedRows.lookup_insert key other value map.rows

@[simp] theorem get?_insert_self (map : SortedMap κ β) (key : κ) (value : β) :
    (map.insert key value).get? key = some value := by
  rw [get?_insert, if_pos rfl]

theorem get?_insert_of_ne (map : SortedMap κ β) {key other : κ} (value : β)
    (different : key ≠ other) : (map.insert key value).get? other = map.get? other := by
  rw [get?_insert, if_neg different]

theorem get?_erase (map : SortedMap κ β) (key other : κ) :
    (map.erase key).get? other = if key = other then none else map.get? other :=
  SortedRows.lookup_erase key other map.rows

@[simp] theorem get?_erase_self (map : SortedMap κ β) (key : κ) :
    (map.erase key).get? key = none := by
  rw [get?_erase, if_pos rfl]

theorem get?_erase_of_ne (map : SortedMap κ β) {key other : κ} (different : key ≠ other) :
    (map.erase key).get? other = map.get? other := by
  rw [get?_erase, if_neg different]

theorem mem_rows (map : SortedMap κ β) (key : κ) (value : β) :
    (key, value) ∈ map.rows ↔ map.get? key = some value :=
  SortedRows.mem_iff_lookup map.ascending key value

theorem mem_keys (map : SortedMap κ β) (key : κ) :
    key ∈ map.keys ↔ ∃ value, map.get? key = some value := by
  simp only [keys, List.mem_map, Prod.exists, mem_rows]
  constructor
  · rintro ⟨_, value, found, rfl⟩
    exact ⟨value, found⟩
  · rintro ⟨value, found⟩
    exact ⟨key, value, found, rfl⟩

theorem mem_values (map : SortedMap κ β) (value : β) :
    value ∈ map.values ↔ ∃ key, map.get? key = some value := by
  simp only [values, List.mem_map, Prod.exists, mem_rows]
  constructor
  · rintro ⟨key, _, found, rfl⟩
    exact ⟨key, found⟩
  · rintro ⟨key, found⟩
    exact ⟨key, value, found, rfl⟩

theorem map_values {γ : Type*} (map : SortedMap κ β) (f : β → γ) (default : γ) :
    map.values.map f = map.keys.map (fun key => ((map.get? key).map f).getD default) := by
  simp only [values, keys, List.map_map]
  apply List.map_congr_left
  intro row member
  have found := (map.mem_rows row.1 row.2).mp member
  simp only [Function.comp_apply, found, Option.map_some, Option.getD_some]

theorem contains_iff (map : SortedMap κ β) (key : κ) :
    map.contains key = true ↔ ∃ value, map.get? key = some value :=
  Option.isSome_iff_exists

@[simp] theorem contains_empty (key : κ) : (empty : SortedMap κ β).contains key = false := rfl

theorem contains_insert (map : SortedMap κ β) (key other : κ) (value : β) :
    (map.insert key value).contains other = true ↔ key = other ∨ map.contains other = true := by
  unfold contains
  rw [get?_insert]
  by_cases same : key = other
  · simp [same]
  · simp [same]

@[ext] theorem ext {left right : SortedMap κ β}
    (same : ∀ key, left.get? key = right.get? key) : left = right := by
  have rowsEq := SortedRows.eq_of_lookup_eq left.ascending right.ascending same
  cases left
  cases right
  cases rowsEq
  rfl

theorem keys_ascending (map : SortedMap κ β) : map.keys.Pairwise (· < ·) :=
  List.pairwise_map.mpr map.ascending

theorem keys_nodup (map : SortedMap κ β) : map.keys.Nodup :=
  map.keys_ascending.imp (fun below => below.ne)

theorem keys_length (map : SortedMap κ β) : map.keys.length = map.size :=
  List.length_map _

theorem values_length (map : SortedMap κ β) : map.values.length = map.size :=
  List.length_map _

theorem insert_insert (map : SortedMap κ β) (key : κ) (first second : β) :
    (map.insert key first).insert key second = map.insert key second := by
  ext other value
  simp only [get?_insert]
  split <;> rfl

theorem erase_of_get?_none (map : SortedMap κ β) {key : κ} (absent : map.get? key = none) :
    map.erase key = map := by
  ext other value
  rw [get?_erase]
  split
  · rename_i same
    rw [← same, absent]
  · rfl

theorem insert_of_get? (map : SortedMap κ β) {key : κ} {value : β}
    (found : map.get? key = some value) : map.insert key value = map := by
  ext other present
  rw [get?_insert]
  split
  · rename_i same
    rw [← same, found]
  · rfl

theorem rows_insert_perm (map : SortedMap κ β) (key : κ) (value : β) :
    (map.insert key value).rows.Perm ((key, value) :: (map.erase key).rows) :=
  SortedRows.insert_perm key value map.ascending

theorem rows_perm_of_get? (map : SortedMap κ β) {key : κ} {value : β}
    (found : map.get? key = some value) :
    map.rows.Perm ((key, value) :: (map.erase key).rows) := by
  have inserted := map.rows_insert_perm key value
  rwa [map.insert_of_get? found] at inserted

/-! ### Sums over the rows -/

section Total

variable {M : Type*} [AddCommMonoid M] (weight : κ → β → M)

def total (map : SortedMap κ β) : M :=
  (map.rows.map (fun row => weight row.1 row.2)).sum

@[simp] theorem total_empty : (empty : SortedMap κ β).total weight = 0 := rfl

theorem total_insert_of_none (map : SortedMap κ β) {key : κ} (value : β)
    (absent : map.get? key = none) :
    (map.insert key value).total weight = map.total weight + weight key value := by
  have permuted := (map.rows_insert_perm key value).map (fun row => weight row.1 row.2)
  rw [map.erase_of_get?_none absent] at permuted
  unfold total
  rw [permuted.sum_eq, List.map_cons, List.sum_cons, add_comm]

theorem total_erase_of_some (map : SortedMap κ β) {key : κ} {value : β}
    (found : map.get? key = some value) :
    (map.erase key).total weight + weight key value = map.total weight := by
  have permuted := (map.rows_perm_of_get? found).map (fun row => weight row.1 row.2)
  unfold total
  rw [permuted.sum_eq, List.map_cons, List.sum_cons, add_comm]

end Total

theorem sum_values {M : Type*} [AddCommMonoid M] (map : SortedMap κ β) (f : β → M) :
    (map.values.map f).sum = ∑ key ∈ map.keys.toFinset, ((map.get? key).map f).getD 0 := by
  rw [map.map_values f 0, List.sum_toFinset _ map.keys_nodup]

theorem size_insert_of_none (map : SortedMap κ β) {key : κ} (value : β)
    (absent : map.get? key = none) : (map.insert key value).size = map.size + 1 := by
  have permuted := (map.rows_insert_perm key value).length_eq
  rw [map.erase_of_get?_none absent, List.length_cons] at permuted
  exact permuted

/-! ### Inserting above every key -/

theorem rows_insert_above (map : SortedMap κ β) (key : κ) (value : β)
    (above : ∀ other ∈ map.keys, other < key) :
    (map.insert key value).rows = map.rows ++ [(key, value)] := by
  change SortedRows.insert key value map.rows = map.rows ++ [(key, value)]
  have rowsAbove : ∀ row ∈ map.rows, row.1 < key :=
    fun row member => above row.1 (List.mem_map_of_mem member)
  generalize map.rows = rows at rowsAbove
  induction rows with
  | nil => rfl
  | cons head rest ih =>
      have headBelow : head.1 < key := rowsAbove head List.mem_cons_self
      unfold SortedRows.insert
      rw [if_neg headBelow.not_gt, if_neg headBelow.ne', List.cons_append,
        ih (fun row member => rowsAbove row (List.mem_cons_of_mem _ member))]

theorem lastKey?_above (map : SortedMap κ β) {last : κ} (found : map.lastKey? = some last) :
    ∀ other ∈ map.keys, other ≤ last := by
  intro other member
  obtain ⟨front, split⟩ := List.getLast?_eq_some_iff.mp found
  rw [split, List.mem_append, List.mem_singleton] at member
  rcases member with earlier | same
  · have ordered := map.keys_ascending
    rw [split, List.pairwise_append] at ordered
    exact (ordered.2.2 other earlier last (List.mem_singleton.mpr rfl)).le
  · exact same.le

theorem lastKey?_mem (map : SortedMap κ β) {last : κ} (found : map.lastKey? = some last) :
    last ∈ map.keys :=
  List.mem_of_getLast? found

theorem lastKey?_none (map : SortedMap κ β) (absent : map.lastKey? = none) : map.rows = [] :=
  List.map_eq_nil_iff.mp (List.getLast?_eq_none_iff.mp absent)

theorem above_iff_lastKey? (map : SortedMap κ β) (key : κ) :
    (∀ other ∈ map.keys, other < key) ↔ ∀ last, map.lastKey? = some last → last < key := by
  constructor
  · exact fun above last found => above last (map.lastKey?_mem found)
  · intro above other member
    cases found : map.lastKey? with
    | none =>
        rw [keys, map.lastKey?_none found] at member
        cases member
    | some last => exact (map.lastKey?_above found other member).trans_lt (above last found)

theorem eq_of_rows {left right : SortedMap κ β} (same : left.rows = right.rows) :
    left = right := by
  cases left
  cases right
  cases same
  rfl

/-- One row more at the end is an insertion above every key. -/
theorem rows_append_single_iff (map result : SortedMap κ β) (key : κ) (value : β) :
    result.rows = map.rows ++ [(key, value)] ↔
      (∀ other ∈ map.keys, other < key) ∧ result = map.insert key value := by
  constructor
  · intro extended
    have above : ∀ other ∈ map.keys, other < key := by
      intro other member
      obtain ⟨row, rowMember, rfl⟩ := List.mem_map.mp member
      have ascending : (map.rows ++ [(key, value)]).Pairwise fun left right => left.1 < right.1 :=
        extended ▸ result.ascending
      exact (List.pairwise_append.mp ascending).2.2 row rowMember _ (List.mem_singleton.mpr rfl)
    exact ⟨above, eq_of_rows (extended.trans (map.rows_insert_above key value above).symm)⟩
  · rintro ⟨above, rfl⟩
    exact map.rows_insert_above key value above

theorem exists_rows_front (map : SortedMap κ β) {front back : List (κ × β)}
    (split : map.rows = front ++ back) : ∃ before : SortedMap κ β, before.rows = front := by
  have ascending : (front ++ back).Pairwise fun left right => left.1 < right.1 :=
    split ▸ map.ascending
  exact ⟨⟨front, (List.pairwise_append.mp ascending).1⟩, rfl⟩

private theorem get?_foldl_insert (rows : List (κ × β)) (map : SortedMap κ β) {key : κ}
    (absent : ∀ row ∈ rows, row.1 ≠ key) :
    (rows.foldl (fun map row => map.insert row.1 row.2) map).get? key = map.get? key := by
  induction rows generalizing map with
  | nil => rfl
  | cons row rest ih =>
      rw [List.foldl_cons, ih _ fun other member => absent other (List.mem_cons_of_mem row member),
        get?_insert_of_ne _ _ (absent row List.mem_cons_self)]

theorem get?_ofList_mem {rows : List (κ × β)} (distinct : (rows.map Prod.fst).Nodup)
    {row : κ × β} (member : row ∈ rows) : (ofList rows).get? row.1 = some row.2 := by
  obtain ⟨before, after, split⟩ := List.append_of_mem member
  rw [split, List.map_append, List.map_cons] at distinct
  have later := (List.nodup_cons.mp (List.nodup_append.mp distinct).2.1).1
  rw [ofList, split, List.foldl_append, List.foldl_cons, get?_foldl_insert, get?_insert_self]
  intro other inAfter same
  exact later (same ▸ List.mem_map_of_mem inAfter)

theorem get?_ofList_absent {rows : List (κ × β)} {key : κ} (absent : key ∉ rows.map Prod.fst) :
    (ofList rows).get? key = none := by
  rw [ofList, get?_foldl_insert, get?_empty]
  intro row member same
  exact absent (same ▸ List.mem_map_of_mem member)

theorem mem_keys_ofList {rows : List (κ × β)} (distinct : (rows.map Prod.fst).Nodup) (key : κ) :
    key ∈ (ofList rows).keys ↔ key ∈ rows.map Prod.fst := by
  constructor
  · intro member
    obtain ⟨value, found⟩ := (mem_keys _ key).mp member
    by_contra absent
    rw [get?_ofList_absent absent] at found
    cases found
  · intro member
    obtain ⟨row, inRows, same⟩ := List.mem_map.mp member
    exact (mem_keys _ key).mpr ⟨row.2, same ▸ get?_ofList_mem distinct inRows⟩

theorem get?_ofList_iff {rows : List (κ × β)} (distinct : (rows.map Prod.fst).Nodup) {key : κ}
    {value : β} : (ofList rows).get? key = some value ↔ (key, value) ∈ rows := by
  constructor
  · intro found
    by_cases member : key ∈ rows.map Prod.fst
    · obtain ⟨⟨other, stored⟩, inRows, same⟩ := List.mem_map.mp member
      subst same
      rw [get?_ofList_mem distinct inRows] at found
      cases found
      exact inRows
    · rw [get?_ofList_absent member] at found
      cases found
  · exact get?_ofList_mem distinct

theorem size_ofList {rows : List (κ × β)} (distinct : (rows.map Prod.fst).Nodup) :
    (ofList rows).size = rows.length := by
  have same : (ofList rows).keys.Perm (rows.map Prod.fst) :=
    (List.perm_ext_iff_of_nodup (ofList rows).keys_nodup distinct).mpr
      (mem_keys_ofList distinct)
  rw [← keys_length, same.length_eq, List.length_map]

theorem keys_eq_of_mem_iff {γ : Type*} {left : SortedMap κ β} {right : SortedMap κ γ}
    (same : ∀ key, key ∈ left.keys ↔ key ∈ right.keys) : left.keys = right.keys := by
  refine List.Perm.eq_of_pairwise ?_ left.keys_ascending right.keys_ascending ?_
  · intro first second _ _ forward backward
    exact absurd (forward.trans backward) (lt_irrefl _)
  · exact (List.perm_ext_iff_of_nodup left.keys_nodup right.keys_nodup).mpr same

theorem mem_keys_insert (map : SortedMap κ β) (key other : κ) (value : β) :
    other ∈ (map.insert key value).keys ↔ key = other ∨ other ∈ map.keys := by
  rw [mem_keys, mem_keys, ← contains_iff, ← contains_iff, contains_insert]

theorem keys_insert_congr {γ : Type*} {left : SortedMap κ β} {right : SortedMap κ γ}
    (same : left.keys = right.keys) (key : κ) (value : β) (other : γ) :
    (left.insert key value).keys = (right.insert key other).keys := by
  apply keys_eq_of_mem_iff
  intro candidate
  rw [mem_keys_insert, mem_keys_insert, same]

/-! ### Tables numbered from zero -/

section Dense

variable {table : SortedMap Nat β}

def Dense (table : SortedMap Nat β) : Prop := table.keys = List.range table.size

theorem dense_empty : (empty : SortedMap Nat β).Dense := rfl

theorem Dense.rows_eq (dense : table.Dense) :
    table.rows = table.values.mapIdx (fun index value => (index, value)) := by
  apply List.ext_getElem
  · rw [List.length_mapIdx, table.values_length, size]
  · intro index inside _
    rw [List.getElem_mapIdx]
    have key : table.keys[index]? = some index := by
      rw [dense, List.getElem?_range (by simpa [size] using inside)]
    simp only [keys, List.getElem?_map, List.getElem?_eq_getElem inside, Option.map_some,
      Option.some.injEq] at key
    apply Prod.ext key
    simp only [values, List.getElem_map]

theorem Dense.get? (dense : table.Dense) (index : Nat) : table.get? index = table.values[index]? := by
  apply Option.ext
  intro value
  rw [← table.mem_rows, dense.rows_eq, List.mem_mapIdx]
  constructor
  · rintro ⟨position, inside, same⟩
    cases same
    exact List.getElem?_eq_getElem inside
  · intro found
    obtain ⟨inside, same⟩ := List.getElem?_eq_some_iff.mp found
    exact ⟨index, inside, Prod.ext rfl same⟩

theorem Dense.contains (dense : table.Dense) (index : Nat) :
    table.contains index = true ↔ index < table.size := by
  rw [table.contains_iff, ← table.mem_keys, dense, List.mem_range]

private theorem filter_mapIdx (values : List β) (start lower upper : Nat) :
    ((values.mapIdx (fun index value => (index + start, value))).filter
      (fun row => lower ≤ row.1 ∧ row.1 < upper)).map Prod.snd =
      (values.drop (lower - start)).take (upper - max lower start) := by
  induction values generalizing start with
  | nil => simp
  | cons value rest ih =>
      have shifted : rest.mapIdx (fun index value => (index + 1 + start, value)) =
          rest.mapIdx (fun index value => (index + (start + 1), value)) := by
        congr 1
        funext index value
        rw [Nat.add_assoc, Nat.add_comm 1]
      rw [List.mapIdx_cons, Nat.zero_add, shifted]
      by_cases before : start < lower
      · rw [List.filter_cons_of_neg (by simp; omega), ih]
        have skip : lower - start = lower - (start + 1) + 1 := by omega
        rw [skip, List.drop_succ_cons]
        congr 1
        omega
      · by_cases inside : start < upper
        · rw [List.filter_cons_of_pos (by simp; omega), List.map_cons, ih]
          have none : lower - start = 0 := by omega
          have none' : lower - (start + 1) = 0 := by omega
          have count : upper - max lower start = upper - max lower (start + 1) + 1 := by omega
          rw [none, none', count, List.drop_zero, List.drop_zero, List.take_succ_cons]
        · rw [List.filter_cons_of_neg (by simp; omega), ih]
          have empty : upper - max lower start = 0 := by omega
          have empty' : upper - max lower (start + 1) = 0 := by omega
          rw [empty, empty', List.take_zero, List.take_zero]

theorem Dense.range_values (dense : table.Dense) (lower upper : Nat) :
    (table.range lower upper).map Prod.snd =
      (table.values.drop lower).take (upper - lower) := by
  have sliced := filter_mapIdx table.values 0 lower upper
  simp only [Nat.add_zero, Nat.sub_zero, Nat.max_zero] at sliced
  rw [range, dense.rows_eq, sliced]

end Dense

theorem mem_range {map : SortedMap κ β} {lower upper : κ} {row : κ × β} :
    row ∈ map.range lower upper ↔
      map.get? row.1 = some row.2 ∧ lower ≤ row.1 ∧ row.1 < upper := by
  rw [range, List.mem_filter, ← map.mem_rows]
  simp

theorem range_keys_ascending (map : SortedMap κ β) (lower upper : κ) :
    ((map.range lower upper).map Prod.fst).Pairwise (· < ·) :=
  List.pairwise_map.mpr (List.Pairwise.filter _ map.ascending)

/-- A key range has as many rows as keys exactly if every key is there. -/
theorem range_full_iff (table : SortedMap Nat β) (lower upper : Nat) :
    (table.range lower upper).length = upper - lower ↔
      ∀ index, lower ≤ index → index < upper → table.contains index = true := by
  have distinct := (table.range_keys_ascending lower upper).imp (fun below => below.ne)
  have included : ((table.range lower upper).map Prod.fst).toFinset ⊆ Finset.Ico lower upper := by
    intro index member
    obtain ⟨row, inRange, same⟩ := List.mem_map.mp (List.mem_toFinset.mp member)
    rw [Finset.mem_Ico, ← same]
    exact (mem_range.mp inRange).2
  have counted : ((table.range lower upper).map Prod.fst).toFinset.card =
      (table.range lower upper).length := by
    rw [List.toFinset_card_of_nodup distinct, List.length_map]
  constructor
  · intro full index start stop
    rw [← counted, ← Nat.card_Ico] at full
    have all := Finset.eq_of_subset_of_card_le included full.ge
    have member : index ∈ Finset.Ico lower upper := Finset.mem_Ico.mpr ⟨start, stop⟩
    rw [← all, List.mem_toFinset] at member
    obtain ⟨row, inRange, same⟩ := List.mem_map.mp member
    exact (table.contains_iff index).mpr ⟨row.2, same ▸ (mem_range.mp inRange).1⟩
  · intro all
    rw [← counted, ← Nat.card_Ico]
    congr 1
    apply Finset.Subset.antisymm included
    intro index member
    obtain ⟨start, stop⟩ := Finset.mem_Ico.mp member
    obtain ⟨value, found⟩ := (table.contains_iff index).mp (all index start stop)
    exact List.mem_toFinset.mpr (List.mem_map.mpr
      ⟨(index, value), mem_range.mpr ⟨found, start, stop⟩, rfl⟩)

/-- The rows of a full key range stand in the order of their keys. -/
theorem range_full_values {table : SortedMap Nat β} {lower upper : Nat}
    (full : (table.range lower upper).length = upper - lower) {offset : Nat}
    (inside : offset < upper - lower) :
    ((table.range lower upper).map Prod.snd)[offset]? = table.get? (lower + offset) := by
  have keys : (table.range lower upper).map Prod.fst = List.range' lower (upper - lower) := by
    have distinct := (table.range_keys_ascending lower upper).imp (fun below => below.ne)
    refine List.Perm.eq_of_pairwise ?_ (table.range_keys_ascending lower upper)
      List.pairwise_lt_range' ?_
    · intro first second _ _ forward backward
      exact absurd (forward.trans backward) (lt_irrefl _)
    · rw [List.perm_ext_iff_of_nodup distinct List.nodup_range']
      intro index
      rw [List.mem_range'_1]
      constructor
      · intro member
        obtain ⟨row, inRange, same⟩ := List.mem_map.mp member
        have bounds := (mem_range.mp inRange).2
        omega
      · intro bounds
        obtain ⟨value, found⟩ := (table.contains_iff index).mp
          ((table.range_full_iff lower upper).mp full index bounds.1 (by omega))
        exact List.mem_map.mpr ⟨(index, value), mem_range.mpr ⟨found, bounds.1, by omega⟩, rfl⟩
  have within : offset < (table.range lower upper).length := by omega
  have key : ((table.range lower upper).map Prod.fst)[offset]? = some (lower + offset) := by
    rw [keys, List.getElem?_range' inside, Nat.one_mul]
  rw [List.getElem?_map, List.getElem?_eq_getElem within, Option.map_some,
    Option.some.injEq] at key
  have found := (mem_range.mp (List.getElem_mem within)).1
  rw [List.getElem?_map, List.getElem?_eq_getElem within, Option.map_some, ← key, found]

end SortedMap

/-! ### Sets -/

abbrev SortedSet (κ : Type u) [LinearOrder κ] : Type u := SortedMap κ PUnit.{1}

namespace SortedSet

variable {κ : Type u} [LinearOrder κ]

/-- The set with the element added, and whether it was absent. -/
def insertNew (set : SortedSet κ) (item : κ) : Bool × SortedSet κ :=
  (!set.contains item, set.insert item ⟨⟩)

end SortedSet
