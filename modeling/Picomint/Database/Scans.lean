/-
Typed tables over a store of byte strings.

The store is an ordered map of byte strings.  A typed table writes the
encodings of its keys and values, and reads rows back by scanning a range of
byte strings and decoding each row.  Over any sequence of writes the store
holds exactly the encoded rows of the table, so a scan visits the rows of its
typed range, each once and in the order of the key tuples.
-/

import Picomint.Database.Keys

namespace Picomint
namespace Database

open Encoding

/-! ### The byte store -/

/-- What a typed table uses of the key-value store. -/
structure ByteStore (State : Type) where
  created : State
  get : State → Bytes → Option Bytes
  range : State → Bounds Bytes → List (Bytes × Bytes)
  insert : State → Bytes → Bytes → State × Option Bytes
  remove : State → Bytes → State × Option Bytes
  /-- Retain nothing within the bounds. -/
  removeIn : State → Bounds Bytes → State

/-- The store is a map, and a range lists the rows within its bounds in
ascending order of the keys. -/
structure ByteStore.Lawful {State : Type} (store : ByteStore State) : Prop where
  get_created : ∀ key, store.get store.created key = none
  get_insert : ∀ state key value other,
    store.get (store.insert state key value).1 other =
      if key = other then some value else store.get state other
  insert_previous : ∀ state key value, (store.insert state key value).2 = store.get state key
  get_remove : ∀ state key other,
    store.get (store.remove state key).1 other =
      if key = other then none else store.get state other
  remove_previous : ∀ state key, (store.remove state key).2 = store.get state key
  get_removeIn : ∀ state bounds key,
    store.get (store.removeIn state bounds) key =
      if Within BytesBelow bounds key then none else store.get state key
  mem_range : ∀ state bounds key value,
    (key, value) ∈ store.range state bounds ↔
      store.get state key = some value ∧ Within BytesBelow bounds key
  range_ascending : ∀ state bounds,
    (store.range state bounds).Pairwise fun left right => BytesBelow left.1 right.1

/-! ### Typed operations -/

section Operations

variable {State β : Type} (store : ByteStore State) {shape : List KeyElement}
  (valueCodec : Codec β)

def decode {α : Type} (codec : Codec α) (bytes : Bytes) : Option α :=
  (consensusDecode "stored" codec bytes).toOption

def decodeRow (row : Bytes × Bytes) : Option (Key shape × β) := do
  let key ← decode (keyCodec shape) row.1
  let value ← decode valueCodec row.2
  return (key, value)

def get (state : State) (key : Key shape) : Option (Option β) := do
  let keyBytes ← (keyCodec shape).consensusEncode key
  match store.get state keyBytes with
  | none => return none
  | some value => some <$> decode valueCodec value

/-- Every row within the bounds, from the low end or from the high end. -/
def scan (state : State) (bounds : Bounds Bytes) (rev : Bool) : Option (List (Key shape × β)) :=
  (if rev then (store.range state bounds).reverse else store.range state bounds).mapM
    (decodeRow valueCodec)

def iter (state : State) : Option (List (Key shape × β)) :=
  scan store valueCodec state UNBOUNDED false

def iterRev (state : State) : Option (List (Key shape × β)) :=
  scan store valueCodec state UNBOUNDED true

def scanPrefix (state : State) (count : Nat) (start : Key (shape.take count)) :
    Option (List (Key shape × β)) := do
  let bytes ← (keyCodec (shape.take count)).consensusEncode start
  scan store valueCodec state (prefixBounds bytes) false

def scanPrefixRev (state : State) (count : Nat) (start : Key (shape.take count)) :
    Option (List (Key shape × β)) := do
  let bytes ← (keyCodec (shape.take count)).consensusEncode start
  scan store valueCodec state (prefixBounds bytes) true

def encodeBound (codec : Codec β) : Bound β → Option (Bound Bytes)
  | .included key => Bound.included <$> codec.consensusEncode key
  | .excluded key => Bound.excluded <$> codec.consensusEncode key
  | .unbounded => some .unbounded

def encodedBounds (codec : Codec β) (range : Bounds β) : Option (Bounds Bytes) := do
  let start ← encodeBound codec range.1
  let last ← encodeBound codec range.2
  return (start, last)

def scanRange (state : State) (bounds : Bounds (Key shape)) : Option (List (Key shape × β)) := do
  let encoded ← encodedBounds (keyCodec shape) bounds
  scan store valueCodec state encoded false

def decodePrevious (result : State × Option Bytes) : Option (State × Option β) :=
  match result.2 with
  | none => some (result.1, none)
  | some value => do
      let previous ← decode valueCodec value
      return (result.1, some previous)

def insert (state : State) (key : Key shape) (value : β) : Option (State × Option β) := do
  let keyBytes ← (keyCodec shape).consensusEncode key
  let valueBytes ← valueCodec.consensusEncode value
  decodePrevious valueCodec (store.insert state keyBytes valueBytes)

def remove (state : State) (key : Key shape) : Option (State × Option β) := do
  let keyBytes ← (keyCodec shape).consensusEncode key
  decodePrevious valueCodec (store.remove state keyBytes)

def removePrefix (state : State) (count : Nat) (start : Key (shape.take count)) :
    Option State := do
  let bytes ← (keyCodec (shape.take count)).consensusEncode start
  return store.removeIn state (prefixBounds bytes)

def clearTable : State := store.created

/-- Write the rows one after the other. -/
def insertAll (state : State) (rows : List (Key shape × β)) : Option State :=
  rows.foldlM (fun state row => Prod.fst <$> insert store valueCodec state row.1 row.2) state

/-! ### Contents -/

def recorded (contents : Key shape → Option β) (row : Key shape × β) : Key shape → Option β :=
  Function.update contents row.1 (some row.2)

/-- The rows of the table after a sequence of writes. -/
inductive Stored : State → (Key shape → Option β) → Prop where
  | created : Stored store.created fun _ => none
  | inserted {state next : State} {contents : Key shape → Option β} {key : Key shape} {value : β}
      {previous : Option β} (stored : Stored state contents)
      (written : insert store valueCodec state key value = some (next, previous)) :
      Stored next (Function.update contents key (some value))
  | removed {state next : State} {contents : Key shape → Option β} {key : Key shape}
      {previous : Option β} (stored : Stored state contents)
      (written : remove store valueCodec state key = some (next, previous)) :
      Stored next (Function.update contents key none)
  | removedPrefix {state next : State} {contents : Key shape → Option β} {count : Nat}
      {start : Key (shape.take count)} (stored : Stored state contents)
      (written : removePrefix store state count start = some next) :
      Stored next fun key => if leading count shape key = start then none else contents key
  | cleared {state : State} {contents : Key shape → Option β} (stored : Stored state contents) :
      Stored (clearTable store) fun _ => none

/-- The store holds the encoded rows and nothing else. -/
structure Represents (state : State) (contents : Key shape → Option β) : Prop where
  get_key : ∀ key,
    store.get state (keyBytes shape key) = (contents key).bind valueCodec.consensusEncode
  encodable : ∀ key value, contents key = some value →
    (valueCodec.consensusEncode value).isSome
  onlyKeys : ∀ bytes value, store.get state bytes = some value →
    ∃ key, keyBytes shape key = bytes

end Operations

section Representation

variable {State β : Type} {store : ByteStore State} {shape : List KeyElement}
  {valueCodec : Codec β}

theorem decode_eq_some {α : Type} {codec : Codec α} (exact : codec.Exact fun _ => True)
    {bytes : Bytes} {value : α} :
    decode codec bytes = some value ↔ codec.consensusEncode value = some bytes := by
  unfold decode
  constructor
  · intro found
    cases decoded : consensusDecode "stored" codec bytes with
    | error fault =>
        rw [decoded] at found
        cases found
    | ok other =>
        rw [decoded] at found
        cases found
        exact exact.unique decoded
  · intro encoded
    have read := (exact.roundTrip_iff encoded).mpr trivial []
    rw [List.append_nil] at read
    rw [consensusDecode_eq_ok.mpr read]
    rfl

theorem decodeRow_eq_some (valueExact : valueCodec.Exact fun _ => True) {row : Bytes × Bytes}
    {typed : Key shape × β} :
    decodeRow valueCodec row = some typed ↔
      keyBytes shape typed.1 = row.1 ∧ valueCodec.consensusEncode typed.2 = some row.2 := by
  obtain ⟨key, value⟩ := typed
  simp only [decodeRow, Option.bind_eq_bind, Option.bind_eq_some_iff, Option.pure_def,
    Option.some.injEq, Prod.mk.injEq, decode_eq_some (keyCodec_exact shape),
    decode_eq_some valueExact, keyCodec_encode]
  constructor
  · rintro ⟨_, keySame, _, valueSame, rfl, rfl⟩
    exact ⟨keySame, valueSame⟩
  · rintro ⟨keySame, valueSame⟩
    exact ⟨key, keySame, value, valueSame, rfl, rfl⟩

theorem Represents.written {state next : State} {contents : Key shape → Option β}
    {key : Key shape} {change : Option β} (represents : Represents store valueCodec state contents)
    (encodable : ∀ value, change = some value → (valueCodec.consensusEncode value).isSome)
    (get_next : ∀ other, store.get next other =
      if keyBytes shape key = other then change.bind valueCodec.consensusEncode
      else store.get state other) :
    Represents store valueCodec next (Function.update contents key change) where
  get_key other := by
    rw [get_next]
    by_cases same : other = key
    · rw [same, if_pos rfl, Function.update_self]
    · rw [if_neg fun equal => same (keyBytes_injective equal).symm,
        Function.update_of_ne same, represents.get_key]
  encodable other value stored := by
    by_cases same : other = key
    · rw [same, Function.update_self] at stored
      exact encodable value stored
    · rw [Function.update_of_ne same] at stored
      exact represents.encodable other value stored
  onlyKeys bytes value found := by
    rw [get_next] at found
    split at found
    · rename_i same
      exact ⟨key, same⟩
    · exact represents.onlyKeys bytes value found

theorem decodePrevious_state {result : State × Option Bytes} {next : State} {previous : Option β}
    (decoded : decodePrevious valueCodec result = some (next, previous)) : result.1 = next := by
  unfold decodePrevious at decoded
  split at decoded
  · exact congrArg Prod.fst (Option.some.inj decoded)
  · simp only [Option.bind_eq_bind, Option.bind_eq_some_iff, Option.pure_def, Option.some.injEq,
      Prod.mk.injEq] at decoded
    obtain ⟨_, -, same, -⟩ := decoded
    exact same

theorem Stored.insertedAll {rows : List (Key shape × β)} {state next : State}
    {contents : Key shape → Option β} (stored : Stored store valueCodec state contents)
    (written : insertAll store valueCodec state rows = some next) :
    Stored store valueCodec next (rows.foldl recorded contents) := by
  induction rows generalizing state contents with
  | nil =>
      cases written
      exact stored
  | cons row rows ih =>
      simp only [insertAll, List.foldlM_cons, Option.bind_eq_bind, Option.bind_eq_some_iff,
        Option.map_eq_map, Option.map_eq_some_iff] at written
      obtain ⟨_, ⟨⟨middle, previous⟩, first, rfl⟩, rest⟩ := written
      exact ih (.inserted stored first) rest

/-- Every table reached by writes is represented by the store. -/
theorem Stored.represents (lawful : store.Lawful) {state : State}
    {contents : Key shape → Option β} (stored : Stored store valueCodec state contents) :
    Represents store valueCodec state contents := by
  have nothing : Represents store valueCodec store.created fun _ : Key shape => none :=
    { get_key := fun key => lawful.get_created _
      encodable := fun _ _ absurd => by cases absurd
      onlyKeys := fun bytes value found => by
        rw [lawful.get_created] at found
        cases found }
  induction stored with
  | created => exact nothing
  | inserted _ written ih =>
      simp only [insert, keyCodec_encode, Option.bind_eq_bind, Option.bind_some,
        Option.bind_eq_some_iff] at written
      obtain ⟨valueBytes, encoded, written⟩ := written
      rw [← decodePrevious_state written]
      refine ih.written ?_ fun other => ?_
      · intro other same
        cases same
        rw [encoded]
        rfl
      · rw [lawful.get_insert, Option.bind_some, encoded]
  | removed _ written ih =>
      simp only [remove, keyCodec_encode, Option.bind_eq_bind, Option.bind_some] at written
      rw [← decodePrevious_state written]
      exact ih.written (fun _ absurd => by cases absurd) fun other => lawful.get_remove _ _ _
  | removedPrefix _ written ih =>
      simp only [removePrefix, keyCodec_encode, Option.bind_eq_bind, Option.bind_some,
        Option.pure_def, Option.some.injEq] at written
      subst written
      constructor
      · intro key
        rw [lawful.get_removeIn]
        simp only [within_prefixBounds, keyBytes_startsWith]
        split
        · rfl
        · exact ih.get_key key
      · intro key value present
        split at present
        · cases present
        · exact ih.encodable key value present
      · intro bytes value found
        rw [lawful.get_removeIn] at found
        split at found
        · cases found
        · exact ih.onlyKeys bytes value found
  | cleared => exact nothing

theorem Represents.get {state : State} {contents : Key shape → Option β}
    (represents : Represents store valueCodec state contents)
    (valueExact : valueCodec.Exact fun _ => True) (key : Key shape) :
    get store valueCodec state key = some (contents key) := by
  simp only [Database.get, keyCodec_encode, Option.bind_eq_bind, Option.bind_some,
    represents.get_key]
  cases present : contents key with
  | none => rfl
  | some value =>
      obtain ⟨bytes, encoded⟩ :=
        Option.isSome_iff_exists.mp (represents.encodable key value present)
      simp [encoded, (decode_eq_some valueExact).mpr encoded]

/-! ### Scans -/

/-- The rows are those of the table whose keys satisfy the condition, each
once, in the order of the keys. -/
structure Visits (rows : List (Key shape × β)) (contents : Key shape → Option β)
    (condition : Key shape → Prop) : Prop where
  ascending : rows.Pairwise fun left right => KeyBelow shape left.1 right.1
  once : (rows.map Prod.fst).Nodup
  exact : ∀ key value, (key, value) ∈ rows ↔ contents key = some value ∧ condition key

theorem mapM_eq_filterMap {α γ : Type} {f : α → Option γ} {items : List α}
    (every : ∀ item ∈ items, (f item).isSome) : items.mapM f = some (items.filterMap f) := by
  induction items with
  | nil => rfl
  | cons item items ih =>
      obtain ⟨first, rest⟩ := List.forall_mem_cons.mp every
      obtain ⟨result, found⟩ := Option.isSome_iff_exists.mp first
      rw [List.mapM_cons, found, ih rest, List.filterMap_cons_some found]
      rfl

theorem scan_ascending (lawful : store.Lawful) (valueExact : valueCodec.Exact fun _ => True)
    {state : State} {bounds : Bounds Bytes} {rows : List (Key shape × β)}
    (found : scan store valueCodec state bounds false = some rows) :
    rows.Pairwise fun left right => keyBytes shape left.1 < keyBytes shape right.1 := by
  have decoded : ∀ (stored : List (Bytes × Bytes)) (typed : List (Key shape × β)),
      stored.mapM (decodeRow valueCodec) = some typed →
        typed = stored.filterMap (decodeRow valueCodec) := by
    intro stored
    induction stored with
    | nil =>
        intro typed same
        cases same
        rfl
    | cons row stored ih =>
        intro typed same
        simp only [List.mapM_cons, Option.bind_eq_bind, Option.bind_eq_some_iff, Option.pure_def,
          Option.some.injEq] at same
        obtain ⟨first, isFirst, rest, isRest, rfl⟩ := same
        rw [List.filterMap_cons_some isFirst, ih rest isRest]
  rw [decoded _ _ found, List.pairwise_filterMap]
  refine (lawful.range_ascending state bounds).imp fun {left right} below => ?_
  intro first firstRow second secondRow
  rw [((decodeRow_eq_some valueExact).mp firstRow).1,
    ((decodeRow_eq_some valueExact).mp secondRow).1]
  exact below

theorem Represents.scan {state : State} {contents : Key shape → Option β}
    (represents : Represents store valueCodec state contents) (lawful : store.Lawful)
    (valueExact : valueCodec.Exact fun _ => True) (unsigned : Unsigned shape)
    {bounds : Bounds Bytes} {condition : Key shape → Prop}
    (within : ∀ key, Within BytesBelow bounds (keyBytes shape key) ↔ condition key) :
    ∃ rows, scan store valueCodec state bounds false = some rows ∧
      scan store valueCodec state bounds true = some rows.reverse ∧
        Visits rows contents condition := by
  have every : ∀ row ∈ store.range state bounds,
      (decodeRow valueCodec row : Option (Key shape × β)).isSome := by
    rintro ⟨bytes, valueBytes⟩ member
    have found := ((lawful.mem_range _ _ _ _).mp member).1
    obtain ⟨key, rfl⟩ := represents.onlyKeys bytes valueBytes found
    rw [represents.get_key, Option.bind_eq_some_iff] at found
    obtain ⟨value, -, encoded⟩ := found
    exact Option.isSome_iff_exists.mpr
      ⟨(key, value), (decodeRow_eq_some valueExact).mpr ⟨rfl, encoded⟩⟩
  have forward : Database.scan store valueCodec state bounds false =
      some ((store.range state bounds).filterMap (decodeRow valueCodec)) :=
    mapM_eq_filterMap every
  have ascending : ((store.range state bounds).filterMap (decodeRow valueCodec)).Pairwise
      fun (left right : Key shape × β) => KeyBelow shape left.1 right.1 :=
    (scan_ascending lawful valueExact forward).imp fun {_ _} below =>
      (keyBytes_lt_iff unsigned).mp below
  refine ⟨(store.range state bounds).filterMap (decodeRow valueCodec), forward, ?_, ascending,
    ?_, ?_⟩
  · rw [← List.filterMap_reverse]
    exact mapM_eq_filterMap fun row member => every row (List.mem_reverse.mp member)
  · rw [List.Nodup, List.pairwise_map]
    refine ascending.imp fun {left right} below same => ?_
    rw [same, ← keyBytes_lt_iff unsigned] at below
    exact lt_irrefl _ below
  · intro key value
    rw [List.mem_filterMap]
    constructor
    · rintro ⟨⟨bytes, valueBytes⟩, member, decoded⟩
      obtain ⟨rfl, encoded⟩ := (decodeRow_eq_some valueExact).mp decoded
      obtain ⟨found, inBounds⟩ := (lawful.mem_range _ _ _ _).mp member
      rw [represents.get_key, Option.bind_eq_some_iff] at found
      obtain ⟨other, present, otherEncoded⟩ := found
      obtain rfl := valueExact.injective trivial trivial encoded otherEncoded
      exact ⟨present, (within key).mp inBounds⟩
    · rintro ⟨present, satisfied⟩
      obtain ⟨valueBytes, encoded⟩ :=
        Option.isSome_iff_exists.mp (represents.encodable key value present)
      refine ⟨(keyBytes shape key, valueBytes), (lawful.mem_range _ _ _ _).mpr ⟨?_, ?_⟩, ?_⟩
      · rw [represents.get_key, present, Option.bind_some, encoded]
      · exact (within key).mpr satisfied
      · exact (decodeRow_eq_some valueExact).mpr ⟨rfl, encoded⟩

theorem encodedBounds_eq (bounds : Bounds (Key shape)) :
    encodedBounds (keyCodec shape) bounds =
      some (bounds.1.map (keyBytes shape), bounds.2.map (keyBytes shape)) := by
  obtain ⟨start, last⟩ := bounds
  cases start <;> cases last <;>
    simp [encodedBounds, encodeBound, keyCodec_encode, Bound.map]

theorem within_encodedBounds (unsigned : Unsigned shape) (bounds : Bounds (Key shape))
    (key : Key shape) :
    Within BytesBelow (bounds.1.map (keyBytes shape), bounds.2.map (keyBytes shape))
        (keyBytes shape key) ↔ Within (KeyBelow shape) bounds key := by
  have same : ∀ left right, keyBytes shape left = keyBytes shape right ↔ left = right :=
    fun left right => ⟨keyBytes_injective, congrArg (keyBytes shape)⟩
  obtain ⟨start, last⟩ := bounds
  cases start <;> cases last <;>
    simp [Within, Bound.Start, Bound.End, Bound.map, BytesBelow, keyBytes_lt_iff unsigned, same]

end Representation

/-! ### Every scan of every table -/

section Exactness

variable {State β : Type} (store : ByteStore State) {shape : List KeyElement}
  (valueCodec : Codec β)

/-- The scans of a table with the given contents visit exactly the right
rows, and the reverse scans visit them backwards. -/
structure ScansExact (state : State) (contents : Key shape → Option β) : Prop where
  iter : ∃ rows, iter store valueCodec state = some rows ∧
    iterRev store valueCodec state = some rows.reverse ∧ Visits rows contents fun _ => True
  scanPrefix : ∀ count (start : Key (shape.take count)), ∃ rows,
    scanPrefix store valueCodec state count start = some rows ∧
      scanPrefixRev store valueCodec state count start = some rows.reverse ∧
        Visits rows contents fun key => leading count shape key = start
  scanRange : ∀ bounds, ∃ rows, scanRange store valueCodec state bounds = some rows ∧
    Visits rows contents (Within (KeyBelow shape) bounds)
  removePrefix : ∀ count (start : Key (shape.take count)), ∃ next rows,
    removePrefix store state count start = some next ∧
      Database.iter store valueCodec next = some rows ∧
        Visits rows contents fun key => leading count shape key ≠ start

variable {store valueCodec}

theorem Represents.iter {state : State} {contents : Key shape → Option β}
    (represents : Represents store valueCodec state contents) (lawful : store.Lawful)
    (valueExact : valueCodec.Exact fun _ => True) (unsigned : Unsigned shape) :
    ∃ rows, iter store valueCodec state = some rows ∧
      iterRev store valueCodec state = some rows.reverse ∧ Visits rows contents fun _ => True :=
  represents.scan lawful valueExact unsigned fun _ => by
    simp [Within, UNBOUNDED, Bound.Start, Bound.End]

theorem stored_scans_exact (lawful : store.Lawful) (valueCanonical : valueCodec.Canonical)
    (unsigned : Unsigned shape) {state : State} {contents : Key shape → Option β}
    (stored : Stored store valueCodec state contents) :
    ScansExact store valueCodec state contents := by
  have valueExact := Codec.canonical_iff_exact.mp valueCanonical
  have represents := stored.represents lawful
  refine ⟨represents.iter lawful valueExact unsigned, fun count start => ?_, fun bounds => ?_,
    fun count start => ?_⟩
  · simp only [scanPrefix, scanPrefixRev, keyCodec_encode, Option.bind_eq_bind, Option.bind_some]
    exact represents.scan lawful valueExact unsigned fun key => by
      rw [within_prefixBounds, keyBytes_startsWith]
  · simp only [scanRange, encodedBounds_eq, Option.bind_eq_bind, Option.bind_some]
    obtain ⟨rows, forward, -, visits⟩ := represents.scan lawful valueExact unsigned
      (within_encodedBounds unsigned bounds)
    exact ⟨rows, forward, visits⟩
  · have written : removePrefix store state count start =
        some (store.removeIn state (prefixBounds (keyBytes _ start))) := by
      simp [removePrefix, keyCodec_encode]
    obtain ⟨rows, forward, -, visits⟩ :=
      ((stored.removedPrefix written).represents lawful).iter lawful valueExact unsigned
    refine ⟨_, rows, written, forward, visits.ascending, visits.once, fun key value => ?_⟩
    rw [visits.exact, and_true]
    by_cases atStart : leading count shape key = start
    · simp [atStart]
    · simp [atStart]

theorem pairwise_either {α : Type} {related : α → α → Prop} {items : List α}
    (pairwise : items.Pairwise related) {first second : α} (isFirst : first ∈ items)
    (isSecond : second ∈ items) (different : first ≠ second) :
    related first second ∨ related second first := by
  have symmetric : Std.Symm fun left right => related left right ∨ related right left :=
    ⟨fun _ _ => Or.symm⟩
  have eitherWay : items.Pairwise fun left right => related left right ∨ related right left :=
    pairwise.imp fun {_ _} holds => Or.inl holds
  exact eitherWay.forall isFirst isSecond different

/-- A table that holds the keys of one and minus one is not listed in their
order. -/
theorem signed_scan_not_exact (lawful : store.Lawful) (valueCanonical : valueCodec.Canonical)
    (signed : ¬ Unsigned shape) {state : State} {contents : Key shape → Option β} {value : β}
    (one : contents (signedKey 1 shape) = some value)
    (minusOne : contents (signedKey (-1) shape) = some value) :
    ¬ ScansExact store valueCodec state contents := by
  intro scans
  have valueExact := Codec.canonical_iff_exact.mp valueCanonical
  have bytesBelow := keyBytes_signedKey_lt signed
  obtain ⟨rows, forward, -, visits⟩ := scans.iter
  have ordered := (scan_ascending lawful valueExact forward).and visits.ascending
  have different : (signedKey 1 shape, value) ≠ (signedKey (-1) shape, value) := by
    intro same
    rw [(Prod.mk.inj same).1] at bytesBelow
    exact lt_irrefl _ bytesBelow
  rcases pairwise_either ordered ((visits.exact _ _).mpr ⟨one, trivial⟩)
    ((visits.exact _ _).mpr ⟨minusOne, trivial⟩) different with ⟨-, below⟩ | ⟨before, -⟩
  · exact not_keyBelow_signedKey shape below
  · exact before.not_gt bytesBelow

end Exactness

/-! ### A map of byte strings -/

def sortedStore : ByteStore (SortedMap Bytes Bytes) where
  created := .empty
  get := SortedMap.get?
  range state bounds := state.rows.filter fun row => decide (Within BytesBelow bounds row.1)
  insert state key value := (state.insert key value, state.get? key)
  remove state key := (state.erase key, state.get? key)
  removeIn state bounds :=
    { rows := state.rows.filter fun row => !decide (Within BytesBelow bounds row.1)
      ascending := state.ascending.filter _ }

theorem sortedStore_lawful : sortedStore.Lawful where
  get_created _ := rfl
  get_insert state key value other := by
    change (state.insert key value).get? other = _
    rw [SortedMap.get?_insert]
    congr
  insert_previous _ _ _ := rfl
  get_remove state key other := by
    change (state.erase key).get? other = _
    rw [SortedMap.get?_erase]
    congr
  remove_previous _ _ := rfl
  get_removeIn state bounds key := by
    apply Option.ext
    intro value
    rw [sortedStore, ← SortedMap.mem_rows, List.mem_filter]
    by_cases inside : Within BytesBelow bounds key
    · simp [inside]
    · simp [inside, SortedMap.mem_rows]
  mem_range state bounds key value := by
    simp [sortedStore, SortedMap.mem_rows]
  range_ascending state bounds := state.ascending.filter _

theorem insert_absent {State : Type} {store : ByteStore State} (lawful : store.Lawful)
    {shape : List KeyElement} {state : State} {key : Key shape}
    (absent : store.get state (keyBytes shape key) = none) :
    insert store unitCodec state key () =
      some ((store.insert state (keyBytes shape key) []).1, none) := by
  have empty : unitCodec.consensusEncode () = some [] := rfl
  simp only [insert, keyCodec_encode, empty, Option.bind_eq_bind, Option.bind_some, decodePrevious,
    lawful.insert_previous, absent]

/-! ### Exactly the unsigned shapes -/

/-- Every scan of every table of a shape is exact if and only if no element of
the shape is a signed integer. -/
theorem stored_scans_exact_iff (shape : List KeyElement) :
    ((∀ {State β : Type} (store : ByteStore State) (valueCodec : Codec β), store.Lawful →
        valueCodec.Canonical → ∀ (state : State) (contents : Key shape → Option β),
          Stored store valueCodec state contents → ScansExact store valueCodec state contents) ↔
      Unsigned shape) ∧
    (∀ start text : Bytes, start <+: text ↔
      start ≤ text ∧ ∀ bound, prefixUpperBound start = some bound → text < bound) ∧
    ∀ start : Bytes, prefixUpperBound start = none ↔ ∀ byte ∈ start, byte = 255 := by
  refine ⟨⟨fun every => ?_, fun unsigned _ _ store valueCodec lawful canonical _ _ stored =>
    stored_scans_exact lawful canonical unsigned stored⟩, startsWith_iff,
    fun _ => prefixUpperBound_eq_none⟩
  by_contra signed
  have canonical := Codec.canonical_iff_exact.mpr unitCodec_exact
  have different := (keyBytes_signedKey_lt signed).ne
  have written := insert_absent sortedStore_lawful
    (sortedStore_lawful.get_created (keyBytes shape (signedKey 1 shape)))
  have absent : sortedStore.get (sortedStore.insert sortedStore.created
      (keyBytes shape (signedKey 1 shape)) []).1 (keyBytes shape (signedKey (-1) shape)) = none := by
    rw [sortedStore_lawful.get_insert, if_neg different, sortedStore_lawful.get_created]
  have writtenToo := insert_absent sortedStore_lawful absent
  refine signed_scan_not_exact sortedStore_lawful canonical signed ?_
    (Function.update_self ..) (every _ _ sortedStore_lawful canonical _ _
      (Stored.inserted (Stored.inserted .created written) writtenToo))
  rw [Function.update_of_ne fun same => different (congrArg _ same), Function.update_self]

/-! Rows on both sides of a carry, under the greatest leading element, and one
that is removed again. -/

def addressKey (first : UInt64) (second : UInt32) (third : UInt64) : Key [.u64, .u32, .u64] :=
  (first, second, third, ())

def addressRows : List (Key [.u64, .u32, .u64] × Unit) :=
  [(addressKey 2 0 0, ()), (addressKey 1 2 5, ()), (addressKey 1 2 9, ()), (addressKey 1 3 0, ()),
    (addressKey 1 1 7, ()), (addressKey 1 255 3, ()), (addressKey 1 256 0, ()),
    (addressKey 18446744073709551615 4 4, ())]

theorem stored_scans_sample : ∃ written state,
    insertAll sortedStore unitCodec .empty addressRows = some written ∧
    remove sortedStore unitCodec written (addressKey 1 1 7) = some (state, some ()) ∧
    ScansExact sortedStore unitCodec state
      (Function.update (addressRows.foldl recorded fun _ => none) (addressKey 1 1 7) none) ∧
    scanPrefix sortedStore unitCodec state 2 (1, 255, ()) = some [(addressKey 1 255 3, ())] ∧
    scanPrefixRev sortedStore unitCodec state 2 (1, 2, ()) =
      some [(addressKey 1 2 9, ()), (addressKey 1 2 5, ())] ∧
    scanPrefix sortedStore unitCodec state 1 (18446744073709551615, ()) =
      some [(addressKey 18446744073709551615 4 4, ())] ∧
    scanRange sortedStore unitCodec state (.included (addressKey 1 2 0),
        .included (addressKey 1 2 18446744073709551615)) =
      some [(addressKey 1 2 5, ()), (addressKey 1 2 9, ())] := by
  have written : insertAll sortedStore unitCodec .empty addressRows = some _ := rfl
  exact ⟨_, _, written, rfl, (stored_scans_exact_iff [.u64, .u32, .u64]).1.mpr (by decide)
    sortedStore unitCodec sortedStore_lawful (Codec.canonical_iff_exact.mpr unitCodec_exact) _ _
    (Stored.removed (Stored.created.insertedAll written) rfl), rfl, rfl, rfl, rfl⟩

/-- The table of signed keys that holds one and minus one. -/
def signedTable : SortedMap Bytes Bytes :=
  SortedMap.insert (SortedMap.insert .empty [0, 0, 0, 1] []) [255, 255, 255, 255] []

theorem signed_keys_not_ascending :
    ¬ ∀ (shape : List KeyElement) (state : SortedMap Bytes Bytes)
      (contents : Key shape → Option Unit),
      Stored sortedStore unitCodec state contents →
        ScansExact sortedStore unitCodec state contents := by
  intro exact
  have one : insert sortedStore unitCodec .empty (signedKey 1 [.i32]) () =
      some (SortedMap.insert .empty [0, 0, 0, 1] [], none) := rfl
  have both : insert sortedStore unitCodec (SortedMap.insert .empty [0, 0, 0, 1] [])
      (signedKey (-1) [.i32]) () = some (signedTable, none) := rfl
  obtain ⟨rows, forward, -, visits⟩ :=
    (exact _ _ _ (Stored.inserted (Stored.inserted .created one) both)).iter
  have listed : iter sortedStore unitCodec signedTable =
      some [(signedKey 1 [.i32], ()), (signedKey (-1) [.i32], ())] := rfl
  obtain rfl := Option.some.inj (listed.symm.trans forward)
  exact not_keyBelow_signedKey _
    ((List.pairwise_cons.mp visits.ascending).1 _ (List.mem_singleton.mpr rfl))

end Database
end Picomint
