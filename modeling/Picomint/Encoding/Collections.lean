/-
Codecs of the containers: options and results, boxes, sequences with and
without a length prefix, strings, and the ordered maps and sets.

A counted collection writes its length as a `u32` and stops the program when
the length does not fit.  The maps and sets refuse a key that is not above
the one before it.
-/

import Mathlib.Data.Vector.Basic
import Picomint.Encoding.Codec
import Picomint.Lib.SortedMap

namespace Picomint
namespace Encoding

variable {α β : Type}

/-! ### Options, results and boxes -/

def optionCodec (codec : Codec α) : Codec (Option α) where
  consensusEncode
    | none => u8Codec.consensusEncode 0
    | some value => andThen (u8Codec.consensusEncode 1) (codec.consensusEncode value)
  consensusDecodePartial := readFlag "Option" (return none) do
    let value ← codec.consensusDecodePartial
    return some value

theorem optionCodec_exact {codec : Codec α} {clear : α → Prop} (exact : codec.Exact clear) :
    (optionCodec codec).Exact fun value => ∀ inner, value = some inner → clear inner := by
  refine (reads_readFlag (Decoder.Reads.pure none)
    (exact.bind fun value _ _ => Decoder.Reads.pure (some value))).of_iff fun value used => ?_
  cases value with
  | none => simp [optionCodec, u8Codec_encode, eq_comm]
  | some inner =>
      simp only [optionCodec, u8Codec_encode, andThen_eq_some]
      constructor
      · rintro ⟨_, ⟨⟨absurd, -⟩, -⟩ |
          ⟨⟨_, front, _, ⟨encoded, clearInner⟩, ⟨same, rfl⟩, rfl⟩, rfl⟩⟩
        · cases absurd
        · cases same
          exact ⟨⟨[1], front, rfl, encoded, by simp⟩, by simpa using clearInner⟩
      · rintro ⟨⟨_, body, same, encoded, rfl⟩, clearInner⟩
        cases same
        exact ⟨body, Or.inr ⟨⟨inner, body, [], ⟨encoded, clearInner inner rfl⟩, ⟨rfl, rfl⟩,
          (List.append_nil body).symm⟩, rfl⟩⟩

def resultCodec (okCodec : Codec α) (errCodec : Codec β) : Codec (Except β α) where
  consensusEncode
    | .error fault => andThen (u8Codec.consensusEncode 0) (errCodec.consensusEncode fault)
    | .ok value => andThen (u8Codec.consensusEncode 1) (okCodec.consensusEncode value)
  consensusDecodePartial := readFlag "Result"
    (do
      let fault ← errCodec.consensusDecodePartial
      return .error fault)
    (do
      let value ← okCodec.consensusDecodePartial
      return .ok value)

theorem resultCodec_exact {okCodec : Codec α} {errCodec : Codec β} {okClear : α → Prop}
    {errClear : β → Prop} (okExact : okCodec.Exact okClear) (errExact : errCodec.Exact errClear) :
    (resultCodec okCodec errCodec).Exact fun result =>
      (∀ fault, result = .error fault → errClear fault) ∧
        ∀ value, result = .ok value → okClear value := by
  refine (reads_readFlag
    (errExact.bind fun fault _ _ => Decoder.Reads.pure (Except.error fault))
    (okExact.bind fun value _ _ => Decoder.Reads.pure (Except.ok value))).of_iff
    fun result used => ?_
  cases result with
  | error fault =>
      simp only [resultCodec, u8Codec_encode, andThen_eq_some]
      constructor
      · rintro ⟨_, ⟨⟨_, front, _, ⟨encoded, clearFault⟩, ⟨same, rfl⟩, rfl⟩, rfl⟩ |
          ⟨⟨_, _, _, _, ⟨absurd, -⟩, -⟩, -⟩⟩
        · cases same
          exact ⟨⟨[0], front, rfl, encoded, by simp⟩, by simpa using clearFault⟩
        · cases absurd
      · rintro ⟨⟨_, body, same, encoded, rfl⟩, clearFault, -⟩
        cases same
        exact ⟨body, Or.inl ⟨⟨fault, body, [], ⟨encoded, clearFault fault rfl⟩, ⟨rfl, rfl⟩,
          (List.append_nil body).symm⟩, rfl⟩⟩
  | ok value =>
      simp only [resultCodec, u8Codec_encode, andThen_eq_some]
      constructor
      · rintro ⟨_, ⟨⟨_, _, _, _, ⟨absurd, -⟩, -⟩, -⟩ |
          ⟨⟨_, front, _, ⟨encoded, clearValue⟩, ⟨same, rfl⟩, rfl⟩, rfl⟩⟩
        · cases absurd
        · cases same
          exact ⟨⟨[1], front, rfl, encoded, by simp⟩, by simpa using clearValue⟩
      · rintro ⟨⟨_, body, same, encoded, rfl⟩, -, clearValue⟩
        cases same
        exact ⟨body, Or.inr ⟨⟨value, body, [], ⟨encoded, clearValue value rfl⟩, ⟨rfl, rfl⟩,
          (List.append_nil body).symm⟩, rfl⟩⟩

def boxCodec (codec : Codec α) : Codec α where
  consensusEncode value := codec.consensusEncode value
  consensusDecodePartial := do
    let value ← codec.consensusDecodePartial
    return value

theorem boxCodec_exact {codec : Codec α} {clear : α → Prop} (exact : codec.Exact clear) :
    (boxCodec codec).Exact clear := exact

/-! ### Sequences -/

def encodeItems (encode : α → Option (List UInt8)) : List α → Option (List UInt8)
  | [] => some []
  | item :: items => andThen (encode item) (encodeItems encode items)

theorem sequence_encodeItems {encode : α → Option (List UInt8)} {clear : α → Prop}
    {items : List α} {used : List UInt8} :
    Decoder.Sequence (fun item bytes => encode item = some bytes ∧ clear item) items used ↔
      encodeItems encode items = some used ∧ ∀ item ∈ items, clear item := by
  induction items generalizing used with
  | nil => simp [Decoder.Sequence, encodeItems, eq_comm]
  | cons item items ih =>
      simp only [Decoder.Sequence, encodeItems, andThen_eq_some, ih, List.forall_mem_cons]
      constructor
      · rintro ⟨front, back, ⟨encoded, clearItem⟩, ⟨later, clearItems⟩, rfl⟩
        exact ⟨⟨front, back, encoded, later, rfl⟩, clearItem, clearItems⟩
      · rintro ⟨⟨front, back, encoded, later, rfl⟩, clearItem, clearItems⟩
        exact ⟨front, back, ⟨encoded, clearItem⟩, ⟨later, clearItems⟩, rfl⟩

/-- The length prefix.  A collection longer than a `u32` stops the program. -/
def encodeLength (length : Nat) : Option (List UInt8) :=
  if length < 2 ^ 32 then u32Codec.consensusEncode (UInt32.ofNat length) else none

theorem encodeLength_eq_some {length : Nat} {bytes : List UInt8} :
    encodeLength length = some bytes ↔
      ∃ count : UInt32, count.toNat = length ∧ u32Codec.consensusEncode count = some bytes := by
  unfold encodeLength
  constructor
  · intro written
    split at written
    · rename_i fits
      exact ⟨UInt32.ofNat length, UInt32.toNat_ofNat_of_lt' fits, written⟩
    · cases written
  · rintro ⟨count, rfl, written⟩
    rw [if_pos count.toNat_lt, UInt32.ofNat_toNat]
    exact written

theorem reads_counted {next : Nat → ByteDecoder α} {grammar : Nat → α → List UInt8 → Prop}
    (reads : ∀ length, (next length).Reads (grammar length)) :
    (do
      let len ← u32Codec.consensusDecodePartial
      next len.toNat : ByteDecoder α).Reads fun result used =>
        ∃ length front back, encodeLength length = some front ∧ grammar length result back ∧
          used = front ++ back := by
  refine (u32Codec_exact.bind fun len _ _ => reads len.toNat).of_iff fun result used => ?_
  simp only [encodeLength_eq_some, and_true]
  constructor
  · rintro ⟨count, front, back, encoded, read, rfl⟩
    exact ⟨count.toNat, front, back, ⟨count, rfl, encoded⟩, read, rfl⟩
  · rintro ⟨_, front, back, ⟨count, rfl, encoded⟩, read, rfl⟩
    exact ⟨count, front, back, encoded, read, rfl⟩

def pushItem (codec : Codec α) (items : List α) : ByteDecoder (List α) := do
  let item ← codec.consensusDecodePartial
  return items ++ [item]

theorem reads_pushItems {codec : Codec α} {clear : α → Prop} (exact : codec.Exact clear)
    (count : Nat) :
    (Decoder.repeatInto (pushItem codec) count []).Reads fun items used =>
      items.length = count ∧ encodeItems codec.consensusEncode items = some used ∧
        ∀ item ∈ items, clear item := by
  refine (Decoder.Reads.repeatInto
    (fun item bytes => codec.consensusEncode item = some bytes ∧ clear item)
    (fun front items result => result = front ++ items) (by simp) (by simp)
    (fun front => (exact.bind fun item _ _ =>
      Decoder.Reads.pure (front ++ [item])).of_iff fun result used => ?_) count []).of_iff
    fun items used => ?_
  · constructor
    · rintro ⟨item, written, _, read, ⟨rfl, rfl⟩, rfl⟩
      exact ⟨item, by simpa using read, rfl⟩
    · rintro ⟨item, read, rfl⟩
      exact ⟨item, used, [], read, ⟨rfl, rfl⟩, (List.append_nil used).symm⟩
  · rw [← sequence_encodeItems]
    constructor
    · rintro ⟨_, counted, sequence, rfl⟩
      exact ⟨counted, sequence⟩
    · rintro ⟨counted, sequence⟩
      exact ⟨items, counted, sequence, rfl⟩

def vecCodec (codec : Codec α) : Codec (List α) where
  consensusEncode items :=
    andThen (encodeLength items.length) (encodeItems codec.consensusEncode items)
  consensusDecodePartial := do
    let len ← u32Codec.consensusDecodePartial
    Decoder.repeatInto (pushItem codec) len.toNat []

theorem vecCodec_exact {codec : Codec α} {clear : α → Prop} (exact : codec.Exact clear) :
    (vecCodec codec).Exact fun items => ∀ item ∈ items, clear item := by
  refine (reads_counted (reads_pushItems exact)).of_iff fun items used => ?_
  simp only [vecCodec, andThen_eq_some]
  constructor
  · rintro ⟨_, front, back, written, ⟨rfl, encoded, clearItems⟩, rfl⟩
    exact ⟨⟨front, back, written, encoded, rfl⟩, clearItems⟩
  · rintro ⟨⟨front, back, written, encoded, rfl⟩, clearItems⟩
    exact ⟨items.length, front, back, written, ⟨rfl, encoded, clearItems⟩, rfl⟩

/-- Bytes are written and read in one piece. -/
def byteVecCodec : Codec (List UInt8) where
  consensusEncode bytes := andThen (encodeLength bytes.length) (some bytes)
  consensusDecodePartial := do
    let len ← u32Codec.consensusDecodePartial
    readExact len.toNat

theorem byteVecCodec_exact : byteVecCodec.Exact fun _ => True := by
  refine (reads_counted fun length =>
    Decoder.Reads.readExact length Fault.unexpectedEof).of_iff fun bytes used => ?_
  simp only [byteVecCodec, andThen_eq_some, and_true, Option.some.injEq]
  constructor
  · rintro ⟨_, front, back, written, ⟨rfl, rfl⟩, rfl⟩
    exact ⟨front, bytes, written, rfl, rfl⟩
  · rintro ⟨front, back, written, rfl, rfl⟩
    exact ⟨bytes.length, front, bytes, written, ⟨rfl, rfl⟩, rfl⟩

def filledArray {count : Nat} (buffer : List UInt8) (full : buffer.length = count) :
    List.Vector UInt8 count := ⟨buffer, full⟩

def readArray (count : Nat) : ByteDecoder (List.Vector UInt8 count) := do
  let buffer ← readExact count
  if full : buffer.length = count then return filledArray buffer full
  else Decoder.fail .unexpectedEof

def byteArrayCodec (count : Nat) : Codec (List.Vector UInt8 count) where
  consensusEncode bytes := some bytes.toList
  consensusDecodePartial := readArray count

theorem byteArrayCodec_exact (count : Nat) : (byteArrayCodec count).Exact fun _ => True := by
  refine ((Decoder.Reads.readExact count Fault.unexpectedEof).bind fun buffer used read =>
    show Decoder.Reads _ fun (bytes : List.Vector UInt8 count) used =>
      bytes.toList = buffer ∧ used = [] from ?_).of_iff fun bytes used => ?_
  · have full : buffer.length = count := read.1 ▸ read.2
    rw [dif_pos full]
    refine (Decoder.Reads.pure _).of_iff fun bytes used => and_congr_left fun _ => ?_
    exact Subtype.ext_iff
  · simp only [byteArrayCodec, Option.some.injEq, and_true]
    constructor
    · rintro ⟨_, _, _, ⟨rfl, -⟩, ⟨same, rfl⟩, rfl⟩
      rw [same, List.append_nil]
    · rintro rfl
      exact ⟨_, _, [], ⟨rfl, bytes.toList_length⟩, ⟨rfl, rfl⟩, (List.append_nil _).symm⟩

def decodeArray (codec : Codec α) : (count : Nat) → ByteDecoder (List.Vector α count)
  | 0 => return .nil
  | count + 1 => do
      let item ← codec.consensusDecodePartial
      let items ← decodeArray codec count
      return item ::ᵥ items

/-- An array has no length prefix. -/
def arrayCodec (codec : Codec α) (count : Nat) : Codec (List.Vector α count) where
  consensusEncode items := encodeItems codec.consensusEncode items.toList
  consensusDecodePartial := decodeArray codec count

theorem arrayCodec_exact {codec : Codec α} {clear : α → Prop} (exact : codec.Exact clear)
    (count : Nat) :
    (arrayCodec codec count).Exact fun items => ∀ item ∈ items.toList, clear item := by
  induction count with
  | zero =>
      refine (Decoder.Reads.pure List.Vector.nil).of_iff fun items used => ?_
      simp [arrayCodec, encodeItems, List.Vector.eq_nil items, eq_comm]
  | succ count ih =>
      refine (exact.bind fun item _ _ => ih.bind fun items _ _ =>
        Decoder.Reads.pure (item ::ᵥ items)).of_iff fun items used => ?_
      simp only [arrayCodec, ← sequence_encodeItems]
      constructor
      · rintro ⟨item, front, _, read, ⟨items, back, _, readItems, ⟨rfl, rfl⟩, rfl⟩, rfl⟩
        rw [List.append_nil]
        exact ⟨front, back, read, readItems, rfl⟩
      · intro sequence
        obtain ⟨item, items, rfl⟩ := items.exists_eq_cons
        obtain ⟨front, back, read, readItems, rfl⟩ := sequence
        exact ⟨item, front, back, read, ⟨items, back, [], readItems, ⟨rfl, rfl⟩,
          (List.append_nil back).symm⟩, rfl⟩

/-! ### Strings -/

def utf8Bytes (text : String) : List UInt8 := text.toUTF8.data.toList

def fromUtf8 (bytes : List UInt8) : Option String := String.fromUTF8? ⟨bytes.toArray⟩

theorem fromUtf8_eq_some {bytes : List UInt8} {text : String} :
    fromUtf8 bytes = some text ↔ bytes = utf8Bytes text := by
  unfold fromUtf8 String.fromUTF8? utf8Bytes
  constructor
  · intro found
    split at found
    · cases found
      rfl
    · cases found
  · rintro rfl
    exact dif_pos text.isValidUTF8

def stringCodec : Codec String where
  consensusEncode text := byteVecCodec.consensusEncode (utf8Bytes text)
  consensusDecodePartial := do
    let bytes ← byteVecCodec.consensusDecodePartial
    match fromUtf8 bytes with
    | some text => return text
    | none => invalidData "invalid UTF-8"

theorem stringCodec_exact : stringCodec.Exact fun _ => True := by
  refine (byteVecCodec_exact.bind fun bytes _ _ =>
    show Decoder.Reads _ fun text used => bytes = utf8Bytes text ∧ used = [] from ?_).of_iff
    fun text used => ?_
  · split
    · rename_i text found
      obtain rfl := fromUtf8_eq_some.mp found
      refine (Decoder.Reads.pure text).of_iff fun other used => and_congr_left fun _ => ?_
      rw [← fromUtf8_eq_some, found, Option.some.injEq, eq_comm]
    · rename_i invalid
      refine (Decoder.Reads.fail _).of_iff fun text used => ?_
      rw [← fromUtf8_eq_some, invalid]
      simp
  · constructor
    · rintro ⟨_, front, _, read, ⟨rfl, rfl⟩, rfl⟩
      rw [List.append_nil]
      exact read
    · exact fun read => ⟨_, used, [], read, ⟨rfl, rfl⟩, (List.append_nil used).symm⟩

/-! ### Maps and sets -/

section Ordered

variable {κ : Type} [LinearOrder κ]

def notAbove (map : SortedMap κ β) (key : κ) : Bool :=
  map.lastKey?.any fun previous => key ≤ previous

theorem notAbove_eq_false {map : SortedMap κ β} {key : κ} :
    notAbove map key = false ↔ ∀ other ∈ map.keys, other < key := by
  rw [map.above_iff_lastKey? key, notAbove]
  cases map.lastKey? with
  | none => simp
  | some last => simp

/-- Read one entry: the key is checked before its value is read. -/
def mapEntry (keyCodec : Codec κ) (valueCodec : Codec β) (map : SortedMap κ β) :
    ByteDecoder (SortedMap κ β) := do
  let key ← keyCodec.consensusDecodePartial
  if notAbove map key then invalidData "BTreeMap: non-canonical key order"
  else
    let value ← valueCodec.consensusDecodePartial
    if map.contains key then invalidData "BTreeMap: duplicate key"
    else return map.insert key value

def mapCodec (keyCodec : Codec κ) (valueCodec : Codec β) : Codec (SortedMap κ β) where
  consensusEncode map :=
    andThen (encodeLength map.size)
      (encodeItems (fun entry => andThen (keyCodec.consensusEncode entry.1)
        (valueCodec.consensusEncode entry.2)) map.rows)
  consensusDecodePartial := do
    let len ← u32Codec.consensusDecodePartial
    Decoder.repeatInto (mapEntry keyCodec valueCodec) len.toNat .empty

theorem reads_mapEntry {keyCodec : Codec κ} {valueCodec : Codec β} {keyClear : κ → Prop}
    {valueClear : β → Prop} (keyExact : keyCodec.Exact keyClear)
    (valueExact : valueCodec.Exact valueClear) (map : SortedMap κ β) :
    (mapEntry keyCodec valueCodec map).Reads fun result used =>
      ∃ entry : κ × β,
        (andThen (keyCodec.consensusEncode entry.1) (valueCodec.consensusEncode entry.2) =
            some used ∧ keyClear entry.1 ∧ valueClear entry.2) ∧
          result.rows = map.rows ++ [entry] := by
  refine (keyExact.bind fun key _ _ =>
    show Decoder.Reads _ fun (result : SortedMap κ β) used =>
      ∃ value, (valueCodec.consensusEncode value = some used ∧ valueClear value) ∧
        result.rows = map.rows ++ [(key, value)] from ?_).of_iff fun result used => ?_
  · cases ordered : notAbove map key with
    | true =>
        refine (Decoder.Reads.fail _).of_iff fun result used => ?_
        constructor
        · exact False.elim
        · rintro ⟨value, -, extended⟩
          have above := notAbove_eq_false.mpr ((map.rows_append_single_iff _ _ _).mp extended).1
          exact absurd (ordered.symm.trans above) (by decide)
    | false =>
        have above := notAbove_eq_false.mp ordered
        have fresh : map.contains key = false := by
          rw [← Bool.not_eq_true, map.contains_iff, ← map.mem_keys]
          exact fun member => (above key member).false
        simp only [fresh, Bool.false_eq_true, if_false]
        refine (valueExact.bind fun value _ _ =>
          Decoder.Reads.pure (map.insert key value)).of_iff fun result used => ?_
        simp only [map.rows_append_single_iff]
        constructor
        · rintro ⟨value, front, _, read, ⟨rfl, rfl⟩, rfl⟩
          exact ⟨value, by simpa using read, above, rfl⟩
        · rintro ⟨value, read, -, rfl⟩
          exact ⟨value, used, [], read, ⟨rfl, rfl⟩, (List.append_nil used).symm⟩
  · simp only [andThen_eq_some]
    constructor
    · rintro ⟨key, front, back, ⟨encodedKey, clearKey⟩,
        ⟨value, ⟨encodedValue, clearValue⟩, extended⟩, rfl⟩
      exact ⟨(key, value), ⟨⟨front, back, encodedKey, encodedValue, rfl⟩, clearKey, clearValue⟩,
        extended⟩
    · rintro ⟨⟨key, value⟩, ⟨⟨front, back, encodedKey, encodedValue, rfl⟩, clearKey, clearValue⟩,
        extended⟩
      exact ⟨key, front, back, ⟨encodedKey, clearKey⟩,
        ⟨value, ⟨encodedValue, clearValue⟩, extended⟩, rfl⟩

/-- A loop whose steps add one row above the others reads the rows of the
map it returns. -/
theorem reads_rows {step : SortedMap κ β → ByteDecoder (SortedMap κ β)}
    {grammar : κ × β → List UInt8 → Prop}
    (stepReads : ∀ map, (step map).Reads fun result used =>
      ∃ entry, grammar entry used ∧ result.rows = map.rows ++ [entry]) (count : Nat) :
    (Decoder.repeatInto step count SortedMap.empty).Reads fun map used =>
      map.size = count ∧ Decoder.Sequence grammar map.rows used := by
  refine (Decoder.Reads.repeatInto grammar
    (fun (map : SortedMap κ β) entries (result : SortedMap κ β) =>
      result.rows = map.rows ++ entries) ?_ ?_ stepReads count SortedMap.empty).of_iff
    fun map used => ?_
  · intro map result
    rw [List.append_nil]
    exact ⟨SortedMap.eq_of_rows, congrArg SortedMap.rows⟩
  · intro map entry entries result
    constructor
    · intro extended
      obtain ⟨middle, rows⟩ := result.exists_rows_front
        (extended.trans (List.append_cons map.rows entry entries))
      exact ⟨middle, rows, by rw [extended, rows, List.append_assoc]; rfl⟩
    · rintro ⟨middle, rows, extended⟩
      rw [extended, rows, List.append_assoc]
      rfl
  · constructor
    · rintro ⟨_, counted, sequence, rows⟩
      obtain rfl : map.rows = _ := rows
      exact ⟨counted, sequence⟩
    · rintro ⟨counted, sequence⟩
      exact ⟨map.rows, counted, sequence, rfl⟩

theorem mapCodec_exact {keyCodec : Codec κ} {valueCodec : Codec β} {keyClear : κ → Prop}
    {valueClear : β → Prop} (keyExact : keyCodec.Exact keyClear)
    (valueExact : valueCodec.Exact valueClear) :
    (mapCodec keyCodec valueCodec).Exact fun map =>
      ∀ entry ∈ map.rows, keyClear entry.1 ∧ valueClear entry.2 := by
  refine (reads_counted (reads_rows (reads_mapEntry keyExact valueExact))).of_iff
    fun map used => ?_
  rw [mapCodec, andThen_eq_some]
  constructor
  · rintro ⟨_, front, back, written, ⟨rfl, sequence⟩, rfl⟩
    obtain ⟨encoded, clear⟩ := sequence_encodeItems.mp sequence
    exact ⟨⟨front, back, written, encoded, rfl⟩, clear⟩
  · rintro ⟨⟨front, back, written, encoded, rfl⟩, clear⟩
    exact ⟨map.size, front, back, written, ⟨rfl, sequence_encodeItems.mpr ⟨encoded, clear⟩⟩, rfl⟩

def setElement (keyCodec : Codec κ) (set : SortedSet κ) : ByteDecoder (SortedSet κ) := do
  let key ← keyCodec.consensusDecodePartial
  if notAbove set key then invalidData "BTreeSet: non-canonical order"
  else
    let (fresh, extended) := set.insertNew key
    if !fresh then invalidData "BTreeSet: duplicate element"
    else return extended

def setCodec (keyCodec : Codec κ) : Codec (SortedSet κ) where
  consensusEncode set :=
    andThen (encodeLength set.size)
      (encodeItems (fun entry => keyCodec.consensusEncode entry.1) set.rows)
  consensusDecodePartial := do
    let len ← u32Codec.consensusDecodePartial
    Decoder.repeatInto (setElement keyCodec) len.toNat .empty

theorem reads_setElement {keyCodec : Codec κ} {keyClear : κ → Prop}
    (keyExact : keyCodec.Exact keyClear) (set : SortedSet κ) :
    (setElement keyCodec set).Reads fun result used =>
      ∃ entry : κ × PUnit,
        (keyCodec.consensusEncode entry.1 = some used ∧ keyClear entry.1) ∧
          result.rows = set.rows ++ [entry] := by
  refine (keyExact.bind fun key _ _ =>
    show Decoder.Reads _ fun (result : SortedSet κ) used =>
      used = [] ∧ result.rows = set.rows ++ [(key, ⟨⟩)] from ?_).of_iff fun result used => ?_
  · cases ordered : notAbove set key with
    | true =>
        refine (Decoder.Reads.fail _).of_iff fun result used => ?_
        constructor
        · exact False.elim
        · rintro ⟨-, extended⟩
          have above := notAbove_eq_false.mpr ((set.rows_append_single_iff _ _ _).mp extended).1
          exact absurd (ordered.symm.trans above) (by decide)
    | false =>
        have above := notAbove_eq_false.mp ordered
        have fresh : set.contains key = false := by
          rw [← Bool.not_eq_true, set.contains_iff, ← set.mem_keys]
          exact fun member => (above key member).false
        simp only [SortedSet.insertNew, fresh, Bool.not_false, Bool.not_true, Bool.false_eq_true,
          if_false]
        refine (Decoder.Reads.pure _).of_iff fun result used => ?_
        rw [set.rows_append_single_iff, and_iff_right above, and_comm]
  · constructor
    · rintro ⟨key, front, _, read, ⟨rfl, extended⟩, rfl⟩
      exact ⟨(key, ⟨⟩), by simpa using read, extended⟩
    · rintro ⟨⟨key, _⟩, read, extended⟩
      exact ⟨key, used, [], read, ⟨rfl, extended⟩, (List.append_nil used).symm⟩

theorem setCodec_exact {keyCodec : Codec κ} {keyClear : κ → Prop}
    (keyExact : keyCodec.Exact keyClear) :
    (setCodec keyCodec).Exact fun set => ∀ key ∈ set.keys, keyClear key := by
  refine (reads_counted (reads_rows (reads_setElement keyExact))).of_iff fun set used => ?_
  simp only [setCodec, andThen_eq_some]
  rw [SortedMap.keys, List.forall_mem_map]
  constructor
  · rintro ⟨_, front, back, written, ⟨rfl, sequence⟩, rfl⟩
    obtain ⟨encoded, clear⟩ := sequence_encodeItems.mp sequence
    exact ⟨⟨front, back, written, encoded, rfl⟩, clear⟩
  · rintro ⟨⟨front, back, written, encoded, rfl⟩, clear⟩
    exact ⟨set.size, front, back, written, ⟨rfl, sequence_encodeItems.mpr ⟨encoded, clear⟩⟩, rfl⟩

end Ordered

end Encoding
end Picomint
