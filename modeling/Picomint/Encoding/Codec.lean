/-
The consensus encoding: writing a value, reading it back from a stream, and
reading it from a whole buffer.

A type is encodable through a writer and a decoder.  The writer refuses only
a collection longer than its length prefix can count, where the program stops.
A codec is exact for a set of values when its decoder reads precisely the
encodings of those values: nothing else is accepted, and nothing is lost.
-/

import Picomint.Lib.BigEndian
import Picomint.Lib.Decoder

namespace Picomint
namespace Encoding

inductive Fault where
  | unexpectedEof
  | invalidData (message : String)
  deriving DecidableEq, Repr

abbrev ByteDecoder (α : Type) : Type := Decoder UInt8 Fault α

/-- The implementations of `Encodable` and `Decodable` for one type.  The
encoding is absent where writing it stops the program. -/
structure Codec (α : Type) where
  consensusEncode : α → Option (List UInt8)
  consensusDecodePartial : ByteDecoder α

def readExact (count : Nat) : ByteDecoder (List UInt8) :=
  Decoder.readExact count .unexpectedEof

def invalidData {α : Type} (message : String) : ByteDecoder α :=
  Decoder.fail (.invalidData message)

/-- Two values written one after the other. -/
def andThen (first second : Option (List UInt8)) : Option (List UInt8) := do
  let front ← first
  let back ← second
  return front ++ back

theorem andThen_eq_some {first second : Option (List UInt8)} {bytes : List UInt8} :
    andThen first second = some bytes ↔
      ∃ front back, first = some front ∧ second = some back ∧ bytes = front ++ back := by
  cases first <;> cases second <;> simp [andThen, eq_comm]

/-- Decode a whole buffer, refusing bytes that remain. -/
def consensusDecode {α : Type} (typeName : String) (codec : Codec α) (bytes : List UInt8) :
    Except Fault α :=
  match codec.consensusDecodePartial.run bytes with
  | .error fault => .error fault
  | .ok (value, reader) =>
      if reader = [] then .ok value
      else .error (.invalidData s!"trailing bytes after decoding {typeName}")

theorem consensusDecode_eq_ok {α : Type} {typeName : String} {codec : Codec α}
    {bytes : List UInt8} {value : α} :
    consensusDecode typeName codec bytes = .ok value ↔
      codec.consensusDecodePartial.run bytes = .ok (value, []) := by
  unfold consensusDecode
  cases found : codec.consensusDecodePartial.run bytes with
  | error fault => simp
  | ok result =>
      obtain ⟨other, reader⟩ := result
      by_cases emptied : reader = []
      · simp [emptied]
      · simp [emptied]

namespace Codec

variable {α : Type}

/-- Every encoding decodes to its value in front of any rest, and a buffer
that decodes as a whole is the encoding of the value it gives. -/
structure Canonical (codec : Codec α) : Prop where
  roundTrip : ∀ value bytes rest, codec.consensusEncode value = some bytes →
    codec.consensusDecodePartial.run (bytes ++ rest) = .ok (value, rest)
  unique : ∀ typeName bytes value, consensusDecode typeName codec bytes = .ok value →
    codec.consensusEncode value = some bytes

/-- What is read is the encoding of a value that satisfies the predicate, and
every such encoding is read. -/
def Exact (codec : Codec α) (clear : α → Prop) : Prop :=
  codec.consensusDecodePartial.Reads fun value used =>
    codec.consensusEncode value = some used ∧ clear value

variable {codec : Codec α} {clear : α → Prop}

theorem canonical_iff_exact : codec.Canonical ↔ codec.Exact fun _ => True := by
  have relation : (codec.Exact fun _ => True) ↔ codec.consensusDecodePartial.Reads
      fun value used => codec.consensusEncode value = some used :=
    ⟨fun exact => exact.of_iff fun _ _ => and_iff_left trivial,
      fun reads => reads.of_iff fun _ _ => (and_iff_left trivial).symm⟩
  rw [relation, Decoder.reads_encode_iff]
  constructor
  · intro canonical
    exact ⟨canonical.roundTrip, fun bytes value whole =>
      canonical.unique "" bytes value (consensusDecode_eq_ok.mpr whole)⟩
  · rintro ⟨roundTrip, whole⟩
    exact ⟨roundTrip, fun _ bytes value decoded =>
      whole bytes value (consensusDecode_eq_ok.mp decoded)⟩

theorem Exact.roundTrip_iff (exact : codec.Exact clear) {value : α} {bytes : List UInt8}
    (encoded : codec.consensusEncode value = some bytes) :
    (∀ rest, codec.consensusDecodePartial.run (bytes ++ rest) = .ok (value, rest)) ↔
      clear value := by
  constructor
  · intro roundTrip
    obtain ⟨used, ⟨-, clearValue⟩, -⟩ := (exact _ _ _).mp (roundTrip [])
    exact clearValue
  · intro clearValue rest
    exact (exact _ _ _).mpr ⟨bytes, ⟨encoded, clearValue⟩, rfl⟩

theorem Exact.unique (exact : codec.Exact clear) {typeName : String} {bytes : List UInt8}
    {value : α} (decoded : consensusDecode typeName codec bytes = .ok value) :
    codec.consensusEncode value = some bytes := by
  obtain ⟨used, ⟨encoded, -⟩, split⟩ := (exact _ _ _).mp (consensusDecode_eq_ok.mp decoded)
  rw [split, List.append_nil]
  exact encoded

theorem Exact.injective (exact : codec.Exact clear) {left right : α} {bytes : List UInt8}
    (leftClear : clear left) (rightClear : clear right)
    (leftEncoded : codec.consensusEncode left = some bytes)
    (rightEncoded : codec.consensusEncode right = some bytes) : left = right := by
  have decoded := (exact.roundTrip_iff leftEncoded).mpr leftClear []
  rw [(exact.roundTrip_iff rightEncoded).mpr rightClear []] at decoded
  cases decoded
  rfl

theorem Exact.of_iff {other : α → Prop} (exact : codec.Exact clear)
    (same : ∀ value, clear value ↔ other value) : codec.Exact other :=
  Decoder.Reads.of_iff exact fun value _ => and_congr_right fun _ => same value

end Codec

/-! ### Fixed-width integers -/

/-- An integer is written as the big-endian bytes of its bit pattern. -/
def intCodec {α : Type} (width : Nat) (toBits : α → Nat) (ofBits : Nat → α) : Codec α where
  consensusEncode value := some (toBigEndian width (toBits value))
  consensusDecodePartial := do
    let buffer ← readExact width
    return ofBits (ofBigEndian buffer)

def u8Codec : Codec UInt8 := intCodec 1 UInt8.toNat UInt8.ofNat
def u16Codec : Codec UInt16 := intCodec 2 UInt16.toNat UInt16.ofNat
def u32Codec : Codec UInt32 := intCodec 4 UInt32.toNat UInt32.ofNat
def u64Codec : Codec UInt64 := intCodec 8 UInt64.toNat UInt64.ofNat
def i32Codec : Codec Int32 :=
  intCodec 4 (fun value => value.toUInt32.toNat) fun bits => (UInt32.ofNat bits).toInt32

theorem intCodec_exact {α : Type} {width : Nat} {toBits : α → Nat} {ofBits : Nat → α}
    (bounded : ∀ value, toBits value < 256 ^ width)
    (ofToBits : ∀ value, ofBits (toBits value) = value)
    (toOfBits : ∀ bits < 256 ^ width, toBits (ofBits bits) = bits) :
    (intCodec width toBits ofBits).Exact fun _ => True := by
  refine (Decoder.Reads.bind (Decoder.Reads.readExact width Fault.unexpectedEof)
    fun buffer _ _ => Decoder.Reads.pure (ofBits (ofBigEndian buffer))).of_iff fun value used => ?_
  constructor
  · rintro ⟨buffer, front, back, ⟨rfl, full⟩, ⟨rfl, rfl⟩, rfl⟩
    have fits : ofBigEndian buffer < 256 ^ width := full ▸ ofBigEndian_lt buffer
    refine ⟨?_, trivial⟩
    simp only [intCodec, Option.some.injEq, List.append_nil]
    rw [toOfBits _ fits, ← full, toBigEndian_ofBigEndian]
  · rintro ⟨encoded, -⟩
    simp only [intCodec, Option.some.injEq] at encoded
    subst encoded
    refine ⟨_, _, [], ⟨rfl, toBigEndian_length _ _⟩, ⟨?_, rfl⟩, (List.append_nil _).symm⟩
    rw [ofBigEndian_toBigEndian (bounded value), ofToBits]

theorem u8Codec_exact : u8Codec.Exact fun _ => True :=
  intCodec_exact (fun value => value.toNat_lt) (fun _ => UInt8.ofNat_toNat)
    fun _ fits => UInt8.toNat_ofNat_of_lt' fits

theorem u16Codec_exact : u16Codec.Exact fun _ => True :=
  intCodec_exact (fun value => value.toNat_lt) (fun _ => UInt16.ofNat_toNat)
    fun _ fits => UInt16.toNat_ofNat_of_lt' fits

theorem u32Codec_exact : u32Codec.Exact fun _ => True :=
  intCodec_exact (fun value => value.toNat_lt) (fun _ => UInt32.ofNat_toNat)
    fun _ fits => UInt32.toNat_ofNat_of_lt' fits

theorem u64Codec_exact : u64Codec.Exact fun _ => True :=
  intCodec_exact (fun value => value.toNat_lt) (fun _ => UInt64.ofNat_toNat)
    fun _ fits => UInt64.toNat_ofNat_of_lt' fits

theorem i32Codec_exact : i32Codec.Exact fun _ => True := by
  refine intCodec_exact (fun value => value.toUInt32.toNat_lt) ?_ ?_
  · intro value
    simp
  · intro bits fits
    simpa using UInt32.toNat_ofNat_of_lt' fits

/-! ### Flags and the unit -/

theorem u8Codec_encode (value : UInt8) : u8Codec.consensusEncode value = some [value] := by
  simp [u8Codec, intCodec, toBigEndian]

theorem reads_tag {α : Type} {next : UInt8 → ByteDecoder α}
    (grammar : UInt8 → α → List UInt8 → Prop) (reads : ∀ tag, (next tag).Reads (grammar tag)) :
    (u8Codec.consensusDecodePartial >>= next).Reads fun result used =>
      ∃ tag body, grammar tag result body ∧ used = tag :: body := by
  refine (Decoder.Reads.bind u8Codec_exact fun tag _ _ => reads tag).of_iff fun result used => ?_
  simp only [u8Codec_encode, Option.some.injEq, and_true]
  constructor
  · rintro ⟨tag, front, body, rfl, later, rfl⟩
    exact ⟨tag, body, later, rfl⟩
  · rintro ⟨tag, body, later, rfl⟩
    exact ⟨tag, [tag], body, rfl, later, rfl⟩

/-- One byte chooses between two decoders; `bool`, `Option` and `Result`
share it. -/
def readFlag {α : Type} (typeName : String) (zero one : ByteDecoder α) : ByteDecoder α := do
  match ← u8Codec.consensusDecodePartial with
  | 0 => zero
  | 1 => one
  | n => invalidData s!"{typeName}: expected 0/1, got {n}"

theorem reads_readFlag {α : Type} {typeName : String} {zero one : ByteDecoder α}
    {zeroGrammar oneGrammar : α → List UInt8 → Prop} (zeroReads : zero.Reads zeroGrammar)
    (oneReads : one.Reads oneGrammar) :
    (readFlag typeName zero one).Reads fun result used =>
      ∃ body, zeroGrammar result body ∧ used = 0 :: body ∨
        oneGrammar result body ∧ used = 1 :: body := by
  refine (reads_tag (fun tag result body =>
    tag = 0 ∧ zeroGrammar result body ∨ tag = 1 ∧ oneGrammar result body) ?_).of_iff ?_
  · intro tag
    split
    · exact zeroReads.of_iff (by simp)
    · exact oneReads.of_iff (by simp)
    · rename_i notZero notOne
      refine (Decoder.Reads.fail _).of_iff fun result used => ?_
      constructor
      · exact False.elim
      · rintro (⟨isZero, -⟩ | ⟨isOne, -⟩)
        · exact notZero isZero
        · exact notOne isOne
  · intro result used
    constructor
    · rintro ⟨tag, body, ⟨rfl, read⟩ | ⟨rfl, read⟩, rfl⟩
      · exact ⟨body, Or.inl ⟨read, rfl⟩⟩
      · exact ⟨body, Or.inr ⟨read, rfl⟩⟩
    · rintro ⟨body, ⟨read, rfl⟩ | ⟨read, rfl⟩⟩
      · exact ⟨0, body, Or.inl ⟨rfl, read⟩, rfl⟩
      · exact ⟨1, body, Or.inr ⟨rfl, read⟩, rfl⟩

def boolCodec : Codec Bool where
  consensusEncode value := u8Codec.consensusEncode (if value then 1 else 0)
  consensusDecodePartial := readFlag "bool" (return false) (return true)

theorem boolCodec_exact : boolCodec.Exact fun _ => True := by
  refine (reads_readFlag (Decoder.Reads.pure false) (Decoder.Reads.pure true)).of_iff ?_
  intro value used
  cases value <;> simp [boolCodec, u8Codec_encode, eq_comm]

def unitCodec : Codec Unit where
  consensusEncode _ := some []
  consensusDecodePartial := return ()

theorem unitCodec_exact : unitCodec.Exact fun _ => True := by
  refine (Decoder.Reads.pure ()).of_iff fun value used => ?_
  simp [unitCodec, eq_comm]

end Encoding
end Picomint
