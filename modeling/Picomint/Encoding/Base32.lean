/-
The text form of a value: its encoding in base32, after a fixed tag.

Five bits make a letter, from the low end of the bytes.  The bits that remain
make a last letter, and decoding drops them again.
-/

import Picomint.Encoding.Collections
import Picomint.Lib.Regroup

namespace Picomint
namespace Encoding

/-- Lowercase RFC 4648 base32hex alphabet. -/
def RFC4648 : List Char := "0123456789abcdefghijklmnopqrstuv".toList

def PREFIX : List Char := "picomint".toList

inductive TextFault where
  | invalidPrefix
  | invalidCharacter
  | decode (fault : Fault)
  deriving DecidableEq, Repr

def letter (value : Nat) : Char := RFC4648.getD value '0'

/-- The decode table. -/
def letterValue (char : Char) : Option Nat := RFC4648.idxOf? char

def emptyBuffer : Regroup.Buffer :=
  { value := 0
    bits := 0 }

def encodeBytes (input : List UInt8) : List Char :=
  let (output, buffer) := Regroup.regroup 8 5 emptyBuffer (input.map UInt8.toNat)
  let values := if 0 < buffer.bits then output ++ [buffer.value &&& 31] else output
  values.map letter

def decodeBytes (input : List Char) : Except TextFault (List UInt8) :=
  match input.mapM letterValue with
  | none => .error .invalidCharacter
  | some values => .ok ((Regroup.regroup 5 8 emptyBuffer values).1.map UInt8.ofNat)

/-- `to_lowercase`; besides the capital letters the Kelvin sign has an ASCII
lowercase letter. -/
def toLowercase (text : List Char) : List Char :=
  text.map fun char => if char = '\u212A' then 'k' else char.toLower

def toAsciiUppercase (text : List Char) : List Char := text.map Char.toUpper

/-- `encode`, absent where writing the value stops the program. -/
def encodeText {α : Type} (codec : Codec α) (value : α) : Option (List Char) :=
  (codec.consensusEncode value).map fun bytes => PREFIX ++ encodeBytes bytes

def decodeText {α : Type} (typeName : String) (codec : Codec α) (text : List Char) :
    Except TextFault α :=
  let text := toLowercase text
  if PREFIX.isPrefixOf text then
    match decodeBytes (text.drop PREFIX.length) with
    | .error fault => .error fault
    | .ok bytes =>
        match consensusDecode typeName codec bytes with
        | .error fault => .error (.decode fault)
        | .ok value => .ok value
  else .error .invalidPrefix

/-! ### Round trip -/

theorem letterValue_letter {value : Nat} (small : value < 32) :
    letterValue (letter value) = some value := by
  have every : ∀ value : Fin 32, letterValue (letter value) = some value.val := by decide
  exact every ⟨value, small⟩

theorem toLowercase_letter {value : Nat} (small : value < 32) :
    toLowercase [letter value] = [letter value] := by
  have every : ∀ value : Fin 32, toLowercase [letter value] = [letter value.val] := by decide
  exact every ⟨value, small⟩

theorem toLowercase_toAsciiUppercase_letter {value : Nat} (small : value < 32) :
    toLowercase (toAsciiUppercase [letter value]) = [letter value] := by
  have every : ∀ value : Fin 32,
      toLowercase (toAsciiUppercase [letter value]) = [letter value.val] := by decide
  exact every ⟨value, small⟩

theorem mapM_letterValue {values : List Nat} (small : ∀ value ∈ values, value < 32) :
    (values.map letter).mapM letterValue = some values := by
  induction values with
  | nil => rfl
  | cons value values ih =>
      obtain ⟨first, rest⟩ := List.forall_mem_cons.mp small
      rw [List.map_cons, List.mapM_cons, letterValue_letter first, ih rest]
      rfl

theorem encodeBytes_spells (input : List UInt8) :
    ∃ values, encodeBytes input = values.map letter ∧ (∀ value ∈ values, value < 32) ∧
      Nat.ofDigits 32 values = Nat.ofDigits 256 (input.map UInt8.toNat) ∧
      8 * input.length ≤ 5 * values.length ∧ 5 * values.length < 8 * input.length + 5 := by
  have bytes : ∀ digit ∈ input.map UInt8.toNat, digit < 2 ^ 8 := by
    intro digit member
    obtain ⟨byte, -, rfl⟩ := List.mem_map.mp member
    exact byte.toNat_lt
  have spelled := Regroup.regroup_spells (by decide : 0 < 5) emptyBuffer (by decide) (by decide)
    (input.map UInt8.toNat) bytes
  unfold encodeBytes
  obtain ⟨⟨output, buffer⟩, regrouped⟩ : ∃ regrouped,
    Regroup.regroup 8 5 emptyBuffer (input.map UInt8.toNat) = regrouped := ⟨_, rfl⟩
  rw [regrouped] at spelled ⊢
  obtain ⟨small, value, short, bits, number⟩ := spelled
  simp only [emptyBuffer, List.length_map, Nat.zero_add, Nat.pow_zero, Nat.one_mul]
    at small value short bits number ⊢
  by_cases left : 0 < buffer.bits
  · have lastSmall : buffer.value < 32 :=
      value.trans_le (Nat.pow_le_pow_right (by decide) short.le)
    have masked : buffer.value &&& 31 = buffer.value :=
      Nat.and_two_pow_sub_one_of_lt_two_pow (n := 5) lastSmall
    rw [if_pos left, masked]
    refine ⟨output ++ [buffer.value], rfl, ?_, ?_, ?_, ?_⟩
    · intro digit member
      rcases List.mem_append.mp member with early | last
      · exact small digit early
      · exact List.mem_singleton.mp last ▸ lastSmall
    · rw [Nat.ofDigits_append, Nat.ofDigits_singleton, show (32 : Nat) = 2 ^ 5 from rfl,
        ← Nat.pow_mul, Nat.mul_comm 5]
      exact number
    · rw [List.length_append, List.length_singleton]
      omega
    · rw [List.length_append, List.length_singleton]
      omega
  · have empty : buffer.bits = 0 := Nat.eq_zero_of_not_pos left
    rw [if_neg left]
    refine ⟨output, rfl, small, ?_, by omega, by omega⟩
    rw [empty, Nat.pow_zero, Nat.lt_one_iff] at value
    rw [value, Nat.mul_zero, Nat.add_zero] at number
    exact number

theorem decodeBytes_encodeBytes (input : List UInt8) :
    decodeBytes (encodeBytes input) = .ok input := by
  obtain ⟨values, encoded, small, number, enough, few⟩ := encodeBytes_spells input
  have digits : ∀ value ∈ values, value < 2 ^ 5 := small
  have spelled := Regroup.regroup_spells (by decide : 0 < 8) emptyBuffer (by decide) (by decide)
    values digits
  rw [encoded, decodeBytes, mapM_letterValue small]
  obtain ⟨⟨output, buffer⟩, regrouped⟩ : ∃ regrouped,
    Regroup.regroup 5 8 emptyBuffer values = regrouped := ⟨_, rfl⟩
  simp only
  rw [regrouped] at spelled ⊢
  obtain ⟨outputSmall, value, short, bits, total⟩ := spelled
  simp only [emptyBuffer, Nat.zero_add, Nat.pow_zero, Nat.one_mul] at value short bits total ⊢
  have length : output.length = (input.map UInt8.toNat).length := by
    rw [List.length_map]
    omega
  have below : ∀ digit ∈ input.map UInt8.toNat, digit < 256 := by
    intro digit member
    obtain ⟨byte, -, rfl⟩ := List.mem_map.mp member
    exact byte.toNat_lt
  have same : Nat.ofDigits 256 output = Nat.ofDigits 256 (input.map UInt8.toNat) := by
    have bound := Nat.ofDigits_lt_base_pow_length (by decide : 1 < 256) below
    have whole : Nat.ofDigits 256 output + 256 ^ output.length * buffer.value =
        Nat.ofDigits 256 (input.map UInt8.toNat) := by
      rw [← number, show (256 : Nat) = 2 ^ 8 from rfl, ← Nat.pow_mul, Nat.mul_comm 8]
      exact total
    rw [length] at whole
    have nothing : buffer.value = 0 := by
      rcases Nat.eq_zero_or_pos buffer.value with zero | some
      · exact zero
      · have large := Nat.le_mul_of_pos_right (256 ^ (input.map UInt8.toNat).length) some
        omega
    rw [nothing] at whole
    omega
  rw [Nat.ofDigits_inj_of_len_eq (by decide) length outputSmall below same, List.map_map]
  congr 1
  exact (List.map_congr_left fun byte _ => UInt8.ofNat_toNat).trans (List.map_id input)

theorem toLowercase_encodeBytes (input : List UInt8) :
    toLowercase (encodeBytes input) = encodeBytes input := by
  obtain ⟨values, encoded, small, -⟩ := encodeBytes_spells input
  rw [encoded]
  clear encoded
  induction values with
  | nil => rfl
  | cons value values ih =>
      obtain ⟨first, rest⟩ := List.forall_mem_cons.mp small
      exact congrArg₂ (· ++ ·) (toLowercase_letter first) (ih rest)

theorem toLowercase_toAsciiUppercase_encodeBytes (input : List UInt8) :
    toLowercase (toAsciiUppercase (encodeBytes input)) = encodeBytes input := by
  obtain ⟨values, encoded, small, -⟩ := encodeBytes_spells input
  rw [encoded]
  clear encoded
  induction values with
  | nil => rfl
  | cons value values ih =>
      obtain ⟨first, rest⟩ := List.forall_mem_cons.mp small
      exact congrArg₂ (· ++ ·) (toLowercase_toAsciiUppercase_letter first) (ih rest)

theorem decodeText_encodeText {α : Type} {codec : Codec α} (canonical : codec.Canonical)
    {typeName : String} {value : α} {text : List Char}
    (encoded : encodeText codec value = some text) :
    decodeText typeName codec text = .ok value := by
  obtain ⟨bytes, written, rfl⟩ := Option.map_eq_some_iff.mp encoded
  have lower : toLowercase (PREFIX ++ encodeBytes bytes) = PREFIX ++ encodeBytes bytes := by
    rw [toLowercase, List.map_append]
    exact congrArg₂ (· ++ ·) (by decide) (toLowercase_encodeBytes bytes)
  have decoded : consensusDecode typeName codec bytes = .ok value := by
    have read := canonical.roundTrip value bytes [] written
    rw [List.append_nil] at read
    exact consensusDecode_eq_ok.mpr read
  unfold decodeText
  simp only [lower]
  rw [if_pos (List.isPrefixOf_iff_prefix.mpr (List.prefix_append _ _)), List.drop_left,
    decodeBytes_encodeBytes]
  simp only [decoded]

theorem decodeText_congr {α : Type} {codec : Codec α} (typeName : String) {text other : List Char}
    (same : toLowercase other = toLowercase text) :
    decodeText typeName codec other = decodeText typeName codec text := by
  unfold decodeText
  rw [same]

/-- A text, also in capital letters, is read back as its value, distinct values
have distinct texts, and no byte string of any length is lost in the letters. -/
theorem text_round_trip {α : Type} {codec : Codec α} (canonical : codec.Canonical)
    (typeName : String) :
    (∀ value bytes, codec.consensusEncode value = some bytes →
      ∃ text, encodeText codec value = some text ∧ decodeText typeName codec text = .ok value ∧
        decodeText typeName codec (toAsciiUppercase text) = .ok value) ∧
    (∀ left right text, encodeText codec left = some text → encodeText codec right = some text →
      left = right) ∧
    ∀ bytes, decodeBytes (encodeBytes bytes) = .ok bytes ∧
      decodeBytes (toLowercase (toAsciiUppercase (encodeBytes bytes))) = .ok bytes := by
  refine ⟨?_, ?_, ?_⟩
  · intro value bytes written
    have encoded : encodeText codec value = some (PREFIX ++ encodeBytes bytes) := by
      rw [encodeText, written]
      rfl
    have read : decodeText typeName codec (PREFIX ++ encodeBytes bytes) = .ok value :=
      decodeText_encodeText canonical encoded
    have lower : toLowercase (toAsciiUppercase (PREFIX ++ encodeBytes bytes)) =
        toLowercase (PREFIX ++ encodeBytes bytes) := by
      rw [toAsciiUppercase, toLowercase, toLowercase, List.map_append, List.map_append,
        List.map_append]
      refine congrArg₂ (· ++ ·) (by decide) ?_
      exact (toLowercase_toAsciiUppercase_encodeBytes bytes).trans
        (toLowercase_encodeBytes bytes).symm
    exact ⟨_, encoded, read, (decodeText_congr typeName lower).trans read⟩
  · intro left right text leftText rightText
    have leftRead : decodeText typeName codec text = .ok left :=
      decodeText_encodeText canonical leftText
    rw [decodeText_encodeText canonical rightText] at leftRead
    cases leftRead
    rfl
  · intro bytes
    rw [toLowercase_toAsciiUppercase_encodeBytes]
    exact ⟨decodeBytes_encodeBytes bytes, decodeBytes_encodeBytes bytes⟩

theorem text_round_trip_sample : ∃ text, encodeText byteVecCodec [0x50, 0xAB] = some text ∧
    decodeText "Vec" byteVecCodec (toAsciiUppercase text) = .ok [0x50, 0xAB] := by
  have written : byteVecCodec.consensusEncode [0x50, 0xAB] =
    some [0x00, 0x00, 0x00, 0x02, 0x50, 0xAB] := by decide
  obtain ⟨text, encoded, -, upper⟩ :=
    (text_round_trip (Codec.canonical_iff_exact.mpr byteVecCodec_exact) "Vec").1 _ _ written
  exact ⟨text, encoded, upper⟩

end Encoding
end Picomint
