/-
Table keys of fixed-width elements.

A key is a tuple of elements and is written as the concatenation of their
encodings.  The elements are compared one after the other.  For unsigned
integers, byte arrays and hashes, and the unit, the byte strings are ordered
as the tuples; a signed integer is written as its bit pattern, which puts the
negative numbers above the others.
-/

import Picomint.Database.Bounds
import Picomint.Encoding.Collections
import Picomint.Encoding.Derive

namespace Picomint
namespace Database

open Encoding

/-! ### Elements -/

inductive KeyElement where
  | u8
  | u16
  | u32
  | u64
  | i32
  | bytes (width : Nat)
  | unit
  deriving DecidableEq

namespace KeyElement

abbrev Value : KeyElement → Type
  | u8 => UInt8
  | u16 => UInt16
  | u32 => UInt32
  | u64 => UInt64
  | i32 => Int32
  | bytes width => List.Vector UInt8 width
  | unit => Unit

instance : (element : KeyElement) → DecidableEq element.Value
  | u8 => inferInstanceAs (DecidableEq UInt8)
  | u16 => inferInstanceAs (DecidableEq UInt16)
  | u32 => inferInstanceAs (DecidableEq UInt32)
  | u64 => inferInstanceAs (DecidableEq UInt64)
  | i32 => inferInstanceAs (DecidableEq Int32)
  | bytes width => inferInstanceAs (DecidableEq (List.Vector UInt8 width))
  | unit => inferInstanceAs (DecidableEq Unit)

def codec : (element : KeyElement) → Codec element.Value
  | u8 => u8Codec
  | u16 => u16Codec
  | u32 => u32Codec
  | u64 => u64Codec
  | i32 => i32Codec
  | bytes width => byteArrayCodec width
  | unit => unitCodec

/-- The order of the element's own type. -/
def Below : (element : KeyElement) → element.Value → element.Value → Prop
  | u8, left, right => left < right
  | u16, left, right => left < right
  | u32, left, right => left < right
  | u64, left, right => left < right
  | i32, left, right => left < right
  | bytes _, left, right => left.toList < right.toList
  | unit, _, _ => False

def width : KeyElement → Nat
  | u8 => 1
  | u16 => 2
  | u32 => 4
  | u64 => 8
  | i32 => 4
  | bytes width => width
  | unit => 0

def encoded : (element : KeyElement) → element.Value → Bytes
  | u8, value => toBigEndian 1 value.toNat
  | u16, value => toBigEndian 2 value.toNat
  | u32, value => toBigEndian 4 value.toNat
  | u64, value => toBigEndian 8 value.toNat
  | i32, value => toBigEndian 4 value.toUInt32.toNat
  | bytes _, value => value.toList
  | unit, _ => []

theorem consensusEncode_eq (element : KeyElement) (value : element.Value) :
    element.codec.consensusEncode value = some (element.encoded value) := by
  cases element <;> rfl

theorem codec_exact (element : KeyElement) : element.codec.Exact fun _ => True := by
  cases element with
  | u8 => exact u8Codec_exact
  | u16 => exact u16Codec_exact
  | u32 => exact u32Codec_exact
  | u64 => exact u64Codec_exact
  | i32 => exact i32Codec_exact
  | bytes width => exact byteArrayCodec_exact width
  | unit => exact unitCodec_exact

theorem encoded_length (element : KeyElement) (value : element.Value) :
    (element.encoded value).length = element.width := by
  cases element with
  | bytes width => exact value.toList_length
  | unit => rfl
  | _ => exact toBigEndian_length _ _

theorem below_trichotomy (element : KeyElement) (left right : element.Value) :
    left = right ∨ element.Below left right ∨ element.Below right left := by
  cases element with
  | bytes width =>
      rcases lt_trichotomy left.toList right.toList with below | same | above
      · exact Or.inr (Or.inl below)
      · exact Or.inl (List.Vector.eq _ _ same)
      · exact Or.inr (Or.inr above)
  | unit => exact Or.inl rfl
  | u8 =>
      simp only [Below, UInt8.lt_iff_toNat_lt, ← UInt8.toNat_inj]
      omega
  | u16 =>
      simp only [Below, UInt16.lt_iff_toNat_lt, ← UInt16.toNat_inj]
      omega
  | u32 =>
      simp only [Below, UInt32.lt_iff_toNat_lt, ← UInt32.toNat_inj]
      omega
  | u64 =>
      simp only [Below, UInt64.lt_iff_toNat_lt, ← UInt64.toNat_inj]
      omega
  | i32 =>
      simp only [Below, Int32.lt_iff_toInt_lt, ← Int32.toInt_inj]
      omega

theorem encoded_lt {element : KeyElement} (unsigned : element ≠ i32) {left right : element.Value}
    (below : element.Below left right) : element.encoded left < element.encoded right := by
  cases element with
  | u8 => exact ByteOrder.toBigEndian_lt (UInt8.lt_iff_toNat_lt.mp below) right.toNat_lt
  | u16 => exact ByteOrder.toBigEndian_lt (UInt16.lt_iff_toNat_lt.mp below) right.toNat_lt
  | u32 => exact ByteOrder.toBigEndian_lt (UInt32.lt_iff_toNat_lt.mp below) right.toNat_lt
  | u64 => exact ByteOrder.toBigEndian_lt (UInt64.lt_iff_toNat_lt.mp below) right.toNat_lt
  | i32 => exact absurd rfl unsigned
  | bytes width => exact below
  | unit => exact below.elim

end KeyElement

/-! ### Keys -/

abbrev Key : List KeyElement → Type
  | [] => Unit
  | element :: rest => element.Value × Key rest

instance Key.decidableEq : (shape : List KeyElement) → DecidableEq (Key shape)
  | [] => inferInstanceAs (DecidableEq Unit)
  | element :: rest =>
      have := Key.decidableEq rest
      inferInstanceAs (DecidableEq (element.Value × Key rest))

def keyFields : (shape : List KeyElement) → FieldCodecs (Key shape)
  | [] => .nil
  | element :: rest => .cons element.codec (keyFields rest)

def keyCodec (shape : List KeyElement) : Codec (Key shape) :=
  structCodec (keyFields shape) (Equiv.refl _)

def KeyBelow : (shape : List KeyElement) → Key shape → Key shape → Prop
  | [], _, _ => False
  | element :: rest, left, right =>
      element.Below left.1 right.1 ∨ left.1 = right.1 ∧ KeyBelow rest left.2 right.2

def leading : (count : Nat) → (shape : List KeyElement) → Key shape → Key (shape.take count)
  | 0, _, _ => ()
  | _ + 1, [], _ => ()
  | count + 1, _ :: rest, key => (key.1, leading count rest key.2)

def keyBytes : (shape : List KeyElement) → Key shape → Bytes
  | [], _ => []
  | element :: rest, key => element.encoded key.1 ++ keyBytes rest key.2

theorem keyFields_encode (shape : List KeyElement) (key : Key shape) :
    (keyFields shape).encode key = some (keyBytes shape key) := by
  induction shape with
  | nil => rfl
  | cons element rest ih =>
      rw [keyFields, FieldCodecs.encode, andThen_eq_some]
      exact ⟨_, _, element.consensusEncode_eq key.1, ih key.2, rfl⟩

theorem keyCodec_encode (shape : List KeyElement) (key : Key shape) :
    (keyCodec shape).consensusEncode key = some (keyBytes shape key) :=
  keyFields_encode shape key

theorem keyFields_exact (shape : List KeyElement) : (keyFields shape).Exact fun _ => True := by
  induction shape with
  | nil => exact FieldCodecs.nil_exact
  | cons element rest ih =>
      exact (FieldCodecs.cons_exact element.codec_exact ih).of_iff fun _ _ =>
        and_congr_right fun _ => and_self_iff

theorem keyCodec_exact (shape : List KeyElement) : (keyCodec shape).Exact fun _ => True :=
  structCodec_exact (keyFields_exact shape) (Equiv.refl _)

theorem keyBytes_injective {shape : List KeyElement} {left right : Key shape}
    (same : keyBytes shape left = keyBytes shape right) : left = right :=
  (keyCodec_exact shape).injective trivial trivial (keyCodec_encode shape left)
    (same ▸ keyCodec_encode shape right)

theorem keyBelow_trichotomy (shape : List KeyElement) (left right : Key shape) :
    left = right ∨ KeyBelow shape left right ∨ KeyBelow shape right left := by
  induction shape with
  | nil => exact Or.inl rfl
  | cons element rest ih =>
      obtain ⟨leftHead, leftRest⟩ := left
      obtain ⟨rightHead, rightRest⟩ := right
      rcases element.below_trichotomy leftHead rightHead with rfl | below | above
      · rcases ih leftRest rightRest with rfl | below | above
        · exact Or.inl rfl
        · exact Or.inr (Or.inl (Or.inr ⟨rfl, below⟩))
        · exact Or.inr (Or.inr (Or.inr ⟨rfl, above⟩))
      · exact Or.inr (Or.inl (Or.inl below))
      · exact Or.inr (Or.inr (Or.inl above))

/-- No element is a signed integer. -/
def Unsigned (shape : List KeyElement) : Prop := KeyElement.i32 ∉ shape

instance (shape : List KeyElement) : Decidable (Unsigned shape) := by
  unfold Unsigned
  infer_instance

theorem keyBytes_lt {shape : List KeyElement} (unsigned : Unsigned shape)
    {left right : Key shape} (below : KeyBelow shape left right) :
    keyBytes shape left < keyBytes shape right := by
  induction shape with
  | nil => exact below.elim
  | cons element rest ih =>
      have headUnsigned : element ≠ .i32 := fun same => unsigned (same ▸ List.mem_cons_self)
      have restUnsigned : Unsigned rest := fun member => unsigned (List.mem_cons_of_mem _ member)
      rw [keyBytes, keyBytes]
      rcases below with first | ⟨same, later⟩
      · exact ByteOrder.append_lt_append
          ((element.encoded_length _).trans (element.encoded_length _).symm)
          (KeyElement.encoded_lt headUnsigned first)
      · rw [same]
        exact ByteOrder.append_lt_append_left (ih restUnsigned later)

theorem keyBytes_lt_iff {shape : List KeyElement} (unsigned : Unsigned shape)
    {left right : Key shape} :
    keyBytes shape left < keyBytes shape right ↔ KeyBelow shape left right := by
  refine ⟨fun bytesBelow => ?_, keyBytes_lt unsigned⟩
  rcases keyBelow_trichotomy shape left right with rfl | below | above
  · exact absurd bytesBelow (lt_irrefl _)
  · exact below
  · exact absurd bytesBelow (keyBytes_lt unsigned above).not_gt

/-! ### Keys with a signed element -/

/-- The element itself for a signed integer, zero for every other element. -/
def KeyElement.signed (value : Int32) : (element : KeyElement) → element.Value
  | u8 => 0
  | u16 => 0
  | u32 => 0
  | u64 => 0
  | i32 => value
  | bytes width => List.Vector.replicate width 0
  | unit => ()

def signedKey (value : Int32) : (shape : List KeyElement) → Key shape
  | [] => ()
  | element :: rest => (element.signed value, signedKey value rest)

theorem KeyElement.signed_eq {element : KeyElement} (unsigned : element ≠ i32)
    (left right : Int32) : element.signed left = element.signed right := by
  cases element with
  | i32 => exact absurd rfl unsigned
  | _ => rfl

theorem KeyElement.below_irrefl (element : KeyElement) (value : element.Value) :
    ¬ element.Below value value := by
  intro below
  cases element with
  | unit => exact below
  | bytes width => exact lt_irrefl value.toList below
  | u8 => exact absurd (UInt8.lt_iff_toNat_lt.mp below) (lt_irrefl _)
  | u16 => exact absurd (UInt16.lt_iff_toNat_lt.mp below) (lt_irrefl _)
  | u32 => exact absurd (UInt32.lt_iff_toNat_lt.mp below) (lt_irrefl _)
  | u64 => exact absurd (UInt64.lt_iff_toNat_lt.mp below) (lt_irrefl _)
  | i32 => exact absurd (Int32.lt_iff_toInt_lt.mp below) (lt_irrefl _)

/-- The bytes of one come before those of minus one. -/
theorem keyBytes_signedKey_lt {shape : List KeyElement} (signed : ¬ Unsigned shape) :
    keyBytes shape (signedKey 1 shape) < keyBytes shape (signedKey (-1) shape) := by
  induction shape with
  | nil => exact absurd List.not_mem_nil signed
  | cons element rest ih =>
      rw [keyBytes, keyBytes]
      by_cases here : element = .i32
      · subst here
        have bytesBelow : KeyElement.i32.encoded 1 < KeyElement.i32.encoded (-1) := by decide
        exact ByteOrder.append_lt_append rfl bytesBelow
      · rw [signedKey, signedKey, KeyElement.signed_eq here 1 (-1)]
        refine ByteOrder.append_lt_append_left (ih fun unsigned => signed ?_)
        intro member
        rcases List.mem_cons.mp member with same | later
        · exact here same.symm
        · exact unsigned later

theorem not_keyBelow_signedKey (shape : List KeyElement) :
    ¬ KeyBelow shape (signedKey 1 shape) (signedKey (-1) shape) := by
  induction shape with
  | nil => exact id
  | cons element rest ih =>
      rintro (first | ⟨_, later⟩)
      · by_cases here : element = .i32
        · subst here
          exact absurd (show (1 : Int32) < -1 from first) (by decide)
        · rw [signedKey, signedKey, KeyElement.signed_eq here 1 (-1)] at first
          exact element.below_irrefl _ first
      · exact ih later

/-! ### Leading elements -/

theorem keyBytes_startsWith {shape : List KeyElement} (count : Nat)
    (start : Key (shape.take count)) (key : Key shape) :
    keyBytes (shape.take count) start <+: keyBytes shape key ↔ leading count shape key = start := by
  induction count generalizing shape with
  | zero => exact ⟨fun _ => rfl, fun _ => List.nil_prefix⟩
  | succ count ih =>
      cases shape with
      | nil => exact ⟨fun _ => rfl, fun _ => List.nil_prefix⟩
      | cons element rest =>
          obtain ⟨startHead, startRest⟩ := start
          obtain ⟨keyHead, keyRest⟩ := key
          have widths : (element.encoded startHead).length = (element.encoded keyHead).length :=
            (element.encoded_length _).trans (element.encoded_length _).symm
          simp only [List.take_succ_cons, keyBytes, leading, Prod.mk.injEq]
          constructor
          · intro startsWith
            obtain ⟨tail, split⟩ := startsWith
            rw [List.append_assoc] at split
            obtain ⟨sameHead, sameRest⟩ := List.append_inj split widths
            have head := element.codec_exact.injective trivial trivial
              (element.consensusEncode_eq keyHead) (sameHead ▸ element.consensusEncode_eq startHead)
            exact ⟨head, (ih startRest keyRest).mp ⟨tail, sameRest⟩⟩
          · rintro ⟨rfl, later⟩
            exact List.prefix_append_right_inj _ |>.mpr ((ih startRest keyRest).mpr later)

end Database
end Picomint
