/-
Canonical encoding of every type built from the combinators.

A codec is built from canonical leaf codecs by any nesting of the containers,
tuples, structs and enums.  With every codec comes the set of values whose
encoding decodes back to them.  It holds every value unless an enum repeats a
variant index: a value of the later variant is written like one of the
earlier variant and read back as that.
-/

import Picomint.Encoding.Collections
import Picomint.Encoding.Derive

namespace Picomint
namespace Encoding

/-! ### Built codecs -/

mutual

/-- A codec built over the leaves, and the values it reads back.  The second
parameter says which variant indices the enums may have. -/
inductive Built (Leaf : (α : Type) → Codec α → Prop)
    (Admits : (count : Nat) → (Fin count → UInt8) → Prop) :
    {α : Type} → Codec α → (α → Prop) → Prop where
  | leaf {α : Type} {codec : Codec α} (leaf : Leaf α codec) : Built Leaf Admits codec fun _ => True
  | u8 : Built Leaf Admits u8Codec fun _ => True
  | u16 : Built Leaf Admits u16Codec fun _ => True
  | u32 : Built Leaf Admits u32Codec fun _ => True
  | u64 : Built Leaf Admits u64Codec fun _ => True
  | i32 : Built Leaf Admits i32Codec fun _ => True
  | bool : Built Leaf Admits boolCodec fun _ => True
  | unit : Built Leaf Admits unitCodec fun _ => True
  | string : Built Leaf Admits stringCodec fun _ => True
  | byteVec : Built Leaf Admits byteVecCodec fun _ => True
  | byteArray (count : Nat) : Built Leaf Admits (byteArrayCodec count) fun _ => True
  | option {α : Type} {codec : Codec α} {clear : α → Prop} (inner : Built Leaf Admits codec clear) :
      Built Leaf Admits (optionCodec codec) fun value => ∀ inner, value = some inner → clear inner
  | result {α β : Type} {okCodec : Codec α} {errCodec : Codec β} {okClear : α → Prop}
      {errClear : β → Prop} (ok : Built Leaf Admits okCodec okClear)
      (err : Built Leaf Admits errCodec errClear) :
      Built Leaf Admits (resultCodec okCodec errCodec) fun result =>
        (∀ fault, result = .error fault → errClear fault) ∧
          ∀ value, result = .ok value → okClear value
  | box {α : Type} {codec : Codec α} {clear : α → Prop} (inner : Built Leaf Admits codec clear) :
      Built Leaf Admits (boxCodec codec) clear
  | vec {α : Type} {codec : Codec α} {clear : α → Prop} (item : Built Leaf Admits codec clear) :
      Built Leaf Admits (vecCodec codec) fun items => ∀ item ∈ items, clear item
  | array {α : Type} {codec : Codec α} {clear : α → Prop} (item : Built Leaf Admits codec clear)
      (count : Nat) : Built Leaf Admits (arrayCodec codec count) fun items =>
        ∀ item ∈ items.toList, clear item
  | map {κ β : Type} [LinearOrder κ] {keyCodec : Codec κ} {valueCodec : Codec β}
      {keyClear : κ → Prop} {valueClear : β → Prop} (key : Built Leaf Admits keyCodec keyClear)
      (value : Built Leaf Admits valueCodec valueClear) :
      Built Leaf Admits (mapCodec keyCodec valueCodec) fun map =>
        ∀ entry ∈ map.rows, keyClear entry.1 ∧ valueClear entry.2
  | set {κ : Type} [LinearOrder κ] {keyCodec : Codec κ} {keyClear : κ → Prop}
      (key : Built Leaf Admits keyCodec keyClear) :
      Built Leaf Admits (setCodec keyCodec) fun set => ∀ key ∈ set.keys, keyClear key
  /-- Derived structs, and the tuples. -/
  | struct {α τ : Type} {fields : FieldCodecs τ} {clear : τ → Prop}
      (each : BuiltFields Leaf Admits fields clear) (shape : α ≃ τ) :
      Built Leaf Admits (structCodec fields shape) fun value => clear (shape value)
  | enum {α : Type} {variants : Variants α} {indices : Fin variants.count → UInt8}
      {clear : (i : Fin variants.count) → variants.payload i → Prop}
      (compiled : variantIndices variants.annotations = some indices)
      (admitted : Admits variants.count indices)
      (each : ∀ i, BuiltFields Leaf Admits (variants.fields i) (clear i)) :
      Built Leaf Admits (enumCodec variants indices) (EnumClear variants indices clear)

inductive BuiltFields (Leaf : (α : Type) → Codec α → Prop)
    (Admits : (count : Nat) → (Fin count → UInt8) → Prop) :
    {τ : Type} → FieldCodecs τ → (τ → Prop) → Prop where
  | nil : BuiltFields Leaf Admits .nil fun _ => True
  | cons {α τ : Type} {codec : Codec α} {rest : FieldCodecs τ} {clear : α → Prop}
      {restClear : τ → Prop} (field : Built Leaf Admits codec clear)
      (fields : BuiltFields Leaf Admits rest restClear) :
      BuiltFields Leaf Admits (.cons codec rest) fun value => clear value.1 ∧ restClear value.2

end

variable {Leaf : (α : Type) → Codec α → Prop}
  {Admits : (count : Nat) → (Fin count → UInt8) → Prop}

mutual

theorem Built.exact (leaves : ∀ (α : Type) (codec : Codec α), Leaf α codec → codec.Canonical)
    {α : Type} {codec : Codec α} {clear : α → Prop} :
    Built Leaf Admits codec clear → codec.Exact clear
  | .leaf leaf => Codec.canonical_iff_exact.mp (leaves _ _ leaf)
  | .u8 => u8Codec_exact
  | .u16 => u16Codec_exact
  | .u32 => u32Codec_exact
  | .u64 => u64Codec_exact
  | .i32 => i32Codec_exact
  | .bool => boolCodec_exact
  | .unit => unitCodec_exact
  | .string => stringCodec_exact
  | .byteVec => byteVecCodec_exact
  | .byteArray count => byteArrayCodec_exact count
  | .option inner => optionCodec_exact (inner.exact leaves)
  | .result ok err => resultCodec_exact (ok.exact leaves) (err.exact leaves)
  | .box inner => boxCodec_exact (inner.exact leaves)
  | .vec item => vecCodec_exact (item.exact leaves)
  | .array item count => arrayCodec_exact (item.exact leaves) count
  | @Built.map _ _ _ _ _ _ _ _ _ key value => mapCodec_exact (key.exact leaves) (value.exact leaves)
  | @Built.set _ _ _ _ _ _ key => setCodec_exact (key.exact leaves)
  | .struct each shape => structCodec_exact (each.exact leaves) shape
  | .enum _ _ each => enumCodec_exact fun i => (each i).exact leaves

theorem BuiltFields.exact
    (leaves : ∀ (α : Type) (codec : Codec α), Leaf α codec → codec.Canonical)
    {τ : Type} {fields : FieldCodecs τ} {clear : τ → Prop} :
    BuiltFields Leaf Admits fields clear → fields.Exact clear
  | .nil => FieldCodecs.nil_exact
  | .cons field fields => FieldCodecs.cons_exact (field.exact leaves) (fields.exact leaves)

end

mutual

/-- When no enum repeats an index every value is read back. -/
theorem Built.clear (distinct : ∀ count indices, Admits count indices → Function.Injective indices)
    {α : Type} {codec : Codec α} {clear : α → Prop} :
    Built Leaf Admits codec clear → ∀ value, clear value
  | .leaf _ => fun _ => trivial
  | .u8 => fun _ => trivial
  | .u16 => fun _ => trivial
  | .u32 => fun _ => trivial
  | .u64 => fun _ => trivial
  | .i32 => fun _ => trivial
  | .bool => fun _ => trivial
  | .unit => fun _ => trivial
  | .string => fun _ => trivial
  | .byteVec => fun _ => trivial
  | .byteArray _ => fun _ => trivial
  | .option inner => fun _ value _ => inner.clear distinct value
  | .result ok err => fun _ =>
      ⟨fun fault _ => err.clear distinct fault, fun value _ => ok.clear distinct value⟩
  | .box inner => inner.clear distinct
  | .vec item => fun _ value _ => item.clear distinct value
  | .array item _ => fun _ value _ => item.clear distinct value
  | @Built.map _ _ _ _ _ _ _ _ _ key value => fun _ entry _ =>
      ⟨key.clear distinct entry.1, value.clear distinct entry.2⟩
  | @Built.set _ _ _ _ _ _ key => fun _ element _ => key.clear distinct element
  | .struct each shape => fun value => each.clear distinct (shape value)
  | .enum _ admitted each => fun _ =>
      ⟨firstWithIndex_of_injective (distinct _ _ admitted) _, (each _).clear distinct _⟩

theorem BuiltFields.clear
    (distinct : ∀ count indices, Admits count indices → Function.Injective indices)
    {τ : Type} {fields : FieldCodecs τ} {clear : τ → Prop} :
    BuiltFields Leaf Admits fields clear → ∀ value, clear value
  | .nil => fun _ => trivial
  | .cons field fields => fun value =>
      ⟨field.clear distinct value.1, fields.clear distinct value.2⟩

end

/-! ### Undecoded values -/

/-- A value carried as the bytes it is encoded as. -/
structure Undecoded (count : Nat) where
  bytes : List.Vector UInt8 count

def Undecoded.decode {α : Type} {count : Nat} (typeName : String) (codec : Codec α)
    (undecoded : Undecoded count) : Except Fault α :=
  consensusDecode typeName codec undecoded.bytes.toList

def undecodedCodec (count : Nat) : Codec (Undecoded count) where
  consensusEncode undecoded := (byteArrayCodec count).consensusEncode undecoded.bytes
  consensusDecodePartial := do
    let bytes ← (byteArrayCodec count).consensusDecodePartial
    return ⟨bytes⟩

theorem undecodedCodec_canonical (count : Nat) : (undecodedCodec count).Canonical := by
  refine Codec.canonical_iff_exact.mpr (((byteArrayCodec_exact count).bind fun bytes _ _ =>
    Decoder.Reads.pure (Undecoded.mk bytes)).of_iff fun undecoded used => ?_)
  constructor
  · rintro ⟨bytes, front, _, ⟨encoded, -⟩, ⟨rfl, rfl⟩, rfl⟩
    rw [List.append_nil]
    exact ⟨encoded, trivial⟩
  · rintro ⟨encoded, -⟩
    exact ⟨undecoded.bytes, used, [], ⟨encoded, trivial⟩, ⟨rfl, rfl⟩, (List.append_nil used).symm⟩

/-! ### Canonical encoding -/

/-- A built type has a canonical encoding exactly when its encodable values
are clear, and then value by value; it always does when no enum repeats an
index.  Only encodings are accepted in any case, so undecoded bytes compare
as the values they decode to. -/
theorem built_canonical_iff
    (leaves : ∀ (α : Type) (codec : Codec α), Leaf α codec → codec.Canonical)
    {α : Type} {codec : Codec α} {clear : α → Prop} (built : Built Leaf Admits codec clear) :
    (codec.Canonical ↔ ∀ value, (codec.consensusEncode value).isSome → clear value) ∧
      (∀ value bytes, codec.consensusEncode value = some bytes →
        ((∀ rest, codec.consensusDecodePartial.run (bytes ++ rest) = .ok (value, rest)) ↔
          clear value)) ∧
      (∀ typeName bytes value, consensusDecode typeName codec bytes = .ok value →
        codec.consensusEncode value = some bytes) ∧
      (∀ left right bytes, clear left → clear right →
        codec.consensusEncode left = some bytes → codec.consensusEncode right = some bytes →
          left = right) ∧
      (∀ typeName count (left right : Undecoded count) leftValue rightValue,
        left.decode typeName codec = .ok leftValue →
          right.decode typeName codec = .ok rightValue →
            (left = right ↔ leftValue = rightValue)) ∧
      ((∀ count indices, Admits count indices → Function.Injective indices) →
        ∀ value, clear value) := by
  have exact := built.exact leaves
  refine ⟨⟨?_, ?_⟩, fun value bytes => exact.roundTrip_iff, fun _ _ _ => exact.unique,
    fun _ _ _ => exact.injective, ?_, fun distinct => built.clear distinct⟩
  · intro canonical value encodable
    obtain ⟨bytes, encoded⟩ := Option.isSome_iff_exists.mp encodable
    exact (exact.roundTrip_iff encoded).mp fun rest => canonical.roundTrip _ _ rest encoded
  · intro allClear
    refine ⟨fun value bytes rest encoded => ?_, fun _ _ _ => exact.unique⟩
    have encodable : (codec.consensusEncode value).isSome := by rw [encoded]; rfl
    exact (exact.roundTrip_iff encoded).mpr (allClear value encodable) rest
  · intro typeName count left right leftValue rightValue leftDecoded rightDecoded
    constructor
    · rintro rfl
      rw [leftDecoded] at rightDecoded
      exact Except.ok.inj rightDecoded
    · rintro rfl
      have leftEncoded := exact.unique leftDecoded
      rw [exact.unique rightDecoded, Option.some.injEq] at leftEncoded
      obtain ⟨leftBytes⟩ := left
      obtain ⟨rightBytes⟩ := right
      exact congrArg Undecoded.mk (List.Vector.eq _ _ leftEncoded.symm)

/-! The enum of two variants with chosen indices: with the indices 0 and 2 a
map into undecoded bytes and lists of it is canonical; with the index 0 twice its second variant
is read back as the first. -/

inductive IndexedEnum where
  | foo
  | baz
  deriving DecidableEq, Repr

def indexedVariants (annotations : Fin 2 → Option UInt8) : Variants IndexedEnum where
  name := "IndexedEnum"
  count := 2
  annotations := annotations
  payload _ := Unit
  fields _ := .nil
  shape :=
    { toFun := fun
        | .foo => ⟨0, ()⟩
        | .baz => ⟨1, ()⟩
      invFun := fun arm => if arm.1 = 0 then .foo else .baz
      left_inv := by
        intro value
        cases value <;> rfl
      right_inv := by
        rintro ⟨i, _⟩
        fin_cases i <;> rfl }

def distinctIndices : Fin 2 → UInt8 := ![0, 2]

def repeatedIndices : Fin 2 → UInt8 := ![0, 0]

/-- Undecoded values bring their own codec. -/
inductive UndecodedLeaf : (α : Type) → Codec α → Prop
  | undecoded (count : Nat) : UndecodedLeaf (Undecoded count) (undecodedCodec count)

theorem built_canonical_sample :
    (mapCodec boolCodec (structCodec (.cons (undecodedCodec 4) (.cons (vecCodec
      (enumCodec (indexedVariants fun i => some (distinctIndices i)) distinctIndices)) .nil))
        (Equiv.refl _))).Canonical :=
  have distinct : Function.Injective distinctIndices := by
    unfold Function.Injective
    decide
  have indexed : Built UndecodedLeaf (fun _ indices => Function.Injective indices)
      (enumCodec (indexedVariants fun i => some (distinctIndices i)) distinctIndices)
      (EnumClear _ _ fun _ _ => True) :=
    .enum (by rfl) distinct fun _ => .nil
  have leaves : ∀ (α : Type) (codec : Codec α), UndecodedLeaf α codec → codec.Canonical := by
    intro α codec leaf
    cases leaf with
    | undecoded count => exact undecodedCodec_canonical count
  have conclusions := built_canonical_iff leaves (Built.map .bool
    (.struct (.cons (.leaf (.undecoded 4)) (.cons (.vec indexed) .nil)) (Equiv.refl _)))
  conclusions.1.mpr fun value _ =>
    conclusions.2.2.2.2.2 (fun _ _ admitted => admitted) value

theorem repeated_index_not_canonical :
    ¬ ∀ (α : Type) (codec : Codec α) (clear : α → Prop),
      Built (fun _ _ => False) (fun _ _ => True) codec clear → codec.Canonical := by
  intro canonical
  have repeated : Built (fun _ _ => False) (fun _ _ => True)
      (enumCodec (indexedVariants fun i => some (repeatedIndices i)) repeatedIndices)
      (EnumClear _ _ fun _ _ => True) :=
    .enum (by rfl) trivial fun _ => .nil
  have misread := (canonical _ _ _ repeated).roundTrip .baz [0] [] rfl
  cases misread

end Encoding
end Picomint
