/-
The codecs the derive macro generates.

The fields of a struct, a tuple or a variant are written in order.  An enum
writes the index of its variant as one byte; the decoder takes the first
variant with the index it reads.
-/

import Mathlib.Data.Fin.Tuple.Basic
import Mathlib.Logic.Equiv.Defs
import Picomint.Encoding.Codec

namespace Picomint
namespace Encoding

/-! ### Fields -/

inductive FieldCodecs : Type → Type 1 where
  | nil : FieldCodecs Unit
  | cons {α τ : Type} (codec : Codec α) (rest : FieldCodecs τ) : FieldCodecs (α × τ)

namespace FieldCodecs

variable {α τ : Type}

def encode : {τ : Type} → FieldCodecs τ → τ → Option (List UInt8)
  | _, nil, () => some []
  | _, cons codec rest, (field, fields) =>
      andThen (codec.consensusEncode field) (rest.encode fields)

def decode : {τ : Type} → FieldCodecs τ → ByteDecoder τ
  | _, nil => return ()
  | _, cons codec rest => do
      let field ← codec.consensusDecodePartial
      let fields ← rest.decode
      return (field, fields)

def Exact (fields : FieldCodecs τ) (clear : τ → Prop) : Prop :=
  fields.decode.Reads fun value used => fields.encode value = some used ∧ clear value

theorem nil_exact : nil.Exact fun _ => True := by
  refine (Decoder.Reads.pure ()).of_iff fun value used => ?_
  simp [encode, eq_comm]

theorem cons_exact {codec : Codec α} {rest : FieldCodecs τ} {clear : α → Prop}
    {restClear : τ → Prop} (exact : codec.Exact clear) (restExact : rest.Exact restClear) :
    (cons codec rest).Exact fun value => clear value.1 ∧ restClear value.2 := by
  refine (exact.bind fun field _ _ => restExact.bind fun fields _ _ =>
    Decoder.Reads.pure (field, fields)).of_iff fun value used => ?_
  obtain ⟨field, fields⟩ := value
  rw [encode, andThen_eq_some]
  constructor
  · rintro ⟨_, front, _, ⟨encoded, clearField⟩,
      ⟨_, back, _, ⟨encodedRest, clearFields⟩, ⟨same, rfl⟩, rfl⟩, rfl⟩
    cases same
    rw [List.append_nil]
    exact ⟨⟨front, back, encoded, encodedRest, rfl⟩, clearField, clearFields⟩
  · rintro ⟨⟨front, back, encoded, encodedRest, rfl⟩, clearField, clearFields⟩
    exact ⟨field, front, back, ⟨encoded, clearField⟩,
      ⟨fields, back, [], ⟨encodedRest, clearFields⟩, ⟨rfl, rfl⟩, (List.append_nil back).symm⟩, rfl⟩

end FieldCodecs

/-! ### Structs and tuples -/

variable {α : Type}

def structCodec {τ : Type} (fields : FieldCodecs τ) (shape : α ≃ τ) : Codec α where
  consensusEncode value := fields.encode (shape value)
  consensusDecodePartial := do
    let values ← fields.decode
    return shape.symm values

theorem structCodec_exact {τ : Type} {fields : FieldCodecs τ} {clear : τ → Prop}
    (exact : fields.Exact clear) (shape : α ≃ τ) :
    (structCodec fields shape).Exact fun value => clear (shape value) := by
  refine (Decoder.Reads.bind exact fun values _ _ =>
    Decoder.Reads.pure (shape.symm values)).of_iff fun value used => ?_
  constructor
  · rintro ⟨values, front, _, read, ⟨rfl, rfl⟩, rfl⟩
    rw [List.append_nil]
    simpa [structCodec] using read
  · intro read
    exact ⟨shape value, used, [], read, ⟨(shape.symm_apply_apply value).symm, rfl⟩,
      (List.append_nil used).symm⟩

section Tuples

variable {T1 T2 T3 T4 T5 T6 : Type}

def tuple2Codec (t1 : Codec T1) (t2 : Codec T2) : Codec (T1 × T2) :=
  structCodec (.cons t1 (.cons t2 .nil))
    ⟨fun (v1, v2) => (v1, v2, ()), fun (v1, v2, _) => (v1, v2), fun _ => rfl, fun _ => rfl⟩

def tuple3Codec (t1 : Codec T1) (t2 : Codec T2) (t3 : Codec T3) : Codec (T1 × T2 × T3) :=
  structCodec (.cons t1 (.cons t2 (.cons t3 .nil)))
    ⟨fun (v1, v2, v3) => (v1, v2, v3, ()), fun (v1, v2, v3, _) => (v1, v2, v3),
      fun _ => rfl, fun _ => rfl⟩

def tuple4Codec (t1 : Codec T1) (t2 : Codec T2) (t3 : Codec T3) (t4 : Codec T4) :
    Codec (T1 × T2 × T3 × T4) :=
  structCodec (.cons t1 (.cons t2 (.cons t3 (.cons t4 .nil))))
    ⟨fun (v1, v2, v3, v4) => (v1, v2, v3, v4, ()), fun (v1, v2, v3, v4, _) => (v1, v2, v3, v4),
      fun _ => rfl, fun _ => rfl⟩

def tuple5Codec (t1 : Codec T1) (t2 : Codec T2) (t3 : Codec T3) (t4 : Codec T4)
    (t5 : Codec T5) : Codec (T1 × T2 × T3 × T4 × T5) :=
  structCodec (.cons t1 (.cons t2 (.cons t3 (.cons t4 (.cons t5 .nil)))))
    ⟨fun (v1, v2, v3, v4, v5) => (v1, v2, v3, v4, v5, ()),
      fun (v1, v2, v3, v4, v5, _) => (v1, v2, v3, v4, v5), fun _ => rfl, fun _ => rfl⟩

def tuple6Codec (t1 : Codec T1) (t2 : Codec T2) (t3 : Codec T3) (t4 : Codec T4)
    (t5 : Codec T5) (t6 : Codec T6) : Codec (T1 × T2 × T3 × T4 × T5 × T6) :=
  structCodec (.cons t1 (.cons t2 (.cons t3 (.cons t4 (.cons t5 (.cons t6 .nil))))))
    ⟨fun (v1, v2, v3, v4, v5, v6) => (v1, v2, v3, v4, v5, v6, ()),
      fun (v1, v2, v3, v4, v5, v6, _) => (v1, v2, v3, v4, v5, v6), fun _ => rfl, fun _ => rfl⟩

end Tuples

/-! ### Enums -/

/-- The index of every variant.  The macro stops the build when there are too
many variants, or when only some are annotated; it does not compare the
annotations with each other. -/
def variantIndices {count : Nat} (annotations : Fin count → Option UInt8) :
    Option (Fin count → UInt8) :=
  if 256 < count then none
  else if ∀ i, (annotations i).isSome then some fun i => (annotations i).getD 0
  else if ∀ i, (annotations i).isNone then some fun i => UInt8.ofNat i
  else none

/-- The variants of an enum as the macro sees them: their annotations and the
fields of each. -/
structure Variants (α : Type) where
  name : String
  count : Nat
  annotations : Fin count → Option UInt8
  payload : Fin count → Type
  fields : (i : Fin count) → FieldCodecs (payload i)
  shape : α ≃ (i : Fin count) × payload i

/-- The arms are tried in order. -/
def firstVariant {count : Nat} (indices : Fin count → UInt8) (variant : UInt8) :
    Option (Fin count) :=
  Fin.find? fun i => indices i == variant

/-- An enum without variants fails before it reads. -/
def enumCodec (variants : Variants α) (indices : Fin variants.count → UInt8) : Codec α where
  consensusEncode value :=
    let arm := variants.shape value
    andThen (u8Codec.consensusEncode (indices arm.1)) ((variants.fields arm.1).encode arm.2)
  consensusDecodePartial :=
    if variants.count = 0 then
      invalidData s!"Uninhabited enum {variants.name} cannot be decoded"
    else do
      let variant ← u8Codec.consensusDecodePartial
      match firstVariant indices variant with
      | some i =>
          let fields ← (variants.fields i).decode
          return variants.shape.symm ⟨i, fields⟩
      | none => invalidData s!"Invalid variant {variant} for {variants.name}"

def FirstWithIndex {count : Nat} (indices : Fin count → UInt8) (i : Fin count) : Prop :=
  ∀ earlier < i, indices earlier ≠ indices i

theorem firstVariant_eq_some {count : Nat} {indices : Fin count → UInt8} {variant : UInt8}
    {i : Fin count} :
    firstVariant indices variant = some i ↔ indices i = variant ∧ FirstWithIndex indices i := by
  rw [firstVariant, Fin.find?_eq_some_iff]
  simp only [beq_iff_eq, beq_eq_false_iff_ne]
  constructor
  · rintro ⟨rfl, earlier⟩
    exact ⟨rfl, earlier⟩
  · rintro ⟨rfl, earlier⟩
    exact ⟨rfl, earlier⟩

/-- A value of an enum is clear when no earlier variant has its variant's
index and its fields are clear. -/
def EnumClear (variants : Variants α) (indices : Fin variants.count → UInt8)
    (clear : (i : Fin variants.count) → variants.payload i → Prop) (value : α) : Prop :=
  FirstWithIndex indices (variants.shape value).1 ∧
    clear (variants.shape value).1 (variants.shape value).2

theorem enumCodec_exact {variants : Variants α} {indices : Fin variants.count → UInt8}
    {clear : (i : Fin variants.count) → variants.payload i → Prop}
    (exact : ∀ i, (variants.fields i).Exact (clear i)) :
    (enumCodec variants indices).Exact (EnumClear variants indices clear) := by
  by_cases uninhabited : variants.count = 0
  · unfold Codec.Exact enumCodec
    simp only [if_pos uninhabited]
    refine (Decoder.Reads.fail _).of_iff fun value used => ⟨False.elim, fun _ => ?_⟩
    have below := (variants.shape value).1.isLt
    omega
  · unfold Codec.Exact enumCodec
    simp only [if_neg uninhabited]
    refine (reads_tag (fun variant value body => ∃ i, firstVariant indices variant = some i ∧
      ∃ fields, ((variants.fields i).encode fields = some body ∧ clear i fields) ∧
        variants.shape value = ⟨i, fields⟩) fun variant => ?_).of_iff fun value used => ?_
    · cases found : firstVariant indices variant with
      | none =>
          refine (Decoder.Reads.fail _).of_iff fun value used => ?_
          simp
      | some i =>
          refine (Decoder.Reads.bind (exact i) fun fields _ _ =>
            Decoder.Reads.pure (variants.shape.symm ⟨i, fields⟩)).of_iff fun value used => ?_
          constructor
          · rintro ⟨fields, front, _, read, ⟨rfl, rfl⟩, rfl⟩
            rw [List.append_nil]
            exact ⟨i, rfl, fields, read, variants.shape.apply_symm_apply _⟩
          · rintro ⟨_, same, fields, read, shaped⟩
            cases same
            exact ⟨fields, used, [], read, ⟨(variants.shape.eq_symm_apply).mpr shaped, rfl⟩,
              (List.append_nil used).symm⟩
    · simp only [andThen_eq_some, u8Codec_encode, firstVariant_eq_some, EnumClear]
      constructor
      · rintro ⟨_, body, ⟨i, ⟨rfl, first⟩, fields, ⟨encoded, clearFields⟩, shaped⟩, rfl⟩
        rw [shaped]
        exact ⟨⟨[indices i], body, rfl, encoded, rfl⟩, first, clearFields⟩
      · rintro ⟨⟨_, body, same, encoded, rfl⟩, first, clearFields⟩
        cases same
        exact ⟨_, body, ⟨_, ⟨rfl, first⟩, _, ⟨encoded, clearFields⟩, rfl⟩, rfl⟩

theorem firstWithIndex_of_injective {count : Nat} {indices : Fin count → UInt8}
    (distinct : Function.Injective indices) (i : Fin count) : FirstWithIndex indices i :=
  fun _ earlier same => earlier.ne (distinct same)

end Encoding
end Picomint
