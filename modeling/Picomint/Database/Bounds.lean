/-
Byte bounds of a key scan.

The byte strings that start with given bytes form one contiguous run of the
lexicographic order.  Its lower end is the bytes themselves; its upper end is
computed by raising the last byte that can be raised and dropping the tail.
-/

import Picomint.Lib.ByteOrder

namespace Picomint
namespace Database

inductive Bound (α : Type) where
  | included (key : α)
  | excluded (key : α)
  | unbounded

namespace Bound

variable {α β : Type}

def map (f : α → β) : Bound α → Bound β
  | included key => included (f key)
  | excluded key => excluded (f key)
  | unbounded => unbounded

def Start (below : α → α → Prop) (key : α) : Bound α → Prop
  | included start => start = key ∨ below start key
  | excluded start => below start key
  | unbounded => True

def End (below : α → α → Prop) (key : α) : Bound α → Prop
  | included last => key = last ∨ below key last
  | excluded last => below key last
  | unbounded => True

end Bound

abbrev Bounds (α : Type) : Type := Bound α × Bound α

def Within {α : Type} (below : α → α → Prop) (bounds : Bounds α) (key : α) : Prop :=
  bounds.1.Start below key ∧ bounds.2.End below key

abbrev Bytes : Type := List UInt8

/-- The lexicographic order of the stored keys. -/
def BytesBelow (left right : Bytes) : Prop := left < right

instance (left right : Bytes) : Decidable (BytesBelow left right) := by
  unfold BytesBelow
  infer_instance

instance (bounds : Bounds Bytes) (key : Bytes) : Decidable (Within BytesBelow bounds key) := by
  obtain ⟨start, last⟩ := bounds
  cases start <;> cases last <;> unfold Within Bound.Start Bound.End <;> infer_instance

def UNBOUNDED : Bounds Bytes := (.unbounded, .unbounded)

/-- Raise the last byte below the maximum of a reversed string, dropping the
bytes after it. -/
def raiseLast : Bytes → Option Bytes
  | [] => none
  | last :: front => if last < 255 then some ((last + 1) :: front).reverse else raiseLast front

def prefixUpperBound (leading : Bytes) : Option Bytes := raiseLast leading.reverse

def prefixBounds (leading : Bytes) : Bounds Bytes :=
  (.included leading,
    match prefixUpperBound leading with
    | some bound => .excluded bound
    | none => .unbounded)

theorem raiseLast_append_single (front : Bytes) (byte : UInt8) :
    raiseLast (front ++ [byte]) =
      match raiseLast front with
      | some bound => some (byte :: bound)
      | none => if byte < 255 then some [byte + 1] else none := by
  induction front with
  | nil => simp [raiseLast]
  | cons last front ih =>
      rw [List.cons_append, raiseLast, raiseLast]
      by_cases raised : last < 255
      · simp [raised]
      · simp only [if_neg raised, ih]

theorem prefixUpperBound_cons (byte : UInt8) (leading : Bytes) :
    prefixUpperBound (byte :: leading) =
      match prefixUpperBound leading with
      | some bound => some (byte :: bound)
      | none => if byte < 255 then some [byte + 1] else none := by
  rw [prefixUpperBound, List.reverse_cons, raiseLast_append_single]
  rfl

theorem prefixUpperBound_eq_none {leading : Bytes} :
    prefixUpperBound leading = none ↔ ∀ byte ∈ leading, byte = 255 := by
  induction leading with
  | nil => simp [prefixUpperBound, raiseLast]
  | cons byte leading ih =>
      rw [prefixUpperBound_cons, List.forall_mem_cons, ← ih]
      cases prefixUpperBound leading with
      | some bound => simp
      | none =>
          have maximal : ¬ byte < 255 ↔ byte = 255 := by
            rw [UInt8.lt_iff_toNat_lt, ← UInt8.toNat_inj]
            have bounded := byte.toNat_lt
            change ¬ byte.toNat < 255 ↔ byte.toNat = 255
            omega
          by_cases raised : byte < 255
          · simp [raised, ← maximal]
          · simp [maximal.mp raised]

theorem below_raised {byte other : UInt8} (raised : byte < 255) :
    other < byte + 1 ↔ other ≤ byte := by
  have successor : (byte + 1).toNat = byte.toNat + 1 := by
    rw [UInt8.lt_iff_toNat_lt] at raised
    change byte.toNat < 255 at raised
    rw [UInt8.toNat_add]
    change (byte.toNat + 1) % 256 = byte.toNat + 1
    omega
  rw [UInt8.lt_iff_toNat_lt, UInt8.le_iff_toNat_le, successor]
  omega

/-- A string starts with the leading bytes exactly when it is at or above
them and below the upper bound. -/
theorem startsWith_iff (leading text : Bytes) :
    leading <+: text ↔
      leading ≤ text ∧ ∀ bound, prefixUpperBound leading = some bound → text < bound := by
  induction leading generalizing text with
  | nil =>
      have above : [] ≤ text := not_lt.mp (List.not_lt_nil text)
      simp [prefixUpperBound, raiseLast, above]
  | cons byte leading ih =>
      cases text with
      | nil => simp
      | cons other text =>
          rw [List.cons_prefix_cons, ByteOrder.cons_le_cons, prefixUpperBound_cons, ih]
          cases prefixUpperBound leading with
          | some bound =>
              simp only [Option.some.injEq, forall_eq', ByteOrder.cons_lt_cons]
              constructor
              · rintro ⟨rfl, above, below⟩
                exact ⟨Or.inr ⟨rfl, above⟩, Or.inr ⟨rfl, below⟩⟩
              · rintro ⟨first | ⟨rfl, above⟩, first' | ⟨same, below⟩⟩
                · exact absurd first first'.not_gt
                · exact absurd same first.ne'
                · exact absurd first' (lt_irrefl _)
                · exact ⟨rfl, above, below⟩
          | none =>
              by_cases raised : byte < 255
              · simp only [if_pos raised, Option.some.injEq, forall_eq', ByteOrder.cons_lt_cons,
                  below_raised raised]
                constructor
                · rintro ⟨rfl, above, -⟩
                  exact ⟨Or.inr ⟨rfl, above⟩, Or.inl le_rfl⟩
                · rintro ⟨first | ⟨rfl, above⟩, atMost | ⟨-, impossible⟩⟩
                  · exact absurd first atMost.not_gt
                  · exact absurd impossible (by simp)
                  · exact ⟨rfl, above, by simp⟩
                  · exact absurd impossible (by simp)
              · have maximal : other ≤ byte := by
                  have bounded := other.toNat_lt
                  rw [UInt8.lt_iff_toNat_lt] at raised
                  change ¬ byte.toNat < 255 at raised
                  rw [UInt8.le_iff_toNat_le]
                  omega
                simp only [if_neg raised]
                constructor
                · rintro ⟨rfl, above, -⟩
                  exact ⟨Or.inr ⟨rfl, above⟩, by simp⟩
                · rintro ⟨first | ⟨rfl, above⟩, -⟩
                  · exact absurd first maximal.not_gt
                  · exact ⟨rfl, above, by simp⟩

theorem within_prefixBounds (leading text : Bytes) :
    Within BytesBelow (prefixBounds leading) text ↔ leading <+: text := by
  rw [startsWith_iff, le_iff_eq_or_lt]
  unfold Within prefixBounds
  cases prefixUpperBound leading with
  | some bound => simp [Bound.Start, Bound.End, BytesBelow]
  | none => simp [Bound.Start, Bound.End, BytesBelow]

end Database
end Picomint
