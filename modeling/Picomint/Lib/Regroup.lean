/-
Regrouping a stream of digits into digits of another width.

Digits enter a buffer above the bits it holds and leave it from its low end.
The number the digits spell, low digit first, is the same on both sides.
-/

import Mathlib.Data.Nat.Bitwise
import Mathlib.Data.Nat.Digits.Defs
import Mathlib.Tactic

namespace Regroup

structure Buffer where
  value : Nat
  bits : Nat
  deriving DecidableEq, Repr

def Buffer.push (buffer : Buffer) (width digit : Nat) : Buffer :=
  { value := buffer.value ||| (digit <<< buffer.bits)
    bits := buffer.bits + width }

/-- Take digits off the low end while the buffer holds one. -/
def drain (width : Nat) (buffer : Buffer) : List Nat × Buffer :=
  if 0 < width ∧ width ≤ buffer.bits then
    let (digits, left) := drain width
      { value := buffer.value >>> width
        bits := buffer.bits - width }
    ((buffer.value &&& (2 ^ width - 1)) :: digits, left)
  else ([], buffer)
termination_by buffer.bits
decreasing_by omega

def regroup (inWidth outWidth : Nat) : Buffer → List Nat → List Nat × Buffer
  | buffer, [] => ([], buffer)
  | buffer, digit :: digits =>
      let (front, drained) := drain outWidth (buffer.push inWidth digit)
      let (back, left) := regroup inWidth outWidth drained digits
      (front ++ back, left)

/-- What a buffer gives off spells the number together with what it keeps. -/
structure Spells (width number bits : Nat) (digits : List Nat) (left : Buffer) : Prop where
  small : ∀ digit ∈ digits, digit < 2 ^ width
  value : left.value < 2 ^ left.bits
  short : left.bits < width
  bits : digits.length * width + left.bits = bits
  number : Nat.ofDigits (2 ^ width) digits + 2 ^ (digits.length * width) * left.value = number

theorem push_value {buffer : Buffer} (held : buffer.value < 2 ^ buffer.bits) (width digit : Nat) :
    (buffer.push width digit).value = buffer.value + 2 ^ buffer.bits * digit := by
  unfold Buffer.push
  simp only
  rw [Nat.lor_comm, ← Nat.shiftLeft_add_eq_or_of_lt held, Nat.shiftLeft_eq, Nat.mul_comm]
  exact Nat.add_comm _ _

theorem push_lt {buffer : Buffer} (held : buffer.value < 2 ^ buffer.bits) {width digit : Nat}
    (fits : digit < 2 ^ width) :
    (buffer.push width digit).value < 2 ^ (buffer.push width digit).bits := by
  rw [push_value held, Buffer.push]
  calc buffer.value + 2 ^ buffer.bits * digit
      < 2 ^ buffer.bits * 1 + 2 ^ buffer.bits * digit := by omega
    _ = 2 ^ buffer.bits * (1 + digit) := (Nat.mul_add _ _ _).symm
    _ ≤ 2 ^ buffer.bits * 2 ^ width := Nat.mul_le_mul_left _ (by omega)
    _ = 2 ^ (buffer.bits + width) := (Nat.pow_add _ _ _).symm

theorem drain_spells {width : Nat} (positive : 0 < width) (buffer : Buffer)
    (held : buffer.value < 2 ^ buffer.bits) :
    Spells width buffer.value buffer.bits (drain width buffer).1 (drain width buffer).2 := by
  induction bits : buffer.bits using Nat.strong_induction_on generalizing buffer with
  | _ bits ih =>
      subst bits
      rw [drain]
      by_cases full : width ≤ buffer.bits
      · rw [if_pos ⟨positive, full⟩]
        have shifted : buffer.value >>> width < 2 ^ (buffer.bits - width) := by
          rw [Nat.shiftRight_eq_div_pow, Nat.div_lt_iff_lt_mul (by positivity), ← Nat.pow_add,
            Nat.sub_add_cancel full]
          exact held
        have rest := ih (buffer.bits - width) (by omega)
          { value := buffer.value >>> width, bits := buffer.bits - width } shifted rfl
        obtain ⟨⟨digits, left⟩, drained⟩ : ∃ drained, drain width
          { value := buffer.value >>> width, bits := buffer.bits - width } = drained := ⟨_, rfl⟩
        rw [drained] at rest ⊢
        obtain ⟨small, value, short, bits, number⟩ := rest
        simp only at small value short bits number ⊢
        refine ⟨?_, value, short, ?_, ?_⟩
        · rw [List.forall_mem_cons]
          refine ⟨?_, small⟩
          rw [Nat.and_two_pow_sub_one_eq_mod]
          exact Nat.mod_lt _ (by positivity)
        · rw [List.length_cons, Nat.succ_mul]
          omega
        · rw [Nat.ofDigits_cons, List.length_cons, Nat.succ_mul, Nat.pow_add,
            Nat.and_two_pow_sub_one_eq_mod]
          rw [Nat.shiftRight_eq_div_pow] at number
          conv_rhs => rw [← Nat.mod_add_div buffer.value (2 ^ width), ← number]
          ring
      · rw [if_neg fun both => full both.2]
        exact ⟨List.forall_mem_nil _, held, not_le.mp full, by simp, by simp⟩

theorem regroup_spells {inWidth outWidth : Nat} (positive : 0 < outWidth) (buffer : Buffer)
    (held : buffer.value < 2 ^ buffer.bits) (short : buffer.bits < outWidth) (digits : List Nat)
    (fit : ∀ digit ∈ digits, digit < 2 ^ inWidth) :
    Spells outWidth (buffer.value + 2 ^ buffer.bits * Nat.ofDigits (2 ^ inWidth) digits)
      (buffer.bits + digits.length * inWidth) (regroup inWidth outWidth buffer digits).1
      (regroup inWidth outWidth buffer digits).2 := by
  induction digits generalizing buffer with
  | nil => exact ⟨List.forall_mem_nil _, held, short, by simp [regroup], by simp [regroup]⟩
  | cons digit digits ih =>
      obtain ⟨first, rest⟩ := List.forall_mem_cons.mp fit
      have pushed := drain_spells positive (buffer.push inWidth digit) (push_lt held first)
      rw [push_value held, show (buffer.push inWidth digit).bits = buffer.bits + inWidth from rfl]
        at pushed
      rw [regroup]
      obtain ⟨⟨front, middle⟩, drained⟩ : ∃ drained, drain outWidth (buffer.push inWidth digit) =
        drained := ⟨_, rfl⟩
      rw [drained] at pushed ⊢
      have later := ih middle pushed.value pushed.short rest
      obtain ⟨⟨back, left⟩, regrouped⟩ : ∃ regrouped, regroup inWidth outWidth middle digits =
        regrouped := ⟨_, rfl⟩
      simp only at pushed ⊢
      rw [regrouped] at later ⊢
      simp only at later ⊢
      refine ⟨?_, later.value, later.short, ?_, ?_⟩
      · intro other member
        rcases List.mem_append.mp member with early | late
        · exact pushed.small other early
        · exact later.small other late
      · have early := pushed.bits
        have late := later.bits
        rw [List.length_append, Nat.add_mul, List.length_cons, Nat.succ_mul]
        omega
      · rw [List.length_append, Nat.ofDigits_append, Nat.add_mul, Nat.pow_add, Nat.ofDigits_cons,
          ← Nat.pow_mul, Nat.mul_comm outWidth]
        calc Nat.ofDigits (2 ^ outWidth) front +
                2 ^ (front.length * outWidth) * Nat.ofDigits (2 ^ outWidth) back +
              2 ^ (front.length * outWidth) * 2 ^ (back.length * outWidth) * left.value
            = Nat.ofDigits (2 ^ outWidth) front + 2 ^ (front.length * outWidth) *
                (middle.value + 2 ^ middle.bits * Nat.ofDigits (2 ^ inWidth) digits) := by
              rw [← later.number]
              ring
          _ = Nat.ofDigits (2 ^ outWidth) front + 2 ^ (front.length * outWidth) * middle.value +
                2 ^ (front.length * outWidth + middle.bits) *
                  Nat.ofDigits (2 ^ inWidth) digits := by
              rw [Nat.pow_add]
              ring
          _ = buffer.value + 2 ^ buffer.bits *
                (digit + 2 ^ inWidth * Nat.ofDigits (2 ^ inWidth) digits) := by
              rw [pushed.number, pushed.bits, Nat.pow_add]
              ring

end Regroup
