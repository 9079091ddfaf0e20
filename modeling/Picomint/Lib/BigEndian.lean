/-
Natural numbers as big-endian bytes of a fixed width.

The width is the length of the list; a number is written modulo the powers
of 256 the width leaves room for.
-/

import Mathlib.Data.List.Lex
import Mathlib.Data.UInt
import Mathlib.Tactic

def toBigEndian : Nat → Nat → List UInt8
  | 0, _ => []
  | width + 1, value => UInt8.ofNat (value / 256 ^ width) :: toBigEndian width value

def ofBigEndian : List UInt8 → Nat
  | [] => 0
  | byte :: rest => byte.toNat * 256 ^ rest.length + ofBigEndian rest

@[simp]
theorem toBigEndian_length (width value : Nat) : (toBigEndian width value).length = width := by
  induction width with
  | zero => rfl
  | succ width ih => rw [toBigEndian, List.length_cons, ih]

theorem ofBigEndian_lt (bytes : List UInt8) : ofBigEndian bytes < 256 ^ bytes.length := by
  induction bytes with
  | nil => simp [ofBigEndian]
  | cons byte rest ih =>
      have digit : byte.toNat + 1 ≤ 256 := byte.toNat_lt
      calc ofBigEndian (byte :: rest)
          < byte.toNat * 256 ^ rest.length + 256 ^ rest.length := Nat.add_lt_add_left ih _
        _ = (byte.toNat + 1) * 256 ^ rest.length := by ring
        _ ≤ 256 * 256 ^ rest.length := Nat.mul_le_mul_right _ digit
        _ = 256 ^ (byte :: rest).length := by rw [List.length_cons, Nat.pow_succ']

/-- The digits above the width are not written. -/
theorem toBigEndian_add_mul (width high low : Nat) :
    toBigEndian width (high * 256 ^ width + low) = toBigEndian width low := by
  induction width generalizing high with
  | zero => rfl
  | succ width ih =>
      have shifted : high * 256 ^ (width + 1) + low = (high * 256) * 256 ^ width + low := by
        ring
      have quotient : (high * 256 * 256 ^ width + low) / 256 ^ width =
          low / 256 ^ width + 256 * high := by
        rw [Nat.add_comm, Nat.add_mul_div_right _ _ (by positivity), Nat.mul_comm high]
      rw [shifted, toBigEndian, toBigEndian, ih, quotient]
      congr 1
      apply UInt8.toNat.inj
      simp

theorem toBigEndian_ofBigEndian (bytes : List UInt8) :
    toBigEndian bytes.length (ofBigEndian bytes) = bytes := by
  induction bytes with
  | nil => rfl
  | cons byte rest ih =>
      have quotient : (byte.toNat * 256 ^ rest.length + ofBigEndian rest) / 256 ^ rest.length =
          byte.toNat := by
        rw [Nat.add_comm, Nat.add_mul_div_right _ _ (by positivity),
          Nat.div_eq_of_lt (ofBigEndian_lt rest), Nat.zero_add]
      rw [List.length_cons, toBigEndian, ofBigEndian, quotient, toBigEndian_add_mul, ih,
        UInt8.ofNat_toNat]

theorem ofBigEndian_toBigEndian {width value : Nat} (fits : value < 256 ^ width) :
    ofBigEndian (toBigEndian width value) = value := by
  induction width generalizing value with
  | zero =>
      rw [Nat.pow_zero] at fits
      rw [toBigEndian, ofBigEndian]
      omega
  | succ width ih =>
      have digit : value / 256 ^ width < 256 := by
        rw [Nat.div_lt_iff_lt_mul (by positivity), ← Nat.pow_succ']
        exact fits
      have low : toBigEndian width value = toBigEndian width (value % 256 ^ width) := by
        conv_lhs => rw [← Nat.div_add_mod' value (256 ^ width)]
        exact toBigEndian_add_mul width _ _
      rw [toBigEndian, ofBigEndian, toBigEndian_length, low,
        ih (Nat.mod_lt _ (by positivity)), UInt8.toNat_ofNat_of_lt' digit]
      exact Nat.div_add_mod' value (256 ^ width)
