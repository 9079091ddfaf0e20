/-
Powers taken one bit of the exponent at a time, from the top.

Modulo a number this is short enough to be run on a prime of several hundred
bits, which makes the test of Lucas a computation.
-/

import Mathlib.Data.List.Prime
import Mathlib.NumberTheory.LucasPrimality

namespace Powers

/-- The number whose binary digits follow those of another one. -/
def extend (front : Nat) (bits : List Bool) : Nat :=
  bits.foldl (fun value bit => 2 * value + bit.toNat) front

/-- The low bits of a number, highest first. -/
def lowBits (value width : Nat) : List Bool :=
  (List.range width).reverse.map value.testBit

def powMod (modulus base : Nat) (bits : List Bool) : Nat :=
  bits.foldl (fun power bit =>
    if bit then power * power % modulus * base % modulus else power * power % modulus) (1 % modulus)

theorem extend_cons (front : Nat) (bit : Bool) (bits : List Bool) :
    extend front (bit :: bits) = extend (2 * front + bit.toNat) bits := rfl

theorem extend_lowBits (front value width : Nat) :
    extend front (lowBits value width) = front * 2 ^ width + value % 2 ^ width := by
  induction width generalizing front with
  | zero => simp [lowBits, extend, Nat.mod_one]
  | succ width ih =>
      have split : lowBits value (width + 1) = value.testBit width :: lowBits value width := by
        unfold lowBits
        rw [List.range_succ, List.reverse_append, List.reverse_singleton, List.singleton_append,
          List.map_cons]
      rw [split, extend_cons, ih, Nat.toNat_testBit, Nat.mod_pow_succ, Nat.pow_succ]
      ring

theorem powMod_eq (modulus base : Nat) (bits : List Bool) :
    powMod modulus base bits = base ^ extend 0 bits % modulus := by
  have from_power : ∀ front, bits.foldl (fun power bit =>
      if bit then power * power % modulus * base % modulus else power * power % modulus)
        (base ^ front % modulus) = base ^ extend front bits % modulus := by
    induction bits with
    | nil => exact fun front => rfl
    | cons bit bits ih =>
        intro front
        rw [List.foldl_cons, extend_cons, ← ih]
        congr 1
        have doubled : base ^ front % modulus * (base ^ front % modulus) % modulus =
            base ^ (2 * front) % modulus := by
          rw [← Nat.mul_mod, two_mul, pow_add]
        cases bit with
        | false => simpa using doubled
        | true =>
            simp only [if_true, Bool.toNat_true]
            rw [doubled, pow_succ, Nat.mod_mul_mod]
  have whole := from_power 0
  rw [Nat.pow_zero] at whole
  exact whole

def lucasTest (p base width : Nat) (factors : List Nat) : Bool :=
  powMod p base (lowBits (p - 1) width) == 1 &&
    factors.all fun factor => powMod p base (lowBits ((p - 1) / factor) width) != 1

theorem prime_of_lucasTest {p : Nat} (base width : Nat) (large : 1 < p) (fits : p ≤ 2 ^ width)
    (factors : List Nat) (primes : ∀ factor ∈ factors, factor.Prime)
    (product : factors.prod = p - 1) (passed : lucasTest p base width factors = true) :
    p.Prime := by
  have computes : ∀ exponent, exponent < 2 ^ width →
      ((base : ZMod p) ^ exponent = 1 ↔ powMod p base (lowBits exponent width) = 1) := by
    intro exponent small
    rw [powMod_eq, extend_lowBits, Nat.zero_mul, Nat.zero_add, Nat.mod_eq_of_lt small,
      ← Nat.cast_pow, ← Nat.cast_one, ZMod.natCast_eq_natCast_iff', Nat.mod_eq_of_lt large]
  obtain ⟨full, parts⟩ := (Bool.and_eq_true _ _).mp passed
  refine lucas_primality p base ((computes _ (by omega)).mpr (beq_iff_eq.mp full)) ?_
  intro q isPrime divides
  rw [← product] at divides
  obtain ⟨factor, member, below⟩ := (Prime.dvd_prod_iff isPrime.prime).mp divides
  rw [(Nat.prime_dvd_prime_iff_eq isPrime (primes factor member)).mp below]
  have small : (p - 1) / factor < 2 ^ width := (Nat.div_le_self _ _).trans_lt (by omega)
  rw [Ne, computes _ small]
  exact bne_iff_ne.mp (List.all_eq_true.mp parts factor member)

end Powers
