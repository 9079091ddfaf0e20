/-
Polynomials by their coefficients, lowest first, with values in a vector space.

The value at a point is linear in the coefficients, so sums of polynomials are
evaluated summand by summand, and coefficients in the exponent of a group
evaluate to the value in the exponent.
-/

import Picomint.Lib.Interpolation

namespace SharePolynomial

open Polynomial

variable {F M : Type} [Field F] [AddCommGroup M] [Module F M]

def valueAt (coefficients : List M) (x : F) : M :=
  coefficients.foldr (fun coefficient value => coefficient + x • value) 0

@[simp] theorem valueAt_nil (x : F) : valueAt ([] : List M) x = 0 := rfl

@[simp] theorem valueAt_cons (coefficient : M) (rest : List M) (x : F) :
    valueAt (coefficient :: rest) x = coefficient + x • valueAt rest x := rfl

theorem valueAt_zero (coefficients : List M) :
    valueAt coefficients (0 : F) = coefficients.getD 0 0 := by
  cases coefficients with
  | nil => rfl
  | cons coefficient rest => rw [valueAt_cons, zero_smul, add_zero, List.getD_cons_zero]

theorem valueAt_smul (coefficients : List F) (x : F) (base : M) :
    valueAt (coefficients.map fun coefficient => coefficient • base) x =
      valueAt coefficients x • base := by
  induction coefficients with
  | nil => exact (zero_smul F base).symm
  | cons coefficient rest ih =>
      rw [List.map_cons, valueAt_cons, ih, valueAt_cons, add_smul, smul_assoc]

theorem valueAt_eq_sum (coefficients : List M) (x : F) :
    valueAt coefficients x =
      ∑ index ∈ Finset.range coefficients.length, x ^ index • coefficients.getD index 0 := by
  induction coefficients with
  | nil => simp
  | cons coefficient rest ih =>
      rw [valueAt_cons, ih, List.length_cons, Finset.sum_range_succ', Finset.smul_sum, add_comm]
      simp only [smul_smul, List.getD_cons_succ, List.getD_cons_zero, pow_zero, one_smul,
        pow_succ']

theorem sum_powers (coefficients : List M) (x : F) (offset : Nat) :
    ((coefficients.zipIdx offset).map fun entry => x ^ entry.2 • entry.1).sum =
      x ^ offset • valueAt coefficients x := by
  induction coefficients generalizing offset with
  | nil => exact (smul_zero _).symm
  | cons coefficient rest ih =>
      rw [List.zipIdx_cons, List.map_cons, List.sum_cons, ih, valueAt_cons, smul_add, smul_smul,
        pow_succ]

def sumColumns (count : Nat) (polynomials : List (List M)) : List M :=
  (List.range count).map fun index =>
    (polynomials.map fun polynomial => polynomial.getD index 0).sum

theorem sumColumns_length (count : Nat) (polynomials : List (List M)) :
    (sumColumns count polynomials).length = count := by
  rw [sumColumns, List.length_map, List.length_range]

theorem sumColumns_getD {count index : Nat} (polynomials : List (List M)) (within : index < count) :
    (sumColumns count polynomials).getD index 0 =
      (polynomials.map fun polynomial => polynomial.getD index 0).sum := by
  rw [sumColumns, List.getD_eq_getElem?_getD, List.getElem?_map, List.getElem?_range within]
  rfl

theorem sumColumns_smul (count : Nat) (polynomials : List (List F)) (base : M) :
    sumColumns count (polynomials.map fun polynomial =>
      polynomial.map fun coefficient => coefficient • base) =
        (sumColumns count polynomials).map fun coefficient => coefficient • base := by
  unfold sumColumns
  rw [List.map_map]
  apply List.map_congr_left
  intro index _
  rw [Function.comp_apply, List.sum_smul, List.map_map, List.map_map]
  congr 1
  apply List.map_congr_left
  intro polynomial _
  simp only [Function.comp_apply, List.getD_eq_getElem?_getD, List.getElem?_map]
  cases polynomial[index]? with
  | none => exact (zero_smul F base).symm
  | some coefficient => rfl

theorem valueAt_sumColumns {count : Nat} {polynomials : List (List M)}
    (lengths : ∀ polynomial ∈ polynomials, polynomial.length = count) (x : F) :
    valueAt (sumColumns count polynomials) x =
      (polynomials.map fun polynomial => valueAt polynomial x).sum := by
  rw [valueAt_eq_sum, sumColumns_length]
  have columns : ∀ index ∈ Finset.range count,
      x ^ index • (sumColumns count polynomials).getD index 0 =
        (polynomials.map fun polynomial => x ^ index • polynomial.getD index 0).sum := by
    intro index member
    rw [sumColumns_getD polynomials (Finset.mem_range.mp member), List.smul_sum, List.map_map]
    rfl
  rw [Finset.sum_congr rfl columns]
  induction polynomials with
  | nil => simp
  | cons polynomial rest ih =>
      simp only [List.map_cons, List.sum_cons, Finset.sum_add_distrib]
      rw [ih (fun other member => lengths other (List.mem_cons_of_mem _ member)) (by
        intro index member
        rw [sumColumns_getD rest (Finset.mem_range.mp member), List.smul_sum, List.map_map]
        rfl), valueAt_eq_sum, lengths polynomial List.mem_cons_self]

theorem exists_polynomial (coefficients : List F) : ∃ polynomial : F[X],
    polynomial.degree < coefficients.length ∧
      ∀ x, polynomial.eval x = valueAt coefficients x := by
  refine ⟨∑ index ∈ Finset.range coefficients.length, C (coefficients.getD index 0) * X ^ index,
    ?_, ?_⟩
  · refine mem_degreeLT.mp (Submodule.sum_mem _ fun index member => mem_degreeLT.mpr ?_)
    refine lt_of_le_of_lt (degree_C_mul_X_pow_le index _) ?_
    exact_mod_cast Finset.mem_range.mp member
  · intro x
    rw [eval_finsetSum, valueAt_eq_sum]
    refine Finset.sum_congr rfl fun index _ => ?_
    rw [eval_mul, eval_C, eval_pow, eval_X, smul_eq_mul, mul_comm]

/-- As many values as coefficients give the lowest one back. -/
theorem interpolate [DecidableEq F] {points coefficients : List F} (distinct : points.Nodup)
    (enough : coefficients.length ≤ points.length) :
    (points.map fun point =>
      Picomint.Interpolation.weightAtZero points point * valueAt coefficients point).sum =
        coefficients.getD 0 0 := by
  obtain ⟨polynomial, degree, values⟩ := exists_polynomial coefficients
  simp only [← values]
  rw [Picomint.Interpolation.sum_weightAtZero distinct polynomial
    (lt_of_lt_of_le degree (by exact_mod_cast enough)), values, valueAt_zero]

end SharePolynomial
