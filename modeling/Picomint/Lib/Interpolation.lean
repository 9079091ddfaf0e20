/-
Interpolation at zero from a list of distinct points.
-/

import Mathlib.LinearAlgebra.Lagrange

namespace Picomint.Interpolation

open Polynomial

variable {F : Type} [Field F] [DecidableEq F]

def weightAtZero (points : List F) (point : F) : F :=
  ((points.filter (fun other => other ≠ point)).map (fun other => other * (other - point)⁻¹)).prod

theorem weightAtZero_eq_basis {points : List F} (distinct : points.Nodup) (point : F) :
    weightAtZero points point = (Lagrange.basis points.toFinset id point).eval 0 := by
  have others : (points.filter (fun other => other ≠ point)).toFinset =
      points.toFinset.erase point := by
    ext other
    simp [and_comm]
  have factor : ∀ other : F,
      (Lagrange.basisDivisor point other).eval 0 = other * (other - point)⁻¹ := by
    intro other
    unfold Lagrange.basisDivisor
    rw [eval_mul, eval_C, eval_sub, eval_X, eval_C, zero_sub, mul_neg, ← neg_mul, ← inv_neg,
      neg_sub, mul_comm]
  unfold weightAtZero Lagrange.basis
  rw [eval_prod, ← others, List.prod_toFinset _ (distinct.filter _)]
  simp only [id, factor]

theorem sum_weightAtZero {points : List F} (distinct : points.Nodup) (secret : F[X])
    (degree : secret.degree < points.length) :
    (points.map (fun point => weightAtZero points point * secret.eval point)).sum =
      secret.eval 0 := by
  have degreeBelow : secret.degree < points.toFinset.card := by
    rwa [List.toFinset_card_of_nodup distinct]
  rw [← List.sum_toFinset _ distinct]
  conv_rhs => rw [Lagrange.eq_interpolate (Set.injOn_id _) degreeBelow,
    Lagrange.interpolate_apply, eval_finsetSum]
  apply Finset.sum_congr rfl
  intro point _
  rw [eval_mul, eval_C, weightAtZero_eq_basis distinct, mul_comm]
  rfl

/-- The same in the exponent of a group. -/
theorem sum_weightAtZero_smul {M : Type} [AddCommGroup M] [Module F M] {points : List F}
    (distinct : points.Nodup) (secret : F[X]) (degree : secret.degree < points.length) (base : M) :
    (points.map (fun point => weightAtZero points point • secret.eval point • base)).sum =
      secret.eval 0 • base := by
  rw [← sum_weightAtZero distinct secret degree, List.sum_smul, List.map_map]
  congr 1
  apply List.map_congr_left
  intro point _
  exact smul_smul _ _ _

end Picomint.Interpolation
