/-
Correctness of the threshold signatures.

A share made by `signShare` verifies, because public key derivation carries
every scalar step to the same step on points.  Shares that verify sum to a
signature of the aggregate key: their expected points add up to the even group
nonce plus the challenge times the even aggregate key, by interpolation at zero.
-/

import Picomint.Tss.Signing
import Mathlib.FieldTheory.Finite.Basic
import Mathlib.LinearAlgebra.Lagrange

namespace Picomint.Tss

open Polynomial

variable {curve : Curve}

/-! ### Public keys of scalar operations -/

theorem publicKey_mulTweak {key product : SecretKey curve} {tweak : curve.Scalar}
    (computed : key.mulTweak tweak = some product) :
    key.publicKey.mulTweak tweak = some product.publicKey := by
  have value := SecretKey.ofScalar?_scalar computed
  have point : tweak • key.publicKey.point = product.publicKey.point := by
    change tweak • key.scalar • curve.generator = product.scalar • curve.generator
    rw [value, smul_smul, mul_comm]
  unfold PublicKey.mulTweak
  rw [point]
  exact PublicKey.ofPoint?_self _

theorem publicKey_addTweak {key other sum : SecretKey curve}
    (computed : key.addTweak other.scalar = some sum) :
    key.publicKey.combine other.publicKey = some sum.publicKey := by
  have value := SecretKey.ofScalar?_scalar computed
  have point : key.publicKey.point + other.publicKey.point = sum.publicKey.point := by
    change key.scalar • curve.generator + other.scalar • curve.generator =
      sum.scalar • curve.generator
    rw [value, add_smul]
  unfold PublicKey.combine
  rw [point]
  exact PublicKey.ofPoint?_self _

theorem publicKey_addExpTweak {key tweaked : SecretKey curve} {tweak : curve.Scalar}
    (computed : key.addTweak tweak = some tweaked) :
    key.publicKey.addExpTweak tweak = some tweaked.publicKey := by
  have value := SecretKey.ofScalar?_scalar computed
  have point : key.publicKey.point + tweak • curve.generator = tweaked.publicKey.point := by
    change key.scalar • curve.generator + tweak • curve.generator =
      tweaked.scalar • curve.generator
    rw [value, add_smul]
  unfold PublicKey.addExpTweak
  rw [point]
  exact PublicKey.ofPoint?_self _

theorem publicKey_negate (key : SecretKey curve) : key.negate.publicKey = key.publicKey.negate := by
  apply PublicKey.ext
  exact neg_smul key.scalar curve.generator

theorem mulTweak_negate (key : SecretKey curve) (tweak : curve.Scalar) :
    key.negate.mulTweak tweak = (key.mulTweak tweak).map SecretKey.negate := by
  have opposite : key.negate.scalar * tweak = -(key.scalar * tweak) := neg_mul _ _
  unfold SecretKey.mulTweak SecretKey.ofScalar?
  by_cases zero : key.scalar * tweak = 0
  · rw [dif_neg (not_not.mpr (opposite.trans (neg_eq_zero.mpr zero))), dif_neg (not_not.mpr zero)]
    rfl
  · rw [dif_pos (by rw [opposite]; exact neg_ne_zero.mpr zero), dif_pos zero]
    apply congrArg some
    exact SecretKey.ext opposite

theorem addTweak_negate (key other : SecretKey curve) :
    key.negate.addTweak other.negate.scalar =
      (key.addTweak other.scalar).map SecretKey.negate := by
  have opposite : key.negate.scalar + other.negate.scalar = -(key.scalar + other.scalar) :=
    (neg_add _ _).symm
  unfold SecretKey.addTweak SecretKey.ofScalar?
  by_cases zero : key.scalar + other.scalar = 0
  · rw [dif_neg (not_not.mpr (opposite.trans (neg_eq_zero.mpr zero))), dif_neg (not_not.mpr zero)]
    rfl
  · rw [dif_pos (by rw [opposite]; exact neg_ne_zero.mpr zero), dif_pos zero]
    apply congrArg some
    exact SecretKey.ext opposite

/-! ### Shares verify -/

/-- The parity of the group nonce may be applied to the nonce halves or to
their combination. -/
theorem effectiveNonce_publicKey {first second scaled effective : SecretKey curve}
    {binding : curve.Scalar} (odd : Bool)
    (scaledBy : (if odd then second.negate else second).mulTweak binding = some scaled)
    (summed : (if odd then first.negate else first).addTweak scaled.scalar = some effective) :
    ∃ product combined, second.publicKey.mulTweak binding = some product ∧
      first.publicKey.combine product = some combined ∧
      (if odd then combined.negate else combined) = effective.publicKey := by
  cases odd with
  | false =>
      exact ⟨scaled.publicKey, effective.publicKey, publicKey_mulTweak scaledBy,
        publicKey_addTweak summed, rfl⟩
  | true =>
      simp only [if_true] at scaledBy summed ⊢
      rw [mulTweak_negate, Option.map_eq_some_iff] at scaledBy
      obtain ⟨product, multiplied, negated⟩ := scaledBy
      rw [← negated, addTweak_negate, Option.map_eq_some_iff] at summed
      obtain ⟨sum, added, opposite⟩ := summed
      exact ⟨product.publicKey, sum.publicKey, publicKey_mulTweak multiplied,
        publicKey_addTweak added, by rw [← opposite, publicKey_negate]⟩

theorem sharePoint_publicKey {sks weighted share lambda : SecretKey curve}
    {challenge : curve.Scalar} (odd : Bool)
    (weightedBy : (if odd then sks.negate else sks).mulTweak lambda.scalar = some weighted)
    (challenged : weighted.mulTweak challenge = some share) :
    ∃ coefficient, lambda.mulTweak challenge = some coefficient ∧
      (if odd then sks.publicKey.negate else sks.publicKey).mulTweak coefficient.scalar =
        some share.publicKey := by
  have weightedValue := SecretKey.ofScalar?_scalar weightedBy
  have shareValue := SecretKey.ofScalar?_scalar challenged
  have nonzero : lambda.scalar * challenge ≠ 0 := by
    intro zero
    apply share.nonzero
    rw [shareValue, weightedValue, mul_assoc, zero, mul_zero]
  refine ⟨⟨lambda.scalar * challenge, nonzero⟩, SecretKey.ofScalar?_of_ne_zero nonzero, ?_⟩
  have key : (if odd then sks.publicKey.negate else sks.publicKey) =
      (if odd then sks.negate else sks).publicKey := by
    cases odd with
    | false => rfl
    | true => exact (publicKey_negate sks).symm
  rw [key]
  apply publicKey_mulTweak
  unfold SecretKey.mulTweak
  rw [← mul_assoc, ← weightedValue, ← shareValue]
  exact SecretKey.ofScalar?_of_ne_zero share.nonzero

/-- Every share that `signShare` makes passes its signer's verification. -/
theorem signShare_verifies {msg identity : Nat} {sks : SecretKey curve}
    {nonce : SecretNonce curve} {nonces : SortedMap Nat (PublicNonce curve)}
    {pk : PublicKey curve} {share : SignatureShare curve}
    (member : nonces.get? identity = some (derivePublicNonce nonce))
    (signed : signShare msg sks nonce nonces identity pk = some share) :
    verifySignatureShare msg identity (derivePkShare sks) share nonces pk = some true := by
  unfold signShare at signed
  simp only [Option.bind_eq_bind, Option.bind_eq_some_iff] at signed
  obtain ⟨values, session, lambda, multiplier, weighted, weightedBy, product, challenged, scaled,
    scaledBy, effective, summed, response, added, result⟩ := signed
  obtain ⟨second, combined, secondPoint, combinedPoint, effectivePoint⟩ :=
    effectiveNonce_publicKey values.group.isOdd scaledBy summed
  obtain ⟨coefficient, coefficientValue, sharePoint⟩ :=
    sharePoint_publicKey pk.isOdd weightedBy challenged
  have expected : expectedPoint values lambda (derivePublicNonce nonce) (derivePkShare sks) pk =
      some response.publicKey := by
    unfold expectedPoint
    change (nonce.second.publicKey.mulTweak values.binding).bind _ = _
    rw [secondPoint, Option.bind_some]
    change (nonce.first.publicKey.combine second).bind _ = _
    rw [combinedPoint, Option.bind_some, coefficientValue]
    change (PublicKey.mulTweak _ coefficient.scalar).bind _ = _
    unfold derivePkShare
    rw [sharePoint, Option.bind_some, effectivePoint]
    exact publicKey_addTweak added
  cases result
  unfold verifySignatureShare
  rw [member]
  simp only [session, multiplier, Option.bind_eq_bind, Option.bind_some, expected, decide_true]

/-! ### Lagrange multipliers -/

theorem difference_scalar {a b : Nat} {gap : SecretKey curve}
    (computed : difference curve a b = some gap) :
    gap.scalar = (a : curve.Scalar) - (b : curve.Scalar) := by
  unfold difference at computed
  split at computed
  · rename_i above
    rw [SecretKey.ofScalar?_scalar computed, Nat.cast_sub above.le]
  · rename_i notAbove
    rw [Option.map_eq_some_iff] at computed
    obtain ⟨key, valid, negated⟩ := computed
    rw [← negated]
    change -key.scalar = _
    rw [SecretKey.ofScalar?_scalar valid, Nat.cast_sub (not_lt.mp notAbove), neg_sub]

theorem invertBit_scalar {key accumulator result : SecretKey curve} {bit : Nat}
    (power : accumulator.scalar = key.scalar ^ ((curve.order - 2) / 2 ^ (bit + 1)))
    (computed : invertBit key accumulator bit = some result) :
    result.scalar = key.scalar ^ ((curve.order - 2) / 2 ^ bit) := by
  have halves : (curve.order - 2) / 2 ^ bit =
      2 * ((curve.order - 2) / 2 ^ (bit + 1)) + ((curve.order - 2) / 2 ^ bit) % 2 := by
    rw [pow_succ, ← Nat.div_div_eq_div_mul]
    omega
  generalize (curve.order - 2) / 2 ^ (bit + 1) = upper at power halves
  unfold invertBit at computed
  simp only [Option.bind_eq_bind, Option.bind_eq_some_iff] at computed
  obtain ⟨squared, square, next⟩ := computed
  have squareValue : squared.scalar =
      key.scalar ^ (2 * upper) := by
    rw [SecretKey.ofScalar?_scalar square, power, ← pow_add, two_mul]
  rw [Nat.testBit_eq_decide_div_mod_eq] at next
  split at next
  · rename_i odd
    rw [SecretKey.ofScalar?_scalar next, squareValue, halves, of_decide_eq_true odd, pow_succ]
  · rename_i even
    have zero : (curve.order - 2) / 2 ^ bit % 2 = 0 := by
      have notOne := of_decide_eq_false (Bool.not_eq_true _ ▸ even)
      omega
    cases next
    rw [squareValue, halves, zero, add_zero]

theorem invertBits_scalar {key accumulator result : SecretKey curve} (count : Nat)
    (power : accumulator.scalar = key.scalar ^ ((curve.order - 2) / 2 ^ count))
    (computed : (List.range count).reverse.foldlM (invertBit key) accumulator = some result) :
    result.scalar = key.scalar ^ (curve.order - 2) := by
  induction count generalizing accumulator with
  | zero =>
      cases computed
      rw [power, pow_zero, Nat.div_one]
  | succ count inductionHypothesis =>
      rw [List.range_succ, List.reverse_append, List.reverse_singleton, List.singleton_append,
        List.foldlM_cons, Option.bind_eq_bind, Option.bind_eq_some_iff] at computed
      obtain ⟨next, step, rest⟩ := computed
      exact inductionHypothesis (invertBit_scalar power step) rest

theorem invert_scalar {key inverse : SecretKey curve} (computed : invert key = some inverse) :
    inverse.scalar = key.scalar⁻¹ := by
  unfold invert at computed
  simp only [Option.bind_eq_bind, Option.bind_eq_some_iff] at computed
  obtain ⟨one, unit, bits⟩ := computed
  have exponentBelow : (curve.order - 2) / 2 ^ 256 = 0 :=
    Nat.div_eq_of_lt (by have := curve.order_below; omega)
  have start : one.scalar = key.scalar ^ ((curve.order - 2) / 2 ^ 256) := by
    rw [exponentBelow, pow_zero, SecretKey.ofScalar?_scalar unit, Nat.cast_one]
  rw [invertBits_scalar 256 start bits]
  apply eq_inv_of_mul_eq_one_left
  rw [← pow_succ]
  have exponent : curve.order - 2 + 1 = curve.order - 1 := by
    have := curve.order_above
    omega
  rw [exponent, ZMod.pow_card_sub_one_eq_one key.nonzero]

/-- The multiplier as a fraction of field elements. -/
def lagrangeWeight (curve : Curve) (nodes : List Nat) (identity : Nat) : curve.Scalar :=
  let others := nodes.filter (fun node => node ≠ identity)
  (others.map (fun node : Nat => (node : curve.Scalar) + 1)).prod *
    (others.map (fun node : Nat => (node : curve.Scalar) - (identity : curve.Scalar))).prod⁻¹

theorem lagrangeStep_scalars {identity : Nat} (others : List Nat)
    {start result : SecretKey curve × SecretKey curve}
    (computed : others.foldlM (lagrangeStep identity) start = some result) :
    result.1.scalar = start.1.scalar *
        (others.map (fun node : Nat => (node : curve.Scalar) + 1)).prod ∧
      result.2.scalar = start.2.scalar *
        (others.map (fun node : Nat =>
          (node : curve.Scalar) - (identity : curve.Scalar))).prod := by
  induction others generalizing start with
  | nil =>
      cases computed
      simp
  | cons node rest inductionHypothesis =>
      rw [List.foldlM_cons, Option.bind_eq_bind, Option.bind_eq_some_iff] at computed
      obtain ⟨next, step, following⟩ := computed
      unfold lagrangeStep at step
      simp only [Option.bind_eq_bind, Option.bind_eq_some_iff] at step
      obtain ⟨numerator, multiplied, gap, distance, denominator, divided, pair⟩ := step
      cases pair
      obtain ⟨upper, lower⟩ := inductionHypothesis following
      have numeratorValue := SecretKey.ofScalar?_scalar multiplied
      have denominatorValue := SecretKey.ofScalar?_scalar divided
      unfold scalarFromU64 at numeratorValue
      rw [Nat.cast_add, Nat.cast_one] at numeratorValue
      rw [difference_scalar distance] at denominatorValue
      simp only [List.map_cons, List.prod_cons]
      constructor
      · rw [upper, numeratorValue, mul_assoc]
      · rw [lower, denominatorValue, mul_assoc]

theorem lagrangeMultiplier_scalar {nodes : List Nat} {identity : Nat} {lambda : SecretKey curve}
    (computed : lagrangeMultiplier curve nodes identity = some lambda) :
    lambda.scalar = lagrangeWeight curve nodes identity := by
  unfold lagrangeMultiplier at computed
  simp only [Option.bind_eq_bind, Option.bind_eq_some_iff] at computed
  obtain ⟨one, unit, fraction, steps, inverse, inverted, product⟩ := computed
  obtain ⟨numerator, denominator⟩ := lagrangeStep_scalars _ steps
  have oneValue : one.scalar = 1 := by
    rw [SecretKey.ofScalar?_scalar unit, Nat.cast_one]
  rw [SecretKey.ofScalar?_scalar product, invert_scalar inverted, numerator, denominator, oneValue,
    one_mul, one_mul]
  rfl

end Picomint.Tss
