/-
The secret key from a threshold of its shares.
-/

import Picomint.Lib.SharePolynomial
import Picomint.Tss.Aggregation

namespace Picomint.Tss

open SharePolynomial

variable {curve : Curve}

def weightedShare (nodes : List Nat) (entry : Nat × SecretKey curve) :
    Option (SecretKey curve) := do
  let lambda ← lagrangeMultiplier curve nodes entry.1
  entry.2.mulTweak lambda.scalar

def interpolateSecretKey (shares : SortedMap Nat (SecretKey curve)) : Option (SecretKey curve) := do
  let terms ← shares.rows.mapM (weightedShare shares.keys)
  sumResponses terms

/-! ### The multipliers exist -/

theorem mulTweak_ok (key : SecretKey curve) {tweak : curve.Scalar} (nonzero : tweak ≠ 0) :
    ∃ product, key.mulTweak tweak = some product :=
  ⟨_, SecretKey.ofScalar?_of_ne_zero (mul_ne_zero key.nonzero nonzero)⟩

theorem foldlM_ok {α β : Type} {step : β → α → Option β} {items : List α}
    (each : ∀ item ∈ items, ∀ state, ∃ next, step state item = some next) (start : β) :
    ∃ result, items.foldlM step start = some result := by
  induction items generalizing start with
  | nil => exact ⟨start, rfl⟩
  | cons item rest ih =>
      obtain ⟨next, stepped⟩ := each item List.mem_cons_self start
      obtain ⟨result, following⟩ :=
        ih (fun other member => each other (List.mem_cons_of_mem _ member)) next
      refine ⟨result, ?_⟩
      rw [List.foldlM_cons, stepped]
      exact following

theorem keyFromU64_ok {value : Nat} (positive : 0 < value) (fits : value < 2 ^ 64) :
    ∃ key, keyFromU64 curve value = some key :=
  ⟨_, SecretKey.ofScalar?_of_ne_zero
    (curve.cast_ne_zero positive (lt_trans fits curve.order_above))⟩

theorem difference_ok {a b : Nat} (distinct : a ≠ b) (aFits : a < 2 ^ 64) (bFits : b < 2 ^ 64) :
    ∃ gap, difference curve a b = some gap := by
  unfold difference
  split
  · rename_i above
    exact keyFromU64_ok (by omega) (by omega)
  · rename_i notAbove
    obtain ⟨key, found⟩ : ∃ key, keyFromU64 curve (b - a) = some key :=
      keyFromU64_ok (by omega) (by omega)
    exact ⟨key.negate, by rw [found]; rfl⟩

theorem invertBit_ok (key accumulator : SecretKey curve) (bit : Nat) :
    ∃ next, invertBit key accumulator bit = some next := by
  obtain ⟨squared, square⟩ := mulTweak_ok accumulator accumulator.nonzero
  obtain ⟨product, multiplied⟩ := mulTweak_ok squared key.nonzero
  unfold invertBit
  rw [square, Option.bind_eq_bind, Option.bind_some]
  split
  · exact ⟨product, multiplied⟩
  · exact ⟨squared, rfl⟩

theorem invert_ok (key : SecretKey curve) : ∃ inverse, invert key = some inverse := by
  obtain ⟨one, unit⟩ : ∃ key, keyFromU64 curve 1 = some key :=
    keyFromU64_ok Nat.one_pos (by decide)
  unfold invert
  rw [unit]
  exact foldlM_ok (fun bit _ accumulator => invertBit_ok key accumulator bit) one

theorem lagrangeStep_ok {identity node : Nat} (different : node ≠ identity)
    (identityFits : identity < 2 ^ 32) (nodeFits : node < 2 ^ 32)
    (fraction : SecretKey curve × SecretKey curve) :
    ∃ next, lagrangeStep identity fraction node = some next := by
  have nonzero : scalarFromU64 curve (node + 1) ≠ 0 :=
    curve.cast_ne_zero (Nat.succ_pos node) (lt_trans (by omega) curve.order_above)
  obtain ⟨numerator, multiplied⟩ := mulTweak_ok fraction.1 nonzero
  obtain ⟨gap, distance⟩ : ∃ gap, difference curve node identity = some gap :=
    difference_ok different (by omega) (by omega)
  obtain ⟨denominator, divided⟩ := mulTweak_ok fraction.2 gap.nonzero
  refine ⟨(numerator, denominator), ?_⟩
  simp only [lagrangeStep, multiplied, distance, divided, Option.bind_eq_bind, Option.bind_some]

theorem lagrangeMultiplier_ok {nodes : List Nat} (fits : ∀ node ∈ nodes, node < 2 ^ 32)
    {identity : Nat} (member : identity ∈ nodes) :
    ∃ lambda, lagrangeMultiplier curve nodes identity = some lambda := by
  obtain ⟨one, unit⟩ : ∃ key, keyFromU64 curve 1 = some key :=
    keyFromU64_ok Nat.one_pos (by decide)
  obtain ⟨fraction, steps⟩ : ∃ fraction, (nodes.filter fun node => node ≠ identity).foldlM
      (lagrangeStep identity) (one, one) = some fraction := by
    refine foldlM_ok (fun node other state => ?_) (one, one)
    obtain ⟨listed, different⟩ := List.mem_filter.mp other
    exact lagrangeStep_ok (of_decide_eq_true different) (fits identity member) (fits node listed)
      state
  obtain ⟨inverse, inverted⟩ := invert_ok fraction.2
  obtain ⟨lambda, product⟩ := mulTweak_ok fraction.1 inverse.nonzero
  refine ⟨lambda, ?_⟩
  unfold lagrangeMultiplier
  simp only [unit, steps, inverted, Option.bind_eq_bind, Option.bind_some]
  exact product

/-! ### Reconstruction -/

theorem mapM_ok {α β : Type} {step : α → Option β} {holds : α → β → Prop} {items : List α}
    (each : ∀ item ∈ items, ∃ result, step item = some result ∧ holds item result) :
    ∃ results, items.mapM step = some results ∧ List.Forall₂ holds items results := by
  induction items with
  | nil => exact ⟨[], rfl, List.Forall₂.nil⟩
  | cons item rest ih =>
      obtain ⟨result, first, here⟩ := each item List.mem_cons_self
      obtain ⟨results, others, there⟩ :=
        ih fun other member => each other (List.mem_cons_of_mem _ member)
      refine ⟨result :: results, ?_, List.Forall₂.cons here there⟩
      rw [List.mapM_cons, first, others]
      rfl

variable {shares : SortedMap Nat (SecretKey curve)}

/-- What the shares of the first nodes add to the secret. -/
def partialSecret (shares : SortedMap Nat (SecretKey curve)) (count : Nat) : curve.Scalar :=
  ((shares.rows.take count).map fun entry =>
    lagrangeWeight curve shares.keys entry.1 * entry.2.scalar).sum

theorem weightedShares (fits : ∀ node ∈ shares.keys, node < 2 ^ 32) :
    ∃ terms, shares.rows.mapM (weightedShare shares.keys) = some terms ∧
      List.Forall₂ (fun entry term => term.scalar =
        lagrangeWeight curve shares.keys entry.1 * entry.2.scalar) shares.rows terms := by
  apply mapM_ok
  intro entry member
  obtain ⟨lambda, multiplier⟩ : ∃ lambda,
      lagrangeMultiplier curve shares.keys entry.1 = some lambda :=
    lagrangeMultiplier_ok fits (List.mem_map_of_mem member)
  obtain ⟨term, product⟩ := mulTweak_ok entry.2 lambda.nonzero
  refine ⟨term, ?_, ?_⟩
  · unfold weightedShare
    rw [multiplier]
    exact product
  · rw [SecretKey.ofScalar?_scalar product, lagrangeMultiplier_scalar multiplier, mul_comm]

/-- As many shares of a polynomial as it has coefficients reconstruct the
lowest one, unless a partial sum is zero. -/
theorem interpolateSecretKey_eq {coefficients : List curve.Scalar}
    (fits : ∀ node ∈ shares.keys, node < 2 ^ 32) (some' : 0 < shares.size)
    (enough : coefficients.length ≤ shares.size)
    (dealt : ∀ node share, shares.get? node = some share →
      share.scalar = valueAt coefficients (evaluationPoint curve node))
    (generic : ∀ count, 0 < count → count ≤ shares.size → partialSecret shares count ≠ 0) :
    ∃ key, interpolateSecretKey shares = some key ∧ key.scalar = coefficients.getD 0 0 := by
  obtain ⟨terms, computed, values⟩ := weightedShares fits
  have scalars : terms.map SecretKey.scalar = shares.rows.map fun entry =>
      lagrangeWeight curve shares.keys entry.1 * entry.2.scalar := by
    rw [← List.forall₂_eq_eq_eq, List.forall₂_map_left_iff, List.forall₂_map_right_iff]
    exact values.flip.imp fun _ _ same => same
  have length : shares.size = terms.length := values.length_eq
  have nonempty : terms ≠ [] := by
    rintro rfl
    rw [length] at some'
    exact absurd some' (lt_irrefl 0)
  obtain ⟨key, summed⟩ := sumResponses_isSome nonempty (by
    intro count positive within
    rw [List.map_take, scalars, ← List.map_take]
    exact generic count positive (within.trans_eq length.symm))
  refine ⟨key, ?_, ?_⟩
  · unfold interpolateSecretKey
    rw [computed]
    exact summed
  · have points : (shares.keys.map (evaluationPoint curve)).Nodup := by
      refine shares.keys_nodup.map_on ?_
      have injective : Set.InjOn (evaluationPoint curve) shares.keys.toFinset :=
        evaluationPoint_injOn fun id member => fits id (List.mem_toFinset.mp member)
      intro left leftMember right rightMember same
      exact injective (List.mem_toFinset.mpr leftMember) (List.mem_toFinset.mpr rightMember) same
    have covered : coefficients.length ≤ (shares.keys.map (evaluationPoint curve)).length := by
      rwa [List.length_map, shares.keys_length]
    rw [sumResponses_scalar summed, scalars, ← interpolate points covered, List.map_map]
    conv_rhs => rw [SortedMap.keys, List.map_map]
    congr 1
    apply List.map_congr_left
    intro entry member
    have listed : entry.1 ∈ shares.keys := List.mem_map_of_mem member
    rw [dealt entry.1 entry.2 ((shares.mem_rows entry.1 entry.2).mp member),
      lagrangeWeight_eq_weightAtZero fits listed]
    rfl

end Picomint.Tss
