/-
The two groups of the key generation, and what their operations compute.

Over secp256k1 keys are nonzero and points finite, so every sum may fail; over
G2 nothing does.
-/

import Picomint.Dkg.Machine
import Picomint.Lib.SharePolynomial
import Picomint.Tbs.BlindSignatures
import Picomint.Tss.Aggregation

namespace Picomint.Config

open SharePolynomial

/-! ### secp256k1 -/

namespace DkgSecp

open Tss

variable {curve : Curve}

/-- Offset by one, since a polynomial at zero is the secret. -/
def scalar (curve : Curve) (node : NodeId) : curve.Scalar := ((node + 1 : Nat) : curve.Scalar)

def evalPolyScalar (coefficients : List (SecretKey curve)) (node : NodeId) :
    Outcome (SecretKey curve) :=
  reduce (fun accumulator coefficient => do
    let scaled ← expect (accumulator.mulTweak (scalar curve node)) .evaluationPoint
    expect (scaled.addTweak coefficient.scalar) .zeroValue) (.panic .noCoefficient)
      coefficients.reverse

def evalPoly (coefficients : List (PublicKey curve)) (node : NodeId) : Outcome (PublicKey curve) :=
  reduce (fun accumulator coefficient => do
    let scaled ← expect (accumulator.mulTweak (scalar curve node)) .evaluationPoint
    context (scaled.combine coefficient) .infinity) (.error .emptyCommitment) coefficients.reverse

end DkgSecp

abbrev secp (curve : Tss.Curve) (hash : List (Tss.PublicKey curve) → Hash) : Scheme where
  Key := Tss.SecretKey curve
  Commitment := Tss.PublicKey curve
  decCommitment := inferInstance
  commit := Tss.SecretKey.publicKey
  hash := hash
  evalPolyScalar := DkgSecp.evalPolyScalar
  checksum := DkgSecp.evalPoly
  sumKeys := reduce (fun accumulator share => expect (accumulator.addTweak share.scalar) .zeroSum)
    (.panic .noShare)
  sumCommitments := reduce (fun accumulator coefficient =>
    expect (accumulator.combine coefficient) .infiniteSum) (.panic .noCommitment)

abbrev DkgSecp (curve : Tss.Curve) (hash : List (Tss.PublicKey curve) → Hash) : Type :=
  Dkg (secp curve hash)

/-! ### G2 -/

namespace DkgG2

open Tbs

variable {groups : PairingGroups}

def scalar (groups : PairingGroups) (node : NodeId) : groups.Scalar :=
  ((node + 1 : Nat) : groups.Scalar)

def g2 (key : groups.Scalar) : groups.G2 := key • groups.generator

def evalPolyScalar (coefficients : List groups.Scalar) (node : NodeId) : Outcome groups.Scalar :=
  reduce (fun accumulator coefficient => .ok (accumulator * scalar groups node + coefficient))
    (.panic .noCoefficient) coefficients.reverse

/-- The sum of the coefficients times the powers of the point. -/
def checksum (polynomial : List groups.G2) (node : NodeId) : Outcome groups.G2 :=
  reduce (fun accumulator term => .ok (accumulator + term)) (.panic .emptyCommitment)
    (polynomial.zipIdx.map fun entry => scalar groups node ^ entry.2 • entry.1)

def evalPolyG2 (coefficients : List groups.G2) (node : NodeId) : Outcome groups.G2 :=
  reduce (fun accumulator coefficient => .ok (scalar groups node • accumulator + coefficient))
    (.panic .noCoefficient) coefficients.reverse

end DkgG2

abbrev pairingG2 (groups : Tbs.PairingGroups) [DecidableEq groups.G2]
    (hash : List groups.G2 → Hash) : Scheme where
  Key := groups.Scalar
  Commitment := groups.G2
  decCommitment := inferInstance
  commit := DkgG2.g2
  hash := hash
  evalPolyScalar := DkgG2.evalPolyScalar
  checksum := DkgG2.checksum
  sumKeys := fun shares => .ok shares.sum
  sumCommitments := reduce (fun accumulator coefficient => .ok (accumulator + coefficient))
    (.panic .noCommitment)

abbrev DkgG2 (groups : Tbs.PairingGroups) [DecidableEq groups.G2]
    (hash : List groups.G2 → Hash) : Type :=
  Dkg (pairingG2 groups hash)

/-! ### What they compute -/

/-- Horner's scheme, from the highest coefficient down. -/
theorem reduce_valueAt {α F M : Type} [Field F] [AddCommGroup M] [Module F M]
    {combine : α → α → Outcome α} {empty : DkgFault} {measure : α → M} {x : F}
    (steps : ∀ {accumulator item next}, combine accumulator item = .ok next →
      measure next = measure item + x • measure accumulator) {items : List α} {result : α}
    (computed : reduce combine empty items.reverse = .ok result) :
    measure result = valueAt (items.map measure) x := by
  induction items generalizing result with
  | nil => cases computed
  | cons item rest ih =>
      rw [List.reverse_cons] at computed
      rw [List.map_cons, valueAt_cons]
      by_cases nonempty : rest = []
      · subst nonempty
        cases computed
        rw [List.map_nil, valueAt_nil, smul_zero, add_zero]
      · rw [reduce_concat (List.reverse_eq_nil_iff.not.mpr nonempty), bind_eq_ok] at computed
        obtain ⟨accumulator, before, combined⟩ := computed
        rw [steps combined, ih before]

namespace DkgSecp

open Tss

variable {curve : Curve} {node : NodeId}

theorem scalar_ne_zero (fits : node < 2 ^ 64) : scalar curve node ≠ 0 :=
  curve.cast_ne_zero (Nat.succ_pos node) (lt_of_le_of_lt (Nat.succ_le_of_lt fits) curve.order_above)

theorem evalPolyScalar_value {coefficients : List (SecretKey curve)} {key : SecretKey curve}
    (computed : evalPolyScalar coefficients node = .ok key) :
    key.scalar = valueAt (coefficients.map SecretKey.scalar) (scalar curve node) := by
  refine reduce_valueAt (fun {accumulator item next} combined => ?_) computed
  simp only [bind_eq_ok, expect_eq_ok] at combined
  obtain ⟨scaled, multiplied, added⟩ := combined
  rw [SecretKey.ofScalar?_scalar added, SecretKey.ofScalar?_scalar multiplied, add_comm,
    smul_eq_mul, mul_comm]

theorem evalPoly_value {coefficients : List (PublicKey curve)} {key : PublicKey curve}
    (computed : evalPoly coefficients node = .ok key) :
    key.point = valueAt (coefficients.map PublicKey.point) (scalar curve node) := by
  refine reduce_valueAt (fun {accumulator item next} combined => ?_) computed
  simp only [bind_eq_ok, expect_eq_ok, context_eq_ok] at combined
  obtain ⟨scaled, multiplied, added⟩ := combined
  rw [PublicKey.ofPoint?_point added, PublicKey.ofPoint?_point multiplied, add_comm]

/-- Evaluating the committed polynomial commits to the value. -/
theorem evalPoly_publicKey {coefficients : List (SecretKey curve)} {key : SecretKey curve}
    (computed : evalPolyScalar coefficients node = .ok key) :
    evalPoly (coefficients.map SecretKey.publicKey) node = .ok key.publicKey := by
  unfold evalPolyScalar at computed
  unfold evalPoly
  rw [← List.map_reverse]
  generalize coefficients.reverse = items at computed ⊢
  induction items using List.reverseRecOn generalizing key with
  | nil => cases computed
  | append_singleton items last ih =>
      rw [List.map_append, List.map_singleton]
      by_cases nonempty : items = []
      · subst nonempty
        cases computed
        rfl
      · rw [reduce_concat nonempty, bind_eq_ok] at computed
        rw [reduce_concat (List.map_eq_nil_iff.not.mpr nonempty), bind_eq_ok]
        obtain ⟨accumulator, before, combined⟩ := computed
        refine ⟨accumulator.publicKey, ih before, ?_⟩
        simp only [bind_eq_ok, expect_eq_ok, context_eq_ok] at combined ⊢
        obtain ⟨scaled, multiplied, added⟩ := combined
        exact ⟨scaled.publicKey, publicKey_mulTweak multiplied, publicKey_addTweak added⟩

def NoZeroValue {F M : Type} [Field F] [AddCommGroup M] [Module F M] (coefficients : List M)
    (x : F) : Prop :=
  ∀ count < coefficients.length, valueAt (coefficients.drop count) x ≠ 0

theorem evalPolyScalar_ok {coefficients : List (SecretKey curve)} (nonempty : coefficients ≠ [])
    (fits : node < 2 ^ 64)
    (generic : NoZeroValue (coefficients.map SecretKey.scalar) (scalar curve node)) :
    ∃ key, evalPolyScalar coefficients node = .ok key := by
  refine reduce_ok (List.reverse_eq_nil_iff.not.mpr nonempty) ?_
  intro front item rest accumulator split _ reduced
  have scaled : accumulator.scalar * scalar curve node ≠ 0 :=
    mul_ne_zero accumulator.nonzero (scalar_ne_zero fits)
  have order : coefficients = rest.reverse ++ item :: front.reverse := by
    rw [← List.reverse_reverse coefficients, split]
    simp
  have before : evalPolyScalar front.reverse node = .ok accumulator := by
    unfold evalPolyScalar
    rw [List.reverse_reverse]
    exact reduced
  have value := evalPolyScalar_value before
  have nonzero : accumulator.scalar * scalar curve node + item.scalar ≠ 0 := by
    have here := generic rest.length (by rw [order]; simp)
    rw [order, List.map_append, List.drop_left' (by simp), List.map_cons, valueAt_cons] at here
    rwa [value, add_comm, mul_comm]
  refine ⟨⟨_, nonzero⟩, ?_⟩
  simp only [bind_eq_ok, expect_eq_ok]
  exact ⟨⟨_, scaled⟩, SecretKey.ofScalar?_of_ne_zero scaled,
    SecretKey.ofScalar?_of_ne_zero nonzero⟩

/-- A polynomial of points that are the generator times scalars commits to its
value. -/
theorem evalPoly_generator {pks : List (PublicKey curve)} {scalars : List curve.Scalar}
    {key : SecretKey curve} (nonempty : pks ≠ [])
    (points : pks.map PublicKey.point = scalars.map fun scalar => scalar • curve.generator)
    (value : key.scalar = valueAt scalars (scalar curve node)) (fits : node < 2 ^ 64)
    (generic : NoZeroValue scalars (scalar curve node)) :
    evalPoly pks node = .ok key.publicKey := by
  have keys : ∃ coefficients : List (SecretKey curve),
      coefficients.map SecretKey.scalar = scalars ∧ coefficients.map SecretKey.publicKey = pks := by
    clear value generic nonempty
    induction pks generalizing scalars with
    | nil =>
        cases scalars with
        | nil => exact ⟨[], rfl, rfl⟩
        | cons first rest => cases points
    | cons pk pks ih =>
        cases scalars with
        | nil => cases points
        | cons first rest =>
            obtain ⟨point, others⟩ := List.cons_eq_cons.mp points
            obtain ⟨coefficients, isScalars, isPks⟩ := ih others
            have nonzero : first ≠ 0 := by
              rintro rfl
              exact pk.finite (point.trans (zero_smul _ _))
            refine ⟨⟨first, nonzero⟩ :: coefficients, ?_, ?_⟩
            · rw [List.map_cons, isScalars]
            · rw [List.map_cons, isPks]
              exact congrArg (· :: pks) (PublicKey.ext point.symm)
  obtain ⟨coefficients, rfl, rfl⟩ := keys
  have someCoefficient : coefficients ≠ [] := fun none => nonempty (by rw [none]; rfl)
  obtain ⟨found, computed⟩ := evalPolyScalar_ok someCoefficient fits generic
  have same : found = key := SecretKey.ext ((evalPolyScalar_value computed).trans value.symm)
  rw [evalPoly_publicKey computed, same]

end DkgSecp

namespace DkgG2

open Tbs

variable {groups : PairingGroups} {node : NodeId}

theorem checksum_value {polynomial : List groups.G2} {value : groups.G2}
    (computed : checksum polynomial node = .ok value) :
    value = valueAt (polynomial.map id) (scalar groups node) := by
  have sum : id value = ((polynomial.zipIdx.map fun entry =>
      scalar groups node ^ entry.2 • entry.1).map id).sum :=
    reduce_sum (fun added => (Except.ok.inj added).symm) computed
  rw [List.map_id] at sum ⊢
  exact sum.trans ((sum_powers polynomial _ 0).trans (by rw [pow_zero, one_smul]))

theorem checksum_ok {polynomial : List groups.G2} (nonempty : polynomial ≠ []) :
    checksum polynomial node = .ok (valueAt polynomial (scalar groups node)) := by
  have terms : (polynomial.zipIdx.map fun entry =>
      scalar groups node ^ entry.2 • entry.1) ≠ [] := by
    simpa using nonempty
  obtain ⟨value, computed⟩ : ∃ value, checksum polynomial node = .ok value := reduce_total terms
  have isValue := checksum_value computed
  rw [List.map_id] at isValue
  rw [← isValue]
  exact computed

theorem evalPolyG2_ok {coefficients : List groups.G2} (nonempty : coefficients ≠ []) :
    evalPolyG2 coefficients node = .ok (valueAt coefficients (scalar groups node)) := by
  obtain ⟨value, computed⟩ : ∃ value, evalPolyG2 coefficients node = .ok value :=
    reduce_total (List.reverse_eq_nil_iff.not.mpr nonempty)
  have isValue : id value = valueAt (coefficients.map id) (scalar groups node) :=
    reduce_valueAt (fun combined => (Except.ok.inj combined).symm.trans (add_comm _ _)) computed
  rw [List.map_id] at isValue
  rw [← isValue]
  exact computed

theorem evalPolyScalar_ok {coefficients : List groups.Scalar} (nonempty : coefficients ≠ []) :
    evalPolyScalar coefficients node = .ok (valueAt coefficients (scalar groups node)) := by
  obtain ⟨value, computed⟩ : ∃ value, evalPolyScalar coefficients node = .ok value :=
    reduce_total (List.reverse_eq_nil_iff.not.mpr nonempty)
  have isValue : id value = valueAt (coefficients.map id) (scalar groups node) :=
    reduce_valueAt (fun combined => (Except.ok.inj combined).symm.trans
      ((add_comm _ _).trans (congrArg _ (mul_comm _ _)))) computed
  rw [List.map_id] at isValue
  rw [← isValue]
  exact computed

theorem evalPolyScalar_value {coefficients : List groups.Scalar} {value : groups.Scalar}
    (computed : evalPolyScalar coefficients node = .ok value) :
    value = valueAt (coefficients.map id) (scalar groups node) := by
  rw [List.map_id]
  by_cases nonempty : coefficients = []
  · subst nonempty
    cases computed
  · exact (Except.ok.inj ((evalPolyScalar_ok nonempty).symm.trans computed)).symm

theorem sumKeys_value {keys : List groups.Scalar} {value : groups.Scalar}
    (summed : (.ok keys.sum : Outcome groups.Scalar) = .ok value) :
    value = (keys.map id).sum := by
  rw [List.map_id]
  exact (Except.ok.inj summed).symm

end DkgG2

/-! ### Linearity -/

/-- Keys are scalars and commitments points, and every operation that returns
computes what it would over these. -/
structure Linear (scheme : Scheme) (F M : Type) [Field F] [AddCommGroup M] [Module F M] where
  scalar : scheme.Key → F
  point : scheme.Commitment → M
  base : M
  at' : NodeId → F
  point_injective : Function.Injective point
  point_commit : ∀ key, point (scheme.commit key) = scalar key • base
  evalPolyScalar : ∀ {coefficients node key}, scheme.evalPolyScalar coefficients node = .ok key →
    scalar key = valueAt (coefficients.map scalar) (at' node)
  checksum : ∀ {coefficients node commitment}, scheme.checksum coefficients node = .ok commitment →
    point commitment = valueAt (coefficients.map point) (at' node)
  sumKeys : ∀ {keys key}, scheme.sumKeys keys = .ok key → scalar key = (keys.map scalar).sum
  sumCommitments : ∀ {commitments commitment}, scheme.sumCommitments commitments = .ok commitment →
    point commitment = (commitments.map point).sum

def DkgSecp.linear (curve : Tss.Curve) (hash : List (Tss.PublicKey curve) → Hash) :
    Linear (secp curve hash) curve.Scalar curve.Point where
  scalar := Tss.SecretKey.scalar
  point := Tss.PublicKey.point
  base := curve.generator
  at' := DkgSecp.scalar curve
  point_injective := fun _ _ same => Tss.PublicKey.ext same
  point_commit := fun _ => rfl
  evalPolyScalar := DkgSecp.evalPolyScalar_value
  checksum := DkgSecp.evalPoly_value
  sumKeys := fun summed => reduce_sum
    (fun added => Tss.SecretKey.ofScalar?_scalar (expect_eq_ok.mp added)) summed
  sumCommitments := fun summed => reduce_sum
    (fun added => Tss.PublicKey.ofPoint?_point (expect_eq_ok.mp added)) summed

def DkgG2.linear (groups : Tbs.PairingGroups) [DecidableEq groups.G2]
    (hash : List groups.G2 → Hash) :
    Linear (pairingG2 groups hash) groups.Scalar groups.G2 where
  scalar := id
  point := id
  base := groups.generator
  at' := DkgG2.scalar groups
  point_injective := fun _ _ same => same
  point_commit := fun _ => rfl
  evalPolyScalar := DkgG2.evalPolyScalar_value
  checksum := DkgG2.checksum_value
  sumKeys := DkgG2.sumKeys_value
  sumCommitments := fun summed => reduce_sum (fun added => (Except.ok.inj added).symm) summed

end Picomint.Config
