/-
The prime-order curve group as the threshold signatures use it.

Secret keys are nonzero scalars and public keys finite points, so every
operation that could leave these types returns an option.  Coordinates enter
only through the x-only form and the parity of y; the two tagged hashes are
oracles.
-/

import Mathlib.Algebra.Field.ZMod
import Mathlib.Algebra.Module.Defs
import Mathlib.NumberTheory.LucasLehmer
import Mathlib.Tactic

namespace Picomint.Tss

/-- The group behind `secp256k1`, with `xOnly` and `oddY` for the coordinates
of a point and `liftX` for the even-y point over an x coordinate. -/
structure Curve where
  order : Nat
  prime : order.Prime
  order_above : 2 ^ 64 < order
  order_below : order < 2 ^ 256
  Point : Type
  group : AddCommGroup Point
  module : Module (ZMod order) Point
  decPoint : DecidableEq Point
  generator : Point
  generator_free : ∀ scalar : ZMod order, scalar • generator = 0 → scalar = 0
  oddY : Point → Bool
  oddY_neg : ∀ point, point ≠ 0 → oddY (-point) = !oddY point
  xOnly : Point → Nat
  xOnly_neg : ∀ point, xOnly (-point) = xOnly point
  liftX : Nat → Option Point
  liftX_xOnly : ∀ point, point ≠ 0 → oddY point = false → liftX (xOnly point) = some point
  /-- The hash tagged `BIP0445/noncecoef`. -/
  nonceCoefHash : List Nat → Option Point → Option Point → Nat → Nat → Nat
  /-- The hash tagged `BIP0340/challenge`. -/
  challengeHash : Nat → Nat → Nat → Nat

attribute [instance] Curve.group Curve.module Curve.decPoint

namespace Curve

variable (curve : Curve)

instance : Fact curve.order.Prime := ⟨curve.prime⟩

abbrev Scalar : Type := ZMod curve.order

/-- `scalar_mod_order`: 32 bytes as an integer modulo the curve order. -/
def scalarModOrder (bytes : Nat) : curve.Scalar := (bytes : ZMod curve.order)

theorem cast_ne_zero {value : Nat} (positive : 0 < value) (below : value < curve.order) :
    (value : curve.Scalar) ≠ 0 := by
  intro zero
  have divides := (ZMod.natCast_eq_zero_iff value curve.order).mp zero
  exact absurd (Nat.le_of_dvd positive divides) (by omega)

theorem cast_injective {left right : Nat} (leftBelow : left < curve.order)
    (rightBelow : right < curve.order) (same : (left : curve.Scalar) = (right : curve.Scalar)) :
    left = right := by
  have modulo := (ZMod.natCast_eq_natCast_iff' left right curve.order).mp same
  rwa [Nat.mod_eq_of_lt leftBelow, Nat.mod_eq_of_lt rightBelow] at modulo

end Curve

/-! ### Keys -/

structure SecretKey (curve : Curve) where
  scalar : curve.Scalar
  nonzero : scalar ≠ 0
deriving DecidableEq

structure PublicKey (curve : Curve) where
  point : curve.Point
  finite : point ≠ 0

instance (curve : Curve) : DecidableEq (PublicKey curve) := fun left right =>
  decidable_of_iff (left.point = right.point)
    ⟨fun same => by cases left; cases right; cases same; rfl, congrArg PublicKey.point⟩

variable {curve : Curve}

namespace SecretKey

@[ext] theorem ext {left right : SecretKey curve} (same : left.scalar = right.scalar) :
    left = right := by
  cases left
  cases right
  cases same
  rfl

def ofScalar? (scalar : curve.Scalar) : Option (SecretKey curve) :=
  if nonzero : scalar ≠ 0 then some ⟨scalar, nonzero⟩ else none

theorem ofScalar?_scalar {scalar : curve.Scalar} {key : SecretKey curve}
    (valid : ofScalar? scalar = some key) : key.scalar = scalar := by
  unfold ofScalar? at valid
  split at valid
  · cases valid
    rfl
  · cases valid

theorem ofScalar?_of_ne_zero {scalar : curve.Scalar} (nonzero : scalar ≠ 0) :
    ofScalar? scalar = some ⟨scalar, nonzero⟩ :=
  dif_pos nonzero

def mulTweak (key : SecretKey curve) (tweak : curve.Scalar) : Option (SecretKey curve) :=
  ofScalar? (key.scalar * tweak)

def addTweak (key : SecretKey curve) (tweak : curve.Scalar) : Option (SecretKey curve) :=
  ofScalar? (key.scalar + tweak)

def negate (key : SecretKey curve) : SecretKey curve :=
  ⟨-key.scalar, neg_ne_zero.mpr key.nonzero⟩

end SecretKey

namespace PublicKey

@[ext] theorem ext {left right : PublicKey curve} (same : left.point = right.point) :
    left = right := by
  cases left
  cases right
  cases same
  rfl

def ofPoint? (point : curve.Point) : Option (PublicKey curve) :=
  if finite : point ≠ 0 then some ⟨point, finite⟩ else none

theorem ofPoint?_point {point : curve.Point} {key : PublicKey curve}
    (valid : ofPoint? point = some key) : key.point = point := by
  unfold ofPoint? at valid
  split at valid
  · cases valid
    rfl
  · cases valid

theorem ofPoint?_of_ne_zero {point : curve.Point} (finite : point ≠ 0) :
    ofPoint? point = some ⟨point, finite⟩ :=
  dif_pos finite

theorem ofPoint?_self (key : PublicKey curve) : ofPoint? key.point = some key :=
  ofPoint?_of_ne_zero key.finite

def mulTweak (key : PublicKey curve) (tweak : curve.Scalar) : Option (PublicKey curve) :=
  ofPoint? (tweak • key.point)

def combine (key other : PublicKey curve) : Option (PublicKey curve) :=
  ofPoint? (key.point + other.point)

def addExpTweak (key : PublicKey curve) (tweak : curve.Scalar) : Option (PublicKey curve) :=
  ofPoint? (key.point + tweak • curve.generator)

def negate (key : PublicKey curve) : PublicKey curve :=
  ⟨-key.point, neg_ne_zero.mpr key.finite⟩

def xOnly (key : PublicKey curve) : Nat := curve.xOnly key.point

/-- `Parity::Odd` of the y coordinate. -/
def isOdd (key : PublicKey curve) : Bool := curve.oddY key.point

end PublicKey

def SecretKey.publicKey (key : SecretKey curve) : PublicKey curve :=
  ⟨key.scalar • curve.generator, fun zero =>
    key.nonzero (curve.generator_free key.scalar zero)⟩

/-! ### Parities -/

/-- The sign an odd y coordinate calls for. -/
def paritySign (curve : Curve) (odd : Bool) : curve.Scalar := if odd then -1 else 1

@[simp] theorem paritySign_true : paritySign curve true = -1 := rfl

@[simp] theorem paritySign_false : paritySign curve false = 1 := rfl

/-- The even-y point over the key's x coordinate. -/
def PublicKey.evenPoint (key : PublicKey curve) : curve.Point :=
  paritySign curve key.isOdd • key.point

theorem PublicKey.evenPoint_ne_zero (key : PublicKey curve) : key.evenPoint ≠ 0 := by
  unfold evenPoint
  cases key.isOdd with
  | false => simpa using key.finite
  | true => simpa using key.finite

theorem PublicKey.evenPoint_even (key : PublicKey curve) : curve.oddY key.evenPoint = false := by
  unfold evenPoint
  cases parity : key.isOdd with
  | false =>
      rw [paritySign_false, one_smul]
      exact parity
  | true =>
      rw [paritySign_true, neg_smul, one_smul, curve.oddY_neg _ key.finite]
      exact congrArg Bool.not parity

theorem PublicKey.evenPoint_xOnly (key : PublicKey curve) :
    curve.xOnly key.evenPoint = key.xOnly := by
  unfold evenPoint
  cases key.isOdd with
  | false =>
      rw [paritySign_false, one_smul]
      rfl
  | true =>
      rw [paritySign_true, neg_smul, one_smul]
      exact curve.xOnly_neg key.point

theorem PublicKey.liftX_xOnly (key : PublicKey curve) :
    curve.liftX key.xOnly = some key.evenPoint := by
  rw [← key.evenPoint_xOnly]
  exact curve.liftX_xOnly _ key.evenPoint_ne_zero key.evenPoint_even

theorem SecretKey.negate_if (key : SecretKey curve) (odd : Bool) :
    (if odd then key.negate else key).scalar = paritySign curve odd * key.scalar := by
  cases odd <;> simp [negate]

theorem PublicKey.negate_if (key : PublicKey curve) (odd : Bool) :
    (if odd then key.negate else key).point = paritySign curve odd • key.point := by
  cases odd <;> simp [negate]

/-! ### The scalars as a curve -/

def scalarOrder : Nat := 2 ^ 89 - 1

theorem scalarOrder_prime : scalarOrder.Prime :=
  lucas_lehmer_sufficiency 89 (by norm_num) (by norm_num)

instance : Fact scalarOrder.Prime := ⟨scalarOrder_prime⟩

namespace ScalarCurve

/-- The lesser of a residue and its negation. -/
def xOnly (point : ZMod scalarOrder) : Nat := min point.val (scalarOrder - point.val)

def oddY (point : ZMod scalarOrder) : Bool := point.val % 2 = 1

def liftX (x : Nat) : ZMod scalarOrder := if x % 2 = 0 then (x : ZMod scalarOrder) else -x

theorem val_neg {point : ZMod scalarOrder} (finite : point ≠ 0) :
    (-point).val = scalarOrder - point.val := by
  have : NeZero point := ⟨finite⟩
  exact ZMod.val_neg_of_ne_zero point

theorem oddY_neg (point : ZMod scalarOrder) (finite : point ≠ 0) :
    oddY (-point) = !oddY point := by
  have below := ZMod.val_lt point
  have odd : scalarOrder % 2 = 1 := by decide
  unfold oddY
  rw [val_neg finite, ← decide_not]
  apply decide_eq_decide.mpr
  omega

theorem xOnly_neg (point : ZMod scalarOrder) : xOnly (-point) = xOnly point := by
  by_cases finite : point = 0
  · rw [finite, neg_zero]
  · have below := ZMod.val_lt point
    unfold xOnly
    rw [val_neg finite]
    omega

theorem liftX_xOnly (point : ZMod scalarOrder) (even : oddY point = false) :
    liftX (xOnly point) = point := by
  have below := ZMod.val_lt point
  have odd : scalarOrder % 2 = 1 := by decide
  have evenVal : point.val % 2 ≠ 1 := of_decide_eq_false even
  unfold liftX xOnly
  rcases le_total point.val (scalarOrder - point.val) with first | second
  · rw [min_eq_left first, if_pos (by omega), ZMod.natCast_zmod_val]
  · rw [min_eq_right second, if_neg (by omega), Nat.cast_sub below.le, ZMod.natCast_self, zero_sub,
      neg_neg, ZMod.natCast_zmod_val]

end ScalarCurve

/-- A curve to evaluate with: the residues modulo a Mersenne prime, and hashes
that are constant. -/
def scalarCurve : Curve where
  order := scalarOrder
  prime := scalarOrder_prime
  order_above := by decide
  order_below := by decide
  Point := ZMod scalarOrder
  group := inferInstance
  module := inferInstance
  decPoint := inferInstance
  generator := 1
  generator_free := fun scalar zero => by simpa using zero
  oddY := ScalarCurve.oddY
  oddY_neg := ScalarCurve.oddY_neg
  xOnly := ScalarCurve.xOnly
  xOnly_neg := ScalarCurve.xOnly_neg
  liftX := fun x => some (ScalarCurve.liftX x)
  liftX_xOnly := fun point _ even => congrArg some (ScalarCurve.liftX_xOnly point even)
  nonceCoefHash := fun _ _ _ _ _ => 1
  challengeHash := fun _ _ _ => 1

def ScalarCurve.one : SecretKey scalarCurve := ⟨1, one_ne_zero⟩

end Picomint.Tss
