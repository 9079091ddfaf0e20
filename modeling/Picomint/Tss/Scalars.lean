/-
The scalar helpers of the threshold Schnorr scheme, byte by byte.

Scalars and secret keys belong to the `secp256k1` library.  What it documents
about them is stated over their big-endian bytes, and everything the helpers
compute is read in the field of the curve order.
-/

import Mathlib
import Picomint.Lib.BigEndian
import Picomint.Lib.Powers
import Picomint.Tss.Aggregation

namespace Picomint.Tss

open Polynomial

abbrev Bytes : Type := List.Vector UInt8 32

def number (bytes : Bytes) : Nat := ofBigEndian bytes.toList

/-- `constants::CURVE_ORDER` of the library. -/
def CURVE_ORDER : Bytes :=
  ⟨[0xff, 0xff, 0xff, 0xff, 0xff, 0xff, 0xff, 0xff, 0xff, 0xff, 0xff, 0xff, 0xff, 0xff, 0xff, 0xfe,
    0xba, 0xae, 0xdc, 0xe6, 0xaf, 0x48, 0xa0, 0x3b, 0xbf, 0xd2, 0x5e, 0x8c, 0xd0, 0x36, 0x41, 0x41],
    rfl⟩

def curveOrder : Nat := number CURVE_ORDER

/-- The operations of the library. An absent result is an error it returns. -/
structure Secp (Scalar SecretKey : Type) where
  scalarFromBeBytes : Bytes → Option Scalar
  scalarToBeBytes : Scalar → Bytes
  secretKeyFromSlice : Bytes → Option SecretKey
  secretBytes : SecretKey → Bytes
  mulTweak : SecretKey → Scalar → Option SecretKey
  addTweak : SecretKey → Scalar → Option SecretKey
  negate : SecretKey → SecretKey

variable {Scalar SecretKey : Type}

/-- What the library documents: a scalar is below the curve order, a secret
key also nonzero, tweaking is arithmetic modulo the order and fails on zero. -/
structure Secp.Documented (secp : Secp Scalar SecretKey) : Prop where
  scalar_none : ∀ bytes, secp.scalarFromBeBytes bytes = none ↔ curveOrder ≤ number bytes
  scalar_some : ∀ bytes scalar, secp.scalarFromBeBytes bytes = some scalar →
    secp.scalarToBeBytes scalar = bytes
  key_none : ∀ bytes, secp.secretKeyFromSlice bytes = none ↔
    number bytes = 0 ∨ curveOrder ≤ number bytes
  key_some : ∀ bytes key, secp.secretKeyFromSlice bytes = some key → secp.secretBytes key = bytes
  key_valid : ∀ key, secp.secretKeyFromSlice (secp.secretBytes key) = some key
  mul_none : ∀ key scalar, secp.mulTweak key scalar = none ↔
    number (secp.secretBytes key) * number (secp.scalarToBeBytes scalar) % curveOrder = 0
  mul_some : ∀ key scalar product, secp.mulTweak key scalar = some product →
    number (secp.secretBytes product) =
      number (secp.secretBytes key) * number (secp.scalarToBeBytes scalar) % curveOrder
  add_none : ∀ key scalar, secp.addTweak key scalar = none ↔
    (number (secp.secretBytes key) + number (secp.scalarToBeBytes scalar)) % curveOrder = 0
  add_some : ∀ key scalar sum, secp.addTweak key scalar = some sum →
    number (secp.secretBytes sum) =
      (number (secp.secretBytes key) + number (secp.scalarToBeBytes scalar)) % curveOrder
  negated : ∀ key, number (secp.secretBytes (secp.negate key)) =
    curveOrder - number (secp.secretBytes key)

/-! ### The helpers -/

namespace Secp

/-- The subtraction byte by byte, from the last one, with the borrow it ends
with. -/
def borrowLoop : List UInt8 → List UInt8 → List UInt8 × Int
  | byte :: bytes, order :: orders =>
      let (below, borrow) := borrowLoop bytes orders
      let diff : Int := byte.toNat - order.toNat - borrow
      (UInt8.ofNat (diff % 256).toNat :: below, if diff < 0 then 1 else 0)
  | _, _ => ([], 0)

theorem borrowLoop_length : ∀ {bytes orders : List UInt8}, bytes.length = orders.length →
    (borrowLoop bytes orders).1.length = bytes.length
  | [], [], _ => rfl
  | _ :: _, _ :: _, same => by
      rw [borrowLoop, List.length_cons, List.length_cons,
        borrowLoop_length (Nat.succ.inj same)]

def subtractOrder (bytes : Bytes) : Bytes :=
  ⟨(borrowLoop bytes.toList CURVE_ORDER.toList).1, by
    rw [borrowLoop_length (by simp), List.Vector.toList_length]⟩

def u64Bytes (value : UInt64) : Bytes :=
  ⟨List.replicate 24 0 ++ toBigEndian 8 value.toNat, by simp⟩

def invertExponent : List UInt8 :=
  CURVE_ORDER.toList.set 31 (CURVE_ORDER.get 31 - 2)

/-- `node + 1`, which overflows at the last `u64`. -/
def evaluationPoint (node : UInt64) : Option UInt64 :=
  if node.toNat + 1 < 2 ^ 64 then some (node + 1) else none

variable (secp : Secp Scalar SecretKey)

/-- The helpers are absent where the source expects a result it does not get. -/
def scalarModOrder (bytes : Bytes) : Option Scalar :=
  match secp.scalarFromBeBytes bytes with
  | some scalar => some scalar
  | none => secp.scalarFromBeBytes (subtractOrder bytes)

def keyScalar (key : SecretKey) : Option Scalar :=
  secp.scalarFromBeBytes (secp.secretBytes key)

def scalarFromU64 (value : UInt64) : Option Scalar :=
  secp.scalarFromBeBytes (u64Bytes value)

def keyFromU64 (value : UInt64) : Option SecretKey :=
  secp.secretKeyFromSlice (u64Bytes value)

/-- `mul_tweak` by the scalar of another key. -/
def mulKey (key other : SecretKey) : Option SecretKey := do
  secp.mulTweak key (← secp.keyScalar other)

def invertBit (key : SecretKey) (byte : UInt8) (accumulator : SecretKey) (bit : Nat) :
    Option SecretKey := do
  let squared ← secp.mulKey accumulator accumulator
  if (byte >>> UInt8.ofNat bit) &&& 1 = 1 then secp.mulKey squared key else some squared

def invertByte (key accumulator : SecretKey) (byte : UInt8) : Option SecretKey :=
  (List.range 8).reverse.foldlM (secp.invertBit key byte) accumulator

/-- The inverse, by Fermat's little theorem. -/
def invert (key : SecretKey) : Option SecretKey := do
  let one ← secp.keyFromU64 1
  invertExponent.foldlM (secp.invertByte key) one

/-- The difference of two distinct evaluation points. -/
def difference (a b : UInt64) : Option SecretKey :=
  if b < a then secp.keyFromU64 (a - b)
  else (secp.keyFromU64 (b - a)).map secp.negate

def lagrangeStep (identity : UInt64) (fraction : SecretKey × SecretKey) (node : UInt64) :
    Option (SecretKey × SecretKey) := do
  let numerator ← secp.mulTweak fraction.1 (← secp.scalarFromU64 (← evaluationPoint node))
  let denominator ← secp.mulKey fraction.2 (← secp.difference node identity)
  return (numerator, denominator)

def lagrangeMultiplier (nodes : List UInt64) (identity : UInt64) : Option SecretKey := do
  let one ← secp.keyFromU64 1
  let fraction ← (nodes.filter (fun node => node ≠ identity)).foldlM
    (secp.lagrangeStep identity) (one, one)
  secp.mulKey fraction.1 (← secp.invert fraction.2)

/-! ### The curve order -/

theorem curveOrder_eq : curveOrder =
    115792089237316195423570985008687907852837564279074904382605163141518161494337 := by
  decide +kernel

theorem curveOrder_bounds : 2 ^ 255 < curveOrder ∧ curveOrder < 2 ^ 256 := by
  rw [curveOrder_eq]
  decide

/-- The large factors of the predecessor, each from those of its own. -/
theorem curveOrder_factors : Nat.Prime 107361793816595537 ∧ Nat.Prime 174723607534414371449 ∧
    Nat.Prime 341948486974166000522343609283189 := by
  have p4681609 : Nat.Prime 4681609 := Powers.prime_of_lucasTest 23 23 (by decide) (by decide)
    [2, 2, 2, 3, 97, 2011] (by norm_num) (by decide) (by decide +kernel)
  have p44706919 : Nat.Prime 44706919 := Powers.prime_of_lucasTest 6 26 (by decide) (by decide)
    [2, 3, 797, 9349] (by norm_num) (by decide) (by decide +kernel)
  have p545358713 : Nat.Prime 545358713 := Powers.prime_of_lucasTest 5 30 (by decide) (by decide)
    [2, 2, 2, 41, 59, 28181] (by norm_num) (by decide) (by decide +kernel)
  have p1627771 : Nat.Prime 1627771 := Powers.prime_of_lucasTest 3 21 (by decide) (by decide)
    [2, 3, 5, 29, 1871] (by norm_num) (by decide) (by decide +kernel)
  have p297159362677 : Nat.Prime 297159362677 :=
    Powers.prime_of_lucasTest 2 39 (by decide) (by decide) [2, 2, 3, 3, 11, 461, 1627771]
      (List.forall_iff_forall_mem.mp ⟨Nat.prime_two, Nat.prime_two, Nat.prime_three,
        Nat.prime_three, by norm_num, by norm_num, p1627771⟩) (by decide) (by decide +kernel)
  have p29047611873442575647497758179 : Nat.Prime 29047611873442575647497758179 :=
    Powers.prime_of_lucasTest 2 95 (by decide) (by decide)
      [2, 293, 305873, 545358713, 297159362677]
      (List.forall_iff_forall_mem.mp ⟨Nat.prime_two, by norm_num, by norm_num, p545358713,
        p297159362677⟩) (by decide) (by decide +kernel)
  refine ⟨?_, ?_, ?_⟩
  · exact Powers.prime_of_lucasTest 3 57 (by decide) (by decide)
      [2, 2, 2, 2, 16699, 85831, 4681609]
      (List.forall_iff_forall_mem.mp ⟨Nat.prime_two, Nat.prime_two, Nat.prime_two, Nat.prime_two,
        by norm_num, by norm_num, p4681609⟩) (by decide) (by decide +kernel)
  · exact Powers.prime_of_lucasTest 3 68 (by decide) (by decide)
      [2, 2, 2, 17, 59, 4051, 120233, 44706919]
      (List.forall_iff_forall_mem.mp ⟨Nat.prime_two, Nat.prime_two, Nat.prime_two, by norm_num,
        by norm_num, by norm_num, by norm_num, p44706919⟩) (by decide) (by decide +kernel)
  · exact Powers.prime_of_lucasTest 2 109 (by decide) (by decide)
      [2, 2, 3, 3, 3, 109, 29047611873442575647497758179]
      (List.forall_iff_forall_mem.mp ⟨Nat.prime_two, Nat.prime_two, Nat.prime_three,
        Nat.prime_three, Nat.prime_three, by norm_num, p29047611873442575647497758179⟩)
      (by decide) (by decide +kernel)

theorem curveOrder_prime : curveOrder.Prime := by
  obtain ⟨first, second, third⟩ := curveOrder_factors
  rw [curveOrder_eq]
  exact Powers.prime_of_lucasTest 7 256 (by decide) (by decide)
    [2, 2, 2, 2, 2, 2, 3, 149, 631, 107361793816595537, 174723607534414371449,
      341948486974166000522343609283189]
    (List.forall_iff_forall_mem.mp ⟨Nat.prime_two, Nat.prime_two, Nat.prime_two, Nat.prime_two,
      Nat.prime_two, Nat.prime_two, Nat.prime_three, by norm_num, by norm_num, first, second,
      third⟩) (by decide) (by decide +kernel)

instance : Fact curveOrder.Prime := ⟨curveOrder_prime⟩

/-! ### Reduction -/

theorem number_lt (bytes : Bytes) : number bytes < 2 ^ 256 := by
  have below := ofBigEndian_lt bytes.toList
  rw [List.Vector.toList_length] at below
  exact below.trans_eq (by norm_num)

/-- The bytes that remain spell the difference, up to a borrow at the end. -/
theorem borrowLoop_value : ∀ {bytes orders : List UInt8}, bytes.length = orders.length →
    (ofBigEndian (borrowLoop bytes orders).1 : Int) = ofBigEndian bytes - ofBigEndian orders +
        (borrowLoop bytes orders).2 * 256 ^ bytes.length ∧
      ((borrowLoop bytes orders).2 = 0 ∨ (borrowLoop bytes orders).2 = 1)
  | [], [], _ => ⟨rfl, Or.inl rfl⟩
  | byte :: bytes, order :: orders, same => by
      have short := Nat.succ.inj same
      obtain ⟨lower, carried⟩ := borrowLoop_value short
      have length := borrowLoop_length short
      rw [borrowLoop]
      obtain ⟨⟨below, borrow⟩, ran⟩ : ∃ ran, borrowLoop bytes orders = ran := ⟨_, rfl⟩
      rw [ran] at lower carried length ⊢
      simp only at lower carried length ⊢
      have byteSmall := byte.toNat_lt
      have orderSmall := order.toNat_lt
      obtain ⟨diff, diffEq⟩ : ∃ diff : Int, (byte.toNat : Int) - order.toNat - borrow = diff :=
        ⟨_, rfl⟩
      rw [diffEq]
      have digit : ((UInt8.ofNat (diff % 256).toNat).toNat : Int) = diff % 256 := by
        have small : (diff % 256).toNat < UInt8.size := by
          change (diff % 256).toNat < 256
          omega
        rw [UInt8.toNat_ofNat_of_lt' small]
        omega
      have wrapped : diff % 256 = diff + (if diff < 0 then 1 else 0) * 256 := by
        split <;> omega
      refine ⟨?_, by split <;> simp⟩
      simp only [ofBigEndian, length, List.length_cons]
      push_cast
      rw [digit, lower, wrapped, ← diffEq, short]
      ring

theorem number_subtractOrder {bytes : Bytes} (large : curveOrder ≤ number bytes) :
    number (subtractOrder bytes) = number bytes - curveOrder := by
  have same : bytes.toList.length = CURVE_ORDER.toList.length := by simp
  obtain ⟨value, carried⟩ := borrowLoop_value same
  rw [List.Vector.toList_length] at value
  have below := number_lt (subtractOrder bytes)
  change (number (subtractOrder bytes) : Int) = number bytes - curveOrder + _ at value
  rcases carried with none | one
  · rw [none] at value
    omega
  · rw [one] at value
    have power : (256 : Int) ^ 32 = 2 ^ 256 := by norm_num
    rw [power] at value
    omega

def value (secp : Secp Scalar SecretKey) (key : SecretKey) : ZMod curveOrder :=
  number (secp.secretBytes key)

def scalarValue (secp : Secp Scalar SecretKey) (scalar : Scalar) : ZMod curveOrder :=
  number (secp.scalarToBeBytes scalar)

section Library

variable {secp : Secp Scalar SecretKey} (documented : secp.Documented)

include documented

theorem scalarFromBeBytes_of_lt {bytes : Bytes} (small : number bytes < curveOrder) :
    ∃ scalar, secp.scalarFromBeBytes bytes = some scalar ∧
      secp.scalarToBeBytes scalar = bytes := by
  cases found : secp.scalarFromBeBytes bytes with
  | none => exact absurd ((documented.scalar_none bytes).mp found) (by omega)
  | some scalar => exact ⟨scalar, rfl, documented.scalar_some bytes scalar found⟩

theorem scalarModOrder_eq (bytes : Bytes) :
    ∃ scalar, secp.scalarModOrder bytes = some scalar ∧
      number (secp.scalarToBeBytes scalar) = number bytes % curveOrder := by
  unfold scalarModOrder
  by_cases small : number bytes < curveOrder
  · obtain ⟨scalar, found, written⟩ := scalarFromBeBytes_of_lt documented small
    exact ⟨scalar, by rw [found], by rw [written, Nat.mod_eq_of_lt small]⟩
  · have large := Nat.le_of_not_lt small
    have reduced := number_subtractOrder large
    obtain ⟨least, _⟩ := curveOrder_bounds
    have bound := number_lt bytes
    have below : number bytes - curveOrder < curveOrder := by omega
    obtain ⟨scalar, found, written⟩ := scalarFromBeBytes_of_lt documented (reduced ▸ below)
    refine ⟨scalar, by rw [(documented.scalar_none bytes).mpr large, found], ?_⟩
    rw [written, reduced, Nat.mod_eq_sub_mod large, Nat.mod_eq_of_lt below]

theorem scalarModOrder_refines {curve : Curve} (same : curve.order = curveOrder) (bytes : Bytes) :
    ∃ scalar, secp.scalarModOrder bytes = some scalar ∧
      curve.scalarModOrder (number bytes) = (number (secp.scalarToBeBytes scalar) : curve.Scalar) := by
  obtain ⟨scalar, reduced, residue⟩ := scalarModOrder_eq documented bytes
  refine ⟨scalar, reduced, ?_⟩
  rw [residue, ← same, ZMod.natCast_mod]
  rfl

/-! ### Values -/

theorem secretBytes_range (key : SecretKey) :
    0 < number (secp.secretBytes key) ∧ number (secp.secretBytes key) < curveOrder := by
  have valid : ¬ secp.secretKeyFromSlice (secp.secretBytes key) = none := by
    rw [documented.key_valid]
    exact Option.some_ne_none key
  rw [documented.key_none] at valid
  omega

theorem value_ne_zero (key : SecretKey) : secp.value key ≠ 0 := by
  obtain ⟨positive, small⟩ := secretBytes_range documented key
  intro zero
  have divides := (ZMod.natCast_eq_zero_iff _ _).mp zero
  exact absurd (Nat.le_of_dvd positive divides) (by omega)

theorem keyScalar_eq (key : SecretKey) :
    ∃ scalar, secp.keyScalar key = some scalar ∧ secp.scalarValue scalar = secp.value key := by
  obtain ⟨scalar, found, written⟩ :=
    scalarFromBeBytes_of_lt documented (secretBytes_range documented key).2
  refine ⟨scalar, found, ?_⟩
  unfold scalarValue value
  rw [written]

theorem mulTweak_eq (key : SecretKey) {scalar : Scalar} (nonzero : secp.scalarValue scalar ≠ 0) :
    ∃ product, secp.mulTweak key scalar = some product ∧
      secp.value product = secp.value key * secp.scalarValue scalar := by
  have product_ne : secp.value key * secp.scalarValue scalar ≠ 0 :=
    mul_ne_zero (value_ne_zero documented key) nonzero
  cases multiplied : secp.mulTweak key scalar with
  | none =>
      have zero := Nat.dvd_of_mod_eq_zero ((documented.mul_none key scalar).mp multiplied)
      have cast := (ZMod.natCast_eq_zero_iff _ curveOrder).mpr zero
      rw [Nat.cast_mul] at cast
      exact absurd cast product_ne
  | some product =>
      refine ⟨product, rfl, ?_⟩
      unfold value scalarValue
      rw [documented.mul_some key scalar product multiplied, ZMod.natCast_mod, Nat.cast_mul]

theorem mulKey_eq (key other : SecretKey) :
    ∃ product, secp.mulKey key other = some product ∧
      secp.value product = secp.value key * secp.value other := by
  obtain ⟨scalar, found, same⟩ := keyScalar_eq documented other
  have nonzero : secp.scalarValue scalar ≠ 0 := same ▸ value_ne_zero documented other
  obtain ⟨product, multiplied, isProduct⟩ := mulTweak_eq documented key nonzero
  refine ⟨product, ?_, same ▸ isProduct⟩
  unfold mulKey
  rw [found]
  exact multiplied

omit documented in
theorem number_u64Bytes (value : UInt64) : number (u64Bytes value) = value.toNat := by
  have zeros : ∀ (count : Nat) (bytes : List UInt8),
      ofBigEndian (List.replicate count 0 ++ bytes) = ofBigEndian bytes := by
    intro count bytes
    induction count with
    | zero => rfl
    | succ count ih => simp [List.replicate_succ, ofBigEndian, ih]
  have fits : value.toNat < 256 ^ 8 := value.toNat_lt.trans_eq (by norm_num)
  exact (zeros 24 _).trans (ofBigEndian_toBigEndian fits)

omit documented in
theorem u64_lt_curveOrder (value : UInt64) : value.toNat < curveOrder := by
  have small := value.toNat_lt
  have large := curveOrder_bounds.1
  omega

omit documented in
theorem cast_u64_ne_zero {value : UInt64} (nonzero : value ≠ 0) :
    (value.toNat : ZMod curveOrder) ≠ 0 := by
  intro zero
  have divides := (ZMod.natCast_eq_zero_iff _ _).mp zero
  have positive : 0 < value.toNat := Nat.pos_of_ne_zero fun isZero =>
    nonzero (UInt64.toNat.inj isZero)
  have small := u64_lt_curveOrder value
  exact absurd (Nat.le_of_dvd positive divides) (by omega)

theorem scalarFromU64_eq (value : UInt64) :
    ∃ scalar, secp.scalarFromU64 value = some scalar ∧
      secp.scalarValue scalar = (value.toNat : ZMod curveOrder) := by
  have small : number (u64Bytes value) < curveOrder := by
    rw [number_u64Bytes]
    exact u64_lt_curveOrder value
  obtain ⟨scalar, found, written⟩ := scalarFromBeBytes_of_lt documented small
  refine ⟨scalar, found, ?_⟩
  unfold scalarValue
  rw [written, number_u64Bytes]

theorem keyFromU64_eq {number : UInt64} (nonzero : number ≠ 0) :
    ∃ key, secp.keyFromU64 number = some key ∧
      secp.value key = (number.toNat : ZMod curveOrder) := by
  have positive : number.toNat ≠ 0 := fun isZero => nonzero (UInt64.toNat.inj isZero)
  have small := u64_lt_curveOrder number
  unfold keyFromU64
  cases found : secp.secretKeyFromSlice (u64Bytes number) with
  | none =>
      have invalid := (documented.key_none _).mp found
      rw [number_u64Bytes] at invalid
      omega
  | some key =>
      refine ⟨key, rfl, ?_⟩
      unfold value
      rw [documented.key_some _ _ found, number_u64Bytes]

/-! ### Inversion -/

omit documented in
theorem byte_bits (byte : UInt8) :
    (List.range 8).reverse.map (fun bit => decide ((byte >>> UInt8.ofNat bit) &&& 1 = 1)) =
      Powers.lowBits byte.toNat 8 := by
  have every : ∀ index : Fin 256, (List.range 8).reverse.map (fun bit =>
      decide ((UInt8.ofNat index.val >>> UInt8.ofNat bit) &&& 1 = 1)) =
      Powers.lowBits (UInt8.ofNat index.val).toNat 8 := by decide +kernel
  have whole := every ⟨byte.toNat, byte.toNat_lt⟩
  rw [UInt8.ofNat_toNat] at whole
  exact whole

theorem invertBit_eq (key accumulator : SecretKey) (byte : UInt8) (bit : Nat) {front : Nat}
    (power : secp.value accumulator = secp.value key ^ front) :
    ∃ next, secp.invertBit key byte accumulator bit = some next ∧ secp.value next =
      secp.value key ^
        (2 * front + (decide ((byte >>> UInt8.ofNat bit) &&& 1 = 1)).toNat) := by
  obtain ⟨squared, squaredEq, square⟩ := mulKey_eq documented accumulator accumulator
  rw [power, ← pow_add, ← two_mul] at square
  unfold invertBit
  rw [squaredEq]
  by_cases set : (byte >>> UInt8.ofNat bit) &&& 1 = 1
  · obtain ⟨product, productEq, isProduct⟩ := mulKey_eq documented squared key
    refine ⟨product, by simpa [set] using productEq, ?_⟩
    rw [isProduct, square, decide_eq_true set, Bool.toNat_true, pow_succ]
  · refine ⟨squared, by simp [set], ?_⟩
    rw [square, decide_eq_false set, Bool.toNat_false, Nat.add_zero]

theorem invertByte_eq (key accumulator : SecretKey) (byte : UInt8) {front : Nat}
    (power : secp.value accumulator = secp.value key ^ front) :
    ∃ next, secp.invertByte key accumulator byte = some next ∧
      secp.value next = secp.value key ^ (front * 256 + byte.toNat) := by
  have bits : ∀ (indices : List Nat) (accumulator : SecretKey) (front : Nat),
      secp.value accumulator = secp.value key ^ front →
      ∃ next, indices.foldlM (secp.invertBit key byte) accumulator = some next ∧
        secp.value next = secp.value key ^ Powers.extend front (indices.map fun bit =>
          decide ((byte >>> UInt8.ofNat bit) &&& 1 = 1)) := by
    intro indices
    induction indices with
    | nil => exact fun accumulator front power => ⟨accumulator, rfl, power⟩
    | cons bit indices ih =>
        intro accumulator front power
        obtain ⟨next, nextEq, nextPower⟩ := invertBit_eq documented key accumulator byte bit power
        rw [List.foldlM_cons, nextEq, List.map_cons, Powers.extend_cons]
        exact ih next _ nextPower
  obtain ⟨next, nextEq, nextPower⟩ := bits (List.range 8).reverse accumulator front power
  refine ⟨next, nextEq, ?_⟩
  have width : 2 ^ 8 = 256 := by norm_num
  rw [nextPower, byte_bits, Powers.extend_lowBits, Nat.mod_eq_of_lt byte.toNat_lt, width]

omit documented in
theorem invertExponent_value : ofBigEndian invertExponent = curveOrder - 2 := by
  rw [curveOrder_eq]
  decide +kernel

theorem invert_eq (key : SecretKey) :
    ∃ inverse, secp.invert key = some inverse ∧ secp.value inverse = (secp.value key)⁻¹ := by
  have run : ∀ (bytes : List UInt8) (accumulator : SecretKey) (front : Nat),
      secp.value accumulator = secp.value key ^ front →
      ∃ last, bytes.foldlM (secp.invertByte key) accumulator = some last ∧
        secp.value last =
          secp.value key ^ (front * 256 ^ bytes.length + ofBigEndian bytes) := by
    intro bytes
    induction bytes with
    | nil =>
        intro accumulator front power
        refine ⟨accumulator, rfl, ?_⟩
        rw [power, List.length_nil, Nat.pow_zero, Nat.mul_one, ofBigEndian, Nat.add_zero]
    | cons byte bytes ih =>
        intro accumulator front power
        obtain ⟨next, nextEq, nextPower⟩ := invertByte_eq documented key accumulator byte power
        obtain ⟨last, lastEq, lastPower⟩ := ih next _ nextPower
        refine ⟨last, by rw [List.foldlM_cons, nextEq]; exact lastEq, ?_⟩
        rw [lastPower, List.length_cons, ofBigEndian]
        congr 1
        ring
  obtain ⟨one, oneEq, isOne⟩ := keyFromU64_eq documented (by decide : (1 : UInt64) ≠ 0)
  have start : secp.value one = secp.value key ^ 0 := by
    rw [isOne, pow_zero]
    rfl
  obtain ⟨last, lastEq, lastPower⟩ := run invertExponent one 0 start
  refine ⟨last, by unfold invert; rw [oneEq]; exact lastEq, ?_⟩
  have nonzero := value_ne_zero documented key
  rw [lastPower, Nat.zero_mul, Nat.zero_add, invertExponent_value]
  have fermat := ZMod.pow_card_sub_one_eq_one nonzero
  have exponent : curveOrder - 1 = curveOrder - 2 + 1 := by
    have large := curveOrder_bounds.1
    omega
  rw [exponent, pow_succ] at fermat
  exact eq_inv_of_mul_eq_one_left fermat

/-! ### Lagrange multipliers -/

omit documented in
/-- The evaluation point of a signer in the field. -/
def point (node : UInt64) : ZMod curveOrder := (node.toNat : ZMod curveOrder) + 1

omit documented in
theorem point_injective : Function.Injective point := by
  intro left right same
  have casts := (ZMod.natCast_eq_natCast_iff' _ _ _).mp (add_right_cancel same)
  rw [Nat.mod_eq_of_lt (u64_lt_curveOrder left), Nat.mod_eq_of_lt (u64_lt_curveOrder right)] at casts
  exact UInt64.toNat.inj casts

theorem difference_eq {a b : UInt64} (distinct : a ≠ b) :
    ∃ key, secp.difference a b = some key ∧ secp.value key = point a - point b := by
  have gap : point a - point b = (a.toNat : ZMod curveOrder) - b.toNat := by
    unfold point
    ring
  unfold difference
  by_cases above : b < a
  · rw [if_pos above]
    have order := UInt64.le_of_lt above
    have subtracted := UInt64.toNat_sub_of_le a b order
    have nonzero : a - b ≠ 0 := fun zero => distinct (sub_eq_zero.mp zero)
    obtain ⟨key, keyEq, isKey⟩ := keyFromU64_eq documented nonzero
    refine ⟨key, keyEq, ?_⟩
    rw [isKey, gap, subtracted, Nat.cast_sub (UInt64.le_iff_toNat_le.mp order)]
  · rw [if_neg above]
    have order := UInt64.not_lt.mp above
    have subtracted := UInt64.toNat_sub_of_le b a order
    have nonzero : b - a ≠ 0 := fun zero => distinct (sub_eq_zero.mp zero).symm
    obtain ⟨key, keyEq, isKey⟩ := keyFromU64_eq documented nonzero
    refine ⟨secp.negate key, by rw [keyEq]; rfl, ?_⟩
    have small := (secretBytes_range documented key).2
    unfold value at isKey ⊢
    rw [documented.negated, Nat.cast_sub small.le, ZMod.natCast_self, zero_sub, isKey, gap,
      subtracted, Nat.cast_sub (UInt64.le_iff_toNat_le.mp order), neg_sub]

theorem lagrangeStep_eq {node identity : UInt64} (other : node ≠ identity)
    (fits : node.toNat + 1 < 2 ^ 64) (fraction : SecretKey × SecretKey) :
    ∃ next, secp.lagrangeStep identity fraction node = some next ∧
      secp.value next.1 = secp.value fraction.1 * point node ∧
      secp.value next.2 = secp.value fraction.2 * (point node - point identity) := by
  have sum : (node + 1).toNat = node.toNat + 1 := by
    rw [UInt64.toNat_add]
    exact Nat.mod_eq_of_lt fits
  have isPoint : ((node + 1).toNat : ZMod curveOrder) = point node := by
    rw [sum, Nat.cast_succ]
    rfl
  have nonzero : node + 1 ≠ 0 := by
    intro zero
    have isZero : (node + 1).toNat = 0 := congrArg UInt64.toNat zero
    omega
  obtain ⟨scalar, scalarEq, isScalar⟩ := scalarFromU64_eq documented (node + 1)
  obtain ⟨gap, gapEq, isGap⟩ := difference_eq documented other
  obtain ⟨numerator, numeratorEq, isNumerator⟩ := mulTweak_eq documented fraction.1
    (isScalar ▸ cast_u64_ne_zero nonzero)
  obtain ⟨denominator, denominatorEq, isDenominator⟩ := mulKey_eq documented fraction.2 gap
  refine ⟨(numerator, denominator), ?_, ?_, ?_⟩
  · unfold lagrangeStep evaluationPoint
    rw [if_pos fits]
    simp only [Option.bind_eq_bind, Option.bind_some, scalarEq, numeratorEq, gapEq, denominatorEq]
    rfl
  · rw [isNumerator, isScalar, isPoint]
  · rw [isDenominator, isGap]

theorem lagrangeMultiplier_fraction {nodes : List UInt64}
    (fits : ∀ node ∈ nodes, node.toNat + 1 < 2 ^ 64) (identity : UInt64) :
    ∃ multiplier, secp.lagrangeMultiplier nodes identity = some multiplier ∧
      secp.value multiplier =
        ((nodes.filter (fun node => node ≠ identity)).map point).prod *
          ((nodes.filter (fun node => node ≠ identity)).map
            fun node => point node - point identity).prod⁻¹ := by
  have run : ∀ (others : List UInt64) (fraction : SecretKey × SecretKey),
      (∀ node ∈ others, node ≠ identity ∧ node.toNat + 1 < 2 ^ 64) →
      ∃ last, others.foldlM (secp.lagrangeStep identity) fraction = some last ∧
        secp.value last.1 = secp.value fraction.1 * (others.map point).prod ∧
        secp.value last.2 =
          secp.value fraction.2 * (others.map fun node => point node - point identity).prod := by
    intro others
    induction others with
    | nil => exact fun fraction _ => ⟨fraction, rfl, (mul_one _).symm, (mul_one _).symm⟩
    | cons node others ih =>
        intro fraction valid
        obtain ⟨⟨other, small⟩, rest⟩ := List.forall_mem_cons.mp valid
        obtain ⟨next, nextEq, top, bottom⟩ := lagrangeStep_eq documented other small fraction
        obtain ⟨last, lastEq, lastTop, lastBottom⟩ := ih next rest
        refine ⟨last, by rw [List.foldlM_cons, nextEq]; exact lastEq, ?_, ?_⟩
        · rw [lastTop, top, List.map_cons, List.prod_cons, mul_assoc]
        · rw [lastBottom, bottom, List.map_cons, List.prod_cons, mul_assoc]
  obtain ⟨one, oneEq, isOne⟩ := keyFromU64_eq documented (by decide : (1 : UInt64) ≠ 0)
  have unit : secp.value one = 1 := isOne.trans Nat.cast_one
  obtain ⟨fraction, fractionEq, top, bottom⟩ := run
    (nodes.filter (fun node => node ≠ identity)) (one, one) (by
      intro node member
      obtain ⟨listed, other⟩ := List.mem_filter.mp member
      exact ⟨of_decide_eq_true other, fits node listed⟩)
  obtain ⟨inverse, inverseEq, isInverse⟩ := invert_eq documented fraction.2
  obtain ⟨multiplier, multiplierEq, isMultiplier⟩ := mulKey_eq documented fraction.1 inverse
  refine ⟨multiplier, ?_, ?_⟩
  · unfold lagrangeMultiplier
    simp only [oneEq, Option.bind_eq_bind, Option.bind_some, fractionEq, inverseEq, multiplierEq]
  · rw [isMultiplier, isInverse, top, bottom, unit, one_mul, one_mul]

theorem lagrangeMultiplier_eq {nodes : List UInt64}
    (fits : ∀ node ∈ nodes, node.toNat + 1 < 2 ^ 64) (identity : UInt64) :
    ∃ multiplier, secp.lagrangeMultiplier nodes identity = some multiplier ∧
      secp.value multiplier =
        Interpolation.weightAtZero (nodes.map point) (point identity) := by
  obtain ⟨multiplier, computed, fraction⟩ :=
    lagrangeMultiplier_fraction documented fits identity
  have others : (nodes.map point).filter (fun other => other ≠ point identity) =
      (nodes.filter (fun node => node ≠ identity)).map point := by
    rw [List.filter_map]
    congr 1
    apply List.filter_congr
    intro node _
    simp only [Function.comp_apply, ne_eq, point_injective.eq_iff]
  refine ⟨multiplier, computed, ?_⟩
  unfold Interpolation.weightAtZero
  rw [fraction, others, List.map_map, List.prod_inv, List.map_map, ← List.prod_map_mul]
  rfl

/-- The signing functions compute with the residues of these multipliers. -/
theorem lagrangeMultiplier_refines {curve : Curve} (same : curve.order = curveOrder)
    {nodes : List UInt64} (fits : ∀ node ∈ nodes, node.toNat + 1 < 2 ^ 64) {identity : UInt64}
    {lambda : Tss.SecretKey curve} (computed : Tss.lagrangeMultiplier curve
      (nodes.map UInt64.toNat) identity.toNat = some lambda) :
    ∃ multiplier, secp.lagrangeMultiplier nodes identity = some multiplier ∧
      lambda.scalar = (number (secp.secretBytes multiplier) : curve.Scalar) := by
  obtain ⟨multiplier, multiplierEq, fraction⟩ :=
    lagrangeMultiplier_fraction documented fits identity
  refine ⟨multiplier, multiplierEq, (ZMod.ringEquivCongr same).injective ?_⟩
  have others : (nodes.map UInt64.toNat).filter (fun node => node ≠ identity.toNat) =
      (nodes.filter (fun node => node ≠ identity)).map UInt64.toNat := by
    rw [List.filter_map]
    congr 1
    apply List.filter_congr
    intro node _
    simp only [Function.comp_apply, ne_eq, UInt64.toNat_inj]
  have gap : ∀ node : UInt64, (node.toNat : ZMod curveOrder) - identity.toNat =
      point node - point identity := by
    intro node
    unfold point
    ring
  rw [map_natCast, lagrangeMultiplier_scalar computed, lagrangeWeight, others]
  change _ = secp.value multiplier
  rw [fraction]
  simp only [map_mul, map_inv₀, map_list_prod, List.map_map, Function.comp_def, map_add, map_sub,
    map_natCast, map_one, gap]
  rfl

/-- The reduction is the residue, the inverse inverts, and the multipliers of a
set of signers interpolate every polynomial of smaller degree at zero. -/
theorem scalar_helpers_exact :
    (∀ bytes, ∃ scalar, secp.scalarModOrder bytes = some scalar ∧
      number (secp.scalarToBeBytes scalar) = number bytes % curveOrder) ∧
    (∀ key, ∃ inverse, secp.invert key = some inverse ∧
      secp.value inverse * secp.value key = 1) ∧
    ∀ ids : List UInt64, ids.Nodup → (∀ id ∈ ids, id.toNat + 1 < 2 ^ 64) →
      ∃ multiplier : UInt64 → SecretKey,
        (∀ id, secp.lagrangeMultiplier ids id = some (multiplier id)) ∧
        ∀ polynomial : (ZMod curveOrder)[X], polynomial.degree < ids.length →
          (ids.map fun id => secp.value (multiplier id) * polynomial.eval (point id)).sum =
            polynomial.eval 0 := by
  refine ⟨scalarModOrder_eq documented, ?_, ?_⟩
  · intro key
    obtain ⟨inverse, inverseEq, isInverse⟩ := invert_eq documented key
    exact ⟨inverse, inverseEq, isInverse ▸ inv_mul_cancel₀ (value_ne_zero documented key)⟩
  · intro ids distinct fits
    choose multiplier computed weight using lagrangeMultiplier_eq documented fits
    refine ⟨multiplier, computed, fun polynomial degree => ?_⟩
    have points := distinct.map point_injective
    rw [← Interpolation.sum_weightAtZero points polynomial (by rwa [List.length_map]),
      List.map_map]
    simp only [weight, Function.comp_def]

end Library

/-! ### The library in plain numbers -/

def ofNumber (number : Nat) : Bytes := ⟨toBigEndian 32 number, toBigEndian_length 32 number⟩

theorem number_ofNumber {value : Nat} (small : value < curveOrder) :
    number (ofNumber value) = value := by
  have bound := curveOrder_bounds.2
  have power : (256 : Nat) ^ 32 = 2 ^ 256 := by norm_num
  exact ofBigEndian_toBigEndian (by omega)

abbrev PlainScalar : Type := { bytes : Bytes // number bytes < curveOrder }

abbrev PlainKey : Type := { bytes : Bytes // 0 < number bytes ∧ number bytes < curveOrder }

def plainKey (residue : Nat) : Option PlainKey :=
  if valid : 0 < residue ∧ residue < curveOrder then
    some ⟨ofNumber residue, by rw [number_ofNumber valid.2]; exact valid⟩
  else none

def plain : Secp PlainScalar PlainKey where
  scalarFromBeBytes bytes := if small : number bytes < curveOrder then some ⟨bytes, small⟩ else none
  scalarToBeBytes scalar := scalar.val
  secretKeyFromSlice bytes :=
    if valid : 0 < number bytes ∧ number bytes < curveOrder then some ⟨bytes, valid⟩ else none
  secretBytes key := key.val
  mulTweak key scalar := plainKey (number key.val * number scalar.val % curveOrder)
  addTweak key scalar := plainKey ((number key.val + number scalar.val) % curveOrder)
  negate key := ⟨ofNumber (curveOrder - number key.val), by
    have range := key.property
    rw [number_ofNumber (by omega)]
    omega⟩

theorem plainKey_none (total : Nat) :
    plainKey (total % curveOrder) = none ↔ total % curveOrder = 0 := by
  have below := Nat.mod_lt total curveOrder_prime.pos
  unfold plainKey
  split <;> simp <;> omega

theorem plainKey_some {residue : Nat} {key : PlainKey} (made : plainKey residue = some key) :
    number key.val = residue := by
  unfold plainKey at made
  split at made
  · rename_i valid
    cases made
    exact number_ofNumber valid.2
  · cases made

theorem plain_documented : plain.Documented where
  scalar_none bytes := by
    simp only [plain]
    split <;> simp <;> omega
  scalar_some bytes scalar found := by
    simp only [plain] at found ⊢
    split at found
    · cases found
      rfl
    · cases found
  key_none bytes := by
    simp only [plain]
    split <;> simp <;> omega
  key_some bytes key found := by
    simp only [plain] at found ⊢
    split at found
    · cases found
      rfl
    · cases found
  key_valid key := dif_pos key.property
  mul_none key scalar := plainKey_none _
  mul_some key scalar product made := plainKey_some made
  add_none key scalar := plainKey_none _
  add_some key scalar sum made := plainKey_some made
  negated key := by
    have range := key.property
    exact number_ofNumber (by omega)

theorem scalar_helpers_exact_sample : ∃ multiplier : UInt64 → PlainKey,
    plain.lagrangeMultiplier [0, 1, 3] 1 = some (multiplier 1) ∧
    ([0, 1, 3].map fun id => plain.value (multiplier id) *
      (X + 5 : (ZMod curveOrder)[X]).eval (point id)).sum = 5 := by
  have fits : ∀ id ∈ ([0, 1, 3] : List UInt64), id.toNat + 1 < 2 ^ 64 := by
    intro id member
    simp only [List.mem_cons, List.not_mem_nil, or_false] at member
    rcases member with rfl | rfl | rfl
    · decide
    · decide
    · decide
  obtain ⟨multiplier, computed, interpolates⟩ :=
    (scalar_helpers_exact plain_documented).2.2 [0, 1, 3] (by decide) fits
  refine ⟨multiplier, computed 1, ?_⟩
  have degree : (X + 5 : (ZMod curveOrder)[X]).degree < ([0, 1, 3] : List UInt64).length :=
    lt_of_le_of_lt (degree_X_add_C (5 : ZMod curveOrder)).le (by norm_num)
  rw [interpolates _ degree, eval_add, eval_X, zero_add]
  exact eval_ofNat 5 0

end Secp

end Picomint.Tss
