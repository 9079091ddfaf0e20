/-
The FROST signing functions: shares, their verification and aggregation.

An option that is none stands for a panic.  The keys of a nonce map define the
signing set; a signer with identity `id` has the evaluation point `id + 1`.
-/

import Picomint.Lib.SortedMap
import Picomint.Tss.Curve

namespace Picomint.Tss

variable {curve : Curve}

structure SecretNonce (curve : Curve) where
  first : SecretKey curve
  second : SecretKey curve

structure PublicNonce (curve : Curve) where
  first : PublicKey curve
  second : PublicKey curve
deriving DecidableEq

structure SignatureShare (curve : Curve) where
  response : SecretKey curve
deriving DecidableEq

/-- A BIP340 signature: the x-only group nonce and the response. -/
structure SchnorrSignature (curve : Curve) where
  nonce : Nat
  response : curve.Scalar
deriving DecidableEq

def derivePkShare (sks : SecretKey curve) : PublicKey curve := sks.publicKey

def derivePublicNonce (nonce : SecretNonce curve) : PublicNonce curve :=
  { first := nonce.first.publicKey
    second := nonce.second.publicKey }

/-! ### Lagrange multipliers -/

def scalarFromU64 (curve : Curve) (value : Nat) : curve.Scalar := (value : curve.Scalar)

def keyFromU64 (curve : Curve) (value : Nat) : Option (SecretKey curve) :=
  SecretKey.ofScalar? (value : curve.Scalar)

/-- The difference of two distinct evaluation points. -/
def difference (curve : Curve) (a b : Nat) : Option (SecretKey curve) :=
  if a > b then keyFromU64 curve (a - b)
  else (keyFromU64 curve (b - a)).map SecretKey.negate

def invertBit (key accumulator : SecretKey curve) (bit : Nat) : Option (SecretKey curve) := do
  let squared ← accumulator.mulTweak accumulator.scalar
  if (curve.order - 2).testBit bit then squared.mulTweak key.scalar else some squared

/-- The inverse of a nonzero scalar, by its power to the order minus two. -/
def invert (key : SecretKey curve) : Option (SecretKey curve) := do
  let one ← keyFromU64 curve 1
  (List.range 256).reverse.foldlM (invertBit key) one

/-- One other node's factors of the numerator and the denominator. -/
def lagrangeStep (identity : Nat) (fraction : SecretKey curve × SecretKey curve) (node : Nat) :
    Option (SecretKey curve × SecretKey curve) := do
  let numerator ← fraction.1.mulTweak (scalarFromU64 curve (node + 1))
  let gap ← difference curve node identity
  let denominator ← fraction.2.mulTweak gap.scalar
  some (numerator, denominator)

/-- The Lagrange multiplier at zero for the node's evaluation point. -/
def lagrangeMultiplier (curve : Curve) (nodes : List Nat) (identity : Nat) :
    Option (SecretKey curve) := do
  let one ← keyFromU64 curve 1
  let fraction ← (nodes.filter (fun node => node ≠ identity)).foldlM (lagrangeStep identity)
    (one, one)
  let inverse ← invert fraction.2
  fraction.1.mulTweak inverse.scalar

/-! ### Session values -/

def addPoint (accumulator : Option (PublicKey curve)) (point : PublicKey curve) :
    Option (PublicKey curve) :=
  match accumulator with
  | some accumulator => accumulator.combine point
  | none => some point

/-- The coordinate-wise sums of the nonce pairs, where none is the point at
infinity. -/
def aggregateNonceHalves (nonces : SortedMap Nat (PublicNonce curve)) :
    Option (PublicKey curve) × Option (PublicKey curve) :=
  nonces.values.foldl
    (fun halves nonce => (addPoint halves.1 nonce.first, addPoint halves.2 nonce.second))
    (none, none)

/-- The identifiers bound into the binding coefficient; each has to fit four
bytes. -/
def serializeIds (ids : List Nat) : Option (List Nat) :=
  if ids.all (fun id => id < 2 ^ 32) then some ids else none

/-- The sum of two points that may be infinite. -/
def sumPoints : Option (PublicKey curve) → Option (PublicKey curve) → Option (PublicKey curve)
  | some first, some second => first.combine second
  | some first, none => some first
  | none, second => second

/-- The second half times the binding coefficient, which has to be nonzero. -/
def bindHalf (half : Option (PublicKey curve)) (binding : curve.Scalar) :
    Option (Option (PublicKey curve)) :=
  match half with
  | none => some none
  | some second => (second.mulTweak binding).map some

/-- The group nonce `R1 + b * R2`, or the generator if that is infinite. -/
def groupNonce (halves : Option (PublicKey curve) × Option (PublicKey curve))
    (binding : curve.Scalar) : Option (PublicKey curve) := do
  let second ← bindHalf halves.2 binding
  match sumPoints halves.1 second with
  | some sum => some sum
  | none => (keyFromU64 curve 1).map SecretKey.publicKey

structure SessionValues (curve : Curve) where
  binding : curve.Scalar
  group : PublicKey curve
  challenge : curve.Scalar

def sessionValues (msg : Nat) (nonces : SortedMap Nat (PublicNonce curve))
    (pk : PublicKey curve) : Option (SessionValues curve) := do
  let ids ← serializeIds nonces.keys
  let halves := aggregateNonceHalves nonces
  let binding := curve.scalarModOrder
    (curve.nonceCoefHash ids (halves.1.map PublicKey.point) (halves.2.map PublicKey.point)
      pk.xOnly msg)
  let group ← groupNonce halves binding
  let challenge := curve.scalarModOrder (curve.challengeHash group.xOnly pk.xOnly msg)
  some { binding, group, challenge }

/-! ### Shares and signatures -/

def signShare (msg : Nat) (sks : SecretKey curve) (nonce : SecretNonce curve)
    (nonces : SortedMap Nat (PublicNonce curve)) (identity : Nat) (pk : PublicKey curve) :
    Option (SignatureShare curve) := do
  let values ← sessionValues msg nonces pk
  let lambda ← lagrangeMultiplier curve nonces.keys identity
  let first := if values.group.isOdd then nonce.first.negate else nonce.first
  let second := if values.group.isOdd then nonce.second.negate else nonce.second
  let sks := if pk.isOdd then sks.negate else sks
  let weighted ← sks.mulTweak lambda.scalar
  let share ← weighted.mulTweak values.challenge
  let second ← second.mulTweak values.binding
  let effective ← first.addTweak second.scalar
  let response ← effective.addTweak share.scalar
  some ⟨response⟩

/-- The point a signer's share has to be the discrete logarithm of; none where
the source returns false. -/
def expectedPoint (values : SessionValues curve) (lambda : SecretKey curve)
    (nonce : PublicNonce curve) (pks pk : PublicKey curve) : Option (PublicKey curve) := do
  let second ← nonce.second.mulTweak values.binding
  let effective ← nonce.first.combine second
  let effective := if values.group.isOdd then effective.negate else effective
  let pks := if pk.isOdd then pks.negate else pks
  let coefficient ← lambda.mulTweak values.challenge
  let sharePoint ← pks.mulTweak coefficient.scalar
  effective.combine sharePoint

/-- Verifies a node's share against its public key share and the nonces of the
signing set. -/
def verifySignatureShare (msg : Nat) (node : Nat) (pks : PublicKey curve)
    (share : SignatureShare curve) (nonces : SortedMap Nat (PublicNonce curve))
    (pk : PublicKey curve) : Option Bool :=
  match nonces.get? node with
  | none => some false
  | some nonce => do
      let values ← sessionValues msg nonces pk
      let lambda ← lagrangeMultiplier curve nonces.keys node
      some (decide (some share.response.publicKey = expectedPoint values lambda nonce pks pk))

def sumResponses : List (SecretKey curve) → Option (SecretKey curve)
  | [] => none
  | first :: rest => rest.foldlM (fun sum share => sum.addTweak share.scalar) first

def aggregateSignatureShares (msg : Nat) (nonces : SortedMap Nat (PublicNonce curve))
    (shares : SortedMap Nat (SignatureShare curve)) (pk : PublicKey curve) :
    Option (SchnorrSignature curve) := do
  let values ← sessionValues msg nonces pk
  let response ← sumResponses (shares.values.map SignatureShare.response)
  some { nonce := values.group.xOnly, response := response.scalar }

/-- BIP340 verification under the x-only aggregate key. -/
def verify (msg : Nat) (signature : SchnorrSignature curve) (pk : PublicKey curve) : Bool :=
  match curve.liftX pk.xOnly with
  | none => false
  | some key =>
      let challenge := curve.scalarModOrder (curve.challengeHash signature.nonce pk.xOnly msg)
      let commitment := signature.response • curve.generator - challenge • key
      decide (commitment ≠ 0) && !curve.oddY commitment
        && decide (curve.xOnly commitment = signature.nonce)

end Picomint.Tss
