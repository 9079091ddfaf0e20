/-
Threshold point encryption of preimages.

Decryption key shares are checked against the public key shares by pairings and
aggregated by Lagrange interpolation.  Every threshold of shares that verify
gives the one key that verifies, and this key decrypts.
-/

import Picomint.Core.Node
import Picomint.Tbs.BlindSignatures

namespace Picomint.Tpe

open Polynomial Tbs

abbrev Bytes32 := Vector UInt8 32

/-- The groups with a generator of `G1` as well, and what is drawn from seeded
generators: a scalar, and a point of `G2` that is not the identity. -/
structure EncryptionGroups extends PairingGroups where
  base : G1
  pairing_base : ∀ point, pairing base point = 0 → point = 0
  pairing_message : ∀ message, message ≠ 0 → ∀ point, pairing point message = 0 → point = 0
  deriveEphemeralSk : Bytes32 → ZMod order
  hashToMessage : Bytes32 → G1 → Hash → G2
  hashToMessage_ne_zero : ∀ encrypted pk commitment, hashToMessage encrypted pk commitment ≠ 0
  /-- SHA-256 of the compressed point. -/
  pointHash : G1 → Bytes32

variable {groups : EncryptionGroups}

structure SecretKeyShare (groups : EncryptionGroups) where
  scalar : groups.Scalar

structure PublicKeyShare (groups : EncryptionGroups) where
  point : groups.G1

structure AggregatePublicKey (groups : EncryptionGroups) where
  point : groups.G1

@[ext] structure DecryptionKeyShare (groups : EncryptionGroups) where
  point : groups.G1

@[ext] structure AggregateDecryptionKey (groups : EncryptionGroups) where
  point : groups.G1

structure CipherText (groups : EncryptionGroups) where
  encryptedPreimage : Bytes32
  pk : groups.G1
  signature : groups.G2

def derivePkShare (sk : SecretKeyShare groups) : PublicKeyShare groups :=
  ⟨sk.scalar • groups.base⟩

def deriveAggDk (aggPk : AggregatePublicKey groups) (encryptionSeed : Bytes32) :
    AggregateDecryptionKey groups :=
  ⟨groups.deriveEphemeralSk encryptionSeed • aggPk.point⟩

def xorWithHash (bytes : Bytes32) (aggDk : AggregateDecryptionKey groups) : Bytes32 :=
  Vector.zipWith (fun byte mask => byte ^^^ mask) bytes (groups.pointHash aggDk.point)

def encryptPreimage (aggPk : AggregatePublicKey groups) (encryptionSeed preimage : Bytes32)
    (commitment : Hash) : CipherText groups :=
  let encryptedPreimage := xorWithHash preimage (deriveAggDk aggPk encryptionSeed)
  let ephemeralSk := groups.deriveEphemeralSk encryptionSeed
  let ephemeralPk := ephemeralSk • groups.base
  { encryptedPreimage
    pk := ephemeralPk
    signature := ephemeralSk • groups.hashToMessage encryptedPreimage ephemeralPk commitment }

def CipherText.message (ct : CipherText groups) (commitment : Hash) : groups.G2 :=
  groups.hashToMessage ct.encryptedPreimage ct.pk commitment

def verifyCiphertext (ct : CipherText groups) (commitment : Hash) : Bool :=
  groups.pairing groups.base ct.signature = groups.pairing ct.pk (ct.message commitment)

def decryptPreimage (ct : CipherText groups) (aggDk : AggregateDecryptionKey groups) : Bytes32 :=
  xorWithHash ct.encryptedPreimage aggDk

/-- The pairing check of the two functions below, which assert the ciphertext. -/
def verifyPoint (pk decryption : groups.G1) (ct : CipherText groups) (commitment : Hash) :
    Option Bool :=
  if verifyCiphertext ct commitment then
    some (groups.pairing decryption (ct.message commitment) = groups.pairing pk ct.signature)
  else none

def verifyAggDk (aggPk : AggregatePublicKey groups) (aggDk : AggregateDecryptionKey groups)
    (ct : CipherText groups) (commitment : Hash) : Option Bool :=
  verifyPoint aggPk.point aggDk.point ct commitment

def createDkShare (sks : SecretKeyShare groups) (ct : CipherText groups) :
    DecryptionKeyShare groups :=
  ⟨sks.scalar • ct.pk⟩

def verifyDkShare (pks : PublicKeyShare groups) (dks : DecryptionKeyShare groups)
    (ct : CipherText groups) (commitment : Hash) : Option Bool :=
  verifyPoint pks.point dks.point ct commitment

def lagrangeMultipliers (scalars : List groups.Scalar) : Option (List groups.Scalar) :=
  @Tbs.lagrangeMultipliers groups.toPairingGroups scalars

def aggregateDkShares (shares : SortedMap Nat (DecryptionKeyShare groups)) :
    Option (AggregateDecryptionKey groups) := do
  let multipliers ←
    lagrangeMultipliers (shares.keys.map (evaluationPoint groups.toPairingGroups))
  let sum ← Tbs.reduce (· + ·)
    ((multipliers.zip shares.values).map fun entry => entry.1 • entry.2.point)
  return ⟨sum⟩

/-! ### Ciphertexts -/

theorem xorWithHash_twice (bytes : Bytes32) (aggDk : AggregateDecryptionKey groups) :
    xorWithHash (xorWithHash bytes aggDk) aggDk = bytes := by
  apply Vector.ext
  intro index within
  simp only [xorWithHash, Vector.getElem_zipWith]
  rw [UInt8.xor_assoc, UInt8.xor_self, UInt8.xor_zero]

theorem encryptPreimage_verifies (aggPk : AggregatePublicKey groups)
    (encryptionSeed preimage : Bytes32) (commitment : Hash) :
    verifyCiphertext (encryptPreimage aggPk encryptionSeed preimage commitment) commitment =
      true := by
  refine decide_eq_true ?_
  change groups.pairing groups.base (groups.deriveEphemeralSk encryptionSeed • _) =
    groups.pairing (groups.deriveEphemeralSk encryptionSeed • groups.base) _
  rw [map_smul, LinearMap.map_smul, LinearMap.smul_apply]
  rfl

theorem decrypt_encrypt (aggPk : AggregatePublicKey groups) (encryptionSeed preimage : Bytes32)
    (commitment : Hash) :
    decryptPreimage (encryptPreimage aggPk encryptionSeed preimage commitment)
      (deriveAggDk aggPk encryptionSeed) = preimage :=
  xorWithHash_twice preimage _

/-- A payload and an ephemeral key have one signature. -/
theorem verifyCiphertext_unique {left right : CipherText groups} {commitment : Hash}
    (leftValid : verifyCiphertext left commitment = true)
    (rightValid : verifyCiphertext right commitment = true)
    (samePayload : left.encryptedPreimage = right.encryptedPreimage) (samePk : left.pk = right.pk) :
    left = right := by
  obtain ⟨payload, pk, signature⟩ := left
  obtain ⟨payload', pk', signature'⟩ := right
  cases samePayload
  cases samePk
  have same := (of_decide_eq_true leftValid).trans (of_decide_eq_true rightValid).symm
  have zero : groups.pairing groups.base (signature - signature') = 0 := by
    rw [map_sub]
    exact sub_eq_zero.mpr same
  rw [sub_eq_zero.mp (groups.pairing_base _ zero)]

/-- The check accepts exactly the ephemeral key times the secret. -/
theorem verifyPoint_iff {ct : CipherText groups} {commitment : Hash}
    (valid : verifyCiphertext ct commitment = true) (secret : groups.Scalar)
    (decryption : groups.G1) :
    verifyPoint (secret • groups.base) decryption ct commitment = some true ↔
      decryption = secret • ct.pk := by
  have moved : groups.pairing (secret • groups.base) ct.signature =
      groups.pairing (secret • ct.pk) (ct.message commitment) := by
    rw [LinearMap.map_smul, LinearMap.smul_apply, of_decide_eq_true valid, LinearMap.map_smul,
      LinearMap.smul_apply]
  rw [verifyPoint, if_pos valid, Option.some_inj, decide_eq_true_eq, moved]
  constructor
  · intro same
    have zero : groups.pairing (decryption - secret • ct.pk) (ct.message commitment) = 0 := by
      rw [LinearMap.map_sub, LinearMap.sub_apply]
      exact sub_eq_zero.mpr same
    exact sub_eq_zero.mp
      (groups.pairing_message _ (groups.hashToMessage_ne_zero _ _ _) _ zero)
  · rintro rfl
    rfl

/-! ### Aggregation -/

def keyShare (secret : groups.Scalar[X]) (node : Nat) : SecretKeyShare groups :=
  ⟨secret.eval (evaluationPoint groups.toPairingGroups node)⟩

/-- Any threshold of shares of the ephemeral key, weighted, sum to the secret
times it. -/
theorem aggregateDkShares_eq {secret : groups.Scalar[X]} {ct : CipherText groups}
    {shares : SortedMap Nat (DecryptionKeyShare groups)} (several : 2 ≤ shares.size)
    (degree : secret.degree < shares.size) (fits : ∀ node ∈ shares.keys, node < 2 ^ 64)
    (created : ∀ row ∈ shares.rows, row.2 = createDkShare (keyShare secret row.1) ct) :
    aggregateDkShares shares = some ⟨secret.eval 0 • ct.pk⟩ := by
  have points : (shares.keys.map (evaluationPoint groups.toPairingGroups)).Nodup := by
    apply shares.keys_nodup.map_on
    intro left leftMember right rightMember same
    exact evaluationPoint_injective (fits left leftMember) (fits right rightMember) same
  have length :
      (shares.keys.map (evaluationPoint groups.toPairingGroups)).length = shares.size := by
    rw [List.length_map, shares.keys_length]
  have weighted : (((shares.keys.map (evaluationPoint groups.toPairingGroups)).map
      (Interpolation.weightAtZero (shares.keys.map (evaluationPoint groups.toPairingGroups)))).zip
        shares.values).map (fun entry => entry.1 • entry.2.point) =
      (shares.keys.map (evaluationPoint groups.toPairingGroups)).map (fun point =>
        Interpolation.weightAtZero (shares.keys.map (evaluationPoint groups.toPairingGroups))
          point •
          secret.eval point • ct.pk) := by
    unfold SortedMap.keys SortedMap.values
    simp only [List.map_map, List.zip_map']
    apply List.map_congr_left
    intro row member
    simp only [Function.comp_apply, created row member]
    rfl
  have entries : shares.keys.map (evaluationPoint groups.toPairingGroups) ≠ [] := by
    intro none
    rw [none] at length
    exact absurd length (by rw [List.length_nil]; omega)
  unfold aggregateDkShares lagrangeMultipliers
  rw [lagrangeMultipliers_eq points (by omega), Option.bind_eq_bind, Option.bind_some, weighted,
    reduce_add (by simpa using entries), Option.bind_eq_bind, Option.bind_some,
    Interpolation.sum_weightAtZero_smul points secret (by rwa [length])]
  rfl

/-- An encrypted preimage verifies, and so do the shares of all nodes for any
ciphertext that does.  Shares of any origin that verify for it aggregate, from
any threshold of nodes, to the one key that verifies, and this key gives the
preimage back. -/
theorem threshold_decryption {t : Nat} (several : 2 ≤ t) (secret : groups.Scalar[X])
    (degree : secret.degree < t) (commitment : Hash) :
    (∀ encryptionSeed preimage, verifyCiphertext (encryptPreimage
      ⟨secret.eval 0 • groups.base⟩ encryptionSeed preimage commitment) commitment = true) ∧
    ∀ ct : CipherText groups, verifyCiphertext ct commitment = true →
      (∀ node, verifyDkShare (derivePkShare (keyShare secret node))
        (createDkShare (keyShare secret node) ct) ct commitment = some true) ∧
      ∀ shares : SortedMap Nat (DecryptionKeyShare groups), shares.size = t →
        (∀ node ∈ shares.keys, node < 2 ^ 64) →
        (∀ row ∈ shares.rows, verifyDkShare (derivePkShare (keyShare secret row.1)) row.2 ct
          commitment = some true) →
        ∃ aggDk, aggregateDkShares shares = some aggDk ∧
          (∀ other, verifyAggDk ⟨secret.eval 0 • groups.base⟩ other ct commitment = some true ↔
            other = aggDk) ∧
          ∀ encryptionSeed preimage, ct = encryptPreimage ⟨secret.eval 0 • groups.base⟩
            encryptionSeed preimage commitment → decryptPreimage ct aggDk = preimage := by
  refine ⟨fun _ _ => encryptPreimage_verifies _ _ _ _, fun ct valid => ⟨?_, ?_⟩⟩
  · exact fun node => (verifyPoint_iff valid _ _).mpr rfl
  · intro shares enough fits verified
    refine ⟨⟨secret.eval 0 • ct.pk⟩, ?_, ?_, ?_⟩
    · refine aggregateDkShares_eq (by omega) (by rwa [enough]) fits fun row member => ?_
      exact DecryptionKeyShare.ext ((verifyPoint_iff valid _ _).mp (verified row member))
    · exact fun other => (verifyPoint_iff valid _ _).trans AggregateDecryptionKey.ext_iff.symm
    · rintro encryptionSeed preimage rfl
      have same : (⟨secret.eval 0 • groups.deriveEphemeralSk encryptionSeed • groups.base⟩ :
          AggregateDecryptionKey groups) =
          deriveAggDk ⟨secret.eval 0 • groups.base⟩ encryptionSeed :=
        AggregateDecryptionKey.ext (smul_comm _ _ _)
      exact (congrArg _ same).trans (decrypt_encrypt _ _ _ _)

/-! Two of three nodes of groups whose points are scalars. -/

noncomputable def sampleGroups : EncryptionGroups where
  toPairingGroups := scalarGroups
  base := (1 : ZMod Tss.scalarOrder)
  pairing_base := fun (point : ZMod Tss.scalarOrder) zero => (one_mul point).symm.trans zero
  pairing_message := by
    intro message nonzero point zero
    have factors : ∀ left right : ZMod Tss.scalarOrder, left * right = 0 → right ≠ 0 → left = 0 :=
      fun _ _ product other => (mul_eq_zero.mp product).resolve_right other
    exact factors point message zero nonzero
  deriveEphemeralSk := fun _ => ((2 : Nat) : ZMod Tss.scalarOrder)
  hashToMessage := fun _ _ _ => (1 : ZMod Tss.scalarOrder)
  hashToMessage_ne_zero := fun _ _ _ => (one_ne_zero : (1 : ZMod Tss.scalarOrder) ≠ 0)
  pointHash := fun _ => Vector.replicate 32 7

def decryptAll (secret : groups.Scalar[X]) (ct : CipherText groups) (nodes : List Nat) :
    SortedMap Nat (DecryptionKeyShare groups) :=
  SortedMap.ofList (nodes.map fun node => (node, createDkShare (keyShare secret node) ct))

theorem decryptAll_row {secret : groups.Scalar[X]} {ct : CipherText groups} {nodes : List Nat}
    (distinct : nodes.Nodup) {row : Nat × DecryptionKeyShare groups}
    (member : row ∈ (decryptAll secret ct nodes).rows) :
    row.1 ∈ nodes ∧ row.2 = createDkShare (keyShare secret row.1) ct := by
  have keys : (nodes.map fun node =>
      (node, createDkShare (keyShare secret node) ct)).map Prod.fst = nodes := by
    rw [List.map_map]
    exact List.map_id nodes
  have found := (SortedMap.mem_rows _ _ _).mp member
  unfold decryptAll at found
  rw [SortedMap.get?_ofList_iff (by rwa [keys])] at found
  obtain ⟨node, listed, same⟩ := List.mem_map.mp found
  obtain ⟨rfl, isShare⟩ := Prod.ext_iff.mp same
  exact ⟨listed, isShare.symm⟩

noncomputable def sampleKeys : sampleGroups.Scalar[X] :=
  C ((3 : Nat) : sampleGroups.Scalar) * X + C ((5 : Nat) : sampleGroups.Scalar)

noncomputable def sampleCipherText : CipherText sampleGroups :=
  encryptPreimage ⟨sampleKeys.eval 0 • sampleGroups.base⟩ (Vector.replicate 32 1)
    (Vector.replicate 32 42) 9

theorem threshold_decryption_sample : ∃ aggDk,
    aggregateDkShares (decryptAll sampleKeys sampleCipherText [0, 2]) = some aggDk ∧
      decryptPreimage sampleCipherText aggDk = Vector.replicate 32 42 := by
  have degree : sampleKeys.degree < (2 : Nat) := by
    have linear : sampleKeys.degree ≤ 1 := degree_linear_le
    exact lt_of_le_of_lt linear (by decide)
  have decryption := threshold_decryption (by decide) sampleKeys degree 9
  have valid := decryption.1 (Vector.replicate 32 1) (Vector.replicate 32 42)
  obtain ⟨honest, any⟩ := decryption.2 sampleCipherText valid
  obtain ⟨aggDk, aggregated, _, decrypts⟩ := any (decryptAll sampleKeys sampleCipherText [0, 2])
    rfl (by decide) (by
      intro row member
      rw [(decryptAll_row (by decide) member).2]
      exact honest row.1)
  exact ⟨aggDk, aggregated, decrypts _ _ rfl⟩

end Picomint.Tpe
