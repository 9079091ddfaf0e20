/-
Threshold blind signatures over a pairing.

An option that is none stands for a panic.  A nonce is any point of the first
group, which covers the points that nonce messages hash to.
-/

import Picomint.Lib.Interpolation
import Picomint.Lib.SortedMap
import Picomint.Tss.Curve

namespace Picomint.Tbs

open Polynomial

/-- The groups behind `bls12_381`, with the scalars modulo their order. -/
structure PairingGroups where
  order : Nat
  prime : order.Prime
  order_above : 2 ^ 64 ≤ order
  G1 : Type
  G2 : Type
  Gt : Type
  group1 : AddCommGroup G1
  group2 : AddCommGroup G2
  groupT : AddCommGroup Gt
  module1 : Module (ZMod order) G1
  module2 : Module (ZMod order) G2
  moduleT : Module (ZMod order) Gt
  decGt : DecidableEq Gt
  generator : G2
  pairing : G1 →ₗ[ZMod order] G2 →ₗ[ZMod order] Gt
  pairing_free : ∀ point, pairing point generator = 0 → point = 0

attribute [instance] PairingGroups.group1 PairingGroups.group2 PairingGroups.groupT
  PairingGroups.module1 PairingGroups.module2 PairingGroups.moduleT PairingGroups.decGt

namespace PairingGroups

variable (groups : PairingGroups)

instance : Fact groups.order.Prime := ⟨groups.prime⟩

abbrev Scalar : Type := ZMod groups.order

end PairingGroups

variable {groups : PairingGroups}

/-! ### Keys and signatures -/

structure SecretKeyShare (groups : PairingGroups) where
  scalar : groups.Scalar

structure PublicKeyShare (groups : PairingGroups) where
  point : groups.G2

structure AggregatePublicKey (groups : PairingGroups) where
  point : groups.G2

structure Nonce (groups : PairingGroups) where
  point : groups.G1

structure BlindingKey (groups : PairingGroups) where
  scalar : groups.Scalar

structure BlindedNonce (groups : PairingGroups) where
  point : groups.G1

structure BlindedSignatureShare (groups : PairingGroups) where
  point : groups.G1

structure BlindedSignature (groups : PairingGroups) where
  point : groups.G1

structure Signature (groups : PairingGroups) where
  point : groups.G1

def derivePkShare (sk : SecretKeyShare groups) : PublicKeyShare groups :=
  ⟨sk.scalar • groups.generator⟩

def blindNonce (nonce : Nonce groups) (blindingKey : BlindingKey groups) : BlindedNonce groups :=
  ⟨blindingKey.scalar • nonce.point⟩

def signNonce (nonce : BlindedNonce groups) (sks : SecretKeyShare groups) :
    BlindedSignatureShare groups :=
  ⟨sks.scalar • nonce.point⟩

def verifySignatureShare (nonce : BlindedNonce groups) (sig : BlindedSignatureShare groups)
    (pk : PublicKeyShare groups) : Bool :=
  groups.pairing nonce.point pk.point = groups.pairing sig.point groups.generator

/-- `Scalar::invert`. -/
def invert (scalar : groups.Scalar) : Option groups.Scalar :=
  if scalar = 0 then none else some scalar⁻¹

/-- `Iterator::reduce`. -/
def reduce {α : Type} (combine : α → α → α) : List α → Option α
  | [] => none
  | first :: rest => some (rest.foldl combine first)

def lagrangeMultipliers (scalars : List groups.Scalar) : Option (List groups.Scalar) :=
  scalars.mapM (fun i => do
    let factors ← (scalars.filter (fun j => j ≠ i)).mapM (fun j => do
      let inverse ← invert (j - i)
      return j * inverse)
    reduce (· * ·) factors)

/-- `Scalar::from(node + 1)` in wrapping 64-bit arithmetic. -/
def evaluationPoint (groups : PairingGroups) (node : Nat) : groups.Scalar :=
  ((node + 1) % 2 ^ 64 : Nat)

def aggregateSignatureShares (shares : SortedMap Nat (BlindedSignatureShare groups)) :
    Option (BlindedSignature groups) :=
  if shares.size = 1 then shares.values.head?.map (fun share => ⟨share.point⟩)
  else do
    let multipliers ← lagrangeMultipliers (shares.keys.map (evaluationPoint groups))
    let sum ← reduce (· + ·)
      ((multipliers.zip shares.values).map (fun entry => entry.1 • entry.2.point))
    return ⟨sum⟩

def unblindSignature (blindingKey : BlindingKey groups) (blindedSig : BlindedSignature groups) :
    Option (Signature groups) := do
  let inverse ← invert blindingKey.scalar
  return ⟨inverse • blindedSig.point⟩

def verify (nonce : Nonce groups) (sig : Signature groups) (pk : AggregatePublicKey groups) :
    Bool :=
  groups.pairing nonce.point pk.point = groups.pairing sig.point groups.generator

/-! ### Shares -/

/-- A share verifies exactly if it is the one that `signNonce` makes. -/
theorem verifySignatureShare_iff (nonce : BlindedNonce groups) (sig : BlindedSignatureShare groups)
    (sk : SecretKeyShare groups) :
    verifySignatureShare nonce sig (derivePkShare sk) = true ↔ sig = signNonce nonce sk := by
  have moved : groups.pairing nonce.point (sk.scalar • groups.generator) =
      groups.pairing (sk.scalar • nonce.point) groups.generator := by
    rw [map_smul, LinearMap.map_smul, LinearMap.smul_apply]
  unfold verifySignatureShare derivePkShare signNonce
  rw [decide_eq_true_eq, moved]
  constructor
  · intro same
    have difference : groups.pairing (sk.scalar • nonce.point - sig.point) groups.generator = 0 := by
      rw [LinearMap.map_sub, LinearMap.sub_apply, same, sub_self]
    obtain ⟨point⟩ := sig
    exact congrArg BlindedSignatureShare.mk (sub_eq_zero.mp (groups.pairing_free _ difference)).symm
  · rintro rfl
    rfl

theorem verify_iff (nonce : Nonce groups) (sig : Signature groups) (secret : groups.Scalar) :
    verify nonce sig ⟨secret • groups.generator⟩ = true ↔ sig = ⟨secret • nonce.point⟩ := by
  have share := verifySignatureShare_iff ⟨nonce.point⟩ ⟨sig.point⟩ ⟨secret⟩
  constructor
  · intro verified
    obtain ⟨point⟩ := sig
    exact congrArg Signature.mk (congrArg BlindedSignatureShare.point (share.mp verified))
  · rintro rfl
    exact share.mpr rfl

/-! ### Aggregation -/

theorem reduce_add {M : Type} [AddCommGroup M] {values : List M} (nonempty : values ≠ []) :
    reduce (· + ·) values = some values.sum := by
  cases values with
  | nil => exact absurd rfl nonempty
  | cons first rest => rw [reduce, List.sum_eq_foldl, List.foldl_cons, zero_add]

theorem reduce_mul {values : List groups.Scalar} (nonempty : values ≠ []) :
    reduce (· * ·) values = some values.prod := by
  cases values with
  | nil => exact absurd rfl nonempty
  | cons first rest => rw [reduce, List.prod_eq_foldl, List.foldl_cons, one_mul]

theorem mapM_eq_map {α β : Type} {f : α → Option β} {g : α → β} {items : List α}
    (same : ∀ item ∈ items, f item = some (g item)) : items.mapM f = some (items.map g) := by
  induction items with
  | nil => rfl
  | cons item rest inductionHypothesis =>
      rw [List.mapM_cons, same item List.mem_cons_self,
        inductionHypothesis (fun other member => same other (List.mem_cons_of_mem item member))]
      rfl

theorem invert_of_ne_zero {scalar : groups.Scalar} (nonzero : scalar ≠ 0) :
    invert scalar = some scalar⁻¹ :=
  if_neg nonzero

theorem lagrangeMultipliers_eq {scalars : List groups.Scalar} (distinct : scalars.Nodup)
    (several : 2 ≤ scalars.length) :
    lagrangeMultipliers scalars = some (scalars.map (Interpolation.weightAtZero scalars)) := by
  apply mapM_eq_map
  intro i member
  have factors : (scalars.filter (fun j => j ≠ i)).mapM (fun j => do
      let inverse ← invert (j - i)
      return j * inverse) =
        some ((scalars.filter (fun j => j ≠ i)).map (fun j => j * (j - i)⁻¹)) := by
    apply mapM_eq_map
    intro j kept
    have different : j ≠ i := of_decide_eq_true (List.mem_filter.mp kept).2
    rw [invert_of_ne_zero (sub_ne_zero.mpr different)]
    rfl
  have others : scalars.filter (fun j => j ≠ i) ≠ [] := by
    intro none
    have only : scalars ⊆ [i] := by
      intro j listed
      refine List.mem_singleton.mpr ?_
      by_contra different
      have kept : j ∈ scalars.filter (fun j => j ≠ i) :=
        List.mem_filter.mpr ⟨listed, decide_eq_true different⟩
      rw [none] at kept
      cases kept
    have short := (distinct.subperm only).length_le
    rw [List.length_singleton] at short
    omega
  rw [factors]
  exact reduce_mul (by simpa using others)

theorem evaluationPoint_injective {left right : Nat} (leftFits : left < 2 ^ 64)
    (rightFits : right < 2 ^ 64)
    (same : evaluationPoint groups left = evaluationPoint groups right) : left = right := by
  have below : ∀ node, (node + 1) % 2 ^ 64 < groups.order :=
    fun node => (Nat.mod_lt _ (by decide)).trans_le groups.order_above
  have modulo := (ZMod.natCast_eq_natCast_iff' _ _ groups.order).mp same
  rw [Nat.mod_eq_of_lt (below left), Nat.mod_eq_of_lt (below right)] at modulo
  omega

def keyShare (secret : groups.Scalar[X]) (node : Nat) : SecretKeyShare groups :=
  ⟨secret.eval (evaluationPoint groups node)⟩

theorem aggregateSignatureShares_eq {secret : groups.Scalar[X]} {nonce : BlindedNonce groups}
    {shares : SortedMap Nat (BlindedSignatureShare groups)} (nonempty : 0 < shares.size)
    (degree : secret.degree < shares.size) (fits : ∀ node ∈ shares.keys, node < 2 ^ 64)
    (signed : ∀ row ∈ shares.rows, row.2 = signNonce nonce (keyShare secret row.1)) :
    aggregateSignatureShares shares = some ⟨secret.eval 0 • nonce.point⟩ := by
  unfold aggregateSignatureShares
  split
  · rename_i single
    obtain ⟨row, rows⟩ := List.length_eq_one_iff.mp single
    have member : row ∈ shares.rows := by
      rw [rows]
      exact List.mem_cons_self
    have constant : secret.eval (evaluationPoint groups row.1) = secret.eval 0 := by
      rw [single, Nat.cast_one, Nat.WithBot.lt_one_iff_le_zero] at degree
      rw [eq_C_of_degree_le_zero degree, eval_C, eval_C]
    unfold SortedMap.values
    rw [rows, List.map_cons, List.head?_cons, Option.map_some, signed row member]
    exact congrArg some (congrArg BlindedSignature.mk
      (congrArg (fun scalar : groups.Scalar => scalar • nonce.point) constant))
  · rename_i several
    have points : (shares.keys.map (evaluationPoint groups)).Nodup := by
      apply shares.keys_nodup.map_on
      intro left leftMember right rightMember same
      exact evaluationPoint_injective (fits left leftMember) (fits right rightMember) same
    have length : (shares.keys.map (evaluationPoint groups)).length = shares.size := by
      rw [List.length_map, shares.keys_length]
    have weighted : (((shares.keys.map (evaluationPoint groups)).map
        (Interpolation.weightAtZero (shares.keys.map (evaluationPoint groups)))).zip
          shares.values).map (fun entry => entry.1 • entry.2.point) =
        (shares.keys.map (evaluationPoint groups)).map (fun point =>
          Interpolation.weightAtZero (shares.keys.map (evaluationPoint groups)) point •
            secret.eval point • nonce.point) := by
      unfold SortedMap.keys SortedMap.values
      simp only [List.map_map, List.zip_map']
      apply List.map_congr_left
      intro row member
      simp only [Function.comp_apply, signed row member]
      rfl
    have entries : shares.keys.map (evaluationPoint groups) ≠ [] := by
      intro none
      rw [none] at length
      exact absurd length nonempty.ne
    rw [lagrangeMultipliers_eq points (by omega), Option.bind_eq_bind, Option.bind_some, weighted,
      reduce_add (by simpa using entries), Option.bind_eq_bind, Option.bind_some,
      Interpolation.sum_weightAtZero_smul points secret (by rwa [length])]
    rfl

/-! ### Blinding -/

theorem unblindSignature_smul {blindingKey : BlindingKey groups} (nonzero : blindingKey.scalar ≠ 0)
    (secret : groups.Scalar) (nonce : Nonce groups) :
    unblindSignature blindingKey ⟨secret • (blindNonce nonce blindingKey).point⟩ =
      some ⟨secret • nonce.point⟩ := by
  have cancelled : blindingKey.scalar⁻¹ • secret • blindingKey.scalar • nonce.point =
      secret • nonce.point := by
    rw [smul_comm, smul_smul blindingKey.scalar⁻¹, inv_mul_cancel₀ nonzero, one_smul]
  unfold unblindSignature blindNonce
  rw [invert_of_ne_zero nonzero, Option.bind_eq_bind, Option.bind_some, cancelled]
  rfl

def signAll (secret : groups.Scalar[X]) (nonce : BlindedNonce groups) (nodes : List Nat) :
    SortedMap Nat (BlindedSignatureShare groups) :=
  SortedMap.ofList (nodes.map (fun node => (node, signNonce nonce (keyShare secret node))))

/-- Every threshold of signers makes the same signature, and so do shares of
any origin that verify. -/
theorem threshold_signature_verifies {t : Nat} (positive : 0 < t) (secret : groups.Scalar[X])
    (degree : secret.degree < t) (nonce : Nonce groups) (blindingKey : BlindingKey groups)
    (nonzero : blindingKey.scalar ≠ 0) :
    (∀ node, verifySignatureShare (blindNonce nonce blindingKey)
      (signNonce (blindNonce nonce blindingKey) (keyShare secret node))
      (derivePkShare (keyShare secret node)) = true) ∧
      (∀ nodes : List Nat, nodes.Nodup → nodes.length = t → (∀ node ∈ nodes, node < 2 ^ 64) →
        (aggregateSignatureShares (signAll secret (blindNonce nonce blindingKey) nodes)).bind
          (unblindSignature blindingKey) = some ⟨secret.eval 0 • nonce.point⟩) ∧
      verify nonce ⟨secret.eval 0 • nonce.point⟩ ⟨secret.eval 0 • groups.generator⟩ = true ∧
      ∀ shares : SortedMap Nat (BlindedSignatureShare groups), shares.size = t →
        (∀ node ∈ shares.keys, node < 2 ^ 64) →
        (∀ row ∈ shares.rows, verifySignatureShare (blindNonce nonce blindingKey) row.2
          (derivePkShare (keyShare secret row.1)) = true) →
        ∃ signature,
          (aggregateSignatureShares shares).bind (unblindSignature blindingKey) = some signature ∧
            verify nonce signature ⟨secret.eval 0 • groups.generator⟩ = true := by
  have unblinded : ∀ shares : SortedMap Nat (BlindedSignatureShare groups), shares.size = t →
      (∀ node ∈ shares.keys, node < 2 ^ 64) →
      (∀ row ∈ shares.rows,
        row.2 = signNonce (blindNonce nonce blindingKey) (keyShare secret row.1)) →
      (aggregateSignatureShares shares).bind (unblindSignature blindingKey) =
        some ⟨secret.eval 0 • nonce.point⟩ := by
    intro shares count fits signed
    rw [aggregateSignatureShares_eq (by rwa [count]) (by rwa [count]) fits signed, Option.bind_some]
    exact unblindSignature_smul nonzero _ nonce
  have verifies := (verify_iff nonce ⟨secret.eval 0 • nonce.point⟩ (secret.eval 0)).mpr rfl
  refine ⟨fun node => (verifySignatureShare_iff _ _ _).mpr rfl, ?_, verifies, ?_⟩
  · intro nodes distinct count fits
    have keys : (nodes.map (fun node => (node, signNonce (blindNonce nonce blindingKey)
        (keyShare secret node)))).map Prod.fst = nodes := by
      rw [List.map_map]
      exact List.map_id nodes
    have rows : ∀ row ∈ (signAll secret (blindNonce nonce blindingKey) nodes).rows,
        row.1 ∈ nodes ∧
          row.2 = signNonce (blindNonce nonce blindingKey) (keyShare secret row.1) := by
      rintro ⟨signer, share⟩ member
      have found := (SortedMap.mem_rows _ _ _).mp member
      unfold signAll at found
      rw [SortedMap.get?_ofList_iff (by rwa [keys])] at found
      obtain ⟨node, listed, same⟩ := List.mem_map.mp found
      cases same
      exact ⟨listed, rfl⟩
    apply unblinded
    · unfold signAll
      rw [SortedMap.size_ofList (by rwa [keys]), List.length_map, count]
    · intro node member
      obtain ⟨row, inRows, rfl⟩ := List.mem_map.mp member
      exact fits row.1 (rows row inRows).1
    · exact fun row member => (rows row member).2
  · intro shares count fits verified
    refine ⟨_, unblinded shares count fits ?_, verifies⟩
    exact fun row member => (verifySignatureShare_iff _ _ _).mp (verified row member)

/-! Two signers of a group whose points are scalars. -/

noncomputable def scalarGroups : PairingGroups where
  order := Tss.scalarOrder
  prime := Tss.scalarOrder_prime
  order_above := by decide
  G1 := ZMod Tss.scalarOrder
  G2 := ZMod Tss.scalarOrder
  Gt := ZMod Tss.scalarOrder
  group1 := inferInstance
  group2 := inferInstance
  groupT := inferInstance
  module1 := inferInstance
  module2 := inferInstance
  moduleT := inferInstance
  decGt := inferInstance
  generator := 1
  pairing := LinearMap.mul (ZMod Tss.scalarOrder) (ZMod Tss.scalarOrder)
  pairing_free := fun point zero => by simpa using zero

noncomputable def sampleSecret : scalarGroups.Scalar[X] := C 3 * X + C 5

def sampleNonce : Nonce scalarGroups := ⟨(7 : ZMod Tss.scalarOrder)⟩

def sampleBlindingKey : BlindingKey scalarGroups := ⟨(2 : ZMod Tss.scalarOrder)⟩

theorem threshold_signature_verifies_sample :
    (aggregateSignatureShares (signAll sampleSecret (blindNonce sampleNonce sampleBlindingKey)
      [0, 2])).bind (unblindSignature sampleBlindingKey) =
        some ⟨sampleSecret.eval 0 • sampleNonce.point⟩ := by
  have degree : sampleSecret.degree < (2 : Nat) := by
    have linear : sampleSecret.degree ≤ 1 := degree_linear_le
    exact lt_of_le_of_lt linear (by decide)
  have nonzero : sampleBlindingKey.scalar ≠ 0 := by
    change (2 : ZMod Tss.scalarOrder) ≠ 0
    decide +kernel
  exact (threshold_signature_verifies (by decide) sampleSecret degree sampleNonce
    sampleBlindingKey nonzero).2.1 [0, 2] (by decide) rfl (by decide)

end Picomint.Tbs
