/-
What the key generation agrees on.

Honest nodes return one polynomial, each with its own share of it, and any
threshold of shares gives the secret of the polynomial back.  Against Byzantine
nodes every result is a share of the polynomial returned with it.
-/

import Picomint.Dkg.Progress
import Picomint.Tss.Reconstruction

namespace Picomint.Config

open SharePolynomial

/-! ### The secret polynomial -/

section Secret

variable {scheme : Scheme} {F M : Type} [Field F] [AddCommGroup M] [Module F M]
  {setup : Setup scheme} {share : NodeId → NodeId → scheme.Key}
  {pks : List scheme.Commitment} {sks : NodeId → scheme.Key}

def Setup.secret (setup : Setup scheme) (linear : Linear scheme F M) : List F :=
  sumColumns setup.nodes.threshold (setup.nodes.nodeIds.map fun dealer =>
    (setup.polynomial dealer).map linear.scalar)

theorem Setup.secret_length (setup : Setup scheme) (linear : Linear scheme F M) :
    (setup.secret linear).length = setup.nodes.threshold :=
  sumColumns_length _ _

theorem Regular.point (regular : Regular setup share pks sks) (linear : Linear scheme F M) :
    pks.map linear.point =
      (setup.secret linear).map fun coefficient => coefficient • linear.base := by
  rw [coefficientSums_point regular.commitments, Setup.secret, ← sumColumns_smul, List.map_map,
    List.map_map]
  congr 1
  apply List.map_congr_left
  intro dealer _
  simp only [Function.comp_apply, List.map_map]
  exact List.map_congr_left fun key _ => linear.point_commit key

theorem Regular.scalar (regular : Regular setup share pks sks) (linear : Linear scheme F M)
    {node : NodeId} (known : node < setup.nodes.total) :
    linear.scalar (sks node) = valueAt (setup.secret linear) (linear.at' node) := by
  rw [linear.sumKeys (regular.keys node known), Setup.secret, valueAt_sumColumns, List.map_map,
    List.map_map]
  · congr 1
    apply List.map_congr_left
    intro dealer member
    have isDealer := (NumNodes.mem_nodeIds _ _).mp member
    exact linear.evalPolyScalar (regular.evaluated dealer node isDealer known)
  · intro polynomial member
    obtain ⟨dealer, _, rfl⟩ := List.mem_map.mp member
    rw [List.length_map, setup.degree]

theorem Regular.nonempty (regular : Regular setup share pks sks) : pks ≠ [] :=
  coefficientSums_nonempty regular.commitments

theorem polynomial_ne_nil (setup : Setup scheme) (node : NodeId) : setup.polynomial node ≠ [] := by
  intro none
  have degree := setup.degree node
  rw [none] at degree
  exact Nat.succ_ne_zero _ degree.symm

/-- The key of the lowest coefficient. -/
theorem Regular.head (regular : Regular setup share pks sks) (linear : Linear scheme F M) :
    ∃ pk, pks.head? = some pk ∧
      linear.point pk = (setup.secret linear).getD 0 0 • linear.base := by
  have points := regular.point linear
  cases isPks : pks with
  | nil => exact absurd isPks regular.nonempty
  | cons pk rest =>
      rw [isPks] at points
      cases isSecret : setup.secret linear with
      | nil =>
          rw [isSecret] at points
          cases points
      | cons coefficient others =>
          rw [isSecret] at points
          exact ⟨pk, rfl, (List.cons_eq_cons.mp points).1⟩

end Secret

/-! ### Honest nodes over secp256k1 -/

namespace DkgSecp

open Tss

variable {curve : Curve} {hash : List (PublicKey curve) → Hash}
  {setup : Setup (secp curve hash)}

structure NoZeroSum (setup : Setup (secp curve hash)) : Prop where
  values : ∀ dealer node, dealer < setup.nodes.total → node < setup.nodes.total →
    NoZeroValue ((setup.polynomial dealer).map SecretKey.scalar) (scalar curve node)
  shares : ∀ node < setup.nodes.total, ∀ count, 0 < count → count ≤ setup.nodes.total →
    ((List.range count).map fun dealer =>
      valueAt ((setup.polynomial dealer).map SecretKey.scalar) (scalar curve node)).sum ≠ 0
  coefficients : ∀ index < setup.nodes.threshold, ∀ count, 0 < count → count ≤ setup.nodes.total →
    ((List.range count).map fun dealer =>
      ((setup.polynomial dealer).map SecretKey.scalar).getD index 0).sum ≠ 0
  result : ∀ node < setup.nodes.total,
    NoZeroValue (setup.secret (linear curve hash)) (scalar curve node)

/-- What comes first in a list numbered from zero. -/
theorem range_map_front {α : Type} {f : Nat → α} {count : Nat} {front rest : List α} {item : α}
    (split : (List.range count).map f = front ++ item :: rest) :
    front ++ [item] = (List.range (front.length + 1)).map f ∧ front.length + 1 ≤ count := by
  have length := congrArg List.length split
  rw [List.length_map, List.length_range, List.length_append, List.length_cons] at length
  have below : front.length + 1 ≤ count := by omega
  refine ⟨?_, below⟩
  have taken := congrArg (List.take (front.length + 1)) split
  rw [← List.map_take, List.take_range, Nat.min_eq_left below] at taken
  rw [taken, List.take_append, List.take_of_length_le (Nat.le_succ _), Nat.add_sub_cancel_left]
  rfl

theorem fits (setup : Setup (secp curve hash)) {node : NodeId} (known : node < setup.nodes.total) :
    node < 2 ^ 64 :=
  lt_of_lt_of_le known (setup.identities.trans (by decide))

/-- A sum of numbered items is formed, if no sum of the first ones is zero. -/
theorem reduce_range_ok {α M : Type} [AddCommMonoid M] {combine : α → α → Outcome α}
    {empty : DkgFault} {measure : α → M}
    (adds : ∀ {accumulator item next}, combine accumulator item = .ok next →
      measure next = measure accumulator + measure item)
    (defined : ∀ {accumulator item}, measure accumulator + measure item ≠ 0 →
      ∃ next, combine accumulator item = .ok next)
    {count : Nat} (positive : 0 < count) (item : Nat → α)
    (generic : ∀ some', 0 < some' → some' ≤ count →
      ((List.range some').map fun index => measure (item index)).sum ≠ 0) :
    ∃ sum, reduce combine empty ((List.range count).map item) = .ok sum := by
  have nonempty : (List.range count).map item ≠ [] := by
    intro none
    have length := congrArg List.length none
    rw [List.length_map, List.length_range] at length
    exact positive.ne' length
  refine reduce_ok nonempty fun {front last rest accumulator} split _ reduced => defined ?_
  obtain ⟨isFront, below⟩ := range_map_front split
  have here := generic (front.length + 1) (Nat.succ_pos _) below
  have mapped : ((List.range (front.length + 1)).map fun index => measure (item index)) =
      (front ++ [last]).map measure := by
    rw [isFront, List.map_map]
    rfl
  rwa [mapped, List.map_append, List.sum_append, List.map_singleton, List.sum_singleton,
    ← reduce_sum adds reduced] at here

theorem sumKeys_ok (hash : List (PublicKey curve) → Hash) {count : Nat} (positive : 0 < count)
    (key : Nat → SecretKey curve)
    (generic : ∀ some', 0 < some' → some' ≤ count →
      ((List.range some').map fun index => (key index).scalar).sum ≠ 0) :
    ∃ sum, (secp curve hash).sumKeys ((List.range count).map key) = .ok sum :=
  reduce_range_ok (fun added => SecretKey.ofScalar?_scalar (expect_eq_ok.mp added))
    (fun nonzero => ⟨_, expect_eq_ok.mpr (SecretKey.ofScalar?_of_ne_zero nonzero)⟩) positive key
    generic

theorem sumCommitments_ok (hash : List (PublicKey curve) → Hash) {count : Nat}
    (positive : 0 < count) (key : Nat → SecretKey curve)
    (generic : ∀ some', 0 < some' → some' ≤ count →
      ((List.range some').map fun index => (key index).scalar).sum ≠ 0) :
    ∃ sum, (secp curve hash).sumCommitments
      ((List.range count).map fun index => (key index).publicKey) = .ok sum := by
  refine reduce_range_ok (fun added => PublicKey.ofPoint?_point (expect_eq_ok.mp added))
    (fun finite => ⟨_, expect_eq_ok.mpr (PublicKey.ofPoint?_of_ne_zero finite)⟩) positive _ ?_
  intro some' isSome below zero
  apply generic some' isSome below
  apply curve.generator_free
  rw [List.sum_smul, List.map_map]
  exact zero

theorem coefficientSum_ok (generic : NoZeroSum setup) {index : Nat}
    (within : index < setup.nodes.threshold) :
    ∃ sum, coefficientSum (setup.nodes.nodeIds.map fun dealer =>
      (setup.polynomial dealer).map (secp curve hash).commit) index = .ok sum := by
  have coefficient : ∀ dealer, ∃ key : SecretKey curve,
      (setup.polynomial dealer)[index]? = some key := by
    intro dealer
    rw [← setup.degree dealer] at within
    exact ⟨_, List.getElem?_eq_getElem within⟩
  choose key isKey using coefficient
  obtain ⟨sum, summed⟩ := sumCommitments_ok hash (Nat.succ_pos (3 * setup.nodes.maxEvil))
    key (by
      intro count some' below
      have here := generic.coefficients index within count some' below
      have mapped : ∀ dealer, ((setup.polynomial dealer).map SecretKey.scalar).getD index 0 =
          (key dealer).scalar := by
        intro dealer
        rw [List.getD_eq_getElem?_getD, List.getElem?_map, isKey]
        rfl
      simpa only [mapped] using here)
  refine ⟨sum, bind_eq_ok.mpr ⟨_, mapM_eq_ok.mpr ?_, summed⟩⟩
  rw [List.forall₂_map_left_iff, List.forall₂_map_right_iff]
  refine List.forall₂_same.mpr fun dealer _ => ?_
  rw [expect_eq_ok, List.getElem?_map, isKey]
  rfl

theorem exists_regular (honest : setup.byzantine = ∅) (generic : NoZeroSum setup) :
    ∃ share pks sks, Regular setup share pks sks := by
  have evaluated : ∀ dealer node, ∃ key : SecretKey curve,
      dealer < setup.nodes.total → node < setup.nodes.total →
        evalPolyScalar (setup.polynomial dealer) node = .ok key := by
    intro dealer node
    by_cases known : dealer < setup.nodes.total ∧ node < setup.nodes.total
    · obtain ⟨key, computed⟩ := evalPolyScalar_ok (polynomial_ne_nil setup dealer)
        (fits setup known.2) (generic.values dealer node known.1 known.2)
      exact ⟨key, fun _ _ => computed⟩
    · obtain ⟨key, _⟩ := List.exists_mem_of_ne_nil _ (polynomial_ne_nil setup dealer)
      exact ⟨key, fun isDealer isNode => absurd ⟨isDealer, isNode⟩ known⟩
  choose share isShare using evaluated
  have value : ∀ dealer node, dealer < setup.nodes.total → node < setup.nodes.total →
      (share dealer node).scalar =
        valueAt ((setup.polynomial dealer).map SecretKey.scalar) (scalar curve node) :=
    fun dealer node isDealer isNode => evalPolyScalar_value (isShare dealer node isDealer isNode)
  have summed : ∀ node, ∃ key : SecretKey curve, node < setup.nodes.total →
      (secp curve hash).sumKeys (setup.nodes.nodeIds.map fun dealer => share dealer node) =
        .ok key := by
    intro node
    by_cases known : node < setup.nodes.total
    · obtain ⟨key, computed⟩ := sumKeys_ok hash
        (Nat.succ_pos (3 * setup.nodes.maxEvil)) (fun dealer => share dealer node) (by
          intro count some' below
          have here := generic.shares node known count some' below
          have mapped : ((List.range count).map fun dealer => (share dealer node).scalar) =
              (List.range count).map fun dealer =>
                valueAt ((setup.polynomial dealer).map SecretKey.scalar) (scalar curve node) := by
            apply List.map_congr_left
            intro dealer member
            exact value dealer node (lt_of_lt_of_le (List.mem_range.mp member) below) known
          rwa [mapped])
      exact ⟨key, fun _ => computed⟩
    · exact ⟨share 0 0, fun isNode => absurd isNode known⟩
  choose sks isSks using summed
  obtain ⟨pks, isPks⟩ := mapM_ok fun index (member : index ∈ List.range setup.nodes.threshold) =>
    coefficientSum_ok generic (List.mem_range.mp member)
  refine ⟨share, pks, sks, honest, isShare, ?_, isSks, isPks⟩
  intro dealer node isDealer isNode
  exact evalPoly_publicKey (isShare dealer node isDealer isNode)

/-- Every node's key is the value of the polynomial at its point. -/
theorem evalPoly_result {share : NodeId → NodeId → SecretKey curve} {pks : List (PublicKey curve)}
    {sks : NodeId → SecretKey curve} (regular : Regular setup share pks sks)
    (generic : NoZeroSum setup) {node : NodeId} (known : node < setup.nodes.total) :
    evalPoly pks node = .ok (sks node).publicKey :=
  evalPoly_generator regular.nonempty (regular.point (linear curve hash))
    (regular.scalar (linear curve hash) known) (fits setup known) (generic.result node known)

theorem interpolate_result {share : NodeId → NodeId → SecretKey curve}
    {pks : List (PublicKey curve)} {sks : NodeId → SecretKey curve}
    (regular : Regular setup share pks sks) {shares : SortedMap Nat (SecretKey curve)}
    (enough : shares.size = setup.nodes.threshold)
    (dealt : ∀ node share, shares.get? node = some share →
      node < setup.nodes.total ∧ share = sks node)
    (generic : ∀ count, 0 < count → count ≤ shares.size → partialSecret shares count ≠ 0) :
    ∃ secret, interpolateSecretKey shares = some secret ∧ pks.head? = some secret.publicKey := by
  have small : ∀ node ∈ shares.keys, node < 2 ^ 32 := by
    intro node member
    obtain ⟨found, isFound⟩ := (SortedMap.mem_keys _ _).mp member
    exact lt_of_lt_of_le (dealt node found isFound).1 (setup.identities.trans (by decide))
  have onPolynomial : ∀ node found, shares.get? node = some found →
      found.scalar = valueAt (setup.secret (linear curve hash)) (evaluationPoint curve node) := by
    intro node found isFound
    obtain ⟨known, rfl⟩ := dealt node found isFound
    have point : evaluationPoint curve node = scalar curve node := (Nat.cast_succ node).symm
    rw [point]
    exact regular.scalar (linear curve hash) known
  obtain ⟨secret, computed, value⟩ := interpolateSecretKey_eq small
    (by rw [enough]; exact Nat.succ_pos _) (by rw [enough, Setup.secret_length]) onPolynomial
    generic
  obtain ⟨pk, head, point⟩ := regular.head (linear curve hash)
  refine ⟨secret, computed, head.trans (congrArg some (PublicKey.ext ?_))⟩
  change _ = secret.scalar • curve.generator
  rw [value]
  exact point

/-- Where an evaluation returns nothing, it met the point at infinity. -/
theorem evalPoly_cases {pks : List (PublicKey curve)} (nonempty : pks ≠ []) {node : NodeId}
    (small : node < 2 ^ 64) :
    (∃ key, evalPoly pks node = .ok key) ∨ evalPoly pks node = .error (.error .infinity) := by
  refine reduce_cases (List.reverse_eq_nil_iff.not.mpr nonempty) ?_
  intro accumulator item
  have finite : scalar curve node • accumulator.point ≠ 0 := by
    intro zero
    rcases smul_eq_zero.mp zero with isScalar | isPoint
    · exact scalar_ne_zero small isScalar
    · exact accumulator.finite isPoint
  have scaled : accumulator.mulTweak (scalar curve node) = some ⟨_, finite⟩ :=
    PublicKey.ofPoint?_of_ne_zero finite
  rw [scaled]
  change (∃ next, context (PublicKey.combine ⟨_, finite⟩ item) .infinity = .ok next) ∨
    context (PublicKey.combine ⟨_, finite⟩ item) .infinity = _
  cases PublicKey.combine ⟨_, finite⟩ item with
  | none => exact Or.inr rfl
  | some next => exact Or.inl ⟨next, rfl⟩

end DkgSecp

/-! ### Honest nodes over G2 -/

namespace DkgG2

open Tbs

variable {groups : PairingGroups} [DecidableEq groups.G2] {hash : List groups.G2 → Hash}
  {setup : Setup (pairingG2 groups hash)}

theorem exists_regular (honest : setup.byzantine = ∅) : ∃ share pks sks,
    Regular setup share pks sks := by
  have coefficientSum_ok : ∀ index ∈ List.range setup.nodes.threshold, ∃ sum,
      coefficientSum (setup.nodes.nodeIds.map fun dealer =>
        (setup.polynomial dealer).map (pairingG2 groups hash).commit) index = .ok sum := by
    intro index member
    have coefficient : ∀ dealer, ∃ key : groups.Scalar,
        (setup.polynomial dealer)[index]? = some key := by
      intro dealer
      have within := List.mem_range.mp member
      rw [← setup.degree dealer] at within
      exact ⟨_, List.getElem?_eq_getElem within⟩
    choose key isKey using coefficient
    have nonempty : (setup.nodes.nodeIds.map fun dealer => g2 (key dealer)) ≠ [] := by
      intro none
      have length := congrArg List.length none
      rw [List.length_map, NumNodes.nodeIds.eq_def, List.length_range] at length
      exact Nat.succ_ne_zero _ length
    obtain ⟨sum, summed⟩ : ∃ sum, (pairingG2 groups hash).sumCommitments
        (setup.nodes.nodeIds.map fun dealer => g2 (key dealer)) = .ok sum := reduce_total nonempty
    refine ⟨sum, bind_eq_ok.mpr ⟨_, mapM_eq_ok.mpr ?_, summed⟩⟩
    rw [List.forall₂_map_left_iff, List.forall₂_map_right_iff]
    refine List.forall₂_same.mpr fun dealer _ => ?_
    rw [expect_eq_ok, List.getElem?_map, isKey]
    rfl
  obtain ⟨pks, isPks⟩ := mapM_ok coefficientSum_ok
  refine ⟨fun dealer node => valueAt (setup.polynomial dealer) (scalar groups node), pks,
    fun node => (setup.nodes.nodeIds.map fun dealer =>
      valueAt (setup.polynomial dealer) (scalar groups node)).sum, honest, ?_, ?_, ?_, isPks⟩
  · exact fun dealer node _ _ => evalPolyScalar_ok (polynomial_ne_nil setup dealer)
  · intro dealer node _ _
    have nonempty : (setup.polynomial dealer).map g2 ≠ [] :=
      List.map_eq_nil_iff.not.mpr (polynomial_ne_nil setup dealer)
    exact (checksum_ok nonempty).trans (congrArg Except.ok (valueAt_smul _ _ _))
  · exact fun node _ => rfl

theorem evalPolyG2_result {share : NodeId → NodeId → groups.Scalar} {pks : List groups.G2}
    {sks : NodeId → groups.Scalar} (regular : Regular setup share pks sks) {node : NodeId}
    (known : node < setup.nodes.total) : evalPolyG2 pks node = .ok (g2 (sks node)) := by
  have points := regular.point (linear groups hash)
  have value := regular.scalar (linear groups hash) known
  change pks.map id = _ at points
  change sks node = _ at value
  rw [List.map_id] at points
  rw [evalPolyG2_ok regular.nonempty, points]
  change Except.ok (valueAt ((setup.secret (linear groups hash)).map fun coefficient =>
    coefficient • groups.generator) (scalar groups node)) = _
  rw [valueAt_smul]
  exact congrArg Except.ok (congrArg g2 value.symm)

theorem interpolate_result {share : NodeId → NodeId → groups.Scalar} {pks : List groups.G2}
    {sks : NodeId → groups.Scalar} (regular : Regular setup share pks sks) {nodes : List NodeId}
    (distinct : nodes.Nodup) (enough : nodes.length = setup.nodes.threshold)
    (known : ∀ node ∈ nodes, node < setup.nodes.total) :
    ∃ multipliers, lagrangeMultipliers (nodes.map (scalar groups)) = some multipliers ∧
      pks.head? = some (g2 ((multipliers.zip (nodes.map sks)).map fun entry =>
        entry.1 * entry.2).sum) := by
  have points : (nodes.map (scalar groups)).Nodup := by
    refine distinct.map_on ?_
    intro left isLeft right isRight same
    have fits : ∀ node ∈ nodes, node + 1 < groups.order := by
      intro node member
      have small : node < 256 := lt_of_lt_of_le (known node member) setup.identities
      exact lt_of_le_of_lt (Nat.succ_le_of_lt small)
        (lt_of_lt_of_le (by decide : 256 < 2 ^ 64) groups.order_above)
    have modulo := (ZMod.natCast_eq_natCast_iff' _ _ groups.order).mp same
    rw [Nat.mod_eq_of_lt (fits left isLeft), Nat.mod_eq_of_lt (fits right isRight)] at modulo
    exact Nat.succ.inj modulo
  have several : 2 ≤ (nodes.map (scalar groups)).length := by
    rw [List.length_map, enough]
    have positive := setup.several
    unfold NumNodes.threshold
    omega
  refine ⟨_, lagrangeMultipliers_eq points several, ?_⟩
  obtain ⟨pk, head, point⟩ := regular.head (linear groups hash)
  refine head.trans (congrArg some (point.trans (congrArg g2 ?_)))
  have covered :
      (setup.secret (linear groups hash)).length ≤ (nodes.map (scalar groups)).length := by
    rw [Setup.secret_length, List.length_map, enough]
  rw [← interpolate points covered, List.map_map, List.map_map, List.zip_map', List.map_map]
  congr 1
  apply List.map_congr_left
  intro node member
  exact congrArg _ (regular.scalar (linear groups hash) (known node member)).symm

end DkgG2

end Picomint.Config
