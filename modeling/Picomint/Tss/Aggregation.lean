/-
The aggregate of verified shares is a signature of the aggregate key.

The points the shares have to match are summed over the signing set: the nonce
parts sum to the group nonce, the key parts to the aggregate key by Lagrange
interpolation of the secret polynomial at zero.
-/

import Picomint.Lib.Interpolation
import Picomint.Tss.Correctness

namespace Picomint.Tss

open Polynomial

variable {curve : Curve}

/-! ### Interpolation at zero -/

def evaluationPoint (curve : Curve) (node : Nat) : curve.Scalar := (node : curve.Scalar) + 1

theorem evaluationPoint_injOn {ids : Finset Nat} (fits : ∀ id ∈ ids, id < 2 ^ 32) :
    Set.InjOn (evaluationPoint curve) ids := by
  intro left leftMember right rightMember same
  have large := curve.order_above
  have leftFits := fits left leftMember
  have rightFits := fits right rightMember
  exact curve.cast_injective (by omega) (by omega) (add_right_cancel same)

theorem lagrangeWeight_eq_weightAtZero {ids : List Nat} (fits : ∀ id ∈ ids, id < 2 ^ 32)
    {identity : Nat} (member : identity ∈ ids) :
    lagrangeWeight curve ids identity =
      Interpolation.weightAtZero (ids.map (evaluationPoint curve))
        (evaluationPoint curve identity) := by
  have injective : Set.InjOn (evaluationPoint curve) ids.toFinset :=
    evaluationPoint_injOn (fun id listed => fits id (List.mem_toFinset.mp listed))
  have others : (ids.map (evaluationPoint curve)).filter
      (fun other => other ≠ evaluationPoint curve identity) =
        (ids.filter (fun node => node ≠ identity)).map (evaluationPoint curve) := by
    rw [List.filter_map]
    congr 1
    apply List.filter_congr
    intro node listed
    have same : evaluationPoint curve node = evaluationPoint curve identity ↔ node = identity :=
      injective.eq_iff (List.mem_toFinset.mpr listed) (List.mem_toFinset.mpr member)
    simp only [Function.comp_apply, ne_eq, same]
  unfold lagrangeWeight Interpolation.weightAtZero
  dsimp only
  rw [others, List.map_map, List.prod_inv, List.map_map, ← List.prod_map_mul]
  congr 1
  apply List.map_congr_left
  intro node _
  unfold evaluationPoint
  simp only [Function.comp_apply, add_sub_add_right_eq_sub]

theorem interpolate_at_zero {ids : List Nat} (distinct : ids.Nodup)
    (fits : ∀ id ∈ ids, id < 2 ^ 32) (secret : curve.Scalar[X])
    (degree : secret.degree < ids.length) :
    ∑ id ∈ ids.toFinset, lagrangeWeight curve ids id * secret.eval (evaluationPoint curve id) =
      secret.eval 0 := by
  have injective : Set.InjOn (evaluationPoint curve) ids.toFinset :=
    evaluationPoint_injOn (fun id member => fits id (List.mem_toFinset.mp member))
  have distinctPoints : (ids.map (evaluationPoint curve)).Nodup := by
    apply distinct.map_on
    intro left leftMember right rightMember same
    exact injective (List.mem_toFinset.mpr leftMember) (List.mem_toFinset.mpr rightMember) same
  have degreeBelow : secret.degree < (ids.map (evaluationPoint curve)).length := by
    rwa [List.length_map]
  rw [← Interpolation.sum_weightAtZero distinctPoints secret degreeBelow, List.map_map,
    List.sum_toFinset _ distinct]
  congr 1
  apply List.map_congr_left
  intro id member
  rw [lagrangeWeight_eq_weightAtZero fits member]
  rfl

/-! ### Sums of nonces -/

/-- The point an optional key stands for, infinity for none. -/
def pointOf (key : Option (PublicKey curve)) : curve.Point :=
  (key.map PublicKey.point).getD 0

@[simp] theorem pointOf_some (key : PublicKey curve) : pointOf (some key) = key.point := rfl

@[simp] theorem pointOf_none : pointOf (none : Option (PublicKey curve)) = 0 := rfl

theorem pointOf_ofPoint? (point : curve.Point) : pointOf (PublicKey.ofPoint? point) = point := by
  unfold PublicKey.ofPoint?
  split
  · rfl
  · rename_i zero
    exact (not_not.mp zero).symm

theorem pointOf_addPoint (accumulator : Option (PublicKey curve)) (key : PublicKey curve) :
    pointOf (addPoint accumulator key) = pointOf accumulator + key.point := by
  cases accumulator with
  | none => exact (zero_add key.point).symm
  | some sum => exact pointOf_ofPoint? (sum.point + key.point)

theorem pointOf_sumPoints (first second : Option (PublicKey curve)) :
    pointOf (sumPoints first second) = pointOf first + pointOf second := by
  cases first with
  | none => exact (zero_add _).symm
  | some first =>
      cases second with
      | none => exact (add_zero _).symm
      | some second => exact pointOf_ofPoint? (first.point + second.point)

theorem aggregateNonceHalves_points (nonces : SortedMap Nat (PublicNonce curve)) :
    pointOf (aggregateNonceHalves nonces).1 =
        (nonces.values.map (fun nonce => nonce.first.point)).sum ∧
      pointOf (aggregateNonceHalves nonces).2 =
        (nonces.values.map (fun nonce => nonce.second.point)).sum := by
  have folded : ∀ (values : List (PublicNonce curve))
      (start : Option (PublicKey curve) × Option (PublicKey curve)),
      let halves := values.foldl (fun halves nonce =>
        (addPoint halves.1 nonce.first, addPoint halves.2 nonce.second)) start
      pointOf halves.1 = pointOf start.1 + (values.map (fun nonce => nonce.first.point)).sum ∧
        pointOf halves.2 =
          pointOf start.2 + (values.map (fun nonce => nonce.second.point)).sum := by
    intro values
    induction values with
    | nil =>
        intro start
        simp
    | cons nonce rest inductionHypothesis =>
        intro start
        obtain ⟨first, second⟩ := inductionHypothesis
          (addPoint start.1 nonce.first, addPoint start.2 nonce.second)
        simp only [List.foldl_cons, List.map_cons, List.sum_cons]
        constructor
        · rw [first, pointOf_addPoint, add_assoc]
        · rw [second, pointOf_addPoint, add_assoc]
  obtain ⟨first, second⟩ := folded nonces.values (none, none)
  constructor
  · exact first.trans (zero_add _)
  · exact second.trans (zero_add _)

/-- The sum `R1 + b * R2`, before the generator replaces infinity. -/
def nonceSum (nonces : SortedMap Nat (PublicNonce curve)) (binding : curve.Scalar) : curve.Point :=
  (nonces.values.map (fun nonce => nonce.first.point)).sum +
    binding • (nonces.values.map (fun nonce => nonce.second.point)).sum

theorem groupNonce_point {nonces : SortedMap Nat (PublicNonce curve)} {binding : curve.Scalar}
    {group : PublicKey curve}
    (computed : groupNonce (aggregateNonceHalves nonces) binding = some group)
    (finite : nonceSum nonces binding ≠ 0) : group.point = nonceSum nonces binding := by
  obtain ⟨firstSum, secondSum⟩ := aggregateNonceHalves_points nonces
  unfold groupNonce at computed
  simp only [Option.bind_eq_bind, Option.bind_eq_some_iff] at computed
  obtain ⟨second, scaled, chosen⟩ := computed
  have secondPoint : pointOf second = binding • pointOf (aggregateNonceHalves nonces).2 := by
    cases half : (aggregateNonceHalves nonces).2 with
    | none =>
        rw [half] at scaled
        cases scaled
        exact (smul_zero binding).symm
    | some key =>
        rw [half, bindHalf, Option.map_eq_some_iff] at scaled
        obtain ⟨product, multiplied, same⟩ := scaled
        rw [← same]
        exact PublicKey.ofPoint?_point multiplied
  have sumPoint : pointOf (sumPoints (aggregateNonceHalves nonces).1 second) =
      nonceSum nonces binding := by
    rw [pointOf_sumPoints, secondPoint, firstSum, secondSum]
    rfl
  cases sum : sumPoints (aggregateNonceHalves nonces).1 second with
  | none =>
      rw [sum, pointOf_none] at sumPoint
      exact absurd sumPoint.symm finite
  | some key =>
      simp only [sum] at chosen
      cases chosen
      rw [← sumPoint, sum, pointOf_some]

/-! ### Verified shares -/

theorem verifySignatureShare_point {msg node : Nat} {pks pk : PublicKey curve}
    {share : SignatureShare curve} {nonces : SortedMap Nat (PublicNonce curve)}
    (verified : verifySignatureShare msg node pks share nonces pk = some true) :
    ∃ nonce values lambda, nonces.get? node = some nonce ∧
      sessionValues msg nonces pk = some values ∧
      lagrangeMultiplier curve nonces.keys node = some lambda ∧
      share.response.scalar • curve.generator =
        paritySign curve values.group.isOdd •
            (nonce.first.point + values.binding • nonce.second.point) +
          (lambda.scalar * values.challenge) • paritySign curve pk.isOdd • pks.point := by
  unfold verifySignatureShare at verified
  split at verified
  · cases verified
  · rename_i nonce member
    simp only [Option.bind_eq_bind, Option.bind_eq_some_iff] at verified
    obtain ⟨values, session, lambda, multiplier, matched⟩ := verified
    have expected := of_decide_eq_true (Option.some.inj matched)
    refine ⟨nonce, values, lambda, member, session, multiplier, ?_⟩
    unfold expectedPoint at expected
    have expected := expected.symm
    simp only [Option.bind_eq_bind, Option.bind_eq_some_iff] at expected
    obtain ⟨second, scaled, effective, combined, coefficient, challenged, sharePoint, weighted,
      total⟩ := expected
    have totalPoint := PublicKey.ofPoint?_point total
    change share.response.scalar • curve.generator = _ at totalPoint
    rw [totalPoint, PublicKey.negate_if, PublicKey.ofPoint?_point combined,
      PublicKey.ofPoint?_point scaled, PublicKey.ofPoint?_point weighted,
      SecretKey.ofScalar?_scalar challenged, PublicKey.negate_if]

theorem sumResponses_scalar {responses : List (SecretKey curve)} {sum : SecretKey curve}
    (computed : sumResponses responses = some sum) :
    sum.scalar = (responses.map SecretKey.scalar).sum := by
  have folded : ∀ (rest : List (SecretKey curve)) (start : SecretKey curve),
      rest.foldlM (fun sum share => sum.addTweak share.scalar) start = some sum →
        sum.scalar = start.scalar + (rest.map SecretKey.scalar).sum := by
    intro rest
    induction rest with
    | nil =>
        intro start same
        cases same
        simp
    | cons response rest inductionHypothesis =>
        intro start steps
        rw [List.foldlM_cons, Option.bind_eq_bind, Option.bind_eq_some_iff] at steps
        obtain ⟨next, added, following⟩ := steps
        rw [inductionHypothesis next following, SecretKey.ofScalar?_scalar added, List.map_cons,
          List.sum_cons, add_assoc]
  cases responses with
  | nil => cases computed
  | cons first rest => exact folded rest first computed

theorem sumResponses_isSome {responses : List (SecretKey curve)} (nonempty : responses ≠ [])
    (partialSums : ∀ count, 0 < count → count ≤ responses.length →
      ((responses.take count).map SecretKey.scalar).sum ≠ 0) :
    ∃ sum, sumResponses responses = some sum := by
  have folded : ∀ (rest : List (SecretKey curve)) (start : SecretKey curve),
      (∀ count ≤ rest.length,
        start.scalar + ((rest.take count).map SecretKey.scalar).sum ≠ 0) →
        ∃ sum, rest.foldlM (fun sum share => sum.addTweak share.scalar) start = some sum := by
    intro rest
    induction rest with
    | nil =>
        intro start _
        exact ⟨start, rfl⟩
    | cons response rest inductionHypothesis =>
        intro start sums
        have nonzero : start.scalar + response.scalar ≠ 0 := by
          simpa using sums 1 (by simp)
        obtain ⟨sum, following⟩ := inductionHypothesis ⟨start.scalar + response.scalar, nonzero⟩ (by
          intro count within
          simpa [add_assoc] using sums (count + 1) (by simpa using within))
        refine ⟨sum, ?_⟩
        rw [List.foldlM_cons, SecretKey.addTweak, SecretKey.ofScalar?_of_ne_zero nonzero]
        exact following
  cases responses with
  | nil => exact absurd rfl nonempty
  | cons first rest =>
      apply folded rest first
      intro count within
      simpa using partialSums (count + 1) (Nat.succ_pos count) (by simpa using within)

/-! ### The aggregate signature -/

/-- A signing set for the secret polynomial and a tweak: its public key shares
and the aggregate key carry the tweak. -/
structure SigningSet (curve : Curve) where
  ids : List Nat
  distinct : ids.Nodup
  nonempty : ids ≠ []
  secret : curve.Scalar[X]
  degree : secret.degree < ids.length
  tweak : curve.Scalar
  pks : Nat → PublicKey curve
  pk : PublicKey curve
  share : ∀ id ∈ ids,
    (pks id).point = (secret.eval (evaluationPoint curve id) + tweak) • curve.generator
  aggregate : pk.point = (secret.eval 0 + tweak) • curve.generator

namespace SigningSet

variable (signers : SigningSet curve)

theorem weighted_keys (fits : ∀ id ∈ signers.ids, id < 2 ^ 32) :
    ∑ id ∈ signers.ids.toFinset, lagrangeWeight curve signers.ids id • (signers.pks id).point =
      signers.pk.point := by
  have degree : (signers.secret + C signers.tweak).degree < signers.ids.length := by
    apply lt_of_le_of_lt (degree_add_le _ _)
    apply max_lt signers.degree
    apply lt_of_le_of_lt degree_C_le
    exact_mod_cast List.length_pos_iff.mpr signers.nonempty
  have interpolated := interpolate_at_zero signers.distinct fits _ degree
  simp only [eval_add, eval_C] at interpolated
  rw [signers.aggregate, ← interpolated, Finset.sum_smul]
  apply Finset.sum_congr rfl
  intro id member
  rw [signers.share id (List.mem_toFinset.mp member), smul_smul]

variable {msg : Nat} {nonces : SortedMap Nat (PublicNonce curve)}
  {shares : SortedMap Nat (SignatureShare curve)} {values : SessionValues curve}

/-- Verified shares sum to the response of a signature under the even forms of
the group nonce and the aggregate key. -/
theorem response_point (nonceIds : nonces.keys = signers.ids)
    (shareIds : shares.keys = signers.ids)
    (session : sessionValues msg nonces signers.pk = some values)
    (verified : ∀ id share, shares.get? id = some share →
      verifySignatureShare msg id (signers.pks id) share nonces signers.pk = some true) :
    (shares.values.map (fun share => share.response.scalar)).sum • curve.generator =
      paritySign curve values.group.isOdd • nonceSum nonces values.binding +
        values.challenge • signers.pk.evenPoint := by
  have fits : ∀ id ∈ signers.ids, id < 2 ^ 32 := by
    unfold sessionValues at session
    simp only [Option.bind_eq_bind, Option.bind_eq_some_iff] at session
    obtain ⟨ids, serialized, _⟩ := session
    unfold serializeIds at serialized
    split at serialized
    · rename_i small
      rw [nonceIds, List.all_eq_true] at small
      exact fun id member => of_decide_eq_true (small id member)
    · cases serialized
  have single : ∀ id ∈ signers.ids.toFinset,
      ((shares.get? id).map (fun share => share.response.scalar)).getD 0 • curve.generator =
        paritySign curve values.group.isOdd •
            (((nonces.get? id).map (fun nonce => nonce.first.point)).getD 0 +
              values.binding • ((nonces.get? id).map (fun nonce => nonce.second.point)).getD 0) +
          values.challenge • paritySign curve signers.pk.isOdd •
            lagrangeWeight curve signers.ids id • (signers.pks id).point := by
    intro id member
    have inShares : id ∈ shares.keys := by
      rw [shareIds]
      exact List.mem_toFinset.mp member
    obtain ⟨share, found⟩ := (shares.mem_keys id).mp inShares
    obtain ⟨nonce, computed, lambda, present, same, multiplier, point⟩ :=
      verifySignatureShare_point (verified id share found)
    cases Option.some.inj (session.symm.trans same)
    rw [nonceIds] at multiplier
    rw [found, present]
    simp only [Option.map_some, Option.getD_some]
    rw [point, lagrangeMultiplier_scalar multiplier]
    congr 1
    simp only [smul_smul]
    congr 1
    ring
  rw [shares.sum_values, shareIds, Finset.sum_smul, Finset.sum_congr rfl single,
    Finset.sum_add_distrib, ← Finset.smul_sum, ← Finset.smul_sum, ← Finset.smul_sum,
    Finset.sum_add_distrib, ← Finset.smul_sum, signers.weighted_keys fits]
  unfold nonceSum
  rw [nonces.sum_values, nonces.sum_values, nonceIds]
  rfl

def GroupNonceFinite (msg : Nat) (nonces : SortedMap Nat (PublicNonce curve))
    (pk : PublicKey curve) : Prop :=
  ∀ values, sessionValues msg nonces pk = some values → nonceSum nonces values.binding ≠ 0

def PartialSumsNonzero (shares : SortedMap Nat (SignatureShare curve)) : Prop :=
  ∀ count, 0 < count → count ≤ shares.size →
    ((shares.values.take count).map (fun share => share.response.scalar)).sum ≠ 0

instance (msg : Nat) (nonces : SortedMap Nat (PublicNonce curve)) (pk : PublicKey curve) :
    Decidable (GroupNonceFinite msg nonces pk) :=
  match session : sessionValues msg nonces pk with
  | none => isTrue (fun values found => by cases session.symm.trans found)
  | some values =>
      decidable_of_iff (nonceSum nonces values.binding ≠ 0)
        ⟨fun finite other found => by cases session.symm.trans found; exact finite,
          fun finite => finite values session⟩

instance (shares : SortedMap Nat (SignatureShare curve)) : Decidable (PartialSumsNonzero shares) :=
  decidable_of_iff (∀ count < shares.size,
      ((shares.values.take (count + 1)).map (fun share => share.response.scalar)).sum ≠ 0)
    ⟨fun sums count positive within => by
      have shifted := sums (count - 1) (by omega)
      rwa [Nat.sub_add_cancel positive] at shifted,
      fun sums count within => sums (count + 1) (Nat.succ_pos count) within⟩

/-- Verified shares of exactly the signing set aggregate to a signature that
verifies under the aggregate key. -/
theorem aggregate_verifies (nonceIds : nonces.keys = signers.ids)
    (shareIds : shares.keys = signers.ids)
    (verified : ∀ id share, shares.get? id = some share →
      verifySignatureShare msg id (signers.pks id) share nonces signers.pk = some true)
    (finite : GroupNonceFinite msg nonces signers.pk) (sums : PartialSumsNonzero shares) :
    ∃ signature, aggregateSignatureShares msg nonces shares signers.pk = some signature ∧
      verify msg signature signers.pk = true := by
  obtain ⟨id, member⟩ := List.exists_mem_of_ne_nil _ signers.nonempty
  obtain ⟨share, found⟩ := (shares.mem_keys id).mp (by rw [shareIds]; exact member)
  obtain ⟨nonce, values, lambda, _, session, _⟩ :=
    verifySignatureShare_point (verified id share found)
  have nonemptyValues : shares.values.map SignatureShare.response ≠ [] := by
    intro empty
    have length := congrArg List.length empty
    rw [List.length_map, shares.values_length, ← shares.keys_length, shareIds] at length
    exact signers.nonempty (List.length_eq_zero_iff.mp length)
  obtain ⟨response, summed⟩ := sumResponses_isSome nonemptyValues (by
    intro count positive within
    rw [List.length_map, shares.values_length] at within
    rw [← List.map_take, List.map_map]
    exact sums count positive within)
  have total := sumResponses_scalar summed
  rw [List.map_map] at total
  have group : values.group.point = nonceSum nonces values.binding := by
    have computed := session
    unfold sessionValues at computed
    simp only [Option.bind_eq_bind, Option.bind_eq_some_iff] at computed
    obtain ⟨ids, _, key, chosen, same⟩ := computed
    cases same
    exact groupNonce_point chosen (finite _ session)
  have challenge : values.challenge =
      curve.scalarModOrder (curve.challengeHash values.group.xOnly signers.pk.xOnly msg) := by
    unfold sessionValues at session
    simp only [Option.bind_eq_bind, Option.bind_eq_some_iff] at session
    obtain ⟨ids, _, key, _, same⟩ := session
    cases same
    rfl
  have commitment : response.scalar • curve.generator -
      values.challenge • signers.pk.evenPoint = values.group.evenPoint := by
    rw [total]
    change (shares.values.map (fun share => share.response.scalar)).sum • curve.generator - _ = _
    rw [signers.response_point nonceIds shareIds session verified, add_sub_cancel_right, ← group]
    rfl
  refine ⟨{ nonce := values.group.xOnly, response := response.scalar }, ?_, ?_⟩
  · unfold aggregateSignatureShares
    simp only [Option.bind_eq_bind, session, Option.bind_some, summed]
  · unfold verify
    rw [signers.pk.liftX_xOnly]
    simp only
    rw [← challenge, commitment, values.group.evenPoint_even, values.group.evenPoint_xOnly]
    simp [values.group.evenPoint_ne_zero]

end SigningSet

end Picomint.Tss
