/-
The state machine of the Pedersen key generation.

Both groups run the same steps: a node commits to a hash of its polynomial,
opens it once it has every hash, deals shares once it has every polynomial, and
returns the sums once it has every share.
-/

import Mathlib.Algebra.BigOperators.Group.List.Basic
import Mathlib.Data.List.Forall2
import Picomint.Core.Node
import Picomint.Lib.SortedMap

namespace Picomint.Config

inductive DkgError where
  | twoHashes (node : NodeId)
  | hashNotFound (node : NodeId)
  | hashMismatch (node : NodeId)
  | wrongDegree (node : NodeId)
  | twoCommitments (node : NodeId)
  | commitmentNotFound (node : NodeId)
  | emptyCommitment
  | infinity
  | invalidShare (node : NodeId)
  | twoShares (node : NodeId)
deriving DecidableEq, Repr

/-- The expects of the key generation, and the indexing of a polynomial. -/
inductive DkgPanic where
  | evaluationPoint
  | noCoefficient
  | zeroValue
  | emptyCommitment
  | noShare
  | zeroSum
  | noCommitment
  | infiniteSum
  | index
deriving DecidableEq, Repr

inductive DkgFault where
  | error (error : DkgError)
  | panic (panic : DkgPanic)
deriving DecidableEq, Repr

abbrev Outcome (α : Type) := Except DkgFault α

def ensure (condition : Prop) [Decidable condition] (error : DkgError) : Outcome Unit :=
  if condition then .ok () else .error (.error error)

/-- `with_context`. -/
def context {α : Type} (value : Option α) (error : DkgError) : Outcome α :=
  match value with
  | some value => .ok value
  | none => .error (.error error)

def expect {α : Type} (value : Option α) (panic : DkgPanic) : Outcome α :=
  match value with
  | some value => .ok value
  | none => .error (.panic panic)

/-- `Iterator::reduce` with a fallible closure. -/
def reduce {α : Type} (combine : α → α → Outcome α) (empty : DkgFault) : List α → Outcome α
  | [] => .error empty
  | first :: rest => rest.foldlM combine first

section Inversion

variable {α β : Type}

theorem bind_eq_ok {outcome : Outcome α} {next : α → Outcome β} {result : β} :
    (outcome >>= next) = .ok result ↔ ∃ value, outcome = .ok value ∧ next value = .ok result := by
  cases outcome with
  | error fault =>
      constructor
      · intro impossible
        cases impossible
      · rintro ⟨value, impossible, _⟩
        cases impossible
  | ok value =>
      constructor
      · intro continued
        exact ⟨value, rfl, continued⟩
      · rintro ⟨other, same, continued⟩
        cases same
        exact continued

@[simp] theorem ensure_eq_ok {condition : Prop} [Decidable condition] {error : DkgError}
    {result : Unit} : ensure condition error = .ok result ↔ condition := by
  unfold ensure
  split <;> simp [*]

@[simp] theorem context_eq_ok {value : Option α} {error : DkgError} {result : α} :
    context value error = .ok result ↔ value = some result := by
  cases value with
  | none => simp [context]
  | some found => simp [context]

@[simp] theorem expect_eq_ok {value : Option α} {panic : DkgPanic} {result : α} :
    expect value panic = .ok result ↔ value = some result := by
  cases value with
  | none => simp [expect]
  | some found => simp [expect]

theorem mapM_eq_ok {step : α → Outcome β} {items : List α} {results : List β} :
    items.mapM step = .ok results ↔
      List.Forall₂ (fun item result => step item = .ok result) items results := by
  induction items generalizing results with
  | nil =>
      rw [List.mapM_nil, List.forall₂_nil_left_iff]
      exact ⟨fun same => (Except.ok.inj same).symm, fun same => congrArg Except.ok same.symm⟩
  | cons item rest ih =>
      rw [List.mapM_cons, List.forall₂_cons_left_iff, bind_eq_ok]
      constructor
      · rintro ⟨first, here, continued⟩
        obtain ⟨others, there, same⟩ := bind_eq_ok.mp continued
        exact ⟨first, others, here, ih.mp there, (Except.ok.inj same).symm⟩
      · rintro ⟨first, others, here, there, rfl⟩
        exact ⟨first, here, bind_eq_ok.mpr ⟨others, ih.mpr there, rfl⟩⟩

theorem mapM_ok {step : α → Outcome β} {items : List α}
    (each : ∀ item ∈ items, ∃ result, step item = .ok result) :
    ∃ results, items.mapM step = .ok results := by
  induction items with
  | nil => exact ⟨[], rfl⟩
  | cons item rest ih =>
      obtain ⟨result, here⟩ := each item List.mem_cons_self
      obtain ⟨results, there⟩ := ih fun other member => each other (List.mem_cons_of_mem _ member)
      exact ⟨result :: results, mapM_eq_ok.mpr (.cons here (mapM_eq_ok.mp there))⟩

theorem reduce_concat {combine : α → α → Outcome α} {empty : DkgFault} {items : List α}
    (nonempty : items ≠ []) (last : α) :
    reduce combine empty (items ++ [last]) =
      reduce combine empty items >>= fun accumulator => combine accumulator last := by
  cases items with
  | nil => exact absurd rfl nonempty
  | cons first rest =>
      change (rest ++ [last]).foldlM combine first = rest.foldlM combine first >>= _
      rw [List.foldlM_append]
      congr 1
      funext accumulator
      exact bind_pure (combine accumulator last)

theorem reduce_sum {M : Type} [AddCommMonoid M] {combine : α → α → Outcome α} {empty : DkgFault}
    {measure : α → M}
    (adds : ∀ {accumulator item next}, combine accumulator item = .ok next →
      measure next = measure accumulator + measure item) {items : List α} {result : α}
    (computed : reduce combine empty items = .ok result) :
    measure result = (items.map measure).sum := by
  induction items using List.reverseRecOn generalizing result with
  | nil => cases computed
  | append_singleton items last ih =>
      by_cases nonempty : items = []
      · subst nonempty
        cases computed
        simp
      · rw [reduce_concat nonempty, bind_eq_ok] at computed
        obtain ⟨accumulator, first, added⟩ := computed
        rw [adds added, ih first, List.map_append, List.sum_append, List.map_singleton,
          List.sum_singleton]

/-- A sum is formed, if every addition to a partial sum is. -/
theorem reduce_ok {combine : α → α → Outcome α} {empty : DkgFault} {items : List α}
    (nonempty : items ≠ [])
    (adds : ∀ {front item rest accumulator}, items = front ++ item :: rest → front ≠ [] →
      reduce combine empty front = .ok accumulator → ∃ next, combine accumulator item = .ok next) :
    ∃ result, reduce combine empty items = .ok result := by
  induction items using List.reverseRecOn with
  | nil => exact absurd rfl nonempty
  | append_singleton items last ih =>
      by_cases first : items = []
      · subst first
        exact ⟨last, rfl⟩
      · obtain ⟨accumulator, before⟩ := ih first fun split some reduced =>
          adds (by rw [split, List.append_assoc, List.cons_append]) some reduced
        obtain ⟨next, added⟩ := adds rfl first before
        exact ⟨next, by rw [reduce_concat first, before]; exact added⟩

/-- A sum fails in the way its additions fail. -/
theorem reduce_cases {combine : α → α → Outcome α} {empty fault : DkgFault} {items : List α}
    (nonempty : items ≠ [])
    (adds : ∀ accumulator item, (∃ next, combine accumulator item = .ok next) ∨
      combine accumulator item = .error fault) :
    (∃ result, reduce combine empty items = .ok result) ∨
      reduce combine empty items = .error fault := by
  induction items using List.reverseRecOn with
  | nil => exact absurd rfl nonempty
  | append_singleton items last ih =>
      by_cases first : items = []
      · subst first
        exact Or.inl ⟨last, rfl⟩
      · rw [reduce_concat first]
        rcases ih first with ⟨accumulator, before⟩ | failed
        · rw [before]
          exact adds accumulator last
        · rw [failed]
          exact Or.inr rfl

theorem reduce_total {combine : α → α → α} {empty : DkgFault} {items : List α}
    (nonempty : items ≠ []) :
    ∃ result, reduce (fun accumulator item => .ok (combine accumulator item)) empty items =
      .ok result :=
  reduce_ok nonempty fun _ _ _ => ⟨_, rfl⟩

end Inversion

/-- What the two groups do differently. -/
structure Scheme where
  Key : Type
  Commitment : Type
  decCommitment : DecidableEq Commitment
  /-- The generator times a key. -/
  commit : Key → Commitment
  /-- `consensus_hash_sha256`. -/
  hash : List Commitment → Hash
  /-- A polynomial at the point of a node. -/
  evalPolyScalar : List Key → NodeId → Outcome Key
  /-- A committed polynomial at the point of a node. -/
  checksum : List Commitment → NodeId → Outcome Commitment
  sumKeys : List Key → Outcome Key
  sumCommitments : List Commitment → Outcome Commitment

attribute [instance] Scheme.decCommitment

variable {scheme : Scheme}

inductive Message (scheme : Scheme) where
  | hash (hash : Hash)
  | commitment (polynomial : List scheme.Commitment)
  | share (share : scheme.Key)

inductive DkgStep (scheme : Scheme) where
  | broadcast (message : Message scheme)
  | messages (messages : List (NodeId × Message scheme))
  | result (pks : List scheme.Commitment) (sks : scheme.Key)

structure Dkg (scheme : Scheme) where
  numNodes : NumNodes
  identity : NodeId
  polynomial : List scheme.Key
  hashCommitments : SortedMap NodeId Hash
  commitments : SortedMap NodeId (List scheme.Commitment)
  skShares : SortedMap NodeId scheme.Key

def coefficientSum (commitments : List (List scheme.Commitment)) (index : Nat) :
    Outcome scheme.Commitment := do
  let coefficients ← commitments.mapM fun polynomial => expect polynomial[index]? .index
  scheme.sumCommitments coefficients

namespace Dkg

/-- The polynomial is the random one of the source. -/
def new (numNodes : NumNodes) (identity : NodeId) (polynomial : List scheme.Key) : Dkg scheme :=
  let commitment := polynomial.map scheme.commit
  { numNodes
    identity
    polynomial
    hashCommitments := SortedMap.empty.insert identity (scheme.hash commitment)
    commitments := SortedMap.empty.insert identity commitment
    skShares := SortedMap.empty }

def commitment (dkg : Dkg scheme) : List scheme.Commitment := dkg.polynomial.map scheme.commit

def initialMessage (dkg : Dkg scheme) : Message scheme := .hash (scheme.hash dkg.commitment)

/-- The shares of all nodes: our own one into the table, the others as messages. -/
def deal (dkg : Dkg scheme) :
    Outcome (SortedMap NodeId scheme.Key × List (NodeId × Message scheme)) :=
  dkg.numNodes.nodeIds.foldlM (fun dealt node => do
    let share ← scheme.evalPolyScalar dkg.polynomial node
    if node = dkg.identity then return (dealt.1.insert dkg.identity share, dealt.2)
    else return (dealt.1, dealt.2 ++ [(node, .share share)])) (dkg.skShares, [])

def step (dkg : Dkg scheme) (node : NodeId) :
    Message scheme → Outcome (Dkg scheme × DkgStep scheme)
  | .hash hash => do
      ensure (dkg.hashCommitments.get? node = none) (.twoHashes node)
      let dkg := { dkg with hashCommitments := dkg.hashCommitments.insert node hash }
      if dkg.hashCommitments.size = dkg.numNodes.total then
        return (dkg, .broadcast (.commitment dkg.commitment))
      else return (dkg, .messages [])
  | .commitment polynomial => do
      let hash ← context (dkg.hashCommitments.get? node) (.hashNotFound node)
      ensure (hash = scheme.hash polynomial) (.hashMismatch node)
      ensure (dkg.numNodes.threshold = polynomial.length) (.wrongDegree node)
      ensure (dkg.commitments.contains node = false) (.twoCommitments node)
      let dkg := { dkg with commitments := dkg.commitments.insert node polynomial }
      if dkg.commitments.size = dkg.numNodes.total then
        let (skShares, messages) ← dkg.deal
        return ({ dkg with skShares }, .messages messages)
      else return (dkg, .messages [])
  | .share share => do
      let polynomial ← context (dkg.commitments.get? node) (.commitmentNotFound node)
      let checksum ← scheme.checksum polynomial dkg.identity
      ensure (scheme.commit share = checksum) (.invalidShare node)
      ensure (dkg.skShares.contains node = false) (.twoShares node)
      let dkg := { dkg with skShares := dkg.skShares.insert node share }
      if dkg.skShares.size = dkg.numNodes.total then
        let sks ← scheme.sumKeys dkg.skShares.values
        let pks ← (List.range dkg.numNodes.threshold).mapM
          (coefficientSum dkg.commitments.values)
        return (dkg, .result pks sks)
      else return (dkg, .messages [])

end Dkg

end Picomint.Config
