/-
Demand pull: what a delivered unit makes a node ask for, and that answering
its questions always fills in the unit and everything below it.

The walk over the parents descends through stored units that still wait and
asks for the missing ones it meets.  Every missing ancestor lies below one of
them, and an answer replaces a question by questions of lower rounds.
-/

import Picomint.Bft.Fixpoint
import Picomint.Lib.DepthFirst
import Picomint.Lib.Inevitable
import Mathlib.Logic.Hydra

namespace Picomint.Bft

open Engine Relation

variable {D : Type}

/-! ### The walk -/

/-- Where the walk goes on from a hash: the parents of a stored unit that is
not extended, the last one first. -/
def descent (tables : BftTables D) (extended : SortedMap UnitHash BftUnit) (hash : UnitHash) :
    List UnitHash :=
  if extended.contains hash then []
  else match tables.unit.get? hash with
    | none => []
    | some unit => unit.parents.values.reverse

def askMissing (now : Nat) (tables : BftTables D) (sender : NodeId) (engine : Engine D)
    (hash : UnitHash) : Engine D :=
  if engine.isExtended hash then engine
  else match tables.unit.get? hash with
    | none => trySendRequest now engine sender hash
    | some _ => engine

theorem askMissing_extended (now : Nat) (tables : BftTables D) (sender : NodeId)
    (engine : Engine D) (hash : UnitHash) :
    (askMissing now tables sender engine hash).extended = engine.extended := by
  unfold askMissing
  split
  · rfl
  · split
    · obtain ⟨requests, messages, same, _⟩ := trySendRequest_requested now engine sender hash
      rw [same]
    · rfl

/-- `cascade_parents` asks for what is missing along a depth-first walk. -/
theorem cascadeWalk_eq (now : Nat) (tables : BftTables D) (sender : NodeId) (steps : Nat)
    (visited : SortedSet UnitHash) (stack : List UnitHash) (engine : Engine D) :
    cascadeWalk now tables sender steps visited stack engine =
      (DepthFirst.walk (descent tables engine.extended) steps visited stack).foldl
        (askMissing now tables sender) engine := by
  induction steps generalizing visited stack engine with
  | zero => rfl
  | succ steps ih =>
      cases stack with
      | nil => rfl
      | cons hash stack =>
          unfold cascadeWalk DepthFirst.walk
          by_cases seen : visited.contains hash = true
          · rw [if_pos seen, if_pos seen]
            exact ih visited stack engine
          · rw [if_neg seen, if_neg seen, List.foldl_cons]
            have asked := askMissing_extended now tables sender engine hash
            by_cases isExtended : engine.isExtended hash = true
            · have nothing : descent tables engine.extended hash = [] := if_pos isExtended
              have idle : askMissing now tables sender engine hash = engine := if_pos isExtended
              rw [if_pos isExtended, nothing, idle, List.nil_append]
              exact ih _ _ _
            · rw [if_neg isExtended]
              cases stored : tables.unit.get? hash with
              | none =>
                  have nothing : descent tables engine.extended hash = [] := by
                    rw [descent, stored, ite_self]
                  have asks : askMissing now tables sender engine hash =
                      trySendRequest now engine sender hash := by
                    rw [askMissing, if_neg isExtended, stored]
                  rw [nothing, ← asked, asks, List.nil_append]
                  exact ih _ _ _
              | some unit =>
                  have expands : descent tables engine.extended hash =
                      unit.parents.values.reverse := by
                    rw [descent, stored]
                    exact if_neg isExtended
                  have idle : askMissing now tables sender engine hash = engine := by
                    rw [askMissing, if_neg isExtended, stored]
                  rw [expands, idle]
                  exact ih _ _ _

def missing (tables : BftTables D) (extended : SortedMap UnitHash BftUnit) (top : BftUnit) :
    List UnitHash :=
  (DepthFirst.walk (descent tables extended)
    (top.parents.size + tables.unit.total (fun _ unit => unit.parents.size) + 1)
    SortedMap.empty top.parents.values.reverse).filter
      fun hash => !extended.contains hash && (tables.unit.get? hash).isNone

theorem descent_covered (tables : BftTables D) (extended : SortedMap UnitHash BftUnit) :
    ∀ hash, descent tables extended hash ≠ [] → hash ∈ tables.unit.keys.toFinset := by
  intro hash expands
  rw [List.mem_toFinset, SortedMap.mem_keys]
  cases stored : tables.unit.get? hash with
  | none =>
      refine absurd ?_ expands
      rw [descent, stored, ite_self]
  | some unit => exact ⟨unit, rfl⟩

/-- The steps of `cascade_parents` are enough for its walk. -/
theorem descent_remaining (tables : BftTables D) (extended : SortedMap UnitHash BftUnit)
    (top : BftUnit) :
    DepthFirst.remaining (descent tables extended) tables.unit.keys.toFinset SortedMap.empty
        top.parents.values.reverse <
      top.parents.size + tables.unit.total (fun _ unit => unit.parents.size) + 1 := by
  have each : ∀ hash, (descent tables extended hash).length ≤
      ((tables.unit.get? hash).map fun unit => unit.parents.size).getD 0 := by
    intro hash
    unfold descent
    split
    · exact Nat.zero_le _
    · cases tables.unit.get? hash with
      | none => exact Nat.zero_le _
      | some unit =>
          rw [List.length_reverse, SortedMap.values_length]
          exact Nat.le_refl _
  have sum : ∑ hash ∈ tables.unit.keys.toFinset with
        (SortedMap.empty : SortedSet UnitHash).contains hash = false,
        (descent tables extended hash).length ≤
      tables.unit.total fun _ unit => unit.parents.size := by
    have total : tables.unit.total (fun _ unit => unit.parents.size) =
        (tables.unit.values.map fun unit => unit.parents.size).sum := by
      unfold SortedMap.total SortedMap.values
      rw [List.map_map]
      rfl
    rw [total, SortedMap.sum_values]
    exact (Finset.sum_le_sum_of_subset (Finset.filter_subset _ _)).trans
      (Finset.sum_le_sum fun hash _ => each hash)
  unfold DepthFirst.remaining
  rw [List.length_reverse, SortedMap.values_length]
  omega

theorem mem_missing_iff (tables : BftTables D) (extended : SortedMap UnitHash BftUnit)
    (top : BftUnit) (hash : UnitHash) :
    hash ∈ missing tables extended top ↔
      (∃ parent ∈ top.parents.values,
        ReflTransGen (fun upper lower => lower ∈ descent tables extended upper) parent hash) ∧
      extended.contains hash = false ∧ tables.unit.get? hash = none := by
  rw [missing, List.mem_filter, DepthFirst.mem_walk_iff (descent_covered tables extended)
    (descent_remaining tables extended top), Bool.and_eq_true, Bool.not_eq_true',
    Option.isNone_iff_eq_none]
  simp only [List.mem_reverse]

/-! ### Requests -/

/-- Every request so far is old enough to be repeated. -/
def Unthrottled (now : Nat) (engine : Engine D) : Prop :=
  ∀ hash sentAt, engine.requestSentAt.get? hash = some sentAt →
    requestDedupInterval ≤ now - sentAt

theorem unthrottled_exists (engine : Engine D) : ∃ now, Unthrottled now engine := by
  refine ⟨engine.requestSentAt.values.sum + requestDedupInterval, ?_⟩
  intro hash sentAt found
  have bounded : sentAt ≤ engine.requestSentAt.values.sum :=
    List.le_sum_of_mem ((engine.requestSentAt.mem_values sentAt).mpr ⟨hash, found⟩)
  omega

theorem askMissing_foldl (now : Nat) (tables : BftTables D) (sender : NodeId)
    (hashes : List UnitHash) (distinct : hashes.Nodup) (engine : Engine D)
    (old : ∀ hash ∈ hashes, ∀ sentAt, engine.requestSentAt.get? hash = some sentAt →
      requestDedupInterval ≤ now - sentAt) :
    ∃ requests, hashes.foldl (askMissing now tables sender) engine =
      { engine with
        requestSentAt := requests
        network := engine.network ++ (hashes.filter fun hash =>
          !engine.extended.contains hash && (tables.unit.get? hash).isNone).map
            fun hash => (.node sender, .request hash) } := by
  induction hashes generalizing engine with
  | nil =>
      refine ⟨engine.requestSentAt, ?_⟩
      rw [List.filter_nil, List.map_nil, List.append_nil]
      rfl
  | cons hash rest ih =>
      obtain ⟨notLater, distinct⟩ := List.nodup_cons.mp distinct
      rw [List.foldl_cons, List.filter_cons]
      by_cases asks : (!engine.extended.contains hash && (tables.unit.get? hash).isNone) = true
      · rw [if_pos asks, List.map_cons]
        obtain ⟨notExtended, absent⟩ := (Bool.and_eq_true _ _).mp asks
        have sends : askMissing now tables sender engine hash =
            ({ engine with requestSentAt := engine.requestSentAt.insert hash now }.send
              (.node sender) (.request hash)) := by
          have notIn : ¬ engine.isExtended hash = true := by
            rw [isExtended, Bool.not_eq_true]
            exact (Bool.not_eq_true' _).mp notExtended
          rw [askMissing, if_neg notIn, Option.isNone_iff_eq_none.mp absent]
          simp only [trySendRequest]
          cases sent : engine.requestSentAt.get? hash with
          | none => rfl
          | some sentAt =>
              have expired := old hash List.mem_cons_self sentAt sent
              exact if_neg (by omega)
        rw [sends]
        obtain ⟨requests, foldEq⟩ := ih distinct
          ({ engine with requestSentAt := engine.requestSentAt.insert hash now }.send
            (.node sender) (.request hash)) (by
          intro other member sentAt found
          have different : hash ≠ other := fun same => notLater (same ▸ member)
          refine old other (List.mem_cons_of_mem hash member) sentAt ?_
          rw [← SortedMap.get?_insert_of_ne engine.requestSentAt now different]
          exact found)
        refine ⟨requests, ?_⟩
        rw [foldEq]
        simp only [send, List.append_assoc, List.singleton_append]
      · rw [if_neg asks]
        have idle : askMissing now tables sender engine hash = engine := by
          unfold askMissing isExtended
          split
          · rfl
          · rename_i notExtended
            split
            · rename_i absent
              refine absurd ?_ asks
              rw [absent, Bool.not_eq_true] at *
              simp [notExtended]
            · rfl
        rw [idle]
        exact ih distinct engine
          fun other member => old other (List.mem_cons_of_mem hash member)

theorem cascadeParents_asks {now : Nat} (tables : BftTables D) {engine : Engine D}
    (unthrottled : Unthrottled now engine) (sender : NodeId) (top : BftUnit) :
    ∃ requests, cascadeParents now tables engine sender top =
      { engine with
        requestSentAt := requests
        network := engine.network ++ (missing tables engine.extended top).map
          fun hash => (.node sender, .request hash) } := by
  unfold cascadeParents missing
  rw [cascadeWalk_eq]
  exact askMissing_foldl now tables sender _ (DepthFirst.walk_fresh _ _ _ _).1 engine
    fun hash _ => unthrottled hash

/-! ### Extendable units -/

def ParentOf (tables : BftTables D) (upper lower : UnitHash) : Prop :=
  ∃ unit, tables.unit.get? upper = some unit ∧ lower ∈ unit.parents.values

theorem Extendable.unfold {tables : BftTables D} {hash : UnitHash}
    (extendable : Extendable tables hash) :
    ∃ unit, tables.unit.get? hash = some unit ∧
      ∀ creator parent, unit.parents.get? creator = some parent → Extendable tables parent ∧
        ∃ body, tables.unit.get? parent = some body ∧ body.creator = creator ∧
          body.round + 1 = unit.round := by
  have closed : ExtensionClosed tables { hash | ∃ unit, tables.unit.get? hash = some unit ∧
      ∀ creator parent, unit.parents.get? creator = some parent → Extendable tables parent ∧
        ∃ body, tables.unit.get? parent = some body ∧ body.creator = creator ∧
          body.round + 1 = unit.round } := by
    intro hash unit stored parents
    refine ⟨unit, stored, ?_⟩
    intro creator parent parentAt
    obtain ⟨⟨other, otherAt, below⟩, keyed⟩ := parents creator parent parentAt
    refine ⟨?_, keyed⟩
    intro known isClosed
    exact isClosed parent other otherAt fun creator lower lowerAt =>
      ⟨(below creator lower lowerAt).1 known isClosed, (below creator lower lowerAt).2⟩
  exact extendable _ closed

theorem Extendable.parent {tables : BftTables D} {upper lower : UnitHash}
    (extendable : Extendable tables upper) (parentOf : ParentOf tables upper lower) :
    Extendable tables lower ∧ ∃ unit body, tables.unit.get? upper = some unit ∧
      tables.unit.get? lower = some body ∧ body.round + 1 = unit.round := by
  obtain ⟨unit, stored, parents⟩ := extendable.unfold
  obtain ⟨other, otherAt, named⟩ := parentOf
  rw [stored] at otherAt
  cases otherAt
  obtain ⟨creator, parentAt⟩ := (unit.parents.mem_values lower).mp named
  obtain ⟨below, body, bodyAt, _, oneBelow⟩ := parents creator lower parentAt
  exact ⟨below, unit, body, stored, bodyAt, oneBelow⟩

theorem Extendable.below {tables : BftTables D} {upper lower : UnitHash}
    (extendable : Extendable tables upper)
    (path : ReflTransGen (ParentOf tables) upper lower) : Extendable tables lower := by
  induction path with
  | refl => exact extendable
  | tail _ parentOf ih => exact (ih.parent parentOf).1

def BftTables.roundOf (tables : BftTables D) (hash : UnitHash) : Nat :=
  ((tables.unit.get? hash).map BftUnit.round).getD 0

theorem Extendable.round_lt {tables : BftTables D} {upper lower : UnitHash}
    (extendable : Extendable tables upper)
    (path : TransGen (ParentOf tables) upper lower) :
    tables.roundOf lower < tables.roundOf upper := by
  have step : ∀ {upper lower : UnitHash}, Extendable tables upper → ParentOf tables upper lower →
      tables.roundOf lower < tables.roundOf upper := by
    intro upper lower isExtendable parentOf
    obtain ⟨_, unit, body, unitAt, bodyAt, oneBelow⟩ := isExtendable.parent parentOf
    simp only [BftTables.roundOf, unitAt, bodyAt, Option.map_some, Option.getD_some]
    omega
  induction path with
  | single parentOf => exact step extendable parentOf
  | tail before parentOf ih =>
      exact (step (extendable.below before.to_reflTransGen) parentOf).trans ih

/-! ### What the receiver asks for -/

section Receiving

variable {mint : Mint D} {tables peer : BftTables D} {rounds : Rounds}
variable {extended : SortedMap UnitHash BftUnit}

theorem TablesValid.same_unit (free : mint.CollisionFree) (valid : TablesValid mint tables)
    (peerValid : TablesValid mint peer) {hash : UnitHash} {unit other : BftUnit}
    (stored : tables.unit.get? hash = some unit) (peerStored : peer.unit.get? hash = some other) :
    unit = other :=
  free.unitHash ((valid.hashed hash unit stored).trans (peerValid.hashed hash other peerStored).symm)

theorem Grounded.below_extended (free : mint.CollisionFree) (valid : TablesValid mint tables)
    (peerValid : TablesValid mint peer) (grounded : Grounded tables rounds extended)
    {upper lower : UnitHash} (path : ReflTransGen (ParentOf peer) upper lower)
    (isExtended : extended.contains upper = true) : extended.contains lower = true := by
  induction path with
  | refl => exact isExtended
  | tail _ parentOf ih =>
      obtain ⟨unit, found⟩ := (extended.contains_iff _).mp ih
      obtain ⟨other, otherAt, named⟩ := parentOf
      have same := valid.same_unit free peerValid (grounded.stored _ unit found) otherAt
      subst same
      obtain ⟨creator, parentAt⟩ := (unit.parents.mem_values _).mp named
      obtain ⟨body, bodyAt, _⟩ :=
        (parentsFed_iff extended unit).mp (grounded.fed _ unit found) creator _ parentAt
      exact (extended.contains_iff _).mpr ⟨body, bodyAt⟩

/-- The receiver asks for nothing but ancestors it lacks. -/
theorem missing_below (free : mint.CollisionFree) (valid : TablesValid mint tables)
    (peerValid : TablesValid mint peer) {root : UnitHash} {top : BftUnit}
    (extendable : Extendable peer root) (rootAt : peer.unit.get? root = some top)
    {hash : UnitHash} (asked : hash ∈ missing tables extended top) :
    TransGen (ParentOf peer) root hash ∧ tables.unit.get? hash = none := by
  obtain ⟨⟨parent, named, path⟩, notExtended, absent⟩ :=
    (mem_missing_iff tables extended top hash).mp asked
  refine ⟨?_, absent⟩
  clear notExtended absent asked
  induction path with
  | refl => exact TransGen.single ⟨top, rootAt, named⟩
  | @tail upper lower _ descends ih =>
      -- a stored unit the walk passes is the peer's unit of that hash
      obtain ⟨unit, peerAt, _⟩ := (extendable.below ih.to_reflTransGen).unfold
      refine ih.tail ⟨unit, peerAt, ?_⟩
      unfold descent at descends
      split at descends
      · cases descends
      · split at descends
        · cases descends
        · rename_i other stored
          have same := valid.same_unit free peerValid stored peerAt
          subst same
          exact List.mem_reverse.mp descends

/-- A missing ancestor lies at or below one the receiver asks for. -/
theorem missing_covers (free : mint.CollisionFree) (valid : TablesValid mint tables)
    (peerValid : TablesValid mint peer) (grounded : Grounded tables rounds extended)
    {root : UnitHash} {top : BftUnit} (rootAt : peer.unit.get? root = some top) {hash : UnitHash}
    (path : TransGen (ParentOf peer) root hash) (absent : tables.unit.get? hash = none) :
    ∃ asked ∈ missing tables extended top, ReflTransGen (ParentOf peer) asked hash := by
  obtain ⟨parent, ⟨unit, unitAt, named⟩, below⟩ := TransGen.head'_iff.mp path
  rw [rootAt] at unitAt
  cases unitAt
  have notExtended : ∀ upper, ReflTransGen (ParentOf peer) upper hash →
      extended.contains upper = false := by
    intro upper toHash
    rw [Bool.eq_false_iff]
    intro isExtended
    obtain ⟨body, found⟩ := (extended.contains_iff hash).mp
      (grounded.below_extended free valid peerValid toHash isExtended)
    rw [grounded.stored hash body found] at absent
    cases absent
  -- from a hash the walk reaches, down the path to the missing one
  have onwards : ∀ upper, ReflTransGen (ParentOf peer) upper hash →
      (∃ first ∈ top.parents.values,
        ReflTransGen (fun upper lower => lower ∈ descent tables extended upper) first upper) →
      ∃ asked ∈ missing tables extended top, ReflTransGen (ParentOf peer) asked hash := by
    intro upper toHash
    induction toHash using ReflTransGen.head_induction_on with
    | refl =>
        intro reached
        exact ⟨hash, (mem_missing_iff tables extended top hash).mpr
          ⟨reached, notExtended hash ReflTransGen.refl, absent⟩, ReflTransGen.refl⟩
    | @head upper lower parentOf toHash ih =>
        intro reached
        have waits := notExtended upper (ReflTransGen.head parentOf toHash)
        cases stored : tables.unit.get? upper with
        | none =>
            exact ⟨upper, (mem_missing_iff tables extended top upper).mpr ⟨reached, waits, stored⟩,
              ReflTransGen.head parentOf toHash⟩
        | some unit =>
            obtain ⟨other, otherAt, isParent⟩ := parentOf
            have same := valid.same_unit free peerValid stored otherAt
            subst same
            have descends : lower ∈ descent tables extended upper := by
              unfold descent
              rw [stored, waits, if_neg Bool.false_ne_true]
              exact List.mem_reverse.mpr isParent
            obtain ⟨first, isFirst, toUpper⟩ := reached
            exact ih ⟨first, isFirst, toUpper.tail descends⟩
  exact onwards parent below ⟨parent, named, ReflTransGen.refl⟩

theorem extended_of_stored (free : mint.CollisionFree) (valid : TablesValid mint tables)
    (peerValid : TablesValid mint peer) (grounded : Grounded tables rounds extended)
    (complete : Frontier tables extended fun _ => False) {root : UnitHash}
    (extendable : Extendable peer root)
    (stored : ∀ hash, ReflTransGen (ParentOf peer) root hash → ∃ unit,
      tables.unit.get? hash = some unit) : extended.contains root = true := by
  have closed : ExtensionClosed peer { hash | ReflTransGen (ParentOf peer) root hash →
      hash ∈ view extended } := by
    intro hash unit peerAt parents below
    obtain ⟨same, storedAt⟩ := stored hash below
    have isSame := valid.same_unit free peerValid storedAt peerAt
    subst isSame
    refine grounded.extensionClosed complete hash same storedAt ?_
    intro creator parent parentAt
    have parentOf : ParentOf peer hash parent :=
      ⟨same, peerAt, (same.parents.mem_values parent).mpr ⟨creator, parentAt⟩⟩
    obtain ⟨inView, body, bodyAt, keyed⟩ := parents creator parent parentAt
    obtain ⟨parentUnit, parentStored⟩ := stored parent (below.tail parentOf)
    have sameParent := valid.same_unit free peerValid parentStored bodyAt
    subst sameParent
    exact ⟨inView (below.tail parentOf), parentUnit, parentStored, keyed⟩
  exact (extended.contains_iff root).mpr (extendable _ closed ReflTransGen.refl)

end Receiving

/-! ### Deliveries -/

section Delivering

variable {setup : Setup D} {tables : BftTables D} {engine : Engine D}

theorem TablesValid.checked {mint : Mint D} (valid : TablesValid mint tables) {hash : UnitHash}
    {ev : UnitEnvelope D} (found : envelope tables hash = some (some ev)) :
    Checked mint ev ∧ mint.unitHash ev.unit = hash := by
  obtain ⟨unitAt, dataAt, signatureAt⟩ := envelope_stored found
  obtain ⟨data, dataAt', committed⟩ := valid.payload hash ev.unit unitAt
  obtain ⟨signature, signatureAt', verified⟩ := valid.signed hash ev.unit unitAt
  rw [dataAt] at dataAt'
  rw [signatureAt] at signatureAt'
  cases dataAt'
  cases signatureAt'
  exact ⟨⟨valid.admitted hash ev.unit unitAt, verified, committed⟩, valid.hashed hash ev.unit unitAt⟩

/-- A delivered unit makes the receiver ask for exactly what is missing below
it, whether it was stored before or not. -/
theorem handleMessage_asks (free : setup.CollisionFree)
    (consistent : Consistent setup.toMint tables engine) {ev : UnitEnvelope D}
    (checked : Checked setup.toMint ev) {now : Nat} (unthrottled : Unthrottled now engine)
    (node : NodeId) {outcome : Except String Unit} {engine' : Engine D} {tables' : BftTables D}
    (handled : handleMessage setup now tables engine node (.unit ev) =
      some (outcome, engine', tables')) :
    engine'.network = engine.network ++ (missing tables engine.extended ev.unit).map
      fun hash => (.node node, .request hash) := by
  obtain ⟨requests, cascadeEq⟩ := cascadeParents_asks tables unthrottled node ev.unit
  simp only [handleMessage, (validateUnit_ok ev).mpr checked, cascadeEq] at handled
  split at handled
  · cases handled
    rfl
  · rename_i notListed
    have absent := absent_of_not_listed free.unitHash consistent.valid consistent.grounded
      (fun listed => notListed (List.contains_iff_mem.mpr listed))
    rw [storeUnit_ok.mpr ⟨absent, rfl, rfl⟩] at handled
    simp only at handled
    split at handled
    · cases handled
    · rename_i drained
      cases handled
      obtain ⟨extended, extendEq, _⟩ := tryExtend_spec
        (tables.insert (setup.unitHash ev.unit) ev) (fun _ => True)
        (stored setup { engine with
          requestSentAt := requests
          network := engine.network ++ (missing tables engine.extended ev.unit).map
            fun hash => (.node node, .request hash) } ev)
        (consistent.grounded.store ev absent) (setup.unitHash ev.unit)
        (fun _ _ _ _ => Or.inr (Or.inr trivial))
      rw [extendEq] at drained
      rw [(runExtender_frame drained).network]
      rfl

end Delivering

/-! ### The exchange with a peer -/

/-- The hashes a node asked for between two of its states. -/
def requested (before after : Process D) : List UnitHash :=
  (after.engine.network.drop before.engine.network.length).filterMap fun entry =>
    match entry.2 with
    | .unit _ => none
    | .request hash => some hash

/-- A receiver, and the units the peer has been asked for or pushes. -/
structure Exchange (D : Type) where
  process : Process D
  questions : Multiset UnitHash

/-- The peer answers one of the questions with the envelope it stores, and
what the receiver asks for on its receipt is asked of the peer. -/
inductive Delivers (setup : Setup D) (peer : BftTables D) (node : NodeId) :
    Exchange D → Exchange D → Prop
  | deliver {process next : Process D} {questions : Multiset UnitHash} {hash : UnitHash}
      {ev : UnitEnvelope D} {now : Nat} (isAsked : hash ∈ questions)
      (answer : envelope peer hash = some (some ev))
      (unthrottled : Unthrottled now process.engine)
      (stepped : process.step setup (.receive now node (.unit ev)) = some next) :
      Delivers setup peer node ⟨process, questions⟩
        ⟨next, questions.erase hash + (requested process next : Multiset UnitHash)⟩

/-- `handle_request` answers with the stored envelope. -/
theorem handleRequest_answer {tables : BftTables D} {hash : UnitHash} {ev : UnitEnvelope D}
    (found : envelope tables hash = some (some ev)) (engine : Engine D) (requester : NodeId) :
    handleRequest tables engine requester hash =
      some (engine.send (.node requester) (.unit ev)) := by
  simp only [handleRequest, found]

section Exchanging

variable {setup : Setup D} {peer : BftTables D} {node : NodeId} {root : UnitHash}

/-- What one delivery changes at a standing receiver. -/
theorem Standing.delivered (free : setup.CollisionFree) {process next : Process D}
    (standing : Standing setup process) (peerValid : TablesValid setup.toMint peer)
    {hash : UnitHash} {ev : UnitEnvelope D} (answer : envelope peer hash = some (some ev))
    {now : Nat} (unthrottled : Unthrottled now process.engine)
    (stepped : process.step setup (.receive now node (.unit ev)) = some next) :
    next.committed.unit.get? hash = some ev.unit ∧
      (∀ other unit, process.committed.unit.get? other = some unit →
        next.committed.unit.get? other = some unit) ∧
      requested process next = missing process.committed process.engine.extended ev.unit := by
  obtain ⟨checked, rfl⟩ := peerValid.checked answer
  simp only [Process.step] at stepped
  split at stepped
  · cases stepped
  · rename_i handled
    cases stepped
    obtain ⟨nowStored, keeps, _⟩ := handleMessage_stores free standing.engine checked handled
    have network := handleMessage_asks free standing.engine checked unthrottled node handled
    refine ⟨nowStored, keeps, ?_⟩
    unfold requested
    simp only [network]
    rw [List.drop_left, List.filterMap_map]
    exact List.filterMap_some

/-- The receiver stands, the peer can answer every question, and whatever is
still missing lies at or below a question. -/
structure Exchange.Covered (setup : Setup D) (peer : BftTables D) (root : UnitHash)
    (state : Exchange D) : Prop where
  standing : Standing setup state.process
  within : ∀ hash ∈ state.questions, ReflTransGen (ParentOf peer) root hash
  covers : ∀ hash, ReflTransGen (ParentOf peer) root hash →
    (∃ unit, state.process.committed.unit.get? hash = some unit) ∨
      ∃ asked ∈ state.questions, ReflTransGen (ParentOf peer) asked hash

theorem Exchange.Covered.deliver (free : setup.CollisionFree)
    (peerValid : TablesValid setup.toMint peer) (extendable : Extendable peer root)
    {state next : Exchange D} (covered : state.Covered setup peer root)
    (delivers : Delivers setup peer node state next) :
    next.Covered setup peer root ∧ CutExpand (InvImage (· < ·) peer.roundOf) next.questions
      state.questions := by
  cases delivers with
  | @deliver process after questions hash ev now isAsked answer unthrottled stepped =>
      obtain ⟨nowStored, keeps, asksFor⟩ :=
        covered.standing.delivered free peerValid answer unthrottled stepped
      have toHash := covered.within hash isAsked
      have peerAt := (envelope_stored answer).1
      have asks : ∀ lower ∈ requested process after, TransGen (ParentOf peer) hash lower := by
        intro lower isRequested
        rw [asksFor] at isRequested
        exact (missing_below free covered.standing.engine.valid peerValid
          (extendable.below toHash) peerAt isRequested).1
      refine ⟨⟨covered.standing.step free stepped, ?_, ?_⟩, ?_⟩
      · intro lower isQuestion
        rcases Multiset.mem_add.mp isQuestion with old | new
        · exact covered.within lower (Multiset.mem_of_mem_erase old)
        · exact toHash.trans (asks lower (Multiset.mem_coe.mp new)).to_reflTransGen
      · intro lower below
        cases stored : after.committed.unit.get? lower with
        | some unit => exact Or.inl ⟨unit, rfl⟩
        | none =>
            refine Or.inr ?_
            have absent : process.committed.unit.get? lower = none := by
              cases before : process.committed.unit.get? lower with
              | none => rfl
              | some unit =>
                  rw [keeps lower unit before] at stored
                  cases stored
            rcases covered.covers lower below with ⟨unit, before⟩ | ⟨asked, isQuestion, path⟩
            · rw [absent] at before
              cases before
            · by_cases isDelivered : asked = hash
              · subst isDelivered
                rcases ReflTransGen.cases_head_iff.mp path with rfl | ⟨middle, first, rest⟩
                · rw [nowStored] at stored
                  cases stored
                · obtain ⟨lacks, isMissing, path⟩ := missing_covers free
                    covered.standing.engine.valid peerValid covered.standing.engine.grounded peerAt
                    (TransGen.head' first rest) absent
                  rw [← asksFor] at isMissing
                  exact ⟨lacks, Multiset.mem_add.mpr (Or.inr (Multiset.mem_coe.mpr isMissing)), path⟩
              · exact ⟨asked, Multiset.mem_add.mpr
                  (Or.inl ((Multiset.mem_erase_of_ne isDelivered).mpr isQuestion)), path⟩
      · refine ⟨requested process after, hash, ?_, ?_⟩
        · intro lower isRequested
          exact (extendable.below toHash).round_lt (asks lower (Multiset.mem_coe.mp isRequested))
        · change questions.erase hash + (requested process after : Multiset UnitHash) + {hash} =
            questions + (requested process after : Multiset UnitHash)
          rw [add_right_comm, add_comm (questions.erase hash), Multiset.singleton_add,
            Multiset.cons_erase isAsked]

/-- With no question left, everything is extended; with one, a delivery can
follow. -/
theorem Exchange.Covered.moves (free : setup.CollisionFree)
    (peerValid : TablesValid setup.toMint peer) (extendable : Extendable peer root)
    {state : Exchange D} (covered : state.Covered setup peer root) :
    (∀ hash, ReflTransGen (ParentOf peer) root hash →
      state.process.engine.extended.contains hash = true) ∨
      ∃ next, Delivers setup peer node state next := by
  obtain ⟨process, questions⟩ := state
  by_cases done : questions = 0
  · refine Or.inl ?_
    subst done
    have stored : ∀ hash, ReflTransGen (ParentOf peer) root hash → ∃ unit,
        process.committed.unit.get? hash = some unit := by
      intro hash below
      rcases covered.covers hash below with isStored | ⟨asked, impossible, _⟩
      · exact isStored
      · exact absurd impossible (Multiset.notMem_zero asked)
    have isExtended := extended_of_stored free covered.standing.engine.valid peerValid
      covered.standing.engine.grounded covered.standing.engine.complete extendable stored
    exact fun hash below => covered.standing.engine.grounded.below_extended free
      covered.standing.engine.valid peerValid below isExtended
  · refine Or.inr ?_
    obtain ⟨hash, isAsked⟩ := Multiset.exists_mem_of_ne_zero done
    obtain ⟨unit, peerAt, _⟩ := (extendable.below (covered.within hash isAsked)).unfold
    obtain ⟨data, dataAt, _⟩ := peerValid.payload hash unit peerAt
    obtain ⟨signature, signatureAt, _⟩ := peerValid.signed hash unit peerAt
    have answer : envelope peer hash = some (some { unit, data, signature }) := by
      simp only [envelope, peerAt, dataAt, signatureAt]
    obtain ⟨now, unthrottled⟩ := unthrottled_exists process.engine
    obtain ⟨outcome, engine, tables, handled, _⟩ :=
      covered.standing.receive free now node (.unit { unit, data, signature })
    exact ⟨_, Delivers.deliver isAsked answer unthrottled
      (by simp only [Process.step, handled]; rfl)⟩

end Exchanging

/-- A delivery of a unit asks for missing ancestors only, and for at least one
as long as any is missing or the unit stays unextended.  Answering what is
asked for, in any order, ends with the unit and all its ancestors extended. -/
theorem demand_pull_heals {setup : Setup D} (free : setup.CollisionFree) {process : Process D}
    (reachable : Reachable setup process) {peer : BftTables D}
    (peerValid : TablesValid setup.toMint peer) (node : NodeId) {root : UnitHash}
    (extendable : Extendable peer root) :
    (∀ now ev next, envelope peer root = some (some ev) → Unthrottled now process.engine →
      process.step setup (.receive now node (.unit ev)) = some next →
        (∀ hash ∈ requested process next, TransGen (ParentOf peer) root hash ∧
          process.committed.unit.get? hash = none) ∧
        ((∃ hash, TransGen (ParentOf peer) root hash ∧
          process.committed.unit.get? hash = none) → requested process next ≠ []) ∧
        (requested process next ≠ [] ∨ next.engine.extended.contains root = true)) ∧
    Inevitably (Delivers setup peer node) (fun state => ∀ hash,
      ReflTransGen (ParentOf peer) root hash →
        state.process.engine.extended.contains hash = true) ⟨process, {root}⟩ := by
  have standing := reachable.standing free
  constructor
  · intro now ev next answer unthrottled stepped
    obtain ⟨nowStored, keeps, asksFor⟩ :=
      standing.delivered free peerValid answer unthrottled stepped
    have rootAt := (envelope_stored answer).1
    have asksWhenMissing : (∃ hash, TransGen (ParentOf peer) root hash ∧
        process.committed.unit.get? hash = none) → requested process next ≠ [] := by
      rintro ⟨hash, path, absent⟩
      obtain ⟨asked, isMissing, _⟩ := missing_covers free standing.engine.valid peerValid
        standing.engine.grounded rootAt path absent
      rw [asksFor]
      exact List.ne_nil_of_mem isMissing
    refine ⟨?_, asksWhenMissing, ?_⟩
    · intro hash isRequested
      rw [asksFor] at isRequested
      exact missing_below free standing.engine.valid peerValid extendable rootAt isRequested
    · refine or_iff_not_imp_left.mpr ?_
      intro nothing
      have standing' := standing.step free stepped
      refine extended_of_stored free standing'.engine.valid peerValid standing'.engine.grounded
        standing'.engine.complete extendable ?_
      intro hash path
      rcases reflTransGen_iff_eq_or_transGen.mp path with rfl | below
      · exact ⟨ev.unit, nowStored⟩
      · cases stored : process.committed.unit.get? hash with
        | some unit => exact ⟨unit, keeps hash unit stored⟩
        | none => exact absurd (asksWhenMissing ⟨hash, below, stored⟩) nothing
  · have keeps : ∀ state next : Exchange D, state.Covered setup peer root →
        Delivers setup peer node state next → next.Covered setup peer root :=
      fun state next covered delivers => (covered.deliver free peerValid extendable delivers).1
    have lowers : ∀ state next : Exchange D, state.Covered setup peer root →
        Delivers setup peer node state next →
          CutExpand (InvImage (· < ·) peer.roundOf) next.questions state.questions :=
      fun state next covered delivers => (covered.deliver free peerValid extendable delivers).2
    refine Inevitably.of_measure (InvImage.wf peer.roundOf wellFounded_lt).cutExpand
      Exchange.questions keeps lowers
      (fun state covered => covered.moves free peerValid extendable) ⟨standing, ?_, ?_⟩
    · intro hash isQuestion
      rw [Multiset.mem_singleton.mp isQuestion]
    · exact fun hash path => Or.inr ⟨root, Multiset.mem_singleton_self root, path⟩

/-! A node that holds nothing is pushed the child of three round-zero units. -/

theorem demand_pull_heals_quad : ∃ peer : Process Nat, Reachable quadSetup peer ∧
    envelope peer.committed (encodeUnit (quadChild 1 1 2 3)) =
      some (some ⟨quadChild 1 1 2 3, [], 0⟩) ∧
    Inevitably (Delivers quadSetup peer.committed 1) (fun state => ∀ hash,
      ReflTransGen (ParentOf peer.committed) (encodeUnit (quadChild 1 1 2 3)) hash →
        state.process.engine.extended.contains hash = true)
      ⟨Process.start, {encodeUnit (quadChild 1 1 2 3)}⟩ := by
  have ran : (Process.start.run quadSetup quadArrivals).map (fun process =>
      (process.engine.extended.contains (encodeUnit (quadChild 1 1 2 3)),
        envelope process.committed (encodeUnit (quadChild 1 1 2 3)))) =
      some (true, some (some ⟨quadChild 1 1 2 3, [], 0⟩)) := by decide +kernel
  obtain ⟨peer, runEq, holds⟩ := Option.map_eq_some_iff.mp ran
  obtain ⟨isExtended, answers⟩ := Prod.mk.inj holds
  have reachable : Reachable quadSetup peer :=
    Process.run_runs _ (fun _ _ _ => trivial) Runs.start runEq
  have standing := reachable.standing quadMint_collisionFree
  have extendable : Extendable peer.committed (encodeUnit (quadChild 1 1 2 3)) :=
    fun known closed => standing.engine.grounded.within_closed closed
      ((peer.engine.extended.contains_iff _).mp isExtended)
  exact ⟨peer, reachable, answers, (demand_pull_heals quadMint_collisionFree Runs.start
    standing.engine.valid 1 extendable).2⟩

end Picomint.Bft
