/-
Agreement and order independence of the engines of one mint.

A process is settled in every state it reaches, so what it emitted is the
emission of all heads its stored units have.  Heads of different views agree
and only grow with the view; with them the orders extend one another.
-/

import Picomint.Bft.Restarts

namespace Picomint.Bft

open VirtualVoting BreadthFirst Engine

variable {D : Type}

/-! ### Stored rows over a run -/

/-- The rows of one database are rows of another. -/
structure SubTables (small large : BftTables D) : Prop where
  unit : ∀ hash unit, small.unit.get? hash = some unit → large.unit.get? hash = some unit
  data : ∀ hash unit, small.unit.get? hash = some unit →
    small.unitData.get? hash = large.unitData.get? hash
  signature : ∀ hash unit, small.unit.get? hash = some unit →
    small.unitSignature.get? hash = large.unitSignature.get? hash

theorem SubTables.refl (tables : BftTables D) : SubTables tables tables :=
  ⟨fun _ _ found => found, fun _ _ _ => rfl, fun _ _ _ => rfl⟩

theorem SubTables.insert {small large : BftTables D} (sub : SubTables small large)
    {hash : UnitHash} (absent : large.unit.get? hash = none) (ev : UnitEnvelope D) :
    SubTables small (large.insert hash ev) := by
  have different : ∀ other unit, small.unit.get? other = some unit → hash ≠ other := by
    intro other unit found same
    have inLarge := sub.unit other unit found
    rw [← same, absent] at inLarge
    cases inLarge
  refine ⟨?_, ?_, ?_⟩
  · intro other unit found
    rw [BftTables.insert, SortedMap.get?_insert_of_ne _ _ (different other unit found)]
    exact sub.unit other unit found
  · intro other unit found
    rw [BftTables.insert, SortedMap.get?_insert_of_ne _ _ (different other unit found)]
    exact sub.data other unit found
  · intro other unit found
    rw [BftTables.insert, SortedMap.get?_insert_of_ne _ _ (different other unit found)]
    exact sub.signature other unit found

theorem SubTables.units {small large : BftTables D} (sub : SubTables small large) :
    small.units ⊆ large.units :=
  fun _ ⟨hash, found⟩ => ⟨hash, sub.unit hash _ found⟩

theorem TablesValid.sub {mint : Mint D} {small large : BftTables D}
    (valid : TablesValid mint large) (sub : SubTables small large) : TablesValid mint small := by
  refine ⟨?_, ?_, ?_, ?_⟩
  · exact fun hash unit found => valid.hashed hash unit (sub.unit hash unit found)
  · exact fun hash unit found => valid.admitted hash unit (sub.unit hash unit found)
  · intro hash unit found
    rw [sub.data hash unit found]
    exact valid.payload hash unit (sub.unit hash unit found)
  · intro hash unit found
    rw [sub.signature hash unit found]
    exact valid.signed hash unit (sub.unit hash unit found)

theorem SingleVoiced.mono {byzantine : Finset NodeId} {small large : Set BftUnit}
    (once : SingleVoiced byzantine large) (subset : small ⊆ large) :
    SingleVoiced byzantine small :=
  fun left leftMember right rightMember =>
    once left (subset leftMember) right (subset rightMember)

/-! ### Settled processes -/

/-- The database side of a process: valid rows, the durable ones among the
committed ones, and an engine settled over them as long as honest creators own
one stored unit per round. -/
structure Orderly (setup : Setup D) {byzantine : Finset NodeId}
    (bound : byzantine.card ≤ setup.n.maxEvil) (process : Process D) : Prop where
  valid : TablesValid setup.toMint process.committed
  durable : SubTables process.durable process.committed
  settled : SingleVoiced byzantine process.committed.units →
    Settled setup.toMint bound process.committed process.engine

section Settling

variable {setup : Setup D} {byzantine : Finset NodeId}
variable {bound : byzantine.card ≤ setup.n.maxEvil} {process next : Process D}

theorem Settled.served {tables : BftTables D} {engine after : Engine D}
    (settled : Settled setup.toMint bound tables engine) (served : Served tables engine after) :
    Settled setup.toMint bound tables after := by
  obtain ⟨requests, messages, rfl, _⟩ := served
  obtain ⟨heads, order, emitted, exhausted⟩ := settled.emission
  exact ⟨settled.valid, settled.grounded, settled.complete,
    ⟨settled.caches.votes, settled.caches.decided⟩, heads, order,
    ⟨emitted.chosen, emitted.count, emitted.batches, emitted.ordered⟩, exhausted⟩

theorem Orderly.served (orderly : Orderly setup bound process) {engine : Engine D}
    (served : Served process.committed process.engine engine) :
    Orderly setup bound { process with engine := engine } :=
  ⟨orderly.valid, orderly.durable, fun once => (orderly.settled once).served served⟩

theorem Orderly.restart (free : setup.CollisionFree) {sent : List (Recipient × Message D)}
    (valid : TablesValid setup.toMint process.durable)
    (restarted : process.restart setup sent = some next) : Orderly setup bound next := by
  unfold Process.restart at restarted
  split at restarted
  · cases restarted
  · rename_i engine replayed
    cases restarted
    refine ⟨valid, SubTables.refl _, fun once => ?_⟩
    obtain ⟨found, foundEq, settled⟩ := replay_spec free bound once valid
    rw [replayed] at foundEq
    cases foundEq
    exact settled

/-- Storing a checked envelope, whatever else the engine did before it. -/
theorem Orderly.store (free : setup.CollisionFree) (orderly : Orderly setup bound process)
    {ev : UnitEnvelope D} (checked : Checked setup.toMint ev)
    (absent : process.committed.unit.get? (setup.unitHash ev.unit) = none)
    {before engine : Engine D} (served : Served process.committed process.engine before)
    (own : SortedSet Nat)
    (drained : runExtender setup (process.committed.insert (setup.unitHash ev.unit) ev)
      (tryExtend (process.committed.insert (setup.unitHash ev.unit) ev)
        { stored setup before ev with unorderedOwnData := own } (setup.unitHash ev.unit)) =
      some engine) :
    Orderly setup bound { process with
      engine := engine, committed := process.committed.insert (setup.unitHash ev.unit) ev } := by
  have grown := (SubTables.refl process.committed).insert absent ev
  refine ⟨orderly.valid.insert checked, orderly.durable.insert absent ev, fun once => ?_⟩
  have settled := (orderly.settled (once.mono grown.units)).served served
  obtain ⟨found, foundEq, settled', _⟩ := settled.advance free once checked absent own
    (advanceTop setup.id before.ownTop ev.unit (setup.unitHash ev.unit))
  have same : some found = some engine := foundEq.symm.trans drained
  cases same
  exact settled'

theorem Orderly.persist (free : setup.CollisionFree) (orderly : Orderly setup bound process)
    {data : List D} {ev : UnitEnvelope D} {engine : Engine D} {tables : BftTables D}
    (persisted : persistUnit setup data process.committed process.engine =
      some (some ev, engine, tables)) :
    Orderly setup bound { process with
      engine := engine
      committed := tables
      durable := tables
      created := process.created ++ [ev] } := by
  rcases persistUnit_cases persisted with ⟨impossible, _⟩ |
    ⟨built, parents, own, sameEv, _, _, _, checked, absent, rfl, drained, _⟩
  · cases impossible
  · cases sameEv
    have stored := orderly.store free checked absent ((Requested.refl _).served _) own drained
    exact ⟨stored.valid, SubTables.refl _, stored.settled⟩

theorem Orderly.step (free : setup.CollisionFree) (orderly : Orderly setup bound process)
    {event : Event D} (stepped : process.step setup event = some next) :
    Orderly setup bound next := by
  have durableValid := orderly.valid.sub orderly.durable
  cases event with
  | receive now sender message =>
      simp only [Process.step] at stepped
      split at stepped
      · cases stepped
      · rename_i handled
        cases stepped
        rcases handleMessage_cases handled with
          ⟨rfl, served⟩ | ⟨ev, cascaded, rfl, checked, absent, _, rfl, requested, drained⟩
        · exact orderly.served served
        · exact orderly.store free checked absent (requested.served _)
            cascaded.unorderedOwnData drained
  | interrupt now sender ev count =>
      simp only [Process.step] at stepped
      split at stepped
      · exact Orderly.restart free durableValid stepped
      · exact Orderly.restart free durableValid stepped
  | create data =>
      simp only [Process.step, tryCreateUnit] at stepped
      cases persisted : persistUnit setup data process.committed process.engine with
      | none =>
          rw [persisted] at stepped
          cases stepped
      | some result =>
          obtain ⟨built, engine, tables⟩ := result
          rw [persisted] at stepped
          cases built with
          | none =>
              cases stepped
              rcases persistUnit_cases persisted with ⟨_, rfl, rfl⟩ | ⟨_, _, _, impossible, _⟩
              · exact orderly
              · cases impossible
          | some ev =>
              cases stepped
              have created := orderly.persist free persisted
              refine ⟨created.valid, created.durable, fun once => ?_⟩
              refine (created.settled once).served ⟨engine.requestSentAt,
                [(.everyone, .unit ev)], rfl, ?_⟩
              intro entry member other isUnit
              rw [List.mem_singleton.mp member] at isUnit
              cases isUnit
              rcases persistUnit_cases persisted with ⟨impossible, _⟩ |
                ⟨built, _, _, sameEv, _, _, _, _, _, rfl, _⟩
              · cases impossible
              · cases sameEv
                exact ⟨_, SortedMap.get?_insert_self _ _ _⟩
  | interruptCreate data =>
      simp only [Process.step] at stepped
      split at stepped
      · cases stepped
      · exact Orderly.restart free durableValid stepped
      · rename_i persisted
        exact Orderly.restart free (orderly.persist free persisted).valid stepped
  | antiEntropy =>
      simp only [Process.step] at stepped
      split at stepped
      · cases stepped
      · rename_i engine broadcast
        cases stepped
        exact orderly.served (broadcastAntiEntropy_served broadcast)
  | flush =>
      cases stepped
      exact ⟨orderly.valid, SubTables.refl _, orderly.settled⟩
  | crash => exact Orderly.restart free durableValid stepped

theorem Orderly.start (free : setup.CollisionFree) : Orderly setup bound Process.start := by
  refine ⟨TablesValid.start setup, SubTables.refl _, fun once => ?_⟩
  obtain ⟨engine, replayed, settled⟩ := replay_spec free bound once (TablesValid.start setup)
  cases replayed
  exact settled

theorem Runs.orderly {guard : Process D → Event D → Prop} (runs : Runs setup guard process)
    (free : setup.CollisionFree) (bound : byzantine.card ≤ setup.n.maxEvil) :
    Orderly setup bound process := by
  induction runs with
  | start => exact Orderly.start free
  | step _ _ stepped ih => exact ih.step free stepped

end Settling

/-! ### Views of one mint -/

section Views

variable {mint : Mint D} {byzantine : Finset NodeId} {bound : byzantine.card ≤ mint.n.maxEvil}
variable {small large : BftTables D} {left right : Engine D}

theorem Settled.extends_fed (settled : Settled mint bound large right)
    {extended : SortedMap UnitHash BftUnit}
    (stored : ∀ hash unit, extended.get? hash = some unit → large.unit.get? hash = some unit)
    (fed : ∀ hash unit, extended.get? hash = some unit → parentsFed extended unit = true) :
    Keeps extended right.extended := by
  have reaches : ∀ round hash unit, unit.round < round → extended.get? hash = some unit →
      right.extended.get? hash = some unit := by
    intro round
    induction round with
    | zero =>
        intro hash unit impossible
        omega
    | succ round ih =>
        intro hash unit below found
        have parents : parentsFed right.extended unit = true := by
          have parentsFound := fed hash unit found
          rw [parentsFed_iff] at parentsFound ⊢
          intro creator parent parentAt
          obtain ⟨body, bodyAt, bodyCreator, bodyRound⟩ := parentsFound creator parent parentAt
          exact ⟨body, ih parent body (by omega) bodyAt, bodyCreator, bodyRound⟩
        have inLarge := stored hash unit found
        rcases settled.complete hash unit inLarge parents with present | impossible
        · obtain ⟨body, bodyAt⟩ := (right.extended.contains_iff hash).mp present
          have bodyStored := settled.grounded.stored hash body bodyAt
          rw [inLarge] at bodyStored
          cases bodyStored
          exact bodyAt
        · exact impossible.elim
  exact fun hash unit found => reaches (unit.round + 1) hash unit (Nat.lt_succ_self _) found

/-- What is extended over some stored units is extended over more. -/
theorem Settled.view_mono (leftSettled : Settled mint bound small left)
    (rightSettled : Settled mint bound large right) (subset : small.units ⊆ large.units) :
    Keeps left.extended right.extended := by
  refine rightSettled.extends_fed ?_ leftSettled.grounded.fed
  intro hash unit found
  have inSmall := leftSettled.grounded.stored hash unit found
  obtain ⟨other, inLarge⟩ := subset ⟨hash, inSmall⟩
  have sameHash : other = hash := by
    rw [← rightSettled.valid.hashed other unit inLarge, leftSettled.valid.hashed hash unit inSmall]
  rwa [sameHash] at inLarge

/-- Two settled views are sound together when honest creators own one unit per
round among all their stored units. -/
theorem Settled.sound_union (free : mint.CollisionFree) (leftSettled : Settled mint bound small left)
    (rightSettled : Settled mint bound large right)
    (once : SingleVoiced byzantine (small.units ∪ large.units)) :
    mint.dag.Sound (mint.n.committee byzantine bound) (view left.extended ∪ view right.extended) := by
  have leftWell := leftSettled.grounded.wellExtended leftSettled.valid
  have rightWell := rightSettled.grounded.wellExtended rightSettled.valid
  refine WellExtended.sound free byzantine bound ?_ once ?_
  · rintro hash (inLeft | inRight)
    · exact ⟨left.extended, leftWell, inLeft, Set.subset_union_left⟩
    · exact ⟨right.extended, rightWell, inRight, Set.subset_union_right⟩
  · rintro hash (⟨body, found⟩ | ⟨body, found⟩) unit isHash
    · have same := free.unitHash (isHash.trans (leftWell.hashed hash body found).symm)
      exact Or.inl ⟨hash, same ▸ leftSettled.grounded.stored hash body found⟩
    · have same := free.unitHash (isHash.trans (rightWell.hashed hash body found).symm)
      exact Or.inr ⟨hash, same ▸ rightSettled.grounded.stored hash body found⟩

theorem flatMap_prefix {α β : Type} (f : α → List β) {first second : List α}
    (extension : first <+: second) : first.flatMap f <+: second.flatMap f := by
  obtain ⟨rest, rfl⟩ := extension
  rw [List.flatMap_append]
  exact List.prefix_append _ _

theorem Emitted.prefix_of_heads {leftHeads rightHeads leftOrder rightOrder : List UnitHash}
    (leftEmitted : Emitted mint bound left leftHeads leftOrder)
    (rightEmitted : Emitted mint bound right rightHeads rightOrder)
    (extension : leftHeads <+: rightHeads) : left.orderedTx <+: right.orderedTx := by
  rw [leftEmitted.ordered, rightEmitted.ordered]
  exact flatMap_prefix _ (leftEmitted.batches.order_prefix rightEmitted.batches extension)

/-- Any two settled engines have emitted comparable sequences. -/
theorem Settled.comparable (free : mint.CollisionFree) (leftSettled : Settled mint bound small left)
    (rightSettled : Settled mint bound large right)
    (once : SingleVoiced byzantine (small.units ∪ large.units)) :
    left.orderedTx <+: right.orderedTx ∨ right.orderedTx <+: left.orderedTx := by
  obtain ⟨leftHeads, leftOrder, leftEmitted, _⟩ := leftSettled.emission
  obtain ⟨rightHeads, rightOrder, rightEmitted, _⟩ := rightSettled.emission
  have leftClosed := (leftSettled.grounded.wellExtended leftSettled.valid).closed free
  have rightClosed := (rightSettled.grounded.wellExtended rightSettled.valid).closed free
  have comparable := leftEmitted.chosen.comparable mint.dag
    (leftSettled.sound_union free rightSettled once) mint.common_three leftClosed rightClosed
    Set.subset_union_left Set.subset_union_right rightEmitted.chosen
  exact comparable.imp (leftEmitted.prefix_of_heads rightEmitted)
    (rightEmitted.prefix_of_heads leftEmitted)

theorem Settled.head_unique (free : mint.CollisionFree) (leftSettled : Settled mint bound small left)
    (rightSettled : Settled mint bound large right)
    (once : SingleVoiced byzantine (small.units ∪ large.units)) {round : Nat}
    {leftHead rightHead : UnitHash} {leftAfter rightAfter : Engine D}
    (leftChose : left.chooseHead mint round = some (some leftHead, leftAfter))
    (rightChose : right.chooseHead mint round = some (some rightHead, rightAfter)) :
    leftHead = rightHead := by
  have leftWell := leftSettled.grounded.wellExtended leftSettled.valid
  have rightWell := rightSettled.grounded.wellExtended rightSettled.valid
  have isHead : ∀ {tables : BftTables D} {engine after : Engine D} {head : UnitHash},
      Settled mint bound tables engine → SingleVoiced byzantine tables.units →
      engine.chooseHead mint round = some (some head, after) →
      mint.dag.IsHead (mint.n.committee byzantine bound) mint.common (view engine.extended)
        round head := by
    intro tables engine after head settled tablesOnce chose
    obtain ⟨result, votes, decided, chooseEq, _, isHead⟩ := chooseHead_spec free bound
      (settled.grounded.wellExtended settled.valid)
      (settled.grounded.sound free bound tablesOnce settled.valid) settled.grounded.indexed
      settled.caches round
    rw [chose] at chooseEq
    cases chooseEq
    exact (isHead head).mp rfl
  exact RoundDag.IsHead.unique mint.dag (leftSettled.sound_union free rightSettled once)
    mint.common_three (leftWell.closed free) (rightWell.closed free) Set.subset_union_left
    Set.subset_union_right (isHead leftSettled (once.mono Set.subset_union_left) leftChose)
    (isHead rightSettled (once.mono Set.subset_union_right) rightChose)

theorem Settled.allHeads (settled : Settled mint bound small left) :
    ∃ heads order, Emitted mint bound left heads order ∧
      mint.dag.AllHeadsOf (mint.n.committee byzantine bound) mint.common (view left.extended)
        heads := by
  obtain ⟨heads, order, emitted, exhausted⟩ := settled.emission
  exact ⟨heads, order, emitted, emitted.chosen, emitted.count ▸ exhausted⟩

/-- More stored units extend what was emitted. -/
theorem Settled.prefix_of_units (free : mint.CollisionFree)
    (leftSettled : Settled mint bound small left) (rightSettled : Settled mint bound large right)
    (once : SingleVoiced byzantine large.units) (subset : small.units ⊆ large.units) :
    left.orderedTx <+: right.orderedTx := by
  obtain ⟨leftHeads, leftOrder, leftEmitted, _⟩ := leftSettled.emission
  obtain ⟨rightHeads, rightOrder, rightEmitted, rightAll⟩ := rightSettled.allHeads
  have leftClosed := (leftSettled.grounded.wellExtended leftSettled.valid).closed free
  have rightClosed := (rightSettled.grounded.wellExtended rightSettled.valid).closed free
  have sound := rightSettled.grounded.sound free bound once rightSettled.valid
  exact leftEmitted.prefix_of_heads rightEmitted (RoundDag.AllHeadsOf.extends mint.dag sound
    mint.common_three leftClosed rightClosed (leftSettled.view_mono rightSettled subset).view
    (fun _ member => member) leftEmitted.chosen rightAll)

structure SameEmission (left right : Engine D) : Prop where
  orderedTx : left.orderedTx = right.orderedTx
  emitted : left.emitted = right.emitted
  nextDecideRound : left.nextDecideRound = right.nextDecideRound

theorem Settled.same_emission (free : mint.CollisionFree)
    (leftSettled : Settled mint bound small left) (rightSettled : Settled mint bound large right)
    (once : SingleVoiced byzantine large.units) (same : small.units = large.units) :
    SameEmission left right := by
  obtain ⟨leftHeads, leftOrder, leftEmitted, leftAll⟩ := leftSettled.allHeads
  obtain ⟨rightHeads, rightOrder, rightEmitted, rightAll⟩ := rightSettled.allHeads
  have leftClosed := (leftSettled.grounded.wellExtended leftSettled.valid).closed free
  have sound := rightSettled.grounded.sound free bound once rightSettled.valid
  have sameView : view left.extended = view right.extended :=
    Set.Subset.antisymm (leftSettled.view_mono rightSettled same.subset).view
      (rightSettled.view_mono leftSettled same.superset).view
  rw [sameView] at leftAll leftClosed
  have sameHeads := RoundDag.AllHeadsOf.unique mint.dag sound mint.common_three leftClosed
    (fun _ member => member) leftAll rightAll
  subst sameHeads
  obtain ⟨sameOrder, sameMarks⟩ := leftEmitted.batches.unique rightEmitted.batches
  exact ⟨by rw [leftEmitted.ordered, rightEmitted.ordered, sameOrder], sameMarks,
    by rw [← leftEmitted.count, ← rightEmitted.count]⟩

end Views

/-! ### Agreement of two engines -/

/-- The signing assumption: what verifies for an honest creator was signed by
it, and an honest creator signs at most one unit per round. -/
structure HonestSigners (mint : Mint D) (byzantine : Finset NodeId) (signed : Set BftUnit) :
    Prop where
  unforgeable : ∀ unit signature, unit.creator ∉ byzantine →
    mint.verify mint.session unit signature unit.creator = true → unit ∈ signed
  once : SingleVoiced byzantine signed

theorem HonestSigners.singleVoiced {mint : Mint D} {byzantine : Finset NodeId}
    {signed : Set BftUnit} (signers : HonestSigners mint byzantine signed) {units : Set BftUnit}
    (verified : ∀ unit ∈ units, ∃ signature,
      mint.verify mint.session unit signature unit.creator = true) :
    SingleVoiced byzantine units := by
  intro left leftMember right rightMember honest sameCreator sameRound
  obtain ⟨leftSignature, leftVerified⟩ := verified left leftMember
  obtain ⟨rightSignature, rightVerified⟩ := verified right rightMember
  exact signers.once left (signers.unforgeable left leftSignature honest leftVerified)
    right (signers.unforgeable right rightSignature (sameCreator ▸ honest) rightVerified)
    honest sameCreator sameRound

theorem TablesValid.verified {mint : Mint D} {tables : BftTables D}
    (valid : TablesValid mint tables) : ∀ unit ∈ tables.units, ∃ signature,
      mint.verify mint.session unit signature unit.creator = true := by
  rintro unit ⟨hash, inTable⟩
  obtain ⟨signature, _, verified⟩ := valid.signed hash unit inTable
  exact ⟨signature, verified⟩

/-- Agreement: at any two moments one engine's ordered items extend the
other's, and two engines that choose a head for a round choose the same one.
Inside a step an engine has sent a prefix of what it has sent after it. -/
theorem ordered_agree {left right : Setup D} (sameMint : left.toMint = right.toMint)
    (free : left.CollisionFree) {byzantine : Finset NodeId}
    (bound : byzantine.card ≤ left.n.maxEvil) {signed : Set BftUnit}
    (signers : HonestSigners left.toMint byzantine signed) {first second : Process D}
    (firstRuns : Reachable left first) (secondRuns : Reachable right second) :
    (∀ firstSent secondSent, firstSent <+: first.engine.orderedTx →
      secondSent <+: second.engine.orderedTx →
        firstSent <+: secondSent ∨ secondSent <+: firstSent) ∧
    ∀ round firstHead secondHead firstAfter secondAfter,
      first.engine.chooseHead left.toMint round = some (some firstHead, firstAfter) →
      second.engine.chooseHead right.toMint round = some (some secondHead, secondAfter) →
        firstHead = secondHead := by
  obtain ⟨mint, id, sign⟩ := left
  obtain ⟨rightMint, rightId, rightSign⟩ := right
  cases sameMint
  have firstOrderly := firstRuns.orderly free bound
  have secondOrderly : Orderly ⟨mint, rightId, rightSign⟩ bound second :=
    secondRuns.orderly free bound
  have once : SingleVoiced byzantine (first.committed.units ∪ second.committed.units) :=
    signers.singleVoiced fun unit member =>
      member.elim (firstOrderly.valid.verified unit) (secondOrderly.valid.verified unit)
  have firstSettled := firstOrderly.settled (once.mono Set.subset_union_left)
  have secondSettled := secondOrderly.settled (once.mono Set.subset_union_right)
  refine ⟨?_, ?_⟩
  · intro firstSent secondSent firstPrefix secondPrefix
    rcases firstSettled.comparable free secondSettled once with extends_ | extends_
    · exact List.prefix_or_prefix_of_prefix (firstPrefix.trans extends_) secondPrefix
    · exact List.prefix_or_prefix_of_prefix firstPrefix (secondPrefix.trans extends_)
  · intro round firstHead secondHead firstAfter secondAfter firstChose secondChose
    exact firstSettled.head_unique free secondSettled once firstChose secondChose

theorem forkMint_signers :
    HonestSigners forkMint {3} (Set.range fun key : Nat × NodeId => forkUnit key.1 key.2) := by
  refine ⟨?_, ?_⟩
  · intro unit signature honest verified
    rcases of_decide_eq_true verified with isByzantine | isHonest
    · exact absurd (Finset.mem_singleton.mpr isByzantine) honest
    · exact ⟨(unit.round, unit.creator), isHonest.symm⟩
  · rintro _ ⟨first, rfl⟩ _ ⟨second, rfl⟩ _ sameCreator sameRound
    rw [show first = second from Prod.ext sameRound sameCreator]

/-- Node 0 before its last emissions against node 1 after them, over a mint
whose fourth node forks. -/
theorem ordered_agree_sample :
    ∃ first second : Process Nat, Reachable (forkSetup 0) first ∧ Reachable (forkSetup 1) second ∧
      first.engine.orderedTx = [(0, 3, 100), (0, 2, 9), (0, 1, 8), (0, 0, 7)] ∧
      second.engine.orderedTx = [(0, 3, 100), (0, 2, 9), (0, 1, 8), (0, 0, 7), (0, 3, 200),
        (2, 0, 17)] ∧
      first.engine.orderedTx <+: second.engine.orderedTx := by
  have firstEq : (Process.start.run (forkSetup 0) (firstEvents 4)).map
      (fun last => last.engine.orderedTx) =
        some [(0, 3, 100), (0, 2, 9), (0, 1, 8), (0, 0, 7)] := by decide +kernel
  have secondEq : (Process.start.run (forkSetup 1) (secondEvents 4)).map
      (fun last => last.engine.orderedTx) =
        some [(0, 3, 100), (0, 2, 9), (0, 1, 8), (0, 0, 7), (0, 3, 200), (2, 0, 17)] := by
    decide +kernel
  obtain ⟨first, firstRan, firstOrder⟩ := Option.map_eq_some_iff.mp firstEq
  obtain ⟨second, secondRan, secondOrder⟩ := Option.map_eq_some_iff.mp secondEq
  have firstRuns : Reachable (forkSetup 0) first :=
    Process.run_runs _ (fun _ _ _ => trivial) Runs.start firstRan
  have secondRuns : Reachable (forkSetup 1) second :=
    Process.run_runs _ (fun _ _ _ => trivial) Runs.start secondRan
  have agree := @ordered_agree Nat (forkSetup 0) (forkSetup 1) rfl forkMint_collisionFree
    {3} (by decide) _ forkMint_signers _ _ firstRuns secondRuns
  refine ⟨first, second, firstRuns, secondRuns, firstOrder, secondOrder, ?_⟩
  rcases agree.1 _ _ List.prefix_rfl List.prefix_rfl with extends_ | reversed
  · exact extends_
  · rw [firstOrder, secondOrder] at reversed
    exact absurd reversed.length_le (by decide)

end Picomint.Bft
