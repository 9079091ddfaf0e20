/-
The bookkeeping of own items that await their ordering.

Every stored own unit that carries items and has not been emitted keeps its
round in `unordered_own_data`: creation and replay insert the round, and only
the emission of the one own unit of the round removes it.
-/

import Picomint.Bft.Restarts

namespace Picomint.Bft

open Engine BreadthFirst

variable {D : Type}

/-- The rounds of own units whose items are not emitted are waited for. -/
def Tracked (setup : Setup D) (tables : BftTables D) (engine : Engine D) : Prop :=
  ∀ hash unit, tables.unit.get? hash = some unit → unit.creator = setup.id →
    unit.data.isSome = true → engine.emitted.contains hash = false →
    engine.unorderedOwnData.contains unit.round = true

def OneOwn (setup : Setup D) (tables : BftTables D) : Prop :=
  ∀ hash unit other body, tables.unit.get? hash = some unit → tables.unit.get? other = some body →
    unit.creator = setup.id → body.creator = setup.id → unit.round = body.round → hash = other

theorem OwnChain.oneOwn {setup : Setup D} {tables : BftTables D}
    {created : List (UnitEnvelope D)} (chain : OwnChain setup tables created) :
    OneOwn setup tables := by
  intro hash unit other body found otherFound own otherOwn sameRound
  obtain ⟨isHash, first, firstCreated, firstIs⟩ := chain.complete hash unit found own
  obtain ⟨otherHash, second, secondCreated, secondIs⟩ := chain.complete other body otherFound otherOwn
  have same := chain.unique firstCreated secondCreated (by rw [firstIs, secondIs, sameRound])
  rw [isHash, otherHash, ← firstIs, ← secondIs, same]

/-! ### The extender -/

section Extender

variable {setup : Setup D} {tables : BftTables D} {engine after : Engine D}

/-- Election only fills the caches. -/
theorem decide_caches {candidate : UnitHash} {result : Option Bool}
    (decided : engine.decide setup.toMint candidate = some (result, after)) :
    after.emitted = engine.emitted ∧ after.unorderedOwnData = engine.unorderedOwnData := by
  unfold Engine.decide at decided
  split at decided
  · cases decided
    exact ⟨rfl, rfl⟩
  · split at decided
    · cases decided
    · split at decided
      · cases decided
      · cases decided
        exact ⟨rfl, rfl⟩
      · cases decided
        exact ⟨rfl, rfl⟩

theorem walkCandidates_caches (candidates : List UnitHash) {result : Option UnitHash}
    (walked : engine.walkCandidates setup.toMint candidates = some (result, after)) :
    after.emitted = engine.emitted ∧ after.unorderedOwnData = engine.unorderedOwnData := by
  induction candidates generalizing engine with
  | nil =>
      cases walked
      exact ⟨rfl, rfl⟩
  | cons candidate rest inductionHypothesis =>
      unfold walkCandidates at walked
      split at walked
      · cases walked
      · rename_i decided
        cases walked
        exact decide_caches decided
      · rename_i decided
        obtain ⟨emitted, own⟩ := decide_caches decided
        obtain ⟨emitted', own'⟩ := inductionHypothesis walked
        exact ⟨emitted'.trans emitted, own'.trans own⟩
      · rename_i decided
        cases walked
        exact decide_caches decided

theorem chooseHead_caches {round : Nat} {result : Option UnitHash}
    (chose : engine.chooseHead setup.toMint round = some (result, after)) :
    after.emitted = engine.emitted ∧ after.unorderedOwnData = engine.unorderedOwnData := by
  unfold chooseHead at chose
  split at chose
  · cases chose
    exact ⟨rfl, rfl⟩
  · exact walkCandidates_caches _ chose

theorem bfsBatch_marked {head : UnitHash} {batch : List UnitHash}
    (searched : engine.bfsBatch head = some (batch, after)) :
    after.unorderedOwnData = engine.unorderedOwnData ∧
      (∀ hash, engine.emitted.contains hash = true → after.emitted.contains hash = true) ∧
      ∀ hash ∈ batch, after.emitted.contains hash = true := by
  unfold bfsBatch at searched
  split at searched
  · cases searched
  · split at searched
    · cases searched
    · rename_i found
      cases searched
      obtain ⟨keeps, marks⟩ := search_marked (by
        intro hash member
        rw [List.nil_append, List.mem_singleton] at member
        exact (engine.emitted.contains_insert head hash ⟨⟩).mpr (Or.inl member.symm)) found
      refine ⟨rfl, ?_, ?_⟩
      · intro hash emitted
        exact keeps hash ((engine.emitted.contains_insert head hash ⟨⟩).mpr (Or.inr emitted))
      · exact fun hash member => marks hash (List.mem_reverse.mp member)

theorem Tracked.marked (tracked : Tracked setup tables engine)
    (sameOwn : after.unorderedOwnData = engine.unorderedOwnData)
    (keeps : ∀ hash, engine.emitted.contains hash = true → after.emitted.contains hash = true) :
    Tracked setup tables after := by
  intro hash unit found own hasData unmarked
  rw [sameOwn]
  refine tracked hash unit found own hasData ?_
  rw [Bool.eq_false_iff]
  intro before
  rw [keeps hash before] at unmarked
  cases unmarked

/-- Emitting a unit that is marked removes no round another own unit waits
for. -/
theorem Tracked.emitUnit (tracked : Tracked setup tables engine) (once : OneOwn setup tables)
    (stored : ∀ hash unit, engine.extended.get? hash = some unit →
      tables.unit.get? hash = some unit) {hash : UnitHash}
    (marked : engine.emitted.contains hash = true)
    (emitted : engine.emitUnit setup tables hash = some after) :
    Tracked setup tables after ∧ after.emitted = engine.emitted ∧
      after.extended = engine.extended := by
  unfold Engine.emitUnit at emitted
  split at emitted
  · rename_i unit data unitAt dataAt
    cases emitted
    refine ⟨?_, rfl, rfl⟩
    intro other body found own hasData unmarked
    have waits := tracked other body found own hasData unmarked
    simp only
    split
    · rename_i isOwn
      rw [SortedMap.contains, SortedMap.get?_erase_of_ne]
      · exact waits
      · intro sameRound
        have same := once hash unit other body (stored hash unit unitAt) found isOwn own sameRound
        rw [← same, marked] at unmarked
        cases unmarked
    · exact waits
  · cases emitted

theorem Tracked.emitBatch (tracked : Tracked setup tables engine) (once : OneOwn setup tables)
    (stored : ∀ hash unit, engine.extended.get? hash = some unit →
      tables.unit.get? hash = some unit) (batch : List UnitHash)
    (marked : ∀ hash ∈ batch, engine.emitted.contains hash = true)
    (emitted : engine.emitBatch setup tables batch = some after) :
    Tracked setup tables after := by
  induction batch generalizing engine with
  | nil =>
      cases emitted
      exact tracked
  | cons hash rest inductionHypothesis =>
      unfold Engine.emitBatch at emitted
      split at emitted
      · cases emitted
      · rename_i unitEmitted
        obtain ⟨tracked', sameMarks, sameExtended⟩ :=
          tracked.emitUnit once stored (marked hash List.mem_cons_self) unitEmitted
        apply inductionHypothesis tracked' _ _ emitted
        · rw [sameExtended]
          exact stored
        · rw [sameMarks]
          exact fun other member => marked other (List.mem_cons_of_mem hash member)

theorem Tracked.drainHeads (once : OneOwn setup tables) (steps : Nat)
    (tracked : Tracked setup tables engine)
    (stored : ∀ hash unit, engine.extended.get? hash = some unit →
      tables.unit.get? hash = some unit)
    (drained : engine.drainHeads setup tables steps = some after) :
    Tracked setup tables after := by
  induction steps generalizing engine with
  | zero => cases drained
  | succ steps inductionHypothesis =>
      unfold Engine.drainHeads at drained
      split at drained
      · cases drained
      · rename_i chosen
        cases drained
        obtain ⟨emitted, own⟩ := chooseHead_caches chosen
        exact tracked.marked own (fun hash before => by rwa [emitted])
      · rename_i chose
        obtain ⟨emitted, own⟩ := chooseHead_caches chose
        have sameIndexes := chooseHead_frame chose
        split at drained
        · cases drained
        · rename_i searched
          obtain ⟨sameOwn, keeps, marks⟩ := bfsBatch_marked searched
          have sameExtended := (sameIndexes.trans (bfsBatch_frame searched)).extended
          split at drained
          · cases drained
          · rename_i batchEmitted
            have searchedTracked := tracked.marked (sameOwn.trans own)
              (fun hash before => keeps hash (by rwa [emitted]))
            have batchTracked := searchedTracked.emitBatch once (by rw [sameExtended]; exact stored)
              _ marks batchEmitted
            have batchIndexes := emitBatch_frame _ batchEmitted
            refine inductionHypothesis ?_ ?_ drained
            · exact batchTracked
            · rw [batchIndexes.extended, sameExtended]
              exact stored

theorem Tracked.runExtender (tracked : Tracked setup tables engine) (once : OneOwn setup tables)
    (stored : ∀ hash unit, engine.extended.get? hash = some unit →
      tables.unit.get? hash = some unit)
    (drained : engine.runExtender setup tables = some after) : Tracked setup tables after :=
  Tracked.drainHeads once _ tracked stored drained

end Extender

/-! ### The steps of a process -/

section Steps

variable {setup : Setup D} {tables : BftTables D}

theorem sweep_work (tables : BftTables D) (candidates : List UnitHash) (engine : Engine D) :
    (sweep tables candidates engine).2.emitted = engine.emitted ∧
      (sweep tables candidates engine).2.unorderedOwnData = engine.unorderedOwnData := by
  induction candidates generalizing engine with
  | nil => exact ⟨rfl, rfl⟩
  | cons candidate rest inductionHypothesis =>
      simp only [sweep]
      rcases maybeExtend_spec tables engine candidate with ⟨_, _, _, extendEq⟩ | ⟨extendEq, _⟩
      · rw [extendEq]
        exact inductionHypothesis _
      · rw [extendEq]
        exact inductionHypothesis _

theorem sweepFrom_work (tables : BftTables D) (steps round : Nat) (engine : Engine D) :
    (sweepFrom tables steps round engine).emitted = engine.emitted ∧
      (sweepFrom tables steps round engine).unorderedOwnData = engine.unorderedOwnData := by
  induction steps generalizing round engine with
  | zero => exact ⟨rfl, rfl⟩
  | succ steps inductionHypothesis =>
      obtain ⟨emitted, own⟩ := sweep_work tables (roundUnits engine.rounds round) engine
      simp only [sweepFrom]
      split
      · obtain ⟨emitted', own'⟩ := inductionHypothesis (round + 1)
          (sweep tables (roundUnits engine.rounds round) engine).2
        exact ⟨emitted'.trans emitted, own'.trans own⟩
      · exact ⟨emitted, own⟩

theorem tryExtend_work (tables : BftTables D) (engine : Engine D) (hash : UnitHash) :
    (tryExtend tables engine hash).emitted = engine.emitted ∧
      (tryExtend tables engine hash).unorderedOwnData = engine.unorderedOwnData := by
  unfold tryExtend
  rcases maybeExtend_spec tables engine hash with ⟨_, _, _, extendEq⟩ | ⟨extendEq, _⟩
  · rw [extendEq]
    exact sweepFrom_work _ _ _ _
  · rw [extendEq]
    exact ⟨rfl, rfl⟩

/-- Extending and draining over unchanged rows. -/
theorem Tracked.advance {engine after : Engine D} {hash : UnitHash}
    (tracked : Tracked setup tables engine) (once : OneOwn setup tables)
    (stored : ∀ hash unit, after.extended.get? hash = some unit →
      tables.unit.get? hash = some unit)
    (drained : (tryExtend tables engine hash).runExtender setup tables = some after) :
    Tracked setup tables after := by
  obtain ⟨emitted, own⟩ := tryExtend_work tables engine hash
  have extended : Tracked setup tables (tryExtend tables engine hash) :=
    tracked.marked own (fun _ before => by rwa [emitted])
  refine extended.runExtender once ?_ drained
  rw [← (runExtender_frame drained).extended]
  exact stored

theorem indexRows_work (rows : List (UnitHash × BftUnit)) (engine : Engine D) :
    (rows.foldl (indexRow setup) engine).emitted = engine.emitted ∧
      (∀ round, engine.unorderedOwnData.contains round = true →
        (rows.foldl (indexRow setup) engine).unorderedOwnData.contains round = true) ∧
      ∀ row ∈ rows, row.2.creator = setup.id → row.2.data.isSome = true →
        (rows.foldl (indexRow setup) engine).unorderedOwnData.contains row.2.round = true := by
  induction rows generalizing engine with
  | nil =>
      refine ⟨rfl, fun _ => id, ?_⟩
      intro row impossible
      cases impossible
  | cons first rest inductionHypothesis =>
      obtain ⟨emitted, keeps, listed⟩ := inductionHypothesis (indexRow setup engine first)
      have grows : ∀ round, engine.unorderedOwnData.contains round = true →
          (indexRow setup engine first).unorderedOwnData.contains round = true := by
        intro round before
        simp only [indexRow]
        split
        · exact (SortedMap.contains_insert _ _ _ _).mpr (Or.inr before)
        · exact before
      refine ⟨emitted, fun round before => keeps round (grows round before), ?_⟩
      intro row member own hasData
      rcases List.mem_cons.mp member with isFirst | later
      · subst isFirst
        refine keeps _ ?_
        simp only [indexRow]
        rw [if_pos ⟨own, hasData⟩]
        exact (SortedMap.contains_insert _ _ _ _).mpr (Or.inl rfl)
      · exact listed row later own hasData

theorem rebuild_tracked : Tracked setup tables (rebuild setup tables) := by
  have extends' : ∀ (roots : List UnitHash) (engine : Engine D),
      (roots.foldl (tryExtend tables) engine).unorderedOwnData = engine.unorderedOwnData := by
    intro roots
    induction roots with
    | nil => exact fun _ => rfl
    | cons root rest inductionHypothesis =>
        intro engine
        rw [List.foldl_cons, inductionHypothesis]
        exact (tryExtend_work tables engine root).2
  intro hash unit found own hasData _
  unfold rebuild
  simp only
  rw [extends']
  exact (indexRows_work tables.unit.rows Engine.new).2.2 (hash, unit)
    ((tables.unit.mem_rows hash unit).mpr found) own hasData

theorem replay_tracked {engine : Engine D} (valid : TablesValid setup.toMint tables)
    (once : OneOwn setup tables) (replayed : replay setup tables = some engine) :
    Tracked setup tables engine := by
  obtain ⟨grounded, _, _⟩ := replay_frame valid replayed
  refine rebuild_tracked.runExtender once ?_ replayed
  rw [← (runExtender_frame replayed).extended]
  exact grounded.stored

variable {process next : Process D}

theorem restart_tracked {sent : List (Recipient × Message D)}
    (valid : TablesValid setup.toMint process.durable)
    (chain : OwnChain setup process.durable process.created)
    (restarted : process.restart setup sent = some next) :
    Tracked setup next.committed next.engine := by
  unfold Process.restart at restarted
  split at restarted
  · cases restarted
  · rename_i engine replayed
    cases restarted
    exact replay_tracked valid chain.oneOwn replayed

theorem Tracked.store {engine before : Engine D} {ev : UnitEnvelope D} {own : SortedSet Nat}
    (tracked : Tracked setup tables engine) (sameMarks : before.emitted = engine.emitted)
    (sameOwn : before.unorderedOwnData = own)
    (keeps : ∀ round, engine.unorderedOwnData.contains round = true → own.contains round = true)
    (waits : ev.unit.creator = setup.id → ev.unit.data.isSome = true →
      own.contains ev.unit.round = true) :
    Tracked setup (tables.insert (setup.unitHash ev.unit) ev) before := by
  intro hash unit found isOwn hasData unmarked
  rw [sameOwn]
  rw [BftTables.insert, SortedMap.get?_insert] at found
  split at found
  · cases found
    exact waits isOwn hasData
  · exact keeps _ (tracked hash unit found isOwn hasData (by rwa [sameMarks] at unmarked))

/-- In every state of a process the unordered own items are waited for. -/
theorem Runs.tracked (runs : Runs setup (Authentic setup) process) :
    Tracked setup process.committed process.engine := by
  induction runs with
  | start =>
      intro hash unit impossible
      cases impossible
  | @step process next event before authentic stepped inductionHypothesis =>
      have intact := before.intact
      have after := (Runs.step before authentic stepped).intact
      cases event with
      | receive now sender message =>
          simp only [Process.step] at stepped
          split at stepped
          · cases stepped
          · rename_i handled
            cases stepped
            rcases handleMessage_cases handled with
              ⟨sameTables, served⟩ | ⟨ev, cascaded, isUnit, checked, absent, _, grown, requested,
                drained⟩
            · obtain ⟨_, _, same, _⟩ := served
              subst sameTables same
              exact inductionHypothesis
            · subst isUnit grown
              obtain ⟨_, _, same, _⟩ := requested
              subst same
              refine Tracked.advance ?_ after.chain.oneOwn after.grounded.stored drained
              refine inductionHypothesis.store rfl rfl (fun _ => id) ?_
              intro own _
              obtain ⟨entry, member, sentEv, isSent, same⟩ := authentic own (own ▸ checked.signed)
              have inTable := intact.sent_stored member isSent (same ▸ own)
              rw [same, absent] at inTable
              cases inTable
      | interrupt now sender ev count =>
          simp only [Process.step] at stepped
          split at stepped
          · exact restart_tracked intact.durableValid intact.durableChain stepped
          · exact restart_tracked intact.durableValid intact.durableChain stepped
      | create data =>
          simp only [Process.step, tryCreateUnit] at stepped
          cases persisted : persistUnit setup data process.committed process.engine with
          | none =>
              rw [persisted] at stepped
              cases stepped
          | some result =>
              obtain ⟨built, engine, tables⟩ := result
              rw [persisted] at stepped
              rcases persistUnit_cases persisted with ⟨isNone, sameEngine, sameTables⟩ |
                ⟨ev, parents, own, isSome, unitEq, _, _, _, _, grown, drained, isOwn⟩
              · subst isNone sameEngine sameTables
                cases stepped
                exact inductionHypothesis
              · subst isSome grown
                cases stepped
                have waiting : Tracked setup (process.committed.insert (setup.unitHash ev.unit) ev)
                    { stored setup process.engine ev with unorderedOwnData := own } := by
                  refine inductionHypothesis.store rfl rfl ?_ ?_
                  · intro round contained
                    rw [isOwn]
                    split
                    · exact (SortedMap.contains_insert _ _ _ _).mpr (Or.inr contained)
                    · exact contained
                  · intro _ hasData
                    rw [isOwn, if_pos hasData, unitEq]
                    exact (SortedMap.contains_insert _ _ _ _).mpr (Or.inl rfl)
                have built : Tracked setup (process.committed.insert (setup.unitHash ev.unit) ev)
                    engine := waiting.advance after.chain.oneOwn after.grounded.stored drained
                exact built
      | interruptCreate data =>
          simp only [Process.step] at stepped
          split at stepped
          · cases stepped
          · exact restart_tracked intact.durableValid intact.durableChain stepped
          · rename_i persisted
            have persistedIntact := (intact.persist persisted).1
            exact restart_tracked persistedIntact.durableValid persistedIntact.durableChain stepped
      | antiEntropy =>
          simp only [Process.step] at stepped
          split at stepped
          · cases stepped
          · rename_i broadcast
            cases stepped
            obtain ⟨_, _, same, _⟩ := broadcastAntiEntropy_served broadcast
            subst same
            exact inductionHypothesis
      | flush =>
          cases stepped
          exact inductionHypothesis
      | crash => exact restart_tracked intact.durableValid intact.durableChain stepped

end Steps

end Picomint.Bft
