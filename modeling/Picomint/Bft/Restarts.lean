/-
One process never sends two own units of one round, across crashes.

The created units are the own rows of the durable tables and of the committed
ones, one per round and chained by their self-parents.  Every path that sends
a unit reads the committed rows, and the own top is always the last created
unit.
-/

import Picomint.Bft.Process

namespace Picomint.Bft

open Engine

variable {D : Type}

/-- Unforgeability of the own key: a unit of ours that comes back verifying
is one we sent. -/
def Authentic (setup : Setup D) (process : Process D) : Event D → Prop
  | .receive _ _ (.unit ev) => ev.unit.creator = setup.id →
      setup.verify setup.session ev.unit ev.signature setup.id = true →
        ∃ entry ∈ process.network, ∃ own : UnitEnvelope D, entry.2 = .unit own ∧ own.unit = ev.unit
  | _ => True

/-- The created units are the own rows of the tables, one per round, each
naming its predecessor. -/
structure OwnChain (setup : Setup D) (tables : BftTables D) (created : List (UnitEnvelope D)) :
    Prop where
  stored : ∀ ev ∈ created, tables.unit.get? (setup.unitHash ev.unit) = some ev.unit
  complete : ∀ hash unit, tables.unit.get? hash = some unit → unit.creator = setup.id →
    hash = setup.unitHash unit ∧ ∃ ev ∈ created, ev.unit = unit
  checked : ∀ ev ∈ created, Checked setup.toMint ev ∧ ev.unit.creator = setup.id
  round : ∀ (index : Nat) (ev : UnitEnvelope D), created[index]? = some ev → ev.unit.round = index
  parent : ∀ (index : Nat) (ev next : UnitEnvelope D), created[index]? = some ev →
    created[index + 1]? = some next → next.unit.parents.get? setup.id = some (setup.unitHash ev.unit)

theorem OwnChain.start (setup : Setup D) : OwnChain setup BftTables.empty [] := by
  refine ⟨?_, ?_, ?_, ?_, ?_⟩
  · intro ev impossible
    cases impossible
  · intro hash unit impossible
    cases impossible
  · intro ev impossible
    cases impossible
  · intro index ev impossible
    cases impossible
  · intro index ev next impossible
    cases impossible

section Chain

variable {setup : Setup D} {tables : BftTables D} {created : List (UnitEnvelope D)}

theorem OwnChain.stored_insert (chain : OwnChain setup tables created) {ev : UnitEnvelope D}
    (absent : tables.unit.get? (setup.unitHash ev.unit) = none) :
    ∀ own ∈ created, (tables.insert (setup.unitHash ev.unit) ev).unit.get?
      (setup.unitHash own.unit) = some own.unit := by
  intro own member
  have inTable := chain.stored own member
  rw [BftTables.insert, SortedMap.get?_insert_of_ne, inTable]
  intro same
  rw [same, inTable] at absent
  cases absent

theorem OwnChain.insert_foreign (chain : OwnChain setup tables created) {ev : UnitEnvelope D}
    (absent : tables.unit.get? (setup.unitHash ev.unit) = none)
    (foreign : ev.unit.creator ≠ setup.id) :
    OwnChain setup (tables.insert (setup.unitHash ev.unit) ev) created := by
  refine ⟨chain.stored_insert absent, ?_, chain.checked, chain.round, chain.parent⟩
  intro hash unit inTable own
  rw [BftTables.insert, SortedMap.get?_insert] at inTable
  split at inTable
  · cases inTable
    exact absurd own foreign
  · exact chain.complete hash unit inTable own

theorem OwnChain.insert_own (chain : OwnChain setup tables created) {ev : UnitEnvelope D}
    (absent : tables.unit.get? (setup.unitHash ev.unit) = none) (checked : Checked setup.toMint ev)
    (own : ev.unit.creator = setup.id) (next : ev.unit.round = created.length)
    (named : ∀ last, created.getLast? = some last →
      ev.unit.parents.get? setup.id = some (setup.unitHash last.unit)) :
    OwnChain setup (tables.insert (setup.unitHash ev.unit) ev) (created ++ [ev]) := by
  have positions : ∀ index other, (created ++ [ev])[index]? = some other →
      created[index]? = some other ∨ (index = created.length ∧ ev = other) := by
    intro index other found
    rcases Nat.lt_or_ge index created.length with within | beyond
    · rw [List.getElem?_append_left within] at found
      exact Or.inl found
    · rw [List.getElem?_append_right beyond, List.getElem?_singleton] at found
      split at found
      · exact Or.inr ⟨by omega, Option.some.inj found⟩
      · cases found
  refine ⟨?_, ?_, ?_, ?_, ?_⟩
  · intro other member
    rcases List.mem_append.mp member with old | new
    · exact chain.stored_insert absent other old
    · rw [List.mem_singleton.mp new]
      exact SortedMap.get?_insert_self _ _ _
  · intro hash unit inTable isOwn
    rw [BftTables.insert, SortedMap.get?_insert] at inTable
    split at inTable
    · rename_i same
      cases inTable
      exact ⟨same.symm, ev, List.mem_append_right created (List.mem_singleton.mpr rfl), rfl⟩
    · obtain ⟨isHash, other, member, same⟩ := chain.complete hash unit inTable isOwn
      exact ⟨isHash, other, List.mem_append_left [ev] member, same⟩
  · intro other member
    rcases List.mem_append.mp member with old | new
    · exact chain.checked other old
    · rw [List.mem_singleton.mp new]
      exact ⟨checked, own⟩
  · intro index other found
    rcases positions index other found with old | ⟨rfl, rfl⟩
    · exact chain.round index other old
    · exact next
  · intro index other successor found successorFound
    rcases positions (index + 1) successor successorFound with old | ⟨last, rfl⟩
    · rcases positions index other found with otherOld | ⟨rfl, _⟩
      · exact chain.parent index other successor otherOld old
      · obtain ⟨within, _⟩ := List.getElem?_eq_some_iff.mp old
        omega
    · rcases positions index other found with otherOld | ⟨impossible, _⟩
      · refine named other ?_
        rw [List.getLast?_eq_getElem?, ← last, Nat.add_sub_cancel]
        exact otherOld
      · omega

theorem OwnChain.nextRound (chain : OwnChain setup tables created) {engine : Engine D}
    (isTop : TopOf setup.id (fun hash unit => tables.unit.get? hash = some unit) engine.ownTop) :
    engine.nextRound = created.length := by
  unfold Engine.nextRound
  cases topEq : engine.ownTop with
  | none =>
      rw [topEq] at isTop
      cases created with
      | nil => rfl
      | cons ev rest =>
          have member : ev ∈ ev :: rest := List.mem_cons_self
          exact absurd (chain.checked ev member).2 (isTop _ _ (chain.stored ev member))
  | some top =>
      rw [topEq] at isTop
      obtain ⟨⟨unit, inTable, own, atRound⟩, below⟩ := isTop
      obtain ⟨_, ev, member, same⟩ := chain.complete _ unit inTable own
      obtain ⟨index, within, evAt⟩ := List.getElem_of_mem member
      have evRound := chain.round index ev (by rw [List.getElem?_eq_getElem within, evAt])
      have lastAt : created[created.length - 1]? = some created[created.length - 1] :=
        List.getElem?_eq_getElem (by omega)
      have lastMember := List.mem_of_getElem? lastAt
      have lastRound := chain.round _ _ lastAt
      have lastBelow := below _ _ (chain.stored _ lastMember) (chain.checked _ lastMember).2
      rw [same] at evRound
      change top.1 + 1 = created.length
      omega

theorem OwnChain.unique (chain : OwnChain setup tables created) {left right : UnitEnvelope D}
    (leftMember : left ∈ created) (rightMember : right ∈ created)
    (sameRound : left.unit.round = right.unit.round) : left = right := by
  obtain ⟨first, firstWithin, firstAt⟩ := List.getElem_of_mem leftMember
  obtain ⟨second, secondWithin, secondAt⟩ := List.getElem_of_mem rightMember
  have firstRound := chain.round first left (by rw [List.getElem?_eq_getElem firstWithin, firstAt])
  have secondRound :=
    chain.round second right (by rw [List.getElem?_eq_getElem secondWithin, secondAt])
  have same : first = second := by omega
  subst same
  exact firstAt.symm.trans secondAt

end Chain

/-! ### The self-parent -/

/-- Every entry of the row comes from the listed units or was there before. -/
theorem extendedRow_listed {engine : Engine D} {round : Nat} {hashes : List UnitHash}
    (within : ∀ hash ∈ hashes, hash ∈ extendedAt engine.rounds engine.extended round)
    {row : SortedMap NodeId UnitHash}
    (good : ∀ creator hash, row.get? creator = some hash → ∃ unit,
      engine.extended.get? hash = some unit ∧ unit.creator = creator ∧
        hash ∈ roundUnits engine.rounds round)
    {creator : NodeId} {hash : UnitHash}
    (found : (hashes.foldl (fun row hash =>
        match engine.extended.get? hash with
        | none => row
        | some unit => if row.contains unit.creator then row else row.insert unit.creator hash)
      row).get? creator = some hash) :
    ∃ unit, engine.extended.get? hash = some unit ∧ unit.creator = creator ∧
      hash ∈ roundUnits engine.rounds round := by
  induction hashes generalizing row with
  | nil => exact good creator hash found
  | cons first rest ih =>
      refine ih (fun hash member => within hash (List.mem_cons_of_mem first member)) ?_ found
      intro creator hash found
      simp only at found
      split at found
      · exact good creator hash found
      · rename_i unit unitAt
        split at found
        · exact good creator hash found
        · rw [SortedMap.get?_insert] at found
          split at found
          · rename_i sameCreator
            cases found
            exact ⟨unit, unitAt, sameCreator,
              List.mem_of_mem_filter (within first List.mem_cons_self)⟩
          · exact good creator hash found

theorem extendedRow_origin {engine : Engine D} {round : Nat} {creator : NodeId} {hash : UnitHash}
    (found : (engine.extendedRow round).get? creator = some hash) :
    ∃ unit, engine.extended.get? hash = some unit ∧ unit.creator = creator ∧
      hash ∈ roundUnits engine.rounds round := by
  refine extendedRow_listed (fun _ member => member) ?_ found
  intro _ _ impossible
  cases impossible

/-- The self-parent stands before the other creators of its row. -/
def ownFirst (setup : Setup D) (own : UnitHash) (row : SortedMap NodeId UnitHash) :
    List (NodeId × UnitHash) :=
  (setup.id, own) :: row.rows.filter (fun entry => entry.1 ≠ setup.id)

theorem ownFirst_distinct (setup : Setup D) (own : UnitHash) (row : SortedMap NodeId UnitHash) :
    ((ownFirst setup own row).map Prod.fst).Nodup := by
  unfold ownFirst
  rw [List.map_cons, List.nodup_cons]
  constructor
  · intro member
    obtain ⟨entry, kept, same⟩ := List.mem_map.mp member
    exact absurd same (by simpa using (List.mem_filter.mp kept).2)
  · exact row.keys_nodup.sublist (List.filter_sublist.map Prod.fst)

theorem parentsFor_ok {setup : Setup D} {engine : Engine D} {round : Nat}
    {parents : SortedMap NodeId UnitHash} :
    engine.parentsFor setup (round + 1) = some parents ↔ ∃ own,
      (engine.extendedRow round).get? setup.id = some own ∧ parents.size = setup.n.threshold ∧
        parents = SortedMap.ofList
          ((ownFirst setup own (engine.extendedRow round)).take setup.n.threshold) := by
  unfold parentsFor
  simp only
  cases ownAt : (engine.extendedRow round).get? setup.id with
  | none =>
      constructor
      · intro impossible
        cases impossible
      · rintro ⟨own, impossible, _⟩
        cases impossible
  | some own =>
      simp only
      constructor
      · intro chosen
        split at chosen
        · rename_i size
          cases chosen
          exact ⟨own, rfl, size, rfl⟩
        · cases chosen
      · rintro ⟨other, same, size, isParents⟩
        cases same
        subst isParents
        exact if_pos size

/-- `parents_for` names extended units under their creators, the own one among
them, one round below. -/
theorem parentsFor_named {setup : Setup D} {engine : Engine D} {round : Nat}
    {parents : SortedMap NodeId UnitHash}
    (chosen : engine.parentsFor setup (round + 1) = some parents) {creator : NodeId}
    {hash : UnitHash} (named : parents.get? creator = some hash) :
    ∃ unit, engine.extended.get? hash = some unit ∧ unit.creator = creator ∧
      hash ∈ roundUnits engine.rounds round := by
  obtain ⟨own, ownAt, _, isParents⟩ := parentsFor_ok.mp chosen
  rw [isParents, SortedMap.get?_ofList_iff
    ((ownFirst_distinct setup own _).sublist ((List.take_sublist _ _).map Prod.fst))] at named
  apply extendedRow_origin
  rcases List.mem_cons.mp (List.mem_of_mem_take named) with isOwn | other
  · cases isOwn
    exact ownAt
  · exact (SortedMap.mem_rows _ _ _).mp (List.mem_of_mem_filter other)

theorem parentsFor_self {setup : Setup D} {engine : Engine D} {round : Nat}
    {parents : SortedMap NodeId UnitHash}
    (chosen : engine.parentsFor setup (round + 1) = some parents) :
    ∃ own unit, parents.get? setup.id = some own ∧ engine.extended.get? own = some unit ∧
      unit.creator = setup.id ∧ own ∈ roundUnits engine.rounds round := by
  obtain ⟨own, ownAt, _, isParents⟩ := parentsFor_ok.mp chosen
  have named : parents.get? setup.id = some own := by
    rw [isParents, SortedMap.get?_ofList_iff
      ((ownFirst_distinct setup own _).sublist ((List.take_sublist _ _).map Prod.fst)),
      NumNodes.threshold, ownFirst, List.take_succ_cons]
    exact List.mem_cons_self
  obtain ⟨unit, found, isOwn, inRound⟩ := parentsFor_named chosen named
  exact ⟨own, unit, named, found, isOwn, inRound⟩

/-! ### The invariant -/

structure Intact (setup : Setup D) (process : Process D) : Prop where
  valid : TablesValid setup.toMint process.committed
  durableValid : TablesValid setup.toMint process.durable
  grounded : Grounded process.committed process.engine.rounds process.engine.extended
  top : TopOf setup.id (fun hash unit => process.committed.unit.get? hash = some unit)
    process.engine.ownTop
  chain : OwnChain setup process.committed process.created
  durableChain : OwnChain setup process.durable process.created
  sent : ∀ entry ∈ process.network, ∀ ev, entry.2 = Message.unit ev → ev.unit.creator = setup.id →
    ∃ own ∈ process.created, own.unit = ev.unit

theorem TablesValid.start (setup : Setup D) : TablesValid setup.toMint BftTables.empty := by
  refine ⟨?_, ?_, ?_, ?_⟩ <;> intro hash unit impossible <;> cases impossible

theorem Intact.start (setup : Setup D) : Intact setup Process.start := by
  refine ⟨TablesValid.start setup, TablesValid.start setup, ⟨?_, ?_, ?_⟩, ?_, OwnChain.start setup,
    OwnChain.start setup, ?_⟩
  · intro round hash
    constructor
    · intro impossible
      cases impossible
    · rintro ⟨unit, impossible, _⟩
      cases impossible
  · intro hash unit impossible
    cases impossible
  · intro hash unit impossible
    cases impossible
  · intro hash unit impossible
    cases impossible
  · intro entry impossible
    cases impossible

section Steps

variable {setup : Setup D} {process next : Process D}

theorem restart_intact {sent : List (Recipient × Message D)}
    (durableValid : TablesValid setup.toMint process.durable)
    (durableChain : OwnChain setup process.durable process.created)
    (sentOwn : ∀ entry ∈ sent, ∀ ev, entry.2 = Message.unit ev → ev.unit.creator = setup.id →
      ∃ own ∈ process.created, own.unit = ev.unit)
    (restarted : process.restart setup sent = some next) : Intact setup next := by
  unfold Process.restart at restarted
  split at restarted
  · cases restarted
  · rename_i engine replayed
    cases restarted
    obtain ⟨grounded, isTop, silent⟩ := replay_frame durableValid replayed
    refine ⟨durableValid, durableValid, grounded, isTop, durableChain, durableChain, ?_⟩
    intro entry member
    unfold Process.network at member
    rw [silent, List.append_nil] at member
    exact sentOwn entry member

/-- What a stored unit does to the indexes, whatever the extender finds. -/
theorem stored_frame {tables : BftTables D} (engine : Engine D) {after : Engine D}
    {ev : UnitEnvelope D} (own : SortedSet Nat)
    (valid : TablesValid setup.toMint tables)
    (grounded : Grounded tables engine.rounds engine.extended)
    (isTop : TopOf setup.id (fun hash unit => tables.unit.get? hash = some unit) engine.ownTop)
    (checked : Checked setup.toMint ev) (absent : tables.unit.get? (setup.unitHash ev.unit) = none)
    (drained : runExtender setup (tables.insert (setup.unitHash ev.unit) ev)
      (tryExtend (tables.insert (setup.unitHash ev.unit) ev)
        { stored setup engine ev with unorderedOwnData := own } (setup.unitHash ev.unit)) =
      some after) :
    TablesValid setup.toMint (tables.insert (setup.unitHash ev.unit) ev) ∧
      Grounded (tables.insert (setup.unitHash ev.unit) ev) after.rounds after.extended ∧
      TopOf setup.id (fun hash unit =>
        (tables.insert (setup.unitHash ev.unit) ev).unit.get? hash = some unit) after.ownTop ∧
      after.network = engine.network := by
  have waiting : Frontier tables engine.extended fun _ => True := fun _ _ _ _ => Or.inr trivial
  have grounded' : Grounded (tables.insert (setup.unitHash ev.unit) ev)
      (indexUnit engine.rounds ev.unit.round (setup.unitHash ev.unit)) engine.extended :=
    grounded.store ev absent
  obtain ⟨extended, extendEq, grounded'', _, _⟩ := tryExtend_spec
    (tables.insert (setup.unitHash ev.unit) ev) (fun _ => True)
    { stored setup engine ev with unorderedOwnData := own } grounded' (setup.unitHash ev.unit) (fun _ _ _ _ => Or.inr (Or.inr trivial))
  rw [extendEq] at drained
  have same := runExtender_frame drained
  refine ⟨valid.insert checked, ?_, ?_, same.network⟩
  · rw [same.rounds, same.extended]
    exact grounded''
  · rw [same.ownTop]
    refine isTop.advance fun hash unit => ?_
    rw [BftTables.insert, SortedMap.get?_insert]
    split
    · rename_i isNew
      subst isNew
      rw [absent, Option.some.injEq]
      simp
    · rename_i notNew
      simp [notNew]

theorem Intact.served (intact : Intact setup process) {engine : Engine D}
    (served : Served process.committed process.engine engine) :
    Intact setup { process with engine := engine } := by
  obtain ⟨requests, messages, rfl, units⟩ := served
  refine ⟨intact.valid, intact.durableValid, intact.grounded, intact.top, intact.chain,
    intact.durableChain, ?_⟩
  intro entry member ev isUnit own
  change entry ∈ process.sent ++ (process.engine.network ++ messages) at member
  rw [← List.append_assoc, List.mem_append] at member
  rcases member with before | new
  · exact intact.sent entry before ev isUnit own
  · obtain ⟨hash, inTable⟩ := units entry new ev isUnit
    exact (intact.chain.complete hash ev.unit inTable own).2

theorem Intact.sent_stored (intact : Intact setup process) {entry : Recipient × Message D}
    (member : entry ∈ process.network) {ev : UnitEnvelope D} (isUnit : entry.2 = .unit ev)
    (own : ev.unit.creator = setup.id) :
    process.committed.unit.get? (setup.unitHash ev.unit) = some ev.unit := by
  obtain ⟨created, isCreated, same⟩ := intact.sent entry member ev isUnit own
  exact same ▸ intact.chain.stored created isCreated

theorem Intact.receive (intact : Intact setup process) {now : Nat} {sender : NodeId}
    {message : Message D} (authentic : Authentic setup process (.receive now sender message))
    {outcome : Except String Unit} {engine : Engine D} {tables : BftTables D}
    (handled : handleMessage setup now process.committed process.engine sender message =
      some (outcome, engine, tables)) :
    Intact setup { process with engine := engine, committed := tables } := by
  rcases handleMessage_cases handled with
    ⟨rfl, served⟩ | ⟨ev, cascaded, rfl, checked, absent, _, rfl, requested, drained⟩
  · exact intact.served served
  · have foreign : ev.unit.creator ≠ setup.id := by
      intro own
      obtain ⟨entry, member, sentEv, isUnit, same⟩ := authentic own (own ▸ checked.signed)
      have inTable := intact.sent_stored member isUnit (same ▸ own)
      rw [same, absent] at inTable
      cases inTable
    have served := requested.served process.committed
    obtain ⟨requests, messages, rfl, _⟩ := requested
    obtain ⟨valid, grounded, top, network⟩ := stored_frame
      { process.engine with
        requestSentAt := requests
        network := process.engine.network ++ messages }
      process.engine.unorderedOwnData intact.valid intact.grounded intact.top checked absent drained
    refine ⟨valid, intact.durableValid, grounded, top, intact.chain.insert_foreign absent foreign,
      intact.durableChain, ?_⟩
    intro entry member
    unfold Process.network at member
    rw [network] at member
    exact (intact.served served).sent entry member

theorem Intact.persist (intact : Intact setup process) {data : List D} {ev : UnitEnvelope D}
    {engine : Engine D} {tables : BftTables D}
    (persisted : persistUnit setup data process.committed process.engine =
      some (some ev, engine, tables)) :
    Intact setup { process with
      engine := engine
      committed := tables
      durable := tables
      created := process.created ++ [ev] } ∧ engine.network = process.engine.network := by
  rcases persistUnit_cases persisted with ⟨impossible, _⟩ |
    ⟨built, parents, own, sameEv, unitEq, _, parentsEq, checked, absent, rfl, drained, _⟩
  · cases impossible
  · cases sameEv
    obtain ⟨valid, grounded, top, network⟩ :=
      stored_frame process.engine own intact.valid intact.grounded intact.top checked absent drained
    have isOwn : ev.unit.creator = setup.id := by rw [unitEq]
    have atRound : ev.unit.round = process.created.length := by
      rw [unitEq]
      exact intact.chain.nextRound intact.top
    have named : ∀ last, process.created.getLast? = some last →
        ev.unit.parents.get? setup.id = some (setup.unitHash last.unit) := by
      intro last lastAt
      have position := List.getLast?_eq_getElem? (l := process.created)
      rw [lastAt] at position
      obtain ⟨within, _⟩ := List.getElem?_eq_some_iff.mp position.symm
      have nextEq : process.engine.nextRound = (process.created.length - 1) + 1 := by
        rw [intact.chain.nextRound intact.top]
        omega
      rw [nextEq] at parentsEq
      obtain ⟨parent, unit, parentAt, extendedAt, parentOwn, inRound⟩ := parentsFor_self parentsEq
      have inTable := intact.grounded.stored parent unit extendedAt
      obtain ⟨isHash, other, member, same⟩ := intact.chain.complete parent unit inTable parentOwn
      obtain ⟨listed, listedAt, listedRound⟩ := (intact.grounded.index _ parent).mp inRound
      rw [inTable] at listedAt
      cases listedAt
      have lastRound := intact.chain.round _ last position.symm
      have sameEv := intact.chain.unique member (List.mem_of_getLast? lastAt)
        (by rw [same, listedRound, lastRound])
      rw [unitEq, parentAt, isHash, ← same, sameEv]
    have chain := intact.chain.insert_own absent checked isOwn atRound named
    refine ⟨⟨valid, valid, grounded, top, chain, chain, ?_⟩, network⟩
    intro entry member other isUnit otherOwn
    unfold Process.network at member
    rw [network] at member
    obtain ⟨created, isCreated, same⟩ := intact.sent entry member other isUnit otherOwn
    exact ⟨created, List.mem_append_left [ev] isCreated, same⟩

theorem Intact.create (intact : Intact setup process) {data : List D}
    {built : Option (UnitEnvelope D)} {engine : Engine D} {tables : BftTables D}
    (tried : tryCreateUnit setup data process.committed process.engine =
      some (built, engine, tables)) :
    match built with
    | none => Intact setup { process with engine := engine, committed := tables }
    | some ev => Intact setup { process with
        engine := engine
        committed := tables
        durable := tables
        created := process.created ++ [ev] } := by
  unfold tryCreateUnit at tried
  split at tried
  · cases tried
  · rename_i persisted
    cases tried
    rcases persistUnit_cases persisted with ⟨_, rfl, rfl⟩ | ⟨_, _, _, impossible, _⟩
    · exact intact
    · cases impossible
  · rename_i ev persistedEngine persistedTables persisted
    cases tried
    obtain ⟨intact', _⟩ := intact.persist persisted
    refine ⟨intact'.valid, intact'.durableValid, intact'.grounded, intact'.top, intact'.chain,
      intact'.durableChain, ?_⟩
    intro entry member other isUnit own
    change entry ∈ process.sent ++ (persistedEngine.network ++ [(.everyone, .unit ev)]) at member
    rw [← List.append_assoc, List.mem_append, List.mem_singleton] at member
    rcases member with before | new
    · exact intact'.sent entry before other isUnit own
    · rw [new] at isUnit
      cases isUnit
      exact ⟨ev, List.mem_append_right _ (List.mem_singleton.mpr rfl), rfl⟩

theorem Intact.interrupt (intact : Intact setup process) (now : Nat) (sender : NodeId)
    (ev : UnitEnvelope D) (count : Nat) : ∀ entry ∈ process.sent ++
      (cascadeParents now process.committed process.engine sender ev.unit).network.take count,
    ∀ other, entry.2 = Message.unit other → other.unit.creator = setup.id →
      ∃ own ∈ process.created, own.unit = other.unit := by
  intro entry member
  have served := (cascadeParents_requested now process.committed process.engine sender
    ev.unit).served process.committed
  refine (intact.served served).sent entry ?_
  rcases List.mem_append.mp member with before | taken
  · exact List.mem_append_left _ before
  · exact List.mem_append_right _ (List.mem_of_mem_take taken)

theorem Intact.step (intact : Intact setup process) {event : Event D}
    (authentic : Authentic setup process event) (stepped : process.step setup event = some next) :
    Intact setup next := by
  cases event with
  | receive now sender message =>
      simp only [Process.step] at stepped
      split at stepped
      · cases stepped
      · rename_i handled
        cases stepped
        exact intact.receive authentic handled
  | interrupt now sender ev count =>
      simp only [Process.step] at stepped
      split at stepped
      · exact restart_intact intact.durableValid intact.durableChain intact.sent stepped
      · exact restart_intact intact.durableValid intact.durableChain
          (intact.interrupt now sender ev _) stepped
  | create data =>
      simp only [Process.step] at stepped
      split at stepped
      · cases stepped
      · rename_i tried
        cases stepped
        exact intact.create tried
      · rename_i tried
        cases stepped
        exact intact.create tried
  | interruptCreate data =>
      simp only [Process.step] at stepped
      split at stepped
      · cases stepped
      · exact restart_intact intact.durableValid intact.durableChain intact.sent stepped
      · rename_i persisted
        obtain ⟨intact', sameNetwork⟩ := intact.persist persisted
        refine restart_intact intact'.durableValid intact'.durableChain ?_ stepped
        intro entry member
        refine intact'.sent entry ?_
        unfold Process.network
        rw [sameNetwork]
        exact member
  | antiEntropy =>
      simp only [Process.step] at stepped
      split at stepped
      · cases stepped
      · rename_i engine broadcast
        cases stepped
        exact intact.served (broadcastAntiEntropy_served broadcast)
  | flush =>
      cases stepped
      exact ⟨intact.valid, intact.valid, intact.grounded, intact.top, intact.chain, intact.chain,
        intact.sent⟩
  | crash =>
      exact restart_intact intact.durableValid intact.durableChain intact.sent stepped

end Steps

theorem Runs.intact {setup : Setup D} {process : Process D}
    (runs : Runs setup (Authentic setup) process) : Intact setup process := by
  induction runs with
  | start => exact Intact.start setup
  | step _ authentic stepped ih => exact ih.step authentic stepped

/-- No process ever sends two own units of one round. -/
theorem sent_once_per_round {setup : Setup D} {process : Process D}
    (runs : Runs setup (Authentic setup) process) {left right : Recipient × Message D}
    (leftSent : left ∈ process.network) (rightSent : right ∈ process.network)
    {leftUnit rightUnit : UnitEnvelope D} (leftIs : left.2 = .unit leftUnit)
    (rightIs : right.2 = .unit rightUnit) (leftOwn : leftUnit.unit.creator = setup.id)
    (rightOwn : rightUnit.unit.creator = setup.id)
    (sameRound : leftUnit.unit.round = rightUnit.unit.round) :
    leftUnit.unit = rightUnit.unit := by
  have intact := runs.intact
  obtain ⟨first, firstCreated, firstIs⟩ := intact.sent left leftSent leftUnit leftIs leftOwn
  obtain ⟨second, secondCreated, secondIs⟩ :=
    intact.sent right rightSent rightUnit rightIs rightOwn
  have same := intact.chain.unique firstCreated secondCreated
    (by rw [firstIs, secondIs, sameRound])
  rw [← firstIs, ← secondIs, same]

/-- Node 0 broadcasts its first unit, has it back from node 1, answers node 2's
request with it, crashes, and creates its second unit. -/
theorem sent_once_per_round_sample :
    ∃ (process : Process Nat) (left right last : Recipient × Message Nat)
      (leftUnit rightUnit : UnitEnvelope Nat),
      process.network = [left, right, last] ∧ left ≠ right ∧ left.2 = .unit leftUnit ∧
        right.2 = .unit rightUnit ∧ last.2 = .unit (forkEnvelope 1 0) ∧
        leftUnit.unit = rightUnit.unit := by
  have evaluated : ((Process.start.step (forkSetup 0) (.create [7])).any fun first =>
      decide (first.network = [(.everyone, .unit (forkEnvelope 0 0))]) &&
        (first.step (forkSetup 0) (.receive 0 1 (.unit (forkEnvelope 0 0)))).any fun back =>
          (back.run (forkSetup 0) [forkArrival (forkEnvelope 0 1),
            .receive 0 2 (.request (forkHash 0 0)), .crash, forkArrival (forkEnvelope 0 1),
            forkArrival (forkEnvelope 0 2), .create []]).any fun last =>
              decide (last.network = [(.everyone, .unit (forkEnvelope 0 0)),
                (.node 2, .unit (forkEnvelope 0 0)), (.everyone, .unit (forkEnvelope 1 0))])) =
      true := by
    decide +kernel
  rw [Option.any_eq_true] at evaluated
  obtain ⟨first, created, evaluated⟩ := evaluated
  rw [Bool.and_eq_true, Option.any_eq_true] at evaluated
  obtain ⟨broadcast, back, returned, evaluated⟩ := evaluated
  rw [Option.any_eq_true] at evaluated
  obtain ⟨process, ran, network⟩ := evaluated
  have broadcast := of_decide_eq_true broadcast
  have network := of_decide_eq_true network
  have started : Runs (forkSetup 0) (Authentic (forkSetup 0)) first :=
    Runs.step Runs.start (show Authentic (forkSetup 0) _ (.create [7]) from trivial) created
  have again : Runs (forkSetup 0) (Authentic (forkSetup 0)) back := by
    refine Runs.step started ?_ returned
    intro _ _
    rw [broadcast]
    exact ⟨_, List.mem_singleton_self _, _, rfl, rfl⟩
  have runs : Runs (forkSetup 0) (Authentic (forkSetup 0)) process := by
    refine Process.run_runs _ ?_ again ran
    intro event member process
    simp only [List.mem_cons, List.not_mem_nil, or_false] at member
    rcases member with rfl | rfl | rfl | rfl | rfl | rfl
    · intro own
      cases own
    · trivial
    · trivial
    · intro own
      cases own
    · intro own
      cases own
    · trivial
  have leftSent : (Recipient.everyone, Message.unit (forkEnvelope 0 0)) ∈ process.network := by
    rw [network]
    exact List.mem_cons_self
  have rightSent : (Recipient.node 2, Message.unit (forkEnvelope 0 0)) ∈ process.network := by
    rw [network]
    exact List.mem_cons_of_mem _ List.mem_cons_self
  exact ⟨process, _, _, _, _, _, network, by decide, rfl, rfl, rfl,
    sent_once_per_round runs leftSent rightSent rfl rfl rfl rfl rfl⟩

end Picomint.Bft
