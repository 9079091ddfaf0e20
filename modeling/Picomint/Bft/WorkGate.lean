/-
The work gate never deadlocks the DAG.

Where all honest engines hold the same units, the honest creator with the
lowest column finds the units of all others one round below its next one.  As
long as it waits for own items it creates, so as long as every honest engine
waits for some, the honest columns grow.
-/

import Picomint.Bft.Creation

namespace Picomint.Bft

open Engine

variable {D : Type}

/-! ### Created units stay extended -/

/-- The durable rows alone extend every created unit. -/
def Rooted (setup : Setup D) (process : Process D) : Prop :=
  ∃ extended : SortedMap UnitHash BftUnit,
    (∀ hash unit, extended.get? hash = some unit → process.durable.unit.get? hash = some unit) ∧
    (∀ hash unit, extended.get? hash = some unit → parentsFed extended unit = true) ∧
    ∀ ev ∈ process.created, extended.get? (setup.unitHash ev.unit) = some ev.unit

section Roots

variable {setup : Setup D} {byzantine : Finset NodeId} {bound : byzantine.card ≤ setup.n.maxEvil}
variable {process next : Process D}

theorem Rooted.start (setup : Setup D) : Rooted setup Process.start := by
  refine ⟨SortedMap.empty, ?_, ?_, ?_⟩
  · intro hash unit impossible
    cases impossible
  · intro hash unit impossible
    cases impossible
  · intro ev impossible
    cases impossible

theorem Rooted.grow (rooted : Rooted setup process)
    (keeps : ∀ hash unit, process.durable.unit.get? hash = some unit →
      next.durable.unit.get? hash = some unit)
    (same : next.created = process.created) : Rooted setup next := by
  obtain ⟨extended, stored, fed, created⟩ := rooted
  refine ⟨extended, fun hash unit found => keeps hash unit (stored hash unit found), fed, ?_⟩
  rw [same]
  exact created

theorem Rooted.extended (rooted : Rooted setup process) (orderly : Orderly setup bound process)
    (settled : Settled setup.toMint bound process.committed process.engine) {ev : UnitEnvelope D}
    (member : ev ∈ process.created) :
    process.engine.extended.get? (setup.unitHash ev.unit) = some ev.unit := by
  obtain ⟨extended, stored, fed, created⟩ := rooted
  have keeps := settled.extends_fed
    (fun hash unit found => orderly.durable.unit hash unit (stored hash unit found)) fed
  exact keeps _ _ (created ev member)

/-- A created unit is extended at once, on top of its extended parents. -/
theorem Rooted.persist (rooted : Rooted setup process) (orderly : Orderly setup bound process)
    (settled : Settled setup.toMint bound process.committed process.engine) {data : List D}
    {ev : UnitEnvelope D} {engine : Engine D} {tables : BftTables D}
    (after : Settled setup.toMint bound tables engine)
    (persisted : persistUnit setup data process.committed process.engine =
      some (some ev, engine, tables)) {built : Process D}
    (durable : built.durable = tables) (created : built.created = process.created ++ [ev]) :
    Rooted setup built := by
  rcases persistUnit_cases persisted with ⟨impossible, _⟩ |
    ⟨_, parents, _, isEv, unitEq, _, chosen, _, absent, grown, _, _⟩
  · cases impossible
  · cases isEv
    have subTables := (SubTables.refl process.committed).insert absent ev
    rw [← grown] at subTables
    have keeps : Keeps process.engine.extended engine.extended := after.extends_fed
      (fun hash unit found => subTables.unit hash unit
        (settled.grounded.stored hash unit found)) settled.grounded.fed
    have fed : parentsFed engine.extended ev.unit = true := by
      rw [parentsFed_iff, unitEq]
      intro creator parent named
      simp only at named ⊢
      cases round : process.engine.nextRound with
      | zero =>
          rw [round] at chosen
          cases chosen
          cases named
      | succ below =>
          rw [round] at chosen
          obtain ⟨unit, unitAt, isCreator, inRound⟩ := parentsFor_named chosen named
          obtain ⟨other, otherAt, atRound⟩ := (settled.grounded.index below parent).mp inRound
          cases (settled.grounded.stored parent unit unitAt).symm.trans otherAt
          exact ⟨unit, keeps parent unit unitAt, isCreator, by rw [atRound]⟩
    have inTable : tables.unit.get? (setup.unitHash ev.unit) = some ev.unit := by
      rw [grown]
      exact SortedMap.get?_insert_self _ _ _
    refine ⟨engine.extended, durable ▸ after.grounded.stored, after.grounded.fed, ?_⟩
    intro other member
    rw [created] at member
    rcases List.mem_append.mp member with old | new
    · exact keeps _ _ (rooted.extended orderly settled old)
    · rw [List.mem_singleton.mp new]
      rcases after.complete _ _ inTable fed with present | impossible
      · obtain ⟨body, found⟩ := (engine.extended.contains_iff _).mp present
        cases inTable.symm.trans (after.grounded.stored _ body found)
        exact found
      · exact impossible.elim

theorem Rooted.step (free : setup.CollisionFree) (orderly : Orderly setup bound process)
    (settled : Settled setup.toMint bound process.committed process.engine)
    (once : SingleVoiced byzantine next.committed.units) (rooted : Rooted setup process)
    {event : Event D} (stepped : process.step setup event = some next) : Rooted setup next := by
  have restarted : ∀ {sent : List (Recipient × Message D)},
      process.restart setup sent = some next → Rooted setup next := by
    intro sent restarted
    obtain ⟨_, durable, created⟩ := restart_units restarted
    exact rooted.grow (fun _ _ found => durable ▸ found) created
  cases event with
  | receive now sender message =>
      simp only [Process.step] at stepped
      split at stepped
      · cases stepped
      · cases stepped
        exact rooted.grow (fun _ _ => id) rfl
  | interrupt now sender ev count =>
      simp only [Process.step] at stepped
      split at stepped
      · exact restarted stepped
      · exact restarted stepped
  | create data =>
      simp only [Process.step, tryCreateUnit] at stepped
      cases persisted : persistUnit setup data process.committed process.engine with
      | none =>
          rw [persisted] at stepped
          cases stepped
      | some result =>
          obtain ⟨built, engine, tables⟩ := result
          rw [persisted] at stepped
          cases built with
          | none =>
              cases stepped
              exact rooted.grow (fun _ _ => id) rfl
          | some ev =>
              cases stepped
              exact rooted.persist orderly settled ((orderly.persist free persisted).settled once)
                persisted rfl rfl
  | interruptCreate data =>
      simp only [Process.step] at stepped
      split at stepped
      · cases stepped
      · exact restarted stepped
      · rename_i persisted
        obtain ⟨committed, durable, created⟩ := restart_units stepped
        rw [committed] at once
        exact rooted.persist orderly settled ((orderly.persist free persisted).settled once)
          persisted durable created
  | antiEntropy =>
      simp only [Process.step] at stepped
      split at stepped
      · cases stepped
      · cases stepped
        exact rooted.grow (fun _ _ => id) rfl
  | flush =>
      cases stepped
      exact rooted.grow orderly.durable.unit rfl
  | crash => exact restarted stepped

end Roots

/-! ### Synchronised states -/

section Network

variable {mint : Mint D} {keys : NodeId → Nat → BftUnit → Signature} {byzantine : Finset NodeId}
variable {processes : NodeId → Process D}

theorem NetworkRuns.rooted (free : mint.CollisionFree) (bound : byzantine.card ≤ mint.n.maxEvil)
    (runs : NetworkRuns mint keys byzantine processes) (node : NodeId) :
    Rooted (mint.setup keys node) (processes node) := by
  induction runs with
  | start => exact Rooted.start _
  | @step processes stepper event next before honest deliverable stepped inductionHypothesis =>
      have after := NetworkRuns.step before honest deliverable stepped
      by_cases same : node = stepper
      · subst same
        rw [Function.update_self]
        refine Rooted.step free ((before.node_runs node).orderly free bound)
          (before.settled free bound node) ?_ inductionHypothesis stepped
        have once := after.singleVoiced free bound
        exact once.mono fun unit member => ⟨node, by rwa [Function.update_self]⟩
      · rw [Function.update_of_ne same]
        exact inductionHypothesis

def Mint.honest (mint : Mint D) (byzantine : Finset NodeId) : Finset NodeId :=
  Finset.range mint.n.total \ byzantine

theorem Mint.mem_honest {mint : Mint D} {byzantine : Finset NodeId} {node : NodeId} :
    node ∈ mint.honest byzantine ↔ node ∈ mint.n.nodeIds ∧ node ∉ byzantine := by
  rw [Mint.honest, Finset.mem_sdiff, Finset.mem_range, mint.n.mem_nodeIds]

theorem Mint.honest_card {mint : Mint D} {byzantine : Finset NodeId}
    (bound : byzantine.card ≤ mint.n.maxEvil) :
    mint.n.threshold ≤ (mint.honest byzantine).card := by
  have large := Finset.le_card_sdiff byzantine (Finset.range mint.n.total)
  rw [Finset.card_range] at large
  unfold NumNodes.total at large
  unfold NumNodes.threshold Mint.honest
  unfold NumNodes.total
  omega

/-- All honest engines hold the same units. -/
def Synchronised (mint : Mint D) (byzantine : Finset NodeId) (processes : NodeId → Process D) :
    Prop :=
  ∀ left ∈ mint.honest byzantine, ∀ right ∈ mint.honest byzantine,
    (processes left).committed.units = (processes right).committed.units

/-- Every honest engine has a unit of its own with items it has not emitted. -/
def Waiting (mint : Mint D) (byzantine : Finset NodeId) (processes : NodeId → Process D) : Prop :=
  ∀ node ∈ mint.honest byzantine, ∃ hash unit,
    (processes node).committed.unit.get? hash = some unit ∧ unit.creator = node ∧
      unit.data.isSome = true ∧ (processes node).engine.emitted.contains hash = false

def Signs (mint : Mint D) (keys : NodeId → Nat → BftUnit → Signature) (byzantine : Finset NodeId) :
    Prop :=
  ∀ node ∈ mint.honest byzantine, ∀ unit : BftUnit, unit.creator = node →
    mint.verify mint.session unit (keys node mint.session unit) node = true

/-- Own items that are waited for open the gate. -/
theorem NetworkRuns.hasUnordered (runs : NetworkRuns mint keys byzantine processes) {node : NodeId}
    {hash : UnitHash} {unit : BftUnit}
    (stored : (processes node).committed.unit.get? hash = some unit) (own : unit.creator = node)
    (hasData : unit.data.isSome = true)
    (pending : (processes node).engine.emitted.contains hash = false) :
    (processes node).engine.hasUnorderedOwnData = true := by
  have waits := (runs.node_runs node).tracked hash unit stored own hasData pending
  obtain ⟨value, found⟩ := (SortedMap.contains_iff _ _).mp waits
  have row := (SortedMap.mem_rows _ _ _).mpr found
  unfold hasUnorderedOwnData SortedMap.size
  rw [bne_iff_ne]
  exact (List.length_pos_of_mem row).ne'

/-- The lowest honest column finds a threshold of parents. -/
theorem NetworkRuns.lowest_parents (free : mint.CollisionFree)
    (bound : byzantine.card ≤ mint.n.maxEvil) (runs : NetworkRuns mint keys byzantine processes)
    (synchronised : Synchronised mint byzantine processes) {node : NodeId}
    (honest : node ∈ mint.honest byzantine)
    (lowest : ∀ other ∈ mint.honest byzantine,
      (processes node).created.length ≤ (processes other).created.length) :
    ∃ parents, (processes node).engine.parentsFor (mint.setup keys node)
      (processes node).engine.nextRound = some parents := by
  have intact := runs.intact node
  have settled := runs.settled free bound node
  rw [intact.chain.nextRound intact.top]
  cases height : (processes node).created.length with
  | zero => exact ⟨SortedMap.empty, rfl⟩
  | succ below =>
      refine parentsFor_some (mint.honest byzantine) (Mint.honest_card bound) honest ?_
      intro other otherHonest
      have within : below < (processes other).created.length := by
        have atLeast := lowest other otherHonest
        omega
      have member := List.getElem_mem within
      have otherSettled := runs.settled free bound other
      have found := (runs.rooted free bound other).extended
        ((runs.node_runs other).orderly free bound) otherSettled member
      have keeps := otherSettled.view_mono settled
        (synchronised other otherHonest node honest).subset
      have atRound := (runs.intact other).chain.round below _ (List.getElem?_eq_getElem within)
      have isCreator := ((runs.intact other).chain.checked _ member).2
      exact ⟨_, (settled.grounded.indexed below _).mpr ⟨_, keeps _ _ found, atRound⟩, _,
        keeps _ _ found, isCreator⟩

theorem NetworkRuns.creates (free : mint.CollisionFree) (bound : byzantine.card ≤ mint.n.maxEvil)
    (signs : Signs mint keys byzantine) (runs : NetworkRuns mint keys byzantine processes)
    {node : NodeId} (honest : node ∈ mint.honest byzantine)
    {parents : SortedMap NodeId UnitHash}
    (chosen : (processes node).engine.parentsFor (mint.setup keys node)
      (processes node).engine.nextRound = some parents) {data : List D}
    (work : (data.isEmpty && !(processes node).engine.hasUnorderedOwnData) = false) :
    ∃ ev engine tables, (processes node).engine.persistUnit (mint.setup keys node) data
      (processes node).committed = some (some ev, engine, tables) := by
  have settled := runs.settled free bound node
  have once : SingleVoiced byzantine (processes node).committed.units :=
    (runs.singleVoiced free bound).mono fun _ member => ⟨node, member⟩
  exact @persistUnit_some D (mint.setup keys node) byzantine bound _ free (runs.intact node) settled
    once (Mint.mem_honest.mp honest).1 (signs node honest) parents chosen data work

theorem tryCreateUnit_of_persist {setup : Setup D} {process : Process D} {data : List D}
    {ev : UnitEnvelope D} {engine : Engine D} {tables : BftTables D}
    (persisted : process.engine.persistUnit setup data process.committed =
      some (some ev, engine, tables)) :
    process.engine.tryCreateUnit setup data process.committed =
      some (some ev, engine.send .everyone (.unit ev), tables) := by
  unfold tryCreateUnit
  rw [persisted]

/-- No honest engine panics in an attempt to create a unit. -/
theorem NetworkRuns.create_total (free : mint.CollisionFree)
    (bound : byzantine.card ≤ mint.n.maxEvil) (signs : Signs mint keys byzantine)
    (runs : NetworkRuns mint keys byzantine processes) {node : NodeId}
    (honest : node ∈ mint.honest byzantine) (data : List D) :
    ∃ next, (processes node).step (mint.setup keys node) (.create data) = some next := by
  have total : ∃ result, (processes node).engine.persistUnit (mint.setup keys node) data
      (processes node).committed = some result := by
    cases chosen : (processes node).engine.parentsFor (mint.setup keys node)
        (processes node).engine.nextRound with
    | none =>
        unfold persistUnit
        rw [chosen]
        exact ⟨_, rfl⟩
    | some parents =>
        cases work : data.isEmpty && !(processes node).engine.hasUnorderedOwnData with
        | true =>
            unfold persistUnit
            simp only [chosen, work, if_true]
            exact ⟨_, rfl⟩
        | false =>
            obtain ⟨ev, engine, tables, created⟩ := runs.creates free bound signs honest chosen work
            exact ⟨_, created⟩
  obtain ⟨⟨built, engine, tables⟩, persisted⟩ := total
  simp only [Process.step, tryCreateUnit, persisted]
  cases built with
  | none => exact ⟨_, rfl⟩
  | some ev => exact ⟨_, rfl⟩

/-- The lowest honest engine that waits for own items creates a unit, whatever
it draws. -/
theorem NetworkRuns.lowest_creates (free : mint.CollisionFree)
    (bound : byzantine.card ≤ mint.n.maxEvil) (signs : Signs mint keys byzantine)
    (runs : NetworkRuns mint keys byzantine processes)
    (synchronised : Synchronised mint byzantine processes)
    (waiting : Waiting mint byzantine processes) {node : NodeId}
    (honest : node ∈ mint.honest byzantine)
    (lowest : ∀ other ∈ mint.honest byzantine,
      (processes node).created.length ≤ (processes other).created.length) (data : List D) :
    ∃ ev engine tables, (processes node).engine.tryCreateUnit (mint.setup keys node) data
      (processes node).committed = some (some ev, engine, tables) := by
  obtain ⟨parents, chosen⟩ := runs.lowest_parents free bound synchronised honest lowest
  obtain ⟨hash, unit, stored, own, hasData, pending⟩ := waiting node honest
  have work : (data.isEmpty && !(processes node).engine.hasUnorderedOwnData) = false := by
    rw [runs.hasUnordered stored own hasData pending, Bool.not_true, Bool.and_false]
  obtain ⟨ev, engine, tables, persisted⟩ := runs.creates free bound signs honest chosen work
  exact ⟨ev, _, tables, tryCreateUnit_of_persist persisted⟩

/-! ### Attempts -/

/-- Every honest engine attempts to create a unit, with what it draws. -/
structure Attempts (mint : Mint D) (keys : NodeId → Nat → BftUnit → Signature)
    (byzantine : Finset NodeId) (draw : NodeId → List D) (before after : NodeId → Process D) :
    Prop where
  honest : ∀ node ∈ mint.honest byzantine,
    (before node).step (mint.setup keys node) (.create (draw node)) = some (after node)
  others : ∀ node ∉ mint.honest byzantine, after node = before node

theorem NetworkRuns.attempt {draw : NodeId → List D} {after : NodeId → Process D}
    (runs : NetworkRuns mint keys byzantine processes)
    (attempted : Attempts mint keys byzantine draw processes after) :
    NetworkRuns mint keys byzantine after := by
  have some' : ∀ group ⊆ mint.honest byzantine, NetworkRuns mint keys byzantine
      (fun node => if node ∈ group then after node else processes node) := by
    intro group
    induction group using Finset.induction_on with
    | empty =>
        intro _
        simpa using runs
    | insert node group fresh inductionHypothesis =>
        intro within
        obtain ⟨isHonest, others⟩ := Finset.insert_subset_iff.mp within
        have stepped := attempted.honest node isHonest
        have before := inductionHypothesis others
        have deliverable : Deliverable mint byzantine
            (fun node => if node ∈ group then after node else processes node)
            (.create (draw node)) := trivial
        have next := NetworkRuns.step before (Mint.mem_honest.mp isHonest).2 deliverable
          (by simpa only [if_neg fresh] using stepped)
        have same : Function.update
            (fun node => if node ∈ group then after node else processes node) node (after node) =
              fun other => if other ∈ insert node group then after other else processes other := by
          funext other
          by_cases isNode : other = node
          · subst isNode
            rw [Function.update_self, if_pos (Finset.mem_insert_self _ _)]
          · rw [Function.update_of_ne isNode]
            simp only [Finset.mem_insert, isNode, false_or]
        exact same ▸ next
  have whole := some' _ (Finset.Subset.refl _)
  have same : (fun node => if node ∈ mint.honest byzantine then after node else processes node) =
      after := by
    funext node
    split
    · rfl
    · rename_i outside
      exact (attempted.others node outside).symm
  exact same ▸ whole

/-- The states of a run, with the number of attempts all honest engines have
made in a synchronised state with own items to wait for. -/
inductive Growing (mint : Mint D) (keys : NodeId → Nat → BftUnit → Signature)
    (byzantine : Finset NodeId) : Nat → (NodeId → Process D) → Prop
  | start {processes : NodeId → Process D} (runs : NetworkRuns mint keys byzantine processes) :
      Growing mint keys byzantine 0 processes
  | step {count : Nat} {processes : NodeId → Process D} {node : NodeId} {event : Event D}
      {next : Process D} (before : Growing mint keys byzantine count processes)
      (honest : node ∉ byzantine) (deliverable : Deliverable mint byzantine processes event)
      (stepped : (processes node).step (mint.setup keys node) event = some next) :
      Growing mint keys byzantine count (Function.update processes node next)
  | attempt {count : Nat} {processes after : NodeId → Process D} {draw : NodeId → List D}
      (before : Growing mint keys byzantine count processes)
      (synchronised : Synchronised mint byzantine processes)
      (waiting : Waiting mint byzantine processes)
      (attempted : Attempts mint keys byzantine draw processes after) :
      Growing mint keys byzantine (count + 1) after

theorem Growing.runs {count : Nat} (growing : Growing mint keys byzantine count processes) :
    NetworkRuns mint keys byzantine processes := by
  induction growing with
  | start runs => exact runs
  | step _ honest deliverable stepped inductionHypothesis =>
      exact NetworkRuns.step inductionHypothesis honest deliverable stepped
  | attempt _ _ _ attempted inductionHypothesis => exact inductionHypothesis.attempt attempted

/-- Every honest column has a unit for each attempt. -/
theorem Growing.columns (free : mint.CollisionFree) (bound : byzantine.card ≤ mint.n.maxEvil)
    (signs : Signs mint keys byzantine) {count : Nat}
    (growing : Growing mint keys byzantine count processes) :
    ∀ node ∈ mint.honest byzantine, count ≤ (processes node).created.length := by
  induction growing with
  | start runs => exact fun node _ => Nat.zero_le _
  | @step count processes stepper event next before honest deliverable stepped
      inductionHypothesis =>
      intro node isHonest
      have atLeast := inductionHypothesis node isHonest
      by_cases same : node = stepper
      · subst same
        rw [Function.update_self]
        exact atLeast.trans (step_units stepped).1.length_le
      · rw [Function.update_of_ne same]
        exact atLeast
  | @attempt count processes after draw before synchronised waiting attempted
      inductionHypothesis =>
      intro node isHonest
      have stepped := attempted.honest node isHonest
      have atLeast := inductionHypothesis node isHonest
      rcases atLeast.eq_or_lt with isLowest | above
      · obtain ⟨ev, engine, tables, created⟩ := before.runs.lowest_creates free bound signs
          synchronised waiting isHonest
          (fun other otherHonest => isLowest ▸ inductionHypothesis other otherHonest) (draw node)
        simp only [Process.step, created, Option.some.injEq] at stepped
        rw [← stepped, List.length_append, List.length_singleton, isLowest]
      · exact above.trans_le (step_units stepped).1.length_le

end Network

/-- Where all honest engines hold the same units and wait for own items, one of
them creates a unit, all of them can attempt to, and every honest column grows
by the attempt. -/
theorem work_gate_live {mint : Mint D} (free : mint.CollisionFree)
    {keys : NodeId → Nat → BftUnit → Signature} {byzantine : Finset NodeId}
    (bound : byzantine.card ≤ mint.n.maxEvil) (signs : Signs mint keys byzantine) :
    (∀ processes, NetworkRuns mint keys byzantine processes →
      Synchronised mint byzantine processes → Waiting mint byzantine processes →
      (∃ node ∈ mint.honest byzantine, ∀ data, ∃ ev engine tables,
        (processes node).engine.tryCreateUnit (mint.setup keys node) data
          (processes node).committed = some (some ev, engine, tables)) ∧
      ∀ draw, ∃ after, Attempts mint keys byzantine draw processes after) ∧
    ∀ count processes, Growing mint keys byzantine count processes →
      ∀ node ∈ mint.honest byzantine, count ≤ (processes node).created.length := by
  refine ⟨?_, fun count processes growing => growing.columns free bound signs⟩
  intro processes runs synchronised waiting
  have nonempty : (mint.honest byzantine).Nonempty := by
    have many := Mint.honest_card bound
    unfold NumNodes.threshold at many
    exact Finset.card_pos.mp (by omega)
  constructor
  · obtain ⟨node, isHonest, lowest⟩ := Finset.exists_min_image (mint.honest byzantine)
      (fun node => (processes node).created.length) nonempty
    exact ⟨node, isHonest, runs.lowest_creates free bound signs synchronised waiting isHonest
      lowest⟩
  · intro draw
    have each : ∀ node, ∃ next, (node ∈ mint.honest byzantine →
        (processes node).step (mint.setup keys node) (.create (draw node)) = some next) ∧
        (node ∉ mint.honest byzantine → next = processes node) := by
      intro node
      by_cases isHonest : node ∈ mint.honest byzantine
      · obtain ⟨next, stepped⟩ := runs.create_total free bound signs isHonest (draw node)
        exact ⟨next, fun _ => stepped, fun outside => absurd isHonest outside⟩
      · exact ⟨processes node, fun inside => absurd inside isHonest, fun _ => rfl⟩
    choose after isAfter using each
    exact ⟨after, fun node => (isAfter node).1, fun node => (isAfter node).2⟩

/-! Three engines hold the same units, two of them one unit behind the first; the
fourth node forks. -/

theorem openMint_signs : Signs openMint forkKeys {3} := fun _ _ _ _ => rfl

theorem openMint_honest {node : NodeId} (honest : node ∈ openMint.honest {3}) :
    node ∈ List.range 3 := by
  rw [Mint.mem_honest, NumNodes.mem_nodeIds] at honest
  have inside : node < 4 := honest.1
  have different : node ≠ 3 := fun same => honest.2 (Finset.mem_singleton.mpr same)
  exact List.mem_range.mpr (lt_of_le_of_ne (Nat.lt_succ_iff.mp inside) different)

def unevenEvents : List (NodeId × Event Nat) :=
  [(0, .create [7]), (1, .create [8]), (2, .create [9]), (0, forkArrival leftEnvelope),
    (0, forkArrival rightEnvelope), (0, forkArrival (forkEnvelope 0 1)),
    (0, forkArrival (forkEnvelope 0 2)), (0, .create []),
    (1, forkArrival (forkEnvelope 0 0)), (1, forkArrival (forkEnvelope 0 2)),
    (1, forkArrival leftEnvelope), (1, forkArrival rightEnvelope),
    (1, forkArrival (forkEnvelope 1 0)),
    (2, forkArrival (forkEnvelope 1 0)), (2, forkArrival rightEnvelope),
    (2, forkArrival (forkEnvelope 0 0)), (2, forkArrival (forkEnvelope 0 1)),
    (2, forkArrival leftEnvelope)]

theorem units_of_rows {left right : BftTables D} (same : left.unit.rows = right.unit.rows) :
    left.units = right.units := by
  ext unit
  change (∃ hash, left.unit.get? hash = some unit) ↔ ∃ hash, right.unit.get? hash = some unit
  simp only [← SortedMap.mem_rows, same]

theorem work_gate_live_sample :
    ∃ processes after : NodeId → Process Nat, NetworkRuns openMint forkKeys {3} processes ∧
      (List.range 3).map (fun node => (processes node).created.length) = [2, 1, 1] ∧
      (∃ node ∈ openMint.honest {3}, ∀ data, ∃ ev engine tables,
        (processes node).engine.tryCreateUnit (openMint.setup forkKeys node) data
          (processes node).committed = some (some ev, engine, tables)) ∧
      Attempts openMint forkKeys {3} (fun _ => []) processes after ∧
      ∀ node ∈ openMint.honest {3}, 1 ≤ (after node).created.length := by
  have evaluated : (runNodes openMint forkKeys {3} unevenEvents
      (List.replicate 3 Process.start)).any (fun last =>
        (List.range 3).map (fun node => (listed last node).created.length) = [2, 1, 1] ∧
        ∀ node ∈ List.range 3,
          (listed last node).committed.unit.rows = (listed last 0).committed.unit.rows ∧
          (listed last node).committed.unit.get? (forkHash 0 node) = some (forkUnit 0 node) ∧
          (listed last node).engine.emitted.contains (forkHash 0 node) = false) = true := by
    decide +kernel
  rw [Option.any_eq_true] at evaluated
  obtain ⟨last, ran, observed⟩ := evaluated
  obtain ⟨heights, each⟩ := of_decide_eq_true observed
  have runs : NetworkRuns openMint forkKeys {3} (listed last) :=
    (NetworkRuns.listed_start 3).run_nodes ran
  obtain ⟨live, grows⟩ :=
    work_gate_live openMint_collisionFree (by decide) openMint_signs
  have synchronised : Synchronised openMint {3} (listed last) := by
    intro left leftHonest right rightHonest
    exact units_of_rows ((each left (openMint_honest leftHonest)).1.trans
      (each right (openMint_honest rightHonest)).1.symm)
  have waiting : Waiting openMint {3} (listed last) := by
    intro node isHonest
    obtain ⟨_, stored, pending⟩ := each node (openMint_honest isHonest)
    exact ⟨_, _, stored, rfl, rfl, pending⟩
  obtain ⟨creates, attempts⟩ := live _ runs synchronised waiting
  obtain ⟨after, attempted⟩ := attempts fun _ => []
  exact ⟨_, after, runs, heights, creates, attempted,
    grows 1 after (Growing.attempt (Growing.start runs) synchronised waiting attempted)⟩

end Picomint.Bft
