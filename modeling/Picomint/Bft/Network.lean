/-
A mint of engines: honest nodes run processes, Byzantine nodes send anything.

Messages may be lost, repeated and reordered; the only thing a step asks of
the network is that a unit verifying for an honest creator was sent by that
creator.  That honest creators own one unit per round is then a theorem, and
with it agreement and the integrity of every honest creator's stream.
-/

import Picomint.Bft.OrderIndependence

namespace Picomint.Bft

open VirtualVoting BreadthFirst Engine

variable {D : Type}

def Mint.setup (mint : Mint D) (keys : NodeId → Nat → BftUnit → Signature) (node : NodeId) :
    Setup D :=
  { toMint := mint, id := node, sign := keys node }

/-- A unit that arrives verifying for an honest creator was sent by it. -/
def Deliverable (mint : Mint D) (byzantine : Finset NodeId) (processes : NodeId → Process D) :
    Event D → Prop
  | .receive _ _ (.unit ev) => ev.unit.creator ∉ byzantine →
      mint.verify mint.session ev.unit ev.signature ev.unit.creator = true →
        ∃ entry ∈ (processes ev.unit.creator).network, ∃ own : UnitEnvelope D,
          entry.2 = .unit own ∧ own.unit = ev.unit
  | _ => True

/-- The joint states of the honest nodes. -/
inductive NetworkRuns (mint : Mint D) (keys : NodeId → Nat → BftUnit → Signature)
    (byzantine : Finset NodeId) : (NodeId → Process D) → Prop
  | start : NetworkRuns mint keys byzantine fun _ => Process.start
  | step {processes : NodeId → Process D} {node : NodeId} {event : Event D} {next : Process D}
      (before : NetworkRuns mint keys byzantine processes) (honest : node ∉ byzantine)
      (deliverable : Deliverable mint byzantine processes event)
      (stepped : (processes node).step (mint.setup keys node) event = some next) :
      NetworkRuns mint keys byzantine (Function.update processes node next)

/-! ### Runs of listed nodes -/

/-- The processes of the first nodes of a mint; every other one has not started. -/
def listed (processes : List (Process D)) (node : NodeId) : Process D :=
  processes.getD node Process.start

def sentBy (processes : List (Process D)) (unit : BftUnit) : Bool :=
  (listed processes unit.creator).network.any fun entry =>
    match entry.2 with
    | .unit own => decide (own.unit = unit)
    | .request _ => false

/-- An event the network may bring. -/
def admitted (byzantine : Finset NodeId) (processes : List (Process D)) : Event D → Bool
  | .receive _ _ (.unit ev) => decide (ev.unit.creator ∈ byzantine) || sentBy processes ev.unit
  | _ => true

def runNodes (mint : Mint D) (keys : NodeId → Nat → BftUnit → Signature)
    (byzantine : Finset NodeId) : List (NodeId × Event D) → List (Process D) →
      Option (List (Process D))
  | [], processes => some processes
  | (node, event) :: rest, processes =>
      if node ∉ byzantine ∧ node < processes.length ∧
          admitted byzantine processes event = true then
        match (listed processes node).step (mint.setup keys node) event with
        | none => none
        | some next => runNodes mint keys byzantine rest (processes.set node next)
      else none

theorem listed_set {processes : List (Process D)} {node : NodeId} (inside : node < processes.length)
    (next : Process D) :
    listed (processes.set node next) = Function.update (listed processes) node next := by
  funext other
  unfold listed
  by_cases same : other = node
  · subst same
    rw [Function.update_self, List.getD_eq_getElem?_getD, List.getElem?_set_self inside,
      Option.getD_some]
  · rw [Function.update_of_ne same, List.getD_eq_getElem?_getD, List.getD_eq_getElem?_getD,
      List.getElem?_set_ne fun equal => same equal.symm]

theorem deliverable_of_admitted {mint : Mint D} {byzantine : Finset NodeId}
    {processes : List (Process D)} {event : Event D}
    (allowed : admitted byzantine processes event = true) :
    Deliverable mint byzantine (listed processes) event := by
  cases event with
  | receive now sender message =>
      cases message with
      | request hash => trivial
      | unit ev =>
          intro honest _
          rcases Bool.or_eq_true_iff.mp allowed with isByzantine | sent
          · exact absurd (of_decide_eq_true isByzantine) honest
          · obtain ⟨entry, member, isUnit⟩ := List.any_eq_true.mp sent
            refine ⟨entry, member, ?_⟩
            cases message : entry.2 with
            | request hash =>
                rw [message] at isUnit
                cases isUnit
            | unit own =>
                rw [message] at isUnit
                exact ⟨own, rfl, of_decide_eq_true isUnit⟩
  | _ => trivial

theorem NetworkRuns.run_nodes {mint : Mint D} {keys : NodeId → Nat → BftUnit → Signature}
    {byzantine : Finset NodeId} {events : List (NodeId × Event D)}
    {processes last : List (Process D)}
    (runs : NetworkRuns mint keys byzantine (listed processes))
    (ran : runNodes mint keys byzantine events processes = some last) :
    NetworkRuns mint keys byzantine (listed last) := by
  induction events generalizing processes with
  | nil =>
      cases ran
      exact runs
  | cons entry rest ih =>
      obtain ⟨node, event⟩ := entry
      unfold runNodes at ran
      split at ran
      · rename_i fits
        split at ran
        · cases ran
        · rename_i next stepped
          refine ih ?_ ran
          rw [listed_set fits.2.1]
          exact runs.step fits.1 (deliverable_of_admitted fits.2.2) stepped
      · cases ran

theorem NetworkRuns.listed_start {mint : Mint D} {keys : NodeId → Nat → BftUnit → Signature}
    {byzantine : Finset NodeId} (count : Nat) :
    NetworkRuns mint keys byzantine (listed (List.replicate count Process.start)) := by
  have same : listed (List.replicate count (Process.start : Process D)) =
      fun _ => Process.start := by
    funext node
    unfold listed
    rw [List.getD_eq_getElem?_getD, List.getElem?_replicate]
    split
    · rfl
    · rfl
  rw [same]
  exact NetworkRuns.start

/-! ### One step of one node -/

section Steps

variable {setup : Setup D} {process next : Process D}

theorem restart_units {sent : List (Recipient × Message D)}
    (restarted : process.restart setup sent = some next) :
    next.committed = process.durable ∧ next.durable = process.durable ∧
      next.created = process.created := by
  unfold Process.restart at restarted
  split at restarted
  · cases restarted
  · cases restarted
    exact ⟨rfl, rfl, rfl⟩

/-- Where a stored unit can come from: the rows before the step, an arrived
envelope, or a creation. -/
theorem step_units {event : Event D} (stepped : process.step setup event = some next) :
    process.created <+: next.created ∧ ∀ unit ∈ next.committed.units,
      unit ∈ process.committed.units ∨ unit ∈ process.durable.units ∨
      (∃ now sender ev, event = .receive now sender (.unit ev) ∧ ev.unit = unit ∧
        Checked setup.toMint ev) ∨
      unit.creator = setup.id ∧ ∃ ev ∈ next.created, ev.unit = unit := by
  have grown : ∀ {ev : UnitEnvelope D} {unit : BftUnit} {hash : UnitHash},
      unit ∈ (process.committed.insert hash ev).units →
        unit ∈ process.committed.units ∨ ev.unit = unit := by
    rintro ev unit hash ⟨other, found⟩
    rw [BftTables.insert, SortedMap.get?_insert] at found
    split at found
    · exact Or.inr (Option.some.inj found)
    · exact Or.inl ⟨other, found⟩
  have restarted : ∀ {sent : List (Recipient × Message D)},
      process.restart setup sent = some next → process.created <+: next.created ∧
        ∀ unit ∈ next.committed.units, unit ∈ process.committed.units ∨
          unit ∈ process.durable.units ∨
          (∃ now sender ev, event = .receive now sender (.unit ev) ∧ ev.unit = unit ∧
            Checked setup.toMint ev) ∨
          unit.creator = setup.id ∧ ∃ ev ∈ next.created, ev.unit = unit := by
    intro sent restarted
    obtain ⟨committed, _, created⟩ := restart_units restarted
    rw [committed, created]
    exact ⟨List.prefix_rfl, fun unit member => Or.inr (Or.inl member)⟩
  cases event with
  | receive now sender message =>
      simp only [Process.step] at stepped
      split at stepped
      · cases stepped
      · rename_i handled
        cases stepped
        refine ⟨List.prefix_rfl, fun unit member => ?_⟩
        rcases handleMessage_cases handled with
          ⟨rfl, _⟩ | ⟨ev, _, rfl, checked, _, _, rfl, _, _⟩
        · exact Or.inl member
        · rcases grown member with old | new
          · exact Or.inl old
          · exact Or.inr (Or.inr (Or.inl ⟨now, sender, ev, rfl, new, checked⟩))
  | interrupt now sender ev count =>
      simp only [Process.step] at stepped
      split at stepped
      · exact restarted stepped
      · exact restarted stepped
  | create data =>
      simp only [Process.step, tryCreateUnit] at stepped
      cases persisted : persistUnit setup data process.committed process.engine with
      | none =>
          rw [persisted] at stepped
          cases stepped
      | some result =>
          obtain ⟨built, engine, tables⟩ := result
          rw [persisted] at stepped
          rcases persistUnit_cases persisted with ⟨rfl, rfl, rfl⟩ |
            ⟨ev, parents, own, rfl, unitEq, _, _, _, _, rfl, _⟩
          · cases stepped
            exact ⟨List.prefix_rfl, fun unit member => Or.inl member⟩
          · cases stepped
            refine ⟨List.prefix_append _ _, fun unit member => ?_⟩
            rcases grown member with old | rfl
            · exact Or.inl old
            · exact Or.inr (Or.inr (Or.inr ⟨by rw [unitEq], ev, by simp, rfl⟩))
  | interruptCreate data =>
      simp only [Process.step] at stepped
      split at stepped
      · cases stepped
      · exact restarted stepped
      · rename_i ev engine tables persisted
        rcases persistUnit_cases persisted with ⟨impossible, _⟩ |
          ⟨built, parents, own, sameEv, unitEq, _, _, _, _, rfl, _⟩
        · cases impossible
        · cases sameEv
          obtain ⟨committed, _, created⟩ := restart_units stepped
          rw [committed, created]
          refine ⟨List.prefix_append _ _, fun unit member => ?_⟩
          rcases grown member with old | rfl
          · exact Or.inl old
          · exact Or.inr (Or.inr (Or.inr ⟨by rw [unitEq], ev, by simp, rfl⟩))
  | antiEntropy =>
      simp only [Process.step] at stepped
      split at stepped
      · cases stepped
      · cases stepped
        exact ⟨List.prefix_rfl, fun unit member => Or.inl member⟩
  | flush =>
      cases stepped
      exact ⟨List.prefix_rfl, fun unit member => Or.inl member⟩
  | crash => exact restarted stepped

end Steps

/-! ### Joint invariants -/

section Joint

variable {mint : Mint D} {keys : NodeId → Nat → BftUnit → Signature} {byzantine : Finset NodeId}
variable {processes : NodeId → Process D}

/-- Every node's own run is one of the restarting process. -/
theorem NetworkRuns.node_runs (runs : NetworkRuns mint keys byzantine processes) (node : NodeId) :
    Runs (mint.setup keys node) (Authentic (mint.setup keys node)) (processes node) := by
  induction runs with
  | start => exact Runs.start
  | @step processes stepper event next before honest deliverable stepped ih =>
      by_cases same : node = stepper
      · subst same
        rw [Function.update_self]
        refine Runs.step ih ?_ stepped
        cases event with
        | receive now sender message =>
            cases message with
            | unit ev =>
                intro own verified
                change ev.unit.creator = node at own
                exact own ▸ deliverable (own ▸ honest) (own ▸ verified)
            | request hash => trivial
        | _ => trivial
      · rw [Function.update_of_ne same]
        exact ih

theorem NetworkRuns.intact (runs : NetworkRuns mint keys byzantine processes) (node : NodeId) :
    Intact (mint.setup keys node) (processes node) :=
  (runs.node_runs node).intact

/-- A unit stored anywhere under an honest creator was created by it. -/
theorem NetworkRuns.created_by (free : mint.CollisionFree)
    (bound : byzantine.card ≤ mint.n.maxEvil) (runs : NetworkRuns mint keys byzantine processes)
    {node : NodeId} {unit : BftUnit} (stored : unit ∈ (processes node).committed.units)
    (honest : unit.creator ∉ byzantine) :
    ∃ ev ∈ (processes unit.creator).created, ev.unit = unit := by
  induction runs generalizing node with
  | start =>
      obtain ⟨hash, impossible⟩ := stored
      cases impossible
  | @step processes stepper event next before stepperHonest deliverable stepped ih =>
      obtain ⟨kept, origin⟩ := step_units stepped
      have keeps : ∀ creator, ∀ ev ∈ (processes creator).created,
          ev ∈ (Function.update processes stepper next creator).created := by
        intro creator ev member
        by_cases same : creator = stepper
        · subst same
          rw [Function.update_self]
          exact kept.subset member
        · rw [Function.update_of_ne same]
          exact member
      have earlier : ∀ {other : NodeId}, unit ∈ (processes other).committed.units →
          ∃ ev ∈ (Function.update processes stepper next unit.creator).created,
            ev.unit = unit := by
        intro other inRows
        obtain ⟨ev, member, same⟩ := ih inRows
        exact ⟨ev, keeps _ ev member, same⟩
      by_cases same : node = stepper
      · subst same
        rw [Function.update_self] at stored
        rcases origin unit stored with old | durable | ⟨now, sender, ev, rfl, rfl, checked⟩ |
          ⟨own, ev, member, isUnit⟩
        · exact earlier old
        · have orderly := (before.node_runs node).orderly free bound
          exact earlier (orderly.durable.units durable)
        · obtain ⟨entry, sent, envelope, isEnvelope, sameUnit⟩ :=
            deliverable honest checked.signed
          obtain ⟨own, created, ownUnit⟩ := (before.intact ev.unit.creator).sent entry sent envelope
            isEnvelope (by rw [sameUnit]; rfl)
          exact ⟨own, keeps _ own created, ownUnit.trans sameUnit⟩
        · refine ⟨ev, ?_, isUnit⟩
          change unit.creator = node at own
          rw [own, Function.update_self]
          exact member
      · rw [Function.update_of_ne same] at stored
        exact earlier stored

/-- Honest creators own one unit per round among all stored units. -/
theorem NetworkRuns.singleVoiced (free : mint.CollisionFree)
    (bound : byzantine.card ≤ mint.n.maxEvil) (runs : NetworkRuns mint keys byzantine processes) :
    SingleVoiced byzantine { unit | ∃ node, unit ∈ (processes node).committed.units } := by
  rintro left ⟨leftNode, leftStored⟩ right ⟨rightNode, rightStored⟩ honest sameCreator sameRound
  obtain ⟨first, firstCreated, firstIs⟩ := runs.created_by free bound leftStored honest
  obtain ⟨second, secondCreated, secondIs⟩ :=
    runs.created_by free bound rightStored (sameCreator ▸ honest)
  rw [← sameCreator] at secondCreated
  have chain := (runs.intact left.creator).chain
  have same := chain.unique firstCreated secondCreated (by rw [firstIs, secondIs, sameRound])
  rw [← firstIs, ← secondIs, same]

theorem NetworkRuns.settled (free : mint.CollisionFree) (bound : byzantine.card ≤ mint.n.maxEvil)
    (runs : NetworkRuns mint keys byzantine processes) (node : NodeId) :
    Settled mint bound (processes node).committed (processes node).engine :=
  ((runs.node_runs node).orderly free bound).settled
    ((runs.singleVoiced free bound).mono fun _ member => ⟨node, member⟩)

/-- Agreement of all nodes of a mint, with nothing assumed of the honest
creators but that they run the engine. -/
theorem network_agrees (free : mint.CollisionFree) (bound : byzantine.card ≤ mint.n.maxEvil)
    (runs : NetworkRuns mint keys byzantine processes) (left right : NodeId) :
    (processes left).engine.orderedTx <+: (processes right).engine.orderedTx ∨
      (processes right).engine.orderedTx <+: (processes left).engine.orderedTx := by
  refine (runs.settled free bound left).comparable free (runs.settled free bound right) ?_
  exact (runs.singleVoiced free bound).mono fun _ member =>
    member.elim (fun inLeft => ⟨left, inLeft⟩) (fun inRight => ⟨right, inRight⟩)

end Joint

/-- Nodes 0, 1 and 2 of the mint whose fourth node forks: they create, and hear
of each other's units round by round. -/
def forkStart : List (NodeId × Event Nat) :=
  [(0, .create [7]), (1, .create [8]), (2, .create [9]),
    (1, forkArrival (forkEnvelope 0 2)), (1, forkArrival leftEnvelope), (1, .create []),
    (2, forkArrival (forkEnvelope 0 0)), (2, forkArrival rightEnvelope), (2, .create []),
    (0, forkArrival (forkEnvelope 0 1)), (0, forkArrival (forkEnvelope 0 2)), (0, forkArrival rightEnvelope),
    (0, forkArrival leftEnvelope), (0, .create []),
    (1, forkArrival (forkEnvelope 0 0)), (1, forkArrival rightEnvelope),
    (2, forkArrival leftEnvelope), (2, forkArrival (forkEnvelope 0 1))]

def forkExchange (round : Nat) : List (NodeId × Event Nat) :=
  [(0, forkArrival (forkEnvelope round 2)), (0, forkArrival (forkEnvelope round 1)),
    (1, forkArrival (forkEnvelope round 0)), (1, forkArrival (forkEnvelope round 2)),
    (2, forkArrival (forkEnvelope round 1)), (2, forkArrival (forkEnvelope round 0))]

def forkEvents (rounds : Nat) : List (NodeId × Event Nat) :=
  forkStart ++ (List.range rounds).flatMap fun round => forkExchange (round + 1) ++
    (List.range 3).map fun node => (node, .create (forkData (round + 2) node))

end Picomint.Bft
