/-
The receive loop of the key generation.

`run_dkg_secp` and `run_dkg_g2` pass over the other nodes again and again and
wait for one message of each.  Among honest nodes no wait is forever: a node
that waits for a message waits for a node that is a pass behind.
-/

import Picomint.Dkg.Results

namespace Picomint.Config

variable {scheme : Scheme}

def others (nodes : NumNodes) (identity : NodeId) : List NodeId :=
  nodes.nodeIds.filter fun node => node ≠ identity

structure Loop (scheme : Scheme) where
  net : Net scheme
  /-- What is left of the pass of a node. -/
  turn : NodeId → List NodeId

namespace Loop

variable (setup : Setup scheme)

def start : Loop scheme :=
  { net := Net.start
    turn := others setup.nodes }

def pass (turn : NodeId → List NodeId) (node : NodeId) (waiting : List NodeId) :
    NodeId → List NodeId :=
  Function.update turn node (if waiting = [] then others setup.nodes node else waiting)

inductive Step (loop : Loop scheme) : Loop scheme → Prop
  | begin {node : NodeId} (honest : setup.Honest node) (idle : loop.net.phase node = .idle) :
      Step loop { loop with net := loop.net.begin setup node }
  | receive {node sender : NodeId} (honest : setup.Honest node) {waiting : List NodeId}
      (turn : loop.turn node = sender :: waiting) {dkg : Dkg scheme}
      (running : loop.net.phase node = .running dkg) {message : Message scheme}
      {rest : List (Message scheme)} (queued : loop.net.channel sender node = message :: rest) :
      Step loop
        { net := loop.net.receive setup node sender dkg message
          turn := pass setup loop.turn node waiting }
  | byzantine {sender : NodeId} (evil : sender ∈ setup.byzantine) (receiver : NodeId)
      (message : Message scheme) :
      Step loop { loop with net := loop.net.send sender receiver message }

def Reachable (loop : Loop scheme) : Prop := Relation.ReflTransGen (Step setup) (start setup) loop

end Loop

section Turns

variable {setup : Setup scheme} {loop next : Loop scheme} {node sender : NodeId}

theorem mem_others {nodes : NumNodes} {identity peer : NodeId} :
    peer ∈ others nodes identity ↔ peer < nodes.total ∧ peer ≠ identity := by
  rw [others, List.mem_filter, NumNodes.mem_nodeIds, decide_eq_true_eq]

theorem others_nodup (nodes : NumNodes) (identity : NodeId) : (others nodes identity).Nodup :=
  List.nodup_range.filter _

theorem others_ne_nil (setup : Setup scheme) (node : NodeId) : others setup.nodes node ≠ [] := by
  obtain ⟨peer, known, other⟩ := exists_peer setup node
  exact List.ne_nil_of_mem (mem_others.mpr ⟨known, other⟩)

/-- Every node is within a pass. -/
def Turns (setup : Setup scheme) (turn : NodeId → List NodeId) : Prop :=
  ∀ node, turn node ≠ [] ∧ turn node <:+ others setup.nodes node

theorem Turns.start (setup : Setup scheme) : Turns setup (others setup.nodes) :=
  fun node => ⟨others_ne_nil setup node, List.suffix_rfl⟩

theorem Turns.pass {turn : NodeId → List NodeId} {waiting : List NodeId}
    (turns : Turns setup turn) (isTurn : turn node = sender :: waiting) :
    Turns setup (Loop.pass setup turn node waiting) := by
  intro other
  unfold Loop.pass
  by_cases same : other = node
  · subst same
    rw [Function.update_self]
    split
    · exact Turns.start setup other
    · rename_i more
      have within := (turns other).2
      rw [isTurn] at within
      exact ⟨more, (List.suffix_cons sender waiting).trans within⟩
  · rw [Function.update_of_ne same]
    exact turns other

theorem Turns.first {turn : NodeId → List NodeId} {waiting : List NodeId}
    (turns : Turns setup turn) (isTurn : turn node = sender :: waiting) :
    sender < setup.nodes.total ∧ sender ≠ node := by
  have within := (turns node).2
  rw [isTurn] at within
  exact mem_others.mp (within.subset List.mem_cons_self)

/-- What the loops do is a run of the network. -/
theorem Loop.Step.net (turns : Turns setup loop.turn) (stepped : Loop.Step setup loop next) :
    Net.Step setup loop.net next.net ∧ Turns setup next.turn := by
  cases stepped with
  | begin honest idle => exact ⟨.begin honest idle, turns⟩
  | receive honest turn running queued =>
      obtain ⟨known, other⟩ := turns.first turn
      exact ⟨.receive honest known other running queued, turns.pass turn⟩
  | byzantine evil receiver message => exact ⟨.byzantine evil receiver message, turns⟩

theorem Loop.Reachable.net (reached : Loop.Reachable setup loop) :
    Net.Reachable setup loop.net ∧ Turns setup loop.turn := by
  induction reached with
  | refl => exact ⟨.refl, Turns.start setup⟩
  | tail _ stepped ih =>
      obtain ⟨step, turns⟩ := stepped.net ih.2
      exact ⟨ih.1.tail step, turns⟩

end Turns

/-! ### No wait is forever -/

section Level

variable {setup : Setup scheme} {share : NodeId → NodeId → scheme.Key}
  {pks : List scheme.Commitment} {sks : NodeId → scheme.Key} {progress : Progress}
  {loop next : Loop scheme} {node sender : NodeId}

/-- A node has finished so many passes, and has yet to receive from some nodes
in the next one. -/
def Level (setup : Setup scheme) (node : NodeId) (row : NodeId → Nat) (turn : List NodeId)
    (passes : Nat) : Prop :=
  ∀ peer, peer < setup.nodes.total → peer ≠ node →
    row peer = if peer ∈ turn then passes else passes + 1

theorem Level.start (setup : Setup scheme) (node : NodeId) :
    Level setup node (fun _ => 0) (others setup.nodes node) 0 :=
  fun _ known other => (if_pos (mem_others.mpr ⟨known, other⟩)).symm

theorem Level.pass {row row' : NodeId → Nat} {passes count : Nat} {waiting : List NodeId}
    (level : Level setup node row (sender :: waiting) passes) (nodup : (sender :: waiting).Nodup)
    (advanced : Next setup node sender row row' count) :
    Level setup node row' (if waiting = [] then others setup.nodes node else waiting)
      (if waiting = [] then passes + 1 else passes) := by
  have sent : row sender = passes :=
    (level sender advanced.known advanced.other).trans (if_pos List.mem_cons_self)
  intro peer known other
  have before := level peer known other
  by_cases same : peer = sender
  · subst same
    have now : row' peer = passes + 1 := by
      rw [advanced.after, ← advanced.before, sent]
    by_cases last : waiting = []
    · rw [now, if_pos last, if_pos last, if_pos (mem_others.mpr ⟨known, other⟩)]
    · rw [now, if_neg last, if_neg last, if_neg (List.nodup_cons.mp nodup).1]
  · have inPass : peer ∈ sender :: waiting ↔ peer ∈ waiting :=
      List.mem_cons.trans (or_iff_right same)
    rw [advanced.others peer same, before]
    simp only [inPass]
    by_cases last : waiting = []
    · rw [if_pos last, if_pos last, if_pos (mem_others.mpr ⟨known, other⟩), last,
        if_neg List.not_mem_nil]
    · rw [if_neg last, if_neg last]

structure InTurn (setup : Setup scheme) (share : NodeId → NodeId → scheme.Key)
    (pks : List scheme.Commitment) (sks : NodeId → scheme.Key) (progress : Progress)
    (loop : Loop scheme) : Prop where
  tracks : Tracks setup share pks sks progress loop.net
  turns : Turns setup loop.turn
  level : ∀ node < setup.nodes.total, ∃ passes,
    Level setup node (progress.received node) (loop.turn node) passes

theorem InTurn.start (setup : Setup scheme) (share : NodeId → NodeId → scheme.Key)
    (pks : List scheme.Commitment) (sks : NodeId → scheme.Key) :
    InTurn setup share pks sks Progress.start (Loop.start setup) where
  tracks := Tracks.start setup share pks sks
  turns := Turns.start setup
  level := fun node _ => ⟨0, Level.start setup node⟩

theorem InTurn.step (regular : Regular setup share pks sks)
    (inTurn : InTurn setup share pks sks progress loop) (stepped : Loop.Step setup loop next) :
    ∃ after, remaining setup after < remaining setup progress ∧
      InTurn setup share pks sks after next := by
  obtain ⟨tracks, turns, level⟩ := inTurn
  cases stepped with
  | @begin node honest idle =>
      have notBegun : progress.begun node = false := by
        by_contra begun
        obtain ⟨dkg, _, isPhase⟩ := tracks.active node honest.1 (Bool.not_eq_false _ ▸ begun)
        rw [idle] at isPhase
        unfold phaseOf at isPhase
        split at isPhase <;> cases isPhase
      exact ⟨progress.begin node, remaining_begin honest.1 notBegun,
        tracks.begin honest.1 notBegun, turns, level⟩
  | @receive node sender honest waiting isTurn dkg running message rest queued =>
      obtain ⟨known, other⟩ := turns.first isTurn
      obtain ⟨sent, after⟩ := tracks.receive regular honest.1 known other running queued
      have few := Progress.outgoing_le setup progress sender
      refine ⟨progress.receive node sender,
        remaining_receive honest.1 known (lt_of_lt_of_le sent few), after, turns.pass isTurn, ?_⟩
      intro peer isPeer
      by_cases same : peer = node
      · subst same
        obtain ⟨passes, here⟩ := level peer isPeer
        have nodup := (turns peer).2.sublist.nodup (others_nodup setup.nodes peer)
        rw [isTurn] at here nodup
        refine ⟨if waiting = [] then passes + 1 else passes, ?_⟩
        change Level setup peer _ (Loop.pass setup loop.turn peer waiting peer) _
        rw [Loop.pass, Function.update_self]
        exact here.pass nodup (progress.receive_next setup known other)
      · obtain ⟨passes, here⟩ := level peer isPeer
        have still : (progress.receive node sender).received peer = progress.received peer :=
          Function.update_of_ne same ..
        refine ⟨passes, ?_⟩
        change Level setup peer _ (Loop.pass setup loop.turn node waiting peer) passes
        rw [Loop.pass, Function.update_of_ne same, still]
        exact here
  | byzantine evil receiver message =>
      rw [regular.honest] at evil
      cases evil

/-- A node that has received a message of every other one has sent one more. -/
theorem Progress.lt_outgoing (begun : progress.begun node = true) {count : Nat} (few : count < 3)
    (past : Past setup node (progress.received node) count) :
    count < progress.outgoing setup node := by
  unfold Progress.outgoing
  rw [begun, if_neg Bool.noConfusion]
  split
  · exact few
  · rename_i notTwo
    have one : count < 2 := by
      by_contra more
      exact notTwo (past.mono (by omega))
    split
    · exact one
    · rename_i notOne
      by_contra more
      exact notOne (past.mono (by omega))

/-- Where nobody can receive, all have received everything: a node that waits
waits for one that has finished fewer passes. -/
theorem InTurn.drained (regular : Regular setup share pks sks)
    (inTurn : InTurn setup share pks sks progress loop)
    (begun : ∀ node < setup.nodes.total, progress.begun node = true)
    (stuck : ¬∃ next, Loop.Step setup loop next) (passes : Nat) : ∀ node < setup.nodes.total,
      Level setup node (progress.received node) (loop.turn node) passes →
        Past setup node (progress.received node) 3 := by
  obtain ⟨tracks, turns, level⟩ := inTurn
  have honest : ∀ node < setup.nodes.total, setup.Honest node := by
    intro node known
    refine ⟨known, ?_⟩
    rw [regular.honest]
    exact Finset.notMem_empty node
  induction passes using Nat.strong_induction_on with
  | _ passes ih =>
      intro node known here
      by_contra notDone
      obtain ⟨dkg, _, isPhase⟩ := tracks.active node known (begun node known)
      unfold phaseOf at isPhase
      rw [if_neg notDone] at isPhase
      obtain ⟨sender, waiting, isTurn⟩ := List.exists_cons_of_ne_nil (turns node).1
      obtain ⟨isSender, different⟩ := turns.first isTurn
      have received : progress.received node sender = passes := by
        rw [here sender isSender different, isTurn, if_pos List.mem_cons_self]
      have few : passes < 3 := by
        by_contra many
        refine notDone fun peer isPeer other => ?_
        rw [here peer isPeer other]
        split <;> omega
      have past : Past setup sender (progress.received sender) passes := by
        obtain ⟨behind, level⟩ := level sender isSender
        by_cases earlier : behind < passes
        · exact (ih behind earlier sender isSender level).mono few.le
        · intro peer isPeer other
          rw [level peer isPeer other]
          split <;> omega
      have waiting' := Progress.lt_outgoing (begun sender isSender) few past
      have queue := tracks.channel sender node isSender known different
      have nonempty : progress.received node sender < ((script setup share sender node).take
          (progress.outgoing setup sender)).length := by
        have atMost := Progress.outgoing_le setup progress sender
        rw [List.length_take, received]
        change _ < min _ 3
        omega
      rw [List.drop_eq_getElem_cons nonempty] at queue
      exact stuck ⟨_, .receive (honest node known) isTurn isPhase queue⟩

theorem InTurn.moves (regular : Regular setup share pks sks)
    (inTurn : InTurn setup share pks sks progress loop) :
    AllDone setup pks sks loop.net ∨ ∃ next, Loop.Step setup loop next := by
  by_cases stuck : ∃ next, Loop.Step setup loop next
  · exact Or.inr stuck
  · left
    have begun : ∀ node < setup.nodes.total, progress.begun node = true := by
      intro node known
      by_contra idle
      have isIdle := (inTurn.tracks.idle node known (Bool.eq_false_iff.mpr idle)).1
      refine stuck ⟨_, .begin ⟨known, ?_⟩ isIdle⟩
      rw [regular.honest]
      exact Finset.notMem_empty node
    intro node known
    obtain ⟨passes, level⟩ := inTurn.level node known
    obtain ⟨dkg, _, isPhase⟩ := inTurn.tracks.active node known (begun node known)
    exact ⟨dkg, isPhase.trans (if_pos (inTurn.drained regular begun stuck passes node known level))⟩

theorem inTurn_of_reachable (regular : Regular setup share pks sks)
    (reached : Loop.Reachable setup loop) :
    ∃ progress, InTurn setup share pks sks progress loop := by
  induction reached with
  | refl => exact ⟨_, InTurn.start setup share pks sks⟩
  | tail _ stepped ih =>
      obtain ⟨progress, inTurn⟩ := ih
      obtain ⟨after, _, next⟩ := inTurn.step regular stepped
      exact ⟨after, next⟩

theorem loop_inevitably_done (regular : Regular setup share pks sks)
    (reached : Loop.Reachable setup loop) :
    Inevitably (Loop.Step setup) (fun loop => AllDone setup pks sks loop.net) loop := by
  obtain ⟨progress, inTurn⟩ := inTurn_of_reachable regular reached
  exact Inevitably.of_tracked (measure (remaining setup)).wf
    (fun _ _ _ inTurn stepped => inTurn.step regular stepped)
    (fun _ _ inTurn => inTurn.moves regular) inTurn

end Level

/-- The loops return in every run of honest nodes, and whatever they do is a run
in which the nodes receive in any order. -/
theorem run_dkg_returns (curve : Tss.Curve) (secpHash : List (Tss.PublicKey curve) → Hash)
    (groups : Tbs.PairingGroups) [DecidableEq groups.G2] (g2Hash : List groups.G2 → Hash) :
    (∀ setup : Setup (secp curve secpHash), setup.byzantine = ∅ → DkgSecp.NoZeroSum setup →
      ∃ pks sks, DkgSecp.Shared setup pks sks ∧ ∀ loop, Loop.Reachable setup loop →
        Inevitably (Loop.Step setup) (fun loop => AllDone setup pks sks loop.net) loop) ∧
    (∀ setup : Setup (pairingG2 groups g2Hash), setup.byzantine = ∅ →
      ∃ pks sks, DkgG2.Shared setup pks sks ∧ ∀ loop, Loop.Reachable setup loop →
        Inevitably (Loop.Step setup) (fun loop => AllDone setup pks sks loop.net) loop) ∧
    (∀ (setup : Setup (secp curve secpHash)) loop, Loop.Reachable setup loop →
      Net.Reachable setup loop.net) ∧
    ∀ (setup : Setup (pairingG2 groups g2Hash)) loop, Loop.Reachable setup loop →
      Net.Reachable setup loop.net := by
  refine ⟨?_, ?_, fun setup loop reached => reached.net.1, fun setup loop reached => reached.net.1⟩
  · intro setup honest generic
    obtain ⟨share, pks, sks, regular⟩ := DkgSecp.exists_regular honest generic
    exact ⟨pks, sks, DkgSecp.shared regular generic,
      fun loop reached => loop_inevitably_done regular reached⟩
  · intro setup honest
    obtain ⟨share, pks, sks, regular⟩ := DkgG2.exists_regular honest
    exact ⟨pks, sks, DkgG2.shared regular,
      fun loop reached => loop_inevitably_done regular reached⟩

theorem run_dkg_returns_sample :
    (∃ pks sks, DkgSecp.Shared (sampleSetup ∅) pks sks ∧ ∀ loop,
      Loop.Reachable (sampleSetup ∅) loop → Inevitably (Loop.Step (sampleSetup ∅))
        (fun loop => AllDone (sampleSetup ∅) pks sks loop.net) loop) ∧
    ∃ pks sks, DkgG2.Shared sampleSetupG2 pks sks ∧ ∀ loop,
      Loop.Reachable sampleSetupG2 loop → Inevitably (Loop.Step sampleSetupG2)
        (fun loop => AllDone sampleSetupG2 pks sks loop.net) loop := by
  have returns := run_dkg_returns Tss.scalarCurve sampleHash Tbs.scalarGroups fun _ => 0
  exact ⟨returns.1 (sampleSetup ∅) rfl (sampleSetup_generic ∅), returns.2.1 sampleSetupG2 rfl⟩

end Picomint.Config
