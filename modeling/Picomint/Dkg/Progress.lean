/-
The key generation among honest nodes.

The state of every instance and of every channel is a function of how many
messages each node has received from each other one.  So no instance errors,
whatever the order of the messages, and every instance returns.
-/

import Picomint.Dkg.Rows
import Picomint.Lib.Inevitable

namespace Picomint.Config

variable {scheme : Scheme} {setup : Setup scheme} {share : NodeId → NodeId → scheme.Key}
  {pks : List scheme.Commitment} {sks : NodeId → scheme.Key}

/-- Which nodes have begun, and how many messages a node has received from
another one. -/
structure Progress where
  begun : NodeId → Bool
  received : NodeId → NodeId → Nat

namespace Progress

def start : Progress :=
  { begun := fun _ => false
    received := fun _ _ => 0 }

/-- How many messages a node has sent to each other one. -/
def outgoing (setup : Setup scheme) (progress : Progress) (node : NodeId) : Nat :=
  if progress.begun node = false then 0
  else if Past setup node (progress.received node) 2 then 3
  else if Past setup node (progress.received node) 1 then 2
  else 1

theorem outgoing_le (setup : Setup scheme) (progress : Progress) (node : NodeId) :
    progress.outgoing setup node ≤ 3 := by
  unfold outgoing
  split
  · decide
  · split
    · decide
    · split <;> decide

/-- What a node does is its own. -/
theorem outgoing_congr {progress other : Progress} {node : NodeId}
    (begun : other.begun node = progress.begun node)
    (received : other.received node = progress.received node) :
    other.outgoing setup node = progress.outgoing setup node := by
  unfold outgoing
  rw [begun, received]

def begin (progress : Progress) (node : NodeId) : Progress :=
  { progress with begun := Function.update progress.begun node true }

def receive (progress : Progress) (node sender : NodeId) : Progress :=
  { progress with
    received := Function.update progress.received node
      (Function.update (progress.received node) sender (progress.received node sender + 1)) }

end Progress

def phaseOf (setup : Setup scheme) (pks : List scheme.Commitment) (sks : NodeId → scheme.Key)
    (node : NodeId) (row : NodeId → Nat) (dkg : Dkg scheme) : Phase scheme :=
  if Past setup node row 3 then .done dkg pks (sks node) else .running dkg

/-- A network that has come so far. -/
structure Tracks (setup : Setup scheme) (share : NodeId → NodeId → scheme.Key)
    (pks : List scheme.Commitment) (sks : NodeId → scheme.Key) (progress : Progress)
    (net : Net scheme) : Prop where
  idle : ∀ node < setup.nodes.total, progress.begun node = false →
    net.phase node = .idle ∧ progress.received node = fun _ => 0
  active : ∀ node < setup.nodes.total, progress.begun node = true → ∃ dkg,
    Row setup share node (progress.received node) dkg ∧
      net.phase node = phaseOf setup pks sks node (progress.received node) dkg
  channel : ∀ sender node, sender < setup.nodes.total → node < setup.nodes.total → sender ≠ node →
    net.channel sender node =
      ((script setup share sender node).take (progress.outgoing setup sender)).drop
        (progress.received node sender)
  within : ∀ sender node, sender < setup.nodes.total → node < setup.nodes.total → sender ≠ node →
    progress.received node sender ≤ progress.outgoing setup sender

section Tracking

variable {progress : Progress} {net next : Net scheme} {node sender : NodeId}

theorem Tracks.start (setup : Setup scheme) (share : NodeId → NodeId → scheme.Key)
    (pks : List scheme.Commitment) (sks : NodeId → scheme.Key) :
    Tracks setup share pks sks Progress.start Net.start where
  idle := fun _ _ _ => ⟨rfl, rfl⟩
  active := by
    intro node _ impossible
    cases impossible
  channel := fun _ _ _ _ _ => rfl
  within := fun _ _ _ _ _ => Nat.zero_le _

theorem exists_peer (setup : Setup scheme) (node : NodeId) :
    ∃ peer, peer < setup.nodes.total ∧ peer ≠ node := by
  have several := setup.several
  unfold NumNodes.total
  by_cases zero : node = 0
  · exact ⟨1, by omega, by rw [zero]; decide⟩
  · exact ⟨0, by omega, Ne.symm zero⟩

theorem not_past_zero (setup : Setup scheme) (node : NodeId) {count : Nat} (positive : 0 < count) :
    ¬Past setup node (fun _ => 0) count := by
  obtain ⟨peer, known, other⟩ := exists_peer setup node
  exact not_past known other positive

/-- What is queued grows by what is sent. -/
theorem segment_append {α : Type} {items : List α} {first second third : Nat}
    (early : first ≤ second) (late : second ≤ third) (within : second ≤ items.length) :
    (items.take second).drop first ++ (items.take third).drop second =
      (items.take third).drop first := by
  have split : items.take third = items.take second ++ (items.take third).drop second := by
    conv_lhs => rw [← List.take_append_drop second (items.take third), List.take_take,
      Nat.min_eq_left late]
  conv_rhs => rw [split, List.drop_append_of_le_length (by rw [List.length_take]; omega)]

theorem Row.new (setup : Setup scheme) (share : NodeId → NodeId → scheme.Key) (node : NodeId) :
    Row setup share node (fun _ => 0) (Dkg.new setup.nodes node (setup.polynomial node)) where
  nodes := rfl
  identity := rfl
  polynomial := rfl
  hashes := by
    intro sender
    change (SortedMap.empty.insert node _).get? sender = _
    rw [SortedMap.get?_insert]
    by_cases same : sender = node
    · subst same
      simp only [if_true, true_or]
      rfl
    · rw [if_neg (Ne.symm same), if_neg]
      · rfl
      · rintro (impossible | ⟨_, impossible⟩)
        · exact same impossible
        · cases impossible
  commitments := by
    intro sender
    change (SortedMap.empty.insert node _).get? sender = _
    rw [SortedMap.get?_insert]
    by_cases same : sender = node
    · subst same
      simp only [if_true, true_or]
      rfl
    · rw [if_neg (Ne.symm same), if_neg]
      · rfl
      · rintro (impossible | ⟨_, impossible⟩)
        · exact same impossible
        · cases impossible
  shares := by
    intro sender
    rw [if_neg]
    · rfl
    · rintro (⟨_, impossible⟩ | ⟨_, _, impossible⟩)
      · exact not_past_zero setup node (by decide) impossible
      · cases impossible

/-- One node acts: it does what its row says, has taken from its channels what
it has received, and posts what is next. -/
structure Acts (setup : Setup scheme) (share : NodeId → NodeId → scheme.Key)
    (pks : List scheme.Commitment) (sks : NodeId → scheme.Key) (progress after : Progress)
    (net middle : Net scheme) (node : NodeId) (posted : List (NodeId × Message scheme)) :
    Prop where
  begun : after.begun = Function.update progress.begun node true
  received : ∀ other, other ≠ node → after.received other = progress.received other
  phases : ∀ other, other ≠ node → middle.phase other = net.phase other
  phase : ∃ dkg, Row setup share node (after.received node) dkg ∧
    middle.phase node = phaseOf setup pks sks node (after.received node) dkg
  taken : ∀ sender, sender < setup.nodes.total → sender ≠ node → middle.channel sender node =
    ((script setup share sender node).take (progress.outgoing setup sender)).drop
      (after.received node sender)
  within : ∀ sender, sender < setup.nodes.total → sender ≠ node →
    after.received node sender ≤ progress.outgoing setup sender
  channels : ∀ sender receiver, receiver ≠ node →
    middle.channel sender receiver = net.channel sender receiver
  grown : progress.outgoing setup node ≤ after.outgoing setup node
  posted : ∀ receiver, receiver < setup.nodes.total → receiver ≠ node →
    (posted.filter fun entry => entry.1 = receiver).map Prod.snd =
      ((script setup share node receiver).take (after.outgoing setup node)).drop
        (progress.outgoing setup node)

theorem Tracks.act {after : Progress} {middle : Net scheme}
    {posted : List (NodeId × Message scheme)} (tracks : Tracks setup share pks sks progress net)
    (known : node < setup.nodes.total)
    (acts : Acts setup share pks sks progress after net middle node posted) :
    Tracks setup share pks sks after (middle.sendAll node posted) := by
  have outgoingOf : ∀ other, other ≠ node →
      after.outgoing setup other = progress.outgoing setup other := by
    intro other different
    refine Progress.outgoing_congr ?_ (acts.received other different)
    rw [acts.begun, Function.update_of_ne different]
  constructor
  · intro other below idle
    have different : other ≠ node := by
      rintro rfl
      rw [acts.begun, Function.update_self] at idle
      cases idle
    rw [acts.begun, Function.update_of_ne different] at idle
    rw [Net.sendAll_phase, acts.phases other different, acts.received other different]
    exact tracks.idle other below idle
  · intro other below begun
    rw [Net.sendAll_phase]
    by_cases same : other = node
    · subst same
      exact acts.phase
    · rw [acts.begun, Function.update_of_ne same] at begun
      rw [acts.phases other same, acts.received other same]
      exact tracks.active other below begun
  · intro sender receiver isSender isReceiver different
    rw [Net.sendAll_channel]
    by_cases fromNode : sender = node
    · subst fromNode
      have other : receiver ≠ sender := Ne.symm different
      rw [if_pos rfl, acts.channels sender receiver other, acts.posted receiver isReceiver other,
        acts.received receiver other, tracks.channel sender receiver isSender isReceiver different]
      exact segment_append (tracks.within sender receiver isSender isReceiver different) acts.grown
        (Progress.outgoing_le setup progress sender)
    · rw [if_neg fromNode, List.append_nil, outgoingOf sender fromNode]
      by_cases toNode : receiver = node
      · subst toNode
        exact acts.taken sender isSender fromNode
      · rw [acts.channels sender receiver toNode, acts.received receiver toNode]
        exact tracks.channel sender receiver isSender isReceiver different
  · intro sender receiver isSender isReceiver different
    by_cases toNode : receiver = node
    · subst toNode
      rw [outgoingOf sender different]
      exact acts.within sender isSender different
    · rw [acts.received receiver toNode]
      refine (tracks.within sender receiver isSender isReceiver different).trans ?_
      by_cases fromNode : sender = node
      · subst fromNode
        exact acts.grown
      · rw [outgoingOf sender fromNode]

theorem Tracks.begin (tracks : Tracks setup share pks sks progress net)
    (known : node < setup.nodes.total) (idle : progress.begun node = false) :
    Tracks setup share pks sks (progress.begin node) (net.begin setup node) := by
  have none := (tracks.idle node known idle).2
  have before : progress.outgoing setup node = 0 := if_pos idle
  have after : (progress.begin node).outgoing setup node = 1 := by
    have begun : (progress.begin node).begun node = true := Function.update_self ..
    unfold Progress.outgoing
    rw [begun, if_neg Bool.noConfusion]
    change (if Past setup node (progress.received node) 2 then 3 else _) = 1
    rw [none, if_neg (not_past_zero setup node (by decide))]
    change (if Past setup node (progress.received node) 1 then 2 else 1) = 1
    rw [none, if_neg (not_past_zero setup node (by decide))]
  refine tracks.act known ?_
  constructor
  · rfl
  · exact fun other _ => rfl
  · exact fun other different => Net.set_phase_of_ne _ different
  · refine ⟨Dkg.new setup.nodes node (setup.polynomial node), ?_, ?_⟩
    · change Row setup share node (progress.received node) _
      rw [none]
      exact Row.new setup share node
    · rw [Net.set_phase_self]
      change _ = phaseOf setup pks sks node (progress.received node) _
      rw [none]
      exact (if_neg (not_past_zero setup node (by decide))).symm
  · exact fun sender isSender different => tracks.channel sender node isSender known different
  · exact fun sender isSender different => tracks.within sender node isSender known different
  · exact fun sender receiver _ => rfl
  · rw [before]
    exact Nat.zero_le _
  · intro receiver isReceiver different
    rw [before, after]
    exact Net.others_filter isReceiver different _

/-! ### Receiving -/

theorem queued_message {α : Type} {items rest : List α} {item : α} {count sent : Nat}
    (queued : (items.take sent).drop count = item :: rest) :
    count < sent ∧ items[count]? = some item ∧ rest = (items.take sent).drop (count + 1) := by
  have here : (items.take sent)[count]? = some item := by
    rw [← Nat.add_zero count, ← List.getElem?_drop, queued]
    rfl
  have below : count < sent := by
    by_contra beyond
    rw [List.getElem?_take, if_neg beyond] at here
    cases here
  rw [List.getElem?_take_of_lt below] at here
  refine ⟨below, here, ?_⟩
  rw [← List.drop_drop, queued]
  rfl

theorem Progress.receive_next (setup : Setup scheme) (progress : Progress)
    (known : sender < setup.nodes.total)
    (different : sender ≠ node) :
    Next setup node sender (progress.received node) ((progress.receive node sender).received node)
      (progress.received node sender) := by
  unfold Progress.receive
  refine ⟨known, different, rfl, ?_, ?_⟩
  · simp only [Function.update_self]
  · intro peer other
    simp only [Function.update_self, Function.update_of_ne other]

theorem Tracks.receive_acts (tracks : Tracks setup share pks sks progress net)
    (known : node < setup.nodes.total) (isSender : sender < setup.nodes.total)
    (different : sender ≠ node) (begun : progress.begun node = true)
    (waiting : progress.received node sender < progress.outgoing setup sender)
    {after : Dkg scheme} {out : DkgStep scheme}
    (holds : Row setup share node ((progress.receive node sender).received node) after)
    (isPhase : Net.phaseAfter after out =
      phaseOf setup pks sks node ((progress.receive node sender).received node) after)
    (grown : progress.outgoing setup node ≤ (progress.receive node sender).outgoing setup node)
    (isPosted : ∀ receiver, receiver < setup.nodes.total → receiver ≠ node →
      ((Net.posted setup.nodes node out).filter fun entry => entry.1 = receiver).map Prod.snd =
        ((script setup share node receiver).take
          ((progress.receive node sender).outgoing setup node)).drop
            (progress.outgoing setup node)) :
    Acts setup share pks sks progress (progress.receive node sender) net
      ((net.take sender node).set node (Net.phaseAfter after out)) node
      (Net.posted setup.nodes node out) := by
  have next := progress.receive_next setup isSender different
  refine ⟨?_, ?_, ?_, ?_, ?_, ?_, ?_, grown, isPosted⟩
  · exact (Function.update_eq_self_iff.mpr begun.symm).symm
  · exact fun other isOther => Function.update_of_ne isOther ..
  · exact fun other isOther => Net.set_phase_of_ne _ isOther
  · exact ⟨after, holds, (Net.set_phase_self _).trans isPhase⟩
  · intro peer isPeer other
    have queue := tracks.channel peer node isPeer known other
    change (if peer = sender ∧ node = node then (net.channel peer node).tail
      else net.channel peer node) = _
    by_cases same : peer = sender
    · subst same
      rw [if_pos ⟨rfl, rfl⟩, queue, next.after, List.tail_drop]
    · rw [if_neg fun both => same both.1, queue, next.others peer same]
  · intro peer isPeer other
    by_cases same : peer = sender
    · subst same
      rw [next.after]
      exact waiting
    · rw [next.others peer same]
      exact tracks.within peer node isPeer known other
  · intro first receiver other
    exact if_neg fun both => other both.2

/-- A node that receives the next message of a peer goes on. -/
theorem Tracks.receive (regular : Regular setup share pks sks)
    (tracks : Tracks setup share pks sks progress net) (known : node < setup.nodes.total)
    (isSender : sender < setup.nodes.total) (different : sender ≠ node) {dkg : Dkg scheme}
    (running : net.phase node = .running dkg) {message : Message scheme}
    {rest : List (Message scheme)} (queued : net.channel sender node = message :: rest) :
    progress.received node sender < progress.outgoing setup sender ∧
      Tracks setup share pks sks (progress.receive node sender)
        (net.receive setup node sender dkg message) := by
  have begun : progress.begun node = true := by
    by_contra idle
    have isIdle := (tracks.idle node known (Bool.eq_false_iff.mpr idle)).1
    cases running.symm.trans isIdle
  obtain ⟨held, holds, isPhase⟩ := tracks.active node known begun
  have isHeld : held = dkg := by
    rw [running] at isPhase
    unfold phaseOf at isPhase
    split at isPhase
    · cases isPhase
    · cases isPhase
      rfl
  subst isHeld
  rw [tracks.channel sender node isSender known different] at queued
  obtain ⟨waiting, here, _⟩ := queued_message queued
  refine ⟨waiting, ?_⟩
  have few := Progress.outgoing_le setup progress sender
  have next := progress.receive_next setup isSender different
  have beforeOf : progress.outgoing setup node =
      if Past setup node (progress.received node) 2 then 3
      else if Past setup node (progress.received node) 1 then 2 else 1 := by
    unfold Progress.outgoing
    rw [begun, if_neg Bool.noConfusion]
  have afterOf : (progress.receive node sender).outgoing setup node =
      if Past setup node ((progress.receive node sender).received node) 2 then 3
      else if Past setup node ((progress.receive node sender).received node) 1 then 2 else 1 := by
    have still : (progress.receive node sender).begun node = true := begun
    unfold Progress.outgoing
    rw [still, if_neg Bool.noConfusion]
  have acts := @Tracks.receive_acts _ _ _ _ _ progress net node sender tracks known isSender
    different begun waiting
  -- a node that a peer has not sent its share to is not done
  have unfinished : ∀ count, progress.received node sender = count → count < 2 → ∀ after,
      phaseOf setup pks sks node ((progress.receive node sender).received node) after =
        .running after := by
    intro count isCount less after
    refine if_neg (not_past isSender different ?_)
    rw [next.after]
    omega
  have whichMessage : progress.received node sender = 0 ∨ progress.received node sender = 1 ∨
      progress.received node sender = 2 := by omega
  rcases whichMessage with zero | one | two
  · have isPhase := unfinished 0 zero (by decide)
    rw [zero] at here next
    cases here
    obtain ⟨after, out, stepped, holdsAfter, rfl⟩ := holds.takeHash known next
    rw [Net.receive_ok stepped]
    rw [if_neg (not_past isSender different (by rw [next.after]; decide))] at afterOf
    rw [if_neg (not_past isSender different (by rw [next.before]; decide)),
      if_neg (not_past isSender different (by rw [next.before]; decide))] at beforeOf
    refine tracks.act known (acts holdsAfter ?_ ?_ ?_)
    · rw [isPhase]
      split <;> rfl
    · rw [beforeOf, afterOf]
      split <;> decide
    · intro receiver isReceiver other
      rw [beforeOf, afterOf]
      split
      · exact Net.others_filter isReceiver other _
      · rfl
  · have isPhase := unfinished 1 one (by decide)
    rw [one] at here next
    cases here
    obtain ⟨after, out, stepped, holdsAfter, rfl⟩ := holds.takeCommitment regular known next
    rw [Net.receive_ok stepped]
    simp only [next.past_iff (show 1 ≠ 1 + 1 by decide)] at afterOf
    rw [if_neg (not_past isSender different (by rw [next.before]; decide))] at beforeOf
    refine tracks.act known (acts holdsAfter ?_ ?_ ?_)
    · exact (isPhase after).symm
    · rw [beforeOf, afterOf]
      split <;> split <;> decide
    · intro receiver isReceiver other
      rw [beforeOf, afterOf]
      by_cases past : Past setup node ((progress.receive node sender).received node) 2
      · have all := (next.past_iff (show 1 ≠ 1 + 1 by decide)).mp (past.mono (by decide))
        rw [if_pos past, if_pos past, if_pos all]
        exact Net.others_filter isReceiver other _
      · rw [if_neg past, if_neg past]
        exact (List.drop_of_length_le (List.length_take_le _ _)).symm
  · rw [two] at here next
    cases here
    obtain ⟨after, out, stepped, holdsAfter, rfl⟩ := holds.takeShare regular known next
    rw [Net.receive_ok stepped]
    simp only [next.past_iff (show 2 ≠ 2 + 1 by decide),
      next.past_iff (show 1 ≠ 2 + 1 by decide), ← beforeOf] at afterOf
    refine tracks.act known (acts holdsAfter ?_ afterOf.ge ?_)
    · unfold phaseOf
      split <;> rfl
    · intro receiver isReceiver other
      rw [afterOf]
      refine Eq.trans ?_ (List.drop_of_length_le (List.length_take_le _ _)).symm
      split <;> rfl

/-! ### Every run returns -/

def remaining (setup : Setup scheme) (progress : Progress) : Nat :=
  ∑ node ∈ Finset.range setup.nodes.total, ((if progress.begun node then 0 else 1) +
    ∑ sender ∈ Finset.range setup.nodes.total, (3 - progress.received node sender))

theorem remaining_begin (known : node < setup.nodes.total) (idle : progress.begun node = false) :
    remaining setup (progress.begin node) < remaining setup progress := by
  unfold remaining
  refine Finset.sum_lt_sum ?_ ⟨node, Finset.mem_range.mpr known, ?_⟩
  · intro other _
    refine Nat.add_le_add_right ?_ _
    unfold Progress.begin
    by_cases same : other = node
    · subst same
      rw [idle]
      simp
    · simp only [Function.update_of_ne same]
      exact Nat.le_refl _
  · unfold Progress.begin
    simp only [Function.update_self, idle, if_true, Bool.false_eq_true, if_false]
    omega

theorem remaining_receive (known : node < setup.nodes.total)
    (isSender : sender < setup.nodes.total) (few : progress.received node sender < 3) :
    remaining setup (progress.receive node sender) < remaining setup progress := by
  unfold remaining
  have fewer : ∀ other peer, 3 - (progress.receive node sender).received other peer ≤
      3 - progress.received other peer := by
    intro other peer
    unfold Progress.receive
    by_cases same : other = node
    · subst same
      by_cases isPeer : peer = sender
      · subst isPeer
        simp only [Function.update_self]
        omega
      · simp only [Function.update_self, Function.update_of_ne isPeer]
        exact Nat.le_refl _
    · simp only [Function.update_of_ne same]
      exact Nat.le_refl _
  refine Finset.sum_lt_sum ?_ ⟨node, Finset.mem_range.mpr known, ?_⟩
  · intro other _
    exact Nat.add_le_add_left (Finset.sum_le_sum fun peer _ => fewer other peer) _
  · refine Nat.add_lt_add_left (Finset.sum_lt_sum (fun peer _ => fewer node peer)
      ⟨sender, Finset.mem_range.mpr isSender, ?_⟩) _
    unfold Progress.receive
    simp only [Function.update_self]
    omega

theorem Tracks.step (regular : Regular setup share pks sks)
    (tracks : Tracks setup share pks sks progress net) (stepped : Net.Step setup net next) :
    ∃ after, remaining setup after < remaining setup progress ∧
      Tracks setup share pks sks after next := by
  cases stepped with
  | @begin node honest idle =>
      have notBegun : progress.begun node = false := by
        by_contra begun
        obtain ⟨dkg, _, isPhase⟩ := tracks.active node honest.1 (Bool.not_eq_false _ ▸ begun)
        rw [idle] at isPhase
        unfold phaseOf at isPhase
        split at isPhase <;> cases isPhase
      exact ⟨progress.begin node, remaining_begin honest.1 notBegun,
        tracks.begin honest.1 notBegun⟩
  | @receive node sender honest known other dkg running message rest queued =>
      obtain ⟨waiting, after⟩ := tracks.receive regular honest.1 known other running queued
      have few := Progress.outgoing_le setup progress sender
      exact ⟨progress.receive node sender,
        remaining_receive honest.1 known (lt_of_lt_of_le waiting few), after⟩
  | byzantine evil receiver message =>
      rw [regular.honest] at evil
      cases evil

/-- All nodes have returned the same polynomial, and each its own share. -/
def AllDone (setup : Setup scheme) (pks : List scheme.Commitment) (sks : NodeId → scheme.Key)
    (net : Net scheme) : Prop :=
  ∀ node < setup.nodes.total, ∃ dkg, net.phase node = .done dkg pks (sks node)

/-- A node that has received everything is done, and otherwise something can
be received. -/
theorem Tracks.moves (regular : Regular setup share pks sks)
    (tracks : Tracks setup share pks sks progress net) :
    AllDone setup pks sks net ∨ ∃ next, Net.Step setup net next := by
  have honest : ∀ node < setup.nodes.total, setup.Honest node := by
    intro node known
    refine ⟨known, ?_⟩
    rw [regular.honest]
    exact Finset.notMem_empty node
  by_cases stuck : ∃ next, Net.Step setup net next
  · exact Or.inr stuck
  · left
    have begun : ∀ node < setup.nodes.total, progress.begun node = true := by
      intro node known
      by_contra idle
      have isIdle := (tracks.idle node known (Bool.eq_false_iff.mpr idle)).1
      exact stuck ⟨_, .begin (honest node known) isIdle⟩
    have drained : ∀ node < setup.nodes.total, ∀ count,
        (∀ sender < setup.nodes.total, count ≤ progress.outgoing setup sender) → count ≤ 3 →
        Past setup node (progress.received node) count := by
      intro node known count sent few sender isSender different
      by_contra behind
      obtain ⟨dkg, _, isPhase⟩ := tracks.active node known (begun node known)
      have notDone : ¬Past setup node (progress.received node) 3 :=
        not_past isSender different (lt_of_lt_of_le (Nat.not_le.mp behind) few)
      unfold phaseOf at isPhase
      rw [if_neg notDone] at isPhase
      have queue := tracks.channel sender node isSender known different
      have waiting : progress.received node sender < ((script setup share sender node).take
          (progress.outgoing setup sender)).length := by
        have few := Progress.outgoing_le setup progress sender
        have more := sent sender isSender
        rw [List.length_take]
        change _ < min _ 3
        omega
      rw [List.drop_eq_getElem_cons waiting] at queue
      exact stuck ⟨_, .receive (honest node known) isSender different isPhase queue⟩
    have sentOne : ∀ sender < setup.nodes.total, 1 ≤ progress.outgoing setup sender := by
      intro sender known
      unfold Progress.outgoing
      rw [begun sender known, if_neg Bool.noConfusion]
      split
      · decide
      · split <;> decide
    have sentTwo : ∀ sender < setup.nodes.total, 2 ≤ progress.outgoing setup sender := by
      intro sender known
      unfold Progress.outgoing
      rw [begun sender known, if_neg Bool.noConfusion, if_pos (drained sender known 1 sentOne
        (by decide))]
      split <;> decide
    have sentThree : ∀ sender < setup.nodes.total, 3 ≤ progress.outgoing setup sender := by
      intro sender known
      unfold Progress.outgoing
      rw [begun sender known, if_neg Bool.noConfusion, if_pos (drained sender known 2 sentTwo
        (by decide))]
    intro node known
    obtain ⟨dkg, _, isPhase⟩ := tracks.active node known (begun node known)
    refine ⟨dkg, isPhase.trans ?_⟩
    exact if_pos (drained node known 3 sentThree (Nat.le_refl 3))

theorem tracks_of_reachable (regular : Regular setup share pks sks)
    (reached : Net.Reachable setup net) :
    ∃ progress, Tracks setup share pks sks progress net := by
  induction reached with
  | refl => exact ⟨_, Tracks.start setup share pks sks⟩
  | tail _ stepped ih =>
      obtain ⟨progress, tracks⟩ := ih
      obtain ⟨after, _, tracked⟩ := tracks.step regular stepped
      exact ⟨after, tracked⟩

/-- However the messages arrive, all nodes return. -/
theorem inevitably_done (regular : Regular setup share pks sks)
    (reached : Net.Reachable setup net) :
    Inevitably (Net.Step setup) (AllDone setup pks sks) net := by
  obtain ⟨progress, tracks⟩ := tracks_of_reachable regular reached
  exact Inevitably.of_tracked (measure (remaining setup)).wf
    (fun _ _ _ tracks stepped => tracks.step regular stepped)
    (fun _ _ tracks => tracks.moves regular) tracks

/-- No instance fails, and none returns anything else. -/
theorem phase_of_reachable (regular : Regular setup share pks sks)
    (reached : Net.Reachable setup net) (known : node < setup.nodes.total) :
    net.phase node = .idle ∨ (∃ dkg, net.phase node = .running dkg) ∨
      ∃ dkg, net.phase node = .done dkg pks (sks node) := by
  obtain ⟨progress, tracks⟩ := tracks_of_reachable regular reached
  cases begun : progress.begun node with
  | false => exact Or.inl (tracks.idle node known begun).1
  | true =>
      obtain ⟨dkg, _, isPhase⟩ := tracks.active node known begun
      right
      unfold phaseOf at isPhase
      split at isPhase
      · exact Or.inr ⟨dkg, isPhase⟩
      · exact Or.inl ⟨dkg, isPhase⟩

end Tracking

end Picomint.Config
