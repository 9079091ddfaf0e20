/-
The key generation among all nodes, over channels that keep each sender's order.

A Byzantine node sends anything to anyone at any time.  What an honest instance
returns is a share of the polynomial it returns, and every commitment in it was
fixed by a hash that was sent before the instance opened its own one.
-/

import Mathlib.Logic.Relation
import Picomint.Dkg.Shares

namespace Picomint.Config

open SharePolynomial

/-- What the run of a node is doing. -/
inductive Phase (scheme : Scheme) where
  | idle
  | running (dkg : Dkg scheme)
  | done (dkg : Dkg scheme) (pks : List scheme.Commitment) (sks : scheme.Key)
  | failed (fault : DkgFault)

structure Net (scheme : Scheme) where
  phase : NodeId → Phase scheme
  /-- What the first node has sent to the second one and this has not received. -/
  channel : NodeId → NodeId → List (Message scheme)
  /-- Everything that has been sent, with its sender and its receiver. -/
  sent : List (NodeId × NodeId × Message scheme)

variable {scheme : Scheme}

namespace Net

def start : Net scheme :=
  { phase := fun _ => .idle
    channel := fun _ _ => []
    sent := [] }

def set (net : Net scheme) (node : NodeId) (phase : Phase scheme) : Net scheme :=
  { net with phase := Function.update net.phase node phase }

def send (net : Net scheme) (sender receiver : NodeId) (message : Message scheme) : Net scheme :=
  { net with
    channel := fun first second =>
      if first = sender ∧ second = receiver then net.channel first second ++ [message]
      else net.channel first second
    sent := (sender, receiver, message) :: net.sent }

def sendAll (net : Net scheme) (sender : NodeId) (messages : List (NodeId × Message scheme)) :
    Net scheme :=
  messages.foldl (fun net entry => net.send sender entry.1 entry.2) net

def take (net : Net scheme) (sender receiver : NodeId) : Net scheme :=
  { net with
    channel := fun first second =>
      if first = sender ∧ second = receiver then (net.channel first second).tail
      else net.channel first second }

end Net

/-- `Recipient::Everyone`. -/
def everyone (nodes : NumNodes) (sender : NodeId) (message : Message scheme) :
    List (NodeId × Message scheme) :=
  (nodes.nodeIds.filter fun node => node ≠ sender).map fun node => (node, message)

/-- The nodes of a mint of an allowed size, with their random polynomials. -/
structure Setup (scheme : Scheme) where
  nodes : NumNodes
  several : 0 < nodes.maxEvil
  identities : nodes.total ≤ 256
  polynomial : NodeId → List scheme.Key
  degree : ∀ node, (polynomial node).length = nodes.threshold
  byzantine : Finset NodeId

def Setup.Honest (setup : Setup scheme) (node : NodeId) : Prop :=
  node < setup.nodes.total ∧ node ∉ setup.byzantine

instance (setup : Setup scheme) (node : NodeId) : Decidable (setup.Honest node) :=
  inferInstanceAs (Decidable (_ ∧ _))

namespace Net

variable (setup : Setup scheme)

def begin (net : Net scheme) (node : NodeId) : Net scheme :=
  let dkg := Dkg.new setup.nodes node (setup.polynomial node)
  (net.set node (.running dkg)).sendAll node (everyone setup.nodes node dkg.initialMessage)

/-- An iteration of `run_dkg_secp` and `run_dkg_g2`. -/
def receive (net : Net scheme) (node sender : NodeId) (dkg : Dkg scheme)
    (message : Message scheme) : Net scheme :=
  match dkg.step sender message with
  | .error fault => (net.take sender node).set node (.failed fault)
  | .ok (dkg, .broadcast message) =>
      ((net.take sender node).set node (.running dkg)).sendAll node
        (everyone setup.nodes node message)
  | .ok (dkg, .messages messages) =>
      ((net.take sender node).set node (.running dkg)).sendAll node messages
  | .ok (dkg, .result pks sks) => (net.take sender node).set node (.done dkg pks sks)

inductive Step (net : Net scheme) : Net scheme → Prop
  | begin {node : NodeId} (honest : setup.Honest node) (idle : net.phase node = .idle) :
      Step net (net.begin setup node)
  | receive {node sender : NodeId} (honest : setup.Honest node)
      (known : sender < setup.nodes.total) (other : sender ≠ node) {dkg : Dkg scheme}
      (running : net.phase node = .running dkg) {message : Message scheme}
      {rest : List (Message scheme)} (queued : net.channel sender node = message :: rest) :
      Step net (net.receive setup node sender dkg message)
  | byzantine {sender : NodeId} (evil : sender ∈ setup.byzantine) (receiver : NodeId)
      (message : Message scheme) : Step net (net.send sender receiver message)

abbrev Run : Net scheme → Net scheme → Prop := Relation.ReflTransGen (Step setup)

def Reachable (net : Net scheme) : Prop := Run setup start net

end Net

/-! ### Sending -/

namespace Net

variable {setup : Setup scheme} {net next : Net scheme} {node sender receiver : NodeId}
  {message : Message scheme} {messages : List (NodeId × Message scheme)}

@[simp] theorem set_phase_self (phase : Phase scheme) : (net.set node phase).phase node = phase :=
  Function.update_self ..

theorem set_phase_of_ne (phase : Phase scheme) {other : NodeId} (different : other ≠ node) :
    (net.set node phase).phase other = net.phase other :=
  Function.update_of_ne different ..

@[simp] theorem sendAll_phase : (net.sendAll sender messages).phase = net.phase := by
  induction messages generalizing net with
  | nil => rfl
  | cons entry rest ih => exact ih

theorem mem_sendAll_sent {entry : NodeId × NodeId × Message scheme} :
    entry ∈ (net.sendAll sender messages).sent ↔
      (∃ sent ∈ messages, entry = (sender, sent)) ∨ entry ∈ net.sent := by
  induction messages generalizing net with
  | nil => simp [sendAll]
  | cons first rest ih =>
      rw [show net.sendAll sender (first :: rest) =
        (net.send sender first.1 first.2).sendAll sender rest from rfl, ih]
      simp only [send, List.mem_cons, exists_eq_or_imp]
      exact or_left_comm.trans or_assoc.symm

theorem sendAll_channel (first second : NodeId) :
    (net.sendAll sender messages).channel first second = net.channel first second ++
      if first = sender then (messages.filter fun entry => entry.1 = second).map Prod.snd
      else [] := by
  induction messages generalizing net with
  | nil => simp [sendAll]
  | cons entry rest ih =>
      rw [show net.sendAll sender (entry :: rest) =
        (net.send sender entry.1 entry.2).sendAll sender rest from rfl, ih]
      by_cases isSender : first = sender
      · by_cases isReceiver : second = entry.1
        · simp [send, isSender, isReceiver]
        · simp [send, isSender, isReceiver, Ne.symm isReceiver]
      · simp [send, isSender]

theorem others_filter {nodes : NumNodes} (known : receiver < nodes.total)
    (other : receiver ≠ sender) (content : NodeId → Message scheme) :
    ((((nodes.nodeIds.filter fun node => node ≠ sender).map fun node =>
      (node, content node)).filter fun entry => entry.1 = receiver).map Prod.snd) =
        [content receiver] := by
  rw [List.filter_map, List.map_map]
  have single : (nodes.nodeIds.filter fun node => node ≠ sender).filter
      ((fun entry : NodeId × Message scheme => decide (entry.1 = receiver)) ∘ fun node =>
        (node, content node)) = [receiver] := by
    have same : (nodes.nodeIds.filter fun node => node ≠ sender).filter
        ((fun entry : NodeId × Message scheme => decide (entry.1 = receiver)) ∘ fun node =>
          (node, content node)) = nodes.nodeIds.filter fun node => node = receiver := by
      rw [List.filter_filter]
      apply List.filter_congr
      intro node _
      by_cases isReceiver : node = receiver
      · simp [isReceiver, other]
      · simp [isReceiver]
    rw [same, List.filter_eq,
      show nodes.nodeIds.count receiver = 1 from
        List.count_eq_one_of_mem List.nodup_range ((nodes.mem_nodeIds receiver).mpr known)]
    rfl
  rw [single]
  rfl

def posted (nodes : NumNodes) (node : NodeId) : DkgStep scheme → List (NodeId × Message scheme)
  | .broadcast message => everyone nodes node message
  | .messages messages => messages
  | .result _ _ => []

def phaseAfter (dkg : Dkg scheme) : DkgStep scheme → Phase scheme
  | .result pks sks => .done dkg pks sks
  | _ => .running dkg

theorem receive_ok {dkg after : Dkg scheme} {out : DkgStep scheme}
    (stepped : dkg.step sender message = .ok (after, out)) :
    net.receive setup node sender dkg message =
      ((net.take sender node).set node (phaseAfter after out)).sendAll node
        (posted setup.nodes node out) := by
  unfold receive
  rw [stepped]
  cases out <;> rfl

theorem receive_error {dkg : Dkg scheme} {fault : DkgFault}
    (failed : dkg.step sender message = .error fault) :
    net.receive setup node sender dkg message =
      (net.take sender node).set node (.failed fault) := by
  unfold receive
  rw [failed]

/-- What one step leaves alone, unless it is a step of the node. -/
structure Beside (net next : Net scheme) (node : NodeId) : Prop where
  phase : next.phase node = net.phase node
  grows : net.sent ⊆ next.sent
  others : ∀ receiver message, (node, receiver, message) ∈ next.sent →
    (node, receiver, message) ∈ net.sent

theorem Beside.sendAll (beside : Beside net next node) (other : node ≠ sender) :
    Beside net (next.sendAll sender messages) node where
  phase := by rw [sendAll_phase, beside.phase]
  grows := fun _ member => mem_sendAll_sent.mpr (Or.inr (beside.grows member))
  others := by
    intro receiver message member
    rcases mem_sendAll_sent.mp member with ⟨_, _, same⟩ | earlier
    · exact absurd (Prod.ext_iff.mp same).1 other
    · exact beside.others receiver message earlier

theorem Beside.set (other : node ≠ sender) (phase : Phase scheme) :
    Beside net (net.set sender phase) node :=
  ⟨set_phase_of_ne phase other, fun _ member => member, fun _ _ member => member⟩

theorem Beside.take_set (other : node ≠ receiver) (phase : Phase scheme) :
    Beside net ((net.take sender receiver).set receiver phase) node :=
  ⟨set_phase_of_ne phase other, fun _ member => member, fun _ _ member => member⟩

theorem Beside.receive (other : node ≠ receiver) (dkg : Dkg scheme) :
    Beside net (net.receive setup receiver sender dkg message) node := by
  cases stepped : dkg.step sender message with
  | error fault =>
      rw [receive_error stepped]
      exact Beside.take_set other _
  | ok result =>
      rw [receive_ok stepped]
      exact (Beside.take_set other _).sendAll other

end Net

/-! ### What holds against Byzantine peers -/

section Byzantine

variable {F M : Type} [Field F] [AddCommGroup M] [Module F M] {linear : Linear scheme F M}
  {setup : Setup scheme} {net next : Net scheme} {node : NodeId} {dkg : Dkg scheme}

def Silent (net : Net scheme) (node : NodeId) : Prop :=
  ∀ receiver polynomial, (node, receiver, .commitment polynomial) ∉ net.sent

def Hashed (net : Net scheme) (dkg : Dkg scheme) : Prop :=
  ∀ peer hash, peer ≠ dkg.identity → dkg.hashCommitments.get? peer = some hash →
    (peer, dkg.identity, .hash hash) ∈ net.sent

/-- A node opens its commitment when it has all hashes, and from then on the
hashes are those that had been sent before. -/
structure Bound (linear : Linear scheme F M) (setup : Setup scheme) (net : Net scheme)
    (node : NodeId) (dkg : Dkg scheme) : Prop where
  checked : Checked linear dkg
  nodes : dkg.numNodes = setup.nodes
  identity : dkg.identity = node
  hashes : (dkg.hashCommitments.size ≠ setup.nodes.total ∧ Silent net node ∧ Hashed net dkg) ∨
    (dkg.hashCommitments.size = setup.nodes.total ∧ ∃ before, Net.Reachable setup before ∧
      Net.Run setup before net ∧ Silent before node ∧ Hashed before dkg)

theorem Bound.frame (bound : Bound linear setup net node dkg) (beside : Net.Beside net next node)
    (stepped : Net.Step setup net next) : Bound linear setup next node dkg := by
  refine ⟨bound.checked, bound.nodes, bound.identity, ?_⟩
  rcases bound.hashes with ⟨more, silent, hashed⟩ | ⟨full, before, reached, run, silent, hashed⟩
  · refine Or.inl ⟨more, ?_, ?_⟩
    · intro receiver polynomial member
      exact silent receiver polynomial (beside.others receiver _ member)
    · intro peer hash other found
      exact beside.grows (hashed peer hash other found)
  · exact Or.inr ⟨full, before, reached, run.tail stepped, silent, hashed⟩

theorem Silent.posted {posted : List (NodeId × Message scheme)} (silent : Silent net node)
    {middle : Net scheme} (same : middle.sent = net.sent)
    (noCommitment : ∀ entry ∈ posted, ∀ polynomial, entry.2 ≠ .commitment polynomial) :
    Silent (middle.sendAll node posted) node := by
  intro receiver polynomial member
  rcases Net.mem_sendAll_sent.mp member with ⟨entry, listed, isEntry⟩ | earlier
  · exact noCommitment entry listed polynomial (congrArg Prod.snd (Prod.ext_iff.mp isEntry).2).symm
  · rw [same] at earlier
    exact silent receiver polynomial earlier

theorem Bound.step {after : Dkg scheme} {out : DkgStep scheme} {sender : NodeId}
    {message : Message scheme} (bound : Bound linear setup net node dkg)
    (known : sender < setup.nodes.total) (sent : (sender, node, message) ∈ net.sent)
    (stepped : Dkg.Stepped dkg sender message after out)
    (isNext : next = ((net.take sender node).set node (Net.phaseAfter after out)).sendAll node
      (Net.posted setup.nodes node out))
    (reached : Net.Reachable setup net) (run : Net.Step setup net next) :
    Bound linear setup next node after := by
  obtain ⟨checked, nodes, identity, hashes⟩ := bound
  subst identity
  have checkedAfter := checked.step (by rwa [nodes]) stepped
  have grows : net.sent ⊆ next.sent := by
    intro entry member
    rw [isNext]
    exact Net.mem_sendAll_sent.mpr (Or.inr member)
  -- the hashes stay as they are, and no commitment is posted
  have unchanged : after.numNodes = dkg.numNodes → after.identity = dkg.identity →
      after.hashCommitments = dkg.hashCommitments →
      (∀ entry ∈ Net.posted setup.nodes dkg.identity out, ∀ polynomial,
        entry.2 ≠ .commitment polynomial) → Bound linear setup next dkg.identity after := by
    intro sameNodes sameIdentity sameHashes noCommitment
    refine ⟨checkedAfter, sameNodes.trans nodes, sameIdentity, ?_⟩
    unfold Hashed at hashes ⊢
    rw [sameHashes, sameIdentity]
    rcases hashes with ⟨more, silent, hashed⟩ | ⟨full, before, reached, first, silent, hashed⟩
    · refine Or.inl ⟨more, ?_, fun peer hash other found => grows (hashed peer hash other found)⟩
      rw [isNext]
      exact silent.posted rfl noCommitment
    · exact Or.inr ⟨full, before, reached, first.tail run, silent, hashed⟩
  -- a hash that was not there yet
  have entered : ∀ hash, message = .hash hash → dkg.hashCommitments.get? sender = none →
      after = { dkg with hashCommitments := dkg.hashCommitments.insert sender hash } →
      Silent net dkg.identity ∧ Hashed net after := by
    rintro hash rfl fresh rfl
    have grown : (dkg.hashCommitments.insert sender hash).size = dkg.hashCommitments.size + 1 :=
      SortedMap.size_insert_of_none _ _ fresh
    have few : (dkg.hashCommitments.insert sender hash).size ≤ dkg.numNodes.total :=
      size_le checkedAfter.members
    rw [nodes] at few
    rcases hashes with ⟨_, silent, hashed⟩ | ⟨full, _⟩
    · refine ⟨silent, ?_⟩
      intro peer other different found
      change (dkg.hashCommitments.insert sender hash).get? peer = _ at found
      rw [SortedMap.get?_insert] at found
      split at found
      · rename_i same
        cases found
        exact same ▸ sent
      · exact hashed peer other different found
    · omega
  cases stepped with
  | hash fresh isAfter more =>
      obtain ⟨silent, hashed⟩ := entered _ rfl fresh isAfter
      subst isAfter
      refine ⟨checkedAfter, nodes, rfl, Or.inl ⟨nodes ▸ more, ?_, ?_⟩⟩
      · rw [isNext]
        exact silent.posted rfl fun entry impossible => by cases impossible
      · exact fun peer hash other found => grows (hashed peer hash other found)
  | lastHash fresh isAfter full =>
      obtain ⟨silent, hashed⟩ := entered _ rfl fresh isAfter
      subst isAfter
      exact ⟨checkedAfter, nodes, rfl,
        Or.inr ⟨nodes ▸ full, net, reached, .single run, silent, hashed⟩⟩
  | commitment opened degree fresh isAfter more =>
      subst isAfter
      exact unchanged rfl rfl rfl fun entry impossible => by cases impossible
  | lastCommitment opened degree fresh isMiddle full dealt isAfter =>
      have middle := checked.insertCommitment opened degree fresh
      rw [← isMiddle] at middle
      obtain ⟨share, _, _, isMessages⟩ :=
        Dkg.deal_messages ((NumNodes.mem_nodeIds _ _).mpr middle.own) dealt
      subst isAfter isMiddle
      refine unchanged rfl rfl rfl fun entry member polynomial impossible => ?_
      change entry ∈ _ at member
      rw [Net.posted, isMessages, List.mem_map] at member
      obtain ⟨_, _, rfl⟩ := member
      cases impossible
  | share committed valid fresh isAfter more =>
      subst isAfter
      exact unchanged rfl rfl rfl fun entry impossible => by cases impossible
  | lastShare committed valid fresh isAfter full summed added =>
      subst isAfter
      exact unchanged rfl rfl rfl fun entry impossible => by cases impossible

/-- A result is the sum of the commitments and a share of it. -/
structure OnPolynomial (linear : Linear scheme F M) (dkg : Dkg scheme)
    (pks : List scheme.Commitment) (sks : scheme.Key) : Prop where
  summed : (List.range dkg.numNodes.threshold).mapM
    (coefficientSum dkg.commitments.values) = .ok pks
  share : linear.scalar sks • linear.base =
    valueAt (pks.map linear.point) (linear.at' dkg.identity)

structure Guarded (linear : Linear scheme F M) (setup : Setup scheme) (net : Net scheme) :
    Prop where
  queued : ∀ sender receiver message, message ∈ net.channel sender receiver →
    (sender, receiver, message) ∈ net.sent
  idle : ∀ node, setup.Honest node → net.phase node = .idle → Silent net node
  running : ∀ node dkg, setup.Honest node → net.phase node = .running dkg →
    Bound linear setup net node dkg
  done : ∀ node dkg pks sks, setup.Honest node → net.phase node = .done dkg pks sks →
    Bound linear setup net node dkg ∧ dkg.hashCommitments.size = setup.nodes.total ∧
      OnPolynomial linear dkg pks sks

theorem Guarded.start (linear : Linear scheme F M) (setup : Setup scheme) :
    Guarded linear setup Net.start where
  queued := by
    intro sender receiver message impossible
    cases impossible
  idle := by
    intro node _ _ receiver polynomial impossible
    cases impossible
  running := by
    intro node dkg _ impossible
    cases impossible
  done := by
    intro node dkg pks sks _ impossible
    cases impossible

theorem Guarded.queued_sendAll {sender : NodeId} {messages : List (NodeId × Message scheme)}
    {middle : Net scheme}
    (queued : ∀ first second message, message ∈ middle.channel first second →
      (first, second, message) ∈ middle.sent) (first second : NodeId) (message : Message scheme)
    (member : message ∈ (middle.sendAll sender messages).channel first second) :
    (first, second, message) ∈ (middle.sendAll sender messages).sent := by
  rw [Net.sendAll_channel, List.mem_append] at member
  rw [Net.mem_sendAll_sent]
  rcases member with earlier | posted
  · exact Or.inr (queued first second message earlier)
  · split at posted
    · rename_i isSender
      obtain ⟨entry, listed, isMessage⟩ := List.mem_map.mp posted
      obtain ⟨inMessages, isReceiver⟩ := List.mem_filter.mp listed
      refine Or.inl ⟨entry, inMessages, ?_⟩
      rw [isSender, ← isMessage, ← of_decide_eq_true isReceiver]
    · cases posted

theorem Guarded.queued_take {sender receiver : NodeId}
    (queued : ∀ first second message, message ∈ net.channel first second →
      (first, second, message) ∈ net.sent) (first second : NodeId) (message : Message scheme)
    (member : message ∈ (net.take sender receiver).channel first second) :
    (first, second, message) ∈ net.sent := by
  change message ∈ (if _ then _ else _) at member
  split at member
  · exact queued first second message (List.mem_of_mem_tail member)
  · exact queued first second message member

/-- A step that leaves a node alone keeps what holds of it. -/
theorem Guarded.beside (guarded : Guarded linear setup net) (stepped : Net.Step setup net next)
    {other : NodeId} (honest : setup.Honest other) (beside : Net.Beside net next other) :
    (next.phase other = .idle → Silent next other) ∧
    (∀ dkg, next.phase other = .running dkg → Bound linear setup next other dkg) ∧
    ∀ dkg pks sks, next.phase other = .done dkg pks sks →
      Bound linear setup next other dkg ∧ dkg.hashCommitments.size = setup.nodes.total ∧
        OnPolynomial linear dkg pks sks := by
  rw [beside.phase]
  refine ⟨?_, ?_, ?_⟩
  · intro idle receiver polynomial member
    exact guarded.idle other honest idle receiver polynomial (beside.others receiver _ member)
  · intro dkg running
    exact (guarded.running other dkg honest running).frame beside stepped
  · intro dkg pks sks done
    obtain ⟨bound, full, share⟩ := guarded.done other dkg pks sks honest done
    exact ⟨bound.frame beside stepped, full, share⟩

theorem Guarded.of_node (guarded : Guarded linear setup net) (mover : NodeId)
    (stepped : Net.Step setup net next)
    (queued : ∀ sender receiver message, message ∈ next.channel sender receiver →
      (sender, receiver, message) ∈ next.sent)
    (beside : ∀ other, setup.Honest other → other ≠ mover → Net.Beside net next other)
    (idle : setup.Honest mover → next.phase mover = .idle → Silent next mover)
    (running : ∀ dkg, setup.Honest mover → next.phase mover = .running dkg →
      Bound linear setup next mover dkg)
    (done : ∀ dkg pks sks, setup.Honest mover → next.phase mover = .done dkg pks sks →
      Bound linear setup next mover dkg ∧ dkg.hashCommitments.size = setup.nodes.total ∧
        OnPolynomial linear dkg pks sks) : Guarded linear setup next where
  queued := queued
  idle := by
    intro other honest isIdle
    by_cases same : other = mover
    · subst same
      exact idle honest isIdle
    · exact (guarded.beside stepped honest (beside other honest same)).1 isIdle
  running := by
    intro other dkg honest isRunning
    by_cases same : other = mover
    · subst same
      exact running dkg honest isRunning
    · exact (guarded.beside stepped honest (beside other honest same)).2.1 dkg isRunning
  done := by
    intro other dkg pks sks honest isDone
    by_cases same : other = mover
    · subst same
      exact done dkg pks sks honest isDone
    · exact (guarded.beside stepped honest (beside other honest same)).2.2 dkg pks sks isDone

theorem Bound.begin (honest : setup.Honest node) (silent : Silent net node)
    (next_eq : next = net.begin setup node) :
    Bound linear setup next node (Dkg.new setup.nodes node (setup.polynomial node)) := by
  subst next_eq
  refine ⟨Checked.new honest.1 (setup.degree node), rfl, rfl, Or.inl ⟨?_, ?_, ?_⟩⟩
  · have several := setup.several
    change 1 ≠ 3 * setup.nodes.maxEvil + 1
    omega
  · refine silent.posted rfl ?_
    intro entry member polynomial impossible
    obtain ⟨_, _, rfl⟩ := List.mem_map.mp member
    cases impossible
  · intro peer hash other found
    change (SortedMap.empty.insert node _).get? peer = _ at found
    have different : node ≠ peer := Ne.symm other
    rw [SortedMap.get?_insert_of_ne _ _ different] at found
    cases found

theorem Guarded.step (guarded : Guarded linear setup net) (reached : Net.Reachable setup net)
    (stepped : Net.Step setup net next) : Guarded linear setup next := by
  have run := stepped
  cases stepped with
  | @begin node honest idle =>
      refine guarded.of_node node run
        (Guarded.queued_sendAll guarded.queued)
        (fun other _ different => (Net.Beside.set different _).sendAll different) ?_ ?_ ?_
      · intro _ isIdle
        rw [Net.begin, Net.sendAll_phase, Net.set_phase_self] at isIdle
        cases isIdle
      · intro dkg _ isRunning
        rw [Net.begin, Net.sendAll_phase, Net.set_phase_self] at isRunning
        cases isRunning
        exact Bound.begin honest (guarded.idle node honest idle) rfl
      · intro dkg pks sks _ isDone
        rw [Net.begin, Net.sendAll_phase, Net.set_phase_self] at isDone
        cases isDone
  | @receive node sender honest known other dkg isRunning message rest queued =>
      have sent := guarded.queued sender node message (by rw [queued]; exact List.mem_cons_self)
      have bound := guarded.running node dkg honest isRunning
      cases outcome : dkg.step sender message with
      | error fault =>
          rw [Net.receive_error outcome] at run ⊢
          refine guarded.of_node node run (Guarded.queued_take guarded.queued)
            (fun other _ different => Net.Beside.take_set different _) ?_ ?_ ?_
          · intro _ isIdle
            rw [Net.set_phase_self] at isIdle
            cases isIdle
          · intro dkg _ isRunning
            rw [Net.set_phase_self] at isRunning
            cases isRunning
          · intro dkg pks sks _ isDone
            rw [Net.set_phase_self] at isDone
            cases isDone
      | ok result =>
          obtain ⟨after, out⟩ := result
          have cases' := Dkg.step_eq_ok.mp outcome
          rw [Net.receive_ok outcome] at run ⊢
          have boundAfter := bound.step known sent cases' rfl reached run
          refine guarded.of_node node run
            (Guarded.queued_sendAll (Guarded.queued_take guarded.queued))
            (fun other _ different => (Net.Beside.take_set different _).sendAll different) ?_ ?_ ?_
          · intro _ isIdle
            rw [Net.sendAll_phase, Net.set_phase_self] at isIdle
            cases out <;> cases isIdle
          · intro dkg _ isRunning
            rw [Net.sendAll_phase, Net.set_phase_self] at isRunning
            cases out <;> cases isRunning <;> exact boundAfter
          · intro dkg pks sks _ isDone
            rw [Net.sendAll_phase, Net.set_phase_self] at isDone
            cases cases' with
            | lastShare committed valid fresh isNext full summed added =>
                cases isDone
                have nodes : after.numNodes = dkg.numNodes := by rw [isNext]
                rw [← nodes] at full added
                refine ⟨boundAfter, ?_, ?_⟩
                · rw [← boundAfter.nodes]
                  exact boundAfter.checked.hashes_full full
                · exact ⟨added, boundAfter.checked.result full summed added⟩
            | hash | lastHash | commitment | lastCommitment | share => cases isDone
  | @byzantine sender evil receiver message =>
      have isSend : net.send sender receiver message =
        net.sendAll sender [(receiver, message)] := rfl
      rw [isSend] at run ⊢
      refine guarded.of_node sender run (Guarded.queued_sendAll guarded.queued)
        (fun other honest different => ?_) (fun honest => absurd evil honest.2)
        (fun _ honest => absurd evil honest.2) (fun _ _ _ honest => absurd evil honest.2)
      exact Net.Beside.sendAll ⟨rfl, fun _ member => member, fun _ _ member => member⟩ different

theorem guarded_of_reachable (linear : Linear scheme F M) (reached : Net.Reachable setup net) :
    Guarded linear setup net := by
  induction reached with
  | refl => exact Guarded.start linear setup
  | tail before stepped ih => exact ih.step before stepped

end Byzantine

end Picomint.Config
