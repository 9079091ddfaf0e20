/-
What the instances of the key generation return.

Honest nodes all return one polynomial, each with its own share of it, and any
threshold of the shares has the secret.  Against Byzantine nodes a result is
still a share of its own polynomial, and the commitments in it were fixed before
the instance opened its own one.
-/

import Picomint.Dkg.Agreement

namespace Picomint.Config

variable {scheme : Scheme}

/-! ### Returning once -/

section Once

variable {setup : Setup scheme} {net next : Net scheme} {node : NodeId} {dkg : Dkg scheme}
  {pks : List scheme.Commitment} {sks : scheme.Key}

theorem Net.Step.done (returned : net.phase node = .done dkg pks sks)
    (stepped : Net.Step setup net next) : next.phase node = .done dkg pks sks := by
  cases stepped with
  | @begin other _ idle =>
      have different : node ≠ other := by
        rintro rfl
        cases returned.symm.trans idle
      rw [Net.begin, Net.sendAll_phase, Net.set_phase_of_ne _ different]
      exact returned
  | @receive other sender _ _ _ instance' running message rest queued =>
      have different : node ≠ other := by
        rintro rfl
        cases returned.symm.trans running
      rw [(Net.Beside.receive different instance').phase]
      exact returned
  | byzantine evil receiver message => exact returned

theorem Net.Run.done (returned : net.phase node = .done dkg pks sks)
    (run : Net.Run setup net next) : next.phase node = .done dkg pks sks := by
  induction run with
  | refl => exact returned
  | tail _ stepped ih => exact stepped.done ih

end Once

/-- All nodes return, none fails, and each returns once. -/
structure Finishes (setup : Setup scheme) (pks : List scheme.Commitment)
    (sks : NodeId → scheme.Key) (net : Net scheme) : Prop where
  inevitably : Inevitably (Net.Step setup) (AllDone setup pks sks) net
  runs : ∀ node < setup.nodes.total, ∀ fault, net.phase node ≠ .failed fault
  same : ∀ node < setup.nodes.total, ∀ dkg found key, net.phase node = .done dkg found key →
    found = pks ∧ key = sks node
  once : ∀ node < setup.nodes.total, ∀ dkg found key, net.phase node = .done dkg found key →
    ∀ next, Net.Run setup net next → next.phase node = .done dkg found key

theorem Regular.finishes {setup : Setup scheme} {share : NodeId → NodeId → scheme.Key}
    {pks : List scheme.Commitment} {sks : NodeId → scheme.Key}
    (regular : Regular setup share pks sks) {net : Net scheme} (reached : Net.Reachable setup net) :
    Finishes setup pks sks net where
  inevitably := inevitably_done regular reached
  runs := by
    intro node known fault failed
    rcases phase_of_reachable regular reached known with idle | ⟨dkg, running⟩ | ⟨dkg, done⟩
    · cases failed.symm.trans idle
    · cases failed.symm.trans running
    · cases failed.symm.trans done
  same := by
    intro node known dkg found key returned
    rcases phase_of_reachable regular reached known with idle | ⟨other, running⟩ | ⟨other, done⟩
    · cases returned.symm.trans idle
    · cases returned.symm.trans running
    · cases returned.symm.trans done
      exact ⟨rfl, rfl⟩
  once := by
    intro node _ dkg found key returned next run
    exact Net.Run.done returned run

/-! ### The commitments of a result -/

/-- The polynomial is the sum of the commitments, and each of a peer opens a
hash that had been sent to the node before this opened its own one. -/
structure Committed (setup : Setup scheme) (net : Net scheme) (node : NodeId) (dkg : Dkg scheme)
    (pks : List scheme.Commitment) : Prop where
  summed : (List.range setup.nodes.threshold).mapM
    (coefficientSum dkg.commitments.values) = .ok pks
  hashed : ∃ before, Net.Reachable setup before ∧ Net.Run setup before net ∧ Silent before node ∧
    ∀ peer polynomial, peer ≠ node → dkg.commitments.get? peer = some polynomial →
      (peer, node, .hash (scheme.hash polynomial)) ∈ before.sent

section Byzantine

variable {F M : Type} [Field F] [AddCommGroup M] [Module F M] {linear : Linear scheme F M}
  {setup : Setup scheme} {net : Net scheme} {node : NodeId} {dkg : Dkg scheme}
  {pks : List scheme.Commitment} {sks : scheme.Key}

theorem Guarded.committed (guarded : Guarded linear setup net) (honest : setup.Honest node)
    (returned : net.phase node = .done dkg pks sks) : Committed setup net node dkg pks := by
  obtain ⟨bound, full, onPolynomial⟩ := guarded.done node dkg pks sks honest returned
  refine ⟨bound.nodes ▸ onPolynomial.summed, ?_⟩
  rcases bound.hashes with ⟨more, _⟩ | ⟨_, before, reached, run, silent, hashed⟩
  · exact absurd full more
  · refine ⟨before, reached, run, silent, fun peer polynomial other found => ?_⟩
    have opened := (bound.checked.opened peer polynomial found).1
    have isHash := hashed peer _ (by rwa [bound.identity]) opened
    rwa [bound.identity] at isHash

theorem Guarded.share (guarded : Guarded linear setup net) (honest : setup.Honest node)
    (returned : net.phase node = .done dkg pks sks) :
    linear.scalar sks • linear.base =
      SharePolynomial.valueAt (pks.map linear.point) (linear.at' node) := by
  obtain ⟨bound, _, onPolynomial⟩ := guarded.done node dkg pks sks honest returned
  rw [← bound.identity]
  exact onPolynomial.share

theorem Guarded.nonempty (guarded : Guarded linear setup net) (honest : setup.Honest node)
    (returned : net.phase node = .done dkg pks sks) : pks ≠ [] :=
  coefficientSums_nonempty (guarded.done node dkg pks sks honest returned).2.2.summed

end Byzantine

/-! ### secp256k1 -/

namespace DkgSecp

open Tss

variable {curve : Curve} {hash : List (PublicKey curve) → Hash}

/-- Each key is a share of the polynomial, and as many keys as the threshold
have its secret, unless a partial sum of their terms is zero. -/
structure Shared (setup : Setup (secp curve hash)) (pks : List (PublicKey curve))
    (sks : NodeId → SecretKey curve) : Prop where
  evaluated : ∀ node < setup.nodes.total, evalPoly pks node = .ok (sks node).publicKey
  interpolated : ∀ shares : SortedMap Nat (SecretKey curve),
    shares.size = setup.nodes.threshold →
    (∀ node share, shares.get? node = some share →
      node < setup.nodes.total ∧ share = sks node) →
    (∀ count, 0 < count → count ≤ shares.size → partialSecret shares count ≠ 0) →
    ∃ secret, interpolateSecretKey shares = some secret ∧ pks.head? = some secret.publicKey

theorem shared {setup : Setup (secp curve hash)} {share : NodeId → NodeId → SecretKey curve}
    {pks : List (PublicKey curve)} {sks : NodeId → SecretKey curve}
    (regular : Regular setup share pks sks) (generic : NoZeroSum setup) : Shared setup pks sks where
  evaluated := fun _ known => evalPoly_result regular generic known
  interpolated := fun _ enough dealt nonzero => interpolate_result regular enough dealt nonzero

/-- What the polynomial gives for a node is the public key of its share, or the
point at infinity was met on the way. -/
def Evaluates (pks : List (PublicKey curve)) (node : NodeId) (sks : SecretKey curve) : Prop :=
  evalPoly pks node = .ok sks.publicKey ∨ evalPoly pks node = .error (.error .infinity)

theorem evaluates {setup : Setup (secp curve hash)} {net : Net (secp curve hash)} {node : NodeId}
    {dkg : DkgSecp curve hash} {pks : List (PublicKey curve)} {sks : SecretKey curve}
    (reached : Net.Reachable setup net) (honest : setup.Honest node)
    (returned : net.phase node = .done dkg pks sks) : Evaluates pks node sks := by
  have guarded := guarded_of_reachable (linear curve hash) reached
  rcases evalPoly_cases (guarded.nonempty honest returned) (fits setup honest.1) with
    ⟨key, computed⟩ | infinite
  · left
    have onPolynomial := guarded.share honest returned
    have same : key = sks.publicKey :=
      PublicKey.ext ((evalPoly_value computed).trans onPolynomial.symm)
    rw [computed, same]
  · exact Or.inr infinite

end DkgSecp

/-! ### G2 -/

namespace DkgG2

open Tbs

variable {groups : PairingGroups} [DecidableEq groups.G2] {hash : List groups.G2 → Hash}

/-- Each key is a share of the polynomial, and as many keys as the threshold
have its secret. -/
structure Shared (setup : Setup (pairingG2 groups hash)) (pks : List groups.G2)
    (sks : NodeId → groups.Scalar) : Prop where
  evaluated : ∀ node < setup.nodes.total, evalPolyG2 pks node = .ok (g2 (sks node))
  interpolated : ∀ nodes : List NodeId, nodes.Nodup → nodes.length = setup.nodes.threshold →
    (∀ node ∈ nodes, node < setup.nodes.total) →
    ∃ multipliers, lagrangeMultipliers (nodes.map (scalar groups)) = some multipliers ∧
      pks.head? = some (g2 ((multipliers.zip (nodes.map sks)).map fun entry =>
        entry.1 * entry.2).sum)

theorem shared {setup : Setup (pairingG2 groups hash)} {share : NodeId → NodeId → groups.Scalar}
    {pks : List groups.G2} {sks : NodeId → groups.Scalar}
    (regular : Regular setup share pks sks) : Shared setup pks sks where
  evaluated := fun _ known => evalPolyG2_result regular known
  interpolated := fun _ distinct enough known => interpolate_result regular distinct enough known

theorem evaluates {setup : Setup (pairingG2 groups hash)} {net : Net (pairingG2 groups hash)}
    {node : NodeId} {dkg : DkgG2 groups hash} {pks : List groups.G2} {sks : groups.Scalar}
    (reached : Net.Reachable setup net) (honest : setup.Honest node)
    (returned : net.phase node = .done dkg pks sks) : evalPolyG2 pks node = .ok (g2 sks) := by
  have guarded := guarded_of_reachable (linear groups hash) reached
  have onPolynomial := guarded.share honest returned
  rw [evalPolyG2_ok (guarded.nonempty honest returned)]
  change sks • groups.generator = SharePolynomial.valueAt (pks.map id) (scalar groups node)
    at onPolynomial
  rw [List.map_id] at onPolynomial
  exact congrArg Except.ok onPolynomial.symm

end DkgG2

/-! ### Agreement -/

/-- However the messages are interleaved, honest nodes agree on one polynomial
and its shares; and whatever the others send, what an honest node returns is a
share of the polynomial it returns, whose commitments it had the hashes of. -/
theorem dkg_agrees (curve : Tss.Curve) (secpHash : List (Tss.PublicKey curve) → Hash)
    (groups : Tbs.PairingGroups) [DecidableEq groups.G2] (g2Hash : List groups.G2 → Hash) :
    (∀ setup : Setup (secp curve secpHash), setup.byzantine = ∅ → DkgSecp.NoZeroSum setup →
      ∃ pks sks, DkgSecp.Shared setup pks sks ∧
        ∀ net, Net.Reachable setup net → Finishes setup pks sks net) ∧
    (∀ setup : Setup (pairingG2 groups g2Hash), setup.byzantine = ∅ →
      ∃ pks sks, DkgG2.Shared setup pks sks ∧
        ∀ net, Net.Reachable setup net → Finishes setup pks sks net) ∧
    (∀ (setup : Setup (secp curve secpHash)) net node dkg pks sks,
      Net.Reachable setup net → setup.Honest node → net.phase node = .done dkg pks sks →
        DkgSecp.Evaluates pks node sks ∧ Committed setup net node dkg pks) ∧
    (∀ (setup : Setup (pairingG2 groups g2Hash)) net node dkg pks sks,
      Net.Reachable setup net → setup.Honest node → net.phase node = .done dkg pks sks →
        DkgG2.evalPolyG2 pks node = .ok (DkgG2.g2 sks) ∧ Committed setup net node dkg pks) := by
  refine ⟨?_, ?_, ?_, ?_⟩
  · intro setup honest generic
    obtain ⟨share, pks, sks, regular⟩ := DkgSecp.exists_regular honest generic
    exact ⟨pks, sks, DkgSecp.shared regular generic, fun net reached => regular.finishes reached⟩
  · intro setup honest
    obtain ⟨share, pks, sks, regular⟩ := DkgG2.exists_regular honest
    exact ⟨pks, sks, DkgG2.shared regular, fun net reached => regular.finishes reached⟩
  · intro setup net node dkg pks sks reached honest returned
    have guarded := guarded_of_reachable (DkgSecp.linear curve secpHash) reached
    exact ⟨DkgSecp.evaluates reached honest returned, guarded.committed honest returned⟩
  · intro setup net node dkg pks sks reached honest returned
    have guarded := guarded_of_reachable (DkgG2.linear groups g2Hash) reached
    exact ⟨DkgG2.evaluates reached honest returned, guarded.committed honest returned⟩

/-! ### Runs to evaluate -/

inductive Move (scheme : Scheme) where
  | begin (node : NodeId)
  | receive (node sender : NodeId)
  | byzantine (sender receiver : NodeId) (message : Message scheme)

namespace Net

variable {setup : Setup scheme} {net next : Net scheme}

def move (setup : Setup scheme) (net : Net scheme) : Move scheme → Option (Net scheme)
  | .begin node =>
      match net.phase node with
      | .idle => if setup.Honest node then some (net.begin setup node) else none
      | _ => none
  | .receive node sender =>
      match net.phase node, net.channel sender node with
      | .running dkg, message :: _ =>
          if setup.Honest node ∧ sender < setup.nodes.total ∧ sender ≠ node then
            some (net.receive setup node sender dkg message)
          else none
      | _, _ => none
  | .byzantine sender receiver message =>
      if sender ∈ setup.byzantine then some (net.send sender receiver message) else none

def moves (setup : Setup scheme) (net : Net scheme) (moves : List (Move scheme)) :
    Option (Net scheme) :=
  moves.foldlM (move setup) net

theorem move_step {move : Move scheme} (moved : net.move setup move = some next) :
    Step setup net next := by
  cases move with
  | begin node =>
      simp only [Net.move] at moved
      split at moved
      · rename_i idle
        split at moved
        · rename_i honest
          cases moved
          exact .begin honest idle
        · cases moved
      · cases moved
  | receive node sender =>
      simp only [Net.move] at moved
      split at moved
      · rename_i dkg message rest running queued
        split at moved
        · rename_i may
          cases moved
          exact .receive may.1 may.2.1 may.2.2 running queued
        · cases moved
      · cases moved
  | byzantine sender receiver message =>
      simp only [Net.move] at moved
      split at moved
      · rename_i evil
        cases moved
        exact .byzantine evil receiver message
      · cases moved

theorem moves_run {moves : List (Move scheme)} (moved : net.moves setup moves = some next) :
    Run setup net next := by
  induction moves generalizing net with
  | nil =>
      cases moved
      exact .refl
  | cons move rest ih =>
      obtain ⟨middle, first, following⟩ := Option.bind_eq_some_iff.mp moved
      exact .head (move_step first) (ih following)

theorem moves_get (moves : List (Move scheme)) (possible : (net.moves setup moves).isSome) :
    Run setup net ((net.moves setup moves).get possible) :=
  moves_run (Option.some_get possible).symm

def committed (net : Net scheme) (node peer : NodeId) : Option (List scheme.Commitment) :=
  match net.phase node with
  | .done dkg _ _ => dkg.commitments.get? peer
  | _ => none

theorem committed_done {node peer : NodeId} {polynomial : List scheme.Commitment}
    (found : net.committed node peer = some polynomial) :
    ∃ dkg pks sks, net.phase node = .done dkg pks sks := by
  unfold committed at found
  split at found
  · rename_i dkg pks sks returned
    exact ⟨dkg, pks, sks, returned⟩
  · cases found

end Net

/-! Four nodes, of which the last one is Byzantine.  It tells the second one
nothing before the first one has opened its commitment, and then opens either
of two of its own. -/

section Sample

open Tss

def sampleHash (polynomial : List (PublicKey scalarCurve)) : Hash :=
  polynomial.foldl
    (fun hash coefficient => hash * scalarOrder + scalarCurve.xOnly coefficient.point) 0

def sampleSetup (byzantine : Finset NodeId) : Setup (secp scalarCurve sampleHash) where
  nodes := ⟨1⟩
  several := by decide
  identities := by decide
  polynomial := fun _ => [ScalarCurve.one, ScalarCurve.one, ScalarCurve.one]
  degree := fun _ => rfl
  byzantine := byzantine

def sampleKey (value : Nat) (nonzero : (value : ZMod scalarOrder) ≠ 0) : SecretKey scalarCurve :=
  ⟨(value : ZMod scalarOrder), nonzero⟩

def ones : List (PublicKey scalarCurve) :=
  [ScalarCurve.one.publicKey, ScalarCurve.one.publicKey, ScalarCurve.one.publicKey]

/-- The constant coefficient is two. -/
def chosen : List (PublicKey scalarCurve) :=
  [(sampleKey 2 (by decide +kernel)).publicKey, ScalarCurve.one.publicKey,
    ScalarCurve.one.publicKey]

/-- The first node opens its commitment. -/
def openingMoves : List (Move (secp scalarCurve sampleHash)) :=
  [.begin 0, .begin 1, .begin 2, .byzantine 3 0 (.hash (sampleHash ones)), .receive 0 1,
    .receive 0 2, .receive 0 3]

/-- The last node commits to a polynomial towards the second one, which returns. -/
def closingMoves (polynomial : List (PublicKey scalarCurve)) (share : SecretKey scalarCurve) :
    List (Move (secp scalarCurve sampleHash)) :=
  [.byzantine 3 1 (.hash (sampleHash polynomial)), .byzantine 3 2 (.hash (sampleHash ones)),
    .byzantine 3 0 (.commitment ones), .byzantine 3 1 (.commitment polynomial),
    .byzantine 3 2 (.commitment ones), .byzantine 3 1 (.share share),
    .receive 1 0, .receive 1 2, .receive 1 3, .receive 2 0, .receive 2 1, .receive 2 3,
    .receive 0 1, .receive 0 2, .receive 0 3, .receive 2 0, .receive 2 1, .receive 2 3,
    .receive 1 0, .receive 1 2, .receive 1 3, .receive 1 0, .receive 1 2, .receive 1 3]

theorem opening_possible :
    (Net.start.moves (sampleSetup {3}) openingMoves).isSome := by decide +kernel

def opened : Net (secp scalarCurve sampleHash) :=
  (Net.start.moves (sampleSetup {3}) openingMoves).get opening_possible

theorem opened_reachable : Net.Reachable (sampleSetup {3}) opened :=
  Net.moves_get openingMoves opening_possible

/-- What node 3 commits to in a result can be chosen after an honest node has
opened its commitment to it. -/
theorem commitment_chosen_late :
    Net.Reachable (sampleSetup {3}) opened ∧
      (∀ node < 3, (sampleSetup {3}).Honest node) ∧
      (∃ polynomial, (0, 3, .commitment polynomial) ∈ opened.sent) ∧
      (∀ message, (3, 1, message) ∉ opened.sent) ∧
      ∃ first second, Net.Run (sampleSetup {3}) opened first ∧
        Net.Run (sampleSetup {3}) opened second ∧
        first.committed 1 3 = some ones ∧ second.committed 1 3 = some chosen ∧ ones ≠ chosen := by
  have firstPossible : (opened.moves (sampleSetup {3})
      (closingMoves ones (sampleKey 7 (by decide +kernel)))).isSome := by decide +kernel
  have secondPossible : (opened.moves (sampleSetup {3})
      (closingMoves chosen (sampleKey 8 (by decide +kernel)))).isSome := by decide +kernel
  refine ⟨opened_reachable, by decide, ?_, ?_, _, _,
    Net.moves_get _ firstPossible, Net.moves_get _ secondPossible, ?_, ?_, by decide +kernel⟩
  · have seen : (opened.sent.any fun entry =>
        match entry with
        | (0, 3, .commitment _) => true
        | _ => false) = true := by decide +kernel
    obtain ⟨entry, member, isCommitment⟩ := List.any_eq_true.mp seen
    split at isCommitment
    · exact ⟨_, member⟩
    · cases isCommitment
  · have unseen : (3, 1) ∉ opened.sent.map fun entry => (entry.1, entry.2.1) := by decide +kernel
    exact fun message member => unseen (List.mem_map_of_mem member)
  · decide +kernel +revert
  · decide +kernel +revert

instance : DecidableEq Tbs.scalarGroups.G2 := inferInstanceAs (DecidableEq (ZMod scalarOrder))

theorem sampleSetup_generic (byzantine : Finset NodeId) :
    DkgSecp.NoZeroSum (sampleSetup byzantine) := by
  constructor
  · intro dealer node _ known
    have checked : ∀ node < 4, ∀ count < 3, SharePolynomial.valueAt
        ([1, 1, 1].drop count : List (ZMod scalarOrder))
        ((node + 1 : Nat) : ZMod scalarOrder) ≠ 0 := by
      decide +kernel
    exact checked node known
  · intro node known count positive below
    have checked : ∀ node < 4, ∀ count ≤ 4, 0 < count → ((List.range count).map fun _ =>
        SharePolynomial.valueAt ([1, 1, 1] : List (ZMod scalarOrder))
          ((node + 1 : Nat) : ZMod scalarOrder)).sum ≠ 0 := by
      decide +kernel
    exact checked node known count below positive
  · intro index within count positive below
    have checked : ∀ index < 3, ∀ count ≤ 4, 0 < count → ((List.range count).map fun _ =>
        ([1, 1, 1] : List (ZMod scalarOrder)).getD index 0).sum ≠ 0 := by
      decide +kernel
    exact checked index within count below positive
  · intro node known
    have checked : ∀ node < 4, ∀ count < 3, SharePolynomial.valueAt
        ((SharePolynomial.sumColumns 3 ((List.range 4).map fun _ => [1, 1, 1]) :
          List (ZMod scalarOrder)).drop count) ((node + 1 : Nat) : ZMod scalarOrder) ≠ 0 := by
      decide +kernel
    exact checked node known

noncomputable def sampleSetupG2 : Setup (pairingG2 Tbs.scalarGroups fun _ => 0) where
  nodes := ⟨1⟩
  several := by decide
  identities := by decide
  polynomial := fun _ => [1, 1, 1]
  degree := fun _ => rfl
  byzantine := ∅

theorem dkg_agrees_sample :
    (∃ pks sks, DkgSecp.Shared (sampleSetup ∅) pks sks ∧
      ∀ net, Net.Reachable (sampleSetup ∅) net → Finishes (sampleSetup ∅) pks sks net) ∧
    (∃ pks sks, DkgG2.Shared sampleSetupG2 pks sks ∧
      ∀ net, Net.Reachable sampleSetupG2 net → Finishes sampleSetupG2 pks sks net) ∧
    ∃ net dkg pks sks, Net.Reachable (sampleSetup {3}) net ∧ net.phase 1 = .done dkg pks sks ∧
      DkgSecp.Evaluates pks 1 sks ∧ Committed (sampleSetup {3}) net 1 dkg pks := by
  have agrees := dkg_agrees scalarCurve sampleHash Tbs.scalarGroups fun _ => 0
  refine ⟨agrees.1 (sampleSetup ∅) rfl (sampleSetup_generic ∅), agrees.2.1 sampleSetupG2 rfl, ?_⟩
  have possible : (opened.moves (sampleSetup {3})
      (closingMoves ones (sampleKey 7 (by decide +kernel)))).isSome := by decide +kernel
  have isCommitted : ((opened.moves (sampleSetup {3}) (closingMoves ones
      (sampleKey 7 (by decide +kernel)))).get possible).committed 1 3 = some ones := by
    decide +kernel +revert
  obtain ⟨dkg, pks, sks, returned⟩ := Net.committed_done isCommitted
  have reached := opened_reachable.trans (Net.moves_get _ possible)
  exact ⟨_, dkg, pks, sks, reached, returned,
    agrees.2.2.1 _ _ 1 dkg pks sks reached (by decide) returned⟩

end Sample

end Picomint.Config
