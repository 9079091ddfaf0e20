/-
The tracked height follows the chain.

While a block has its confirmations and an honest node has not voted on it,
that node catches up with the log and proposes its vote; the honest nodes are
a threshold, so before the last of them has voted the height has advanced.
-/

import Picomint.Consensus.BlockAgreement

namespace Picomint.Consensus

open Tss

variable {curve : Curve} {setup : Setup curve} {depth : Nat} {world : World curve}

/-! ### One more vote -/

theorem World.run_cons {world middle : World curve} {happening : Happening curve}
    {rest : List (Happening curve)}
    (stepped : World.step setup depth world happening = some middle) :
    World.run setup depth world (happening :: rest) = World.run setup depth middle rest := by
  unfold World.run
  rw [List.foldlM_cons, stepped]
  rfl

theorem World.run_append (first second : List (Happening curve)) :
    World.run setup depth world (first ++ second) =
      (World.run setup depth world first).bind (fun middle =>
        World.run setup depth middle second) := by
  unfold World.run
  exact List.foldlM_append

/-- With a block and its confirmations a node that has not voted has a vote. -/
theorem Onchain.blockProposal_confirmed {server : Server curve} (receiveHash : Script → List Nat)
    {ledger : Ledger curve} {chain : List Block} {height : Nat}
    (tracked : ledger.blockHeight = some height)
    (fresh : ledger.blockVote.contains server.identity = false)
    (covered : height + CONFIRMATIONS ≤ chain.length) :
    ∃ vote, blockProposal server receiveHash ledger (World.tip chain)
      (fun height => chain[height]?) = some vote ∧ vote.height = height := by
  unfold CONFIRMATIONS at covered
  have nonempty : chain.isEmpty = false := by
    cases chain with
    | nil => exact absurd covered (by simp)
    | cons first rest => rfl
  have confirmed : ¬(chain.length - 1 + 1 < height + CONFIRMATIONS) := by
    unfold CONFIRMATIONS
    omega
  have present : chain[height]? = some chain[height] := List.getElem?_eq_getElem (by omega)
  refine ⟨{ height, txs := chain[height].filterMap (voteTx? receiveHash ledger) }, ?_, rfl⟩
  unfold blockProposal World.tip
  simp only [tracked, nonempty, Option.bind_eq_bind, Option.bind_some, Bool.false_eq_true,
    ↓reduceIte, confirmed, fresh, present]
  rfl

/-- The ordered vote of a node is counted or completes the threshold. -/
theorem Setup.order_vote {log : List (NodeId × ConsensusItem curve)} {ledger : Ledger curve}
    {node : NodeId} {vote : BlockVote}
    (reached : setup.ledgerAt 0 log log.length = some ledger)
    (tracked : ledger.blockHeight = some vote.height)
    (fresh : ledger.blockVote.contains node = false) :
    ∃ after, setup.ledgerAt 0 (log ++ [(node, .onchain (.block vote))]) (log.length + 1) =
        some after ∧
      (∀ txid, setup.finalises (log ++ [(node, .onchain (.block vote))]) log.length txid =
        false) ∧
      (after.blockHeight = some (vote.height + 1) ∨ (after.blockHeight = some vote.height ∧
        ∀ other, after.blockVote.contains other = true ↔
          node = other ∨ ledger.blockVote.contains other = true)) := by
  obtain ⟨after, accepted⟩ : ∃ after,
      Onchain.processBlock (setup.servers 0).toMintConfig ledger node vote = .ok after :=
    processBlock_accepts tracked fresh
  have next : setup.ledgerAt 0 (log ++ [(node, .onchain (.block vote))]) (log.length + 1) =
      some after := by
    unfold Setup.ledgerAt at reached ⊢
    rw [List.take_length] at reached
    obtain ⟨history, ran, same⟩ := Option.map_eq_some_iff.mp reached
    rw [List.take_of_length_le (by rw [List.length_append, List.length_singleton]),
      History.run_concat, ran, Option.bind_some]
    have stepped : processConsensusItem (setup.servers 0) history.ledger node
        (.onchain (.block vote)) = .ok after := by
      rw [same]
      exact accepted
    unfold History.step
    rw [stepped]
    rfl
  refine ⟨after, next, ?_, ?_⟩
  · intro txid
    apply Bool.eq_false_iff.mpr
    intro finalised
    obtain ⟨before, after', atPlace, further, absent, waits⟩ :=
      Setup.finalises_iff.mp finalised
    rw [Setup.ledgerAt_append 0 (le_refl _), reached] at atPlace
    cases atPlace
    cases next.symm.trans further
    obtain ⟨_, _, ⟨_, result⟩ | ⟨_, _, _, _, waiting⟩⟩ := processBlock_votes accepted
    · subst result
      change ledger.unconfirmedTx.contains txid = true at waits
      rw [absent] at waits
      cases waits
    · obtain ⟨mintTx, present⟩ := (SortedMap.contains_iff _ _).mp waits
      rw [waiting] at present
      split at present
      · cases present
      · have impossible := (SortedMap.contains_iff _ _).mpr ⟨mintTx, present⟩
        rw [absent] at impossible
        cases impossible
  · obtain ⟨_, _, ⟨_, result⟩ | ⟨_, advanced, _⟩⟩ := processBlock_votes accepted
    · subst result
      exact Or.inr ⟨tracked, fun other => SortedMap.contains_insert _ _ _ _⟩
    · exact Or.inl advanced

/-- The tracked height and the voters of the tables at the end of the log. -/
structure Standing (setup : Setup curve) (world : World curve) (height : Nat)
    (ledger : Ledger curve) : Prop where
  reached : setup.ledgerAt 0 world.log world.log.length = some ledger
  tracked : ledger.blockHeight = some height

/-- An honest node that has not voted on a confirmed block can do so. -/
theorem Sound.vote (sound : Sound setup depth world) {height : Nat} {ledger : Ledger curve}
    (standing : Standing setup world height ledger)
    (covered : height + CONFIRMATIONS ≤ world.chain.length) {node : NodeId}
    (member : node ∈ setup.mint.n.nodeIds)
    (fresh : ledger.blockVote.contains node = false) :
    ∃ happenings after final, World.run setup depth world happenings = some after ∧
      after.chain = world.chain ∧
      (Standing setup after (height + 1) final ∨ (Standing setup after height final ∧
        ∀ other, final.blockVote.contains other = true ↔
          node = other ∨ ledger.blockVote.contains other = true)) := by
  obtain ⟨own, ownReached, same⟩ := Setup.ledgerAt_same node standing.reached
  have ownFresh : own.blockVote.contains (setup.servers node).identity = false := by
    rw [setup.identity node, ← same.blockVote]
    exact fresh
  obtain ⟨vote, proposed, atHeight⟩ := Onchain.blockProposal_confirmed setup.receiveHash
    (same.blockHeight ▸ standing.tracked) ownFresh covered
  subst atHeight
  obtain ⟨final, next, unmined, counted⟩ :=
    Setup.order_vote standing.reached standing.tracked fresh
  -- catch up, look at the chain, propose and have the vote ordered
  let caughtUp : World curve :=
    { world with position := Function.update world.position node world.log.length }
  let looked : World curve :=
    { caughtUp with
      views := Function.update world.views node (world.views node ++ [world.chain]) }
  let voted : World curve :=
    { looked with proposed := world.proposed ++ [(node, .onchain (.block vote))] }
  let ordered : World curve :=
    { voted with log := world.log ++ [(node, .onchain (.block vote))] }
  have first : World.step setup depth world (.process node world.log.length) = some caughtUp := by
    simp only [World.step]
    rw [if_pos ⟨sound.placed node, le_refl _, by rw [ownReached]; rfl⟩]
  have second : World.step setup depth caughtUp (.observe node world.chain.length) =
      some looked := by
    simp only [World.step, caughtUp, looked, List.take_length]
  have third : World.step setup depth looked (.proposeBlock node world.log.length
      (world.views node).length (world.views node).length) = some voted := by
    have view : (looked.views node)[(world.views node).length]? = some world.chain := by
      simp only [looked, Function.update_self, List.getElem?_concat_length]
    simp only [World.step, view, Option.bind_eq_bind, Option.bind_some]
    change ((setup.ledgerAt node world.log world.log.length).bind _) = _
    rw [ownReached, Option.bind_some, proposed, Option.bind_some]
    rw [if_pos ⟨by simp only [looked, caughtUp, Function.update_self]; exact le_refl _, le_refl _⟩]
  have fourth : World.step setup depth voted (.order node (.onchain (.block vote))) =
      some ordered := by
    simp only [World.step]
    rw [if_pos ⟨member, fun _ _ => List.mem_append_right _ (List.mem_singleton_self _),
      fun block _ tx _ => unmined tx.txid⟩]
  refine ⟨[.process node world.log.length, .observe node world.chain.length,
    .proposeBlock node world.log.length (world.views node).length (world.views node).length,
    .order node (.onchain (.block vote))], ordered, final, ?_, rfl, ?_⟩
  · rw [World.run_cons first, World.run_cons second, World.run_cons third, World.run_cons fourth]
    rfl
  · have reached : setup.ledgerAt 0 ordered.log ordered.log.length = some final := by
      have length : ordered.log.length = world.log.length + 1 := by
        simp only [ordered, List.length_append, List.length_singleton]
      rw [length]
      exact next
    exact counted.imp (fun advanced => ⟨reached, advanced⟩)
      (fun kept => ⟨⟨reached, kept.1⟩, kept.2⟩)

/-! ### The whole committee -/

def Setup.honest (setup : Setup curve) : List NodeId :=
  setup.mint.n.nodeIds.filter (fun node => node ∉ setup.byzantine)

theorem Setup.mem_honest {node : NodeId} :
    node ∈ setup.honest ↔ node ∈ setup.mint.n.nodeIds ∧ node ∉ setup.byzantine := by
  simp [Setup.honest]

theorem Setup.honest_nodup (setup : Setup curve) : setup.honest.Nodup :=
  List.nodup_range.filter _

theorem Setup.honest_threshold (setup : Setup curve) :
    Onchain.threshold setup.mint ≤ setup.honest.length := by
  have split := List.length_eq_length_filter_add
    (l := setup.mint.n.nodeIds) (fun node => decide (node ∉ setup.byzantine))
  have few : (setup.mint.n.nodeIds.filter
      (fun node => !decide (node ∉ setup.byzantine))).length ≤ setup.byzantine.card := by
    have distinct : setup.mint.n.nodeIds.Nodup := List.nodup_range
    rw [← List.toFinset_card_of_nodup (distinct.filter _)]
    apply Finset.card_le_card
    intro node member
    simpa using (List.mem_filter.mp (List.mem_toFinset.mp member)).2
  have bound := setup.bound
  have total : setup.mint.n.nodeIds.length = setup.mint.n.total := List.length_range
  unfold Setup.honest Onchain.threshold NumNodes.threshold
  unfold NumNodes.total at total
  omega

def Setup.undecided (setup : Setup curve) (ledger : Ledger curve) : List NodeId :=
  setup.honest.filter (fun node => !ledger.blockVote.contains node)

theorem Setup.undecided_voted {ledger next : Ledger curve} {node : NodeId}
    (member : node ∈ setup.undecided ledger)
    (counted : ∀ other, next.blockVote.contains other = true ↔
      node = other ∨ ledger.blockVote.contains other = true) :
    (setup.undecided next).length < (setup.undecided ledger).length := by
  have same : setup.undecided next =
      (setup.undecided ledger).filter (fun other => decide (node ≠ other)) := by
    unfold Setup.undecided
    rw [List.filter_filter]
    apply List.filter_congr
    intro other _
    rw [Bool.eq_iff_iff]
    simp only [Bool.not_eq_true', Bool.and_eq_true, decide_eq_true_eq, Bool.eq_false_iff, ne_eq,
      counted other, not_or]
  rw [same, List.length_filter_lt_length_iff_exists]
  exact ⟨node, member, by simp⟩

/-- The tracked height advances past a confirmed block. -/
theorem Sound.advance (shallow : depth + 2 ≤ CONFIRMATIONS) (sound : Sound setup depth world)
    {height : Nat} {ledger : Ledger curve} (standing : Standing setup world height ledger)
    (covered : height + CONFIRMATIONS ≤ world.chain.length) :
    ∃ happenings after final, World.run setup depth world happenings = some after ∧
      after.chain = world.chain ∧ Standing setup after (height + 1) final := by
  generalize size : (setup.undecided ledger).length = left
  -- every vote leaves fewer honest nodes that have not voted
  induction left using Nat.strong_induction_on generalizing world ledger with
  | _ left inductionHypothesis =>
      subst size
      cases undecided : setup.undecided ledger with
      | nil =>
          have short := sound.honest_votes_short standing.reached setup.honest_nodup (by
            intro node member
            have voted := List.filter_eq_nil_iff.mp undecided node member
            exact ⟨(Setup.mem_honest.mp member).2, by simpa using voted⟩)
          exact absurd (lt_of_lt_of_le short setup.honest_threshold) (lt_irrefl _)
      | cons node rest =>
          have member : node ∈ setup.undecided ledger := by
            rw [undecided]
            exact List.mem_cons_self
          obtain ⟨honest, fresh⟩ := List.mem_filter.mp member
          obtain ⟨happenings, middle, next, ran, sameChain, advanced | ⟨kept, counted⟩⟩ :=
            sound.vote standing covered (Setup.mem_honest.mp honest).1 (by simpa using fresh)
          · exact ⟨happenings, middle, next, ran, sameChain, advanced⟩
          · obtain ⟨more, after, final, ran', sameChain', standing'⟩ :=
              inductionHypothesis _ (Setup.undecided_voted member counted)
                (sound.run shallow ran) kept (sameChain ▸ covered) rfl
            refine ⟨happenings ++ more, after, final, ?_, sameChain'.trans sameChain, standing'⟩
            rw [World.run_append, ran, Option.bind_some]
            exact ran'

/-- The tracked height advances past every confirmed block. -/
theorem Sound.advance_to (shallow : depth + 2 ≤ CONFIRMATIONS) (sound : Sound setup depth world)
    {height target : Nat} {ledger : Ledger curve} (standing : Standing setup world height ledger)
    (below : height ≤ target) (covered : target + CONFIRMATIONS ≤ world.chain.length) :
    ∃ happenings after final, World.run setup depth world happenings = some after ∧
      after.chain = world.chain ∧ Standing setup after (target + 1) final := by
  induction target, below using Nat.le_induction with
  | base => exact sound.advance shallow standing covered
  | succ target below inductionHypothesis =>
      obtain ⟨happenings, middle, next, ran, sameChain, standing⟩ :=
        inductionHypothesis (by omega)
      obtain ⟨more, after, final, ran', sameChain', standing'⟩ :=
        (sound.run shallow ran).advance shallow standing (sameChain ▸ covered)
      refine ⟨happenings ++ more, after, final, ?_, sameChain'.trans sameChain, standing'⟩
      rw [World.run_append, ran, Option.bind_some]
      exact ran'

/-- Honest votes on one height are equal and complete its threshold, the
height follows the chain, and no transaction mined below it waits. -/
structure VotesAgree (setup : Setup curve) (depth : Nat) (world : World curve) : Prop where
  agree : ∀ node node' vote vote', node ∉ setup.byzantine → node' ∉ setup.byzantine →
    (node, .onchain (.block vote)) ∈ world.proposed →
    (node', .onchain (.block vote')) ∈ world.proposed →
    vote.height = vote'.height → vote = vote'
  threshold : ∀ (node place : Nat) (ledger : Ledger curve) (voters : List NodeId),
    setup.ledgerAt node world.log place = some ledger → voters.Nodup →
    (∀ voter ∈ voters, voter ∉ setup.byzantine ∧ ledger.blockVote.contains voter = true) →
    voters.length < Onchain.threshold setup.mint
  advances : ∀ ledger height target,
    setup.ledgerAt 0 world.log world.log.length = some ledger →
    ledger.blockHeight = some height → height ≤ target →
    target + CONFIRMATIONS ≤ world.chain.length →
    ∃ happenings after, World.run setup depth world happenings = some after ∧
      after.chain = world.chain ∧ ∀ node, ∃ final,
        setup.ledgerAt node after.log after.log.length = some final ∧
        final.blockHeight = some (target + 1)
  leaves : ∀ node place ledger height mined txid,
    setup.ledgerAt node world.log place = some ledger → ledger.blockHeight = some height →
    world.Holds mined txid → mined < height → ledger.unconfirmedTx.contains txid = false

theorem block_votes_agree (setup : Setup curve) (depth : Nat)
    (happenings : List (Happening curve)) (world : World curve)
    (shallow : depth + 2 ≤ CONFIRMATIONS)
    (ran : World.run setup depth World.start happenings = some world) :
    VotesAgree setup depth world := by
  have sound : Sound setup depth world := Sound.start.run shallow ran
  constructor
  · intro node node' vote vote' _ _ proposed proposed' same
    exact sound.derived_unique (sound.derived node vote proposed)
      (sound.derived node' vote' proposed') same
  · intro node place ledger voters reached distinct voted
    obtain ⟨reference, reached', same⟩ := Setup.ledgerAt_same 0 reached
    apply sound.honest_votes_short reached' distinct
    rw [← same.blockVote]
    exact voted
  · intro ledger height target reached tracked below covered
    obtain ⟨happenings, after, final, ran, sameChain, standing⟩ :=
      sound.advance_to shallow ⟨reached, tracked⟩ below covered
    refine ⟨happenings, after, ran, sameChain, ?_⟩
    intro node
    obtain ⟨own, ownReached, same⟩ := Setup.ledgerAt_same node standing.reached
    exact ⟨own, ownReached, same.blockHeight ▸ standing.tracked⟩
  · intro node place ledger height mined txid reached tracked held below
    obtain ⟨reference, reached', same⟩ := Setup.ledgerAt_same 0 reached
    apply Bool.eq_false_iff.mpr
    intro waits
    rw [same.unconfirmedTx] at waits
    have above := sound.waiting_above reached' (same.blockHeight ▸ tracked) waits held
    exact absurd (lt_of_lt_of_le below above) (lt_irrefl _)

/-! Four honest nodes finalise a sweep, which a reorganisation moves into the
block at the tracked height. -/

def sampleVoters : Setup scalarCurve where
  servers := sampleNode
  mint := sampleServer.toMintConfig
  sameMint := fun _ => rfl
  identity := fun _ => rfl
  receiveHash := fun script => if script = 6 then [0, 0] else [1, 0]
  byzantine := ∅
  bound := Nat.zero_le _

def sampleDepositTx : ChainTx :=
  { txid := 7
    output := [{ value := 50000, scriptPubkey := 6 }, { value := 50000, scriptPubkey := 6 }] }

def sampleSeen (nodes length : Nat) : List (Happening scalarCurve) :=
  (List.range nodes).map (fun node => .observe node length)

def sampleTracked : List (Happening scalarCurve) :=
  [.mine 0 [[], [sampleDepositTx], [], [], [], [], []]] ++ sampleSeen 4 2 ++
    (List.range 3).flatMap (fun node =>
      [.proposeHeight node 0 0, .order node (.blockHeight 1)]) ++
    (List.range 4).map (fun node => .process node 3) ++ sampleSeen 4 7 ++
    (List.range 3).flatMap (fun node =>
      [.proposeBlock node 3 1 1, .order node (.onchain (.block sampleTwoDeposits))])

def sampleFinalised : List (Happening scalarCurve) :=
  sampleTracked ++ (([0, 1, 2].foldl sampleProposal sampleEntered).drop 6).map (fun entry =>
    .order entry.1 entry.2)

theorem block_votes_agree_sample :
    ∃ world, World.run sampleVoters 4 World.start sampleFinalised = some world ∧
      VotesAgree sampleVoters 4 world := by
  have ran : (World.run sampleVoters 4 World.start sampleFinalised).isSome = true := by
    decide +kernel
  obtain ⟨world, reached⟩ := Option.isSome_iff_exists.mp ran
  exact ⟨world, reached, block_votes_agree sampleVoters 4 sampleFinalised world (by decide) reached⟩

def sampleMined : ChainTx :=
  { txid := Onchain.computeTxid sampleServer.toMintConfig sampleUnsignedTx.tx
    output := sampleUnsignedTx.tx.output }

/-- The last five blocks are replaced, and two nodes vote on the first of the
new ones: one has processed the whole log, the other has not. -/
def sampleReorganised : List (Happening scalarCurve) :=
  sampleFinalised ++ [.process 0 17, .process 3 6, .mine 2 [[sampleMined], [], [], [], [], []],
    .observe 0 8, .observe 3 8, .proposeBlock 0 17 2 2, .proposeBlock 3 6 2 2]

/-- Honest votes differ already with reorganisations one block deeper. -/
theorem block_votes_differ :
    ∃ world vote vote', World.run sampleVoters (CONFIRMATIONS - 1) World.start
        sampleReorganised = some world ∧
      0 ∉ sampleVoters.byzantine ∧ 3 ∉ sampleVoters.byzantine ∧
      (0, .onchain (.block vote)) ∈ world.proposed ∧
      (3, .onchain (.block vote')) ∈ world.proposed ∧
      vote.height = vote'.height ∧ vote ≠ vote' := by
  let voted : BlockVote := { height := 2, txs := [{ txid := 15, outputs := [] }] }
  let empty : BlockVote := { height := 2, txs := [] }
  have ran : (World.run sampleVoters (CONFIRMATIONS - 1) World.start sampleReorganised).map
      (fun world => decide ((0, .onchain (.block voted)) ∈ world.proposed ∧
        (3, .onchain (.block empty)) ∈ world.proposed)) = some true := by
    decide +kernel
  obtain ⟨world, reached, both⟩ := Option.map_eq_some_iff.mp ran
  obtain ⟨first, second⟩ := of_decide_eq_true both
  exact ⟨world, voted, empty, reached, Finset.notMem_empty _, Finset.notMem_empty _, first, second,
    rfl, by decide⟩

end Picomint.Consensus
