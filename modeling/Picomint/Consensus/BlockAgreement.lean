/-
The honest votes on a block agree.

A vote mixes the block with the voter's pending transactions.  The first
backend that confirmed the block before has seen the chain four blocks past
the tracked height, so a transaction that is finalised at this height is
mined above it: whoever votes on the block it is mined in has processed the
item that finalised it.
-/

import Picomint.Consensus.BlockVotes

namespace Picomint.Consensus

open Tss

variable {curve : Curve} {setup : Setup curve} {log : List (NodeId × ConsensusItem curve)}

/-! ### The tables along the log -/

/-- The table at the next place is the same or one item further. -/
theorem Setup.ledgerAt_step {place : Nat} {after : Ledger curve}
    (reached : setup.ledgerAt 0 log (place + 1) = some after) :
    ∃ before, setup.ledgerAt 0 log place = some before ∧
      (Started setup.mint before → Started setup.mint after ∧ (after = before ∨
        ∃ entry, log[place]? = some entry ∧
          Tracked setup.mint before entry.1 entry.2 after)) := by
  unfold Setup.ledgerAt at reached ⊢
  cases here : log[place]? with
  | none =>
      have ended : log.length ≤ place := List.getElem?_eq_none_iff.mp here
      rw [List.take_of_length_le (ended.trans (Nat.le_succ place))] at reached
      rw [List.take_of_length_le ended]
      exact ⟨after, reached, fun started => ⟨started, Or.inl rfl⟩⟩
  | some entry =>
      rw [List.take_add_one, here, Option.toList_some, History.run_concat,
        Option.map_eq_some_iff] at reached
      obtain ⟨next, ran, same⟩ := reached
      obtain ⟨history, before, stepped⟩ := Option.bind_eq_some_iff.mp ran
      refine ⟨history.ledger, by rw [before, Option.map_some], ?_⟩
      intro started
      rw [← setup.sameMint 0] at started ⊢
      obtain ⟨next, tracked⟩ := History.step_tracked started stepped
      rw [← same]
      refine ⟨next, ?_⟩
      rcases tracked with unchanged | tracked
      · exact Or.inl (congrArg History.ledger unchanged)
      · exact Or.inr ⟨entry, rfl, tracked⟩

theorem Setup.ledgerAt_started {place : Nat} {ledger : Ledger curve}
    (reached : setup.ledgerAt 0 log place = some ledger) : Started setup.mint ledger := by
  induction place generalizing ledger with
  | zero =>
      cases reached
      exact Or.inl rfl
  | succ place inductionHypothesis =>
      obtain ⟨before, earlier, next⟩ := Setup.ledgerAt_step reached
      exact (next (inductionHypothesis earlier)).1

theorem Setup.ledgerAt_tracked {place : Nat} {after : Ledger curve}
    (reached : setup.ledgerAt 0 log (place + 1) = some after) :
    ∃ before, setup.ledgerAt 0 log place = some before ∧ (after = before ∨
      ∃ entry, log[place]? = some entry ∧ Tracked setup.mint before entry.1 entry.2 after) := by
  obtain ⟨before, earlier, next⟩ := Setup.ledgerAt_step reached
  exact ⟨before, earlier, (next (Setup.ledgerAt_started earlier)).2⟩

theorem Setup.ledgerAt_append {place : Nat} (node : NodeId) (below : place ≤ log.length)
    (more : List (NodeId × ConsensusItem curve)) :
    setup.ledgerAt node (log ++ more) place = setup.ledgerAt node log place := by
  unfold Setup.ledgerAt
  rw [List.take_append_of_le_length below]

/-- A node's tables are those of any other up to the signature shares. -/
theorem Setup.ledgerAt_same {node : NodeId} (other : NodeId) {place : Nat} {ledger : Ledger curve}
    (reached : setup.ledgerAt node log place = some ledger) :
    ∃ reference, setup.ledgerAt other log place = some reference ∧
      SameTables ledger reference := by
  unfold Setup.ledgerAt at reached ⊢
  obtain ⟨history, ran, rfl⟩ := Option.map_eq_some_iff.mp reached
  have start : SameHistory (History.start : History curve) History.start :=
    ⟨SameTables.refl _, rfl⟩
  obtain ⟨history', ran', same, _⟩ := History.run_same
    ((setup.sameMint node).trans (setup.sameMint other).symm) start ran
  exact ⟨history'.ledger, by rw [ran', Option.map_some], same⟩

theorem SameTables.blockHeight {left right : Ledger curve} (same : SameTables left right) :
    left.blockHeight = right.blockHeight := by
  obtain ⟨_, _, rfl⟩ := same.tables
  rfl

theorem SameTables.blockVote {left right : Ledger curve} (same : SameTables left right) :
    left.blockVote = right.blockVote := by
  obtain ⟨_, _, rfl⟩ := same.tables
  rfl

theorem SameTables.unconfirmedTx {left right : Ledger curve} (same : SameTables left right) :
    left.unconfirmedTx = right.unconfirmedTx := by
  obtain ⟨_, _, rfl⟩ := same.tables
  rfl

/-! ### The tracked height -/

theorem Tracked.height_mono {mint : MintConfig curve} {ledger after : Ledger curve}
    {node : NodeId} {item : ConsensusItem curve} (tracked : Tracked mint ledger node item after)
    {height : Nat} (at_height : ledger.blockHeight = some height) :
    ∃ next, after.blockHeight = some next ∧ height ≤ next := by
  cases tracked with
  | kept same => exact ⟨height, same.trans at_height, le_refl _⟩
  | begun absent =>
      rw [absent] at at_height
      cases at_height
  | voted vote _ _ _ _ result =>
      subst result
      exact ⟨height, at_height, le_refl _⟩
  | advanced vote _ voted _ _ next =>
      cases Option.some.inj (voted.symm.trans at_height)
      exact ⟨vote.height + 1, next, Nat.le_succ _⟩

theorem Setup.height_mono {place later : Nat} {ledger after : Ledger curve} (below : place ≤ later)
    (reached : setup.ledgerAt 0 log place = some ledger)
    (further : setup.ledgerAt 0 log later = some after) {height : Nat}
    (at_height : ledger.blockHeight = some height) :
    ∃ next, after.blockHeight = some next ∧ height ≤ next := by
  induction later, below using Nat.le_induction generalizing after with
  | base =>
      cases reached.symm.trans further
      exact ⟨height, at_height, le_refl _⟩
  | succ later _ inductionHypothesis =>
      obtain ⟨before, earlier, same | ⟨entry, _, tracked⟩⟩ := Setup.ledgerAt_tracked further
      · exact same ▸ inductionHypothesis earlier
      · obtain ⟨middle, at_middle, grown⟩ := inductionHypothesis earlier
        obtain ⟨next, at_next, more⟩ := tracked.height_mono at_middle
        exact ⟨next, at_next, grown.trans more⟩

theorem Setup.place_lt {place other : Nat} {ledger after : Ledger curve}
    (reached : setup.ledgerAt 0 log place = some ledger)
    (further : setup.ledgerAt 0 log other = some after) {height next : Nat}
    (at_height : ledger.blockHeight = some height) (at_next : after.blockHeight = some next)
    (smaller : height < next) : place < other := by
  by_contra later
  obtain ⟨reached', same, grown⟩ :=
    Setup.height_mono (Nat.le_of_not_lt later) further reached at_next
  rw [at_height] at same
  cases same
  exact absurd (lt_of_lt_of_le smaller grown) (lt_irrefl _)

/-! ### The waiting transactions -/

/-- A transaction that newly waits was finalised by the item, which does not
move the tracked height. -/
theorem Tracked.new_waiting {mint : MintConfig curve} {ledger after : Ledger curve}
    {node : NodeId} {item : ConsensusItem curve} (tracked : Tracked mint ledger node item after)
    {txid : Txid} (before : ledger.unconfirmedTx.contains txid = false)
    (waits : after.unconfirmedTx.contains txid = true) :
    after.blockHeight = ledger.blockHeight ∧ (Untouched ledger → Untouched after) := by
  cases tracked with
  | kept same _ _ untouched => exact ⟨same, untouched⟩
  | begun _ _ waiting =>
      rw [waiting, before] at waits
      cases waits
  | voted vote _ _ _ _ result =>
      subst result
      change ledger.unconfirmedTx.contains txid = true at waits
      rw [before] at waits
      cases waits
  | advanced vote _ _ _ _ _ _ waiting =>
      exfalso
      obtain ⟨mintTx, present⟩ := (SortedMap.contains_iff _ _).mp waits
      rw [waiting] at present
      split at present
      · cases present
      · have impossible := (SortedMap.contains_iff _ _).mpr ⟨mintTx, present⟩
        rw [before] at impossible
        cases impossible

/-- While the height does not move, transactions only begin to wait. -/
theorem Tracked.waiting_kept {mint : MintConfig curve} {ledger after : Ledger curve}
    {node : NodeId} {item : ConsensusItem curve} (tracked : Tracked mint ledger node item after)
    (same : after.blockHeight = ledger.blockHeight) {txid : Txid}
    (waits : ledger.unconfirmedTx.contains txid = true) :
    after.unconfirmedTx.contains txid = true := by
  cases tracked with
  | kept _ _ waiting => exact waiting txid waits
  | begun _ _ waiting => rwa [waiting]
  | voted vote _ _ _ _ result =>
      subst result
      exact waits
  | advanced vote _ voted _ _ next =>
      rw [next, voted] at same
      exact absurd (Option.some.inj same) (Nat.succ_ne_self _)

theorem Setup.finalises_iff {place : Nat} {txid : Txid} :
    setup.finalises log place txid = true ↔ ∃ before after,
      setup.ledgerAt 0 log place = some before ∧ setup.ledgerAt 0 log (place + 1) = some after ∧
      before.unconfirmedTx.contains txid = false ∧ after.unconfirmedTx.contains txid = true := by
  unfold Setup.finalises
  cases setup.ledgerAt 0 log place with
  | none => simp
  | some before =>
      cases setup.ledgerAt 0 log (place + 1) with
      | none => simp
      | some after => simp

/-- Between two places at one height no transaction stops waiting, and one
that begins to wait was finalised in between. -/
theorem Setup.waiting_between {place later height : Nat} {ledger after : Ledger curve}
    (below : place ≤ later) (reached : setup.ledgerAt 0 log place = some ledger)
    (further : setup.ledgerAt 0 log later = some after)
    (at_height : ledger.blockHeight = some height) (still : after.blockHeight = some height)
    (txid : Txid) :
    (ledger.unconfirmedTx.contains txid = true → after.unconfirmedTx.contains txid = true) ∧
      (after.unconfirmedTx.contains txid = true → ledger.unconfirmedTx.contains txid = true ∨
        ∃ between middle, setup.finalises log between txid = true ∧
          setup.ledgerAt 0 log between = some middle ∧ middle.blockHeight = some height) := by
  induction later, below using Nat.le_induction generalizing after with
  | base =>
      cases reached.symm.trans further
      exact ⟨id, Or.inl⟩
  | succ later below inductionHypothesis =>
      obtain ⟨before, earlier, same | ⟨entry, _, tracked⟩⟩ := Setup.ledgerAt_tracked further
      · subst same
        exact inductionHypothesis earlier still
      · obtain ⟨middle, at_middle, grown⟩ := Setup.height_mono below reached earlier at_height
        obtain ⟨next, at_next, more⟩ := tracked.height_mono at_middle
        cases Option.some.inj (at_next.symm.trans still)
        cases Nat.le_antisymm grown more
        obtain ⟨onwards, backwards⟩ := inductionHypothesis earlier at_middle
        refine ⟨fun waits => tracked.waiting_kept (still.trans at_middle.symm) (onwards waits), ?_⟩
        intro waits
        cases already : before.unconfirmedTx.contains txid with
        | true => exact backwards already
        | false =>
            exact Or.inr ⟨later, before,
              Setup.finalises_iff.mpr ⟨before, after, earlier, further, already, waits⟩, earlier,
              at_middle⟩

/-! ### The votes of a table -/

theorem votesFor_insert {votes : SortedMap NodeId BlockVote} {node : NodeId} {vote other : BlockVote}
    (fresh : votes.contains node = false) :
    votesFor (votes.insert node vote) other =
      votesFor votes other + if vote = other then 1 else 0 := by
  have absent : votes.get? node = none := by
    unfold SortedMap.contains at fresh
    exact Option.isNone_iff_eq_none.mp (by rw [← Option.not_isSome, fresh]; rfl)
  have rows := votes.rows_insert_perm node vote
  rw [votes.erase_of_get?_none absent] at rows
  have counted := ((rows.map Prod.snd).filter (fun value => decide (value = other))).length_eq
  unfold votesFor SortedMap.values
  rw [counted, List.map_cons, List.filter_cons]
  by_cases same : vote = other
  · rw [if_pos (by simpa using same), if_pos same, List.length_cons]
  · rw [if_neg (by simpa using same), if_neg same, Nat.add_zero]

theorem exists_voters (votes : SortedMap NodeId BlockVote) (vote : BlockVote) :
    ∃ voters : List NodeId, voters.Nodup ∧ voters.length = votesFor votes vote ∧
      ∀ node, node ∈ voters ↔ votes.get? node = some vote := by
  refine ⟨(votes.rows.filter (fun row => row.2 = vote)).map Prod.fst, ?_, ?_, ?_⟩
  · exact (List.filter_sublist.map Prod.fst).nodup votes.keys_nodup
  · unfold votesFor SortedMap.values
    rw [List.length_map, List.filter_map, List.length_map]
    rfl
  · intro node
    rw [List.mem_map, ← votes.mem_rows]
    constructor
    · rintro ⟨row, inRows, rfl⟩
      obtain ⟨inTable, isVote⟩ := List.mem_filter.mp inRows
      have voted : row.2 = vote := by simpa using isVote
      rwa [← voted]
    · intro inTable
      exact ⟨(node, vote), List.mem_filter.mpr ⟨inTable, by simp⟩, rfl⟩

theorem Setup.honest_voter {votes : SortedMap NodeId BlockVote} {vote : BlockVote}
    (full : Onchain.threshold setup.mint ≤ votesFor votes vote) :
    ∃ node ∉ setup.byzantine, votes.get? node = some vote := by
  obtain ⟨voters, distinct, count, voted⟩ := exists_voters votes vote
  by_contra none
  push Not at none
  have corrupted : ∀ node ∈ voters, node ∈ setup.byzantine := by
    intro node member
    by_contra honest
    exact none node honest ((voted node).mp member)
  have few : voters.length ≤ setup.byzantine.card := by
    rw [← List.toFinset_card_of_nodup distinct]
    apply Finset.card_le_card
    exact fun node member => corrupted node (List.mem_toFinset.mp member)
  have bound := setup.bound
  unfold Onchain.threshold NumNodes.threshold at full
  omega

/-- The votes in the table are for the tracked block and come from the log,
and none has a threshold. -/
theorem Setup.ledgerAt_votes {place : Nat} {ledger : Ledger curve}
    (reached : setup.ledgerAt 0 log place = some ledger) :
    (∀ node vote, ledger.blockVote.get? node = some vote →
      ledger.blockHeight = some vote.height ∧ (node, .onchain (.block vote)) ∈ log) ∧
      ∀ vote, votesFor ledger.blockVote vote < Onchain.threshold setup.mint := by
  induction place generalizing ledger with
  | zero =>
      cases reached
      refine ⟨?_, fun vote => Onchain.threshold_pos setup.mint⟩
      intro node vote found
      cases found
  | succ place inductionHypothesis =>
      obtain ⟨before, earlier, same | ⟨entry, here, tracked⟩⟩ := Setup.ledgerAt_tracked reached
      · exact same ▸ inductionHypothesis earlier
      · obtain ⟨rows, short⟩ := inductionHypothesis earlier
        cases tracked with
        | kept height votes =>
            rw [votes, height]
            exact ⟨rows, short⟩
        | begun absent votes =>
            rw [votes]
            refine ⟨?_, short⟩
            intro node vote found
            have tracked := (rows node vote found).1
            rw [absent] at tracked
            cases tracked
        | voted vote isVote height fresh below result =>
            subst result
            constructor
            · intro node other found
              change (before.blockVote.insert entry.1 vote).get? node = some other at found
              by_cases own : entry.1 = node
              · subst own
                rw [SortedMap.get?_insert_self] at found
                cases found
                have ordered := List.mem_of_getElem? here
                rw [← isVote]
                exact ⟨height, ordered⟩
              · rw [SortedMap.get?_insert_of_ne _ _ own] at found
                exact rows node other found
            · intro other
              change votesFor (before.blockVote.insert entry.1 vote) other < _
              by_cases same : vote = other
              · exact same ▸ below
              · rw [votesFor_insert fresh, if_neg same]
                exact short other
        | advanced vote _ _ _ _ _ cleared =>
            rw [cleared]
            refine ⟨?_, fun vote => Onchain.threshold_pos setup.mint⟩
            intro node vote found
            cases found

/-! ### The invariant of the runs -/

/-- The vote is what some tables at its height make of the block there, which
had its confirmations. -/
def Derived (setup : Setup curve) (world : World curve) (vote : BlockVote) : Prop :=
  ∃ place ledger block, place ≤ world.log.length ∧
    setup.ledgerAt 0 world.log place = some ledger ∧ ledger.blockHeight = some vote.height ∧
    vote.height + CONFIRMATIONS ≤ world.chain.length ∧
    world.chain[vote.height]? = some block ∧
    vote.txs = block.filterMap (Onchain.voteTx? setup.receiveHash ledger)

def World.Holds (world : World curve) (height : Nat) (txid : Txid) : Prop :=
  ∃ block, world.chain[height]? = some block ∧ ∃ tx ∈ block, tx.txid = txid

structure Sound (setup : Setup curve) (depth : Nat) (world : World curve) : Prop where
  placed : ∀ node, world.position node ≤ world.log.length
  genuine : ∀ node vote, node ∉ setup.byzantine → (node, .onchain (.block vote)) ∈ world.log →
    (node, .onchain (.block vote)) ∈ world.proposed
  shown : ∀ node, ∀ view ∈ world.views node, view.length ≤ world.chain.length
  settled : ∀ (node : NodeId) (earlier later : Nat) (first second : List Block), earlier ≤ later →
    (world.views node)[earlier]? = some first → (world.views node)[later]? = some second →
    ∀ height, height + depth < first.length → height < second.length →
      second[height]? = world.chain[height]?
  derived : ∀ node vote, (node, .onchain (.block vote)) ∈ world.proposed →
    Derived setup world vote
  confirmed : ∀ place ledger, setup.ledgerAt 0 world.log place = some ledger →
    Untouched ledger ∨ ∃ height, ledger.blockHeight = some height ∧
      height + CONFIRMATIONS ≤ world.chain.length + 1
  above : ∀ place ledger height txid, setup.finalises world.log place txid = true →
    setup.ledgerAt 0 world.log place = some ledger → ledger.blockHeight = some height →
    ∀ mined, world.Holds mined txid → height < mined

variable {depth : Nat} {world next : World curve}

theorem Sound.start : Sound setup depth (World.start : World curve) where
  placed := fun _ => le_refl _
  genuine := fun _ _ _ impossible => absurd impossible List.not_mem_nil
  shown := fun _ _ impossible => absurd impossible List.not_mem_nil
  settled := fun _ _ _ _ _ _ impossible => by cases impossible
  derived := fun _ _ impossible => absurd impossible List.not_mem_nil
  confirmed := by
    intro place ledger reached
    unfold Setup.ledgerAt World.start at reached
    rw [List.take_nil] at reached
    cases reached
    exact Or.inl Untouched.empty
  above := by
    rintro _ _ _ _ _ _ _ mined ⟨_, impossible, _⟩
    cases impossible

/-- A block below the last `depth` ones stays. -/
theorem take_append_getElem? {chain blocks : List Block} {keep height : Nat}
    (within : keep ≤ chain.length) (below : height < keep) :
    (chain.take keep ++ blocks)[height]? = chain[height]? := by
  rw [List.getElem?_append_left (by rw [List.length_take]; omega), List.getElem?_take,
    if_pos below]

theorem Sound.mine (shallow : depth + 2 ≤ CONFIRMATIONS) (sound : Sound setup depth world)
    {keep : Nat} {blocks : List Block} (within : keep ≤ world.chain.length)
    (deep : world.chain.length ≤ keep + depth)
    (grown : world.chain.length < keep + blocks.length) :
    Sound setup depth { world with chain := world.chain.take keep ++ blocks } := by
  have length : (world.chain.take keep ++ blocks).length = keep + blocks.length := by
    rw [List.length_append, List.length_take, Nat.min_eq_left within]
  constructor
  · exact sound.placed
  · exact sound.genuine
  · intro node view member
    have shorter := sound.shown node view member
    change view.length ≤ (world.chain.take keep ++ blocks).length
    omega
  · intro node earlier later first second order atFirst atSecond height far near
    have shorter := sound.shown node first (List.mem_of_getElem? atFirst)
    change second[height]? = (world.chain.take keep ++ blocks)[height]?
    rw [take_append_getElem? within (by omega)]
    exact sound.settled node earlier later first second order atFirst atSecond height far near
  · intro node vote member
    obtain ⟨place, ledger, block, below, reached, height, covered, found, txs⟩ :=
      sound.derived node vote member
    refine ⟨place, ledger, block, below, reached, height, ?_, ?_, txs⟩
    · change _ ≤ (world.chain.take keep ++ blocks).length
      omega
    · change (world.chain.take keep ++ blocks)[vote.height]? = some block
      rw [take_append_getElem? within (by omega)]
      exact found
  · intro place ledger reached
    rcases sound.confirmed place ledger reached with untouched | ⟨height, atHeight, covered⟩
    · exact Or.inl untouched
    · refine Or.inr ⟨height, atHeight, ?_⟩
      change _ ≤ (world.chain.take keep ++ blocks).length + 1
      omega
  · rintro place ledger height txid finalised reached atHeight mined ⟨block, found, inBlock⟩
    change (world.chain.take keep ++ blocks)[mined]? = some block at found
    -- the tables had tracked a block, so the kept blocks reach past the height
    obtain ⟨before, after, atPlace, further, absent, waits⟩ := Setup.finalises_iff.mp finalised
    cases reached.symm.trans atPlace
    have touched : ¬Untouched ledger := by
      intro untouched
      obtain ⟨before, earlier, same | ⟨entry, _, tracked⟩⟩ := Setup.ledgerAt_tracked further
      · cases earlier.symm.trans reached
        rw [same, absent] at waits
        cases waits
      · cases earlier.symm.trans reached
        have empty := ((tracked.new_waiting absent waits).2 untouched).unconfirmedTx
        rw [empty] at waits
        cases waits
    rcases sound.confirmed place ledger reached with untouched | ⟨same, atSame, covered⟩
    · exact absurd untouched touched
    · cases Option.some.inj (atSame.symm.trans atHeight)
      by_cases kept : mined < keep
      · rw [take_append_getElem? within kept] at found
        exact sound.above place ledger height txid finalised reached atHeight mined
          ⟨block, found, inBlock⟩
      · omega

theorem Sound.observe (sound : Sound setup depth world) (node : NodeId) (length : Nat) :
    Sound setup depth { world with
      views := Function.update world.views node
        (world.views node ++ [world.chain.take length]) } where
  placed := sound.placed
  genuine := sound.genuine
  derived := sound.derived
  confirmed := sound.confirmed
  above := sound.above
  shown := by
    intro other view member
    dsimp only at member
    by_cases same : other = node
    · subst same
      rw [Function.update_self] at member
      rcases List.mem_append.mp member with older | newest
      · exact sound.shown other view older
      · rw [List.mem_singleton.mp newest]
        exact List.length_take_le' _ _
    · rw [Function.update_of_ne same] at member
      exact sound.shown other view member
  settled := by
    intro other earlier later first second order atFirst atSecond height far near
    dsimp only at atFirst atSecond ⊢
    by_cases same : other = node
    · subst same
      rw [Function.update_self] at atFirst atSecond
      by_cases old : later < (world.views other).length
      · rw [List.getElem?_append_left old] at atSecond
        rw [List.getElem?_append_left (by omega)] at atFirst
        exact sound.settled other earlier later first second order atFirst atSecond height far near
      · rw [List.getElem?_append_right (by omega), List.getElem?_singleton] at atSecond
        split at atSecond
        · cases atSecond
          rw [List.length_take] at near
          exact List.getElem?_take_of_lt (by omega)
        · cases atSecond
    · rw [Function.update_of_ne same] at atFirst atSecond
      exact sound.settled other earlier later first second order atFirst atSecond height far near

theorem Sound.process (sound : Sound setup depth world) {node : NodeId} {place : Nat}
    (within : place ≤ world.log.length) :
    Sound setup depth { world with position := Function.update world.position node place } where
  genuine := sound.genuine
  shown := sound.shown
  settled := sound.settled
  derived := sound.derived
  confirmed := sound.confirmed
  above := sound.above
  placed := by
    intro other
    dsimp only
    by_cases same : other = node
    · subst same
      rw [Function.update_self]
      exact within
    · rw [Function.update_of_ne same]
      exact sound.placed other

/-- What is proposed next does not change the rest. -/
theorem Sound.propose (sound : Sound setup depth world) {node : NodeId}
    {item : ConsensusItem curve}
    (derived : ∀ vote, item = .onchain (.block vote) → Derived setup world vote) :
    Sound setup depth { world with proposed := world.proposed ++ [(node, item)] } where
  placed := sound.placed
  shown := sound.shown
  settled := sound.settled
  confirmed := sound.confirmed
  above := sound.above
  genuine := fun other vote honest member =>
    List.mem_append_left _ (sound.genuine other vote honest member)
  derived := by
    intro other vote member
    rcases List.mem_append.mp member with older | newest
    · exact sound.derived other vote older
    · exact derived vote (Prod.mk.inj (List.mem_singleton.mp newest)).2.symm

theorem Sound.proposal_derived (shallow : depth + 2 ≤ CONFIRMATIONS)
    (sound : Sound setup depth world) {node : NodeId} {place earlier later : Nat}
    {first second : List Block} {ledger : Ledger curve} {vote : BlockVote}
    (atFirst : (world.views node)[earlier]? = some first)
    (atSecond : (world.views node)[later]? = some second)
    (reached : setup.ledgerAt node world.log place = some ledger)
    (proposed : Onchain.blockProposal (setup.servers node) setup.receiveHash ledger
      (World.tip first) (fun height => second[height]?) = some vote)
    (processed : place ≤ world.position node) (order : earlier ≤ later) :
    Derived setup world vote := by
  obtain ⟨backendHeight, block, height, answered, covered, _, found, txs⟩ :=
    Onchain.blockProposal_some proposed
  obtain ⟨reference, reached', same⟩ := Setup.ledgerAt_same 0 reached
  have shorter := sound.shown node first (List.mem_of_getElem? atFirst)
  have length : first.length = backendHeight + 1 := by
    unfold World.tip at answered
    split at answered
    · cases answered
    · rename_i nonempty
      cases answered
      rw [List.isEmpty_iff] at nonempty
      have positive := List.length_pos_iff.mpr nonempty
      omega
  refine ⟨place, reference, block, processed.trans (sound.placed node), reached', ?_, ?_, ?_, ?_⟩
  · rw [← same.blockHeight]
    exact height
  · omega
  · rw [← sound.settled node earlier later first second order atFirst atSecond vote.height
      (by omega) (List.getElem?_eq_some_iff.mp found).1]
    exact found
  · rw [txs]
    apply List.filterMap_congr
    intro tx _
    exact Onchain.voteTx?_congr (by rw [same.unconfirmedTx])

/-- The first tables at a tracked height follow an honest vote below it. -/
theorem Sound.advanced_confirmed (sound : Sound setup depth world) {ledger : Ledger curve}
    {place : Nat} (reached : setup.ledgerAt 0 world.log place = some ledger)
    {node : NodeId} {vote : BlockVote} (genuine : node ∉ setup.byzantine →
      (node, .onchain (.block vote)) ∈ world.proposed)
    (full : Onchain.threshold setup.mint ≤ votesFor (ledger.blockVote.insert node vote) vote) :
    Derived setup world vote := by
  obtain ⟨voter, honest, voted⟩ := Setup.honest_voter full
  by_cases own : node = voter
  · subst own
    exact sound.derived node vote (genuine honest)
  · rw [SortedMap.get?_insert_of_ne _ _ own] at voted
    have ordered := ((Setup.ledgerAt_votes reached).1 voter vote voted).2
    exact sound.derived voter vote (sound.genuine voter vote honest ordered)

theorem Sound.order (sound : Sound setup depth world) {node : NodeId} {item : ConsensusItem curve}
    (genuine : World.Genuine setup world (node, item))
    (unmined : World.Unmined setup world (node, item)) :
    Sound setup depth { world with log := world.log ++ [(node, item)] } where
  shown := sound.shown
  settled := sound.settled
  placed := by
    intro other
    have before := sound.placed other
    dsimp only
    rw [List.length_append]
    omega
  genuine := by
    intro other vote honest member
    rcases List.mem_append.mp member with older | newest
    · exact sound.genuine other vote honest older
    · have same := List.mem_singleton.mp newest
      rw [same]
      apply genuine
      · rwa [← same]
      · rw [← same]
        rfl
  derived := by
    intro other vote member
    obtain ⟨place, ledger, block, below, reached, rest⟩ := sound.derived other vote member
    refine ⟨place, ledger, block, ?_, ?_, rest⟩
    · dsimp only
      rw [List.length_append]
      omega
    · dsimp only
      rw [Setup.ledgerAt_append 0 below]
      exact reached
  confirmed := by
    intro place ledger reached
    dsimp only at reached
    by_cases old : place ≤ world.log.length
    · rw [Setup.ledgerAt_append 0 old] at reached
      exact sound.confirmed place ledger reached
    · -- past the end, the tables are those after the new item
      have last : setup.ledgerAt 0 (world.log ++ [(node, item)]) (world.log.length + 1) =
          some ledger := by
        rw [← reached]
        unfold Setup.ledgerAt
        rw [List.take_of_length_le, List.take_of_length_le]
        · rw [List.length_append, List.length_singleton]
          omega
        · rw [List.length_append, List.length_singleton]
      obtain ⟨before, earlier, stepped⟩ := Setup.ledgerAt_tracked last
      have reached' := earlier
      rw [Setup.ledgerAt_append 0 (le_refl _)] at reached'
      have covered := sound.confirmed _ before reached'
      rcases stepped with same | ⟨entry, here, tracked⟩
      · exact same ▸ covered
      · rw [List.getElem?_concat_length] at here
        cases here
        cases tracked with
        | kept height _ _ untouched =>
            rw [height]
            exact covered.imp_left untouched
        | begun absent _ _ untouched =>
            rcases covered with before | ⟨height, tracked, _⟩
            · exact Or.inl (untouched before)
            · rw [absent] at tracked
              cases tracked
        | voted vote _ _ _ _ result =>
            subst result
            exact covered.imp_left (fun untouched => ⟨untouched.output, untouched.mintUtxo,
              untouched.unsignedTx, untouched.unconfirmedTx⟩)
        | advanced vote isVote _ _ full next =>
            dsimp only at isVote
            subst isVote
            obtain ⟨_, _, _, _, _, _, confirmations, _⟩ := sound.advanced_confirmed reached'
              (fun honest => genuine honest rfl) full
            refine Or.inr ⟨_, next, ?_⟩
            dsimp only
            omega
  above := by
    intro place ledger height txid finalised reached atHeight mined held
    dsimp only at finalised reached
    by_cases old : place < world.log.length
    · have earlier : setup.finalises world.log place txid = true := by
        unfold Setup.finalises at finalised ⊢
        rw [Setup.ledgerAt_append 0 old.le, Setup.ledgerAt_append 0 old] at finalised
        exact finalised
      rw [Setup.ledgerAt_append 0 old.le] at reached
      exact sound.above place ledger height txid earlier reached atHeight mined held
    · obtain ⟨block, found, tx, inBlock, same⟩ := held
      rcases Nat.eq_or_lt_of_not_lt old with here | past
      · have absent := unmined block (List.mem_of_getElem? found) tx inBlock
        rw [same, ← here] at absent
        rw [finalised] at absent
        cases absent
      · -- nothing happens past the end of the log
        obtain ⟨before, after, atPlace, further, waiting, waits⟩ :=
          Setup.finalises_iff.mp finalised
        have stays : setup.ledgerAt 0 (world.log ++ [(node, item)]) (place + 1) =
            setup.ledgerAt 0 (world.log ++ [(node, item)]) place := by
          unfold Setup.ledgerAt
          rw [List.take_of_length_le, List.take_of_length_le]
          · rw [List.length_append, List.length_singleton]
            omega
          · rw [List.length_append, List.length_singleton]
            omega
        rw [stays, atPlace] at further
        cases further
        rw [waiting] at waits
        cases waits

theorem Sound.step (shallow : depth + 2 ≤ CONFIRMATIONS) (sound : Sound setup depth world)
    {happening : Happening curve}
    (stepped : World.step setup depth world happening = some next) : Sound setup depth next := by
  cases happening with
  | mine keep blocks =>
      simp only [World.step] at stepped
      split at stepped
      · rename_i guard
        cases stepped
        exact sound.mine shallow guard.1 guard.2.1 guard.2.2.1
      · cases stepped
  | observe node length =>
      cases stepped
      exact sound.observe node length
  | process node place =>
      simp only [World.step] at stepped
      split at stepped
      · rename_i guard
        cases stepped
        exact sound.process guard.2.1
      · cases stepped
  | proposeBlock node place earlier later =>
      simp only [World.step, Option.bind_eq_bind, Option.bind_eq_some_iff] at stepped
      obtain ⟨first, atFirst, second, atSecond, ledger, reached, vote, proposed, stepped⟩ := stepped
      split at stepped
      · rename_i guard
        cases stepped
        apply sound.propose
        intro other same
        cases same
        exact sound.proposal_derived shallow atFirst atSecond reached proposed guard.1 guard.2
      · cases stepped
  | proposeHeight node place seen =>
      simp only [World.step, Option.bind_eq_bind, Option.bind_eq_some_iff] at stepped
      obtain ⟨_, _, _, _, _, _, stepped⟩ := stepped
      split at stepped
      · cases stepped
        apply sound.propose
        intro other same
        cases same
      · cases stepped
  | order node item =>
      simp only [World.step] at stepped
      split at stepped
      · rename_i guard
        cases stepped
        exact sound.order guard.2.1 guard.2.2
      · cases stepped

theorem Sound.run (shallow : depth + 2 ≤ CONFIRMATIONS) (sound : Sound setup depth world)
    {happenings : List (Happening curve)}
    (ran : World.run setup depth world happenings = some next) : Sound setup depth next := by
  induction happenings generalizing world with
  | nil =>
      cases ran
      exact sound
  | cons happening rest inductionHypothesis =>
      unfold World.run at ran
      rw [List.foldlM_cons, Option.bind_eq_bind, Option.bind_eq_some_iff] at ran
      obtain ⟨middle, stepped, following⟩ := ran
      exact inductionHypothesis (sound.step shallow stepped) following

/-! ### What the invariant says -/

theorem Sound.derived_unique (sound : Sound setup depth world) {left right : BlockVote}
    (first : Derived setup world left) (second : Derived setup world right)
    (same : left.height = right.height) : left = right := by
  obtain ⟨leftPlace, leftLedger, block, _, leftReached, leftHeight, _, found, leftTxs⟩ := first
  obtain ⟨rightPlace, rightLedger, block', _, rightReached, rightHeight, _, found', rightTxs⟩ :=
    second
  rw [← same] at rightHeight found'
  cases Option.some.inj (found.symm.trans found')
  -- a transaction that began to wait at this height is mined above it
  have waiting : ∀ {place later : Nat} {ledger after : Ledger curve}, place ≤ later →
      setup.ledgerAt 0 world.log place = some ledger →
      setup.ledgerAt 0 world.log later = some after →
      ledger.blockHeight = some left.height → after.blockHeight = some left.height →
      ∀ tx ∈ block, ledger.unconfirmedTx.contains tx.txid =
        after.unconfirmedTx.contains tx.txid := by
    intro place later ledger after below reached further atHeight still tx inBlock
    obtain ⟨onwards, backwards⟩ :=
      Setup.waiting_between below reached further atHeight still tx.txid
    apply Bool.eq_iff_iff.mpr
    refine ⟨onwards, fun waits => ?_⟩
    rcases backwards waits with already | ⟨between, middle, finalised, atPlace, atMiddle⟩
    · exact already
    · have late := sound.above between middle left.height tx.txid finalised atPlace atMiddle
        left.height ⟨block, found, tx, inBlock, rfl⟩
      exact absurd late (lt_irrefl _)
  have txs : left.txs = right.txs := by
    rw [leftTxs, rightTxs]
    apply List.filterMap_congr
    intro tx inBlock
    apply Onchain.voteTx?_congr
    rcases Nat.le_total leftPlace rightPlace with below | below
    · exact waiting below leftReached rightReached leftHeight rightHeight tx inBlock
    · exact (waiting below rightReached leftReached rightHeight leftHeight tx inBlock).symm
  cases left
  cases right
  cases same
  cases txs
  rfl

/-- Votes of honest nodes never stand in the table in the number of a
threshold. -/
theorem Sound.honest_votes_short (sound : Sound setup depth world) {place : Nat}
    {ledger : Ledger curve} (reached : setup.ledgerAt 0 world.log place = some ledger)
    {voters : List NodeId} (distinct : voters.Nodup)
    (voted : ∀ node ∈ voters, node ∉ setup.byzantine ∧
      ledger.blockVote.contains node = true) :
    voters.length < Onchain.threshold setup.mint := by
  obtain ⟨rows, short⟩ := Setup.ledgerAt_votes reached
  have derived : ∀ node ∈ voters, ∃ vote, ledger.blockVote.get? node = some vote ∧
      ledger.blockHeight = some vote.height ∧ Derived setup world vote := by
    intro node member
    obtain ⟨honest, present⟩ := voted node member
    obtain ⟨vote, found⟩ := (SortedMap.contains_iff _ _).mp present
    obtain ⟨height, ordered⟩ := rows node vote found
    exact ⟨vote, found, height, sound.derived node vote (sound.genuine node vote honest ordered)⟩
  cases voters with
  | nil => exact Onchain.threshold_pos setup.mint
  | cons first rest =>
      obtain ⟨vote, found, height, isDerived⟩ := derived first List.mem_cons_self
      obtain ⟨counted, _, count, members⟩ := exists_voters ledger.blockVote vote
      refine lt_of_le_of_lt ?_ (short vote)
      rw [← count]
      apply (List.subperm_of_subset distinct _).length_le
      intro node member
      obtain ⟨other, found', height', isDerived'⟩ := derived node member
      have sameHeight : other.height = vote.height :=
        Option.some.inj (height'.symm.trans height)
      rw [members, found', sound.derived_unique isDerived' isDerived sameHeight]

theorem Sound.waiting_above (sound : Sound setup depth world) {place height : Nat}
    {ledger : Ledger curve} (reached : setup.ledgerAt 0 world.log place = some ledger)
    (atHeight : ledger.blockHeight = some height) {txid : Txid}
    (waits : ledger.unconfirmedTx.contains txid = true) {mined : Nat}
    (held : world.Holds mined txid) : height ≤ mined := by
  induction place generalizing ledger height with
  | zero =>
      cases reached
      cases atHeight
  | succ place inductionHypothesis =>
      obtain ⟨before, earlier, same | ⟨entry, here, tracked⟩⟩ := Setup.ledgerAt_tracked reached
      · subst same
        exact inductionHypothesis earlier atHeight waits
      · cases already : before.unconfirmedTx.contains txid with
        | false =>
            have still := (tracked.new_waiting already waits).1
            have finalised : setup.finalises world.log place txid = true :=
              Setup.finalises_iff.mpr ⟨before, ledger, earlier, reached, already, waits⟩
            exact (sound.above place before height txid finalised earlier (still.symm.trans atHeight)
              mined held).le
        | true =>
            cases tracked with
            | kept same => exact inductionHypothesis earlier (same.symm.trans atHeight) already
            | begun absent =>
                rcases sound.confirmed place before earlier with untouched | ⟨_, tracked, _⟩
                · rw [untouched.unconfirmedTx] at already
                  cases already
                · rw [absent] at tracked
                  cases tracked
            | voted vote _ _ _ _ result =>
                subst result
                exact inductionHypothesis earlier atHeight already
            | advanced vote isVote voted fresh full next cleared waiting =>
                cases Option.some.inj (next.symm.trans atHeight)
                have low := inductionHypothesis earlier voted already
                by_contra short
                have here' : mined = vote.height := by omega
                obtain ⟨block, found, tx, inBlock, isTx⟩ := held
                -- the honest vote in the threshold was made with the transaction waiting
                have derived : Derived setup world vote := by
                  apply sound.advanced_confirmed earlier _ full
                  intro honest
                  apply sound.genuine _ _ honest
                  rw [← isVote]
                  exact List.mem_of_getElem? here
                obtain ⟨votePlace, voteLedger, block', _, atVote, voteHeight, _, found', txs⟩ :=
                  derived
                subst here'
                cases Option.some.inj (found.symm.trans found')
                have earlierVote : votePlace ≤ place := Nat.lt_succ_iff.mp
                  (Setup.place_lt atVote reached voteHeight next (Nat.lt_succ_self _))
                obtain ⟨_, backwards⟩ := Setup.waiting_between earlierVote atVote earlier
                  voteHeight voted txid
                have inVote : voteLedger.unconfirmedTx.contains txid = true := by
                  rcases backwards already with waited | ⟨between, middle, finalised, atPlace,
                    atMiddle⟩
                  · exact waited
                  · have late := sound.above between middle vote.height txid finalised atPlace
                      atMiddle vote.height ⟨block, found, tx, inBlock, isTx⟩
                    exact absurd late (lt_irrefl _)
                have named : txid ∈ blockTxids vote := by
                  rw [← isTx] at inVote
                  obtain ⟨blockTx, isVoted, sameTx⟩ := Onchain.voteTx?_waiting inVote
                  unfold blockTxids
                  rw [txs, List.mem_map]
                  exact ⟨blockTx, List.mem_filterMap.mpr ⟨tx, inBlock, isVoted⟩,
                    sameTx.trans isTx⟩
                obtain ⟨mintTx, present⟩ := (SortedMap.contains_iff _ _).mp waits
                rw [waiting, if_pos named] at present
                cases present

end Picomint.Consensus
