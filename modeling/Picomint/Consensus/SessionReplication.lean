/-
Sessions on all nodes of a mint, across crashes and adopted outcomes.

The items of a session follow from its agreed order and the sessions before it
alone.  Every node holds a beginning of them, wherever a crash leaves it, signs
the header of all of them or none, and an outcome under a threshold of
signatures has all of them.
-/

import Picomint.Consensus.Replication
import Picomint.Consensus.Session

namespace Picomint.Consensus

open Tss

variable {curve : Curve}

/-! ### Replay -/

def replay (server : Server curve) (items : List (AcceptedItem curve)) : Option (Ledger curve) :=
  items.foldlM (fun ledger item =>
    (processConsensusItem server ledger item.node item.item).toOption) Ledger.empty

def acceptsAfter (server : Server curve) (log : List (AcceptedItem curve))
    (item : AcceptedItem curve) : Bool :=
  match replay server log with
  | none => false
  | some ledger => (processConsensusItem server ledger item.node item.item).toBool

theorem toOption_eq_some {ε α : Type} {outcome : Except ε α} {value : α} :
    outcome.toOption = some value ↔ outcome = .ok value := by
  cases outcome with
  | error fault => simp [Except.toOption]
  | ok found => simp [Except.toOption]

section Replay

variable {server other : Server curve} {log : List (AcceptedItem curve)}
  {item : AcceptedItem curve} {ledger : Ledger curve}

theorem replay_concat :
    replay server (log ++ [item]) = (replay server log).bind fun ledger =>
      (processConsensusItem server ledger item.node item.item).toOption := by
  unfold replay
  rw [List.foldlM_append]
  congr 1
  funext ledger
  exact Option.bind_fun_some _

theorem replay_same (sameMint : server.toMintConfig = other.toMintConfig)
    (replayed : replay server log = some ledger) :
    ∃ reached, replay other log = some reached ∧ SameTables ledger reached := by
  induction log using List.reverseRecOn generalizing ledger with
  | nil =>
      cases replayed
      exact ⟨Ledger.empty, rfl, SameTables.refl _⟩
  | append_singleton log item ih =>
      rw [replay_concat, Option.bind_eq_some_iff] at replayed
      obtain ⟨before, first, accepted⟩ := replayed
      obtain ⟨reached, isReached, same⟩ := ih first
      have judged := processConsensusItem_same sameMint same item.node item.item
      rw [toOption_eq_some.mp accepted] at judged
      cases judgedOther : processConsensusItem other reached item.node item.item with
      | error fault =>
          rw [judgedOther] at judged
          cases judged
      | ok next =>
          rw [judgedOther] at judged
          cases judged with
          | ok sameNext =>
              refine ⟨next, ?_, sameNext⟩
              rw [replay_concat, isReached, Option.bind_some, judgedOther]
              rfl

theorem acceptsAfter_eq (sameMint : server.toMintConfig = other.toMintConfig)
    (replayed : replay server log = some ledger) :
    acceptsAfter other log item =
      (processConsensusItem server ledger item.node item.item).toBool := by
  obtain ⟨reached, isReached, same⟩ := replay_same sameMint replayed
  unfold acceptsAfter
  rw [isReached]
  have judged := processConsensusItem_same sameMint same item.node item.item
  change (processConsensusItem other reached item.node item.item).toBool = _
  cases here : processConsensusItem server ledger item.node item.item with
  | error fault =>
      rw [here] at judged
      generalize processConsensusItem other reached item.node item.item = outcome at judged
      cases judged
      rfl
  | ok next =>
      rw [here] at judged
      generalize processConsensusItem other reached item.node item.item = outcome at judged
      cases judged
      rfl

end Replay

/-! ### The rows of a session -/

/-- The session has exactly these rows, from position zero. -/
def HasRows (db : NodeDb curve) (session : Nat) (items : List (AcceptedItem curve)) : Prop :=
  ∀ index, db.acceptedItem.get? (toLex (session, index)) = items[index]?

theorem HasRows.acceptedItems {db : NodeDb curve} {session : Nat}
    {items : List (AcceptedItem curve)} (rows : HasRows db session items) :
    db.acceptedItems session = items := by
  let placed : List ((Nat ×ₗ Nat) × AcceptedItem curve) :=
    items.zipIdx.map fun entry => (toLex (session, entry.2), entry.1)
  have ascending : SortedRows.Ascending placed := by
    have positions : items.zipIdx.Pairwise fun left right => left.2 < right.2 := by
      rw [← List.pairwise_map, List.zipIdx_map_snd]
      exact List.pairwise_lt_range'
    refine List.pairwise_map.mpr (positions.imp ?_)
    intro left right before
    exact Prod.Lex.toLex_lt_toLex.mpr (Or.inr ⟨rfl, before⟩)
  have filtered : SortedRows.Ascending
      (db.acceptedItem.rows.filter fun row => (ofLex row.1).1 = session) :=
    List.Pairwise.filter _ db.acceptedItem.ascending
  have same : (db.acceptedItem.rows.filter fun row => (ofLex row.1).1 = session) = placed := by
    refine SortedRows.eq_of_lookup_eq filtered ascending fun key => ?_
    refine Option.ext fun item => ?_
    rw [← SortedRows.mem_iff_lookup filtered, ← SortedRows.mem_iff_lookup ascending,
      List.mem_filter, SortedMap.mem_rows, List.mem_map]
    obtain ⟨owner, index⟩ := key
    constructor
    · rintro ⟨found, isSession⟩
      have isOwner : owner = session := of_decide_eq_true isSession
      subst isOwner
      exact ⟨(item, index), List.mem_zipIdx_iff_getElem?.mpr ((rows index).symm.trans found), rfl⟩
    · rintro ⟨entry, member, isEntry⟩
      cases isEntry
      exact ⟨(rows entry.2).trans (List.mem_zipIdx_iff_getElem?.mp member), decide_eq_true rfl⟩
  unfold NodeDb.acceptedItems
  rw [same, List.map_map]
  exact List.zipIdx_map_fst 0 items

theorem HasRows.insert {db : NodeDb curve} {session : Nat} {items : List (AcceptedItem curve)}
    (rows : HasRows db session items) (item : AcceptedItem curve) (index : Nat)
    (isNext : index = items.length) {next : NodeDb curve}
    (table : next.acceptedItem = db.acceptedItem.insert (toLex (session, index)) item) :
    HasRows next session (items ++ [item]) := by
  intro other
  rw [table, SortedMap.get?_insert, List.getElem?_append]
  by_cases same : index = other
  · rw [if_pos (congrArg (fun place => toLex (session, place)) same), if_neg (by omega),
      show other - items.length = 0 by omega]
    rfl
  · rw [if_neg fun equal => same (Prod.ext_iff.mp (toLex.injective equal)).2, rows other]
    split
    · rfl
    · rename_i beyond
      rw [List.getElem?_eq_none (Nat.not_lt.mp beyond), List.getElem?_eq_none]
      rw [List.length_singleton]
      omega

theorem HasRows.insert_other {db : NodeDb curve} {session other : Nat}
    {items : List (AcceptedItem curve)} (rows : HasRows db other items)
    (different : session ≠ other) (item : AcceptedItem curve) (index : Nat) {next : NodeDb curve}
    (table : next.acceptedItem = db.acceptedItem.insert (toLex (session, index)) item) :
    HasRows next other items := by
  intro place
  rw [table, SortedMap.get?_insert_of_ne]
  · exact rows place
  · exact fun equal => different (Prod.ext_iff.mp (toLex.injective equal)).1

/-! ### The state of a session -/

theorem fold_eq (codec : SessionCodec curve) (session : Nat) (items : List (AcceptedItem curve)) :
    items.foldl (SessionState.fold codec) (SessionState.new codec session) =
      { index := items.length
        header := sessionHeader codec session items
        bytes := (items.map codec.itemLength).sum } := by
  induction items using List.reverseRecOn with
  | nil => rfl
  | append_singleton items item ih =>
      rw [List.foldl_append, ih]
      simp [SessionState.fold, sessionHeader]

/-! ### The nodes of a mint -/

/-- The nodes, the deliveries the BFT engine orders in each session, and which
of the nodes are Byzantine. -/
structure SessionSetup (curve : Curve) where
  nodes : NumNodes
  codec : SessionCodec curve
  server : NodeId → Server curve
  verify : Nat → Hash → Signature → NodeId → Bool
  order : Nat → CutStream.Stream (AcceptedItem curve)
  byzantine : Finset NodeId

namespace SessionSetup

variable (setup : SessionSetup curve)

def Honest (node : NodeId) : Prop := node < setup.nodes.total ∧ node ∉ setup.byzantine

def rule : CutStream.Rule (AcceptedItem curve) :=
  { accepts := acceptsAfter (setup.server 0)
    weight := setup.codec.itemLength
    target := SESSION_OUTCOME_BYTE_TARGET
    rounds := ROUNDS_PER_SESSION }

end SessionSetup

def IsOutcome (setup : SessionSetup curve) (session : Nat) (items : List (AcceptedItem curve)) :
    Prop :=
  ∃ base cut, setup.rule.Chain setup.order session base ∧
    setup.rule.CutAt (setup.order session) base cut ∧
    items = setup.rule.walk (setup.order session) base cut

theorem IsOutcome.unique {setup : SessionSetup curve} {session : Nat}
    {left right : List (AcceptedItem curve)} (isLeft : IsOutcome setup session left)
    (isRight : IsOutcome setup session right) : left = right := by
  obtain ⟨leftBase, leftCut, leftChain, leftIsCut, rfl⟩ := isLeft
  obtain ⟨rightBase, rightCut, rightChain, rightIsCut, rfl⟩ := isRight
  cases leftChain.unique rightChain
  rw [leftIsCut.unique rightIsCut]

/-- One mint with at most `f` Byzantine nodes, whose headers do not collide and
whose keychain knows its own nodes alone. -/
structure SessionSetup.Sound (setup : SessionSetup curve) : Prop where
  bound : setup.byzantine.card ≤ setup.nodes.maxEvil
  sameMint : ∀ node, (setup.server node).toMintConfig = (setup.server 0).toMintConfig
  collisionFree : ∀ session items other, IsOutcome setup session items →
    sessionHeader setup.codec session other = sessionHeader setup.codec session items →
    other = items
  known : ∀ session header signature node,
    setup.verify session header signature node = true → node < setup.nodes.total

/-- What a running node is doing. -/
inductive Phase where
  | down
  | ordering (resumeFrom : Nat) (state : SessionState) (index : Nat)
  | signing (header : Hash)
deriving DecidableEq, Repr

structure NodeState (curve : Curve) where
  db : NodeDb curve
  phase : Phase

/-- The honest nodes, and every header one of them has signed. -/
structure Sessions (curve : Curve) where
  node : NodeId → NodeState curve
  signed : List (NodeId × Nat × Hash)

namespace Sessions

def start : Sessions curve :=
  { node := fun _ =>
      { db := NodeDb.empty
        phase := .down }
    signed := [] }

def set (sessions : Sessions curve) (node : NodeId) (state : NodeState curve) : Sessions curve :=
  { sessions with node := Function.update sessions.node node state }

@[simp] theorem set_self (sessions : Sessions curve) (node : NodeId) (state : NodeState curve) :
    (sessions.set node state).node node = state := Function.update_self ..

theorem set_of_ne (sessions : Sessions curve) {node other : NodeId} (state : NodeState curve)
    (different : other ≠ node) : (sessions.set node state).node other = sessions.node other :=
  Function.update_of_ne different ..

def Unforged (setup : SessionSetup curve) (sessions : Sessions curve) (session : Nat)
    (header : Hash) (signatures : SortedMap NodeId Signature) : Prop :=
  ∀ node signature, signatures.get? node = some signature → setup.Honest node →
    setup.verify session header signature node = true → (node, session, header) ∈ sessions.signed

/-- A node happens to do something.  It may crash at any point, and adopt an
outcome from when it is started until it closes the session. -/
inductive Step (setup : SessionSetup curve) (sessions : Sessions curve) : Sessions curve → Prop
  | start {node : NodeId} (honest : setup.Honest node) {db : NodeDb curve}
      (down : sessions.node node = ⟨db, .down⟩) :
      Step setup sessions (sessions.set node
        ⟨db, .ordering (db.resumeIndex.getD 0)
          ((db.acceptedItems db.finishedSessionCount).foldl (SessionState.fold setup.codec)
            (SessionState.new setup.codec db.finishedSessionCount)) 0⟩)
  | crash {node : NodeId} (honest : setup.Honest node) :
      Step setup sessions (sessions.set node ⟨(sessions.node node).db, .down⟩)
  | order {node : NodeId} (honest : setup.Honest node) {db db' : NodeDb curve}
      {resumeFrom index index' : Nat} {state state' : SessionState}
      (ordering : sessions.node node = ⟨db, .ordering resumeFrom state index⟩)
      (ordered : orderItem setup.codec (setup.server node) db.finishedSessionCount resumeFrom db
        state index (setup.order db.finishedSessionCount index) = .ok (.next db' state' index')) :
      Step setup sessions (sessions.set node ⟨db', .ordering resumeFrom state' index'⟩)
  | cut {node : NodeId} (honest : setup.Honest node) {db : NodeDb curve}
      {resumeFrom index : Nat} {state : SessionState} {header : Hash}
      (ordering : sessions.node node = ⟨db, .ordering resumeFrom state index⟩)
      (ordered : orderItem setup.codec (setup.server node) db.finishedSessionCount resumeFrom db
        state index (setup.order db.finishedSessionCount index) = .ok (.cut header)) :
      Step setup sessions
        { sessions.set node ⟨db, .signing header⟩ with
          signed := (node, db.finishedSessionCount, header) :: sessions.signed }
  | close {node : NodeId} (honest : setup.Honest node) {db db' : NodeDb curve} {header : Hash}
      (signing : sessions.node node = ⟨db, .signing header⟩)
      {signatures : SortedMap NodeId Signature}
      (enough : setup.nodes.threshold ≤ signatures.size)
      (verified : ∀ other signature, signatures.get? other = some signature → other ≠ node →
        setup.verify db.finishedSessionCount header signature other = true)
      (finalized : finalizeSession (setup.server node) db db.finishedSessionCount
        (.signed signatures) = .ok db') :
      Step setup sessions (sessions.set node ⟨db', .down⟩)
  | adopt {node : NodeId} (honest : setup.Honest node) {db db' : NodeDb curve} {phase : Phase}
      (running : sessions.node node = ⟨db, phase⟩) (up : phase ≠ .down)
      {outcome : SessionOutcome curve}
      (valid : validateSessionOutcome setup.codec setup.verify setup.nodes.threshold
        db.finishedSessionCount outcome = true)
      (unforged : sessions.Unforged setup db.finishedSessionCount
        (sessionHeader setup.codec db.finishedSessionCount outcome.items) outcome.signatures)
      (finalized : finalizeSession (setup.server node) db db.finishedSessionCount
        (.adopted outcome) = .ok db') :
      Step setup sessions (sessions.set node ⟨db', .down⟩)

inductive Reachable (setup : SessionSetup curve) : Sessions curve → Prop
  | start : Reachable setup start
  | step {sessions next : Sessions curve} (reached : Reachable setup sessions)
      (step : Step setup sessions next) : Reachable setup next

end Sessions

/-! ### What a node holds -/

/-- The database holds the items of all closed sessions, and those that the
running one accepts up to the position it is resumed from. -/
structure Holds (setup : SessionSetup curve) (node : NodeId) (base : List (AcceptedItem curve))
    (db : NodeDb curve) : Prop where
  chain : setup.rule.Chain setup.order db.finishedSessionCount base
  closed : ∀ session < db.finishedSessionCount, ∃ items, IsOutcome setup session items ∧
    HasRows db session items
  rows : HasRows db db.finishedSessionCount
    (setup.rule.walk (setup.order db.finishedSessionCount) base (db.resumeIndex.getD 0))
  ahead : ∀ session, db.finishedSessionCount < session → HasRows db session []
  running : ∀ earlier < db.resumeIndex.getD 0,
    ¬setup.rule.Stops (setup.order db.finishedSessionCount) base earlier
  replayed : replay (setup.server node) (base ++
    setup.rule.walk (setup.order db.finishedSessionCount) base (db.resumeIndex.getD 0)) =
      some db.ledger

/-- What a node does fits what it holds.  While it passes over what it had
processed before a crash, nothing is accepted. -/
def Does (setup : SessionSetup curve) (base : List (AcceptedItem curve)) (db : NodeDb curve) :
    Phase → Prop
  | .down => True
  | .ordering resumeFrom state index =>
      state = (setup.rule.walk (setup.order db.finishedSessionCount) base
        (db.resumeIndex.getD 0)).foldl (SessionState.fold setup.codec)
          (SessionState.new setup.codec db.finishedSessionCount) ∧
      ((index ≤ resumeFrom ∧ resumeFrom = db.resumeIndex.getD 0) ∨
      (resumeFrom ≤ index ∧
        setup.rule.walk (setup.order db.finishedSessionCount) base index =
          setup.rule.walk (setup.order db.finishedSessionCount) base (db.resumeIndex.getD 0) ∧
        ∀ earlier < index,
          ¬setup.rule.Stops (setup.order db.finishedSessionCount) base earlier))
  | .signing header => ∃ cut,
      setup.rule.CutAt (setup.order db.finishedSessionCount) base cut ∧
      setup.rule.walk (setup.order db.finishedSessionCount) base cut =
        setup.rule.walk (setup.order db.finishedSessionCount) base (db.resumeIndex.getD 0) ∧
      header = sessionHeader setup.codec db.finishedSessionCount
        (setup.rule.walk (setup.order db.finishedSessionCount) base cut)

/-! ### Ordering keeps it -/

section Ordering

variable {setup : SessionSetup curve} {node : NodeId} {base : List (AcceptedItem curve)}
  {db db' : NodeDb curve}

theorem Holds.acceptedItems (holds : Holds setup node base db) :
    db.acceptedItems db.finishedSessionCount = setup.rule.walk
      (setup.order db.finishedSessionCount) base (db.resumeIndex.getD 0) :=
  holds.rows.acceptedItems

/-- What an iteration of the ordering loop did. -/
theorem orderItem_next {codec : SessionCodec curve} {server : Server curve}
    {session resumeFrom index index' : Nat} {state state' : SessionState}
    {delivery : Option (Delivery curve)}
    (ordered : orderItem codec server session resumeFrom db state index delivery =
      .ok (.next db' state' index')) :
    state.bytes < SESSION_OUTCOME_BYTE_TARGET ∧
    ((delivery = none ∧ db' = db ∧ state' = state ∧ index' = index) ∨
    ∃ round item, delivery = some (round, item) ∧ index' = index + 1 ∧
      ((index < resumeFrom ∧ db' = db ∧ state' = state) ∨
      (resumeFrom ≤ index ∧ round < ROUNDS_PER_SESSION ∧
        (((processConsensusItem server db.ledger item.node item.item).toBool = false ∧ db' = db ∧
          state' = state) ∨
        ∃ ledger, processConsensusItem server db.ledger item.node item.item = .ok ledger ∧
          db' =
            { db with
              ledger := ledger
              acceptedItem := db.acceptedItem.insert (toLex (session, state.index)) item
              resumeIndex := some (index + 1) } ∧
          state' = state.fold codec item)))) := by
  unfold orderItem at ordered
  split at ordered
  · cases ordered
  · rename_i below
    refine ⟨Nat.not_le.mp below, ?_⟩
    split at ordered
    · cases ordered
      exact Or.inl ⟨rfl, rfl, rfl, rfl⟩
    · rename_i round item
      refine Or.inr ⟨round, item, rfl, ?_⟩
      split at ordered
      · rename_i passed
        cases ordered
        exact ⟨rfl, Or.inl ⟨passed, rfl, rfl⟩⟩
      · rename_i reached
        split at ordered
        · cases ordered
        · rename_i early
          split at ordered
          · cases ordered
          · rename_i error processed
            cases ordered
            refine ⟨rfl, Or.inr ⟨Nat.not_lt.mp reached, Nat.not_le.mp early, Or.inl ⟨?_, rfl, rfl⟩⟩⟩
            rw [processed]
            rfl
          · rename_i ledger processed
            cases ordered
            exact ⟨rfl, Or.inr ⟨Nat.not_lt.mp reached, Nat.not_le.mp early,
              Or.inr ⟨ledger, processed, rfl, rfl⟩⟩⟩

theorem orderItem_cut {codec : SessionCodec curve} {server : Server curve}
    {session resumeFrom index : Nat} {state : SessionState} {header : Hash}
    {delivery : Option (Delivery curve)}
    (ordered : orderItem codec server session resumeFrom db state index delivery =
      .ok (.cut header)) :
    header = state.header ∧ (SESSION_OUTCOME_BYTE_TARGET ≤ state.bytes ∨
      ∃ round item, delivery = some (round, item) ∧ resumeFrom ≤ index ∧
        ROUNDS_PER_SESSION ≤ round) := by
  unfold orderItem at ordered
  split at ordered
  · rename_i reached
    cases ordered
    exact ⟨rfl, Or.inl reached⟩
  · split at ordered
    · cases ordered
    · rename_i round item
      split at ordered
      · cases ordered
      · rename_i passed
        split at ordered
        · rename_i late
          cases ordered
          exact ⟨rfl, Or.inr ⟨round, item, rfl, Nat.not_lt.mp passed, late⟩⟩
        · split at ordered <;> cases ordered

/-- The position a node walks from once it has passed over the old deliveries. -/
theorem Does.reached {resumeFrom index : Nat} {state : SessionState}
    (holds : Holds setup node base db)
    (does : Does setup base db (.ordering resumeFrom state index))
    (passed : resumeFrom ≤ index) :
    setup.rule.walk (setup.order db.finishedSessionCount) base index =
      setup.rule.walk (setup.order db.finishedSessionCount) base (db.resumeIndex.getD 0) ∧
    ∀ earlier < index, ¬setup.rule.Stops (setup.order db.finishedSessionCount) base earlier := by
  rcases does.2 with ⟨within, isResume⟩ | ⟨_, same, running⟩
  · have isIndex : index = db.resumeIndex.getD 0 := (within.antisymm passed).trans isResume
    rw [isIndex]
    exact ⟨rfl, holds.running⟩
  · exact ⟨same, running⟩

theorem Holds.order (sound : setup.Sound) (holds : Holds setup node base db)
    {resumeFrom index index' : Nat} {state state' : SessionState}
    (does : Does setup base db (.ordering resumeFrom state index))
    (ordered : orderItem setup.codec (setup.server node) db.finishedSessionCount resumeFrom db
      state index (setup.order db.finishedSessionCount index) = .ok (.next db' state' index')) :
    Holds setup node base db' ∧ Does setup base db' (.ordering resumeFrom state' index') := by
  obtain ⟨light, effect⟩ := orderItem_next ordered
  rcases effect with ⟨_, rfl, rfl, rfl⟩ | ⟨round, item, delivered, rfl, effect⟩
  · exact ⟨holds, does⟩
  rcases effect with ⟨passed, rfl, rfl⟩ | ⟨passed, early, effect⟩
  · refine ⟨holds, does.1, Or.inl ⟨passed, ?_⟩⟩
    rcases does.2 with ⟨_, isResume⟩ | ⟨reached, _⟩
    · exact isResume
    · omega
  obtain ⟨same, running⟩ := Does.reached holds does passed
  have bytes : state.bytes = setup.rule.weigh (setup.rule.walk
      (setup.order db.finishedSessionCount) base (db.resumeIndex.getD 0)) := by
    rw [does.1, fold_eq]
    rfl
  -- the delivery is before the cut
  have open' : ¬setup.rule.Stops (setup.order db.finishedSessionCount) base index := by
    rintro (heavy | ⟨other, _, delivered', late⟩)
    · rw [same, ← bytes] at heavy
      exact absurd light (Nat.not_lt.mpr heavy)
    · rw [delivered] at delivered'
      cases delivered'
      exact absurd early (Nat.not_lt.mpr late)
  have stillOpen : ∀ earlier < index + 1,
      ¬setup.rule.Stops (setup.order db.finishedSessionCount) base earlier := by
    intro earlier before
    rcases Nat.lt_succ_iff_lt_or_eq.mp before with less | rfl
    · exact running earlier less
    · exact open'
  have judged : setup.rule.accepts
      (base ++ setup.rule.walk (setup.order db.finishedSessionCount) base index) item =
        (processConsensusItem (setup.server node) db.ledger item.node item.item).toBool := by
    rw [same]
    exact acceptsAfter_eq (sound.sameMint node) holds.replayed
  rcases effect with ⟨rejected, rfl, rfl⟩ | ⟨ledger, processed, rfl, rfl⟩
  · have unchanged := CutStream.Rule.walk_succ_rejected delivered (judged.trans rejected)
    exact ⟨holds, does.1, Or.inr ⟨passed.trans (Nat.le_succ index), unchanged.trans same,
      stillOpen⟩⟩
  · rw [processed] at judged
    have grown := CutStream.Rule.walk_succ_accepted delivered judged
    have isNext : state.index = (setup.rule.walk (setup.order db.finishedSessionCount) base
        (db.resumeIndex.getD 0)).length := by
      rw [does.1, fold_eq]
    rw [same] at grown
    refine ⟨⟨holds.chain, ?_, ?_, ?_, stillOpen, ?_⟩, ?_, Or.inr ⟨?_, rfl, stillOpen⟩⟩
    · intro session before
      obtain ⟨items, isOutcome, rows⟩ := holds.closed session before
      exact ⟨items, isOutcome, rows.insert_other before.ne' item state.index rfl⟩
    · change HasRows _ db.finishedSessionCount
        (setup.rule.walk (setup.order db.finishedSessionCount) base (index + 1))
      rw [grown]
      exact holds.rows.insert item state.index isNext rfl
    · intro session behind
      exact (holds.ahead session behind).insert_other behind.ne item state.index rfl
    · change replay _ (base ++
        setup.rule.walk (setup.order db.finishedSessionCount) base (index + 1)) = some ledger
      rw [grown, ← List.append_assoc, replay_concat, holds.replayed, Option.bind_some, processed]
      rfl
    · change _ = (setup.rule.walk (setup.order db.finishedSessionCount) base
        (index + 1)).foldl _ _
      rw [grown, List.foldl_append]
      exact congrArg (fun state => SessionState.fold setup.codec state item) does.1
    · exact passed.trans (Nat.le_succ index)

theorem Does.cut (holds : Holds setup node base db) {resumeFrom index : Nat}
    {state : SessionState} {header : Hash}
    (does : Does setup base db (.ordering resumeFrom state index))
    (ordered : orderItem setup.codec (setup.server node) db.finishedSessionCount resumeFrom db
      state index (setup.order db.finishedSessionCount index) = .ok (.cut header)) :
    Does setup base db (.signing header) := by
  obtain ⟨rfl, why⟩ := orderItem_cut ordered
  have folded := fold_eq setup.codec db.finishedSessionCount (setup.rule.walk
    (setup.order db.finishedSessionCount) base (db.resumeIndex.getD 0))
  rw [← does.1] at folded
  rcases why with heavy | ⟨round, item, delivered, passed, late⟩
  · -- a node that was stopped at the target cuts before it passes over anything
    rw [folded] at heavy ⊢
    rcases does.2 with ⟨_, _⟩ | ⟨_, same, running⟩
    · exact ⟨db.resumeIndex.getD 0, ⟨Or.inl heavy, holds.running⟩, rfl, rfl⟩
    · refine ⟨index, ⟨Or.inl ?_, running⟩, same, ?_⟩
      · rw [same]
        exact heavy
      · rw [same]
  · obtain ⟨same, running⟩ := Does.reached holds does passed
    refine ⟨index, ⟨Or.inr ⟨round, item, delivered, late⟩, running⟩, same, ?_⟩
    rw [folded, same]

end Ordering

/-! ### Closing keeps it -/

section Closing

variable {setup : SessionSetup curve} {node : NodeId} {base : List (AcceptedItem curve)}
  {db db' : NodeDb curve}

theorem lastKey?_lt_finished {last : Nat} (found : db.sessionSignatures.lastKey? = some last) :
    db.finishedSessionCount = last + 1 := by
  unfold NodeDb.finishedSessionCount
  rw [found]

theorem below_finished : ∀ session ∈ db.sessionSignatures.keys,
    session < db.finishedSessionCount := by
  refine (db.sessionSignatures.above_iff_lastKey? _).mpr fun last found => ?_
  rw [lastKey?_lt_finished found]
  exact Nat.lt_succ_self last

theorem finished_unsigned : db.sessionSignatures.contains db.finishedSessionCount = false := by
  refine Bool.eq_false_iff.mpr fun signed => ?_
  have member := (db.sessionSignatures.mem_keys _).mpr ((SortedMap.contains_iff _ _).mp signed)
  exact Nat.lt_irrefl _ (below_finished _ member)

theorem finished_insert {signatures : SortedMap NodeId Signature}
    (table : db'.sessionSignatures =
      db.sessionSignatures.insert db.finishedSessionCount signatures) :
    db'.finishedSessionCount = db.finishedSessionCount + 1 := by
  have rows :=
    db.sessionSignatures.rows_insert_above db.finishedSessionCount signatures below_finished
  refine lastKey?_lt_finished ?_
  unfold SortedMap.lastKey? SortedMap.keys
  rw [table, rows, List.map_append]
  exact List.getLast?_concat

/-- A database that holds all items of the running session is closed. -/
theorem Holds.finish {cut : Nat} {signatures : SortedMap NodeId Signature}
    (chain : setup.rule.Chain setup.order db.finishedSessionCount base)
    (isCut : setup.rule.CutAt (setup.order db.finishedSessionCount) base cut)
    (closed : ∀ session < db.finishedSessionCount, ∃ items, IsOutcome setup session items ∧
      HasRows db session items)
    (rows : HasRows db db.finishedSessionCount
      (setup.rule.walk (setup.order db.finishedSessionCount) base cut))
    (ahead : ∀ session, db.finishedSessionCount < session → HasRows db session [])
    (replayed : replay (setup.server node)
      (base ++ setup.rule.walk (setup.order db.finishedSessionCount) base cut) = some db.ledger) :
    Holds setup node (base ++ setup.rule.walk (setup.order db.finishedSessionCount) base cut)
      { db with
        sessionSignatures := db.sessionSignatures.insert db.finishedSessionCount signatures
        resumeIndex := none } := by
  have count : NodeDb.finishedSessionCount
      { db with
        sessionSignatures := db.sessionSignatures.insert db.finishedSessionCount signatures
        resumeIndex := none } = db.finishedSessionCount + 1 := finished_insert rfl
  refine ⟨?_, ?_, ?_, ?_, ?_, ?_⟩
  · rw [count]
    exact chain.next isCut
  · rw [count]
    intro session before
    rcases Nat.lt_succ_iff_lt_or_eq.mp before with less | rfl
    · exact closed session less
    · exact ⟨_, ⟨base, cut, chain, isCut, rfl⟩, rows⟩
  · rw [count]
    exact ahead _ (Nat.lt_succ_self _)
  · rw [count]
    exact fun session behind => ahead session (Nat.lt_of_succ_lt behind)
  · intro earlier impossible
    exact absurd impossible (Nat.not_lt_zero earlier)
  · rw [count]
    change replay _ ((base ++ _) ++ []) = some db.ledger
    rw [List.append_nil]
    exact replayed

theorem processSuffix_ok (sound : setup.Sound) {session : Nat} {log : List (AcceptedItem curve)}
    (items : List (AcceptedItem curve)) {front : List (AcceptedItem curve)} {index : Nat}
    (isIndex : index = front.length) (rows : HasRows db session front)
    (replayed : replay (setup.server node) log = some db.ledger)
    (accepted : ∀ before item after, items = before ++ item :: after →
      setup.rule.accepts (log ++ before) item = true) :
    ∃ db', processSuffix (setup.server node) session db index items = .ok db' ∧
      HasRows db' session (front ++ items) ∧
      replay (setup.server node) (log ++ items) = some db'.ledger ∧
      db'.sessionSignatures = db.sessionSignatures ∧
      ∀ other kept, session ≠ other → HasRows db other kept → HasRows db' other kept := by
  induction items generalizing db log front index with
  | nil =>
      refine ⟨db, rfl, ?_, ?_, rfl, fun _ _ _ kept => kept⟩
      · rw [List.append_nil]
        exact rows
      · rw [List.append_nil]
        exact replayed
  | cons item rest ih =>
      have isAccepted : acceptsAfter (setup.server 0) (log ++ []) item = true :=
        accepted [] item rest rfl
      rw [List.append_nil, acceptsAfter_eq (sound.sameMint node) replayed] at isAccepted
      cases processed : processConsensusItem (setup.server node) db.ledger item.node item.item with
      | error fault =>
          rw [processed] at isAccepted
          cases isAccepted
      | ok ledger =>
          have isReplayed : replay (setup.server node) (log ++ [item]) = some ledger := by
            rw [replay_concat, replayed, Option.bind_some, processed]
            rfl
          have isRows : HasRows
              { db with
                ledger := ledger
                acceptedItem := db.acceptedItem.insert (toLex (session, index)) item } session
              (front ++ [item]) := rows.insert item index isIndex rfl
          have isNext : index + 1 = (front ++ [item]).length := by
            rw [isIndex, List.length_append, List.length_singleton]
          have isRest : ∀ before other after, rest = before ++ other :: after →
              setup.rule.accepts ((log ++ [item]) ++ before) other = true := by
            intro before other after split
            rw [List.append_assoc]
            exact accepted (item :: before) other after (congrArg (item :: ·) split)
          obtain ⟨db', done, rows', replayed', signatures, others⟩ :=
            ih isNext isRows isReplayed isRest
          refine ⟨db', ?_, ?_, ?_, signatures, ?_⟩
          · unfold processSuffix
            rw [processed]
            exact done
          · rw [List.append_assoc] at rows'
            exact rows'
          · rw [List.append_assoc] at replayed'
            exact replayed'
          · exact fun other kept different isKept =>
              others other kept different (isKept.insert_other different item index rfl)

theorem Holds.close (holds : Holds setup node base db) {header : Hash}
    (does : Does setup base db (.signing header)) (signatures : SortedMap NodeId Signature) :
    ∃ db', finalizeSession (setup.server node) db db.finishedSessionCount (.signed signatures) =
      .ok db' ∧ ∃ longer, Holds setup node longer db' := by
  obtain ⟨cut, isCut, same, _⟩ := does
  have rows := holds.rows
  have replayed := holds.replayed
  rw [← same] at rows replayed
  refine ⟨{ db with
      sessionSignatures := db.sessionSignatures.insert db.finishedSessionCount signatures
      resumeIndex := none }, ?_, _,
    Holds.finish holds.chain isCut holds.closed rows holds.ahead replayed⟩
  change (if db.sessionSignatures.contains db.finishedSessionCount then _ else _) = _
  rw [finished_unsigned]
  rfl

theorem Holds.adopt (sound : setup.Sound) (holds : Holds setup node base db)
    {outcome : SessionOutcome curve}
    (isOutcome : IsOutcome setup db.finishedSessionCount outcome.items) :
    ∃ db', finalizeSession (setup.server node) db db.finishedSessionCount (.adopted outcome) =
      .ok db' ∧ ∃ longer, Holds setup node longer db' := by
  obtain ⟨other, cut, chain, isCut, isItems⟩ := isOutcome
  cases chain.unique holds.chain
  obtain ⟨rest, split⟩ := CutStream.Rule.walk_prefix (isCut.ahead holds.running)
  have accepted := holds.acceptedItems
  have isRest : ∀ before item after, rest = before ++ item :: after →
      setup.rule.accepts ((base ++ setup.rule.walk (setup.order db.finishedSessionCount) base
        (db.resumeIndex.getD 0)) ++ before) item = true := by
    rintro before item after rfl
    rw [List.append_assoc]
    have whole : setup.rule.walk (setup.order db.finishedSessionCount) base cut =
        (setup.rule.walk (setup.order db.finishedSessionCount) base (db.resumeIndex.getD 0) ++
          before) ++ item :: after := by
      rw [← split, List.append_assoc]
    exact CutStream.Rule.walk_accepts whole
  obtain ⟨db', done, rows, replayed, signatures, others⟩ :=
    processSuffix_ok sound rest rfl holds.rows holds.replayed isRest
  rw [split] at rows
  rw [List.append_assoc, split] at replayed
  have count : db'.finishedSessionCount = db.finishedSessionCount := by
    unfold NodeDb.finishedSessionCount
    rw [signatures]
  have adopted : adoptItems (setup.server node) db.finishedSessionCount db (.adopted outcome) =
      .ok (db', outcome.signatures) := by
    unfold adoptItems
    simp only
    rw [accepted, isItems, ← split, List.take_left, List.drop_left, if_neg, if_neg, done]
    · rfl
    · exact fun different => different rfl
    · rw [List.length_append]
      omega
  have finished : Holds setup node
      (base ++ setup.rule.walk (setup.order db'.finishedSessionCount) base cut)
      { db' with
        sessionSignatures := db'.sessionSignatures.insert db'.finishedSessionCount
          outcome.signatures
        resumeIndex := none } := by
    refine Holds.finish ?_ ?_ ?_ ?_ ?_ ?_
    · rw [count]
      exact chain
    · rw [count]
      exact isCut
    · rw [count]
      intro session before
      obtain ⟨items, isOutcome, isRows⟩ := holds.closed session before
      exact ⟨items, isOutcome, others session items before.ne' isRows⟩
    · rw [count]
      exact rows
    · rw [count]
      exact fun session behind => others session [] behind.ne (holds.ahead session behind)
    · rw [count]
      exact replayed
  refine ⟨_, ?_, _, finished⟩
  unfold finalizeSession
  rw [adopted]
  change (if db'.sessionSignatures.contains db.finishedSessionCount then _ else _) = _
  rw [← count, finished_unsigned]
  rfl

end Closing

/-! ### Over a run -/

/-- Every honest node, and every header signed by one. -/
structure Replicated (setup : SessionSetup curve) (sessions : Sessions curve) : Prop where
  node : ∀ node, setup.Honest node → ∃ base, Holds setup node base (sessions.node node).db ∧
    Does setup base (sessions.node node).db (sessions.node node).phase
  signed : ∀ node session header, (node, session, header) ∈ sessions.signed →
    ∃ items, IsOutcome setup session items ∧ header = sessionHeader setup.codec session items

section Runs

variable {setup : SessionSetup curve} {sessions next : Sessions curve}

theorem Replicated.start (setup : SessionSetup curve) :
    Replicated setup (Sessions.start : Sessions curve) := by
  refine ⟨fun node _ => ⟨[], ?_, trivial⟩, ?_⟩
  · refine ⟨.start, ?_, ?_, ?_, ?_, rfl⟩
    · intro session impossible
      exact absurd impossible (Nat.not_lt_zero session)
    · exact fun index => rfl
    · exact fun session _ index => rfl
    · intro earlier impossible
      exact absurd impossible (Nat.not_lt_zero earlier)
  · intro node session header impossible
    cases impossible

theorem Replicated.outcome_of_signatures (sound : setup.Sound)
    (replicated : Replicated setup sessions) {session : Nat} {header : Hash}
    {signatures : SortedMap NodeId Signature} (enough : setup.nodes.threshold ≤ signatures.size)
    (verified : ∀ node signature, signatures.get? node = some signature →
      setup.verify session header signature node = true)
    (unforged : sessions.Unforged setup session header signatures) :
    ∃ items, IsOutcome setup session items ∧ header = sessionHeader setup.codec session items := by
  have honest : ∃ node ∈ signatures.keys, node ∉ setup.byzantine := by
    by_contra none
    have within : signatures.keys.toFinset ⊆ setup.byzantine := by
      intro node member
      by_contra honest
      exact none ⟨node, List.mem_toFinset.mp member, honest⟩
    have few := (Finset.card_le_card within).trans sound.bound
    rw [List.toFinset_card_of_nodup signatures.keys_nodup, signatures.keys_length] at few
    unfold NumNodes.threshold at enough
    omega
  obtain ⟨node, member, notByzantine⟩ := honest
  obtain ⟨signature, found⟩ := (signatures.mem_keys node).mp member
  have verifies := verified node signature found
  exact replicated.signed node session header (unforged node signature found
    ⟨sound.known session header signature node verifies, notByzantine⟩ verifies)

theorem validateSessionOutcome_eq_true {codec : SessionCodec curve}
    {verify : Nat → Hash → Signature → NodeId → Bool} {threshold session : Nat}
    {outcome : SessionOutcome curve} :
    validateSessionOutcome codec verify threshold session outcome = true ↔
      outcome.signatures.size = threshold ∧ ∀ node signature,
        outcome.signatures.get? node = some signature →
        verify session (sessionHeader codec session outcome.items) signature node = true := by
  unfold validateSessionOutcome
  by_cases size : outcome.signatures.size = threshold
  · rw [if_neg (not_not.mpr size), and_iff_right size, List.all_eq_true]
    constructor
    · exact fun all node signature found => all (node, signature)
        ((outcome.signatures.mem_rows node signature).mpr found)
    · rintro all ⟨node, signature⟩ member
      exact all node signature ((outcome.signatures.mem_rows node signature).mp member)
  · rw [if_pos size]
    simp [size]

theorem Replicated.outcome_of_valid (sound : setup.Sound) (replicated : Replicated setup sessions)
    {session : Nat} {outcome : SessionOutcome curve}
    (valid : validateSessionOutcome setup.codec setup.verify setup.nodes.threshold session outcome =
      true)
    (unforged : sessions.Unforged setup session
      (sessionHeader setup.codec session outcome.items) outcome.signatures) :
    IsOutcome setup session outcome.items := by
  obtain ⟨size, verified⟩ := validateSessionOutcome_eq_true.mp valid
  obtain ⟨items, isOutcome, same⟩ :=
    replicated.outcome_of_signatures sound size.ge verified unforged
  rw [sound.collisionFree session items outcome.items isOutcome same]
  exact isOutcome

theorem Replicated.set (replicated : Replicated setup sessions) {node : NodeId}
    {state : NodeState curve}
    (holds : ∃ base, Holds setup node base state.db ∧ Does setup base state.db state.phase) :
    Replicated setup (sessions.set node state) := by
  refine ⟨fun other honest => ?_, replicated.signed⟩
  by_cases same : other = node
  · subst same
    rw [Sessions.set_self]
    exact holds
  · rw [Sessions.set_of_ne sessions state same]
    exact replicated.node other honest

theorem Replicated.step (sound : setup.Sound) (replicated : Replicated setup sessions)
    (step : Sessions.Step setup sessions next) : Replicated setup next := by
  cases step with
  | @start node honest db down =>
      obtain ⟨base, holds, _⟩ := replicated.node node honest
      rw [down] at holds
      refine replicated.set ⟨base, holds, ?_, Or.inl ⟨Nat.zero_le _, rfl⟩⟩
      rw [holds.acceptedItems]
  | @crash node honest =>
      obtain ⟨base, holds, _⟩ := replicated.node node honest
      exact replicated.set ⟨base, holds, trivial⟩
  | @order node honest db db' resumeFrom index index' state state' ordering ordered =>
      obtain ⟨base, holds, does⟩ := replicated.node node honest
      rw [ordering] at holds does
      exact replicated.set ⟨base, holds.order sound does ordered⟩
  | @cut node honest db resumeFrom index state header ordering ordered =>
      obtain ⟨base, holds, does⟩ := replicated.node node honest
      rw [ordering] at holds does
      have signing : Does setup base db (.signing header) := Does.cut holds does ordered
      have stays : Replicated setup (sessions.set node ⟨db, .signing header⟩) :=
        replicated.set ⟨base, holds, signing⟩
      refine ⟨stays.node, ?_⟩
      intro other session signedHeader member
      rcases List.mem_cons.mp member with same | before
      · cases same
        obtain ⟨cut, isCut, _, isHeader⟩ := signing
        exact ⟨_, ⟨base, cut, holds.chain, isCut, rfl⟩, isHeader⟩
      · exact replicated.signed other session signedHeader before
  | @close node honest db db' header signing signatures enough verified finalized =>
      obtain ⟨base, holds, does⟩ := replicated.node node honest
      rw [signing] at holds does
      obtain ⟨_, done, longer, held⟩ := holds.close does signatures
      rw [finalized] at done
      cases done
      exact replicated.set ⟨longer, held, trivial⟩
  | @adopt node honest db db' phase running up outcome valid unforged finalized =>
      obtain ⟨base, holds, _⟩ := replicated.node node honest
      rw [running] at holds
      obtain ⟨_, done, longer, held⟩ :=
        holds.adopt sound (replicated.outcome_of_valid sound valid unforged)
      rw [finalized] at done
      cases done
      exact replicated.set ⟨longer, held, trivial⟩

theorem replicated_of_reachable (sound : setup.Sound)
    (reached : Sessions.Reachable setup sessions) :
    Replicated setup sessions := by
  induction reached with
  | start => exact Replicated.start setup
  | step _ step ih => exact ih.step sound step

/-- Two nodes that closed a session hold the same rows of it, from position
zero on. -/
theorem closed_sessions_agree (sound : setup.Sound) (reached : Sessions.Reachable setup sessions)
    {left right : NodeId} (isLeft : setup.Honest left) (isRight : setup.Honest right)
    {session : Nat} (leftClosed : session < (sessions.node left).db.finishedSessionCount)
    (rightClosed : session < (sessions.node right).db.finishedSessionCount) :
    ∃ items, IsOutcome setup session items ∧ HasRows (sessions.node left).db session items ∧
      HasRows (sessions.node right).db session items := by
  have replicated := replicated_of_reachable sound reached
  obtain ⟨_, leftHolds, _⟩ := replicated.node left isLeft
  obtain ⟨_, rightHolds, _⟩ := replicated.node right isRight
  obtain ⟨items, isOutcome, leftRows⟩ := leftHolds.closed session leftClosed
  obtain ⟨others, isOther, rightRows⟩ := rightHolds.closed session rightClosed
  cases isOutcome.unique isOther
  exact ⟨items, isOutcome, leftRows, rightRows⟩

/-- Two nodes that closed as many sessions and accepted as many items of the
running one hold the same tables, but for the signature shares they made. -/
theorem tables_agree (sound : setup.Sound) (reached : Sessions.Reachable setup sessions)
    {left right : NodeId} (isLeft : setup.Honest left) (isRight : setup.Honest right)
    {session : Nat} (leftCount : (sessions.node left).db.finishedSessionCount = session)
    (rightCount : (sessions.node right).db.finishedSessionCount = session)
    (sameLength : ((sessions.node left).db.acceptedItems session).length =
      ((sessions.node right).db.acceptedItems session).length) :
    (sessions.node left).db.acceptedItems session =
        (sessions.node right).db.acceptedItems session ∧
      SameTables (sessions.node left).db.ledger (sessions.node right).db.ledger := by
  have replicated := replicated_of_reachable sound reached
  obtain ⟨base, leftHolds, _⟩ := replicated.node left isLeft
  obtain ⟨other, rightHolds, _⟩ := replicated.node right isRight
  have leftItems := leftHolds.acceptedItems
  have rightItems := rightHolds.acceptedItems
  have leftChain := leftHolds.chain
  have leftReplayed := leftHolds.replayed
  have rightChain := rightHolds.chain
  have rightReplayed := rightHolds.replayed
  rw [leftCount] at leftItems leftChain leftReplayed
  rw [rightCount] at rightItems rightChain rightReplayed
  cases leftChain.unique rightChain
  -- one walk is a beginning of the other
  have same : setup.rule.walk (setup.order session) base
        ((sessions.node left).db.resumeIndex.getD 0) =
      setup.rule.walk (setup.order session) base
        ((sessions.node right).db.resumeIndex.getD 0) := by
    rw [leftItems, rightItems] at sameLength
    rcases Nat.le_total ((sessions.node left).db.resumeIndex.getD 0)
        ((sessions.node right).db.resumeIndex.getD 0) with before | after
    · exact (CutStream.Rule.walk_prefix before).eq_of_length sameLength
    · exact ((CutStream.Rule.walk_prefix after).eq_of_length sameLength.symm).symm
  refine ⟨leftItems.trans (same.trans rightItems.symm), ?_⟩
  rw [same] at leftReplayed
  obtain ⟨reachedLedger, isReached, sameTables⟩ :=
    replay_same ((sound.sameMint left).trans (sound.sameMint right).symm) leftReplayed
  rw [rightReplayed] at isReached
  cases isReached
  exact sameTables

theorem session_header_unique (sound : setup.Sound) (reached : Sessions.Reachable setup sessions)
    {session : Nat} {header other : Hash} {signatures others : SortedMap NodeId Signature}
    (enough : setup.nodes.threshold ≤ signatures.size)
    (verified : ∀ node signature, signatures.get? node = some signature →
      setup.verify session header signature node = true)
    (unforged : sessions.Unforged setup session header signatures)
    (othersEnough : setup.nodes.threshold ≤ others.size)
    (othersVerified : ∀ node signature, others.get? node = some signature →
      setup.verify session other signature node = true)
    (othersUnforged : sessions.Unforged setup session other others) : header = other := by
  have replicated := replicated_of_reachable sound reached
  obtain ⟨items, isOutcome, isHeader⟩ :=
    replicated.outcome_of_signatures sound enough verified unforged
  obtain ⟨otherItems, isOther, isOtherHeader⟩ :=
    replicated.outcome_of_signatures sound othersEnough othersVerified othersUnforged
  cases isOutcome.unique isOther
  exact isHeader.trans isOtherHeader.symm

/-- No assertion or expect of the close of a session fails: neither when the
node has signed it itself, nor when it adopts a validated outcome at any point
of the session. -/
theorem finalizeSession_succeeds (sound : setup.Sound)
    (reached : Sessions.Reachable setup sessions) {node : NodeId} (honest : setup.Honest node)
    {db : NodeDb curve} {phase : Phase} (running : sessions.node node = ⟨db, phase⟩) :
    (∀ header signatures, phase = .signing header → ∃ db', finalizeSession (setup.server node) db
      db.finishedSessionCount (.signed signatures) = .ok db') ∧
    ∀ outcome, validateSessionOutcome setup.codec setup.verify setup.nodes.threshold
        db.finishedSessionCount outcome = true →
      sessions.Unforged setup db.finishedSessionCount
        (sessionHeader setup.codec db.finishedSessionCount outcome.items) outcome.signatures →
      ∃ db', finalizeSession (setup.server node) db db.finishedSessionCount (.adopted outcome) =
        .ok db' := by
  have replicated := replicated_of_reachable sound reached
  obtain ⟨base, holds, does⟩ := replicated.node node honest
  rw [running] at holds does
  constructor
  · rintro header signatures rfl
    obtain ⟨db', done, _⟩ := holds.close does signatures
    exact ⟨db', done⟩
  · intro outcome valid unforged
    obtain ⟨db', done, _⟩ :=
      holds.adopt sound (replicated.outcome_of_valid sound valid unforged)
    exact ⟨db', done⟩

end Runs

/-! Four nodes, the third one Byzantine, and a session with one item that is cut
by its second delivery. -/

def sampleItem : AcceptedItem scalarCurve :=
  { node := 0
    item := .onchain (.feerate (some 5)) }

def sampleCodec : SessionCodec scalarCurve :=
  { indexHash := fun _ => 0
    foldHash := fun header item => if header = 0 ∧ item = sampleItem then 1 else 2
    itemLength := fun _ => 20 }

def sampleOrder : Nat → CutStream.Stream (AcceptedItem scalarCurve)
  | 0, 0 => some (0, sampleItem)
  | 0, 1 => some (1000, sampleItem)
  | _, _ => none

def sampleSessions : SessionSetup scalarCurve :=
  { nodes := ⟨1⟩
    codec := sampleCodec
    server := fun _ => sampleServer
    verify := fun _ _ _ node => node < 4
    order := sampleOrder
    byzantine := {2} }

theorem sampleSessions_walk : sampleSessions.rule.walk (sampleOrder 0) [] 1 = [sampleItem] :=
  CutStream.Rule.walk_succ_accepted (show sampleOrder 0 0 = some (0, sampleItem) from rfl) rfl

theorem sampleSessions_cutAt : sampleSessions.rule.CutAt (sampleOrder 0) [] 1 := by
  refine ⟨Or.inr ⟨1000, sampleItem, rfl, Nat.le_refl _⟩, ?_⟩
  intro earlier before
  obtain rfl : earlier = 0 := by omega
  rintro (heavy | ⟨round, item, delivered, late⟩)
  · exact absurd heavy (by decide)
  · cases delivered
    exact absurd late (by decide)

theorem sampleSessions_outcome {session : Nat} {items : List (AcceptedItem scalarCurve)}
    (isOutcome : IsOutcome sampleSessions session items) : items = [sampleItem] := by
  obtain ⟨base, cut, chain, isCut, rfl⟩ := isOutcome
  cases session with
  | zero =>
      cases chain
      rw [isCut.unique sampleSessions_cutAt]
      exact sampleSessions_walk
  | succ session =>
      have silent : ∀ position, sampleOrder (session + 1) position = none := fun _ => rfl
      have empty : ∀ position,
          sampleSessions.rule.walk (sampleOrder (session + 1)) base position = [] := by
        intro position
        induction position with
        | zero => rfl
        | succ position ih =>
            rw [CutStream.Rule.walk, silent]
            exact ih
      rcases isCut.stops with heavy | ⟨round, item, delivered, _⟩
      · change _ ≤ sampleSessions.rule.weigh
          (sampleSessions.rule.walk (sampleOrder (session + 1)) base cut) at heavy
        rw [empty] at heavy
        exact absurd heavy (by decide)
      · cases (silent cut).symm.trans delivered

theorem sampleSessions_sound : sampleSessions.Sound where
  bound := by decide
  sameMint := fun _ => rfl
  collisionFree := by
    intro session items other isOutcome same
    rw [sampleSessions_outcome isOutcome] at same ⊢
    induction other using List.reverseRecOn with
    | nil =>
        change (0 : Nat) = 1 at same
        cases same
    | append_singleton front last _ =>
        unfold sessionHeader at same
        rw [List.foldl_append] at same
        change (if _ ∧ last = sampleItem then 1 else 2) = 1 at same
        split at same
        · rename_i isFirst
          obtain ⟨begins, rfl⟩ := isFirst
          rcases List.eq_nil_or_concat front with rfl | ⟨before, item, rfl⟩
          · rfl
          · rw [List.concat_eq_append, List.foldl_append] at begins
            change (if _ then 1 else 2) = 0 at begins
            split at begins <;> cases begins
        · cases same
  known := by
    intro session header signature node verifies
    exact of_decide_eq_true verifies

def sampleSignatures : SortedMap NodeId Signature := SortedMap.ofList [(0, 0), (1, 0), (2, 0)]

def sampleOrdered : NodeDb scalarCurve :=
  { ledger := { Ledger.empty with feeRateVote := SortedMap.empty.insert 0 (some 5) }
    acceptedItem := SortedMap.empty.insert (toLex (0, 0)) sampleItem
    resumeIndex := some 1
    sessionSignatures := SortedMap.empty }

def sampleClosed : NodeDb scalarCurve :=
  { sampleOrdered with
    resumeIndex := none
    sessionSignatures := SortedMap.empty.insert 0 sampleSignatures }

/-- A node orders the item, signs the header and closes the session. -/
theorem sampleSessions_run {node : NodeId} (honest : sampleSessions.Honest node)
    {sessions : Sessions scalarCurve} (reached : Sessions.Reachable sampleSessions sessions)
    (fresh : sessions.node node = ⟨NodeDb.empty, .down⟩) :
    ∃ next, Sessions.Reachable sampleSessions next ∧ next.node node = ⟨sampleClosed, .down⟩ ∧
      (∀ other, other ≠ node → next.node other = sessions.node other) ∧
      (node, 0, 1) ∈ next.signed ∧ sessions.signed ⊆ next.signed := by
  let state : SessionState := ⟨0, 0, 0⟩
  let first := sessions.set node ⟨NodeDb.empty, .ordering 0 state 0⟩
  let second := first.set node ⟨sampleOrdered, .ordering 0 ⟨1, 1, 20⟩ 1⟩
  let third : Sessions scalarCurve :=
    { second.set node ⟨sampleOrdered, .signing 1⟩ with signed := (node, 0, 1) :: second.signed }
  let fourth := third.set node ⟨sampleClosed, .down⟩
  have started : Sessions.Reachable sampleSessions first :=
    reached.step (.start honest fresh)
  have accepted : Sessions.Reachable sampleSessions second :=
    started.step (.order honest (Sessions.set_self ..) rfl)
  have signed : Sessions.Reachable sampleSessions third :=
    accepted.step (.cut honest (Sessions.set_self ..) rfl)
  have finalized : finalizeSession (sampleSessions.server node) sampleOrdered
      sampleOrdered.finishedSessionCount (.signed sampleSignatures) = .ok sampleClosed := rfl
  have closed : Sessions.Reachable sampleSessions fourth := by
    refine signed.step (.close honest (Sessions.set_self ..) (by decide) ?_ finalized)
    intro other signature found _
    have member := (sampleSignatures.mem_keys other).mpr ⟨signature, found⟩
    exact (show ∀ other ∈ sampleSignatures.keys, decide (other < 4) = true by decide) other member
  refine ⟨fourth, closed, Sessions.set_self .., ?_, List.mem_cons_self, List.subset_cons_self _ _⟩
  intro other different
  exact (Sessions.set_of_ne third _ different).trans ((Sessions.set_of_ne second _ different).trans
    ((Sessions.set_of_ne first _ different).trans (Sessions.set_of_ne sessions _ different)))

theorem sampleSessions_zero : sampleSessions.Honest 0 := ⟨by decide, by decide⟩

theorem sampleSessions_one : sampleSessions.Honest 1 := ⟨by decide, by decide⟩

theorem sampleSessions_closed : ∃ sessions : Sessions scalarCurve,
    Sessions.Reachable sampleSessions sessions ∧ sessions.node 0 = ⟨sampleClosed, .down⟩ ∧
      sessions.node 1 = ⟨sampleClosed, .down⟩ ∧ sessions.node 3 = ⟨NodeDb.empty, .down⟩ ∧
      (0, 0, 1) ∈ sessions.signed ∧ (1, 0, 1) ∈ sessions.signed := by
  obtain ⟨first, reached, zero, others, signed, _⟩ :=
    sampleSessions_run sampleSessions_zero .start rfl
  obtain ⟨second, reached, one, others', signed', more⟩ :=
    sampleSessions_run sampleSessions_one reached (others 1 (by decide))
  refine ⟨second, reached, ?_, one, ?_, more signed, signed'⟩
  · rw [others' 0 (by decide), zero]
  · rw [others' 3 (by decide), others 3 (by decide)]
    rfl

theorem closed_sessions_agree_sample : ∃ sessions : Sessions scalarCurve,
    Sessions.Reachable sampleSessions sessions ∧ ∃ items, IsOutcome sampleSessions 0 items ∧
      HasRows (sessions.node 0).db 0 items ∧ HasRows (sessions.node 1).db 0 items := by
  obtain ⟨sessions, reached, zero, one, _⟩ := sampleSessions_closed
  refine ⟨sessions, reached, closed_sessions_agree sampleSessions_sound reached
    sampleSessions_zero sampleSessions_one ?_ ?_⟩
  · rw [zero]
    decide
  · rw [one]
    decide

theorem tables_agree_sample : ∃ sessions : Sessions scalarCurve,
    Sessions.Reachable sampleSessions sessions ∧
      (sessions.node 0).db.acceptedItems 1 = (sessions.node 1).db.acceptedItems 1 ∧
      SameTables (sessions.node 0).db.ledger (sessions.node 1).db.ledger := by
  obtain ⟨sessions, reached, zero, one, _⟩ := sampleSessions_closed
  refine ⟨sessions, reached, tables_agree sampleSessions_sound reached sampleSessions_zero
    sampleSessions_one ?_ ?_ ?_⟩
  · rw [zero]
    decide
  · rw [one]
    decide
  · rw [zero, one]

theorem sampleSignatures_verified {session : Nat} {header : Hash} (node : NodeId)
    (signature : Signature) (found : sampleSignatures.get? node = some signature) :
    sampleSessions.verify session header signature node = true := by
  have member := (sampleSignatures.mem_keys node).mpr ⟨signature, found⟩
  exact (show ∀ node ∈ sampleSignatures.keys, decide (node < 4) = true by decide) node member

theorem sampleSignatures_unforged {sessions : Sessions scalarCurve}
    (zero : (0, 0, 1) ∈ sessions.signed) (one : (1, 0, 1) ∈ sessions.signed) :
    sessions.Unforged sampleSessions 0 1 sampleSignatures := by
  intro node signature found honest _
  have member := (sampleSignatures.mem_keys node).mpr ⟨signature, found⟩
  have either : node = 0 ∨ node = 1 ∨ node = 2 :=
    (show ∀ node ∈ sampleSignatures.keys, node = 0 ∨ node = 1 ∨ node = 2 by decide) node member
  rcases either with rfl | rfl | rfl
  · exact zero
  · exact one
  · exact absurd honest.2 (by decide)

theorem session_header_unique_sample : ∃ sessions : Sessions scalarCurve,
    Sessions.Reachable sampleSessions sessions ∧
      (1 : Hash) = sessionHeader sampleCodec 0 [sampleItem] := by
  obtain ⟨sessions, reached, _, _, _, zero, one⟩ := sampleSessions_closed
  exact ⟨sessions, reached, session_header_unique sampleSessions_sound reached (by decide)
    sampleSignatures_verified (sampleSignatures_unforged zero one) (by decide)
    sampleSignatures_verified (sampleSignatures_unforged zero one)⟩

theorem finalizeSession_succeeds_sample : ∃ sessions : Sessions scalarCurve,
    Sessions.Reachable sampleSessions sessions ∧ ∃ db', finalizeSession sampleServer
      (NodeDb.empty : NodeDb scalarCurve) 0 (.adopted ⟨[sampleItem], sampleSignatures⟩) =
        .ok db' := by
  obtain ⟨sessions, reached, _, _, three, zero, one⟩ := sampleSessions_closed
  have succeeds := finalizeSession_succeeds sampleSessions_sound reached
    (show sampleSessions.Honest 3 from ⟨by decide, by decide⟩) three
  exact ⟨sessions, reached, succeeds.2 ⟨[sampleItem], sampleSignatures⟩ rfl
    (sampleSignatures_unforged zero one)⟩

end Picomint.Consensus
