/-
The engine with the `u32` rounds of the source.

A sum of rounds that does not fit stops the run, as every failed `expect`,
`assert` or lookup does: `none` stands for all of them.  While no unit of the
last two rounds is extended, every function does what it does on unbounded
rounds.
-/

import Picomint.Bft.Fixpoint

namespace Picomint.Bft

open Engine

variable {D : Type}

/-! ### The functions -/

namespace Strict

def roundMax : Nat := 2 ^ 32 - 1

/-- `+` on rounds. -/
def plus (round step : Nat) : Option Nat :=
  if round + step ≤ roundMax then some (round + step) else none

def saturatingSucc (round : Nat) : Nat := min (round + 1) roundMax

def parentsFed (extended : SortedMap UnitHash BftUnit) (unit : BftUnit) :
    List (NodeId × UnitHash) → Option Bool
  | [] => some true
  | entry :: rest =>
      match extended.get? entry.2 with
      | none => some false
      | some parent =>
          if parent.creator = entry.1 then
            match plus parent.round 1 with
            | none => none
            | some above =>
                if above = unit.round then parentsFed extended unit rest else some false
          else some false

def maybeExtend (tables : BftTables D) (engine : Engine D) (hash : UnitHash) :
    Option (Option Nat × Engine D) :=
  if engine.isExtended hash then some (none, engine)
  else match tables.unit.get? hash with
    | none => some (none, engine)
    | some unit =>
        match parentsFed engine.extended unit unit.parents.rows with
        | none => none
        | some true =>
            some (some unit.round, { engine with extended := engine.extended.insert hash unit })
        | some false => some (none, engine)

def sweep (tables : BftTables D) : List UnitHash → Engine D → Option (Bool × Engine D)
  | [], engine => some (false, engine)
  | candidate :: rest, engine =>
      match maybeExtend tables engine candidate with
      | none => none
      | some (first, engine) =>
          match sweep tables rest engine with
          | none => none
          | some (remaining, engine) => some (first.isSome || remaining, engine)

def sweepFrom (tables : BftTables D) : Nat → Nat → Engine D → Option (Engine D)
  | 0, _, engine => some engine
  | steps + 1, round, engine =>
      match sweep tables (roundUnits engine.rounds round) engine with
      | none => none
      | some (true, engine) => sweepFrom tables steps (saturatingSucc round) engine
      | some (false, engine) => some engine

def tryExtend (tables : BftTables D) (engine : Engine D) (hash : UnitHash) : Option (Engine D) :=
  match maybeExtend tables engine hash with
  | none => none
  | some (none, engine) => some engine
  | some (some round, engine) =>
      sweepFrom tables (stepBound engine.rounds) (saturatingSucc round) engine

def vote (mint : Mint D) (extended : SortedMap UnitHash BftUnit) (candidate : UnitHash) :
    Nat → UnitHash → Votes → Option (Bool × Votes)
  | 0, _, _ => none
  | depth + 1, unit, votes =>
      match extended.get? candidate, extended.get? unit with
      | some cand, some voter =>
          match plus cand.round 1 with
          | none => none
          | some direct =>
              if voter.round = direct then
                some (voter.parents.get? cand.creator == some candidate, votes)
              else match votes.get? (toLex (candidate, unit)) with
                | some bit => some (bit, votes)
                | none =>
                    match commonVote mint candidate cand.round voter.round with
                    | none => none
                    | some default =>
                        match collectVotes (vote mint extended candidate depth)
                            voter.parents.values votes with
                        | none => none
                        | some (parentVotes, votes) =>
                            some (aggregate default parentVotes,
                              votes.insert (toLex (candidate, unit))
                                (aggregate default parentVotes))
      | _, _ => none

def decideRow (mint : Mint D) (extended : SortedMap UnitHash BftUnit) (candidate : UnitHash)
    (v : Bool) (depth : Nat) : List UnitHash → Votes → Option (Bool × Votes)
  | [], votes => some (false, votes)
  | unit :: rest, votes =>
      match extended.get? unit with
      | none => none
      | some body =>
          match collectVotes (vote mint extended candidate depth) body.parents.values votes with
          | none => none
          | some (bits, votes) =>
              if mint.n.threshold ≤ bits.countP (· == v) then some (true, votes)
              else decideRow mint extended candidate v depth rest votes

/-- The range over the rounds takes the next round before it yields one. -/
def decideFrom (mint : Mint D) (rounds : Rounds) (extended : SortedMap UnitHash BftUnit)
    (candidate : UnitHash) (candidateRound : Nat) :
    Nat → Nat → Votes → Option (Option (Bool × Nat) × Votes)
  | 0, _, _ => none
  | steps + 1, round, votes =>
      match plus round 1 with
      | none => none
      | some following =>
          if (extendedAt rounds extended round).isEmpty then some (none, votes)
          else match commonVote mint candidate candidateRound round with
            | none => none
            | some v =>
                match decideRow mint extended candidate v round (extendedAt rounds extended round)
                    votes with
                | none => none
                | some (true, votes) => some (some (v, round), votes)
                | some (false, votes) =>
                    decideFrom mint rounds extended candidate candidateRound steps following votes

def decide (mint : Mint D) (engine : Engine D) (candidate : UnitHash) :
    Option (Option Bool × Engine D) :=
  match engine.decided.get? candidate with
  | some decision => some (some decision.1, engine)
  | none =>
      match engine.extended.get? candidate with
      | none => none
      | some body =>
          match plus body.round 2 with
          | none => none
          | some first =>
              match decideFrom mint engine.rounds engine.extended candidate body.round
                  (stepBound engine.rounds) first engine.votes with
              | none => none
              | some (none, votes) => some (none, { engine with votes := votes })
              | some (some decision, votes) =>
                  some (some decision.1,
                    { engine with
                      votes := votes
                      decided := engine.decided.insert candidate decision })

/-- A decided candidate is looked up in `decided` for the log line. -/
def walkCandidates (mint : Mint D) :
    List UnitHash → Engine D → Option (Option UnitHash × Engine D)
  | [], engine => some (none, engine)
  | candidate :: rest, engine =>
      match decide mint engine candidate with
      | none => none
      | some (none, engine) => some (none, engine)
      | some (some bit, engine) =>
          match engine.decided.get? candidate, engine.extended.get? candidate with
          | some _, some _ =>
              if bit then some (some candidate, engine) else walkCandidates mint rest engine
          | _, _ => none

def chooseHead (mint : Mint D) (engine : Engine D) (round : Nat) :
    Option (Option UnitHash × Engine D) :=
  match plus round 3 with
  | none => none
  | some above =>
      if (extendedAt engine.rounds engine.extended above).isEmpty then some (none, engine)
      else walkCandidates mint (extendedAt engine.rounds engine.extended round) engine

def drainHeads (setup : Setup D) (tables : BftTables D) : Nat → Engine D → Option (Engine D)
  | 0, _ => none
  | steps + 1, engine =>
      match chooseHead setup.toMint engine engine.nextDecideRound with
      | none => none
      | some (none, engine) => some engine
      | some (some head, engine) =>
          match engine.bfsBatch head with
          | none => none
          | some (batch, engine) =>
              match engine.emitBatch setup tables batch with
              | none => none
              | some engine =>
                  match plus engine.nextDecideRound 1 with
                  | none => none
                  | some following =>
                      drainHeads setup tables steps { engine with nextDecideRound := following }

def runExtender (setup : Setup D) (tables : BftTables D) (engine : Engine D) :
    Option (Engine D) :=
  drainHeads setup tables (stepBound engine.rounds) engine

/-- `try_extend`, then `run_extender`. -/
def advance (setup : Setup D) (tables : BftTables D) (engine : Engine D) (hash : UnitHash) :
    Option (Engine D) :=
  match tryExtend tables engine hash with
  | none => none
  | some engine => runExtender setup tables engine

def handleMessage (setup : Setup D) (now : Nat) (tables : BftTables D) (engine : Engine D)
    (sender : NodeId) : Message D → Option (Except String Unit × Engine D × BftTables D)
  | .unit ev =>
      match validateUnit setup.toMint ev with
      | .error error => some (.error error, engine, tables)
      | .ok _ =>
          let engine := cascadeParents now tables engine sender ev.unit
          let hash := setup.unitHash ev.unit
          if (roundUnits engine.rounds ev.unit.round).contains hash then
            some (.ok ⟨⟩, engine, tables)
          else match storeUnit setup tables engine ev hash with
            | .error error => some (.error error, engine, tables)
            | .ok (engine, stored) =>
                match advance setup stored engine hash with
                | none => none
                | some engine => some (.ok ⟨⟩, engine, stored)
  | .request hash =>
      match handleRequest tables engine sender hash with
      | none => none
      | some engine => some (.ok ⟨⟩, engine, tables)

def extendedRow (engine : Engine D) (round : Nat) : Option (SortedMap NodeId UnitHash) :=
  (extendedAt engine.rounds engine.extended round).foldlM
    (fun row hash =>
      match engine.extended.get? hash with
      | none => none
      | some unit =>
          some (if row.contains unit.creator then row else row.insert unit.creator hash))
    SortedMap.empty

def parentsFor (setup : Setup D) (engine : Engine D) (round : Nat) :
    Option (Option (SortedMap NodeId UnitHash)) :=
  match round with
  | 0 => some (some SortedMap.empty)
  | parentRound + 1 =>
      match extendedRow engine parentRound with
      | none => none
      | some row =>
          match row.get? setup.id with
          | none => some none
          | some own =>
              let others := row.rows.filter (fun entry => entry.1 ≠ setup.id)
              let parents := SortedMap.ofList (((setup.id, own) :: others).take setup.n.threshold)
              some (if parents.size = setup.n.threshold then some parents else none)

def nextRound (engine : Engine D) : Option Nat :=
  match engine.ownTop with
  | none => some 0
  | some (top, _) => plus top 1

def persistUnit (setup : Setup D) (data : List D) (tables : BftTables D) (engine : Engine D) :
    Option (Option (UnitEnvelope D) × Engine D × BftTables D) :=
  match nextRound engine with
  | none => none
  | some round =>
      match parentsFor setup engine round with
      | none => none
      | some none => some (none, engine, tables)
      | some (some parents) =>
          if data.isEmpty && !engine.hasUnorderedOwnData then some (none, engine, tables)
          else
            let unit : BftUnit :=
              { round := round
                creator := setup.id
                parents := parents
                data := setup.commitment data }
            let hash := setup.unitHash unit
            let ev : UnitEnvelope D := { unit, data, signature := setup.sign setup.session unit }
            match insertUnit setup tables engine ev hash with
            | .error _ => none
            | .ok (inserted, stored) =>
                let inserted :=
                  if unit.data.isSome then
                    { inserted with
                      unorderedOwnData := inserted.unorderedOwnData.insert unit.round ⟨⟩ }
                  else inserted
                match advance setup stored inserted hash with
                | none => none
                | some engine => some (some ev, engine, stored)

def extendRoots (tables : BftTables D) : List UnitHash → Engine D → Option (Engine D)
  | [], engine => some engine
  | root :: rest, engine =>
      match tryExtend tables engine root with
      | none => none
      | some engine => extendRoots tables rest engine

def replay (setup : Setup D) (tables : BftTables D) : Option (Engine D) :=
  let indexed := tables.unit.rows.foldl (indexRow setup) Engine.new
  match extendRoots tables (roundUnits indexed.rounds 0) indexed with
  | none => none
  | some engine => runExtender setup tables engine

def restart (setup : Setup D) (process : Process D) (sent : List (Recipient × Message D)) :
    Option (Process D) :=
  match replay setup process.durable with
  | none => none
  | some engine => some { process with engine, committed := process.durable, sent }

def step (setup : Setup D) (process : Process D) : Event D → Option (Process D)
  | .receive now sender message =>
      match handleMessage setup now process.committed process.engine sender message with
      | none => none
      | some (_, engine, tables) => some { process with engine, committed := tables }
  | .interrupt now sender ev count =>
      match validateUnit setup.toMint ev with
      | .error _ => restart setup process process.network
      | .ok _ =>
          restart setup process (process.sent ++
            (cascadeParents now process.committed process.engine sender ev.unit).network.take
              (process.engine.network.length + count))
  | .create data =>
      match persistUnit setup data process.committed process.engine with
      | none => none
      | some (none, engine, tables) => some { process with engine, committed := tables }
      | some (some ev, engine, tables) =>
          some { process with
            engine := engine.send .everyone (.unit ev)
            committed := tables
            durable := tables
            created := process.created ++ [ev] }
  | .interruptCreate data =>
      match persistUnit setup data process.committed process.engine with
      | none => none
      | some (none, _, _) => restart setup process process.network
      | some (some ev, _, tables) =>
          restart setup { process with
            committed := tables
            durable := tables
            created := process.created ++ [ev] } process.network
  | .antiEntropy =>
      match broadcastAntiEntropy process.committed process.engine with
      | none => none
      | some engine => some { process with engine }
  | .flush => some { process with durable := process.committed }
  | .crash => restart setup process process.network

end Strict

/-! ### Room for the sums -/

def Low (extended : SortedMap UnitHash BftUnit) : Prop :=
  ∀ hash unit, extended.get? hash = some unit → unit.round + 2 ≤ Strict.roundMax

/-- No unit the stored ones can extend stands in the last two rounds. -/
def Headroom (tables : BftTables D) : Prop :=
  ∀ hash unit, Extendable tables hash → tables.unit.get? hash = some unit →
    unit.round + 2 ≤ Strict.roundMax

theorem Headroom.low {tables : BftTables D} (room : Headroom tables) {rounds : Rounds}
    {extended : SortedMap UnitHash BftUnit} (grounded : Grounded tables rounds extended) :
    Low extended :=
  fun hash unit found => room hash unit (grounded.extendable found) (grounded.stored hash unit found)

theorem plus_eq {round step : Nat} (fits : round + step ≤ Strict.roundMax) :
    Strict.plus round step = some (round + step) :=
  if_pos fits

/-! ### Extension -/

theorem Strict.parentsFed_eq {extended : SortedMap UnitHash BftUnit} (low : Low extended)
    (unit : BftUnit) :
    Strict.parentsFed extended unit unit.parents.rows = some (Engine.parentsFed extended unit) := by
  have rows : ∀ entries : List (NodeId × UnitHash),
      Strict.parentsFed extended unit entries = some (entries.all fun entry =>
        match extended.get? entry.2 with
        | none => false
        | some parent => parent.creator == entry.1 && parent.round + 1 == unit.round) := by
    intro entries
    induction entries with
    | nil => rfl
    | cons entry rest ih =>
        unfold Strict.parentsFed
        rw [List.all_cons]
        cases found : extended.get? entry.2 with
        | none => rfl
        | some parent =>
            have fits := low entry.2 parent found
            simp only
            rw [plus_eq (by omega)]
            by_cases creator : parent.creator = entry.1
            · by_cases round : parent.round + 1 = unit.round
              · simp only [if_pos creator, if_pos round, ih, beq_iff_eq.mpr creator,
                  beq_iff_eq.mpr round, Bool.true_and]
              · simp only [if_pos creator, if_neg round, beq_eq_false_iff_ne.mpr round,
                  Bool.and_false, Bool.false_and]
            · simp only [if_neg creator, beq_eq_false_iff_ne.mpr creator, Bool.false_and]
  exact rows unit.parents.rows

theorem Strict.maybeExtend_eq (tables : BftTables D) {engine : Engine D}
    (low : Low engine.extended) (hash : UnitHash) :
    Strict.maybeExtend tables engine hash = some (Engine.maybeExtend tables engine hash) := by
  unfold Strict.maybeExtend Engine.maybeExtend
  split
  · rfl
  · cases tables.unit.get? hash with
    | none => rfl
    | some unit =>
        simp only [Strict.parentsFed_eq low]
        cases Engine.parentsFed engine.extended unit <;> rfl

theorem Strict.sweep_eq {tables : BftTables D} (room : Headroom tables) (candidates : List UnitHash)
    (engine : Engine D) (grounded : Grounded tables engine.rounds engine.extended) :
    Strict.sweep tables candidates engine = some (Engine.sweep tables candidates engine) := by
  induction candidates generalizing engine with
  | nil => rfl
  | cons candidate rest ih =>
      unfold Strict.sweep Engine.sweep
      rw [Strict.maybeExtend_eq tables (room.low grounded)]
      rcases maybeExtend_spec tables engine candidate with ⟨unit, inTable, fed, extendEq⟩ | ⟨extendEq, _⟩
      · obtain ⟨grounded', _, _⟩ := grounded.insert inTable fed
        simp only [extendEq]
        rw [ih { engine with extended := engine.extended.insert candidate unit } grounded']
      · simp only [extendEq]
        rw [ih engine grounded]

theorem sweep_progress (tables : BftTables D) {round : Nat} (candidates : List UnitHash)
    (atRound : ∀ hash ∈ candidates, ∀ unit, tables.unit.get? hash = some unit → unit.round = round)
    (engine : Engine D) (grounded : Grounded tables engine.rounds engine.extended)
    (progress : (Engine.sweep tables candidates engine).1 = true) :
    ∃ hash unit, (Engine.sweep tables candidates engine).2.extended.get? hash = some unit ∧
      unit.round = round := by
  induction candidates generalizing engine with
  | nil => cases progress
  | cons candidate rest ih =>
      have restAt := fun hash member => atRound hash (List.mem_cons_of_mem candidate member)
      unfold Engine.sweep at progress ⊢
      rcases maybeExtend_spec tables engine candidate with ⟨unit, inTable, fed, extendEq⟩ | ⟨extendEq, _⟩
      · obtain ⟨grounded', _, _⟩ := grounded.insert inTable fed
        obtain ⟨more, extended, sweepEq, _, keeps, _⟩ := sweep_spec tables rest restAt
          { engine with extended := engine.extended.insert candidate unit } grounded'
        refine ⟨candidate, unit, ?_, atRound candidate List.mem_cons_self unit inTable⟩
        simp only [extendEq, sweepEq]
        exact keeps candidate unit (SortedMap.get?_insert_self _ _ _)
      · simp only [extendEq, Option.isSome_none, Bool.false_or] at progress ⊢
        exact ih restAt engine grounded progress

theorem Strict.sweepFrom_eq {tables : BftTables D} (room : Headroom tables) (steps round : Nat)
    (engine : Engine D) (grounded : Grounded tables engine.rounds engine.extended) :
    Strict.sweepFrom tables steps round engine = some (Engine.sweepFrom tables steps round engine) := by
  induction steps generalizing round engine with
  | zero => rfl
  | succ steps ih =>
      obtain ⟨progress, extended, sweepEq, grounded', _⟩ :=
        sweep_spec tables _ (grounded.listed round) engine grounded
      unfold Strict.sweepFrom Engine.sweepFrom
      rw [Strict.sweep_eq room _ engine grounded, sweepEq]
      cases progress with
      | false => rfl
      | true =>
          obtain ⟨hash, unit, found, atRound⟩ := sweep_progress tables _ (grounded.listed round)
            engine grounded (by rw [sweepEq])
          rw [sweepEq] at found
          have fits := room.low grounded' hash unit found
          have next : saturatingSucc round = round + 1 := min_eq_left (by omega)
          simp only [if_true, next]
          exact ih (round + 1) { engine with extended := extended } grounded'

theorem Strict.tryExtend_eq {tables : BftTables D} (room : Headroom tables) (engine : Engine D)
    (grounded : Grounded tables engine.rounds engine.extended) (hash : UnitHash) :
    Strict.tryExtend tables engine hash = some (Engine.tryExtend tables engine hash) := by
  unfold Strict.tryExtend Engine.tryExtend
  rw [Strict.maybeExtend_eq tables (room.low grounded)]
  rcases maybeExtend_spec tables engine hash with ⟨unit, inTable, fed, extendEq⟩ | ⟨extendEq, _⟩
  · obtain ⟨grounded', _, _⟩ := grounded.insert inTable fed
    have fits := room.low grounded' hash unit (SortedMap.get?_insert_self _ _ _)
    have next : saturatingSucc unit.round = unit.round + 1 := min_eq_left (by omega)
    simp only [extendEq, next]
    exact Strict.sweepFrom_eq room _ _
      { engine with extended := engine.extended.insert hash unit } grounded'
  · simp only [extendEq]

/-! ### Votes and decisions -/

section Deciding

variable {mint : Mint D} {extended : SortedMap UnitHash BftUnit}

theorem Strict.vote_eq (low : Low extended) (candidate : UnitHash) (depth : Nat) :
    Strict.vote mint extended candidate depth = Bft.vote mint extended candidate depth := by
  induction depth with
  | zero => rfl
  | succ depth ih =>
      funext unit votes
      unfold Strict.vote Bft.vote
      rw [ih]
      cases candidateAt : extended.get? candidate with
      | none => rfl
      | some cand =>
          have fits := low candidate cand candidateAt
          cases extended.get? unit with
          | none => rfl
          | some voter =>
              dsimp only
              rewrite [plus_eq (show cand.round + 1 ≤ roundMax by omega)]
              rfl

theorem Strict.decideRow_eq (low : Low extended) (candidate : UnitHash) (v : Bool) (depth : Nat)
    (units : List UnitHash) (votes : Votes) :
    Strict.decideRow mint extended candidate v depth units votes =
      Bft.decideRow mint extended candidate v depth units votes := by
  induction units generalizing votes with
  | nil => rfl
  | cons unit rest ih =>
      unfold Strict.decideRow Bft.decideRow
      have following : Strict.decideRow mint extended candidate v depth rest =
          Bft.decideRow mint extended candidate v depth rest := funext ih
      rewrite [Strict.vote_eq low, following]
      rfl

theorem Strict.decideFrom_eq (low : Low extended) {rounds : Rounds}
    (indexed : Indexed rounds extended) (candidate : UnitHash) (candidateRound : Nat)
    (steps round : Nat) (fits : round + 1 ≤ roundMax) (votes : Votes) :
    Strict.decideFrom mint rounds extended candidate candidateRound steps round votes =
      Bft.decideFrom mint rounds extended candidate candidateRound steps round votes := by
  induction steps generalizing round votes with
  | zero => rfl
  | succ steps ih =>
      unfold Strict.decideFrom Bft.decideFrom
      rw [plus_eq fits]
      simp only [Strict.decideRow_eq low]
      split
      · rfl
      · rename_i covered
        obtain ⟨hash, listed⟩ := List.exists_mem_of_ne_nil _ (mt List.isEmpty_iff.mpr covered)
        obtain ⟨unit, found, atRound⟩ := (indexed round hash).mp listed
        have above := low hash unit found
        have following : Strict.decideFrom mint rounds extended candidate candidateRound steps
            (round + 1) = Bft.decideFrom mint rounds extended candidate candidateRound steps
              (round + 1) := funext (ih (round + 1) (by omega))
        rewrite [following]
        rfl

theorem Strict.decide_eq {engine : Engine D} (low : Low engine.extended)
    (indexed : Indexed engine.rounds engine.extended) {candidate : UnitHash} {body : BftUnit}
    (found : engine.extended.get? candidate = some body) (fits : body.round + 3 ≤ roundMax) :
    Strict.decide mint engine candidate = engine.decide mint candidate := by
  unfold Strict.decide Engine.decide
  simp only [found, plus_eq (show body.round + 2 ≤ roundMax by omega)]
  rewrite [Strict.decideFrom_eq low indexed candidate body.round _ _ fits]
  rfl

theorem decide_recorded {engine after : Engine D} {candidate : UnitHash} {bit : Bool}
    (decided : engine.decide mint candidate = some (some bit, after)) :
    ∃ decision, after.decided.get? candidate = some decision := by
  unfold Engine.decide at decided
  split at decided
  · rename_i decision cached
    cases decided
    exact ⟨decision, cached⟩
  · split at decided
    · cases decided
    · split at decided
      · cases decided
      · cases decided
      · rename_i decision votes _
        cases decided
        exact ⟨decision, SortedMap.get?_insert_self _ _ _⟩

theorem Strict.walkCandidates_eq (candidates : List UnitHash) (engine : Engine D)
    (free : mint.CollisionFree) (well : WellExtended mint engine.extended)
    (indexed : Indexed engine.rounds engine.extended) (memo : VotesSound mint engine.votes)
    (low : Low engine.extended) {round : Nat} (fits : round + 3 ≤ roundMax)
    (within : ∀ candidate ∈ candidates, ∃ body, engine.extended.get? candidate = some body ∧
      body.round = round) :
    Strict.walkCandidates mint candidates engine = engine.walkCandidates mint candidates := by
  induction candidates generalizing engine with
  | nil => rfl
  | cons candidate rest ih =>
      obtain ⟨body, found, atRound⟩ := within candidate List.mem_cons_self
      obtain ⟨result, votes, decided, decideEq, memo'⟩ := decide_total free well indexed memo found
      unfold Strict.walkCandidates Engine.walkCandidates
      rw [Strict.decide_eq low indexed found (atRound ▸ fits), decideEq]
      cases result with
      | none => rfl
      | some bit =>
          obtain ⟨decision, recorded⟩ := decide_recorded decideEq
          have recorded' : decided.get? candidate = some decision := recorded
          simp only [recorded', found]
          cases bit with
          | true => rfl
          | false =>
              exact ih { engine with votes := votes, decided := decided } well indexed
                memo' low fun other member => within other (List.mem_cons_of_mem candidate member)

theorem Strict.chooseHead_eq {engine : Engine D} (free : mint.CollisionFree)
    (well : WellExtended mint engine.extended)
    (indexed : Indexed engine.rounds engine.extended) (memo : VotesSound mint engine.votes)
    (low : Low engine.extended) {round : Nat} (fits : round + 3 ≤ roundMax) :
    Strict.chooseHead mint engine round = engine.chooseHead mint round := by
  unfold Strict.chooseHead Engine.chooseHead
  simp only [plus_eq fits]
  rw [Strict.walkCandidates_eq _ engine free well indexed memo low fits
    (fun candidate member => (indexed round candidate).mp member)]

end Deciding

/-! ### The loop over the heads -/

section Draining

variable {setup : Setup D} {tables : BftTables D}

theorem Strict.drainHeads_eq (free : setup.CollisionFree) (room : Headroom tables) (steps : Nat)
    (engine : Engine D) (consistent : Consistent setup.toMint tables engine) :
    Strict.drainHeads setup tables steps engine = engine.drainHeads setup tables steps := by
  induction steps generalizing engine with
  | zero => rfl
  | succ steps ih =>
      have low := room.low consistent.grounded
      have fits : engine.nextDecideRound + 3 ≤ roundMax := by
        rcases consistent.cursor with start | ⟨hash, unit, found, above⟩
        · rw [start]
          decide
        · have bounded := low hash unit found
          omega
      have choice := Strict.chooseHead_eq free (consistent.grounded.wellExtended consistent.valid)
        consistent.grounded.indexed consistent.votes low fits
      unfold Strict.drainHeads Engine.drainHeads
      rw [choice]
      rcases drain_step free consistent with ⟨after, chooseEq, _⟩ |
        ⟨_, _, _, _, after, chooseEq, batchEq, emitEq, consistent', sameCursor, _⟩
      · simp only [chooseEq]
      · simp only [chooseEq, batchEq, emitEq,
          plus_eq (show after.nextDecideRound + 1 ≤ roundMax by omega)]
        exact ih _ consistent'

theorem Strict.runExtender_eq (free : setup.CollisionFree) (room : Headroom tables)
    {engine : Engine D} (consistent : Consistent setup.toMint tables engine) :
    Strict.runExtender setup tables engine = engine.runExtender setup tables :=
  Strict.drainHeads_eq free room _ engine consistent

/-! ### Stored units -/

theorem Strict.advance_eq (free : setup.CollisionFree) {engine : Engine D}
    (consistent : Consistent setup.toMint tables engine) {ev : UnitEnvelope D}
    (checked : Checked setup.toMint ev) (absent : tables.unit.get? (setup.unitHash ev.unit) = none)
    (room : Headroom (tables.insert (setup.unitHash ev.unit) ev)) (own : SortedSet Nat) :
    Strict.advance setup (tables.insert (setup.unitHash ev.unit) ev)
        { stored setup engine ev with unorderedOwnData := own } (setup.unitHash ev.unit) =
      Engine.runExtender setup (tables.insert (setup.unitHash ev.unit) ev)
        (Engine.tryExtend (tables.insert (setup.unitHash ev.unit) ev)
          { stored setup engine ev with unorderedOwnData := own } (setup.unitHash ev.unit)) := by
  unfold Strict.advance
  rw [Strict.tryExtend_eq room _ (consistent.grounded.store ev absent)]
  exact Strict.runExtender_eq free room (consistent.extend checked absent own)

theorem Strict.handleMessage_eq (free : setup.CollisionFree) {engine : Engine D}
    (consistent : Consistent setup.toMint tables engine) (now : Nat) (sender : NodeId)
    (message : Message D) (room : ∀ ev, message = .unit ev → Checked setup.toMint ev →
      Headroom (tables.insert (setup.unitHash ev.unit) ev)) :
    Strict.handleMessage setup now tables engine sender message =
      Engine.handleMessage setup now tables engine sender message := by
  cases message with
  | request hash => rfl
  | unit ev =>
      simp only [Strict.handleMessage, Engine.handleMessage]
      cases validated : validateUnit setup.toMint ev with
      | error message => rfl
      | ok done =>
          have checked := (validateUnit_ok ev).mp validated
          obtain ⟨requests, messages, cascadedEq, _⟩ :=
            cascadeParents_requested now tables engine sender ev.unit
          have asked : Consistent setup.toMint tables
              (cascadeParents now tables engine sender ev.unit) :=
            cascadedEq ▸ consistent.unrelated _ _ _ _ _
          simp only
          split
          · rfl
          · cases inserted : storeUnit setup tables
                (cascadeParents now tables engine sender ev.unit) ev (setup.unitHash ev.unit) with
            | error message => rfl
            | ok result =>
                obtain ⟨after, grown⟩ := result
                obtain ⟨absent, rfl, rfl⟩ := storeUnit_ok.mp inserted
                have advanced : Strict.advance setup (tables.insert (setup.unitHash ev.unit) ev)
                    (stored setup (cascadeParents now tables engine sender ev.unit) ev)
                    (setup.unitHash ev.unit) = _ :=
                  Strict.advance_eq free asked checked absent (room ev rfl checked)
                    (cascadeParents now tables engine sender ev.unit).unorderedOwnData
                simp only [advanced]
                rfl

theorem Strict.extendedRow_eq (engine : Engine D) (round : Nat) :
    Strict.extendedRow engine round = some (engine.extendedRow round) := by
  have fold : ∀ (hashes : List UnitHash) (row : SortedMap NodeId UnitHash),
      (∀ hash ∈ hashes, engine.extended.contains hash = true) →
      hashes.foldlM (fun row hash =>
        match engine.extended.get? hash with
        | none => none
        | some unit =>
            some (if row.contains unit.creator then row else row.insert unit.creator hash)) row =
      some (hashes.foldl (fun row hash =>
        match engine.extended.get? hash with
        | none => row
        | some unit => if row.contains unit.creator then row else row.insert unit.creator hash)
        row) := by
    intro hashes
    induction hashes with
    | nil => exact fun _ _ => rfl
    | cons hash rest ih =>
        intro row within
        obtain ⟨unit, found⟩ := (engine.extended.contains_iff hash).mp (within hash List.mem_cons_self)
        simp only [List.foldlM_cons, List.foldl_cons, found]
        exact ih _ fun other member => within other (List.mem_cons_of_mem hash member)
  exact fold _ _ fun hash member => (List.mem_filter.mp member).2

theorem Strict.parentsFor_eq (setup : Setup D) (engine : Engine D) (round : Nat) :
    Strict.parentsFor setup engine round = some (engine.parentsFor setup round) := by
  cases round with
  | zero => rfl
  | succ round =>
      unfold Strict.parentsFor Engine.parentsFor
      simp only [Strict.extendedRow_eq]
      cases (engine.extendedRow round).get? setup.id <;> rfl

/-- The unit `try_create_unit` would build over the given parents. -/
def ownEnvelope (setup : Setup D) (engine : Engine D) (data : List D)
    (parents : SortedMap NodeId UnitHash) : UnitEnvelope D :=
  { unit := ⟨engine.nextRound, setup.id, parents, setup.commitment data⟩
    data := data
    signature := setup.sign setup.session
      ⟨engine.nextRound, setup.id, parents, setup.commitment data⟩ }

theorem Strict.nextRound_eq {engine : Engine D}
    (fits : ∀ top, engine.ownTop = some top → top.1 + 1 ≤ roundMax) :
    Strict.nextRound engine = some engine.nextRound := by
  unfold Strict.nextRound Engine.nextRound
  cases topEq : engine.ownTop with
  | none => rfl
  | some top => exact plus_eq (fits top topEq)

theorem Strict.persistUnit_eq (free : setup.CollisionFree) {engine : Engine D}
    (consistent : Consistent setup.toMint tables engine) (data : List D)
    (fits : ∀ top, engine.ownTop = some top → top.1 + 1 ≤ roundMax)
    (room : ∀ parents, engine.parentsFor setup engine.nextRound = some parents →
      Headroom (tables.insert (setup.unitHash (ownEnvelope setup engine data parents).unit)
        (ownEnvelope setup engine data parents))) :
    Strict.persistUnit setup data tables engine = Engine.persistUnit setup data tables engine := by
  unfold Strict.persistUnit Engine.persistUnit
  simp only [Strict.nextRound_eq fits, Strict.parentsFor_eq]
  cases chosen : engine.parentsFor setup engine.nextRound with
  | none => rfl
  | some parents =>
      simp only
      split
      · rfl
      · cases inserted : insertUnit setup tables engine (ownEnvelope setup engine data parents)
            (setup.unitHash (ownEnvelope setup engine data parents).unit) with
        | error message =>
            unfold ownEnvelope at inserted
            simp only [inserted]
        | ok result =>
            obtain ⟨after, grown⟩ := result
            obtain ⟨checked, absent, rfl, rfl⟩ := insertUnit_ok.mp inserted
            have advanced := Strict.advance_eq free consistent checked absent (room parents chosen)
            unfold ownEnvelope at inserted advanced
            simp only [inserted]
            -- the branch on the payload is taken inside the update of the engine
            cases hasData : (setup.commitment data).isSome with
            | true =>
                have drained := advanced (engine.unorderedOwnData.insert engine.nextRound ⟨⟩)
                simp only [if_true]
                change (match Strict.advance setup _ { stored setup engine _ with
                  unorderedOwnData := engine.unorderedOwnData.insert engine.nextRound ⟨⟩ } _ with
                  | none => none
                  | some engine => _) = _
                rw [drained]
                rfl
            | false =>
                have drained := advanced engine.unorderedOwnData
                simp only [Bool.false_eq_true, if_false]
                change (match Strict.advance setup _ { stored setup engine _ with
                  unorderedOwnData := engine.unorderedOwnData } _ with
                  | none => none
                  | some engine => _) = _
                rw [drained]
                rfl

theorem Strict.extendRoots_eq (room : Headroom tables) (roots : List UnitHash) (engine : Engine D)
    (grounded : Grounded tables engine.rounds engine.extended) :
    Strict.extendRoots tables roots engine = some (roots.foldl (Engine.tryExtend tables) engine) := by
  induction roots generalizing engine with
  | nil => rfl
  | cons root rest ih =>
      obtain ⟨extended, extendEq, grounded', _⟩ := tryExtend_spec tables (fun _ => True) engine
        grounded root (fun _ _ _ _ => Or.inr (Or.inr trivial))
      unfold Strict.extendRoots
      rw [Strict.tryExtend_eq room engine grounded, List.foldl_cons, extendEq]
      exact ih { engine with extended := extended } grounded'

theorem Strict.replay_eq (free : setup.CollisionFree) (valid : TablesValid setup.toMint tables)
    (room : Headroom tables) : Strict.replay setup tables = Engine.replay setup tables := by
  have rebuilt : Strict.extendRoots tables (roundUnits (indexed setup tables).rounds 0)
      (indexed setup tables) = some (rebuild setup tables) :=
    Strict.extendRoots_eq room _ _ (indexed_grounded setup tables)
  unfold indexed at rebuilt
  unfold Strict.replay Engine.replay
  simp only [rebuilt]
  exact Strict.runExtender_eq free room (rebuild_consistent valid)

end Draining

/-! ### Every run -/

section Running

variable {setup : Setup D} {process : Process D}

/-- Creating a unit leaves room: the own top does not stand in the last round,
and no unit that becomes extendable stands in the last two. -/
def OwnFits (setup : Setup D) (process : Process D) (data : List D) : Prop :=
  (∀ top, process.engine.ownTop = some top → top.1 + 1 ≤ Strict.roundMax) ∧
    ∀ parents, process.engine.parentsFor setup process.engine.nextRound = some parents →
      Headroom (process.committed.insert
        (setup.unitHash (ownEnvelope setup process.engine data parents).unit)
        (ownEnvelope setup process.engine data parents))

/-- With the unit an event brings, no gap-free chain of stored units reaches
the last two rounds. -/
def Fits (setup : Setup D) (process : Process D) : Event D → Prop
  | .receive _ _ message => ∀ ev, message = .unit ev → Checked setup.toMint ev →
      Headroom (process.committed.insert (setup.unitHash ev.unit) ev)
  | .create data => OwnFits setup process data
  | .interruptCreate data => OwnFits setup process data ∧ Headroom process.durable
  | .interrupt _ _ _ _ | .crash => Headroom process.durable
  | .antiEntropy | .flush => True

theorem Headroom.congr {tables other : BftTables D} (room : Headroom tables)
    (same : other.unit = tables.unit) : Headroom other := by
  unfold Headroom Extendable ExtensionClosed at room ⊢
  rw [same]
  exact room

theorem Strict.restart_eq (free : setup.CollisionFree) (process : Process D)
    (valid : TablesValid setup.toMint process.durable) (room : Headroom process.durable)
    (sent : List (Recipient × Message D)) :
    Strict.restart setup process sent = process.restart setup sent := by
  unfold Strict.restart Process.restart
  rewrite [Strict.replay_eq free valid room]
  rfl

theorem Strict.step_eq (free : setup.CollisionFree) (standing : Standing setup process)
    {event : Event D} (fits : Fits setup process event) :
    Strict.step setup process event = process.step setup event := by
  cases event with
  | receive now sender message =>
      unfold Strict.step Process.step
      dsimp only
      rewrite [Strict.handleMessage_eq free standing.engine now sender message fits]
      rfl
  | interrupt now sender ev count =>
      unfold Strict.step Process.step
      dsimp only
      cases validateUnit setup.toMint ev with
      | error _ => exact Strict.restart_eq free process standing.durable fits _
      | ok _ => exact Strict.restart_eq free process standing.durable fits _
  | create data =>
      simp only [Strict.step, Process.step, Engine.tryCreateUnit,
        Strict.persistUnit_eq free standing.engine data fits.1 fits.2]
      cases Engine.persistUnit setup data process.committed process.engine with
      | none => rfl
      | some result =>
          obtain ⟨built, engine, tables⟩ := result
          cases built <;> rfl
  | interruptCreate data =>
      simp only [Strict.step, Process.step,
        Strict.persistUnit_eq free standing.engine data fits.1.1 fits.1.2]
      cases persisted : Engine.persistUnit setup data process.committed process.engine with
      | none => rfl
      | some result =>
          obtain ⟨built, engine, tables⟩ := result
          cases built with
          | none => exact Strict.restart_eq free process standing.durable fits.2 _
          | some ev =>
              have valid := (persistUnit_consistent free standing.engine persisted).valid
              refine Strict.restart_eq free { process with
                committed := tables, durable := tables, created := process.created ++ [ev] }
                valid ?_ _
              rcases persistUnit_cases persisted with ⟨impossible, _⟩ |
                ⟨_, parents, _, same, unitEq, _, chosen, _, _, rfl, _⟩
              · cases impossible
              · cases same
                refine (fits.1.2 parents chosen).congr ?_
                change process.committed.unit.insert _ _ = process.committed.unit.insert _ _
                rw [unitEq]
                rfl
  | antiEntropy => rfl
  | flush => rfl
  | crash =>
      simp only [Strict.step, Process.step,
        Strict.restart_eq free process standing.durable fits]

/-- The states of a process whose events all leave room. -/
inductive StrictRuns (setup : Setup D) : Process D → Prop
  | start : StrictRuns setup Process.start
  | step {process next : Process D} {event : Event D} (before : StrictRuns setup process)
      (fits : Fits setup process event) (stepped : Strict.step setup process event = some next) :
      StrictRuns setup next

theorem StrictRuns.standing (free : setup.CollisionFree) (runs : StrictRuns setup process) :
    Standing setup process := by
  induction runs with
  | start => exact Standing.start setup
  | step _ fits stepped ih =>
      rw [Strict.step_eq free ih fits] at stepped
      exact ih.step free stepped

/-- While nothing extendable stands in the last two rounds no event panics or
overflows, and the round index lists the stored units, each next to one
payload and one signature row. -/
theorem events_never_panic (free : setup.CollisionFree) (member : setup.id ∈ setup.n.nodeIds)
    (signs : ∀ unit : BftUnit, unit.creator = setup.id →
      setup.verify setup.session unit (setup.sign setup.session unit) setup.id = true)
    (runs : StrictRuns setup process) :
    (∀ event, Fits setup process event →
      ∃ next, Strict.step setup process event = some next) ∧
    (∀ round hash, hash ∈ roundUnits process.engine.rounds round ↔
      ∃ unit, process.committed.unit.get? hash = some unit ∧ unit.round = round) ∧
    ∀ hash, process.committed.unit.contains hash = true →
      (∃! data, process.committed.unitData.get? hash = some data) ∧
        ∃! signature, process.committed.unitSignature.get? hash = some signature := by
  have standing := runs.standing free
  refine ⟨?_, standing.engine.grounded.index, ?_⟩
  · intro event fits
    rw [Strict.step_eq free standing fits]
    exact standing.progress free member signs event
  · intro hash stored
    obtain ⟨unit, found⟩ := (process.committed.unit.contains_iff hash).mp stored
    obtain ⟨data, dataAt, _⟩ := standing.engine.valid.payload hash unit found
    obtain ⟨signature, signatureAt, _⟩ := standing.engine.valid.signed hash unit found
    exact ⟨⟨data, dataAt, fun other otherAt => by rw [dataAt] at otherAt; cases otherAt; rfl⟩,
      signature, signatureAt,
      fun other otherAt => by rw [signatureAt] at otherAt; cases otherAt; rfl⟩

theorem Headroom.of_stored {tables : BftTables D} (stored : ∀ hash unit,
    tables.unit.get? hash = some unit → unit.round + 2 ≤ Strict.roundMax) : Headroom tables :=
  fun hash unit _ found => stored hash unit found

def lowRounds (bound : Nat) (process : Process D) (event : Event D) : Bool :=
  (process.committed.unit.rows.all fun row => decide (row.2.round ≤ bound)) &&
    (process.durable.unit.rows.all fun row => decide (row.2.round ≤ bound)) &&
    decide (process.engine.nextRound ≤ bound) &&
    match event with
    | .receive _ _ (.unit ev) => decide (ev.unit.round ≤ bound)
    | _ => true

theorem fits_of_lowRounds {bound : Nat} (room : bound + 2 ≤ Strict.roundMax) {event : Event D}
    (low : lowRounds bound process event = true) : Fits setup process event := by
  simp only [lowRounds, Bool.and_eq_true, List.all_eq_true, decide_eq_true_eq] at low
  obtain ⟨⟨⟨committed, durable⟩, next⟩, arriving⟩ := low
  have rounds : ∀ tables : BftTables D, (∀ row ∈ tables.unit.rows, row.2.round ≤ bound) →
      ∀ hash unit, tables.unit.get? hash = some unit → unit.round + 2 ≤ Strict.roundMax := by
    intro tables below hash unit found
    have atMost := below (hash, unit) ((tables.unit.mem_rows hash unit).mpr found)
    exact (Nat.add_le_add_right atMost 2).trans room
  have durableRoom : Headroom process.durable := Headroom.of_stored (rounds _ durable)
  have inserted : ∀ (hash : UnitHash) (ev : UnitEnvelope D), ev.unit.round ≤ bound →
      Headroom (process.committed.insert hash ev) := by
    intro hash ev small
    refine Headroom.of_stored fun other unit found => ?_
    rw [BftTables.insert, SortedMap.get?_insert] at found
    split at found
    · cases found
      exact (Nat.add_le_add_right small 2).trans room
    · exact rounds _ committed other unit found
  have own : ∀ data, OwnFits setup process data := by
    intro data
    refine ⟨fun top isTop => ?_, fun parents _ => inserted _ _ next⟩
    unfold Engine.nextRound at next
    rw [isTop] at next
    exact next.trans ((Nat.le_add_right bound 2).trans room)
  cases event with
  | receive now sender message =>
      intro ev same _
      subst same
      exact inserted _ ev (of_decide_eq_true arriving)
  | interrupt now sender ev count => exact durableRoom
  | create data => exact own data
  | interruptCreate data => exact ⟨own data, durableRoom⟩
  | antiEntropy => trivial
  | flush => trivial
  | crash => exact durableRoom

def lowRun (setup : Setup D) (bound : Nat) : List (Event D) → Process D → Option (Process D)
  | [], process => some process
  | event :: rest, process =>
      if lowRounds bound process event = true then
        match Strict.step setup process event with
        | none => none
        | some next => lowRun setup bound rest next
      else none

theorem StrictRuns.low_run {bound : Nat} (room : bound + 2 ≤ Strict.roundMax)
    {events : List (Event D)} {last : Process D} (runs : StrictRuns setup process)
    (ran : lowRun setup bound events process = some last) : StrictRuns setup last := by
  induction events generalizing process with
  | nil =>
      cases ran
      exact runs
  | cons event rest ih =>
      unfold lowRun at ran
      split at ran
      · rename_i low
        split at ran
        · cases ran
        · rename_i next stepped
          exact ih (runs.step (fits_of_lowRounds room low) stepped) ran
      · cases ran

def openSetup : Setup Nat where
  toMint := openMint
  id := 0
  sign := forkKeys 0

/-- Four rounds, a crash, and a fifth round, with which a head is chosen. -/
def crashEvents : List (Event Nat) :=
  firstEvents 3 ++ [.flush, .crash, .create [], forkArrival (forkEnvelope 4 2),
    forkArrival (forkEnvelope 4 1)]

theorem events_never_panic_sample : ∃ process : Process Nat, StrictRuns openSetup process ∧
    process.engine.orderedTx = [(0, 3, 100), (0, 2, 9), (0, 1, 8), (0, 0, 7)] ∧
    process.created.length = 5 ∧
    (∃! data, process.committed.unitData.get? (forkHash 0 2) = some data) ∧
    (∃ next, Strict.step openSetup process (.create [23]) = some next) ∧
    ∃ next, Strict.step openSetup process .crash = some next := by
  have evaluated : (lowRun openSetup 9 crashEvents Process.start).any (fun last =>
      last.engine.orderedTx = [(0, 3, 100), (0, 2, 9), (0, 1, 8), (0, 0, 7)] ∧
        last.created.length = 5 ∧ last.committed.unit.contains (forkHash 0 2) = true ∧
        lowRounds 9 last (.create [23]) = true ∧ lowRounds 9 last .crash = true) = true := by
    decide +kernel
  rw [Option.any_eq_true] at evaluated
  obtain ⟨process, ran, observed⟩ := evaluated
  obtain ⟨order, created, stored, creates, crashes⟩ := of_decide_eq_true observed
  have room : 9 + 2 ≤ Strict.roundMax := by decide
  have runs : StrictRuns openSetup process := StrictRuns.start.low_run room ran
  have sound := events_never_panic openMint_collisionFree (by decide) (fun _ _ => rfl) runs
  exact ⟨process, runs, order, created, (sound.2.2 _ stored).1,
    sound.1 _ (fits_of_lowRounds room creates), sound.1 _ (fits_of_lowRounds room crashes)⟩

end Running

end Picomint.Bft
