/-
The order extender: virtual votes, decisions, round heads and batches.

Every function mirrors one of `extender.rs`.  `none` stands for a panic of the
source: a failed `expect` or `assert`, or an unsigned subtraction below zero.
The memo tables `votes` and `decided` are threaded through explicitly.  The
loops carry a step count; the stored rounds bound it.
-/

import Picomint.Bft.Unit
import Picomint.Lib.BreadthFirst

namespace Picomint.Bft

abbrev Rounds := SortedMap Nat (SortedSet UnitHash)

abbrev Votes := SortedMap (UnitHash ×ₗ UnitHash) Bool

structure Engine (D : Type) where
  rounds : Rounds
  extended : SortedMap UnitHash BftUnit
  emitted : SortedSet UnitHash
  nextDecideRound : Nat
  decided : SortedMap UnitHash (Bool × Nat)
  votes : Votes
  unorderedOwnData : SortedSet Nat
  ownTop : Option (Nat × UnitHash)
  requestSentAt : SortedMap UnitHash Nat
  /-- What went through `ordered_tx`, oldest first. -/
  orderedTx : List (Nat × NodeId × D)
  /-- What went to the network, oldest first. -/
  network : List (Recipient × Message D)

def Engine.new {D : Type} : Engine D :=
  { rounds := SortedMap.empty
    extended := SortedMap.empty
    emitted := SortedMap.empty
    nextDecideRound := 0
    decided := SortedMap.empty
    votes := SortedMap.empty
    unorderedOwnData := SortedMap.empty
    ownTop := none
    requestSentAt := SortedMap.empty
    orderedTx := []
    network := [] }

def roundUnits (rounds : Rounds) (round : Nat) : List UnitHash :=
  match rounds.get? round with
  | none => []
  | some units => units.keys

def extendedAt (rounds : Rounds) (extended : SortedMap UnitHash BftUnit) (round : Nat) :
    List UnitHash :=
  (roundUnits rounds round).filter extended.contains

/-- One more than any loop over the stored rounds can run. -/
def stepBound (rounds : Rounds) : Nat := (rounds.lastKey?.getD 0) + 2

section Voting

variable {D : Type} (mint : Mint D)

def commonVote (candidate : UnitHash) (candidateRound round : Nat) : Option Bool :=
  if round < candidateRound then none
  else match round - candidateRound with
    | 2 => some true
    | 3 => some false
    | _ => some (mint.seededBit round candidate)

def collectVotes (ask : UnitHash → Votes → Option (Bool × Votes)) :
    List UnitHash → Votes → Option (List Bool × Votes)
  | [], votes => some ([], votes)
  | unit :: rest, votes =>
      match ask unit votes with
      | none => none
      | some (bit, votes) =>
          match collectVotes ask rest votes with
          | none => none
          | some (bits, votes) => some (bit :: bits, votes)

def aggregate (default : Bool) (parentVotes : List Bool) : Bool :=
  if parentVotes.all (fun vote => vote) then true
  else if parentVotes.all (fun vote => !vote) then false
  else default

/-- The recursion descends one round per level: `depth` bounds it. -/
def vote (extended : SortedMap UnitHash BftUnit) (candidate : UnitHash) :
    Nat → UnitHash → Votes → Option (Bool × Votes)
  | 0, _, _ => none
  | depth + 1, unit, votes =>
      match extended.get? candidate, extended.get? unit with
      | some cand, some voter =>
          if voter.round = cand.round + 1 then
            some (voter.parents.get? cand.creator == some candidate, votes)
          else match votes.get? (toLex (candidate, unit)) with
            | some bit => some (bit, votes)
            | none =>
                match commonVote mint candidate cand.round voter.round with
                | none => none
                | some default =>
                    match collectVotes (vote extended candidate depth) voter.parents.values votes with
                    | none => none
                    | some (parentVotes, votes) =>
                        some (aggregate default parentVotes,
                          votes.insert (toLex (candidate, unit)) (aggregate default parentVotes))
      | _, _ => none

/-- Whether some unit of the row has a threshold of parents voting `v`. -/
def decideRow (extended : SortedMap UnitHash BftUnit) (candidate : UnitHash) (v : Bool)
    (depth : Nat) : List UnitHash → Votes → Option (Bool × Votes)
  | [], votes => some (false, votes)
  | unit :: rest, votes =>
      match extended.get? unit with
      | none => none
      | some body =>
          match collectVotes (vote mint extended candidate depth) body.parents.values votes with
          | none => none
          | some (bits, votes) =>
              if mint.n.threshold ≤ bits.countP (· == v) then some (true, votes)
              else decideRow extended candidate v depth rest votes

/-- Scan the rounds upwards until a row decides or a round has no extended
unit. -/
def decideFrom (rounds : Rounds) (extended : SortedMap UnitHash BftUnit) (candidate : UnitHash)
    (candidateRound : Nat) : Nat → Nat → Votes → Option (Option (Bool × Nat) × Votes)
  | 0, _, _ => none
  | steps + 1, round, votes =>
      if (extendedAt rounds extended round).isEmpty then some (none, votes)
      else match commonVote mint candidate candidateRound round with
        | none => none
        | some v =>
            match decideRow mint extended candidate v round (extendedAt rounds extended round)
                votes with
            | none => none
            | some (true, votes) => some (some (v, round), votes)
            | some (false, votes) =>
                decideFrom rounds extended candidate candidateRound steps (round + 1) votes

end Voting

namespace Engine

variable {D : Type}

def decide (mint : Mint D) (engine : Engine D) (candidate : UnitHash) :
    Option (Option Bool × Engine D) :=
  match engine.decided.get? candidate with
  | some decision => some (some decision.1, engine)
  | none =>
      match engine.extended.get? candidate with
      | none => none
      | some body =>
          match decideFrom mint engine.rounds engine.extended candidate body.round
              (stepBound engine.rounds) (body.round + 2) engine.votes with
          | none => none
          | some (none, votes) => some (none, { engine with votes := votes })
          | some (some decision, votes) =>
              some (some decision.1,
                { engine with
                  votes := votes
                  decided := engine.decided.insert candidate decision })

/-- The candidate walk of `choose_head`: the first candidate decided one, once
every earlier one is decided zero. -/
def walkCandidates (mint : Mint D) :
    List UnitHash → Engine D → Option (Option UnitHash × Engine D)
  | [], engine => some (none, engine)
  | candidate :: rest, engine =>
      match engine.decide mint candidate with
      | none => none
      | some (some true, engine) => some (some candidate, engine)
      | some (some false, engine) => walkCandidates mint rest engine
      | some (none, engine) => some (none, engine)

def chooseHead (mint : Mint D) (engine : Engine D) (round : Nat) :
    Option (Option UnitHash × Engine D) :=
  if (extendedAt engine.rounds engine.extended (round + 3)).isEmpty then some (none, engine)
  else walkCandidates mint (extendedAt engine.rounds engine.extended round) engine

/-- The head's ancestors not yet emitted, oldest first, marked as emitted. -/
def bfsBatch (engine : Engine D) (head : UnitHash) : Option (List UnitHash × Engine D) :=
  if engine.emitted.contains head then none
  else match BreadthFirst.search
      (fun hash => (engine.extended.get? hash).map (fun unit => unit.parents.values))
      engine.extended.size (engine.emitted.insert head ⟨⟩) [head] [] with
    | none => none
    | some (batch, emitted) => some (batch.reverse, { engine with emitted := emitted })

/-- Send the items of one unit of a batch. -/
def emitUnit (setup : Setup D) (tables : BftTables D) (engine : Engine D) (hash : UnitHash) :
    Option (Engine D) :=
  match engine.extended.get? hash, tables.unitData.get? hash with
  | some unit, some data =>
      some { engine with
        orderedTx := engine.orderedTx ++ data.map (fun item => (unit.round, unit.creator, item))
        unorderedOwnData :=
          if unit.creator = setup.id then engine.unorderedOwnData.erase unit.round
          else engine.unorderedOwnData }
  | _, _ => none

def emitBatch (setup : Setup D) (tables : BftTables D) : List UnitHash → Engine D → Option (Engine D)
  | [], engine => some engine
  | hash :: rest, engine =>
      match engine.emitUnit setup tables hash with
      | none => none
      | some engine => emitBatch setup tables rest engine

def drainHeads (setup : Setup D) (tables : BftTables D) : Nat → Engine D → Option (Engine D)
  | 0, _ => none
  | steps + 1, engine =>
      match engine.chooseHead setup.toMint engine.nextDecideRound with
      | none => none
      | some (none, engine) => some engine
      | some (some head, engine) =>
          match engine.bfsBatch head with
          | none => none
          | some (batch, engine) =>
              match engine.emitBatch setup tables batch with
              | none => none
              | some engine =>
                  drainHeads setup tables steps
                    { engine with nextDecideRound := engine.nextDecideRound + 1 }

def runExtender (setup : Setup D) (tables : BftTables D) (engine : Engine D) :
    Option (Engine D) :=
  engine.drainHeads setup tables (stepBound engine.rounds)

end Engine

end Picomint.Bft
