/-
A round of honest units has a candidate that is never excluded.

Once every honest creator has a unit in a round and in the next one, some
candidate of the round is voted one by everything from two rounds up, on every
engine.  No engine excludes it, so the election of a head only ever waits for a
candidate that is still undecided.
-/

import Picomint.Bft.OrderIndependence
import Picomint.Lib.Inclusion

namespace Picomint.Bft

open VirtualVoting

variable {D : Type}

theorem Mint.common_two (mint : Mint D) (candidate : UnitHash) :
    mint.common candidate (mint.dag.round candidate + 2) = true := by
  simp [Mint.common]

/-- What an engine finds out about a candidate of the round that no engine
excludes. -/
structure Included (mint : Mint D) (engine : Engine D) (candidate : UnitHash) (round : Nat) :
    Prop where
  votes : ∀ unit voter depth, engine.extended.get? unit = some voter → round + 2 ≤ voter.round →
    voter.round - round ≤ depth →
    ∃ votes, vote mint engine.extended candidate depth unit engine.votes = some (true, votes)
  notExcluded : ∀ after, engine.decide mint candidate ≠ some (some false, after)
  notCached : ∀ decidedAt, engine.decided.get? candidate ≠ some (false, decidedAt)
  waits : ∀ after, extendedAt engine.rounds engine.extended (round + 3) ≠ [] →
    engine.chooseHead mint round = some (none, after) →
    ∃ waiting ∈ extendedAt engine.rounds engine.extended round, ∃ unchanged,
      after.decide mint waiting = some (none, unchanged)
  elected : ∀ unit voter, engine.extended.get? unit = some voter → round + 2 < voter.round →
    commonVote mint candidate round voter.round = some true →
    ∃ after, engine.decide mint candidate = some (some true, after)

section Election

variable {mint : Mint D} {byzantine : Finset NodeId} {bound : byzantine.card ≤ mint.n.maxEvil}
variable {engine : Engine D} {candidate : UnitHash}

/-- A walk that stops without a head has met an undecided candidate, unless it
excluded all of them. -/
theorem exists_undecided {extended : SortedMap UnitHash BftUnit} {candidates : List UnitHash}
    (unchosen : ∀ head, ¬Chosen mint bound extended candidates head)
    (member : candidate ∈ candidates)
    (notExcluded : ¬mint.dag.DecidedIn (mint.n.committee byzantine bound) mint.common
      (view extended) candidate false) :
    ∃ waiting ∈ candidates, ∀ bit, ¬mint.dag.DecidedIn (mint.n.committee byzantine bound)
      mint.common (view extended) waiting bit := by
  induction candidates with
  | nil => cases member
  | cons first rest inductionHypothesis =>
      by_cases excluded : mint.dag.DecidedIn (mint.n.committee byzantine bound) mint.common
          (view extended) first false
      · rcases List.mem_cons.mp member with same | later
        · exact absurd (same ▸ excluded) notExcluded
        · obtain ⟨waiting, inRest, undecided⟩ := inductionHypothesis
            (fun head chosen => unchosen head (chosen.cons excluded)) later
          exact ⟨waiting, List.mem_cons_of_mem first inRest, undecided⟩
      · refine ⟨first, List.mem_cons_self, ?_⟩
        intro bit decided
        cases bit with
        | false => exact excluded decided
        | true =>
            refine unchosen first ⟨[], rest, rfl, ?_, decided⟩
            intro other impossible
            cases impossible

/-- `choose_head` finds no head of a covered round only while some candidate is
undecided. -/
theorem chooseHead_waits (free : mint.CollisionFree) (well : WellExtended mint engine.extended)
    (sound : mint.dag.Sound (mint.n.committee byzantine bound) (view engine.extended))
    (indexed : Indexed engine.rounds engine.extended) (caches : CachesSound mint bound engine)
    {round : Nat} {after : Engine D}
    (covered : extendedAt engine.rounds engine.extended (round + 3) ≠ [])
    (chose : engine.chooseHead mint round = some (none, after))
    (member : candidate ∈ extendedAt engine.rounds engine.extended round)
    (notExcluded : ¬mint.dag.DecidedIn (mint.n.committee byzantine bound) mint.common
      (view engine.extended) candidate false) :
    ∃ waiting ∈ extendedAt engine.rounds engine.extended round, ∃ unchanged,
      after.decide mint waiting = some (none, unchanged) := by
  obtain ⟨result, votes, decided, chooseEq, caches', isHead⟩ :=
    chooseHead_spec free bound well sound indexed caches round
  rw [chose] at chooseEq
  cases chooseEq
  have unchosen : ∀ head, ¬Chosen mint bound engine.extended
      (extendedAt engine.rounds engine.extended round) head := by
    intro head chosen
    have found := (isHead head).mpr
      ((chosen_iff_isHead free bound well indexed covered head).mp chosen)
    cases found
  obtain ⟨waiting, inRow, undecided⟩ := exists_undecided unchosen member notExcluded
  obtain ⟨body, bodyAt, _⟩ := (indexed round waiting).mp inRow
  obtain ⟨result, votes', decided', decideEq, _, isResult⟩ := @decide_spec D mint byzantine free
    bound { engine with votes := votes, decided := decided } well indexed caches' _ _ bodyAt
  cases result with
  | none => exact ⟨waiting, inRow, _, decideEq⟩
  | some bit => exact absurd isResult (undecided bit)

theorem included_of_referenced (free : mint.CollisionFree) {known : Set UnitHash}
    (sound : mint.dag.Sound (mint.n.committee byzantine bound) known)
    (referenced : mint.dag.Referenced (mint.n.committee byzantine bound) known candidate)
    (well : WellExtended mint engine.extended) (within : view engine.extended ⊆ known)
    (viewSound : mint.dag.Sound (mint.n.committee byzantine bound) (view engine.extended))
    (indexed : Indexed engine.rounds engine.extended) (caches : CachesSound mint bound engine) :
    Included mint engine candidate (mint.dag.round candidate) := by
  have common := mint.common_two candidate
  have notDecided : ¬mint.dag.DecidedIn (mint.n.committee byzantine bound) mint.common
      (view engine.extended) candidate false :=
    fun excluded => referenced.not_excluded mint.dag sound common (excluded.mono mint.dag within)
  have seen : ∀ {unit voter}, engine.extended.get? unit = some voter →
      mint.dag.round candidate + 2 ≤ voter.round →
      ∃ body, engine.extended.get? candidate = some body := by
    intro unit voter found above
    exact referenced.seen mint.dag sound (well.closed free) within ⟨voter, found⟩
      (by rwa [well.dag_round free found])
  have notCached : ∀ decidedAt, engine.decided.get? candidate ≠ some (false, decidedAt) :=
    fun decidedAt cached => notDecided (caches.decided candidate _ cached)
  refine ⟨?_, ?_, notCached, ?_, ?_⟩
  · intro unit voter depth found above deep
    obtain ⟨body, bodyAt⟩ := seen found above
    have bodyRound := well.dag_round free bodyAt
    obtain ⟨bit, votes, voted, isVote, _⟩ := vote_spec free well bodyAt depth found (by omega)
      (by omega) caches.votes
    have votesFor := referenced.votesFor mint.dag sound common (within ⟨voter, found⟩)
      (by rwa [well.dag_round free found])
    exact ⟨votes, by rw [voted, isVote.mpr votesFor]⟩
  · intro after decided
    cases bodyAt : engine.extended.get? candidate with
    | none =>
        unfold Engine.decide at decided
        cases cached : engine.decided.get? candidate with
        | some decision =>
            simp only [cached] at decided
            obtain ⟨bit, decidedAt⟩ := decision
            cases decided
            exact notCached decidedAt cached
        | none => simp only [cached, bodyAt, reduceCtorEq] at decided
    | some body =>
        obtain ⟨result, votes, decided', decideEq, _, isResult⟩ :=
          decide_spec free bound well indexed caches bodyAt
        rw [decided] at decideEq
        cases decideEq
        exact notDecided isResult
  · intro after covered chose
    obtain ⟨witness, member⟩ := List.exists_mem_of_ne_nil _ covered
    obtain ⟨voter, found, voterRound⟩ := (indexed _ witness).mp member
    obtain ⟨body, bodyAt⟩ := seen found (by omega)
    have inRow := (indexed (mint.dag.round candidate) candidate).mpr
      ⟨body, bodyAt, (well.dag_round free bodyAt).symm⟩
    exact chooseHead_waits free well viewSound indexed caches covered chose inRow notDecided
  · intro unit voter found above isCommon
    obtain ⟨body, bodyAt⟩ := seen found (by omega)
    rw [commonVote_eq mint (by omega), Option.some.injEq] at isCommon
    have decides := referenced.decides mint.dag sound common (within ⟨voter, found⟩)
      (by rwa [well.dag_round free found]) (by rwa [well.dag_round free found])
    obtain ⟨result, votes, decided, decideEq, _, isResult⟩ :=
      decide_spec free bound well indexed caches bodyAt
    cases result with
    | none => exact absurd ⟨unit, ⟨voter, found⟩, decides⟩ (isResult true)
    | some bit =>
        cases bit with
        | false => exact absurd isResult notDecided
        | true => exact ⟨_, decideEq⟩

end Election

/-- An engine that has extended the units of all honest creators in two
successive rounds has a candidate of the lower one that every engine of the
mint includes, at every moment. -/
theorem some_candidate_included {setup : Setup D} (free : setup.CollisionFree)
    {byzantine : Finset NodeId} (bound : byzantine.card ≤ setup.n.maxEvil) {signed : Set BftUnit}
    (signers : HonestSigners setup.toMint byzantine signed) {process : Process D}
    (runs : Reachable setup process) (round : Nat)
    (full : ∀ node ∈ setup.n.nodeIds, node ∉ byzantine →
      ∀ level, level = round ∨ level = round + 1 → ∃ hash unit,
        process.engine.extended.get? hash = some unit ∧ unit.creator = node ∧
          unit.round = level) :
    ∃ candidate body, process.engine.extended.get? candidate = some body ∧ body.round = round ∧
      ∀ (other : Setup D) (elsewhere : Process D), setup.toMint = other.toMint →
        Reachable other elsewhere → Included setup.toMint elsewhere.engine candidate round := by
  have orderly := runs.orderly free bound
  have settled := orderly.isSettled signers
  have well := settled.grounded.wellExtended settled.valid
  have sound := settled.grounded.sound free bound
    (signers.singleVoiced orderly.valid.verified) settled.valid
  have fullAt : ∀ level, level = round ∨ level = round + 1 →
      setup.dag.Full (setup.n.committee byzantine bound) (view process.engine.extended) level := by
    intro level isLevel node member honest
    obtain ⟨hash, unit, found, isCreator, isRound⟩ := full node
      ((setup.n.mem_nodeIds node).mpr (Finset.mem_range.mp member)) honest level isLevel
    exact ⟨hash, ⟨unit, found⟩, by rw [well.dag_creator free found, isCreator],
      by rw [well.dag_round free found, isRound]⟩
  obtain ⟨candidate, ⟨body, bodyAt⟩, candidateRound, _, referenced⟩ :=
    sound.exists_referenced setup.dag (fullAt round (Or.inl rfl)) (fullAt _ (Or.inr rfl))
  refine ⟨candidate, body, bodyAt, by rw [← well.dag_round free bodyAt, candidateRound], ?_⟩
  intro other elsewhere sameMint otherRuns
  obtain ⟨mint, id, sign⟩ := setup
  obtain ⟨otherMint, otherId, otherSign⟩ := other
  cases sameMint
  have otherOrderly : Orderly ⟨mint, otherId, otherSign⟩ bound elsewhere :=
    otherRuns.orderly free bound
  have otherSettled := otherOrderly.isSettled signers
  have once : SingleVoiced byzantine (process.committed.units ∪ elsewhere.committed.units) :=
    signers.singleVoiced fun unit member =>
      member.elim (orderly.valid.verified unit) (otherOrderly.valid.verified unit)
  rw [← candidateRound]
  exact included_of_referenced free (settled.sound_union free otherSettled once)
    (referenced.mono mint.dag Set.subset_union_left)
    (otherSettled.grounded.wellExtended otherSettled.valid) Set.subset_union_right
    (otherSettled.grounded.sound free bound (once.mono Set.subset_union_right) otherSettled.valid)
    otherSettled.grounded.indexed otherSettled.caches

/-- Node 0 holds the second and third units of the three honest nodes, so node
1 includes a candidate of the second ones. -/
theorem some_candidate_included_sample :
    ∃ (process elsewhere : Process Nat) (candidate : UnitHash) (body : BftUnit),
      Reachable (forkSetup 0) process ∧ Reachable (forkSetup 1) elsewhere ∧
      process.engine.extended.get? candidate = some body ∧ body.round = 1 ∧
      elsewhere.engine.nextDecideRound = 3 ∧ Included forkMint elsewhere.engine candidate 1 := by
  have heldEq : (Process.start.run (forkSetup 0) (firstEvents 2)).map (fun last => decide
      (∀ node ∈ List.range 3, ∀ level ∈ [1, 2],
        last.engine.extended.get? (forkHash level node) = some (forkUnit level node))) =
      some true := by
    decide +kernel
  have elsewhereEq : (Process.start.run (forkSetup 1) (secondEvents 4)).map
      (fun last => last.engine.nextDecideRound) = some 3 := by
    decide +kernel
  obtain ⟨process, ran, held⟩ := Option.map_eq_some_iff.mp heldEq
  obtain ⟨elsewhere, elsewhereRan, decided⟩ := Option.map_eq_some_iff.mp elsewhereEq
  have held := of_decide_eq_true held
  have runs : Reachable (forkSetup 0) process :=
    Process.run_runs _ (fun _ _ _ => trivial) Runs.start ran
  have elsewhereRuns : Reachable (forkSetup 1) elsewhere :=
    Process.run_runs _ (fun _ _ _ => trivial) Runs.start elsewhereRan
  obtain ⟨candidate, body, found, isRound, included⟩ := @some_candidate_included Nat (forkSetup 0)
    forkMint_collisionFree {3} (by decide) _ forkMint_signers process runs 1 (by
      intro node member honest level isLevel
      have inside : node < 4 := ((forkSetup 0).n.mem_nodeIds node).mp member
      have different : node ≠ 3 := fun same => honest (Finset.mem_singleton.mpr same)
      have listed : level ∈ [1, 2] := by
        rcases isLevel with rfl | rfl
        · exact List.mem_cons_self
        · exact List.mem_cons_of_mem _ List.mem_cons_self
      exact ⟨_, _, held node
        (List.mem_range.mpr (lt_of_le_of_ne (Nat.lt_succ_iff.mp inside) different)) level listed, rfl, rfl⟩)
  exact ⟨process, elsewhere, candidate, body, runs, elsewhereRuns, found, isRound, decided,
    included (forkSetup 1) elsewhere rfl elsewhereRuns⟩

end Picomint.Bft
