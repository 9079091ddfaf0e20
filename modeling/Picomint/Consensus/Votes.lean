/-
What the votes of the nodes add up to: heights, versions and fee rates.
-/

import Picomint.Consensus.Ledger
import Mathlib.Data.List.Sort

namespace Picomint.Consensus

open Tss

variable {curve : Curve} {ε : Type}

/-- The height at place `threshold - 1` of the votes in descending order. -/
def consensusBlockHeight (mint : MintConfig curve) (ledger : Ledger curve) : Outcome ε Nat := do
  let heights := ledger.blockHeightVote.values
  assert (heights.length ≤ mint.n.total) .heightVotes
  let heights := (heights.insertionSort (· ≤ ·)).reverse
  return heights[mint.n.threshold - 1]?.getD 0

/-- The version at place `max_evil` of the votes in ascending order, where a
node that has not voted counts with the default. -/
def consensusVersion (mint : MintConfig curve) (ledger : Ledger curve) : ConsensusVersion :=
  let versions := ledger.consensusVersionVote.values
  let versions := versions ++
    List.replicate (mint.n.total - versions.length) mint.defaultVersion
  (versions.insertionSort (· ≤ ·))[mint.n.maxEvil]?.getD mint.defaultVersion

/-- The rate at place `threshold - 1` of the votes in ascending order; a
retracted vote does not count. -/
def consensusFeerate (mint : MintConfig curve) (ledger : Ledger curve) :
    Outcome ε (Option Nat) := do
  let rates := ledger.feeRateVote.values.filterMap id
  assert (rates.length ≤ mint.n.total) .feerateVotes
  let rates := rates.insertionSort (· ≤ ·)
  return rates[mint.n.threshold - 1]?

end Picomint.Consensus
