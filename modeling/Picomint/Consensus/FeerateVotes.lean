/-
The fee rate among the votes of honest nodes.

The place of the rate is fixed while the number of votes is not: with votes
missing it counts from below only, and the highest votes can be Byzantine.
-/

import Picomint.Consensus.Items
import Picomint.Lib.OrderStatistic

namespace Picomint.Consensus

open Tss

variable {curve : Curve}

def votedRates (ledger : Ledger curve) : List Nat :=
  ledger.feeRateVote.rows.filterMap Prod.snd

def honestRates (byzantine : Finset NodeId) (ledger : Ledger curve) : List Nat :=
  (ledger.feeRateVote.rows.filter (fun row => row.1 ∉ byzantine)).filterMap Prod.snd

def reachedRates (byzantine : Finset NodeId) (ledger : Ledger curve) : List Nat :=
  (votedRates ledger).filter (fun rate => ∃ high ∈ honestRates byzantine ledger, rate ≤ high)

def Bracketed (mint : MintConfig curve) (byzantine : Finset NodeId) (ledger : Ledger curve) :
    Prop :=
  ∀ rate, (consensusFeerate mint ledger : Outcome ItemError (Option Nat)) = .ok (some rate) →
    (∃ low ∈ honestRates byzantine ledger, low ≤ rate) ∧
      ∃ high ∈ honestRates byzantine ledger, rate ≤ high

section Rates

variable {mint : MintConfig curve} {ledger : Ledger curve} {byzantine : Finset NodeId} {rate : Nat}

def byzantineRates (byzantine : Finset NodeId) (ledger : Ledger curve) : List Nat :=
  (ledger.feeRateVote.rows.filter (fun row => row.1 ∈ byzantine)).filterMap Prod.snd

theorem votedRates_perm (byzantine : Finset NodeId) (ledger : Ledger curve) :
    (votedRates ledger).Perm (byzantineRates byzantine ledger ++ honestRates byzantine ledger) := by
  unfold votedRates byzantineRates honestRates
  rw [← List.filterMap_append]
  refine List.Perm.filterMap _ ?_
  have split := List.filter_append_perm (fun row : NodeId × Option Nat => decide (row.1 ∈ byzantine))
    ledger.feeRateVote.rows
  simpa using split.symm

theorem byzantineRates_length (few : byzantine.card ≤ mint.n.maxEvil) :
    (byzantineRates byzantine ledger).length ≤ mint.n.maxEvil := by
  have distinct : ((ledger.feeRateVote.rows.filter
      (fun row => row.1 ∈ byzantine)).map Prod.fst).Nodup :=
    (List.filter_sublist.map Prod.fst).nodup ledger.feeRateVote.keys_nodup
  have members : ((ledger.feeRateVote.rows.filter
      (fun row => row.1 ∈ byzantine)).map Prod.fst).toFinset ⊆ byzantine := by
    intro node member
    obtain ⟨row, inRows, rfl⟩ := List.mem_map.mp (List.mem_toFinset.mp member)
    exact of_decide_eq_true (List.mem_filter.mp inRows).2
  have count := Finset.card_le_card members
  rw [List.toFinset_card_of_nodup distinct, List.length_map] at count
  exact (List.length_filterMap_le _ _).trans (count.trans few)

theorem votedRates_length (voters : ∀ node ∈ ledger.feeRateVote.keys, node < mint.n.total) :
    (votedRates ledger).length ≤ mint.n.total := by
  have nodes : ledger.feeRateVote.keys.toFinset ⊆ Finset.range mint.n.total := by
    intro node member
    exact Finset.mem_range.mpr (voters node (List.mem_toFinset.mp member))
  have count := Finset.card_le_card nodes
  rw [List.toFinset_card_of_nodup ledger.feeRateVote.keys_nodup, Finset.card_range,
    SortedMap.keys_length] at count
  exact (List.length_filterMap_le _ _).trans count

theorem consensusFeerate_eq_ok {ε : Type} {result : Option Nat} :
    (consensusFeerate mint ledger : Outcome ε (Option Nat)) = .ok result ↔
      (votedRates ledger).length ≤ mint.n.total ∧
        ((votedRates ledger).insertionSort (· ≤ ·))[mint.n.threshold - 1]? = result := by
  have same : ledger.feeRateVote.values.filterMap id = votedRates ledger := by
    unfold SortedMap.values votedRates
    rw [List.filterMap_map]
    rfl
  unfold consensusFeerate
  simp only [bind_eq_ok, assert_eq_ok, decide_eq_true_eq, same]
  constructor
  · rintro ⟨_, length, result⟩
    exact ⟨length, Except.ok.inj result⟩
  · rintro ⟨length, place⟩
    exact ⟨⟨⟩, length, by rw [place]; rfl⟩

theorem consensusFeerate_iff (voters : ∀ node ∈ ledger.feeRateVote.keys, node < mint.n.total) :
    (consensusFeerate mint ledger : Outcome ItemError (Option Nat)) = .ok (some rate) ↔
      ((votedRates ledger).insertionSort (· ≤ ·))[mint.n.threshold - 1]? = some rate :=
  consensusFeerate_eq_ok.trans (and_iff_right (votedRates_length voters))

/-- Fewer than a quorum of the votes are Byzantine, so an honest one is not
above the rate. -/
theorem exists_honest_below (few : byzantine.card ≤ mint.n.maxEvil)
    (place : ((votedRates ledger).insertionSort (· ≤ ·))[mint.n.threshold - 1]? = some rate) :
    ∃ low ∈ honestRates byzantine ledger, low ≤ rate := by
  have below := (OrderStatistic.ascending_le_iff place rate).mp (le_refl rate)
  rw [(votedRates_perm byzantine ledger).countP_eq, List.countP_append] at below
  have length : (byzantineRates byzantine ledger).length ≤ mint.n.maxEvil :=
    byzantineRates_length few
  have byzantineBelow :=
    (List.countP_le_length (p := fun other => decide (other ≤ rate))).trans length
  have honest : 0 < (honestRates byzantine ledger).countP (fun other => other ≤ rate) := by
    unfold NumNodes.threshold at below
    omega
  obtain ⟨low, member, isBelow⟩ := List.countP_pos_iff.mp honest
  exact ⟨low, member, of_decide_eq_true isBelow⟩

theorem exists_honest_above_iff
    (place : ((votedRates ledger).insertionSort (· ≤ ·))[mint.n.threshold - 1]? = some rate) :
    (∃ high ∈ honestRates byzantine ledger, rate ≤ high) ↔
      mint.n.threshold ≤ (reachedRates byzantine ledger).length := by
  have satisfied := OrderStatistic.place_satisfies_iff
    (fun rate => decide (∃ high ∈ honestRates byzantine ledger, rate ≤ high))
    (fun first second before reached => by
      obtain ⟨high, member, above⟩ := of_decide_eq_true reached
      exact decide_eq_true ⟨high, member, before.trans above⟩)
    (List.pairwise_insertionSort (· ≤ ·) (votedRates ledger)) place
  rw [decide_eq_true_iff, (List.perm_insertionSort _ _).countP_eq,
    List.countP_eq_length_filter] at satisfied
  rw [satisfied]
  unfold reachedRates NumNodes.threshold
  omega

theorem honestRates_reached :
    (honestRates byzantine ledger).length ≤ (reachedRates byzantine ledger).length := by
  have all : (honestRates byzantine ledger).countP
      (fun rate => ∃ high ∈ honestRates byzantine ledger, rate ≤ high) =
        (honestRates byzantine ledger).length := by
    rw [List.countP_eq_length]
    exact fun rate member => decide_eq_true ⟨rate, member, le_refl rate⟩
  unfold reachedRates
  rw [← List.countP_eq_length_filter, (votedRates_perm byzantine ledger).countP_eq,
    List.countP_append, all]
  exact Nat.le_add_left _ _

end Rates

/-- The rate is between two honest rates exactly if there is none, or a quorum
of the votes is not above every honest rate. -/
theorem feerate_bracketed_iff {mint : MintConfig curve} {ledger : Ledger curve}
    {byzantine : Finset NodeId} (few : byzantine.card ≤ mint.n.maxEvil)
    (voters : ∀ node ∈ ledger.feeRateVote.keys, node < mint.n.total) :
    (Bracketed mint byzantine ledger ↔
      (votedRates ledger).length < mint.n.threshold ∨
        mint.n.threshold ≤ (reachedRates byzantine ledger).length) ∧
      (mint.n.threshold ≤ (honestRates byzantine ledger).length →
        Bracketed mint byzantine ledger) := by
  have general : Bracketed mint byzantine ledger ↔
      (votedRates ledger).length < mint.n.threshold ∨
        mint.n.threshold ≤ (reachedRates byzantine ledger).length := by
    unfold Bracketed
    simp only [consensusFeerate_iff voters]
    constructor
    · intro bracketed
      by_cases short : (votedRates ledger).length < mint.n.threshold
      · exact Or.inl short
      · have inside : mint.n.threshold - 1 <
            ((votedRates ledger).insertionSort (· ≤ ·)).length := by
          rw [List.length_insertionSort]
          unfold NumNodes.threshold at short ⊢
          omega
        have place := List.getElem?_eq_getElem inside
        exact Or.inr ((exists_honest_above_iff place).mp (bracketed _ place).2)
    · intro condition rate place
      refine ⟨exists_honest_below few place, (exists_honest_above_iff place).mpr ?_⟩
      rcases condition with short | reached
      · have inside := (List.getElem?_eq_some_iff.mp place).1
        rw [List.length_insertionSort] at inside
        unfold NumNodes.threshold at short inside
        omega
      · exact reached
  exact ⟨general, fun honest => general.mpr (Or.inr (honest.trans honestRates_reached))⟩

/-! Two honest nodes and a Byzantine one vote, and the fourth node has not. -/

def sampleFeerates (rate : Nat) : Ledger scalarCurve :=
  { Ledger.empty with
    feeRateVote := SortedMap.ofList [(0, some 1000), (1, some 1000), (3, some rate)] }

theorem feerate_bracketed_sample :
    Bracketed sampleServer.toMintConfig {3} (sampleFeerates 900) ↔
      (votedRates (sampleFeerates 900)).length < sampleServer.n.threshold ∨
        sampleServer.n.threshold ≤ (reachedRates {3} (sampleFeerates 900)).length :=
  (feerate_bracketed_iff (by decide) (by decide)).1

theorem feerate_pushed :
    (consensusFeerate sampleServer.toMintConfig (sampleFeerates 1000000) :
        Outcome ItemError (Option Nat)) = .ok (some 1000000) ∧
      ¬Bracketed sampleServer.toMintConfig {3} (sampleFeerates 1000000) := by
  have pushed : (consensusFeerate sampleServer.toMintConfig (sampleFeerates 1000000) :
      Outcome ItemError (Option Nat)) = .ok (some 1000000) := by
    decide +kernel
  refine ⟨pushed, fun bracketed => ?_⟩
  obtain ⟨_, high, member, above⟩ := bracketed _ pushed
  have honest : honestRates {3} (sampleFeerates 1000000) = [1000, 1000] := by decide
  rw [honest] at member
  simp only [List.mem_cons, List.not_mem_nil, or_false, or_self] at member
  omega

end Picomint.Consensus
