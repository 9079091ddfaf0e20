/-
Greedy filling of a limit by items, and greedy payment by unlimited coins.

Items of one value that follow each other fill as one group: as many fit as
the rest of the limit holds, and the others are left.
-/

import Mathlib.Tactic

namespace Greedy

/-! ### Filling a limit -/

/-- What a filling has taken, the largest sum it compared with the limit, and
the value of the last item it left. -/
structure Filling where
  sum : Nat
  number : Nat
  peak : Nat
  left : Option Nat
deriving DecidableEq, Repr

def fit (limit : Nat) (filling : Filling) (value : Nat) : Filling :=
  if value + filling.sum ≤ limit then
    { sum := value + filling.sum
      number := filling.number + 1
      peak := max filling.peak (value + filling.sum)
      left := filling.left }
  else
    { sum := filling.sum
      number := filling.number
      peak := max filling.peak (value + filling.sum)
      left := some value }

def fill (limit : Nat) (filling : Filling) (values : List Nat) : Filling :=
  values.foldl (fit limit) filling

/-- Take what fits of the given number of items of one value. -/
def fitGroup (limit : Nat) (filling : Filling) (group : Nat × Nat) : Filling :=
  let fitting := min group.2 ((limit - filling.sum) / group.1)
  { sum := filling.sum + fitting * group.1
    number := filling.number + fitting
    peak := if group.2 = 0 then filling.peak
      else max filling.peak (filling.sum + min group.2 (fitting + 1) * group.1)
    left := if fitting < group.2 then some group.1 else filling.left }

def fillGroups (limit : Nat) (filling : Filling) (groups : List (Nat × Nat)) : Filling :=
  groups.foldl (fitGroup limit) filling

variable {limit : Nat} {filling : Filling}

theorem fit_below (below : filling.sum ≤ limit) (value : Nat) :
    (fit limit filling value).sum ≤ limit := by
  unfold fit
  split
  · assumption
  · exact below

theorem fit_peak (value : Nat) : filling.peak ≤ (fit limit filling value).peak := by
  unfold fit
  split
  · exact le_max_left _ _
  · exact le_max_left _ _

theorem fill_peak (values : List Nat) : filling.peak ≤ (fill limit filling values).peak := by
  induction values generalizing filling with
  | nil => exact le_refl _
  | cons value rest inductionHypothesis => exact (fit_peak value).trans inductionHypothesis

theorem fit_sum (value : Nat) : filling.sum ≤ (fit limit filling value).sum := by
  unfold fit
  split
  · exact Nat.le_add_left _ _
  · exact le_refl _

theorem fill_sum (values : List Nat) : filling.sum ≤ (fill limit filling values).sum := by
  induction values generalizing filling with
  | nil => exact le_refl _
  | cons value rest inductionHypothesis => exact (fit_sum value).trans inductionHypothesis

theorem fill_left {values : List Nat} (left : filling.left ≠ none) :
    (fill limit filling values).left ≠ none := by
  induction values generalizing filling with
  | nil => exact left
  | cons value rest inductionHypothesis =>
      apply inductionHypothesis
      unfold fit
      split
      · exact left
      · exact Option.some_ne_none value

theorem fill_within {values : List Nat} (within : filling.peak ≤ limit)
    (nothing : (fill limit filling values).left = none) :
    (fill limit filling values).peak ≤ limit := by
  induction values generalizing filling with
  | nil => exact within
  | cons value rest inductionHypothesis =>
      by_cases fits : value + filling.sum ≤ limit
      · apply inductionHypothesis _ nothing
        unfold fit
        rw [if_pos fits]
        exact max_le within fits
      · have misfit : (fit limit filling value).left ≠ none := by
          unfold fit
          rw [if_neg fits]
          exact Option.some_ne_none value
        have kept : (fill limit (fit limit filling value) rest).left ≠ none := fill_left misfit
        exact absurd nothing kept

theorem fitGroup_below (below : filling.sum ≤ limit) (group : Nat × Nat) :
    (fitGroup limit filling group).sum ≤ limit := by
  have fits : min group.2 ((limit - filling.sum) / group.1) * group.1 ≤ limit - filling.sum :=
    (Nat.mul_le_mul_right _ (min_le_right _ _)).trans (Nat.div_mul_le_self _ _)
  unfold fitGroup
  simp only
  omega

theorem fill_replicate (below : filling.sum ≤ limit) {value : Nat} (positive : 0 < value)
    (available : Nat) :
    fill limit filling (List.replicate available value) =
      fitGroup limit filling (value, available) := by
  induction available generalizing filling with
  | zero => simp [fill, fitGroup]
  | succ available inductionHypothesis =>
      change fill limit (fit limit filling value) (List.replicate available value) = _
      rw [inductionHypothesis (fit_below below value)]
      by_cases fits : value + filling.sum ≤ limit
      · have quotient : (limit - filling.sum) / value =
            (limit - (value + filling.sum)) / value + 1 := by
          rw [← Nat.add_div_right _ positive]
          congr 1
          omega
        have first : fit limit filling value =
            { sum := value + filling.sum
              number := filling.number + 1
              peak := max filling.peak (value + filling.sum)
              left := filling.left } := if_pos fits
        rw [first]
        unfold fitGroup
        simp only
        rw [quotient]
        generalize (limit - (value + filling.sum)) / value = more
        have taken : min (available + 1) (more + 1) = min available more + 1 :=
          (Nat.succ_min_succ available more)
        rw [taken]
        simp only [Filling.mk.injEq]
        refine ⟨by ring, by omega, ?_, ?_⟩
        · rw [if_neg (Nat.succ_ne_zero available), max_assoc]
          have next : min (available + 1) (min available more + 1 + 1) =
              min available (min available more + 1) + 1 := Nat.succ_min_succ _ _
          rw [next]
          by_cases last : available = 0
          · rw [if_pos last, last]
            congr 1
            simp [Nat.add_comm]
          · rw [if_neg last]
            have larger : value + filling.sum ≤
                value + filling.sum + min available (min available more + 1) * value :=
              Nat.le_add_right _ _
            rw [max_eq_right larger]
            congr 1
            ring
        · by_cases leftOver : min available more < available
          · rw [if_pos leftOver, if_pos (by omega)]
          · rw [if_neg leftOver, if_neg (by omega)]
      · have quotient : (limit - filling.sum) / value = 0 := Nat.div_eq_of_lt (by omega)
        have first : fit limit filling value =
            { sum := filling.sum
              number := filling.number
              peak := max filling.peak (value + filling.sum)
              left := some value } := if_neg fits
        rw [first]
        unfold fitGroup
        simp only
        rw [quotient]
        simp only [Nat.min_zero, Nat.zero_mul, Nat.zero_add, Nat.add_zero, Filling.mk.injEq,
          true_and, Nat.zero_lt_succ, if_true]
        constructor
        · rw [if_neg (Nat.succ_ne_zero available), Nat.min_eq_right (Nat.succ_pos available),
            Nat.one_mul, Nat.add_comm filling.sum value]
          split
          · rfl
          · rename_i more
            rw [Nat.min_eq_right (Nat.one_le_iff_ne_zero.mpr more), Nat.one_mul,
              Nat.add_comm filling.sum value, max_assoc, max_self]
        · split <;> rfl

theorem fill_append (first second : List Nat) :
    fill limit filling (first ++ second) = fill limit (fill limit filling first) second :=
  List.foldl_append

theorem fill_groups (below : filling.sum ≤ limit) {groups : List (Nat × Nat)}
    (positive : ∀ group ∈ groups, 0 < group.1) :
    fill limit filling (groups.flatMap (fun group => List.replicate group.2 group.1)) =
      fillGroups limit filling groups := by
  induction groups generalizing filling with
  | nil => rfl
  | cons group rest inductionHypothesis =>
      rw [List.flatMap_cons, fill_append,
        fill_replicate below (positive group List.mem_cons_self)]
      exact inductionHypothesis (fitGroup_below below group)
        (fun other member => positive other (List.mem_cons_of_mem group member))

/-! ### Leaving one item -/

/-- The items before the first that does not fit, and those after it, which
fit without it. -/
def LeavesOne (limit start : Nat) (values : List Nat) : Prop :=
  ∃ before value after, values = before ++ value :: after ∧ start + before.sum ≤ limit ∧
    limit < start + before.sum + value ∧ start + before.sum + after.sum ≤ limit

theorem not_leavesOne_nil {start : Nat} : ¬LeavesOne limit start [] := by
  rintro ⟨before, value, after, split, _⟩
  cases before <;> cases split

theorem leavesOne_cons_fits {start value : Nat} {rest : List Nat} (fits : start + value ≤ limit) :
    LeavesOne limit start (value :: rest) ↔ LeavesOne limit (start + value) rest := by
  constructor
  · rintro ⟨before, left, after, split, below, exceeds, others⟩
    cases before with
    | nil =>
        cases split
        rw [List.sum_nil] at exceeds
        omega
    | cons first before =>
        cases split
        rw [List.sum_cons, ← Nat.add_assoc] at below exceeds others
        exact ⟨before, left, after, rfl, below, exceeds, others⟩
  · rintro ⟨before, left, after, rfl, below, exceeds, others⟩
    refine ⟨value :: before, left, after, rfl, ?_⟩
    rw [List.sum_cons, ← Nat.add_assoc]
    exact ⟨below, exceeds, others⟩

theorem leavesOne_cons_exceeds {start value : Nat} {rest : List Nat}
    (exceeds : limit < start + value) :
    LeavesOne limit start (value :: rest) ↔ start + rest.sum ≤ limit := by
  constructor
  · rintro ⟨before, left, after, split, below, _, others⟩
    cases before with
    | nil =>
        cases split
        exact others
    | cons first before =>
        cases split
        rw [List.sum_cons] at below
        omega
  · intro others
    exact ⟨[], value, rest, rfl, by rw [List.sum_nil]; omega, exceeds, others⟩

theorem exists_last_reaching {values : List Nat} {bound : Nat}
    (reaches : ∃ value ∈ values, bound ≤ value) :
    ∃ before value after, values = before ++ value :: after ∧ bound ≤ value ∧
      ∀ other ∈ after, other < bound := by
  induction values with
  | nil =>
      obtain ⟨value, member, _⟩ := reaches
      cases member
  | cons head rest inductionHypothesis =>
      by_cases later : ∃ value ∈ rest, bound ≤ value
      · obtain ⟨before, value, after, split, large, small⟩ := inductionHypothesis later
        exact ⟨head :: before, value, after, by rw [split, List.cons_append], large, small⟩
      · obtain ⟨value, member, large⟩ := reaches
        rcases List.mem_cons.mp member with here | inRest
        · refine ⟨[], head, rest, rfl, here ▸ large, fun other inAfter => ?_⟩
          exact not_le.mp (fun reached => later ⟨other, inAfter, reached⟩)
        · exact absurd ⟨value, inRest, large⟩ later

/-- In descending order one item is left exactly if one is worth the excess and
the items below the excess do not reach it together. -/
theorem leavesOne_iff {values : List Nat}
    (descending : values.Pairwise (fun left right => right ≤ left)) (start : Nat) :
    LeavesOne limit start values ↔
      0 < start + values.sum - limit ∧
        (∃ value ∈ values, start + values.sum - limit ≤ value) ∧
        (values.filter (fun value => value < start + values.sum - limit)).sum <
          start + values.sum - limit := by
  generalize isExcess : start + values.sum - limit = excess
  constructor
  · rintro ⟨before, value, after, split, fits, exceeds, rest⟩
    have total : values.sum = before.sum + (value + after.sum) := by
      rw [split, List.sum_append, List.sum_cons]
    rw [split, List.pairwise_append, List.pairwise_cons] at descending
    have large : excess ≤ value := by omega
    refine ⟨by omega, ⟨value, by rw [split]; simp, large⟩, ?_⟩
    have filtered : (values.filter (fun value => value < excess)) =
        after.filter (fun value => value < excess) := by
      have none_before : before.filter (fun value => value < excess) = [] := by
        rw [List.filter_eq_nil_iff]
        intro other member
        have larger := descending.2.2 other member value List.mem_cons_self
        simp only [decide_eq_true_eq]
        omega
      rw [split, List.filter_append, none_before, List.nil_append, List.filter_cons_of_neg]
      simp only [decide_eq_true_eq]
      omega
    have part := (List.filter_sublist (p := fun value => decide (value < excess))
      (l := after)).sum_le_sum (fun _ _ => Nat.zero_le _)
    rw [filtered]
    omega
  · rintro ⟨positive, reaches, small⟩
    obtain ⟨before, value, after, split, large, below⟩ := exists_last_reaching reaches
    have total : values.sum = before.sum + (value + after.sum) := by
      rw [split, List.sum_append, List.sum_cons]
    have kept : after.filter (fun value => value < excess) = after := by
      rw [List.filter_eq_self]
      exact fun other member => decide_eq_true (below other member)
    have part : (after.filter (fun value => value < excess)).Sublist
        (values.filter (fun value => value < excess)) := by
      apply List.Sublist.filter
      rw [split]
      exact (List.sublist_cons_self value after).trans (List.sublist_append_right before _)
    have sum := part.sum_le_sum (fun _ _ => Nat.zero_le _)
    rw [kept] at sum
    exact ⟨before, value, after, split, by omega, by omega, by omega⟩

/-! ### Filling exactly -/

/-- In a chain of divisors every common multiple up to the sum is the sum of a
front. -/
theorem exists_front_sum {values : List Nat}
    (chain : values.Pairwise (fun earlier later => later ∣ earlier)) {total : Nat}
    (divides : ∀ value ∈ values, value ∣ total) (enough : total ≤ values.sum) :
    ∃ front back, values = front ++ back ∧ front.sum = total := by
  induction values generalizing total with
  | nil => exact ⟨[], [], rfl, (Nat.le_zero.mp enough).symm⟩
  | cons value rest inductionHypothesis =>
      rcases Nat.eq_zero_or_pos total with zero | positive
      · exact ⟨[], value :: rest, rfl, zero.symm⟩
      obtain ⟨first, others⟩ := List.pairwise_cons.mp chain
      have whole := divides value List.mem_cons_self
      have below := Nat.le_of_dvd positive whole
      rw [List.sum_cons] at enough
      obtain ⟨front, back, split, sum⟩ := inductionHypothesis others
        (fun other member => Nat.dvd_sub (divides other (List.mem_cons_of_mem value member))
          (first other member)) (show total - value ≤ rest.sum by omega)
      refine ⟨value :: front, back, by rw [split]; rfl, ?_⟩
      rw [List.sum_cons, sum]
      omega

/-- A value that fits and that the others divide belongs to some exact part
whenever there is one. -/
theorem exists_part_with {value : Nat} {rest : List Nat}
    (chain : (value :: rest).Pairwise (fun earlier later => later ∣ earlier)) {total : Nat}
    (fits : value ≤ total) {part : List Nat} (sublist : part.Sublist (value :: rest))
    (sum : part.sum = total) : ∃ other : List Nat, other.Sublist rest ∧
      value + other.sum = total := by
  obtain ⟨first, others⟩ := List.pairwise_cons.mp chain
  rcases List.sublist_cons_iff.mp sublist with within | ⟨taken, isPart, within⟩
  · obtain ⟨front, back, split, frontSum⟩ := exists_front_sum (others.sublist within)
      (fun other member => first other (within.subset member)) (fits.trans_eq sum.symm)
    refine ⟨back, (List.sublist_append_right front back).trans (split ▸ within), ?_⟩
    rw [split, List.sum_append] at sum
    omega
  · rw [isPart, List.sum_cons] at sum
    exact ⟨taken, within, sum⟩

/-- In a chain of divisors the fill reaches the limit whenever a part of the
values does. -/
theorem fill_reaches_iff {values : List Nat}
    (chain : values.Pairwise (fun earlier later => later ∣ earlier))
    (below : filling.sum ≤ limit) :
    (fill limit filling values).sum = limit ↔
      ∃ part : List Nat, part.Sublist values ∧ filling.sum + part.sum = limit := by
  induction values generalizing filling with
  | nil =>
      constructor
      · intro reached
        exact ⟨[], List.Sublist.refl [], reached⟩
      · rintro ⟨part, sublist, sum⟩
        rw [List.sublist_nil.mp sublist] at sum
        exact sum
  | cons value rest inductionHypothesis =>
      have others := (List.pairwise_cons.mp chain).2
      change (fill limit (fit limit filling value) rest).sum = limit ↔ _
      rw [inductionHypothesis others (fit_below below value)]
      unfold fit
      by_cases fits : value + filling.sum ≤ limit
      · rw [if_pos fits]
        constructor
        · rintro ⟨part, sublist, sum⟩
          refine ⟨value :: part, sublist.cons_cons value, ?_⟩
          rw [List.sum_cons]
          simp only at sum
          omega
        · rintro ⟨part, sublist, sum⟩
          obtain ⟨other, within, total⟩ := exists_part_with chain
            (show value ≤ limit - filling.sum by omega) sublist (by omega)
          refine ⟨other, within, ?_⟩
          simp only
          omega
      · rw [if_neg fits]
        constructor
        · rintro ⟨part, sublist, sum⟩
          exact ⟨part, sublist.cons value, sum⟩
        · rintro ⟨part, sublist, sum⟩
          rcases List.sublist_cons_iff.mp sublist with within | ⟨taken, isPart, _⟩
          · exact ⟨part, within, sum⟩
          · rw [isPart, List.sum_cons] at sum
            omega

/-! ### Paying an amount -/

/-- The number of coins that pay the amount greedily, up to a rest below the
last coin. -/
def coins : List Nat → Nat → Nat
  | [], _ => 0
  | cost :: rest, amount => amount / cost + coins rest (amount % cost)

theorem coins_eq_zero_iff {costs : List Nat} (positive : ∀ cost ∈ costs, 0 < cost)
    (amount : Nat) : coins costs amount = 0 ↔ ∀ cost ∈ costs, amount < cost := by
  induction costs generalizing amount with
  | nil => simp [coins]
  | cons cost rest inductionHypothesis =>
      have first := positive cost List.mem_cons_self
      rw [coins, Nat.add_eq_zero_iff, Nat.div_eq_zero_iff_lt first, List.forall_mem_cons]
      apply and_congr_right
      intro below
      rw [Nat.mod_eq_of_lt below]
      exact inductionHypothesis (fun other member => positive other
        (List.mem_cons_of_mem cost member)) amount

end Greedy
