/-
Breadth-first search that marks an item when it is enqueued.

The search starts from a queue, never enqueues a marked item and stops where
the queue is empty.  Over items graded by a rank that drops by one along every
edge it visits in descending rank, and what it visits is exactly what it newly
marks.  The step count is an explicit argument; enough of it always gives the
same result.
-/

import Picomint.Lib.SortedMap
import Mathlib.Data.List.Nodup

namespace BreadthFirst

variable {V : Type} [LinearOrder V]

def enqueue (marked : SortedSet V) (queue : List V) : List V → SortedSet V × List V
  | [] => (marked, queue)
  | item :: rest =>
      if marked.contains item then enqueue marked queue rest
      else enqueue (marked.insert item ⟨⟩) (queue ++ [item]) rest

/-- Pop, expand, append: `none` when an item has no expansion or the step
count runs out. -/
def search (next : V → Option (List V)) :
    Nat → SortedSet V → List V → List V → Option (List V × SortedSet V)
  | _, marked, [], visited => some (visited, marked)
  | 0, _, _ :: _, _ => none
  | steps + 1, marked, item :: queue, visited =>
      match next item with
      | none => none
      | some found =>
          search next steps (enqueue marked queue found).1 (enqueue marked queue found).2
            (visited ++ [item])

/-! ### Enqueueing -/

/-- What one expansion adds: the new items are distinct, were unmarked, come
from the expansion and are marked together with everything else in it. -/
structure Enqueued (marked : SortedSet V) (queue found : List V) (result : SortedSet V × List V) :
    Prop where
  added : ∃ fresh : List V, result.2 = queue ++ fresh ∧ fresh.Nodup ∧
    (∀ item ∈ fresh, item ∈ found ∧ marked.contains item = false) ∧
    (∀ item, result.1.contains item = true ↔ marked.contains item = true ∨ item ∈ fresh)
  covers : ∀ item ∈ found, result.1.contains item = true

theorem enqueue_spec (marked : SortedSet V) (queue found : List V) :
    Enqueued marked queue found (enqueue marked queue found) := by
  induction found generalizing marked queue with
  | nil =>
      refine ⟨⟨[], ?_, List.nodup_nil, ?_, ?_⟩, ?_⟩
      · exact (List.append_nil queue).symm
      · intro item impossible; cases impossible
      · intro item; simp [enqueue]
      · intro item impossible; cases impossible
  | cons head rest ih =>
      unfold enqueue
      split
      · rename_i present
        obtain ⟨⟨fresh, queueEq, distinct, origin, marks⟩, covers⟩ := ih marked queue
        refine ⟨⟨fresh, queueEq, distinct, ?_, marks⟩, ?_⟩
        · intro item member
          exact ⟨List.mem_cons_of_mem head (origin item member).1, (origin item member).2⟩
        · intro item member
          rcases List.mem_cons.mp member with same | later
          · exact (marks item).mpr (Or.inl (same ▸ present))
          · exact covers item later
      · rename_i absent
        obtain ⟨⟨fresh, queueEq, distinct, origin, marks⟩, covers⟩ :=
          ih (marked.insert head ⟨⟩) (queue ++ [head])
        have marksHead : ∀ item, (marked.insert head ⟨⟩).contains item = true ↔
            head = item ∨ marked.contains item = true :=
          fun item => marked.contains_insert head item ⟨⟩
        have unmarked : ∀ item ∈ fresh, head ≠ item ∧ marked.contains item = false := by
          intro item member
          have notMarked := (origin item member).2
          have neither := mt (marksHead item).mpr (by rw [notMarked]; exact Bool.false_ne_true)
          rw [not_or] at neither
          exact ⟨neither.1, Bool.eq_false_iff.mpr neither.2⟩
        refine ⟨⟨head :: fresh, ?_, ?_, ?_, ?_⟩, ?_⟩
        · rw [queueEq, List.append_assoc, List.singleton_append]
        · exact List.nodup_cons.mpr ⟨fun member => (unmarked head member).1 rfl, distinct⟩
        · intro item member
          rcases List.mem_cons.mp member with same | later
          · rw [same]
            exact ⟨List.mem_cons_self, Bool.eq_false_iff.mpr absent⟩
          · exact ⟨List.mem_cons_of_mem head (origin item later).1, (unmarked item later).2⟩
        · intro item
          rw [marks, marksHead, List.mem_cons, eq_comm (a := head)]
          tauto
        · intro item member
          rcases List.mem_cons.mp member with same | later
          · exact (marks item).mpr (Or.inl ((marksHead item).mpr (Or.inl same.symm)))
          · exact covers item later

/-! ### Step counts and agreement -/

theorem search_mono (next : V → Option (List V)) {steps : Nat} {marked : SortedSet V}
    {queue visited : List V} {result : List V × SortedSet V}
    (found : search next steps marked queue visited = some result) (extra : Nat) :
    search next (steps + extra) marked queue visited = some result := by
  induction steps generalizing marked queue visited with
  | zero =>
      cases queue with
      | nil => cases extra <;> exact found
      | cons item queue => cases found
  | succ steps ih =>
      rw [Nat.add_right_comm]
      cases queue with
      | nil => exact found
      | cons item queue =>
          unfold search at found ⊢
          cases expansion : next item with
          | none => rw [expansion] at found; cases found
          | some successors =>
              rw [expansion] at found
              exact ih found

theorem search_congr {first second : V → Option (List V)} {domain : Set V}
    (agree : ∀ item ∈ domain, first item = second item)
    (closed : ∀ item ∈ domain, ∀ found, first item = some found → ∀ other ∈ found, other ∈ domain)
    (steps : Nat) (marked : SortedSet V) (queue visited : List V)
    (within : ∀ item ∈ queue, item ∈ domain) :
    search first steps marked queue visited = search second steps marked queue visited := by
  induction steps generalizing marked queue visited with
  | zero => cases queue <;> rfl
  | succ steps ih =>
      cases queue with
      | nil => rfl
      | cons item queue =>
          have itemWithin := within item List.mem_cons_self
          unfold search
          rw [← agree item itemWithin]
          cases expansion : first item with
          | none => rfl
          | some found =>
              refine ih _ _ _ ?_
              obtain ⟨⟨fresh, queueEq, _, origin, _⟩, _⟩ := enqueue_spec marked queue found
              intro other member
              rw [queueEq, List.mem_append] at member
              rcases member with earlier | added
              · exact within other (List.mem_cons_of_mem item earlier)
              · exact closed item itemWithin found expansion other (origin other added).1

/-- Two searches over expansions that agree where the first stays give the
same result, whatever their step counts. -/
theorem search_agree {first second : V → Option (List V)} (domain : Set V)
    (agree : ∀ item ∈ domain, first item = second item)
    (closed : ∀ item ∈ domain, ∀ found, first item = some found → ∀ other ∈ found, other ∈ domain)
    {firstSteps secondSteps : Nat} {marked : SortedSet V} {queue visited : List V}
    (within : ∀ item ∈ queue, item ∈ domain) {firstResult secondResult : List V × SortedSet V}
    (firstFound : search first firstSteps marked queue visited = some firstResult)
    (secondFound : search second secondSteps marked queue visited = some secondResult) :
    firstResult = secondResult := by
  have left := search_mono first firstFound secondSteps
  have right := search_mono second secondFound firstSteps
  rw [search_congr agree closed _ _ _ _ within, Nat.add_comm] at left
  exact Option.some.inj (left.symm.trans right)

theorem search_marked {next : V → Option (List V)} {steps : Nat} {marked final : SortedSet V}
    {queue visited batch : List V}
    (marks : ∀ item ∈ visited ++ queue, marked.contains item = true)
    (found : search next steps marked queue visited = some (batch, final)) :
    (∀ item, marked.contains item = true → final.contains item = true) ∧
      ∀ item ∈ batch, final.contains item = true := by
  induction steps generalizing marked queue visited with
  | zero =>
      cases queue with
      | nil =>
          cases found
          exact ⟨fun _ => id, fun item member => marks item (List.mem_append_left [] member)⟩
      | cons item queue => cases found
  | succ steps inductionHypothesis =>
      cases queue with
      | nil =>
          cases found
          exact ⟨fun _ => id, fun item member => marks item (List.mem_append_left [] member)⟩
      | cons item queue =>
          unfold search at found
          split at found
          · cases found
          · rename_i successors _
            obtain ⟨⟨fresh, queueEq, _, _, keeps⟩, _⟩ := enqueue_spec marked queue successors
            obtain ⟨later, batchMarked⟩ := inductionHypothesis (by
              intro other member
              rw [queueEq] at member
              refine (keeps other).mpr ?_
              have split : other ∈ visited ++ item :: queue ∨ other ∈ fresh := by
                simpa [or_assoc] using member
              exact split.imp_left (marks other)) found
            exact ⟨fun other isMarked => later other ((keeps other).mpr (Or.inl isMarked)),
              batchMarked⟩

/-! ### The graded search -/

section Graded

variable (next : V → Option (List V)) (rank : V → Nat) (domain : Set V)

def Graded : Prop :=
  ∀ item ∈ domain, ∃ found, next item = some found ∧
    ∀ other ∈ found, other ∈ domain ∧ rank other + 1 = rank item

/-- The state between two pops, relative to the marks before the search. -/
structure Progress (before marked : SortedSet V) (queue visited : List V) : Prop where
  within : ∀ item ∈ visited ++ queue, item ∈ domain
  marks : ∀ item, marked.contains item = true ↔
    before.contains item = true ∨ item ∈ visited ++ queue
  distinct : (visited ++ queue).Nodup
  fresh : ∀ item ∈ visited ++ queue, before.contains item = false
  expanded : ∀ item ∈ visited, ∀ found, next item = some found →
    ∀ other ∈ found, marked.contains other = true
  descending : (visited ++ queue).Pairwise (fun first second => rank second ≤ rank first)
  level : ∀ first ∈ queue, ∀ second ∈ queue, rank first ≤ rank second + 1

variable {next rank domain}

theorem Progress.pop (graded : Graded next rank domain) {before marked : SortedSet V}
    {item : V} {queue visited found : List V}
    (progress : Progress next rank domain before marked (item :: queue) visited)
    (expansion : next item = some found) :
    Progress next rank domain before (enqueue marked queue found).1 (enqueue marked queue found).2
      (visited ++ [item]) := by
  obtain ⟨⟨fresh, queueEq, freshDistinct, origin, marks⟩, covers⟩ := enqueue_spec marked queue found
  have itemWithin : item ∈ domain := progress.within item (by simp)
  have foundRank : ∀ other ∈ found, other ∈ domain ∧ rank other + 1 = rank item := by
    obtain ⟨same, sameAt, below⟩ := graded item itemWithin
    rw [expansion] at sameAt
    exact Option.some.inj sameAt ▸ below
  have arranged : visited ++ [item] ++ (queue ++ fresh) = visited ++ item :: queue ++ fresh := by
    simp
  have belowItem : ∀ other ∈ queue, rank other ≤ rank item := by
    have pairs := (List.pairwise_append.mp progress.descending).2.1
    exact (List.pairwise_cons.mp pairs).1
  have freshNotOld : ∀ other ∈ fresh, other ∉ visited ++ item :: queue := by
    intro other added old
    have marked' := (progress.marks other).mpr (Or.inr old)
    rw [(origin other added).2] at marked'
    cases marked'
  refine ⟨?_, ?_, ?_, ?_, ?_, ?_, ?_⟩
  · rw [queueEq, arranged]
    intro other member
    rcases List.mem_append.mp member with old | added
    · exact progress.within other old
    · exact (foundRank other (origin other added).1).1
  · intro other
    rw [queueEq, arranged, marks, progress.marks, List.mem_append (t := fresh), or_assoc]
  · rw [queueEq, arranged]
    refine List.nodup_append.mpr ⟨progress.distinct, freshDistinct, ?_⟩
    intro old oldMember added addedMember same
    exact freshNotOld added addedMember (same ▸ oldMember)
  · rw [queueEq, arranged]
    intro other member
    rcases List.mem_append.mp member with old | added
    · exact progress.fresh other old
    · have unmarked := (origin other added).2
      cases marksBefore : before.contains other with
      | false => rfl
      | true =>
          have marked' := (progress.marks other).mpr (Or.inl marksBefore)
          rw [unmarked] at marked'
          cases marked'
  · intro earlier member successors expands other isSuccessor
    rcases List.mem_append.mp member with old | last
    · exact (marks other).mpr
        (Or.inl (progress.expanded earlier old successors expands other isSuccessor))
    · rw [List.mem_singleton.mp last, expansion] at expands
      exact covers other (Option.some.inj expands ▸ isSuccessor)
  · rw [queueEq, arranged]
    refine List.pairwise_append.mpr ⟨progress.descending, ?_, ?_⟩
    · refine List.Pairwise.imp_of_mem ?_ freshDistinct
      intro first second firstMember secondMember _
      have firstRank := (foundRank first (origin first firstMember).1).2
      have secondRank := (foundRank second (origin second secondMember).1).2
      omega
    · intro old oldMember added addedMember
      have addedRank := (foundRank added (origin added addedMember).1).2
      rcases List.mem_append.mp oldMember with early | waiting
      · have pairs := (List.pairwise_append.mp progress.descending).2.2
        have aboveItem := pairs old early item List.mem_cons_self
        omega
      · have near := progress.level item List.mem_cons_self old waiting
        omega
  · rw [queueEq]
    intro first firstMember second secondMember
    rcases List.mem_append.mp firstMember with firstOld | firstAdded <;>
      rcases List.mem_append.mp secondMember with secondOld | secondAdded
    · exact progress.level first (List.mem_cons_of_mem item firstOld)
        second (List.mem_cons_of_mem item secondOld)
    · have secondRank := (foundRank second (origin second secondAdded).1).2
      have firstBelow := belowItem first firstOld
      omega
    · have firstRank := (foundRank first (origin first firstAdded).1).2
      have near := progress.level item List.mem_cons_self second
        (List.mem_cons_of_mem item secondOld)
      omega
    · have firstRank := (foundRank first (origin first firstAdded).1).2
      have secondRank := (foundRank second (origin second secondAdded).1).2
      omega

theorem search_progress (graded : Graded next rank domain) {before marked : SortedSet V}
    {queue visited : List V} {steps : Nat} {result : List V × SortedSet V}
    (progress : Progress next rank domain before marked queue visited)
    (found : search next steps marked queue visited = some result) :
    Progress next rank domain before result.2 [] result.1 := by
  induction steps generalizing marked queue visited with
  | zero =>
      cases queue with
      | nil => cases found; exact progress
      | cons item queue => cases found
  | succ steps ih =>
      cases queue with
      | nil => cases found; exact progress
      | cons item queue =>
          unfold search at found
          cases expansion : next item with
          | none => rw [expansion] at found; cases found
          | some successors =>
              rw [expansion] at found
              exact ih (progress.pop graded expansion) found

/-- The visited part is never dropped. -/
theorem search_prefix {steps : Nat} {marked : SortedSet V} {queue visited : List V}
    {result : List V × SortedSet V}
    (found : search next steps marked queue visited = some result) :
    visited ++ queue <+: result.1 := by
  induction steps generalizing marked queue visited with
  | zero =>
      cases queue with
      | nil => cases found; simp
      | cons item queue => cases found
  | succ steps ih =>
      cases queue with
      | nil => cases found; simp
      | cons item queue =>
          unfold search at found
          cases expansion : next item with
          | none => rw [expansion] at found; cases found
          | some successors =>
              rw [expansion] at found
              obtain ⟨⟨fresh, queueEq, _, _, _⟩, _⟩ := enqueue_spec marked queue successors
              have continued := ih found
              rw [queueEq] at continued
              refine List.IsPrefix.trans ?_ continued
              simp

/-- With a step for every item of a list that covers the domain the search
ends. -/
theorem search_total (graded : Graded next rank domain) {before marked : SortedSet V}
    {queue visited items : List V} (steps : Nat)
    (progress : Progress next rank domain before marked queue visited)
    (covers : ∀ item ∈ domain, item ∈ items)
    (enough : items.length ≤ steps + visited.length) :
    ∃ result, search next steps marked queue visited = some result := by
  induction steps generalizing marked queue visited with
  | zero =>
      cases queue with
      | nil => exact ⟨_, rfl⟩
      | cons item queue =>
          exfalso
          have bounded := progress.distinct.subperm
            (fun other member => covers other (progress.within other member))
          have lengths := bounded.length_le
          simp only [List.length_append, List.length_cons] at lengths
          omega
  | succ steps ih =>
      cases queue with
      | nil => exact ⟨_, rfl⟩
      | cons item queue =>
          obtain ⟨found, expansion, _⟩ := graded item (progress.within item (by simp))
          unfold search
          rw [expansion]
          refine ih (progress.pop graded expansion) ?_
          simp only [List.length_append, List.length_singleton]
          omega

theorem Progress.start (next : V → Option (List V)) (rank : V → Nat) {before : SortedSet V}
    {item : V} (itemWithin : item ∈ domain)
    (unmarked : before.contains item = false) :
    Progress next rank domain before (before.insert item ⟨⟩) [item] [] := by
  refine ⟨?_, ?_, ?_, ?_, ?_, ?_, ?_⟩
  · intro other member
    rw [List.nil_append, List.mem_singleton] at member
    exact member ▸ itemWithin
  · intro other
    rw [SortedMap.contains_insert, List.nil_append, List.mem_singleton, eq_comm (a := item),
      or_comm]
  · exact List.nodup_singleton item
  · intro other member
    rw [List.nil_append, List.mem_singleton] at member
    exact member ▸ unmarked
  · intro other impossible
    cases impossible
  · exact List.pairwise_singleton _ item
  · intro first firstMember second secondMember
    rw [List.mem_singleton.mp firstMember, List.mem_singleton.mp secondMember]
    omega

end Graded

/-! ### Batches -/

/-- One search per root, each keeping the marks of the earlier ones; the order
lists every batch with its last visited item first. -/
inductive Batches (next : V → Option (List V)) :
    SortedSet V → List V → List V → SortedSet V → Prop
  | done {marked : SortedSet V} : Batches next marked [] [] marked
  | root {marked middle final : SortedSet V} {item : V} {roots batch order : List V} {steps : Nat}
      (unmarked : marked.contains item = false)
      (searched : search next steps (marked.insert item ⟨⟩) [item] [] = some (batch, middle))
      (later : Batches next middle roots order final) :
      Batches next marked (item :: roots) (batch.reverse ++ order) final

namespace Batches

variable {next : V → Option (List V)} {marked middle final : SortedSet V}
variable {roots order : List V}

theorem snoc (batches : Batches next marked roots order middle) {item : V} {batch : List V}
    {steps : Nat} (unmarked : middle.contains item = false)
    (searched : search next steps (middle.insert item ⟨⟩) [item] [] = some (batch, final)) :
    Batches next marked (roots ++ [item]) (order ++ batch.reverse) final := by
  induction batches with
  | done =>
      have single := Batches.root unmarked searched Batches.done
      rw [List.append_nil] at single
      exact single
  | root rootUnmarked rootSearched _ ih =>
      rw [List.append_assoc]
      exact Batches.root rootUnmarked rootSearched (ih unmarked searched)

theorem order_prefix {more otherOrder : List V} {otherFinal : SortedSet V}
    (batches : Batches next marked roots order final)
    (other : Batches next marked more otherOrder otherFinal) (extension : roots <+: more) :
    order <+: otherOrder := by
  induction batches generalizing more otherOrder with
  | done => exact List.nil_prefix
  | root unmarked searched later ih =>
      cases other with
      | done => exact absurd (List.prefix_nil.mp extension) (List.cons_ne_nil _ _)
      | root otherUnmarked otherSearched otherLater =>
          obtain ⟨same, rest⟩ := List.cons_prefix_cons.mp extension
          subst same
          have agreed := search_agree Set.univ (fun _ _ => rfl)
            (fun _ _ _ _ _ _ => trivial) (fun _ _ => trivial) searched otherSearched
          cases agreed
          exact (List.prefix_append_right_inj _).mpr (ih otherLater rest)

theorem unique {otherOrder : List V} {otherFinal : SortedSet V}
    (batches : Batches next marked roots order final)
    (other : Batches next marked roots otherOrder otherFinal) :
    order = otherOrder ∧ final = otherFinal := by
  induction batches generalizing otherOrder with
  | done => cases other; exact ⟨rfl, rfl⟩
  | root unmarked searched later ih =>
      cases other with
      | root otherUnmarked otherSearched otherLater =>
          have agreed := search_agree Set.univ (fun _ _ => rfl)
            (fun _ _ _ _ _ _ => trivial) (fun _ _ => trivial) searched otherSearched
          cases agreed
          obtain ⟨sameOrder, sameFinal⟩ := ih otherLater
          exact ⟨by rw [sameOrder], sameFinal⟩

end Batches

section Topological

variable (next : V → Option (List V)) (rank : V → Nat) (domain : Set V)

/-- What an order adds to the marks before it: distinct unmarked items, each
after everything it expands to. -/
structure Topological (before : SortedSet V) (order : List V) (after : SortedSet V) : Prop where
  within : ∀ item ∈ order, item ∈ domain
  distinct : order.Nodup
  fresh : ∀ item ∈ order, before.contains item = false
  marks : ∀ item, after.contains item = true ↔ before.contains item = true ∨ item ∈ order
  behind : ∀ earlier item later, order = earlier ++ item :: later → ∀ found,
    next item = some found → ∀ other ∈ found, before.contains other = true ∨ other ∈ earlier

variable {next rank domain}

theorem Topological.empty (before : SortedSet V) : Topological next domain before [] before := by
  refine ⟨?_, List.nodup_nil, ?_, ?_, ?_⟩
  · intro item impossible; cases impossible
  · intro item impossible; cases impossible
  · intro item; simp
  · intro earlier item later impossible
    cases earlier <;> cases impossible

theorem Topological.append {before between after : SortedSet V} {first second : List V}
    (left : Topological next domain before first between)
    (right : Topological next domain between second after) :
    Topological next domain before (first ++ second) after := by
  refine ⟨?_, ?_, ?_, ?_, ?_⟩
  · intro item member
    exact (List.mem_append.mp member).elim (left.within item) (right.within item)
  · refine List.nodup_append.mpr ⟨left.distinct, right.distinct, ?_⟩
    intro item inFirst other inSecond same
    have marked := (left.marks item).mpr (Or.inr inFirst)
    rw [same, right.fresh other inSecond] at marked
    cases marked
  · intro item member
    rcases List.mem_append.mp member with inFirst | inSecond
    · exact left.fresh item inFirst
    · cases markedBefore : before.contains item with
      | false => rfl
      | true =>
          have marked := (left.marks item).mpr (Or.inl markedBefore)
          rw [right.fresh item inSecond] at marked
          cases marked
  · intro item
    rw [right.marks, left.marks, List.mem_append, or_assoc]
  · intro earlier item later split found expansion other isSuccessor
    rcases List.append_eq_append_iff.mp split with ⟨mid, eq, rest⟩ | ⟨mid, eq, rest⟩
    · rcases right.behind mid item later rest found expansion other isSuccessor with marked | inMid
      · rw [eq, List.mem_append]
        exact ((left.marks other).mp marked).imp_right Or.inl
      · rw [eq]
        exact Or.inr (List.mem_append_right first inMid)
    · cases mid with
      | nil =>
          rw [List.append_nil] at eq
          rcases right.behind [] item later rest.symm found expansion other isSuccessor with
            marked | impossible
          · rw [← eq]
            exact (left.marks other).mp marked
          · cases impossible
      | cons head tail =>
          cases rest
          exact left.behind earlier _ tail eq found expansion other isSuccessor

theorem Progress.topological (graded : Graded next rank domain) {before marked : SortedSet V}
    {visited : List V} (progress : Progress next rank domain before marked [] visited) :
    Topological next domain before visited.reverse marked := by
  have nothing : visited ++ [] = visited := List.append_nil visited
  refine ⟨?_, ?_, ?_, ?_, ?_⟩
  · intro item member
    exact progress.within item (nothing.symm ▸ List.mem_reverse.mp member)
  · exact List.nodup_reverse.mpr (nothing ▸ progress.distinct)
  · intro item member
    exact progress.fresh item (nothing.symm ▸ List.mem_reverse.mp member)
  · intro item
    rw [progress.marks, nothing, List.mem_reverse]
  · intro earlier item later split found expansion other isSuccessor
    have unsplit : visited = later.reverse ++ item :: earlier.reverse := by
      rw [← List.reverse_reverse visited, split]
      simp
    have itemMember : item ∈ visited := by rw [unsplit]; simp
    have marked := progress.expanded item itemMember found expansion other isSuccessor
    refine ((progress.marks other).mp marked).imp_right fun member => ?_
    rw [nothing] at member
    obtain ⟨same, sameAt, below⟩ := graded item (progress.within item (nothing.symm ▸ itemMember))
    rw [expansion] at sameAt
    have lower := (below other (Option.some.inj sameAt ▸ isSuccessor)).2
    have descending := progress.descending
    rw [nothing, unsplit] at descending
    rw [unsplit, List.mem_append, List.mem_cons] at member
    rcases member with above | same | after
    · have higher := (List.pairwise_append.mp descending).2.2 other above item List.mem_cons_self
      omega
    · rw [same] at lower
      omega
    · exact List.mem_reverse.mp after

theorem Batches.topological (graded : Graded next rank domain) {marked final : SortedSet V}
    {roots order : List V} (batches : Batches next marked roots order final)
    (rootsWithin : ∀ item ∈ roots, item ∈ domain) : Topological next domain marked order final := by
  induction batches with
  | done => exact Topological.empty _
  | root unmarked searched _ ih =>
      have started := Progress.start next rank
        (rootsWithin _ List.mem_cons_self) unmarked
      have batch := (search_progress graded started searched).topological graded
      exact batch.append (ih fun item member => rootsWithin item (List.mem_cons_of_mem _ member))

theorem Batches.rank_le (graded : Graded next rank domain) {marked final : SortedSet V}
    {roots order : List V} (batches : Batches next marked roots order final)
    (rootsWithin : ∀ item ∈ roots, item ∈ domain) :
    ∀ item ∈ order, ∃ root ∈ roots, rank item ≤ rank root := by
  induction batches with
  | done =>
      intro item impossible
      cases impossible
  | @root marked middle final top roots batch order steps unmarked searched _ ih =>
      intro item member
      rcases List.mem_append.mp member with inBatch | inOrder
      · have started := Progress.start next rank
          (rootsWithin top List.mem_cons_self) unmarked
        have finished := search_progress graded started searched
        obtain ⟨rest, startsAt⟩ := search_prefix searched
        change top :: rest = batch at startsAt
        have descending := finished.descending
        rw [List.append_nil, ← startsAt] at descending
        rw [List.mem_reverse, ← startsAt] at inBatch
        refine ⟨top, List.mem_cons_self, ?_⟩
        rcases List.mem_cons.mp inBatch with same | later
        · rw [same]
        · exact (List.pairwise_cons.mp descending).1 item later
      · obtain ⟨root, rootMember, below⟩ :=
          ih (fun item member => rootsWithin item (List.mem_cons_of_mem _ member)) item inOrder
        exact ⟨root, List.mem_cons_of_mem _ rootMember, below⟩

end Topological

/-! ### Chains -/

/-- Where every link of a chain comes after the one before it, the links that
an order holds are the first ones, in chain order. -/
theorem filter_prefix_chain {α : Type} {chain order : List α} {isLink : α → Bool}
    (chainDistinct : chain.Nodup) (distinct : order.Nodup)
    (links : ∀ item ∈ chain, isLink item = true)
    (onChain : ∀ item ∈ order, isLink item = true → item ∈ chain)
    (behind : ∀ earlier item later, order = earlier ++ item :: later → ∀ (index : Nat) previous,
      chain[index]? = some previous → chain[index + 1]? = some item → previous ∈ earlier) :
    order.filter isLink <+: chain := by
  induction order using List.reverseRecOn with
  | nil => exact List.nil_prefix
  | append_singleton order item ih =>
      obtain ⟨orderDistinct, _, apart⟩ := List.nodup_append.mp distinct
      have before := ih orderDistinct
        (fun other member => onChain other (List.mem_append_left [item] member))
        (fun earlier other later split => behind earlier other (later ++ [item]) (by rw [split]; simp))
      rw [List.filter_append]
      by_cases isItem : isLink item = true
      · rw [List.filter_cons_of_pos isItem, List.filter_nil]
        obtain ⟨index, within, itemAt⟩ :=
          List.getElem_of_mem (onChain item (List.mem_append_right order (by simp)) isItem)
        have prefixEq := List.prefix_iff_eq_take.mp before
        generalize (order.filter isLink).length = count at prefixEq
        have itemNew : item ∉ chain.take count := by
          rw [← prefixEq, List.mem_filter]
          exact fun both => apart item both.1 item (by simp) rfl
        have notEarlier : count ≤ index := by
          by_contra earlier
          exact itemNew (List.mem_take_iff_getElem.mpr ⟨index, by omega, itemAt⟩)
        have notLater : index ≤ count := by
          by_contra later
          obtain ⟨previous, previousEq⟩ : ∃ previous, index = previous + 1 :=
            ⟨index - 1, by omega⟩
          subst previousEq
          have previousAt : chain[previous]? = some chain[previous] :=
            List.getElem?_eq_getElem (by omega)
          have inOrder := behind order item [] rfl previous chain[previous] previousAt
            (by rw [List.getElem?_eq_getElem within, itemAt])
          have inTake : chain[previous] ∈ chain.take count := by
            rw [← prefixEq]
            exact List.mem_filter.mpr
              ⟨inOrder, links _ (List.getElem_mem _)⟩
          obtain ⟨position, bounded, positionAt⟩ := List.mem_take_iff_getElem.mp inTake
          have same := (List.Nodup.getElem_inj_iff chainDistinct).mp positionAt
          omega
        have sameIndex : index = count := by omega
        rw [prefixEq, ← sameIndex, ← itemAt, ← List.take_succ_eq_append_getElem within]
        exact List.take_prefix _ _
      · rw [List.filter_cons_of_neg isItem, List.filter_nil, List.append_nil]
        exact before

end BreadthFirst
