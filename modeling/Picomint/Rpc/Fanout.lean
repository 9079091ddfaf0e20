/-
The requests of a query are never lost.

Every node is in flight, or waited for by the strategy, or gone with an error
or a rejected answer.  The strategies wait for less than a threshold of nodes,
so some request stays in flight until the query returns.
-/

import Picomint.Rpc.Query

namespace Picomint.Rpc

variable {S P R ε : Type}

/-! ### What a strategy accounts for -/

inductive Turn (valid : List (NodeId × P) → S → Prop) (waiting : S → Finset NodeId)
    (rejects : NodeId → P → Prop) (sound : List (NodeId × P) → R → Prop)
    (answers : List (NodeId × P)) (state : S) (node : NodeId) (response : P) :
    Option (QueryStep R ε × S) → Prop where
  | retry {next : S} (isValid : valid (answers ++ [(node, response)]) next)
      (none : waiting next = ∅) :
      Turn valid waiting rejects sound answers state node response
        (some (.retry (insert node (waiting state)), next))
  | keepWaiting {next : S} (isValid : valid (answers ++ [(node, response)]) next)
      (added : waiting next = insert node (waiting state)) :
      Turn valid waiting rejects sound answers state node response (some (.keepWaiting, next))
  | success {result : R} {next : S} (isSound : sound (answers ++ [(node, response)]) result) :
      Turn valid waiting rejects sound answers state node response (some (.success result, next))
  | failure {error : ε} {next : S} (isValid : valid (answers ++ [(node, response)]) next)
      (same : waiting next = waiting state) (rejected : rejects node response) :
      Turn valid waiting rejects sound answers state node response (some (.failure error, next))

/-- A strategy waits for less than a threshold of nodes. -/
structure Accounting (process : Process S P R ε) (n : NumNodes)
    (valid : List (NodeId × P) → S → Prop) (waiting : S → Finset NodeId)
    (rejects : NodeId → P → Prop) (sound : List (NodeId × P) → R → Prop) : Prop where
  few : ∀ answers state, valid answers state → (waiting state).card < n.threshold
  turn : ∀ answers state node response, valid answers state → node ∉ waiting state →
    Turn valid waiting rejects sound answers state node response (process state node response)

/-! ### Where the nodes are -/

/-- Every node is in exactly one place. -/
structure InFlight (n : NumNodes) (valid : List (NodeId × P) → S → Prop)
    (waiting : S → Finset NodeId) (answers : List (NodeId × P)) (strategy : S)
    (requests : List NodeId) (gone : Finset NodeId) : Prop where
  isValid : valid answers strategy
  place : ∀ node, requests.count node + (if node ∈ waiting strategy then 1 else 0) +
    (if node ∈ gone then 1 else 0) = if node < n.total then 1 else 0

variable {n : NumNodes} {valid : List (NodeId × P) → S → Prop} {waiting : S → Finset NodeId}
  {rejects : NodeId → P → Prop} {sound : List (NodeId × P) → R → Prop}
  {answers : List (NodeId × P)} {strategy : S} {requests : List NodeId} {gone : Finset NodeId}

theorem InFlight.start (isValid : valid [] strategy) (none : waiting strategy = ∅) :
    InFlight n valid waiting [] strategy n.nodeIds ∅ where
  isValid := isValid
  place := by
    intro node
    have once : n.nodeIds.count node = if node < n.total then 1 else 0 := by
      unfold NumNodes.nodeIds
      rw [List.nodup_range.count]
      simp only [List.mem_range]
    rw [once, none]
    simp only [Finset.notMem_empty, if_false, Nat.add_zero]

theorem InFlight.inRequests (inFlight : InFlight n valid waiting answers strategy requests gone)
    {node : NodeId} (member : node ∈ requests) :
    requests.count node = 1 ∧ node ∉ waiting strategy ∧ node ∉ gone ∧ node < n.total := by
  have counted := List.count_pos_iff.mpr member
  have place := inFlight.place node
  have inside : node < n.total := by
    by_contra outside
    rw [if_neg outside] at place
    omega
  rw [if_pos inside] at place
  refine ⟨by omega, ?_, ?_, inside⟩
  · intro isWaiting
    rw [if_pos isWaiting] at place
    omega
  · intro isGone
    rw [if_pos isGone] at place
    omega

theorem InFlight.card_le (inFlight : InFlight n valid waiting answers strategy requests gone)
    (nodes : Finset NodeId) (inside : ∀ node ∈ nodes, node < n.total)
    (idle : ∀ node ∈ nodes, node ∉ requests) :
    nodes.card ≤ (waiting strategy).card + (nodes ∩ gone).card := by
  have covered : nodes ⊆ waiting strategy ∪ nodes ∩ gone := by
    intro node member
    have place := inFlight.place node
    rw [List.count_eq_zero.mpr (idle node member), if_pos (inside node member)] at place
    by_cases isWaiting : node ∈ waiting strategy
    · exact Finset.mem_union_left _ isWaiting
    · rw [if_neg isWaiting] at place
      have isGone : node ∈ gone := by
        by_contra notGone
        rw [if_neg notGone] at place
        cases place
      exact Finset.mem_union_right _ (Finset.mem_inter.mpr ⟨member, isGone⟩)
  exact (Finset.card_le_card covered).trans (Finset.card_union_le _ _)

/-- What the answer of a node in flight does to the places. -/
inductive Turned (n : NumNodes) (valid : List (NodeId × P) → S → Prop)
    (waiting : S → Finset NodeId) (rejects : NodeId → P → Prop)
    (sound : List (NodeId × P) → R → Prop) (answers : List (NodeId × P)) (requests : List NodeId)
    (gone : Finset NodeId) (node : NodeId) (response : P) :
    Option (QueryStep R ε × S) → Prop where
  | retry {nodes : Finset NodeId} {next : S}
      (inFlight : InFlight n valid waiting (answers ++ [(node, response)]) next
        (requests.erase node ++ nodes.sort (· ≤ ·)) gone) :
      Turned n valid waiting rejects sound answers requests gone node response
        (some (.retry nodes, next))
  | keepWaiting {next : S}
      (inFlight : InFlight n valid waiting (answers ++ [(node, response)]) next
        (requests.erase node) gone) :
      Turned n valid waiting rejects sound answers requests gone node response
        (some (.keepWaiting, next))
  | success {result : R} {next : S} (isSound : sound (answers ++ [(node, response)]) result) :
      Turned n valid waiting rejects sound answers requests gone node response
        (some (.success result, next))
  | failure {error : ε} {next : S}
      (inFlight : InFlight n valid waiting (answers ++ [(node, response)]) next
        (requests.erase node) (insert node gone))
      (rejected : rejects node response) :
      Turned n valid waiting rejects sound answers requests gone node response
        (some (.failure error, next))

theorem count_sort (nodes : Finset NodeId) (node : NodeId) :
    (nodes.sort (· ≤ ·)).count node = if node ∈ nodes then 1 else 0 := by
  rw [(nodes.sort_nodup (· ≤ ·)).count]
  simp only [Finset.mem_sort]

/-- The node of the finished request goes to another place. -/
theorem InFlight.moved (inFlight : InFlight n valid waiting answers strategy requests gone)
    (added : List NodeId) (goneNow : Finset NodeId) {node : NodeId} (member : node ∈ requests)
    {next : S} {answersNow : List (NodeId × P)} (isValid : valid answersNow next)
    (there : added.count node + (if node ∈ waiting next then 1 else 0) +
      (if node ∈ goneNow then 1 else 0) = 1)
    (others : ∀ other, other ≠ node →
      added.count other + (if other ∈ waiting next then 1 else 0) +
        (if other ∈ goneNow then 1 else 0) =
      (if other ∈ waiting strategy then 1 else 0) + (if other ∈ gone then 1 else 0)) :
    InFlight n valid waiting answersNow next (requests.erase node ++ added) goneNow where
  isValid := isValid
  place := by
    obtain ⟨once, _, _, inside⟩ := inFlight.inRequests member
    intro other
    rw [List.count_append]
    by_cases same : other = node
    · subst same
      rw [List.count_erase_self, once, if_pos inside]
      omega
    · have place := inFlight.place other
      have rest := others other same
      rw [List.count_erase_of_ne same]
      omega

theorem InFlight.turned {process : Process S P R ε}
    (accounting : Accounting process n valid waiting rejects sound)
    (inFlight : InFlight n valid waiting answers strategy requests gone) {node : NodeId}
    (member : node ∈ requests) (response : P) :
    Turned n valid waiting rejects sound answers requests gone node response
      (process strategy node response) := by
  obtain ⟨_, notWaiting, notGone, _⟩ := inFlight.inRequests member
  have turn := accounting.turn answers strategy node response inFlight.isValid notWaiting
  generalize process strategy node response = outcome at turn
  cases turn with
  | retry isValid none =>
      refine .retry (inFlight.moved _ gone member isValid ?_ ?_)
      · rw [count_sort, none, if_pos (Finset.mem_insert_self _ _),
          if_neg (Finset.notMem_empty _), if_neg notGone]
      · intro other different
        rw [count_sort, none, if_neg (Finset.notMem_empty _)]
        simp only [Finset.mem_insert, different, false_or, Nat.add_zero]
  | keepWaiting isValid added =>
      have moved := inFlight.moved [] gone member isValid
      rw [List.append_nil] at moved
      refine .keepWaiting (moved ?_ ?_)
      · rw [added, if_pos (Finset.mem_insert_self _ _), if_neg notGone]
        rfl
      · intro other different
        rw [added]
        simp only [Finset.mem_insert, different, false_or, List.count_nil, Nat.zero_add]
  | success isSound => exact .success isSound
  | failure isValid same rejected =>
      have moved := inFlight.moved [] (insert node gone) member isValid
      rw [List.append_nil] at moved
      refine .failure (moved ?_ ?_) rejected
      · rw [same, if_pos (Finset.mem_insert_self _ _), if_neg notWaiting]
        rfl
      · intro other different
        rw [same]
        simp only [Finset.mem_insert, different, false_or, List.count_nil, Nat.zero_add]

/-! ### Runs -/

/-- The responses among the completions, oldest first. -/
def answersOf (completions : List (NodeId × Except ε P)) : List (NodeId × P) :=
  completions.filterMap (fun completion =>
    match completion.2 with
    | .ok response => some (completion.1, response)
    | .error _ => none)

theorem answersOf_concat (completions : List (NodeId × Except ε P)) (node : NodeId)
    (result : Except ε P) :
    answersOf (completions ++ [(node, result)]) =
      match result with
      | .ok response => answersOf completions ++ [(node, response)]
      | .error _ => answersOf completions := by
  unfold answersOf
  rw [List.filterMap_append]
  cases result with
  | ok response => rfl
  | error error => exact List.append_nil _

def errored (state : Requests S ε) : Finset NodeId := state.nodeErrors.keys.toFinset

theorem errored_card (state : Requests S ε) : (errored state).card = state.nodeErrors.size := by
  unfold errored
  rw [List.toFinset_card_of_nodup state.nodeErrors.keys_nodup, SortedMap.keys_length]

def QueryHolds (n : NumNodes) (valid : List (NodeId × P) → S → Prop) (waiting : S → Finset NodeId)
    (sound : List (NodeId × P) → R → Prop) (answers : List (NodeId × P)) : Query S R ε → Prop
  | .running state =>
      InFlight n valid waiting answers state.strategy state.requests (errored state) ∧
        state.nodeErrors.size < n.oneHonest ∧ state.requests ≠ []
  | .returned (.ok result) => sound answers result
  | .returned (.error errors) => errors.size = n.oneHonest
  | .panicked _ => False

/-- A node that errs was in flight, so it counts once. -/
theorem errors_insert {state : Requests S ε}
    (inFlight : InFlight n valid waiting answers state.strategy state.requests (errored state))
    {node : NodeId} (member : node ∈ state.requests) (error : ε) :
    (state.nodeErrors.insert node error).keys.toFinset = insert node (errored state) ∧
      (state.nodeErrors.insert node error).size = state.nodeErrors.size + 1 := by
  obtain ⟨_, _, notGone, _⟩ := inFlight.inRequests member
  constructor
  · ext other
    unfold errored
    rw [List.mem_toFinset, Finset.mem_insert, List.mem_toFinset, SortedMap.mem_keys_insert,
      eq_comm]
  · apply SortedMap.size_insert_of_none
    by_contra found
    obtain ⟨value, some⟩ := Option.ne_none_iff_exists'.mp found
    exact notGone (List.mem_toFinset.mpr ((SortedMap.mem_keys _ _).mpr ⟨value, some⟩))

section Query

variable {process : Process S P R ε}
  (accounting : Accounting process n valid waiting rejects sound)

include accounting

theorem checkErrors_holds (state : Requests S ε)
    (inFlight : InFlight n valid waiting answers state.strategy state.requests (errored state))
    (few : state.nodeErrors.size ≤ n.oneHonest) :
    QueryHolds n valid waiting sound answers (checkErrors n state : Query S R ε) := by
  unfold checkErrors
  split
  · rename_i full
    exact full
  · rename_i below
    have less : state.nodeErrors.size < n.oneHonest := lt_of_le_of_ne few below
    have busy : state.requests ≠ [] := by
      intro idle
      have total := inFlight.card_le (Finset.range n.total)
        (fun node member => Finset.mem_range.mp member)
        (fun node _ => by rw [idle]; exact List.not_mem_nil)
      have waited := accounting.few answers state.strategy inFlight.isValid
      have gone := Finset.card_le_card
        (Finset.inter_subset_right : Finset.range n.total ∩ errored state ⊆ errored state)
      rw [errored_card] at gone
      rw [Finset.card_range] at total
      unfold NumNodes.total NumNodes.threshold NumNodes.oneHonest at *
      omega
    unfold awaitNext
    rw [if_neg busy]
    exact ⟨inFlight, less, busy⟩

theorem requestWithStrategy_holds (isValid : valid [] strategy) (none : waiting strategy = ∅) :
    QueryHolds n valid waiting sound [] (requestWithStrategy n strategy : Query S R ε) := by
  have start : InFlight n valid waiting [] strategy n.nodeIds ∅ := .start isValid none
  have holds := checkErrors_holds accounting
    { strategy, requests := n.nodeIds, nodeErrors := SortedMap.empty } start (Nat.zero_le _)
  unfold checkErrors at holds
  rwa [if_neg (by exact Nat.succ_ne_zero n.maxEvil ∘ Eq.symm)] at holds

theorem completeRequest_holds {completions : List (NodeId × Except ε P)} {state : Requests S ε}
    (inFlight : InFlight n valid waiting (answersOf completions) state.strategy state.requests
      (errored state)) (few : state.nodeErrors.size < n.oneHonest) {node : NodeId}
    (member : node ∈ state.requests) (result : Except ε P) :
    QueryHolds n valid waiting sound (answersOf (completions ++ [(node, result)]))
      (completeRequest process n state node result) := by
  rw [answersOf_concat]
  unfold completeRequest
  cases result with
  | error error =>
      obtain ⟨keys, size⟩ := errors_insert inFlight member error
      apply checkErrors_holds accounting
      · have moved := inFlight.moved [] (insert node (errored state)) member inFlight.isValid
        rw [List.append_nil] at moved
        unfold errored
        rw [keys]
        obtain ⟨_, notWaiting, notGone, _⟩ := inFlight.inRequests member
        apply moved
        · rw [if_neg notWaiting, if_pos (Finset.mem_insert_self _ _)]
          rfl
        · intro other different
          simp only [Finset.mem_insert, different, false_or, List.count_nil, Nat.zero_add]
      · change (state.nodeErrors.insert node error).size ≤ n.oneHonest
        rw [size]
        exact few
  | ok response =>
      have turned := inFlight.turned accounting member response
      dsimp only
      generalize process state.strategy node response = outcome at turned
      cases turned with
      | retry inFlight => exact checkErrors_holds accounting _ inFlight few.le
      | keepWaiting inFlight => exact checkErrors_holds accounting _ inFlight few.le
      | success isSound => exact isSound
      | failure moved rejected =>
          rename_i error next
          obtain ⟨keys, size⟩ := errors_insert inFlight member error
          apply checkErrors_holds accounting
          · unfold errored
            rw [keys]
            exact moved
          · change (state.nodeErrors.insert node error).size ≤ n.oneHonest
            rw [size]
            exact few

/-- A query never panics, and what it returns is sound. -/
theorem Query.run_holds (isValid : valid [] strategy) (none : waiting strategy = ∅)
    (completions : List (NodeId × Except ε P)) : ∀ query : Query S R ε,
      Query.run process n strategy completions = some query →
        QueryHolds n valid waiting sound (answersOf completions) query := by
  induction completions using List.reverseRecOn with
  | nil =>
      intro query ran
      cases ran
      exact requestWithStrategy_holds accounting isValid none
  | append_singleton completions completion inductionHypothesis =>
      intro query ran
      obtain ⟨node, result⟩ := completion
      unfold Query.run at ran
      rw [List.foldlM_append, Option.bind_eq_bind, Option.bind_eq_some_iff] at ran
      obtain ⟨middle, before, last⟩ := ran
      simp only [List.foldlM_cons, List.foldlM_nil, bind_pure] at last
      have holds := inductionHypothesis middle before
      unfold Query.step at last
      split at last
      · rename_i state
        obtain ⟨inFlight, few, _⟩ := holds
        split at last
        · rename_i member
          cases last
          exact completeRequest_holds accounting inFlight few member result
        · cases last
      · cases last
      · cases last

end Query

/-! ### Runs of a query that never gives up -/

def RetryHolds (n : NumNodes) (valid : List (NodeId × P) → S → Prop) (waiting : S → Finset NodeId)
    (rejects : NodeId → P → Prop) (sound : List (NodeId × P) → R → Prop)
    (answers : List (NodeId × P)) : RetryQuery S R → Prop
  | .running state => ∃ gone,
      InFlight n valid waiting answers state.strategy state.requests gone ∧
        ∀ node ∈ gone, ∃ response, (node, response) ∈ answers ∧ rejects node response
  | .returned result => sound answers result
  | .panicked => False

section RetryQuery

variable {process : Process S P R ε}
  (accounting : Accounting process n valid waiting rejects sound)

include accounting

theorem completeRetryRequest_holds {state : RetryRequests S}
    (inFlight : InFlight n valid waiting answers state.strategy state.requests gone)
    (rejected : ∀ node ∈ gone, ∃ response, (node, response) ∈ answers ∧ rejects node response)
    {node : NodeId} (member : node ∈ state.requests) (response : P) :
    RetryHolds n valid waiting rejects sound (answers ++ [(node, response)])
      (completeRetryRequest process state node response) := by
  have kept : ∀ other ∈ gone, ∃ answer, (other, answer) ∈ answers ++ [(node, response)] ∧
      rejects other answer := by
    intro other isGone
    obtain ⟨answer, answered, bad⟩ := rejected other isGone
    exact ⟨answer, List.mem_append_left _ answered, bad⟩
  have turned := inFlight.turned accounting member response
  unfold completeRetryRequest
  dsimp only
  generalize process state.strategy node response = outcome at turned
  cases turned with
  | retry inFlight => exact ⟨gone, inFlight, kept⟩
  | keepWaiting inFlight => exact ⟨gone, inFlight, kept⟩
  | success isSound => exact isSound
  | failure moved bad =>
      refine ⟨insert node gone, moved, ?_⟩
      intro other isGone
      rcases Finset.mem_insert.mp isGone with rfl | before
      · exact ⟨response, List.mem_append_right _ List.mem_cons_self, bad⟩
      · exact kept other before

/-- A retrying query never panics, and what it returns is sound. -/
theorem RetryQuery.run_holds (isValid : valid [] strategy) (none : waiting strategy = ∅)
    (completions : List (NodeId × P)) : ∀ query : RetryQuery S R,
      RetryQuery.run process n strategy completions = some query →
        RetryHolds n valid waiting rejects sound completions query := by
  induction completions using List.reverseRecOn with
  | nil =>
      intro query ran
      cases ran
      exact ⟨∅, .start isValid none, fun node isGone => absurd isGone (Finset.notMem_empty node)⟩
  | append_singleton completions completion inductionHypothesis =>
      intro query ran
      obtain ⟨node, response⟩ := completion
      unfold RetryQuery.run at ran
      rw [List.foldlM_append, Option.bind_eq_bind, Option.bind_eq_some_iff] at ran
      obtain ⟨middle, before, last⟩ := ran
      simp only [List.foldlM_cons, List.foldlM_nil, bind_pure] at last
      have holds := inductionHypothesis middle before
      unfold RetryQuery.step at last
      split at last
      · rename_i state
        obtain ⟨gone, inFlight, rejected⟩ := holds
        split at last
        · rename_i member
          cases last
          exact completeRetryRequest_holds accounting inFlight rejected member response
        · cases last
      · cases last
      · cases last

theorem RetryHolds.busy {state : RetryRequests S}
    (holds : RetryHolds n valid waiting rejects sound answers (.running state : RetryQuery S R))
    (nodes : Finset NodeId) (inside : ∀ node ∈ nodes, node < n.total)
    (enough : n.threshold ≤ nodes.card)
    (fine : ∀ node ∈ nodes, ∀ response, (node, response) ∈ answers → ¬rejects node response) :
    ∃ node ∈ nodes, node ∈ state.requests := by
  obtain ⟨gone, inFlight, rejected⟩ := holds
  by_contra idle
  push Not at idle
  have covered := inFlight.card_le nodes inside idle
  have waited := accounting.few answers state.strategy inFlight.isValid
  have apart : nodes ∩ gone = ∅ := by
    refine Finset.eq_empty_of_forall_notMem ?_
    intro node member
    obtain ⟨isNode, isGone⟩ := Finset.mem_inter.mp member
    obtain ⟨response, answered, bad⟩ := rejected node isGone
    exact fine node isNode response answered bad
  rw [apart, Finset.card_empty] at covered
  omega

end RetryQuery

end Picomint.Rpc
