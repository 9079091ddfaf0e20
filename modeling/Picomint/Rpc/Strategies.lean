/-
What the two query strategies return.

A threshold of identical responses are the latest ones of that many nodes; a
threshold of filtered responses all passed the filter.
-/

import Picomint.Rpc.Fanout

namespace Picomint.Rpc

variable {P R T ε : Type} {n : NumNodes}

/-! ### Identical responses -/

def latest (answers : List (NodeId × R)) (node : NodeId) : Option R :=
  (answers.reverse.find? (fun answer => answer.1 = node)).map Prod.snd

theorem latest_concat (answers : List (NodeId × R)) (node other : NodeId) (response : R) :
    latest (answers ++ [(node, response)]) other =
      if node = other then some response else latest answers other := by
  unfold latest
  rw [List.reverse_append, List.reverse_singleton, List.singleton_append, List.find?_cons]
  by_cases same : node = other
  · rw [if_pos same]
    simp only [same, decide_true]
    rfl
  · rw [if_neg same]
    simp only [same, decide_false]

/-- A threshold of nodes gave the value last, among them enough honest ones. -/
def Backed (n : NumNodes) (answers : List (NodeId × R)) (value : R) : Prop :=
  ∃ nodes : Finset NodeId, nodes.card = n.threshold ∧
    (∀ node ∈ nodes, latest answers node = some value) ∧
    ∀ faulty : Finset NodeId, faulty.card ≤ n.maxEvil → n.oneHonest ≤ (nodes \ faulty).card

section ThresholdConsensus

variable [DecidableEq R]

def support (responses : SortedMap NodeId R) (value : R) : Nat :=
  (responses.values.filter (fun other => other = value)).length

theorem support_insert_le (responses : SortedMap NodeId R) (node : NodeId) (response value : R) :
    support (responses.insert node response) value ≤
      support responses value + if response = value then 1 else 0 := by
  have rows := (responses.rows_insert_perm node response).map Prod.snd
  have inserted := (rows.filter (fun other => other = value)).length_eq
  have erased : ((responses.erase node).rows.map Prod.snd).Sublist responses.values :=
    List.filter_sublist.map Prod.snd
  have kept := (erased.filter (fun other => other = value)).length_le
  rw [List.map_cons, List.filter_cons] at inserted
  unfold support SortedMap.values at *
  rw [inserted]
  by_cases same : response = value
  · rw [if_pos (decide_eq_true same), if_pos same, List.length_cons]
    exact Nat.add_le_add_right kept 1
  · rw [if_neg (fun equal => same (of_decide_eq_true equal)), if_neg same]
    exact kept

theorem support_nodes (responses : SortedMap NodeId R) (value : R) :
    ∃ nodes : Finset NodeId, nodes.card = support responses value ∧
      ∀ node ∈ nodes, responses.get? node = some value := by
  have sublist : ((responses.rows.filter (fun row => row.2 = value)).map Prod.fst).Sublist
      responses.keys := List.filter_sublist.map Prod.fst
  refine ⟨((responses.rows.filter (fun row => row.2 = value)).map Prod.fst).toFinset, ?_, ?_⟩
  · rw [List.toFinset_card_of_nodup (sublist.nodup responses.keys_nodup), List.length_map]
    unfold support SortedMap.values
    rw [List.filter_map, List.length_map]
    rfl
  · intro node member
    obtain ⟨row, inRows, rfl⟩ := List.mem_map.mp (List.mem_toFinset.mp member)
    obtain ⟨listed, same⟩ := List.mem_filter.mp inRows
    rw [← of_decide_eq_true same]
    exact (responses.mem_rows row.1 row.2).mp listed

structure ThresholdConsensus.Valid (n : NumNodes) (answers : List (NodeId × R))
    (state : ThresholdConsensus R) : Prop where
  threshold : state.threshold = n.threshold
  recorded : ∀ node, state.responses.get? node = latest answers node
  undecided : ∀ value, support state.responses value < n.threshold
  few : state.retry.card < n.threshold

theorem ThresholdConsensus.accounting : Accounting
    (ThresholdConsensus.process : Process (ThresholdConsensus R) R R ε) n
    (ThresholdConsensus.Valid n) ThresholdConsensus.retry (fun _ _ => False) (Backed n) where
  few := fun _ _ isValid => isValid.few
  turn := by
    intro answers state node response isValid notWaiting
    have recorded : ∀ other, (state.responses.insert node response).get? other =
        latest (answers ++ [(node, response)]) other := by
      intro other
      rw [SortedMap.get?_insert, latest_concat, isValid.recorded]
    have grown := support_insert_le state.responses node response
    unfold ThresholdConsensus.process
    dsimp only
    rw [isValid.threshold]
    split
    · rename_i reached
      apply Turn.success
      obtain ⟨nodes, card, gave⟩ := support_nodes (state.responses.insert node response) response
      have full : nodes.card = n.threshold := card.trans reached
      refine ⟨nodes, full, fun other member => (recorded other).symm.trans (gave other member), ?_⟩
      intro faulty few
      have honest := Finset.le_card_sdiff faulty nodes
      unfold NumNodes.threshold at full
      unfold NumNodes.oneHonest
      omega
    · rename_i short
      have undecided : ∀ value,
          support (state.responses.insert node response) value < n.threshold := by
        intro value
        have before := isValid.undecided value
        have step := grown value
        by_cases same : response = value
        · subst same
          rw [if_pos rfl] at step
          have different : support (state.responses.insert node response) response ≠
              n.threshold := short
          omega
        · rw [if_neg same] at step
          omega
      have positive : 0 < n.threshold := Nat.succ_pos _
      have added : (insert node state.retry).card = state.retry.card + 1 :=
        Finset.card_insert_of_notMem notWaiting
      have few := isValid.few
      split
      · exact Turn.retry ⟨rfl, recorded, undecided, positive⟩ rfl
      · rename_i below
        refine Turn.keepWaiting ⟨rfl, recorded, undecided, ?_⟩ rfl
        change (insert node state.retry).card < n.threshold
        omega

theorem ThresholdConsensus.start_valid :
    ThresholdConsensus.Valid n [] (ThresholdConsensus.new n : ThresholdConsensus R) where
  threshold := rfl
  recorded := fun _ => rfl
  undecided := fun _ => Nat.succ_pos _
  few := Nat.succ_pos _

end ThresholdConsensus

/-! ### Filtered responses -/

/-- A threshold of responses that passed the filter. -/
def Filtered (verifier : NodeId → P → Except ε T) (n : NumNodes) (answers : List (NodeId × P))
    (result : SortedMap NodeId T) : Prop :=
  result.size = n.threshold ∧ ∀ node value, result.get? node = some value →
    ∃ response, (node, response) ∈ answers ∧ verifier node response = .ok value

def Rejects (verifier : NodeId → P → Except ε T) (node : NodeId) (response : P) : Prop :=
  ∃ error, verifier node response = .error error

structure FilterMapThreshold.Valid (verifier : NodeId → P → Except ε T) (n : NumNodes)
    (answers : List (NodeId × P)) (state : FilterMapThreshold P T ε) : Prop where
  filter : state.filterMap = verifier
  threshold : state.threshold = n.threshold
  accepted : ∀ node value, state.filteredResponses.get? node = some value →
    ∃ response, (node, response) ∈ answers ∧ verifier node response = .ok value
  few : state.filteredResponses.size < n.threshold

def FilterMapThreshold.waiting (state : FilterMapThreshold P T ε) : Finset NodeId :=
  state.filteredResponses.keys.toFinset

theorem FilterMapThreshold.accounting (verifier : NodeId → P → Except ε T) : Accounting
    (FilterMapThreshold.process : Process (FilterMapThreshold P T ε) P (SortedMap NodeId T) ε) n
    (FilterMapThreshold.Valid verifier n) FilterMapThreshold.waiting (Rejects verifier)
    (Filtered verifier n) where
  few := by
    intro answers state isValid
    unfold FilterMapThreshold.waiting
    rw [List.toFinset_card_of_nodup state.filteredResponses.keys_nodup, SortedMap.keys_length]
    exact isValid.few
  turn := by
    intro answers state node response isValid notWaiting
    have earlier : ∀ other value, state.filteredResponses.get? other = some value →
        ∃ answer, (other, answer) ∈ answers ++ [(node, response)] ∧
          verifier other answer = .ok value := by
      intro other value found
      obtain ⟨answer, member, passed⟩ := isValid.accepted other value found
      exact ⟨answer, List.mem_append_left _ member, passed⟩
    unfold FilterMapThreshold.process
    dsimp only
    rw [isValid.filter]
    cases checked : verifier node response with
    | error error =>
        exact Turn.failure ⟨isValid.filter, isValid.threshold, earlier, isValid.few⟩ rfl
          ⟨error, checked⟩
    | ok value =>
        have accepted : ∀ other result,
            (state.filteredResponses.insert node value).get? other = some result →
              ∃ answer, (other, answer) ∈ answers ++ [(node, response)] ∧
                verifier other answer = .ok result := by
          intro other result found
          rw [SortedMap.get?_insert] at found
          split at found
          · rename_i same
            subst same
            cases found
            exact ⟨response, List.mem_append_right _ List.mem_cons_self, checked⟩
          · exact earlier other result found
        have absent : state.filteredResponses.get? node = none := by
          by_contra found
          obtain ⟨other, some⟩ := Option.ne_none_iff_exists'.mp found
          exact notWaiting (List.mem_toFinset.mpr ((SortedMap.mem_keys _ _).mpr ⟨other, some⟩))
        have size := state.filteredResponses.size_insert_of_none value absent
        have few := isValid.few
        dsimp only
        rw [isValid.threshold]
        split
        · rename_i reached
          exact Turn.success ⟨reached, accepted⟩
        · rename_i short
          refine Turn.keepWaiting ⟨rfl, rfl, accepted, ?_⟩ ?_
          · change (state.filteredResponses.insert node value).size < n.threshold
            omega
          · ext other
            unfold FilterMapThreshold.waiting
            rw [List.mem_toFinset, Finset.mem_insert, List.mem_toFinset, SortedMap.mem_keys_insert,
              eq_comm]

theorem FilterMapThreshold.start_valid (verifier : NodeId → P → Except ε T) :
    FilterMapThreshold.Valid verifier n [] (FilterMapThreshold.new verifier n) where
  filter := rfl
  threshold := rfl
  accepted := fun _ _ found => by cases found
  few := Nat.succ_pos _

/-! ### The queries of a client -/

/-- The queries of a client never panic, always have a request in flight that
can finish them, and return what a threshold of nodes answered. -/
theorem query_strategies_sound [DecidableEq R] (n : NumNodes) (verifier : NodeId → P → Except ε T) :
    (∀ completions (query : Query (ThresholdConsensus R) R ε),
      Query.run ThresholdConsensus.process n (ThresholdConsensus.new n) completions = some query →
        (∀ panic, query ≠ .panicked panic) ∧
        (∀ state, query = .running state → state.requests ≠ []) ∧
        ∀ value, query = .returned (.ok value) → Backed n (answersOf completions) value) ∧
      (∀ completions (query : Query (FilterMapThreshold P T ε) (SortedMap NodeId T) ε),
        Query.run FilterMapThreshold.process n (FilterMapThreshold.new verifier n) completions =
            some query →
          (∀ panic, query ≠ .panicked panic) ∧
          (∀ state, query = .running state → state.requests ≠ []) ∧
          ∀ result, query = .returned (.ok result) →
            Filtered verifier n (answersOf completions) result) ∧
      (∀ completions (query : RetryQuery (ThresholdConsensus R) R),
        RetryQuery.run (ThresholdConsensus.process : Process _ R R ε) n (ThresholdConsensus.new n)
            completions = some query →
          query ≠ .panicked ∧
          (∀ state, query = .running state → ∀ answering : Finset NodeId,
            (∀ node ∈ answering, node < n.total) → n.threshold ≤ answering.card →
              ∃ node ∈ answering, node ∈ state.requests) ∧
          ∀ value, query = .returned value → Backed n completions value) ∧
      ∀ completions (query : RetryQuery (FilterMapThreshold P T ε) (SortedMap NodeId T)),
        RetryQuery.run FilterMapThreshold.process n (FilterMapThreshold.new verifier n)
            completions = some query →
          query ≠ .panicked ∧
          (∀ state, query = .running state → ∀ answering : Finset NodeId,
            (∀ node ∈ answering, node < n.total) → n.threshold ≤ answering.card →
              (∀ node ∈ answering, ∀ response, (node, response) ∈ completions →
                ∃ value, verifier node response = .ok value) →
              ∃ node ∈ answering, node ∈ state.requests) ∧
          ∀ result, query = .returned result → Filtered verifier n completions result := by
  refine ⟨?_, ?_, ?_, ?_⟩
  · intro completions query ran
    have holds := Query.run_holds ThresholdConsensus.accounting ThresholdConsensus.start_valid rfl
      completions query ran
    refine ⟨?_, ?_, ?_⟩
    · rintro panic rfl
      exact holds
    · rintro state rfl
      exact holds.2.2
    · rintro value rfl
      exact holds
  · intro completions query ran
    have holds := Query.run_holds (FilterMapThreshold.accounting verifier)
      (FilterMapThreshold.start_valid verifier) rfl completions query ran
    refine ⟨?_, ?_, ?_⟩
    · rintro panic rfl
      exact holds
    · rintro state rfl
      exact holds.2.2
    · rintro result rfl
      exact holds
  · intro completions query ran
    have holds := RetryQuery.run_holds ThresholdConsensus.accounting
      ThresholdConsensus.start_valid rfl completions query ran
    refine ⟨?_, ?_, ?_⟩
    · rintro rfl
      exact holds
    · rintro state rfl answering inside enough
      have accounting : Accounting (ThresholdConsensus.process : Process _ R R ε) n _ _ _ _ :=
        ThresholdConsensus.accounting
      exact holds.busy accounting answering inside enough (fun _ _ _ _ rejected => rejected)
    · rintro value rfl
      exact holds
  · intro completions query ran
    have holds := RetryQuery.run_holds (FilterMapThreshold.accounting verifier)
      (FilterMapThreshold.start_valid verifier) rfl completions query ran
    refine ⟨?_, ?_, ?_⟩
    · rintro rfl
      exact holds
    · rintro state rfl answering inside enough accepted
      apply holds.busy (FilterMapThreshold.accounting verifier) answering inside enough
      rintro node member response answered ⟨error, failed⟩
      obtain ⟨value, passed⟩ := accepted node member response answered
      cases failed.symm.trans passed
    · rintro result rfl
      exact holds

/-! The first two of four nodes agree, the third one errs, the fourth agrees. -/

def sampleCompletions : List (NodeId × Except String Nat) :=
  [(0, .ok 7), (2, .error "timeout"), (1, .ok 7), (3, .ok 7)]

theorem query_strategies_sound_sample : Backed ⟨1⟩ [(0, 7), (1, 7), (3, 7)] 7 := by
  have ran : Query.run ThresholdConsensus.process ⟨1⟩ (ThresholdConsensus.new ⟨1⟩)
      sampleCompletions = some (.returned (.ok 7)) := rfl
  have accepted : NodeId → Nat → Except String Nat := fun _ response => .ok response
  exact ((query_strategies_sound ⟨1⟩ accepted).1 _ _ ran).2.2 7 rfl

end Picomint.Rpc
