/-
The query strategies of a client and the requests they are driven with.

A request is in flight until its node answers or fails, in any order.  The
assertion of a strategy and the expectation of the driver end a query in a
panic; a driver that retries forever waits instead when no request is left.
-/

import Picomint.Core.Node
import Picomint.Lib.SortedMap
import Mathlib.Data.Finset.Sort

namespace Picomint.Rpc

inductive QueryStep (R ε : Type) where
  | retry (nodes : Finset NodeId)
  | keepWaiting
  | success (response : R)
  | failure (error : ε)

/-- A strategy: its state after a node's response, and what to do next.  None
is a panic. -/
abbrev Process (S P R ε : Type) := S → NodeId → P → Option (QueryStep R ε × S)

/-! ### The strategies -/

structure FilterMapThreshold (P T ε : Type) where
  filterMap : NodeId → P → Except ε T
  filteredResponses : SortedMap NodeId T
  threshold : Nat

def FilterMapThreshold.new {P T ε : Type} (verifier : NodeId → P → Except ε T) (n : NumNodes) :
    FilterMapThreshold P T ε where
  filterMap := verifier
  filteredResponses := SortedMap.empty
  threshold := n.threshold

def FilterMapThreshold.process {P T ε : Type} :
    Process (FilterMapThreshold P T ε) P (SortedMap NodeId T) ε :=
  fun state node response =>
    match state.filterMap node response with
    | .ok response =>
        let filteredResponses := state.filteredResponses.insert node response
        if filteredResponses.size = state.threshold then
          some (.success filteredResponses, { state with filteredResponses := SortedMap.empty })
        else some (.keepWaiting, { state with filteredResponses })
    | .error error => some (.failure error, state)

structure ThresholdConsensus (R : Type) where
  responses : SortedMap NodeId R
  retry : Finset NodeId
  threshold : Nat

def ThresholdConsensus.new {R : Type} (n : NumNodes) : ThresholdConsensus R where
  responses := SortedMap.empty
  retry := ∅
  threshold := n.threshold

def ThresholdConsensus.process {R ε : Type} [DecidableEq R] :
    Process (ThresholdConsensus R) R R ε :=
  fun state node response =>
    let responses := state.responses.insert node response
    if (responses.values.filter (fun other => other = response)).length = state.threshold then
      some (.success response, { state with responses })
    else if node ∈ state.retry then none
    else
      let retry := insert node state.retry
      if retry.card = state.threshold then
        some (.retry retry, { state with responses, retry := ∅ })
      else some (.keepWaiting, { state with responses, retry })

/-! ### A query that errors can end -/

structure Requests (S ε : Type) where
  strategy : S
  requests : List NodeId
  nodeErrors : SortedMap NodeId ε

inductive QueryPanic where
  | strategyAssert
  | outOfNodes
deriving DecidableEq, Repr

inductive Query (S R ε : Type) where
  | running (state : Requests S ε)
  | returned (result : Except (SortedMap NodeId ε) R)
  | panicked (panic : QueryPanic)

section Driver

variable {S P R ε : Type}

def awaitNext (state : Requests S ε) : Query S R ε :=
  if state.requests = [] then .panicked .outOfNodes else .running state

/-- The bottom of the loop, where the errors are counted. -/
def checkErrors (n : NumNodes) (state : Requests S ε) : Query S R ε :=
  if state.nodeErrors.size = n.oneHonest then .returned (.error state.nodeErrors)
  else awaitNext state

def requestWithStrategy (n : NumNodes) (strategy : S) : Query S R ε :=
  awaitNext { strategy, requests := n.nodeIds, nodeErrors := SortedMap.empty }

def completeRequest (process : Process S P R ε) (n : NumNodes) (state : Requests S ε)
    (node : NodeId) (result : Except ε P) : Query S R ε :=
  let state := { state with requests := state.requests.erase node }
  match result with
  | .ok response =>
      match process state.strategy node response with
      | none => .panicked .strategyAssert
      | some (.retry nodes, strategy) =>
          checkErrors n
            { state with strategy, requests := state.requests ++ nodes.sort (· ≤ ·) }
      | some (.success response, _) => .returned (.ok response)
      | some (.failure error, strategy) =>
          checkErrors n
            { state with strategy, nodeErrors := state.nodeErrors.insert node error }
      | some (.keepWaiting, strategy) => checkErrors n { state with strategy }
  | .error error =>
      checkErrors n { state with nodeErrors := state.nodeErrors.insert node error }

/-- Only a request in flight completes, and only before the query is over. -/
def Query.step (process : Process S P R ε) (n : NumNodes) (query : Query S R ε)
    (completion : NodeId × Except ε P) : Option (Query S R ε) :=
  match query with
  | .running state =>
      if completion.1 ∈ state.requests then
        some (completeRequest process n state completion.1 completion.2)
      else none
  | .returned _ => none
  | .panicked _ => none

def Query.run (process : Process S P R ε) (n : NumNodes) (strategy : S)
    (completions : List (NodeId × Except ε P)) : Option (Query S R ε) :=
  completions.foldlM (Query.step process n) (requestWithStrategy n strategy)

/-! ### A query that never gives up -/

structure RetryRequests (S : Type) where
  strategy : S
  requests : List NodeId

inductive RetryQuery (S R : Type) where
  | running (state : RetryRequests S)
  | returned (response : R)
  | panicked

def requestWithStrategyRetry (n : NumNodes) (strategy : S) : RetryQuery S R :=
  .running { strategy, requests := n.nodeIds }

def completeRetryRequest (process : Process S P R ε) (state : RetryRequests S) (node : NodeId)
    (response : P) : RetryQuery S R :=
  let state := { state with requests := state.requests.erase node }
  match process state.strategy node response with
  | none => .panicked
  | some (.retry nodes, strategy) =>
      .running { strategy, requests := state.requests ++ nodes.sort (· ≤ ·) }
  | some (.success response, _) => .returned response
  | some (.failure _, strategy) => .running { state with strategy }
  | some (.keepWaiting, strategy) => .running { state with strategy }

def RetryQuery.step (process : Process S P R ε) (query : RetryQuery S R)
    (completion : NodeId × P) : Option (RetryQuery S R) :=
  match query with
  | .running state =>
      if completion.1 ∈ state.requests then
        some (completeRetryRequest process state completion.1 completion.2)
      else none
  | .returned _ => none
  | .panicked => none

def RetryQuery.run (process : Process S P R ε) (n : NumNodes) (strategy : S)
    (completions : List (NodeId × P)) : Option (RetryQuery S R) :=
  completions.foldlM (RetryQuery.step process) (requestWithStrategyRetry n strategy)

end Driver

end Picomint.Rpc
