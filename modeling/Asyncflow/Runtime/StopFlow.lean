import Asyncflow.Lib.Search
import Asyncflow.Moves.Halting
import Asyncflow.Moves.NodeCalls
import Asyncflow.Runtime.Coherence
import Asyncflow.Runtime.Outcome

/-!
# Stopping a flow

`Manager::StopFlow` searches the chart of the calling node from the listed ids, along both
lists of successors, and stops what it finds. `Asyncflow.Heap.StopsFlow` says what that comes
to: the nodes that can be reached are stopped, each with the subcharts below it, and no other
node and no other chart changes.

When the calling node is among them, its result stays `rSTOP` until something else writes
it, so that `DfsExecutor::AddSubsequenceNodes` pushes nothing for it
(`Asyncflow.State.flowStopped`).
-/

namespace Asyncflow

namespace Heap

variable {h h' g : Heap} {n m : NodeRef} {c : ChartId} {args : List ℤ}

/-! ### The search -/

/-- The ids of successors in a chart are those of nodes. -/
def Chained (h : Heap) (c : ChartId) : Prop :=
  ∀ i < h.nodesCount c, ∀ j ∈ h.bothSuccessors c i, j < h.nodesCount c

/-- The node can be reached from one of the ids. -/
def Reached (h : Heap) (c : ChartId) (args : List ℤ) (i : ℕ) : Prop :=
  ∃ id ∈ args, Relation.ReflTransGen (Search.Edge (h.bothSuccessors c)) id.toNat i

instance (h : Heap) (c : ChartId) : Decidable (h.Chained c) := by
  unfold Chained
  infer_instance

theorem Reached.lt (hc : h.Chained c) (hargs : ∀ id ∈ args, 0 ≤ id ∧ id < h.nodesCount c) {i : ℕ}
    (hi : h.Reached c args i) : i < h.nodesCount c := by
  obtain ⟨id, hid, hr⟩ := hi
  induction hr with
  | refl =>
    have := hargs id hid
    omega
  | tail _ hij ih => exact hc _ ih _ hij

/-! ### The stopped part -/

end Heap

namespace State

variable {cfg : Config} {s t u v : State} {a : Act} {n : NodeRef} {args : List ℤ} {g : Heap}
  {l k : ℕ} {c : ChartId} {r : Bool} {rest : List Frame}

/-! ### The calling node -/

end State

end Asyncflow
