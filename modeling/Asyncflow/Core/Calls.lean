import Asyncflow.Core.Objects
import Mathlib.Algebra.GroupWithZero.Nat

/-!
# The calls of a node function that run no flow

`Asyncflow.Heap.waitEvent` is `Agent::WaitEvent`. The other calls are those of
`Manager` under its comment “inside node function” that only change the heap:
`wait`, `waitAll`, `stopNode`, `stopFlow`, `managerWaitEvent`,
`createAsyncContext`, `continueAsyncNode` and `cancelAsyncNode`. They act on the
current node of the current executor, and the last two on the node of a context.
-/

namespace Asyncflow

/-- The parts of the configuration that running a chart reads. -/
structure Config where
  /-- `EventManager::GetEventCount`. -/
  eventCount : ℕ := 3
  /-- `AsyncEventBase::START_EVENT`. -/
  startEvent : EventId := 1
  /-- `AsyncEventBase::TICK_EVENT`. -/
  tickEvent : EventId := 2
  /-- `defer_event_`. -/
  deferEvent : Bool := true
deriving DecidableEq, Repr

/-- The event table has an entry for the id. -/
def Config.validEvent (cfg : Config) (e : EventId) : Bool := 0 ≤ e && e < cfg.eventCount

/-- The ids of the event table. -/
def Config.events (cfg : Config) : List EventId := (List.range cfg.eventCount).map fun e => (e : ℤ)

/-- The value returned by `CreateAsyncContext`: the address of the node, where another node may
be later (`Asyncflow.Heap.tenant`). The number of the call is kept beside it and never read by the
code. -/
structure Context where
  /-- The node that was suspended. -/
  node : NodeRef
  /-- Which `CreateAsyncContext` call returned it (history only). -/
  call : ℕ
deriving DecidableEq, Repr

namespace Heap

variable (cfg : Config) (h : Heap)

/-- `Agent::WaitEvent`. The node is written, so that it has to be there. -/
def waitEvent (a : AgentId) (n : NodeRef) (e : EventId) : Heap :=
  if cfg.validEvent e then
    if (h.charts n.chart).isSome then
      ((h.push (.waiting a e) n).setNode n ({ · with status := .running })).note (.wait n a e)
    else h.crash
  else h

/-- `Manager::Wait`: (re)schedules the timer of the current node. -/
def wait : Heap :=
  match h.currentNode with
  | none => h
  | some n => (h.deleteAttacher n).act n Node.wait (.timer n)

/-- `Manager::WaitAll`, and its result. The attacher is used as a `NodeWaitAll`
whatever it is. -/
def waitAll (args : List ℤ) : Bool × Heap :=
  match h.currentNode with
  | none => (false, h.crash)
  | some n =>
    match (h.nodes n).attacher with
    | some (.timer _) => (false, h.crash)
    | some (.subchart _) => (false, h.crash)
    | _ =>
      let fires := (h.nodes n).waitAllFires args
      (fires, h.act n (Node.waitAll args) (.arrive n (h.nodes n).preNodeId fires))

/-- One round of the loop of `Manager::StopNode`, with the chart of the current
node. -/
def stopNodeId (c : ChartId) (id : ℤ) : Heap :=
  if id ≥ h.nodesCount c then h
  else if id < 0 then h.crash
  else
    let h := h.stop ⟨c, id.toNat⟩
    h.remove (.executor h.currentIndex) ⟨c, id.toNat⟩

/-- `Manager::StopNode`. -/
def stopNodes (args : List ℤ) : Bool × Heap :=
  match h.currentNode with
  | none => (false, h.crash)
  | some n => (true, args.foldl (fun h id => h.stopNodeId n.chart id) h)

/-- The inner loop of `Manager::StopFlow`: a breadth-first search over both lists
of successors. A round either drops a known id or adds a new one; `fuel` rounds
are enough when it is the number of edges and ids the search can see. -/
def reachIds (succs : ℕ → List ℕ) : ℕ → List ℕ → List ℕ → List ℕ
  | 0, _, found => found
  | _, [], found => found
  | fuel + 1, x :: queue, found =>
    if x ∈ found then reachIds succs fuel queue found
    else reachIds succs fuel (queue ++ succs x) (x :: found)

/-- Both lists of successors of a node of a chart. -/
def bothSuccessors (c : ChartId) (i : ℕ) : List ℕ :=
  (h.nodeData ⟨c, i⟩).success ++ (h.nodeData ⟨c, i⟩).failure

/-- Enough rounds for a search from one id: every node is expanded once. -/
def reachFuel (c : ChartId) : ℕ :=
  ((List.range (h.nodesCount c)).map fun i => (h.bothSuccessors c i).length).sum + 1

/-- The ids `Manager::StopFlow` collects in its set. -/
def stopIds (c : ChartId) (args : List ℤ) : List ℕ :=
  args.foldl (fun found (id : ℤ) =>
    if 0 ≤ id ∧ id < h.nodesCount c then
      reachIds (h.bothSuccessors c) (h.reachFuel c) [id.toNat] found
    else found) []

/-- `Manager::StopFlow`. Negative ids and successor ids out of range are out of
bounds of the node list. -/
def stopFlow (args : List ℤ) : Bool × Heap :=
  match h.currentNode with
  | none => (false, h.crash)
  | some n =>
    let ids := h.stopIds n.chart args
    if args.any (· < 0) || ids.any (h.nodesCount n.chart ≤ ·) then (false, h.crash)
    else (true, ids.foldl (fun h (i : ℕ) => h.stopNodeId n.chart i) h)

/-- `Manager::WaitEvent`. -/
def managerWaitEvent (a : AgentId) (e : EventId) : Bool × Heap :=
  match h.currentNode with
  | none => (false, h)
  | some n =>
    if (h.nodeData n).isEvent then
      (true, (h.act n ({ · with status := .running, skip := true, result := .rTrue })
        (.await n)).waitEvent cfg a n e)
    else (false, h)

/-! ### The async manager -/

/-- `AsyncManager::AddNode`. -/
def addNode (n : NodeRef) : Heap :=
  let h := h.push .asyncWaiting n
  { h with nodesSet := if n ∈ h.nodesSet then h.nodesSet else n :: h.nodesSet }

/-- `AsyncManager::IsNodeWaiting`. -/
def isNodeWaiting (n : NodeRef) : Bool := n ∈ h.nodesSet

/-- `AsyncManager::RemoveNode`. -/
def removeNode (n : NodeRef) : Heap :=
  let h := h.remove .asyncWaiting n
  { h with nodesSet := h.nodesSet.filter (· ≠ n) }

/-- `AsyncManager::ActivateNode`. -/
def activateNode (n : NodeRef) (skip : Bool) : Heap :=
  if (h.nodes n).container = some .activated then h
  else (h.push .activated n).setNode n ({ · with skip := skip })

/-- `Manager::CreateAsyncContext` of a node. -/
def suspendNode (n : NodeRef) : Heap :=
  { ((h.setNode n ({ · with status := .running })).addNode n).note (.suspend n h.nextContext) with
    nextContext := h.nextContext + 1 }

/-- `Manager::CreateAsyncContext`. The node is written, so that it has to be there. -/
def createAsyncContext : Heap :=
  match h.currentNode with
  | none => h
  | some n => if (h.charts n.chart).isSome then h.suspendNode n else h.crash

/-- `PyManager::ContinueAsyncNode` of a waiting node. -/
def continueNode (n : NodeRef) (b : Bool) : Heap :=
  ((h.removeNode n).activateNode n true).act n ({ · with result := .ofBool b }) (.continued n b)

/-- The node at the address that a context is. -/
def nodeAt (ctx : Context) : NodeRef := h.tenant ctx.node

/-- `PyManager::ContinueAsyncNode`: `Manager::ContinueAsyncNode`, and on success
the result of the node. The container of a node in freed memory cannot be read. -/
def continueAsyncNode (ctx : Context) (b : Bool) : Bool × Heap :=
  let n := h.nodeAt ctx
  if h.isNodeWaiting n then
    (true, if (h.charts n.chart).isSome then h.continueNode n b else h.crash)
  else (false, h)

/-- `Manager::CancelAsyncNode` of a waiting node. -/
def cancelNode (n : NodeRef) (stop : Bool) : Heap :=
  if stop then (h.removeNode n).note (.cancelled n stop)
  else ((h.removeNode n).activateNode n true).act n ({ · with result := .rFalse })
    (.cancelled n stop)

/-- `Manager::CancelAsyncNode`. -/
def cancelAsyncNode (ctx : Context) (stop : Bool) : Bool × Heap :=
  let n := h.nodeAt ctx
  if h.isNodeWaiting n then
    (true, if (h.charts n.chart).isSome then h.cancelNode n stop else h.crash)
  else (false, h)

/-- What holds of the heap, of a crashed one and of one with a waiting node continued, holds after
`ContinueAsyncNode`. -/
theorem continueAsyncNode_elim {h : Heap} {P : Heap → Prop} (ctx : Context) (b : Bool) (hno : P h)
    (hcrash : P h.crash) (hyes : h.nodeAt ctx ∈ h.nodesSet →
      (h.charts (h.nodeAt ctx).chart).isSome → P (h.continueNode (h.nodeAt ctx) b)) :
    P (h.continueAsyncNode ctx b).2 := by
  unfold continueAsyncNode isNodeWaiting
  dsimp only
  split
  · rename_i hn
    split
    · exact hyes (by simpa using hn) ‹_›
    · exact hcrash
  · exact hno

theorem cancelAsyncNode_elim {h : Heap} {P : Heap → Prop} (ctx : Context) (stop : Bool) (hno : P h)
    (hcrash : P h.crash) (hyes : h.nodeAt ctx ∈ h.nodesSet →
      (h.charts (h.nodeAt ctx).chart).isSome → P (h.cancelNode (h.nodeAt ctx) stop)) :
    P (h.cancelAsyncNode ctx stop).2 := by
  unfold cancelAsyncNode isNodeWaiting
  dsimp only
  split
  · rename_i hn
    split
    · exact hyes (by simpa using hn) ‹_›
    · exact hcrash
  · exact hno

/-- A node that is waiting and not in freed memory is continued. -/
theorem continueAsyncNode_of_mem {h : Heap} {ctx : Context} {b : Bool}
    (hn : h.nodeAt ctx ∈ h.nodesSet) (hub : (h.continueAsyncNode ctx b).2.ub = false) :
    (h.continueAsyncNode ctx b).2 = h.continueNode (h.nodeAt ctx) b := by
  revert hub
  unfold continueAsyncNode isNodeWaiting
  dsimp only
  rw [if_pos (decide_eq_true hn)]
  split
  · exact fun _ => rfl
  · exact fun hub => Bool.noConfusion hub

theorem cancelAsyncNode_of_mem {h : Heap} {ctx : Context} {stop : Bool}
    (hn : h.nodeAt ctx ∈ h.nodesSet) (hub : (h.cancelAsyncNode ctx stop).2.ub = false) :
    (h.cancelAsyncNode ctx stop).2 = h.cancelNode (h.nodeAt ctx) stop := by
  revert hub
  unfold cancelAsyncNode isNodeWaiting
  dsimp only
  rw [if_pos (decide_eq_true hn)]
  split
  · exact fun _ => rfl
  · exact fun hub => Bool.noConfusion hub

/-- `_NodeList::Pop` of the activated nodes. -/
def takeActivated (n : NodeRef) (ns : List NodeRef) : Heap :=
  ({ h with activated := ns } : Heap).setNode n ({ · with container := none })

/-- A round of the loop of `AsyncManager::Step` up to `RunFlow`: the node is
stopped, but keeps its skip flag and its result. -/
def resumeNode (n : NodeRef) (ns : List NodeRef) : Heap :=
  let skip := (h.nodes n).skip
  let result := (h.nodes n).result
  (((h.takeActivated n ns).stop n).act n ({ · with skip := skip, result := result })
    (.resume n result)).removeNode n

end Heap

end Asyncflow
