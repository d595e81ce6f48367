import Asyncflow.Core.Calls

/-!
# The pieces of a flow

`DfsExecutor::RunFlow` is a loop whose body may call back into the manager, so it
is cut here at the places where that can happen. Each piece is a function of the
heap:

* `Asyncflow.Heap.beginFlow`, everything before the loop;
* `Asyncflow.Heap.cutFlow`, the iteration limit;
* `Asyncflow.Heap.deferTick`, the node that is put off to the next tick;
* `Asyncflow.Heap.enterNode` and `Asyncflow.Heap.returnNode`, the two ends of
  `Node::Run`, and `Asyncflow.Heap.callControl` for the functions between them
  that are part of the runtime;
* `Asyncflow.Heap.finishNode`, the rest of the round, with
  `DfsExecutor::AddSubsequenceNodes`;
* `Asyncflow.Heap.restoreHistory` and `Asyncflow.Heap.closeFlow`, after the loop.

The other pieces belong to calls that start a flow: `Asyncflow.Heap.takeHandled`
of `Manager::_handleEvent`, `Asyncflow.Heap.markStarted` of `Agent::StartChart`
and `Asyncflow.Heap.prepareSubchart` of `Manager::Subchart`.
-/

namespace Asyncflow

/-- `StackExecutor::MAX_STACK_SIZE`. -/
def maxStackSize : ℕ := 16

/-- `DfsExecutor::MAX_NODES_PER_EXECUTION`. -/
def maxNodesPerExecution : ℕ := 1024

namespace Heap

variable (cfg : Config) (h : Heap)

/-! ### The flow -/

/-- `DfsExecutor::RunFlow` up to its loop, and the new stack index. -/
def beginFlow (l : ℕ) (a : AgentId) (n : NodeRef) : Heap :=
  let h := (h.act n ({ · with status := .idle }) (.flow n)).setExecutor l
    ({ · with currentAgent := some a, nodeList := [] })
  { h.push (.executor l) n with currentIndex := l }

/-- `DfsExecutor::RunFlow` of an executor whose agent or chart is not running. -/
def skipFlow (l : ℕ) (a : AgentId) (n : NodeRef) : Heap :=
  (h.setExecutor l ({ · with currentAgent := some a })).note (.skipped n)

/-- `DfsExecutor::ContinueFlow`, with the run flag `StackExecutor` sets. -/
def continueFlow (l : ℕ) (n : NodeRef) : Heap :=
  (h.act n ({ · with runFlag := true }) (.goOn n)).push (.executor l) n

/-- The iteration limit: everything pending is popped and ended. -/
def cutFlow (l : ℕ) : Heap :=
  (h.stack l).nodeList.foldl
    (fun h n => (h.pop l).act n ({ · with status := .endRun }) (.cut n)) h

/-- A node that ran in this flow already waits for the tick of the current
agent. -/
def deferTick (l : ℕ) (n : NodeRef) : Heap :=
  match (h.stack l).currentAgent with
  | some a => h.waitEvent cfg a n cfg.tickEvent
  | none => h.crash

/-- The node becomes the current node, and `Node::Run` up to the call of its
function. -/
def enterNode (l : ℕ) (n : NodeRef) : Heap :=
  let h := h.setExecutor l ({ · with currentNode := some n })
  if (h.nodes n).skip then h.setNode n ({ · with skip := false })
  else h.act n Node.run (.run n)

/-- `Node::Run` after the call of its function. -/
def returnNode (n : NodeRef) (r : NodeResult) : Heap := h.act n (Node.return r) (.ret n r)

/-- `ControlNodeFunc::call`. -/
def callControl : NodeFunc → Bool × Heap
  | .waitAll params => h.waitAll params
  | .stopNode params => h.stopNodes params
  | .stopFlow params => h.stopFlow params
  | _ => (false, h)

/-- One child in `DfsExecutor::AddSubsequenceNodes`. -/
def addChild (l : ℕ) (n : NodeRef) (i : ℕ) : Heap :=
  if i < h.nodesCount n.chart then
    (h.act ⟨n.chart, i⟩ ({ · with preNodeId := n.id }) (.edge n ⟨n.chart, i⟩)).push
      (.executor l) ⟨n.chart, i⟩
  else h.crash

/-- `SetStatus(EndRun)` and `DfsExecutor::AddSubsequenceNodes`: the rightmost
child is pushed first. -/
def addSubsequenceNodes (l : ℕ) (n : NodeRef) : Heap :=
  let r := (h.nodes n).result
  let h := h.act n (fun d => { d.count with status := .endRun }) (.succ n r)
  if r = .rStop then h
  else ((h.nodeData n).subsequenceIds (r = .rTrue)).reverse.foldl (fun h i => h.addChild l n i) h

/-- A node that was neither stopped nor put elsewhere is popped after its run. -/
def popHeld (l : ℕ) (n : NodeRef) : Heap :=
  if (h.nodes n).container = some (.executor l) then h.pop l else h

/-- The round of the loop after `Node::Run`. -/
def finishNode (l : ℕ) (n : NodeRef) : Heap :=
  let h := h.popHeld l n
  if (h.nodes n).status = .running then h.setNode n ({ · with runFlag := false })
  else h.addSubsequenceNodes l n

/-- One node of the history list after the loop. -/
def restoreNode (n : NodeRef) : Heap :=
  let h := h.setNode n ({ · with runFlag := false })
  if (h.nodes n).status = .endRun then h.stop n else h

/-- The history list after the loop, oldest node first. -/
def restoreHistory (l : ℕ) : Heap :=
  ((h.stack l).historyNodes.reverse.foldl restoreNode h).setExecutor l
    ({ · with historyNodes := [] })

/-- The end of `DfsExecutor::RunFlow`, and the old stack index. -/
def closeFlow (l : ℕ) : Heap :=
  { h.setExecutor l ({ · with currentNode := none, currentAgent := none }) with
    currentIndex := l - 1 }

/-! ### Handling an event -/

/-- The list of an event is swapped out of the agent. -/
def swapWaiting (a : AgentId) (e : EventId) : Heap :=
  { h with
    waiting := Function.update h.waiting a (Function.update (h.waiting a) e [])
    handling := ⟨a, e, h.waiting a e, h.waiting a e, h.log.length⟩ :: h.handling }

/-- The first node of the innermost list is taken for delivery. -/
def takeHandled (r : Handling) (rs : List Handling) (n : NodeRef) (ns : List NodeRef) : Heap :=
  ({ h with handling := { r with nodes := ns } :: rs } : Heap).act n
    ({ · with container := none, linked := false, status := .idle }) (.deliver n)

/-! ### Starting a chart -/

/-- `ChartData::StartFuncName` of the chart. -/
def startFuncName (c : ChartId) : String := ((h.dataOf c).map (·.startFuncName)).getD ""

/-- `Agent::StartChart` up to the flow of the start node. -/
def markStarted (c : ChartId) : Heap :=
  match h.charts c with
  | some x =>
    if x.nodeCount = 0 then h.crash
    else (h.setChart c ({ · with status := .running })).act ⟨c, 0⟩
      (Node.start (h.startFuncName c = "")) (.started c)
  | none => h.crash

/-- The chart a `Subchart` call makes for the node. -/
def makeSubchart (n : NodeRef) (d : DataId) (a : AgentId) : ChartId × Heap :=
  let c := h.nextChart
  (c, (((h.initChart d (some n)).addChart a c).2).act n
    ({ · with attacher := some (.subchart c), status := .running }) (.subchart n c))

/-- `Manager::Subchart` up to the start of the chart: the chart that the current
node has for the agent and the data, or a new one. -/
def prepareSubchart (name : String) (a : AgentId) : Option ChartId × Heap :=
  match h.currentNode with
  | none => (none, h.crash)
  | some n =>
    match h.chartDataDict name with
    | none => (none, h)
    | some d =>
      match (h.nodes n).attacher with
      | some (.timer _) => (none, h.crash)
      | some (.waitAll _) => (none, h.crash)
      | some (.subchart c) =>
        if (h.charts c).any fun x => x.agent == some a && x.data == d then
          (some c, h.act n ({ · with status := .running }) (.subchart n c))
        else
          let r := (h.clearAttacher n).makeSubchart n d a
          (some r.1, r.2)
      | none =>
        let r := h.makeSubchart n d a
        (some r.1, r.2)

end Heap

end Asyncflow
