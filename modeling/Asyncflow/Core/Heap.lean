import Asyncflow.Core.Data

/-!
# The heap, containers and stopping

`Asyncflow.Heap` holds everything the runtime reaches through pointers: the
nodes, charts and agents, the executors of the stack with its index, the waiting
lists of the agents and the lists swapped out of them, and the async manager.

The operations of this file are those of the containers –
`Asyncflow.Heap.remove`, `Asyncflow.Heap.push` and the pops, one definition for
the three implementations of `INodeContainer` – and the recursive
`Asyncflow.Heap.stop`.

## History and undefined behaviour

The field `log` is a history variable, newest entry first: the functions record
in it what they do, at the places where the source logs it too, and never read
it. The field `ub` is set where the C++ code would run into undefined behaviour
(a node id out of range, an attacher used at a type it does not have, memory that
has been freed); a state with `ub` set has no further steps.

The rings of intrusive links are lists here, and where they would be no lists any
more a run is not followed further either: `LinkedList::push_back` of a link that is
in a ring assigns its pointers, which is legal, but what follows the link in the one
ring are then the links of the other, and who comes to the end of the one walks on
in the other and never finds his own head again. `Asyncflow.Heap.Ringed.ub_push`
says when a push does not come to this.
-/

namespace Asyncflow

/-- What the runtime does, as recorded in the history. -/
inductive Obs
  /-- `Node::Run` calls the function of the node. -/
  | run (n : NodeRef)
  /-- The function of the node returned. -/
  | ret (n : NodeRef) (r : NodeResult)
  /-- `DfsExecutor::AddSubsequenceNodes`, with the result it read. -/
  | succ (n : NodeRef) (r : NodeResult)
  /-- `AddSubsequenceNodes` of `p` pushes its successor `n`. -/
  | edge (p n : NodeRef)
  /-- The iteration limit of `DfsExecutor::RunFlow` drops a pending node. -/
  | cut (n : NodeRef)
  /-- `Node::Stop`, and the status the node had. -/
  | stop (n : NodeRef) (was : NodeStatus)
  /-- `Agent::WaitEvent` registers the node. -/
  | wait (n : NodeRef) (a : AgentId) (e : EventId)
  /-- `Manager::WaitEvent` of the node. -/
  | await (n : NodeRef)
  /-- `Manager::Wait` schedules the node's timer. -/
  | timer (n : NodeRef)
  /-- `NodeTimer::execute`. -/
  | fire (n : NodeRef)
  /-- `Manager::WaitAll` passes an id to `NodeWaitAll::Run`, and whether it fired. -/
  | arrive (n : NodeRef) (id : ℤ) (fired : Bool)
  /-- `Manager::CreateAsyncContext`; the number tells the calls apart. -/
  | suspend (n : NodeRef) (ctx : ℕ)
  /-- `Manager::ContinueAsyncNode` succeeds. -/
  | continued (n : NodeRef) (b : Bool)
  /-- `Manager::CancelAsyncNode` succeeds. -/
  | cancelled (n : NodeRef) (stop : Bool)
  /-- `AsyncManager::Step` takes an activated node, whose result it keeps. -/
  | resume (n : NodeRef) (r : NodeResult)
  /-- `Manager::_handleEvent` takes a node of its list. -/
  | deliver (n : NodeRef)
  /-- `DfsExecutor::RunFlow` starts a flow at the node. -/
  | flow (n : NodeRef)
  /-- `StackExecutor::RunFlow` refuses: the stack is full. -/
  | refused (n : NodeRef)
  /-- `DfsExecutor::RunFlow` returns at once: the agent or the chart is not
  running. -/
  | skipped (n : NodeRef)
  /-- `Manager::Subchart` of the node on a chart. -/
  | subchart (n : NodeRef) (c : ChartId)
  /-- `Agent::StartChart` starts a chart. -/
  | started (c : ChartId)
  /-- `Chart::Return`. -/
  | returned (c : ChartId) (b : Bool)
  /-- `Chart::Return` hands its result to the owner node. -/
  | owner (n : NodeRef) (c : ChartId) (b : Bool)
  /-- `DfsExecutor::ContinueFlow` of an executor that goes on with the node. -/
  | goOn (n : NodeRef)
  /-- `Chart::Stop`. -/
  | chartStop (c : ChartId)
  /-- `Node::SetAttacher(nullptr)`. -/
  | noAttacher (n : NodeRef)
  /-- `Chart::Init`. -/
  | created (c : ChartId)
  /-- `Chart::~Chart`, and the owner node of the chart. -/
  | destroyed (c : ChartId) (o : Option NodeRef)
  /-- `Remove` was called on a container that does not hold the node, while the
  node was linked in another one. -/
  | misplaced (n : NodeRef)
deriving DecidableEq, Repr

/-- The list a `HandleEvent` or `TriggerEvent` call has swapped out of a waiting
list. -/
structure Handling where
  /-- The agent the list was taken from. -/
  agent : AgentId
  /-- The event. -/
  event : EventId
  /-- The nodes still to be handled, in order. -/
  nodes : List NodeRef
  /-- The nodes the list held when it was swapped out (history only). -/
  taken : List NodeRef
  /-- The length of the history when it was swapped out (history only). -/
  since : ℕ
deriving DecidableEq, Repr

/-- The list without a node. -/
def Handling.erase (r : Handling) (n : NodeRef) : Handling :=
  { r with nodes := r.nodes.filter (· ≠ n) }

/-- Everything reachable through pointers. -/
structure Heap where
  /-- The nodes of all charts. -/
  nodes : NodeRef → Node := fun _ => {}
  /-- The charts; `none` before construction and after destruction. -/
  charts : ChartId → Option Chart := fun _ => none
  /-- The next chart instance. -/
  nextChart : ChartId := 0
  /-- The agents; `none` before construction and after destruction. -/
  agents : AgentId → Option Agent := fun _ => none
  /-- `AGENT_ID_COUNT`. -/
  agentIdCount : AgentId := 0
  /-- `gameobject_map_`. -/
  gameObjects : ObjectId → Option AgentId := fun _ => none
  /-- `waiting_nodes_dict_` of every agent. -/
  waiting : AgentId → EventId → List NodeRef := fun _ _ => []
  /-- The local lists of the `_handleEvent` calls in progress, innermost first. -/
  handling : List Handling := []
  /-- `StackExecutor::stack_`. -/
  stack : ℕ → DfsExecutor := fun _ => {}
  /-- `StackExecutor::current_index_`. -/
  currentIndex : ℕ := 0
  /-- `AsyncManager::waiting_nodes_`. -/
  asyncWaiting : List NodeRef := []
  /-- `AsyncManager::activate_nodes_`. -/
  activated : List NodeRef := []
  /-- `AsyncManager::nodes_set_`. It holds addresses: each is listed as the node that was last
  made there. -/
  nodesSet : List NodeRef := []
  /-- The node that was last made at the address of a node. -/
  tenant : NodeRef → NodeRef := id
  /-- What the allocator will do: node `i` of the next chart gets the address of the node at
  place `i`, if its memory is free. -/
  cells : List NodeRef := []
  /-- The number of `CreateAsyncContext` calls so far (history only). -/
  nextContext : ℕ := 0
  /-- `destroying_agents_`. -/
  destroying : List AgentId := []
  /-- `next_destroying_agents_`. -/
  nextDestroying : List AgentId := []
  /-- The `ChartData` objects. -/
  chartData : DataId → Option ChartData := fun _ => none
  /-- The next `ChartData` object. -/
  nextData : DataId := 0
  /-- `chart_data_dict_`. -/
  chartDataDict : String → Option DataId := fun _ => none
  /-- The history, newest entry first. -/
  log : List Obs := []
  /-- Undefined behaviour has been reached, or two rings have run into each other. -/
  ub : Bool := false

namespace Heap

variable (h : Heap)

/-- Writes a node. -/
def setNode (n : NodeRef) (f : Node → Node) : Heap :=
  { h with nodes := Function.update h.nodes n (f (h.nodes n)) }

/-- Writes a chart, if it exists. -/
def setChart (c : ChartId) (f : Chart → Chart) : Heap :=
  { h with charts := Function.update h.charts c ((h.charts c).map f) }

/-- Writes an agent, if it exists. -/
def setAgent (a : AgentId) (f : Agent → Agent) : Heap :=
  { h with agents := Function.update h.agents a ((h.agents a).map f) }

/-- Writes an executor of the stack. -/
def setExecutor (l : ℕ) (f : DfsExecutor → DfsExecutor) : Heap :=
  { h with stack := Function.update h.stack l (f (h.stack l)) }

/-- Records an entry of the history. -/
def note (o : Obs) : Heap := { h with log := o :: h.log }

/-- Writes a node and records it. -/
def act (n : NodeRef) (f : Node → Node) (o : Obs) : Heap := (h.setNode n f).note o

/-- Undefined behaviour. -/
def crash : Heap := { h with ub := true }

/-- `Chart::IsRunning`. -/
def chartRunning (c : ChartId) : Bool := (h.charts c).any (·.status == .running)

/-- `Agent::IsRunning`. -/
def agentRunning (a : AgentId) : Bool := (h.agents a).any (·.status == .running)

/-- `Node::GetAgent`: the agent of the node's chart. -/
def agentOf (n : NodeRef) : Option AgentId := (h.charts n.chart).bind (·.agent)

/-- `Chart::GetData`. -/
def dataOf (c : ChartId) : Option ChartData := (h.charts c).bind fun x => h.chartData x.data

/-- `Chart::Name`. -/
def nameOf (c : ChartId) : Option String := (h.dataOf c).map (·.name)

/-- `Chart::GetNodesCount`. -/
def nodesCount (c : ChartId) : ℕ := ((h.charts c).map (·.nodeCount)).getD 0

/-- `Chart::GetNodeList`. -/
def nodeList (c : ChartId) : List NodeRef := (List.range (h.nodesCount c)).map fun i => ⟨c, i⟩

/-- `Node::GetData`. -/
def nodeData (n : NodeRef) : NodeData := ((h.dataOf n.chart).bind (·.nodes[n.id]?)).getD {}

/-- `Chart::CheckRunning`. -/
def checkRunning (c : ChartId) : Bool :=
  (h.nodeList c).any fun n => (h.nodes n).status == .running

/-- `StackExecutor::GetCurrentNode`. -/
def currentNode : Option NodeRef := (h.stack h.currentIndex).currentNode

/-! ### Containers -/

/-- The nodes that are linked in a container. A list swapped out for handling is
the second part of the waiting list it was taken from. -/
def content : Container → List NodeRef
  | .executor l => (h.stack l).nodeList
  | .waiting a e => h.waiting a e ++
      (h.handling.filter fun r => r.agent = a ∧ r.event = e).flatMap (·.nodes)
  | .asyncWaiting => h.asyncWaiting
  | .activated => h.activated

/-- Unlinks an intrusive link from the ring it is in: `LinkedList::remove` does
not look at the list it is called through. -/
def unlinkRing (n : NodeRef) : Heap :=
  ({ h with
      waiting := fun a e => (h.waiting a e).filter (· ≠ n)
      handling := h.handling.map (·.erase n)
      ub := h.ub || !(h.nodes n).linked } : Heap).setNode n ({ · with linked := false })

/-- Takes the node out of the list of a container. -/
def unlink (c : Container) (n : NodeRef) : Heap :=
  match c with
  | .executor l => h.setExecutor l fun x => { x with nodeList := x.nodeList.filter (· ≠ n) }
  | .waiting _ _ => h.unlinkRing n
  | .asyncWaiting => { h with asyncWaiting := h.asyncWaiting.filter (· ≠ n) }
  | .activated => { h with activated := h.activated.filter (· ≠ n) }

/-- `INodeContainer::Remove`, of whichever container. -/
def remove (c : Container) (n : NodeRef) : Heap :=
  let h' := (h.unlink c n).setNode n ({ · with container := none })
  if n ∈ h.content c ∨ (h.nodes n).container = none then h' else h'.note (.misplaced n)

/-- Takes the node out of its container, if it has one. -/
def detach (n : NodeRef) : Heap :=
  match (h.nodes n).container with
  | some c => h.remove c n
  | none => h

/-- Appends a node to a container's list; the executor's top is the head. `LinkedList::push_back`
does not look whether the link is in a ring; if it is, two rings run into each other, and the run
is not followed any further. -/
def link (c : Container) (n : NodeRef) : Heap :=
  match c with
  | .executor l => h.setExecutor l fun x => { x with nodeList := n :: x.nodeList }
  | .waiting a e =>
    ({ h with
        waiting := Function.update h.waiting a
          (Function.update (h.waiting a) e (h.waiting a e ++ [n]))
        ub := h.ub || (h.nodes n).linked } : Heap).setNode n ({ · with linked := true })
  | .asyncWaiting => { h with asyncWaiting := h.asyncWaiting ++ [n] }
  | .activated => { h with activated := h.activated ++ [n] }

/-- `INodeContainer::Push`, of whichever container. -/
def push (c : Container) (n : NodeRef) : Heap :=
  ((h.detach n).link c n).setNode n ({ · with container := some c })

/-- `DfsExecutor::Pop`: the element at the back goes to the history list. -/
def pop (l : ℕ) : Heap :=
  match (h.stack l).nodeList with
  | [] => h.crash
  | n :: rest =>
    let h := h.setExecutor l fun x =>
      { x with nodeList := rest, historyNodes := n :: x.historyNodes }
    if (h.nodes n).container = some (.executor l) then
      h.setNode n ({ · with container := none })
    else h

/-! ### Stopping -/

/-- `Node::Stop`. Stopping a `Subchart` attacher stops the nodes of its chart and
then the chart; the recursion goes down the tree of subcharts, whose depth the
number of charts bounds. -/
def stopNode : ℕ → Heap → NodeRef → Heap
  | 0, h, _ => h
  | fuel + 1, h, n =>
    let h := h.act n Node.stop (.stop n (h.nodes n).status)
    let h := match (h.nodes n).attacher with
      | some (.subchart c) =>
        (((h.nodeList c).foldl (stopNode fuel) h).setChart c
          ({ · with status := .idle })).note (.chartStop c)
      | _ => h
    h.detach n

/-- `Node::Stop` from any state of the heap. -/
def stop (n : NodeRef) : Heap := stopNode (h.nextChart + 1) h n

/-- `Chart::Stop`. -/
def stopChart (c : ChartId) : Heap :=
  (((h.nodeList c).foldl stop h).setChart c ({ · with status := .idle })).note (.chartStop c)

end Heap

end Asyncflow
