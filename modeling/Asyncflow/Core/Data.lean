import Mathlib.Logic.Function.Basic
import Mathlib.Data.List.Basic
import Mathlib.Data.Int.Notation

/-!
# Chart data, nodes, charts and agents

The static side of a chart (`Asyncflow.ChartData`, what an import produces) and
the records of the runtime objects: `Asyncflow.Node`, `Asyncflow.Chart` and
`Asyncflow.Agent`. Pointers of the C++ code are indices here: a chart instance is
a number that is never reused, a node is its chart and its position in the
chart's `node_list_`, an agent is its `AgentID`. The memory of a node is reused,
which matters where an address outlives its node (`Asyncflow.Heap.tenant`).

The container pointer of a node (`Asyncflow.Container`) names the object it is
linked in: one of the executors of the stack, a waiting list of an agent, or one
of the two lists of the async manager.
-/

namespace Asyncflow

/-- A chart instance. -/
abbrev ChartId := ℕ

/-- An agent: `Agent::AgentID`. -/
abbrev AgentId := ℕ

/-- A game object, the key of `gameobject_map_`. -/
abbrev ObjectId := ℕ

/-- A `ChartData` object: two imports of the same path make two objects. -/
abbrev DataId := ℕ

/-- An event id: the `int` the source uses. -/
abbrev EventId := ℤ

/-- A node of a chart instance: the chart and the index in its `node_list_`. -/
structure NodeRef where
  /-- The chart instance the node belongs to. -/
  chart : ChartId
  /-- The node's id, its index in the chart. -/
  id : ℕ
deriving DecidableEq, Repr

/-- `NodeResult`. -/
inductive NodeResult
  | rFalse
  | rTrue
  | rStop
deriving DecidableEq, Repr

/-- `Node::SetResult(bool)`. -/
def NodeResult.ofBool : Bool → NodeResult
  | true => .rTrue
  | false => .rFalse

/-- `Node::Status`. -/
inductive NodeStatus
  | idle
  | running
  | endRun
deriving DecidableEq, Repr

/-- `Chart::Status`. -/
inductive ChartStatus
  | idle
  | running
deriving DecidableEq, Repr

/-- `Agent::Status`. -/
inductive AgentStatus
  | running
  | destroying
deriving DecidableEq, Repr

/-! ### The static side -/

/-- The function object of a node: none, a function of the scripting language,
or a `ControlNodeFunc` with its parameters. -/
inductive NodeFunc
  /-- `nullptr`. -/
  | null
  /-- A `PyNodeFunc` or `LuaNodeFunc`: any script. -/
  | script
  /-- `ControlNodeFunc` of `Manager::WaitAll`. -/
  | waitAll (params : List ℤ)
  /-- `ControlNodeFunc` of `Manager::StopNode`. -/
  | stopNode (params : List ℤ)
  /-- `ControlNodeFunc` of `Manager::StopFlow`. -/
  | stopFlow (params : List ℤ)
deriving DecidableEq, Repr

/-- `NodeData`, as far as running and patching a chart read it. -/
structure NodeData where
  /-- `node_uid_`. -/
  uid : String := ""
  /-- `node_func_`. -/
  func : NodeFunc := .null
  /-- `is_event_`. -/
  isEvent : Bool := false
  /-- `is_no_loop_check`. -/
  noLoopCheck : Bool := false
  /-- `children_[0]`. -/
  failure : List ℕ := []
  /-- `children_[1]`. -/
  success : List ℕ := []
deriving DecidableEq, Repr

/-- `NodeData::GetSubsequenceIds`. -/
def NodeData.subsequenceIds (d : NodeData) (result : Bool) : List ℕ :=
  if result then d.success else d.failure

/-- `ChartData`. -/
structure ChartData where
  /-- `chart_name_`. -/
  name : String
  /-- `start_func_name_`. -/
  startFuncName : String := ""
  /-- `node_list_`; the start node is the first. -/
  nodes : List NodeData
  /-- `version_`. -/
  version : ℕ := 0
  /-- `prev_`. -/
  prev : Option DataId := none
deriving DecidableEq, Repr

/-! ### The runtime objects -/

/-- What `container_` may point to. -/
inductive Container
  /-- The `DfsExecutor` at an index of the stack. -/
  | executor (level : ℕ)
  /-- The waiting list of an agent for an event. A node in the list swapped out
  for handling still points to this object. -/
  | waiting (agent : AgentId) (event : EventId)
  /-- `AsyncManager::waiting_nodes_`. -/
  | asyncWaiting
  /-- `AsyncManager::activate_nodes_`. -/
  | activated
deriving DecidableEq, Repr

/-- `INodeAttacher` and its three subclasses. -/
inductive Attacher
  /-- `NodeTimer`, and whether it is scheduled on the timer wheel. -/
  | timer (active : Bool)
  /-- `Subchart` and the chart it holds. -/
  | subchart (chart : ChartId)
  /-- `NodeWaitAll` and its `node_ids_`. -/
  | waitAll (nodeIds : List (ℤ × Bool))
deriving DecidableEq, Repr

/-- `Node`. -/
structure Node where
  /-- `pre_node_id_`. -/
  preNodeId : ℤ := -1
  /-- `true_count_`. -/
  trueCount : ℕ := 0
  /-- `false_count_`. -/
  falseCount : ℕ := 0
  /-- Whether the intrusive link `link_` has its two pointers set. -/
  linked : Bool := false
  /-- `result_`. -/
  result : NodeResult := .rTrue
  /-- `status_`. -/
  status : NodeStatus := .idle
  /-- `run_flag_`. -/
  runFlag : Bool := false
  /-- `skip_`. -/
  skip : Bool := false
  /-- `is_wait_all`. -/
  isWaitAll : Bool := false
  /-- `attacher_`. -/
  attacher : Option Attacher := none
  /-- `container_`. -/
  container : Option Container := none
deriving DecidableEq, Repr

/-- `Chart`. -/
structure Chart where
  /-- `data_`. -/
  data : DataId
  /-- The length of `node_list_`, which `Chart::Init` fills once and for all. -/
  nodeCount : ℕ
  /-- `owner_node_`. -/
  owner : Option NodeRef
  /-- `agent_`. -/
  agent : Option AgentId
  /-- `status_`. -/
  status : ChartStatus := .idle
  /-- Whether a completion callback `call_` is set. -/
  call : Bool := false
deriving DecidableEq, Repr

/-- `Agent`. Its timer is scheduled as long as the agent exists, and its waiting
lists are kept in the heap. -/
structure Agent where
  /-- The game object. -/
  object : ObjectId
  /-- `status_`. -/
  status : AgentStatus := .running
  /-- Whether `agent_map_` has the agent. -/
  registered : Bool := true
  /-- `chart_dict_`: the charts of the agent, oldest first. -/
  charts : List ChartId := []
deriving DecidableEq, Repr

/-- `DfsExecutor`. The vector `node_list_` is kept with its back first, so that
the head of the list is the top of the stack. -/
structure DfsExecutor where
  /-- `node_list_`, top first. -/
  nodeList : List NodeRef := []
  /-- `history_nodes_`, newest first. -/
  historyNodes : List NodeRef := []
  /-- `current_agent_`. -/
  currentAgent : Option AgentId := none
  /-- `current_node_`. -/
  currentNode : Option NodeRef := none
deriving DecidableEq, Repr

/-! ### Waiting for all -/

/-- `NodeWaitAll::Init`: `emplace` keeps the first entry of an id. -/
def waitAllInit (args : List ℤ) : List (ℤ × Bool) :=
  args.foldl (fun ids id => if ids.any (·.1 == id) then ids else ids ++ [(id, false)]) []

/-- `NodeWaitAll::Stop`, and the reset of `NodeWaitAll::Run`. -/
def waitAllReset (ids : List (ℤ × Bool)) : List (ℤ × Bool) :=
  ids.map fun p => (p.1, false)

/-- `NodeWaitAll::Run`: marks the id, and fires when every id is marked. -/
def waitAllRun (ids : List (ℤ × Bool)) (id : ℤ) : Bool × List (ℤ × Bool) :=
  if ids.any (·.1 == id) then
    let marked := ids.map fun p => if p.1 = id then (p.1, true) else p
    if marked.all (·.2) then (true, waitAllReset marked) else (false, marked)
  else (false, ids)

/-- `INodeAttacher::Stop`, as far as it writes the attacher itself; a `Subchart`
stops its chart, see `Asyncflow.Heap.stopNode`. -/
def Attacher.stop : Attacher → Attacher
  | .timer _ => .timer false
  | .subchart c => .subchart c
  | .waitAll ids => .waitAll (waitAllReset ids)

/-! ### The field writes of the calls -/

/-- The field writes of `Node::Stop`, and of the attacher's own `Stop`. -/
def Node.stop (d : Node) : Node :=
  { d with
    status := .idle, result := .rStop, runFlag := false, skip := false
    attacher := d.attacher.map Attacher.stop }

/-- The start of `Node::Run` for a node that is not skipped. -/
def Node.run (d : Node) : Node := { d with runFlag := true, result := .rFalse }

/-- The end of `Node::Run`: the value of the function is the result, unless the
node was stopped meanwhile. -/
def Node.return (r : NodeResult) (d : Node) : Node :=
  if d.result = .rStop then d else { d with result := r }

/-- The counters of `DfsExecutor::AddSubsequenceNodes`. -/
def Node.count (d : Node) : Node :=
  match d.result with
  | .rStop => d
  | .rTrue => { d with trueCount := d.trueCount + 1 }
  | .rFalse => { d with falseCount := d.falseCount + 1 }

/-- The writes of `Manager::Wait`. -/
def Node.wait (d : Node) : Node :=
  { d with attacher := some (.timer true), skip := true, result := .rTrue, status := .running }

/-- The `node_ids_` of a node in `Manager::WaitAll`, made on the first call. -/
def Node.waitAllIds (args : List ℤ) (d : Node) : List (ℤ × Bool) :=
  match d.attacher with
  | some (.waitAll ids) => ids
  | _ => waitAllInit args

/-- Whether `Manager::WaitAll` fires. -/
def Node.waitAllFires (args : List ℤ) (d : Node) : Bool :=
  (waitAllRun (d.waitAllIds args) d.preNodeId).1

/-- The writes of `Manager::WaitAll`. -/
def Node.waitAll (args : List ℤ) (d : Node) : Node :=
  let d' := { d with
    isWaitAll := true
    attacher := some (.waitAll (waitAllRun (d.waitAllIds args) d.preNodeId).2) }
  if d.waitAllFires args then { d' with status := .endRun, result := .rTrue }
  else { d' with status := .running }

/-- The writes of `Chart::Return` to the owner node. -/
def Node.owner (b : Bool) (d : Node) : Node :=
  { d with result := .ofBool b, skip := true, runFlag := false }

/-- The writes of `Agent::StartChart` to the start node. -/
def Node.start (skip : Bool) (d : Node) : Node :=
  { d with skip := skip, result := .rTrue, status := .running }

end Asyncflow
