import Asyncflow.Core.Heap
import Asyncflow.Core.Loader

/-!
# Building and destroying charts and agents

Constructors and destructors of the runtime objects: `Chart::Init` and
`Agent::AddChart`, `Node::SetAttacher` with the destructors it runs,
`Chart::~Chart`, `Agent::~Agent`, and the registration of agents.

Destroying a chart destroys its nodes, a node destroys its attacher, and a
`Subchart` attacher destroys the chart it holds; like stopping, the recursion
goes down the tree of subcharts.
-/

namespace Asyncflow

namespace Heap

variable (h : Heap)

/-! ### Charts -/

/-- The owner node of a chart. -/
def ownerOf (c : ChartId) : Option NodeRef := (h.charts c).bind (·.owner)

/-- `Agent::FindChart`: the first chart with the name and the owner node. -/
def findChart (a : AgentId) (name : String) (owner : Option NodeRef) : Option ChartId :=
  ((h.agents a).map (·.charts)).getD [] |>.find? fun c =>
    h.nameOf c == some name && (h.charts c).any (·.owner == owner)

/-- `ChartData::GetNodeCount`. -/
def nodeCount (d : DataId) : ℕ := ((h.chartData d).map (·.nodes.length)).getD 0

/-- The memory of the node is free: its chart is gone, and no other node has been made there. -/
def freed (n : NodeRef) : Bool :=
  n.chart < h.nextChart && (h.charts n.chart).isNone && h.tenant n = n

/-- The node that is made at the address of a node when a chart of `k` nodes comes into being, or
else the node itself. -/
def rehouse (k : ℕ) (n : NodeRef) : NodeRef :=
  if h.freed n ∧ n ∈ h.cells ∧ h.cells.idxOf n < k then ⟨h.nextChart, h.cells.idxOf n⟩ else n

/-- `CreateChart` and `Chart::Init`: a chart with fresh nodes, in memory that may have been that of
other nodes. `nodes_set_` is not told. -/
def initChart (d : DataId) (owner : Option NodeRef) : Heap :=
  let c := h.nextChart
  ({ h with
      charts := Function.update h.charts c
        (some { data := d, nodeCount := h.nodeCount d, owner := owner, agent := none })
      nodes := fun n => if n.chart = c then {} else h.nodes n
      nextChart := c + 1
      tenant := h.rehouse (h.nodeCount d) ∘ h.tenant
      nodesSet := h.nodesSet.map (h.rehouse (h.nodeCount d)) } : Heap).note (.created c)

/-- `Agent::AddChart`. An agent takes one chart of a name for an owner node. -/
def addChart (a : AgentId) (c : ChartId) : Bool × Heap :=
  match h.nameOf c with
  | none => (false, h)
  | some name =>
    if (h.findChart a name (h.ownerOf c)).isSome then (false, h)
    else (true, (h.setChart c ({ · with agent := some a })).setAgent a fun g =>
      { g with charts := g.charts ++ [c] })

/-- `Agent::EraseChart`. -/
def eraseChart (c : ChartId) : Heap :=
  match (h.charts c).bind (·.agent) with
  | some a => (h.setAgent a fun g => { g with charts := g.charts.filter (· ≠ c) }).setChart c
      ({ · with agent := none })
  | none => h

/-- Writes the owner node of a chart, if it has one. -/
def setOwner (c : ChartId) (f : Node → Node) : Heap :=
  match h.ownerOf c with
  | some o => h.setNode o f
  | none => h

/-- The chart is gone, and its owner node forgets the attacher. -/
def forgetChart (c : ChartId) : Heap :=
  ({ h.setOwner c ({ · with attacher := none }) with
      charts := Function.update h.charts c none } : Heap).note (.destroyed c (h.ownerOf c))

/-- The end of `Chart::~Chart`, after its nodes are gone. -/
def dropChart (c : ChartId) : Heap := (h.eraseChart c).forgetChart c

/-- `Chart::~Chart`. Every node is stopped and loses its attacher, and with a
`Subchart` attacher the chart that it holds. -/
def destroyChart : ℕ → Heap → ChartId → Heap
  | 0, h, _ => h
  | fuel + 1, h, c =>
    ((h.nodeList c).foldl (fun h n =>
      let h := h.stop n
      let h := match (h.nodes n).attacher with
        | some (.subchart c') => destroyChart fuel h c'
        | _ => h
      h.act n ({ · with attacher := none }) (.noAttacher n)) h).dropChart c

/-- `delete chart`. -/
def deleteChart (c : ChartId) : Heap := destroyChart (h.nextChart + 1) h c

/-- `delete attacher_`: a `Subchart` goes with its chart, which makes the owner
node forget the attacher; a timer is cancelled. -/
def deleteAttacher (n : NodeRef) : Heap :=
  match (h.nodes n).attacher with
  | some (.subchart c) => h.deleteChart c
  | _ => h

/-- `Node::SetAttacher(nullptr)`. -/
def clearAttacher (n : NodeRef) : Heap :=
  (h.deleteAttacher n).act n ({ · with attacher := none }) (.noAttacher n)

/-- `Agent::AttachChart`. -/
def attachChart (a : AgentId) (d : DataId) : Heap :=
  let c := h.nextChart
  let r := (h.initChart d none).addChart a c
  if r.1 then r.2 else r.2.deleteChart c

/-- `Agent::RemoveChart`. -/
def removeChart (a : AgentId) (name : String) : Heap :=
  match h.findChart a name none with
  | some c => h.deleteChart c
  | none => h

/-! ### Agents -/

/-- `AgentManager::Register`: a game object keeps the agent it has. -/
def register (o : ObjectId) : Heap :=
  match h.gameObjects o with
  | some _ => h
  | none =>
    let a := h.agentIdCount + 1
    { h with
      agents := Function.update h.agents a (some { object := o })
      agentIdCount := a
      gameObjects := Function.update h.gameObjects o (some a) }

/-- `Agent::Stop`. -/
def stopAgent (a : AgentId) : Heap :=
  (((h.agents a).map (·.charts)).getD []).foldl stopChart h

/-- `AgentManager::UnRegister`. -/
def unRegister (a : AgentId) : Heap :=
  match h.agents a with
  | some g =>
    { h.setAgent a ({ · with registered := false }) with
      gameObjects := Function.update h.gameObjects g.object none }
  | none => h

/-- `DyingAgents::AddDyingAgent`. -/
def addDyingAgent (a : AgentId) (inStep : Bool) : Heap :=
  if inStep then { h with nextDestroying := h.nextDestroying ++ [a] }
  else { h with destroying := h.destroying ++ [a] }

/-- `Manager::UnregisterGameObject`. -/
def unregisterGameObject (a : AgentId) (inStep : Bool) : Heap :=
  if h.agentRunning a then
    let h := h.setAgent a ({ · with status := .destroying })
    ((h.stopAgent a).unRegister a).addDyingAgent a inStep
  else h

/-- The nodes in the waiting lists that an agent has for the events. -/
def waitingFor (es : List EventId) (a : AgentId) : List NodeRef := es.flatMap (h.waiting a)

/-- The destructors of the waiting lists that an agent has for the events: whatever is in them is
unlinked and loses its container, be it another one. All of it is written, so that it has to be
there. -/
def dropWaiting (es : List EventId) (a : AgentId) : Heap :=
  { h with
    waiting := Function.update h.waiting a fun e => if e ∈ es then [] else h.waiting a e
    nodes := fun n =>
      if n ∈ h.waitingFor es a then { h.nodes n with container := none, linked := false }
      else h.nodes n
    ub := h.ub || (h.waitingFor es a).any fun n => (h.charts n.chart).isNone }

/-- `Agent::~Agent`, with waiting lists for the events: the charts go one after the other, a
subchart through the attacher of its owner node. -/
def destroyAgent (es : List EventId) (a : AgentId) : Heap :=
  let charts := ((h.agents a).map (·.charts)).getD []
  let h := charts.reverse.foldl (fun h c =>
    match h.charts c with
    | none => h
    | some x => match x.owner with
      | some o => h.clearAttacher o
      | none => h.deleteChart c) (h.dropWaiting es a)
  { h with agents := Function.update h.agents a none }

/-- The end of `DyingAgents::Step`. -/
def swapDying : Heap := { h with destroying := h.nextDestroying, nextDestroying := [] }

/-! ### Imports -/

/-- `Manager::ReloadChartData`, with `ChartData::Update`: the new object becomes the entry
of its path, and the entry it replaces its previous version. -/
def importChart (data : ChartData) : Heap :=
  let prev := h.chartDataDict data.name
  let version := ((prev.bind h.chartData).map (·.version + 1)).getD data.version
  { h with
    chartData := Function.update h.chartData h.nextData
      (some { data with version := version, prev := prev })
    nextData := h.nextData + 1
    chartDataDict := Function.update h.chartDataDict data.name (some h.nextData) }

/-- Writes a `ChartData` object, if it exists. -/
def setData (d : DataId) (f : ChartData → ChartData) : Heap :=
  { h with chartData := Function.update h.chartData d ((h.chartData d).map f) }

/-- `Manager::PatchFromYaml` of a document, in place if the path is known. -/
def patchChart (doc : YamlChart) : Heap :=
  match h.chartDataDict doc.path with
  | some d =>
    match (h.chartData d).bind (·.patchFromYaml doc) with
    | some r => h.setData d fun _ => r.2
    | none => h.crash
  | none =>
    match fromYaml doc with
    | some (true, data) => h.importChart data
    | some (false, _) => h
    | none => h.crash

end Heap

end Asyncflow
