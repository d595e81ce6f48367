import Asyncflow.Core.Flow
import Asyncflow.Lib.Run

/-!
# The manager as a state machine

`Asyncflow.State` is the heap together with the event queue and the C++ call
stack, `Asyncflow.Frame` by frame. A step of the machine is what the runtime does
between two points where user code is in control: the environment chooses an
action `Asyncflow.Act` – run on (`tau`), a call into the API (`op`), the return
of a node function (`ret`) or of a callback (`done`), and in the timer phase of a
`Step` which of the scheduled timers expires.

The node functions and callbacks are scripts, so whenever one is running (or when
nothing is running at all) every call of the API is possible. The calls of
`Manager` under its comment “inside node function” are possible in node functions
only, and `Step` is not called from inside anything.

The poll of the websocket, which `Manager::Step` makes between the timers and the
async manager, is left out. The commands `gm` and `hotfix` of a debugger run scripts
in it, so the calls of the API are possible there too, in a step and outside of every
flow.
-/

namespace Asyncflow

/-- `Manager::MAX_EVENT_FRAME`. -/
def maxEventFrame : ℕ := 16

/-- `AsyncEventBase`, with the identity of the object. -/
structure Event where
  /-- The identity of the object. -/
  oid : ℕ
  /-- `id_`. -/
  id : EventId
  /-- `agent_id_`. -/
  agent : AgentId
  /-- How it was raised (history only). -/
  immediate : Bool
  /-- The number of `Switch` calls before it was raised (history only). -/
  epoch : ℕ
deriving DecidableEq, Repr

/-- `EventQueue`. -/
structure EventQueue where
  /-- `in_event_list_`. -/
  inList : List Event := []
  /-- `out_event_list_`. -/
  outList : List Event := []

/-- `EventQueue::AddEvent`. -/
def EventQueue.addEvent (q : EventQueue) (ev : Event) : EventQueue :=
  if ev.immediate then { q with outList := ev :: q.outList }
  else { q with inList := q.inList ++ [ev] }

/-- `EventQueue::Switch`. -/
def EventQueue.switch (q : EventQueue) : EventQueue :=
  { inList := q.outList, outList := q.inList }

/-- What happens to events, as recorded in the history. -/
inductive QueueObs
  /-- `Manager::Event` makes the event. -/
  | raised (ev : Event)
  /-- `Manager::HandleEvent` is called with the event, after the given number of
  `Switch` calls. -/
  | handled (ev : Event) (epoch : ℕ)
  /-- `Manager::TriggerEvent` is called with the event, and does not return
  `false`. -/
  | triggered (ev : Event)
  /-- `delete`. -/
  | deleted (ev : Event)
deriving DecidableEq, Repr

/-- A call in progress on the C++ call stack. -/
inductive Frame
  /-- `StackExecutor::RunFlow`, just called. -/
  | enter (n : NodeRef)
  /-- `StackExecutor::ContinueFlow`, just called. -/
  | continuing (n : NodeRef)
  /-- `DfsExecutor::RunFlow` on a chart, in its loop; the rounds so far and
  `has_running_node`. -/
  | flow (level : ℕ) (chart : ChartId) (count : ℕ) (running : Bool)
  /-- `DfsExecutor::RunFlow` after its loop, at the check for running nodes. -/
  | ended (level : ℕ) (chart : ChartId) (running : Bool)
  /-- `DfsExecutor::RunFlow` in `chart->Return(true)`. -/
  | flowReturn (level : ℕ) (chart : ChartId)
  /-- `Node::Run` in the node function, a script. -/
  | func (n : NodeRef)
  /-- The rest of the round of the loop after `Node::Run`. -/
  | ran (n : NodeRef)
  /-- `Agent::StartChart` in `RunFlow` of the start node. -/
  | starting (agent : AgentId) (chart : ChartId)
  /-- `Chart::Return` in `ContinueFlow`, if the chart has an owner node, and
  before its last `Stop`. -/
  | returning (chart : ChartId)
  /-- `PyChart::InvokeCallback`. -/
  | callback (chart : ChartId)
  /-- `Manager::_handleEvent`; its list is the first of `Heap.handling`. -/
  | handle (ev : Event)
  /-- `Manager::TriggerEvent` in `_handleEvent`, with `prev_ev`. -/
  | trigger (prev : Option Event) (ev : Event)
  /-- `Manager::Step` in `timer_manager_.Step`. -/
  | timers
  /-- `Manager::Step` in `async_manager_.Step`. -/
  | async
  /-- `Manager::Step` in its loop over the events. -/
  | events
  /-- `Manager::Step` in `HandleEvent`. -/
  | deleteEvent (ev : Event)
  /-- `DyingAgents::Step` in its loop, with the agents still to be deleted. -/
  | dying (agents : List AgentId)
  /-- `~PyAgent` letting go of the game object, whose finalizer is a script. -/
  | release (agent : AgentId)
deriving DecidableEq, Repr

/-- The chart a call in progress uses when it goes on. -/
def Frame.chart? : Frame → Option ChartId
  | .flow _ c _ _ | .ended _ c _ | .flowReturn _ c | .starting _ c | .returning c => some c
  | .enter n | .continuing n | .func n | .ran n => some n.chart
  | _ => none

/-- The state of the manager. -/
structure State where
  /-- Everything reachable through pointers. -/
  heap : Heap := {}
  /-- `event_queue_`. -/
  queue : EventQueue := {}
  /-- `current_event_`. -/
  currentEvent : Option Event := none
  /-- `current_event_frame_`. -/
  eventFrame : ℕ := 0
  /-- `in_step_`. -/
  inStep : Bool := false
  /-- The call stack, innermost call first. -/
  frames : List Frame := []
  /-- The number of events made so far. -/
  nextEvent : ℕ := 0
  /-- The number of `Switch` calls so far (history only). -/
  switches : ℕ := 0
  /-- The history of the events, newest entry first. -/
  qlog : List QueueObs := []
  /-- The agents deleted by `DyingAgents::Step` (history only). -/
  deleted : List AgentId := []

namespace State

variable (cfg : Config) (s : State)

/-- Changes the heap. -/
def mapHeap (f : Heap → Heap) : State := { s with heap := f s.heap }

/-- Enters a call. -/
def call (f : Frame) : State := { s with frames := f :: s.frames }

/-- Records an entry of the history of the events. -/
def qnote (o : QueueObs) : State := { s with qlog := o :: s.qlog }

/-! ### Events -/

/-- `AsyncEventBase::GetWaitingNodes`, empty when there is no list. -/
def waitingNodes (a : AgentId) (e : EventId) : List NodeRef :=
  if (s.heap.agents a).any (·.registered) && cfg.validEvent e then s.heap.waiting a e else []

/-- `Manager::_handleEvent` with the list of an event swapped out. -/
def handleEvent (ev : Event) : State :=
  { (s.mapHeap (·.swapWaiting ev.agent ev.id)).call (.handle ev) with currentEvent := some ev }

/-- `EventQueue::AddEvent`. -/
def addEvent (ev : Event) : State := { s with queue := s.queue.addEvent ev }

/-- `Manager::TriggerEvent` and, when it is done, the deletion of the event in
`Manager::Event`; a refused event is queued. -/
def triggerEvent (ev : Event) : State :=
  if s.waitingNodes cfg ev.agent ev.id = [] then
    (s.qnote (.triggered ev)).qnote (.deleted ev)
  else if maxEventFrame ≤ s.eventFrame then s.addEvent ev
  else
    (({ s with eventFrame := s.eventFrame + 1 }.qnote (.triggered ev)).call
      (.trigger s.currentEvent ev)).handleEvent ev

/-- `Manager::Event`. -/
def event (e : EventId) (a : AgentId) (immediate trigger : Bool) : State :=
  if cfg.validEvent e && s.heap.agentRunning a then
    let ev : Event := ⟨s.nextEvent, e, a, immediate, s.switches⟩
    let s := { s with nextEvent := s.nextEvent + 1 }.qnote (.raised ev)
    if trigger then s.triggerEvent cfg ev else s.addEvent ev
  else s

/-! ### Starting and completing a chart -/

/-- `Agent::StartChart` when it does not run the start node at once. -/
def startLater (a : AgentId) (c : ChartId) : State :=
  (s.mapHeap (·.waitEvent cfg a ⟨c, 0⟩ cfg.startEvent)).event cfg cfg.startEvent a false false

/-- `Agent::StartChart`. -/
def startChart (a : AgentId) (c : ChartId) (sync : Bool) : State :=
  if s.heap.chartRunning c then s
  else
    let s := s.mapHeap (·.markStarted c)
    if sync then (s.call (.starting a c)).call (.enter ⟨c, 0⟩) else s.startLater cfg a c

/-- `Chart::Return` up to `ContinueFlow` of the owner node. -/
def chartReturn (c : ChartId) (b : Bool) : State :=
  let s := (s.mapHeap (·.note (.returned c b))).call (.returning c)
  match s.heap.ownerOf c with
  | none => s
  | some o => (s.mapHeap fun h => (h.stop o).act o (Node.owner b) (.owner o c b)).call
      (.continuing o)

/-- `Chart::Return` when `ContinueFlow` fails: the owner node is put off to a
start event. -/
def continueLater (n : NodeRef) : State :=
  match s.heap.agentOf n with
  | some a => (s.mapHeap (·.waitEvent cfg a n cfg.startEvent)).event cfg cfg.startEvent a true false
  | none => s.mapHeap (·.crash)

/-- The end of `Chart::Return`, and `PyChart::InvokeCallback`. -/
def finishReturn (c : ChartId) : State :=
  let s := s.mapHeap (·.stopChart c)
  if (s.heap.charts c).any (·.call) then
    (s.mapHeap (·.setChart c ({ · with call := false }))).call (.callback c)
  else s

/-- `PyManager::Return` of the current node. -/
def managerReturn (b : Bool) : State :=
  match s.heap.currentNode with
  | none => s.mapHeap (·.crash)
  | some n => if s.heap.chartRunning n.chart then s.chartReturn n.chart b else s

/-- `Manager::Subchart`. -/
def subchart (name : String) (a : AgentId) : State :=
  if (s.heap.agents a).isSome then
    let r := s.heap.prepareSubchart name a
    match r.1 with
    | some c => (s.mapHeap fun _ => r.2).startChart cfg a c true
    | none => s.mapHeap fun _ => r.2
  else s

/-! ### Flows -/

/-- `StackExecutor::RunFlow` when the stack is full: what the caller does with the
result `false`. -/
def refuse (n : NodeRef) (rest : List Frame) : State :=
  let s := s.mapHeap (·.note (.refused n))
  match rest with
  | .starting a c :: rest => { s with frames := rest }.startLater cfg a c
  | .returning c :: rest => { s with frames := .returning c :: rest }.continueLater cfg n
  | rest => { s with frames := rest }

/-- `StackExecutor::RunFlow`, up to the loop of `DfsExecutor::RunFlow`. An executor
that has nothing to do returns without a loop. -/
def enterFlow (n : NodeRef) (rest : List Frame) : State :=
  let l := s.heap.currentIndex + 1
  if maxStackSize ≤ l then s.refuse cfg n rest
  else match s.heap.agentOf n with
    | none => s.mapHeap (·.crash)
    | some a =>
      if s.heap.agentRunning a && s.heap.chartRunning n.chart then
        { s.mapHeap (·.beginFlow l a n) with frames := .flow l n.chart 0 false :: rest }
      else
        { s.mapHeap (·.skipFlow l a n) with frames := rest }

/-- `StackExecutor::ContinueFlow`: the executor below goes on with its current
node, otherwise a flow is run. -/
def continueFlow (n : NodeRef) (rest : List Frame) : State :=
  let l := s.heap.currentIndex - 1
  if s.heap.agentOf n = none then s.mapHeap (·.crash)
  else if 0 < s.heap.currentIndex ∧ (s.heap.stack l).currentNode = some n then
    { s.mapHeap (·.continueFlow l n) with frames := rest }
  else { s with frames := .enter n :: rest }

/-! ### The rounds of the loops -/

/-- `Node::Run` of the node on top of an executor. -/
def runNode (l : ℕ) (n : NodeRef) : State :=
  let skip := (s.heap.nodes n).skip
  let s := s.mapHeap (·.enterNode l n)
  if skip then s.call (.ran n)
  else match (s.heap.nodeData n).func with
    | .null => s.call (.ran n)
    | .script => s.call (.func n)
    | f =>
      let r := s.heap.callControl f
      (s.mapHeap fun _ => r.2.returnNode n (.ofBool r.1)).call (.ran n)

/-- A round of the loop of `DfsExecutor::RunFlow`, up to `Node::Run`; the frames
are those below the flow. -/
def flowRound (l : ℕ) (c : ChartId) (count : ℕ) (running : Bool) (rest : List Frame) : State :=
  match (s.heap.stack l).nodeList with
  | [] => { s.mapHeap (·.restoreHistory l) with frames := .ended l c running :: rest }
  | n :: _ =>
    if !s.heap.chartRunning c then
      { s.mapHeap (·.restoreHistory l) with frames := .ended l c running :: rest }
    else if maxNodesPerExecution < count + 1 then
      { s.mapHeap fun h => (h.cutFlow l).restoreHistory l with
        frames := .ended l c running :: rest }
    else if (s.heap.nodes n).status = .running ∧ (s.heap.nodes n).isWaitAll = false then
      { s.mapHeap (·.pop l) with frames := .flow l c (count + 1) true :: rest }
    else if (s.heap.nodes n).runFlag = true ∧ (s.heap.nodeData n).noLoopCheck = false then
      { s.mapHeap (·.deferTick cfg l n) with frames := .flow l c (count + 1) true :: rest }
    else { s with frames := .flow l c (count + 1) running :: rest }.runNode l n

/-- The rest of a round, after `Node::Run`. -/
def flowFinish (n : NodeRef) (l : ℕ) (c : ChartId) (count : ℕ) (running : Bool)
    (rest : List Frame) : State :=
  { s.mapHeap (·.finishNode l n) with
    frames := .flow l c count (running || (s.heap.nodes n).status = .running) :: rest }

/-- The check for running nodes after the loop. -/
def flowCheck (l : ℕ) (c : ChartId) (running : Bool) (rest : List Frame) : State :=
  if !running && !s.heap.checkRunning c && s.heap.chartRunning c then
    { s with frames := .flowReturn l c :: rest }.chartReturn c true
  else { s.mapHeap (·.closeFlow l) with frames := rest }

/-- The end of a flow whose chart has returned. -/
def flowReturned (l : ℕ) (c : ChartId) (rest : List Frame) : State :=
  { s.mapHeap fun h => (h.setChart c ({ · with status := .idle })).closeFlow l with
    frames := rest }

/-- A round of the loop of `Manager::_handleEvent`. -/
def handleRound (rest : List Frame) : State :=
  match s.heap.handling with
  | [] => { s with currentEvent := none, frames := rest }
  | r :: rs =>
    match r.nodes with
    | [] => { s.mapHeap ({ · with handling := rs }) with currentEvent := none, frames := rest }
    | n :: ns => (s.mapHeap (·.takeHandled r rs n ns)).call (.enter n)

/-- The end of `Manager::TriggerEvent`. -/
def triggered (prev : Option Event) (ev : Event) (rest : List Frame) : State :=
  { s.qnote (.deleted ev) with
    eventFrame := s.eventFrame - 1, currentEvent := prev, frames := rest }

/-! ### The phases of a step -/

/-- `NodeTimer::execute`. -/
def fire (n : NodeRef) : State :=
  (s.mapHeap (·.act n ({ · with attacher := some (.timer false), result := .rTrue })
    (.fire n))).call (.enter n)

/-- A round of the loop of `AsyncManager::Step`, and then the `Switch` of the
event queue. -/
def asyncRound (rest : List Frame) : State :=
  match s.heap.activated with
  | [] => { s with queue := s.queue.switch, switches := s.switches + 1, frames := .events :: rest }
  | n :: ns => (s.mapHeap (·.resumeNode n ns)).call (.enter n)

/-- A round of the loop of `Manager::Step` over the events, and then the call of
`DyingAgents::Step`. -/
def eventsRound (rest : List Frame) : State :=
  match s.queue.outList with
  | [] => { s with frames := .dying s.heap.destroying :: rest }
  | ev :: evs =>
    let s := ({ s with queue := { s.queue with outList := evs } }.qnote
      (.handled ev s.switches)).call (.deleteEvent ev)
    if s.waitingNodes cfg ev.agent ev.id = [] then s else s.handleEvent ev

/-- A round of the loop of `DyingAgents::Step`, and then its end and the end of the
step. -/
def dyingRound (agents : List AgentId) (rest : List Frame) : State :=
  match agents with
  | [] => { s.mapHeap (·.swapDying) with inStep := false, frames := rest }
  | a :: agents => { s with frames := .release a :: .dying agents :: rest }

/-- The rest of the destructor of an agent. -/
def released (a : AgentId) (rest : List Frame) : State :=
  { s.mapHeap (·.destroyAgent cfg.events a) with frames := rest, deleted := a :: s.deleted }

/-! ### The environment -/

end State

/-- The calls of the API, and the choice of the allocator that a call may meet with. -/
inductive Op
  /-- `Manager::ReloadChartData`, for each chart of an import or of a patch that is not
  in place. -/
  | importChart (data : ChartData)
  /-- `Manager::PatchFromYaml` in place, for each document. -/
  | patchChart (doc : YamlChart)
  /-- `Manager::RegisterGameObject`. -/
  | register (o : ObjectId)
  /-- `Manager::UnregisterGameObject`. -/
  | unregister (a : AgentId)
  /-- `Manager::AttachChart`. -/
  | attachChart (a : AgentId) (name : String)
  /-- `Agent::RemoveChart`. -/
  | removeChart (a : AgentId) (name : String)
  /-- `Agent::StartChart`. -/
  | startChart (c : ChartId)
  /-- `Chart::Stop`. -/
  | stopChart (c : ChartId)
  /-- `Agent::Stop`. -/
  | stopAgent (a : AgentId)
  /-- `PyChart::SetCall`. -/
  | setCall (c : ChartId)
  /-- `Manager::Event`. -/
  | event (e : EventId) (a : AgentId) (immediate trigger : Bool)
  /-- `Manager::ContinueAsyncNode`. -/
  | continueAsyncNode (ctx : Context) (b : Bool)
  /-- `Manager::CancelAsyncNode`. -/
  | cancelAsyncNode (ctx : Context) (stop : Bool)
  /-- `Manager::Wait`. -/
  | wait
  /-- `Manager::WaitEvent`. -/
  | waitEvent (a : AgentId) (e : EventId)
  /-- `Manager::WaitAll`. -/
  | waitAll (args : List ℤ)
  /-- `Manager::StopNode`. -/
  | stopNode (args : List ℤ)
  /-- `Manager::StopFlow`. -/
  | stopFlow (args : List ℤ)
  /-- `Manager::Subchart`. -/
  | subchart (name : String) (a : AgentId)
  /-- `Manager::CreateAsyncContext`. -/
  | createAsyncContext
  /-- `PyManager::Return`. -/
  | managerReturn (b : Bool)
  /-- `Manager::Step`. -/
  | step
  /-- No call, but what the allocator will do when the next chart is made. -/
  | place (cells : List NodeRef)
deriving DecidableEq, Repr

/-- The actions of the environment. -/
inductive Act
  /-- The runtime goes on. -/
  | tau
  /-- A call of the API. -/
  | op (o : Op)
  /-- The running node function returns. -/
  | ret (r : NodeResult)
  /-- The running callback or finalizer returns. -/
  | done
  /-- The timer of a node expires. -/
  | fire (n : NodeRef)
  /-- The timer of an agent expires. -/
  | tick (a : AgentId)
  /-- No other timer expires in this step. -/
  | timersDone
deriving DecidableEq, Repr

/-- Calls for the current node of a node function. -/
def Op.isNodeCall : Op → Bool
  | .wait | .waitEvent _ _ | .waitAll _ | .stopNode _ | .stopFlow _ | .subchart _ _
  | .createAsyncContext | .managerReturn _ => true
  | _ => false

namespace State

variable (cfg : Config) (s : State)

/-- Whether user code is in control and may make the call. A callback makes no call for the
current node: `current_node_` is still set when `Chart::Return` runs the callback at the end
of a flow, but a callback is no node function. -/
def mayCall (o : Op) : Bool :=
  match s.frames with
  | [] => !o.isNodeCall
  | .func _ :: _ => o != .step
  | .callback _ :: _ | .release _ :: _ => !o.isNodeCall && o != .step
  | _ => false

/-- A call of the API. -/
def runOp : Op → Option State
  | .importChart data => some (s.mapHeap (·.importChart data))
  | .patchChart doc => some (s.mapHeap (·.patchChart doc))
  | .register o => some (s.mapHeap (·.register o))
  | .unregister a => some (s.mapHeap (·.unregisterGameObject a s.inStep))
  | .attachChart a name =>
    if (s.heap.agents a).isSome then
      some (match s.heap.chartDataDict name with
        | some d => s.mapHeap (·.attachChart a d)
        | none => s)
    else none
  | .removeChart a name => some (s.mapHeap (·.removeChart a name))
  | .startChart c =>
    if (s.heap.charts c).isSome then
      (s.heap.agentOf ⟨c, 0⟩).map fun a => s.startChart cfg a c !cfg.deferEvent
    else none
  | .stopChart c => if (s.heap.charts c).isSome then some (s.mapHeap (·.stopChart c)) else none
  | .stopAgent a => some (s.mapHeap (·.stopAgent a))
  | .setCall c => some (s.mapHeap (·.setChart c ({ · with call := true })))
  | .event e a immediate trigger => some (s.event cfg e a immediate trigger)
  | .continueAsyncNode ctx b => some (s.mapHeap fun h => (h.continueAsyncNode ctx b).2)
  | .cancelAsyncNode ctx stop => some (s.mapHeap fun h => (h.cancelAsyncNode ctx stop).2)
  | .wait => some (s.mapHeap (·.wait))
  | .waitEvent a e =>
    if (s.heap.agents a).isSome then
      some (s.mapHeap fun h => (h.managerWaitEvent cfg a e).2)
    else none
  | .waitAll args => some (s.mapHeap fun h => (h.waitAll args).2)
  | .stopNode args => some (s.mapHeap fun h => (h.stopNodes args).2)
  | .stopFlow args => some (s.mapHeap fun h => (h.stopFlow args).2)
  | .subchart name a => some (s.subchart cfg name a)
  | .createAsyncContext => some (s.mapHeap (·.createAsyncContext))
  | .managerReturn b => some (s.managerReturn b)
  | .step => some ({ s with inStep := true }.call .timers)
  | .place cells => some (s.mapHeap ({ · with cells := cells }))

/-- What the runtime does next by itself. -/
def runTau : Option State :=
  match s.frames with
  | .enter n :: rest => some (s.enterFlow cfg n rest)
  | .continuing n :: rest => some (s.continueFlow n rest)
  | .starting _ _ :: rest => some { s with frames := rest }
  | .flow l c count running :: rest => some (s.flowRound cfg l c count running rest)
  | .ran n :: .flow l c count running :: rest => some (s.flowFinish n l c count running rest)
  | .ended l c running :: rest => some (s.flowCheck l c running rest)
  | .flowReturn l c :: rest => some (s.flowReturned l c rest)
  | .returning c :: rest => some ({ s with frames := rest }.finishReturn c)
  | .handle _ :: rest => some (s.handleRound rest)
  | .trigger prev ev :: rest => some (s.triggered prev ev rest)
  | .async :: rest => some (s.asyncRound rest)
  | .events :: rest => some (s.eventsRound cfg rest)
  | .deleteEvent ev :: rest => some ({ s with frames := rest }.qnote (.deleted ev))
  | .dying agents :: rest => some (s.dyingRound agents rest)
  | _ => none

/-- What an action leads to. -/
def next : Act → Option State
  | .tau => s.runTau cfg
  | .op o => if s.mayCall o then s.runOp cfg o else none
  | .ret r => match s.frames with
    | .func n :: rest =>
      some ({ s with frames := rest }.mapHeap (·.returnNode n r) |>.call (.ran n))
    | _ => none
  | .done => match s.frames with
    | .callback _ :: rest => some { s with frames := rest }
    | .release a :: rest => some (s.released cfg a rest)
    | _ => none
  | .fire n => match s.frames with
    | .timers :: _ =>
      if (s.heap.nodes n).attacher = some (.timer true) then some (s.fire n) else none
    | _ => none
  | .tick a => match s.frames with
    | .timers :: _ =>
      if (s.heap.agents a).isSome then some (s.event cfg cfg.tickEvent a false false) else none
    | _ => none
  | .timersDone => match s.frames with
    | .timers :: rest => some { s with frames := .async :: rest }
    | _ => none

/-- No undefined behaviour so far: in particular no call in progress belongs to a
chart that is gone. -/
def sound : Bool :=
  !s.heap.ub && s.frames.all fun f => f.chart?.all fun c => (s.heap.charts c).isSome

/-- **A step of the machine.** Undefined behaviour ends a run. -/
def step (a : Act) : Option State := (s.next cfg a).filter (·.sound)

/-- Before the first call. -/
def init : State := {}

/-- The environment acts, and the runtime goes on until it is waiting for the
environment again. -/
def play (acts : List Act) : Option State := Run.drive (step cfg) .tau 1000 init acts

end State

end Asyncflow
