import Asyncflow.Lib.Traced
import Asyncflow.Lib.History
import Asyncflow.Core.Fields

/-!
# The moves of the runtime

Every function on the heap is a sequence of the moves listed in
`Asyncflow.Heap.Move`, at the granularity of the history: a move writes the entry
that says what it does, and only three of them (taking a node out of its
container, with its two special cases) are silent about their node. An invariant
of the heap is therefore proved once for each move, and holds of all functions.

Two kinds of permission go with a move: `flows l` for those that only a flow on the
executor at `l` makes, and `may` for those that only some steps make
(`Asyncflow.Permit`).
-/

namespace Asyncflow

/-- The node an entry is about, for the entries about nodes. -/
def Obs.about (n : NodeRef) : Obs → Prop
  | .run m | .ret m _ | .succ m _ | .edge _ m | .cut m | .stop m _ | .wait m _ _ | .await m
  | .timer m | .fire m | .arrive m _ _ | .suspend m _ | .continued m _ | .cancelled m _
  | .resume m _ | .deliver m | .flow m | .goOn m | .subchart m _ | .owner m _ _ | .noAttacher m
  | .misplaced m => m = n
  | .started c => n = ⟨c, 0⟩
  | .created c => n.chart = c
  | .destroyed c o => n.chart = c ∨ o = some n
  | .refused _ | .skipped _ | .returned _ _ | .chartStop _ => False

/-- The entries that come with no change of a node or a container. -/
def Obs.isMark : Obs → Prop
  | .refused _ | .skipped _ | .returned _ _ | .chartStop _ => True
  | _ => False

/-- The entries that stopping a node makes. -/
def Obs.isStop : Obs → Prop
  | .stop _ _ | .chartStop _ | .misplaced _ => True
  | _ => False

/-- The entries that only a flow makes. -/
def Obs.isFlow : Obs → Prop
  | .run _ | .succ _ _ | .cut _ | .edge _ _ | .flow _ | .goOn _ => True
  | _ => False

/-- An agent without its charts. -/
def Agent.bare (g : Agent) : Agent := { g with charts := [] }

/-- What only some steps may do. -/
inductive Permit
  /-- A node is put at a place without being taken from where it was. -/
  | stray
  /-- Chart data are registered. -/
  | load (data : ChartData)
  /-- Chart data are patched in place. -/
  | patch (doc : YamlChart)
  /-- Agents come or go. -/
  | agents
  /-- Charts of the data are created. -/
  | create (d : DataId)

namespace Heap

/-- The two heaps differ neither in the nodes nor in the containers, no chart is new or has
become running or changed its agent, and chart data and agents are the same. -/
structure Alike (h h' : Heap) : Prop where
  nodes : h'.nodes = h.nodes
  nextChart : h'.nextChart = h.nextChart
  waiting : h'.waiting = h.waiting
  handling : h'.handling = h.handling
  nodeList : ∀ l, (h'.stack l).nodeList = (h.stack l).nodeList
  historyNodes : ∀ l, (h'.stack l).historyNodes = (h.stack l).historyNodes
  currentNode : ∀ l, (h'.stack l).currentNode = (h.stack l).currentNode
  currentAgent : ∀ l, (h'.stack l).currentAgent = (h.stack l).currentAgent
  currentIndex : h'.currentIndex = h.currentIndex
  asyncWaiting : h'.asyncWaiting = h.asyncWaiting
  activated : h'.activated = h.activated
  nodesSet : h'.nodesSet = h.nodesSet
  tenant : h'.tenant = h.tenant
  nextContext : h'.nextContext = h.nextContext
  charts : ∀ c x', h'.charts c = some x' → ∃ x, h.charts c = some x ∧
    (x'.data = x.data ∧ x'.nodeCount = x.nodeCount) ∧ x'.owner = x.owner ∧
    (x'.status = .running → x.status = .running)
  chartData : h'.chartData = h.chartData
  nextData : h'.nextData = h.nextData
  chartDataDict : h'.chartDataDict = h.chartDataDict
  agents : ∀ a, (h'.agents a).map Agent.bare = (h.agents a).map Agent.bare
  agentIdCount : h'.agentIdCount = h.agentIdCount
  gameObjects : h'.gameObjects = h.gameObjects
  destroying : h'.destroying = h.destroying
  nextDestroying : h'.nextDestroying = h.nextDestroying
  alive : ∀ c, (h.charts c).isSome → (h'.charts c).isSome
  agent : ∀ c x x', h.charts c = some x → h'.charts c = some x' →
    x'.agent = x.agent ∨ x.agent = none
  log : h'.log = h.log ∨ ∃ o, o.isMark ∧ h'.log = o :: h.log

/-- The chart of the node has been made, and the node is one of its nodes. -/
def Made (h : Heap) (n : NodeRef) : Prop :=
  n.chart < h.nextChart ∧ ∀ x, h.charts n.chart = some x → n.id < x.nodeCount

/-- The writes to the fields of a node, with the entries they make. -/
inductive Writes (h : Heap) (n : NodeRef) : (Node → Node) → Obs → Prop
  | stop : h.Writes n Node.stop (.stop n (h.nodes n).status)
  | wait : h.Made n → h.Writes n Node.wait (.timer n)
  | waitAll (args) : h.Writes n (Node.waitAll args)
      (.arrive n (h.nodes n).preNodeId ((h.nodes n).waitAllFires args))
  | await : h.Writes n ({ · with status := .running, skip := true, result := .rTrue }) (.await n)
  | owner (c b) : h.Writes n (Node.owner b) (.owner n c b)
  | subchart (c) : (h.nodes n).attacher = some (.subchart c) →
      h.Writes n ({ · with status := .running }) (.subchart n c)
  | makeSubchart (c) : n.chart < c → h.ownerOf c = some n →
      h.Writes n ({ · with attacher := some (.subchart c), status := .running }) (.subchart n c)
  | noAttacher : h.Writes n ({ · with attacher := none }) (.noAttacher n)
  | run : h.Writes n Node.run (.run n)
  | ret (r) : h.Writes n (Node.return r) (.ret n r)
  | succ : h.Writes n (fun d => { d.count with status := .endRun }) (.succ n (h.nodes n).result)
  | cut : h.Writes n ({ · with status := .endRun }) (.cut n)
  | fire : h.Writes n ({ · with attacher := some (.timer false), result := .rTrue }) (.fire n)

/-- No such write concerns the container. -/
theorem Writes.rim {h : Heap} {n : NodeRef} {f : Node → Node} {o : Obs} (hw : h.Writes n f o)
    (d : Node) : (f d).container = d.container ∧ (f d).linked = d.linked := by
  cases hw with
  | waitAll args =>
    unfold Node.waitAll
    dsimp only
    split <;> exact ⟨rfl, rfl⟩
  | ret r =>
    unfold Node.return
    split <;> exact ⟨rfl, rfl⟩
  | succ =>
    dsimp only [Node.count]
    split <;> exact ⟨rfl, rfl⟩
  | _ => exact ⟨rfl, rfl⟩

/-- A node whose removal from the waiting nodes of the async manager is in order:
it is linked there or nowhere. -/
def awaited (h : Heap) (n : NodeRef) : Prop :=
  (h.nodes n).container = none ∨ (h.nodes n).container = some .asyncWaiting

/-- An executor on which nothing is pending. -/
def vacant (h : Heap) (l : ℕ) : Prop := (h.stack l).nodeList = []

instance (h : Heap) (n : NodeRef) : Decidable (h.awaited n) := by
  unfold awaited
  infer_instance

instance (h : Heap) (l : ℕ) : Decidable (h.vacant l) := by
  unfold vacant
  infer_instance

/-- **The moves.** The set `D` holds the nodes on which a move may be silent. -/
inductive Move (flows : ℕ → Prop) (may : Permit → Prop) (D : NodeRef → Prop) : Heap → Heap → Prop
  /-- No node and no container changes. -/
  | alike {h h'} : h.Alike h' → Move flows may D h h'
  /-- `Manager::ReloadChartData`. -/
  | load {h} (data) : may (.load data) → Move flows may D h (h.importChart data)
  /-- `ChartData::PatchFromYaml`. -/
  | patch {h d r} (doc) : may (.patch doc) → h.chartDataDict doc.path = some d →
      (h.chartData d).bind (·.patchFromYaml doc) = some r →
      Move flows may D h (h.setData d fun _ => r.2)
  /-- The agents and the lists of agents. -/
  | manage {h} (agents agentIdCount gameObjects destroying nextDestroying) : may .agents →
      Move flows may D h { h with
        agents := agents, agentIdCount := agentIdCount, gameObjects := gameObjects
        destroying := destroying, nextDestroying := nextDestroying }
  /-- A write to the fields of a node. -/
  | act {h n f o} : h.Writes n f o → (o.isFlow → ∃ l, flows l) → Move flows may D h (h.act n f o)
  /-- The run flag of a node is cleared: after its run if it is running, or with the history
  list of its executor. -/
  | flag {h} (n b) {l} : b = false →
      (h.nodes n).status = .running ∨ flows l ∧ n ∈ (h.stack l).historyNodes →
      Move flows may D h (h.setNode n ({ · with runFlag := b }))
  /-- `Node::Run` of a node that is skipped. -/
  | unskip {h} (n) {l} : flows l → n ∈ (h.stack l).nodeList →
      Move flows may D h (h.setNode n ({ · with skip := false }))
  /-- A node leaves its container. -/
  | detach {h n} : D n → Move flows may D h (h.detach n)
  /-- The removal of a node that is linked nowhere. -/
  | removeFree {h n} (l) : (h.nodes n).container = none →
      Move flows may D h (h.remove (.executor l) n)
  /-- `Agent::WaitEvent`. -/
  | wait {h n} (a e) : h.Made n → (h.charts n.chart).isSome → Move flows may D h
      (((h.push (.waiting a e) n).setNode n ({ · with status := .running })).note (.wait n a e))
  /-- `Manager::CreateAsyncContext`. -/
  | suspend {h n} : h.Made n → (h.charts n.chart).isSome → Move flows may D h (h.suspendNode n)
  /-- `Manager::ContinueAsyncNode`. -/
  | continued {h n} (b) : n ∈ h.nodesSet → (may .stray ∨ h.awaited n) →
      Move flows may D h (h.continueNode n b)
  /-- `Manager::CancelAsyncNode`. -/
  | cancelled {h n} (stop) : n ∈ h.nodesSet → (may .stray ∨ h.awaited n) →
      Move flows may D h (h.cancelNode n stop)
  /-- The first activated node is taken. -/
  | takeActivated {h n ns} : h.activated = n :: ns → D n →
      Move flows may D h (h.takeActivated n ns)
  /-- The activated node is ready to go on. -/
  | resume {h n} (skip r) : (h.nodes n).container = none → (h.charts n.chart).isSome →
      Move flows may D h
        ((h.act n ({ · with skip := skip, result := r }) (.resume n r)).removeNode n)
  /-- `Agent::StartChart`. -/
  | started {h c x} : h.charts c = some x → x.nodeCount ≠ 0 →
      Move flows may D h (h.markStarted c)
  /-- `Chart::Init`. -/
  | create {h} (d o) : may (.create d) → (∀ n, o = some n → h.Made n) →
      Move flows may D h (h.initChart d o)
  /-- The end of `Chart::~Chart`. -/
  | forget {h} (c) : (∀ n ∈ h.nodeList c, (h.nodes n).container = none) →
      Move flows may D h (h.forgetChart c)
  /-- The end of the waiting lists of an agent. -/
  | dropWaiting {h} (es a) : Move flows may D h (h.dropWaiting es a)
  /-- `DfsExecutor::RunFlow` up to its loop. -/
  | beginFlow {h n} (l a) : flows l → h.Made n → (may .stray ∨ h.vacant l) →
      Move flows may D h (h.beginFlow l a n)
  /-- `DfsExecutor::Pop`. -/
  | pop {h n ns} (l) : flows l → (h.stack l).nodeList = n :: ns → Move flows may D h (h.pop l)
  /-- A node of an executor becomes its current node. -/
  | current {h n} (l) : flows l → n ∈ (h.stack l).nodeList →
      Move flows may D h (h.setExecutor l ({ · with currentNode := some n }))
  /-- One child in `DfsExecutor::AddSubsequenceNodes`. -/
  | child {h n i} (l) : flows l → i < h.nodesCount n.chart → n.chart < h.nextChart →
      Move flows may D h (h.addChild l n i)
  /-- `DfsExecutor::ContinueFlow`. -/
  | continueFlow {h n} (l) : flows l → h.Made n →
      Move flows may D h (h.continueFlow l n)
  /-- An executor gets an agent. -/
  | agent {h} (l a) : flows l →
      Move flows may D h (h.setExecutor l ({ · with currentAgent := some a }))
  /-- The history list of an executor is cleared. -/
  | clearHistory {h} (l) : flows l →
      (∀ n ∈ (h.stack l).historyNodes, (h.nodes n).runFlag = false) →
      Move flows may D h (h.setExecutor l ({ · with historyNodes := [] }))
  /-- The end of `DfsExecutor::RunFlow`. -/
  | closeFlow {h} (l) : flows l → Move flows may D h (h.closeFlow l)
  /-- The list of an event is swapped out of the agent. -/
  | swap {h} (a e) : Move flows may D h (h.swapWaiting a e)
  /-- A node is taken for delivery. -/
  | deliver {h r rs n ns} : h.handling = r :: rs → r.nodes = n :: ns →
      Move flows may D h (h.takeHandled r rs n ns)
  /-- A list that has been handled goes. -/
  | dropHandling {h r rs} : h.handling = r :: rs → r.nodes = [] →
      Move flows may D h { h with handling := rs }

variable {h h' : Heap} {n : NodeRef} {flows : ℕ → Prop} {may : Permit → Prop} {D : NodeRef → Prop}

/-! ### What the moves record -/

/-- More permission allows more moves. -/
theorem Move.imp {flows' : ℕ → Prop} {may' : Permit → Prop} {D' : NodeRef → Prop}
    (hf : ∀ l, flows l → flows' l) (hs : ∀ p, may p → may' p) (hD : ∀ n, D n → D' n)
    (hm : Move flows may D h h') : Move flows' may' D' h h' := by
  cases hm with
  | alike ha => exact .alike ha
  | load data hp => exact .load data (hs _ hp)
  | patch doc hp hd hr => exact .patch doc (hs _ hp) hd hr
  | manage _ _ _ _ _ hp => exact .manage _ _ _ _ _ (hs _ hp)
  | act hw hfl => exact .act hw fun ho => (hfl ho).imp hf
  | flag n b hb hn => exact .flag n b hb (hn.imp_right fun hn => ⟨hf _ hn.1, hn.2⟩)
  | unskip n hfl hn => exact .unskip n (hf _ hfl) hn
  | detach hn => exact .detach (hD _ hn)
  | removeFree l hc => exact .removeFree l hc
  | wait a e hn hx => exact .wait a e hn hx
  | suspend hn hc => exact .suspend hn hc
  | continued b hn ha => exact .continued b hn (ha.imp_left (hs _))
  | cancelled stop hn ha => exact .cancelled stop hn (ha.imp_left (hs _))
  | takeActivated ha hn => exact .takeActivated ha (hD _ hn)
  | resume skip r hc hx => exact .resume skip r hc hx
  | started hx hne => exact .started hx hne
  | create d o hp ho => exact .create d o (hs _ hp) ho
  | forget c hn => exact .forget c hn
  | dropWaiting es a => exact .dropWaiting es a
  | beginFlow l a hfl hn hv => exact .beginFlow l a (hf _ hfl) hn (hv.imp_left (hs _))
  | pop l hfl hl => exact .pop l (hf _ hfl) hl
  | current l hfl hn => exact .current l (hf _ hfl) hn
  | child l hfl hi hn => exact .child l (hf _ hfl) hi hn
  | continueFlow l hfl hn => exact .continueFlow l (hf _ hfl) hn
  | agent l a hfl => exact .agent l a (hf _ hfl)
  | clearHistory l hfl hn => exact .clearHistory l (hf _ hfl) hn
  | closeFlow l hfl => exact .closeFlow l (hf _ hfl)
  | swap a e => exact .swap a e
  | deliver hh hr => exact .deliver hh hr
  | dropHandling hh hr => exact .dropHandling hh hr

theorem Move.log_suffix (hm : Move flows may D h h') : h.log <:+ h'.log := by
  cases hm with
  | alike ha =>
    rcases ha.log with h1 | ⟨o, -, h1⟩ <;> simp [h1]
  | act hw _ => exact List.suffix_cons ..
  | detach hn => exact log_suffix_detach ..
  | removeFree l hc => exact log_suffix_remove ..
  | wait a e hn => exact (log_suffix_push ..).trans (List.suffix_cons ..)
  | suspend hn =>
    exact (log_suffix_push (h.setNode _ _) ..).trans (List.suffix_cons ..)
  | continued b hn ha =>
    exact ((log_suffix_removeNode ..).trans (log_suffix_activateNode ..)).trans
      (List.suffix_cons ..)
  | cancelled stop hn ha =>
    unfold cancelNode
    split
    · exact (log_suffix_removeNode ..).trans (List.suffix_cons ..)
    · exact ((log_suffix_removeNode ..).trans (log_suffix_activateNode ..)).trans
        (List.suffix_cons ..)
  | resume skip r hc =>
    exact (List.suffix_cons _ h.log).trans (log_suffix_removeNode (h.act _ _ _) ..)
  | started hx hne =>
    simp only [markStarted, hx, hne, ↓reduceIte]
    exact List.suffix_cons ..
  | create d o hp ho => exact List.suffix_cons ..
  | forget c =>
    unfold forgetChart setOwner
    split <;> exact List.suffix_cons ..
  | beginFlow l a hfl hn hv =>
    exact (List.suffix_cons _ h.log).trans (log_suffix_push ((h.act _ _ _).setExecutor _ _) ..)
  | pop l hfl hl =>
    simp only [Heap.pop, hl]
    split <;> exact List.suffix_rfl
  | child l hfl hi hn =>
    simp only [addChild, hi, ↓reduceIte]
    exact (List.suffix_cons _ h.log).trans (log_suffix_push (h.act _ _ _) ..)
  | continueFlow l hfl hn =>
    exact (List.suffix_cons _ h.log).trans (log_suffix_push (h.act _ _ _) ..)
  | deliver hh hr => exact List.suffix_cons ..
  | _ => exact List.suffix_rfl

/-! ### The entries between two states -/

/-- The entries made between two states satisfy a predicate. -/
def Adds (P : Obs → Prop) (h h' : Heap) : Prop :=
  ∃ new, h'.log = new ++ h.log ∧ ∀ o ∈ new, P o

variable {P : Obs → Prop} {g : Heap}

theorem adds_of_eq (hl : h'.log = h.log) : Adds P h h' := ⟨[], hl, by simp⟩

theorem adds_of_cons {o : Obs} (ho : P o) (hl : h'.log = o :: h.log) : Adds P h h' :=
  ⟨[o], hl, by simpa using ho⟩

theorem Adds.trans (ha : Adds P h g) (ha' : Adds P g h') : Adds P h h' := by
  obtain ⟨new, hl, hn⟩ := ha
  obtain ⟨new', hl', hn'⟩ := ha'
  refine ⟨new' ++ new, by rw [hl', hl, List.append_assoc], fun o ho => ?_⟩
  exact (List.mem_append.mp ho).elim (hn' o) (hn o)

theorem adds_detach (hP : P (.misplaced n)) (h : Heap) : Adds P h (h.detach n) :=
  (log_detach h n).elim adds_of_eq (adds_of_cons hP)

theorem adds_remove (hP : P (.misplaced n)) (h : Heap) (c : Container) :
    Adds P h (h.remove c n) :=
  (log_remove h n c).elim adds_of_eq (adds_of_cons hP)

theorem adds_push (hP : P (.misplaced n)) (h : Heap) (c : Container) : Adds P h (h.push c n) :=
  (log_push h n c).elim adds_of_eq (adds_of_cons hP)

theorem adds_act {f : Node → Node} {o : Obs} (ho : P o) (h : Heap) (n : NodeRef) :
    Adds P h (h.act n f o) := adds_of_cons ho rfl

theorem adds_activateNode (hP : P (.misplaced n)) (h : Heap) (skip : Bool) :
    Adds P h (h.activateNode n skip) := by
  unfold activateNode
  split
  · exact adds_of_eq rfl
  · exact adds_push hP h _

theorem adds_foldl {β : Type} {f : Heap → β → Heap} (hf : ∀ h b, Adds P h (f h b)) (h : Heap)
    (l : List β) : Adds P h (l.foldl f h) := by
  induction l generalizing h with
  | nil => exact adds_of_eq rfl
  | cons b l ih => exact (hf h b).trans (ih _)

/-- **Stopping a node** makes no other entries than these. -/
theorem adds_stopNode (hP : ∀ o : Obs, o.isStop → P o) (fuel : ℕ) (h : Heap) (n : NodeRef) :
    Adds P h (stopNode fuel h n) := by
  induction fuel generalizing h n with
  | zero => exact adds_of_eq rfl
  | succ fuel ih =>
    have hs : Adds P h (h.act n Node.stop (.stop n (h.nodes n).status)) :=
      adds_act (hP (.stop n _) trivial) h n
    refine .trans (hs.trans ?_) (adds_detach (hP (.misplaced n) trivial) _)
    split
    · exact (adds_foldl ih _ _).trans (adds_of_cons (hP (.chartStop _) trivial) rfl)
    · exact adds_of_eq rfl

theorem adds_stop (hP : ∀ o : Obs, o.isStop → P o) (h : Heap) (n : NodeRef) :
    Adds P h (h.stop n) := adds_stopNode hP _ h n

/-- A history flag that none of the entries touches. -/
theorem Adds.since_iff {set reset : Obs → Prop} (ha : Adds (fun o => ¬set o ∧ ¬reset o) h h') :
    History.Since set reset h'.log ↔ History.Since set reset h.log := by
  obtain ⟨new, hl, hn⟩ := ha
  rw [hl]
  exact History.since_append_of_neutral hn

variable (flows may) in
/-- The moves as a traced system. -/
def moves : Traced Heap Obs NodeRef where
  log := Heap.log
  about o n := o.about n
  move := Move flows may
  mono hD hm := hm.imp (fun _ => id) (fun _ => id) hD
  grows hm := by
    obtain ⟨new, hnew⟩ := hm.log_suffix
    exact ⟨new, hnew.symm⟩

variable (flows may D) in
/-- An operation on the heap. -/
abbrev Does (h h' : Heap) : Prop := (moves flows may).Does D h h'

end Heap

end Asyncflow
