import Asyncflow.Core.Flow

/-!
# What the basic operations leave alone

The operations on containers write the container and the link of one node, the
list of one container and, when something goes wrong, the history. This file says
so, field by field, for the operations from `Asyncflow.Heap.unlink` to
`Asyncflow.Heap.push`; the rest of the development does not unfold them.
-/

namespace Asyncflow

namespace Heap

variable (h : Heap) (n m : NodeRef) (c : Container)

/-! ### Single writes -/

@[simp] theorem nodes_setNode_self (f : Node → Node) :
    (h.setNode n f).nodes n = f (h.nodes n) := Function.update_self ..

theorem nodes_setNode_of_ne {h : Heap} {n m : NodeRef} (hm : m ≠ n) (f : Node → Node) :
    (h.setNode n f).nodes m = h.nodes m := Function.update_of_ne hm ..

theorem nodes_setNode (f : Node → Node) :
    (h.setNode n f).nodes m = if m = n then f (h.nodes m) else h.nodes m := by
  split
  · subst m
    exact nodes_setNode_self h n f
  · exact nodes_setNode_of_ne ‹_› f

/-- A write that keeps a field of a node keeps it for all nodes. -/
theorem field_setNode {β : Type} (g : Node → β) {f : Node → Node}
    (hf : ∀ d, g (f d) = g d) : g ((h.setNode n f).nodes m) = g (h.nodes m) := by
  rw [nodes_setNode]
  split
  · exact hf _
  · rfl

@[simp] theorem log_setNode (f : Node → Node) : (h.setNode n f).log = h.log := rfl

@[simp] theorem log_act (f : Node → Node) (o : Obs) : (h.act n f o).log = o :: h.log := rfl

@[simp] theorem log_note (o : Obs) : (h.note o).log = o :: h.log := rfl

@[simp] theorem log_setExecutor (l : ℕ) (f : DfsExecutor → DfsExecutor) :
    (h.setExecutor l f).log = h.log := rfl

@[simp] theorem log_setChart (c : ChartId) (f : Chart → Chart) : (h.setChart c f).log = h.log := rfl

@[simp] theorem nodes_note (o : Obs) : (h.note o).nodes = h.nodes := rfl

@[simp] theorem nodes_act (f : Node → Node) (o : Obs) :
    (h.act n f o).nodes = (h.setNode n f).nodes := rfl

@[simp] theorem nodes_setExecutor (l : ℕ) (f : DfsExecutor → DfsExecutor) :
    (h.setExecutor l f).nodes = h.nodes := rfl

@[simp] theorem nodes_setChart (c : ChartId) (f : Chart → Chart) :
    (h.setChart c f).nodes = h.nodes := rfl

/-! ### The fields outside the nodes and lists -/

@[simp] theorem charts_unlink : (h.unlink c n).charts = h.charts := by
  cases c <;> rfl

@[simp] theorem chartData_unlink : (h.unlink c n).chartData = h.chartData := by
  cases c <;> rfl

@[simp] theorem nextChart_unlink : (h.unlink c n).nextChart = h.nextChart := by
  cases c <;> rfl

@[simp] theorem agents_unlink : (h.unlink c n).agents = h.agents := by
  cases c <;> rfl

@[simp] theorem nodesSet_unlink : (h.unlink c n).nodesSet = h.nodesSet := by
  cases c <;> rfl

@[simp] theorem tenant_unlink : (h.unlink c n).tenant = h.tenant := by
  cases c <;> rfl

@[simp] theorem nextContext_unlink : (h.unlink c n).nextContext = h.nextContext := by
  cases c <;> rfl

@[simp] theorem currentIndex_unlink : (h.unlink c n).currentIndex = h.currentIndex := by
  cases c <;> rfl

@[simp] theorem log_unlink : (h.unlink c n).log = h.log := by
  cases c <;> rfl

@[simp] theorem charts_link : (h.link c n).charts = h.charts := by
  cases c <;> rfl

@[simp] theorem chartData_link : (h.link c n).chartData = h.chartData := by
  cases c <;> rfl

@[simp] theorem nextChart_link : (h.link c n).nextChart = h.nextChart := by
  cases c <;> rfl

@[simp] theorem agents_link : (h.link c n).agents = h.agents := by
  cases c <;> rfl

@[simp] theorem nodesSet_link : (h.link c n).nodesSet = h.nodesSet := by
  cases c <;> rfl

@[simp] theorem tenant_link : (h.link c n).tenant = h.tenant := by
  cases c <;> rfl

@[simp] theorem nextContext_link : (h.link c n).nextContext = h.nextContext := by
  cases c <;> rfl

@[simp] theorem currentIndex_link : (h.link c n).currentIndex = h.currentIndex := by
  cases c <;> rfl

@[simp] theorem log_link : (h.link c n).log = h.log := by
  cases c <;> rfl

@[simp] theorem charts_remove : (h.remove c n).charts = h.charts := by
  unfold remove
  split <;> exact charts_unlink ..

@[simp] theorem chartData_remove : (h.remove c n).chartData = h.chartData := by
  unfold remove
  split <;> exact chartData_unlink ..

@[simp] theorem nextChart_remove : (h.remove c n).nextChart = h.nextChart := by
  unfold remove
  split <;> exact nextChart_unlink ..

@[simp] theorem agents_remove : (h.remove c n).agents = h.agents := by
  unfold remove
  split <;> exact agents_unlink ..

@[simp] theorem nodesSet_remove : (h.remove c n).nodesSet = h.nodesSet := by
  unfold remove
  split <;> exact nodesSet_unlink ..

@[simp] theorem tenant_remove : (h.remove c n).tenant = h.tenant := by
  unfold remove
  split <;> exact tenant_unlink ..

@[simp] theorem nextContext_remove : (h.remove c n).nextContext = h.nextContext := by
  unfold remove
  split <;> exact nextContext_unlink ..

@[simp] theorem currentIndex_remove : (h.remove c n).currentIndex = h.currentIndex := by
  unfold remove
  split <;> exact currentIndex_unlink ..

@[simp] theorem charts_detach : (h.detach n).charts = h.charts := by
  unfold detach
  split
  · exact charts_remove ..
  · rfl

@[simp] theorem chartData_detach : (h.detach n).chartData = h.chartData := by
  unfold detach
  split
  · exact chartData_remove ..
  · rfl

@[simp] theorem nextChart_detach : (h.detach n).nextChart = h.nextChart := by
  unfold detach
  split
  · exact nextChart_remove ..
  · rfl

@[simp] theorem agents_detach : (h.detach n).agents = h.agents := by
  unfold detach
  split
  · exact agents_remove ..
  · rfl

@[simp] theorem nodesSet_detach : (h.detach n).nodesSet = h.nodesSet := by
  unfold detach
  split
  · exact nodesSet_remove ..
  · rfl

@[simp] theorem tenant_detach : (h.detach n).tenant = h.tenant := by
  unfold detach
  split
  · exact tenant_remove ..
  · rfl

@[simp] theorem nextContext_detach : (h.detach n).nextContext = h.nextContext := by
  unfold detach
  split
  · exact nextContext_remove ..
  · rfl

@[simp] theorem currentIndex_detach : (h.detach n).currentIndex = h.currentIndex := by
  unfold detach
  split
  · exact currentIndex_remove ..
  · rfl

@[simp] theorem charts_push : (h.push c n).charts = h.charts :=
  (charts_link ..).trans (charts_detach ..)

@[simp] theorem chartData_push : (h.push c n).chartData = h.chartData :=
  (chartData_link ..).trans (chartData_detach ..)

@[simp] theorem nextChart_push : (h.push c n).nextChart = h.nextChart :=
  (nextChart_link ..).trans (nextChart_detach ..)

@[simp] theorem agents_push : (h.push c n).agents = h.agents :=
  (agents_link ..).trans (agents_detach ..)

@[simp] theorem nodesSet_push : (h.push c n).nodesSet = h.nodesSet :=
  (nodesSet_link ..).trans (nodesSet_detach ..)

@[simp] theorem tenant_push : (h.push c n).tenant = h.tenant :=
  (tenant_link ..).trans (tenant_detach ..)

@[simp] theorem nextContext_push : (h.push c n).nextContext = h.nextContext :=
  (nextContext_link ..).trans (nextContext_detach ..)

@[simp] theorem currentIndex_push : (h.push c n).currentIndex = h.currentIndex :=
  (currentIndex_link ..).trans (currentIndex_detach ..)

@[simp] theorem nodesSet_activateNode {h : Heap} {n : NodeRef} (skip : Bool) :
    (h.activateNode n skip).nodesSet = h.nodesSet := by
  unfold activateNode
  split
  · rfl
  · exact nodesSet_push ..

theorem mem_nodesSet_removeNode {h : Heap} {n m : NodeRef} :
    m ∈ (h.removeNode n).nodesSet ↔ m ∈ h.nodesSet ∧ m ≠ n := by
  simp [removeNode]

/-! ### The nodes -/

/-- A field of a node that is neither its container nor its link. -/
def Inner {β : Type} (g : Node → β) : Prop :=
  ∀ d c b, g { d with container := c, linked := b } = g d

theorem field_unlink {β : Type} {g : Node → β} (hg : Inner g) :
    g ((h.unlink c n).nodes m) = g (h.nodes m) := by
  cases c with
  | waiting a e => exact field_setNode _ n m g fun d => hg d d.container false
  | _ => rfl

theorem field_link {β : Type} {g : Node → β} (hg : Inner g) :
    g ((h.link c n).nodes m) = g (h.nodes m) := by
  cases c with
  | waiting a e => exact field_setNode _ n m g fun d => hg d d.container true
  | _ => rfl

theorem field_remove {β : Type} {g : Node → β} (hg : Inner g) :
    g ((h.remove c n).nodes m) = g (h.nodes m) := by
  have hn : g (((h.unlink c n).setNode n ({ · with container := none })).nodes m) =
      g (h.nodes m) :=
    (field_setNode _ n m g fun d => hg d none d.linked).trans (field_unlink h n m c hg)
  unfold remove
  split <;> exact hn

theorem field_detach {β : Type} {g : Node → β} (hg : Inner g) :
    g ((h.detach n).nodes m) = g (h.nodes m) := by
  unfold detach
  split
  · exact field_remove h n m _ hg
  · rfl

theorem field_push {β : Type} {g : Node → β} (hg : Inner g) :
    g ((h.push c n).nodes m) = g (h.nodes m) :=
  (field_setNode _ n m g fun d => hg d (some c) d.linked).trans
    ((field_link _ n m c hg).trans (field_detach h n m hg))

@[simp] theorem status_remove : ((h.remove c n).nodes m).status = (h.nodes m).status :=
  field_remove h n m c (g := Node.status) fun _ _ _ => rfl

@[simp] theorem result_remove : ((h.remove c n).nodes m).result = (h.nodes m).result :=
  field_remove h n m c (g := Node.result) fun _ _ _ => rfl

@[simp] theorem attacher_remove : ((h.remove c n).nodes m).attacher = (h.nodes m).attacher :=
  field_remove h n m c (g := Node.attacher) fun _ _ _ => rfl

@[simp] theorem isWaitAll_remove : ((h.remove c n).nodes m).isWaitAll = (h.nodes m).isWaitAll :=
  field_remove h n m c (g := Node.isWaitAll) fun _ _ _ => rfl

@[simp] theorem preNodeId_remove : ((h.remove c n).nodes m).preNodeId = (h.nodes m).preNodeId :=
  field_remove h n m c (g := Node.preNodeId) fun _ _ _ => rfl

@[simp] theorem runFlag_remove : ((h.remove c n).nodes m).runFlag = (h.nodes m).runFlag :=
  field_remove h n m c (g := Node.runFlag) fun _ _ _ => rfl

@[simp] theorem status_detach : ((h.detach n).nodes m).status = (h.nodes m).status :=
  field_detach h n m (g := Node.status) fun _ _ _ => rfl

@[simp] theorem result_detach : ((h.detach n).nodes m).result = (h.nodes m).result :=
  field_detach h n m (g := Node.result) fun _ _ _ => rfl

@[simp] theorem attacher_detach : ((h.detach n).nodes m).attacher = (h.nodes m).attacher :=
  field_detach h n m (g := Node.attacher) fun _ _ _ => rfl

@[simp] theorem isWaitAll_detach : ((h.detach n).nodes m).isWaitAll = (h.nodes m).isWaitAll :=
  field_detach h n m (g := Node.isWaitAll) fun _ _ _ => rfl

@[simp] theorem preNodeId_detach : ((h.detach n).nodes m).preNodeId = (h.nodes m).preNodeId :=
  field_detach h n m (g := Node.preNodeId) fun _ _ _ => rfl

@[simp] theorem skip_detach : ((h.detach n).nodes m).skip = (h.nodes m).skip :=
  field_detach h n m (g := Node.skip) fun _ _ _ => rfl

@[simp] theorem runFlag_detach : ((h.detach n).nodes m).runFlag = (h.nodes m).runFlag :=
  field_detach h n m (g := Node.runFlag) fun _ _ _ => rfl

@[simp] theorem status_push : ((h.push c n).nodes m).status = (h.nodes m).status :=
  field_push h n m c (g := Node.status) fun _ _ _ => rfl

@[simp] theorem result_push : ((h.push c n).nodes m).result = (h.nodes m).result :=
  field_push h n m c (g := Node.result) fun _ _ _ => rfl

@[simp] theorem attacher_push : ((h.push c n).nodes m).attacher = (h.nodes m).attacher :=
  field_push h n m c (g := Node.attacher) fun _ _ _ => rfl

@[simp] theorem isWaitAll_push : ((h.push c n).nodes m).isWaitAll = (h.nodes m).isWaitAll :=
  field_push h n m c (g := Node.isWaitAll) fun _ _ _ => rfl

@[simp] theorem preNodeId_push : ((h.push c n).nodes m).preNodeId = (h.nodes m).preNodeId :=
  field_push h n m c (g := Node.preNodeId) fun _ _ _ => rfl

@[simp] theorem skip_push : ((h.push c n).nodes m).skip = (h.nodes m).skip :=
  field_push h n m c (g := Node.skip) fun _ _ _ => rfl

@[simp] theorem runFlag_push : ((h.push c n).nodes m).runFlag = (h.nodes m).runFlag :=
  field_push h n m c (g := Node.runFlag) fun _ _ _ => rfl

/-- An operation on the container of a node does not write other nodes. -/
theorem nodes_unlink_of_ne {h : Heap} {n m : NodeRef} {c : Container} (hm : m ≠ n) :
    (h.unlink c n).nodes m = h.nodes m := by
  cases c with
  | waiting a e => exact Function.update_of_ne hm ..
  | _ => rfl

theorem nodes_link_of_ne {h : Heap} {n m : NodeRef} {c : Container} (hm : m ≠ n) :
    (h.link c n).nodes m = h.nodes m := by
  cases c with
  | waiting a e => exact Function.update_of_ne hm ..
  | _ => rfl

theorem nodes_remove_of_ne {h : Heap} {n m : NodeRef} {c : Container} (hm : m ≠ n) :
    (h.remove c n).nodes m = h.nodes m := by
  have hn := (nodes_setNode_of_ne (h := h.unlink c n) hm ({ · with container := none })).trans
    (nodes_unlink_of_ne hm)
  unfold remove
  split <;> exact hn

theorem nodes_detach_of_ne {h : Heap} {n m : NodeRef} (hm : m ≠ n) :
    (h.detach n).nodes m = h.nodes m := by
  unfold detach
  split
  · exact nodes_remove_of_ne hm
  · rfl

theorem nodes_push_of_ne {h : Heap} {n m : NodeRef} {c : Container} (hm : m ≠ n) :
    (h.push c n).nodes m = h.nodes m :=
  (nodes_setNode_of_ne hm _).trans ((nodes_link_of_ne hm).trans (nodes_detach_of_ne hm))

/-! ### The executors -/

theorem stack_setExecutor (l k : ℕ) (f : DfsExecutor → DfsExecutor) :
    (h.setExecutor l f).stack k = if k = l then f (h.stack k) else h.stack k := by
  unfold setExecutor
  split
  · subst k
    exact Function.update_self ..
  · exact Function.update_of_ne ‹_› ..

/-- A write that keeps a field of an executor keeps it for all executors. -/
theorem executor_setExecutor {β : Type} (g : DfsExecutor → β) {f : DfsExecutor → DfsExecutor}
    (hf : ∀ x, g (f x) = g x) (l k : ℕ) : g ((h.setExecutor l f).stack k) = g (h.stack k) := by
  rw [stack_setExecutor]
  split
  · exact hf _
  · rfl

/-- A field of an executor that is not its list. -/
def Outer {β : Type} (g : DfsExecutor → β) : Prop := ∀ x l, g { x with nodeList := l } = g x

theorem executor_remove {β : Type} {g : DfsExecutor → β} (hg : Outer g) (k : ℕ) :
    g ((h.remove c n).stack k) = g (h.stack k) := by
  have hn : g ((h.unlink c n).stack k) = g (h.stack k) := by
    cases c with
    | executor l => exact executor_setExecutor h g (fun x => hg x _) l k
    | _ => rfl
  unfold remove
  split <;> exact hn

theorem executor_detach {β : Type} {g : DfsExecutor → β} (hg : Outer g) (k : ℕ) :
    g ((h.detach n).stack k) = g (h.stack k) := by
  unfold detach
  split
  · exact executor_remove h n _ hg k
  · rfl

theorem executor_link {β : Type} {g : DfsExecutor → β} (hg : Outer g) (k : ℕ) :
    g ((h.link c n).stack k) = g (h.stack k) := by
  cases c with
  | executor l => exact executor_setExecutor h g (fun x => hg x _) l k
  | _ => rfl

theorem executor_push {β : Type} {g : DfsExecutor → β} (hg : Outer g) (k : ℕ) :
    g ((h.push c n).stack k) = g (h.stack k) :=
  (executor_link _ n c hg k).trans (executor_detach h n hg k)

@[simp] theorem currentNode_remove (k : ℕ) :
    ((h.remove c n).stack k).currentNode = (h.stack k).currentNode :=
  executor_remove h n c (g := DfsExecutor.currentNode) (fun _ _ => rfl) k

@[simp] theorem historyNodes_remove (k : ℕ) :
    ((h.remove c n).stack k).historyNodes = (h.stack k).historyNodes :=
  executor_remove h n c (g := DfsExecutor.historyNodes) (fun _ _ => rfl) k

@[simp] theorem currentAgent_remove (k : ℕ) :
    ((h.remove c n).stack k).currentAgent = (h.stack k).currentAgent :=
  executor_remove h n c (g := DfsExecutor.currentAgent) (fun _ _ => rfl) k

@[simp] theorem currentNode_detach (k : ℕ) :
    ((h.detach n).stack k).currentNode = (h.stack k).currentNode :=
  executor_detach h n (g := DfsExecutor.currentNode) (fun _ _ => rfl) k

@[simp] theorem historyNodes_detach (k : ℕ) :
    ((h.detach n).stack k).historyNodes = (h.stack k).historyNodes :=
  executor_detach h n (g := DfsExecutor.historyNodes) (fun _ _ => rfl) k

@[simp] theorem currentAgent_detach (k : ℕ) :
    ((h.detach n).stack k).currentAgent = (h.stack k).currentAgent :=
  executor_detach h n (g := DfsExecutor.currentAgent) (fun _ _ => rfl) k

@[simp] theorem currentNode_push (k : ℕ) :
    ((h.push c n).stack k).currentNode = (h.stack k).currentNode :=
  executor_push h n c (g := DfsExecutor.currentNode) (fun _ _ => rfl) k

@[simp] theorem historyNodes_push (k : ℕ) :
    ((h.push c n).stack k).historyNodes = (h.stack k).historyNodes :=
  executor_push h n c (g := DfsExecutor.historyNodes) (fun _ _ => rfl) k

@[simp] theorem currentAgent_push (k : ℕ) :
    ((h.push c n).stack k).currentAgent = (h.stack k).currentAgent :=
  executor_push h n c (g := DfsExecutor.currentAgent) (fun _ _ => rfl) k

/-! ### The container -/

/-- A removed node is in no container. -/
@[simp] theorem container_remove : ((h.remove c n).nodes n).container = none := by
  unfold remove
  split <;> simp

@[simp] theorem container_detach : ((h.detach n).nodes n).container = none := by
  unfold detach
  split
  · simp
  · assumption

@[simp] theorem container_push : ((h.push c n).nodes n).container = some c := by
  simp [push]

/-- A stopped node is in no container. -/
@[simp] theorem container_stop : ((h.stop n).nodes n).container = none := container_detach ..

/-! ### The waiting lists of an agent -/

theorem mem_waitingFor {es : List EventId} {a : AgentId} {h : Heap} {n : NodeRef} :
    n ∈ h.waitingFor es a ↔ ∃ e ∈ es, n ∈ h.waiting a e := List.mem_flatMap

theorem nodes_dropWaiting_of_mem {es : List EventId} {a : AgentId} {h : Heap} {n : NodeRef}
    (hn : n ∈ h.waitingFor es a) :
    (h.dropWaiting es a).nodes n = { h.nodes n with container := none, linked := false } :=
  if_pos hn

theorem nodes_dropWaiting_of_not_mem {es : List EventId} {a : AgentId} {h : Heap} {n : NodeRef}
    (hn : n ∉ h.waitingFor es a) : (h.dropWaiting es a).nodes n = h.nodes n := if_neg hn

theorem field_dropWaiting {β : Type} {g : Node → β} (hg : Inner g) (es : List EventId)
    (a : AgentId) :
    g ((h.dropWaiting es a).nodes m) = g (h.nodes m) := by
  by_cases hm : m ∈ h.waitingFor es a
  · rw [nodes_dropWaiting_of_mem hm]
    exact hg _ none false
  · rw [nodes_dropWaiting_of_not_mem hm]

/-! ### The history -/

/-- Removing a node records at most that it was misplaced. -/
theorem log_remove : (h.remove c n).log = h.log ∨ (h.remove c n).log = .misplaced n :: h.log := by
  unfold remove
  split
  · exact .inl (by simp)
  · exact .inr (by simp)

/-- Removing a node that is linked nowhere records nothing. -/
theorem log_remove_of_free {h : Heap} {n : NodeRef} (hn : (h.nodes n).container = none) :
    (h.remove c n).log = h.log := by
  simp [remove, hn]

theorem log_detach : (h.detach n).log = h.log ∨ (h.detach n).log = .misplaced n :: h.log := by
  unfold detach
  split
  · exact log_remove ..
  · exact .inl rfl

theorem log_push : (h.push c n).log = h.log ∨ (h.push c n).log = .misplaced n :: h.log := by
  simpa only [push, log_setNode, log_link] using log_detach h n

theorem log_suffix_remove : h.log <:+ (h.remove c n).log := by
  rcases log_remove h n c with h1 | h1 <;> simp [h1]

theorem log_suffix_detach : h.log <:+ (h.detach n).log := by
  rcases log_detach h n with h1 | h1 <;> simp [h1]

theorem log_suffix_push : h.log <:+ (h.push c n).log := by
  rcases log_push h n c with h1 | h1 <;> simp [h1]

theorem log_suffix_removeNode : h.log <:+ (h.removeNode n).log := log_suffix_remove ..

theorem log_suffix_activateNode (skip : Bool) : h.log <:+ (h.activateNode n skip).log := by
  unfold activateNode
  split
  · exact List.suffix_rfl
  · exact log_suffix_push ..

/-! ### Undefined behaviour -/

theorem ub_unlink (hub : (h.unlink c n).ub = false) : h.ub = false := by
  cases c with
  | waiting a e =>
    have hub' : (h.ub || !(h.nodes n).linked) = false := hub
    exact (Bool.or_eq_false_iff.mp hub').1
  | _ => exact hub

theorem ub_detach_le (hub : (h.detach n).ub = false) : h.ub = false := by
  unfold detach remove at hub
  split at hub
  · split at hub <;> exact ub_unlink h n _ hub
  · exact hub

/-- A push does not undo undefined behaviour. -/
theorem ub_push (hub : (h.push c n).ub = false) : h.ub = false := by
  refine ub_detach_le h n ?_
  cases c with
  | waiting a e =>
    have hub' : ((h.detach n).ub || ((h.detach n).nodes n).linked) = false := hub
    exact (Bool.or_eq_false_iff.mp hub').1
  | _ => exact hub

variable {h n}

theorem ub_waitEvent {cfg : Config} {a : AgentId} {e : EventId}
    (hub : (h.waitEvent cfg a n e).ub = false) : h.ub = false := by
  unfold waitEvent at hub
  split at hub
  · split at hub
    · exact ub_push h n _ hub
    · cases hub
  · exact hub

/-- **Taking a node out is in order** if its link is in a ring whenever its container is one. -/
theorem ub_detach_of_linked (hl : ∀ a e, (h.nodes n).container = some (.waiting a e) →
    (h.nodes n).linked = true) : (h.detach n).ub = h.ub := by
  have hu : ∀ c, (h.nodes n).container = some c → (h.unlink c n).ub = h.ub := by
    intro c hc
    cases c with
    | waiting a e =>
      change (h.ub || !(h.nodes n).linked) = h.ub
      rw [hl a e hc, Bool.not_true, Bool.or_false]
    | _ => rfl
  unfold detach
  split
  · rename_i c hc
    unfold remove
    dsimp only
    split <;> exact hu c hc
  · rfl

end Heap

end Asyncflow
