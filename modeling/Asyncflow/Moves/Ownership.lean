import Asyncflow.Lib.Ownership
import Asyncflow.Moves.Step

/-!
# Who owns a chart

A chart belongs to the `Subchart` attacher of its owner node, or to nobody, and it is listed
in `chart_dict_` of its agent under its name. `Asyncflow.Heap.ownership` is this part of the
heap, as an `Asyncflow.Ownership`: the charts are the objects, their nodes the slots and the
agents the registers. Most functions leave it alone, as this file says one by one.
-/

namespace Asyncflow

/-- The chart that an attacher holds. -/
def Attacher.chart? : Attacher → Option ChartId
  | .subchart c => some c
  | .timer _ | .waitAll _ => none

/-- The chart that an entry destroys. -/
def Obs.destroyed? : Obs → Option ChartId
  | .destroyed c _ => some c
  | _ => none

/-- The chart that hangs on a node. -/
def Node.chart? (d : Node) : Option ChartId := d.attacher.bind Attacher.chart?

theorem Node.chart?_congr {d d' : Node} (hd : d'.attacher = d.attacher) : d'.chart? = d.chart? := by
  rw [chart?, hd, chart?]

theorem Node.chart?_stop (d : Node) : d.stop.chart? = d.chart? := by
  rcases hd : d.attacher with - | (b | c | ids) <;>
    simp [Node.chart?, Node.stop, hd, Attacher.stop, Attacher.chart?]

namespace Heap

/-- **The charts as objects**, with their nodes as slots and the agents as registers. -/
def ownership (h : Heap) : Ownership ChartId NodeRef AgentId (Option String) where
  objects c := (h.charts c).map fun x => ⟨h.nodeList c, x.owner, x.agent, h.nameOf c⟩
  held n := (h.nodes n).chart?
  lists a := ((h.agents a).map (·.charts)).getD []
  gone := h.log.filterMap Obs.destroyed?

variable {h h' g : Heap} {n m : NodeRef} {c : ChartId} {a : AgentId}

/-! ### What does not concern it -/

/-- The charts, the agents and the names are the same, and so is what hangs on the nodes. -/
theorem ownership_congr (hc : h'.charts = h.charts) (hd : h'.chartData = h.chartData)
    (ha : h'.agents = h.agents) (hn : ∀ n, (h'.nodes n).chart? = (h.nodes n).chart?)
    (hl : h'.log.filterMap Obs.destroyed? = h.log.filterMap Obs.destroyed?) :
    h'.ownership = h.ownership := by
  unfold ownership nodeList nodesCount nameOf dataOf
  rw [hc, hd, ha, hl, funext hn]

theorem ownership_setNode (h : Heap) (n : NodeRef) {f : Node → Node}
    (hf : (f (h.nodes n)).chart? = (h.nodes n).chart?) :
    (h.setNode n f).ownership = h.ownership := by
  refine ownership_congr rfl rfl rfl (fun m => ?_) rfl
  rw [nodes_setNode]
  split
  · subst m
    exact hf
  · rfl

theorem ownership_note (h : Heap) {o : Obs} (ho : o.destroyed? = none) :
    (h.note o).ownership = h.ownership :=
  ownership_congr rfl rfl rfl (fun _ => rfl) (List.filterMap_cons_none ho)

theorem ownership_act (h : Heap) (n : NodeRef) {f : Node → Node} {o : Obs}
    (ho : o.destroyed? = none) (hf : (f (h.nodes n)).chart? = (h.nodes n).chart?) :
    (h.act n f o).ownership = h.ownership :=
  (ownership_note _ ho).trans (ownership_setNode h n hf)

/-- A write to a chart that keeps its owner node, its agent, its data and its nodes. -/
theorem ownership_setChart (h : Heap) (c : ChartId) {f : Chart → Chart}
    (hf : ∀ x, (f x).owner = x.owner ∧ (f x).agent = x.agent ∧ (f x).data = x.data ∧
      (f x).nodeCount = x.nodeCount) : (h.setChart c f).ownership = h.ownership := by
  have hobj : (h.setChart c f).ownership.objects = h.ownership.objects := by
    funext d
    rcases eq_or_ne d c with rfl | hd
    · cases hx : h.charts d with
      | none => simp [ownership, setChart, hx]
      | some x =>
        obtain ⟨ho, ha, hd, hn⟩ := hf x
        simp [ownership, setChart, nodeList, nodesCount, nameOf, dataOf, hx, ho, ha, hd, hn]
    · simp [ownership, setChart, nodeList, nodesCount, nameOf, dataOf, hd]
  exact congrArg (fun os => { h.ownership with objects := os }) hobj

theorem ownership_idle (h : Heap) (c : ChartId) :
    (h.setChart c ({ · with status := .idle })).ownership = h.ownership :=
  ownership_setChart h c fun _ => ⟨rfl, rfl, rfl, rfl⟩

/-- A write to an agent that keeps its charts. -/
theorem ownership_setAgent (h : Heap) (a : AgentId) {f : Agent → Agent}
    (hf : ∀ g, (f g).charts = g.charts) : (h.setAgent a f).ownership = h.ownership := by
  have hlists : (h.setAgent a f).ownership.lists = h.ownership.lists := by
    funext b
    rcases eq_or_ne b a with rfl | hb
    · cases hg : h.agents b with
      | none => simp [ownership, setAgent, hg]
      | some g => simp [ownership, setAgent, hg, hf]
    · simp [ownership, setAgent, hb]
  exact congrArg (fun ls => { h.ownership with lists := ls }) hlists

theorem destroyed_of_misplaced {log log' : List Obs}
    (hl : log' = log ∨ log' = .misplaced n :: log) :
    log'.filterMap Obs.destroyed? = log.filterMap Obs.destroyed? := by
  rcases hl with rfl | rfl
  · rfl
  · exact List.filterMap_cons_none rfl

@[simp] theorem ownership_remove (h : Heap) (k : Container) (n : NodeRef) :
    (h.remove k n).ownership = h.ownership :=
  ownership_congr (by simp) (by simp) (by simp) (fun m => Node.chart?_congr (attacher_remove ..))
    (destroyed_of_misplaced (log_remove ..))

@[simp] theorem ownership_detach (h : Heap) (n : NodeRef) : (h.detach n).ownership = h.ownership :=
  ownership_congr (by simp) (by simp) (by simp) (fun m => Node.chart?_congr (attacher_detach ..))
    (destroyed_of_misplaced (log_detach ..))

@[simp] theorem ownership_push (h : Heap) (k : Container) (n : NodeRef) :
    (h.push k n).ownership = h.ownership :=
  ownership_congr (by simp) (by simp) (by simp) (fun m => Node.chart?_congr (attacher_push ..))
    (destroyed_of_misplaced (log_push ..))

@[simp] theorem ownership_crash (h : Heap) : h.crash.ownership = h.ownership := rfl

@[simp] theorem ownership_setExecutor (h : Heap) (l : ℕ) (f : DfsExecutor → DfsExecutor) :
    (h.setExecutor l f).ownership = h.ownership := rfl

theorem ownership_foldl {β : Type} {f : Heap → β → Heap}
    (hf : ∀ h b, (f h b).ownership = h.ownership) (h : Heap) (bs : List β) :
    (bs.foldl f h).ownership = h.ownership := by
  induction bs generalizing h with
  | nil => rfl
  | cons b bs ih => exact (ih _).trans (hf h b)

/-! ### Stopping -/

theorem ownership_stopNode (fuel : ℕ) (h : Heap) (n : NodeRef) :
    (stopNode fuel h n).ownership = h.ownership := by
  induction fuel generalizing h n with
  | zero => rfl
  | succ fuel ih =>
    have hstop : (h.act n Node.stop (.stop n (h.nodes n).status)).ownership = h.ownership :=
      ownership_act h n rfl (Node.chart?_stop _)
    rw [stopNode, ← hstop]
    generalize h.act n Node.stop (.stop n (h.nodes n).status) = g
    rw [ownership_detach]
    split
    · rw [ownership_note _ rfl, ownership_idle]
      exact ownership_foldl ih g _
    · rfl

@[simp] theorem ownership_stop (h : Heap) (n : NodeRef) : (h.stop n).ownership = h.ownership :=
  ownership_stopNode ..

@[simp] theorem ownership_stopChart (h : Heap) (c : ChartId) :
    (h.stopChart c).ownership = h.ownership := by
  unfold stopChart
  rw [ownership_note _ rfl, ownership_idle]
  exact ownership_foldl ownership_stop h _

/-! ### Agents -/

theorem ownership_register (o : ObjectId) (hfresh : h.agents (h.agentIdCount + 1) = none) :
    (h.register o).ownership = h.ownership := by
  unfold register
  split
  · rfl
  · have hlists : (fun b => ((Function.update h.agents (h.agentIdCount + 1)
        (some { object := o }) b).map (·.charts)).getD []) = h.ownership.lists := by
      funext b
      rcases eq_or_ne b (h.agentIdCount + 1) with rfl | hb
      · simp [ownership, hfresh]
      · simp [ownership, hb]
    exact congrArg (fun ls => { h.ownership with lists := ls }) hlists

@[simp] theorem ownership_unregisterGameObject (h : Heap) (a : AgentId) (inStep : Bool) :
    (h.unregisterGameObject a inStep).ownership = h.ownership := by
  have hadd : ∀ g : Heap, (g.addDyingAgent a inStep).ownership = g.ownership := by
    intro g
    unfold addDyingAgent
    split <;> rfl
  have hun : ∀ g : Heap, (g.unRegister a).ownership = g.ownership := by
    intro g
    unfold unRegister
    split
    · exact ownership_setAgent g a (f := ({ · with registered := false })) fun _ => rfl
    · rfl
  unfold unregisterGameObject
  split
  · rw [hadd, hun, stopAgent, ownership_foldl ownership_stopChart]
    exact ownership_setAgent h a (f := ({ · with status := .destroying })) fun _ => rfl
  · rfl

@[simp] theorem ownership_dropWaiting (h : Heap) (es : List EventId) (a : AgentId) :
    (h.dropWaiting es a).ownership = h.ownership := by
  refine ownership_congr rfl rfl rfl (fun n => ?_) rfl
  simp only [dropWaiting]
  split <;> rfl

/-! ### The calls of a node function -/

@[simp] theorem ownership_waitEvent (cfg : Config) (h : Heap) (a : AgentId) (n : NodeRef)
    (e : EventId) :
    (h.waitEvent cfg a n e).ownership = h.ownership := by
  unfold waitEvent
  split
  · split
    · rw [ownership_note _ rfl, ownership_setNode _ _ rfl, ownership_push]
    · rfl
  · rfl

@[simp] theorem ownership_managerWaitEvent (cfg : Config) (h : Heap) (a : AgentId) (e : EventId) :
    (h.managerWaitEvent cfg a e).2.ownership = h.ownership := by
  unfold managerWaitEvent
  split
  · rfl
  · split
    · rw [ownership_waitEvent, ownership_act _ _ rfl rfl]
    · rfl

@[simp] theorem ownership_waitAll (h : Heap) (args : List ℤ) :
    (h.waitAll args).2.ownership = h.ownership := by
  unfold waitAll
  split
  · rfl
  · rename_i n _
    split
    · rfl
    · rfl
    · rename_i hsub
      refine ownership_act h n rfl ?_
      have hnone : (h.nodes n).chart? = none := by
        unfold Node.chart?
        rcases hd : (h.nodes n).attacher with - | (b | c | ids)
        · rfl
        · rfl
        · exact absurd hd (hsub c)
        · rfl
      rw [hnone, Node.chart?]
      unfold Node.waitAll
      dsimp only
      split <;> rfl

@[simp] theorem ownership_stopNodeId (h : Heap) (c : ChartId) (id : ℤ) :
    (h.stopNodeId c id).ownership = h.ownership := by
  unfold stopNodeId
  split
  · rfl
  · split
    · rfl
    · rw [ownership_remove, ownership_stop]

@[simp] theorem ownership_stopNodes (h : Heap) (args : List ℤ) :
    (h.stopNodes args).2.ownership = h.ownership := by
  unfold stopNodes
  split
  · rfl
  · exact ownership_foldl (fun g id => ownership_stopNodeId g _ id) h args

@[simp] theorem ownership_stopFlow (h : Heap) (args : List ℤ) :
    (h.stopFlow args).2.ownership = h.ownership := by
  unfold stopFlow
  split
  · rfl
  · dsimp only
    split
    · rfl
    · exact ownership_foldl (fun g (i : ℕ) => ownership_stopNodeId g _ i) h _

@[simp] theorem ownership_removeNode (h : Heap) (n : NodeRef) :
    (h.removeNode n).ownership = h.ownership := ownership_remove h .asyncWaiting n

@[simp] theorem ownership_activateNode (h : Heap) (n : NodeRef) (skip : Bool) :
    (h.activateNode n skip).ownership = h.ownership := by
  unfold activateNode
  split
  · rfl
  · rw [ownership_setNode _ _ rfl, ownership_push]

@[simp] theorem ownership_createAsyncContext (h : Heap) :
    h.createAsyncContext.ownership = h.ownership := by
  unfold createAsyncContext
  split
  · rfl
  · rename_i n _
    split
    · have hset := ownership_setNode h n (f := ({ · with status := .running })) rfl
      have hpush := ownership_push (h.setNode n ({ · with status := .running })) .asyncWaiting n
      exact (ownership_note (o := .suspend n h.nextContext) _ rfl).trans (hpush.trans hset)
    · rfl

@[simp] theorem ownership_continueAsyncNode (h : Heap) (ctx : Context) (b : Bool) :
    (h.continueAsyncNode ctx b).2.ownership = h.ownership := by
  refine continueAsyncNode_elim (P := fun g => g.ownership = h.ownership) ctx b rfl rfl
    fun _ _ => ?_
  rw [continueNode, ownership_act _ _ rfl rfl, ownership_activateNode, ownership_removeNode]

@[simp] theorem ownership_cancelAsyncNode (h : Heap) (ctx : Context) (stop : Bool) :
    (h.cancelAsyncNode ctx stop).2.ownership = h.ownership := by
  refine cancelAsyncNode_elim (P := fun g => g.ownership = h.ownership) ctx stop rfl rfl
    fun _ _ => ?_
  unfold cancelNode
  split
  · rw [ownership_note _ rfl, ownership_removeNode]
  · rw [ownership_act _ _ rfl rfl, ownership_activateNode, ownership_removeNode]

@[simp] theorem ownership_resumeNode (h : Heap) (n : NodeRef) (ns : List NodeRef) :
    (h.resumeNode n ns).ownership = h.ownership := by
  unfold resumeNode takeActivated
  rw [ownership_removeNode, ownership_act _ _ rfl rfl, ownership_stop, ownership_setNode _ _ rfl]
  rfl

/-! ### Flows -/

@[simp] theorem ownership_pop (h : Heap) (l : ℕ) : (h.pop l).ownership = h.ownership := by
  unfold pop
  split
  · rfl
  · dsimp only
    split
    · rw [ownership_setNode _ _ rfl, ownership_setExecutor]
    · rfl

@[simp] theorem ownership_beginFlow (h : Heap) (l : ℕ) (a : AgentId) (n : NodeRef) :
    (h.beginFlow l a n).ownership = h.ownership := by
  have hact := ownership_act h n (f := ({ · with status := .idle })) (o := .flow n) rfl rfl
  have hpush : ∀ g : Heap, ({ g.push (.executor l) n with currentIndex := l } : Heap).ownership =
      g.ownership := fun g => ownership_push g (.executor l) n
  exact (hpush _).trans hact

@[simp] theorem ownership_skipFlow (h : Heap) (l : ℕ) (a : AgentId) (n : NodeRef) :
    (h.skipFlow l a n).ownership = h.ownership := ownership_note _ rfl

@[simp] theorem ownership_continueFlow (h : Heap) (l : ℕ) (n : NodeRef) :
    (h.continueFlow l n).ownership = h.ownership := by
  unfold continueFlow
  rw [ownership_push, ownership_act _ _ rfl rfl]

@[simp] theorem ownership_cutFlow (h : Heap) (l : ℕ) : (h.cutFlow l).ownership = h.ownership := by
  refine ownership_foldl (fun g n => ?_) h _
  rw [ownership_act _ _ rfl rfl, ownership_pop]

@[simp] theorem ownership_deferTick (cfg : Config) (h : Heap) (l : ℕ) (n : NodeRef) :
    (h.deferTick cfg l n).ownership = h.ownership := by
  unfold deferTick
  split
  · exact ownership_waitEvent ..
  · rfl

@[simp] theorem ownership_enterNode (h : Heap) (l : ℕ) (n : NodeRef) :
    (h.enterNode l n).ownership = h.ownership := by
  unfold enterNode
  dsimp only
  split
  · rw [ownership_setNode _ _ rfl, ownership_setExecutor]
  · rw [ownership_act _ _ rfl rfl, ownership_setExecutor]

@[simp] theorem ownership_returnNode (h : Heap) (n : NodeRef) (r : NodeResult) :
    (h.returnNode n r).ownership = h.ownership := by
  refine ownership_act h n rfl ?_
  unfold Node.return
  split <;> rfl

@[simp] theorem ownership_callControl (h : Heap) (f : NodeFunc) :
    (h.callControl f).2.ownership = h.ownership := by
  cases f with
  | waitAll params => exact ownership_waitAll ..
  | stopNode params => exact ownership_stopNodes ..
  | stopFlow params => exact ownership_stopFlow ..
  | null | script => rfl

@[simp] theorem ownership_finishNode (h : Heap) (l : ℕ) (n : NodeRef) :
    (h.finishNode l n).ownership = h.ownership := by
  have hpop : (h.popHeld l n).ownership = h.ownership := by
    unfold popHeld
    split
    · exact ownership_pop ..
    · rfl
  rw [← hpop]
  unfold finishNode
  generalize h.popHeld l n = g
  dsimp only
  split
  · exact ownership_setNode _ _ rfl
  · have hsucc : ∀ r, (g.act n (fun d => { d.count with status := .endRun })
        (.succ n r)).ownership = g.ownership := by
      refine fun r => ownership_act g n rfl ?_
      dsimp only [Node.count]
      split <;> rfl
    unfold addSubsequenceNodes
    dsimp only
    split
    · exact hsucc _
    · refine (ownership_foldl (fun k i => ?_) _ _).trans (hsucc _)
      unfold addChild
      split
      · rw [ownership_push, ownership_act _ _ rfl rfl]
      · rfl

@[simp] theorem ownership_restoreHistory (h : Heap) (l : ℕ) :
    (h.restoreHistory l).ownership = h.ownership := by
  unfold restoreHistory
  rw [ownership_setExecutor]
  refine ownership_foldl (fun g n => ?_) h _
  unfold restoreNode
  dsimp only
  split
  · rw [ownership_stop, ownership_setNode _ _ rfl]
  · exact ownership_setNode _ _ rfl

@[simp] theorem ownership_markStarted (h : Heap) (c : ChartId) :
    (h.markStarted c).ownership = h.ownership := by
  unfold markStarted
  split
  · split
    · rfl
    · rw [ownership_act _ _ rfl rfl]
      exact ownership_setChart h c fun _ => ⟨rfl, rfl, rfl, rfl⟩
  · rfl

end Heap

end Asyncflow
