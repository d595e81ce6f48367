import Asyncflow.Moves.HistoryLists
import Asyncflow.Runtime.Attachers

/-!
# The running nodes of a chart

`Asyncflow.Heap.Lively` says that a chart has a running node, if it runs. Every function on
the heap keeps that of a chart, unless it writes the status of a node of the chart itself:
a node that is stopped takes its subcharts with it, and these are idle in the end
(`Asyncflow.Heap.lively_stopNode`) or gone (`Asyncflow.Heap.lively_destroyChart`).
-/

namespace Asyncflow

namespace Heap

variable {h g : Heap} {c d : ChartId} {n m : NodeRef}

/-! ### Writes to the heap -/

/-- **The chart has a running node, if it runs.** -/
def Lively (h : Heap) (c : ChartId) : Prop := h.chartRunning c = true → h.checkRunning c = true

instance (h : Heap) (c : ChartId) : Decidable (h.Lively c) := by
  unfold Lively
  infer_instance

theorem checkRunning_iff : h.checkRunning c = true ↔
    ∃ i < h.nodesCount c, (h.nodes ⟨c, i⟩).status = .running := by
  simp [checkRunning, nodeList]

theorem lively_of_not_running (hc : h.chartRunning c = false) : h.Lively c := by
  intro hr
  rw [hc] at hr
  cases hr

/-- The status of the chart and the number of its nodes are as they were, and the running nodes
of the chart keep running. -/
theorem lively_of_status (hc : (g.charts c).map (fun x => (x.status, x.nodeCount)) =
      (h.charts c).map fun x => (x.status, x.nodeCount))
    (hn : ∀ i, (h.nodes ⟨c, i⟩).status = .running → (g.nodes ⟨c, i⟩).status = .running)
    (hl : h.Lively c) : g.Lively c := by
  have hrun : g.chartRunning c = h.chartRunning c := by
    have hf := congrArg (Option.any fun p : ChartStatus × ℕ => p.1 == .running) hc
    rwa [Option.any_map, Option.any_map] at hf
  have hcount : g.nodesCount c = h.nodesCount c := by
    have hf := congrArg (fun o : Option (ChartStatus × ℕ) => (o.map Prod.snd).getD 0) hc
    simp only [Option.map_map] at hf
    exact hf
  intro hr
  rw [hrun] at hr
  obtain ⟨i, hi, his⟩ := checkRunning_iff.mp (hl hr)
  exact checkRunning_iff.mpr ⟨i, hcount ▸ hi, hn i his⟩

theorem lively_of_eq (hc : g.charts = h.charts) (hn : g.nodes = h.nodes) (hl : h.Lively c) :
    g.Lively c := by
  refine lively_of_status ?_ (fun i hi => ?_) hl
  · rw [hc]
  · rwa [hn]

/-- Containers do not matter. -/
theorem lively_of_statuses (hc : g.charts = h.charts)
    (hn : ∀ n, (g.nodes n).status = (h.nodes n).status) (hl : h.Lively c) : g.Lively c := by
  refine lively_of_status ?_ (fun i hi => ?_) hl
  · rw [hc]
  · rwa [hn]

/-- A node of another chart is written, or one that keeps running. -/
theorem lively_setNode {f : Node → Node}
    (hf : n.chart = c → ∀ d : Node, d.status = .running → (f d).status = .running)
    (hl : h.Lively c) : (h.setNode n f).Lively c := by
  have hc : (h.setNode n f).charts = h.charts := rfl
  refine lively_of_status (by rw [hc]) (fun i hi => ?_) hl
  rw [nodes_setNode]
  split
  · subst n
    exact hf rfl _ hi
  · exact hi

theorem lively_act {f : Node → Node} {o : Obs}
    (hf : n.chart = c → ∀ d : Node, d.status = .running → (f d).status = .running)
    (hl : h.Lively c) : (h.act n f o).Lively c := lively_setNode hf hl

theorem lively_act_of_ne (hn : n.chart ≠ c) {f : Node → Node} {o : Obs} (hl : h.Lively c) :
    (h.act n f o).Lively c := lively_setNode (fun he => absurd he hn) hl

theorem lively_push (d : Container) (hl : h.Lively c) : (h.push d n).Lively c :=
  lively_of_statuses (charts_push ..) (fun _ => status_push ..) hl

theorem lively_remove (d : Container) (hl : h.Lively c) : (h.remove d n).Lively c :=
  lively_of_statuses (charts_remove ..) (fun _ => status_remove ..) hl

theorem lively_detach (hl : h.Lively c) : (h.detach n).Lively c :=
  lively_of_statuses (charts_detach ..) (fun _ => status_detach ..) hl

theorem charts_setChart_self (h : Heap) (c : ChartId) (f : Chart → Chart) :
    (h.setChart c f).charts c = (h.charts c).map f := Function.update_self ..

theorem charts_setChart_of_ne (hd : c ≠ d) (f : Chart → Chart) :
    (h.setChart d f).charts c = h.charts c := Function.update_of_ne hd ..

/-- Another chart is written. -/
theorem lively_setChart_of_ne (hd : d ≠ c) {f : Chart → Chart} (hl : h.Lively c) :
    (h.setChart d f).Lively c := by
  refine lively_of_status (h := h) ?_ (fun i hi => hi) hl
  rw [charts_setChart_of_ne hd.symm]

/-- The chart has become idle. -/
theorem lively_of_idle {o : Option Chart} (hc : g.charts c = o.map ({ · with status := .idle })) :
    g.Lively c := by
  refine lively_of_not_running ?_
  rw [chartRunning, hc]
  cases o <;> rfl

theorem lively_setIdle (d : ChartId) (hl : h.Lively c) :
    (h.setChart d ({ · with status := .idle })).Lively c := by
  rcases eq_or_ne d c with rfl | hd
  · exact lively_of_idle (charts_setChart_self ..)
  · exact lively_setChart_of_ne hd hl

/-- A chart is written, but neither its status nor its nodes. -/
theorem lively_setChart {f : Chart → Chart}
    (hf : ∀ x, (f x).status = x.status ∧ (f x).nodeCount = x.nodeCount) (hl : h.Lively c) :
    (h.setChart d f).Lively c := by
  refine lively_of_status (h := h) ?_ (fun i hi => hi) hl
  rcases eq_or_ne c d with rfl | hd
  · rw [charts_setChart_self, Option.map_map]
    refine Option.map_congr fun x _ => ?_
    exact Prod.ext (hf x).1 (hf x).2
  · rw [charts_setChart_of_ne hd]

theorem lively_foldl {β : Type} {f : Heap → β → Heap} (bs : List β)
    (hf : ∀ g, ∀ b ∈ bs, g.Lively c → (f g b).Lively c) (hl : h.Lively c) :
    (bs.foldl f h).Lively c := by
  induction bs generalizing h with
  | nil => exact hl
  | cons b bs ih =>
    exact ih (fun g b' hb' => hf g b' (List.mem_cons_of_mem b hb')) (hf h b List.mem_cons_self hl)

/-! ### Stopping and destroying -/

/-- **Stopping a node of another chart**: a chart whose nodes are stopped on the way is idle in
the end. -/
theorem lively_stopNode (fuel : ℕ) (h : Heap) (n : NodeRef) (hn : n.chart ≠ c) (hl : h.Lively c) :
    (stopNode fuel h n).Lively c := by
  induction fuel generalizing h n with
  | zero => exact hl
  | succ fuel ih =>
    have hself : (h.act n Node.stop (.stop n (h.nodes n).status)).Lively c := lively_act_of_ne hn hl
    rw [stopNode]
    refine lively_detach ?_
    split
    · rename_i d hd
      rcases eq_or_ne d c with rfl | hdc
      · exact lively_of_idle (charts_setChart_self ..)
      · refine lively_setChart_of_ne hdc (lively_foldl _ (fun g k hk => ?_) hself)
        exact ih g k (by rwa [chart_of_mem_nodeList hk])
    · exact hself

theorem lively_stop (hn : n.chart ≠ c) (hl : h.Lively c) : (h.stop n).Lively c :=
  lively_stopNode _ h n hn hl

/-- **`Chart::Stop`**, of this chart or another. -/
theorem lively_stopChart (d : ChartId) (hl : h.Lively c) : (h.stopChart d).Lively c := by
  rcases eq_or_ne d c with rfl | hd
  · exact lively_of_idle (charts_setChart_self ..)
  · refine lively_setChart_of_ne hd (lively_foldl _ (fun g k hk hg => lively_stop ?_ hg) hl)
    rwa [chart_of_mem_nodeList hk]

theorem lively_of_none (hc : g.charts c = none) : g.Lively c := by
  refine lively_of_not_running ?_
  rw [chartRunning, hc]
  rfl

theorem lively_forgetChart (d : ChartId) (hl : h.Lively c) : (h.forgetChart d).Lively c := by
  rcases eq_or_ne c d with rfl | hd
  · exact lively_of_none (Function.update_self ..)
  · have hc : (h.forgetChart d).charts c = h.charts c := Function.update_of_ne hd ..
    have hn : ∀ n, ((h.forgetChart d).nodes n).status = (h.nodes n).status := by
      intro n
      unfold forgetChart setOwner
      split
      · exact field_setNode _ _ _ Node.status (f := ({ · with attacher := none })) (fun _ => rfl)
      · rfl
    refine lively_of_status (by rw [hc]) (fun i hi => ?_) hl
    rwa [hn]

theorem lively_dropChart (d : ChartId) (hl : h.Lively c) : (h.dropChart d).Lively c := by
  rw [dropChart_eq]
  split
  · exact lively_of_eq rfl rfl (lively_forgetChart d hl)
  · exact lively_forgetChart d hl

theorem lively_dropChart_self (h : Heap) (c : ChartId) : (h.dropChart c).Lively c :=
  lively_of_none (Function.update_self ..)

/-- **`Chart::~Chart`**, of this chart or another. -/
theorem lively_destroyChart (fuel : ℕ) (h : Heap) (d : ChartId) (hl : h.Lively c) :
    (destroyChart fuel h d).Lively c := by
  induction fuel generalizing h d with
  | zero => exact hl
  | succ fuel ih =>
    rw [destroyChart_succ]
    rcases eq_or_ne d c with rfl | hd
    · exact lively_dropChart_self _ d
    · refine lively_dropChart d (lively_foldl _ (fun g k hk hg => ?_) hl)
      have hne : k.chart ≠ c := by rwa [chart_of_mem_nodeList hk]
      have hs := lively_stop hne hg
      unfold loseNode
      refine lively_act_of_ne hne ?_
      split
      · exact ih _ _ hs
      · exact hs

theorem lively_deleteChart (d : ChartId) (hl : h.Lively c) : (h.deleteChart d).Lively c :=
  lively_destroyChart _ h d hl

theorem lively_deleteAttacher (n : NodeRef) (hl : h.Lively c) : (h.deleteAttacher n).Lively c := by
  unfold deleteAttacher
  split
  · exact lively_deleteChart _ hl
  · exact hl

theorem lively_clearAttacher (n : NodeRef) (hl : h.Lively c) : (h.clearAttacher n).Lively c :=
  lively_act (fun _ _ => id) (lively_deleteAttacher n hl)

/-! ### The calls -/

theorem lively_waitEvent (cfg : Config) (a : AgentId) (n : NodeRef) (e : EventId)
    (hl : h.Lively c) : (h.waitEvent cfg a n e).Lively c := by
  unfold waitEvent
  split
  · split
    · have hs : ((h.push (.waiting a e) n).setNode n ({ · with status := .running })).Lively c :=
        lively_setNode (fun _ _ _ => rfl) (lively_push _ hl)
      exact lively_of_eq rfl rfl hs
    · exact lively_of_eq rfl rfl hl
  · exact hl

theorem lively_wait (hl : h.Lively c) : h.wait.Lively c := by
  unfold wait
  split
  · exact hl
  · exact lively_act (fun _ _ _ => rfl) (lively_deleteAttacher _ hl)

theorem lively_managerWaitEvent (cfg : Config) (a : AgentId) (e : EventId) (hl : h.Lively c) :
    (h.managerWaitEvent cfg a e).2.Lively c := by
  unfold managerWaitEvent
  split
  · exact hl
  · split
    · exact lively_waitEvent cfg a _ e (lively_act (fun _ _ _ => rfl) hl)
    · exact hl

/-- A call for the current node, which belongs to another chart. -/
theorem lively_waitAll (args : List ℤ) (hn : ∀ n, h.currentNode = some n → n.chart ≠ c)
    (hl : h.Lively c) : (h.waitAll args).2.Lively c := by
  unfold waitAll
  split
  · exact lively_of_eq rfl rfl hl
  · rename_i n hcur
    split
    · exact lively_of_eq rfl rfl hl
    · exact lively_of_eq rfl rfl hl
    · exact lively_act_of_ne (hn n hcur) hl

theorem lively_stopNodeId (hd : d ≠ c) (i : ℤ) (hl : h.Lively c) : (h.stopNodeId d i).Lively c := by
  unfold stopNodeId
  split
  · exact hl
  · split
    · exact lively_of_eq rfl rfl hl
    · exact lively_remove _ (lively_stop hd hl)

theorem lively_stopNodes (args : List ℤ) (hn : ∀ n, h.currentNode = some n → n.chart ≠ c)
    (hl : h.Lively c) : (h.stopNodes args).2.Lively c := by
  unfold stopNodes
  split
  · exact lively_of_eq rfl rfl hl
  · rename_i n hcur
    exact lively_foldl args (fun g i _ => lively_stopNodeId (hn n hcur) i) hl

theorem lively_stopFlow (args : List ℤ) (hn : ∀ n, h.currentNode = some n → n.chart ≠ c)
    (hl : h.Lively c) : (h.stopFlow args).2.Lively c := by
  unfold stopFlow
  split
  · exact lively_of_eq rfl rfl hl
  · rename_i n hcur
    dsimp only
    split
    · exact lively_of_eq rfl rfl hl
    · exact lively_foldl _ (fun g i _ => lively_stopNodeId (hn n hcur) i) hl

theorem lively_callControl (f : NodeFunc) (hn : ∀ n, h.currentNode = some n → n.chart ≠ c)
    (hl : h.Lively c) : (h.callControl f).2.Lively c := by
  cases f with
  | null | script => exact hl
  | waitAll args => exact lively_waitAll args hn hl
  | stopNode args => exact lively_stopNodes args hn hl
  | stopFlow args => exact lively_stopFlow args hn hl

theorem lively_createAsyncContext (hl : h.Lively c) : h.createAsyncContext.Lively c := by
  unfold createAsyncContext
  split
  · exact hl
  · rename_i n _
    split
    · have hs : (h.setNode n ({ · with status := .running })).Lively c :=
        lively_setNode (fun _ _ _ => rfl) hl
      exact lively_of_eq rfl rfl (lively_push (n := n) .asyncWaiting hs)
    · exact hl

theorem lively_removeNode (n : NodeRef) (hl : h.Lively c) : (h.removeNode n).Lively c :=
  lively_of_eq rfl rfl (lively_remove (n := n) .asyncWaiting hl)

theorem lively_activateNode (n : NodeRef) (skip : Bool) (hl : h.Lively c) :
    (h.activateNode n skip).Lively c := by
  unfold activateNode
  split
  · exact hl
  · exact lively_setNode (fun _ _ => id) (lively_push _ hl)

theorem lively_continueAsyncNode (ctx : Context) (b : Bool) (hl : h.Lively c) :
    (h.continueAsyncNode ctx b).2.Lively c :=
  continueAsyncNode_elim (P := (·.Lively c)) ctx b hl hl fun _ _ =>
    lively_act (fun _ _ => id) (lively_activateNode _ _ (lively_removeNode _ hl))

theorem lively_cancelAsyncNode (ctx : Context) (stop : Bool) (hl : h.Lively c) :
    (h.cancelAsyncNode ctx stop).2.Lively c := by
  refine cancelAsyncNode_elim (P := (·.Lively c)) ctx stop hl hl fun _ _ => ?_
  unfold cancelNode
  split
  · exact lively_of_eq rfl rfl (lively_removeNode _ hl)
  · exact lively_act (fun _ _ => id) (lively_activateNode _ _ (lively_removeNode _ hl))

/-! ### Charts and agents -/

/-- A new chart does not run. -/
theorem lively_initChart (d : DataId) (o : Option NodeRef) (hl : h.Lively c) :
    (h.initChart d o).Lively c := by
  rcases eq_or_ne c h.nextChart with rfl | hc
  · refine lively_of_not_running ?_
    rw [chartRunning,
      show (h.initChart d o).charts h.nextChart = some _ from Function.update_self ..]
    rfl
  · have hsame : (h.initChart d o).charts c = h.charts c := Function.update_of_ne hc ..
    refine lively_of_status (by rw [hsame]) (fun i hi => ?_) hl
    have hn : (h.initChart d o).nodes ⟨c, i⟩ = h.nodes ⟨c, i⟩ := if_neg hc
    rwa [hn]

theorem lively_addChart (a : AgentId) (d : ChartId) (hl : h.Lively c) :
    (h.addChart a d).2.Lively c := by
  unfold addChart
  split
  · exact hl
  · split
    · exact hl
    · have hs : (h.setChart d ({ · with agent := some a })).Lively c :=
        lively_setChart (fun _ => ⟨rfl, rfl⟩) hl
      exact lively_of_eq rfl rfl hs

theorem lively_attachChart (a : AgentId) (d : DataId) (hl : h.Lively c) :
    (h.attachChart a d).Lively c := by
  have hadd := lively_addChart a h.nextChart (lively_initChart d none hl)
  unfold attachChart
  dsimp only
  split
  · exact hadd
  · exact lively_deleteChart _ hadd

theorem lively_removeChart (a : AgentId) (name : String) (hl : h.Lively c) :
    (h.removeChart a name).Lively c := by
  unfold removeChart
  split
  · exact lively_deleteChart _ hl
  · exact hl

theorem lively_makeSubchart (n : NodeRef) (d : DataId) (a : AgentId) (hl : h.Lively c) :
    (h.makeSubchart n d a).2.Lively c :=
  lively_act (fun _ _ _ => rfl) (lively_addChart a h.nextChart (lively_initChart d (some n) hl))

theorem lively_prepareSubchart (name : String) (a : AgentId) (hl : h.Lively c) :
    (h.prepareSubchart name a).2.Lively c := by
  unfold prepareSubchart
  split
  · exact lively_of_eq rfl rfl hl
  · split
    · exact hl
    · split
      · exact lively_of_eq rfl rfl hl
      · exact lively_of_eq rfl rfl hl
      · split
        · exact lively_act (fun _ _ _ => rfl) hl
        · exact lively_makeSubchart _ _ a (lively_clearAttacher _ hl)
      · exact lively_makeSubchart _ _ a hl

/-- **A chart that is started** has a running node. -/
theorem lively_markStarted (d : ChartId) (hl : h.Lively c) : (h.markStarted d).Lively c := by
  unfold markStarted
  split
  · rename_i x hx
    split
    · exact lively_of_eq rfl rfl hl
    · rename_i hne
      rcases eq_or_ne d c with rfl | hd
      · intro _
        refine checkRunning_iff.mpr ⟨0, ?_, ?_⟩
        · have hc : ((h.setChart d ({ · with status := .running })).act ⟨d, 0⟩
              (Node.start (h.startFuncName d = "")) (.started d)).charts d =
              (h.charts d).map ({ · with status := .running }) := charts_setChart_self ..
          rw [nodesCount, hc, hx]
          exact Nat.pos_of_ne_zero hne
        · rw [nodes_act, nodes_setNode_self]
          rfl
      · exact lively_act (fun _ _ _ => rfl) (lively_setChart_of_ne hd hl)
  · exact lively_of_eq rfl rfl hl

theorem lively_stopAgent (a : AgentId) (hl : h.Lively c) : (h.stopAgent a).Lively c :=
  lively_foldl _ (fun _ d _ => lively_stopChart d) hl

theorem lively_unregisterGameObject (a : AgentId) (inStep : Bool) (hl : h.Lively c) :
    (h.unregisterGameObject a inStep).Lively c := by
  unfold unregisterGameObject
  split
  · have hs : ((h.setAgent a ({ · with status := .destroying })).stopAgent a).Lively c :=
      lively_stopAgent a (lively_of_eq rfl rfl hl)
    have hu : (((h.setAgent a ({ · with status := .destroying })).stopAgent a).unRegister a).Lively
        c := by
      unfold unRegister
      split
      · exact lively_of_eq rfl rfl hs
      · exact hs
    unfold addDyingAgent
    split
    · exact lively_of_eq rfl rfl hu
    · exact lively_of_eq rfl rfl hu
  · exact hl

theorem lively_dropWaiting (es : List EventId) (a : AgentId) (hl : h.Lively c) :
    (h.dropWaiting es a).Lively c :=
  lively_of_statuses (h := h) rfl
    (fun n => field_dropWaiting h n (g := Node.status) (fun _ _ _ => rfl) es a) hl

theorem lively_setAgents (agents : AgentId → Option Agent) (hl : h.Lively c) :
    ({ h with agents := agents } : Heap).Lively c := lively_of_eq rfl rfl hl

theorem lively_destroyAgent (es : List EventId) (a : AgentId) (hl : h.Lively c) :
    (h.destroyAgent es a).Lively c := by
  unfold destroyAgent
  refine lively_setAgents _ (lively_foldl _ (fun g d _ hg => ?_) (lively_dropWaiting es a hl))
  split
  · exact hg
  · split
    · exact lively_clearAttacher _ hg
    · exact lively_deleteChart _ hg

theorem lively_patchChart (doc : YamlChart) (hl : h.Lively c) : (h.patchChart doc).Lively c := by
  unfold patchChart
  split
  · split <;> exact lively_of_eq rfl rfl hl
  · split <;> exact lively_of_eq rfl rfl hl

theorem lively_register (o : ObjectId) (hl : h.Lively c) : (h.register o).Lively c := by
  unfold register
  split
  · exact hl
  · exact lively_of_eq rfl rfl hl

/-! ### The flow of another chart -/

theorem lively_setExecutor (l : ℕ) (f : DfsExecutor → DfsExecutor) (hl : h.Lively c) :
    (h.setExecutor l f).Lively c := lively_of_eq rfl rfl hl

theorem lively_beginFlow (l : ℕ) (a : AgentId) (hn : n.chart ≠ c) (hl : h.Lively c) :
    (h.beginFlow l a n).Lively c := by
  have hs : ((h.act n ({ · with status := .idle }) (.flow n)).setExecutor l
      ({ · with currentAgent := some a, nodeList := [] })).Lively c :=
    lively_setExecutor l _ (lively_act_of_ne hn hl)
  exact lively_of_eq rfl rfl (lively_push (n := n) (.executor l) hs)

theorem lively_pop (l : ℕ) (hl : h.Lively c) : (h.pop l).Lively c := by
  unfold pop
  split
  · exact lively_of_eq rfl rfl hl
  · dsimp only
    split
    · exact lively_setNode (fun _ _ => id) (lively_setExecutor l _ hl)
    · exact lively_setExecutor l _ hl

theorem lively_cutFlow (l : ℕ) (hn : ∀ n ∈ (h.stack l).nodeList, n.chart ≠ c) (hl : h.Lively c) :
    (h.cutFlow l).Lively c :=
  lively_foldl _ (fun _ n hm hg => lively_act_of_ne (hn n hm) (lively_pop l hg)) hl

/-- What is pending at the iteration limit goes to the history list. -/
theorem mem_history_cutFlow (h : Heap) (l : ℕ) (hm : m ∈ ((h.cutFlow l).stack l).historyNodes) :
    m ∈ (h.stack l).historyNodes ∨ m ∈ (h.stack l).nodeList := by
  unfold cutFlow at hm
  generalize hns : (h.stack l).nodeList = ns at hm ⊢
  induction ns generalizing h with
  | nil => exact .inl hm
  | cons n ns ih =>
    have hp : (((h.pop l).act n ({ · with status := .endRun }) (.cut n)).stack l).nodeList = ns :=
      nodeList_pop hns
    rcases ih _ hp hm with hm | hm
    · exact hns ▸ mem_history_pop hm
    · exact .inr (List.mem_cons_of_mem n hm)

theorem lively_deferTick (cfg : Config) (l : ℕ) (n : NodeRef) (hl : h.Lively c) :
    (h.deferTick cfg l n).Lively c := by
  unfold deferTick
  split
  · exact lively_waitEvent cfg _ n _ hl
  · exact lively_of_eq rfl rfl hl

theorem lively_enterNode (l : ℕ) (n : NodeRef) (hl : h.Lively c) : (h.enterNode l n).Lively c := by
  unfold enterNode
  dsimp only
  split
  · exact lively_setNode (fun _ _ => id) (lively_setExecutor l _ hl)
  · exact lively_act (fun _ _ => id) (lively_setExecutor l _ hl)

theorem lively_returnNode (n : NodeRef) (r : NodeResult) (hl : h.Lively c) :
    (h.returnNode n r).Lively c := by
  refine lively_act (fun _ d hd => ?_) hl
  unfold Node.return
  split <;> exact hd

theorem lively_addChild (l : ℕ) (n : NodeRef) (i : ℕ) (hl : h.Lively c) :
    (h.addChild l n i).Lively c := by
  unfold addChild
  split
  · exact lively_push _ (lively_act (fun _ _ => id) hl)
  · exact lively_of_eq rfl rfl hl

theorem lively_finishNode (l : ℕ) (hn : n.chart ≠ c) (hl : h.Lively c) :
    (h.finishNode l n).Lively c := by
  have hp : (h.popHeld l n).Lively c := by
    unfold popHeld
    split
    · exact lively_pop l hl
    · exact hl
  unfold finishNode
  dsimp only
  split
  · exact lively_setNode (fun _ _ => id) hp
  · unfold addSubsequenceNodes
    dsimp only
    split
    · exact lively_act_of_ne hn hp
    · exact lively_foldl _ (fun _ i _ => lively_addChild l n i) (lively_act_of_ne hn hp)

theorem lively_restoreHistory (l : ℕ) (hn : ∀ n ∈ (h.stack l).historyNodes, n.chart ≠ c)
    (hl : h.Lively c) : (h.restoreHistory l).Lively c := by
  refine lively_setExecutor l _ (lively_foldl _ (fun g n hm hg => ?_) hl)
  have hs : (g.setNode n ({ · with runFlag := false })).Lively c :=
    lively_setNode (fun _ _ => id) hg
  unfold restoreNode
  dsimp only
  split
  · exact lively_stop (hn n (List.mem_reverse.mp hm)) hs
  · exact hs

theorem lively_closeFlow (l : ℕ) (hl : h.Lively c) : (h.closeFlow l).Lively c :=
  lively_of_eq rfl rfl hl

theorem lively_takeHandled (r : Handling) (rs : List Handling) (ns : List NodeRef)
    (hn : n.chart ≠ c) (hl : h.Lively c) : (h.takeHandled r rs n ns).Lively c :=
  lively_act_of_ne hn (lively_of_eq rfl rfl hl)

theorem lively_resumeNode (ns : List NodeRef) (hn : n.chart ≠ c) (hl : h.Lively c) :
    (h.resumeNode n ns).Lively c := by
  have ht : (h.takeActivated n ns).Lively c :=
    lively_setNode (fun _ _ => id) (lively_of_eq rfl rfl hl)
  exact lively_removeNode n (lively_act_of_ne hn (lively_stop hn ht))

end Heap

end Asyncflow
