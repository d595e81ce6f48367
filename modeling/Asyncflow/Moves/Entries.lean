import Asyncflow.Moves.CallStack
import Asyncflow.Runtime.ExecutorLists

/-!
# Whom the entries are about

What a function records about a node, but for the quiet entries that stopping and destroying
make, is about a node it has got from somewhere: the current node of the executor, a node of a
list, of the set of the async manager, or of a call in progress. The lemmas of this file say
so function by function (`Asyncflow.Heap.Adds`), with the entries about that node as their
hypothesis.
-/

namespace Asyncflow

/-- The entries of stopping, creating and destroying, and the marks. -/
def Obs.isQuiet : Obs → Prop
  | .stop _ _ | .chartStop _ | .misplaced _ | .noAttacher _ | .created _ | .destroyed _ _
  | .refused _ | .skipped _ | .returned _ _ => True
  | _ => False

theorem Obs.isQuiet_of_isStop {o : Obs} (ho : o.isStop) : o.isQuiet := by
  cases o <;> first | exact ho | exact ho.elim

namespace Heap

variable {h h' : Heap} {n m : NodeRef} {l : ℕ} {P : Obs → Prop} {cfg : Config}

theorem adds_addChart (h : Heap) (a : AgentId) (c : ChartId) : Adds P h (h.addChart a c).2 := by
  unfold addChart
  split
  · exact adds_of_eq rfl
  · split <;> exact adds_of_eq rfl

theorem adds_patchChart (h : Heap) (doc : YamlChart) : Adds P h (h.patchChart doc) := by
  unfold patchChart
  split <;> split <;> exact adds_of_eq rfl

theorem adds_register (h : Heap) (x : ObjectId) : Adds P h (h.register x) := by
  unfold register
  split <;> exact adds_of_eq rfl

theorem adds_pop (h : Heap) (l : ℕ) : Adds P h (h.pop l) := by
  unfold pop
  split
  · exact adds_of_eq rfl
  · dsimp only
    split <;> exact adds_of_eq rfl

theorem adds_enterNode (h : Heap) (l : ℕ) (hw : P (.run n)) : Adds P h (h.enterNode l n) := by
  unfold enterNode
  dsimp only
  split
  · exact adds_of_eq rfl
  · exact adds_of_cons hw rfl

theorem adds_unRegister (h : Heap) (a : AgentId) : Adds P h (h.unRegister a) := by
  unfold unRegister
  split <;> exact adds_of_eq rfl

theorem adds_addDyingAgent (h : Heap) (a : AgentId) (inStep : Bool) :
    Adds P h (h.addDyingAgent a inStep) := by
  unfold addDyingAgent
  split <;> exact adds_of_eq rfl

theorem adds_waitAll (h : Heap) (args : List ℤ)
    (hw : ∀ n id b, h.currentNode = some n → P (.arrive n id b)) : Adds P h (h.waitAll args).2 := by
  unfold waitAll
  split
  · exact adds_of_eq rfl
  · split
    · exact adds_of_eq rfl
    · exact adds_of_eq rfl
    · exact adds_act (hw _ _ _ ‹_›) h _

theorem adds_cutFlow (h : Heap) (l : ℕ) (hw : ∀ n ∈ (h.stack l).nodeList, P (.cut n)) :
    Adds P h (h.cutFlow l) := by
  unfold cutFlow
  generalize (h.stack l).nodeList = ns at hw ⊢
  induction ns generalizing h with
  | nil => exact adds_of_eq rfl
  | cons n ns ih =>
    have hn : Adds P h ((h.pop l).act n ({ · with status := .endRun }) (.cut n)) :=
      (adds_pop h l).trans (adds_act (hw n List.mem_cons_self) _ n)
    exact hn.trans (ih _ fun m hm => hw m (List.mem_cons_of_mem n hm))

/-! ### Stopping and destroying -/

section Quiet

variable (hq : ∀ o : Obs, o.isQuiet → P o)
include hq

theorem adds_stopped (h : Heap) (n : NodeRef) : Adds P h (h.stop n) :=
  adds_stop (fun o ho => hq o (Obs.isQuiet_of_isStop ho)) h n

theorem adds_stopChart (h : Heap) (c : ChartId) : Adds P h (h.stopChart c) :=
  (adds_foldl (adds_stopped hq) h _).trans (adds_of_cons (hq (.chartStop c) trivial) rfl)

theorem adds_dropChart (h : Heap) (c : ChartId) : Adds P h (h.dropChart c) := by
  rw [dropChart_eq]
  have hf : Adds P h (h.forgetChart c) := by
    unfold forgetChart setOwner
    split <;> exact adds_of_cons (hq (.destroyed c _) trivial) rfl
  split
  · exact hf.trans (adds_of_eq rfl)
  · exact hf

theorem adds_destroyChart (fuel : ℕ) (h : Heap) (c : ChartId) :
    Adds P h (destroyChart fuel h c) := by
  induction fuel generalizing h c with
  | zero => exact adds_of_eq rfl
  | succ fuel ih =>
    refine .trans (adds_foldl (fun h n => ?_) h _) (adds_dropChart hq _ c)
    refine .trans (.trans (adds_stopped hq h n) ?_) (adds_act (hq (.noAttacher n) trivial) _ n)
    split
    · exact ih _ _
    · exact adds_of_eq rfl

theorem adds_deleteChart (h : Heap) (c : ChartId) : Adds P h (h.deleteChart c) :=
  adds_destroyChart hq _ h c

theorem adds_deleteAttacher (h : Heap) (n : NodeRef) : Adds P h (h.deleteAttacher n) := by
  unfold deleteAttacher
  split
  · exact adds_deleteChart hq h _
  · exact adds_of_eq rfl

theorem adds_clearAttacher (h : Heap) (n : NodeRef) : Adds P h (h.clearAttacher n) :=
  (adds_deleteAttacher hq h n).trans (adds_act (hq (.noAttacher n) trivial) _ n)

theorem adds_attachChart (h : Heap) (a : AgentId) (d : DataId) : Adds P h (h.attachChart a d) := by
  have hc : Adds P h ((h.initChart d none).addChart a h.nextChart).2 :=
    (adds_of_cons (hq (.created h.nextChart) trivial) rfl).trans (adds_addChart _ a _)
  unfold attachChart
  dsimp only
  split
  · exact hc
  · exact hc.trans (adds_deleteChart hq _ _)

theorem adds_removeChart (h : Heap) (a : AgentId) (name : String) :
    Adds P h (h.removeChart a name) := by
  unfold removeChart
  split
  · exact adds_deleteChart hq h _
  · exact adds_of_eq rfl

theorem adds_stopAgent (h : Heap) (a : AgentId) : Adds P h (h.stopAgent a) :=
  adds_foldl (adds_stopChart hq) h _

theorem adds_unregisterGameObject (h : Heap) (a : AgentId) (inStep : Bool) :
    Adds P h (h.unregisterGameObject a inStep) := by
  unfold unregisterGameObject
  split
  · refine (adds_stopAgent hq (h.setAgent a ({ · with status := .destroying })) a).trans ?_
    exact (adds_unRegister _ a).trans (adds_addDyingAgent _ a inStep)
  · exact adds_of_eq rfl

theorem adds_destroyAgent (h : Heap) (es : List EventId) (a : AgentId) :
    Adds P h (h.destroyAgent es a) := by
  have hd : Adds P h (h.dropWaiting es a) := adds_of_eq rfl
  refine .trans (.trans hd (adds_foldl (fun h c => ?_) _ _)) (adds_of_eq rfl)
  split
  · exact adds_of_eq rfl
  · split
    · exact adds_clearAttacher hq h _
    · exact adds_deleteChart hq h c

theorem adds_stopNodeId (h : Heap) (c : ChartId) (id : ℤ) : Adds P h (h.stopNodeId c id) := by
  unfold stopNodeId
  split
  · exact adds_of_eq rfl
  · split
    · exact adds_of_eq rfl
    · exact (adds_stopped hq h _).trans (adds_remove (hq (.misplaced _) trivial) _ _)

theorem adds_stopNodes (h : Heap) (args : List ℤ) : Adds P h (h.stopNodes args).2 := by
  unfold stopNodes
  split
  · exact adds_of_eq rfl
  · exact adds_foldl (fun h id => adds_stopNodeId hq h _ id) h _

theorem adds_stopFlow (h : Heap) (args : List ℤ) : Adds P h (h.stopFlow args).2 := by
  unfold stopFlow
  split
  · exact adds_of_eq rfl
  · dsimp only
    split
    · exact adds_of_eq rfl
    · exact adds_foldl (fun h (i : ℕ) => adds_stopNodeId hq h _ i) h _

/-! ### The calls of a node function -/

theorem adds_waitEvent (h : Heap) (a : AgentId) (e : EventId) (hw : P (.wait n a e)) :
    Adds P h (h.waitEvent cfg a n e) := by
  unfold waitEvent
  split
  · split
    · exact (adds_push (hq (.misplaced n) trivial) h _).trans (adds_of_cons hw rfl)
    · exact adds_of_eq rfl
  · exact adds_of_eq rfl

theorem adds_wait (h : Heap) (hw : ∀ n, h.currentNode = some n → P (.timer n)) :
    Adds P h h.wait := by
  unfold wait
  split
  · exact adds_of_eq rfl
  · exact (adds_deleteAttacher hq h _).trans (adds_act (hw _ ‹_›) _ _)

theorem adds_callControl (h : Heap) (f : NodeFunc)
    (hw : ∀ n id b, h.currentNode = some n → P (.arrive n id b)) :
    Adds P h (h.callControl f).2 := by
  cases f with
  | waitAll params => exact adds_waitAll h params hw
  | stopNode params => exact adds_stopNodes hq h params
  | stopFlow params => exact adds_stopFlow hq h params
  | _ => exact adds_of_eq rfl

theorem adds_managerWaitEvent (h : Heap) (a : AgentId) (e : EventId)
    (hw : ∀ n, h.currentNode = some n → P (.await n) ∧ P (.wait n a e)) :
    Adds P h (h.managerWaitEvent cfg a e).2 := by
  unfold managerWaitEvent
  split
  · exact adds_of_eq rfl
  · split
    · exact (adds_act (hw _ ‹_›).1 h _).trans (adds_waitEvent hq _ a e (hw _ ‹_›).2)
    · exact adds_of_eq rfl

theorem adds_createAsyncContext (h : Heap)
    (hw : ∀ n, h.currentNode = some n → P (.suspend n h.nextContext)) :
    Adds P h h.createAsyncContext := by
  unfold createAsyncContext
  split
  · exact adds_of_eq rfl
  · rename_i n hn
    split
    · exact (adds_push (hq (.misplaced n) trivial)
        (h.setNode n ({ · with status := .running })) _).trans
        (adds_of_cons (hw n hn) rfl)
    · exact adds_of_eq rfl

theorem adds_continueAsyncNode (h : Heap) (ctx : Context) (b : Bool)
    (hw : h.nodeAt ctx ∈ h.nodesSet → P (.continued (h.nodeAt ctx) b)) :
    Adds P h (h.continueAsyncNode ctx b).2 := by
  refine continueAsyncNode_elim ctx b (adds_of_eq rfl) (adds_of_eq rfl) fun hn _ => ?_
  have hm : P (.misplaced (h.nodeAt ctx)) := hq _ trivial
  exact ((adds_remove hm h .asyncWaiting).trans
    (adds_activateNode hm (h.removeNode (h.nodeAt ctx)) true)).trans (adds_act (hw hn) _ _)

theorem adds_cancelAsyncNode (h : Heap) (ctx : Context) (stop : Bool)
    (hw : h.nodeAt ctx ∈ h.nodesSet → P (.cancelled (h.nodeAt ctx) stop)) :
    Adds P h (h.cancelAsyncNode ctx stop).2 := by
  refine cancelAsyncNode_elim ctx stop (adds_of_eq rfl) (adds_of_eq rfl) fun hn _ => ?_
  have hm : P (.misplaced (h.nodeAt ctx)) := hq _ trivial
  unfold cancelNode
  split
  · exact (adds_remove hm h .asyncWaiting).trans (adds_of_cons (hw hn) rfl)
  · exact ((adds_remove hm h .asyncWaiting).trans
      (adds_activateNode hm (h.removeNode (h.nodeAt ctx)) true)).trans (adds_act (hw hn) _ _)

theorem adds_resumeNode (h : Heap) (ns : List NodeRef)
    (hw : P (.resume n (h.nodes n).result)) : Adds P h (h.resumeNode n ns) := by
  have hs : Adds P h ((h.takeActivated n ns).stop n) := adds_stopped hq (h.takeActivated n ns) n
  exact (hs.trans (adds_act hw _ n)).trans (adds_remove (hq (.misplaced n) trivial) _ .asyncWaiting)

theorem adds_makeSubchart (h : Heap) (d : DataId) (a : AgentId)
    (hw : P (.subchart n h.nextChart)) : Adds P h (h.makeSubchart n d a).2 := by
  have hc : Adds P h ((h.initChart d (some n)).addChart a h.nextChart).2 :=
    (adds_of_cons (hq (.created h.nextChart) trivial) rfl).trans (adds_addChart _ a _)
  exact hc.trans (adds_act hw _ n)

theorem adds_prepareSubchart (h : Heap) (name : String) (a : AgentId)
    (hw : ∀ n c, h.currentNode = some n → P (.subchart n c)) :
    Adds P h (h.prepareSubchart name a).2 := by
  unfold prepareSubchart
  split
  · exact adds_of_eq rfl
  · rename_i n hn
    split
    · exact adds_of_eq rfl
    · split
      · exact adds_of_eq rfl
      · exact adds_of_eq rfl
      · split
        · exact adds_act (hw n _ hn) h n
        · exact (adds_clearAttacher hq h n).trans (adds_makeSubchart hq _ _ a (hw n _ hn))
      · exact adds_makeSubchart hq h _ a (hw n _ hn)

/-! ### The pieces of a flow -/

theorem adds_beginFlow (h : Heap) (l : ℕ) (a : AgentId) (hw : P (.flow n)) :
    Adds P h (h.beginFlow l a n) := by
  refine .trans ?_ (adds_push (hq (.misplaced n) trivial) ((h.act n ({ · with status := .idle })
    (.flow n)).setExecutor l ({ · with currentAgent := some a, nodeList := [] })) (.executor l))
  exact adds_of_cons hw rfl

theorem adds_continueFlow (h : Heap) (l : ℕ) (hw : P (.goOn n)) :
    Adds P h (h.continueFlow l n) :=
  (adds_of_cons hw rfl).trans (adds_push (hq (.misplaced n) trivial)
    (h.act n ({ · with runFlag := true }) (.goOn n)) (.executor l))

theorem adds_deferTick (h : Heap) (l : ℕ) (hw : ∀ a, P (.wait n a cfg.tickEvent)) :
    Adds P h (h.deferTick cfg l n) := by
  unfold deferTick
  split
  · exact adds_waitEvent hq h _ _ (hw _)
  · exact adds_of_eq rfl

theorem adds_addChild (h : Heap) (l : ℕ) (i : ℕ) (hw : P (.edge n ⟨n.chart, i⟩)) :
    Adds P h (h.addChild l n i) := by
  unfold addChild
  split
  · exact (adds_of_cons hw rfl).trans (adds_push (hq (.misplaced _) trivial)
      (h.act ⟨n.chart, i⟩ ({ · with preNodeId := n.id }) (.edge n ⟨n.chart, i⟩)) (.executor l))
  · exact adds_of_eq rfl

theorem adds_finishNode (h : Heap) (l : ℕ) (hw : ∀ r, P (.succ n r))
    (he : ∀ i, P (.edge n ⟨n.chart, i⟩)) : Adds P h (h.finishNode l n) := by
  have hp : Adds P h (h.popHeld l n) := by
    unfold popHeld
    split
    · exact adds_pop h l
    · exact adds_of_eq rfl
  refine hp.trans ?_
  unfold finishNode addSubsequenceNodes
  dsimp only
  split
  · exact adds_of_eq rfl
  · generalize h.popHeld l n = g
    have ha : Adds P g (g.act n (fun d => { d.count with status := .endRun })
        (.succ n (g.nodes n).result)) := adds_act (hw _) g n
    split
    · exact ha
    · exact ha.trans (adds_foldl (fun g i => adds_addChild hq g l i (he i)) _ _)

theorem adds_restored (h : Heap) (l : ℕ) : Adds P h (h.restoreHistory l) := by
  refine (adds_foldl (fun g m => ?_) h _).trans (adds_of_eq rfl)
  have hs : Adds P g (g.setNode m ({ · with runFlag := false })) := adds_of_eq rfl
  unfold restoreNode
  dsimp only
  split
  · exact hs.trans (adds_stopped hq _ m)
  · exact hs

end Quiet

/-! ### Outside the flows -/

theorem Adds.mono {Q : Obs → Prop} (ha : Adds P h h') (hPQ : ∀ o, P o → Q o) : Adds Q h h' := by
  obtain ⟨new, hl, hnew⟩ := ha
  exact ⟨new, hl, fun o ho => hPQ o (hnew o ho)⟩

/-- **Outside the flows** nothing is recorded that only a flow does. -/
theorem adds_of_move {may : Permit → Prop} {D : NodeRef → Prop}
    (hm : Move (fun _ => False) may D h h') : Adds (¬Obs.isFlow ·) h h' := by
  cases hm with
  | alike ha =>
    rcases ha.log with hl | ⟨o, ho, hl⟩
    · exact adds_of_eq hl
    · refine adds_of_cons ?_ hl
      cases o <;> first | exact id | exact ho.elim
  | act hw hfl => exact adds_act (fun ho => (hfl ho).elim fun _ => id) ..
  | detach => exact adds_detach id h
  | removeFree => exact adds_remove id h _
  | wait => exact (adds_push id h _).trans (adds_of_cons id rfl)
  | @suspend m =>
    exact (adds_push id (h.setNode m ({ · with status := .running })) _).trans (adds_of_cons id rfl)
  | @continued m =>
    exact ((adds_remove id h .asyncWaiting).trans (adds_activateNode id (h.removeNode m) _)).trans
      (adds_of_cons id rfl)
  | @cancelled m =>
    unfold cancelNode
    split
    · exact (adds_remove id h .asyncWaiting).trans (adds_of_cons id rfl)
    · exact ((adds_remove id h .asyncWaiting).trans (adds_activateNode id (h.removeNode m) _)).trans
        (adds_of_cons id rfl)
  | @resume m skip r =>
    exact (adds_act (o := .resume m r) id h m).trans (adds_remove id _ .asyncWaiting)
  | started hx hne =>
    simp only [markStarted, hx, hne, ↓reduceIte]
    exact adds_of_cons id rfl
  | create => exact adds_of_cons id rfl
  | forget =>
    unfold forgetChart setOwner
    split <;> exact adds_of_cons id rfl
  | deliver => exact adds_of_cons id rfl
  | load | patch | manage | flag | takeActivated | dropWaiting | swap | dropHandling =>
    exact adds_of_eq rfl
  | unskip _ hf | beginFlow _ _ hf | pop _ hf | current _ hf | child _ hf | continueFlow _ hf
  | agent _ _ hf | clearHistory _ hf | closeFlow _ hf => exact hf.elim

theorem adds_of_does {may : Permit → Prop} {D : NodeRef → Prop}
    (hd : Does (fun _ => False) may D h h') : Adds (¬Obs.isFlow ·) h h' :=
  Traced.Does.invariant (I := Adds (¬Obs.isFlow ·) h) hd (fun hm ha => ha.trans (adds_of_move hm))
    (adds_of_eq rfl)

end Heap

end Asyncflow
