import Asyncflow.Moves.Born
import Asyncflow.Moves.Flags

/-!
# The pieces of a flow as sequences of moves

The functions of `Asyncflow.Core.Flow`. They need the permission for flows, and
some of them that their node was made before, which is where the invariant
`Asyncflow.Heap.Born` of the state they start from comes in.
-/

namespace Asyncflow

namespace Heap

variable {flows : ℕ → Prop} {may : Permit → Prop} {D : NodeRef → Prop} {h : Heap} {n : NodeRef}
  {l : ℕ}

theorem does_pop (h : Heap) (hf : flows l) : Does flows may D h (h.pop l) := by
  rcases hl : (h.stack l).nodeList with - | ⟨n, ns⟩
  · simp only [pop, hl]
    exact does_crash h
  · exact .of_move (Move.pop l hf hl)

@[simp] theorem stack_note (o : Obs) : (h.note o).stack = h.stack := rfl

@[simp] theorem stack_setNode (f : Node → Node) : (h.setNode n f).stack = h.stack := rfl

@[simp] theorem stack_act (f : Node → Node) (o : Obs) : (h.act n f o).stack = h.stack := rfl

/-- The list after a pop. -/
theorem nodeList_pop {ns : List NodeRef} (hl : (h.stack l).nodeList = n :: ns) :
    ((h.pop l).stack l).nodeList = ns := by
  simp only [pop, hl]
  split <;> simp [stack_setExecutor]

theorem does_skipFlow (h : Heap) (hf : flows l) (a : AgentId) (n : NodeRef) :
    Does flows may D h (h.skipFlow l a n) :=
  .trans (.of_move (Move.agent l a hf)) (does_note _ trivial)

theorem does_cutFlow (h : Heap) (hf : flows l) : Does flows may D h (h.cutFlow l) := by
  unfold cutFlow
  generalize hl : (h.stack l).nodeList = ns
  induction ns generalizing h with
  | nil => exact .refl h
  | cons n ns ih =>
    refine .trans (.trans (does_pop h hf) (does_act .cut fun _ => ⟨l, hf⟩)) (ih _ ?_)
    rw [stack_act]
    exact nodeList_pop hl

theorem does_deferTick {cfg : Config} (hn : h.Made n) :
    Does flows may D h (h.deferTick cfg l n) := by
  unfold deferTick
  split
  · exact does_waitEvent cfg hn _ _
  · exact does_crash h

theorem does_enterNode (hf : flows l) (hn : n ∈ (h.stack l).nodeList) :
    Does flows may D h (h.enterNode l n) := by
  refine .trans (.of_move (Move.current l hf hn)) ?_
  unfold enterNode
  dsimp only
  split
  · refine .of_move (Move.unskip n hf ?_)
    rw [stack_setExecutor, if_pos rfl]
    exact hn
  · exact does_act .run fun _ => ⟨l, hf⟩

theorem does_returnNode (h : Heap) (n : NodeRef) (r : NodeResult) :
    Does flows may D h (h.returnNode n r) := does_act (.ret r) False.elim

theorem does_callControl (h : Heap) (f : NodeFunc) : Does flows may D h (h.callControl f).2 := by
  cases f with
  | waitAll params => exact does_waitAll h params
  | stopNode params => exact does_stopNodes h params
  | stopFlow params => exact does_stopFlow h params
  | _ => exact .refl h

/-- A node with children belongs to a chart that is there. -/
theorem chart_lt_of_nodesCount (hb : h.Born) {i : ℕ} {c : ChartId} (hi : i < h.nodesCount c) :
    c < h.nextChart := by
  refine hb.chart c ?_
  unfold nodesCount at hi
  cases hc : h.charts c with
  | none => simp [hc] at hi
  | some x => rfl

theorem does_addChild (hf : flows l) (hb : h.Born) (i : ℕ) :
    Does flows may D h (h.addChild l n i) := by
  by_cases hi : i < h.nodesCount n.chart
  · exact .of_move (Move.child l hf hi (chart_lt_of_nodesCount hb hi))
  · simp only [addChild, hi, ↓reduceIte]
    exact does_crash h

theorem does_addSubsequenceNodes (hf : flows l) (hb : h.Born) :
    Does flows may D h (h.addSubsequenceNodes l n) := by
  have ha : Does flows may D h (h.act n (fun d => { d.count with status := .endRun })
      (.succ n (h.nodes n).result)) := does_act .succ fun _ => ⟨l, hf⟩
  unfold addSubsequenceNodes
  dsimp only
  split
  · exact ha
  · refine ha.trans ?_
    have hb' := hb.does ha
    generalize h.act n _ _ = g at hb' ⊢
    generalize (NodeData.subsequenceIds _ _).reverse = ids
    induction ids generalizing g with
    | nil => exact .refl g
    | cons i ids ih =>
      have hc : Does flows may D g (g.addChild l n i) := does_addChild hf hb' i
      exact hc.trans (ih _ (hb'.does hc))

theorem does_popHeld (h : Heap) (hf : flows l) (n : NodeRef) :
    Does flows may D h (h.popHeld l n) := by
  unfold popHeld
  split
  · exact does_pop h hf
  · exact .refl h

theorem does_finishNode (hf : flows l) (hb : h.Born) :
    Does flows may D h (h.finishNode l n) := by
  have hp : Does flows may D h (h.popHeld l n) := does_popHeld h hf n
  refine hp.trans ?_
  unfold finishNode
  dsimp only
  split
  · exact .of_move (Move.flag (l := l) n false rfl (.inl ‹_›))
  · exact does_addSubsequenceNodes hf (hb.does hp)

theorem does_restoreNode (hf : flows l) (hn : n ∈ (h.stack l).historyNodes) :
    Does flows may D h (h.restoreNode n) := by
  refine .trans (.of_move (Move.flag n false rfl (.inr ⟨hf, hn⟩))) ?_
  unfold restoreNode
  dsimp only
  split
  · exact does_stop _ n
  · exact .refl _

theorem does_restoreNodes (hf : flows l) (ms : List NodeRef)
    (hms : ∀ n ∈ ms, n ∈ (h.stack l).historyNodes) :
    Does flows may D h (ms.foldl restoreNode h) := by
  induction ms generalizing h with
  | nil => exact .refl h
  | cons n ms ih =>
    refine (does_restoreNode hf (hms n (by simp))).trans (ih fun m hm => ?_)
    rw [history_restoreNode]
    exact hms m (by simp [hm])

theorem history_restoreNodes (ms : List NodeRef) (h : Heap) :
    ((ms.foldl restoreNode h).stack l).historyNodes = (h.stack l).historyNodes := by
  induction ms generalizing h with
  | nil => rfl
  | cons n ms ih => exact (ih _).trans (history_restoreNode h n l)

theorem does_restoreHistory (h : Heap) (hf : flows l) :
    Does flows may D h (h.restoreHistory l) := by
  refine (does_restoreNodes hf (h.stack l).historyNodes.reverse fun n hn => ?_).trans
    (.of_move (Move.clearHistory l hf fun n hn => ?_))
  · exact List.mem_reverse.mp hn
  · rw [history_restoreNodes] at hn
    exact runFlag_restoreNodes _ (.inl (List.mem_reverse.mpr hn))

theorem does_closeFlow (h : Heap) (hf : flows l) : Does flows may D h (h.closeFlow l) :=
  .of_move (Move.closeFlow l hf)

theorem does_markStarted (h : Heap) (c : ChartId) : Does flows may D h (h.markStarted c) := by
  rcases hc : h.charts c with - | x
  · simp only [markStarted, hc]
    exact does_crash h
  · by_cases hne : x.nodeCount = 0
    · simp only [markStarted, hc, hne, ↓reduceIte]
      exact does_crash h
    · exact .of_move (Move.started hc hne)

theorem does_prepareSubchart (hcur : ∀ n, h.currentNode = some n → h.Made n)
    {name : String} (hp : ∀ d, h.chartDataDict name = some d → may (.create d)) (a : AgentId) :
    Does flows may D h (h.prepareSubchart name a).2 := by
  unfold prepareSubchart
  split
  · exact does_crash h
  · rename_i n hn
    split
    · exact .refl h
    · rename_i d hd
      split
      · exact does_crash h
      · exact does_crash h
      · split
        · exact does_act (.subchart _ ‹_›) False.elim
        · have hc : Does flows may D h (h.clearAttacher n) := does_clearAttacher h n
          exact hc.trans (does_makeSubchart (hp d hd) ((hcur n hn).of_keeps (keeps_of_does hc)) a)
      · exact does_makeSubchart (hp d hd) (hcur n hn) a

@[simp] theorem nextChart_addChart (h : Heap) (a : AgentId) (c : ChartId) :
    (h.addChart a c).2.nextChart = h.nextChart := by
  unfold addChart
  split
  · rfl
  · split <;> rfl

end Heap

end Asyncflow
