import Asyncflow.Moves.Stopping
import Asyncflow.Moves.CallStack

/-!
# Calls for the current node

The calls of `Manager` for the current node are made by the running script, or by a
`ControlNodeFunc` that the flow runs without giving control to a script.
`Asyncflow.State.Makes` covers both, with the heap in which the call is made.
-/

namespace Asyncflow

/-- The call of `Manager` that a `ControlNodeFunc` makes. -/
def NodeFunc.op? : NodeFunc → Option Op
  | .waitAll params => some (.waitAll params)
  | .stopNode params => some (.stopNode params)
  | .stopFlow params => some (.stopFlow params)
  | _ => none

namespace State

variable {cfg : Config} {s t : State} {a : Act} {n : NodeRef} {o : Op} {g : Heap}

/-- **The action makes a call of `Manager` for the node**, in the heap `g`: the running script
does, or the node on top of the running flow is a `ControlNodeFunc` of the call. -/
inductive Makes (cfg : Config) (s : State) : Act → NodeRef → Op → Heap → Prop
  | script {n : NodeRef} {o : Op} : s.mayCall o = true → o.isNodeCall = true →
      s.heap.currentNode = some n → Makes cfg s (.op o) n o s.heap
  | control {n : NodeRef} {o : Op} {ns : List NodeRef} {l k : ℕ} {c : ChartId} {r : Bool}
      {rest : List Frame} : s.frames = .flow l c k r :: rest →
      (s.heap.stack l).nodeList = n :: ns →
      s.flowRound cfg l c k r rest =
        ({ s with frames := .flow l c (k + 1) r :: rest } : State).runNode l n →
      (s.heap.nodes n).skip = false → (s.heap.nodeData n).func.op? = some o →
      Makes cfg s .tau n o (s.heap.enterNode l n)

/-- A round of a flow whose node on top is a `ControlNodeFunc` that runs. -/
theorem makes_of_round {ns : List NodeRef} {l k : ℕ} {c : ChartId} {r : Bool} {rest : List Frame}
    (hf : s.frames = .flow l c k r :: rest) (hl : (s.heap.stack l).nodeList = n :: ns)
    (hc : s.heap.chartRunning c = true) (hk : k + 1 ≤ maxNodesPerExecution)
    (hst : (s.heap.nodes n).status ≠ .running) (hflag : (s.heap.nodes n).runFlag = false)
    (hskip : (s.heap.nodes n).skip = false) (hfunc : (s.heap.nodeData n).func.op? = some o) :
    s.Makes cfg .tau n o (s.heap.enterNode l n) := by
  refine .control hf hl ?_ hskip hfunc
  simp only [flowRound, hl, hc, hflag]
  rw [if_neg (by simp), if_neg (by omega), if_neg (by simp [hst]), if_neg (by simp)]

/-- The heap in which the call is made is the one the runtime has come to. -/
theorem does_of_makes (hm : s.Makes cfg a n o g) :
    Heap.Does (fun _ => True) (fun _ => False) (fun _ => False) s.heap g := by
  cases hm with
  | script => exact .refl s.heap
  | control hf hl => exact Heap.does_enterNode trivial (by simp [hl])

/-- The node is the current node of the heap. -/
theorem currentNode_of_makes (hs : Reachable cfg s) (hm : s.Makes cfg a n o g) :
    g.currentNode = some n := by
  cases hm with
  | script _ _ hn => exact hn
  | @control _ _ ns l k c r rest hf hl hround hskip hfunc =>
    have hshape := (shaped_of_reachable hs).stacked
    rw [hf] at hshape
    obtain ⟨hidx, -, -, -⟩ := hshape.flow_inv
    unfold Heap.enterNode
    dsimp only
    split <;> simp [Heap.currentNode, Heap.setExecutor, Heap.setNode, Heap.act, Heap.note, hidx]

/-- What every heap in which a call is made satisfies. -/
theorem stoppable_of_makes (hs : Reachable cfg s) (hm : s.Makes cfg a n o g) :
    g.Born ∧ Stoppable g := by
  have hd := does_of_makes hm
  refine ⟨(wf_of_reachable hs).born.does hd, ?_⟩
  exact Traced.Does.invariant (I := Stoppable) hd
    (fun hm hi => ⟨Heap.ranked_of_move hm hi.ranked, Heap.tied_of_move hm hi.tied⟩)
    (stoppable_of_reachable hs)

/-- The round of a flow in which a `ControlNodeFunc` makes its call. -/
theorem heap_of_control {l : ℕ} (hskip : (s.heap.nodes n).skip = false)
    (hfunc : (s.heap.nodeData n).func.op? = some o) :
    (s.runNode l n).heap = ((s.heap.enterNode l n).callControl
      (s.heap.nodeData n).func).2.returnNode n
      (.ofBool ((s.heap.enterNode l n).callControl (s.heap.nodeData n).func).1) := by
  have hr := runsNode s l n
  generalize s.runNode l n = t at hr ⊢
  cases hr with
  | skip h => exact absurd (hskip.symm.trans h) Bool.false_ne_true
  | null _ h | script _ h =>
    rw [h] at hfunc
    cases hfunc
  | control _ h => rw [h]; rfl

end State

end Asyncflow
