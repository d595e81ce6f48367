import Asyncflow.Moves.Step

/-!
# Breakpoints

In a build with `FLOWCHART_DEBUG` a breakpoint replaces the function object of a `NodeData`
by a `BreakpointFunc`, which suspends the node in the waiting nodes of the async manager
instead of calling the original function. The `continue` command of a debugger goes through
these nodes (`AsyncManager::ContinueBreakpoint`), sets the flag that lets the function
object call the original, and activates the node.

Activating a node takes it out of the very list that the command is iterating over, so the
loop goes on from an erased element. `Asyncflow.DebugState.continuesPerChart_iff` says when
this does not happen: exactly if the command finds no node that is suspended at a breakpoint.

The flag belongs to the function object, which all instances of the chart share: the first
call of any of them takes it back.
-/

namespace Asyncflow

/-- A `NodeData`: the `ChartData` object and the index in its `node_list_`. -/
structure NodeKey where
  /-- The `ChartData` object. -/
  data : DataId
  /-- `node_id_`. -/
  id : ℕ
deriving DecidableEq, Repr

/-- `BreakpointFunc`. -/
structure BreakpointFunc where
  /-- `original_nodefunc_`. -/
  original : NodeFunc
  /-- `continue_flag_`. -/
  continueFlag : Bool := false
deriving DecidableEq, Repr

/-- The state of the manager in a build with `FLOWCHART_DEBUG`. A `BreakpointFunc` is no
`ControlNodeFunc`, so the chart data have `.script` in its place. -/
structure DebugState where
  /-- Everything but breakpoints. -/
  base : State := {}
  /-- `NodeData::break_point`. -/
  breakPoint : NodeKey → Bool := fun _ => false
  /-- The node functions that are a `BreakpointFunc`. -/
  breakFunc : NodeKey → Option BreakpointFunc := fun _ => none
  /-- `Chart::debug_`. -/
  debug : ChartId → Bool := fun _ => false
  /-- `Manager::Step` is in `websocket_manager_.Step`. -/
  polling : Bool := false
  /-- The innermost node function is a `BreakpointFunc` that has just been called. -/
  calling : Bool := false
  /-- The calls of original functions, newest first (history only). -/
  executed : List NodeRef := []
  /-- Whether the last call of the function of the node suspended it at the breakpoint
  (history only). -/
  halted : NodeRef → Bool := fun _ => false

namespace Heap

variable (h : Heap)

/-- The `NodeData` of a node. -/
def keyOf (n : NodeRef) : Option NodeKey := (h.charts n.chart).map fun x => ⟨x.data, n.id⟩

/-- `Manager::GetChartData` and `ChartData::GetNodeData`. -/
def findNodeData (name uid : String) : Option NodeKey :=
  (h.chartDataDict name).bind fun d =>
    (((h.chartData d).map (·.nodes)).getD [] |>.findIdx? (·.uid = uid)).map (⟨d, ·⟩)

/-- `NodeData::GetNodeFunc`. -/
def nodeFunc (k : NodeKey) : NodeFunc :=
  (((h.chartData k.data).bind (·.nodes[k.id]?)).map (·.func)).getD .null

/-- `NodeData::SetNodeFunc`. -/
def setNodeFunc (k : NodeKey) (f : NodeFunc) : Heap :=
  h.setData k.data fun x => { x with nodes := x.nodes.modify k.id ({ · with func := f }) }

/-- `BreakpointFunc::call` when it suspends the current node. -/
def suspendAtBreakpoint (n : NodeRef) : Heap :=
  (h.setNode n ({ · with status := .running })).addNode n

/-! ### Activating a node -/

section Activate

variable {h : Heap} {n m : NodeRef} {skip : Bool}

/-- An activated node leaves the waiting nodes, if it is linked there. -/
theorem asyncWaiting_activateNode (h : Heap) (n : NodeRef) (skip : Bool) :
    (h.activateNode n skip).asyncWaiting =
      if (h.nodes n).container = some .asyncWaiting then h.asyncWaiting.filter (· ≠ n)
      else h.asyncWaiting := by
  unfold activateNode
  split
  · rename_i hc
    rw [hc, if_neg (by simp)]
  · have hp : (h.push .activated n).content .asyncWaiting = (h.detach n).content .asyncWaiting :=
      content_push_of_ne (by simp)
    show (h.push .activated n).content .asyncWaiting = _
    rw [hp]
    unfold detach
    cases hc : (h.nodes n).container with
    | none => rfl
    | some c =>
      show (h.remove c n).content .asyncWaiting = _
      rw [content_remove]
      cases c <;> simp [Container.Ring, content]

/-- A node that is linked elsewhere is not written. -/
theorem container_activateNode_iff (hn : (h.nodes n).container ≠ some .asyncWaiting) :
    ((h.activateNode n skip).nodes m).container = some .asyncWaiting ↔
      (h.nodes m).container = some .asyncWaiting := by
  rcases eq_or_ne m n with rfl | hm
  · unfold activateNode
    split
    · exact .rfl
    · rw [nodes_setNode_self]
      show ((h.push .activated m).nodes m).container = _ ↔ _
      rw [container_push]
      simpa using hn
  · unfold activateNode
    split
    · exact .rfl
    · rw [nodes_setNode_of_ne hm, push, nodes_setNode_of_ne hm, nodes_link_of_ne hm,
        nodes_detach_of_ne hm]

theorem charts_activateNode (h : Heap) (n : NodeRef) (skip : Bool) :
    (h.activateNode n skip).charts = h.charts := by
  unfold activateNode
  split
  · rfl
  · exact charts_push ..

/-- Nothing else is activated. -/
theorem mem_activated_activateNode (hm : m ≠ n) :
    m ∈ (h.activateNode n skip).activated ↔ m ∈ h.activated := by
  unfold activateNode
  split
  · exact .rfl
  · show m ∈ (h.push .activated n).content .activated ↔ m ∈ h.content .activated
    rw [(content_push_self h n .activated).mem_iff, List.mem_cons, or_iff_right hm]
    unfold detach
    split
    · rw [content_remove]
      split
      · simp [hm]
      · exact .rfl
    · exact .rfl

end Activate

end Heap

namespace DebugState

variable (cfg : Config) (d : DebugState)

/-- Changes the heap. -/
def mapHeap (f : Heap → Heap) : DebugState := { d with base := d.base.mapHeap f }

/-- `NodeData::IsBreakPoint` of the node's data. -/
def isBreakPoint (n : NodeRef) : Bool := (d.base.heap.keyOf n).any d.breakPoint

/-- The `BreakpointFunc` of a node, if its function is one. -/
def breakFuncOf (n : NodeRef) : Option BreakpointFunc := (d.base.heap.keyOf n).bind d.breakFunc

/-- `BreakpointFunc::SetExecute` of the function of a node. -/
def setExecute (n : NodeRef) (flag : Bool) : DebugState :=
  match d.base.heap.keyOf n with
  | none => d
  | some k => { d with
      breakFunc := Function.update d.breakFunc k
        ((d.breakFunc k).map fun f => { f with continueFlag := flag }) }

/-! ### The commands -/

/-- The loop of `AsyncManager::ContinueBreakpoint` over `waiting_nodes_`, from its iterator
on: the selected nodes are marked and activated. When that erases the element that the
iterator stands on, its increment is undefined behaviour. -/
def continueWhere (sel : DebugState → NodeRef → Bool) (mark : DebugState → NodeRef → DebugState) :
    List NodeRef → DebugState → Option DebugState
  | [], d => some d
  | n :: ns, d =>
    if sel d n then
      let t := (mark d n).mapHeap (·.activateNode n false)
      if n ∈ t.base.heap.asyncWaiting then continueWhere sel mark ns t else none
    else continueWhere sel mark ns d

/-- `AsyncManager::ContinueBreakpoint(Chart*)`. -/
def continueBreakpoint (c : ChartId) : Option DebugState :=
  continueWhere (fun d n => n.chart = c && d.isBreakPoint n) (fun d n => d.setExecute n true)
    d.base.heap.asyncWaiting d

/-- `AsyncManager::ContinueBreakpoint(NodeData*)`. -/
def continueNodeData (k : NodeKey) : Option DebugState :=
  continueWhere (fun d n => d.base.heap.keyOf n = some k) (fun d _ => d)
    d.base.heap.asyncWaiting d

/-- Some `continue` commands, one after the other. -/
def continueCharts (cs : List ChartId) : Option DebugState :=
  cs.foldlM (fun d c => d.continueBreakpoint c) d

/-- `Manager::SetBreakpoint`. -/
def setBreakpoint (k : NodeKey) : DebugState :=
  match d.breakFunc k with
  | some _ => d
  | none =>
    { d.mapHeap (·.setNodeFunc k .script) with
      breakFunc := Function.update d.breakFunc k (some { original := d.base.heap.nodeFunc k }) }

/-- `Manager::DeleteBreakpoint`. -/
def deleteBreakpoint (k : NodeKey) : Option DebugState :=
  match d.breakFunc k with
  | none => some d
  | some f =>
    { d.mapHeap (·.setNodeFunc k f.original) with
      breakFunc := Function.update d.breakFunc k none : DebugState }.continueNodeData k

/-- `JsonDebugger::BreakPointHandler`. -/
def breakPointHandler (name uid : String) (set : Bool) : Option DebugState :=
  match d.base.heap.findNodeData name uid with
  | none => some d
  | some k =>
    if d.breakPoint k = set then some d
    else
      let t : DebugState := { d with breakPoint := Function.update d.breakPoint k set }
      if set then some (t.setBreakpoint k) else t.deleteBreakpoint k

/-! ### The function object -/

/-- `original_nodefunc_->call`. A script is in control from here on. -/
def callOriginal (n : NodeRef) (rest : List Frame) (original : NodeFunc) : DebugState :=
  let d : DebugState := { d with executed := n :: d.executed }
  match original with
  | .null => d.mapHeap (·.crash)
  | .script => d
  | f =>
    let r := d.base.heap.callControl f
    { d with
      base := ({ d.base with frames := rest }.mapHeap fun _ =>
        r.2.returnNode n (.ofBool r.1)).call (.ran n) }

/-- `BreakpointFunc::call` of the node on top of the call stack, which is the current node. -/
def callBreakpoint : Option DebugState :=
  match d.base.frames with
  | .func n :: rest =>
    (d.breakFuncOf n).map fun f =>
      let d : DebugState := { d with calling := false }
      if f.continueFlag then (d.setExecute n false).callOriginal n rest f.original
      else if !d.debug n.chart then d.callOriginal n rest f.original
      else
        { d with
          base := ({ d.base with frames := rest }.mapHeap fun h =>
            (h.suspendAtBreakpoint n).returnNode n .rTrue).call (.ran n)
          halted := Function.update d.halted n true }
  | _ => none

/-! ### The machine -/

/-- The node whose function a step has just called. -/
def called (s t : State) : Option NodeRef :=
  match s.frames, t.frames with
  | .flow _ _ _ _ :: _, .func n :: _ => some n
  | _, _ => none

/-- The state after a step of the manager without breakpoints. -/
def goOn (a : Act) (t : State) : DebugState :=
  { d with
    base := t
    polling := a = .timersDone
    calling := (called d.base t).any fun n => (d.breakFuncOf n).isSome
    halted := fun n => d.halted n && called d.base t ≠ some n }

end DebugState

/-- The actions of the environment in a build with `FLOWCHART_DEBUG`. -/
inductive DebugAct
  /-- What happens without a debugger. -/
  | base (a : Act)
  /-- `Chart::StartDebug` or `Chart::StopDebug`. -/
  | debug (c : ChartId) (b : Bool)
  /-- The command `break_point`, to set or to delete one. -/
  | breakPoint (name uid : String) (set : Bool)
  /-- The command `continue` for a chart. -/
  | continue (c : ChartId)
deriving DecidableEq, Repr

/-- An in-place patch, which writes function objects itself. -/
def DebugAct.isPatch : DebugAct → Bool
  | .base (.op (.patchChart _)) => true
  | _ => false

namespace DebugState

variable (cfg : Config) (d : DebugState)

/-- What an action leads to. The commands of debuggers are handled between the timers and
the async manager. -/
def next : DebugAct → Option DebugState
  | .base a =>
    if d.calling then if a = .tau then d.callBreakpoint else none
    else (d.base.step cfg a).map (d.goOn a)
  | .debug c b => some { d with debug := Function.update d.debug c b }
  | .breakPoint name uid set => if d.polling then d.breakPointHandler name uid set else none
  | .continue c => if d.polling then d.continueBreakpoint c else none

/-- **A step of the machine with a debugger.** In-place patches are left out, and undefined
behaviour ends a run. -/
def step (a : DebugAct) : Option DebugState :=
  if a.isPatch then none else (d.next cfg a).filter (·.base.sound)

/-- **Reachable states.** -/
abbrev Reachable (d : DebugState) : Prop := Run.Reaches (step cfg) {} d

/-! ### What continuing promises -/

/-- The node is suspended: it waits in `waiting_nodes_`. -/
def Suspended (n : NodeRef) : Prop :=
  n ∈ d.base.heap.asyncWaiting ∧ (d.base.heap.nodes n).container = some .asyncWaiting

/-- The node is suspended at a breakpoint. -/
def AtBreakpoint (n : NodeRef) : Prop :=
  d.Suspended n ∧ d.isBreakPoint n = true ∧ d.halted n = true

/-- A whole run of `AsyncManager::Step`. -/
def AsyncStep (d t : DebugState) : Prop :=
  ∃ rest, d.base.frames = .async :: rest ∧ t.base.frames = .events :: rest ∧
    Run.Steps (step cfg) (fun u _ => .async :: rest <:+ u.base.frames) d t

/-- **Continuing is per chart**: the commands can be carried out, a node at a breakpoint in a
continued chart is activated once and its original function is called once in the step, and a
node that is suspended in another chart stays suspended and is not activated. -/
def ContinuesPerChart (cs : List ChartId) : Prop :=
  ∃ t, d.continueCharts cs = some t ∧
    (∀ n, d.AtBreakpoint n → n.chart ∈ cs → t.base.heap.activated.count n = 1 ∧
      ∀ u, AsyncStep cfg t u → u.executed.count n = t.executed.count n + 1) ∧
    ∀ n, d.Suspended n → n.chart ∉ cs →
      t.Suspended n ∧ (n ∈ t.base.heap.activated → n ∈ d.base.heap.activated)

/-- The command finds a suspended node whose data are marked as a breakpoint. -/
def Finds (c : ChartId) : Prop := ∃ n, n.chart = c ∧ d.Suspended n ∧ d.isBreakPoint n = true

/-! ### The loop -/

variable {cfg d} {t u : DebugState} {n m : NodeRef} {c : ChartId} {cs : List ChartId}

/-- What the commands leave as it is. -/
structure Keeps (d t : DebugState) : Prop where
  asyncWaiting : t.base.heap.asyncWaiting = d.base.heap.asyncWaiting
  charts : t.base.heap.charts = d.base.heap.charts
  breakPoint : t.breakPoint = d.breakPoint
  container : ∀ n, (t.base.heap.nodes n).container = some .asyncWaiting ↔
    (d.base.heap.nodes n).container = some .asyncWaiting
  activated : ∀ n, (d.base.heap.nodes n).container = some .asyncWaiting →
    (n ∈ t.base.heap.activated ↔ n ∈ d.base.heap.activated)

theorem Keeps.refl (d : DebugState) : Keeps d d := ⟨rfl, rfl, rfl, fun _ => .rfl, fun _ _ => .rfl⟩

theorem Keeps.trans (h : Keeps d t) (h' : Keeps t u) : Keeps d u where
  asyncWaiting := h'.asyncWaiting.trans h.asyncWaiting
  charts := h'.charts.trans h.charts
  breakPoint := h'.breakPoint.trans h.breakPoint
  container n := (h'.container n).trans (h.container n)
  activated n hn := (h'.activated n ((h.container n).mpr hn)).trans (h.activated n hn)

theorem Keeps.isBreakPoint (h : Keeps d t) (n : NodeRef) : t.isBreakPoint n = d.isBreakPoint n := by
  rw [DebugState.isBreakPoint, Heap.keyOf, h.charts, h.breakPoint, DebugState.isBreakPoint,
    Heap.keyOf]

theorem Keeps.suspended (h : Keeps d t) : t.Suspended n ↔ d.Suspended n := by
  rw [Suspended, h.asyncWaiting, h.container, Suspended]

theorem Keeps.finds (h : Keeps d t) : t.Finds c ↔ d.Finds c := by
  unfold Finds
  simp only [h.suspended, h.isBreakPoint]

theorem keeps_setExecute (d : DebugState) (n : NodeRef) (flag : Bool) :
    Keeps d (d.setExecute n flag) := by
  unfold setExecute
  split <;> exact ⟨rfl, rfl, rfl, fun _ => .rfl, fun _ _ => .rfl⟩

/-- A round of the loop for a node that is not linked in the waiting nodes. -/
theorem keeps_activate (hn : (d.base.heap.nodes n).container ≠ some .asyncWaiting) :
    Keeps d (d.mapHeap (·.activateNode n false)) where
  asyncWaiting := (Heap.asyncWaiting_activateNode ..).trans (if_neg hn)
  charts := Heap.charts_activateNode ..
  breakPoint := rfl
  container _ := Heap.container_activateNode_iff hn
  activated _ hm := Heap.mem_activated_activateNode fun he => hn (he ▸ hm)

/-- The loop activates a node that is linked in the list it is iterating over. -/
def Hits (sel : DebugState → NodeRef → Bool) (ns : List NodeRef) (d : DebugState) : Prop :=
  ∃ n ∈ ns, sel d n = true ∧ (d.base.heap.nodes n).container = some .asyncWaiting

/-- **The loop is carried out** exactly if it hits no node. The induction is on the rest of
the list. -/
theorem continueWhere_cases (sel : DebugState → NodeRef → Bool)
    (mark : DebugState → NodeRef → DebugState) (hsel : ∀ {d t}, Keeps d t → sel t = sel d)
    (hmark : ∀ d n, Keeps d (mark d n)) (ns : List NodeRef) (d : DebugState)
    (hns : ∀ n ∈ ns, n ∈ d.base.heap.asyncWaiting) :
    (Hits sel ns d ∧ continueWhere sel mark ns d = none) ∨
      (¬Hits sel ns d ∧ ∃ t, continueWhere sel mark ns d = some t ∧ Keeps d t) := by
  induction ns generalizing d with
  | nil => exact .inr ⟨by simp [Hits], d, rfl, .refl d⟩
  | cons n ns ih =>
    have htail : ∀ m ∈ ns, m ∈ d.base.heap.asyncWaiting := fun m hm => hns m (by simp [hm])
    unfold continueWhere
    by_cases hs : sel d n = true
    · rw [if_pos hs]
      dsimp only
      by_cases hc : (d.base.heap.nodes n).container = some .asyncWaiting
      · -- The node leaves the list while the iterator stands on it.
        have ha : n ∉ ((mark d n).mapHeap (·.activateNode n false)).base.heap.asyncWaiting := by
          show n ∉ ((mark d n).base.heap.activateNode n false).asyncWaiting
          rw [Heap.asyncWaiting_activateNode, if_pos (((hmark d n).container n).mpr hc)]
          simp
        rw [if_neg ha]
        exact .inl ⟨⟨n, by simp, hs, hc⟩, rfl⟩
      · have hk : Keeps d ((mark d n).mapHeap (·.activateNode n false)) :=
          (hmark d n).trans (keeps_activate fun hc' => hc (((hmark d n).container n).mp hc'))
        have hhits : Hits sel (n :: ns) d ↔
            Hits sel ns ((mark d n).mapHeap (·.activateNode n false)) := by
          simp [Hits, hsel hk, hk.container, hc]
        rw [hhits, if_pos (by rw [hk.asyncWaiting]; exact hns n (by simp))]
        rcases ih _ (by rw [hk.asyncWaiting]; exact htail) with hi | ⟨hi, t, ht, hkt⟩
        · exact .inl hi
        · exact .inr ⟨hi, t, ht, hk.trans hkt⟩
    · have hhits : Hits sel (n :: ns) d ↔ Hits sel ns d := by simp [Hits, hs]
      rw [if_neg hs, hhits]
      exact ih d htail

/-- **A `continue` command** is carried out exactly if it finds no suspended node. -/
theorem continueBreakpoint_cases (d : DebugState) (c : ChartId) :
    (d.Finds c ∧ d.continueBreakpoint c = none) ∨
      (¬d.Finds c ∧ ∃ t, d.continueBreakpoint c = some t ∧ Keeps d t) := by
  have hhits : d.Finds c ↔ Hits (fun d n => n.chart = c && d.isBreakPoint n)
      d.base.heap.asyncWaiting d := by
    simp only [Finds, Suspended, Hits, Bool.and_eq_true, decide_eq_true_eq]
    constructor
    · rintro ⟨n, hc, ⟨hn, hl⟩, hb⟩
      exact ⟨n, hn, ⟨hc, hb⟩, hl⟩
    · rintro ⟨n, hn, ⟨hc, hb⟩, hl⟩
      exact ⟨n, hc, ⟨hn, hl⟩, hb⟩
  rw [hhits]
  refine continueWhere_cases _ _ (fun hk => ?_) (keeps_setExecute · · true) _ d fun _ hn => hn
  funext n
  rw [hk.isBreakPoint]

/-- Some commands, one after the other. -/
theorem continueCharts_cases (cs : List ChartId) (d : DebugState) :
    ((∃ c ∈ cs, d.Finds c) ∧ d.continueCharts cs = none) ∨
      ((∀ c ∈ cs, ¬d.Finds c) ∧ ∃ t, d.continueCharts cs = some t ∧ Keeps d t) := by
  induction cs generalizing d with
  | nil => exact .inr ⟨by simp, d, rfl, .refl d⟩
  | cons c cs ih =>
    have hcons : d.continueCharts (c :: cs) =
        (d.continueBreakpoint c).bind fun t => t.continueCharts cs := rfl
    rw [hcons]
    rcases continueBreakpoint_cases d c with ⟨hf, hn⟩ | ⟨hf, t, ht, hk⟩
    · rw [hn]
      exact .inl ⟨⟨c, by simp, hf⟩, rfl⟩
    · rw [ht, Option.bind_some]
      rcases ih t with ⟨⟨c', hc', hf'⟩, hn⟩ | ⟨hf', u, hu, hku⟩
      · exact .inl ⟨⟨c', by simp [hc'], hk.finds.mp hf'⟩, hn⟩
      · refine .inr ⟨fun c' hc' => ?_, u, hu, hk.trans hku⟩
        rcases List.mem_cons.mp hc' with rfl | hc'
        · exact hf
        · exact fun h => hf' c' hc' (hk.finds.mpr h)

/-- **Continuing is per chart exactly if no command finds a node that is suspended at a
breakpoint**: the loop of `AsyncManager::ContinueBreakpoint` activates it under its own
iterator. -/
theorem continuesPerChart_iff (cfg : Config) (d : DebugState) (cs : List ChartId) :
    ContinuesPerChart cfg d cs ↔ ∀ c ∈ cs, ¬d.Finds c := by
  rcases continueCharts_cases cs d with ⟨⟨c, hc, hf⟩, hn⟩ | ⟨hf, t, ht, hk⟩
  · refine iff_of_false ?_ fun h => h c hc hf
    rintro ⟨t, ht, -⟩
    rw [hn] at ht
    cases ht
  · refine iff_of_true ⟨t, ht, ?_, ?_⟩ hf
    · intro n hn hc
      exact absurd ⟨n, rfl, hn.1, hn.2.1⟩ (hf n.chart hc)
    · intro n hn hc
      exact ⟨hk.suspended.mpr hn, (hk.activated n hn.2).mp⟩

/-- Deleting a breakpoint has the same loop: it is carried out exactly if no node of the data
is suspended. -/
theorem isSome_continueNodeData_iff (d : DebugState) (k : NodeKey) :
    (d.continueNodeData k).isSome = true ↔ ∀ n, d.Suspended n → d.base.heap.keyOf n ≠ some k := by
  have hhits : Hits (fun d n => d.base.heap.keyOf n = some k) d.base.heap.asyncWaiting d ↔
      ∃ n, d.Suspended n ∧ d.base.heap.keyOf n = some k := by
    simp only [Hits, Suspended, decide_eq_true_eq]
    constructor
    · rintro ⟨n, hn, hk, hl⟩
      exact ⟨n, ⟨hn, hl⟩, hk⟩
    · rintro ⟨n, ⟨hn, hl⟩, hk⟩
      exact ⟨n, hn, hk, hl⟩
  have hcases := continueWhere_cases (fun d n => d.base.heap.keyOf n = some k) (fun d _ => d)
    (fun hk => by funext n; rw [Heap.keyOf, hk.charts, Heap.keyOf])
    (fun d _ => .refl d) d.base.heap.asyncWaiting d fun _ hn => hn
  rw [hhits] at hcases
  rcases hcases with ⟨⟨n, hn, hk⟩, hnone⟩ | ⟨hno, t, ht, -⟩
  · rw [continueNodeData, hnone]
    exact iff_of_false nofun fun h => h n hn hk
  · rw [continueNodeData, ht]
    exact iff_of_true rfl fun n hn hk => hno ⟨n, hn, hk⟩

/-! ### Two charts at a breakpoint -/

/-- A chart with one node after the start node, a script. -/
def haltChart : ChartData :=
  { name := "c", nodes := [{ success := [1] }, { uid := "n", func := .script }] }

/-- Two agents have a chart of the data each; both charts are debugged, and in the first step
a breakpoint is set. In the second step both charts reach it, and in the third one the
commands of debuggers are awaited. -/
def haltActs : List DebugAct :=
  [.base (.op (.importChart haltChart)), .base (.op (.register 0)), .base (.op (.register 1)),
    .base (.op (.attachChart 1 "c")), .base (.op (.attachChart 2 "c")), .debug 0 true,
    .debug 1 true, .base (.op .step), .base .timersDone, .breakPoint "c" "n" true] ++
  List.replicate 3 (.base .tau) ++ [.base (.op (.startChart 0)), .base (.op (.startChart 1)),
    .base (.op .step), .base .timersDone] ++ List.replicate 27 (.base .tau) ++
  [.base (.op .step), .base .timersDone]

instance (d : DebugState) (n : NodeRef) : Decidable (d.AtBreakpoint n) := by
  unfold AtBreakpoint Suspended
  infer_instance

/-- **The command that continues one of two charts** cannot be carried out. -/
theorem not_continuesPerChart_halted : ∃ d, Reachable {} d ∧ d.polling = true ∧
    d.AtBreakpoint ⟨0, 1⟩ ∧ d.AtBreakpoint ⟨1, 1⟩ ∧ ¬ContinuesPerChart {} d [0] := by
  have hrun : ((Run.exec (step {}) {} haltActs).any fun d => decide (d.polling = true ∧
      d.AtBreakpoint ⟨0, 1⟩ ∧ d.AtBreakpoint ⟨1, 1⟩ ∧ (d.continueCharts [0]).isNone)) = true := by
    decide +kernel
  obtain ⟨d, hd, hp⟩ := (Option.any_eq_true _ _).mp hrun
  obtain ⟨hpoll, h0, h1, hnone⟩ := of_decide_eq_true hp
  refine ⟨d, Run.reaches_of_exec hd, hpoll, h0, h1, ?_⟩
  rintro ⟨t, ht, -⟩
  rw [ht] at hnone
  cases hnone

end DebugState

end Asyncflow
