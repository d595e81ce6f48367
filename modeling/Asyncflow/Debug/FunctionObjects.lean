import Asyncflow.Debug.Breakpoints
import Asyncflow.Loading.Positions

/-!
# The function objects of a chart with breakpoints

A breakpoint has two parts: the flag `break_point` of a `NodeData`, which the command sets, and
the `BreakpointFunc` that the manager puts around its function. A patch knows of neither. It
writes a plain function over the `BreakpointFunc` and leaves the flag, and the next command
`delete` finds nothing to take away.

Next to the chart goes one that gets the patches alone (`Asyncflow.Debug.stepBoth`). It has the
functions the nodes would have without any breakpoint, and the chart has the same ones with one
wrapper around those whose flag is set (`Asyncflow.Debug.Wraps`), as long as no patch writes the
function of a marked node and no command deletes a breakpoint at which a node is suspended
(`Asyncflow.Debug.agrees_of_steps`).
-/

namespace Asyncflow

namespace Debug

open Loading (YamlTree Abort patchFromYaml overlay)

/-- A `NodeFunc` object. -/
inductive FuncObject
  /-- None, or what `CreateNodeFunc` or `ControlNodeFunc::Create` made. -/
  | plain (func : Option Loading.NodeFunc)
  /-- `BreakpointFunc`. -/
  | breakpoint (original : FuncObject) (continueFlag : Bool)
deriving DecidableEq

/-- A `ChartData` in a build with `FLOWCHART_DEBUG`, and the heap with its charts. -/
structure DebugChart where
  /-- The chart data, apart from the functions of the nodes. -/
  chart : Loading.ChartData
  /-- `node_func_`. -/
  func : ℕ → FuncObject := fun _ => .plain none
  /-- `break_point`. -/
  breakPoint : ℕ → Bool := fun _ => false
  /-- The objects of the manager. -/
  heap : Heap := {}

/-- What happens to the chart. -/
inductive Event
  /-- The command `break_point` with `set`. -/
  | set (uid : String)
  /-- The command `break_point` with `delete`. -/
  | delete (uid : String)
  /-- `ChartData::PatchFromYaml`. -/
  | patch (doc : YamlTree)
  /-- `BreakpointFunc::SetExecute`, or the call that takes it back. -/
  | setExecute (id : ℕ) (flag : Bool)
  /-- Whatever else happens to the objects of the manager. -/
  | others (heap : Heap)

namespace DebugChart

variable (k : DataId) (s : DebugChart)

/-- `Manager::SetBreakpoint`. -/
def setBreakpoint (i : ℕ) : DebugChart :=
  match s.func i with
  | .breakpoint _ _ => s
  | .plain f => { s with func := Function.update s.func i (.breakpoint (.plain f) false) }

/-- `Manager::DeleteBreakpoint`, with the loop of `AsyncManager::ContinueBreakpoint`. -/
def deleteBreakpoint (i : ℕ) : Option DebugChart :=
  match s.func i with
  | .plain _ => some s
  | .breakpoint original _ =>
    (({ base := { heap := s.heap } } : DebugState).continueNodeData ⟨k, i⟩).map fun d =>
      { s with func := Function.update s.func i original, heap := d.base.heap }

/-- `BreakpointFunc::SetExecute`. -/
def setExecute (i : ℕ) (flag : Bool) : DebugChart :=
  match s.func i with
  | .plain _ => s
  | .breakpoint original _ =>
    { s with func := Function.update s.func i (.breakpoint original flag) }

/-- A chart after its load. -/
def ofData (data : Loading.ChartData) : DebugChart where
  chart := { data with nodes := data.nodes.map ({ · with func := none }) }
  func i := .plain (data.nodes[i]?.bind (·.func))

/-- The chart with the chart data that a patch has left. A function that the patch has written
takes the place of whatever was there. -/
def overwritten (data : Loading.ChartData) : DebugChart :=
  { s with
    chart := { data with nodes := data.nodes.map ({ · with func := none }) }
    func := fun i =>
      match data.nodes[i]?.bind (·.func) with
      | some f => .plain (some f)
      | none => if i < s.chart.nodes.length then s.func i else .plain none
    breakPoint := fun i => s.breakPoint i && i < s.chart.nodes.length }

/-- `ChartData::PatchFromYaml`. What it has written stays when `std::stoi` throws. -/
def patch (doc : YamlTree) : Option DebugChart :=
  match (patchFromYaml doc).run.run s.chart.patching with
  | (.ok _, t) | (.error .stoi, t) => some (s.overwritten t.chart)
  | (.error _, _) => none

/-- What an event leads to; `none` where the behaviour is undefined. -/
def step : Event → Option DebugChart
  | .set uid =>
    match s.chart.indexOf uid with
    | none => some s
    | some i =>
      if s.breakPoint i then some s
      else some ({ s with breakPoint := Function.update s.breakPoint i true }.setBreakpoint i)
  | .delete uid =>
    match s.chart.indexOf uid with
    | none => some s
    | some i =>
      if s.breakPoint i then
        { s with breakPoint := Function.update s.breakPoint i false }.deleteBreakpoint k i
      else some s
  | .patch doc => s.patch doc
  | .setExecute i flag => some (s.setExecute i flag)
  | .others heap => some { s with heap := heap }

end DebugChart

/-- A chart, and the chart without breakpoints next to it, which gets the patches alone. -/
def stepBoth (k : DataId) (x : DebugChart × DebugChart) (e : Event) :
    Option (DebugChart × DebugChart) :=
  (x.1.step k e).bind fun t =>
    match e with
    | .patch doc => (x.2.patch doc).map (t, ·)
    | _ => some (t, x.2)

/-! ### What breakpoints promise -/

/-- A chart after its load: no breakpoint is set, and the ids are positions. -/
structure Fresh (s : DebugChart) : Prop where
  breakPoint : ∀ i, s.breakPoint i = false
  func : ∀ i, ∃ f, s.func i = .plain f
  chart : s.chart.Positioned
  blank : ∀ d ∈ s.chart.nodes, d.func = none

/-- **The flag is set exactly if the function is a `BreakpointFunc` around a function that is
none.** -/
def Agrees (s : DebugChart) : Prop :=
  ∀ i, s.breakPoint i = true ↔ ∃ f flag, s.func i = .breakpoint (.plain f) flag

/-- The node of an instance is suspended: it waits in `waiting_nodes_`. -/
def Suspended (k : DataId) (s : DebugChart) (i : ℕ) (n : NodeRef) : Prop :=
  n ∈ s.heap.asyncWaiting ∧ (s.heap.nodes n).container = some .asyncWaiting ∧
    s.heap.keyOf n = some ⟨k, i⟩

/-- **Deleting restores**: the command is carried out, the node has the function it would have
without any breakpoint, and every suspended node of it is activated once. -/
def Restores (k : DataId) (x : DebugChart × DebugChart) (uid : String) : Prop :=
  ∀ i, x.1.chart.indexOf uid = some i → x.1.breakPoint i = true →
    ∃ t, x.1.step k (.delete uid) = some t ∧ t.func i = x.2.func i ∧
      ∀ n, Suspended k x.1 i n → t.heap.activated.count n = 1

/-- The functions that a patch writes, by the positions of the nodes. -/
def written (s : DebugChart) (doc : YamlTree) (i : ℕ) : Option Loading.NodeFunc :=
  (overlay ((doc.items "nodes").filterMap
    (YamlTree.overwrite? (s.chart.grown doc) (s.chart.grown doc).indexOf)) i).bind (·.func)

/-- **The condition**: no node at a breakpoint that is deleted is suspended, and no patch writes
the function of a node with a breakpoint. -/
def Meets (k : DataId) (s : DebugChart) : Event → Prop
  | .delete uid => ∀ i, s.chart.indexOf uid = some i → s.breakPoint i = true →
    ∀ n, ¬Suspended k s i n
  | .patch doc => ∀ i, s.breakPoint i = true → written s doc i = none
  | _ => True

/-! ### The invariant -/

/-- **The chart is the one without breakpoints**, with a wrapper around the function of each node
whose flag is set. -/
structure Wraps (x : DebugChart × DebugChart) : Prop where
  chart : x.2.chart = x.1.chart
  positioned : x.1.chart.Positioned
  blank : ∀ d ∈ x.1.chart.nodes, d.func = none
  plain : ∀ i, ∃ f, x.2.func i = .plain f
  bound : ∀ i, x.1.breakPoint i = true → i < x.1.chart.nodes.length
  unset : ∀ i, x.1.breakPoint i = false → x.1.func i = x.2.func i
  set : ∀ i, x.1.breakPoint i = true → ∃ flag, x.1.func i = .breakpoint (x.2.func i) flag

section Wraps

variable {k : DataId} {x y : DebugChart × DebugChart} {s t : DebugChart} {i : ℕ} {uid : String}
  {doc : YamlTree}

theorem Fresh.wraps (h : Fresh s) : Wraps (s, s) where
  chart := rfl
  positioned := h.chart
  blank := h.blank
  plain := h.func
  bound i hi := absurd hi (by rw [h.breakPoint]; nofun)
  unset _ _ := rfl
  set i hi := absurd hi (by rw [h.breakPoint]; nofun)

theorem fresh_ofData {data : Loading.ChartData} (h : data.Positioned) : Fresh (.ofData data) where
  breakPoint _ := rfl
  func _ := ⟨_, rfl⟩
  chart := by
    intro i d hd
    change (data.nodes.map _)[i]? = some d at hd
    rw [List.getElem?_map] at hd
    obtain ⟨d', hd', rfl⟩ := Option.map_eq_some_iff.mp hd
    exact h i d' hd'
  blank := by
    intro d hd
    obtain ⟨d', -, rfl⟩ := List.mem_map.mp hd
    rfl

/-- Every chart that is registered in a run of imports and patches. -/
theorem fresh_of_registered {dict : Loading.ChartDict} {path : String} {data : Loading.ChartData}
    (h : Run.Reaches Loading.change (fun _ => none) dict) (hd : dict path = some data) :
    Fresh (.ofData data) :=
  fresh_ofData (Loading.numbered_of_reaches h path data hd)

theorem Wraps.agrees (h : Wraps x) : Agrees x.1 := by
  intro i
  obtain ⟨f, hf⟩ := h.plain i
  constructor
  · intro hi
    obtain ⟨flag, hflag⟩ := h.set i hi
    exact ⟨f, flag, by rw [hflag, hf]⟩
  · rintro ⟨g, flag, hg⟩
    by_contra hi
    rw [h.unset i (Bool.eq_false_iff.mpr hi), hf] at hg
    cases hg

/-- One node gets a flag and a function that go together. -/
theorem Wraps.write (h : Wraps x) {i : ℕ} {b : Bool} {o : FuncObject} (heap : Heap)
    (hset : b = true → i < x.1.chart.nodes.length ∧ ∃ flag, o = .breakpoint (x.2.func i) flag)
    (hunset : b = false → o = x.2.func i) :
    Wraps ({ x.1 with
      breakPoint := Function.update x.1.breakPoint i b
      func := Function.update x.1.func i o
      heap := heap }, x.2) := by
  refine ⟨h.chart, h.positioned, h.blank, h.plain, ?_, ?_, ?_⟩
  · intro j hj
    change Function.update x.1.breakPoint i b j = true at hj
    rcases eq_or_ne j i with rfl | hne
    · rw [Function.update_self] at hj
      exact (hset hj).1
    · rw [Function.update_of_ne hne] at hj
      exact h.bound j hj
  · intro j hj
    change Function.update x.1.breakPoint i b j = false at hj
    change Function.update x.1.func i o j = x.2.func j
    rcases eq_or_ne j i with rfl | hne
    · rw [Function.update_self] at hj ⊢
      exact hunset hj
    · rw [Function.update_of_ne hne] at hj ⊢
      exact h.unset j hj
  · intro j hj
    change Function.update x.1.breakPoint i b j = true at hj
    change ∃ flag, Function.update x.1.func i o j = .breakpoint (x.2.func j) flag
    rcases eq_or_ne j i with rfl | hne
    · rw [Function.update_self] at hj ⊢
      exact (hset hj).2
    · rw [Function.update_of_ne hne] at hj ⊢
      exact h.set j hj

/-- Setting a breakpoint. -/
theorem Wraps.setBreakpoint (h : Wraps x) (hi : i < x.1.chart.nodes.length)
    (hb : x.1.breakPoint i = false) :
    Wraps ({ x.1 with breakPoint := Function.update x.1.breakPoint i true }.setBreakpoint i,
      x.2) := by
  obtain ⟨f, hf⟩ := h.plain i
  have hfunc : x.1.func i = .plain f := (h.unset i hb).trans hf
  have hw := h.write (b := true) (o := .breakpoint (.plain f) false) x.1.heap
    (fun _ => ⟨hi, false, by rw [hf]⟩) nofun
  unfold DebugChart.setBreakpoint
  rw [hfunc]
  exact hw

/-- The flag of the function object. -/
theorem Wraps.setExecute (h : Wraps x) (i : ℕ) (flag : Bool) :
    Wraps (x.1.setExecute i flag, x.2) := by
  unfold DebugChart.setExecute
  cases hb : x.1.breakPoint i with
  | false =>
    obtain ⟨f, hf⟩ := h.plain i
    rw [h.unset i hb, hf]
    exact h
  | true =>
    obtain ⟨flag', hflag'⟩ := h.set i hb
    have hw := h.write (b := true) (o := .breakpoint (x.2.func i) flag) x.1.heap
      (fun _ => ⟨h.bound i hb, flag, rfl⟩) nofun
    rw [← hb, Function.update_eq_self] at hw
    rw [hflag']
    exact hw

/-! ### Deleting -/

/-- **Deleting restores exactly if no node is suspended** at the breakpoint. -/
theorem Wraps.restores_iff (h : Wraps x) :
    Restores k x uid ↔ Meets k x.1 (.delete uid) := by
  have hstep : ∀ i, x.1.chart.indexOf uid = some i → x.1.breakPoint i = true →
      x.1.step k (.delete uid) = (({ base := { heap := x.1.heap } } : DebugState).continueNodeData
        ⟨k, i⟩).map fun d => { x.1 with
          breakPoint := Function.update x.1.breakPoint i false
          func := Function.update x.1.func i (x.2.func i)
          heap := d.base.heap } := by
    intro i hi hb
    obtain ⟨flag, hflag⟩ := h.set i hb
    rw [DebugChart.step, hi]
    dsimp only
    rw [if_pos hb, DebugChart.deleteBreakpoint, hflag]
  have hsome : ∀ i, (({ base := { heap := x.1.heap } } : DebugState).continueNodeData
      ⟨k, i⟩).isSome = true ↔ ∀ n, ¬Suspended k x.1 i n := by
    intro i
    rw [DebugState.isSome_continueNodeData_iff]
    constructor
    · rintro h n ⟨hn, hl, hk⟩
      exact h n ⟨hn, hl⟩ hk
    · rintro h n ⟨hn, hl⟩ hk
      exact h n ⟨hn, hl, hk⟩
  constructor
  · intro hr i hi hb
    obtain ⟨t, ht, -⟩ := hr i hi hb
    rw [hstep i hi hb, Option.map_eq_some_iff] at ht
    obtain ⟨d, hd, -⟩ := ht
    exact (hsome i).mp (by rw [hd]; rfl)
  · intro hm i hi hb
    obtain ⟨d, hd⟩ := Option.isSome_iff_exists.mp ((hsome i).mpr (hm i hi hb))
    refine ⟨_, by rw [hstep i hi hb, hd]; rfl, Function.update_self .., ?_⟩
    intro n hn
    exact absurd hn (hm i hi hb n)

/-! ### Patches -/

theorem isMap_of_patch (h : s.patch doc = some t) : doc.isMap := by
  by_contra hmap
  have hthrows : (patchFromYaml doc).Throws s.chart.patching .assertion s.chart.patching :=
    (Loading.YamlTree.throws_findChild hmap "nodes").bind
  rw [DebugChart.patch, hthrows] at h
  cases h

/-- A patch leaves what it writes, up to the connector that aborts it. -/
theorem patch_eq (hp : s.chart.Positioned) (h : s.patch doc = some t) :
    t = s.overwritten (s.chart.patched doc) := by
  have hout := Loading.patchFromYaml_outcome hp (isMap_of_patch h)
  have hstoi := Loading.patchListFault?_ne_stoi s.chart doc
  unfold DebugChart.patch at h
  generalize doc.patchListFault? s.chart = o at hout hstoi
  match o, hout with
  | some .undefined, ⟨u, hu⟩ | some .assertion, ⟨u, hu⟩ =>
    rw [hu] at h
    cases h
  | some .stoi, _ => exact absurd rfl hstoi
  | none, hout =>
    dsimp only at hout
    generalize (doc.items "connectors").findSome?
      (YamlTree.linkFault? (s.chart.grown doc).indexOf) = o at hout
    match o, hout with
    | none, hu | some .stoi, hu =>
      rw [hu] at h
      exact (Option.some.inj h).symm
    | some .undefined, hu | some .assertion, hu =>
      rw [hu] at h
      cases h

theorem length_le_grown (data : Loading.ChartData) (doc : YamlTree) :
    data.nodes.length ≤ (data.grown doc).nodes.length := by
  obtain ⟨new, hnew⟩ := Loading.foldl_grow_prefix data.nodes doc.uids
  have hgrown : (data.grown doc).nodes = data.nodes ++ new := hnew
  rw [hgrown, List.length_append]
  omega

/-- New nodes have no functions. -/
theorem blank_grown {data : Loading.ChartData} (h : ∀ d ∈ data.nodes, d.func = none)
    (doc : YamlTree) : ∀ d ∈ (data.grown doc).nodes, d.func = none := by
  have hgrow : ∀ (us : List String) (nodes : List Loading.NodeData), (∀ d ∈ nodes, d.func = none) →
      ∀ d ∈ us.foldl Loading.grow nodes, d.func = none := by
    intro us
    induction us with
    | nil => exact fun _ hn => hn
    | cons u us ih =>
      intro nodes hn
      refine ih _ ?_
      intro d hd
      unfold Loading.grow at hd
      split_ifs at hd
      · exact hn d hd
      · rcases List.mem_append.mp hd with hd | hd
        · exact hn d hd
        · rw [List.mem_singleton.mp hd]
  exact hgrow doc.uids data.nodes h

/-- **The functions after a patch** are those that it writes. -/
theorem func_patched (hb : ∀ d ∈ s.chart.nodes, d.func = none) (hi : i < s.chart.nodes.length) :
    (s.chart.patched doc).nodes[i]?.bind (·.func) = written s doc i := by
  have hlt : i < (s.chart.grown doc).nodes.length := hi.trans_le (length_le_grown _ _)
  have hd := blank_grown hb doc _ (List.getElem_mem hlt)
  have hget : (s.chart.patched doc).nodes[i]? = some (writesAt (doc.patchWrites s.chart) i
      (s.chart.grown doc).nodes[i]) := by
    change (applyWrites _ _)[i]? = _
    rw [getElem?_applyWrites, List.getElem?_eq_getElem hlt]
    rfl
  rw [hget, Loading.writesAt_patchWrites, Option.bind_some, written]
  generalize overlay _ i = o
  cases o with
  | none => exact hd
  | some p =>
    change p.func.or _ = p.func
    rw [hd, Option.or_none]

/-- A patch without code writes no function. -/
theorem written_eq_none (hdoc : ∀ n ∈ doc.items "nodes", n.child? "code" = none) (i : ℕ) :
    written s doc i = none := by
  have hloop : ∀ (ws : List (ℕ × Loading.NodePatch)) (o : Option Loading.NodePatch),
      (∀ w ∈ ws, w.2.func = none) → o.bind (·.func) = none →
      (ws.foldl (fun o w => if w.1 = i then some ((o.getD {}).andThen w.2) else o) o).bind
        (·.func) = none := by
    intro ws
    induction ws with
    | nil => exact fun _ _ ho => ho
    | cons w ws ih =>
      intro o hws ho
      refine ih _ (fun w hw => hws w (List.mem_cons_of_mem _ hw)) ?_
      dsimp only
      split_ifs
      · have hw := hws w List.mem_cons_self
        change w.2.func.or (o.getD {}).func = none
        rw [hw]
        cases o with
        | none => rfl
        | some p => exact ho
      · exact ho
  refine hloop _ none ?_ rfl
  intro w hw
  obtain ⟨n, hn, hover⟩ := List.mem_filterMap.mp hw
  unfold YamlTree.overwrite? at hover
  obtain ⟨uid, -, hover⟩ := Option.bind_eq_some_iff.mp hover
  obtain ⟨j, -, hover⟩ := Option.bind_eq_some_iff.mp hover
  obtain rfl := Option.some.inj hover
  dsimp only
  unfold YamlTree.nodePatch
  rw [hdoc n hn]
  split_ifs
  all_goals rfl

/-- A patch that meets the condition. -/
theorem Wraps.patch (h : Wraps x) (hm : Meets k x.1 (.patch doc)) (ht : x.1.patch doc = some t) :
    ∃ q, x.2.patch doc = some q ∧ Wraps (t, q) := by
  obtain rfl := patch_eq h.positioned ht
  have hq : ∃ q, x.2.patch doc = some q := by
    unfold DebugChart.patch at ht ⊢
    rw [h.chart]
    generalize (patchFromYaml doc).run.run x.1.chart.patching = r at ht
    match r, ht with
    | (.ok _, u), _ | (.error .stoi, u), _ => exact ⟨_, rfl⟩
  obtain ⟨q, hq⟩ := hq
  refine ⟨q, hq, ?_⟩
  obtain rfl := patch_eq (by rw [h.chart]; exact h.positioned) hq
  rw [h.chart]
  have hlen := length_le_grown x.1.chart doc
  refine ⟨rfl, ?_, ?_, ?_, ?_, ?_, ?_⟩
  · intro j d hd
    change ((x.1.chart.patched doc).nodes.map _)[j]? = some d at hd
    rw [List.getElem?_map] at hd
    obtain ⟨d', hd', rfl⟩ := Option.map_eq_some_iff.mp hd
    exact h.positioned.patched doc j d' hd'
  · intro d hd
    obtain ⟨d', -, rfl⟩ := List.mem_map.mp hd
    rfl
  · intro j
    unfold DebugChart.overwritten
    dsimp only
    cases (x.1.chart.patched doc).nodes[j]?.bind (·.func) with
    | some f => exact ⟨some f, rfl⟩
    | none =>
      dsimp only
      split_ifs
      · exact h.plain j
      · exact ⟨none, rfl⟩
  · intro j hj
    obtain ⟨-, hj⟩ := (Bool.and_eq_true _ _).mp hj
    change j < ((x.1.chart.patched doc).nodes.map _).length
    rw [List.length_map]
    change j < (applyWrites _ _).length
    rw [length_applyWrites]
    exact (of_decide_eq_true hj).trans_le hlen
  · intro j hj
    unfold DebugChart.overwritten at hj ⊢
    dsimp only at hj ⊢
    rw [h.chart]
    cases (x.1.chart.patched doc).nodes[j]?.bind (·.func) with
    | some f => rfl
    | none =>
      dsimp only
      split_ifs with hlt
      · refine h.unset j ?_
        rw [decide_eq_true hlt, Bool.and_true] at hj
        exact hj
      · rfl
  · intro j hj
    obtain ⟨hb, hlt⟩ := (Bool.and_eq_true _ _).mp hj
    have hlt := of_decide_eq_true hlt
    unfold DebugChart.overwritten
    dsimp only
    rw [h.chart, func_patched h.blank hlt, hm j hb]
    dsimp only
    rw [if_pos hlt, if_pos hlt]
    exact h.set j hb

/-- **A patch keeps flag and function together exactly if it meets the condition.** -/
theorem Wraps.agrees_patch_iff (h : Wraps x) (ht : x.1.step k (.patch doc) = some t) :
    Agrees t ↔ Meets k x.1 (.patch doc) := by
  have hpatch : x.1.patch doc = some t := ht
  constructor
  · intro hagrees j hb
    by_contra hne
    obtain ⟨f, hf⟩ := Option.ne_none_iff_exists'.mp hne
    obtain rfl := patch_eq h.positioned hpatch
    have hlt := h.bound j hb
    obtain ⟨g, flag, hg⟩ := (hagrees j).mp (by
      change (x.1.breakPoint j && decide (j < x.1.chart.nodes.length)) = true
      rw [hb, decide_eq_true hlt]
      rfl)
    unfold DebugChart.overwritten at hg
    dsimp only at hg
    rw [func_patched h.blank hlt, hf] at hg
    cases hg
  · intro hm
    obtain ⟨q, -, hw⟩ := h.patch hm hpatch
    exact hw.agrees

/-! ### Runs -/

/-- **One step.** -/
theorem Wraps.step {e : Event} (h : Wraps x) (hm : Meets k x.1 e)
    (hs : stepBoth k x e = some y) : Wraps y := by
  obtain ⟨t, ht, hs⟩ := Option.bind_eq_some_iff.mp hs
  cases e with
  | set uid =>
    obtain rfl := Option.some.inj hs
    rw [DebugChart.step] at ht
    cases hi : x.1.chart.indexOf uid with
    | none =>
      rw [hi] at ht
      obtain rfl := Option.some.inj ht
      exact h
    | some i =>
      rw [hi] at ht
      dsimp only at ht
      obtain ⟨d, hd, -⟩ := Loading.ChartData.uid_of_indexOf hi
      cases hb : x.1.breakPoint i with
      | true =>
        rw [if_pos hb] at ht
        obtain rfl := Option.some.inj ht
        exact h
      | false =>
        rw [if_neg (by rw [hb]; nofun)] at ht
        obtain rfl := Option.some.inj ht
        exact h.setBreakpoint (List.getElem?_eq_some_iff.mp hd).1 hb
  | delete uid =>
    obtain rfl := Option.some.inj hs
    cases hi : x.1.chart.indexOf uid with
    | none =>
      rw [DebugChart.step, hi] at ht
      obtain rfl := Option.some.inj ht
      exact h
    | some i =>
      cases hb : x.1.breakPoint i with
      | false =>
        rw [DebugChart.step, hi] at ht
        dsimp only at ht
        rw [if_neg (by rw [hb]; nofun)] at ht
        obtain rfl := Option.some.inj ht
        exact h
      | true =>
        obtain ⟨flag, hflag⟩ := h.set i hb
        rw [DebugChart.step, hi] at ht
        dsimp only at ht
        rw [if_pos hb, DebugChart.deleteBreakpoint, hflag, Option.map_eq_some_iff] at ht
        obtain ⟨d, -, rfl⟩ := ht
        exact h.write d.base.heap nofun fun _ => rfl
  | patch doc =>
    obtain ⟨q, hq, rfl⟩ := Option.map_eq_some_iff.mp hs
    obtain ⟨q', hq', hw⟩ := h.patch hm ht
    obtain rfl := Option.some.inj (hq.symm.trans hq')
    exact hw
  | setExecute i flag =>
    obtain rfl := Option.some.inj hs
    obtain rfl := Option.some.inj ht
    exact h.setExecute i flag
  | others heap =>
    obtain rfl := Option.some.inj hs
    obtain rfl := Option.some.inj ht
    exact ⟨h.chart, h.positioned, h.blank, h.plain, h.bound, h.unset, h.set⟩

/-- **Flag and function agree in every run that meets the condition.** And where it ends with a
command that deletes, or with a patch, these do what they promise exactly if they meet it. -/
theorem agrees_of_steps (h₀ : Fresh s)
    (h : Run.Steps (stepBoth k) (fun x e => Meets k x.1 e) (s, s) x) :
    Agrees x.1 ∧ (∀ uid, Restores k x uid ↔ Meets k x.1 (.delete uid)) ∧
      ∀ doc t, x.1.step k (.patch doc) = some t → (Agrees t ↔ Meets k x.1 (.patch doc)) := by
  have hw : Wraps x := h.invariant h₀.wraps fun _ _ _ hu hm hs => hu.step hm hs
  exact ⟨hw.agrees, fun _ => hw.restores_iff, fun _ _ ht => hw.agrees_patch_iff ht⟩

end Wraps

/-! ### Two runs -/

section Samples

/-- A document with two nodes, whose second one has a function. -/
def loopDoc : YamlTree :=
  .map [("path", .scalar "AI.loop"), ("nodes", .seq [.map [("uid", .scalar "a")],
    .map [("uid", .scalar "b"), ("code",
      .map [("type", .scalar "FUNC"), ("func_name", .scalar "run")])]])]

/-- The chart of the document. -/
def loaded : DebugChart := .ofData ((Loading.fromYaml loopDoc).run.run {}).2.chart

theorem loaded_fresh : Fresh loaded := fresh_ofData (Loading.positioned_fromYaml loopDoc)

/-- A patch of the second node, without a function, that adds a third one. -/
def textDoc : YamlTree :=
  .map [("nodes", .seq [.map [("uid", .scalar "b"), ("text", .scalar "hello")],
    .map [("uid", .scalar "c")]])]

/-- A breakpoint is set, its node patched and the breakpoint deleted. -/
def markedEvents : List Event := [.set "b", .patch textDoc, .delete "b"]

theorem steps_marked {x : DebugChart × DebugChart}
    (h : Run.exec (stepBoth 0) (loaded, loaded) markedEvents = some x) :
    Run.Steps (stepBoth 0) (fun x e => Meets 0 x.1 e) (loaded, loaded) x := by
  have hidle : ((Run.exec (stepBoth 0) (loaded, loaded) [.set "b", .patch textDoc]).all fun x =>
      x.1.heap.asyncWaiting = []) = true := by decide +kernel
  obtain ⟨y, hy, h⟩ := Option.bind_eq_some_iff.mp h
  obtain ⟨z, hz, h⟩ := Option.bind_eq_some_iff.mp h
  obtain ⟨x', hx, h⟩ := Option.bind_eq_some_iff.mp h
  obtain rfl := Option.some.inj h
  rw [Run.exec_cons, hy, Option.bind_some, Run.exec_cons, hz] at hidle
  have hdelete : Meets 0 z.1 (.delete "b") := by
    rintro i - - n ⟨hn, -⟩
    rw [of_decide_eq_true hidle] at hn
    cases hn
  exact (((Run.Steps.refl _).tail trivial hy).tail
    (fun i _ => written_eq_none (by decide) i) hz).tail hdelete hx

/-- Flag and function agree after each of the commands. -/
theorem agrees_marked : ∃ x, Run.exec (stepBoth 0) (loaded, loaded) markedEvents = some x ∧
    Agrees x.1 := by
  obtain ⟨x, hx⟩ := Option.isSome_iff_exists.mp
    (by decide +kernel : (Run.exec (stepBoth 0) (loaded, loaded) markedEvents).isSome = true)
  exact ⟨x, hx, (agrees_of_steps loaded_fresh (steps_marked hx)).1⟩

/-- A patch of the second node, with a function. -/
def funcDoc : YamlTree :=
  .map [("nodes", .seq [.map [("uid", .scalar "b"), ("code",
    .map [("type", .scalar "FUNC"), ("func_name", .scalar "other")])]])]

/-- A breakpoint is set and the node patched: the flag stays, the `BreakpointFunc` is gone. -/
theorem not_forall_agrees : ¬∀ (k : DataId) (s : DebugChart) (x : DebugChart × DebugChart),
    Fresh s → Run.Reaches (stepBoth k) (s, s) x → Agrees x.1 := by
  intro h
  have hrun : ((Run.exec (stepBoth 0) (loaded, loaded) [.set "b", .patch funcDoc]).any fun x =>
      decide (x.1.breakPoint 1 = true ∧ x.1.func 1 = .plain (some (.script "" "other")))) =
        true := by
    decide +kernel
  obtain ⟨x, hx, hp⟩ := (Option.any_eq_true _ _).mp hrun
  obtain ⟨hb, hf⟩ := of_decide_eq_true hp
  obtain ⟨f, flag, hflag⟩ := (h 0 loaded x loaded_fresh (Run.reaches_of_exec hx) 1).mp hb
  rw [hf] at hflag
  cases hflag

end Samples

end Debug

end Asyncflow
