import Asyncflow.Moves.Step

/-!
# The chart data and the charts that use them

`Asyncflow.Registry` is the part of the heap that the loaders and the charts share: the
`ChartData` objects, the dictionary of their paths, and for each chart the object it
points to with the number of nodes it was made with. Only four moves concern it
(`Asyncflow.Registry.Move`); the moves of the runtime do nothing else to it
(`Asyncflow.Heap.registry_of_move`), and so do the steps
(`Asyncflow.State.registry_of_step`).
-/

namespace Asyncflow

/-- The chart data, and of each chart its data and its number of nodes. -/
structure Registry where
  /-- The `ChartData` objects. -/
  data : DataId → Option ChartData
  /-- The next `ChartData` object. -/
  nextData : DataId
  /-- `chart_data_dict_`. -/
  dict : String → Option DataId
  /-- `GetData` and `GetNodesCount` of the charts that are there. -/
  charts : ChartId → Option (DataId × ℕ)
  /-- The next chart. -/
  nextChart : ChartId

/-- The registry of a heap. -/
def Heap.registry (h : Heap) : Registry where
  data := h.chartData
  nextData := h.nextData
  dict := h.chartDataDict
  charts c := (h.charts c).map fun x => (x.data, x.nodeCount)
  nextChart := h.nextChart

namespace Registry

variable (r : Registry)

/-- The version of an import: that of the entry it replaces and one, or its own. -/
def versionFor (data : ChartData) : ℕ :=
  (((r.dict data.name).bind r.data).map (·.version + 1)).getD data.version

/-- `Manager::ReloadChartData`. -/
def load (data : ChartData) : Registry :=
  { r with
    data := Function.update r.data r.nextData
      (some { data with version := r.versionFor data, prev := r.dict data.name })
    nextData := r.nextData + 1
    dict := Function.update r.dict data.name (some r.nextData) }

/-- `ChartData::PatchFromYaml` in place. -/
def patch (d : DataId) (data : ChartData) : Registry :=
  { r with data := Function.update r.data d ((r.data d).map fun _ => data) }

/-- `Chart::Init`. -/
def create (d : DataId) : Registry :=
  { r with
    charts := Function.update r.charts r.nextChart
      (some (d, ((r.data d).map (·.nodes.length)).getD 0))
    nextChart := r.nextChart + 1 }

/-- `Chart::~Chart`. -/
def forget (c : ChartId) : Registry := { r with charts := Function.update r.charts c none }

/-- **The moves of the registry.** -/
inductive Move (may : Permit → Prop) : Registry → Registry → Prop
  | load {r : Registry} (data) : may (.load data) → Move may r (r.load data)
  | patch {r : Registry} {d x b data} (doc) : may (.patch doc) → r.dict doc.path = some d →
      r.data d = some x → x.patchFromYaml doc = some (b, data) → Move may r (r.patch d data)
  | create {r : Registry} (d) : may (.create d) → Move may r (r.create d)
  | forget {r : Registry} (c) : Move may r (r.forget c)

end Registry

namespace Heap

variable {h h' : Heap} {n : NodeRef} {flows : ℕ → Prop} {may : Permit → Prop} {D : NodeRef → Prop}

/-! ### What leaves the registry alone -/

theorem registry_act (h : Heap) (n : NodeRef) (f : Node → Node) (o : Obs) :
    (h.act n f o).registry = h.registry := rfl

/-- A write to a chart that keeps its data and its number of nodes. -/
theorem registry_setChart (h : Heap) (c : ChartId) {f : Chart → Chart}
    (hf : ∀ x, (f x).data = x.data ∧ (f x).nodeCount = x.nodeCount) :
    (h.setChart c f).registry = h.registry := by
  have hc : (h.setChart c f).registry.charts = h.registry.charts := by
    funext c'
    simp only [registry, setChart, Function.update_apply]
    split
    · subst c'
      rw [Option.map_map]
      exact Option.map_congr fun x _ => Prod.ext (hf x).1 (hf x).2
    · rfl
  exact congrArg (fun cs => { h.registry with charts := cs }) hc

theorem registry_setOwner (h : Heap) (c : ChartId) (f : Node → Node) :
    (h.setOwner c f).registry = h.registry := by
  unfold setOwner
  split <;> rfl

/-! ### The moves -/

theorem Alike.registry (ha : h.Alike h') : h'.registry = h.registry := by
  have hc : h'.registry.charts = h.registry.charts := by
    funext c
    change (h'.charts c).map _ = (h.charts c).map _
    cases hx' : h'.charts c with
    | none =>
      cases hx : h.charts c with
      | none => rfl
      | some x =>
        have := ha.alive c (by rw [hx]; rfl)
        rw [hx'] at this
        cases this
    | some x' =>
      obtain ⟨x, hx, ⟨hd, hk⟩, -⟩ := ha.charts c x' hx'
      rw [hx, Option.map_some, Option.map_some, hd, hk]
  calc h'.registry
      = ⟨h'.chartData, h'.nextData, h'.chartDataDict, h'.registry.charts, h'.nextChart⟩ := rfl
    _ = h.registry := by rw [ha.chartData, ha.nextData, ha.chartDataDict, hc, ha.nextChart]; rfl

theorem registry_initChart (h : Heap) (d : DataId) (o : Option NodeRef) :
    (h.initChart d o).registry = h.registry.create d := by
  have hc : (h.initChart d o).registry.charts = (h.registry.create d).charts := by
    funext c
    simp only [registry, initChart, note, Registry.create, Function.update_apply]
    split <;> rfl
  exact congrArg (fun cs => { h.registry.create d with charts := cs }) hc

theorem registry_forgetChart (h : Heap) (c : ChartId) :
    (h.forgetChart c).registry = h.registry.forget c := by
  have hc : (h.forgetChart c).registry.charts = (h.registry.forget c).charts := by
    funext c'
    simp only [registry, forgetChart, note, Registry.forget, Function.update_apply]
    split <;> rfl
  have hs := registry_setOwner h c ({ · with attacher := none })
  calc (h.forgetChart c).registry
      = { (h.setOwner c ({ · with attacher := none })).registry with
          charts := (h.forgetChart c).registry.charts } := rfl
    _ = h.registry.forget c := by rw [hs, hc]; rfl

/-- **The moves of the runtime are moves of the registry**, or leave it alone. -/
theorem registry_of_move (hm : Move flows may D h h') :
    h'.registry = h.registry ∨ Registry.Move may h.registry h'.registry := by
  rcases outer_of_move hm with ho | ho
  · have hr : h'.outer.registry = h.outer.registry := congrArg registry ho
    exact .inl hr
  cases ho with
  | alike ha => exact .inl ha.registry
  | load data hp => exact .inr (.load data hp)
  | @patch d r doc hp hd hr =>
    obtain ⟨x, hx, hr⟩ := Option.bind_eq_some_iff.mp hr
    exact .inr (.patch (b := r.1) doc hp hd hx hr)
  | manage _ _ _ _ _ hp => exact .inl rfl
  | @started c x hx hne =>
    refine .inl ?_
    simp only [markStarted, hx, hne, ↓reduceIte]
    exact registry_setChart h c fun _ => ⟨rfl, rfl⟩
  | create d o hp _ => exact .inr (registry_initChart h d o ▸ .create d hp)
  | forget c => exact .inr (registry_forgetChart h c ▸ .forget c)

/-- What the moves of the registry keep, the operations of the runtime keep. -/
theorem registry_of_does {P : Registry → Prop} (hd : Does flows may D h h')
    (hP : ∀ {r r'}, Registry.Move may r r' → P r → P r') (h0 : P h.registry) :
    P h'.registry := by
  refine Traced.Does.invariant (I := fun g => P g.registry) hd (fun hm hp => ?_) h0
  rcases registry_of_move hm with heq | hr
  · rwa [heq]
  · exact hP hr hp

end Heap

namespace State

variable {cfg : Config} {s t : State} {a : Act}

/-- **What a step does to the registry.** -/
theorem registry_of_step {P : Registry → Prop} (hw : s.Wf) (h : s.step cfg a = some t)
    (hP : ∀ {r r'}, Registry.Move (s.Permits a) r r' → P r → P r') (h0 : P s.heap.registry) :
    P t.heap.registry := by
  have hd : Heap.Does (fun _ => True) (s.Permits a) (fun _ => False) s.heap t.heap :=
    does_of_step (fun _ _ => trivial) hw h fun _ hp => hp
  exact Heap.registry_of_does hd hP h0

end State

end Asyncflow
