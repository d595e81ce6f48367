import Asyncflow.Lib.Lineage
import Asyncflow.Moves.Registry

/-!
# Old charts keep old data, new charts use new data

Every import makes a new version of the chart data of its path: the dictionary points to
it, and it points to the version before. The charts that are there keep the version they
were made with; patching in place rewrites a version without moving it.

`Asyncflow.Registry.Versioned` is the invariant: the versions of a path are a chain
(`Asyncflow.Registry.Chain`) with every version of the path on it, and every chart uses a
version that is there. `Asyncflow.Registry.Extends` says what stays. Both are proved move
by move, and `Asyncflow.State.versioned` reads them off for every run whose imports register
what the loaders made.
-/

namespace Asyncflow

namespace Registry

variable {r r' r'' : Registry} {may : Permit → Prop} {d : DataId} {path path' : String}
  {ds ds' : List DataId} {data : ChartData}

/-! ### The chain of a path -/

/-- `prev_` of a version. -/
def prevOf (r : Registry) (d : DataId) : Option DataId := ((r.data d).map (·.prev)).join

/-- `Name` of a version. -/
def pathOf (r : Registry) (d : DataId) : Option String := (r.data d).map (·.name)

/-- `GetVersion` of a version. -/
def versionOf (r : Registry) (d : DataId) : Option ℕ := (r.data d).map (·.version)

/-- **The chain of a path**: from the entry of the dictionary the pointers lead through
every version of the path, down to version zero. -/
structure Chain (r : Registry) (path : String) (ds : List DataId) : Prop where
  lineage : Lineage r.prevOf (r.dict path) ds
  nodup : ds.Nodup
  mem : ∀ d, d ∈ ds ↔ r.pathOf d = some path
  versions : ds.map r.versionOf = (List.range ds.length).reverse.map some

/-- What the registry of a run is like. -/
structure Versioned (r : Registry) : Prop where
  data : ∀ d, (r.data d).isSome → d < r.nextData
  charts : ∀ c, (r.charts c).isSome → c < r.nextChart
  chain : ∀ path, ∃ ds, r.Chain path ds
  live : ∀ c p, r.charts c = some p → (r.data p.1).isSome

/-- What is registered stays registered, and the charts keep their data. -/
structure Extends (r r' : Registry) : Prop where
  nextChart : r.nextChart ≤ r'.nextChart
  data : ∀ d x, r.data d = some x →
    ∃ x', r'.data d = some x' ∧ x'.name = x.name ∧ x'.prev = x.prev ∧ x'.version = x.version
  charts : ∀ c < r.nextChart, ∀ p, r'.charts c = some p → r.charts c = some p

theorem Extends.refl (r : Registry) : r.Extends r where
  nextChart := Nat.le_refl _
  data _ x hx := ⟨x, hx, rfl, rfl, rfl⟩
  charts _ _ _ hp := hp

theorem Extends.trans (h : r.Extends r') (h' : r'.Extends r'') : r.Extends r'' where
  nextChart := Nat.le_trans h.nextChart h'.nextChart
  data d x hx := by
    obtain ⟨x', hx', hn, hp, hv⟩ := h.data d x hx
    obtain ⟨x'', hx'', hn', hp', hv'⟩ := h'.data d x' hx'
    exact ⟨x'', hx'', hn'.trans hn, hp'.trans hp, hv'.trans hv⟩
  charts c hc p hp :=
    h.charts c hc p (h'.charts c (Nat.lt_of_lt_of_le hc h.nextChart) p hp)

/-- Different paths have different versions. -/
theorem Chain.disjoint (h : r.Chain path ds) (h' : r.Chain path' ds') (hne : path ≠ path') :
    ds.Disjoint ds' := by
  intro d hd hd'
  have heq := ((h.mem d).mp hd).symm.trans ((h'.mem d).mp hd')
  exact hne (Option.some.inj heq)

/-- A chain is read off the pointers, the paths and the versions. -/
theorem Chain.congr (h : r.Chain path ds) (hdict : r'.dict path = r.dict path)
    (hprev : r'.prevOf = r.prevOf) (hpath : r'.pathOf = r.pathOf)
    (hversion : r'.versionOf = r.versionOf) : r'.Chain path ds where
  lineage := by rw [hprev, hdict]; exact h.lineage
  nodup := h.nodup
  mem := by rw [hpath]; exact h.mem
  versions := by rw [hversion]; exact h.versions

/-- The version an import of the path gets is the length of the chain so far. -/
theorem Chain.versionFor (h : r.Chain data.name ds) (h0 : data.version = 0) :
    r.versionFor data = ds.length := by
  have hl := h.lineage
  have hv := h.versions
  unfold Registry.versionFor
  generalize r.dict data.name = start at hl
  cases hl with
  | nil => exact h0
  | @cons d ds hl =>
    rw [List.map_cons, List.length_cons, List.range_succ, List.reverse_append] at hv
    have hd : r.versionOf d = some ds.length := (List.cons.inj hv).1
    obtain ⟨x, hx, hxv⟩ := Option.map_eq_some_iff.mp hd
    simp [hx, hxv]

/-! ### Imports -/

section Load

variable (hfresh : r.data r.nextData = none)

theorem data_load (d : DataId) : (r.load data).data d = if d = r.nextData then
    some { data with version := r.versionFor data, prev := r.dict data.name } else r.data d :=
  Function.update_apply ..

theorem prevOf_load (d : DataId) :
    (r.load data).prevOf d = if d = r.nextData then r.dict data.name else r.prevOf d := by
  rw [prevOf, data_load]
  split
  · rfl
  · rfl

theorem pathOf_load (d : DataId) :
    (r.load data).pathOf d = if d = r.nextData then some data.name else r.pathOf d := by
  rw [pathOf, data_load]
  split
  · rfl
  · rfl

theorem versionOf_load (d : DataId) : (r.load data).versionOf d =
    if d = r.nextData then some (r.versionFor data) else r.versionOf d := by
  rw [versionOf, data_load]
  split
  · rfl
  · rfl

include hfresh

/-- The new version is on no chain. -/
theorem Chain.fresh (h : r.Chain path ds) : r.nextData ∉ ds := by
  intro hmem
  have hp := (h.mem _).mp hmem
  rw [pathOf, hfresh] at hp
  cases hp

/-- The other chains stay as they are. -/
theorem Chain.load_of_ne (h : r.Chain path ds) (hne : path ≠ data.name) :
    (r.load data).Chain path ds where
  lineage := by
    have hdict : (r.load data).dict path = r.dict path := Function.update_of_ne hne ..
    rw [hdict]
    refine h.lineage.congr fun d hd => ?_
    rw [prevOf_load, if_neg]
    rintro rfl
    exact h.fresh hfresh hd
  nodup := h.nodup
  mem d := by
    rw [pathOf_load]
    split
    · subst d
      constructor
      · exact fun hd => absurd hd (h.fresh hfresh)
      · exact fun hd => absurd (Option.some.inj hd).symm hne
    · exact h.mem d
  versions := by
    rw [← h.versions]
    refine List.map_congr_left fun d hd => ?_
    rw [versionOf_load, if_neg]
    rintro rfl
    exact h.fresh hfresh hd

/-- **An import puts the new version at the head of its chain.** -/
theorem Chain.load (h : r.Chain data.name ds) (h0 : data.version = 0) :
    (r.load data).Chain data.name (r.nextData :: ds) where
  lineage := by
    have hdict : (r.load data).dict data.name = some r.nextData := Function.update_self ..
    rw [hdict]
    refine .cons ?_
    rw [prevOf_load, if_pos rfl]
    refine h.lineage.congr fun d hd => ?_
    rw [prevOf_load, if_neg]
    rintro rfl
    exact h.fresh hfresh hd
  nodup := List.nodup_cons.mpr ⟨h.fresh hfresh, h.nodup⟩
  mem d := by
    rw [pathOf_load, List.mem_cons]
    split
    · simp [*]
    · rw [← h.mem d]
      simp [*]
  versions := by
    rw [List.length_cons, List.range_succ, List.reverse_append, List.map_cons, versionOf_load,
      if_pos rfl, h.versionFor h0]
    have hds : ds.map (r.load data).versionOf = ds.map r.versionOf := by
      refine List.map_congr_left fun d hd => ?_
      rw [versionOf_load, if_neg]
      rintro rfl
      exact h.fresh hfresh hd
    rw [hds, h.versions]
    rfl

end Load

/-! ### The moves -/

/-- What is not there is fresh. -/
theorem Versioned.fresh (hv : r.Versioned) : r.data r.nextData = none := by
  refine Option.eq_none_iff_forall_ne_some.mpr fun x hx => ?_
  exact Nat.lt_irrefl _ (hv.data r.nextData (by rw [hx]; rfl))

theorem data_patch (d' : DataId) : (r.patch d data).data d' =
    if d' = d then (r.data d).map fun _ => data else r.data d' := Function.update_apply ..

/-- A patch in place keeps what a chain is read off. -/
theorem view_patch {β : Type} {x : ChartData} (g : ChartData → β) (hx : r.data d = some x)
    (hg : g data = g x) (d' : DataId) :
    ((r.patch d data).data d').map g = (r.data d').map g := by
  rw [data_patch]
  split
  · subst d'
    simp [hx, hg]
  · rfl

theorem patchFromYaml_kept {x : ChartData} {doc : YamlChart} {b : Bool}
    (h : x.patchFromYaml doc = some (b, data)) :
    data.name = x.name ∧ data.prev = x.prev ∧ data.version = x.version := by
  unfold ChartData.patchFromYaml at h
  obtain ⟨nodes, -, heq⟩ := Option.map_eq_some_iff.mp h
  cases heq
  exact ⟨rfl, rfl, rfl⟩

theorem Extends.of_patch {x : ChartData} (hx : r.data d = some x)
    (hk : data.name = x.name ∧ data.prev = x.prev ∧ data.version = x.version) :
    r.Extends (r.patch d data) where
  nextChart := Nat.le_refl _
  data d' y hy := by
    rw [data_patch]
    split
    · subst d'
      obtain rfl := Option.some.inj (hx.symm.trans hy)
      exact ⟨data, by rw [hx]; rfl, hk⟩
    · exact ⟨y, hy, rfl, rfl, rfl⟩
  charts _ _ _ hp := hp

/-- **The moves keep what is registered.** -/
theorem extends_of_move (hfresh : r.data r.nextData = none) (hm : Move may r r') :
    r.Extends r' := by
  cases hm with
  | load data hp =>
    refine ⟨Nat.le_refl _, fun d x hx => ?_, fun _ _ _ hp => hp⟩
    refine ⟨x, ?_, rfl, rfl, rfl⟩
    rw [data_load, if_neg]
    · exact hx
    · rintro rfl
      rw [hfresh] at hx
      cases hx
  | patch doc hp hd hx hr => exact .of_patch hx (patchFromYaml_kept hr)
  | create d hp =>
    refine ⟨Nat.le_succ _, fun d x hx => ⟨x, hx, rfl, rfl, rfl⟩, fun c hc p hp => ?_⟩
    have hne : c ≠ r.nextChart := Nat.ne_of_lt hc
    simpa only [create, Function.update_of_ne hne] using hp
  | forget c =>
    refine ⟨Nat.le_refl _, fun d x hx => ⟨x, hx, rfl, rfl, rfl⟩, fun c' _ p hp => ?_⟩
    simp only [forget, Function.update_apply] at hp
    split at hp
    · cases hp
    · exact hp

/-- **The invariant of the registry**: the moves keep it when what they load is a first
version, and what they make charts of is there. -/
theorem versioned_of_move (hload : ∀ data, may (.load data) → data.version = 0)
    (hcreate : ∀ d, may (.create d) → (r.data d).isSome) (hv : r.Versioned) (hm : Move may r r') :
    r'.Versioned := by
  have hlive : ∀ c p, r.charts c = some p → (r'.data p.1).isSome := by
    intro c p hp
    obtain ⟨x, hx⟩ := Option.isSome_iff_exists.mp (hv.live c p hp)
    obtain ⟨x', hx', -⟩ := (extends_of_move hv.fresh hm).data _ x hx
    rw [hx']
    rfl
  cases hm with
  | load data hp =>
    refine ⟨fun d hd => ?_, hv.charts, fun path => ?_, hlive⟩
    · rw [data_load] at hd
      split at hd
      · subst d
        exact Nat.lt_succ_self _
      · exact Nat.lt_succ_of_lt (hv.data d hd)
    · obtain ⟨ds, hds⟩ := hv.chain path
      by_cases hne : path = data.name
      · subst path
        exact ⟨_, hds.load hv.fresh (hload data hp)⟩
      · exact ⟨ds, hds.load_of_ne hv.fresh hne⟩
  | @patch d x b data doc hp hd hx hr =>
    obtain ⟨hn, hpr, hvs⟩ := patchFromYaml_kept hr
    refine ⟨fun d' hd' => hv.data d' ?_, hv.charts, fun path => ?_, hlive⟩
    · have hv' : ((r.patch d data).data d').map (fun _ => ()) = (r.data d').map fun _ => () :=
        view_patch (fun _ => ()) hx (by rfl) d'
      rwa [← Option.isSome_map, ← hv', Option.isSome_map]
    · obtain ⟨ds, hds⟩ := hv.chain path
      refine ⟨ds, hds.congr rfl ?_ ?_ ?_⟩
      · exact funext fun d' => congrArg Option.join (view_patch ChartData.prev hx hpr d')
      · exact funext (view_patch ChartData.name hx hn)
      · exact funext (view_patch ChartData.version hx hvs)
  | create d hp =>
    refine ⟨hv.data, fun c hc => ?_, fun path => ?_, fun c p hp' => ?_⟩
    · simp only [create, Function.update_apply] at hc
      split at hc
      · subst c
        exact Nat.lt_succ_self _
      · exact Nat.lt_succ_of_lt (hv.charts c hc)
    · exact (hv.chain path).imp fun _ hds => hds.congr rfl rfl rfl rfl
    · simp only [create, Function.update_apply] at hp'
      split at hp'
      · obtain rfl := Option.some.inj hp'
        exact hcreate d hp
      · exact hlive c p hp'
  | forget c =>
    refine ⟨hv.data, fun c' hc => hv.charts c' ?_, fun path => ?_, fun c' p hp => hlive c' p ?_⟩
    · simp only [forget, Function.update_apply] at hc
      split at hc
      · cases hc
      · exact hc
    · exact (hv.chain path).imp fun _ hds => hds.congr rfl rfl rfl rfl
    · simp only [forget, Function.update_apply] at hp
      split at hp
      · cases hp
      · exact hp

theorem versioned_init : ({} : Heap).registry.Versioned where
  data _ hd := nomatch hd
  charts _ hc := nomatch hc
  chain path := by
    refine ⟨[], .nil, List.nodup_nil, fun d => ?_, rfl⟩
    constructor
    · exact fun hd => nomatch hd
    · exact fun hd => nomatch hd
  live _ _ hp := nomatch hp

/-- The entry of a path is a version of the path. -/
theorem Versioned.path_of_dict (hv : r.Versioned) (hd : r.dict path = some d) :
    r.pathOf d = some path := by
  obtain ⟨ds, hds⟩ := hv.chain path
  have hl := hds.lineage
  rw [hd] at hl
  exact (hds.mem d).mp hl.mem_start

theorem isSome_of_path (hp : r.pathOf d = some path) : (r.data d).isSome := by
  obtain ⟨x, hx, -⟩ := Option.map_eq_some_iff.mp hp
  rw [hx]
  rfl

end Registry

/-! ### A call of `Manager::Subchart` -/

namespace Heap

variable {h : Heap} {n : NodeRef} {c c' : ChartId} {name : String} {a : AgentId} {d : DataId}

theorem registry_addChart (h : Heap) (a : AgentId) (c : ChartId) :
    (h.addChart a c).2.registry = h.registry := by
  unfold addChart
  split
  · rfl
  · split
    · rfl
    · exact registry_setChart h c fun _ => ⟨rfl, rfl⟩

theorem registry_makeSubchart (h : Heap) (n : NodeRef) (d : DataId) (a : AgentId) :
    (h.makeSubchart n d a).2.registry = h.registry.create d :=
  (registry_addChart ..).trans (registry_initChart ..)

theorem attacher_makeSubchart (h : Heap) (n : NodeRef) (d : DataId) (a : AgentId) :
    ((h.makeSubchart n d a).2.nodes n).attacher = some (.subchart (h.makeSubchart n d a).1) := by
  simp [makeSubchart]

/-- A node that loses its `Subchart` attacher loses the chart. -/
theorem charts_clearAttacher (hn : (h.nodes n).attacher = some (.subchart c)) :
    (h.clearAttacher n).registry.charts c = none := by
  unfold clearAttacher deleteAttacher
  rw [hn]
  dsimp only [registry_act]
  rw [deleteChart, destroyChart, dropChart, registry_forgetChart]
  exact Function.update_self ..

/-- **The chart of a `Subchart` call** is one of the newest data, and a chart of other data
that the node has is gone. -/
theorem prepareSubchart_head (hb : h.Born) (hn : h.currentNode = some n)
    (hd : h.chartDataDict name = some d) (hc : (h.prepareSubchart name a).1 = some c) :
    ((h.prepareSubchart name a).2.nodes n).attacher = some (.subchart c) ∧
      (∃ k, (h.prepareSubchart name a).2.registry.charts c = some (d, k)) ∧
      ∀ c' p, (h.nodes n).attacher = some (.subchart c') → h.registry.charts c' = some p →
        p.1 ≠ d → (h.prepareSubchart name a).2.registry.charts c' = none := by
  -- A new chart of the data, whatever is there before.
  have hmake : ∀ g : Heap, (∃ k, (g.makeSubchart n d a).2.registry.charts g.nextChart =
      some (d, k)) := by
    intro g
    rw [registry_makeSubchart]
    exact ⟨_, Function.update_self ..⟩
  unfold prepareSubchart at hc ⊢
  rw [hn, hd] at hc ⊢
  dsimp only at hc ⊢
  cases hatt : (h.nodes n).attacher with
  | none =>
    rw [hatt] at hc
    obtain rfl := Option.some.inj hc
    exact ⟨attacher_makeSubchart .., hmake h, nofun⟩
  | some att =>
    rw [hatt] at hc
    cases att with
    | timer b => cases hc
    | waitAll ids => cases hc
    | subchart c₀ =>
      dsimp only at hc ⊢
      by_cases hsame : ((h.charts c₀).any fun x => x.agent == some a && x.data == d) = true
      · -- The chart is of the newest data already.
        rw [if_pos hsame] at hc ⊢
        obtain rfl := Option.some.inj hc
        obtain ⟨x, hx, hxd⟩ := (Option.any_eq_true _ _).mp hsame
        rw [Bool.and_eq_true, beq_iff_eq, beq_iff_eq] at hxd
        have hr : h.registry.charts c₀ = some (d, x.nodeCount) := by
          change (h.charts c₀).map _ = _
          rw [hx, ← hxd.2]
          rfl
        refine ⟨?_, ⟨_, hr⟩, ?_⟩
        · simp [hatt]
        · rintro c' p ⟨⟩ hp hne
          obtain rfl := Option.some.inj (hr.symm.trans hp)
          exact absurd rfl hne
      · rw [if_neg hsame] at hc ⊢
        obtain rfl := Option.some.inj hc
        refine ⟨attacher_makeSubchart .., hmake _, ?_⟩
        rintro c' p ⟨⟩ hp -
        have hlt : c₀ < h.nextChart := by
          refine hb.chart c₀ ?_
          rw [← Option.isSome_map, Option.isSome_iff_exists]
          exact ⟨p, hp⟩
        have hdoes : Does (fun _ => True) (fun _ => True) (fun _ => False) h (h.clearAttacher n) :=
          does_clearAttacher h n
        have hle : h.nextChart ≤ (h.clearAttacher n).nextChart := nextChart_le_of_does hdoes
        have hne : c₀ ≠ (h.clearAttacher n).registry.nextChart :=
          Nat.ne_of_lt (Nat.lt_of_lt_of_le hlt hle)
        rw [registry_makeSubchart]
        simp only [Registry.create, Function.update_of_ne hne]
        exact charts_clearAttacher hatt

/-- A call that finds no chart used the attacher at a type it does not have. -/
theorem ub_prepareSubchart (hn : h.currentNode = some n) (hd : h.chartDataDict name = some d)
    (hc : (h.prepareSubchart name a).1 = none) : (h.prepareSubchart name a).2.ub = true := by
  unfold prepareSubchart at hc ⊢
  rw [hn, hd] at hc ⊢
  dsimp only at hc ⊢
  split at hc
  · rfl
  · rfl
  · split at hc <;> cases hc
  · cases hc

theorem registry_markStarted (h : Heap) (c : ChartId) :
    (h.markStarted c).registry = h.registry := by
  unfold markStarted
  split
  · split
    · rfl
    · exact registry_setChart h c fun _ => ⟨rfl, rfl⟩
  · rfl

theorem attacher_markStarted (h : Heap) (c : ChartId) (m : NodeRef) :
    ((h.markStarted c).nodes m).attacher = (h.nodes m).attacher := by
  unfold markStarted
  split
  · split
    · rfl
    · exact field_setNode _ _ m Node.attacher fun _ => rfl
  · rfl

end Heap

/-! ### Runs -/

namespace State

variable {cfg : Config} {s t : State} {a : Act} {c : ChartId} {data : ChartData}

/-- The imports of a run register what the loaders made. -/
def Imports (_ : State) (a : Act) : Prop := ∀ data, a = .op (.importChart data) → Loaded data

/-- The step registers the data. -/
def Registers (s : State) (a : Act) (data : ChartData) : Prop :=
  a = .op (.importChart data) ∨ ∃ doc, a = .op (.patchChart doc) ∧
    s.heap.chartDataDict doc.path = none ∧ fromYaml doc = some (true, data)

/-- The loaders make first versions. -/
theorem version_of_loaded (h : Loaded data) : data.version = 0 := by
  rcases h with ⟨doc, h⟩ | ⟨doc, h⟩
  · unfold fromYaml at h
    dsimp only at h
    split at h
    · obtain ⟨nodes, -, heq⟩ := Option.map_eq_some_iff.mp h
      cases heq
      rfl
    · cases h
  · unfold fromJson at h
    split at h
    · cases h
      rfl
    · cases h

/-- A step that registers data does this to the registry. -/
theorem registry_of_registers (hr : s.Registers a data) (h : s.step cfg a = some t) :
    t.heap.registry = s.heap.registry.load data := by
  rcases hr with rfl | ⟨doc, rfl, hd, hl⟩
  · cases (trans_of_step h).1 with
    | op hm ho =>
      cases ho
      rfl
  · cases (trans_of_step h).1 with
    | op hm ho =>
      cases ho
      change (s.heap.patchChart doc).registry = _
      simp only [Heap.patchChart, hd, hl]
      rfl

/-- A move of a step keeps the invariant, and what is registered before the step. -/
theorem versioned_of_permits {r r' : Registry} (hv : s.heap.registry.Versioned) (hk : Imports s a)
    (hve : r.Versioned ∧ s.heap.registry.Extends r) (hm : Registry.Move (s.Permits a) r r') :
    r'.Versioned ∧ s.heap.registry.Extends r' := by
  obtain ⟨hv', he⟩ := hve
  refine ⟨Registry.versioned_of_move ?_ ?_ hv' hm, he.trans (Registry.extends_of_move hv'.fresh hm)⟩
  · rintro data (rfl | ⟨doc, rfl, hd⟩)
    · exact version_of_loaded (hk data rfl)
    · exact version_of_loaded (.inl ⟨doc, hd⟩)
  · rintro d ⟨g, name, -, hd⟩
    have hd' : s.heap.registry.dict name = some d := hd
    obtain ⟨x, hx⟩ := Option.isSome_iff_exists.mp (Registry.isSome_of_path (hv.path_of_dict hd'))
    obtain ⟨x', hx', -⟩ := he.data d x hx
    rw [hx']
    rfl

/-- **A step keeps the invariant**, and what is registered. -/
theorem versioned_of_step (hw : s.Wf) (hv : s.heap.registry.Versioned) (hk : Imports s a)
    (h : s.step cfg a = some t) :
    t.heap.registry.Versioned ∧ s.heap.registry.Extends t.heap.registry :=
  registry_of_step (P := fun r => r.Versioned ∧ s.heap.registry.Extends r) hw h
    (fun hm hve => versioned_of_permits hv hk hve hm) ⟨hv, .refl _⟩

theorem versioned_of_steps (h : Run.Steps (step cfg) Imports init s) :
    s.Wf ∧ s.heap.registry.Versioned :=
  h.invariant (I := fun s => s.Wf ∧ s.heap.registry.Versioned) ⟨wf_init, Registry.versioned_init⟩
    fun _ _ _ hi hk hs => ⟨wf_of_step hi.1 hs, (versioned_of_step hi.1 hi.2 hk hs).1⟩

/-- A run extends the registry. -/
theorem extends_of_steps (hw : s.Wf) (hv : s.heap.registry.Versioned)
    (h : Run.Steps (step cfg) Imports s t) : s.heap.registry.Extends t.heap.registry :=
  h.relation (I := fun s => s.Wf ∧ s.heap.registry.Versioned)
    (R := fun s t => s.heap.registry.Extends t.heap.registry) (fun s => .refl s.heap.registry)
    .trans ⟨hw, hv⟩
    (fun _ _ _ hi hk hs => ⟨wf_of_step hi.1 hs, (versioned_of_step hi.1 hi.2 hk hs).1⟩)
    fun _ _ _ hi hk hs => (versioned_of_step hi.1 hi.2 hk hs).2

/-- **A new chart uses the newest data** of the name it is attached or called by. -/
theorem head_of_step (hw : s.Wf) (h : s.step cfg a = some t) {x : Chart}
    (hx : t.heap.charts c = some x) (hnew : s.heap.charts c = none) :
    ∃ g name, (a = .op (.attachChart g name) ∨ a = .op (.subchart name g)) ∧
      s.heap.chartDataDict name = some x.data := by
  have hP : ∀ c p, t.heap.registry.charts c = some p → s.heap.registry.charts c = some p ∨
      s.Permits a (.create p.1) := by
    refine registry_of_step (P := fun r => ∀ c p, r.charts c = some p →
      s.heap.registry.charts c = some p ∨ s.Permits a (.create p.1)) hw h ?_ fun _ _ hp => .inl hp
    rintro r r' hm hr c p hp
    cases hm with
    | load | patch => exact hr c p hp
    | create d hd =>
      simp only [Registry.create, Function.update_apply] at hp
      split at hp
      · cases hp
        exact .inr hd
      · exact hr c p hp
    | forget c' =>
      simp only [Registry.forget, Function.update_apply] at hp
      split at hp
      · cases hp
      · exact hr c p hp
  have hc : t.heap.registry.charts c = some (x.data, x.nodeCount) := by
    change (t.heap.charts c).map _ = _
    rw [hx]
    rfl
  rcases hP c _ hc with hold | hd
  · change (s.heap.charts c).map _ = _ at hold
    rw [hnew] at hold
    cases hold
  · exact hd

theorem heap_startChart_sync (s : State) (g : AgentId) (c : ChartId) :
    (s.startChart cfg g c true).heap = s.heap ∨
      (s.startChart cfg g c true).heap = s.heap.markStarted c := by
  unfold startChart
  split
  · exact .inl rfl
  · exact .inr rfl

/-- **A call of `Manager::Subchart`** leaves the node with a chart of the newest data, and
a chart of other data that the node had is gone. -/
theorem subchart_of_step {name : String} {g : AgentId} {n : NodeRef} {d : DataId} (hw : s.Wf)
    (h : s.step cfg (.op (.subchart name g)) = some t) (hg : (s.heap.agents g).isSome)
    (hn : s.heap.currentNode = some n) (hd : s.heap.chartDataDict name = some d) :
    ∃ c x, (t.heap.nodes n).attacher = some (.subchart c) ∧ t.heap.charts c = some x ∧
      x.data = d ∧ ∀ c' x', (s.heap.nodes n).attacher = some (.subchart c') →
        s.heap.charts c' = some x' → x'.data ≠ d → t.heap.charts c' = none := by
  have hsound := sound_of_step h
  cases (trans_of_step h).1 with
  | op hm ho =>
    obtain rfl : s.subchart cfg name g = t := Option.some.inj ho
    unfold subchart at hsound ⊢
    rw [if_pos hg] at hsound ⊢
    dsimp only at hsound ⊢
    cases hc : (s.heap.prepareSubchart name g).1 with
    | none =>
      -- The call ran into undefined behaviour.
      rw [hc] at hsound
      have hub := Heap.ub_prepareSubchart hn hd hc
      simp [sound, mapHeap, hub] at hsound
    | some c =>
      dsimp only
      obtain ⟨hatt, ⟨k, hreg⟩, hgone⟩ := Heap.prepareSubchart_head hw.born hn hd hc
      have hheap := @heap_startChart_sync cfg
        (s.mapHeap fun _ => (s.heap.prepareSubchart name g).2) g c
      generalize (s.mapHeap fun _ => (s.heap.prepareSubchart name g).2).startChart cfg g c true = t
        at hheap ⊢
      have hregt : t.heap.registry = (s.heap.prepareSubchart name g).2.registry := by
        rcases hheap with heq | heq
        · rw [heq]; rfl
        · rw [heq]; exact Heap.registry_markStarted _ _
      have hattt : (t.heap.nodes n).attacher = some (.subchart c) := by
        rcases hheap with heq | heq
        · rw [heq]; exact hatt
        · rw [heq]; exact (Heap.attacher_markStarted ..).trans hatt
      rw [← hregt] at hreg hgone
      obtain ⟨x, hx, hxd⟩ := Option.map_eq_some_iff.mp hreg
      refine ⟨c, x, hattt, hx, congrArg Prod.fst hxd, fun c' x' hatt' hx' hne => ?_⟩
      have hx'' : s.heap.registry.charts c' = some (x'.data, x'.nodeCount) := by
        change (s.heap.charts c').map _ = _
        rw [hx']
        rfl
      exact Option.map_eq_none_iff.mp (hgone c' _ hatt' hx'' hne)

/-- **Old charts keep old data, new charts use new data.** In every run whose imports
register what the loaders made, the versions of every path are a chain that ends with
version zero; chains of different paths are disjoint; every chart uses a version of the
chain of its path, and keeps it; a new version becomes the head of its chain; and the
charts that `AttachChart` and `Subchart` make use the head. -/
theorem versioned (h : Run.Steps (step cfg) Imports init s) :
    (∀ path, ∃ ds, s.heap.registry.Chain path ds) ∧
    (∀ path path' ds ds', path ≠ path' → s.heap.registry.Chain path ds →
      s.heap.registry.Chain path' ds' → ds.Disjoint ds') ∧
    (∀ c x, s.heap.charts c = some x → ∃ path ds, s.heap.nameOf c = some path ∧
      s.heap.registry.Chain path ds ∧ x.data ∈ ds) ∧
    (∀ t, Run.Steps (step cfg) Imports s t → s.heap.registry.Extends t.heap.registry) ∧
    (∀ a data t, s.Registers a data → s.step cfg a = some t →
      s.heap.chartData s.heap.nextData = none ∧
      t.heap.chartDataDict data.name = some s.heap.nextData ∧
      t.heap.registry.pathOf s.heap.nextData = some data.name) ∧
    (∀ a t c x, s.step cfg a = some t → t.heap.charts c = some x → s.heap.charts c = none →
      ∃ g name, (a = .op (.attachChart g name) ∨ a = .op (.subchart name g)) ∧
        s.heap.chartDataDict name = some x.data) ∧
    (∀ name g n d t, s.step cfg (.op (.subchart name g)) = some t → (s.heap.agents g).isSome →
      s.heap.currentNode = some n → s.heap.chartDataDict name = some d →
      ∃ c x, (t.heap.nodes n).attacher = some (.subchart c) ∧ t.heap.charts c = some x ∧
        x.data = d ∧ ∀ c' x', (s.heap.nodes n).attacher = some (.subchart c') →
          s.heap.charts c' = some x' → x'.data ≠ d → t.heap.charts c' = none) := by
  obtain ⟨hw, hv⟩ := versioned_of_steps h
  refine ⟨hv.chain, fun _ _ _ _ hne hds hds' => hds.disjoint hds' hne, ?_,
    fun t ht => extends_of_steps hw hv ht, ?_, fun _ _ _ _ ht hx hnew => head_of_step hw ht hx hnew,
    fun _ _ _ _ _ ht hg hn hd => subchart_of_step hw ht hg hn hd⟩
  · intro c x hx
    have hlive : (s.heap.registry.data x.data).isSome := by
      refine hv.live c (x.data, x.nodeCount) ?_
      change (s.heap.charts c).map _ = _
      rw [hx]
      rfl
    obtain ⟨data, hdata⟩ := Option.isSome_iff_exists.mp hlive
    obtain ⟨ds, hds⟩ := hv.chain data.name
    refine ⟨data.name, ds, ?_, hds, (hds.mem _).mpr ?_⟩
    · have hdo : s.heap.dataOf c = some data := by
        rw [Heap.dataOf, hx]
        exact hdata
      rw [Heap.nameOf, hdo, Option.map_some]
    · rw [Registry.pathOf, hdata, Option.map_some]
  · intro a data t hr ht
    have hreg := registry_of_registers hr ht
    refine ⟨hv.fresh, ?_, ?_⟩
    · have hdict : t.heap.registry.dict data.name = some s.heap.nextData := by
        rw [hreg]
        exact Function.update_self ..
      exact hdict
    · rw [hreg]
      exact (Registry.pathOf_load _).trans (if_pos rfl)

/-- A chart that only has a start node. -/
def emptyChart : YamlChart := { path := "a", nodes := [{ uid := "0" }] }

/-- The chart with one more node. -/
def grownChart : YamlChart := { path := "a", nodes := [{ uid := "0" }, { uid := "1" }] }

/-- The data the loader makes of a document. -/
def yamlData (doc : YamlChart) : ChartData :=
  ((fromYaml doc).map (·.2)).getD { name := "", nodes := [] }

/-- The chart is imported and attached, and imported again. -/
def reloadActs : List Act :=
  [.op (.importChart (yamlData emptyChart)), .op (.register 0), .op (.attachChart 1 "a"),
    .op (.importChart (yamlData grownChart))]

theorem imports_of_reloadActs (s : State) (a : Act) (ha : a = .tau ∨ a ∈ reloadActs) :
    Imports s a := by
  rintro data rfl
  simp only [reloadActs, List.mem_cons, List.not_mem_nil, reduceCtorEq, Act.op.injEq,
    Op.importChart.injEq, or_false, false_or] at ha
  rcases ha with rfl | rfl
  · exact .inl ⟨emptyChart, rfl⟩
  · exact .inl ⟨grownChart, rfl⟩

/-- The attached chart keeps the older of the two versions. -/
theorem versioned_reload : ∃ s, Run.Steps (step {}) Imports init s ∧
    (s.heap.charts 0).map (·.data) = some 0 ∧ s.heap.chartDataDict "a" = some 1 ∧
    ∃ ds, s.heap.registry.Chain "a" ds := by
  obtain ⟨s, hs, hc, hd⟩ := exists_of_guarded {} (fun _ a => a = .tau ∨ a ∈ reloadActs) reloadActs
    (fun s => (s.heap.charts 0).map (·.data) = some 0 ∧ s.heap.chartDataDict "a" = some 1)
    (by decide +kernel)
  have hs' := hs.mono imports_of_reloadActs
  exact ⟨s, hs', hc, hd, (versioned hs').1 "a"⟩

end State

end Asyncflow
