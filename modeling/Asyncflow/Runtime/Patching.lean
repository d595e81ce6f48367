import Asyncflow.Runtime.Versions

/-!
# Live charts and the successors in their data

A chart makes its nodes once, as many as its data have at that time, and looks the ids
of successors up in this list. The loaders only store ids of nodes of the data, so a chart
made of them is in step with its data. A patch in place may add nodes to data that a chart
is using, and connect nodes of the chart to them: then the chart is out of step.

`Asyncflow.NodeData.Below` speaks about the successors of the nodes at some places of a node
list. The loaders and the patch are treated first, then the moves of the registry
(`Asyncflow.Registry.Fits`); `Asyncflow.State.fits` says that the charts stay in step when
no patch connects a node of a live chart to a node that the chart does not have.
-/

namespace Asyncflow

/-! ### Node lists -/

namespace NodeData

/-- Both lists of successors. -/
def successors (d : NodeData) : List ℕ := d.success ++ d.failure

/-- The successors of the nodes at the places `P` are below a bound. -/
def Below (P : ℕ → Prop) (m : ℕ) (nodes : List NodeData) : Prop :=
  ∀ i d, P i → nodes[i]? = some d → ∀ j ∈ d.successors, j < m

variable {P Q : ℕ → Prop} {m m' : ℕ} {nodes : List NodeData} {i j : ℕ} {d : NodeData}
  {ids : IdMap}

theorem Below.imp (h : Below P m nodes) (hP : ∀ i, Q i → P i) (hm : m ≤ m') : Below Q m' nodes :=
  fun i d hi hd j hj => Nat.lt_of_lt_of_le (h i d (hP i hi) hd j hj) hm

/-- Nodes without successors may be appended. -/
theorem Below.append (h : Below P m nodes) {more : List NodeData}
    (hmore : ∀ d ∈ more, d.successors = []) : Below P m (nodes ++ more) := by
  intro i d hi hd j hj
  rw [List.getElem?_append] at hd
  split at hd
  · exact h i d hi hd j hj
  · rw [hmore d (List.mem_of_getElem? hd)] at hj
    cases hj

/-- A node that loses successors. -/
theorem Below.modify (h : Below P m nodes) (i : ℕ) {f : NodeData → NodeData}
    (hf : ∀ d, P i → nodes[i]? = some d → ∀ j ∈ (f d).successors, j < m) :
    Below P m (nodes.modify i f) := by
  intro i' d hi' hd
  rw [List.getElem?_modify] at hd
  obtain ⟨d₀, hd₀, heq⟩ := Option.map_eq_some_iff.mp hd
  split at heq
  · subst i'
    subst heq
    exact hf d₀ hi' hd₀
  · obtain rfl : d₀ = d := heq
    exact h i' d₀ hi' hd₀

/-- The types of connectors that `AddSubsequence` knows. -/
def knownType (type : ℤ) : Prop := type = 0 ∨ type = 1 ∨ type = 2

theorem mem_successors_addSubsequence {id : ℕ} {type : ℤ}
    (hj : j ∈ (d.addSubsequence id type).successors) :
    j ∈ d.successors ∨ j = id ∧ knownType type := by
  unfold addSubsequence at hj
  unfold knownType
  simp only [successors] at hj ⊢
  grind

/-- Reading the code of a node leaves its successors alone. -/
theorem successors_initCode (ids : IdMap) (code : Option YamlCode) (d : NodeData) :
    (initCode ids code d).2.successors = d.successors ∧ (initCode ids code d).2.uid = d.uid := by
  unfold initCode
  split
  · exact ⟨rfl, rfl⟩
  · exact ⟨rfl, rfl⟩
  · exact ⟨rfl, rfl⟩
  · exact ⟨rfl, rfl⟩
  · split
    · exact ⟨rfl, rfl⟩
    · exact ⟨rfl, rfl⟩
  · exact ⟨rfl, rfl⟩

theorem successors_initFromYaml (ids : IdMap) (id : ℕ) (doc : YamlNode) (d : NodeData) :
    (initFromYaml ids id doc d).2.successors = d.successors ∧
      (initFromYaml ids id doc d).2.uid = doc.uid := by
  unfold initFromYaml
  dsimp only
  split
  · exact ⟨rfl, rfl⟩
  · exact successors_initCode ids doc.code _

end NodeData

open NodeData

variable {P : ℕ → Prop} {m : ℕ} {nodes nodes' : List NodeData} {ids : IdMap}

/-! ### Connectors -/

/-- **Connectors** keep the bound when each of them that starts at a place in `P` ends below
it. -/
theorem below_connectAll {ks : List YamlConnector} (h : connectAll ids ks nodes = some nodes')
    (hk : ∀ k ∈ ks, ∀ type i j, k.type = some type → knownType type → ids k.start = some i →
      ids k.target = some j → P i → j < m)
    (hn : Below P m nodes) : Below P m nodes' := by
  induction ks generalizing nodes with
  | nil =>
    obtain rfl := Option.some.inj h
    exact hn
  | cons k ks ih =>
    obtain ⟨nodes₁, h₁, h₂⟩ := Option.bind_eq_some_iff.mp h
    refine ih h₂ (fun k' hk' => hk k' (List.mem_cons_of_mem k hk')) ?_
    dsimp only [connect] at h₁
    split at h₁
    · rename_i type i j htype hi hj
      obtain rfl := Option.some.inj h₁
      refine hn.modify i fun d hPi hd j' hj' => ?_
      rcases mem_successors_addSubsequence hj' with hold | ⟨rfl, hknown⟩
      · exact hn i d hPi hd j' hold
      · exact hk k List.mem_cons_self type i _ htype hknown hi hj hPi
    · cases h₁

theorem length_connectAll {ks : List YamlConnector} (h : connectAll ids ks nodes = some nodes') :
    nodes'.length = nodes.length := by
  induction ks generalizing nodes with
  | nil =>
    obtain rfl := Option.some.inj h
    rfl
  | cons k ks ih =>
    obtain ⟨nodes₁, h₁, h₂⟩ := Option.bind_eq_some_iff.mp h
    rw [ih h₂]
    dsimp only [connect] at h₁
    split at h₁
    · obtain rfl := Option.some.inj h₁
      exact List.length_modify ..
    · cases h₁

/-! ### The loaders -/

/-- The successors of every node are ids of nodes. -/
def ChartData.Closed (data : ChartData) : Prop :=
  Below (fun _ => True) data.nodes.length data.nodes

theorem initNodes_spec (ids : IdMap) (id : ℕ) (docs : List YamlNode) :
    (initNodes ids id docs).2.length = docs.length ∧
      ∀ d ∈ (initNodes ids id docs).2, d.successors = [] := by
  induction docs generalizing ids id with
  | nil => exact ⟨rfl, nofun⟩
  | cons doc docs ih =>
    obtain ⟨hl, hs⟩ := ih (Function.update ids doc.uid (some id)) (id + 1)
    have hd := (successors_initFromYaml (Function.update ids doc.uid (some id)) id doc
      { uid := doc.uid }).1
    unfold initNodes
    dsimp only
    split
    · refine ⟨congrArg (· + 1) hl, fun d hmem => ?_⟩
      rcases List.mem_cons.mp hmem with rfl | hmem
      · exact hd
      · exact hs d hmem
    · refine ⟨by simp, fun d hmem => ?_⟩
      rcases List.mem_cons.mp hmem with rfl | hmem
      · exact hd
      · obtain ⟨doc', -, rfl⟩ := List.mem_map.mp hmem
        rfl

/-- The map of the loader only has ids of nodes. -/
theorem lt_of_yamlIds {docs : List YamlNode} {uid : String} {j : ℕ}
    (h : yamlIds docs uid = some j) : j < docs.length := by
  unfold yamlIds at h
  obtain ⟨p, hp, rfl⟩ := Option.map_eq_some_iff.mp h
  have hmem := List.mem_of_find?_eq_some hp
  rw [List.mem_reverse] at hmem
  have hlt := (List.mem_zipIdx hmem).2.1
  omega

theorem closed_of_fromYaml {doc : YamlChart} {data : ChartData}
    (h : fromYaml doc = some (true, data)) : data.Closed := by
  obtain ⟨hl, hs⟩ := initNodes_spec (yamlIds doc.nodes) 0 doc.nodes
  unfold fromYaml at h
  dsimp only at h
  split at h
  · obtain ⟨nodes, hc, heq⟩ := Option.map_eq_some_iff.mp h
    cases heq
    have hlen : nodes.length = doc.nodes.length := (length_connectAll hc).trans hl
    refine below_connectAll hc (fun k _ type i j _ _ _ hj _ => ?_) fun i d _ hd j hj => ?_
    · rw [hlen]
      exact lt_of_yamlIds hj
    · rw [hs d (List.mem_of_getElem? hd)] at hj
      cases hj
  · cases h

/-- The map of the JSON loader, with the ids it has added for the start node. -/
theorem lt_of_startIds {uids : List String} {m : ℕ} (hm : 0 < m)
    (hids : ∀ uid j, ids uid = some j → j < m) :
    (∀ uid j, (startIds ids uids).1 uid = some j → j < m) ∧
      ∀ j ∈ (startIds ids uids).2, j < m := by
  induction uids generalizing ids with
  | nil => exact ⟨hids, nofun⟩
  | cons uid uids ih =>
    have hi : (ids uid).getD 0 < m := by
      cases hu : ids uid with
      | none => exact hm
      | some j => exact hids uid j hu
    have hup : ∀ u j, Function.update ids uid (some ((ids uid).getD 0)) u = some j → j < m := by
      intro u j hj
      rw [Function.update_apply] at hj
      split at hj
      · obtain rfl := Option.some.inj hj
        exact hi
      · exact hids u j hj
    obtain ⟨h1, h2⟩ := ih hup
    refine ⟨h1, fun j hj => ?_⟩
    rcases List.mem_cons.mp hj with rfl | hj
    · exact hi
    · exact h2 j hj

theorem lt_of_jsonIds {docs : List JsonNode} {uid : String} {j : ℕ}
    (h : jsonIds docs uid = some j) : j < docs.length + 1 := by
  unfold jsonIds at h
  obtain ⟨p, hp, rfl⟩ := Option.map_eq_some_iff.mp h
  have hmem := List.mem_of_find?_eq_some hp
  rw [List.mem_reverse] at hmem
  have hlt := (List.mem_zipIdx hmem).2.1
  omega

theorem successors_initFromJson (ids : IdMap) (doc : JsonNode) :
    (initFromJson ids doc).successors = doc.success.filterMap ids ++ doc.fail.filterMap ids := by
  unfold initFromJson
  dsimp only
  split <;> rfl

theorem closed_of_fromJson {doc : JsonChart} {data : ChartData} (h : fromJson doc = some data) :
    data.Closed := by
  unfold fromJson at h
  split at h
  · rename_i path nodes start _ _ _
    cases h
    have hlt := @lt_of_startIds (jsonIds nodes) start _ (Nat.succ_pos nodes.length)
      fun _ _ => lt_of_jsonIds
    intro i d _ hd j hj
    rw [List.length_cons, List.length_map]
    rcases List.mem_cons.mp (List.mem_of_getElem? hd) with rfl | hmem
    · simp only [successors, List.mem_append, or_self] at hj
      exact hlt.2 j hj
    · obtain ⟨doc', -, rfl⟩ := List.mem_map.mp hmem
      rw [successors_initFromJson, List.mem_append, List.mem_filterMap, List.mem_filterMap] at hj
      rcases hj with ⟨uid, -, hu⟩ | ⟨uid, -, hu⟩
      · exact hlt.1 uid j hu
      · exact hlt.1 uid j hu
  · cases h

/-- **The loaders store ids of nodes only.** -/
theorem closed_of_loaded {data : ChartData} (h : Loaded data) : data.Closed := by
  rcases h with ⟨doc, h⟩ | ⟨doc, h⟩
  · exact closed_of_fromYaml h
  · exact closed_of_fromJson h

/-! ### The patch -/

section Patch

variable {docs : List YamlNode} {uid : String} {r : Bool × List NodeData} {i : ℕ}

/-- An id only depends on the uids of the nodes. -/
theorem indexOf_congr (h : nodes'.map (·.uid) = nodes.map (·.uid)) :
    indexOf nodes' = indexOf nodes := by
  funext u
  have hmap : ∀ ns : List NodeData, indexOf ns u = (ns.map (·.uid)).findIdx? (· = u) := by
    intro ns
    rw [List.findIdx?_map]
    rfl
  rw [hmap, hmap, h]

theorem lt_of_indexOf (h : indexOf nodes uid = some i) : i < nodes.length := by
  obtain ⟨hlt, -⟩ := List.findIdx?_eq_some_iff_getElem.mp h
  exact hlt

/-- The nodes that are there keep their ids when others are appended. -/
theorem indexOf_append (more : List NodeData) (h : indexOf nodes uid = some i) :
    indexOf (nodes ++ more) uid = some i := by
  unfold indexOf at h ⊢
  rw [List.findIdx?_append, h]
  rfl

/-- An id below the length is that of a node that was there. -/
theorem indexOf_of_append {more : List NodeData} (h : indexOf (nodes ++ more) uid = some i)
    (hi : i < nodes.length) : indexOf nodes uid = some i := by
  unfold indexOf at h ⊢
  rw [List.findIdx?_append] at h
  cases hx : nodes.findIdx? (·.uid = uid) with
  | some j =>
    rw [hx] at h
    exact h
  | none =>
    rw [hx] at h
    obtain ⟨j, -, rfl⟩ := Option.map_eq_some_iff.mp h
    omega

/-- The nodes that `PatchFromYaml` appends have no successors. -/
theorem appendNodes_spec (docs : List YamlNode) (nodes : List NodeData) :
    ∃ more, appendNodes docs nodes = nodes ++ more ∧ ∀ d ∈ more, d.successors = [] := by
  induction docs generalizing nodes with
  | nil => exact ⟨[], (List.append_nil nodes).symm, nofun⟩
  | cons doc docs ih =>
    rw [appendNodes, List.foldl_cons, ← appendNodes]
    split
    · exact ih nodes
    · obtain ⟨more, heq, hs⟩ := ih (nodes ++ [{ uid := doc.uid }])
      refine ⟨{ uid := doc.uid } :: more, by rw [heq, List.append_assoc, List.singleton_append], ?_⟩
      intro d hd
      rcases List.mem_cons.mp hd with rfl | hd
      · rfl
      · exact hs d hd

/-- A node that is read again has its uid, and no successors for the time being. -/
theorem patchNode_spec (r : Bool × List NodeData) (doc : YamlNode) :
    (patchNode r doc).2.map (·.uid) = r.2.map (·.uid) ∧
      (Below P m r.2 → Below P m (patchNode r doc).2) := by
  unfold patchNode
  split
  · exact ⟨rfl, id⟩
  · rename_i i hi
    dsimp only
    refine ⟨?_, fun hb => hb.modify i fun d _ _ j hj => ?_⟩
    · obtain ⟨hlt, huid, -⟩ := List.findIdx?_eq_some_iff_getElem.mp hi
      refine List.ext_getElem? fun i' => ?_
      rw [List.getElem?_map, List.getElem?_map, List.getElem?_modify,
        Option.map_eq_map, Option.map_map]
      by_cases heq : i = i'
      · subst i'
        rw [List.getElem?_eq_getElem hlt, Option.map_some, Option.map_some]
        have hu : r.2[i].uid = doc.uid := by simpa using huid
        simp only [Function.comp_apply, ↓reduceIte, (successors_initFromYaml ..).2, hu]
      · simp only [heq, ↓reduceIte]
        rfl
    · rw [(successors_initFromYaml ..).1] at hj
      cases hj

theorem patchNodes_spec (docs : List YamlNode) (r : Bool × List NodeData) :
    (docs.foldl patchNode r).2.map (·.uid) = r.2.map (·.uid) ∧
      (Below P m r.2 → Below P m (docs.foldl patchNode r).2) := by
  induction docs generalizing r with
  | nil => exact ⟨rfl, id⟩
  | cons doc docs ih =>
    obtain ⟨hu, hb⟩ := ih (patchNode r doc)
    obtain ⟨hu', hb'⟩ := patchNode_spec (P := P) (m := m) r doc
    rw [List.foldl_cons]
    exact ⟨hu.trans hu', fun h => hb (hb' h)⟩

end Patch

/-- The connectors of a patch lead from the first `k` nodes only to the first `k` nodes. -/
def YamlChart.Within (doc : YamlChart) (nodes : List NodeData) (k : ℕ) : Prop :=
  ∀ x ∈ doc.connectors, ∀ type i, x.type = some type → knownType type →
    indexOf nodes x.start = some i → i < k → ∃ j < k, indexOf nodes x.target = some j

/-- **A patch** keeps data closed, makes them no smaller, and keeps the successors of the first
nodes below their number if its connectors do. -/
theorem patchFromYaml_spec {doc : YamlChart} {data data' : ChartData} {b : Bool}
    (h : data.patchFromYaml doc = some (b, data')) :
    data.nodes.length ≤ data'.nodes.length ∧ (data.Closed → data'.Closed) ∧
      ∀ k ≤ data.nodes.length, doc.Within data.nodes k → Below (· < k) k data.nodes →
        Below (· < k) k data'.nodes := by
  unfold ChartData.patchFromYaml at h
  dsimp only at h
  obtain ⟨nodes, hc, heq⟩ := Option.map_eq_some_iff.mp h
  cases heq
  obtain ⟨more, happ, hmore⟩ := appendNodes_spec doc.nodes data.nodes
  have hspec := fun P m => patchNodes_spec (P := P) (m := m) doc.nodes
    (true, appendNodes doc.nodes data.nodes)
  generalize doc.nodes.foldl patchNode (true, appendNodes doc.nodes data.nodes) = r at hc hspec
  dsimp only at hspec
  rw [happ] at hspec
  have hids : indexOf r.2 = indexOf (data.nodes ++ more) :=
    indexOf_congr (hspec (fun _ => True) 0).1
  have hlen : nodes.length = data.nodes.length + more.length := by
    rw [length_connectAll hc, ← List.length_append,
      ← List.length_map (f := fun d : NodeData => d.uid), (hspec (fun _ => True) 0).1,
      List.length_map]
  rw [hids] at hc
  refine ⟨by dsimp only; omega, fun hcl => ?_, fun k hk hw hb => ?_⟩
  · refine below_connectAll hc (fun x _ type i j _ _ _ hj _ => ?_) ?_
    · dsimp only
      rw [hlen, ← List.length_append]
      exact lt_of_indexOf hj
    · refine (hspec _ _).2 (Below.append (hcl.imp (fun _ => id) ?_) hmore)
      dsimp only
      omega
  · refine below_connectAll hc (fun x hx type i j htype hknown hi hj hik => ?_) ?_
    · have hi' := indexOf_of_append hi (Nat.lt_of_lt_of_le hik hk)
      obtain ⟨j', hj', hjt⟩ := hw x hx type i htype hknown hi' hik
      obtain rfl := Option.some.inj ((indexOf_append more hjt).symm.trans hj)
      exact hj'
    · exact (hspec _ _).2 (hb.append hmore)

/-! ### The registry -/

namespace Registry

variable {r r' : Registry} {may : Permit → Prop} {c : ChartId} {d : DataId} {k : ℕ}

/-- The charts are in step with their data. -/
structure Fits (r : Registry) : Prop where
  closed : ∀ d x, r.data d = some x → x.Closed
  within : ∀ c d k x, r.charts c = some (d, k) → r.data d = some x →
    k ≤ x.nodes.length ∧ Below (· < k) k x.nodes

theorem fits_init : ({} : Heap).registry.Fits where
  closed _ _ hx := nomatch hx
  within _ _ _ _ hc := nomatch hc

theorem Fits.load (hf : r.Fits) (hv : r.Versioned) {data : ChartData} (hl : Loaded data) :
    (r.load data).Fits where
  closed d x hx := by
    rw [data_load] at hx
    split at hx
    · obtain rfl := Option.some.inj hx
      have hc : data.Closed := closed_of_loaded hl
      exact hc
    · exact hf.closed d x hx
  within c d k x hc hx := by
    rw [data_load, if_neg] at hx
    · exact hf.within c d k x hc hx
    · rintro rfl
      have hlive := hv.live c _ hc
      rw [hv.fresh] at hlive
      cases hlive

theorem Fits.patch (hf : r.Fits) {doc : YamlChart} {x data : ChartData} {b : Bool}
    (hx : r.data d = some x) (hr : x.patchFromYaml doc = some (b, data))
    (hspare : ∀ c k, r.charts c = some (d, k) → doc.Within x.nodes k) : (r.patch d data).Fits := by
  obtain ⟨hlen, hclosed, hbelow⟩ := patchFromYaml_spec hr
  constructor
  · intro d' x' hx'
    rw [data_patch] at hx'
    split at hx'
    · rw [hx] at hx'
      obtain rfl := Option.some.inj hx'
      exact hclosed (hf.closed d x hx)
    · exact hf.closed d' x' hx'
  · intro c d' k x' hc hx'
    rw [data_patch] at hx'
    split at hx'
    · subst d'
      rw [hx] at hx'
      obtain rfl := Option.some.inj hx'
      obtain ⟨hk, hb⟩ := hf.within c d k x hc hx
      exact ⟨Nat.le_trans hk hlen, hbelow k hk (hspare c k hc) hb⟩
    · exact hf.within c d' k x' hc hx'

theorem Fits.create (hf : r.Fits) (d : DataId) : (r.create d).Fits where
  closed := hf.closed
  within c d' k x hc hx := by
    simp only [Registry.create, Function.update_apply] at hc
    split at hc
    · have hx' : r.data d' = some x := hx
      obtain ⟨rfl, rfl⟩ := Prod.mk.inj (Option.some.inj hc)
      rw [hx', Option.map_some, Option.getD_some]
      exact ⟨Nat.le_refl _, (hf.closed d x hx').imp (fun _ _ => trivial) (Nat.le_refl _)⟩
    · exact hf.within c d' k x hc hx

theorem Fits.forget (hf : r.Fits) (c : ChartId) : (r.forget c).Fits where
  closed := hf.closed
  within c' d k x hc hx := by
    simp only [Registry.forget, Function.update_apply] at hc
    split at hc
    · cases hc
    · exact hf.within c' d k x hc hx

/-- **The moves other than a patch** keep the charts in step. -/
theorem fits_of_move (hload : ∀ data, may (.load data) → Loaded data)
    (hpatch : ∀ doc, ¬may (.patch doc)) (hv : r.Versioned) (hf : r.Fits) (hm : Move may r r') :
    r'.Fits := by
  cases hm with
  | load data hp => exact hf.load hv (hload data hp)
  | patch doc hp => exact absurd hp (hpatch doc)
  | create d hp => exact hf.create d
  | forget c => exact hf.forget c

end Registry

/-! ### Runs -/

namespace State

variable {cfg : Config} {s t : State} {a : Act}

/-- The patch leads from no node of a live chart to a node that the chart does not have. -/
def Spares (s : State) (doc : YamlChart) : Prop :=
  ∀ c x data, s.heap.charts c = some x → s.heap.chartDataDict doc.path = some x.data →
    s.heap.chartData x.data = some data → doc.Within data.nodes x.nodeCount

/-- What an import or a patch in place is like in a run that keeps the charts in step. -/
def InPlace (s : State) (a : Act) : Prop :=
  Imports s a ∧ ∀ doc, a = .op (.patchChart doc) → s.Spares doc

theorem loaded_of_permits (hk : Imports s a) (data : ChartData) (hp : s.Permits a (.load data)) :
    Loaded data := by
  rcases hp with rfl | ⟨doc, rfl, hd⟩
  · exact hk data rfl
  · exact .inl ⟨doc, hd⟩

/-- A patch in place that spares the live charts keeps them in step. -/
theorem fits_of_patchChart {doc : YamlChart} (hv : s.heap.registry.Versioned)
    (hf : s.heap.registry.Fits) (hspare : s.Spares doc)
    (h : s.step cfg (.op (.patchChart doc)) = some t) : t.heap.registry.Fits := by
  have hsound := sound_of_step h
  cases (trans_of_step h).1 with
  | op hm ho =>
    cases ho
    change (s.heap.patchChart doc).registry.Fits
    change (s.mapHeap (·.patchChart doc)).sound = true at hsound
    unfold Heap.patchChart at hsound ⊢
    split
    · rename_i d hd
      split
      · rename_i r hr
        obtain ⟨x, hx, hr⟩ := Option.bind_eq_some_iff.mp hr
        refine Registry.Fits.patch (b := r.1) hf hx hr fun c k hc => ?_
        obtain ⟨y, hy, hyk⟩ := Option.map_eq_some_iff.mp hc
        obtain ⟨rfl, rfl⟩ := Prod.mk.inj hyk
        exact hspare c y x hy hd hx
      · exact hf
    · split
      · rename_i data hl
        exact hf.load hv (.inl ⟨doc, hl⟩)
      · exact hf
      · exact hf

theorem fits_of_step (hw : s.Wf) (hv : s.heap.registry.Versioned) (hf : s.heap.registry.Fits)
    (hk : InPlace s a) (h : s.step cfg a = some t) : t.heap.registry.Fits := by
  by_cases hdoc : ∃ doc, a = .op (.patchChart doc)
  · obtain ⟨doc, rfl⟩ := hdoc
    exact fits_of_patchChart hv hf (hk.2 doc rfl) h
  · refine (registry_of_step (P := fun r => (r.Versioned ∧ s.heap.registry.Extends r) ∧ r.Fits) hw
      h ?_ ⟨⟨hv, .refl _⟩, hf⟩).2
    rintro r r' hm ⟨hve, hf'⟩
    refine ⟨versioned_of_permits hv hk.1 hve hm, ?_⟩
    exact Registry.fits_of_move (loaded_of_permits hk.1) (fun doc hp => hdoc ⟨doc, hp⟩) hve.1 hf' hm

theorem fits_of_steps (h : Run.Steps (step cfg) InPlace init s) : s.heap.registry.Fits := by
  refine (h.invariant (I := fun s => (s.Wf ∧ s.heap.registry.Versioned) ∧ s.heap.registry.Fits)
    ⟨⟨wf_init, Registry.versioned_init⟩, Registry.fits_init⟩ ?_).2
  rintro s a t ⟨⟨hw, hv⟩, hf⟩ hk hs
  exact ⟨⟨wf_of_step hw hs, (versioned_of_step hw hv hk.1 hs).1⟩, fits_of_step hw hv hf hk hs⟩

/-- The search of `StopFlow` stays below a bound that the successors keep. -/
theorem lt_of_reachIds {succs : ℕ → List ℕ} {m : ℕ} (hs : ∀ i < m, ∀ j ∈ succs i, j < m)
    {fuel : ℕ} {queue found : List ℕ} (hq : ∀ i ∈ queue, i < m) (hf : ∀ i ∈ found, i < m) :
    ∀ j ∈ Heap.reachIds succs fuel queue found, j < m := by
  induction fuel generalizing queue found with
  | zero => exact hf
  | succ fuel ih =>
    cases queue with
    | nil => exact hf
    | cons x queue =>
      have hx : x < m := hq x List.mem_cons_self
      have hq' : ∀ i ∈ queue, i < m := fun i hi => hq i (List.mem_cons_of_mem x hi)
      unfold Heap.reachIds
      split
      · exact ih hq' hf
      · refine ih (fun i hi => ?_) fun i hi => ?_
        · rcases List.mem_append.mp hi with hi | hi
          · exact hq' i hi
          · exact hs x hx i hi
        · rcases List.mem_cons.mp hi with rfl | hi
          · exact hx
          · exact hf i hi

theorem lt_of_stopIds {h : Heap} {c : ChartId}
    (hs : ∀ i < h.nodesCount c, ∀ j ∈ h.bothSuccessors c i, j < h.nodesCount c) (args : List ℤ) :
    ∀ j ∈ h.stopIds c args, j < h.nodesCount c := by
  suffices ∀ found : List ℕ, (∀ j ∈ found, j < h.nodesCount c) →
      ∀ j ∈ args.foldl (fun found (id : ℤ) =>
        if 0 ≤ id ∧ id < h.nodesCount c then
          Heap.reachIds (h.bothSuccessors c) (h.reachFuel c) [id.toNat] found
        else found) found, j < h.nodesCount c from this [] nofun
  induction args with
  | nil => exact fun _ hf => hf
  | cons id args ih =>
    intro found hf
    rw [List.foldl_cons]
    refine ih _ ?_
    split
    · rename_i hid
      refine lt_of_reachIds hs (fun i hi => ?_) hf
      rw [List.mem_singleton] at hi
      omega
    · exact hf

/-- **Live charts stay in step with their data** in every run whose imports register what the
loaders made and whose patches in place spare the live charts: every successor stored for a
node of a live chart is the id of one of its nodes, and so is every id that `StopFlow`
collects. -/
theorem fits (h : Run.Steps (step cfg) InPlace init s) (c : ChartId) :
    (∀ i < s.heap.nodesCount c, ∀ b, ∀ j ∈ (s.heap.nodeData ⟨c, i⟩).subsequenceIds b,
      j < s.heap.nodesCount c) ∧
    ∀ args, ∀ j ∈ s.heap.stopIds c args, j < s.heap.nodesCount c := by
  have hf := fits_of_steps h
  have hsucc : ∀ i < s.heap.nodesCount c, ∀ j ∈ (s.heap.nodeData ⟨c, i⟩).successors,
      j < s.heap.nodesCount c := by
    intro i hi j hj
    unfold Heap.nodesCount at hi ⊢
    unfold Heap.nodeData Heap.dataOf at hj
    dsimp only at hj
    cases hx : s.heap.charts c with
    | none => simp [hx] at hi
    | some x =>
      rw [hx] at hi hj
      rw [Option.map_some, Option.getD_some] at hi ⊢
      rw [Option.bind_some] at hj
      cases hd : s.heap.chartData x.data with
      | none => simp [hd, NodeData.successors] at hj
      | some data =>
        rw [hd, Option.bind_some] at hj
        have hc : s.heap.registry.charts c = some (x.data, x.nodeCount) := by
          change (s.heap.charts c).map _ = _
          rw [hx]
          rfl
        obtain ⟨-, hb⟩ := hf.within c x.data x.nodeCount data hc hd
        cases hn : data.nodes[i]? with
        | none => simp [hn, NodeData.successors] at hj
        | some y =>
          rw [hn, Option.getD_some] at hj
          exact hb i y hi hn j hj
  constructor
  · intro i hi b j hj
    refine hsucc i hi j (List.mem_append.mpr ?_)
    cases b with
    | true => exact .inl hj
    | false => exact .inr hj
  · refine lt_of_stopIds fun i hi j hj => ?_
    exact hsucc i hi j hj

/-- A chart of a start node and a function. -/
def smallChart : YamlChart where
  path := "a"
  nodes := [{ uid := "0" }, { uid := "1", code := some (.func false) }]
  connectors := [{ start := "0", target := "1", type := some 2 }]

/-- The function of the chart is read again. -/
def sparingPatch : YamlChart where
  path := "a"
  nodes := [{ uid := "1", code := some (.func true) }]
  connectors := [{ start := "1", target := "1", type := some 1 }]

/-- A new node is put behind the function of the chart. -/
def growingPatch : YamlChart where
  path := "a"
  nodes := [{ uid := "1", code := some (.func false) }, { uid := "2", code := some (.func false) }]
  connectors := [{ start := "1", target := "2", type := some 1 }]

/-- The chart is attached, started and patched in place. -/
def patchActs (doc : YamlChart) : List Act :=
  [.op (.importChart (yamlData smallChart)), .op (.register 0), .op (.attachChart 1 "a"),
    .op (.startChart 0), .op (.patchChart doc)]

/-- The actions of the two runs import the small chart only. -/
theorem imports_of_patchActs {doc : YamlChart} {bs : List Act}
    (hbs : ∀ data, .op (.importChart data) ∉ bs) (s : State) (a : Act)
    (ha : a = .tau ∨ a ∈ patchActs doc ++ bs) : Imports s a := by
  rintro data rfl
  rcases ha with ha | ha
  · cases ha
  · rcases List.mem_append.mp ha with ha | ha
    · simp only [patchActs, List.mem_cons, List.not_mem_nil, reduceCtorEq, Act.op.injEq,
        Op.importChart.injEq, or_false] at ha
      subst ha
      exact .inl ⟨smallChart, rfl⟩
    · exact absurd ha (hbs data)

/-- A patch whose only connector goes back to its node spares every chart. -/
theorem spares_sparingPatch (s : State) : s.Spares sparingPatch := by
  intro c x data _ _ _ k hk type i _ _ hi hlt
  simp only [sparingPatch, List.mem_singleton] at hk
  subst hk
  exact ⟨i, hlt, hi⟩

/-- The chart is in step after the patch. -/
theorem fits_sparing : ∃ s, Run.Steps (step {}) InPlace init s ∧ s.heap.nodesCount 0 = 2 ∧
    (s.heap.nodeData ⟨0, 1⟩).subsequenceIds true = [1] ∧
    ∀ j ∈ (s.heap.nodeData ⟨0, 1⟩).subsequenceIds true, j < s.heap.nodesCount 0 := by
  obtain ⟨s, hs, hn, hsucc⟩ := exists_of_guarded {}
    (fun _ a => a = .tau ∨ a ∈ patchActs sparingPatch ++ []) (patchActs sparingPatch)
    (fun s => s.heap.nodesCount 0 = 2 ∧ (s.heap.nodeData ⟨0, 1⟩).subsequenceIds true = [1])
    (by decide +kernel)
  have hs' : Run.Steps (step {}) InPlace init s := by
    refine hs.mono fun u a ha => ⟨imports_of_patchActs (by simp) u a ha, ?_⟩
    rintro doc rfl
    have hdoc : doc = sparingPatch := by simpa [patchActs] using ha
    exact hdoc ▸ spares_sparingPatch u
  exact ⟨s, hs', hn, hsucc, (fits hs' 0).1 1 (by omega) true⟩

/-- **A patch in place breaks a live chart**: the chart has two nodes, and the patch makes
the third the successor of the second. When that node has run, `AddSubsequenceNodes` indexes
outside the node list. -/
theorem not_fits_growing : ∃ s, Run.Steps (step {}) Imports init s ∧ 1 < s.heap.nodesCount 0 ∧
    (∃ j ∈ (s.heap.nodeData ⟨0, 1⟩).subsequenceIds true, ¬j < s.heap.nodesCount 0) ∧
    ((s.next {} .tau).any fun u => u.heap.ub) = true := by
  obtain ⟨s, hs, hn, hj, hub⟩ := exists_of_guarded {}
    (fun _ a => a = .tau ∨ a ∈ patchActs growingPatch ++ [.op .step, .timersDone, .ret .rTrue])
    (patchActs growingPatch ++ [.op .step, .timersDone, .ret .rTrue])
    (fun s => 1 < s.heap.nodesCount 0 ∧
      (∃ j ∈ (s.heap.nodeData ⟨0, 1⟩).subsequenceIds true, ¬j < s.heap.nodesCount 0) ∧
      ((s.next {} .tau).any fun u => u.heap.ub) = true) (by decide +kernel)
  exact ⟨s, hs.mono (imports_of_patchActs (by simp)), hn, hj, hub⟩

end State

end Asyncflow
