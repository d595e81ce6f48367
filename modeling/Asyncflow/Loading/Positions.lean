import Asyncflow.Lib.Run
import Asyncflow.Loading.Keeping

/-!
# The ids of the nodes are their positions

Chart data comes from one of the two loaders, and is changed by patches. All of them number new
nodes with their positions, so that in every run of imports and patches the ids of every
registered chart are the positions of its nodes (`Asyncflow.Loading.numbered_of_reaches`).
The connectors and the patches rely on it: they look for an id and use it as a position.
-/

namespace Asyncflow

namespace Loading

open Program

/-- The ids of the nodes of a state are their positions. -/
def Numbered (s : Loader) : Prop := s.chart.Positioned

/-! ### Writes -/

section Writes

variable {s : Loader} {i : ℕ} {f : NodeData → NodeData}

theorem Numbered.setNode (h : Numbered s) (hf : ∀ d, (f d).id = d.id) :
    Numbered (s.setNode i f) := by
  intro j d hd
  change (s.chart.nodes.modify i f)[j]? = some d at hd
  rw [List.getElem?_modify] at hd
  obtain ⟨d', hd', rfl⟩ := Option.map_eq_some_iff.mp hd
  split_ifs
  · exact (hf d').trans (h j d' hd')
  · exact h j d' hd'

/-- A new node has the number of nodes as id. -/
theorem positioned_append {data : ChartData} {d : NodeData} (h : data.Positioned)
    (hd : d.id = data.nodes.length) :
    ({ data with nodes := data.nodes ++ [d] } : ChartData).Positioned := by
  intro j d' hd'
  change (data.nodes ++ [d])[j]? = some d' at hd'
  rcases Nat.lt_or_ge j data.nodes.length with hlt | hge
  · rw [List.getElem?_append_left hlt] at hd'
    exact h j d' hd'
  · rw [List.getElem?_append_right hge] at hd'
    obtain ⟨hj, rfl⟩ := List.getElem?_eq_some_iff.mp hd'
    rw [List.length_singleton] at hj
    have hzero : j - data.nodes.length = 0 := by omega
    simp only [hzero, List.getElem_cons_zero]
    omega

theorem ignoresWrites_numbered : IgnoresWrites Numbered where
  ids _ _ _ h := h
  nodes _ _ _ hf h := h.setNode hf

end Writes

/-! ### YAML -/

section Yaml

theorem keeps_readVariables (doc : YamlTree) : (readVariables doc).Keeps Numbered := by
  rw [readVariables]
  split_ifs
  swap
  · exact keeps_throw _
  refine Keeps.bind (keeps_modify fun s hs => ?_) fun _ =>
    (keeps_forM _ fun v => ?_).bind fun _ => keeps_modify fun s hs => ?_
  · exact hs
  · exact (YamlTree.keeps_get v _).bind fun _ => (YamlTree.keeps_get v _).bind fun _ =>
      (YamlTree.keeps_get? v _).bind fun _ => keeps_modify fun s hs => hs
  · exact hs

theorem keeps_addNode (doc : YamlTree) : (addNode doc).Keeps Numbered := by
  refine (YamlTree.keeps_get? doc _).bind fun uid => keeps_modify fun s hs => ?_
  cases uid with
  | none => exact positioned_append hs rfl
  | some uid => exact positioned_append hs rfl

/-- **A YAML chart** is numbered. -/
theorem keeps_fromYaml (doc : YamlTree) : (fromYaml doc).Keeps Numbered := by
  refine (YamlTree.keeps_findChild doc _).bind fun path => ?_
  cases path with
  | none => exact keeps_pure _
  | some path =>
    refine (YamlTree.keeps_val path).bind fun name =>
      Keeps.bind (keeps_modify fun s hs => ?_) fun _ => ?_
    · exact hs
    refine (YamlTree.keeps_findChild doc _).bind fun vars =>
      (keeps_option vars keeps_readVariables).bind fun _ => ?_
    refine (YamlTree.keeps_findChild doc _).bind fun nodes => Keeps.bind ?_ fun ok => ?_
    · cases nodes with
      | none => exact keeps_pure _
      | some ns => exact (keeps_forM _ keeps_addNode).bind fun _ =>
          keeps_initNodes ignoresWrites_numbered _ 0
    · split_ifs
      · exact (YamlTree.keeps_findChild doc _).bind fun ks =>
          (keeps_readConnectors ignoresWrites_numbered ks).bind fun _ => keeps_pure _
      · exact keeps_pure _

/-- **A patch** keeps the numbers, however it ends. -/
theorem keeps_patchFromYaml (doc : YamlTree) : (patchFromYaml doc).Keeps Numbered := by
  refine (YamlTree.keeps_findChild doc _).bind fun nodes => Keeps.bind ?_ fun ok =>
    (YamlTree.keeps_findChild doc _).bind fun ks =>
      (keeps_readConnectors ignoresWrites_numbered ks).bind fun _ =>
      keeps_pure _
  cases nodes with
  | none => exact keeps_pure _
  | some ns =>
    have happend : ∀ n, (appendNode n).Keeps Numbered := by
      intro n
      refine (YamlTree.keeps_get? n _).bind fun uid => keeps_option uid fun uid =>
        keeps_modify fun s hs => ?_
      split_ifs
      · exact hs
      · exact positioned_append hs rfl
    have hpatch : ∀ n, (patchNode n).Keeps Numbered := by
      intro n
      refine (YamlTree.keeps_get? n _).bind fun uid => ?_
      cases uid with
      | none => exact keeps_pure _
      | some uid =>
        refine Program.keeps_get.bind fun s => ?_
        cases s.chart.indexOf uid with
        | none => exact keeps_pure _
        | some i =>
          exact (keeps_modify fun s hs => hs.setNode fun _ => rfl).bind fun _ =>
            keeps_initFromYaml ignoresWrites_numbered i n
    refine (keeps_forM _ happend).bind fun _ => ?_
    generalize ns.children = docs
    induction docs with
    | nil => exact keeps_pure _
    | cons n docs ih => exact (hpatch n).bind fun _ => ih.bind fun _ => keeps_pure _

end Yaml

/-! ### JSON -/

section Json

/-- The state has the nodes. -/
def HasNodes (nodes : List NodeData) (s : Loader) : Prop := s.chart.nodes = nodes

variable {nodes : List NodeData} {s t : Loader}

/-- `NodeData::InitFromJson` makes a node with the id. -/
theorem returns_initFromJson_id {i : ℕ} {jobj : JsonValue} {d : NodeData}
    (h : (initFromJson i jobj).Returns s d t) : d.id = i ∧ t.chart.nodes = s.chart.nodes := by
  constructor
  · unfold initFromJson at h
    simp only [returns_bind_iff, returns_pure_iff] at h
    obtain ⟨_, _, -, _, _, -, _, _, -, _, _, -, _, _, -, _, _, -, _, _, -, _, _, -, rfl, -⟩ := h
    rfl
  · exact h.of_keeps (keeps_initFromJson i jobj) (P := HasNodes s.chart.nodes) rfl

theorem numbered_addJsonNodes (its : List JsonValue) (i : ℕ) (hs : Numbered s)
    (hi : s.chart.nodes.length = i) (h : (addJsonNodes i its).Returns s ⟨⟩ t) : Numbered t := by
  induction its generalizing i s with
  | nil =>
    obtain ⟨-, rfl⟩ := returns_pure_iff.mp h
    exact hs
  | cons it its ih =>
    obtain ⟨d, u, hd, h⟩ := returns_bind_iff.mp h
    obtain ⟨hid, hnodes⟩ := returns_initFromJson_id hd
    obtain ⟨⟨⟩, v, hv, h⟩ := returns_bind_iff.mp h
    obtain rfl := returns_modify_iff.mp hv
    refine ih (i + 1) ?_ ?_ h
    · refine @positioned_append u.chart d ?_ (by rw [hid, hnodes, hi])
      intro j d' hd'
      exact hs j d' (by rw [← hnodes]; exact hd')
    · rw [List.length_append, hnodes, hi]
      rfl

theorem ignoresIds_hasNodes : IgnoresIds (HasNodes nodes) := fun _ _ _ h => h

/-- The start node keeps its id. -/
theorem returns_readStart_id (its : List JsonValue) {d d' : NodeData}
    (h : (readStart d its).Returns s d' t) : d'.id = d.id ∧ t.chart.nodes = s.chart.nodes := by
  refine ⟨?_, h.of_keeps (keeps_readStart ignoresIds_hasNodes its d)
    (P := HasNodes s.chart.nodes) rfl⟩
  induction its generalizing d s with
  | nil => rw [(returns_pure_iff.mp h).1]
  | cons it its ih =>
    obtain ⟨uid, u, -, h⟩ := returns_bind_iff.mp h
    obtain ⟨i, v, -, h⟩ := returns_bind_iff.mp h
    obtain ⟨j, w, -, h⟩ := returns_bind_iff.mp h
    exact ih (d := { d with failure := d.failure ++ [i], success := d.success ++ [j] }) h

theorem keeps_initParamsFromJson (s₀ : Loader) (params : JsonValue) :
    (initParamsFromJson params).Keeps (SameNodes s₀) := by
  refine (JsonValue.keeps_getArray params).bind fun items =>
    Keeps.bind (keeps_modify fun s hs => ?_) fun _ => (keeps_forM _ fun v => ?_).bind fun _ =>
      keeps_modify fun s hs => ?_
  · exact hs.trans ⟨rfl, rfl, rfl, rfl⟩
  · exact (JsonValue.keeps_memberValue v _).bind fun m =>
      (JsonValue.keeps_getString m).bind fun _ =>
      (JsonValue.keeps_memberValue v _).bind fun m => (JsonValue.keeps_getString m).bind fun _ =>
      (JsonValue.keeps_memberValue v _).bind fun m => (JsonValue.keeps_getBool m).bind fun _ =>
      keeps_modify fun s hs => hs.trans ⟨rfl, rfl, rfl, rfl⟩
  · exact hs.trans ⟨rfl, rfl, rfl, rfl⟩

/-- The nodes of a JSON chart. -/
theorem numbered_readJsonNodes {jobj ns start : JsonValue} (hs : s.chart.nodes = [])
    (h : (readJsonNodes jobj ns start).Returns s ⟨⟩ t) : Numbered t := by
  obtain ⟨items, s₁, h₁, h⟩ := returns_bind_iff.mp h
  obtain ⟨⟨⟩, s₂, h₂, h⟩ := returns_bind_iff.mp h
  obtain ⟨its, s₃, h₃, h⟩ := returns_bind_iff.mp h
  obtain ⟨d, s₄, h₄, h⟩ := returns_bind_iff.mp h
  obtain ⟨func, s₅, h₅, h⟩ := returns_bind_iff.mp h
  obtain ⟨⟨⟩, s₆, h₆, h⟩ := returns_bind_iff.mp h
  obtain rfl := returns_modify_iff.mp h₆
  have hn₁ := h₁.of_keeps (JsonValue.keeps_getArray ns) (P := HasNodes []) hs
  have hn₂ := h₂.of_keeps (keeps_numberNodes ignoresIds_hasNodes items 1) hn₁
  have hn₃ := h₃.of_keeps (JsonValue.keeps_getArray start) hn₂
  obtain ⟨hid, hn₄⟩ := returns_readStart_id its h₄
  have hn₅ : s₅.chart.nodes = [] := h₅.of_keeps
    (JsonValue.keeps_readMember jobj _ JsonValue.keeps_getString) (P := HasNodes []) (hn₄.trans hn₃)
  refine numbered_addJsonNodes items 1 ?_ ?_ h
  · refine @positioned_append s₅.chart _ ?_ ?_
    · intro j d' hd'
      rw [hn₅] at hd'
      cases hd'
    · rw [hn₅]
      exact hid
  · change (s₅.chart.nodes ++ [_]).length = 1
    rw [hn₅]
    rfl

/-- **A JSON chart** is numbered. -/
theorem numbered_fromJson {jobj : JsonValue} (h : (fromJson jobj).Returns {} true t) :
    Numbered t := by
  obtain ⟨path, s₁, h₁, h⟩ := returns_bind_iff.mp h
  have hn₁ := h₁.of_keeps (JsonValue.keeps_findMember jobj _) (P := HasNodes []) rfl
  cases path with
  | none => cases (returns_pure_iff.mp h).1
  | some path =>
    obtain ⟨name, s₂, h₂, h⟩ := returns_bind_iff.mp h
    obtain ⟨varCount, s₃, h₃, h⟩ := returns_bind_iff.mp h
    obtain ⟨vars, s₄, h₄, h⟩ := returns_bind_iff.mp h
    obtain ⟨ns, s₅, h₅, h⟩ := returns_bind_iff.mp h
    obtain ⟨start, s₆, h₆, h⟩ := returns_bind_iff.mp h
    have hn₂ := h₂.of_keeps (JsonValue.keeps_getString path) hn₁
    have hn₃ := h₃.of_keeps (JsonValue.keeps_readMember jobj _ JsonValue.keeps_getInt) hn₂
    have hsame := h₄.of_keeps (JsonValue.keeps_readMember jobj _ (keeps_initParamsFromJson s₃))
      (.refl s₃)
    have hn₄ : HasNodes [] s₄ := hsame.nodes.trans hn₃
    have hn₅ := h₅.of_keeps (JsonValue.keeps_findMember jobj _) hn₄
    have hn₆ := h₆.of_keeps (JsonValue.keeps_findMember jobj _) hn₅
    cases ns with
    | none => cases (returns_pure_iff.mp h).1
    | some ns =>
      cases start with
      | none => cases (returns_pure_iff.mp h).1
      | some start =>
        obtain ⟨⟨⟩, s₇, h₇, h⟩ := returns_bind_iff.mp h
        obtain rfl := returns_modify_iff.mp h₇
        obtain ⟨⟨⟩, s₈, h₈, h⟩ := returns_bind_iff.mp h
        obtain ⟨-, rfl⟩ := returns_pure_iff.mp h
        exact numbered_readJsonNodes (by exact hn₆) h₈

end Json

/-! ### The registered charts -/

/-- A round of `Manager::ParseChartsFromJson`, which collects the charts. -/
def parseJsonChart (jobj : JsonValue) : Program Abort (List ChartData) PUnit :=
  match (fromJson jobj).run.run {} with
  | (.ok true, s) => modify (· ++ [s.chart])
  | (.ok false, _) => pure ⟨⟩
  | (.error e, _) => throw e

/-- `Manager::ParseChartsFromJson` of the items of a list. -/
def parseChartsFromJson (items : List JsonValue) : Program Abort (List ChartData) PUnit :=
  items.forM parseJsonChart

/-- `Manager::ImportJson` of the items of a list. -/
def importJson (items : List JsonValue) : Program Abort ChartDict ℕ :=
  match (parseChartsFromJson items).run.run [] with
  | (.ok _, data) => importChatData data
  | (.error e, _) => throw e

/-- A call that changes the registered charts. -/
inductive Change
  /-- `Manager::ImportYaml`. -/
  | importYaml (docs : List YamlTree)
  /-- `Manager::ImportJson`. -/
  | importJson (items : List JsonValue)
  /-- `Manager::PatchFromYaml`. -/
  | patch (inPlace : Bool) (docs : List YamlTree)

/-- What a call leaves. After an exception of `std::stoi` the run goes on. -/
def left {σ α : Type} (x : Program Abort σ α) (s : σ) : Option σ :=
  match x.run.run s with
  | (.ok _, t) | (.error .stoi, t) => some t
  | (.error _, _) => none

/-- The registered charts after a call; `none` where the behaviour is undefined. -/
def change (dict : ChartDict) : Change → Option ChartDict
  | .importYaml docs => left (importYaml docs) dict
  | .importJson items => left (importJson items) dict
  | .patch inPlace docs => (left (patchCharts inPlace docs) { dict := dict }).map (·.dict)

theorem of_left {σ α : Type} {x : Program Abort σ α} {P : σ → Prop} {s t : σ} (hx : x.Keeps P)
    (hs : P s) (h : left x s = some t) : P t := by
  have ht := hx s hs
  rw [left] at h
  generalize x.run.run s = r at h ht
  match r, h with
  | (.ok _, u), h | (.error .stoi, u), h =>
    obtain rfl := Option.some.inj h
    exact ht

/-- The ids of all registered charts are positions. -/
def ChartDict.Numbered (dict : ChartDict) : Prop :=
  ∀ (path : String) (data : ChartData), dict path = some data → data.Positioned

section Registered

variable {dict dict' : ChartDict} {docs : List YamlTree}

theorem ChartDict.Numbered.update (h : dict.Numbered) (path : String) {data : ChartData}
    (hdata : data.Positioned) : ChartDict.Numbered (Function.update dict path (some data)) := by
  intro p d hd
  rcases eq_or_ne p path with rfl | hne
  · rw [Function.update_self] at hd
    obtain rfl := Option.some.inj hd
    exact hdata
  · rw [Function.update_of_ne hne] at hd
    exact h p d hd

/-- What a document is loaded to is numbered. -/
theorem positioned_fromYaml (doc : YamlTree) :
    ((fromYaml doc).run.run {}).2.chart.Positioned := by
  refine keeps_fromYaml doc {} ?_
  intro i d hd
  cases hd

/-- Charts whose ids are positions are registered. -/
theorem keeps_importChatData {l : List ChartData} (hl : ∀ data ∈ l, data.Positioned) :
    (importChatData l).Keeps ChartDict.Numbered := by
  refine Keeps.bind (keeps_modify fun dict hd => ?_) fun _ => keeps_pure _
  induction l generalizing dict with
  | nil => exact hd
  | cons data l ih =>
    exact ih (fun d hd => hl d (List.mem_cons_of_mem data hd)) _
      (hd.update data.name (hl data List.mem_cons_self))

/-- What is collected. -/
def AllPositioned (l : List ChartData) : Prop := ∀ data ∈ l, data.Positioned

theorem AllPositioned.append {l : List ChartData} (h : AllPositioned l) {data : ChartData}
    (hdata : data.Positioned) : AllPositioned (l ++ [data]) := by
  intro d hd
  rcases List.mem_append.mp hd with hd | hd
  · exact h d hd
  · obtain rfl := List.mem_singleton.mp hd
    exact hdata

theorem keeps_parseChart (doc : YamlTree) : (parseChart doc).Keeps AllPositioned := by
  refine (YamlTree.keeps_get doc _).bind fun _ => ?_
  have hpos := positioned_fromYaml doc
  generalize (fromYaml doc).run.run {} = r at hpos
  match r, hpos with
  | (.ok true, t), hpos => exact keeps_modify fun l hl => hl.append hpos
  | (.ok false, _), _ => exact keeps_pure _
  | (.error e, _), _ => exact keeps_throw e

theorem keeps_parseJsonChart (jobj : JsonValue) : (parseJsonChart jobj).Keeps AllPositioned := by
  have hpos : ∀ t, (fromJson jobj).run.run {} = (.ok true, t) → t.chart.Positioned :=
    fun t ht => numbered_fromJson ht
  unfold parseJsonChart
  generalize (fromJson jobj).run.run {} = r at hpos
  match r, hpos with
  | (.ok true, t), hpos => exact keeps_modify fun l hl => hl.append (hpos t rfl)
  | (.ok false, _), _ => exact keeps_pure _
  | (.error e, _), _ => exact keeps_throw e

/-- **An import** keeps the ids of all charts positions. -/
theorem keeps_importYaml (docs : List YamlTree) : (importYaml docs).Keeps ChartDict.Numbered := by
  have hl : AllPositioned ((parseChartsFromYaml docs).run.run []).2 :=
    keeps_forM docs keeps_parseChart [] nofun
  unfold importYaml
  generalize (parseChartsFromYaml docs).run.run [] = r at hl
  match r, hl with
  | (.ok _, l), hl => exact keeps_importChatData hl
  | (.error e, _), _ => exact keeps_throw e

theorem keeps_importJson (items : List JsonValue) :
    (importJson items).Keeps ChartDict.Numbered := by
  have hl : AllPositioned ((parseChartsFromJson items).run.run []).2 :=
    keeps_forM items keeps_parseJsonChart [] nofun
  unfold importJson
  generalize (parseChartsFromJson items).run.run [] = r at hl
  match r, hl with
  | (.ok _, l), hl => exact keeps_importChatData hl
  | (.error e, _), _ => exact keeps_throw e

/-- **Patches** keep the ids of all charts positions, also those that fail. -/
theorem keeps_patchCharts (inPlace : Bool) (docs : List YamlTree) :
    (patchCharts inPlace docs).Keeps (fun s => s.dict.Numbered) := by
  refine (keeps_forM docs fun doc => ?_).bind fun _ => Program.keeps_get.bind fun _ => keeps_pure _
  refine (YamlTree.keeps_get doc _).bind fun path => keeps_get_bind fun s₀ hs₀ => ?_
  have hnew : (patchNew doc).Keeps (fun s => s.dict.Numbered) := by
    have hpos := positioned_fromYaml doc
    unfold patchNew
    generalize (fromYaml doc).run.run {} = r at hpos
    match r, hpos with
    | (.ok true, t), hpos => exact keeps_modify fun s hs => hs.update t.chart.name hpos
    | (.ok false, _), _ => exact keeps_pure _
    | (.error e, _), _ => exact keeps_throw e
  cases hdict : s₀.dict path with
  | none => exact hnew
  | some data =>
    cases inPlace with
    | false => exact hnew
    | true =>
      have hpos := keeps_patchFromYaml doc data.patching (hs₀ path data hdict)
      change (patchInPlace path data doc).Keeps _
      unfold patchInPlace
      generalize (patchFromYaml doc).run.run data.patching = r at hpos
      match r, hpos with
      | (.ok _, t), hpos => exact keeps_modify fun s hs => hs.update path hpos
      | (.error e, t), hpos =>
        exact (keeps_modify fun s hs => hs.update path hpos).bind fun _ => keeps_throw e

theorem numbered_of_change {c : Change} (h : dict.Numbered) (hc : change dict c = some dict') :
    dict'.Numbered := by
  cases c with
  | importYaml docs => exact of_left (keeps_importYaml docs) h hc
  | importJson items => exact of_left (keeps_importJson items) h hc
  | patch inPlace docs =>
    obtain ⟨s, hs, rfl⟩ := Option.map_eq_some_iff.mp hc
    exact of_left (P := fun s => s.dict.Numbered) (keeps_patchCharts inPlace docs) h hs

/-- **In every run of imports and patches** the ids of the registered charts are positions. -/
theorem numbered_of_reaches (h : Run.Reaches change (fun _ => none) dict) : dict.Numbered :=
  h.invariant (fun _ _ hd => absurd hd nofun) fun _ _ _ hu _ hs => numbered_of_change hu hs

end Registered

end Loading

end Asyncflow
