import Asyncflow.Loading.Running

/-!
# What running reads of a JSON chart

The counterpart of `Asyncflow.Loading.Running` for the JSON loader: `Asyncflow.fromJson` on what is
not forgotten of a chart object (`Asyncflow.Loading.JsonValue.forget`) agrees with the load.
-/

namespace Asyncflow

namespace Loading

open Program

/-! ### What is forgotten -/

namespace JsonValue

/-- The `type` of a node, with what is read for it. -/
def forgetType (n : JsonValue) : Option JsonType :=
  (n.text? "type").map fun type =>
    if type = "function" ∨ type = "event" then .func (type = "event")
    else if type = "control" then
      .control ((n.text? "funcName").getD "") ((n.member? "param").map fun _ => n.texts "param")
    else .other

/-- A node. -/
def forgetNode (n : JsonValue) : JsonNode where
  uid := (n.text? "uid").getD ""
  type := n.forgetType
  success := n.texts "success"
  fail := n.texts "fail"

/-- A chart object. -/
def forget (doc : JsonValue) : JsonChart where
  path := doc.text? "path"
  nodes := (doc.member? "nodes").map fun _ => (doc.items "nodes").map forgetNode
  start := (doc.member? "start").map fun _ => doc.texts "start"
  startFunc := doc.text? "start_func"

end JsonValue

/-! ### Members -/

section Members

variable {v m : JsonValue} {key text : String} {s t : Loader} {o : Option String}
  {its : List JsonValue} {is : List ℕ}

/-- What a string is read as is its text up to a zero. -/
theorem returns_cText_iff : (m.getString : Load String).Returns s text t ↔
    m.cText? = some text ∧ s = t :=
  JsonValue.returns_getString_iff

/-- A text that has been read. -/
theorem eq_of_readText (h : (v.readMember key (·.getString) : Load _).Returns s o t) :
    o = v.text? key ∧ s = t := by
  obtain ⟨m, s₁, h₁, h⟩ := returns_bind_iff.mp h
  obtain ⟨-, hm, rfl⟩ := JsonValue.returns_findMember_iff.mp h₁
  unfold JsonValue.text?
  rw [hm]
  cases m with
  | none => exact ⟨(returns_pure_iff.mp h).1.symm, (returns_pure_iff.mp h).2⟩
  | some m =>
    obtain ⟨text, s₂, h₂, h⟩ := returns_bind_iff.mp h
    obtain ⟨htext, rfl⟩ := returns_cText_iff.mp h₂
    obtain ⟨rfl, rfl⟩ := returns_pure_iff.mp h
    exact ⟨htext.symm, rfl⟩

/-- The items of a member that has been read. -/
theorem items_of_getArray (hm : v.member? key = some m)
    (h : (m.getArray : Load _).Returns s its t) : v.items key = its ∧ s = t := by
  obtain ⟨rfl, rfl⟩ := JsonValue.returns_getArray_iff.mp h
  unfold JsonValue.items
  rw [hm]
  exact ⟨rfl, rfl⟩

/-- The ids of a list that has been read. -/
theorem eq_of_readIds (h : (readIds its).Returns s is t) :
    is = (its.filterMap JsonValue.cText?).filterMap s.ids ∧ s = t := by
  induction its generalizing is with
  | nil =>
    obtain ⟨rfl, rfl⟩ := returns_pure_iff.mp h
    exact ⟨rfl, rfl⟩
  | cons it its ih =>
    obtain ⟨uid, s₁, h₁, h⟩ := returns_bind_iff.mp h
    obtain ⟨huid, rfl⟩ := returns_cText_iff.mp h₁
    obtain ⟨s₂, s₃, h₂, h⟩ := returns_bind_iff.mp h
    obtain ⟨rfl, rfl⟩ := (returns_get s).unique h₂
    obtain ⟨rest, s₄, h₃, h⟩ := returns_bind_iff.mp h
    obtain ⟨rfl, rfl⟩ := returns_pure_iff.mp h
    obtain ⟨rfl, rfl⟩ := ih h₃
    rw [List.filterMap_cons_some huid, List.filterMap_cons]
    cases s.ids uid <;> exact ⟨rfl, rfl⟩

theorem eq_of_readSubsequence (h : (readSubsequence v key).Returns s is t) :
    is = (v.texts key).filterMap s.ids ∧ s = t := by
  obtain ⟨m, s₁, h₁, h⟩ := returns_bind_iff.mp h
  obtain ⟨-, hm, rfl⟩ := JsonValue.returns_findMember_iff.mp h₁
  unfold JsonValue.texts
  cases m with
  | none =>
    obtain ⟨rfl, rfl⟩ := returns_pure_iff.mp h
    unfold JsonValue.items
    rw [hm]
    exact ⟨rfl, rfl⟩
  | some m =>
    obtain ⟨its, s₂, h₂, h⟩ := returns_bind_iff.mp h
    obtain ⟨hitems, rfl⟩ := items_of_getArray hm h₂
    rw [hitems]
    exact eq_of_readIds h

end Members

/-! ### A node -/

section Nodes

variable {n : JsonValue} {name : String} {s t : Loader} {i : ℕ} {d : NodeData}
  {func : Option NodeFunc} {ids : IdMap}

theorem jsonControlFunc_eq (name : String) (params : List ℤ) :
    Asyncflow.jsonControlFunc name params =
      (((jsonControlFunc name).map fun f => NodeFunc.control f params).map NodeFunc.forget).getD
        .null := by
  unfold Asyncflow.jsonControlFunc jsonControlFunc
  split_ifs <;> rfl

/-- The function of a node, as the runtime's loader makes it. -/
def funcOf (ids : IdMap) : Option JsonType → Asyncflow.NodeFunc
  | some (.func _) => .script
  | some (.control name (some params)) =>
    Asyncflow.jsonControlFunc name ((params.filterMap ids).map Nat.cast)
  | some (.control _ none) | some .other | none => .null

theorem func_of_readJsonFunc
    (h : (readJsonFunc n ((n.text? "funcName").getD "") (n.text? "type")).Returns s func t) :
    (func.map NodeFunc.forget).getD .null = funcOf s.ids n.forgetType ∧ s = t := by
  unfold readJsonFunc at h
  unfold JsonValue.forgetType
  cases htype : n.text? "type" with
  | none =>
    rw [htype, if_neg (by simp), if_neg (by simp)] at h
    obtain ⟨rfl, rfl⟩ := returns_pure_iff.mp h
    exact ⟨rfl, rfl⟩
  | some type =>
    rw [htype] at h
    simp only [Option.some.injEq] at h
    rw [Option.map_some]
    split_ifs at h ⊢ with hscript hcontrol
    · obtain ⟨rfl, rfl⟩ := returns_pure_iff.mp h
      exact ⟨rfl, rfl⟩
    · obtain ⟨m, s₁, h₁, h⟩ := returns_bind_iff.mp h
      obtain ⟨-, hm, rfl⟩ := JsonValue.returns_findMember_iff.mp h₁
      rw [hm]
      cases m with
      | none =>
        obtain ⟨rfl, rfl⟩ := returns_pure_iff.mp h
        exact ⟨rfl, rfl⟩
      | some m =>
        obtain ⟨its, s₂, h₂, h⟩ := returns_bind_iff.mp h
        obtain ⟨hitems, rfl⟩ := items_of_getArray hm h₂
        obtain ⟨is, s₃, h₃, h⟩ := returns_bind_iff.mp h
        obtain ⟨rfl, rfl⟩ := eq_of_readIds h₃
        obtain ⟨rfl, rfl⟩ := returns_pure_iff.mp h
        refine ⟨?_, rfl⟩
        rw [Option.map_some, funcOf, jsonControlFunc_eq, JsonValue.texts, hitems]
    · obtain ⟨rfl, rfl⟩ := returns_pure_iff.mp h
      exact ⟨rfl, rfl⟩

theorem initFromJson_eq (doc : JsonNode) : Asyncflow.NodeData.initFromJson ids doc =
    { uid := doc.uid, func := funcOf ids doc.type
      isEvent := match doc.type with
        | some (.func isEvent) => isEvent
        | _ => false
      success := doc.success.filterMap ids, failure := doc.fail.filterMap ids } := by
  unfold Asyncflow.NodeData.initFromJson funcOf
  rcases doc.type with _ | type
  · rfl
  · rcases type with b | ⟨name, _ | params⟩ | _ <;> rfl

theorem isEvent_forgetType (n : JsonValue) : (match n.forgetType with
    | some (.func isEvent) => isEvent
    | _ => false) = decide (n.text? "type" = some "event") := by
  unfold JsonValue.forgetType
  cases n.text? "type" with
  | none => rfl
  | some type =>
    rw [Option.map_some]
    split_ifs with hscript hcontrol
    · simp
    · simp [hcontrol]
    · have hne : type ≠ "event" := fun h => hscript (.inr h)
      simp [hne]

/-- **`NodeData::InitFromJson`.** -/
theorem initFromJson_forget (h : (initFromJson i n).Returns s d t) :
    d.forget = Asyncflow.NodeData.initFromJson s.ids n.forgetNode ∧ s = t := by
  obtain ⟨uid, s₁, h₁, h⟩ := returns_bind_iff.mp h
  obtain ⟨rfl, rfl⟩ := eq_of_readText h₁
  obtain ⟨text, s₂, h₂, h⟩ := returns_bind_iff.mp h
  obtain ⟨-, rfl⟩ := eq_of_readText h₂
  obtain ⟨name, s₃, h₃, h⟩ := returns_bind_iff.mp h
  obtain ⟨rfl, rfl⟩ := eq_of_readText h₃
  obtain ⟨type, s₄, h₄, h⟩ := returns_bind_iff.mp h
  obtain ⟨rfl, rfl⟩ := eq_of_readText h₄
  obtain ⟨func, s₅, h₅, h⟩ := returns_bind_iff.mp h
  obtain ⟨hfunc, rfl⟩ := func_of_readJsonFunc h₅
  obtain ⟨varId, s₆, h₆, h⟩ := returns_bind_iff.mp h
  -- The variable of the node is forgotten, but reading it may fail.
  obtain rfl : s = s₆ :=
    h₆.of_keeps (JsonValue.keeps_readMember n _ JsonValue.keeps_getInt) (P := (s = ·)) rfl
  obtain ⟨success, s₇, h₇, h⟩ := returns_bind_iff.mp h
  obtain ⟨rfl, rfl⟩ := eq_of_readSubsequence h₇
  obtain ⟨failure, s₈, h₈, h⟩ := returns_bind_iff.mp h
  obtain ⟨rfl, rfl⟩ := eq_of_readSubsequence h₈
  obtain ⟨rfl, rfl⟩ := returns_pure_iff.mp h
  refine ⟨?_, rfl⟩
  rw [initFromJson_eq]
  unfold JsonValue.forgetNode
  dsimp only
  rw [← hfunc, isEvent_forgetType]
  rfl

/-- **The second loop over the nodes.** -/
theorem addJsonNodes_forget {its : List JsonValue} (h : (addJsonNodes i its).Returns s ⟨⟩ t) :
    ∃ ds, t.chart = { s.chart with nodes := s.chart.nodes ++ ds } ∧ ds.map NodeData.forget =
      (its.map JsonValue.forgetNode).map (Asyncflow.NodeData.initFromJson s.ids) := by
  induction its generalizing i s with
  | nil =>
    obtain ⟨-, rfl⟩ := returns_pure_iff.mp h
    exact ⟨[], by rw [List.append_nil], rfl⟩
  | cons it its ih =>
    obtain ⟨d, s₁, h₁, h⟩ := returns_bind_iff.mp h
    obtain ⟨hd, rfl⟩ := initFromJson_forget h₁
    obtain ⟨⟨⟩, s₂, h₂, h⟩ := returns_bind_iff.mp h
    obtain rfl := returns_modify_iff.mp h₂
    obtain ⟨ds, hchart, hds⟩ := ih h
    refine ⟨d :: ds, ?_, ?_⟩
    · rw [hchart, List.append_assoc]
      rfl
    · rw [List.map_cons, List.map_cons, List.map_cons, hd, hds]

end Nodes

/-! ### The map -/

section Ids

variable {its : List JsonValue} {s t : Loader} {i : ℕ} {d d' : NodeData} {uid : String}

/-- The map of the runtime's loader. -/
theorem jsonIds_eq (docs : List JsonNode) :
    jsonIds docs = putIds (fun _ => none) ((docs.map (·.uid)).zipIdx 1) := by
  funext u
  rw [putIds_eq, List.zipIdx_map, ← List.map_reverse, List.find?_map, jsonIds, Option.map_map,
    Option.or_none]
  rfl

/-- **The first loop over the nodes.** -/
theorem numberNodes_forget (h : (numberNodes i its).Returns s ⟨⟩ t) : t.chart = s.chart ∧
    t.ids = putIds s.ids (((its.map JsonValue.forgetNode).map (·.uid)).zipIdx i) := by
  induction its generalizing i s with
  | nil =>
    obtain ⟨-, rfl⟩ := returns_pure_iff.mp h
    exact ⟨rfl, rfl⟩
  | cons it its ih =>
    obtain ⟨m, s₁, h₁, h⟩ := returns_bind_iff.mp h
    obtain ⟨hm, rfl⟩ := JsonValue.returns_memberValue_iff.mp h₁
    obtain ⟨uid, s₂, h₂, h⟩ := returns_bind_iff.mp h
    obtain ⟨huid, rfl⟩ := returns_cText_iff.mp h₂
    obtain ⟨⟨⟩, s₃, h₃, h⟩ := returns_bind_iff.mp h
    obtain rfl := returns_modify_iff.mp h₃
    obtain ⟨hchart, hids⟩ := ih h
    refine ⟨hchart, ?_⟩
    have hnode : it.forgetNode.uid = uid := by
      change (it.text? "uid").getD "" = uid
      rw [JsonValue.text?, hm, Option.bind_some, huid]
      rfl
    rw [hids, List.map_cons, List.map_cons, hnode]
    rfl

theorem idAt_forget (h : (idAt uid).Returns s i t) : i = (s.ids uid).getD 0 ∧
    t.chart = s.chart ∧ t.ids = Function.update s.ids uid (some ((s.ids uid).getD 0)) := by
  obtain ⟨s₁, s₂, h₁, h⟩ := returns_bind_iff.mp h
  obtain ⟨rfl, rfl⟩ := (returns_get s).unique h₁
  cases huid : s.ids uid with
  | some j =>
    -- `operator[]` finds the uid, and the update changes nothing.
    rw [huid] at h
    obtain ⟨rfl, rfl⟩ := returns_pure_iff.mp h
    refine ⟨rfl, rfl, ?_⟩
    rw [Option.getD_some, ← huid, Function.update_eq_self]
  | none =>
    rw [huid] at h
    obtain ⟨⟨⟩, s₃, h₂, h⟩ := returns_bind_iff.mp h
    obtain rfl := returns_modify_iff.mp h₂
    obtain ⟨rfl, rfl⟩ := returns_pure_iff.mp h
    exact ⟨rfl, rfl, rfl⟩

/-- **The `start` of a chart.** -/
theorem readStart_forget (h : (readStart d its).Returns s d' t) : t.chart = s.chart ∧
    startIds s.ids (its.filterMap JsonValue.cText?) =
      (t.ids, (startIds s.ids (its.filterMap JsonValue.cText?)).2) ∧
    d' = { d with
      failure := d.failure ++ (startIds s.ids (its.filterMap JsonValue.cText?)).2
      success := d.success ++ (startIds s.ids (its.filterMap JsonValue.cText?)).2 } := by
  induction its generalizing d s with
  | nil =>
    obtain ⟨rfl, rfl⟩ := returns_pure_iff.mp h
    refine ⟨rfl, rfl, ?_⟩
    change d = { d with failure := d.failure ++ [], success := d.success ++ [] }
    rw [List.append_nil, List.append_nil]
  | cons it its ih =>
    obtain ⟨uid, s₁, h₁, h⟩ := returns_bind_iff.mp h
    obtain ⟨huid, rfl⟩ := returns_cText_iff.mp h₁
    obtain ⟨i, s₂, h₂, h⟩ := returns_bind_iff.mp h
    obtain ⟨rfl, hchart₂, hids₂⟩ := idAt_forget h₂
    obtain ⟨j, s₃, h₃, h⟩ := returns_bind_iff.mp h
    obtain ⟨rfl, hchart₃, hids₃⟩ := idAt_forget h₃
    -- The second lookup finds what the first one has left.
    rw [hids₂, Function.update_self, Option.getD_some, Function.update_idem] at hids₃
    rw [hids₂, Function.update_self, Option.getD_some] at h
    obtain ⟨hchart, hids, hd⟩ := ih h
    rw [hids₃] at hids hd
    rw [List.filterMap_cons_some huid, startIds]
    refine ⟨hchart.trans (hchart₃.trans hchart₂), ?_, ?_⟩
    · dsimp only
      rw [hids]
    · rw [hd]
      dsimp only
      rw [List.append_assoc, List.append_assoc]
      rfl

end Ids

/-! ### Charts -/

section Charts

variable {doc nodes start : JsonValue} {s t : Loader}

/-- The nodes of a chart. -/
theorem readJsonNodes_forget (hs : s.chart.nodes = []) (hids : s.ids = fun _ => none)
    (hfunc : s.chart.startFuncName = "") (hnodes : doc.member? "nodes" = some nodes)
    (hstart : doc.member? "start" = some start)
    (h : (readJsonNodes doc nodes start).Returns s ⟨⟩ t) :
    Asyncflow.fromJson { doc.forget with path := some s.chart.name } = some t.chart.forget := by
  obtain ⟨its, s₁, h₁, h⟩ := returns_bind_iff.mp h
  obtain ⟨hits, rfl⟩ := items_of_getArray hnodes h₁
  obtain ⟨⟨⟩, s₂, h₂, h⟩ := returns_bind_iff.mp h
  obtain ⟨hchart₂, hids₂⟩ := numberNodes_forget h₂
  obtain ⟨sits, s₃, h₃, h⟩ := returns_bind_iff.mp h
  obtain ⟨hsits, rfl⟩ := items_of_getArray hstart h₃
  obtain ⟨d, s₄, h₄, h⟩ := returns_bind_iff.mp h
  obtain ⟨hchart₄, hids₄, hd⟩ := readStart_forget h₄
  obtain ⟨func, s₅, h₅, h⟩ := returns_bind_iff.mp h
  obtain ⟨rfl, rfl⟩ := eq_of_readText h₅
  obtain ⟨⟨⟩, s₆, h₆, h⟩ := returns_bind_iff.mp h
  obtain rfl := returns_modify_iff.mp h₆
  obtain ⟨ds, hchart, hds⟩ := addJsonNodes_forget h
  have hids' : s₂.ids = jsonIds (its.map JsonValue.forgetNode) := by
    rw [hids₂, hids, jsonIds_eq]
  have htexts : doc.texts "start" = sits.filterMap JsonValue.cText? := by
    rw [JsonValue.texts, hsits]
  have hchart' : t.chart = { s.chart with
      startFuncName := (doc.text? "start_func").getD ""
      nodes := { d with func := (doc.text? "start_func").map (.script "" ·) } :: ds } := by
    rw [hchart, hchart₄, hchart₂, hs, hfunc]
    rfl
  rw [hids'] at hids₄ hd
  rw [← htexts] at hids₄ hd
  have hstartNode :
      ({ d with func := (doc.text? "start_func").map (.script "" ·) } : NodeData).forget =
      { func := if (doc.text? "start_func").isSome then .script else .null
        failure := (startIds (jsonIds (its.map JsonValue.forgetNode)) (doc.texts "start")).2
        success := (startIds (jsonIds (its.map JsonValue.forgetNode)) (doc.texts "start")).2 } := by
    rw [hd]
    cases doc.text? "start_func" <;> rfl
  change ds.map NodeData.forget = (its.map JsonValue.forgetNode).map
    (Asyncflow.NodeData.initFromJson s₄.ids) at hds
  unfold JsonValue.forget ChartData.forget
  rw [hnodes, hstart, hits, hchart']
  dsimp only [Option.map_some]
  rw [List.map_cons, hstartNode, hds]
  unfold Asyncflow.fromJson
  dsimp only
  rw [hids₄]

/-- **A JSON chart that is loaded is the runtime's, as far as running reads it.** -/
theorem fromJson_forget (h : (fromJson doc).Returns {} true t) :
    Asyncflow.fromJson doc.forget = some t.chart.forget := by
  obtain ⟨path, s₁, h₁, h⟩ := returns_bind_iff.mp h
  obtain ⟨-, hpath, rfl⟩ := JsonValue.returns_findMember_iff.mp h₁
  cases path with
  | none => cases (returns_pure_iff.mp h).1
  | some path =>
    obtain ⟨name, s₂, h₂, h⟩ := returns_bind_iff.mp h
    obtain ⟨hname, rfl⟩ := returns_cText_iff.mp h₂
    obtain ⟨varCount, s₃, h₃, h⟩ := returns_bind_iff.mp h
    have hsame₃ := h₃.of_keeps (JsonValue.keeps_readMember doc _ JsonValue.keeps_getInt)
      (SameNodes.refl {})
    obtain ⟨vars, s₄, h₄, h⟩ := returns_bind_iff.mp h
    have hsame₄ := h₄.of_keeps (JsonValue.keeps_readMember doc _ (keeps_initParamsFromJson {}))
      hsame₃
    obtain ⟨ns, s₅, h₅, h⟩ := returns_bind_iff.mp h
    obtain ⟨-, hnodes, rfl⟩ := JsonValue.returns_findMember_iff.mp h₅
    obtain ⟨start, s₆, h₆, h⟩ := returns_bind_iff.mp h
    obtain ⟨-, hstart, rfl⟩ := JsonValue.returns_findMember_iff.mp h₆
    cases ns with
    | none => cases (returns_pure_iff.mp h).1
    | some ns =>
      cases start with
      | none => cases (returns_pure_iff.mp h).1
      | some start =>
        obtain ⟨⟨⟩, s₇, h₇, h⟩ := returns_bind_iff.mp h
        obtain rfl := returns_modify_iff.mp h₇
        obtain ⟨⟨⟩, s₈, h₈, h⟩ := returns_bind_iff.mp h
        obtain ⟨-, rfl⟩ := returns_pure_iff.mp h
        have hload := readJsonNodes_forget (by exact hsame₄.nodes) (by exact hsame₄.ids)
          (by exact hsame₄.startFuncName) hnodes hstart h₈
        have hdoc : doc.forget.path = some name := by
          change (doc.member? "path").bind JsonValue.cText? = some name
          rw [hpath]
          exact hname
        have hsame : doc.forget = { doc.forget with path := some name } := by rw [← hdoc]
        rw [hsame]
        exact hload

end Charts

/-! ### The registered charts -/

/-- What either loader makes is, as far as running reads it, chart data as the runtime imports
it. -/
theorem loaded_forget {data : ChartData}
    (h : (∃ doc t, (fromYaml doc).Returns {} true t ∧ t.chart = data) ∨
      ∃ doc t, (fromJson doc).Returns {} true t ∧ t.chart = data) : Loaded data.forget := by
  rcases h with ⟨doc, t, h, rfl⟩ | ⟨doc, t, h, rfl⟩
  · exact .inl ⟨doc.forget, fromYaml_forget h⟩
  · exact .inr ⟨doc.forget, fromJson_forget h⟩

end Loading

end Asyncflow
