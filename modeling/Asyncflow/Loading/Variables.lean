import Asyncflow.Loading.Keeping

/-!
# The variables of a chart, by name

A script finds a variable of its chart by `ChartData::GetVarIndex`, which looks into
`variable_dict_`. `ChartData::FromYaml` counts the declared variables and fills the dictionary
with their positions. `ChartData::FromJson` takes the count from `varCount`, a member of its
own, and leaves the dictionary empty: in a JSON chart no name is found
(`Asyncflow.Loading.finds_iff`).
-/

namespace Asyncflow

namespace Loading

open Program

/-! ### What a script sees -/

/-- **The variables can be found**: as many as the names, and each name at its position. -/
structure ChartData.Finds (data : ChartData) (names : List String) : Prop where
  count : data.variableCount = names.length
  index : ∀ (name : String) (i : ℕ), data.getVarIndex name = i ↔ names[i]? = some name
  missing : ∀ name, name ∉ names → data.getVarIndex name = -1

/-- What a dictionary of positions gives. -/
theorem finds_of_indexes {data : ChartData} {names : List String}
    (hcount : data.variableCount = names.length) (hdict : Indexes data.variableDict names) :
    data.Finds names where
  count := hcount
  index name i := by
    rw [← hdict, ChartData.getVarIndex]
    cases data.variableDict name with
    | none => exact iff_of_false (fun h => nomatch h) nofun
    | some j => exact ⟨fun h => congrArg some (Int.ofNat.inj h), fun h => by rw [Option.some.inj h]⟩
  missing name hname := by
    rw [ChartData.getVarIndex]
    cases hd : data.variableDict name with
    | none => rfl
    | some j => exact absurd (List.mem_of_getElem? ((hdict name j).mp hd)) hname

/-- With an empty dictionary nothing is found. -/
theorem finds_iff_of_empty {data : ChartData} {names : List String}
    (hdict : data.variableDict = fun _ => none) :
    data.Finds names ↔ names = [] ∧ data.variableCount = 0 := by
  have hnone : ∀ name, data.getVarIndex name = -1 := by
    intro name
    rw [ChartData.getVarIndex, hdict]
  constructor
  · intro h
    cases names with
    | nil => exact ⟨rfl, h.count⟩
    | cons name names =>
      have hzero := (h.index name 0).mpr rfl
      rw [hnone] at hzero
      cases hzero
  · rintro ⟨rfl, hcount⟩
    refine ⟨hcount, fun name i => iff_of_false (fun h => ?_) nofun, fun name _ => hnone name⟩
    rw [hnone] at h
    omega

/-! ### YAML -/

section Yaml

variable {s t : Loader} {doc v : YamlTree} {data : ChartData}

/-- What the loader reads of a variable. -/
def YamlTree.declared? (v : YamlTree) : Option Parameter :=
  if v.Optional "is_param" then v.parameter? else none

/-- The names of the declared variables, if all of them have one. -/
def YamlTree.names? (doc : YamlTree) : Option (List String) :=
  (doc.items "variables").mapM (·.text? "name")

theorem returns_readVariable_iff : (readVariable v).Returns s ⟨⟩ t ↔
    ∃ x, v.declared? = some x ∧
      { s with chart := { s.chart with vars := s.chart.vars ++ [x] } } = t := by
  have hout := readVariable_outcome v s
  unfold YamlTree.variableFault? at hout
  unfold YamlTree.declared?
  by_cases h : v.parameter?.isSome ∧ v.Optional "is_param"
  · obtain ⟨x, hx⟩ := Option.isSome_iff_exists.mp h.1
    have hret := returns_readVariable (s := s) hx h.2
    rw [if_pos h.2, hx]
    constructor
    · intro ht
      exact ⟨x, rfl, (hret.unique ht).2⟩
    · rintro ⟨x', hx', rfl⟩
      obtain rfl := Option.some.inj hx'
      exact hret
  · rw [if_neg h] at hout
    obtain ⟨u, hu⟩ := hout
    refine iff_of_false (hu.not_returns) ?_
    rintro ⟨x, hx, -⟩
    split_ifs at hx with ho
    exact h ⟨Option.isSome_iff_exists.mpr ⟨x, hx⟩, ho⟩

/-- **What the variables of an accepted chart are.** -/
theorem returns_readVariables_iff : (readVariables doc).Returns s ⟨⟩ t ↔
    doc.isSeq ∧ ∃ ps, doc.children.mapM YamlTree.declared? = some ps ∧
      { s with chart := ({ s.chart with vars := ps } : ChartData).countVariables } = t := by
  have hfold : ∀ (ps : List Parameter) (s : Loader),
      ps.foldl (fun (s : Loader) x =>
        { s with chart := { s.chart with vars := s.chart.vars ++ [x] } }) s =
        { s with chart := { s.chart with vars := s.chart.vars ++ ps } } := by
    intro ps
    induction ps with
    | nil =>
      intro s
      rw [List.append_nil]
      rfl
    | cons x ps ih =>
      intro s
      rw [List.foldl_cons, ih]
      dsimp only
      rw [List.append_assoc, List.singleton_append]
  have hloop := fun s t => returns_forM_iff (s := s) (t := t)
    (fun b s t => returns_readVariable_iff (v := b) (s := s) (t := t)) doc.children
  rw [readVariables]
  by_cases hseq : doc.isSeq
  swap
  · rw [if_neg hseq]
    exact iff_of_false not_returns_throw fun h => hseq h.1
  rw [if_pos hseq, and_iff_right hseq]
  constructor
  · intro h
    obtain ⟨⟨⟩, u, hu, h⟩ := returns_bind_iff.mp h
    obtain rfl := returns_modify_iff.mp hu
    obtain ⟨⟨⟩, v, hv, h⟩ := returns_bind_iff.mp h
    obtain ⟨ps, hps, rfl⟩ := (hloop _ _).mp hv
    refine ⟨ps, hps, ?_⟩
    rw [← returns_modify_iff.mp h, hfold]
    rfl
  · rintro ⟨ps, hps, rfl⟩
    refine (returns_modify _ s).bind (((hloop _ _).mpr ⟨ps, hps, rfl⟩).bind ?_)
    rw [hfold, returns_modify_iff]
    rfl

/-- The variables are those of the chart data. -/
def HasVariables (data : ChartData) (s : Loader) : Prop :=
  s.chart.variableCount = data.variableCount ∧ s.chart.variableDict = data.variableDict

/-- A property that depends neither on the nodes nor on the `id_map`. -/
structure IgnoresNodes (P : Loader → Prop) : Prop where
  ids : IgnoresIds P
  nodes : ∀ ⦃s : Loader⦄ (ns : List NodeData), P s →
    P { s with chart := { s.chart with nodes := ns } }

theorem IgnoresNodes.writes {P : Loader → Prop} (hP : IgnoresNodes P) : IgnoresWrites P where
  ids := hP.ids
  nodes _ _ _ _ h := hP.nodes _ h

theorem ignoresNodes_hasVariables : IgnoresNodes (HasVariables data) where
  ids _ _ _ h := h
  nodes _ _ h := h

theorem keeps_readNodes {P : Loader → Prop} (hP : IgnoresNodes P) (o : Option YamlTree) :
    (readNodes o).Keeps P := by
  cases o with
  | none => exact keeps_pure _
  | some ns =>
    refine (keeps_forM _ fun n => ?_).bind fun _ => keeps_initNodes hP.writes _ 0
    refine (YamlTree.keeps_get? n _).bind fun uid => keeps_modify fun s hs => ?_
    cases uid with
    | none => exact hP.nodes _ hs
    | some uid => exact hP.ids uid _ (hP.nodes _ hs)

/-- What follows the variables of an accepted chart leaves them alone. -/
theorem returns_variables_of_fromYaml (h : (fromYaml doc).Returns {} true t) :
    ∃ name s, ((doc.child? "variables").forM readVariables).Returns { chart := { name := name } }
      ⟨⟩ s ∧
      ∀ P, IgnoresNodes P → P s → P t := by
  obtain ⟨path, s₁, h₁, h⟩ := returns_bind_iff.mp h
  obtain ⟨-, -, rfl⟩ := YamlTree.returns_findChild_iff.mp h₁
  cases path with
  | none => cases (returns_pure_iff.mp h).1
  | some path =>
    obtain ⟨name, s₂, h₂, h⟩ := returns_bind_iff.mp h
    obtain ⟨-, rfl⟩ := YamlTree.returns_val_iff.mp h₂
    obtain ⟨⟨⟩, s₃, h₃, h⟩ := returns_bind_iff.mp h
    obtain rfl := returns_modify_iff.mp h₃
    obtain ⟨vars, s₄, h₄, h⟩ := returns_bind_iff.mp h
    obtain ⟨-, hvars, rfl⟩ := YamlTree.returns_findChild_iff.mp h₄
    obtain ⟨⟨⟩, s₅, h₅, h⟩ := returns_bind_iff.mp h
    refine ⟨name, s₅, ?_, fun P hP hs => ?_⟩
    · rw [hvars]
      exact h₅
    obtain ⟨nodes, s₆, h₆, h⟩ := returns_bind_iff.mp h
    obtain ⟨-, -, rfl⟩ := YamlTree.returns_findChild_iff.mp h₆
    obtain ⟨ok, s₇, h₇, h⟩ := returns_bind_iff.mp h
    have hs₇ := h₇.of_keeps (keeps_readNodes hP nodes) hs
    split_ifs at h
    · obtain ⟨ks, s₈, h₈, h⟩ := returns_bind_iff.mp h
      obtain ⟨-, -, rfl⟩ := YamlTree.returns_findChild_iff.mp h₈
      obtain ⟨⟨⟩, s₉, h₉, h⟩ := returns_bind_iff.mp h
      obtain ⟨-, rfl⟩ := returns_pure_iff.mp h
      exact h₉.of_keeps (keeps_readConnectors hP.writes ks) hs₇
    · cases (returns_pure_iff.mp h).1

/-- What is read of every item is read of the items. -/
theorem mapM_eq_map {α β γ : Type} {f : α → Option β} {g : α → Option γ} {k : β → γ}
    (hfg : ∀ a b, f a = some b → g a = some (k b)) {as : List α} {bs : List β}
    (h : as.mapM f = some bs) : as.mapM g = some (bs.map k) := by
  induction as generalizing bs with
  | nil =>
    obtain rfl := Option.some.inj h
    rfl
  | cons a as ih =>
    simp only [List.mapM_cons, Option.bind_eq_bind, Option.bind_eq_some_iff] at h ⊢
    obtain ⟨b, hb, bs', hbs, h⟩ := h
    obtain rfl := Option.some.inj h
    exact ⟨k b, hfg a b hb, bs'.map k, ih hbs, rfl⟩

theorem name_of_declared {x : Parameter} (h : v.declared? = some x) :
    v.text? "name" = some x.name := by
  unfold YamlTree.declared? YamlTree.parameter? at h
  split_ifs at h
  split at h
  · rename_i name type hname htype
    obtain rfl := Option.some.inj h
    exact hname
  · cases h

/-- The count and the dictionary after the variables have been read. -/
theorem finds_of_readVariables {o : Option YamlTree} (hdict : s.chart.variableDict = fun _ => none)
    (hcount : s.chart.variableCount = 0) (h : (o.forM readVariables).Returns s ⟨⟩ t) :
    ∃ names, ((o.map YamlTree.children).getD []).mapM (·.text? "name") = some names ∧
      (names.Nodup → t.chart.Finds names) := by
  cases o with
  | none =>
    obtain ⟨-, rfl⟩ := returns_pure_iff.mp h
    exact ⟨[], rfl, fun _ => (finds_iff_of_empty hdict).mpr ⟨rfl, hcount⟩⟩
  | some vs =>
    obtain ⟨-, ps, hps, rfl⟩ := returns_readVariables_iff.mp h
    have hnames : vs.children.mapM (·.text? "name") = some (ps.map Parameter.name) :=
      mapM_eq_map (fun v x hx => name_of_declared hx) hps
    refine ⟨ps.map Parameter.name, hnames, fun hnd => ?_⟩
    refine finds_of_indexes ?_ ?_
    · rw [List.length_map]
      rfl
    · have hidx := indexes_dict ps hnd
      rw [← hdict] at hidx
      exact hidx

/-- What depends on the count and the dictionary only. -/
theorem Finds.of_hasVariables {names : List String} (h : data.Finds names)
    (hs : HasVariables data s) : s.chart.Finds names where
  count := hs.1.trans h.count
  index name i := by
    rw [ChartData.getVarIndex, hs.2]
    exact h.index name i
  missing name hname := by
    rw [ChartData.getVarIndex, hs.2]
    exact h.missing name hname

/-- **In a YAML chart all variables are found.** -/
theorem finds_fromYaml (h : (fromYaml doc).Returns {} true t) :
    ∃ names, doc.names? = some names ∧ (names.Nodup → t.chart.Finds names) := by
  obtain ⟨name, s, hs, hrest⟩ := returns_variables_of_fromYaml h
  obtain ⟨names, hnames, hfinds⟩ := finds_of_readVariables rfl rfl hs
  exact ⟨names, hnames, fun hnd => Finds.of_hasVariables (hfinds hnd)
    (hrest (HasVariables s.chart) ignoresNodes_hasVariables ⟨rfl, rfl⟩)⟩

end Yaml

/-! ### JSON -/

section Json

variable {s t : Loader} {doc v : JsonValue} {data : ChartData}

/-- The names of the declared variables, if all of them have one. -/
def JsonValue.names? (doc : JsonValue) : Option (List String) :=
  (doc.items "variables").mapM (·.text? "name")

/-- The value of `varCount`. -/
def JsonValue.varCount (doc : JsonValue) : ℤ :=
  ((doc.member? "varCount").bind JsonValue.int?).getD 0

theorem name_of_readJsonVariable (h : (readJsonVariable v).Returns s ⟨⟩ t) :
    ∃ name, v.text? "name" = some name := by
  obtain ⟨m, s₁, h₁, h⟩ := returns_bind_iff.mp h
  obtain ⟨hm, rfl⟩ := JsonValue.returns_memberValue_iff.mp h₁
  obtain ⟨name, s₂, h₂, -⟩ := returns_bind_iff.mp h
  obtain ⟨hname, -⟩ := JsonValue.returns_getString_iff.mp h₂
  exact ⟨name, by rw [JsonValue.text?, hm, Option.bind_some]; exact hname⟩

/-- A loop that returns reads every item. -/
theorem exists_mapM_of_forM {read : JsonValue → Option String} {g : JsonValue → Load PUnit}
    (hg : ∀ v s t, (g v).Returns s ⟨⟩ t → ∃ name, read v = some name) (vs : List JsonValue)
    (h : (vs.forM g).Returns s ⟨⟩ t) : ∃ names, vs.mapM read = some names := by
  induction vs generalizing s with
  | nil => exact ⟨[], rfl⟩
  | cons v vs ih =>
    obtain ⟨⟨⟩, u, hv, h⟩ := returns_bind_iff.mp h
    obtain ⟨name, hname⟩ := hg v s u hv
    obtain ⟨names, hnames⟩ := ih h
    exact ⟨name :: names, by simp [hname, hnames]⟩

theorem keeps_variableDict (params : JsonValue) :
    (initParamsFromJson params).Keeps fun s => s.chart.variableDict = fun _ => none := by
  refine (JsonValue.keeps_getArray params).bind fun items =>
    Keeps.bind (keeps_modify fun s hs => ?_) fun _ => (keeps_forM _ fun v => ?_).bind fun _ =>
      keeps_modify fun s hs => ?_
  · exact hs
  · exact (JsonValue.keeps_memberValue v _).bind fun m =>
      (JsonValue.keeps_getString m).bind fun _ =>
      (JsonValue.keeps_memberValue v _).bind fun m => (JsonValue.keeps_getString m).bind fun _ =>
      (JsonValue.keeps_memberValue v _).bind fun m => (JsonValue.keeps_getBool m).bind fun _ =>
      keeps_modify fun s hs => hs
  · exact hs

theorem keeps_readJsonNodes (jobj ns start : JsonValue) :
    (readJsonNodes jobj ns start).Keeps (HasVariables data) := by
  have hids := (@ignoresNodes_hasVariables data).ids
  have hadd : ∀ (its : List JsonValue) (i : ℕ), (addJsonNodes i its).Keeps (HasVariables data) := by
    intro its
    induction its with
    | nil => exact fun i => keeps_pure _
    | cons it its ih =>
      intro i
      exact (keeps_initFromJson i it).bind fun d =>
        Keeps.bind (keeps_modify fun s hs => hs) fun _ => ih (i + 1)
  exact (JsonValue.keeps_getArray ns).bind fun items =>
    (keeps_numberNodes hids items 1).bind fun _ => (JsonValue.keeps_getArray start).bind fun its =>
    (keeps_readStart hids its _).bind fun d =>
    (JsonValue.keeps_readMember jobj _ JsonValue.keeps_getString).bind fun func =>
    Keeps.bind (keeps_modify fun s hs => hs) fun _ => hadd items 1

/-- What is read of `varCount`. -/
theorem returns_readVarCount {o : Option ℤ}
    (h : (doc.readMember "varCount" (·.getInt) : Load _).Returns s o t) :
    o.getD 0 = doc.varCount ∧ s = t := by
  obtain ⟨m, s₁, h₁, h⟩ := returns_bind_iff.mp h
  obtain ⟨-, hm, rfl⟩ := JsonValue.returns_findMember_iff.mp h₁
  rw [JsonValue.varCount, hm]
  cases m with
  | none =>
    obtain ⟨rfl, rfl⟩ := returns_pure_iff.mp h
    exact ⟨rfl, rfl⟩
  | some m =>
    obtain ⟨n, s₂, h₂, h⟩ := returns_bind_iff.mp h
    obtain ⟨hn, rfl⟩ := JsonValue.returns_getInt_iff.mp h₂
    obtain ⟨rfl, rfl⟩ := returns_pure_iff.mp h
    rw [Option.bind_some, hn]
    exact ⟨rfl, rfl⟩

/-- What is read of the variables. -/
theorem returns_readNames {o : Option PUnit}
    (hs : s.chart.variableDict = fun _ => none)
    (h : (doc.readMember "variables" initParamsFromJson).Returns s o t) :
    (∃ names, doc.names? = some names) ∧ t.chart.variableDict = fun _ => none := by
  refine ⟨?_, h.of_keeps (JsonValue.keeps_readMember doc _ keeps_variableDict)
    (P := fun s => s.chart.variableDict = fun _ => none) hs⟩
  obtain ⟨m, s₁, h₁, h⟩ := returns_bind_iff.mp h
  obtain ⟨-, hm, rfl⟩ := JsonValue.returns_findMember_iff.mp h₁
  unfold JsonValue.names? JsonValue.items
  rw [hm]
  cases m with
  | none => exact ⟨[], rfl⟩
  | some m =>
    obtain ⟨⟨⟩, s₂, h₂, -⟩ := returns_bind_iff.mp h
    obtain ⟨items, s₃, h₃, h₂⟩ := returns_bind_iff.mp h₂
    obtain ⟨rfl, rfl⟩ := JsonValue.returns_getArray_iff.mp h₃
    obtain ⟨⟨⟩, s₄, -, h₂⟩ := returns_bind_iff.mp h₂
    obtain ⟨⟨⟩, s₅, h₅, -⟩ := returns_bind_iff.mp h₂
    exact exists_mapM_of_forM (fun v s t hv => name_of_readJsonVariable hv) items h₅

/-- **In a JSON chart no variable is found.** -/
theorem finds_fromJson_iff (h : (fromJson doc).Returns {} true t) :
    ∃ names, doc.names? = some names ∧ (t.chart.Finds names ↔ names = [] ∧ doc.varCount = 0) := by
  obtain ⟨path, s₁, h₁, h⟩ := returns_bind_iff.mp h
  obtain ⟨-, -, rfl⟩ := JsonValue.returns_findMember_iff.mp h₁
  cases path with
  | none => cases (returns_pure_iff.mp h).1
  | some path =>
    obtain ⟨name, s₂, h₂, h⟩ := returns_bind_iff.mp h
    obtain ⟨-, rfl⟩ := JsonValue.returns_getString_iff.mp h₂
    obtain ⟨count, s₃, h₃, h⟩ := returns_bind_iff.mp h
    obtain ⟨hcount, rfl⟩ := returns_readVarCount h₃
    obtain ⟨vars, s₄, h₄, h⟩ := returns_bind_iff.mp h
    obtain ⟨⟨names, hnames⟩, hdict⟩ := returns_readNames rfl h₄
    obtain ⟨ns, s₅, h₅, h⟩ := returns_bind_iff.mp h
    obtain ⟨-, -, rfl⟩ := JsonValue.returns_findMember_iff.mp h₅
    obtain ⟨start, s₆, h₆, h⟩ := returns_bind_iff.mp h
    obtain ⟨-, -, rfl⟩ := JsonValue.returns_findMember_iff.mp h₆
    refine ⟨names, hnames, ?_⟩
    cases ns with
    | none => cases (returns_pure_iff.mp h).1
    | some ns =>
      cases start with
      | none => cases (returns_pure_iff.mp h).1
      | some start =>
        obtain ⟨⟨⟩, s₇, h₇, h⟩ := returns_bind_iff.mp h
        obtain rfl := returns_modify_iff.mp h₇
        obtain ⟨⟨⟩, s₈, h₈, h⟩ := returns_bind_iff.mp h
        obtain ⟨-, rfl⟩ := returns_pure_iff.mp h
        have hv := h₈.of_keeps (keeps_readJsonNodes doc ns start)
          (P := HasVariables { s₄.chart with variableCount := count.getD 0 }) ⟨rfl, rfl⟩
        rw [finds_iff_of_empty (hv.2.trans hdict), hv.1, ← hcount]

end Json

/-! ### Both formats -/

/-- A document of one of the two formats. -/
inductive ChartDoc
  | yaml (doc : YamlTree)
  | json (doc : JsonValue)

namespace ChartDoc

/-- `ChartData::FromYaml` or `ChartData::FromJson`. -/
def load : ChartDoc → Load Bool
  | yaml doc => fromYaml doc
  | json doc => fromJson doc

/-- The names of the declared variables, if all of them have one. -/
def names? : ChartDoc → Option (List String)
  | yaml doc => doc.names?
  | json doc => doc.names?

/-- The document is a JSON document that declares or counts variables. -/
def JsonVariables (names : List String) : ChartDoc → Prop
  | yaml _ => False
  | json doc => ¬(names = [] ∧ doc.varCount = 0)

end ChartDoc

/-- **Where the variables of an accepted chart are found**: everywhere but in a JSON chart that
declares variables or has a `varCount` other than 0. -/
theorem finds_iff {doc : ChartDoc} {t : Loader} (h : doc.load.Returns {} true t) :
    ∃ names, doc.names? = some names ∧
      (names.Nodup → (t.chart.Finds names ↔ ¬doc.JsonVariables names)) := by
  cases doc with
  | yaml doc =>
    obtain ⟨names, hnames, hfinds⟩ := finds_fromYaml h
    exact ⟨names, hnames, fun hnd => iff_of_true (hfinds hnd) fun h => h⟩
  | json doc =>
    obtain ⟨names, hnames, hfinds⟩ := finds_fromJson_iff h
    exact ⟨names, hnames, fun _ => hfinds.trans not_not.symm⟩

/-- A YAML chart with the variable "hp". -/
def hpYaml : YamlTree :=
  .map [("path", .scalar "AI.hp"),
    ("variables", .seq [.map [("name", .scalar "hp"), ("type", .scalar "int")]])]

/-- A JSON chart with the variable "hp". -/
def hpJson : JsonValue :=
  .object [("path", .string "AI.hp"), ("varCount", .int 1),
    ("variables", .array [.object [("name", .string "hp"), ("type", .string "int"),
      ("is_param", .bool false)]]),
    ("nodes", .array []), ("start", .array [])]

/-- In the YAML chart "hp" is found, in the JSON chart it is not. -/
theorem finds_hp : (∃ t, (fromYaml hpYaml).Returns {} true t ∧ t.chart.Finds ["hp"]) ∧
    ∃ t, (fromJson hpJson).Returns {} true t ∧ ¬t.chart.Finds ["hp"] := by
  constructor
  · have hpath : hpYaml.text? "path" = some "AI.hp" := by decide +kernel
    have hfault : hpYaml.fault? = none := by decide +kernel
    obtain ⟨t, ht, -⟩ := fromYaml_outcome hpath
    rw [hfault] at ht
    have hload : (ChartDoc.yaml hpYaml).load.Returns {} true t := ht
    obtain ⟨names, hnames, hfinds⟩ := finds_iff hload
    have hp : ChartDoc.names? (.yaml hpYaml) = some ["hp"] := by decide +kernel
    obtain rfl := Option.some.inj (hnames.symm.trans hp)
    exact ⟨t, ht, (hfinds (by decide)).mpr fun h => h⟩
  · have hchart : IsJsonChart hpJson := by decide +kernel
    obtain ⟨t, -, -, ht, -⟩ := returns_fromJson hchart
    have hload : (ChartDoc.json hpJson).load.Returns {} true t := ht
    obtain ⟨names, hnames, hfinds⟩ := finds_iff hload
    have hp : ChartDoc.names? (.json hpJson) = some ["hp"] := by decide +kernel
    obtain rfl := Option.some.inj (hnames.symm.trans hp)
    refine ⟨t, ht, fun hf => (hfinds (by decide)).mp hf ?_⟩
    rintro ⟨h, -⟩
    cases h

/-- The variable "hp" of the JSON chart is declared and not found. -/
theorem not_forall_finds : ¬∀ (doc : ChartDoc) (t : Loader) (names : List String),
    doc.load.Returns {} true t → doc.names? = some names → names.Nodup →
      t.chart.Finds names := by
  intro hall
  have hchart : IsJsonChart hpJson := by decide +kernel
  obtain ⟨t, -, -, ht, -⟩ := returns_fromJson hchart
  obtain ⟨names, hnames, hfinds⟩ := finds_fromJson_iff ht
  have hp : hpJson.names? = some ["hp"] := by decide +kernel
  obtain rfl := Option.some.inj (hnames.symm.trans hp)
  obtain ⟨h, -⟩ := hfinds.mp (hall (.json hpJson) t ["hp"] ht hp (by decide))
  cases h

end Loading

end Asyncflow
