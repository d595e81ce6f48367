import Asyncflow.Loading.Faithful
import Asyncflow.Loading.Json

/-!
# What a JSON chart is loaded to

`ChartData::FromJson` numbers the nodes in the order of the document, from 1 on, and puts a
start node in front of them. Uids become ids at three places: in `start`, in the parameters of
control nodes, and in `success` and `fail`. All of them look into one map, but the first with
`operator[]`, which puts an uid that is not there into the map under the id 0, the start node.

`Asyncflow.Loading.fromJson_faithful_iff` states that this is the only thing that goes wrong:
a chart is loaded as it is if and only if `start` names nodes only.

An uid is a C string here: what `GetString` gives of a string of the document.
-/

namespace Asyncflow

namespace Loading

open Program

/-! ### Variables -/

/-- A variable. -/
def readJsonVariable (it : JsonValue) : Load PUnit := do
  let name ← (← it.memberValue "name").getString
  let type ← (← it.memberValue "type").getString
  let isParam ← (← it.memberValue "is_param").getBool
  modify fun s =>
    { s with chart := { s.chart with vars := s.chart.vars ++ [⟨name, type, isParam⟩] } }

/-- `ChartData::InitParamsFromJson`. -/
def initParamsFromJson (params : JsonValue) : Load PUnit := do
  let items ← params.getArray
  modify fun s => { s with chart := { s.chart with vars := [] } }
  items.forM readJsonVariable
  modify fun s =>
    { s with chart := { s.chart with paramsCount := s.chart.vars.countP (·.isParams) } }

/-! ### Nodes -/

/-- `id_map[uid]`. -/
def idAt (uid : String) : Load ℕ := do
  match (← get).ids uid with
  | some i => pure i
  | none => do
    modify (·.setId uid 0)
    pure 0

/-- The numbers of the nodes. -/
def numberNodes (i : ℕ) : List JsonValue → Load PUnit
  | [] => pure ⟨⟩
  | it :: its => do
    let uid ← (← it.memberValue "uid").getString
    modify (·.setId uid i)
    numberNodes (i + 1) its

/-- The `start` of a chart. -/
def readStart (d : NodeData) : List JsonValue → Load NodeData
  | [] => pure d
  | it :: its => do
    let uid ← it.getString
    let i ← idAt uid
    let j ← idAt uid
    readStart { d with failure := d.failure ++ [i], success := d.success ++ [j] } its

/-- The ids of the uids that are in the map. -/
def readIds : List JsonValue → Load (List ℕ)
  | [] => pure []
  | it :: its => do
    let uid ← it.getString
    let i := (← get).ids uid
    let is ← readIds its
    pure (i.toList ++ is)

/-- The function names of control nodes. -/
def jsonControlFunc (name : String) : Option ControlFunc :=
  if name = "wait_all" then some .waitAll
  else if name = "stop_node" then some .stopNode
  else if name = "stop_flow" then some .stopFlow
  else none

/-- The function of a node, by its `type`. -/
def readJsonFunc (jobj : JsonValue) (name : String) (type : Option String) :
    Load (Option NodeFunc) := do
  if type = "function" ∨ type = "event" then pure (some (.script "" name))
  else if type = "control" then do
    match ← jobj.findMember "param" with
    | some params => do
      let is ← readIds (← params.getArray)
      pure ((jsonControlFunc name).map fun f => .control f (is.map Nat.cast))
    | none => pure none
  else pure none

/-- A `success` or a `fail`. -/
def readSubsequence (jobj : JsonValue) (key : String) : Load (List ℕ) := do
  match ← jobj.findMember key with
  | some m => do readIds (← m.getArray)
  | none => pure []

/-- `NodeData::InitFromJson` of a new node with the id. -/
def initFromJson (i : ℕ) (jobj : JsonValue) : Load NodeData := do
  let uid ← jobj.readMember "uid" (·.getString)
  let text ← jobj.readMember "text" (·.getString)
  let funcName ← jobj.readMember "funcName" (·.getString)
  let type ← jobj.readMember "type" (·.getString)
  let func ← readJsonFunc jobj (funcName.getD "") type
  let varId ← jobj.readMember "subChartVar" (·.getInt)
  let success ← readSubsequence jobj "success"
  let failure ← readSubsequence jobj "fail"
  pure { id := i, uid := uid.getD "", text := text.getD "", varId := varId.getD (-1), func := func,
         isEvent := type = "event", failure := failure, success := success }

/-- The second loop over the nodes, from the given id on. -/
def addJsonNodes (i : ℕ) : List JsonValue → Load PUnit
  | [] => pure ⟨⟩
  | it :: its => do
    let d ← initFromJson i it
    modify fun s => { s with chart := { s.chart with nodes := s.chart.nodes ++ [d] } }
    addJsonNodes (i + 1) its

/-- The nodes of a chart, with the start node. -/
def readJsonNodes (jobj nodes start : JsonValue) : Load PUnit := do
  let items ← nodes.getArray
  numberNodes 1 items
  let d ← readStart { id := 0 } (← start.getArray)
  let func ← jobj.readMember "start_func" (·.getString)
  let d := { d with func := func.map (.script "" ·) }
  modify fun s => { s with chart := { s.chart with
    startFuncName := func.getD s.chart.startFuncName, nodes := s.chart.nodes ++ [d] } }
  addJsonNodes 1 items

/-- `ChartData::FromJson`. -/
def fromJson (jobj : JsonValue) : Load Bool := do
  match ← jobj.findMember "path" with
  | none => pure false
  | some path => do
    let name ← path.getString
    let varCount ← jobj.readMember "varCount" (·.getInt)
    let _ ← jobj.readMember "variables" initParamsFromJson
    match ← jobj.findMember "nodes", ← jobj.findMember "start" with
    | some nodes, some start => do
      modify fun s => { s with chart :=
        { s.chart with name := name, variableCount := varCount.getD 0 } }
      readJsonNodes jobj nodes start
      pure true
    | _, _ => pure false

/-! ### Reading a document -/

namespace JsonValue

/-- A string, as the code reads it. -/
def cText? (v : JsonValue) : Option String := v.string?.map cString

/-- The text of a member. -/
def text? (v : JsonValue) (key : String) : Option String := (v.member? key).bind cText?

/-- The items of a member, none if it is not there. -/
def items (v : JsonValue) (key : String) : List JsonValue :=
  match v.member? key with
  | some (.array items) => items
  | _ => []

/-- The texts of a member. -/
def texts (v : JsonValue) (key : String) : List String := (v.items key).filterMap cText?

/-- The uids of the nodes. -/
def uids (doc : JsonValue) : List String := (doc.items "nodes").filterMap (·.text? "uid")

/-- The id of an uid: its place in the list of nodes, if it is listed. -/
def idOf (doc : JsonValue) (uid : String) : Option ℕ :=
  if uid ∈ doc.uids then some (doc.uids.idxOf uid + 1) else none

/-- An array of strings. -/
def isTexts : JsonValue → Bool
  | .array items => items.all isString
  | _ => false

/-- `IsArray`. -/
def isArray : JsonValue → Bool
  | .array _ => true
  | _ => false

/-- `IsBool`. -/
def isBool : JsonValue → Bool
  | .bool _ => true
  | _ => false

/-- A member that passes the test if it is there. -/
def Optional (v : JsonValue) (key : String) (test : JsonValue → Bool) : Prop :=
  ∀ m ∈ v.member? key, test m = true

instance (v : JsonValue) (key : String) (test : JsonValue → Bool) :
    Decidable (v.Optional key test) := by
  unfold Optional
  infer_instance

/-- A variable of a chart. -/
def isVariable (v : JsonValue) : Bool :=
  (v.text? "name").isSome && (v.text? "type").isSome && (v.member? "is_param").any isBool

/-- An array of variables. -/
def isVariables : JsonValue → Bool
  | .array items => items.all isVariable
  | _ => false

end JsonValue

/-- A node of a JSON chart. -/
@[mk_iff]
structure IsJsonNode (n : JsonValue) : Prop where
  uid : (n.text? "uid").isSome
  text : n.Optional "text" (·.isString)
  funcName : n.Optional "funcName" (·.isString)
  type : n.Optional "type" (·.isString)
  param : n.text? "type" = some "control" → n.Optional "param" (·.isTexts)
  varId : n.Optional "subChartVar" (·.isInt)
  success : n.Optional "success" (·.isTexts)
  failure : n.Optional "fail" (·.isTexts)

instance (n : JsonValue) : Decidable (IsJsonNode n) := decidable_of_iff _ (isJsonNode_iff n).symm

/-- **A chart object**: the members that the loader reads have their types, and the uids of the
nodes are distinct. -/
@[mk_iff]
structure IsJsonChart (doc : JsonValue) : Prop where
  path : (doc.text? "path").isSome
  varCount : doc.Optional "varCount" (·.isInt)
  declared : doc.Optional "variables" (·.isVariables)
  nodes : ∃ m ∈ doc.member? "nodes", m.isArray = true
  node : ∀ n ∈ doc.items "nodes", IsJsonNode n
  start : ∃ m ∈ doc.member? "start", m.isTexts = true
  startFunc : doc.Optional "start_func" (·.isString)
  uids : doc.uids.Nodup

instance (doc : JsonValue) : Decidable (IsJsonChart doc) :=
  decidable_of_iff _ (isJsonChart_iff doc).symm

/-- A node is loaded as it is: with its uid, and with the ids of the listed uids of its arrays. -/
structure LoadedAs (ids : String → Option ℕ) (n : JsonValue × ℕ) (d : NodeData) : Prop where
  id : d.id = n.2
  uid : n.1.text? "uid" = some d.uid
  success : d.success = (n.1.texts "success").filterMap ids
  failure : d.failure = (n.1.texts "fail").filterMap ids

/-- **The chart data is what the chart object describes.** -/
structure JsonFaithful (doc : JsonValue) (data : ChartData) : Prop where
  /-- Node 0 leads to the nodes of `start`. -/
  start : ∃ d ∈ data.nodes.head?, d.id = 0 ∧
    d.success = (doc.texts "start").filterMap doc.idOf ∧
    d.failure = (doc.texts "start").filterMap doc.idOf
  /-- The nodes of the object follow in order. -/
  nodes : List.Forall₂ (LoadedAs doc.idOf) ((doc.items "nodes").zipIdx 1) data.nodes.tail
  /-- No edge leads to the start node. -/
  noStart : ∀ d ∈ data.nodes, 0 ∉ d.success ∧ 0 ∉ d.failure

/-! ### The members -/

section Members

variable {v : JsonValue} {key : String} {s : Loader} {α : Type}
  {read : JsonValue → Program Abort Loader α}

theorem returns_findMember (hv : v.isObject) (key : String) :
    (v.findMember key : Load _).Returns s (v.member? key) s :=
  JsonValue.returns_findMember_iff.mpr ⟨hv, rfl, rfl⟩

theorem returns_cText {m : JsonValue} (hm : m.isString) :
    ∃ text, m.cText? = some text ∧ (m.getString : Load String).Returns s text s := by
  cases m with
  | string text => exact ⟨cString text, rfl, returns_pure _ s⟩
  | null | bool | double | int | array | object => cases hm

/-- A text that is read if it is there. -/
theorem returns_readText (hv : v.isObject) (h : v.Optional key (·.isString)) :
    (v.readMember key (·.getString) : Load _).Returns s (v.text? key) s := by
  refine (returns_findMember hv key).bind ?_
  cases hm : v.member? key with
  | none =>
    rw [JsonValue.text?, hm]
    exact returns_pure _ s
  | some m =>
    obtain ⟨text, htext, hret⟩ := returns_cText (s := s) (h m hm)
    have htext : v.text? key = some text := by rw [JsonValue.text?, hm]; exact htext
    rw [htext]
    exact hret.bind (returns_pure _ s)

/-- A number that is read if it is there. -/
theorem returns_readInt (hv : v.isObject) (h : v.Optional key (·.isInt)) :
    ∃ n, (v.readMember key (·.getInt) : Load _).Returns s n s := by
  cases hm : v.member? key with
  | none =>
    refine ⟨none, (returns_findMember hv key).bind ?_⟩
    rw [hm]
    exact returns_pure _ s
  | some m =>
    have hint := h m hm
    cases m with
    | int n =>
      have hn : JsonValue.int? (.int n) = some n := by
        rw [JsonValue.int?, if_pos (JsonValue.isInt_int.mp hint)]
      refine ⟨some n, (returns_findMember hv key).bind ?_⟩
      rw [hm]
      exact (JsonValue.returns_getInt_iff.mpr ⟨hn, rfl⟩).bind (returns_pure _ s)
    | null | bool | double | string | array | object => cases hint

theorem isObject_of_text? {text : String} (h : v.text? key = some text) : v.isObject := by
  obtain ⟨m, hm, -⟩ := Option.bind_eq_some_iff.mp h
  exact JsonValue.isObject_of_member? hm

/-- An array of strings. -/
theorem exists_of_isTexts {m : JsonValue} (h : m.isTexts = true) :
    ∃ its, m = .array its ∧ ∀ it ∈ its, it.isString = true := by
  cases m with
  | array its => exact ⟨its, rfl, List.all_eq_true.mp h⟩
  | null | bool | double | int | string | object => cases h

end Members

/-! ### Uids and ids -/

section Uids

variable {s : Loader} {its : List JsonValue} {i : ℕ} {d : NodeData} {ids : String → Option ℕ}
  {us : List String} {u : String}

/-- The map after the nodes have been numbered. -/
def numbered (ids : String → Option ℕ) (us : List String) (i : ℕ) (u : String) : Option ℕ :=
  if u ∈ us then some (us.idxOf u + i) else ids u

theorem returns_numberNodes (hits : ∀ it ∈ its, (it.text? "uid").isSome)
    (hnd : (its.filterMap (·.text? "uid")).Nodup) :
    (numberNodes i its).Returns s ⟨⟩
      { s with ids := numbered s.ids (its.filterMap (·.text? "uid")) i } := by
  induction its generalizing i s with
  | nil => exact returns_pure _ s
  | cons it its ih =>
    obtain ⟨uid, huid⟩ := Option.isSome_iff_exists.mp (hits it List.mem_cons_self)
    have hcons : (it :: its).filterMap (·.text? "uid") = uid :: its.filterMap (·.text? "uid") :=
      List.filterMap_cons_some huid
    rw [hcons] at hnd ⊢
    obtain ⟨hnew, hnd⟩ := List.nodup_cons.mp hnd
    obtain ⟨m, hm, htext⟩ := Option.bind_eq_some_iff.mp huid
    refine (JsonValue.returns_memberValue_iff.mpr ⟨hm, rfl⟩).bind ?_
    refine (JsonValue.returns_getString_iff.mpr ⟨htext, rfl⟩).bind ?_
    refine (returns_modify _ s).bind ?_
    have hrest := ih (i := i + 1) (s := s.setId uid i)
      (fun it hit => hits it (List.mem_cons_of_mem _ hit)) hnd
    have hids : numbered (Function.update s.ids uid (some i)) (its.filterMap (·.text? "uid"))
        (i + 1) = numbered s.ids (uid :: its.filterMap (·.text? "uid")) i := by
      funext v
      unfold numbered
      rcases eq_or_ne v uid with rfl | hne
      · rw [if_pos List.mem_cons_self, if_neg hnew, Function.update_self, List.idxOf_cons_self]
        simp
      · rw [Function.update_of_ne hne, List.idxOf_cons_ne _ hne.symm]
        simp only [List.mem_cons, hne, false_or]
        split_ifs
        · congr 1
          omega
        · rfl
    rw [← hids]
    exact hrest

/-- The map after `start` has been read: the uids that are not listed have the id 0. -/
def withStart (ids : String → Option ℕ) (us : List String) (u : String) : Option ℕ :=
  (ids u).or (if u ∈ us then some 0 else none)

theorem returns_idAt (s : Loader) (u : String) :
    (idAt u).Returns s ((s.ids u).getD 0) { s with ids := withStart s.ids [u] } := by
  refine (returns_get s).bind ?_
  cases hu : s.ids u with
  | none =>
    have hids : withStart s.ids [u] = Function.update s.ids u (some 0) := by
      funext v
      rcases eq_or_ne v u with rfl | hne
      · simp [withStart, hu]
      · simp [withStart, hne]
    rw [hids]
    exact (returns_modify _ s).bind (returns_pure 0 _)
  | some i =>
    have hids : withStart s.ids [u] = s.ids := by
      funext v
      rcases eq_or_ne v u with rfl | hne
      · simp [withStart, hu]
      · simp [withStart, hne]
    rw [hids]
    exact returns_pure i s

theorem withStart_withStart (ids : String → Option ℕ) (us vs : List String) :
    withStart (withStart ids us) vs = withStart ids (us ++ vs) := by
  funext v
  unfold withStart
  cases ids v with
  | some i => rfl
  | none =>
    simp only [Option.none_or, List.mem_append]
    split_ifs <;> simp_all

theorem withStart_getD (ids : String → Option ℕ) (us : List String) (u : String) :
    (withStart ids us u).getD 0 = (ids u).getD 0 := by
  unfold withStart
  cases ids u with
  | some i => rfl
  | none => split_ifs <;> rfl

/-- **The start node** has an edge for every uid of `start`, to the start node itself if the uid
is not listed. -/
theorem returns_readStart (hits : ∀ it ∈ its, it.isString = true) :
    (readStart d its).Returns s
      { d with
        failure := d.failure ++ (its.filterMap JsonValue.cText?).map fun u => (s.ids u).getD 0
        success := d.success ++ (its.filterMap JsonValue.cText?).map fun u => (s.ids u).getD 0 }
      { s with ids := withStart s.ids (its.filterMap JsonValue.cText?) } := by
  induction its generalizing d s with
  | nil =>
    have hids : withStart s.ids [] = s.ids := by
      funext v
      simp [withStart]
    rw [List.filterMap_nil, List.map_nil, List.append_nil, List.append_nil, hids]
    exact returns_pure d s
  | cons it its ih =>
    obtain ⟨uid, huid, hret⟩ := returns_cText (s := s) (hits it List.mem_cons_self)
    rw [List.filterMap_cons_some huid]
    have hagain := returns_idAt { s with ids := withStart s.ids [uid] } uid
    rw [withStart_getD] at hagain
    refine hret.bind ((returns_idAt s uid).bind (hagain.bind ?_))
    have hrest := ih (s := { s with ids := withStart (withStart s.ids [uid]) [uid] })
      (d := { d with
        failure := d.failure ++ [(s.ids uid).getD 0]
        success := d.success ++ [(s.ids uid).getD 0] })
      fun it hit => hits it (List.mem_cons_of_mem _ hit)
    have hids : withStart (withStart (withStart s.ids [uid]) [uid])
      (its.filterMap JsonValue.cText?) =
        withStart s.ids (uid :: its.filterMap JsonValue.cText?) := by
      rw [withStart_withStart, withStart_withStart]
      funext v
      simp [withStart]
    simp only [hids, withStart_getD, List.append_assoc, List.singleton_append] at hrest
    rw [List.map_cons]
    exact hrest

theorem returns_readIds (hits : ∀ it ∈ its, it.isString = true) :
    (readIds its).Returns s ((its.filterMap JsonValue.cText?).filterMap s.ids) s := by
  induction its with
  | nil => exact returns_pure _ s
  | cons it its ih =>
    obtain ⟨uid, huid, hret⟩ := returns_cText (s := s) (hits it List.mem_cons_self)
    rw [List.filterMap_cons_some huid]
    refine hret.bind ((returns_get s).bind ?_)
    refine (ih fun it hit => hits it (List.mem_cons_of_mem _ hit)).bind ?_
    rw [List.filterMap_cons]
    cases s.ids uid <;> exact returns_pure _ s

end Uids

/-! ### Nodes -/

section JsonNodes

variable {s : Loader} {n doc : JsonValue} {its : List JsonValue} {i : ℕ} {key : String}

theorem returns_readSubsequence (hn : n.isObject) (h : n.Optional key (·.isTexts)) :
    (readSubsequence n key).Returns s ((n.texts key).filterMap s.ids) s := by
  refine (returns_findMember hn key).bind ?_
  unfold JsonValue.texts JsonValue.items
  cases hm : n.member? key with
  | none => exact returns_pure _ s
  | some m =>
    obtain ⟨its, rfl, hits⟩ := exists_of_isTexts (h m hm)
    exact (JsonValue.returns_getArray_iff.mpr ⟨rfl, rfl⟩).bind (returns_readIds hits)

theorem returns_readJsonFunc (hn : IsJsonNode n) (name : String) :
    ∃ func, (readJsonFunc n name (n.text? "type")).Returns s func s := by
  obtain ⟨uid, huid⟩ := Option.isSome_iff_exists.mp hn.uid
  unfold readJsonFunc
  split_ifs with hf hc
  · exact ⟨_, returns_pure _ s⟩
  · cases hm : n.member? "param" with
    | none =>
      refine ⟨none, (returns_findMember (isObject_of_text? huid) _).bind ?_⟩
      rw [hm]
      exact returns_pure _ s
    | some m =>
      obtain ⟨its, rfl, hits⟩ := exists_of_isTexts (hn.param hc m hm)
      refine ⟨(jsonControlFunc name).map fun f =>
        .control f (((its.filterMap JsonValue.cText?).filterMap s.ids).map Nat.cast),
        (returns_findMember (isObject_of_text? huid) _).bind ?_⟩
      rw [hm]
      refine (JsonValue.returns_getArray_iff.mpr ⟨rfl, rfl⟩).bind ?_
      exact (returns_readIds hits).bind (returns_pure _ s)
  · exact ⟨_, returns_pure _ s⟩

/-- **A node is loaded as it is**, with the ids of the map. -/
theorem returns_initFromJson (hn : IsJsonNode n) (i : ℕ) :
    ∃ d, (initFromJson i n).Returns s d s ∧ LoadedAs s.ids (n, i) d := by
  obtain ⟨uid, huid⟩ := Option.isSome_iff_exists.mp hn.uid
  have hobj := isObject_of_text? huid
  have huids : n.Optional "uid" (·.isString) := by
    intro m hm
    rw [JsonValue.text?, hm] at huid
    cases m with
    | string => rfl
    | null | bool | double | int | array | object => cases huid
  obtain ⟨func, hfunc⟩ := returns_readJsonFunc (s := s) hn ((n.text? "funcName").getD "")
  obtain ⟨varId, hvar⟩ := returns_readInt (s := s) hobj hn.varId
  refine ⟨_, (returns_readText hobj huids).bind <| (returns_readText hobj hn.text).bind <|
    (returns_readText hobj hn.funcName).bind <| (returns_readText hobj hn.type).bind <|
    hfunc.bind <| hvar.bind <| (returns_readSubsequence hobj hn.success).bind <|
    (returns_readSubsequence hobj hn.failure).bind <| returns_pure _ s, ?_⟩
  exact ⟨rfl, by rw [huid]; rfl, rfl, rfl⟩

/-- **The nodes are loaded as they are**, one after the other. -/
theorem returns_addJsonNodes (hits : ∀ n ∈ its, IsJsonNode n) (i : ℕ) :
    ∃ ds, (addJsonNodes i its).Returns s ⟨⟩
        { s with chart := { s.chart with nodes := s.chart.nodes ++ ds } } ∧
      List.Forall₂ (LoadedAs s.ids) (its.zipIdx i) ds := by
  induction its generalizing i s with
  | nil =>
    refine ⟨[], ?_, .nil⟩
    rw [List.append_nil]
    exact returns_pure _ s
  | cons n its ih =>
    obtain ⟨d, hd, hload⟩ := returns_initFromJson (s := s) (hits n List.mem_cons_self) i
    obtain ⟨ds, hds, hloads⟩ := ih
      (s := { s with chart := { s.chart with nodes := s.chart.nodes ++ [d] } })
      (fun n hn => hits n (List.mem_cons_of_mem _ hn)) (i + 1)
    refine ⟨d :: ds, hd.bind ((returns_modify _ s).bind ?_), .cons hload hloads⟩
    have happ : s.chart.nodes ++ d :: ds = s.chart.nodes ++ [d] ++ ds := by simp
    rw [happ]
    exact hds

end JsonNodes

/-! ### Charts -/

section JsonChart

variable {s : Loader} {doc v : JsonValue}

/-- A variable of the document goes to the chart. -/
theorem returns_readJsonVariable (hv : v.isVariable = true) :
    ∃ t, (readJsonVariable v).Returns s ⟨⟩ t ∧ t.ids = s.ids ∧ t.chart.nodes = s.chart.nodes := by
  unfold JsonValue.isVariable at hv
  simp only [Bool.and_eq_true] at hv
  obtain ⟨⟨hname, htype⟩, hparam⟩ := hv
  obtain ⟨name, hname⟩ := Option.isSome_iff_exists.mp hname
  obtain ⟨type, htype⟩ := Option.isSome_iff_exists.mp htype
  obtain ⟨m, hm, hbool⟩ := (Option.any_eq_true _ _).mp hparam
  cases m with
  | bool b =>
    obtain ⟨nm, hnm, hname⟩ := Option.bind_eq_some_iff.mp hname
    obtain ⟨tm, htm, htype⟩ := Option.bind_eq_some_iff.mp htype
    refine ⟨_, (JsonValue.returns_memberValue_iff.mpr ⟨hnm, rfl⟩).bind <|
      (JsonValue.returns_getString_iff.mpr ⟨hname, rfl⟩).bind <|
      (JsonValue.returns_memberValue_iff.mpr ⟨htm, rfl⟩).bind <|
      (JsonValue.returns_getString_iff.mpr ⟨htype, rfl⟩).bind <|
      (JsonValue.returns_memberValue_iff.mpr ⟨hm, rfl⟩).bind <|
      (returns_pure b s).bind <| returns_modify _ s, rfl, rfl⟩
  | null | int | double | string | array | object => cases hbool

theorem returns_initParamsFromJson (hv : v.isVariables = true) :
    ∃ t, (initParamsFromJson v).Returns s ⟨⟩ t ∧ t.ids = s.ids ∧ t.chart.nodes = s.chart.nodes := by
  cases v with
  | array its =>
    have hits := List.all_eq_true.mp hv
    obtain ⟨t, ht, hids, hnodes⟩ := returns_forM (g := readJsonVariable)
      (I := fun _ t => t.ids = s.ids ∧ t.chart.nodes = s.chart.nodes)
      (s := { s with chart := { s.chart with vars := [] } }) its ⟨rfl, rfl⟩ (by
        rintro done v rest hbs t ⟨hids, hnodes⟩
        obtain ⟨u, hu, hids', hnodes'⟩ := returns_readJsonVariable (s := t) (hits v (by simp [hbs]))
        exact ⟨u, hu, hids'.trans hids, hnodes'.trans hnodes⟩)
    exact ⟨_, (returns_pure its s).bind <| (returns_modify _ s).bind <| ht.bind <|
      returns_modify _ t, hids, hnodes⟩
  | null | bool | double | int | string | object => cases hv

/-- The variables of a chart, if it has any. -/
theorem returns_readVariablesMember (hdoc : doc.isObject)
    (hv : doc.Optional "variables" (·.isVariables)) :
    ∃ o t, (doc.readMember "variables" initParamsFromJson).Returns s o t ∧ t.ids = s.ids ∧
      t.chart.nodes = s.chart.nodes := by
  cases hm : doc.member? "variables" with
  | none =>
    refine ⟨none, s, (returns_findMember hdoc _).bind ?_, rfl, rfl⟩
    rw [hm]
    exact returns_pure _ s
  | some m =>
    obtain ⟨t, ht, hrest⟩ := returns_initParamsFromJson (s := s) (hv m hm)
    refine ⟨some ⟨⟩, t, (returns_findMember hdoc _).bind ?_, hrest⟩
    rw [hm]
    exact ht.bind (returns_pure _ t)

/-- The nodes of a chart object are loaded. -/
theorem returns_readJsonNodes {its sits : List JsonValue} (h : IsJsonChart doc)
    (hits : doc.items "nodes" = its) (hsits : ∀ it ∈ sits, it.isString = true)
    (hids : s.ids = fun _ => none) (hnodes : s.chart.nodes = []) :
    ∃ t d ds, (readJsonNodes doc (.array its) (.array sits)).Returns s ⟨⟩ t ∧
      t.chart.nodes = d :: ds ∧ d.id = 0 ∧
      d.success = (sits.filterMap JsonValue.cText?).map (fun u => (doc.idOf u).getD 0) ∧
      d.failure = (sits.filterMap JsonValue.cText?).map (fun u => (doc.idOf u).getD 0) ∧
      List.Forall₂ (LoadedAs (withStart doc.idOf (sits.filterMap JsonValue.cText?)))
        (its.zipIdx 1) ds := by
  obtain ⟨name, hname⟩ := Option.isSome_iff_exists.mp h.path
  have hnd : (its.filterMap (·.text? "uid")).Nodup := by
    rw [← hits]
    exact h.uids
  have hmap : numbered s.ids (its.filterMap (·.text? "uid")) 1 = doc.idOf := by
    rw [hids, ← hits]
    rfl
  have hnum := returns_numberNodes (s := s) (i := 1)
    (fun n hn => (h.node n (hits ▸ hn)).uid) hnd
  rw [hmap] at hnum
  have hstart := returns_readStart (s := { s with ids := doc.idOf }) (d := { id := 0 }) hsits
  rw [List.nil_append] at hstart
  have hfunc := returns_readText
    (s := { s with ids := withStart doc.idOf (sits.filterMap JsonValue.cText?) })
    (isObject_of_text? hname) h.startFunc
  let edges := (sits.filterMap JsonValue.cText?).map fun u => (doc.idOf u).getD 0
  let d : NodeData :=
    { id := 0
      failure := edges
      success := edges
      func := (doc.text? "start_func").map (.script "" ·) }
  let u : Loader := { s with
    chart := { s.chart with
      startFuncName := (doc.text? "start_func").getD s.chart.startFuncName
      nodes := s.chart.nodes ++ [d] }
    ids := withStart doc.idOf (sits.filterMap JsonValue.cText?) }
  obtain ⟨ds, hds, hload⟩ := returns_addJsonNodes (s := u) (fun n hn => h.node n (hits ▸ hn)) 1
  refine ⟨_, d, ds, (returns_pure its s).bind <| hnum.bind <| (returns_pure sits _).bind <|
    hstart.bind <| hfunc.bind <| Returns.bind (returns_modify _ _) hds, ?_, rfl, rfl, rfl, hload⟩
  change s.chart.nodes ++ [d] ++ ds = d :: ds
  rw [hnodes]
  rfl

/-- **What a chart object is loaded to**: unlisted uids of `start` count as the start node. -/
theorem returns_fromJson (h : IsJsonChart doc) : ∃ t d ds, (fromJson doc).Returns {} true t ∧
    t.chart.nodes = d :: ds ∧ d.id = 0 ∧
    d.success = (doc.texts "start").map (fun u => (doc.idOf u).getD 0) ∧
    d.failure = (doc.texts "start").map (fun u => (doc.idOf u).getD 0) ∧
    List.Forall₂ (LoadedAs (withStart doc.idOf (doc.texts "start")))
      ((doc.items "nodes").zipIdx 1) ds := by
  obtain ⟨name, hname⟩ := Option.isSome_iff_exists.mp h.path
  have hdoc := isObject_of_text? hname
  obtain ⟨path, hpath, hname⟩ := Option.bind_eq_some_iff.mp hname
  obtain ⟨count, hcount⟩ := returns_readInt (s := ({ } : Loader)) hdoc h.varCount
  obtain ⟨o, s, hvars, hids, hnodes⟩ :=
    returns_readVariablesMember (s := ({ } : Loader)) hdoc h.declared
  obtain ⟨nodes, hnodesm, harray⟩ := h.nodes
  obtain ⟨start, hstartm, htexts⟩ := h.start
  obtain ⟨sits, rfl, hsits⟩ := exists_of_isTexts htexts
  cases nodes with
  | array its =>
    have hits : doc.items "nodes" = its := by
      unfold JsonValue.items
      rw [hnodesm]
    have hstarts : doc.texts "start" = sits.filterMap JsonValue.cText? := by
      unfold JsonValue.texts JsonValue.items
      rw [hstartm]
    rw [hstarts, hits]
    obtain ⟨t, d, ds, ht, hrest⟩ := returns_readJsonNodes (s := { s with chart :=
      { s.chart with name := name, variableCount := count.getD 0 } }) h hits hsits hids hnodes
    refine ⟨t, d, ds, ?_, hrest⟩
    refine (returns_findMember hdoc _).bind ?_
    rw [hpath]
    refine (JsonValue.returns_getString_iff.mpr ⟨hname, rfl⟩).bind <| hcount.bind <| hvars.bind ?_
    refine (returns_findMember hdoc _).bind <| (returns_findMember hdoc _).bind ?_
    rw [hnodesm, hstartm]
    exact (returns_modify _ s).bind (ht.bind (returns_pure _ t))
  | null | bool | double | int | string | object => cases harray

theorem zero_notMem_idOf (us : List String) : 0 ∉ us.filterMap doc.idOf := by
  intro hmem
  obtain ⟨u, -, hu⟩ := List.mem_filterMap.mp hmem
  unfold JsonValue.idOf at hu
  split_ifs at hu
  have := Option.some.inj hu
  omega

/-- Listed nodes have no edge to the start node. -/
theorem noStart_of_loaded {ns : List (JsonValue × ℕ)} {ds : List NodeData}
    (h : List.Forall₂ (LoadedAs doc.idOf) ns ds) : ∀ e ∈ ds, 0 ∉ e.success ∧ 0 ∉ e.failure := by
  induction h with
  | nil => exact nofun
  | cons hn _ ih =>
    intro e he
    rcases List.mem_cons.mp he with rfl | he
    · rw [hn.success, hn.failure]
      exact ⟨zero_notMem_idOf _, zero_notMem_idOf _⟩
    · exact ih e he

/-- **A chart object is loaded as it is if and only if `start` names nodes only.** -/
theorem fromJson_faithful_iff (h : IsJsonChart doc) :
    (∃ t, (fromJson doc).Returns {} true t ∧ JsonFaithful doc t.chart) ↔
      ∀ u ∈ doc.texts "start", u ∈ doc.uids := by
  obtain ⟨t, d, ds, ht, hnodes, hid, hsucc, hfail, hload⟩ := returns_fromJson h
  constructor
  · rintro ⟨t', ht', hfaith⟩ u hu
    obtain ⟨-, rfl⟩ := ht.unique ht'
    by_contra hnot
    -- The start node has an edge to itself.
    have hzero : 0 ∈ d.success := by
      rw [hsucc]
      refine List.mem_map.mpr ⟨u, hu, ?_⟩
      rw [JsonValue.idOf, if_neg hnot]
      rfl
    exact (hfaith.noStart d (by rw [hnodes]; exact List.mem_cons_self)).1 hzero
  · intro hlisted
    have hids : withStart doc.idOf (doc.texts "start") = doc.idOf := by
      funext u
      unfold withStart
      cases hu : doc.idOf u with
      | some i => rfl
      | none =>
        rw [Option.none_or, if_neg]
        intro hmem
        rw [JsonValue.idOf, if_pos (hlisted u hmem)] at hu
        cases hu
    have hstart : (doc.texts "start").map (fun u => (doc.idOf u).getD 0) =
        (doc.texts "start").filterMap doc.idOf := by
      rw [← List.filterMap_eq_map]
      refine List.filterMap_congr fun u hu => ?_
      rw [Function.comp_apply, JsonValue.idOf, if_pos (hlisted u hu)]
      rfl
    rw [hids] at hload
    rw [hstart] at hsucc hfail
    refine ⟨t, ht, ⟨d, by rw [hnodes]; rfl, hid, hsucc, hfail⟩, by rw [hnodes]; exact hload, ?_⟩
    intro e he
    rw [hnodes] at he
    rcases List.mem_cons.mp he with rfl | he
    · rw [hsucc, hfail]
      exact ⟨zero_notMem_idOf _, zero_notMem_idOf _⟩
    · exact noStart_of_loaded hload e he

/-- A chart object of which node "b" leads back to node "a" and to an uid that is not listed. -/
def sampleChart (start : List JsonValue) : JsonValue :=
  .object [("path", .string "AI.sample"),
    ("nodes", .array [
      .object [("uid", .string "a"), ("type", .string "function"), ("funcName", .string "run"),
        ("success", .array [.string "b"])],
      .object [("uid", .string "b"), ("type", .string "control"), ("funcName", .string "wait_all"),
        ("param", .array [.string "a"]), ("success", .array [.string "a", .string "x"])]]),
    ("start", .array start)]

/-- It is loaded as it is if it starts with "a". -/
theorem fromJson_sample : ∃ t, (fromJson (sampleChart [.string "a"])).Returns {} true t ∧
    JsonFaithful (sampleChart [.string "a"]) t.chart :=
  (fromJson_faithful_iff (by decide +kernel)).mpr (by decide +kernel)

/-- If it starts with "x", the start node and node "b" lead to the start node. -/
theorem not_forall_fromJson_faithful : ¬∀ doc : JsonValue, IsJsonChart doc →
    ∃ t, (fromJson doc).Returns {} true t ∧ JsonFaithful doc t.chart := by
  intro hall
  have hchart : IsJsonChart (sampleChart [.string "x"]) := by decide +kernel
  obtain ⟨t, d, ds, ht, hnodes, -, hsucc, -, -⟩ := returns_fromJson hchart
  obtain ⟨t', ht', hfaith⟩ := hall _ hchart
  obtain ⟨-, rfl⟩ := ht.unique ht'
  have hno := (hfaith.noStart d (by rw [hnodes]; exact List.mem_cons_self)).1
  rw [hsucc] at hno
  exact absurd (by decide +kernel) hno

end JsonChart

end Loading

end Asyncflow
