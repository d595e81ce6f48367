import Asyncflow.Core.Data

/-!
# Loading and patching chart data

`Asyncflow.fromYaml` is `ChartData::FromYaml` on a document that the parser has read,
`Asyncflow.ChartData.patchFromYaml` is `ChartData::PatchFromYaml`, and
`Asyncflow.fromJson` is `ChartData::FromJson`. The two functions on YAML documents have
the value `none` where the C++ code dereferences the end of a map, or `std::stoi` throws;
otherwise they say whether they succeed, with the data they leave behind.

The loaders with everything they read and write are in `Asyncflow.Loading`, where it is proved that
they agree with these (`Asyncflow.Loading.fromYaml_forget`, `Asyncflow.Loading.fromJson_forget` and
`Asyncflow.Loading.patchFromYaml_forget`).
-/

namespace Asyncflow

/-! ### Documents -/

/-- The `code` of a node of a YAML chart. -/
inductive YamlCode
  /-- `FUNC`, or `EVENT`. -/
  | func (isEvent : Bool)
  /-- `CONTROL`, with its `content`. -/
  | control (content : List String)
  /-- `ERROR`. -/
  | error
  /-- Any other type. -/
  | other
deriving DecidableEq, Repr

/-- A node of a YAML chart. -/
structure YamlNode where
  /-- `uid`. -/
  uid : String
  /-- `no_loop_check`, if it is there. -/
  noLoopCheck : Option Bool := none
  /-- `code`, if it is there. -/
  code : Option YamlCode := none
deriving DecidableEq, Repr

/-- A connector of a YAML chart. -/
structure YamlConnector where
  /-- `start`. -/
  start : String
  /-- `end`. -/
  target : String
  /-- `type`; `none` when it is not a number. -/
  type : Option ℤ
deriving DecidableEq, Repr

/-- A document of a YAML stream. -/
structure YamlChart where
  /-- `path`. -/
  path : String
  /-- `nodes`. -/
  nodes : List YamlNode := []
  /-- `connectors`. -/
  connectors : List YamlConnector := []
deriving DecidableEq, Repr

/-- The `type` of a node of a JSON chart. -/
inductive JsonType
  /-- `function`, or `event`. -/
  | func (isEvent : Bool)
  /-- `control`, with `funcName` and `param`. -/
  | control (funcName : String) (params : Option (List String))
  /-- Any other type. -/
  | other
deriving DecidableEq, Repr

/-- A node of a JSON chart. -/
structure JsonNode where
  /-- `uid`. -/
  uid : String
  /-- `type`, if it is there. -/
  type : Option JsonType := none
  /-- `success`. -/
  success : List String := []
  /-- `fail`. -/
  fail : List String := []
deriving DecidableEq, Repr

/-- A chart of a JSON array. -/
structure JsonChart where
  /-- `path`. -/
  path : Option String
  /-- `nodes`. -/
  nodes : Option (List JsonNode)
  /-- `start`. -/
  start : Option (List String)
  /-- `start_func`. -/
  startFunc : Option String := none
deriving DecidableEq, Repr

/-- An `id_map`. -/
abbrev IdMap := String → Option ℕ

/-! ### Nodes -/

/-- `UuidUtil::NtoD`: the dashes of an uid. -/
def ntoD (n : String) : String :=
  let d := n.toList
  String.ofList (d.take 8 ++ '-' :: (d.drop 8).take 4 ++ '-' :: (d.drop 12).take 4 ++
    '-' :: (d.drop 16).take 4 ++ '-' :: d.drop 20)

/-- The ids of the parameters of a control node, if all of them are known. -/
def controlParams (ids : IdMap) (params : List String) : Option (List ℤ) :=
  params.mapM fun p => (ids (if p.length = 32 then ntoD p else p)).map Nat.cast

/-- The function of a control node. -/
def controlFunc (name : String) (params : List ℤ) : Option NodeFunc :=
  if name = "stopflow" then some (.stopFlow params)
  else if name = "stopnode" then some (.stopNode params)
  else if name = "waitall" then some (.waitAll params)
  else none

/-- The `code` part of `NodeData::InitFromYaml`. -/
def NodeData.initCode (ids : IdMap) (code : Option YamlCode) (d : NodeData) : Bool × NodeData :=
  match code with
  | none | some .other | some (.control []) => (true, d)
  | some (.func isEvent) => (true, { d with func := .script, isEvent := isEvent })
  | some (.control (name :: params)) =>
    match controlParams ids params with
    | some ps => (true, { d with func := (controlFunc name ps).getD d.func })
    | none => (false, d)
  | some .error => (false, d)

/-- `NodeData::InitFromYaml` of the node with the id. -/
def NodeData.initFromYaml (ids : IdMap) (id : ℕ) (doc : YamlNode) (d : NodeData) :
    Bool × NodeData :=
  let d := { d with uid := doc.uid }
  if id = 0 then (true, d)
  else
    ({ d with noLoopCheck := doc.noLoopCheck.getD d.noLoopCheck } : NodeData).initCode ids doc.code

/-- `NodeData::AddSubsequence`. -/
def NodeData.addSubsequence (id : ℕ) (type : ℤ) (d : NodeData) : NodeData :=
  if type = 0 then { d with failure := d.failure ++ [id] }
  else if type = 1 then { d with success := d.success ++ [id] }
  else if type = 2 then { d with failure := d.failure ++ [id], success := d.success ++ [id] }
  else d

/-- A connector. -/
def connect (ids : IdMap) (k : YamlConnector) (nodes : List NodeData) : Option (List NodeData) :=
  match k.type, ids k.start, ids k.target with
  | some type, some i, some j => some (nodes.modify i (·.addSubsequence j type))
  | _, _, _ => none

/-- The connectors of a document. -/
def connectAll (ids : IdMap) (ks : List YamlConnector) (nodes : List NodeData) :
    Option (List NodeData) :=
  ks.foldlM (fun nodes k => connect ids k nodes) nodes

/-! ### YAML charts -/

/-- The second loop of `ChartData::FromYaml` over the nodes, from the given id on. It ends
with the first node that cannot be read. -/
def initNodes (ids : IdMap) (id : ℕ) : List YamlNode → Bool × List NodeData
  | [] => (true, [])
  | doc :: docs =>
    let ids := Function.update ids doc.uid (some id)
    let r := NodeData.initFromYaml ids id doc { uid := doc.uid }
    if r.1 then
      let rs := initNodes ids (id + 1) docs
      (rs.1, r.2 :: rs.2)
    else (false, r.2 :: docs.map fun doc => { uid := doc.uid })

/-- The `id_map` of the nodes of a document: of several nodes with an uid the last one. -/
def yamlIds (docs : List YamlNode) : IdMap := fun uid =>
  (docs.zipIdx.reverse.find? fun p => p.1.uid = uid).map (·.2)

/-- `ChartData::FromYaml`. -/
def fromYaml (doc : YamlChart) : Option (Bool × ChartData) :=
  let r := initNodes (yamlIds doc.nodes) 0 doc.nodes
  if r.1 then
    (connectAll (yamlIds doc.nodes) doc.connectors r.2).map fun nodes =>
      (true, { name := doc.path, nodes := nodes })
  else some (false, { name := doc.path, nodes := r.2 })

/-! ### Patches -/

/-- The id of the first node with the uid. -/
def indexOf (nodes : List NodeData) : IdMap := fun uid => nodes.findIdx? (·.uid = uid)

/-- The first loop of `ChartData::PatchFromYaml`: the unknown nodes are appended. -/
def appendNodes (docs : List YamlNode) (nodes : List NodeData) : List NodeData :=
  docs.foldl (fun nodes doc =>
    if (indexOf nodes doc.uid).isSome then nodes else nodes ++ [{ uid := doc.uid }]) nodes

/-- A round of the second loop of `ChartData::PatchFromYaml`: the node loses its successors
and is read again. -/
def patchNode (r : Bool × List NodeData) (doc : YamlNode) : Bool × List NodeData :=
  match indexOf r.2 doc.uid with
  | none => r
  | some i =>
    let clear (d : NodeData) : NodeData := { d with success := [], failure := [] }
    let init (d : NodeData) := NodeData.initFromYaml (indexOf r.2) i doc (clear d)
    (r.1 && ((r.2[i]?).all fun d => (init d).1), r.2.modify i fun d => (init d).2)

/-- `ChartData::PatchFromYaml`. -/
def ChartData.patchFromYaml (doc : YamlChart) (data : ChartData) : Option (Bool × ChartData) :=
  let r := doc.nodes.foldl patchNode (true, appendNodes doc.nodes data.nodes)
  (connectAll (indexOf r.2) doc.connectors r.2).map fun nodes => (r.1, { data with nodes := nodes })

/-! ### JSON charts -/

/-- The function of a control node. -/
def jsonControlFunc (name : String) (params : List ℤ) : NodeFunc :=
  if name = "wait_all" then .waitAll params
  else if name = "stop_node" then .stopNode params
  else if name = "stop_flow" then .stopFlow params
  else .null

/-- `NodeData::InitFromJson`: an uid that is not known is left out. -/
def NodeData.initFromJson (ids : IdMap) (doc : JsonNode) : NodeData :=
  let d : NodeData :=
    { uid := doc.uid, success := doc.success.filterMap ids, failure := doc.fail.filterMap ids }
  match doc.type with
  | some (.func isEvent) => { d with func := .script, isEvent := isEvent }
  | some (.control name (some params)) =>
    { d with func := jsonControlFunc name ((params.filterMap ids).map Nat.cast) }
  | some (.control _ none) | some .other | none => d

/-- The successors of the start node. An uid that is not known is added to the map with
the id of the start node. -/
def startIds (ids : IdMap) : List String → IdMap × List ℕ
  | [] => (ids, [])
  | uid :: uids =>
    let i := (ids uid).getD 0
    let r := startIds (Function.update ids uid (some i)) uids
    (r.1, i :: r.2)

/-- The `id_map` of the nodes of a JSON chart, whose ids begin with one: of several nodes with
an uid the last one. -/
def jsonIds (docs : List JsonNode) : IdMap := fun uid =>
  ((docs.zipIdx 1).reverse.find? fun p => p.1.uid = uid).map (·.2)

/-- `ChartData::FromJson`, if it succeeds. -/
def fromJson (doc : JsonChart) : Option ChartData :=
  match doc.path, doc.nodes, doc.start with
  | some path, some nodes, some start =>
    let r := startIds (jsonIds nodes) start
    let startNode : NodeData :=
      { func := if doc.startFunc.isSome then .script else .null, failure := r.2, success := r.2 }
    some { name := path, startFuncName := doc.startFunc.getD ""
           nodes := startNode :: nodes.map (NodeData.initFromJson r.1) }
  | _, _, _ => none

/-- Chart data as an import registers them: the loader of one of the two formats made
them. -/
def Loaded (data : ChartData) : Prop :=
  (∃ doc, fromYaml doc = some (true, data)) ∨ ∃ doc, fromJson doc = some data

end Asyncflow
