import Mathlib.Algebra.Group.Int.Defs
import Mathlib.Algebra.Group.Nat.Defs
import Mathlib.Data.Int.Notation
import Asyncflow.Lib.Program

/-!
# Loading a YAML chart from its tree

`ChartData::FromYaml` reads the tree that the YAML parser has made of a document. Here it is
with everything it reads and writes: the variables, the texts, the function objects and the
`id_map`. (The runtime needs less of a chart, and `Asyncflow.fromYaml` is the loader as far
as that goes: `Asyncflow.Loading.fromYaml_forget`.)

A string is the list of its bytes. A tree of another shape than the code expects runs into
an assertion, an uid that is not in the `id_map` into the end of the map, and a number that is
none into an exception of `std::stoi`: these are the cases of `Asyncflow.Loading.Abort`. The
build is one with assertions (without `NDEBUG`): the loader's own, that `variables` is a list,
and those of the parser's library.
-/

namespace Asyncflow

namespace Loading

/-! ### Trees -/

/-- `ryml::ConstNodeRef`: a node of the tree with what is below it. -/
inductive YamlTree
  | scalar (value : String)
  | seq (items : List YamlTree)
  | map (entries : List (String × YamlTree))

/-- How a load ends other than by returning. -/
inductive Abort
  /-- An assertion about the shape of the tree, of the library or of the loader, in a build
  without `NDEBUG`. -/
  | assertion
  /-- An iterator at the end of a map is dereferenced, or memory outside a string is read. -/
  | undefined
  /-- `std::stoi` throws. -/
  | stoi
deriving DecidableEq, Repr

namespace YamlTree

variable {σ : Type}

/-- The text of a scalar. -/
def scalar? : YamlTree → Option String
  | .scalar v => some v
  | _ => none

/-- The children of a node, in document order. -/
def children : YamlTree → List YamlTree
  | .scalar _ => []
  | .seq items => items
  | .map entries => entries.map (·.2)

/-- The first child with the key. -/
def child? (key : String) : YamlTree → Option YamlTree
  | .map entries => (entries.find? fun e => e.1 = key).map (·.2)
  | _ => none

/-- Whether there are keys. -/
def isMap : YamlTree → Bool
  | .map _ => true
  | _ => false

/-- `is_seq`. -/
def isSeq : YamlTree → Bool
  | .seq _ => true
  | _ => false

/-- `find_child`, which asserts that the node is a map. -/
def findChild (t : YamlTree) (key : String) : Program Abort σ (Option YamlTree) :=
  if t.isMap then pure (t.child? key) else throw .assertion

/-- `val`, which asserts that there is one. -/
def val (t : YamlTree) : Program Abort σ String :=
  match t.scalar? with
  | some v => pure v
  | none => throw .assertion

/-- The value of a child that has to be there. -/
def get (t : YamlTree) (key : String) : Program Abort σ String := do
  match ← t.findChild key with
  | some c => c.val
  | none => throw .assertion

/-- The value of a child, if it is `valid`. -/
def get? (t : YamlTree) (key : String) : Program Abort σ (Option String) := do
  match ← t.findChild key with
  | some c => some <$> c.val
  | none => pure none

end YamlTree

/-! ### Strings -/

/-- What `strcmp` sees of a string. -/
def cStr (s : String) : List Char := s.toList.takeWhile (· ≠ '\x00')

/-- `UuidUtil::NtoD` of 32 characters: the dashes of an uid. -/
def ntoD (n : List Char) : List Char :=
  n.take 8 ++ '-' :: (n.drop 8).take 4 ++ '-' :: (n.drop 12).take 4 ++
    '-' :: (n.drop 16).take 4 ++ '-' :: (n.drop 20).take 12

/-- `UuidUtil::DtoN` of 36 characters: an uid without its dashes. -/
def dtoN (d : List Char) : List Char :=
  d.take 8 ++ (d.drop 9).take 4 ++ (d.drop 14).take 4 ++ (d.drop 19).take 4 ++ (d.drop 24).take 12

/-- `isspace`. -/
def isSpace (c : Char) : Bool := c = ' ' || ('\t' ≤ c && c ≤ '\r')

/-- The sign of a number, and what follows it. -/
def splitSign : List Char → ℤ × List Char
  | '-' :: cs => (-1, cs)
  | '+' :: cs => (1, cs)
  | cs => (1, cs)

/-- `std::stoi`; `none` if it throws. -/
def stoi (s : String) : Option ℤ :=
  let r := splitSign (s.toList.dropWhile isSpace)
  let digits := r.2.takeWhile Char.isDigit
  let n := r.1 * digits.foldl (fun (n : ℤ) c => n * 10 + (c.toNat - 48)) 0
  if digits ≠ [] ∧ -2 ^ 31 ≤ n ∧ n < 2 ^ 31 then some n else none

/-! ### Chart data -/

/-- The member functions of `Manager` that a `ControlNodeFunc` may call. -/
inductive ControlFunc
  | stopFlow
  | stopNode
  | waitAll
deriving DecidableEq, Repr

/-- What a node function is made of. -/
inductive NodeFunc
  /-- `ChartData::CreateNodeFunc(code, name)`. -/
  | script (code name : String)
  /-- `ControlNodeFunc::Create`. -/
  | control (func : ControlFunc) (params : List ℤ)
deriving DecidableEq, Repr

/-- `NodeData`. -/
structure NodeData where
  /-- `node_id_`. -/
  id : ℕ
  /-- `node_uid_`. -/
  uid : String := ""
  /-- `text_`. -/
  text : String := ""
  /-- `var_id_`. -/
  varId : ℤ := -1
  /-- `node_func_`. -/
  func : Option NodeFunc := none
  /-- `is_event_`. -/
  isEvent : Bool := false
  /-- `is_no_loop_check`. -/
  noLoopCheck : Bool := false
  /-- `children_[0]`. -/
  failure : List ℕ := []
  /-- `children_[1]`. -/
  success : List ℕ := []
deriving DecidableEq, Repr

/-- `Parameter`. -/
structure Parameter where
  name : String
  type : String
  isParams : Bool
deriving DecidableEq, Repr

/-- `ChartData`. -/
structure ChartData where
  /-- `chart_name_`. -/
  name : String := ""
  /-- `start_func_name_`. -/
  startFuncName : String := ""
  /-- `variables_`. -/
  vars : List Parameter := []
  /-- `variable_count_`. -/
  variableCount : ℤ := 0
  /-- `params_count_`. -/
  paramsCount : ℕ := 0
  /-- `variable_dict_`. -/
  variableDict : String → Option ℕ := fun _ => none
  /-- `node_list_`. -/
  nodes : List NodeData := []

/-- `ChartData::GetVarIndex`. -/
def ChartData.getVarIndex (data : ChartData) (name : String) : ℤ :=
  match data.variableDict name with
  | some i => i
  | none => -1

/-- `NodeData::AddSubsequence`. -/
def NodeData.addSubsequence (id : ℕ) (type : ℤ) (d : NodeData) : NodeData :=
  if type = 0 then { d with failure := d.failure ++ [id] }
  else if type = 1 then { d with success := d.success ++ [id] }
  else if type = 2 then { d with failure := d.failure ++ [id], success := d.success ++ [id] }
  else d

/-- What a load reads and writes: the chart data, and the local `id_map`. -/
structure Loader where
  chart : ChartData := {}
  ids : String → Option ℕ := fun _ => none

/-- Loading functions. -/
abbrev Load (α : Type) := Program Abort Loader α

namespace Loader

variable (s : Loader)

/-- Writes the node with the id. -/
def setNode (i : ℕ) (f : NodeData → NodeData) : Loader :=
  { s with chart := { s.chart with nodes := s.chart.nodes.modify i f } }

/-- `id_map[uid] = id`. -/
def setId (uid : String) (i : ℕ) : Loader :=
  { s with ids := Function.update s.ids uid (some i) }

/-- The node with the id. -/
def node (i : ℕ) : NodeData := s.chart.nodes[i]?.getD { id := i }

end Loader

/-! ### Variables -/

/-- A variable. -/
def readVariable (doc : YamlTree) : Load PUnit := do
  let name ← doc.get "name"
  let type ← doc.get "type"
  let isParam ← doc.get? "is_param"
  let v : Parameter := ⟨name, type, isParam = some "true"⟩
  modify fun s => { s with chart := { s.chart with vars := s.chart.vars ++ [v] } }

/-- The counts and the dictionary of the variables. -/
def ChartData.countVariables (data : ChartData) : ChartData :=
  { data with
    variableCount := data.vars.length
    paramsCount := data.vars.countP (·.isParams)
    variableDict := data.vars.zipIdx.foldl
      (fun dict v => Function.update dict v.1.name (some v.2)) data.variableDict }

/-- The `variables` of a chart, which are asserted to be a list. -/
def readVariables (doc : YamlTree) : Load PUnit :=
  if doc.isSeq then do
    modify fun s => { s with chart := { s.chart with vars := [] } }
    doc.children.forM readVariable
    modify fun s => { s with chart := s.chart.countVariables }
  else throw .assertion

/-! ### Nodes -/

/-- The function names of control nodes. -/
def controlFunc (name : String) : Option ControlFunc :=
  if name = "stopflow" then some .stopFlow
  else if name = "stopnode" then some .stopNode
  else if name = "waitall" then some .waitAll
  else none

/-- The uid that a parameter of a control node names. -/
def paramUid (param : String) : String :=
  if param.length = 32 then String.ofList (ntoD param.toList) else param

/-- The parameters of a control node, if all of them are known. -/
def readParams (ids : String → Option ℕ) : List YamlTree → Load (Option (List ℤ))
  | [] => pure (some [])
  | p :: ps => do
    let param ← p.val
    match ids (paramUid param) with
    | none => pure none
    | some i => do
      let is ← readParams ids ps
      pure (is.map ((i : ℤ) :: ·))

/-- The `content` of a control node. -/
def initControl (i : ℕ) : List YamlTree → Load Bool
  | [] => pure true
  | c :: cs => do
    let name ← c.val
    let s ← get
    match ← readParams s.ids cs with
    | none => pure false
    | some params => do
      (controlFunc name).forM fun f =>
        modify (·.setNode i ({ · with func := some (.control f params) }))
      pure true

/-- The function of a node: by its name, by its code, or by the uid of the node. -/
def scriptFuncOf (i : ℕ) : Option YamlTree → Option YamlTree → Load NodeFunc
  | some name, _ => do pure (.script "" (← name.val))
  | none, some content => do
    pure (.script ("return function(self) \n" ++ (← content.val) ++ "\n end") "")
  | none, none => do
    let s ← get
    -- `DtoN` reads 36 characters, the last of which may be the terminator.
    if (s.node i).uid.length < 35 then throw .undefined
    else pure (.script "" (s.chart.name ++ "." ++
      String.ofList (dtoN ((s.node i).uid.toList ++ ['\x00']))))

/-- The function of a function node or an event node. -/
def scriptFunc (i : ℕ) (code : YamlTree) : Load NodeFunc := do
  let name ← code.findChild "func_name"
  let content ← code.findChild "content"
  scriptFuncOf i name content

/-- The `code` of a function node or an event node. -/
def initFunc (i : ℕ) (code : YamlTree) (isEvent : Bool) : Load PUnit := do
  (← code.get? "return_var_name").forM fun v =>
    modify fun s => s.setNode i ({ · with varId := s.chart.getVarIndex v })
  let func ← scriptFunc i code
  modify (·.setNode i ({ · with func := some func, isEvent := isEvent }))

/-- The `code` part of `NodeData::InitFromYaml`. -/
def initCode (i : ℕ) (code : YamlTree) : Load Bool := do
  let type := cStr (← code.get "type")
  if type = "FUNC".toList ∨ type = "EVENT".toList then do
    initFunc i code (type = "EVENT".toList)
    pure true
  else if type = "CONTROL".toList then do
    match ← code.findChild "content" with
    | some content => initControl i content.children
    | none => pure true
  else pure (type ≠ "ERROR".toList)

/-- `NodeData::InitFromYaml` of the node with the id. -/
def initFromYaml (i : ℕ) (doc : YamlTree) : Load Bool := do
  let uid ← doc.get "uid"
  modify fun s => (s.setNode i ({ · with uid := uid })).setId uid i
  if i = 0 then pure true
  else do
    (← doc.get? "text").forM fun text => modify (·.setNode i ({ · with text := text }))
    (← doc.get? "no_loop_check").forM fun b =>
      modify (·.setNode i ({ · with noLoopCheck := b = "true" }))
    match ← doc.findChild "code" with
    | some code => initCode i code
    | none => pure true

/-! ### Charts -/

/-- The first loop over the nodes. -/
def addNode (doc : YamlTree) : Load PUnit := do
  let uid ← doc.get? "uid"
  modify fun s =>
    let i := s.chart.nodes.length
    let s := { s with
      chart := { s.chart with nodes := s.chart.nodes ++ [{ id := i, uid := uid.getD "" }] } }
    uid.elim s fun uid => s.setId uid i

/-- The second loop over the nodes, from the given id on. -/
def initNodes (i : ℕ) : List YamlTree → Load Bool
  | [] => pure true
  | doc :: docs => do
    if ← initFromYaml i doc then initNodes (i + 1) docs else pure false

/-- A connector. -/
def connect (doc : YamlTree) : Load PUnit := do
  let start ← doc.get "start"
  let target ← doc.get "end"
  let type ← doc.get "type"
  let s ← get
  match stoi type, s.ids start, s.ids target with
  | none, _, _ => throw .stoi
  | some type, some i, some j => modify (·.setNode i (·.addSubsequence j type))
  | some _, _, _ => throw .undefined

/-- The `nodes` of a chart. -/
def readNodes : Option YamlTree → Load Bool
  | some nodes => do
    nodes.children.forM addNode
    initNodes 0 nodes.children
  | none => pure true

/-- The `connectors` of a chart. -/
def readConnectors : Option YamlTree → Load PUnit
  | some connectors => connectors.children.forM connect
  | none => pure ⟨⟩

/-- `ChartData::FromYaml`. -/
def fromYaml (doc : YamlTree) : Load Bool := do
  match ← doc.findChild "path" with
  | none => pure false
  | some path => do
    let name ← path.val
    modify fun s => { s with chart := { s.chart with name := name } }
    (← doc.findChild "variables").forM readVariables
    let ok ← readNodes (← doc.findChild "nodes")
    if ok then do
      readConnectors (← doc.findChild "connectors")
      pure true
    else pure false

end Loading

end Asyncflow
