import Asyncflow.Loading.FromJson
import Asyncflow.Loading.PatchManager

/-!
# What loading keeps

Which parts of the state the functions of the two loaders leave alone, however they end. Reading
a document changes nothing. What the functions of a node write are nodes, which keep their ids,
and the `id_map`: a property that does not depend on these (`Asyncflow.Loading.IgnoresWrites`)
is kept by all of them.
-/

namespace Asyncflow

namespace Loading

open Program

/-- The `id_map` does not matter. -/
def IgnoresIds (P : Loader → Prop) : Prop :=
  ∀ ⦃s : Loader⦄ (uid : String) (i : ℕ), P s → P (s.setId uid i)

/-- The `id_map` does not matter, nor what is written to a node besides its id. -/
structure IgnoresWrites (P : Loader → Prop) : Prop where
  ids : IgnoresIds P
  nodes : ∀ ⦃s : Loader⦄ (i : ℕ) {f : NodeData → NodeData}, (∀ d, (f d).id = d.id) → P s →
    P (s.setNode i f)

/-! ### YAML -/

namespace YamlTree

variable {σ : Type} {P : σ → Prop}

theorem keeps_findChild (t : YamlTree) (key : String) :
    (t.findChild key : Program Abort σ _).Keeps P := by
  unfold findChild
  split_ifs
  · exact keeps_pure _
  · exact keeps_throw _

theorem keeps_val (t : YamlTree) : (t.val : Program Abort σ _).Keeps P := by
  unfold val
  cases t.scalar? with
  | none => exact keeps_throw _
  | some v => exact keeps_pure v

theorem keeps_get (t : YamlTree) (key : String) : (t.get key : Program Abort σ _).Keeps P := by
  refine (keeps_findChild t key).bind fun o => ?_
  cases o with
  | none => exact keeps_throw _
  | some c => exact keeps_val c

theorem keeps_get? (t : YamlTree) (key : String) : (t.get? key : Program Abort σ _).Keeps P := by
  refine (keeps_findChild t key).bind fun o => ?_
  cases o with
  | none => exact keeps_pure _
  | some c => exact (keeps_val c).bind fun _ => keeps_pure _

end YamlTree

section Yaml

variable {P : Loader → Prop}

theorem keeps_readParams (ids : String → Option ℕ) (cs : List YamlTree) :
    (readParams ids cs).Keeps P := by
  induction cs with
  | nil => exact keeps_pure _
  | cons c cs ih =>
    refine (YamlTree.keeps_val c).bind fun v => ?_
    cases ids (paramUid v) with
    | none => exact keeps_pure _
    | some i => exact ih.bind fun _ => keeps_pure _

theorem keeps_initControl (hP : IgnoresWrites P) (i : ℕ) (cs : List YamlTree) :
    (initControl i cs).Keeps P := by
  cases cs with
  | nil => exact keeps_pure _
  | cons c cs =>
    refine (YamlTree.keeps_val c).bind fun name => Program.keeps_get.bind fun s => ?_
    refine (keeps_readParams s.ids cs).bind fun params => ?_
    cases params with
    | none => exact keeps_pure _
    | some ps =>
      refine (keeps_option _ fun f => keeps_modify fun s hs => ?_).bind fun _ => keeps_pure _
      exact hP.nodes i (fun _ => rfl) hs

theorem keeps_scriptFunc (i : ℕ) (code : YamlTree) :
    (scriptFunc i code).Keeps P := by
  refine (YamlTree.keeps_findChild code _).bind fun name =>
    (YamlTree.keeps_findChild code _).bind fun content => ?_
  cases name with
  | some name => exact (YamlTree.keeps_val name).bind fun _ => keeps_pure _
  | none =>
    cases content with
    | some content => exact (YamlTree.keeps_val content).bind fun _ => keeps_pure _
    | none =>
      refine Program.keeps_get.bind fun s => ?_
      split_ifs
      · exact keeps_throw _
      · exact keeps_pure _

theorem keeps_initFunc (hP : IgnoresWrites P) (i : ℕ) (code : YamlTree) (isEvent : Bool) :
    (initFunc i code isEvent).Keeps P := by
  refine (YamlTree.keeps_get? code _).bind fun v => ?_
  refine (keeps_option _ fun v => keeps_modify fun s hs => ?_).bind fun _ => ?_
  · exact hP.nodes i (fun _ => rfl) hs
  refine (keeps_scriptFunc i code).bind fun _ => keeps_modify fun s hs => ?_
  exact hP.nodes i (fun _ => rfl) hs

theorem keeps_initCode (hP : IgnoresWrites P) (i : ℕ) (code : YamlTree) :
    (initCode i code).Keeps P := by
  refine (YamlTree.keeps_get code _).bind fun type => ?_
  dsimp only
  split_ifs
  · exact (keeps_initFunc hP i code _).bind fun _ => keeps_pure _
  · refine (YamlTree.keeps_findChild code _).bind fun content => ?_
    cases content with
    | none => exact keeps_pure _
    | some content => exact keeps_initControl hP i content.children
  · exact keeps_pure _

/-- `NodeData::InitFromYaml` writes a node and the `id_map`. -/
theorem keeps_initFromYaml (hP : IgnoresWrites P) (i : ℕ) (doc : YamlTree) :
    (initFromYaml i doc).Keeps P := by
  refine (YamlTree.keeps_get doc _).bind fun uid => ?_
  refine Keeps.bind (keeps_modify fun s hs => ?_) fun _ => ?_
  · exact hP.ids uid i (hP.nodes i (fun _ => rfl) hs)
  split_ifs
  · exact keeps_pure _
  · refine (YamlTree.keeps_get? doc _).bind fun text => ?_
    refine (keeps_option _ fun t => keeps_modify fun s hs => ?_).bind fun _ => ?_
    · exact hP.nodes i (fun _ => rfl) hs
    refine (YamlTree.keeps_get? doc _).bind fun b => ?_
    refine (keeps_option _ fun b => keeps_modify fun s hs => ?_).bind fun _ => ?_
    · exact hP.nodes i (fun _ => rfl) hs
    refine (YamlTree.keeps_findChild doc _).bind fun code => ?_
    cases code with
    | none => exact keeps_pure _
    | some code => exact keeps_initCode hP i code

theorem keeps_initNodes (hP : IgnoresWrites P) (docs : List YamlTree) (i : ℕ) :
    (initNodes i docs).Keeps P := by
  induction docs generalizing i with
  | nil => exact keeps_pure _
  | cons doc docs ih =>
    refine (keeps_initFromYaml hP i doc).bind fun ok => ?_
    split_ifs
    · exact ih (i + 1)
    · exact keeps_pure _

theorem keeps_readConnectors (hP : IgnoresWrites P) (o : Option YamlTree) :
    (readConnectors o).Keeps P := by
  cases o with
  | none => exact keeps_pure _
  | some ks =>
    refine keeps_forM _ fun k => ?_
    refine (YamlTree.keeps_get k _).bind fun start => (YamlTree.keeps_get k _).bind fun target =>
      (YamlTree.keeps_get k _).bind fun type => Program.keeps_get.bind fun s => ?_
    cases stoi type with
    | none => exact keeps_throw _
    | some type =>
      cases s.ids start with
      | none => exact keeps_throw _
      | some i =>
        cases s.ids target with
        | none => exact keeps_throw _
        | some j =>
          refine keeps_modify fun s hs => hP.nodes i (fun d => ?_) hs
          rw [addSubsequence_eq_linked]
          rfl

end Yaml

/-! ### JSON -/

namespace JsonValue

variable {σ : Type} {P : σ → Prop}

theorem keeps_getString (v : JsonValue) : (v.getString : Program Abort σ _).Keeps P := by
  cases v with
  | string s => exact keeps_pure _
  | null | bool | double | int | array | object => exact keeps_throw _

theorem keeps_getInt (v : JsonValue) : (v.getInt : Program Abort σ _).Keeps P := by
  cases v with
  | int n =>
    rw [getInt]
    split_ifs
    · exact keeps_pure _
    · exact keeps_throw _
  | null | bool | double | string | array | object => exact keeps_throw _

theorem keeps_getArray (v : JsonValue) : (v.getArray : Program Abort σ _).Keeps P := by
  cases v with
  | array items => exact keeps_pure _
  | null | bool | double | int | string | object => exact keeps_throw _

theorem keeps_getBool (v : JsonValue) : (v.getBool : Program Abort σ _).Keeps P := by
  cases v with
  | bool b => exact keeps_pure _
  | null | array | double | int | string | object => exact keeps_throw _

theorem keeps_findMember (v : JsonValue) (key : String) :
    (v.findMember key : Program Abort σ _).Keeps P := by
  unfold findMember
  split_ifs
  · exact keeps_pure _
  · exact keeps_throw _

theorem keeps_memberValue (v : JsonValue) (key : String) :
    (v.memberValue key : Program Abort σ _).Keeps P := by
  refine (keeps_findMember v key).bind fun o => ?_
  cases o with
  | none => exact keeps_throw _
  | some m => exact keeps_pure _

theorem keeps_readMember {α : Type} (v : JsonValue) (key : String)
    {read : JsonValue → Program Abort σ α} (h : ∀ m, (read m).Keeps P) :
    (v.readMember key read).Keeps P := by
  refine (keeps_findMember v key).bind fun o => ?_
  cases o with
  | none => exact keeps_pure _
  | some m => exact (h m).bind fun _ => keeps_pure _

end JsonValue

section Json

variable {P : Loader → Prop}

theorem keeps_readIds (its : List JsonValue) : (readIds its).Keeps P := by
  induction its with
  | nil => exact keeps_pure _
  | cons it its ih =>
    exact (JsonValue.keeps_getString it).bind fun _ => Program.keeps_get.bind fun _ =>
      ih.bind fun _ => keeps_pure _

theorem keeps_readSubsequence (jobj : JsonValue) (key : String) :
    (readSubsequence jobj key).Keeps P := by
  refine (JsonValue.keeps_findMember jobj key).bind fun o => ?_
  cases o with
  | none => exact keeps_pure _
  | some m => exact (JsonValue.keeps_getArray m).bind fun _ => keeps_readIds _

theorem keeps_readJsonFunc (jobj : JsonValue) (name : String)
    (type : Option String) : (readJsonFunc jobj name type).Keeps P := by
  unfold readJsonFunc
  split_ifs
  · exact keeps_pure _
  · refine (JsonValue.keeps_findMember jobj _).bind fun o => ?_
    cases o with
    | none => exact keeps_pure _
    | some m =>
      exact (JsonValue.keeps_getArray m).bind fun _ => (keeps_readIds _).bind fun _ => keeps_pure _
  · exact keeps_pure _

theorem keeps_numberNodes (hP : IgnoresIds P) (its : List JsonValue) (i : ℕ) :
    (numberNodes i its).Keeps P := by
  induction its generalizing i with
  | nil => exact keeps_pure _
  | cons it its ih =>
    refine (JsonValue.keeps_memberValue it _).bind fun m =>
      (JsonValue.keeps_getString m).bind fun uid =>
        Keeps.bind (keeps_modify fun s hs => ?_) fun _ =>
        ih (i + 1)
    exact hP uid i hs

theorem keeps_idAt (hP : IgnoresIds P) (uid : String) : (idAt uid).Keeps P := by
  refine Program.keeps_get.bind fun s => ?_
  cases s.ids uid with
  | some i => exact keeps_pure _
  | none =>
    refine Keeps.bind (keeps_modify fun s hs => ?_) fun _ => keeps_pure _
    exact hP uid 0 hs

/-- `NodeData::InitFromJson` only reads. -/
theorem keeps_initFromJson (i : ℕ) (jobj : JsonValue) : (initFromJson i jobj).Keeps P :=
  (JsonValue.keeps_readMember jobj _ JsonValue.keeps_getString).bind fun _ =>
  (JsonValue.keeps_readMember jobj _ JsonValue.keeps_getString).bind fun _ =>
  (JsonValue.keeps_readMember jobj _ JsonValue.keeps_getString).bind fun _ =>
  (JsonValue.keeps_readMember jobj _ JsonValue.keeps_getString).bind fun _ =>
  (keeps_readJsonFunc jobj _ _).bind fun _ =>
  (JsonValue.keeps_readMember jobj _ JsonValue.keeps_getInt).bind fun _ =>
  (keeps_readSubsequence jobj _).bind fun _ => (keeps_readSubsequence jobj _).bind fun _ =>
  keeps_pure _

/-- The start node is only read. -/
theorem keeps_readStart (hP : IgnoresIds P) (its : List JsonValue) (d : NodeData) :
    (readStart d its).Keeps P := by
  induction its generalizing d with
  | nil => exact keeps_pure _
  | cons it its ih =>
    exact (JsonValue.keeps_getString it).bind fun uid => (keeps_idAt hP uid).bind fun _ =>
      (keeps_idAt hP uid).bind fun _ => ih _

end Json

end Loading

end Asyncflow
