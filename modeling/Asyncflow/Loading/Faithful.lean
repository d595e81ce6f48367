import Asyncflow.Loading.Yaml
import Mathlib.Data.List.Forall2
import Mathlib.Data.List.Induction
import Mathlib.Data.List.Nodup
import Mathlib.Tactic.MkIffOfInductiveProp

/-!
# What a YAML chart is loaded to

The parts of a document are read here in their own terms, without the loader: its uids, its
variables and its edges, and the control functions of its nodes. A document of which all
these parts are there is a chart (`Asyncflow.Loading.IsChart`), and
`Asyncflow.Loading.fromYaml_faithful` states that `ChartData::FromYaml` makes of it exactly the
chart data that the document describes.
-/

namespace Asyncflow

namespace Loading

open Program

/-! ### Reading a document -/

namespace YamlTree

/-- The text of a child. -/
def text? (t : YamlTree) (key : String) : Option String := (t.child? key).bind scalar?

/-- A child that is a scalar if it is there. -/
def Optional (t : YamlTree) (key : String) : Prop := ∀ c ∈ t.child? key, c.scalar?.isSome

instance (t : YamlTree) (key : String) : Decidable (t.Optional key) := by
  unfold Optional
  infer_instance

/-- The children of a child, none if it is not there. -/
def items (t : YamlTree) (key : String) : List YamlTree := ((t.child? key).map children).getD []

/-- The type of a `code`. -/
def kind? (code : YamlTree) : Option (List Char) := (code.text? "type").map cStr

/-- The function name and the parameters of a control node. -/
def control? (n : YamlTree) : Option (List String) :=
  ((n.child? "code").filter fun code => code.kind? = some "CONTROL".toList).map fun code =>
    (code.items "content").filterMap scalar?

/-- A variable. -/
def parameter? (v : YamlTree) : Option Parameter :=
  match v.text? "name", v.text? "type" with
  | some name, some type => some ⟨name, type, v.text? "is_param" = some "true"⟩
  | _, _ => none

end YamlTree

/-- A connector, with the number of its type. -/
structure Edge where
  start : String
  target : String
  type : ℤ
deriving DecidableEq, Repr

namespace YamlTree

/-- A connector. -/
def edge? (k : YamlTree) : Option Edge :=
  match k.text? "start", k.text? "end", (k.text? "type").bind stoi with
  | some start, some target, some type => some ⟨start, target, type⟩
  | _, _, _ => none

/-- The uids of the nodes. -/
def uids (doc : YamlTree) : List String := (doc.items "nodes").filterMap (·.text? "uid")

/-- The declared variables. -/
def parameters (doc : YamlTree) : List Parameter := (doc.items "variables").filterMap parameter?

/-- The connectors. -/
def edges (doc : YamlTree) : List Edge := (doc.items "connectors").filterMap edge?

end YamlTree

/-- An uid of 36 characters with its dashes. -/
@[mk_iff]
structure Dashed (uid : String) : Prop where
  length : uid.length = 36
  dashes : ∀ i ∈ [8, 13, 18, 23], uid.toList[i]? = some '-'

instance (uid : String) : Decidable (Dashed uid) := decidable_of_iff _ (dashed_iff uid).symm

/-- A parameter of a control node is an uid, or its 32 digits. -/
def Names (param uid : String) : Prop := param = uid ∨ param.toList = dtoN uid.toList

instance (param uid : String) : Decidable (Names param uid) := by
  unfold Names
  infer_instance

/-- A `code` in the shape of its type. -/
@[mk_iff]
structure IsCode (uids : List String) (code : YamlTree) : Prop where
  kind : code.kind?.isSome
  noError : code.kind? ≠ some "ERROR".toList
  func : code.kind? = some "FUNC".toList ∨ code.kind? = some "EVENT".toList →
    code.Optional "return_var_name" ∧ code.Optional "func_name" ∧ code.Optional "content"
  content : code.kind? = some "CONTROL".toList → ∀ c ∈ code.items "content", c.scalar?.isSome
  params : code.kind? = some "CONTROL".toList → ∀ c ∈ (code.items "content").tail,
    ∀ p ∈ c.scalar?, ∃ uid ∈ uids, Names p uid

instance (uids : List String) (code : YamlTree) : Decidable (IsCode uids code) :=
  decidable_of_iff _ (isCode_iff uids code).symm

/-- A node. -/
@[mk_iff]
structure IsNode (uids : List String) (n : YamlTree) : Prop where
  uid : ∃ uid ∈ n.text? "uid", Dashed uid
  text : n.Optional "text"
  noLoopCheck : n.Optional "no_loop_check"
  code : ∀ code ∈ n.child? "code", IsCode uids code

instance (uids : List String) (n : YamlTree) : Decidable (IsNode uids n) :=
  decidable_of_iff _ (isNode_iff uids n).symm

/-- **A chart document**: the parts that the loader reads are there, the variables are a list, the
uids are distinct, dashed and those that the connectors and control nodes name, the names of the
variables are distinct, and there is no node of type `ERROR`. -/
@[mk_iff]
structure IsChart (doc : YamlTree) : Prop where
  path : (doc.text? "path").isSome
  seq : ∀ vs ∈ doc.child? "variables", vs.isSeq
  declared : ∀ v ∈ doc.items "variables", v.parameter?.isSome ∧ v.Optional "is_param"
  names : (doc.parameters.map (·.name)).Nodup
  nodes : ∀ n ∈ doc.items "nodes", IsNode doc.uids n
  uids : doc.uids.Nodup
  connectors : ∀ k ∈ doc.items "connectors", ∃ e ∈ k.edge?, e.start ∈ doc.uids ∧ e.target ∈ doc.uids

instance (doc : YamlTree) : Decidable (IsChart doc) := decidable_of_iff _ (isChart_iff doc).symm

/-- **The chart data is what the document describes.** -/
structure Faithful (doc : YamlTree) (data : ChartData) : Prop where
  /-- Node `i` has the id `i` and the `i`-th uid. -/
  nodes : data.nodes.map (fun d => (d.id, d.uid)) = doc.uids.zipIdx.map Prod.swap
  /-- The failure list has the ends of the connectors of type 0 or 2. -/
  failure : ∀ d ∈ data.nodes, d.failure =
    (doc.edges.filter fun e => e.start = d.uid ∧ (e.type = 0 ∨ e.type = 2)).map fun e =>
      doc.uids.idxOf e.target
  /-- The success list has the ends of the connectors of type 1 or 2. -/
  success : ∀ d ∈ data.nodes, d.success =
    (doc.edges.filter fun e => e.start = d.uid ∧ (e.type = 1 ∨ e.type = 2)).map fun e =>
      doc.uids.idxOf e.target
  /-- The parameters of a control node are the ids of the nodes they name. -/
  params : ∀ (i : ℕ) (d : NodeData) (n : YamlTree) (name : String) (ps : List String)
    (f : ControlFunc), i ≠ 0 → data.nodes[i]? = some d → (doc.items "nodes")[i]? = some n →
    n.control? = some (name :: ps) → controlFunc name = some f →
    ∃ ks : List ℕ, d.func = some (.control f (ks.map Nat.cast)) ∧
      List.Forall₂ (fun p k => ∃ uid, Names p uid ∧ doc.uids[k]? = some uid) ps ks
  /-- The variables and their numbers. -/
  declared : data.vars = doc.parameters ∧ data.variableCount = doc.parameters.length ∧
    data.paramsCount = doc.parameters.countP (·.isParams)
  /-- The dictionary has the position of every variable and nothing else. -/
  dict : ∀ name i, data.variableDict name = some i ↔
    (doc.parameters[i]?).map (·.name) = some name

/-! ### Uids -/

/-- The parts of a dashed uid. -/
theorem Dashed.parts {uid : String} (h : Dashed uid) : ∃ a b c d e : List Char,
    uid.toList = a ++ '-' :: (b ++ '-' :: (c ++ '-' :: (d ++ '-' :: e))) ∧
      a.length = 8 ∧ b.length = 4 ∧ c.length = 4 ∧ d.length = 4 ∧ e.length = 12 := by
  obtain ⟨hlen, hdash⟩ := h
  rw [← String.length_toList] at hlen
  generalize uid.toList = cs at hlen hdash
  -- The characters from a dash on.
  have hdrop : ∀ i ∈ [8, 13, 18, 23], cs.drop i = '-' :: cs.drop (i + 1) := by
    intro i hi
    have hlt : i < cs.length := by
      rw [hlen]
      simp only [List.mem_cons, List.not_mem_nil, or_false] at hi
      omega
    have hget : cs[i] = '-' := by
      have := hdash i hi
      rwa [List.getElem?_eq_getElem hlt, Option.some.injEq] at this
    rw [List.drop_eq_getElem_cons hlt, hget]
  have hcut : ∀ i k, cs.drop i = (cs.drop i).take k ++ cs.drop (i + k) := by
    intro i k
    rw [← List.drop_drop, List.take_append_drop]
  refine ⟨cs.take 8, (cs.drop 9).take 4, (cs.drop 14).take 4, (cs.drop 19).take 4, cs.drop 24,
    ?_, ?_⟩
  · rw [← hdrop 23 (by simp), ← hcut 19 4, ← hdrop 18 (by simp), ← hcut 14 4, ← hdrop 13 (by simp),
      ← hcut 9 4, ← hdrop 8 (by simp), List.take_append_drop]
  · simp [hlen]

/-- The dashes of an uid come back. -/
theorem ntoD_dtoN {uid : String} (h : Dashed uid) : ntoD (dtoN uid.toList) = uid.toList := by
  obtain ⟨a, b, c, d, e, hu, ha, hb, hc, hd, he⟩ := h.parts
  have hn : dtoN uid.toList = a ++ (b ++ (c ++ (d ++ e))) := by
    simp [dtoN, hu, List.drop_append, List.drop_eq_nil_of_le,
      List.take_of_length_le, ha, hb, hc, hd, he]
  rw [hn, hu]
  simp [ntoD, List.drop_append, List.drop_eq_nil_of_le,
    List.take_of_length_le, ha, hb, hc, hd, he]

theorem length_dtoN {uid : String} (h : Dashed uid) : (dtoN uid.toList).length = 32 := by
  have hlen : uid.toList.length = 36 := String.length_toList.trans h.length
  simp [dtoN, hlen]

/-- **A parameter is looked up under the uid it names.** -/
theorem paramUid_of_names {param uid : String} (hd : Dashed uid) (h : Names param uid) :
    paramUid param = uid := by
  unfold paramUid
  rcases h with rfl | h
  · rw [if_neg]
    rw [hd.length]
    decide
  · have hlen : param.length = 32 := by
      rw [← String.length_toList, h, length_dtoN hd]
    rw [if_pos hlen, h, ntoD_dtoN hd, String.ofList_toList]

/-! ### The accessors -/

namespace YamlTree

variable {t c : YamlTree} {key v : String} {σ : Type} {s : σ}

theorem isMap_of_child? (h : t.child? key = some c) : t.isMap := by
  cases t with
  | map entries => rfl
  | scalar | seq => cases h

theorem isMap_of_text? (h : t.text? key = some v) : t.isMap := by
  obtain ⟨c, hc, -⟩ := Option.bind_eq_some_iff.mp h
  exact isMap_of_child? hc

theorem returns_findChild (ht : t.isMap) (key : String) :
    (t.findChild key : Program Abort σ _).Returns s (t.child? key) s := by
  unfold findChild
  rw [if_pos ht]
  exact returns_pure _ s

theorem returns_val (h : t.scalar? = some v) : (t.val : Program Abort σ _).Returns s v s := by
  unfold val
  rw [h]
  exact returns_pure _ s

theorem returns_get (h : t.text? key = some v) :
    (t.get key : Program Abort σ _).Returns s v s := by
  obtain ⟨c, hc, hv⟩ := Option.bind_eq_some_iff.mp h
  refine (returns_findChild (isMap_of_child? hc) key).bind ?_
  rw [hc]
  exact returns_val hv

theorem returns_get? (ht : t.isMap) (ho : t.Optional key) :
    (t.get? key : Program Abort σ _).Returns s (t.text? key) s := by
  refine (returns_findChild ht key).bind ?_
  cases hc : t.child? key with
  | none =>
    rw [text?, hc]
    exact returns_pure _ s
  | some c =>
    obtain ⟨v, hv⟩ := Option.isSome_iff_exists.mp (ho c hc)
    have htext : t.text? key = some v := by rw [text?, hc]; exact hv
    rw [htext]
    exact (returns_val hv).bind (returns_pure _ s)

theorem returns_findChild_iff {o : Option YamlTree} {s' : σ} :
    (t.findChild key : Program Abort σ _).Returns s o s' ↔ t.isMap ∧ t.child? key = o ∧ s = s' := by
  unfold findChild
  split_ifs with h
  · rw [returns_pure_iff]
    exact (and_iff_right h).symm
  · exact iff_of_false not_returns_throw fun ht => h ht.1

theorem returns_val_iff {s' : σ} :
    (t.val : Program Abort σ _).Returns s v s' ↔ t.scalar? = some v ∧ s = s' := by
  unfold val
  cases t.scalar? with
  | none => exact iff_of_false not_returns_throw nofun
  | some w => rw [returns_pure_iff, Option.some.injEq]

/-- A text is read if and only if it is there. -/
theorem returns_get_iff {s' : σ} :
    (t.get key : Program Abort σ _).Returns s v s' ↔ t.text? key = some v ∧ s = s' := by
  constructor
  · intro h
    obtain ⟨o, u, ho, hv⟩ := returns_bind_iff.mp h
    obtain ⟨-, hc, rfl⟩ := returns_findChild_iff.mp ho
    cases o with
    | none => exact absurd hv not_returns_throw
    | some c =>
      obtain ⟨hval, rfl⟩ := returns_val_iff.mp hv
      exact ⟨by rw [text?, hc]; exact hval, rfl⟩
  · rintro ⟨h, rfl⟩
    exact returns_get h

end YamlTree

/-! ### Positions -/

section Positions

variable {ids : String → Option ℕ} {us : List String} {u : String} {i : ℕ}

/-- The map has the position of every string of the list. -/
def Indexes (ids : String → Option ℕ) (us : List String) : Prop :=
  ∀ u i, ids u = some i ↔ us[i]? = some u

theorem indexes_nil : Indexes (fun _ => none) [] := by
  intro u i
  simp

/-- A string that is new goes to the end. -/
theorem Indexes.update (h : Indexes ids us) (hu : u ∉ us) :
    Indexes (Function.update ids u (some us.length)) (us ++ [u]) := by
  intro v i
  rcases eq_or_ne v u with rfl | hne
  · rw [Function.update_self, Option.some.injEq, eq_comm]
    constructor
    · rintro rfl
      simp
    · intro hi
      rcases Nat.lt_or_ge i us.length with hlt | hge
      · rw [List.getElem?_append_left hlt] at hi
        exact absurd (List.mem_of_getElem? hi) hu
      · have := (List.getElem?_eq_some_iff.mp hi).1
        rw [List.length_append, List.length_singleton] at this
        omega
  · rw [Function.update_of_ne hne, h]
    rcases Nat.lt_or_ge i us.length with hlt | hge
    · rw [List.getElem?_append_left hlt]
    · rw [List.getElem?_eq_none hge, List.getElem?_append_right hge]
      constructor
      · nofun
      · intro hi
        exact absurd (List.mem_singleton.mp (List.mem_of_getElem? hi)) hne

theorem Indexes.exists_of_mem (h : Indexes ids us) (hu : u ∈ us) : ∃ i, ids u = some i := by
  obtain ⟨i, hi⟩ := List.mem_iff_getElem?.mp hu
  exact ⟨i, (h u i).mpr hi⟩

/-- The position of a string that is in the list. -/
theorem Indexes.idxOf (h : Indexes ids us) (hi : ids u = some i) : us.idxOf u = i := by
  have hu : u ∈ us := List.mem_of_getElem? ((h u i).mp hi)
  have hidx : us[us.idxOf u]? = some u := List.getElem?_idxOf hu
  exact Option.some.inj (((h u _).mpr hidx).symm.trans hi)

end Positions

/-! ### Variables -/

section Variables

variable {s : Loader} {v doc : YamlTree} {x : Parameter}

/-- A variable of the document becomes the last one of the chart. -/
theorem returns_readVariable (hx : v.parameter? = some x) (ho : v.Optional "is_param") :
    (readVariable v).Returns s ⟨⟩
      { s with chart := { s.chart with vars := s.chart.vars ++ [x] } } := by
  unfold YamlTree.parameter? at hx
  split at hx
  · rename_i name type hname htype
    obtain rfl := Option.some.inj hx
    refine (YamlTree.returns_get hname).bind ?_
    refine (YamlTree.returns_get htype).bind ?_
    exact (YamlTree.returns_get? (YamlTree.isMap_of_text? hname) ho).bind (returns_modify _ s)
  · cases hx

/-- The positions of distinct names. -/
theorem indexes_dict (vs : List Parameter) (hv : (vs.map (·.name)).Nodup) :
    Indexes (vs.zipIdx.foldl (fun (dict : String → Option ℕ) (v : Parameter × ℕ) =>
      Function.update dict v.1.name (some v.2)) (fun _ => none)) (vs.map (·.name)) := by
  induction vs using List.reverseRecOn with
  | nil => exact indexes_nil
  | append_singleton vs x ih =>
    rw [List.map_append, List.map_singleton, List.nodup_append] at hv
    obtain ⟨hvs, -, hnew⟩ := hv
    have hx : x.name ∉ vs.map (·.name) := fun hmem => hnew _ hmem _ (List.mem_singleton_self _) rfl
    have h := (ih hvs).update hx
    rw [List.length_map] at h
    rw [List.zipIdx_append, List.foldl_append, List.map_append]
    simpa using h

/-- **The variables of a chart.** -/
theorem returns_readVariables {vs : YamlTree} (hseq : vs.isSeq)
    (hvs : ∀ v ∈ vs.children, v.parameter?.isSome ∧ v.Optional "is_param") :
    (readVariables vs).Returns s ⟨⟩
      { s with
        chart := { s.chart with
          vars := vs.children.filterMap YamlTree.parameter? }.countVariables } := by
  rw [readVariables, if_pos hseq]
  refine (returns_modify _ s).bind ?_
  obtain ⟨t, ht, rfl⟩ := returns_forM (g := readVariable)
    (I := fun done t => t = { s with
      chart := { s.chart with vars := done.filterMap YamlTree.parameter? } })
    (s := { s with chart := { s.chart with vars := [] } }) vs.children rfl (by
      rintro done v rest hbs t rfl
      obtain ⟨hsome, ho⟩ := hvs v (by simp [hbs])
      obtain ⟨x, hx⟩ := Option.isSome_iff_exists.mp hsome
      refine ⟨_, returns_readVariable hx ho, ?_⟩
      simp [hx])
  exact ht.bind (returns_modify _ _)

end Variables

/-! ### Nodes -/

section Nodes

variable {s : Loader} {doc n : YamlTree} {uid : String} {i : ℕ}

theorem returns_addNode (hn : n.text? "uid" = some uid) :
    (addNode n).Returns s ⟨⟩ (({ s with chart := { s.chart with
      nodes := s.chart.nodes ++ [{ id := s.chart.nodes.length, uid := uid }] } } : Loader).setId uid
        s.chart.nodes.length) := by
  have ho : n.Optional "uid" := by
    intro c hc
    rw [YamlTree.text?, hc] at hn
    exact Option.isSome_iff_exists.mpr ⟨uid, hn⟩
  refine (YamlTree.returns_get? (YamlTree.isMap_of_text? hn) ho).bind ?_
  rw [hn]
  exact returns_modify _ s

/-- The nodes after the first loop. -/
def blankNodes (us : List String) : List NodeData :=
  us.zipIdx.map fun p => { id := p.2, uid := p.1 }

/-- **The first loop over the nodes.** -/
theorem returns_addNodes (docs : List YamlTree) (hs : s.chart.nodes = [])
    (hids : s.ids = fun _ => none) (hdocs : ∀ n ∈ docs, (n.text? "uid").isSome)
    (hnd : (docs.filterMap (·.text? "uid")).Nodup) :
    ∃ t, (docs.forM addNode).Returns s ⟨⟩ t ∧
      (t.chart = { s.chart with nodes := blankNodes (docs.filterMap (·.text? "uid")) } ∧
        Indexes t.ids (docs.filterMap (·.text? "uid"))) := by
  refine returns_forM (I := fun (done : List YamlTree) (t : Loader) =>
    t.chart = { s.chart with nodes := blankNodes (done.filterMap (·.text? "uid")) } ∧
      Indexes t.ids (done.filterMap (·.text? "uid"))) docs ⟨?_, ?_⟩ ?_
  · rw [List.filterMap_nil]
    change s.chart = { s.chart with nodes := [] }
    rw [← hs]
  · rw [hids]
    exact indexes_nil
  · rintro done n rest rfl t ⟨hc, hi⟩
    obtain ⟨uid, hu⟩ := Option.isSome_iff_exists.mp (hdocs n (by simp))
    have hnew : uid ∉ done.filterMap (·.text? "uid") := by
      rw [List.filterMap_append, List.nodup_append] at hnd
      exact fun hmem => hnd.2.2 uid hmem uid
        (List.mem_filterMap.mpr ⟨n, List.mem_cons_self, hu⟩) rfl
    have hlen : t.chart.nodes.length = (done.filterMap (·.text? "uid")).length := by
      rw [hc]
      simp [blankNodes]
    have hdone : (done ++ [n]).filterMap (·.text? "uid") =
        done.filterMap (·.text? "uid") ++ [uid] := by simp [hu]
    refine ⟨_, returns_addNode hu, ?_, ?_⟩
    · rw [hdone, Loader.setId, hlen]
      simp [hc, blankNodes, List.zipIdx_append]
    · rw [hdone, Loader.setId, hlen]
      exact hi.update hnew

/-- The writes of `NodeData::InitFromYaml` leave the id, the uid and the successors alone. -/
structure Keeps (uid : String) (f : NodeData → NodeData) : Prop where
  id : ∀ d, (f d).id = d.id
  uid : ∀ d, d.uid = uid → (f d).uid = uid
  failure : ∀ d, (f d).failure = d.failure
  success : ∀ d, (f d).success = d.success

theorem keeps_id (uid : String) : Keeps uid id :=
  ⟨fun _ => rfl, fun _ h => h, fun _ => rfl, fun _ => rfl⟩

variable {f g : NodeData → NodeData}

theorem Keeps.comp (hg : Keeps uid g) (hf : Keeps uid f) : Keeps uid (g ∘ f) where
  id d := (hg.id _).trans (hf.id d)
  uid d hd := hg.uid _ (hf.uid d hd)
  failure d := (hg.failure _).trans (hf.failure d)
  success d := (hg.success _).trans (hf.success d)

theorem setNode_id (s : Loader) (i : ℕ) : s.setNode i id = s := by
  have hnodes : s.chart.nodes.modify i id = s.chart.nodes := by
    refine List.ext_getElem? fun j => ?_
    rw [List.getElem?_modify]
    split <;> simp
  rw [Loader.setNode, hnodes]

theorem setNode_setNode (s : Loader) (i : ℕ) (f g : NodeData → NodeData) :
    (s.setNode i f).setNode i g = s.setNode i (g ∘ f) := by
  have hnodes : (s.chart.nodes.modify i f).modify i g = s.chart.nodes.modify i (g ∘ f) := by
    refine List.ext_getElem? fun j => ?_
    simp only [List.getElem?_modify]
    cases s.chart.nodes[j]? <;> by_cases h : i = j <;> simp [h]
  rw [Loader.setNode, Loader.setNode, Loader.setNode, hnodes]

theorem node_setNode (s : Loader) (hi : i < s.chart.nodes.length) (f : NodeData → NodeData) :
    (s.setNode i f).node i = f (s.node i) := by
  simp [Loader.node, Loader.setNode, hi]

/-- The program returns after writes to the node that keep its uid. -/
def Inits (x : Load Bool) (s : Loader) (i : ℕ) (uid : String) (P : (NodeData → NodeData) → Prop) :
    Prop :=
  ∃ f, Keeps uid f ∧ P f ∧ x.Returns s true (s.setNode i f)

/-- The parameters of a control node are known. -/
theorem returns_readParams (ids : String → Option ℕ) (cs : List YamlTree)
    (hcs : ∀ c ∈ cs, ∃ p, c.scalar? = some p ∧ (ids (paramUid p)).isSome) :
    ∃ ks : List ℕ, (readParams ids cs).Returns s (some (ks.map Nat.cast)) s ∧
      List.Forall₂ (fun p k => ids (paramUid p) = some k) (cs.filterMap YamlTree.scalar?) ks := by
  induction cs with
  | nil => exact ⟨[], returns_pure _ s, .nil⟩
  | cons c cs ih =>
    obtain ⟨p, hp, hid⟩ := hcs c List.mem_cons_self
    obtain ⟨k, hk⟩ := Option.isSome_iff_exists.mp hid
    obtain ⟨ks, hr, hks⟩ := ih fun c' hc' => hcs c' (List.mem_cons_of_mem c hc')
    refine ⟨k :: ks, ?_, ?_⟩
    · rw [readParams]
      refine (YamlTree.returns_val hp).bind ?_
      rw [hk]
      exact hr.bind (returns_pure _ s)
    · rw [List.filterMap_cons_some hp]
      exact .cons hk hks

/-- The function of a control node with the given texts. -/
def HasControl (ids : String → Option ℕ) (texts : List String) (f : NodeData → NodeData) : Prop :=
  ∀ name ps F, texts = name :: ps → controlFunc name = some F →
    ∃ ks : List ℕ, List.Forall₂ (fun p k => ids (paramUid p) = some k) ps ks ∧
      ∀ d, (f d).func = some (.control F (ks.map Nat.cast))

theorem inits_initControl (uid : String) (cs : List YamlTree) (hcs : ∀ c ∈ cs, c.scalar?.isSome)
    (hps : ∀ c ∈ cs.tail, ∀ p, c.scalar? = some p → (s.ids (paramUid p)).isSome) :
    Inits (initControl i cs) s i uid (HasControl s.ids (cs.filterMap YamlTree.scalar?)) := by
  cases cs with
  | nil =>
    refine ⟨id, keeps_id uid, nofun, ?_⟩
    rw [setNode_id]
    exact returns_pure _ s
  | cons c cs =>
    obtain ⟨name, hname⟩ := Option.isSome_iff_exists.mp (hcs c List.mem_cons_self)
    obtain ⟨ks, hr, hks⟩ := returns_readParams (s := s) s.ids cs fun c' hc' => by
      obtain ⟨p, hp⟩ := Option.isSome_iff_exists.mp (hcs c' (List.mem_cons_of_mem c hc'))
      exact ⟨p, hp, hps c' hc' p hp⟩
    have hrun : ∀ t, Returns ((controlFunc name).forM fun F =>
        (modify fun s : Loader => s.setNode i
          ({ · with func := some (.control F (ks.map Nat.cast)) }) :
          Load PUnit)) s ⟨⟩ t → (initControl i (c :: cs)).Returns s true t := by
      intro t ht
      refine (YamlTree.returns_val hname).bind ((returns_get s).bind ?_)
      exact hr.bind (ht.bind (returns_pure _ t))
    rw [List.filterMap_cons_some hname]
    cases hF : controlFunc name with
    | none =>
      refine ⟨id, keeps_id uid, ?_, hrun _ ?_⟩
      · rintro name' ps F ⟨⟩ hF'
        exact absurd (hF.symm.trans hF') nofun
      · rw [hF, setNode_id]
        exact returns_pure _ s
    | some F =>
      refine ⟨({ · with func := some (.control F (ks.map Nat.cast)) }),
        ⟨fun _ => rfl, fun _ h => h, fun _ => rfl, fun _ => rfl⟩, ?_, hrun _ ?_⟩
      · rintro name' ps F' ⟨⟩ hF'
        obtain rfl := Option.some.inj (hF.symm.trans hF')
        exact ⟨ks, hks, fun _ => rfl⟩
      · rw [hF]
        exact returns_modify _ s

/-- A node whose uid is long enough gets a function. -/
theorem returns_scriptFunc {code : YamlTree} (hcode : code.isMap)
    (hname : code.Optional "func_name") (hcontent : code.Optional "content")
    (hlen : 35 ≤ (s.node i).uid.length) : ∃ func, (scriptFunc i code).Returns s func s := by
  suffices h : ∃ func, (scriptFuncOf i (code.child? "func_name")
      (code.child? "content")).Returns s func s by
    obtain ⟨func, h⟩ := h
    exact ⟨func, (YamlTree.returns_findChild hcode _).bind
      ((YamlTree.returns_findChild hcode _).bind h)⟩
  cases hn : code.child? "func_name" with
  | some c =>
    obtain ⟨v, hv⟩ := Option.isSome_iff_exists.mp (hname c hn)
    exact ⟨_, (YamlTree.returns_val hv).bind (returns_pure _ s)⟩
  | none =>
    cases hc : code.child? "content" with
    | some c =>
      obtain ⟨v, hv⟩ := Option.isSome_iff_exists.mp (hcontent c hc)
      exact ⟨_, (YamlTree.returns_val hv).bind (returns_pure _ s)⟩
    | none =>
      refine ⟨.script "" (s.chart.name ++ "." ++
        String.ofList (dtoN ((s.node i).uid.toList ++ ['\x00']))), (returns_get s).bind ?_⟩
      rw [if_neg (Nat.not_lt.mpr hlen)]
      exact returns_pure _ s

/-- A write to the node for an optional text. -/
theorem returns_optional (uid : String) (o : Option String)
    (w : Loader → String → NodeData → NodeData)
    (hw : ∀ s v, Keeps uid (w s v)) :
    ∃ f, Keeps uid f ∧ Returns (o.forM fun v => (modify fun s : Loader => s.setNode i (w s v) :
      Load PUnit)) s ⟨⟩ (s.setNode i f) := by
  cases o with
  | none =>
    refine ⟨id, keeps_id uid, ?_⟩
    rw [setNode_id]
    exact returns_pure _ s
  | some v => exact ⟨w s v, hw s v, returns_modify _ s⟩

/-- A function node or an event node. -/
theorem returns_initFunc {code : YamlTree} (hcode : code.isMap) (isEvent : Bool)
    (hret : code.Optional "return_var_name") (hname : code.Optional "func_name")
    (hcontent : code.Optional "content") (hi : i < s.chart.nodes.length)
    (huid : (s.node i).uid = uid) (hlen : 35 ≤ uid.length) :
    ∃ f, Keeps uid f ∧ (initFunc i code isEvent).Returns s ⟨⟩ (s.setNode i f) := by
  obtain ⟨f, hf, ht⟩ := returns_optional uid (s := s) (i := i)
    (code.text? "return_var_name") (fun s v d => { d with varId := s.chart.getVarIndex v })
    fun _ _ => ⟨fun _ => rfl, fun _ h => h, fun _ => rfl, fun _ => rfl⟩
  have huid' : ((s.setNode i f).node i).uid = uid := by
    rw [node_setNode s hi]
    exact hf.uid _ huid
  obtain ⟨func, hfunc⟩ := returns_scriptFunc (s := s.setNode i f) (i := i) hcode hname hcontent
    (by rw [huid']; exact hlen)
  refine ⟨({ · with func := some func, isEvent := isEvent }) ∘ f, ?_, ?_⟩
  · exact Keeps.comp ⟨fun _ => rfl, fun _ h => h, fun _ => rfl, fun _ => rfl⟩ hf
  · refine (YamlTree.returns_get? hcode hret).bind (ht.bind (hfunc.bind ?_))
    rw [← setNode_setNode]
    exact returns_modify _ _

/-- The `code` of a node. -/
theorem inits_initCode {code : YamlTree} {us : List String} (hcode : IsCode us code)
    (hi : i < s.chart.nodes.length) (huid : (s.node i).uid = uid) (hlen : 35 ≤ uid.length)
    (hus : ∀ u ∈ us, Dashed u ∧ (s.ids u).isSome) :
    Inits (initCode i code) s i uid fun f => code.kind? = some "CONTROL".toList →
      HasControl s.ids ((code.items "content").filterMap YamlTree.scalar?) f := by
  obtain ⟨kind, hkind⟩ := Option.isSome_iff_exists.mp hcode.kind
  obtain ⟨type, htype, rfl⟩ := Option.map_eq_some_iff.mp hkind
  have hmap : code.isMap := YamlTree.isMap_of_text? htype
  by_cases hfunc : cStr type = "FUNC".toList ∨ cStr type = "EVENT".toList
  · -- A script.
    obtain ⟨hret, hname, hcontent⟩ := hcode.func (hfunc.imp (hkind.trans <| congrArg some ·)
      (hkind.trans <| congrArg some ·))
    obtain ⟨f, hf, hr⟩ := returns_initFunc hmap (cStr type = "EVENT".toList) hret hname hcontent hi
      huid hlen
    refine ⟨f, hf, fun hctl => ?_, (YamlTree.returns_get htype).bind ?_⟩
    · have hk := Option.some.inj (hkind.symm.trans hctl)
      rw [hk] at hfunc
      exact absurd hfunc (by decide)
    · rw [if_pos hfunc]
      exact hr.bind (returns_pure _ _)
  · by_cases hctl : cStr type = "CONTROL".toList
    · -- A control node.
      have hkc : code.kind? = some "CONTROL".toList := hkind.trans (congrArg some hctl)
      obtain ⟨f, hf, hc, hr⟩ := inits_initControl (i := i) (s := s) uid (code.items "content")
        (hcode.content hkc) fun c hc p hp => by
          obtain ⟨u, hu, hn⟩ := hcode.params hkc c hc p hp
          obtain ⟨hd, hsome⟩ := hus u hu
          rwa [paramUid_of_names hd hn]
      refine ⟨f, hf, fun _ => hc, (YamlTree.returns_get htype).bind ?_⟩
      rw [if_neg hfunc, if_pos hctl]
      refine (YamlTree.returns_findChild hmap _).bind ?_
      unfold YamlTree.items at hr
      cases hcont : code.child? "content" with
      | some c =>
        rw [hcont] at hr
        exact hr
      | none =>
        rw [hcont] at hr
        exact hr
    · -- Any other type than `ERROR`.
      have herr : cStr type ≠ "ERROR".toList :=
        fun h => hcode.noError (hkind.trans (congrArg some h))
      refine ⟨id, keeps_id uid, fun h => ?_, (YamlTree.returns_get htype).bind ?_⟩
      · exact absurd (Option.some.inj (hkind.symm.trans h)) hctl
      · rw [if_neg hfunc, if_neg hctl, setNode_id, decide_eq_true herr]
        exact returns_pure _ s

/-- The code of a node, when it has one. -/
theorem returns_code {o : Option YamlTree} :
    (o.elim (pure true) (initCode i) : Load Bool).Returns s b t →
      (match o with
        | some code => initCode i code
        | none => pure true : Load Bool).Returns s b t := by
  cases o with
  | none => exact id
  | some code => exact id

/-- **`NodeData::InitFromYaml`** of a node whose uid is known. -/
theorem inits_initFromYaml {us : List String} (hn : IsNode us n) (hu : n.text? "uid" = some uid)
    (hid : s.ids uid = some i) (hi : i < s.chart.nodes.length) (huid : (s.node i).uid = uid)
    (hus : ∀ u ∈ us, Dashed u ∧ (s.ids u).isSome) :
    Inits (initFromYaml i n) s i uid fun f => i ≠ 0 → ∀ texts, n.control? = some texts →
      HasControl s.ids texts f := by
  have hmap : n.isMap := YamlTree.isMap_of_text? hu
  have hlen : 35 ≤ uid.length := by
    obtain ⟨u, hu', hd⟩ := hn.uid
    obtain rfl := Option.some.inj (hu.symm.trans hu')
    rw [hd.length]
    decide
  have h₀ : Keeps uid ({ · with uid := uid }) :=
    ⟨fun _ => rfl, fun _ _ => rfl, fun _ => rfl, fun _ => rfl⟩
  have hset : ∀ f, (s.setNode i f).setId uid i = s.setNode i f := by
    intro f
    have hids : Function.update s.ids uid (some i) = s.ids := by rw [← hid, Function.update_eq_self]
    rw [Loader.setId, Loader.setNode]
    simp only [hids]
  by_cases hi0 : i = 0
  · refine ⟨_, h₀, fun h => absurd hi0 h,
      (YamlTree.returns_get hu).bind ((returns_modify _ s).bind ?_)⟩
    rw [if_pos hi0, hset]
    exact returns_pure _ _
  · -- The texts of the node, one after the other.
    obtain ⟨f₁, h₁, hr₁⟩ := returns_optional uid (s := s.setNode i ({ · with uid := uid }))
      (i := i) (n.text? "text") (fun _ v d => { d with text := v })
      fun _ _ => ⟨fun _ => rfl, fun _ h => h, fun _ => rfl, fun _ => rfl⟩
    rw [setNode_setNode] at hr₁
    obtain ⟨f₂, h₂, hr₂⟩ := returns_optional uid (i := i)
      (s := s.setNode i (f₁ ∘ ({ · with uid := uid })))
      (n.text? "no_loop_check") (fun _ b d => { d with noLoopCheck := b = "true" })
      fun _ _ => ⟨fun _ => rfl, fun _ h => h, fun _ => rfl, fun _ => rfl⟩
    rw [setNode_setNode] at hr₂
    have hk := h₂.comp (h₁.comp h₀)
    obtain ⟨g, hg⟩ : ∃ g, g = f₂ ∘ (f₁ ∘ fun d : NodeData => { d with uid := uid }) := ⟨_, rfl⟩
    rw [← hg] at hr₂ hk
    have hrun : ∀ t, Returns ((n.child? "code").elim (pure true) (initCode i))
      (s.setNode i g) true t →
        (initFromYaml i n).Returns s true t := by
      intro t ht
      refine (YamlTree.returns_get hu).bind ((returns_modify _ s).bind ?_)
      rw [if_neg hi0, hset]
      refine (YamlTree.returns_get? hmap hn.text).bind (hr₁.bind ?_)
      refine (YamlTree.returns_get? hmap hn.noLoopCheck).bind (hr₂.bind ?_)
      exact (YamlTree.returns_findChild hmap _).bind (returns_code ht)
    cases hcode : n.child? "code" with
    | none =>
      refine ⟨g, hk, fun _ texts htexts => ?_, hrun _ ?_⟩
      · rw [YamlTree.control?, hcode] at htexts
        cases htexts
      · rw [hcode]
        exact returns_pure _ _
    | some code =>
      have huid' : ((s.setNode i g).node i).uid = uid := by
        rw [node_setNode s hi]
        exact hk.uid _ huid
      have hi' : i < (s.setNode i g).chart.nodes.length := by
        rw [Loader.setNode]
        simpa using hi
      obtain ⟨f, hf, hctl, hr⟩ := inits_initCode (s := s.setNode i g) (hn.code code hcode) hi' huid'
        hlen hus
      refine ⟨f ∘ g, hf.comp hk, fun _ texts htexts => ?_, hrun _ ?_⟩
      · rw [YamlTree.control?, hcode] at htexts
        obtain ⟨code', hc', rfl⟩ := Option.map_eq_some_iff.mp htexts
        obtain ⟨hcc, hkind⟩ := Option.filter_eq_some_iff.mp hc'
        obtain rfl := Option.some.inj hcc
        intro name ps F ht hF
        obtain ⟨ks, hks, hfunc⟩ := hctl (of_decide_eq_true hkind) name ps F ht hF
        exact ⟨ks, hks, fun d => hfunc (g d)⟩
      · rw [hcode, ← setNode_setNode]
        exact hr

/-- **The second loop over the nodes.** -/
theorem returns_initNodes (us : List String) (docs : List YamlTree) (i : ℕ) (s : Loader)
    (hdocs : ∀ k n, docs[k]? = some n → IsNode us n ∧ ∃ uid, n.text? "uid" = some uid ∧
      s.ids uid = some (i + k) ∧ (s.chart.nodes[i + k]?).map (·.uid) = some uid)
    (hus : ∀ u ∈ us, Dashed u ∧ (s.ids u).isSome) :
    ∃ F : ℕ → NodeData → NodeData,
      (initNodes i docs).Returns s true
        { s with chart := { s.chart with nodes := s.chart.nodes.mapIdx F } } ∧
      (∀ j < i, F j = id) ∧ ∀ k n, docs[k]? = some n → ∃ uid, n.text? "uid" = some uid ∧
        Keeps uid (F (i + k)) ∧ (i + k ≠ 0 → ∀ texts, n.control? = some texts →
          HasControl s.ids texts (F (i + k))) := by
  induction docs generalizing i s with
  | nil =>
    refine ⟨fun _ => id, ?_, fun _ _ => rfl, nofun⟩
    have hid : s.chart.nodes.mapIdx (fun _ => id) = s.chart.nodes := by
      refine List.ext_getElem? fun j => ?_
      simp
    rw [hid]
    exact returns_pure _ s
  | cons n docs ih =>
    obtain ⟨hn, uid, hu, hid, hnode⟩ := hdocs 0 n rfl
    rw [Nat.add_zero] at hid hnode
    obtain ⟨d, hd, rfl⟩ := Option.map_eq_some_iff.mp hnode
    have hi : i < s.chart.nodes.length := (List.getElem?_eq_some_iff.mp hd).1
    have hat : s.node i = d := by rw [Loader.node, hd, Option.getD_some]
    obtain ⟨f, hf, hctl, hr⟩ := inits_initFromYaml hn hu hid hi (congrArg NodeData.uid hat) hus
    obtain ⟨F, hrF, hFid, hF⟩ := ih (i + 1) (s.setNode i f) (fun k n' hk => by
      obtain ⟨hn', uid', hu', hid', hnode'⟩ := hdocs (k + 1) n' hk
      rw [← Nat.add_assoc, Nat.add_right_comm] at hid' hnode'
      refine ⟨hn', uid', hu', hid', ?_⟩
      rw [← hnode', Loader.setNode]
      simp only
      rw [List.getElem?_modify_ne f _ (by omega)]) hus
    refine ⟨Function.update F i f, (hr.bind ?_), fun j hj => ?_, fun k n' hk => ?_⟩
    · -- The first node is written before the others, which leave it alone.
      have hstate : (s.chart.nodes.modify i f).mapIdx F =
          s.chart.nodes.mapIdx (Function.update F i f) := by
        refine List.ext_getElem? fun j => ?_
        rw [List.getElem?_mapIdx, List.getElem?_mapIdx, List.getElem?_modify]
        rcases eq_or_ne i j with rfl | hne
        · cases s.chart.nodes[i]? <;> simp [hFid i (Nat.lt_succ_self i)]
        · cases s.chart.nodes[j]? <;> simp [hne, hne.symm]
      rw [← hstate]
      exact hrF
    · rw [Function.update_of_ne (Nat.ne_of_lt hj)]
      exact hFid j (Nat.lt_succ_of_lt hj)
    · cases k with
      | zero =>
        obtain rfl := Option.some.inj hk
        rw [Nat.add_zero, Function.update_self]
        exact ⟨d.uid, hu, hf, hctl⟩
      | succ k =>
        have hne : i + (k + 1) ≠ i := by omega
        have heq : i + 1 + k = i + (k + 1) := by omega
        rw [Function.update_of_ne hne, ← heq]
        exact hF k n' hk

end Nodes

/-! ### Connectors -/

section Connectors

variable {s : Loader} {k : YamlTree} {e : Edge} {us : List String} {i j : ℕ}

theorem returns_connect (he : k.edge? = some e) (hi : s.ids e.start = some i)
    (hj : s.ids e.target = some j) :
    (connect k).Returns s ⟨⟩ (s.setNode i (·.addSubsequence j e.type)) := by
  unfold YamlTree.edge? at he
  split at he
  · rename_i start target type hstart htarget htype
    obtain rfl := Option.some.inj he
    obtain ⟨v, hv, hstoi⟩ := Option.bind_eq_some_iff.mp htype
    refine (YamlTree.returns_get hstart).bind ((YamlTree.returns_get htarget).bind ?_)
    refine (YamlTree.returns_get hv).bind ((returns_get s).bind ?_)
    rw [hstoi, hi, hj]
    exact returns_modify _ s
  · cases he

/-- The ends of the edges of a node with the given types. -/
def ends (us : List String) (es : List Edge) (uid : String) (type : ℤ) : List ℕ :=
  (es.filter fun e => e.start = uid ∧ (e.type = type ∨ e.type = 2)).map fun e => us.idxOf e.target

/-- The node with its successors. -/
def addEdges (us : List String) (es : List Edge) (d : NodeData) : NodeData :=
  { d with
    failure := d.failure ++ ends us es d.uid 0
    success := d.success ++ ends us es d.uid 1 }

theorem ends_append (es : List Edge) (uid : String) (type : ℤ) (e : Edge) :
    ends us (es ++ [e]) uid type = ends us es uid type ++
      if e.start = uid ∧ (e.type = type ∨ e.type = 2) then [us.idxOf e.target] else [] := by
  unfold ends
  rw [List.filter_append, List.map_append]
  by_cases h : e.start = uid ∧ (e.type = type ∨ e.type = 2)
  · simp [h]
  · simp [h]

/-- An edge that starts at the node. -/
theorem addSubsequence_addEdges (es : List Edge) (d : NodeData) (he : e.start = d.uid) :
    (addEdges us es d).addSubsequence (us.idxOf e.target) e.type = addEdges us (es ++ [e]) d := by
  unfold addEdges NodeData.addSubsequence
  simp only [ends_append, he, true_and]
  by_cases h0 : e.type = 0
  · simp [h0]
  · by_cases h1 : e.type = 1
    · simp [h1]
    · by_cases h2 : e.type = 2
      · simp [h2]
      · simp [h0, h1, h2]

theorem addEdges_of_ne (es : List Edge) (d : NodeData) (he : e.start ≠ d.uid) :
    addEdges us (es ++ [e]) d = addEdges us es d := by
  unfold addEdges
  simp [ends_append, he]

/-- **The loop over the connectors.** -/
theorem returns_connectors (ks : List YamlTree) (hids : Indexes s.ids us)
    (hnodes : s.chart.nodes.map (·.uid) = us)
    (hks : ∀ k ∈ ks, ∃ e, k.edge? = some e ∧ e.start ∈ us ∧ e.target ∈ us) :
    (ks.forM connect).Returns s ⟨⟩ { s with chart := { s.chart with
      nodes := s.chart.nodes.map (addEdges us (ks.filterMap YamlTree.edge?)) } } := by
  obtain ⟨t, ht, rfl⟩ := returns_forM (g := connect) (s := s)
    (I := fun done t => t = { s with chart := { s.chart with
      nodes := s.chart.nodes.map (addEdges us (done.filterMap YamlTree.edge?)) } }) ks (by
      have hid : addEdges us [] = id := by
        funext d
        simp [addEdges, ends]
      simp [hid]) (by
      rintro done k rest rfl t rfl
      obtain ⟨e, he, hstart, htarget⟩ := hks k (by simp)
      obtain ⟨i, hi⟩ := hids.exists_of_mem hstart
      obtain ⟨j, hj⟩ := hids.exists_of_mem htarget
      refine ⟨_, returns_connect he hi hj, ?_⟩
      have hlist : ((s.chart.nodes.map (addEdges us (done.filterMap YamlTree.edge?))).modify i
          (·.addSubsequence j e.type)) =
          s.chart.nodes.map (addEdges us ((done ++ [k]).filterMap YamlTree.edge?)) := by
        refine List.ext_getElem? fun m => ?_
        rw [List.getElem?_modify, List.getElem?_map, List.getElem?_map, List.filterMap_append,
          List.filterMap_cons_some he, List.filterMap_nil]
        cases hm : s.chart.nodes[m]? with
        | none => simp
        | some d =>
          have hdm : us[m]? = some d.uid := by
            rw [← hnodes, List.getElem?_map, hm]
            rfl
          by_cases him : i = m
          · subst him
            have hde : e.start = d.uid := by
              exact Option.some.inj (((hids _ _).mp hi).symm.trans hdm)
            simp [← addSubsequence_addEdges _ _ hde, hids.idxOf hj]
          · have hde : e.start ≠ d.uid := by
              intro heq
              exact him (Option.some.inj (hi.symm.trans ((hids _ _).mpr (heq ▸ hdm))))
            simp [him, addEdges_of_ne _ _ hde]
      rw [Loader.setNode]
      simp only [hlist])
  exact ht

end Connectors

/-! ### The chart -/

section Chart

variable {doc n : YamlTree} {us : List String} {data : ChartData}

theorem IsChart.uid_of_mem (h : IsChart doc) (hn : n ∈ doc.items "nodes") :
    ∃ uid, n.text? "uid" = some uid ∧ uid ∈ doc.uids := by
  obtain ⟨uid, hu, -⟩ := (h.nodes n hn).uid
  exact ⟨uid, hu, List.mem_filterMap.mpr ⟨n, hn, hu⟩⟩

/-- The uids of the document are those of its nodes, one after the other. -/
theorem IsChart.getElem?_uids (h : IsChart doc) (i : ℕ) :
    doc.uids[i]? = ((doc.items "nodes")[i]?).bind (·.text? "uid") := by
  have hall : ∀ docs : List YamlTree, (∀ n ∈ docs, (n.text? "uid").isSome) →
      ∀ i : ℕ, (docs.filterMap fun n : YamlTree => n.text? "uid")[i]? =
        (docs[i]?).bind fun n : YamlTree => n.text? "uid" := by
    intro docs
    induction docs with
    | nil => simp
    | cons n docs ih =>
      intro hd i
      obtain ⟨u, hu⟩ := Option.isSome_iff_exists.mp (hd n List.mem_cons_self)
      have ih' := ih fun n' hn' => hd n' (List.mem_cons_of_mem n hn')
      cases i with
      | zero => simp [hu]
      | succ i => simpa [hu] using ih' i
  refine hall _ (fun n hn => ?_) i
  obtain ⟨u, hu, -⟩ := h.uid_of_mem hn
  exact Option.isSome_iff_exists.mpr ⟨u, hu⟩

theorem IsChart.dashed (h : IsChart doc) {uid : String} (hu : uid ∈ doc.uids) : Dashed uid := by
  obtain ⟨n, hn, hnu⟩ := List.mem_filterMap.mp hu
  obtain ⟨u, hu', hd⟩ := (h.nodes n hn).uid
  obtain rfl := Option.some.inj (hnu.symm.trans hu')
  exact hd

theorem getElem?_blankNodes (us : List String) (i : ℕ) :
    (blankNodes us)[i]? = us[i]?.map fun u => { id := i, uid := u } := by
  simp only [blankNodes, List.getElem?_map, List.getElem?_zipIdx, Option.map_map, Nat.zero_add]
  rfl

/-- The `variables` of a chart. -/
theorem IsChart.returns_variables (h : IsChart doc) (s : Loader)
    (hs : s.chart = { name := s.chart.name }) :
    ∃ t, ((doc.child? "variables").forM readVariables).Returns s ⟨⟩ t ∧ t.ids = s.ids ∧
      t.chart.nodes = [] ∧ (t.chart.vars = doc.parameters ∧
        t.chart.variableCount = doc.parameters.length ∧
        t.chart.paramsCount = doc.parameters.countP (·.isParams)) ∧
      Indexes t.chart.variableDict (doc.parameters.map (·.name)) := by
  cases hc : doc.child? "variables" with
  | none =>
    have hnil : doc.parameters = [] := by rw [YamlTree.parameters, YamlTree.items, hc]; rfl
    refine ⟨s, returns_pure _ s, rfl, ?_⟩
    rw [hnil, hs]
    exact ⟨rfl, ⟨rfl, rfl, rfl⟩, indexes_nil⟩
  | some vs =>
    have hitems : doc.items "variables" = vs.children := by rw [YamlTree.items, hc]; rfl
    have hps : doc.parameters = vs.children.filterMap YamlTree.parameter? := by
      rw [YamlTree.parameters, hitems]
    refine ⟨_, returns_readVariables (h.seq vs hc) fun v hv => h.declared v (hitems ▸ hv), rfl, ?_⟩
    rw [hps, hs]
    refine ⟨rfl, ⟨rfl, rfl, rfl⟩, ?_⟩
    exact indexes_dict _ (hps ▸ h.names)

/-- The `nodes` of a chart. -/
theorem IsChart.returns_nodes (h : IsChart doc) (s : Loader) (hs : s.chart.nodes = [])
    (hids : s.ids = fun _ => none) :
    ∃ F t, (readNodes (doc.child? "nodes")).Returns s true t ∧
      t.chart = { s.chart with nodes := (blankNodes doc.uids).mapIdx F } ∧ Indexes t.ids doc.uids ∧
      ∀ k n, (doc.items "nodes")[k]? = some n → ∃ uid, n.text? "uid" = some uid ∧
        Keeps uid (F k) ∧ (k ≠ 0 → ∀ texts, n.control? = some texts →
          HasControl t.ids texts (F k)) := by
  have hprog : readNodes (doc.child? "nodes") =
      (do (doc.items "nodes").forM addNode; initNodes 0 (doc.items "nodes")) := by
    unfold YamlTree.items
    cases doc.child? "nodes" <;> rfl
  rw [hprog]
  obtain ⟨t, ht, hchart, hidx⟩ := returns_addNodes (doc.items "nodes") hs hids
    (fun n hn => by
      obtain ⟨uid, hu, -⟩ := h.uid_of_mem hn
      exact Option.isSome_iff_exists.mpr ⟨uid, hu⟩) h.uids
  change t.chart = { s.chart with nodes := blankNodes doc.uids } at hchart
  change Indexes t.ids doc.uids at hidx
  obtain ⟨F, hr, -, hF⟩ := returns_initNodes doc.uids (doc.items "nodes") 0 t
    (fun k n hk => by
      have hn : n ∈ doc.items "nodes" := List.mem_of_getElem? hk
      obtain ⟨uid, hu, -⟩ := h.uid_of_mem hn
      have hku : doc.uids[k]? = some uid := by
        rw [h.getElem?_uids, hk]
        exact hu
      refine ⟨h.nodes n hn, uid, hu, ?_, ?_⟩
      · rw [Nat.zero_add]
        exact (hidx uid k).mpr hku
      · rw [Nat.zero_add, hchart, getElem?_blankNodes, hku]
        rfl)
    (fun u hu => by
      obtain ⟨i, hi⟩ := hidx.exists_of_mem hu
      exact ⟨h.dashed hu, Option.isSome_iff_exists.mpr ⟨i, hi⟩⟩)
  refine ⟨F, _, ht.bind hr, ?_, hidx, fun k n hk => ?_⟩
  · rw [hchart]
  · have := hF k n hk
    rwa [Nat.zero_add] at this

/-- The parameters of a control node are those of the uids it names. -/
theorem forall₂_names (h : IsChart doc) {ids : String → Option ℕ} (hids : Indexes ids doc.uids)
    {ps : List String} {ks : List ℕ} (hps : ∀ p ∈ ps, ∃ uid ∈ doc.uids, Names p uid)
    (hks : List.Forall₂ (fun p k => ids (paramUid p) = some k) ps ks) :
    List.Forall₂ (fun p k => ∃ uid, Names p uid ∧ doc.uids[k]? = some uid) ps ks := by
  induction hks with
  | nil => exact .nil
  | cons hk _ ih =>
    obtain ⟨uid, hu, hn⟩ := hps _ List.mem_cons_self
    rw [paramUid_of_names (h.dashed hu) hn] at hk
    exact .cons ⟨uid, hn, (hids uid _).mp hk⟩ (ih fun p hp => hps p (List.mem_cons_of_mem _ hp))

/-- The parameters that a control node has name nodes of the chart. -/
theorem IsChart.names_of_control (h : IsChart doc) (hn : n ∈ doc.items "nodes") {name : String}
    {ps : List String} (hc : n.control? = some (name :: ps)) :
    ∀ p ∈ ps, ∃ uid ∈ doc.uids, Names p uid := by
  obtain ⟨code, hcode, htexts⟩ := Option.map_eq_some_iff.mp hc
  obtain ⟨hcode, hkind⟩ := Option.filter_eq_some_iff.mp hcode
  have hkind := of_decide_eq_true hkind
  have his := (h.nodes n hn).code code hcode
  have hcont := his.content hkind
  have hparams := his.params hkind
  intro p hp
  cases hcs : code.items "content" with
  | nil =>
    rw [hcs] at htexts
    cases htexts
  | cons c cs =>
    obtain ⟨v, hv⟩ := Option.isSome_iff_exists.mp (hcont c (hcs ▸ List.mem_cons_self))
    rw [hcs, List.filterMap_cons_some hv] at htexts
    obtain ⟨-, rfl⟩ := List.cons.inj htexts
    obtain ⟨c', hc', hp'⟩ := List.mem_filterMap.mp hp
    exact hparams c' (by rw [hcs]; exact hc') p hp'

/-- **Loading a YAML chart is faithful**: `ChartData::FromYaml` succeeds for every chart
document, and the chart data is what the document describes. -/
theorem fromYaml_faithful (h : IsChart doc) :
    ∃ s, (fromYaml doc).Returns {} true s ∧ Faithful doc s.chart := by
  obtain ⟨path, hpath⟩ := Option.isSome_iff_exists.mp h.path
  obtain ⟨c, hc, hval⟩ := Option.bind_eq_some_iff.mp hpath
  have hmap : doc.isMap := YamlTree.isMap_of_text? hpath
  obtain ⟨s, hvars, hids, hnil, hdecl, hdict⟩ :=
    h.returns_variables { chart := { name := path } } rfl
  obtain ⟨F, t, hnodes, hchart, hidx, hF⟩ := h.returns_nodes s hnil hids
  -- A node of the chart, with the node of the document it was read from.
  have hnode : ∀ (i : ℕ) d, t.chart.nodes[i]? = some d → ∃ n uid, (doc.items "nodes")[i]? = some n ∧
      doc.uids[i]? = some uid ∧ Keeps uid (F i) ∧ d = F i { id := i, uid := uid } ∧
      (i ≠ 0 → ∀ texts, n.control? = some texts → HasControl t.ids texts (F i)) := by
    intro i d hd
    rw [hchart, List.getElem?_mapIdx, getElem?_blankNodes, Option.map_map] at hd
    obtain ⟨uid, hu, rfl⟩ := Option.map_eq_some_iff.mp hd
    obtain ⟨n, hn, hnu⟩ := Option.bind_eq_some_iff.mp ((h.getElem?_uids i).symm.trans hu)
    obtain ⟨uid', hu', hk, hctl⟩ := hF i n hn
    obtain rfl := Option.some.inj (hnu.symm.trans hu')
    exact ⟨n, uid, hn, hu, hk, rfl, hctl⟩
  have hlen : t.chart.nodes.length = doc.uids.length := by
    rw [hchart]
    simp [blankNodes]
  have huids : t.chart.nodes.map (·.uid) = doc.uids := by
    refine List.ext_getElem? fun i => ?_
    rw [List.getElem?_map]
    cases hd : t.chart.nodes[i]? with
    | none =>
      rw [List.getElem?_eq_none_iff, hlen] at hd
      rw [List.getElem?_eq_none hd]
      rfl
    | some d =>
      obtain ⟨n, uid, -, hu, hk, rfl, -⟩ := hnode i d hd
      rw [hu, Option.map_some, hk.uid _ rfl]
  have hconn := returns_connectors (doc.items "connectors") hidx huids h.connectors
  have hprog : readConnectors (doc.child? "connectors") =
      (doc.items "connectors").forM connect := by
    unfold YamlTree.items
    cases doc.child? "connectors" <;> rfl
  rw [← hprog] at hconn
  have hrun : ∀ u, (readConnectors (doc.child? "connectors")).Returns t ⟨⟩ u →
      (fromYaml doc).Returns {} true u := by
    intro u hu
    refine (YamlTree.returns_findChild hmap "path").bind ?_
    rw [hc]
    refine (YamlTree.returns_val hval).bind ((returns_modify _ _).bind ?_)
    refine (YamlTree.returns_findChild hmap _).bind (hvars.bind ?_)
    refine (YamlTree.returns_findChild hmap _).bind (hnodes.bind ?_)
    exact (YamlTree.returns_findChild hmap _).bind (hu.bind (returns_pure _ _))
  refine ⟨_, hrun _ hconn, ?_⟩
  change Faithful doc { t.chart with nodes := t.chart.nodes.map (addEdges doc.uids doc.edges) }
  have hrest : t.chart.vars = s.chart.vars ∧ t.chart.variableCount = s.chart.variableCount ∧
      t.chart.paramsCount = s.chart.paramsCount ∧ t.chart.variableDict = s.chart.variableDict := by
    rw [hchart]
    exact ⟨rfl, rfl, rfl, rfl⟩
  have hends : ∀ d ∈ t.chart.nodes.map (addEdges doc.uids doc.edges),
      d.failure = ends doc.uids doc.edges d.uid 0 ∧
        d.success = ends doc.uids doc.edges d.uid 1 := by
    intro d hd
    obtain ⟨d₀, hd₀, rfl⟩ := List.mem_map.mp hd
    obtain ⟨i, hi⟩ := List.mem_iff_getElem?.mp hd₀
    obtain ⟨n, uid, -, -, hk, rfl, -⟩ := hnode i d₀ hi
    simp [addEdges, hk.failure, hk.success]
  constructor
  · refine List.ext_getElem? fun i => ?_
    rw [List.map_map, List.getElem?_map, List.getElem?_map, List.getElem?_zipIdx]
    cases hd : t.chart.nodes[i]? with
    | none =>
      rw [List.getElem?_eq_none_iff, hlen] at hd
      rw [List.getElem?_eq_none hd]
      rfl
    | some d =>
      obtain ⟨n, uid, -, hu, hk, rfl, -⟩ := hnode i d hd
      rw [hu]
      simp [addEdges, hk.id, hk.uid]
  · exact fun d hd => (hends d hd).1
  · exact fun d hd => (hends d hd).2
  · intro i d n name ps f hi hd hn hc hf
    rw [List.getElem?_map] at hd
    obtain ⟨d₀, hd₀, rfl⟩ := Option.map_eq_some_iff.mp hd
    obtain ⟨n', uid, hn', -, -, rfl, hctl⟩ := hnode i d₀ hd₀
    obtain rfl := Option.some.inj (hn.symm.trans hn')
    obtain ⟨ks, hks, hfunc⟩ := hctl hi _ hc name ps f rfl hf
    have hps := h.names_of_control (List.mem_of_getElem? hn) hc
    exact ⟨ks, hfunc _, forall₂_names h hidx hps hks⟩
  · exact ⟨hrest.1.trans hdecl.1, hrest.2.1.trans hdecl.2.1, hrest.2.2.1.trans hdecl.2.2⟩
  · intro name i
    change t.chart.variableDict name = some i ↔ _
    rw [hrest.2.2.2, hdict name i, List.getElem?_map]

/-- The uid of 32 equal digits. -/
def sampleUid (c : Char) : String :=
  String.ofList (ntoD (List.replicate 32 c))

/-- A chart with a control node that names a later node by its digits and itself by its uid,
and with a repeated connector. -/
def sampleDoc : YamlTree :=
  .map [("path", .scalar "AI.sample"),
    ("variables", .seq [
      .map [("name", .scalar "x"), ("type", .scalar "int"), ("is_param", .scalar "true")],
      .map [("name", .scalar "y"), ("type", .scalar "string")]]),
    ("nodes", .seq [
      .map [("uid", .scalar (sampleUid '0'))],
      .map [("uid", .scalar (sampleUid '1')), ("code", .map [("type", .scalar "CONTROL"),
        ("content", .seq [.scalar "waitall", .scalar (String.ofList (List.replicate 32 '2')),
          .scalar (sampleUid '1')])])],
      .map [("uid", .scalar (sampleUid '2')), ("text", .scalar "run"),
        ("code", .map [("type", .scalar "FUNC")])]]),
    ("connectors", .seq [
      .map [("start", .scalar (sampleUid '0')), ("end", .scalar (sampleUid '2')),
        ("type", .scalar "2")],
      .map [("start", .scalar (sampleUid '2')), ("end", .scalar (sampleUid '1')),
        ("type", .scalar "1")],
      .map [("start", .scalar (sampleUid '2')), ("end", .scalar (sampleUid '1')),
        ("type", .scalar "1")]])]

/-- The sample is loaded as it says. -/
theorem fromYaml_sample : ∃ s, (fromYaml sampleDoc).Returns {} true s ∧
    Faithful sampleDoc s.chart :=
  fromYaml_faithful (by decide +kernel)

end Chart

end Loading

end Asyncflow
