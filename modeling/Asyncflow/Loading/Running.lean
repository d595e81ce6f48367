import Asyncflow.Core.Loader
import Asyncflow.Loading.Positions
import Asyncflow.Loading.Uids

/-!
# What running reads of a loaded chart

The runtime reads less of a chart than its loaders write: no texts, no variables, and of a function
object only whether it is a script or which control function it is. `Asyncflow.fromYaml` and
`ChartData.patchFromYaml` are the loaders as far as that goes, on documents that are read
already. Here the two descriptions are compared: what is not read is forgotten, of a document
(`Asyncflow.Loading.YamlTree.forget`) and of chart data (`Asyncflow.Loading.ChartData.forget`), and
a load or a patch that returns agrees with the one of the runtime.
-/

namespace Asyncflow

namespace Loading

open Program

/-! ### What is forgotten -/

/-- A node function as running reads it. -/
def NodeFunc.forget : NodeFunc → Asyncflow.NodeFunc
  | .script _ _ => .script
  | .control .stopFlow params => .stopFlow params
  | .control .stopNode params => .stopNode params
  | .control .waitAll params => .waitAll params

/-- A node as running reads it. -/
def NodeData.forget (d : NodeData) : Asyncflow.NodeData where
  uid := d.uid
  func := (d.func.map NodeFunc.forget).getD .null
  isEvent := d.isEvent
  noLoopCheck := d.noLoopCheck
  failure := d.failure
  success := d.success

/-- Chart data as running reads it, before it is registered. -/
def ChartData.forget (data : ChartData) : Asyncflow.ChartData where
  name := data.name
  startFuncName := data.startFuncName
  nodes := data.nodes.map NodeData.forget

namespace YamlTree

/-- The `code` of a node. -/
def forgetCode (code : YamlTree) : YamlCode :=
  if code.kind? = some "FUNC".toList ∨ code.kind? = some "EVENT".toList then
    .func (code.kind? = some "EVENT".toList)
  else if code.kind? = some "CONTROL".toList then
    .control ((code.items "content").filterMap scalar?)
  else if code.kind? = some "ERROR".toList then .error
  else .other

/-- A node with an uid. -/
def forgetNode (n : YamlTree) (uid : String) : YamlNode where
  uid := uid
  noLoopCheck := (n.text? "no_loop_check").map fun b => b = "true"
  code := (n.child? "code").map forgetCode

/-- The nodes with an uid. The others do not get into a chart. -/
def forgetNodes (ns : List YamlTree) : List YamlNode :=
  ns.filterMap fun n => (n.text? "uid").map n.forgetNode

/-- A connector. -/
def forgetConnector (k : YamlTree) : YamlConnector where
  start := (k.text? "start").getD ""
  target := (k.text? "end").getD ""
  type := (k.text? "type").bind stoi

/-- A document. -/
def forget (doc : YamlTree) : YamlChart where
  path := (doc.text? "path").getD ""
  nodes := forgetNodes (doc.items "nodes")
  connectors := (doc.items "connectors").map forgetConnector

end YamlTree

/-! ### A node -/

section Nodes

variable {ids : String → Option ℕ} {known : String → Bool} {uid : String} {i : ℕ} {d : NodeData}
  {data : ChartData} {n : YamlTree}

theorem ntoD_eq {p : String} (hp : p.length = 32) :
    Asyncflow.ntoD p = String.ofList (ntoD p.toList) := by
  have hlen : p.toList.length = 32 := String.length_toList.trans hp
  unfold Asyncflow.ntoD ntoD
  rw [List.take_of_length_le (by simp [hlen] : (p.toList.drop 20).length ≤ 12)]

/-- A parameter is looked up under one uid. -/
theorem paramUid_eq (p : String) :
    (if p.length = 32 then Asyncflow.ntoD p else p) = paramUid p := by
  unfold paramUid
  split_ifs with hp
  · exact ntoD_eq hp
  · rfl

/-- The parameters of a control node, if none of them aborts the load. -/
theorem controlParams_eq (hk : ∀ u, known u = (ids u).isSome) (cs : List YamlTree)
    (hcs : ∀ e, cs.findSome? (YamlTree.paramFault? known) ≠ some (.abort e)) :
    controlParams ids (cs.filterMap YamlTree.scalar?) = YamlTree.paramsOf ids cs ∧
      (YamlTree.paramsOf ids cs).isSome =
        decide (cs.findSome? (YamlTree.paramFault? known) = none) := by
  induction cs with
  | nil => exact ⟨rfl, rfl⟩
  | cons c cs ih =>
    rw [List.findSome?_cons] at hcs ⊢
    cases hv : c.scalar? with
    | none =>
      rw [YamlTree.paramFault?, hv] at hcs
      exact absurd rfl (hcs .assertion)
    | some v =>
      have hfault : YamlTree.paramFault? known c =
          if known (paramUid v) then none else some .rejected := by
        rw [YamlTree.paramFault?, hv]
      rw [List.filterMap_cons_some hv, controlParams, YamlTree.paramsOf, List.mapM_cons,
        List.mapM_cons, paramUid_eq, hv, Option.bind_some, hfault]
      cases hi : ids (paramUid v) with
      | none =>
        -- The first parameter that names no node ends both lists.
        have hno : known (paramUid v) = false := by rw [hk, hi]; rfl
        rw [if_neg (by rw [hno]; exact Bool.false_ne_true)]
        exact ⟨rfl, rfl⟩
      | some i =>
        have hyes : known (paramUid v) = true := by rw [hk, hi]; rfl
        rw [hfault, if_pos hyes] at hcs
        obtain ⟨heq, hsome⟩ := ih hcs
        rw [controlParams] at heq
        rw [if_pos hyes]
        unfold YamlTree.paramsOf at heq hsome
        rw [heq]
        refine ⟨rfl, Eq.trans ?_ hsome⟩
        cases cs.mapM fun c => (c.scalar?.bind fun v => ids (paramUid v)).map (Nat.cast : ℕ → ℤ) <;>
          rfl

theorem controlFunc_eq (name : String) (params : List ℤ) : Asyncflow.controlFunc name params =
    (controlFunc name).map fun f => NodeFunc.forget (.control f params) := by
  unfold Asyncflow.controlFunc controlFunc
  split_ifs <;> rfl

theorem forget_scriptOf (name uid : String) (code : YamlTree) :
    (YamlTree.scriptOf name uid code).forget = .script := by
  unfold YamlTree.scriptOf
  split <;> rfl

/-- The `content` of a control node. -/
theorem initControl_eq (hk : ∀ u, known u = (ids u).isSome) (cs : List YamlTree)
    (hcs : ∀ e, YamlTree.contentFault? known cs ≠ some (.abort e)) (d : NodeData) :
    Asyncflow.NodeData.initCode ids (some (.control (cs.filterMap YamlTree.scalar?))) d.forget =
      (decide (YamlTree.contentFault? known cs = none),
        (NodePatch.apply { func := YamlTree.controlOf ids cs } d).forget) := by
  cases cs with
  | nil => rfl
  | cons c cs =>
    rw [YamlTree.contentFault?] at hcs ⊢
    unfold YamlTree.scalarFault? at hcs ⊢
    cases hv : c.scalar? with
    | none =>
      rw [hv] at hcs
      exact absurd rfl (hcs .assertion)
    | some name =>
      rw [hv, Option.isSome_some, if_pos rfl, Option.map_none, Option.none_or] at hcs
      obtain ⟨heq, hsome⟩ := controlParams_eq hk cs hcs
      rw [Option.isSome_some, if_pos rfl, Option.map_none, Option.none_or,
        List.filterMap_cons_some hv, ← hsome, Asyncflow.NodeData.initCode, heq,
        YamlTree.controlOf, hv]
      cases YamlTree.paramsOf ids cs with
      | none =>
        cases hf : controlFunc name with
        | none => simp [NodePatch.apply, hf]
        | some f => simp [NodePatch.apply, hf]
      | some ps =>
        dsimp only
        rw [controlFunc_eq]
        cases hf : controlFunc name with
        | none => simp [NodePatch.apply, hf, NodeData.forget]
        | some f => simp [NodePatch.apply, hf, NodeData.forget]

/-- **The `code` of a node.** -/
theorem initCode_eq (data : ChartData) (hk : ∀ u, known u = (ids u).isSome) {code : YamlTree}
    (hcode : ∀ e, code.codeFault? known uid ≠ some (.abort e)) (d : NodeData) :
    Asyncflow.NodeData.initCode ids (some code.forgetCode) d.forget =
      (decide (code.codeFault? known uid = none),
        ((code.codePatch data ids uid).apply d).forget) := by
  unfold YamlTree.codeFault? at hcode ⊢
  unfold YamlTree.forgetCode YamlTree.codePatch
  cases hkind : code.kind? with
  | none =>
    rw [hkind] at hcode
    exact absurd rfl (hcode .assertion)
  | some kind =>
    rw [hkind] at hcode
    simp only [Option.some.injEq] at hcode ⊢
    by_cases hscript : kind = "FUNC".toList ∨ kind = "EVENT".toList
    · rw [if_pos hscript] at hcode
      simp only [if_pos hscript]
      have hnone : code.scriptFault? uid = none := by
        cases hs : code.scriptFault? uid with
        | none => rfl
        | some e =>
          rw [hs] at hcode
          exact absurd rfl (hcode e)
      simp [hnone, Asyncflow.NodeData.initCode, NodePatch.apply, NodeData.forget, forget_scriptOf]
    · rw [if_neg hscript] at hcode
      simp only [if_neg hscript]
      by_cases hcontrol : kind = "CONTROL".toList
      · rw [if_pos hcontrol] at hcode
        simp only [if_pos hcontrol]
        exact initControl_eq hk _ hcode d
      · simp only [if_neg hcontrol]
        by_cases herror : kind = "ERROR".toList
        · simp only [if_pos herror]
          rfl
        · simp only [if_neg herror]
          rfl

/-- **`NodeData::InitFromYaml`.** -/
theorem initFromYaml_eq (data : ChartData) (hk : ∀ u, known u = (ids u).isSome)
    (hn : ∀ e, n.bodyFault? known (i = 0) uid ≠ some (.abort e)) (d : NodeData) :
    Asyncflow.NodeData.initFromYaml ids i (n.forgetNode uid) d.forget =
      (decide (n.bodyFault? known (i = 0) uid = none),
        ((n.nodePatch data ids (i = 0) uid).apply { d with uid := uid }).forget) := by
  unfold YamlTree.bodyFault? at hn ⊢
  unfold Asyncflow.NodeData.initFromYaml YamlTree.nodePatch
  by_cases hi : i = 0
  · simp only [hi, decide_true, ↓reduceIte]
    rfl
  · simp only [hi, decide_false, Bool.false_eq_true, ↓reduceIte] at hn ⊢
    by_cases ho : n.Optional "text" ∧ n.Optional "no_loop_check"
    swap
    · rw [if_neg ho] at hn
      exact absurd rfl (hn .assertion)
    rw [if_pos ho] at hn ⊢
    -- The node before its `code` is read.
    let b : NodeData := { d with
      uid := uid
      text := (n.text? "text").getD d.text
      noLoopCheck := ((n.text? "no_loop_check").map fun b => decide (b = "true")).getD
        d.noLoopCheck }
    change Asyncflow.NodeData.initCode ids ((n.child? "code").map YamlTree.forgetCode) b.forget = _
    cases hcode : n.child? "code" with
    | none => rfl
    | some code =>
      rw [hcode] at hn
      rw [Option.map_some, initCode_eq data hk hn]
      obtain ⟨ht, hl⟩ := codePatch_blank data ids uid code
      have hpatch : (code.codePatch data ids uid).apply b = NodePatch.apply
          { code.codePatch data ids uid with
            text := n.text? "text"
            noLoopCheck := (n.text? "no_loop_check").map fun b => decide (b = "true") }
          { d with uid := uid } := by
        unfold NodePatch.apply
        rw [ht, hl]
        rfl
      rw [hpatch]
      rfl

end Nodes

/-! ### The nodes of a list -/

section Lists

variable {ns : List YamlTree} {us : List String} {ids : String → Option ℕ} {i : ℕ}
  {s t : Loader} {nodes pre post : List NodeData}

theorem map_modify {f : NodeData → NodeData} {g : Asyncflow.NodeData → Asyncflow.NodeData}
    (h : ∀ d, nodes[i]? = some d → (f d).forget = g d.forget) :
    (nodes.modify i f).map NodeData.forget = (nodes.map NodeData.forget).modify i g := by
  refine List.ext_getElem? fun j => ?_
  rw [List.getElem?_map, List.getElem?_modify, List.getElem?_modify, List.getElem?_map]
  cases hd : nodes[j]? with
  | none => rfl
  | some d =>
    rcases eq_or_ne i j with rfl | hne
    · simp [h d hd]
    · simp [hne]

/-- The last pair with an uid counts. -/
theorem putIds_eq (ids : String → Option ℕ) (ps : List (String × ℕ)) (u : String) :
    putIds ids ps u = ((ps.reverse.find? fun p => p.1 = u).map (·.2)).or (ids u) := by
  induction ps generalizing ids with
  | nil => rfl
  | cons p ps ih =>
    change putIds (Function.update ids p.1 (some p.2)) ps u = _
    rw [ih, List.reverse_cons, List.find?_append]
    cases hf : ps.reverse.find? fun p => p.1 = u with
    | some q => rfl
    | none =>
      rcases eq_or_ne p.1 u with rfl | hne
      · simp
      · simp [hne, Function.update_of_ne hne.symm]

theorem putIds_putIds (ids : String → Option ℕ) (ps : List (String × ℕ)) :
    putIds (putIds ids ps) ps = putIds ids ps := by
  funext u
  rw [putIds_eq, putIds_eq]
  cases ps.reverse.find? fun p => p.1 = u <;> rfl

/-- The map of the runtime's loader. -/
theorem yamlIds_eq (docs : List YamlNode) :
    yamlIds docs = putIds (fun _ => none) (docs.map (·.uid)).zipIdx := by
  funext u
  rw [putIds_eq, List.zipIdx_map, ← List.map_reverse, List.find?_map, yamlIds, Option.map_map,
    Option.or_none]
  rfl

theorem uids_forgetNodes (ns : List YamlTree) :
    (YamlTree.forgetNodes ns).map (·.uid) = ns.filterMap (·.text? "uid") := by
  unfold YamlTree.forgetNodes
  rw [List.map_filterMap]
  refine congrArg (List.filterMap · ns) ?_
  funext n
  cases n.text? "uid" <;> rfl

theorem filterMap_of_mapM {α β : Type} {f : α → Option β} {l : List α} {l' : List β}
    (h : l.mapM f = some l') : l.filterMap f = l' := by
  induction l generalizing l' with
  | nil => exact Option.some.inj h
  | cons a l ih =>
    simp only [List.mapM_cons, Option.bind_eq_bind, Option.bind_eq_some_iff] at h
    obtain ⟨b, hb, bs, hbs, heq⟩ := h
    obtain rfl := Option.some.inj heq
    rw [List.filterMap_cons_some hb, ih hbs]

/-- All nodes that have been read have an uid. -/
theorem exists_uids (h : (initNodes i ns).Returns s true t) :
    ∃ us, ns.mapM (·.text? "uid") = some us := by
  induction ns generalizing i s with
  | nil => exact ⟨[], rfl⟩
  | cons n ns ih =>
    obtain ⟨ok, w, hw, h⟩ := returns_bind_iff.mp h
    cases ok with
    | false => cases (returns_pure_iff.mp h).1
    | true =>
      obtain ⟨us, hus⟩ := ih h
      obtain ⟨u, v, hu, -⟩ := returns_bind_iff.mp hw
      rw [YamlTree.returns_get_iff] at hu
      exact ⟨u :: us, by rw [List.mapM_cons, hu.1, hus]; rfl⟩

theorem modify_length {d : NodeData} (f : NodeData → NodeData) :
    (pre ++ d :: post).modify pre.length f = pre ++ f d :: post := by
  induction pre with
  | nil => rfl
  | cons a pre ih => simpa using ih

theorem initNodes_cons {doc : YamlNode} {docs : List YamlNode} {a : Asyncflow.NodeData}
    {l : List Asyncflow.NodeData}
    (hdoc : Asyncflow.NodeData.initFromYaml (Function.update ids doc.uid (some i)) i doc
      { uid := doc.uid } = (true, a))
    (hdocs : Asyncflow.initNodes (Function.update ids doc.uid (some i)) (i + 1) docs = (true, l)) :
    Asyncflow.initNodes ids i (doc :: docs) = (true, a :: l) := by
  rw [Asyncflow.initNodes]
  simp [hdoc, hdocs]

/-- A round of the second loop. -/
theorem initNode_eq {n : YamlTree} {uid : String} {d : NodeData} (hu : n.text? "uid" = some uid)
    (hs : s.chart.nodes = pre ++ d :: post) (hd : d.forget = { uid := uid })
    (h : (initFromYaml pre.length n).Returns s true t) :
    ∃ d', t.chart = { s.chart with nodes := pre ++ d' :: post } ∧
      t.ids = Function.update s.ids uid (some pre.length) ∧
      Asyncflow.NodeData.initFromYaml (Function.update s.ids uid (some pre.length)) pre.length
        (n.forgetNode uid) { uid := uid } = (true, d'.forget) := by
  have hi : pre.length < s.chart.nodes.length := by
    rw [hs, List.length_append, List.length_cons]
    omega
  have hout := initFromYaml_outcome hu (fun _ => rfl) hi
  generalize ho : n.bodyFault? _ (pre.length = 0) uid = o at hout
  match o, hout with
  | some .rejected, hout => cases (hout.unique h).1
  | some (.abort e), ⟨v, hv⟩ => exact absurd h hv.not_returns
  | none, hout =>
    obtain ⟨-, rfl⟩ := hout.unique h
    have hone := initFromYaml_eq s.chart (fun _ => rfl) (by rw [ho]; nofun) d
    rw [ho, hd, decide_eq_true rfl] at hone
    refine ⟨_, ?_, rfl, hone⟩
    change ({ s.chart with nodes := s.chart.nodes.modify pre.length _ } : ChartData) = _
    rw [hs, modify_length]

/-- **The second loop of `ChartData::FromYaml`.** -/
theorem initNodes_eq (hus : ns.mapM (·.text? "uid") = some us) (hs : s.chart.nodes = pre ++ post)
    (hpost : post.map NodeData.forget = us.map fun u => { uid := u })
    (h : (initNodes pre.length ns).Returns s true t) :
    ∃ post', t.chart = { s.chart with nodes := pre ++ post' } ∧
      Asyncflow.initNodes s.ids pre.length (YamlTree.forgetNodes ns) =
        (true, post'.map NodeData.forget) := by
  induction ns generalizing s us pre post with
  | nil =>
    obtain rfl := Option.some.inj hus
    obtain ⟨-, rfl⟩ := returns_pure_iff.mp h
    obtain rfl := List.map_eq_nil_iff.mp hpost
    exact ⟨[], by rw [← hs], rfl⟩
  | cons n ns ih =>
    simp only [List.mapM_cons, Option.bind_eq_bind, Option.bind_eq_some_iff] at hus
    obtain ⟨u, hu, us', hus', hcons⟩ := hus
    obtain rfl := Option.some.inj hcons
    obtain ⟨d, post, rfl, hd, hpost⟩ := List.map_eq_cons_iff.mp hpost
    obtain ⟨ok, w, hw, h⟩ := returns_bind_iff.mp h
    cases ok with
    | false => cases (returns_pure_iff.mp h).1
    | true =>
      obtain ⟨d', hchart, hids, hone⟩ := initNode_eq hu hs hd hw
      -- The node that has been read goes to the nodes in front.
      have hnodes : w.chart.nodes = (pre ++ [d']) ++ post := by
        rw [hchart, List.append_assoc]
        rfl
      have hlen : (pre ++ [d']).length = pre.length + 1 := List.length_append
      rw [if_pos rfl, ← hlen] at h
      obtain ⟨post', hpost', hrest⟩ := ih hus' hnodes hpost h
      refine ⟨d' :: post', ?_, ?_⟩
      · rw [hpost', hchart, List.append_assoc]
        rfl
      · have hcons : YamlTree.forgetNodes (n :: ns) =
            n.forgetNode u :: YamlTree.forgetNodes ns := by
          unfold YamlTree.forgetNodes
          rw [List.filterMap_cons, hu]
          rfl
        rw [hlen, hids] at hrest
        rw [hcons]
        exact initNodes_cons hone hrest

/-- **The first loop of `ChartData::FromYaml`.** -/
theorem chart_of_addNodes (hus : ns.mapM (·.text? "uid") = some us)
    (h : (ns.forM addNode).Returns s ⟨⟩ t) : ∃ post,
    t.chart = { s.chart with nodes := s.chart.nodes ++ post } ∧
      post.map NodeData.forget = us.map fun u => { uid := u } := by
  induction ns generalizing s us with
  | nil =>
    obtain rfl := Option.some.inj hus
    obtain ⟨-, rfl⟩ := returns_pure_iff.mp h
    exact ⟨[], by rw [List.append_nil], rfl⟩
  | cons n ns ih =>
    simp only [List.mapM_cons, Option.bind_eq_bind, Option.bind_eq_some_iff] at hus
    obtain ⟨u, hu, us', hus', hcons⟩ := hus
    obtain rfl := Option.some.inj hcons
    obtain ⟨⟨⟩, w, hw, h⟩ := returns_bind_iff.mp h
    obtain ⟨-, rfl⟩ := hw.unique (returns_addNode hu)
    obtain ⟨post, hchart, hpost⟩ := ih hus' h
    refine ⟨{ id := s.chart.nodes.length, uid := u } :: post, ?_, ?_⟩
    · rw [hchart]
      simp [Loader.setId]
    · rw [List.map_cons, hpost]
      rfl

/-! ### Connectors -/

theorem addSubsequence_forget (d : NodeData) (j : ℕ) (type : ℤ) :
    (d.addSubsequence j type).forget = d.forget.addSubsequence j type := by
  unfold NodeData.addSubsequence Asyncflow.NodeData.addSubsequence
  split_ifs <;> rfl

theorem connect_eq {k : YamlTree} (h : (connect k).Returns s ⟨⟩ t) :
    t.ids = s.ids ∧ t.chart = { s.chart with nodes := t.chart.nodes } ∧
      Asyncflow.connect s.ids k.forgetConnector (s.chart.nodes.map NodeData.forget) =
        some (t.chart.nodes.map NodeData.forget) := by
  obtain ⟨start, s₁, h₁, h⟩ := returns_bind_iff.mp h
  obtain ⟨target, s₂, h₂, h⟩ := returns_bind_iff.mp h
  obtain ⟨type, s₃, h₃, h⟩ := returns_bind_iff.mp h
  obtain ⟨s₄, s₅, h₄, h⟩ := returns_bind_iff.mp h
  obtain ⟨hstart, rfl⟩ := YamlTree.returns_get_iff.mp h₁
  obtain ⟨htarget, rfl⟩ := YamlTree.returns_get_iff.mp h₂
  obtain ⟨htype, rfl⟩ := YamlTree.returns_get_iff.mp h₃
  obtain ⟨rfl, rfl⟩ := (returns_get s).unique h₄
  have hk : k.forgetConnector = { start := start, target := target, type := stoi type } := by
    rw [YamlTree.forgetConnector, hstart, htarget, htype]
    rfl
  rw [hk, Asyncflow.connect]
  dsimp only
  cases hty : stoi type with
  | none =>
    rw [hty] at h
    exact absurd h not_returns_throw
  | some n =>
    cases hi : s.ids start with
    | none =>
      rw [hty, hi] at h
      exact absurd h not_returns_throw
    | some i =>
      cases hj : s.ids target with
      | none =>
        rw [hty, hi, hj] at h
        exact absurd h not_returns_throw
      | some j =>
        rw [hty, hi, hj] at h
        obtain rfl := returns_modify_iff.mp h
        refine ⟨rfl, rfl, congrArg some ?_⟩
        exact (map_modify fun d _ => addSubsequence_forget d j n).symm

/-- **The connectors.** -/
theorem connectAll_eq {ks : List YamlTree} (h : (ks.forM connect).Returns s ⟨⟩ t) :
    t.chart = { s.chart with nodes := t.chart.nodes } ∧
      connectAll s.ids (ks.map YamlTree.forgetConnector) (s.chart.nodes.map NodeData.forget) =
        some (t.chart.nodes.map NodeData.forget) := by
  induction ks generalizing s with
  | nil =>
    obtain ⟨-, rfl⟩ := returns_pure_iff.mp h
    exact ⟨rfl, rfl⟩
  | cons k ks ih =>
    obtain ⟨⟨⟩, u, hu, h⟩ := returns_bind_iff.mp h
    obtain ⟨hids, hchart, hone⟩ := connect_eq hu
    obtain ⟨hchart', hrest⟩ := ih h
    refine ⟨?_, ?_⟩
    · rw [hchart', hchart]
    · rw [hids] at hrest
      unfold connectAll at hrest ⊢
      rw [List.map_cons, List.foldlM_cons, hone]
      exact hrest

/-- The connectors of a document. -/
theorem readConnectors_eq {doc : YamlTree}
    (h : (readConnectors (doc.child? "connectors")).Returns s ⟨⟩ t) :
    t.chart = { s.chart with nodes := t.chart.nodes } ∧
      connectAll s.ids doc.forget.connectors (s.chart.nodes.map NodeData.forget) =
        some (t.chart.nodes.map NodeData.forget) := by
  unfold YamlTree.forget YamlTree.items
  cases hks : doc.child? "connectors" with
  | none =>
    rw [hks] at h
    obtain ⟨-, rfl⟩ := returns_pure_iff.mp h
    exact ⟨rfl, rfl⟩
  | some ks =>
    rw [hks] at h
    exact connectAll_eq h

end Lists

/-! ### Charts -/

section Charts

variable {doc : YamlTree} {s t : Loader}

/-- The `nodes` of a document. -/
theorem readNodes_eq (hs : s.chart.nodes = []) (hids : s.ids = fun _ => none)
    (h : (readNodes (doc.child? "nodes")).Returns s true t) :
    t.chart = { s.chart with nodes := t.chart.nodes } ∧ t.ids = yamlIds doc.forget.nodes ∧
      Asyncflow.initNodes (yamlIds doc.forget.nodes) 0 doc.forget.nodes =
        (true, t.chart.nodes.map NodeData.forget) := by
  rw [yamlIds_eq]
  unfold YamlTree.forget YamlTree.items
  dsimp only
  cases hn : doc.child? "nodes" with
  | none =>
    rw [hn] at h
    obtain ⟨-, rfl⟩ := returns_pure_iff.mp h
    rw [hs]
    exact ⟨by rw [← hs], hids, rfl⟩
  | some nodes =>
    rw [hn] at h
    obtain ⟨⟨⟩, u, hu, h⟩ := returns_bind_iff.mp h
    obtain ⟨us, hus⟩ := exists_uids h
    obtain ⟨huids, hulen⟩ := ids_of_addNodes hus hu
    obtain ⟨post, hchart, hpost⟩ := chart_of_addNodes hus hu
    rw [hs, List.nil_append] at hchart
    rw [hids, hs] at huids
    rw [hs, List.length_nil, Nat.zero_add] at hulen
    have hnodes : u.chart.nodes = [] ++ post := by rw [hchart]; rfl
    obtain ⟨post', hchart', hinit⟩ := initNodes_eq hus hnodes hpost h
    -- The second loop puts the same pairs into the map again.
    have hvids := ids_of_initNodes hus (Nat.le_of_eq (by rw [hulen, Nat.zero_add])) h
    have huids' : (YamlTree.forgetNodes nodes.children).map (·.uid) = us := by
      rw [uids_forgetNodes, filterMap_of_mapM hus]
    have hids' : u.ids = putIds (fun _ => none)
        ((YamlTree.forgetNodes nodes.children).map (·.uid)).zipIdx := by rw [huids', huids]; rfl
    refine ⟨?_, ?_, ?_⟩
    · rw [hchart', hchart]
    · rw [hvids, huids, Option.map_some, Option.getD_some, huids']
      exact putIds_putIds _ _
    · rw [Option.map_some, Option.getD_some, ← hids', hchart']
      exact hinit

theorem sameNodes_of_readVariables
    (h : ((doc.child? "variables").forM readVariables).Returns s ⟨⟩ t) : SameNodes s t := by
  have hends := readVariables_outcome doc s
  generalize doc.variablesFault? = o at hends
  match o, hends with
  | none, ⟨u, hu, hsame⟩ =>
    obtain ⟨-, rfl⟩ := hu.unique h
    exact hsame
  | some e, ⟨u, hu⟩ => exact absurd h hu.not_returns

/-- **A chart that is loaded is the runtime's, as far as running reads it.** -/
theorem fromYaml_forget (h : (fromYaml doc).Returns {} true t) :
    Asyncflow.fromYaml doc.forget = some (true, t.chart.forget) := by
  obtain ⟨path, s₁, h₁, h⟩ := returns_bind_iff.mp h
  obtain ⟨-, hpath, rfl⟩ := YamlTree.returns_findChild_iff.mp h₁
  cases path with
  | none => cases (returns_pure_iff.mp h).1
  | some path =>
    obtain ⟨name, s₂, h₂, h⟩ := returns_bind_iff.mp h
    obtain ⟨hname, rfl⟩ := YamlTree.returns_val_iff.mp h₂
    obtain ⟨⟨⟩, s₃, h₃, h⟩ := returns_bind_iff.mp h
    obtain rfl := returns_modify_iff.mp h₃
    obtain ⟨vars, s₄, h₄, h⟩ := returns_bind_iff.mp h
    obtain ⟨-, rfl, rfl⟩ := YamlTree.returns_findChild_iff.mp h₄
    obtain ⟨⟨⟩, s₅, h₅, h⟩ := returns_bind_iff.mp h
    have hsame := sameNodes_of_readVariables h₅
    obtain ⟨ns, s₆, h₆, h⟩ := returns_bind_iff.mp h
    obtain ⟨-, rfl, rfl⟩ := YamlTree.returns_findChild_iff.mp h₆
    obtain ⟨ok, s₇, h₇, h⟩ := returns_bind_iff.mp h
    cases ok with
    | false => cases (returns_pure_iff.mp h).1
    | true =>
      obtain ⟨hchart, hids₇, hinit⟩ := readNodes_eq hsame.nodes hsame.ids h₇
      obtain ⟨ks, s₈, h₈, h⟩ := returns_bind_iff.mp h
      obtain ⟨-, rfl, rfl⟩ := YamlTree.returns_findChild_iff.mp h₈
      obtain ⟨⟨⟩, s₉, h₉, h⟩ := returns_bind_iff.mp h
      obtain ⟨-, rfl⟩ := returns_pure_iff.mp h
      obtain ⟨hchart₉, hconnect⟩ := readConnectors_eq h₉
      have hdoc : doc.forget.path = name := by
        rw [YamlTree.forget, YamlTree.text?, hpath, Option.bind_some, hname]
        rfl
      have hforget : s₉.chart.forget =
          { name := name, nodes := s₉.chart.nodes.map NodeData.forget } := by
        have hname : s₉.chart.name = name := by
          rw [hchart₉, hchart]
          exact hsame.name
        have hstart : s₉.chart.startFuncName = "" := by
          rw [hchart₉, hchart]
          exact hsame.startFuncName
        rw [ChartData.forget, hname, hstart]
      rw [hids₇] at hconnect
      rw [Asyncflow.fromYaml, hinit]
      dsimp only
      rw [if_pos rfl, hconnect, hdoc, hforget]
      rfl

/-- A chart document is loaded. -/
theorem exists_fromYaml_forget (h : IsChart doc) : ∃ t, (fromYaml doc).Returns {} true t ∧
    Asyncflow.fromYaml doc.forget = some (true, t.chart.forget) := by
  obtain ⟨path, hpath⟩ := Option.isSome_iff_exists.mp h.path
  obtain ⟨t, ht, -⟩ := fromYaml_outcome hpath
  rw [h.fault?_eq_none] at ht
  exact ⟨t, ht, fromYaml_forget ht⟩

end Charts

/-! ### Patches -/

section Patches

variable {data g : ChartData} {n doc : YamlTree} {ns : List YamlTree} {s t : Loader} {ok r : Bool}

theorem indexOf_forget (data : ChartData) :
    Asyncflow.indexOf (data.nodes.map NodeData.forget) = data.indexOf := by
  funext uid
  rw [Asyncflow.indexOf, List.findIdx?_map]
  rfl

/-- The nodes that are new. -/
theorem appendNodes_eq (docs : List YamlNode) (nodes : List NodeData) :
    appendNodes docs (nodes.map NodeData.forget) =
      ((docs.map (·.uid)).foldl grow nodes).map NodeData.forget := by
  induction docs generalizing nodes with
  | nil => rfl
  | cons doc docs ih =>
    rw [List.map_cons, List.foldl_cons, ← ih, appendNodes, List.foldl_cons]
    refine congrArg (List.foldl _ · docs) ?_
    have hiff : (Asyncflow.indexOf (nodes.map NodeData.forget) doc.uid).isSome ↔
        doc.uid ∈ nodes.map (·.uid) := by
      rw [indexOf_forget { nodes := nodes }]
      exact ChartData.isSome_indexOf
    unfold grow
    by_cases hmem : doc.uid ∈ nodes.map (·.uid)
    · rw [if_pos hmem, if_pos (hiff.mpr hmem)]
    · rw [if_neg hmem, if_neg (mt hiff.mp hmem), List.map_append]
      rfl

/-- **A round of the second loop of `ChartData::PatchFromYaml`.** -/
theorem patchNode_eq (h : Patching g s) (hu : ∀ uid ∈ n.text? "uid", (g.indexOf uid).isSome)
    (hr : (patchNode n).Returns s ok t) :
    Patching g t ∧ (YamlTree.forgetNodes [n]).foldl Asyncflow.patchNode
      (r, s.chart.nodes.map NodeData.forget) = (r && ok, t.chart.nodes.map NodeData.forget) := by
  have hmap : n.isMap := by
    by_contra hmap
    exact (YamlTree.throws_findChild hmap _).bind.bind.not_returns hr
  have ho : n.Optional "uid" := by
    by_contra ho
    exact (YamlTree.throws_get? hmap ho).bind.not_returns hr
  have hout := patchNode_outcome h hmap ho hu
  have hend : t = s.writes (n.rewrite g g.indexOf).toList ∧
      ok = decide (n.patchFault? g.indexOf = none) ∧
      ∀ e, n.patchFault? g.indexOf ≠ some (.abort e) := by
    generalize n.patchFault? g.indexOf = o at hout
    match o, hout with
    | none, hout => exact ⟨(hr.unique hout).2, (hr.unique hout).1, nofun⟩
    | some .rejected, hout => exact ⟨(hr.unique hout).2, (hr.unique hout).1, nofun⟩
    | some (.abort e), ⟨u, hu⟩ => exact absurd hr hu.not_returns
  obtain ⟨rfl, rfl, hfault⟩ := hend
  refine ⟨h.writes fun w hw => uid_of_rewrite (Option.mem_toList.mp hw), ?_⟩
  unfold YamlTree.patchFault? at hfault ⊢
  unfold YamlTree.forgetNodes YamlTree.rewrite YamlTree.overwrite?
  cases huid : n.text? "uid" with
  | none =>
    simp only [List.filterMap_cons, huid]
    rw [Option.bind_none, decide_eq_true rfl, Bool.and_true]
    rfl
  | some uid =>
    obtain ⟨i, hi⟩ := Option.isSome_iff_exists.mp (hu uid huid)
    have hpos : s.chart.indexOf uid = some i := (congrFun h.indexOf uid).trans hi
    obtain ⟨d, hd, hduid⟩ := ChartData.uid_of_indexOf hpos
    have hfirst : decide (g.indexOf uid = some 0) = decide (i = 0) := by rw [hi]; simp
    rw [huid, Option.bind_some, hfirst] at hfault
    rw [Option.bind_some, hfirst]
    -- The node at the position is read again without its successors.
    have hone := initFromYaml_eq g (fun _ => rfl) hfault
      { d with failure := [], success := [] }
    subst hduid
    simp only [List.filterMap_cons, huid]
    rw [Option.bind_eq_bind, Option.bind_some, hi]
    change Asyncflow.patchNode (r, s.chart.nodes.map NodeData.forget) (n.forgetNode d.uid) =
      (r && _, (s.chart.nodes.modify i fun d' => _).map NodeData.forget)
    have hidx : Asyncflow.indexOf (s.chart.nodes.map NodeData.forget) (n.forgetNode d.uid).uid =
        some i := by
      rw [indexOf_forget]
      exact hpos
    rw [Asyncflow.patchNode, hidx]
    dsimp only
    rw [indexOf_forget, h.indexOf, List.getElem?_map, hd, Option.map_some, Option.all_some]
    refine Prod.ext (congrArg (r && ·) (congrArg Prod.fst hone)) (Eq.symm (map_modify ?_))
    intro d' hd'
    obtain rfl := Option.some.inj (hd.symm.trans hd')
    exact (congrArg Prod.snd hone).symm

/-- **The second loop.** -/
theorem patchNodes_eq (h : Patching g s)
    (hu : ∀ n ∈ ns, ∀ uid ∈ n.text? "uid", (g.indexOf uid).isSome)
    (hr : (patchNodes ns).Returns s ok t) :
    Patching g t ∧ (YamlTree.forgetNodes ns).foldl Asyncflow.patchNode
      (r, s.chart.nodes.map NodeData.forget) = (r && ok, t.chart.nodes.map NodeData.forget) := by
  induction ns generalizing s ok r with
  | nil =>
    obtain ⟨rfl, rfl⟩ := returns_pure_iff.mp hr
    exact ⟨h, by rw [Bool.and_true]; rfl⟩
  | cons n ns ih =>
    obtain ⟨first, u, hfirst, hr⟩ := returns_bind_iff.mp hr
    obtain ⟨rest, v, hrest, hr⟩ := returns_bind_iff.mp hr
    obtain ⟨rfl, rfl⟩ := returns_pure_iff.mp hr
    obtain ⟨hp, hone⟩ := patchNode_eq (r := r) h (hu n List.mem_cons_self) hfirst
    obtain ⟨hp, hall⟩ := ih (r := r && first) hp
      (fun m hm => hu m (List.mem_cons_of_mem n hm)) hrest
    have hcons : YamlTree.forgetNodes (n :: ns) =
        YamlTree.forgetNodes [n] ++ YamlTree.forgetNodes ns := by
      unfold YamlTree.forgetNodes
      rw [← List.filterMap_append]
      rfl
    refine ⟨hp, ?_⟩
    rw [hcons, List.foldl_append, hone, hall, Bool.and_assoc]

/-- The `nodes` of a patch. -/
theorem readPatchNodes_eq (hids : s.ids = s.chart.indexOf)
    (h : (readPatchNodes (doc.child? "nodes")).Returns s ok t) :
    t.chart = { s.chart with nodes := t.chart.nodes } ∧ t.ids = t.chart.indexOf ∧
      doc.forget.nodes.foldl Asyncflow.patchNode
        (true, appendNodes doc.forget.nodes (s.chart.nodes.map NodeData.forget)) =
        (ok, t.chart.nodes.map NodeData.forget) := by
  unfold YamlTree.forget YamlTree.items
  cases hns : doc.child? "nodes" with
  | none =>
    rw [hns] at h
    obtain ⟨rfl, rfl⟩ := returns_pure_iff.mp h
    exact ⟨rfl, hids, rfl⟩
  | some nodes =>
    rw [hns] at h
    obtain ⟨⟨⟩, u, hu, h⟩ := returns_bind_iff.mp h
    have hends := appendNodes_ends nodes.children hids
    generalize nodes.children.findSome? YamlTree.uidFault? = o at hends
    match o, hends with
    | some e, ⟨v, hv⟩ => exact absurd hu hv.not_returns
    | none, ⟨v, hv, hsynced, hchart⟩ =>
      obtain ⟨-, rfl⟩ := hu.unique hv
      have hp : Patching u.chart u := ⟨rfl, hsynced, rfl⟩
      -- The first loop has made a node for every uid of the patch.
      have hknown : ∀ n ∈ nodes.children, ∀ uid ∈ n.text? "uid", (u.chart.indexOf uid).isSome := by
        intro n hn uid huid
        rw [ChartData.isSome_indexOf, hchart, mem_uids_foldl_grow]
        exact .inr (List.mem_filterMap.mpr ⟨n, hn, huid⟩)
      obtain ⟨hpt, hall⟩ := patchNodes_eq (r := true) hp hknown h
      refine ⟨?_, hpt.ids.trans hpt.indexOf.symm, ?_⟩
      · rw [hpt.chart, hchart]
      · rw [Option.map_some, Option.getD_some, appendNodes_eq, uids_forgetNodes]
        rw [hchart] at hall
        exact hall

/-- **A patch that returns is the runtime's, as far as running reads the chart.** -/
theorem patchFromYaml_forget (hp : data.Positioned)
    (h : (patchFromYaml doc).Returns data.patching ok t) :
    data.forget.patchFromYaml doc.forget = some (ok, t.chart.forget) := by
  obtain ⟨ns, s₁, h₁, h⟩ := returns_bind_iff.mp h
  obtain ⟨-, rfl, rfl⟩ := YamlTree.returns_findChild_iff.mp h₁
  obtain ⟨ok', s₂, h₂, h⟩ := returns_bind_iff.mp h
  obtain ⟨ks, s₃, h₃, h⟩ := returns_bind_iff.mp h
  obtain ⟨-, rfl, rfl⟩ := YamlTree.returns_findChild_iff.mp h₃
  obtain ⟨⟨⟩, s₄, h₄, h⟩ := returns_bind_iff.mp h
  obtain ⟨rfl, rfl⟩ := returns_pure_iff.mp h
  obtain ⟨hchart, hids, hnodes⟩ := readPatchNodes_eq (by exact hp.idMap_eq) h₂
  obtain ⟨hchart', hconnect⟩ := readConnectors_eq h₄
  have hname : s₄.chart.name = data.name := by
    rw [hchart', hchart]
    rfl
  have hstart : s₄.chart.startFuncName = data.startFuncName := by
    rw [hchart', hchart]
    rfl
  rw [hids, ← indexOf_forget] at hconnect
  change Option.map _ _ = _
  change doc.forget.nodes.foldl Asyncflow.patchNode
    (true, appendNodes doc.forget.nodes data.forget.nodes) = _ at hnodes
  rw [hnodes]
  dsimp only
  have hforget : s₄.chart.forget =
      { data.forget with nodes := s₄.chart.nodes.map NodeData.forget } := by
    rw [ChartData.forget, hname, hstart]
    rfl
  rw [hconnect, Option.map_some, hforget]

/-- In every run of imports and patches, a chart that is patched in place and has been read to the
end is patched as the runtime patches it. -/
theorem patched_of_reaches {dict : ChartDict} {path : String}
    (h : Run.Reaches change (fun _ => none) dict) (hd : dict path = some data)
    (hr : (patchFromYaml doc).Returns data.patching ok t) :
    data.forget.patchFromYaml doc.forget = some (ok, t.chart.forget) :=
  patchFromYaml_forget (numbered_of_reaches h path data hd) hr

end Patches

end Loading

end Asyncflow
