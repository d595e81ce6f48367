import Asyncflow.Loading.Outcome
import Mathlib.Data.List.TakeWhile

/-!
# Patching a chart in place

`ChartData::PatchFromYaml` changes chart data that running charts use: the nodes of the document
that are new are appended, every node of the document loses its successors and is read again, and
then every connector of the document is added. Apart from the new nodes a patch is a list of
writes to nodes, which are read off the document (`Asyncflow.Loading.YamlTree.rewrite`,
`Asyncflow.Loading.YamlTree.link`).

A connector does not have to start at a node of the document. Then nothing has dropped the
successors of its start, and the connector is added once more with every patch. So a patch
can be applied again if and only if no connector does that
(`Asyncflow.Loading.patchFromYaml_twice_iff`).
-/

namespace Asyncflow

namespace Loading

open Program

/-! ### The patch -/

namespace ChartData

variable (data : ChartData)

/-- The ids of the nodes are their positions. -/
def Positioned : Prop := ∀ (i : ℕ) (d : NodeData), data.nodes[i]? = some d → d.id = i

/-- The position of the node that `ChartData::GetNodeData` returns. -/
def indexOf (uid : String) : Option ℕ := data.nodes.findIdx? fun d => d.uid = uid

/-- The `id_map` of the nodes: of several nodes with an uid it has the first one. -/
def idMap (uid : String) : Option ℕ := (data.nodes.find? fun d => d.uid = uid).map (·.id)

end ChartData

/-- A node with the uid, whose id is the number of nodes. -/
def Loader.append (s : Loader) (uid : String) : Loader :=
  { chart := { s.chart with nodes := s.chart.nodes ++ [{ id := s.chart.nodes.length, uid := uid }] }
    ids := Function.update s.ids uid (some s.chart.nodes.length) }

/-- A round of the first loop of `ChartData::PatchFromYaml`. -/
def appendNode (doc : YamlTree) : Load PUnit := do
  (← doc.get? "uid").forM fun uid =>
    modify fun s => if (s.chart.indexOf uid).isSome then s else s.append uid

/-- A round of the second loop. -/
def patchNode (doc : YamlTree) : Load Bool := do
  match ← doc.get? "uid" with
  | none => pure true
  | some uid => do
    let s ← get
    match s.chart.indexOf uid with
    | none => pure true
    | some i => do
      modify (·.setNode i ({ · with failure := [], success := [] }))
      initFromYaml i doc

/-- The second loop, which goes on behind a node that cannot be read. -/
def patchNodes : List YamlTree → Load Bool
  | [] => pure true
  | doc :: docs => do
    let ok ← patchNode doc
    let rest ← patchNodes docs
    pure (ok && rest)

/-- The `nodes` of a patch. -/
def readPatchNodes : Option YamlTree → Load Bool
  | some nodes => do
    nodes.children.forM appendNode
    patchNodes nodes.children
  | none => pure true

/-- `ChartData::PatchFromYaml`, behind the `id_map`. -/
def patchFromYaml (doc : YamlTree) : Load Bool := do
  let ok ← readPatchNodes (← doc.findChild "nodes")
  readConnectors (← doc.findChild "connectors")
  pure ok

/-- The state in which `ChartData::PatchFromYaml` starts. -/
def ChartData.patching (data : ChartData) : Loader := { chart := data, ids := data.idMap }

/-! ### What a document writes -/

namespace YamlTree

variable (data : ChartData) (ids : String → Option ℕ)

/-- What a node of the document overwrites, and where. -/
def overwrite? (n : YamlTree) : Option (ℕ × NodePatch) := do
  let uid ← n.text? "uid"
  let i ← ids uid
  pure (i, n.nodePatch data ids (i = 0) uid)

/-- What a node of the document writes: the successors are dropped. -/
def rewrite (n : YamlTree) : Option (ℕ × (NodeData → NodeData)) :=
  (n.overwrite? data ids).map fun w =>
    (w.1, fun d => w.2.apply { d with failure := [], success := [] })

/-- What is wrong with a node of a patch. -/
def patchFault? (n : YamlTree) : Option Fault :=
  (n.text? "uid").bind fun uid => bodyFault? (fun u => (ids u).isSome) (ids uid = some 0) uid n

/-- How the second loop ends with a node. -/
def patchAbort? (n : YamlTree) : Option Abort :=
  match patchFault? ids n with
  | some (.abort e) => some e
  | _ => none

/-- What is wrong with a connector of a patch. -/
def linkFault? (k : YamlTree) : Option Abort := connectorFault? (fun u => (ids u).isSome) k

end YamlTree

/-- The nodes with a node for the uid, if it is new. -/
def grow (nodes : List NodeData) (uid : String) : List NodeData :=
  if uid ∈ nodes.map (·.uid) then nodes else nodes ++ [{ id := nodes.length, uid := uid }]

/-- The chart data with the new nodes of the document. -/
def ChartData.grown (data : ChartData) (doc : YamlTree) : ChartData :=
  { data with nodes := doc.uids.foldl grow data.nodes }

/-! ### Positions -/

namespace ChartData

variable {data : ChartData} {uid : String} {i : ℕ}

/-- The `id_map` has the positions. -/
theorem Positioned.idMap_eq (h : data.Positioned) : data.idMap = data.indexOf := by
  funext uid
  unfold idMap indexOf
  rw [List.find?_eq_bind_findIdx?_getElem?]
  cases hi : data.nodes.findIdx? fun d => d.uid = uid with
  | none => rfl
  | some i =>
    obtain ⟨hlt, -⟩ := List.findIdx?_eq_some_iff_getElem.mp hi
    rw [Option.bind_some, List.getElem?_eq_getElem hlt, Option.map_some,
      h i _ (List.getElem?_eq_getElem hlt)]

/-- The position is that of the first node with the uid. -/
theorem indexOf_eq (data : ChartData) (uid : String) :
    data.indexOf uid = (data.nodes.map (·.uid)).findIdx? fun u => u = uid := by
  rw [List.findIdx?_map]
  rfl

theorem indexOf_congr {data' : ChartData}
    (h : data'.nodes.map (·.uid) = data.nodes.map (·.uid)) : data'.indexOf = data.indexOf := by
  funext uid
  rw [indexOf_eq, indexOf_eq, h]

/-- The node at the position has the uid. -/
theorem uid_of_indexOf (h : data.indexOf uid = some i) :
    ∃ d, data.nodes[i]? = some d ∧ d.uid = uid := by
  obtain ⟨hlt, hd, -⟩ := List.findIdx?_eq_some_iff_getElem.mp h
  exact ⟨_, List.getElem?_eq_getElem hlt, of_decide_eq_true hd⟩

theorem isSome_indexOf : (data.indexOf uid).isSome ↔ uid ∈ data.nodes.map (·.uid) := by
  unfold indexOf
  simp [List.findIdx?_isSome]

/-- The position of a new uid. -/
theorem indexOf_append (h : uid ∉ data.nodes.map (·.uid)) :
    ({ data with nodes := data.nodes ++ [{ id := data.nodes.length, uid := uid }] } :
      ChartData).indexOf = Function.update data.indexOf uid (some data.nodes.length) := by
  funext u
  rw [indexOf_eq, List.map_append, List.findIdx?_append, List.length_map, ← indexOf_eq]
  rcases eq_or_ne u uid with rfl | hne
  · rw [Function.update_self]
    have hnone : data.indexOf u = none := by
      rw [← Option.not_isSome_iff_eq_none, isSome_indexOf]
      exact h
    rw [hnone]
    simp
  · rw [Function.update_of_ne hne]
    simp [hne.symm]

end ChartData

/-! ### The nodes of the document -/

section Nodes

variable {data : ChartData} {ids : String → Option ℕ} {s : Loader} {n doc : YamlTree}

/-- The `id_map` has the positions. -/
def Synced (s : Loader) : Prop := s.ids = s.chart.indexOf

/-- **The first loop.** -/
theorem appendNodes_ends (docs : List YamlTree) (hs : Synced s) :
    (docs.forM appendNode).Ends s ⟨⟩ (fun t => Synced t ∧ t.chart = { s.chart with
      nodes := (docs.filterMap (·.text? "uid")).foldl grow s.chart.nodes })
      (docs.findSome? YamlTree.uidFault?) := by
  refine ends_forM (I := fun (done : List YamlTree) (t : Loader) => Synced t ∧ t.chart =
    { s.chart with nodes := (done.filterMap (·.text? "uid")).foldl grow s.chart.nodes }) docs
    ⟨hs, rfl⟩ ?_
  rintro done n rest - t ⟨ht, hchart⟩
  unfold YamlTree.uidFault?
  by_cases hmap : n.isMap
  · by_cases ho : n.Optional "uid"
    · rw [if_pos ⟨hmap, ho⟩, List.filterMap_append, List.foldl_append]
      have hget := YamlTree.returns_get? (s := t) hmap ho
      cases hu : n.text? "uid" with
      | none =>
        rw [hu] at hget
        refine ⟨t, hget.bind (returns_pure _ t), ht, ?_⟩
        simpa [hu] using hchart
      | some uid =>
        rw [hu] at hget
        refine ⟨_, hget.bind (returns_modify _ t), ?_⟩
        have hnodes : t.chart.nodes =
            (done.filterMap (·.text? "uid")).foldl grow s.chart.nodes := by rw [hchart]
        have hone : [n].filterMap (·.text? "uid") = [uid] := by simp [hu]
        rw [hone, List.foldl_cons, List.foldl_nil, ← hnodes, grow]
        change _ ∧ Loader.chart (if (t.chart.indexOf uid).isSome then t else t.append uid) = _
        by_cases hmem : uid ∈ t.chart.nodes.map (·.uid)
        · rw [if_pos hmem, if_pos (ChartData.isSome_indexOf.mpr hmem)]
          refine ⟨ht, ?_⟩
          rw [hnodes, ← hchart]
        · rw [if_neg hmem, if_neg fun h => hmem (ChartData.isSome_indexOf.mp h)]
          constructor
          · unfold Synced Loader.append
            rw [ht]
            exact (ChartData.indexOf_append hmem).symm
          · unfold Loader.append
            rw [hchart]
    · rw [if_neg fun h => ho h.2]
      exact ⟨t, (YamlTree.throws_get? hmap ho).bind⟩
  · rw [if_neg fun h => hmap h.1]
    exact ⟨t, (YamlTree.throws_findChild hmap _).bind.bind⟩

theorem mem_uids_grow {nodes : List NodeData} {u uid : String} :
    u ∈ (grow nodes uid).map (·.uid) ↔ u ∈ nodes.map (·.uid) ∨ u = uid := by
  unfold grow
  split_ifs with h
  · constructor
    · exact Or.inl
    · rintro (hu | rfl)
      · exact hu
      · exact h
  · rw [List.map_append, List.mem_append, List.map_singleton, List.mem_singleton]

theorem mem_uids_foldl_grow {nodes : List NodeData} {u : String} (us : List String) :
    u ∈ (us.foldl grow nodes).map (·.uid) ↔ u ∈ nodes.map (·.uid) ∨ u ∈ us := by
  induction us generalizing nodes with
  | nil => simp
  | cons v us ih => rw [List.foldl_cons, ih, mem_uids_grow, List.mem_cons, or_assoc]

/-- Nodes that are there are not appended. -/
theorem foldl_grow_of_mem {nodes : List NodeData} (us : List String)
    (h : ∀ u ∈ us, u ∈ nodes.map (·.uid)) : us.foldl grow nodes = nodes := by
  induction us with
  | nil => rfl
  | cons u us ih =>
    rw [List.foldl_cons, grow, if_pos (h u List.mem_cons_self),
      ih fun v hv => h v (List.mem_cons_of_mem u hv)]

theorem foldl_grow_prefix (nodes : List NodeData) (us : List String) :
    ∃ new, us.foldl grow nodes = nodes ++ new := by
  induction us generalizing nodes with
  | nil => exact ⟨[], (List.append_nil _).symm⟩
  | cons u us ih =>
    rw [List.foldl_cons]
    obtain ⟨new, hnew⟩ := ih (grow nodes u)
    rw [hnew]
    unfold grow
    split_ifs
    · exact ⟨new, rfl⟩
    · exact ⟨_, List.append_assoc _ _ _⟩

/-- The appended nodes have their positions as ids. -/
theorem ChartData.Positioned.grown (h : data.Positioned) (doc : YamlTree) :
    (data.grown doc).Positioned := by
  have hgrow : ∀ (us : List String) (nodes : List NodeData),
      (∀ (i : ℕ) (d : NodeData), nodes[i]? = some d → d.id = i) →
      ∀ (i : ℕ) (d : NodeData), (us.foldl grow nodes)[i]? = some d → d.id = i := by
    intro us
    induction us with
    | nil => exact fun _ hn => hn
    | cons u us ih =>
      intro nodes hn
      rw [List.foldl_cons]
      refine ih _ ?_
      intro i d hd
      unfold grow at hd
      split_ifs at hd with hmem
      · exact hn i d hd
      · rcases Nat.lt_or_ge i nodes.length with hlt | hge
        · rw [List.getElem?_append_left hlt] at hd
          exact hn i d hd
        · rw [List.getElem?_append_right hge] at hd
          obtain ⟨hi, rfl⟩ := List.getElem?_eq_some_iff.mp hd
          rw [List.length_singleton] at hi
          have hzero : i - nodes.length = 0 := by omega
          simp only [hzero, List.getElem_cons_zero]
          omega
  exact hgrow doc.uids data.nodes h

/-- A state of the second and the third loop: apart from the nodes the chart data is the given
one, and the `id_map` is still that of the nodes. -/
structure Patching (data : ChartData) (s : Loader) : Prop where
  chart : s.chart = { data with nodes := s.chart.nodes }
  ids : s.ids = data.indexOf
  uids : s.chart.nodes.map (·.uid) = data.nodes.map (·.uid)

theorem Patching.indexOf (h : Patching data s) : s.chart.indexOf = data.indexOf :=
  ChartData.indexOf_congr h.uids

/-- Writes that keep the uids. -/
theorem Patching.writes {ws : List (ℕ × (NodeData → NodeData))} (h : Patching data s)
    (hws : ∀ w ∈ ws, ∀ d, (w.2 d).uid = d.uid) : Patching data (s.writes ws) where
  chart := by
    unfold Loader.writes
    rw [h.chart]
  ids := h.ids
  uids := (map_applyWrites hws _).trans h.uids

theorem uid_of_rewrite {w : ℕ × (NodeData → NodeData)} (h : n.rewrite data ids = some w)
    (d : NodeData) : (w.2 d).uid = d.uid := by
  obtain ⟨v, -, rfl⟩ := Option.map_eq_some_iff.mp h
  rfl

theorem uid_of_link {w : ℕ × (NodeData → NodeData)} (h : n.link ids = some w) (d : NodeData) :
    (w.2 d).uid = d.uid := by
  unfold YamlTree.link at h
  simp only [Option.bind_eq_bind, Option.bind_eq_some_iff] at h
  obtain ⟨e, -, i, -, j, -, h⟩ := h
  obtain rfl := Option.some.inj h
  dsimp only
  unfold NodeData.addSubsequence
  split_ifs <;> rfl

theorem writes_append (ws vs : List (ℕ × (NodeData → NodeData))) :
    (s.writes ws).writes vs = s.writes (ws ++ vs) := by
  unfold Loader.writes
  rw [applyWrites_append]

theorem setNode_congr {i : ℕ} {f g : NodeData → NodeData}
    (h : ∀ d, s.chart.nodes[i]? = some d → f d = g d) : s.setNode i f = s.setNode i g := by
  have hnodes : s.chart.nodes.modify i f = s.chart.nodes.modify i g := by
    refine List.ext_getElem? fun j => ?_
    rw [List.getElem?_modify, List.getElem?_modify]
    cases hd : s.chart.nodes[j]? with
    | none => rfl
    | some d =>
      rcases eq_or_ne i j with rfl | hne
      · simp [h d hd]
      · simp [hne]
  rw [Loader.setNode, Loader.setNode, hnodes]

/-- **A node of the document.** -/
theorem patchNode_outcome (h : Patching data s) (hmap : n.isMap) (ho : n.Optional "uid")
    (hu : ∀ uid ∈ n.text? "uid", (data.indexOf uid).isSome) :
    Outcome (patchNode n) s (s.writes (n.rewrite data data.indexOf).toList)
      (n.patchFault? data.indexOf) := by
  have hget := YamlTree.returns_get? (s := s) hmap ho
  unfold YamlTree.patchFault?
  cases huid : n.text? "uid" with
  | none =>
    have hnone : n.rewrite data data.indexOf = none := by
      rw [YamlTree.rewrite, YamlTree.overwrite?, huid]
      rfl
    rw [huid] at hget
    rw [hnone]
    exact Returns.bind hget (returns_pure _ s)
  | some uid =>
    rw [huid] at hget
    obtain ⟨i, hi⟩ := Option.isSome_iff_exists.mp (hu uid huid)
    obtain ⟨d, hd, hduid⟩ := ChartData.uid_of_indexOf ((congrFun h.indexOf uid).trans hi)
    have hsome : n.rewrite data data.indexOf = some (i, fun d =>
        (n.nodePatch data data.indexOf (i = 0) uid).apply
          { d with failure := [], success := [] }) := by
      rw [YamlTree.rewrite, YamlTree.overwrite?, huid, Option.bind_eq_bind, Option.bind_some, hi]
      rfl
    rw [hsome]
    refine Outcome.bind hget (Outcome.bind (returns_get s) ?_)
    rw [h.indexOf, hi]
    refine Outcome.bind (returns_modify _ s) ?_
    -- The node without its successors.
    let u := s.setNode i ({ · with failure := [], success := [] })
    have hsame : Function.update s.ids uid (some i) = s.ids := by
      rw [h.ids, ← hi, Function.update_eq_self]
    have hids : Function.update u.ids uid (some i) = data.indexOf := hsame.trans h.ids
    have hlt : i < u.chart.nodes.length := by
      change i < (s.chart.nodes.modify i _).length
      rw [List.length_modify]
      exact (List.getElem?_eq_some_iff.mp hd).1
    have hout := @initFromYaml_outcome u (fun v => (data.indexOf v).isSome) i uid n huid
      (fun v => by rw [hids]) hlt
    have hpatch : n.nodePatch u.chart data.indexOf (i = 0) uid =
        n.nodePatch data data.indexOf (i = 0) uid := by
      have hchart : u.chart = { data with nodes := u.chart.nodes } :=
        congrArg (fun c : ChartData => { c with nodes := u.chart.nodes }) h.chart
      rw [hchart]
      rfl
    rw [hids, hpatch] at hout
    have hstate : (u.setNode i fun d => (n.nodePatch data data.indexOf (i = 0) uid).apply
          { d with uid := uid }).setId uid i =
        s.setNode i fun d => (n.nodePatch data data.indexOf (i = 0) uid).apply
          { d with failure := [], success := [] } := by
      rw [setNode_setNode]
      have hset : ∀ f, (s.setNode i f).setId uid i = s.setNode i f := by
        intro f
        have hchart : (s.setNode i f).setId uid i =
            ⟨(s.setNode i f).chart, Function.update s.ids uid (some i)⟩ := rfl
        rw [hchart, hsame]
        rfl
      rw [hset]
      refine setNode_congr fun d' hd' => ?_
      obtain rfl := Option.some.inj (hd.symm.trans hd')
      rw [← hduid]
      rfl
    rw [hstate] at hout
    have hfirst : decide (data.indexOf uid = some 0) = decide (i = 0) := by
      rw [hi]
      simp
    rw [Option.bind_some, hfirst]
    exact hout

/-- **The second loop.** -/
theorem patchNodes_outcome (docs : List YamlTree) (h : Patching data s)
    (hdocs : ∀ n ∈ docs, n.isMap ∧ n.Optional "uid" ∧
      ∀ uid ∈ n.text? "uid", (data.indexOf uid).isSome) :
    match docs.findSome? (YamlTree.patchAbort? data.indexOf) with
    | none => (patchNodes docs).Returns s
        (docs.all fun n => n.patchFault? data.indexOf ≠ some .rejected)
        (s.writes (docs.filterMap (YamlTree.rewrite data data.indexOf)))
    | some e => ∃ t, (patchNodes docs).Throws s e t := by
  induction docs generalizing s with
  | nil => exact returns_pure true s
  | cons n docs ih =>
    obtain ⟨hmap, ho, hu⟩ := hdocs n List.mem_cons_self
    have hn := patchNode_outcome h hmap ho hu
    have hws : ∀ w ∈ (n.rewrite data data.indexOf).toList, ∀ d, (w.2 d).uid = d.uid := fun w hw =>
      uid_of_rewrite (Option.mem_toList.mp hw)
    have hrest := ih (h.writes hws) fun m hm => hdocs m (List.mem_cons_of_mem n hm)
    have hstate : (s.writes (n.rewrite data data.indexOf).toList).writes
          (docs.filterMap (YamlTree.rewrite data data.indexOf)) =
        s.writes ((n :: docs).filterMap (YamlTree.rewrite data data.indexOf)) := by
      rw [writes_append, List.filterMap_cons]
      cases n.rewrite data data.indexOf <;> rfl
    rw [hstate] at hrest
    rw [List.findSome?_cons]
    have habort : n.patchAbort? data.indexOf = match n.patchFault? data.indexOf with
      | some (.abort e) => some e
      | _ => none := rfl
    have hgo : ∀ ok, (patchNode n).Returns s ok (s.writes (n.rewrite data data.indexOf).toList) →
        ok = decide (n.patchFault? data.indexOf ≠ some .rejected) →
        match docs.findSome? (YamlTree.patchAbort? data.indexOf) with
        | none => (patchNodes (n :: docs)).Returns s
            ((n :: docs).all fun n => n.patchFault? data.indexOf ≠ some .rejected)
            (s.writes ((n :: docs).filterMap (YamlTree.rewrite data data.indexOf)))
        | some e => ∃ t, (patchNodes (n :: docs)).Throws s e t := by
      intro ok hok hval
      generalize docs.findSome? (YamlTree.patchAbort? data.indexOf) = o at hrest
      match o, hrest with
      | none, hrest =>
        rw [List.all_cons, ← hval]
        exact hok.bind (hrest.bind (returns_pure _ _))
      | some e, ⟨t, ht⟩ => exact ⟨t, hok.bind_throws ht.bind⟩
    rw [habort]
    generalize hfault : n.patchFault? data.indexOf = o at hn
    match o, hn with
    | none, hn => exact hgo true hn (by rw [hfault]; rfl)
    | some .rejected, hn => exact hgo false hn (by rw [hfault]; rfl)
    | some (.abort e), ⟨t, ht⟩ => exact ⟨t, ht.bind⟩

end Nodes

/-! ### The document -/

section Documents

variable {data : ChartData} {s : Loader} {doc : YamlTree} {path : String}

/-- What is wrong with the nodes of a patch. -/
def YamlTree.patchListFault? (data : ChartData) (doc : YamlTree) : Option Abort :=
  ((doc.items "nodes").findSome? YamlTree.uidFault?).or
    ((doc.items "nodes").findSome? (YamlTree.patchAbort? (data.grown doc).indexOf))

/-- The connectors of a patch that are read. -/
def YamlTree.linksRead (data : ChartData) (doc : YamlTree) : List YamlTree :=
  (doc.items "connectors").takeWhile fun k => (k.linkFault? (data.grown doc).indexOf).isNone

/-- **What a patch writes.** -/
def YamlTree.patchWrites (data : ChartData) (doc : YamlTree) : List (ℕ × (NodeData → NodeData)) :=
  (doc.items "nodes").filterMap (YamlTree.rewrite (data.grown doc) (data.grown doc).indexOf) ++
    (doc.linksRead data).filterMap (YamlTree.link (data.grown doc).indexOf)

/-- The chart data after a patch. -/
def ChartData.patched (data : ChartData) (doc : YamlTree) : ChartData :=
  { data with nodes := applyWrites (data.grown doc).nodes (doc.patchWrites data) }

/-- Whether every node of a patch is read. -/
def YamlTree.accepted (data : ChartData) (doc : YamlTree) : Bool :=
  (doc.items "nodes").all fun n => n.patchFault? (data.grown doc).indexOf ≠ some .rejected

theorem isSome_indexOf_grown {u : String} (h : u ∈ doc.uids) :
    ((data.grown doc).indexOf u).isSome :=
  ChartData.isSome_indexOf.mpr ((mem_uids_foldl_grow doc.uids).mpr (Or.inr h))

/-- The nodes of a patch. -/
theorem readPatchNodes_outcome (data : ChartData) (doc : YamlTree) :
    match doc.patchListFault? data with
    | none => (readPatchNodes (doc.child? "nodes")).Returns
        { chart := data, ids := data.indexOf } (doc.accepted data)
        (({ chart := data.grown doc, ids := (data.grown doc).indexOf } : Loader).writes
          ((doc.items "nodes").filterMap
            (YamlTree.rewrite (data.grown doc) (data.grown doc).indexOf)))
    | some e => ∃ t, (readPatchNodes (doc.child? "nodes")).Throws
        { chart := data, ids := data.indexOf } e t := by
  have hitems : doc.items "nodes" = ((doc.child? "nodes").map YamlTree.children).getD [] := rfl
  unfold YamlTree.patchListFault? YamlTree.accepted
  cases hns : doc.child? "nodes" with
  | none =>
    rw [hns] at hitems
    have hgrown : data.grown doc = data := by
      unfold ChartData.grown YamlTree.uids
      rw [hitems]
      rfl
    rw [hitems, hgrown]
    exact returns_pure _ _
  | some ns =>
    rw [hns] at hitems
    change doc.items "nodes" = ns.children at hitems
    have huids : ns.children.filterMap (·.text? "uid") = doc.uids := by
      unfold YamlTree.uids
      rw [hitems]
    have hadd := appendNodes_ends (s := { chart := data, ids := data.indexOf }) ns.children rfl
    rw [huids] at hadd
    rw [hitems]
    change match (ns.children.findSome? YamlTree.uidFault?).or _ with
      | none => (ns.children.forM appendNode >>= fun _ => patchNodes ns.children).Returns _ _ _
      | some e => ∃ t, (ns.children.forM appendNode >>= fun _ =>
          patchNodes ns.children).Throws _ e t
    cases hfault : ns.children.findSome? YamlTree.uidFault? with
    | some e =>
      rw [hfault] at hadd
      obtain ⟨t, ht⟩ := hadd
      exact ⟨t, ht.bind⟩
    | none =>
      rw [hfault] at hadd
      obtain ⟨⟨chart, ids⟩, ht, hsync, hchart⟩ := hadd
      change ids = chart.indexOf at hsync
      change chart = data.grown doc at hchart
      subst hsync hchart
      rw [Option.none_or]
      have hdocs : ∀ n ∈ ns.children, n.isMap ∧ n.Optional "uid" ∧
          ∀ uid ∈ n.text? "uid", ((data.grown doc).indexOf uid).isSome := by
        intro n hn
        have hnone := List.findSome?_eq_none_iff.mp hfault n hn
        unfold YamlTree.uidFault? at hnone
        have hmap : n.isMap ∧ n.Optional "uid" := by
          by_contra hne
          rw [if_neg hne] at hnone
          cases hnone
        refine ⟨hmap.1, hmap.2, fun uid huid => isSome_indexOf_grown ?_⟩
        rw [← huids]
        exact List.mem_filterMap.mpr ⟨n, hn, huid⟩
      have hpatch := @patchNodes_outcome (data.grown doc)
        (Loader.mk (data.grown doc) (data.grown doc).indexOf) ns.children
        ⟨rfl, rfl, rfl⟩ hdocs
      generalize ns.children.findSome? (YamlTree.patchAbort? (data.grown doc).indexOf) = o at hpatch
      match o, hpatch with
      | none, hpatch => exact ht.bind hpatch
      | some e, ⟨t, hpatch⟩ => exact ⟨t, ht.bind_throws hpatch⟩

/-- **A patch** writes what the document says, up to the connector that aborts it. -/
theorem patchFromYaml_outcome (hp : data.Positioned) (hmap : doc.isMap) :
    match doc.patchListFault? data with
    | none => match (doc.items "connectors").findSome?
          (YamlTree.linkFault? (data.grown doc).indexOf) with
      | none => (patchFromYaml doc).Returns data.patching (doc.accepted data)
          { chart := data.patched doc, ids := (data.grown doc).indexOf }
      | some e => (patchFromYaml doc).Throws data.patching e
          { chart := data.patched doc, ids := (data.grown doc).indexOf }
    | some e => ∃ t, (patchFromYaml doc).Throws data.patching e t := by
  have hpatching : data.patching = { chart := data, ids := data.indexOf } := by
    unfold ChartData.patching
    rw [hp.idMap_eq]
  rw [hpatching]
  have hnodes := readPatchNodes_outcome data doc
  have hfind : ∀ s key, (doc.findChild key : Load _).Returns s (doc.child? key) s := fun s key =>
    YamlTree.returns_findChild hmap key
  generalize doc.patchListFault? data = o at hnodes
  match o, hnodes with
  | some e, ⟨t, ht⟩ => exact ⟨t, (hfind _ _).bind_throws ht.bind⟩
  | none, hnodes =>
    have hks := @readConnectors_stops ((Loader.mk (data.grown doc) (data.grown doc).indexOf).writes
        ((doc.items "nodes").filterMap
          (YamlTree.rewrite (data.grown doc) (data.grown doc).indexOf)))
      (fun u => ((data.grown doc).indexOf u).isSome) (fun u => rfl) doc
    rw [writes_append] at hks
    change Stops _ _ _ (Loader.mk (data.patched doc) (data.grown doc).indexOf)
      ((doc.items "connectors").findSome? (YamlTree.linkFault? (data.grown doc).indexOf)) at hks
    dsimp only
    generalize (doc.items "connectors").findSome?
      (YamlTree.linkFault? (data.grown doc).indexOf) = o at hks
    match o, hks with
    | none, hks =>
      exact (hfind _ _).bind (hnodes.bind ((hfind _ _).bind (Returns.bind hks (returns_pure _ _))))
    | some e, hks =>
      exact (hfind _ _).bind_throws (hnodes.bind_throws ((hfind _ _).bind_throws (Throws.bind hks)))

end Documents

/-! ### What a patch makes of a node -/

/-- One after the other. -/
def NodePatch.andThen (p q : NodePatch) : NodePatch where
  text := q.text.or p.text
  noLoopCheck := q.noLoopCheck.or p.noLoopCheck
  varId := q.varId.or p.varId
  func := q.func.or p.func
  isEvent := q.isEvent.or p.isEvent

theorem NodePatch.apply_andThen (p q : NodePatch) (d : NodeData) :
    (p.andThen q).apply d = q.apply (p.apply d) := by
  have hgetD : ∀ {α : Type} (a b : Option α) (c : α), (a.or b).getD c = a.getD (b.getD c) := by
    intro α a b c
    cases a <;> rfl
  unfold NodePatch.andThen NodePatch.apply
  simp only [hgetD, Option.or_assoc]

theorem NodePatch.apply_apply (p : NodePatch) (d : NodeData) : p.apply (p.apply d) = p.apply d := by
  have hgetD : ∀ {α : Type} (a : Option α) (c : α), a.getD (a.getD c) = a.getD c := by
    intro α a c
    cases a <;> rfl
  have hor : ∀ {α : Type} (a c : Option α), a.or (a.or c) = a.or c := by
    intro α a c
    cases a <;> rfl
  unfold NodePatch.apply
  simp only [hgetD, hor]

/-- What the nodes of the document that are the node at the position overwrite, if there are any. -/
def overlay (ws : List (ℕ × NodePatch)) (i : ℕ) : Option NodePatch :=
  ws.foldl (fun o w => if w.1 = i then some ((o.getD {}).andThen w.2) else o) none

/-- The node without its successors, and with what is overwritten. -/
def overlaid (o : Option NodePatch) (d : NodeData) : NodeData :=
  o.elim d fun p => p.apply { d with failure := [], success := [] }

theorem id_overlaid (o : Option NodePatch) (d : NodeData) : (overlaid o d).id = d.id := by
  cases o <;> rfl

theorem writesAt_rewrites (ws : List (ℕ × NodePatch)) (i : ℕ) (d : NodeData) :
    writesAt (ws.map fun w => (w.1, fun d =>
      w.2.apply { d with failure := [], success := [] })) i d =
      overlaid (overlay ws i) d := by
  unfold overlay
  have hloop : ∀ (ws : List (ℕ × NodePatch)) (o : Option NodePatch), writesAt (ws.map fun w =>
      (w.1, fun d => w.2.apply { d with failure := [], success := [] })) i (overlaid o d) =
      overlaid (ws.foldl (fun o w => if w.1 = i then some ((o.getD {}).andThen w.2) else o) o)
        d := by
    intro ws
    induction ws with
    | nil => exact fun o => rfl
    | cons w ws ih =>
      intro o
      rw [List.map_cons, writesAt_cons, List.foldl_cons, ← ih]
      congr 1
      dsimp only
      split_ifs with h
      · unfold overlaid
        rw [Option.elim_some, NodePatch.apply_andThen]
        cases o <;> rfl
      · rfl
  exact hloop ws none

/-- Whether the node at the position is a node of the document. -/
theorem overlay_eq_none_iff {ws : List (ℕ × NodePatch)} {i : ℕ} :
    overlay ws i = none ↔ ∀ w ∈ ws, w.1 ≠ i := by
  unfold overlay
  have hloop : ∀ (ws : List (ℕ × NodePatch)) (o : Option NodePatch),
      ws.foldl (fun o w => if w.1 = i then some ((o.getD {}).andThen w.2) else o) o = none ↔
        o = none ∧ ∀ w ∈ ws, w.1 ≠ i := by
    intro ws
    induction ws with
    | nil => simp
    | cons w ws ih =>
      intro o
      rw [List.foldl_cons, ih, List.forall_mem_cons]
      split_ifs with h
      · simp [h]
      · simp [h]
  rw [hloop ws none]
  simp

/-- The ends of the connectors of the types which start at the position. -/
def endsOf (ids : String → Option ℕ) (types : List ℤ) (ks : List YamlTree) (i : ℕ) : List ℕ :=
  ks.filterMap fun k => do
    let e ← k.edge?
    let j ← ids e.target
    if ids e.start = some i ∧ e.type ∈ types then some j else none

/-- The node with more successors. -/
def linked (failure success : List ℕ) (d : NodeData) : NodeData :=
  { d with failure := d.failure ++ failure, success := d.success ++ success }

theorem linked_linked (f s f' s' : List ℕ) (d : NodeData) :
    linked f' s' (linked f s d) = linked (f ++ f') (s ++ s') d := by
  unfold linked
  simp only [List.append_assoc]

theorem addSubsequence_eq_linked (j : ℕ) (type : ℤ) (d : NodeData) :
    d.addSubsequence j type = linked (if type ∈ [0, 2] then [j] else [])
      (if type ∈ [1, 2] then [j] else []) d := by
  unfold NodeData.addSubsequence linked
  by_cases h0 : type = 0
  · simp [h0]
  · by_cases h1 : type = 1
    · simp [h1]
    · by_cases h2 : type = 2
      · simp [h2]
      · simp [h0, h1, h2]

/-- One connector. -/
theorem writesAt_link (ids : String → Option ℕ) (k : YamlTree) (i : ℕ) (d : NodeData) :
    writesAt (k.link ids).toList i d =
      linked (endsOf ids [0, 2] [k] i) (endsOf ids [1, 2] [k] i) d := by
  have hnil : linked [] [] d = d := by simp [linked]
  unfold YamlTree.link endsOf
  cases he : k.edge? with
  | none => simp [he, hnil]
  | some e =>
    cases hj : ids e.target with
    | none =>
      have hends : ∀ types : List ℤ, [k].filterMap (fun k => do
          let e ← k.edge?
          let j ← ids e.target
          if ids e.start = some i ∧ e.type ∈ types then some j else none) = [] := by
        intro types
        simp [he, hj]
      rw [hends, hends, hnil]
      cases ids e.start <;> simp [hj]
    | some j =>
      have hends : ∀ types : List ℤ, [k].filterMap (fun k => do
          let e ← k.edge?
          let j ← ids e.target
          if ids e.start = some i ∧ e.type ∈ types then some j else none) =
          if ids e.start = some i ∧ e.type ∈ types then [j] else [] := by
        intro types
        by_cases h : ids e.start = some i ∧ e.type ∈ types
        · rw [if_pos h]
          simp [he, hj, h]
        · rw [if_neg h]
          simp only [List.filterMap_cons, he, Option.bind_eq_bind, Option.bind_some, hj, if_neg h,
            List.filterMap_nil]
      rw [hends, hends]
      cases hi : ids e.start with
      | none => simp [hi, hnil]
      | some i' =>
        by_cases h : i' = i
        · subst h
          simpa [hi, hj, writesAt_cons] using addSubsequence_eq_linked j e.type d
        · simp [hi, hj, writesAt_cons, h, hnil]

/-- **The connectors** add their ends. -/
theorem writesAt_links (ids : String → Option ℕ) (ks : List YamlTree) (i : ℕ) (d : NodeData) :
    writesAt (ks.filterMap (YamlTree.link ids)) i d =
      linked (endsOf ids [0, 2] ks i) (endsOf ids [1, 2] ks i) d := by
  induction ks generalizing d with
  | nil => simp [endsOf, linked]
  | cons k ks ih =>
    have hcons : (k :: ks).filterMap (YamlTree.link ids) =
        (k.link ids).toList ++ ks.filterMap (YamlTree.link ids) := by
      rw [List.filterMap_cons]
      cases k.link ids <;> rfl
    have hends : ∀ types, endsOf ids types (k :: ks) i =
        endsOf ids types [k] i ++ endsOf ids types ks i := by
      intro types
      unfold endsOf
      rw [← List.filterMap_append]
      rfl
    rw [hcons, writesAt_append, writesAt_link, ih, linked_linked, hends, hends]

/-- **A node after a patch.** -/
theorem writesAt_patchWrites (data : ChartData) (doc : YamlTree) (i : ℕ) (d : NodeData) :
    writesAt (doc.patchWrites data) i d =
      linked (endsOf (data.grown doc).indexOf [0, 2] (doc.linksRead data) i)
        (endsOf (data.grown doc).indexOf [1, 2] (doc.linksRead data) i)
        (overlaid (overlay ((doc.items "nodes").filterMap
          (YamlTree.overwrite? (data.grown doc) (data.grown doc).indexOf)) i) d) := by
  unfold YamlTree.patchWrites
  rw [writesAt_append, writesAt_links, ← writesAt_rewrites]
  congr 2
  rw [List.map_filterMap]
  rfl

/-! ### Patching again -/

section Twice

variable {data : ChartData} {s : Loader} {doc : YamlTree} {ok : Bool}

/-- A patch returns if nothing aborts it. -/
theorem returns_patchFromYaml_iff (hp : data.Positioned) :
    (patchFromYaml doc).Returns data.patching ok s ↔ doc.isMap ∧ doc.patchListFault? data = none ∧
      (∀ k ∈ doc.items "connectors", k.linkFault? (data.grown doc).indexOf = none) ∧
      doc.accepted data = ok ∧
      s = { chart := data.patched doc, ids := (data.grown doc).indexOf } := by
  by_cases hmap : doc.isMap
  · rw [← List.findSome?_eq_none_iff]
    have hout := patchFromYaml_outcome hp hmap
    generalize doc.patchListFault? data = o at hout
    match o, hout with
    | some e, ⟨t, ht⟩ =>
      refine iff_of_false ?_ (fun h => absurd h.2.1 nofun)
      intro h
      cases h.symm.trans ht
    | none, hout =>
      dsimp only at hout
      generalize (doc.items "connectors").findSome?
        (YamlTree.linkFault? (data.grown doc).indexOf) = o at hout
      match o, hout with
      | some e, ht =>
        refine iff_of_false ?_ (fun h => absurd h.2.2.1 nofun)
        intro h
        cases h.symm.trans ht
      | none, ht =>
        constructor
        · intro h
          obtain ⟨hok, hs⟩ := h.unique ht
          exact ⟨hmap, rfl, rfl, hok.symm, hs⟩
        · rintro ⟨-, -, -, rfl, rfl⟩
          exact ht
  · refine iff_of_false ?_ fun h => hmap h.1
    intro h
    cases h.symm.trans (YamlTree.throws_findChild hmap "nodes").bind

theorem uids_patched (data : ChartData) (doc : YamlTree) :
    (data.patched doc).nodes.map (·.uid) = (data.grown doc).nodes.map (·.uid) := by
  refine map_applyWrites ?_ _
  intro w hw d
  rcases List.mem_append.mp hw with hw | hw
  · obtain ⟨n, -, hn⟩ := List.mem_filterMap.mp hw
    exact uid_of_rewrite hn d
  · obtain ⟨k, -, hk⟩ := List.mem_filterMap.mp hw
    exact uid_of_link hk d

theorem indexOf_patched (data : ChartData) (doc : YamlTree) :
    (data.patched doc).indexOf = (data.grown doc).indexOf :=
  ChartData.indexOf_congr (uids_patched data doc)

/-- After a patch all of the nodes of the document are there. -/
theorem grown_patched (data : ChartData) (doc : YamlTree) :
    (data.patched doc).grown doc = data.patched doc := by
  have hgrow : doc.uids.foldl grow (data.patched doc).nodes = (data.patched doc).nodes := by
    refine foldl_grow_of_mem doc.uids ?_
    intro u hu
    rw [uids_patched]
    exact (mem_uids_foldl_grow doc.uids).mpr (Or.inr hu)
  unfold ChartData.grown
  rw [hgrow]

/-- The second patch writes what the first one has written. -/
theorem patchWrites_patched (data : ChartData) (doc : YamlTree) :
    doc.patchWrites (data.patched doc) = doc.patchWrites data := by
  unfold YamlTree.patchWrites YamlTree.linksRead
  rw [grown_patched, indexOf_patched]
  rfl

theorem ChartData.Positioned.patched (h : data.Positioned) (doc : YamlTree) :
    (data.patched doc).Positioned := by
  intro i d hd
  change (applyWrites _ _)[i]? = some d at hd
  rw [getElem?_applyWrites] at hd
  obtain ⟨d', hd', rfl⟩ := Option.map_eq_some_iff.mp hd
  rw [writesAt_patchWrites]
  exact (id_overlaid _ d').trans (h.grown doc i d' hd')

/-- A node that is patched again. -/
theorem linked_overlaid_twice_iff {o : Option NodePatch} {f g : List ℕ} {d : NodeData} :
    linked f g (overlaid o (linked f g (overlaid o d))) = linked f g (overlaid o d) ↔
      o = none → f = [] ∧ g = [] := by
  cases o with
  | none =>
    unfold overlaid
    rw [Option.elim_none, Option.elim_none, linked_linked]
    constructor
    · intro h _
      have hf := congrArg NodeData.failure h
      have hg := congrArg NodeData.success h
      simpa [linked] using And.intro hf hg
    · intro h
      obtain ⟨rfl, rfl⟩ := h rfl
      rfl
  | some p =>
    refine iff_of_true ?_ nofun
    have hp : ∀ d, overlaid (some p) (linked f g d) = overlaid (some p) d := fun d => rfl
    have hpp : overlaid (some p) (overlaid (some p) d) = overlaid (some p) d :=
      p.apply_apply { d with failure := [], success := [] }
    rw [hp, hpp]

/-- A connector that is read. -/
theorem exists_edge_of_linkFault? {ids : String → Option ℕ} {k : YamlTree}
    (h : k.linkFault? ids = none) :
    ∃ e, k.edge? = some e ∧ (ids e.start).isSome ∧ (ids e.target).isSome := by
  unfold YamlTree.linkFault? YamlTree.connectorFault? at h
  cases hstart : k.text? "start" with
  | none => simp [hstart] at h
  | some start =>
    cases htarget : k.text? "end" with
    | none => simp [hstart, htarget] at h
    | some target =>
      cases htype : k.text? "type" with
      | none => simp [hstart, htarget, htype] at h
      | some type =>
        cases hstoi : stoi type with
        | none => simp [hstart, htarget, htype, hstoi] at h
        | some n =>
          refine ⟨⟨start, target, n⟩, by simp [YamlTree.edge?, hstart, htarget, htype, hstoi], ?_⟩
          simpa [hstart, htarget, htype, hstoi, Option.isSome_iff_ne_none] using h

/-- What a patch that returns reads. -/
theorem linksRead_of_forall (h : ∀ k ∈ doc.items "connectors",
    k.linkFault? (data.grown doc).indexOf = none) :
      doc.linksRead data = doc.items "connectors" := by
  rw [YamlTree.linksRead, List.takeWhile_eq_self_iff]
  intro k hk
  rw [h k hk]
  rfl

/-- A patch that has returned once returns again. -/
theorem returns_patchFromYaml_again (hp : data.Positioned)
    (h : (patchFromYaml doc).Returns data.patching true s) {t : Loader} :
    (patchFromYaml doc).Returns (data.patched doc).patching true t ↔
      t = { chart := (data.patched doc).patched doc, ids := (data.grown doc).indexOf } := by
  obtain ⟨hmap, hlist, hlinks, haccepted, -⟩ := (returns_patchFromYaml_iff hp).mp h
  have hlist' : doc.patchListFault? (data.patched doc) = none := by
    rw [← hlist]
    unfold YamlTree.patchListFault?
    rw [grown_patched, indexOf_patched]
  have haccepted' : doc.accepted (data.patched doc) = true := by
    rw [← haccepted]
    unfold YamlTree.accepted
    rw [grown_patched, indexOf_patched]
  rw [returns_patchFromYaml_iff (hp.patched doc), grown_patched, indexOf_patched]
  constructor
  · rintro ⟨-, -, -, -, ht⟩
    exact ht
  · rintro rfl
    exact ⟨hmap, hlist', hlinks, haccepted', rfl⟩

/-- The second patch changes nothing. -/
theorem patched_patched_iff (data : ChartData) (doc : YamlTree) :
    (data.patched doc).patched doc = data.patched doc ↔
      ∀ (i : ℕ) (d : NodeData), (data.grown doc).nodes[i]? = some d →
        overlay ((doc.items "nodes").filterMap
          (YamlTree.overwrite? (data.grown doc) (data.grown doc).indexOf)) i = none →
        endsOf (data.grown doc).indexOf [0, 2] (doc.linksRead data) i = [] ∧
          endsOf (data.grown doc).indexOf [1, 2] (doc.linksRead data) i = [] := by
  have hnodes : ((data.patched doc).patched doc).nodes =
      applyWrites (applyWrites (data.grown doc).nodes (doc.patchWrites data))
        (doc.patchWrites data) := by
    change applyWrites ((data.patched doc).grown doc).nodes
      (doc.patchWrites (data.patched doc)) = _
    rw [grown_patched, patchWrites_patched]
    rfl
  have hiff : (data.patched doc).patched doc = data.patched doc ↔
      applyWrites (applyWrites (data.grown doc).nodes (doc.patchWrites data))
          (doc.patchWrites data) = applyWrites (data.grown doc).nodes (doc.patchWrites data) := by
    rw [← hnodes]
    constructor
    · intro h
      exact congrArg ChartData.nodes h
    · intro h
      exact congrArg (fun l => ({ data with nodes := l } : ChartData)) h
  rw [hiff, applyWrites_twice_iff]
  simp only [writesAt_patchWrites, linked_overlaid_twice_iff]

/-- **A patch can be applied again** if and only if no connector that is written starts at a
node that the document does not list. -/
theorem patchFromYaml_twice_iff (hp : data.Positioned)
    (h : (patchFromYaml doc).Returns data.patching true s) :
    (∃ t, (patchFromYaml doc).Returns s.chart.patching true t ∧ t.chart = s.chart) ↔
      ∀ e ∈ doc.edges, e.type ∈ [0, 1, 2] → e.start ∈ doc.uids := by
  obtain ⟨-, -, hlinks, -, rfl⟩ := (returns_patchFromYaml_iff hp).mp h
  dsimp only
  simp only [returns_patchFromYaml_again hp h, exists_eq_left, patched_patched_iff,
    linksRead_of_forall hlinks, overlay_eq_none_iff]
  constructor
  · intro hall e he htype
    obtain ⟨k, hk, hke⟩ := List.mem_filterMap.mp he
    obtain ⟨e', hke', hstart, htarget⟩ := exists_edge_of_linkFault? (hlinks k hk)
    obtain rfl := Option.some.inj (hke.symm.trans hke')
    obtain ⟨i, hi⟩ := Option.isSome_iff_exists.mp hstart
    obtain ⟨j, hj⟩ := Option.isSome_iff_exists.mp htarget
    obtain ⟨d, hd, hdu⟩ := ChartData.uid_of_indexOf hi
    -- Its end is one of the new successors.
    have hend : ∀ types : List ℤ, e.type ∈ types →
        j ∈ endsOf (data.grown doc).indexOf types (doc.items "connectors") i := by
      intro types htypes
      refine List.mem_filterMap.mpr ⟨k, hk, ?_⟩
      simp [hke, hi, hj, htypes]
    by_contra hmem
    obtain ⟨hf, hs⟩ := hall i d hd (by
      intro w hw hwi
      obtain ⟨n, hn, hnw⟩ := List.mem_filterMap.mp hw
      unfold YamlTree.overwrite? at hnw
      simp only [Option.bind_eq_bind, Option.bind_eq_some_iff] at hnw
      obtain ⟨uid, huid, i', hi', hnw⟩ := hnw
      obtain rfl := Option.some.inj hnw
      obtain rfl : i' = i := hwi
      -- The node has one uid.
      obtain ⟨d', hd', hdu'⟩ := ChartData.uid_of_indexOf hi'
      obtain rfl := Option.some.inj (hd.symm.trans hd')
      refine hmem ?_
      rw [← hdu, hdu']
      exact List.mem_filterMap.mpr ⟨n, hn, huid⟩)
    rcases List.mem_cons.mp htype with h0 | h12
    · exact List.ne_nil_of_mem (hend [0, 2] (by simp [h0])) hf
    · exact List.ne_nil_of_mem (hend [1, 2] h12) hs
  · intro hedges i d hd hnone
    have hnil : ∀ types : List ℤ, (∀ type ∈ types, type ∈ [0, 1, 2]) →
        endsOf (data.grown doc).indexOf types (doc.items "connectors") i = [] := by
      intro types htypes
      rw [endsOf, List.filterMap_eq_nil_iff]
      intro k hk
      obtain ⟨e, he, -, htarget⟩ := exists_edge_of_linkFault? (hlinks k hk)
      obtain ⟨j, hj⟩ := Option.isSome_iff_exists.mp htarget
      rw [he, Option.bind_eq_bind, Option.bind_some, Option.bind_eq_bind, hj, Option.bind_some,
        if_neg]
      rintro ⟨hi, htype⟩
      have hmem := hedges e (List.mem_filterMap.mpr ⟨k, hk, he⟩) (htypes e.type htype)
      obtain ⟨n, hn, huid⟩ := List.mem_filterMap.mp hmem
      have hover : n.overwrite? (data.grown doc) (data.grown doc).indexOf =
          some (i, n.nodePatch (data.grown doc) (data.grown doc).indexOf (i = 0) e.start) := by
        rw [YamlTree.overwrite?, huid, Option.bind_eq_bind, Option.bind_some, hi]
        rfl
      exact hnone _ (List.mem_filterMap.mpr ⟨n, hn, hover⟩) rfl
    exact ⟨hnil _ (by simp), hnil _ (by simp)⟩

end Twice

/-! ### Samples -/

section Samples

/-- A chart with two nodes that lead to each other. -/
def loopChart : ChartData where
  name := "AI.loop"
  nodes := [{ id := 0, uid := "a", success := [1] }, { id := 1, uid := "b", success := [0] }]

theorem loopChart_positioned : loopChart.Positioned := by
  intro i d hd
  rcases i with _ | _ | i
  · obtain rfl := Option.some.inj hd
    rfl
  · obtain rfl := Option.some.inj hd
    rfl
  · cases hd

/-- A patch of the second node, with a connector. -/
def patchDoc (start target : String) : YamlTree :=
  .map [("path", .scalar "AI.loop"),
    ("nodes", .seq [.map [("uid", .scalar "b"), ("text", .scalar "hello")]]),
    ("connectors", .seq
      [.map [("start", .scalar start), ("end", .scalar target), ("type", .scalar "2")]])]

theorem returns_patchDoc (start target : String)
    (hlist : (patchDoc start target).patchListFault? loopChart = none)
    (hlinks : ∀ k ∈ (patchDoc start target).items "connectors",
      k.linkFault? (loopChart.grown (patchDoc start target)).indexOf = none)
    (haccepted : (patchDoc start target).accepted loopChart = true) :
    (patchFromYaml (patchDoc start target)).Returns loopChart.patching true
      { chart := loopChart.patched (patchDoc start target)
        ids := (loopChart.grown (patchDoc start target)).indexOf } :=
  (returns_patchFromYaml_iff loopChart_positioned).mpr ⟨rfl, hlist, hlinks, haccepted, rfl⟩

/-- A connector from the node of the document. -/
theorem patchFromYaml_twice_sample : ∃ t, (patchFromYaml (patchDoc "b" "a")).Returns
    (loopChart.patched (patchDoc "b" "a")).patching true t ∧
      t.chart = loopChart.patched (patchDoc "b" "a") :=
  (patchFromYaml_twice_iff loopChart_positioned (returns_patchDoc "b" "a" (by decide +kernel)
    (by decide +kernel) (by decide +kernel))).mpr (by decide +kernel)

/-- A connector from the other node is there twice after two patches. -/
theorem not_forall_patchFromYaml_twice : ¬∀ (data : ChartData) (doc : YamlTree) (s : Loader),
    data.Positioned → (patchFromYaml doc).Returns data.patching true s →
      ∃ t, (patchFromYaml doc).Returns s.chart.patching true t ∧ t.chart.nodes = s.chart.nodes := by
  intro h
  have hret := returns_patchDoc "a" "b" (by decide +kernel) (by decide +kernel) (by decide +kernel)
  obtain ⟨t, ht, hnodes⟩ := h loopChart (patchDoc "a" "b") _ loopChart_positioned hret
  obtain rfl := (returns_patchFromYaml_again loopChart_positioned hret).mp ht
  have hne : ((loopChart.patched (patchDoc "a" "b")).patched (patchDoc "a" "b")).nodes ≠
      (loopChart.patched (patchDoc "a" "b")).nodes := by decide +kernel
  exact hne hnodes

end Samples

end Loading

end Asyncflow
