import Asyncflow.Lib.Writes
import Asyncflow.Loading.Faithful

/-!
# How the load of a document ends

The first thing that is wrong with a document, in the order in which the loader reads it
(`Asyncflow.Loading.YamlTree.fault?`), and what `NodeData::InitFromYaml` writes to a node
(`Asyncflow.Loading.YamlTree.nodePatch`). Both are read off the tree. The load of a document
ends as its fault says (`Asyncflow.Loading.fromYaml_outcome`): a node of type `ERROR` and a
parameter that is not an uid are rejected, but a connector with an uid that is not listed, or
with a type that is no number, is not.
-/

namespace Asyncflow

namespace Loading

open Program

/-- What is wrong with a document. -/
inductive Fault
  /-- The loader returns `false`. -/
  | rejected
  /-- The loader does not return. -/
  | abort (e : Abort)
deriving DecidableEq, Repr

/-- What `NodeData::InitFromYaml` overwrites. -/
structure NodePatch where
  text : Option String := none
  noLoopCheck : Option Bool := none
  varId : Option ℤ := none
  func : Option NodeFunc := none
  isEvent : Option Bool := none

/-- The node with what is overwritten. -/
def NodePatch.apply (p : NodePatch) (d : NodeData) : NodeData :=
  { d with
    text := p.text.getD d.text
    noLoopCheck := p.noLoopCheck.getD d.noLoopCheck
    varId := p.varId.getD d.varId
    func := p.func.or d.func
    isEvent := p.isEvent.getD d.isEvent }

namespace YamlTree

/-! ### What is wrong with a document -/

/-- A part that has to be a scalar. -/
def scalarFault? (t : YamlTree) : Option Abort :=
  if t.scalar?.isSome then none else some .assertion

/-- The `code` of a function node or an event node. -/
def scriptFault? (uid : String) (code : YamlTree) : Option Abort :=
  if code.Optional "return_var_name" then
    match code.child? "func_name", code.child? "content" with
    | some c, _ => c.scalarFault?
    | none, some c => c.scalarFault?
    | none, none => if uid.length < 35 then some .undefined else none
  else some .assertion

/-- A parameter of a control node. -/
def paramFault? (known : String → Bool) (p : YamlTree) : Option Fault :=
  match p.scalar? with
  | none => some (.abort .assertion)
  | some v => if known (paramUid v) then none else some .rejected

/-- The `content` of a control node. -/
def contentFault? (known : String → Bool) : List YamlTree → Option Fault
  | [] => none
  | c :: cs => (c.scalarFault?.map .abort).or (cs.findSome? (paramFault? known))

/-- The `code` of a node. -/
def codeFault? (known : String → Bool) (uid : String) (code : YamlTree) : Option Fault :=
  match code.kind? with
  | none => some (.abort .assertion)
  | some kind =>
    if kind = "FUNC".toList ∨ kind = "EVENT".toList then (scriptFault? uid code).map .abort
    else if kind = "CONTROL".toList then contentFault? known (code.items "content")
    else if kind = "ERROR".toList then some .rejected
    else none

/-- A node with the uid. Of the first node of a chart only the uid is read. -/
def bodyFault? (known : String → Bool) (first : Bool) (uid : String) (n : YamlTree) :
    Option Fault :=
  if first then none
  else if n.Optional "text" ∧ n.Optional "no_loop_check" then
    (n.child? "code").bind (codeFault? known uid)
  else some (.abort .assertion)

/-- A node. -/
def nodeFault? (known : String → Bool) (first : Bool) (n : YamlTree) : Option Fault :=
  match n.text? "uid" with
  | none => some (.abort .assertion)
  | some uid => bodyFault? known first uid n

/-- A variable. -/
def variableFault? (v : YamlTree) : Option Abort :=
  if v.parameter?.isSome ∧ v.Optional "is_param" then none else some .assertion

/-- The `variables` of a document. -/
def variablesFault? (doc : YamlTree) : Option Abort :=
  (doc.child? "variables").bind fun vs =>
    if vs.isSeq then vs.children.findSome? variableFault? else some .assertion

/-- The uid of a node, which may be missing in the first loop. -/
def uidFault? (n : YamlTree) : Option Abort :=
  if n.isMap ∧ n.Optional "uid" then none else some .assertion

/-- A connector. -/
def connectorFault? (known : String → Bool) (k : YamlTree) : Option Abort :=
  match k.text? "start", k.text? "end", k.text? "type" with
  | some start, some target, some type =>
    if stoi type = none then some .stoi
    else if known start ∧ known target then none
    else some .undefined
  | _, _, _ => some .assertion

/-- The uids that are listed. -/
def lists (doc : YamlTree) (uid : String) : Bool := uid ∈ doc.uids

/-- The nodes of a chart. -/
def nodesFault? (known : String → Bool) : List YamlTree → Option Fault
  | [] => none
  | n :: ns => (nodeFault? known true n).or (ns.findSome? (nodeFault? known false))

/-- The `nodes` of a document. -/
def listFault? (doc : YamlTree) : Option Fault :=
  (((doc.items "nodes").findSome? uidFault?).map .abort).or
    (nodesFault? doc.lists (doc.items "nodes"))

/-- **The first thing that is wrong with a document.** -/
def fault? (doc : YamlTree) : Option Fault :=
  let path := if (doc.text? "path").isSome then none else some (.abort .assertion)
  let declared := doc.variablesFault?.map .abort
  let connectors := ((doc.items "connectors").findSome? (connectorFault? doc.lists)).map .abort
  path.or (declared.or (doc.listFault?.or connectors))

/-! ### What is written to a node -/

/-- The function of a function node or an event node. -/
def scriptOf (name uid : String) (code : YamlTree) : NodeFunc :=
  match code.text? "func_name", code.text? "content" with
  | some func, _ => .script "" func
  | none, some content => .script ("return function(self) \n" ++ content ++ "\n end") ""
  | none, none => .script "" (name ++ "." ++ String.ofList (dtoN (uid.toList ++ ['\x00'])))

/-- The parameters of a control node. -/
def paramsOf (ids : String → Option ℕ) (cs : List YamlTree) : Option (List ℤ) :=
  cs.mapM fun c => (c.scalar?.bind fun v => ids (paramUid v)).map Nat.cast

/-- The function of a control node. -/
def controlOf (ids : String → Option ℕ) : List YamlTree → Option NodeFunc
  | [] => none
  | c :: cs => do
    let func ← c.scalar?.bind controlFunc
    let params ← paramsOf ids cs
    pure (.control func params)

/-- What the `code` of a node writes. -/
def codePatch (data : ChartData) (ids : String → Option ℕ) (uid : String) (code : YamlTree) :
    NodePatch :=
  if code.kind? = some "FUNC".toList ∨ code.kind? = some "EVENT".toList then
    { varId := (code.text? "return_var_name").map data.getVarIndex
      func := some (scriptOf data.name uid code)
      isEvent := some (code.kind? = some "EVENT".toList) }
  else if code.kind? = some "CONTROL".toList then { func := controlOf ids (code.items "content") }
  else {}

/-- What a node of the document writes. -/
def nodePatch (data : ChartData) (ids : String → Option ℕ) (first : Bool) (uid : String)
    (n : YamlTree) : NodePatch :=
  if first then {}
  else
    { ((n.child? "code").map (codePatch data ids uid)).getD {} with
      text := n.text? "text"
      noLoopCheck := (n.text? "no_loop_check").map fun b => b = "true" }

/-- What a connector writes. -/
def link (ids : String → Option ℕ) (k : YamlTree) : Option (ℕ × (NodeData → NodeData)) := do
  let e ← k.edge?
  let i ← ids e.start
  let j ← ids e.target
  pure (i, NodeData.addSubsequence j e.type)

end YamlTree

/-- The state after writes. -/
def Loader.writes (s : Loader) (ws : List (ℕ × (NodeData → NodeData))) : Loader :=
  { s with chart := { s.chart with nodes := applyWrites s.chart.nodes ws } }

/-! ### Outcomes -/

/-- The program ends as the fault says: in the state `t`, if it returns. -/
def Outcome (x : Load Bool) (s : Loader) (t : Loader) : Option Fault → Prop
  | none => x.Returns s true t
  | some .rejected => x.Returns s false t
  | some (.abort e) => ∃ u, x.Throws s e u

section Outcome

variable {α : Type} {y : Load α} {f : α → Load Bool} {s t u : Loader} {a : α} {o : Option Fault}
  {e : Abort}

theorem Outcome.bind (hy : y.Returns s a u) (h : Outcome (f a) u t o) :
    Outcome (y >>= f) s t o := by
  match o, h with
  | none, h => exact Returns.bind hy h
  | some .rejected, h => exact Returns.bind hy h
  | some (.abort e), ⟨v, h⟩ => exact ⟨v, hy.bind_throws h⟩

theorem outcome_throws (hy : y.Throws s e u) : Outcome (y >>= f) s t (some (.abort e)) :=
  ⟨u, hy.bind⟩

end Outcome

/-! ### The accessors -/

namespace YamlTree

variable {t : YamlTree} {key : String} {σ : Type} {s : σ}

theorem throws_findChild (h : ¬t.isMap) (key : String) :
    (t.findChild key : Program Abort σ _).Throws s .assertion s := by
  unfold findChild
  rw [if_neg h]
  exact throws_throw _ s

theorem throws_val (h : t.scalar? = none) : (t.val : Program Abort σ _).Throws s .assertion s := by
  unfold val
  rw [h]
  exact throws_throw _ s

theorem throws_get (h : t.text? key = none) :
    (t.get key : Program Abort σ _).Throws s .assertion s := by
  unfold get
  by_cases hmap : t.isMap
  · refine (returns_findChild hmap key).bind_throws ?_
    rw [text?] at h
    cases hc : t.child? key with
    | none => exact throws_throw _ s
    | some c =>
      rw [hc] at h
      exact throws_val h
  · exact (throws_findChild hmap key).bind

theorem throws_get? (hmap : t.isMap) (h : ¬t.Optional key) :
    (t.get? key : Program Abort σ _).Throws s .assertion s := by
  unfold get?
  refine (returns_findChild hmap key).bind_throws ?_
  cases hc : t.child? key with
  | none =>
    refine absurd ?_ h
    intro c hc'
    rw [hc] at hc'
    cases hc'
  | some c =>
    have hval : c.scalar? = none := by
      by_contra hne
      refine h fun c' hc' => ?_
      obtain rfl := Option.some.inj (hc.symm.trans hc')
      exact Option.isSome_iff_ne_none.mpr hne
    exact (throws_val hval).bind

end YamlTree

/-! ### Nodes -/

section Nodes

variable {s : Loader} {known : String → Bool} {ids : String → Option ℕ} {i : ℕ} {uid : String}

/-- The parameters of a control node. -/
theorem readParams_outcome (hk : ∀ u, known u = (ids u).isSome) (cs : List YamlTree) :
    match cs.findSome? (YamlTree.paramFault? known) with
    | none => ∃ ks, YamlTree.paramsOf ids cs = some ks ∧ (readParams ids cs).Returns s (some ks) s
    | some .rejected => YamlTree.paramsOf ids cs = none ∧ (readParams ids cs).Returns s none s
    | some (.abort e) => (readParams ids cs).Throws s e s := by
  induction cs with
  | nil => exact ⟨[], rfl, returns_pure _ s⟩
  | cons c cs ih =>
    rw [List.findSome?_cons, YamlTree.paramFault?]
    unfold YamlTree.paramsOf readParams
    rw [List.mapM_cons]
    cases hc : c.scalar? with
    | none => exact (YamlTree.throws_val hc).bind
    | some v =>
      dsimp only
      rw [hk]
      cases hv : ids (paramUid v) with
      | none =>
        refine ⟨by simp [hv], (YamlTree.returns_val hc).bind ?_⟩
        rw [hv]
        exact returns_pure _ s
      | some k =>
        have hrest : ∀ (x : Load (Option (List ℤ))) (a : Option (List ℤ)), x.Returns s a s →
            Returns (x >>= fun is => pure (is.map ((k : ℤ) :: ·))) s (a.map ((k : ℤ) :: ·)) s :=
          fun x a hx => hx.bind (returns_pure _ s)
        have hparams : (do
            let j ← ((some v).bind fun v => ids (paramUid v)).map (Nat.cast : ℕ → ℤ)
            let js ← YamlTree.paramsOf ids cs
            pure (j :: js)) = (YamlTree.paramsOf ids cs).map ((k : ℤ) :: ·) := by
          rw [Option.bind_some, hv]
          cases YamlTree.paramsOf ids cs <;> rfl
        rw [Option.isSome_some, if_pos rfl]
        unfold YamlTree.paramsOf at hparams
        rw [hparams]
        dsimp only
        generalize cs.findSome? (YamlTree.paramFault? known) = o at ih
        rcases o with - | - | e
        · obtain ⟨ks, hks, hr⟩ := ih
          unfold YamlTree.paramsOf at hks
          refine ⟨k :: ks, by rw [hks]; rfl, (YamlTree.returns_val hc).bind ?_⟩
          rw [hv]
          exact hrest _ _ hr
        · obtain ⟨hks, hr⟩ := ih
          unfold YamlTree.paramsOf at hks
          refine ⟨by rw [hks]; rfl, (YamlTree.returns_val hc).bind ?_⟩
          rw [hv]
          exact hrest _ _ hr
        · refine (YamlTree.returns_val hc).bind_throws ?_
          rw [hv]
          exact ih.bind

/-- A scalar is read if it is one. -/
theorem val_outcome (c : YamlTree) (s : Loader) :
    (∃ v, c.scalar? = some v ∧ c.scalarFault? = none ∧ (c.val : Load String).Returns s v s) ∨
      c.scalarFault? = some .assertion ∧ (c.val : Load String).Throws s .assertion s := by
  unfold YamlTree.scalarFault?
  cases hc : c.scalar? with
  | none => exact Or.inr ⟨rfl, YamlTree.throws_val hc⟩
  | some v => exact Or.inl ⟨v, rfl, rfl, YamlTree.returns_val hc⟩

/-- The `content` of a control node. -/
theorem initControl_outcome (hk : ∀ u, known u = (s.ids u).isSome) (cs : List YamlTree) :
    Outcome (initControl i cs) s
      (s.setNode i (NodePatch.apply { func := YamlTree.controlOf s.ids cs }))
      (YamlTree.contentFault? known cs) := by
  cases cs with
  | nil =>
    change (pure true : Load Bool).Returns s true (s.setNode i id)
    rw [setNode_id]
    exact returns_pure _ s
  | cons c cs =>
    rw [YamlTree.contentFault?, initControl]
    rcases val_outcome c s with ⟨name, hc, hnone, hval⟩ | ⟨hsome, hval⟩
    · rw [hnone, Option.map_none, Option.none_or]
      refine Outcome.bind hval (Outcome.bind (returns_get s) ?_)
      have hparams := readParams_outcome (s := s) hk cs
      generalize cs.findSome? (YamlTree.paramFault? known) = o at hparams
      rcases o with - | - | e
      · obtain ⟨ks, hks, hr⟩ := hparams
        refine Outcome.bind hr ?_
        cases hf : controlFunc name with
        | none =>
          have hctl : YamlTree.controlOf s.ids (c :: cs) = none := by
            simp [YamlTree.controlOf, hc, hf]
          rw [hctl]
          change Returns (pure true) s true (s.setNode i id)
          rw [setNode_id]
          exact returns_pure _ s
        | some func =>
          have hctl : YamlTree.controlOf s.ids (c :: cs) = some (.control func ks) := by
            simp [YamlTree.controlOf, hc, hf, hks]
          rw [hctl]
          exact Returns.bind (returns_modify _ s) (returns_pure _ _)
      · obtain ⟨hks, hr⟩ := hparams
        have hctl : YamlTree.controlOf s.ids (c :: cs) = none := by
          simp [YamlTree.controlOf, hks]
        rw [hctl]
        refine Outcome.bind hr ?_
        change Returns (pure false) s false (s.setNode i id)
        rw [setNode_id]
        exact returns_pure _ s
      · exact outcome_throws hparams
    · rw [hsome]
      exact outcome_throws hval

/-- The function of a function node or an event node. -/
theorem scriptFunc_outcome {code : YamlTree} (hmap : code.isMap) (huid : (s.node i).uid = uid)
    (hret : code.Optional "return_var_name") :
    match YamlTree.scriptFault? uid code with
    | none => (scriptFunc i code).Returns s (YamlTree.scriptOf s.chart.name uid code) s
    | some e => (scriptFunc i code).Throws s e s := by
  have hreturns : ∀ func, (scriptFuncOf i (code.child? "func_name")
      (code.child? "content")).Returns s func s → (scriptFunc i code).Returns s func s :=
    fun _ h => (YamlTree.returns_findChild hmap _).bind ((YamlTree.returns_findChild hmap _).bind h)
  have hthrows : ∀ e, (scriptFuncOf i (code.child? "func_name")
      (code.child? "content")).Throws s e s → (scriptFunc i code).Throws s e s := fun _ h =>
    (YamlTree.returns_findChild hmap _).bind_throws
      ((YamlTree.returns_findChild hmap _).bind_throws h)
  unfold YamlTree.scriptFault? YamlTree.scriptOf YamlTree.text?
  rw [if_pos hret]
  cases hname : code.child? "func_name" with
  | some c =>
    rw [hname] at hreturns hthrows
    rcases val_outcome c s with ⟨v, hc, hnone, hval⟩ | ⟨hsome, hval⟩
    · dsimp only
      rw [hnone, Option.bind_some, hc]
      exact hreturns _ (hval.bind (returns_pure _ s))
    · dsimp only
      rw [hsome]
      exact hthrows _ hval.bind
  | none =>
    rw [hname] at hreturns hthrows
    cases hcont : code.child? "content" with
    | some c =>
      rw [hcont] at hreturns hthrows
      rcases val_outcome c s with ⟨v, hc, hnone, hval⟩ | ⟨hsome, hval⟩
      · dsimp only
        rw [hnone, Option.bind_some, hc]
        exact hreturns _ (hval.bind (returns_pure _ s))
      · dsimp only
        rw [hsome]
        exact hthrows _ hval.bind
    | none =>
      rw [hcont] at hreturns hthrows
      dsimp only
      by_cases hlen : uid.length < 35
      · rw [if_pos hlen]
        refine hthrows _ ((returns_get s).bind_throws ?_)
        rw [huid, if_pos hlen]
        exact throws_throw _ s
      · rw [if_neg hlen]
        refine hreturns _ ((returns_get s).bind ?_)
        rw [huid, if_neg hlen]
        exact returns_pure _ s

/-- An optional write to the node. -/
theorem returns_write (o : Option String) (w : Loader → String → NodeData → NodeData) :
    Returns (o.forM fun v => (modify fun s : Loader => s.setNode i (w s v) : Load PUnit)) s ⟨⟩
      (s.setNode i ((o.map (w s)).getD id)) := by
  cases o with
  | none =>
    change Returns (pure PUnit.unit : Load PUnit) s PUnit.unit (s.setNode i id)
    rw [setNode_id]
    exact returns_pure _ s
  | some v => exact returns_modify _ s

/-- A function node or an event node. -/
theorem initFunc_outcome {code : YamlTree} (hmap : code.isMap) (isEvent : Bool)
    (hi : i < s.chart.nodes.length) (huid : (s.node i).uid = uid) :
    match YamlTree.scriptFault? uid code with
    | none => (initFunc i code isEvent).Returns s ⟨⟩ (s.setNode i (NodePatch.apply
        { varId := (code.text? "return_var_name").map s.chart.getVarIndex
          func := some (YamlTree.scriptOf s.chart.name uid code)
          isEvent := some isEvent }))
    | some e => ∃ u, (initFunc i code isEvent).Throws s e u := by
  by_cases hret : code.Optional "return_var_name"
  · have hwrite := returns_write (s := s) (i := i) (code.text? "return_var_name") fun s v d =>
      { d with varId := s.chart.getVarIndex v }
    generalize hg : ((code.text? "return_var_name").map fun v d =>
      ({ d with varId := s.chart.getVarIndex v } : NodeData)).getD id = g at hwrite
    have huid' : ((s.setNode i g).node i).uid = uid := by
      rw [node_setNode s hi, ← hg, ← huid]
      cases code.text? "return_var_name" <;> rfl
    have hfunc := scriptFunc_outcome hmap huid' hret
    have hread := YamlTree.returns_get? (s := s) hmap hret
    generalize YamlTree.scriptFault? uid code = o at hfunc
    match o, hfunc with
    | none, hfunc =>
      have hcomp : (s.setNode i g).setNode i ({ · with
          func := some (YamlTree.scriptOf s.chart.name uid code), isEvent := isEvent }) =
          s.setNode i (NodePatch.apply
            { varId := (code.text? "return_var_name").map s.chart.getVarIndex
              func := some (YamlTree.scriptOf s.chart.name uid code)
              isEvent := some isEvent }) := by
        rw [setNode_setNode]
        congr 1
        funext d
        rw [← hg, Function.comp_apply]
        cases code.text? "return_var_name" <;> rfl
      dsimp only
      rw [← hcomp]
      exact hread.bind (hwrite.bind (hfunc.bind (returns_modify _ _)))
    | some e, hfunc => exact ⟨_, hread.bind_throws (hwrite.bind_throws hfunc.bind)⟩
  · have hfault : YamlTree.scriptFault? uid code = some .assertion := if_neg hret
    rw [hfault]
    exact ⟨s, (YamlTree.throws_get? hmap hret).bind⟩

/-- The `code` of a node. -/
theorem initCode_outcome (hk : ∀ u, known u = (s.ids u).isSome) (hi : i < s.chart.nodes.length)
    (huid : (s.node i).uid = uid) (code : YamlTree) :
    Outcome (initCode i code) s (s.setNode i (code.codePatch s.chart s.ids uid).apply)
      (code.codeFault? known uid) := by
  unfold YamlTree.codeFault? YamlTree.codePatch
  cases htype : code.text? "type" with
  | none =>
    have hkind : code.kind? = none := by rw [YamlTree.kind?, htype]; rfl
    rw [hkind]
    exact outcome_throws (YamlTree.throws_get htype)
  | some type =>
    have hmap := YamlTree.isMap_of_text? htype
    have hkind : code.kind? = some (cStr type) := by rw [YamlTree.kind?, htype]; rfl
    rw [hkind]
    simp only [Option.some.injEq]
    refine Outcome.bind (YamlTree.returns_get htype) ?_
    by_cases hscript : cStr type = "FUNC".toList ∨ cStr type = "EVENT".toList
    · rw [if_pos hscript, if_pos hscript, if_pos hscript]
      have hfunc := initFunc_outcome hmap (cStr type = "EVENT".toList) hi huid
      generalize YamlTree.scriptFault? uid code = o at hfunc
      cases o with
      | none => exact Returns.bind hfunc (returns_pure _ _)
      | some e =>
        obtain ⟨u, hfunc⟩ := hfunc
        exact ⟨u, hfunc.bind⟩
    · rw [if_neg hscript, if_neg hscript, if_neg hscript]
      by_cases hctl : cStr type = "CONTROL".toList
      · rw [if_pos hctl, if_pos hctl, if_pos hctl]
        refine Outcome.bind (YamlTree.returns_findChild hmap _) ?_
        have hcontrol := initControl_outcome (i := i) hk (code.items "content")
        unfold YamlTree.items at hcontrol ⊢
        cases hc : code.child? "content" with
        | some c =>
          rw [hc] at hcontrol
          exact hcontrol
        | none =>
          rw [hc] at hcontrol
          exact hcontrol
      · rw [if_neg hctl, if_neg hctl, if_neg hctl]
        have hsame : s.setNode i (NodePatch.apply {}) = s := setNode_id s i
        rw [hsame]
        by_cases herr : cStr type = "ERROR".toList
        · rw [if_pos herr, decide_eq_false (not_not.mpr herr)]
          exact returns_pure _ s
        · rw [if_neg herr, decide_eq_true herr]
          exact returns_pure _ s

theorem codePatch_blank (data : ChartData) (ids : String → Option ℕ) (uid : String)
    (code : YamlTree) : (code.codePatch data ids uid).text = none ∧
      (code.codePatch data ids uid).noLoopCheck = none := by
  unfold YamlTree.codePatch
  split_ifs <;> exact ⟨rfl, rfl⟩

/-- **`NodeData::InitFromYaml`** writes what the node of the document says, and ends with what
is wrong with it. -/
theorem initFromYaml_outcome {n : YamlTree} (hu : n.text? "uid" = some uid)
    (hk : ∀ u, known u = (Function.update s.ids uid (some i) u).isSome)
    (hi : i < s.chart.nodes.length) :
    Outcome (initFromYaml i n) s
      ((s.setNode i fun d => (n.nodePatch s.chart (Function.update s.ids uid (some i)) (i = 0)
        uid).apply { d with uid := uid }).setId uid i)
      (n.bodyFault? known (i = 0) uid) := by
  have hmap := YamlTree.isMap_of_text? hu
  refine Outcome.bind (YamlTree.returns_get hu) (Outcome.bind (returns_modify _ s) ?_)
  unfold YamlTree.bodyFault? YamlTree.nodePatch
  by_cases hi0 : i = 0
  · rw [if_pos hi0, if_pos (decide_eq_true hi0), if_pos (decide_eq_true hi0)]
    exact returns_pure _ _
  · rw [if_neg hi0, if_neg (by simpa using hi0), if_neg (by simpa using hi0)]
    by_cases htext : n.Optional "text"
    · refine Outcome.bind (YamlTree.returns_get? hmap htext) ?_
      refine Outcome.bind (returns_write (n.text? "text") fun _ v d => { d with text := v }) ?_
      by_cases hloop : n.Optional "no_loop_check"
      · rw [if_pos ⟨htext, hloop⟩]
        refine Outcome.bind (YamlTree.returns_get? hmap hloop) ?_
        refine Outcome.bind (returns_write (n.text? "no_loop_check") fun _ b d =>
          { d with noLoopCheck := b = "true" }) ?_
        refine Outcome.bind (YamlTree.returns_findChild hmap _) ?_
        -- The writes up to here, in one.
        let p : NodePatch :=
          { text := n.text? "text"
            noLoopCheck := (n.text? "no_loop_check").map fun b => b = "true" }
        have hwrites : ∀ w : NodeData → NodeData,
            (((((s.setNode i ({ · with uid := uid })).setId uid i).setNode i
              (((n.text? "text").map fun v d =>
                ({ d with text := v } : NodeData)).getD id)).setNode i
              (((n.text? "no_loop_check").map fun b d =>
                ({ d with noLoopCheck := b = "true" } : NodeData)).getD id)).setNode i w) =
            (s.setNode i (w ∘ fun d => p.apply { d with uid := uid })).setId uid i := by
          intro w
          change (((((s.setNode i ({ · with uid := uid })).setNode i _).setNode i _).setNode i
            w).setId uid i) = _
          rw [setNode_setNode, setNode_setNode, setNode_setNode]
          congr 2
          funext d
          cases htext' : n.text? "text" <;> cases hloop' : n.text? "no_loop_check" <;>
            simp [p, NodePatch.apply, htext', hloop']
        cases hcode : n.child? "code" with
        | none =>
          have hw := hwrites id
          rw [setNode_id] at hw
          rw [hw]
          exact returns_pure _ _
        | some code =>
          have hw := hwrites id
          rw [setNode_id] at hw
          rw [hw]
          have hstart : i < ((s.setNode i (id ∘ fun d => p.apply { d with uid := uid })).setId uid
              i).chart.nodes.length := by simpa [Loader.setNode, Loader.setId] using hi
          have huid' : (((s.setNode i (id ∘ fun d => p.apply { d with uid := uid })).setId uid
              i).node i).uid = uid := by
            change ((s.setNode i _).node i).uid = uid
            rw [node_setNode s hi]
            rfl
          have hout := initCode_outcome hk hstart huid' code
          have hstate : ((s.setNode i (id ∘ fun d => p.apply { d with uid := uid })).setId uid
              i).setNode i (code.codePatch s.chart (Function.update s.ids uid (some i)) uid).apply =
              (s.setNode i fun d => NodePatch.apply
                { code.codePatch s.chart (Function.update s.ids uid (some i)) uid with
                  text := n.text? "text"
                  noLoopCheck := (n.text? "no_loop_check").map fun b => b = "true" }
                { d with uid := uid }).setId uid i := by
            change ((s.setNode i _).setNode i _).setId uid i = _
            rw [setNode_setNode]
            congr 2
            funext d
            obtain ⟨ht, hl⟩ := codePatch_blank s.chart (Function.update s.ids uid (some i)) uid code
            simp [NodePatch.apply, p, ht, hl]
          change Outcome _ _ (((s.setNode i (id ∘ fun d => p.apply { d with uid := uid })).setId uid
            i).setNode i (code.codePatch s.chart (Function.update s.ids uid (some i)) uid).apply)
            _ at hout
          rw [hstate] at hout
          exact hout
      · rw [if_neg fun h => hloop h.2]
        exact outcome_throws (YamlTree.throws_get? hmap hloop)
    · rw [if_neg fun h => htext h.1]
      exact outcome_throws (YamlTree.throws_get? hmap htext)

/-- A node of the document. -/
theorem initFromYaml_outcome_known {n : YamlTree} (hk : ∀ u, known u = (s.ids u).isSome)
    (hu : ∀ uid ∈ n.text? "uid", known uid = true) (hi : i < s.chart.nodes.length) :
    ∃ t, Outcome (initFromYaml i n) s t (n.nodeFault? known (i = 0)) ∧
      (∀ u, known u = (t.ids u).isSome) ∧ t.chart.name = s.chart.name ∧
      t.chart.nodes.length = s.chart.nodes.length := by
  unfold YamlTree.nodeFault?
  cases huid : n.text? "uid" with
  | none => exact ⟨s, outcome_throws (YamlTree.throws_get huid), hk, rfl, rfl⟩
  | some uid =>
    have hupd : ∀ u, known u = (Function.update s.ids uid (some i) u).isSome := by
      intro u
      rcases eq_or_ne u uid with rfl | hne
      · rw [Function.update_self, hu u huid]
        rfl
      · rw [Function.update_of_ne hne, hk]
    refine ⟨_, initFromYaml_outcome huid hupd hi, hupd, rfl, ?_⟩
    simp [Loader.setNode, Loader.setId]

/-- **The second loop over the nodes**, behind the first node. -/
theorem initNodes_outcome_succ (docs : List YamlTree) (i : ℕ) (s : Loader)
    (hk : ∀ u, known u = (s.ids u).isSome)
    (hu : ∀ n ∈ docs, ∀ uid ∈ n.text? "uid", known uid = true)
    (hlen : i + 1 + docs.length ≤ s.chart.nodes.length) :
    ∃ t, Outcome (initNodes (i + 1) docs) s t (docs.findSome? (YamlTree.nodeFault? known false)) ∧
      (∀ u, known u = (t.ids u).isSome) ∧ t.chart.name = s.chart.name := by
  induction docs generalizing i s with
  | nil => exact ⟨s, returns_pure _ s, hk, rfl⟩
  | cons n docs ih =>
    rw [List.length_cons] at hlen
    obtain ⟨t, ht, htk, htname, htlen⟩ := initFromYaml_outcome_known (i := i + 1) hk
      (hu n List.mem_cons_self) (by omega)
    obtain ⟨v, hv, hvk, hvname⟩ :=
      ih (i + 1) t htk (fun n' hn' => hu n' (List.mem_cons_of_mem n hn'))
      (by omega)
    rw [List.findSome?_cons]
    rw [decide_eq_false (Nat.succ_ne_zero i)] at ht
    generalize n.nodeFault? known false = o at ht
    match o, ht with
    | none, ht => exact ⟨v, Outcome.bind ht hv, hvk, hvname.trans htname⟩
    | some .rejected, ht => exact ⟨t, Returns.bind ht (returns_pure _ t), htk, htname⟩
    | some (.abort e), ⟨u, hu⟩ => exact ⟨t, ⟨u, hu.bind⟩, htk, htname⟩

theorem initNodes_outcome (docs : List YamlTree) (s : Loader)
    (hk : ∀ u, known u = (s.ids u).isSome)
    (hu : ∀ n ∈ docs, ∀ uid ∈ n.text? "uid", known uid = true)
    (hlen : docs.length ≤ s.chart.nodes.length) :
    ∃ t, Outcome (initNodes 0 docs) s t (YamlTree.nodesFault? known docs) ∧
      (∀ u, known u = (t.ids u).isSome) ∧ t.chart.name = s.chart.name := by
  cases docs with
  | nil => exact ⟨s, returns_pure _ s, hk, rfl⟩
  | cons n docs =>
    rw [List.length_cons] at hlen
    obtain ⟨t, ht, htk, htname, htlen⟩ := initFromYaml_outcome_known (i := 0) hk
      (hu n List.mem_cons_self) (by omega)
    obtain ⟨v, hv, hvk, hvname⟩ := initNodes_outcome_succ docs 0 t htk
      (fun n' hn' => hu n' (List.mem_cons_of_mem n hn')) (by omega)
    rw [YamlTree.nodesFault?]
    rw [decide_eq_true rfl] at ht
    generalize n.nodeFault? known true = o at ht
    match o, ht with
    | none, ht => exact ⟨v, Outcome.bind ht hv, hvk, hvname.trans htname⟩
    | some .rejected, ht => exact ⟨t, Returns.bind ht (returns_pure _ t), htk, htname⟩
    | some (.abort e), ⟨u, hu⟩ => exact ⟨t, ⟨u, hu.bind⟩, htk, htname⟩

/-- **The first loop over the nodes.** -/
theorem addNodes_outcome (docs : List YamlTree) (hs : s.chart.nodes = [])
    (hids : s.ids = fun _ => none) :
    (docs.forM addNode).Ends s ⟨⟩ (fun t =>
      (∀ u, decide (u ∈ docs.filterMap (·.text? "uid")) = (t.ids u).isSome) ∧
        t.chart.nodes.length = docs.length ∧ t.chart.name = s.chart.name)
      (docs.findSome? YamlTree.uidFault?) := by
  refine ends_forM (I := fun (done : List YamlTree) (t : Loader) =>
    (∀ u, decide (u ∈ done.filterMap (·.text? "uid")) = (t.ids u).isSome) ∧
      t.chart.nodes.length = done.length ∧ t.chart.name = s.chart.name) docs ⟨?_, ?_, rfl⟩ ?_
  · intro u
    rw [hids]
    rfl
  · rw [hs]
    rfl
  · rintro done n rest - t ⟨ht, hlen, hname⟩
    unfold YamlTree.uidFault?
    by_cases hmap : n.isMap
    · by_cases ho : n.Optional "uid"
      · rw [if_pos ⟨hmap, ho⟩]
        refine ⟨_, (YamlTree.returns_get? hmap ho).bind (returns_modify _ t), ?_, ?_, ?_⟩
        · intro u
          rw [List.filterMap_append]
          cases hu : n.text? "uid" with
          | none => simpa [hu] using ht u
          | some uid =>
            rcases eq_or_ne u uid with rfl | hne
            · simp [hu, Loader.setId]
            · simp [hu, Loader.setId, hne, ← ht u]
        · cases n.text? "uid" <;> simp [Loader.setId, hlen]
        · rw [← hname]
          cases n.text? "uid" <;> rfl
      · rw [if_neg fun h => ho h.2]
        exact ⟨t, (YamlTree.throws_get? hmap ho).bind⟩
    · rw [if_neg fun h => hmap h.1]
      exact ⟨t, (YamlTree.throws_findChild hmap _).bind.bind⟩

/-- **A connector** is written, or aborts the load. -/
theorem connect_stops (hk : ∀ u, known u = (s.ids u).isSome) (k : YamlTree) :
    (connect k).Stops s ⟨⟩ (if YamlTree.connectorFault? known k = none then
      s.writes (k.link s.ids).toList else s) (YamlTree.connectorFault? known k) := by
  have hthrows : ∀ e, YamlTree.connectorFault? known k = some e → (connect k).Throws s e s →
      (connect k).Stops s ⟨⟩ (if YamlTree.connectorFault? known k = none then
        s.writes (k.link s.ids).toList else s) (YamlTree.connectorFault? known k) := by
    intro e he h
    rw [he, if_neg nofun]
    exact h
  cases hstart : k.text? "start" with
  | none =>
    exact hthrows .assertion (by simp [YamlTree.connectorFault?, hstart])
      (YamlTree.throws_get hstart).bind
  | some start =>
    have h₁ := YamlTree.returns_get (s := s) hstart
    cases htarget : k.text? "end" with
    | none =>
      exact hthrows .assertion (by simp [YamlTree.connectorFault?, hstart, htarget])
        (h₁.bind_throws (YamlTree.throws_get htarget).bind)
    | some target =>
      have h₂ := YamlTree.returns_get (s := s) htarget
      cases htype : k.text? "type" with
      | none =>
        exact hthrows .assertion (by simp [YamlTree.connectorFault?, hstart, htarget, htype])
          (h₁.bind_throws (h₂.bind_throws (YamlTree.throws_get htype).bind))
      | some type =>
        have h₃ := YamlTree.returns_get (s := s) htype
        cases hstoi : stoi type with
        | none =>
          refine hthrows .stoi
            (by simp [YamlTree.connectorFault?, hstart, htarget, htype, hstoi])
            (h₁.bind_throws (h₂.bind_throws (h₃.bind_throws ((returns_get s).bind_throws ?_))))
          rw [hstoi]
          exact throws_throw _ s
        | some n =>
          cases hi : s.ids start with
          | none =>
            refine hthrows .undefined
              (by simp [YamlTree.connectorFault?, hstart, htarget, htype, hstoi, hk, hi])
              (h₁.bind_throws (h₂.bind_throws (h₃.bind_throws ((returns_get s).bind_throws ?_))))
            rw [hstoi, hi]
            exact throws_throw _ s
          | some i =>
            cases hj : s.ids target with
            | none =>
              refine hthrows .undefined
                (by simp [YamlTree.connectorFault?, hstart, htarget, htype, hstoi, hk, hi, hj])
                (h₁.bind_throws (h₂.bind_throws (h₃.bind_throws ((returns_get s).bind_throws ?_))))
              rw [hstoi, hi, hj]
              exact throws_throw _ s
            | some j =>
              have hnone : YamlTree.connectorFault? known k = none := by
                simp [YamlTree.connectorFault?, hstart, htarget, htype, hstoi, hk, hi, hj]
              have hlink : k.link s.ids = some (i, NodeData.addSubsequence j n) := by
                simp [YamlTree.link, YamlTree.edge?, hstart, htarget, htype, hstoi, hi, hj]
              rw [hnone, if_pos rfl, hlink]
              refine Returns.bind h₁ (h₂.bind (h₃.bind ((returns_get s).bind ?_)))
              rw [hstoi, hi, hj]
              exact returns_modify _ s

/-- The connectors, up to the one that aborts the load. -/
theorem connectAll_stops (ks : List YamlTree) (hk : ∀ u, known u = (s.ids u).isSome) :
    (ks.forM connect).Stops s ⟨⟩ (s.writes ((ks.takeWhile fun k =>
        (YamlTree.connectorFault? known k).isNone).filterMap (YamlTree.link s.ids)))
      (ks.findSome? (YamlTree.connectorFault? known)) := by
  have hloop := stops_forM (I := fun t : Loader => t.ids = s.ids)
    (p := fun t k => t.writes (k.link s.ids).toList) (w := YamlTree.connectorFault? known)
    (g := connect) ks rfl (fun k t ht => ht) (by
      intro k t ht
      rw [← ht]
      exact connect_stops (fun u => by rw [ht]; exact hk u) k)
  have hfold : ∀ (ks : List YamlTree) (t : Loader),
      ks.foldl (fun t k => t.writes (k.link s.ids).toList) t =
        t.writes (ks.filterMap (YamlTree.link s.ids)) := by
    intro ks
    induction ks with
    | nil => exact fun t => rfl
    | cons k ks ih =>
      intro t
      rw [List.foldl_cons, ih, List.filterMap_cons]
      cases k.link s.ids with
      | none => rfl
      | some w => rfl
  rw [hfold] at hloop
  exact hloop

end Nodes

/-! ### Charts -/

section Documents

variable {s : Loader} {doc v : YamlTree}

/-- Besides its variables the chart is as before. -/
structure SameNodes (s t : Loader) : Prop where
  ids : t.ids = s.ids
  nodes : t.chart.nodes = s.chart.nodes
  name : t.chart.name = s.chart.name
  startFuncName : t.chart.startFuncName = s.chart.startFuncName

theorem SameNodes.refl (s : Loader) : SameNodes s s := ⟨rfl, rfl, rfl, rfl⟩

theorem SameNodes.trans {s t u : Loader} (h : SameNodes s t) (h' : SameNodes t u) :
    SameNodes s u :=
  ⟨h'.ids.trans h.ids, h'.nodes.trans h.nodes, h'.name.trans h.name,
    h'.startFuncName.trans h.startFuncName⟩

/-- A variable. -/
theorem readVariable_outcome (v : YamlTree) (s : Loader) :
    (readVariable v).Ends s ⟨⟩ (SameNodes s) v.variableFault? := by
  unfold YamlTree.variableFault?
  by_cases h : v.parameter?.isSome ∧ v.Optional "is_param"
  · obtain ⟨x, hx⟩ := Option.isSome_iff_exists.mp h.1
    rw [if_pos h]
    exact ⟨_, returns_readVariable hx h.2, rfl, rfl, rfl, rfl⟩
  · rw [if_neg h]
    unfold readVariable
    cases hname : v.text? "name" with
    | none => exact ⟨s, (YamlTree.throws_get hname).bind⟩
    | some name =>
      have h₁ := YamlTree.returns_get (s := s) hname
      cases htype : v.text? "type" with
      | none => exact ⟨s, h₁.bind_throws (YamlTree.throws_get htype).bind⟩
      | some type =>
        have h₂ := YamlTree.returns_get (s := s) htype
        have ho : ¬v.Optional "is_param" := by
          intro ho
          refine h ⟨?_, ho⟩
          unfold YamlTree.parameter?
          rw [hname, htype]
          rfl
        exact ⟨s, h₁.bind_throws (h₂.bind_throws
          (YamlTree.throws_get? (YamlTree.isMap_of_text? hname) ho).bind)⟩

/-- The variables of a chart. -/
theorem readVariables_outcome (doc : YamlTree) (s : Loader) :
    ((doc.child? "variables").forM readVariables).Ends s ⟨⟩ (SameNodes s) doc.variablesFault? := by
  rw [YamlTree.variablesFault?]
  cases doc.child? "variables" with
  | none => exact ⟨s, returns_pure _ s, .refl s⟩
  | some vs =>
    show Ends (readVariables vs) s _ _
      (if vs.isSeq then vs.children.findSome? YamlTree.variableFault? else some .assertion)
    rw [readVariables]
    by_cases hseq : vs.isSeq
    swap
    · rw [if_neg hseq, if_neg hseq]
      exact ⟨s, throws_throw _ s⟩
    rw [if_pos hseq, if_pos hseq]
    have hloop := ends_forM (g := readVariable)
      (s := { s with chart := { s.chart with vars := [] } })
      (I := fun _ (t : Loader) => SameNodes s t) vs.children
      ⟨rfl, rfl, rfl, rfl⟩ (w := YamlTree.variableFault?) (by
        rintro done v rest - t ht
        have hv := readVariable_outcome v t
        generalize v.variableFault? = o at hv
        cases o with
        | none =>
          obtain ⟨u, hu, hsame⟩ := hv
          exact ⟨u, hu, ht.trans hsame⟩
        | some e => exact hv)
    change Ends (modify _ >>= fun _ => vs.children.forM readVariable >>= fun _ => modify _) s _ _
      (vs.children.findSome? YamlTree.variableFault?)
    generalize vs.children.findSome? YamlTree.variableFault? = o at hloop
    cases o with
    | none =>
      obtain ⟨t, ht, hsame⟩ := hloop
      exact ⟨_, (returns_modify _ s).bind (ht.bind (returns_modify _ t)), hsame.trans
        ⟨rfl, rfl, rfl, rfl⟩⟩
    | some e =>
      obtain ⟨t, ht⟩ := hloop
      exact ⟨t, (returns_modify _ s).bind_throws ht.bind⟩

/-- The connectors of a document. -/
theorem readConnectors_stops {known : String → Bool} (hk : ∀ u, known u = (s.ids u).isSome)
    (doc : YamlTree) :
    (readConnectors (doc.child? "connectors")).Stops s ⟨⟩
      (s.writes (((doc.items "connectors").takeWhile fun k =>
        (YamlTree.connectorFault? known k).isNone).filterMap (YamlTree.link s.ids)))
      ((doc.items "connectors").findSome? (YamlTree.connectorFault? known)) := by
  unfold YamlTree.items
  cases doc.child? "connectors" with
  | none => exact returns_pure _ s
  | some ks => exact connectAll_stops ks.children hk

/-- The nodes of a chart. -/
theorem readNodes_outcome (doc : YamlTree) (hs : s.chart.nodes = [])
    (hids : s.ids = fun _ => none) :
    ∃ t, Outcome (readNodes (doc.child? "nodes")) s t doc.listFault? ∧
      (doc.listFault? = none →
        (∀ u, doc.lists u = (t.ids u).isSome) ∧ t.chart.name = s.chart.name) := by
  have hlists : ∀ u, doc.lists u = decide (u ∈ (doc.items "nodes").filterMap (·.text? "uid")) :=
    fun u => rfl
  unfold YamlTree.listFault?
  unfold YamlTree.items at hlists ⊢
  cases hn : doc.child? "nodes" with
  | none =>
    refine ⟨s, returns_pure _ s, fun _ => ⟨?_, rfl⟩⟩
    intro u
    rw [hlists, hids, hn]
    rfl
  | some ns =>
    rw [hn] at hlists
    have hadd := addNodes_outcome ns.children hs hids
    change ∃ t, Outcome (ns.children.forM addNode >>= fun _ => initNodes 0 ns.children) s t
      (((ns.children.findSome? YamlTree.uidFault?).map .abort).or
        (YamlTree.nodesFault? doc.lists ns.children)) ∧
      ((((ns.children.findSome? YamlTree.uidFault?).map .abort).or
        (YamlTree.nodesFault? doc.lists ns.children)) = none → _)
    generalize ns.children.findSome? YamlTree.uidFault? = o at hadd
    match o, hadd with
    | some e, ⟨t, ht⟩ => exact ⟨t, outcome_throws ht, nofun⟩
    | none, ⟨t, ht, htk, hlen, hname⟩ =>
      have hk : ∀ u, doc.lists u = (t.ids u).isSome := fun u => (hlists u).trans (htk u)
      obtain ⟨v, hv, hvk, hvname⟩ := initNodes_outcome ns.children t hk (by
        intro n hn uid huid
        rw [hlists, decide_eq_true_eq]
        exact List.mem_filterMap.mpr ⟨n, hn, huid⟩) (Nat.le_of_eq hlen.symm)
      exact ⟨v, Outcome.bind ht hv, fun _ => ⟨hvk, hvname.trans hname⟩⟩

/-- **A load ends with the first thing that is wrong with the document.** -/
theorem fromYaml_outcome {path : String} (hpath : doc.text? "path" = some path) :
    ∃ t, Outcome (fromYaml doc) {} t doc.fault? ∧ (doc.fault? = none → t.chart.name = path) := by
  have hmap := YamlTree.isMap_of_text? hpath
  obtain ⟨c, hc, hval⟩ := Option.bind_eq_some_iff.mp hpath
  -- Up to the variables.
  have hstart : ∀ t o, Outcome (do
      (doc.child? "variables").forM readVariables
      let ok ← readNodes (← doc.findChild "nodes")
      if ok then do
        readConnectors (← doc.findChild "connectors")
        pure true
      else pure false) ({ chart := { name := path } } : Loader) t o →
      Outcome (fromYaml doc) {} t o := by
    intro t o h
    refine Outcome.bind (YamlTree.returns_findChild hmap _) ?_
    rw [hc]
    exact Outcome.bind (YamlTree.returns_val hval) (Outcome.bind (returns_modify _ _)
      (Outcome.bind (YamlTree.returns_findChild hmap _) h))
  unfold YamlTree.fault?
  rw [hpath, Option.isSome_some, if_pos rfl, Option.none_or]
  have hvars := readVariables_outcome doc ({ chart := { name := path } } : Loader)
  generalize doc.variablesFault? = o at hvars
  match o, hvars with
  | some e, ⟨t, ht⟩ => exact ⟨t, hstart _ _ (outcome_throws ht), nofun⟩
  | none, ⟨t, ht, hsame⟩ =>
    rw [Option.map_none, Option.none_or]
    obtain ⟨u, hu, hlists⟩ := readNodes_outcome doc hsame.nodes hsame.ids
    generalize doc.listFault? = o at hu hlists
    match o, hu with
    | some .rejected, hu =>
      exact ⟨u, hstart _ _ (Outcome.bind ht (Outcome.bind (YamlTree.returns_findChild hmap _)
        (Returns.bind hu (returns_pure _ u)))), nofun⟩
    | some (.abort e), ⟨v, hu⟩ =>
      exact ⟨u, hstart _ _ (Outcome.bind ht (Outcome.bind (YamlTree.returns_findChild hmap _)
        (outcome_throws hu))), nofun⟩
    | none, hu =>
      obtain ⟨hk, hnameu⟩ := hlists rfl
      have hks := readConnectors_stops hk doc
      rw [Option.none_or]
      generalize (doc.items "connectors").findSome? (YamlTree.connectorFault? doc.lists) = o at hks
      match o, hks with
      | some e, hv =>
        exact ⟨u, hstart _ _ (Outcome.bind ht (Outcome.bind (YamlTree.returns_findChild hmap _)
          (Outcome.bind hu (Outcome.bind (YamlTree.returns_findChild hmap _)
            (outcome_throws hv))))), nofun⟩
      | none, hv =>
        exact ⟨_, hstart _ _ (Outcome.bind ht (Outcome.bind (YamlTree.returns_findChild hmap _)
          (Outcome.bind hu (Outcome.bind (YamlTree.returns_findChild hmap _)
            (Outcome.bind hv (returns_pure _ _)))))), fun _ => hnameu.trans hsame.name⟩

end Documents

end Loading

end Asyncflow
