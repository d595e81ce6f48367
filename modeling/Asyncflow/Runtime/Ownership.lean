import Asyncflow.Moves.Ownership
import Asyncflow.Runtime.Attachers
import Asyncflow.Runtime.Lifecycle

/-!
# Every chart has its owner

In every reachable state the charts are owned properly (`Asyncflow.Heap.Owned`): the
`Subchart` attachers hold exactly the charts that have their node as owner node, the agents
list exactly the charts that have them as agent, and no two charts of an agent have both the
name and the owner node in common. The calls that make or destroy charts are followed through
`Asyncflow.Ownership.Proper.add` and `Asyncflow.Ownership.prunes_destroy`; what else a step
does leaves the ownership alone.
-/

namespace Asyncflow

/-! ### Names -/

namespace Registry

variable {r r' : Registry} {may : Permit → Prop}

/-- What a chart or a path points to is there, and the next version is not. -/
structure Filed (r : Registry) : Prop where
  data : ∀ d, (r.data d).isSome → d < r.nextData
  live : ∀ c p, r.charts c = some p → (r.data p.1).isSome
  dict : ∀ path d, r.dict path = some d → (r.data d).isSome

theorem Filed.fresh (hf : r.Filed) : r.data r.nextData = none := by
  refine Option.eq_none_iff_forall_ne_some.mpr fun x hx => ?_
  exact Nat.lt_irrefl _ (hf.data r.nextData (by rw [hx]; rfl))

theorem Extends.isSome {d : DataId} (he : r.Extends r') (hd : (r.data d).isSome) :
    (r'.data d).isSome := by
  obtain ⟨x, hx⟩ := Option.isSome_iff_exists.mp hd
  obtain ⟨x', hx', -⟩ := he.data d x hx
  rw [hx']
  rfl

theorem filed_of_move (hcreate : ∀ d, may (.create d) → (r.data d).isSome) (hf : r.Filed)
    (hm : Move may r r') : r'.Filed := by
  have he := extends_of_move hf.fresh hm
  have hlive : ∀ c p, r.charts c = some p → (r'.data p.1).isSome :=
    fun c p hp => he.isSome (hf.live c p hp)
  have hdict : ∀ path d, r.dict path = some d → (r'.data d).isSome :=
    fun path d hd => he.isSome (hf.dict path d hd)
  cases hm with
  | load data hp =>
    have hsome : ∀ d, d = r.nextData → ((r.load data).data d).isSome := by
      rintro d rfl
      rw [data_load, if_pos rfl]
      rfl
    refine ⟨fun d hd => ?_, hlive, fun path d hd => ?_⟩
    · rw [data_load] at hd
      split at hd
      · subst d
        exact Nat.lt_succ_self _
      · exact Nat.lt_succ_of_lt (hf.data d hd)
    · by_cases hne : path = data.name
      · subst path
        have hself : (r.load data).dict data.name = some r.nextData := Function.update_self ..
        exact hsome d (Option.some.inj (hd.symm.trans hself))
      · have hother : (r.load data).dict path = r.dict path := Function.update_of_ne hne ..
        exact hdict path d (hother ▸ hd)
  | @patch d x b data doc hp hd hx hr =>
    refine ⟨fun d' hd' => hf.data d' ?_, hlive, hdict⟩
    rw [data_patch, hx] at hd'
    split at hd'
    · subst d'
      rw [hx]
      rfl
    · exact hd'
  | create d hp =>
    refine ⟨hf.data, fun c p hcp => ?_, hdict⟩
    by_cases hc : c = r.nextChart
    · subst c
      have hself : (r.create d).charts r.nextChart = some (d, _) := Function.update_self ..
      obtain rfl := Option.some.inj (hself.symm.trans hcp)
      exact hcreate d hp
    · have hother : (r.create d).charts c = r.charts c := Function.update_of_ne hc ..
      exact hlive c p (hother ▸ hcp)
  | forget c =>
    refine ⟨hf.data, fun c' p hcp => hlive c' p ?_, hdict⟩
    by_cases hc : c' = c
    · subst c'
      have hself : (r.forget c).charts c = none := Function.update_self ..
      rw [hself] at hcp
      cases hcp
    · have hother : (r.forget c).charts c' = r.charts c' := Function.update_of_ne hc ..
      exact hother ▸ hcp

end Registry

namespace Heap

variable {h g : Heap} {n : NodeRef} {c : ChartId} {a : AgentId} {d : DataId} {x : Chart}

/-- **A chart keeps its name**: its data is not replaced, and a patch keeps the name. -/
theorem nameOf_of_extends {x' : Chart} (hf : h.registry.Filed) (he : h.registry.Extends g.registry)
    (hc : c < h.nextChart) (hx : h.charts c = some x) (hx' : g.charts c = some x') :
    g.nameOf c = h.nameOf c ∧ g.nodeList c = h.nodeList c := by
  have hrx : h.registry.charts c = some (x.data, x.nodeCount) := by
    change (h.charts c).map _ = _
    rw [hx]
    rfl
  have hrx' : g.registry.charts c = some (x'.data, x'.nodeCount) := by
    change (g.charts c).map _ = _
    rw [hx']
    rfl
  have heq := Option.some.inj ((he.charts c hc _ hrx').symm.trans hrx)
  obtain ⟨hd, hk⟩ := Prod.mk.inj heq
  obtain ⟨y, hy⟩ := Option.isSome_iff_exists.mp (hf.live c _ hrx)
  obtain ⟨y', hy', hname, -⟩ := he.data x.data y hy
  have hy1 : h.chartData x.data = some y := hy
  have hy2 : g.chartData x.data = some y' := hy'
  constructor
  · rw [nameOf, dataOf, hx', nameOf, dataOf, hx, Option.bind_some, Option.bind_some, hd, hy1, hy2,
      Option.map_some, Option.map_some, hname]
  · rw [nodeList, nodesCount, hx', nodeList, nodesCount, hx, Option.map_some, Option.map_some, hk]

/-- Loading and patching chart data leaves the ownership alone. -/
theorem ownership_of_extends (hf : h.registry.Filed) (he : h.registry.Extends g.registry)
    (hb : h.Born) (hc : g.charts = h.charts) (ha : g.agents = h.agents) (hn : g.nodes = h.nodes)
    (hl : g.log = h.log) : g.ownership = h.ownership := by
  have hobj : g.ownership.objects = h.ownership.objects := by
    funext c
    change (g.charts c).map _ = (h.charts c).map _
    rw [hc]
    cases hx : h.charts c with
    | none => rfl
    | some x =>
      obtain ⟨hname, hlist⟩ := nameOf_of_extends hf he (hb.chart c (by rw [hx]; rfl)) hx
        (hc ▸ hx : g.charts c = some x)
      rw [Option.map_some, Option.map_some, hname, hlist]
  calc g.ownership
      = ⟨g.ownership.objects, fun n => (g.nodes n).chart?,
          fun a => ((g.agents a).map (·.charts)).getD [], g.log.filterMap Obs.destroyed?⟩ := rfl
    _ = h.ownership := by rw [hobj, hn, ha, hl]; rfl

/-! ### Destroying charts -/

theorem ownership_clear (h : Heap) (n : NodeRef) {f : Node → Node} {o : Obs}
    (ho : o.destroyed? = none) (hf : (f (h.nodes n)).chart? = none) :
    (h.act n f o).ownership = h.ownership.clear n := by
  have hheld : (h.act n f o).ownership.held = Function.update h.ownership.held n none := by
    funext m
    change ((h.act n f o).nodes m).chart? = _
    rw [nodes_act, nodes_setNode, Function.update_apply]
    split
    · subst m
      exact hf
    · rfl
  have hgone : (h.act n f o).ownership.gone = h.ownership.gone := List.filterMap_cons_none ho
  calc (h.act n f o).ownership
      = ⟨h.ownership.objects, (h.act n f o).ownership.held, h.ownership.lists,
          (h.act n f o).ownership.gone⟩ := rfl
    _ = h.ownership.clear n := by rw [hheld, hgone]; rfl

theorem ownership_dropChart (h : Heap) (c : ChartId) :
    (h.dropChart c).ownership = h.ownership.drop c := by
  have hbind : ∀ {β : Type} (k : Ownership.Object NodeRef AgentId (Option String) → Option β),
      (h.ownership.objects c).bind k =
        (h.charts c).bind fun x => k ⟨h.nodeList c, x.owner, x.agent, h.nameOf c⟩ := by
    intro β k
    change ((h.charts c).map _).bind k = _
    rw [Option.bind_map]
    rfl
  have hobj : (h.dropChart c).ownership.objects = Function.update h.ownership.objects c none := by
    funext d
    rcases eq_or_ne d c with rfl | hd
    · have hnone : (h.dropChart d).charts d = none := Function.update_self ..
      rw [Function.update_self]
      change ((h.dropChart d).charts d).map _ = none
      rw [hnone]
      rfl
    · have hkeep : (h.dropChart c).charts d = h.charts d := charts_dropChart_of_ne hd
      have hdata : (h.dropChart c).chartData = h.chartData := by
        rw [dropChart_eq]
        split <;> rw [forgetChart, setOwner] <;> split <;> rfl
      rw [Function.update_of_ne hd]
      change ((h.dropChart c).charts d).map _ = (h.charts d).map _
      rw [nodeList, nodesCount, nameOf, dataOf, hkeep, hdata]
      rfl
  have hheld : (h.dropChart c).ownership.held = (h.ownership.drop c).held := by
    rw [Ownership.drop, hbind (·.owner)]
    funext n
    have hnodes : (h.dropChart c).nodes = (h.setOwner c ({ · with attacher := none })).nodes := by
      rw [dropChart_eq]
      split <;> rfl
    change ((h.dropChart c).nodes n).chart? = _
    rw [hnodes, setOwner, ownerOf]
    cases (h.charts c).bind (·.owner) with
    | none => rfl
    | some o =>
      dsimp only
      rw [nodes_setNode, Function.update_apply]
      split <;> rfl
  have hlists : (h.dropChart c).ownership.lists = (h.ownership.drop c).lists := by
    rw [Ownership.drop, hbind (·.register)]
    funext a
    change (((h.dropChart c).agents a).map (·.charts)).getD [] = _
    have hforget : (h.forgetChart c).agents = h.agents := agents_setOwner ..
    rw [dropChart_eq]
    cases (h.charts c).bind (·.agent) with
    | none =>
      dsimp only
      rw [hforget]
      rfl
    | some b =>
      dsimp only
      rw [setAgent]
      dsimp only
      rw [hforget]
      rcases eq_or_ne a b with rfl | hab
      · rw [Function.update_self, Function.update_self]
        change _ = ((((h.agents a).map (·.charts)).getD []).filter (· ≠ c))
        cases h.agents a <;> rfl
      · rw [Function.update_of_ne hab, Function.update_of_ne hab]
        rfl
  have hgone : (h.dropChart c).ownership.gone = c :: h.ownership.gone := by
    have hlog : ∃ o, (h.dropChart c).log = .destroyed c o :: h.log := by
      rw [dropChart_eq]
      split <;> rw [forgetChart, setOwner] <;> split <;> exact ⟨_, rfl⟩
    obtain ⟨o, hlog⟩ := hlog
    change (h.dropChart c).log.filterMap Obs.destroyed? = _
    rw [hlog]
    rfl
  calc (h.dropChart c).ownership
      = ⟨(h.dropChart c).ownership.objects, (h.dropChart c).ownership.held,
          (h.dropChart c).ownership.lists, (h.dropChart c).ownership.gone⟩ := rfl
    _ = h.ownership.drop c := by rw [hobj, hheld, hlists, hgone]; rfl

theorem slotsOf_ownership (h : Heap) (c : ChartId) : h.ownership.slotsOf c = h.nodeList c := by
  change (((h.charts c).map _).map _).getD [] = _
  cases hx : h.charts c with
  | none => rw [nodeList, nodesCount, hx]; rfl
  | some x => rfl

/-- **`Chart::~Chart` is the destruction of the object.** -/
theorem ownership_destroyChart (fuel : ℕ) (h : Heap) (c : ChartId) :
    (destroyChart fuel h c).ownership = Ownership.destroy fuel h.ownership c := by
  induction fuel generalizing h c with
  | zero => rfl
  | succ fuel ih =>
    have hlose : ∀ (g : Heap) (n : NodeRef),
        (g.loseNode fuel n).ownership = Ownership.lose fuel g.ownership n := by
      intro g n
      have hheld : ((g.stop n).nodes n).chart? = g.ownership.held n :=
        congrArg (fun f => Ownership.held f n) (ownership_stop g n)
      rw [loseNode, ownership_clear _ _ rfl rfl, Ownership.lose, ← hheld]
      congr 1
      cases hn : ((g.stop n).nodes n).attacher with
      | none => simp [Node.chart?, hn]
      | some att =>
        cases att with
        | subchart d => simp [Node.chart?, hn, Attacher.chart?, ih]
        | timer b | waitAll ids => simp [Node.chart?, hn, Attacher.chart?]
    rw [destroyChart_succ, ownership_dropChart, Ownership.destroy_succ, slotsOf_ownership]
    congr 1
    generalize h.nodeList c = ks
    induction ks generalizing h with
    | nil => rfl
    | cons k ks ihk => rw [List.foldl_cons, List.foldl_cons, ← hlose, ihk]

/-! ### The invariant -/

/-- **Every chart has its owner.** -/
def Owned (h : Heap) : Prop := h.ownership.Proper NodeRef.chart id h.nextChart

theorem Owned.congr (ho : h.Owned) (he : g.ownership = h.ownership)
    (hle : h.nextChart ≤ g.nextChart) : g.Owned := by
  rw [Owned, he]
  exact Ownership.Proper.mono ho hle

theorem isSome_objects (h : Heap) (c : ChartId) :
    (h.ownership.objects c).isSome = (h.charts c).isSome := Option.isSome_map ..

theorem prunes_deleteChart (ho : h.Owned) (hc : (h.charts c).isSome) :
    Ownership.Prunes {e | h.ownership.Below c e} h.ownership (h.deleteChart c).ownership := by
  rw [deleteChart, ownership_destroyChart]
  refine Ownership.prunes_destroy ho (by rwa [isSome_objects]) ?_
  exact Nat.le_trans (Nat.le_succ _) (Nat.le_add_right _ _)

/-- A node that is written without its attacher, after that was deleted. -/
theorem swept_deleteAttacher (ho : h.Owned) (n : NodeRef) {f : Node → Node} {o : Obs}
    (hobs : o.destroyed? = none) (hf : ∀ d, (f d).chart? = none) :
    h.ownership.Swept {c | h.ownership.held n = some c}
      ((h.deleteAttacher n).act n f o).ownership := by
  have hheld : h.ownership.held n = (h.nodes n).chart? := rfl
  rw [ownership_clear _ _ hobs (hf _), deleteAttacher]
  cases hn : (h.nodes n).attacher with
  | none =>
    have hnone : h.ownership.held n = none := by rw [hheld, Node.chart?, hn]; rfl
    rw [hnone]
    dsimp only
    rw [Ownership.clear_of_free hnone]
    simpa using Ownership.Swept.refl h.ownership
  | some att =>
    cases att with
    | timer b | waitAll ids =>
      have hnone : h.ownership.held n = none := by rw [hheld, Node.chart?, hn]; rfl
      rw [hnone]
      dsimp only
      rw [Ownership.clear_of_free hnone]
      simpa using Ownership.Swept.refl h.ownership
    | subchart c =>
      have hsome : h.ownership.held n = some c := by rw [hheld, Node.chart?, hn]; rfl
      have hc : (h.ownership.objects c).isSome := Ownership.Proper.alive ho hsome
      have hp := prunes_deleteChart ho (c := c) (by rwa [← isSome_objects])
      have hfree : (h.deleteChart c).ownership.held n = none := by
        refine Option.eq_none_iff_forall_ne_some.mpr fun e he => ?_
        obtain ⟨hce, hne⟩ := (hp.held n e).mp he
        obtain rfl := Option.some.inj (hsome.symm.trans hce)
        exact hne .refl
      dsimp only
      rw [Ownership.clear_of_free hfree]
      have hA : {d | h.ownership.held n = some d} = insert c ∅ := by
        ext d
        simp [hsome, eq_comm]
      rw [hA]
      exact (Ownership.Swept.refl h.ownership).insert ho hc hp

theorem Owned.swept {A : Set ChartId} (ho : h.Owned) (hs : h.ownership.Swept A g.ownership)
    (hle : h.nextChart ≤ g.nextChart) : g.Owned :=
  (hs.proper ho).mono hle

theorem owned_deleteChart (ho : h.Owned) (hc : (h.charts c).isSome) : (h.deleteChart c).Owned := by
  have hd : Does (fun _ => True) (fun _ => True) (fun _ => False) h (h.deleteChart c) :=
    does_deleteChart h c
  have hs := (Ownership.Swept.refl h.ownership).insert ho (by rwa [isSome_objects])
    (prunes_deleteChart ho hc)
  exact ho.swept hs (nextChart_le_of_does hd)

theorem owned_clearAttacher (ho : h.Owned) (n : NodeRef) : (h.clearAttacher n).Owned := by
  have hd : Does (fun _ => True) (fun _ => True) (fun _ => False) h (h.clearAttacher n) :=
    does_clearAttacher h n
  exact ho.swept (swept_deleteAttacher ho n rfl fun _ => rfl) (nextChart_le_of_does hd)

/-- The node has no chart any more. -/
theorem chart?_clearAttacher (h : Heap) (n : NodeRef) :
    ((h.clearAttacher n).nodes n).chart? = none := by
  rw [clearAttacher, nodes_act, nodes_setNode_self]
  rfl

/-! ### Making charts -/

/-- A new chart of the data. -/
def newChart (h : Heap) (d : DataId) (o : Option NodeRef) (a : Option AgentId) :
    Ownership.Object NodeRef AgentId (Option String) where
  slots := (List.range (h.nodeCount d)).map fun i => ⟨h.nextChart, i⟩
  owner := o
  register := a
  name := (h.chartData d).map (·.name)

theorem ownership_initChart (ho : h.Owned) (d : DataId) (o : Option NodeRef) :
    (h.initChart d o).ownership = { h.ownership with
      objects := Function.update h.ownership.objects h.nextChart
        (some (h.newChart d o none)) } := by
  have hself : (h.initChart d o).charts h.nextChart =
      some { data := d, nodeCount := h.nodeCount d, owner := o, agent := none } :=
    Function.update_self ..
  have hobj : (h.initChart d o).ownership.objects =
      Function.update h.ownership.objects h.nextChart (some (h.newChart d o none)) := by
    funext c
    change ((h.initChart d o).charts c).map _ = _
    rcases eq_or_ne c h.nextChart with rfl | hc
    · rw [Function.update_self, hself, Option.map_some, nodeList, nodesCount, nameOf, dataOf, hself]
      rfl
    · have hother : (h.initChart d o).charts c = h.charts c := Function.update_of_ne hc ..
      rw [Function.update_of_ne hc, nodeList, nodesCount, nameOf, dataOf, hother]
      rfl
  have hheld : (h.initChart d o).ownership.held = h.ownership.held := by
    funext n
    have hn : (h.initChart d o).nodes n = if n.chart = h.nextChart then {} else h.nodes n := rfl
    change ((h.initChart d o).nodes n).chart? = _
    rw [hn]
    split
    · rename_i hnew
      refine Eq.symm (Option.eq_none_iff_forall_ne_some.mpr fun c hc => ?_)
      -- The chart of the node is not there yet, so nothing hangs on the node.
      obtain ⟨x, hx, hxo⟩ := (ho.held n c).mp hc
      obtain ⟨y, hy, -⟩ := ho.owner c x n hx hxo
      have hlt := ho.bound n.chart (by rw [hy]; rfl)
      rw [hnew] at hlt
      exact Nat.lt_irrefl _ hlt
    · rfl
  have hgone : (h.initChart d o).ownership.gone = h.ownership.gone := rfl
  calc (h.initChart d o).ownership
      = ⟨(h.initChart d o).ownership.objects, (h.initChart d o).ownership.held, h.ownership.lists,
          (h.initChart d o).ownership.gone⟩ := rfl
    _ = _ := by rw [hobj, hheld, hgone]

theorem addChart_of_refused (hadd : (h.addChart a c).1 = false) : (h.addChart a c).2 = h := by
  rw [addChart] at hadd ⊢
  split
  · rfl
  · rename_i name hname
    rw [hname] at hadd
    dsimp only at hadd ⊢
    split
    · rfl
    · rename_i hfind
      rw [if_neg hfind] at hadd
      cases hadd

theorem addChart_of_accepted (hadd : (h.addChart a c).1 = true) : ∃ name, h.nameOf c = some name ∧
    h.findChart a name (h.ownerOf c) = none ∧
    (h.addChart a c).2 = (h.setChart c ({ · with agent := some a })).setAgent a fun g =>
      { g with charts := g.charts ++ [c] } := by
  rw [addChart] at hadd ⊢
  cases hname : h.nameOf c with
  | none =>
    rw [hname] at hadd
    cases hadd
  | some name =>
    rw [hname] at hadd
    dsimp only at hadd ⊢
    split at hadd
    · cases hadd
    · rename_i hfind
      rw [if_neg hfind]
      exact ⟨name, rfl, Option.not_isSome_iff_eq_none.mp hfind, rfl⟩

theorem ownership_addChart (hx : h.charts c = some x) (ha : (h.agents a).isSome)
    (hadd : (h.addChart a c).1 = true) : (h.addChart a c).2.ownership = { h.ownership with
      objects := Function.update h.ownership.objects c
        (some ⟨h.nodeList c, x.owner, some a, h.nameOf c⟩)
      lists := Function.update h.ownership.lists a (h.ownership.lists a ++ [c]) } := by
  obtain ⟨name, -, -, heq⟩ := addChart_of_accepted hadd
  obtain ⟨g, hg⟩ := Option.isSome_iff_exists.mp ha
  have hself : (h.addChart a c).2.charts c = some { x with agent := some a } := by
    rw [heq]
    change Function.update h.charts c ((h.charts c).map _) c = _
    rw [Function.update_self, hx]
    rfl
  have hdata : (h.addChart a c).2.chartData = h.chartData := by rw [heq]; rfl
  have hobj : (h.addChart a c).2.ownership.objects = Function.update h.ownership.objects c
      (some ⟨h.nodeList c, x.owner, some a, h.nameOf c⟩) := by
    funext d
    change ((h.addChart a c).2.charts d).map _ = _
    rcases eq_or_ne d c with rfl | hd
    · rw [Function.update_self, hself, Option.map_some, nodeList, nodesCount, nameOf, dataOf, hself,
        hdata, nodeList, nodesCount, nameOf, dataOf, hx]
      rfl
    · rw [Function.update_of_ne hd, nodeList, nodesCount, nameOf, dataOf, charts_addChart_of_ne hd,
        hdata]
      rfl
  have hlists : (h.addChart a c).2.ownership.lists =
      Function.update h.ownership.lists a (h.ownership.lists a ++ [c]) := by
    funext b
    change (((h.addChart a c).2.agents b).map (·.charts)).getD [] = _
    rw [heq]
    change ((Function.update h.agents a ((h.agents a).map _) b).map (·.charts)).getD [] = _
    rcases eq_or_ne b a with rfl | hb
    · rw [Function.update_self, Function.update_self]
      change _ = ((h.agents b).map (·.charts)).getD [] ++ [c]
      rw [hg]
      rfl
    · rw [Function.update_of_ne hb, Function.update_of_ne hb]
      rfl
  have hheld : (h.addChart a c).2.ownership.held = h.ownership.held := by rw [heq]; rfl
  have hgone : (h.addChart a c).2.ownership.gone = h.ownership.gone := by rw [heq]; rfl
  calc (h.addChart a c).2.ownership
      = ⟨(h.addChart a c).2.ownership.objects, (h.addChart a c).2.ownership.held,
          (h.addChart a c).2.ownership.lists, (h.addChart a c).2.ownership.gone⟩ := rfl
    _ = _ := by rw [hobj, hheld, hlists, hgone]

theorem Owned.fresh (ho : h.Owned) : h.ownership.objects h.nextChart = none := by
  refine Option.eq_none_iff_forall_ne_some.mpr fun x hx => ?_
  exact Nat.lt_irrefl _ (ho.bound h.nextChart (by rw [hx]; rfl))

theorem chart_of_newChart {o : Option NodeRef} {b : Option AgentId}
    (hn : n ∈ (h.newChart d o b).slots) : n.chart = h.nextChart := by
  obtain ⟨i, -, rfl⟩ := List.mem_map.mp hn
  rfl

/-- The chart a new chart is listed as. -/
theorem ownership_listed (ho : h.Owned) (o : Option NodeRef) (ha : (h.agents a).isSome)
    (hadd : ((h.initChart d o).addChart a h.nextChart).1 = true) :
    ((h.initChart d o).addChart a h.nextChart).2.ownership = { h.ownership with
      objects := Function.update h.ownership.objects h.nextChart (some (h.newChart d o (some a)))
      lists := Function.update h.ownership.lists a (h.ownership.lists a ++ [h.nextChart]) } := by
  have hself : (h.initChart d o).charts h.nextChart =
      some { data := d, nodeCount := h.nodeCount d, owner := o, agent := none } :=
    Function.update_self ..
  have ha' : ((h.initChart d o).agents a).isSome := ha
  have hobj := congrArg (fun f => Ownership.objects f h.nextChart) (ownership_initChart ho d o)
  dsimp only at hobj
  rw [Function.update_self] at hobj
  have hobj' : some (⟨(h.initChart d o).nodeList h.nextChart, o, none,
      (h.initChart d o).nameOf h.nextChart⟩ : Ownership.Object NodeRef AgentId (Option String)) =
        some (h.newChart d o none) := by
    rw [← hobj]
    change _ = ((h.initChart d o).charts h.nextChart).map _
    rw [hself]
    rfl
  have hfields := Option.some.inj hobj'
  have hslots : (h.initChart d o).nodeList h.nextChart = (h.newChart d o none).slots :=
    congrArg Ownership.Object.slots hfields
  have hname : (h.initChart d o).nameOf h.nextChart = (h.newChart d o none).name :=
    congrArg Ownership.Object.name hfields
  rw [ownership_addChart hself ha' hadd, ownership_initChart ho, hslots, hname]
  dsimp only
  rw [Function.update_idem]
  rfl

/-- **`Manager::Subchart` makes a chart** for a node that has none. -/
theorem owned_makeSubchart (ho : h.Owned) (hn : (h.nodes n).chart? = none)
    (hx : h.charts n.chart = some x) (hid : n.id < x.nodeCount) (ha : (h.agents a).isSome) :
    (h.makeSubchart n d a).2.Owned := by
  have hheld : h.ownership.held n = none := hn
  -- The node is a free slot of an older chart.
  have hown : ∀ (b : Option AgentId) m, (h.newChart d (some n) b).owner = some m →
      h.ownership.held m = none ∧ ∃ y, h.ownership.objects m.chart = some y ∧ m ∈ y.slots ∧
        m.chart < h.nextChart := by
    rintro b m ⟨⟩
    have hobj : h.ownership.objects n.chart =
        some ⟨h.nodeList n.chart, x.owner, x.agent, h.nameOf n.chart⟩ := by
      change (h.charts n.chart).map _ = _
      rw [hx]
      rfl
    refine ⟨hheld, _, hobj, ?_, ho.bound n.chart (by rw [hobj]; rfl)⟩
    refine List.mem_map.mpr ⟨n.id, ?_, rfl⟩
    rw [List.mem_range, nodesCount, hx]
    exact hid
  have huniq : ∀ (b : Option AgentId) e y i, h.ownership.objects e = some y →
      (h.newChart d (some n) b).register = some i → y.register = some i →
      (h.newChart d (some n) b).owner = y.owner → (h.newChart d (some n) b).name ≠ y.name := by
    intro b e y i hy _ _ howner _
    rw [(ho.held n e).mpr ⟨y, hy, howner.symm⟩] at hheld
    cases hheld
  have hadds : ∀ b : Option AgentId, (h.ownership.add h.nextChart (h.newChart d (some n) b)).Proper
      NodeRef.chart id (h.nextChart + 1) := fun b =>
    ho.add (Nat.le_succ _) ho.fresh (fun m hm => chart_of_newChart hm) (Nat.lt_succ_self _) (hown b)
      (huniq b)
  have hact : ∀ g : Heap, (g.act n
      ({ · with attacher := some (.subchart h.nextChart), status := .running })
      (.subchart n h.nextChart)).ownership =
        { g.ownership with held := Function.update g.ownership.held n (some h.nextChart) } := by
    intro g
    have hh : ∀ m, ((g.act n
        ({ · with attacher := some (.subchart h.nextChart), status := .running })
        (.subchart n h.nextChart)).nodes m).chart? =
          Function.update g.ownership.held n (some h.nextChart) m := by
      intro m
      rw [nodes_act, nodes_setNode, Function.update_apply]
      split <;> rfl
    exact congrArg (fun hs => { g.ownership with held := hs }) (funext hh)
  have hnext : (h.makeSubchart n d a).2.nextChart = h.nextChart + 1 := by
    have hkeep : ((h.initChart d (some n)).addChart a h.nextChart).2.nextChart =
        h.nextChart + 1 := by
      rw [addChart]
      split
      · rfl
      · split <;> rfl
    exact hkeep
  rw [Owned, hnext, makeSubchart]
  dsimp only
  rw [hact]
  cases hadd : ((h.initChart d (some n)).addChart a h.nextChart).1 with
  | false =>
    rw [addChart_of_refused hadd, ownership_initChart ho]
    exact hadds none
  | true =>
    rw [ownership_listed ho (some n) ha hadd]
    exact hadds (some a)

/-- **`Agent::AttachChart`** lists the new chart, or deletes it again. -/
theorem owned_attachChart (ho : h.Owned) (ha : (h.agents a).isSome) :
    (h.attachChart a d).Owned := by
  have hinit : (h.initChart d none).Owned := by
    rw [Owned, ownership_initChart ho]
    exact ho.add (x := h.newChart d none none) (Nat.le_succ _) ho.fresh
      (fun m hm => chart_of_newChart hm) (Nat.lt_succ_self _) nofun nofun
  have hself : (h.initChart d none).charts h.nextChart =
      some { data := d, nodeCount := h.nodeCount d, owner := none, agent := none } :=
    Function.update_self ..
  rw [attachChart]
  cases hadd : ((h.initChart d none).addChart a h.nextChart).1 with
  | false =>
    rw [if_neg Bool.false_ne_true, addChart_of_refused hadd]
    exact owned_deleteChart hinit (by rw [hself]; rfl)
  | true =>
    rw [if_pos rfl]
    obtain ⟨name, hname, hfind, heq⟩ := addChart_of_accepted hadd
    have hnext : ((h.initChart d none).addChart a h.nextChart).2.nextChart = h.nextChart + 1 := by
      rw [heq]
      rfl
    rw [Owned, hnext, ownership_listed ho none ha hadd]
    refine ho.add (x := h.newChart d none (some a)) (Nat.le_succ _) ho.fresh
      (fun m hm => chart_of_newChart hm) (Nat.lt_succ_self _) nofun ?_
    -- `FindChart` has found no other chart of the name.
    rintro e y i hy ⟨⟩ hreg howner hyname
    have hmem : e ∈ h.ownership.lists a := (ho.listed e a).mpr ⟨y, hy, hreg⟩
    have hne : e ≠ h.nextChart := by
      rintro rfl
      rw [ho.fresh] at hy
      cases hy
    obtain ⟨z, hz, rfl⟩ := Option.map_eq_some_iff.mp hy
    have hkeep : (h.initChart d none).charts e = h.charts e := Function.update_of_ne hne ..
    have hnew : (h.initChart d none).nameOf h.nextChart = (h.newChart d none (some a)).name := by
      rw [nameOf, dataOf, hself]
      rfl
    have hename : (h.initChart d none).nameOf e = some name := by
      rw [← hname, hnew, hyname, nameOf, dataOf, hkeep]
      rfl
    have hown : (h.initChart d none).ownerOf h.nextChart = none := by
      rw [ownerOf, hself]
      rfl
    have hlist : (((h.initChart d none).agents a).map (·.charts)).getD [] =
      h.ownership.lists a := rfl
    rw [findChart, hlist, hown] at hfind
    have hno := List.find?_eq_none.mp hfind e hmem
    have hzo : z.owner = none := howner.symm
    rw [hename, hkeep, hz] at hno
    simp [hzo] at hno

theorem owned_init : ({} : Heap).Owned where
  slots _ _ _ hx := nomatch hx
  held n c := by
    constructor
    · exact fun hc => nomatch hc
    · rintro ⟨_, hx, _⟩
      cases hx
  owner _ _ _ hx := nomatch hx
  bound _ hc := nomatch hc
  listed c a := by
    constructor
    · exact fun hc => nomatch hc
    · rintro ⟨_, hx, _⟩
      cases hx
  nodup _ := List.nodup_nil
  unique _ _ _ _ _ hx := nomatch hx

/-! ### The calls -/

theorem owned_removeChart (ho : h.Owned) (name : String) : (h.removeChart a name).Owned := by
  rw [removeChart]
  split
  · rename_i c hc
    have hfound := List.find?_some hc
    rw [Bool.and_eq_true, Option.any_eq_true] at hfound
    obtain ⟨x, hx, -⟩ := hfound.2
    exact owned_deleteChart ho (by rw [hx]; rfl)
  · exact ho

theorem owned_wait (ho : h.Owned) : h.wait.Owned := by
  have hd : ∀ n, Does (fun _ => True) (fun _ => True) (fun _ => False) h (h.deleteAttacher n) :=
    does_deleteAttacher h
  rw [wait]
  split
  · exact ho
  · rename_i n _
    have hle : h.nextChart ≤ (h.deleteAttacher n).nextChart := nextChart_le_of_does (hd n)
    exact ho.swept (swept_deleteAttacher ho n (f := Node.wait) (o := .timer n) rfl fun _ => rfl) hle

/-- **`Manager::Subchart`** for a node of a chart that is there. -/
theorem owned_prepareSubchart (ho : h.Owned) (name : String) (hcur : h.currentNode = some n)
    (hx : h.charts n.chart = some x) (hid : n.id < x.nodeCount) (ha : (h.agents a).isSome)
    (hr : h.Ranked) : (h.prepareSubchart name a).2.Owned := by
  rw [prepareSubchart, hcur]
  dsimp only
  split
  · exact ho
  · rename_i d hd
    split
    · exact ho
    · exact ho
    · rename_i c hc
      split
      · exact ho.congr (ownership_act h n rfl rfl) (Nat.le_refl _)
      · -- The chart of the node goes, and the node itself stays.
        have hlt : n.chart < c := hr n c hc
        have hdel : h.deleteAttacher n = h.deleteChart c := by rw [deleteAttacher, hc]
        have hkeep : (h.clearAttacher n).charts n.chart = some x := by
          have hold : (h.deleteChart c).charts n.chart = h.charts n.chart :=
            charts_destroyChart_of_lt _ h c hr hlt
          rw [clearAttacher, hdel]
          exact hold.trans hx
        have hagents : ((h.clearAttacher n).agents a).isSome := by
          have hcrew : (h.clearAttacher n).crew = h.crew :=
            crew_of_still (D := fun _ => False) (does_clearAttacher h n)
          have hat := congrArg (fun k => (Crew.agents k a).isSome) hcrew
          simpa [crew] using hat.trans (by simpa [crew] using ha)
        exact owned_makeSubchart (owned_clearAttacher ho n)
          (chart?_clearAttacher h n) hkeep hid hagents
    · rename_i hnone
      exact owned_makeSubchart ho (by rw [Node.chart?, hnone]; rfl) hx hid ha

/-! ### Destroying agents -/

/-- The body of the loop of `Agent::~Agent`, for a chart that is there. -/
def destroyListed (h : Heap) (c : ChartId) : Heap :=
  match h.ownerOf c with
  | some o => h.clearAttacher o
  | none => h.deleteChart c

/-- **The body of the loop** destroys the chart and what is below it. -/
theorem prunes_destroyListed (ho : h.Owned) (hc : (h.charts c).isSome) :
    Ownership.Prunes {e | h.ownership.Below c e} h.ownership (h.destroyListed c).ownership := by
  obtain ⟨x, hx⟩ := Option.isSome_iff_exists.mp hc
  have howner : h.ownerOf c = x.owner := by rw [ownerOf, hx]; rfl
  rw [destroyListed, howner]
  cases hxo : x.owner with
  | none => exact prunes_deleteChart ho hc
  | some o =>
    have hheld : h.ownership.held o = some c := by
      refine (ho.held o c).mpr ⟨⟨h.nodeList c, x.owner, x.agent, h.nameOf c⟩, ?_, hxo⟩
      change (h.charts c).map _ = _
      rw [hx]
      rfl
    have hs := swept_deleteAttacher ho o (f := ({ · with attacher := none }))
      (o := .noAttacher o) rfl
      fun _ => rfl
    have hS : {e | ∃ d ∈ {d | h.ownership.held o = some d}, h.ownership.Below d e} =
        {e | h.ownership.Below c e} := by
      ext e
      simp [hheld]
    rw [Ownership.Swept, hS] at hs
    exact hs

/-- The charts of the list go one after the other, unless they are gone already. -/
theorem swept_foldl {A : Set ChartId} {f : Heap → ChartId → Heap}
    (hf : ∀ g c, f g c = if (g.charts c).isSome then g.destroyListed c else g) (ho : h.Owned)
    (cs : List ChartId) (hcs : ∀ c ∈ cs, (h.charts c).isSome)
    (hle : h.nextChart ≤ g.nextChart) (hs : h.ownership.Swept A g.ownership) :
    h.ownership.Swept (A ∪ {c | c ∈ cs}) (cs.foldl f g).ownership := by
  induction cs generalizing g A with
  | nil => simpa using hs
  | cons c cs ih =>
    have hA : A ∪ {d | d ∈ c :: cs} = insert c A ∪ {d | d ∈ cs} := by
      ext d
      simp only [List.mem_cons, Set.mem_union, Set.mem_ofPred_eq, Set.mem_insert_iff]
      tauto
    rw [hA, List.foldl_cons, hf]
    have hcs' := fun d hd => hcs d (List.mem_cons_of_mem c hd)
    have hc : (h.ownership.objects c).isSome := by
      rw [isSome_objects]
      exact hcs c List.mem_cons_self
    cases hgc : (g.charts c).isSome with
    | false =>
      rw [if_neg Bool.false_ne_true]
      refine ih hcs' hle (hs.skip hc ?_)
      rw [← Option.not_isSome_iff_eq_none, isSome_objects, hgc]
      exact Bool.false_ne_true
    | true =>
      rw [if_pos rfl]
      have hgo : g.Owned := ho.swept hs hle
      have hd : Does (fun _ => True) (fun _ => True) (fun _ => False) g (g.destroyListed c) := by
        rw [destroyListed]
        split
        · exact does_clearAttacher g _
        · exact does_deleteChart g c
      refine ih hcs' (Nat.le_trans hle (nextChart_le_of_does hd)) ?_
      exact hs.insert ho (by rwa [isSome_objects]) (prunes_destroyListed hgo hgc)

/-- When all charts of an agent are gone, its lists are empty. -/
theorem lists_of_swept (hs : h.ownership.Swept {c | c ∈ h.ownership.lists a} g.ownership) :
    g.ownership.lists a = [] := by
  refine List.eq_nil_iff_forall_not_mem.mpr fun c hc => ?_
  obtain ⟨hcl, hno⟩ := (hs.mem a c).mp hc
  exact hno ⟨c, hcl, .refl⟩

/-- **`Agent::~Agent`** destroys the charts of the agent and what is below them. -/
theorem swept_destroyAgent (ho : h.Owned) (es : List EventId) (a : AgentId) :
    h.ownership.Swept {c | c ∈ h.ownership.lists a} (h.destroyAgent es a).ownership := by
  have hdrop := ownership_dropWaiting h es a
  have hs : h.ownership.Swept ∅ (h.dropWaiting es a).ownership := by
    rw [hdrop]
    exact .refl _
  have halive : ∀ c ∈ (h.ownership.lists a).reverse, (h.charts c).isSome := by
    intro c hc
    obtain ⟨y, hy, -⟩ := (ho.listed c a).mp (List.mem_reverse.mp hc)
    rw [← isSome_objects, hy]
    rfl
  obtain ⟨f, hf, hd⟩ : ∃ f : Heap → ChartId → Heap,
      (∀ g c, f g c = if (g.charts c).isSome then g.destroyListed c else g) ∧
      h.destroyAgent es a = { (h.ownership.lists a).reverse.foldl f (h.dropWaiting es a) with
        agents := Function.update ((h.ownership.lists a).reverse.foldl f
          (h.dropWaiting es a)).agents a none } := by
    refine ⟨_, fun g c => ?_, rfl⟩
    rw [destroyListed, ownerOf]
    cases g.charts c with
    | none => rfl
    | some x => rfl
  have hfold := swept_foldl (g := h.dropWaiting es a) hf ho _ halive (Nat.le_refl _) hs
  have hA : ∅ ∪ {c | c ∈ (h.ownership.lists a).reverse} = {c | c ∈ h.ownership.lists a} := by
    ext c
    simp
  rw [hA] at hfold
  have hnil := lists_of_swept hfold
  have hsame : ∀ g : Heap, g.ownership.lists a = [] →
      ({ g with agents := Function.update g.agents a none } : Heap).ownership = g.ownership := by
    intro g hg
    have hlists : (fun b => ((Function.update g.agents a none b).map (·.charts)).getD []) =
        g.ownership.lists := by
      funext b
      rcases eq_or_ne b a with rfl | hb
      · rw [hg, Function.update_self]
        rfl
      · rw [Function.update_of_ne hb]
        rfl
    exact congrArg (fun ls => { g.ownership with lists := ls }) hlists
  have hend : (h.destroyAgent es a).ownership = _ :=
    (congrArg ownership hd).trans (hsame _ hnil)
  rw [hend]
  exact hfold

theorem owned_destroyAgent (ho : h.Owned) (es : List EventId) (a : AgentId) :
    (h.destroyAgent es a).Owned := by
  have hd : Does (fun _ => True) (fun _ => True) (fun _ => False) h (h.destroyAgent es a) :=
    does_destroyAgent trivial h es a
  exact ho.swept (swept_destroyAgent ho es a) (nextChart_le_of_does hd)

end Heap

/-! ### The steps -/

namespace State

variable {cfg : Config} {s t : State} {a : Act} {n : NodeRef} {c : ChartId} {rest : List Frame}

theorem ownership_event (s : State) (e : EventId) (a : AgentId) (immediate trigger : Bool) :
    (s.event cfg e a immediate trigger).heap.ownership = s.heap.ownership := by
  rw [event]
  split
  · cases trigger with
    | false => rfl
    | true =>
      rw [if_pos rfl, triggerEvent]
      split
      · rfl
      · split <;> rfl
  · rfl

theorem ownership_startLater (s : State) (a : AgentId) (c : ChartId) :
    (s.startLater cfg a c).heap.ownership = s.heap.ownership :=
  (ownership_event ..).trans (Heap.ownership_waitEvent ..)

theorem ownership_continueLater (s : State) (n : NodeRef) :
    (s.continueLater cfg n).heap.ownership = s.heap.ownership := by
  rw [continueLater]
  split
  · exact (ownership_event ..).trans (Heap.ownership_waitEvent ..)
  · rfl

theorem ownership_startChart (s : State) (a : AgentId) (c : ChartId) (sync : Bool) :
    (s.startChart cfg a c sync).heap.ownership = s.heap.ownership := by
  rw [startChart]
  split
  · rfl
  · cases sync with
    | true => exact Heap.ownership_markStarted s.heap c
    | false => exact (ownership_startLater ..).trans (Heap.ownership_markStarted s.heap c)

theorem ownership_chartReturn (s : State) (c : ChartId) (b : Bool) :
    (s.chartReturn c b).heap.ownership = s.heap.ownership := by
  have hnote : (s.heap.note (.returned c b)).ownership = s.heap.ownership := rfl
  rw [chartReturn]
  split
  · rfl
  · rename_i o _
    have hact := Heap.ownership_act ((s.heap.note (.returned c b)).stop o) o (f := Node.owner b)
      (o := .owner o c b) rfl rfl
    exact hact.trans ((Heap.ownership_stop ..).trans hnote)

theorem ownership_finishReturn (s : State) (c : ChartId) :
    (s.finishReturn c).heap.ownership = s.heap.ownership := by
  rw [finishReturn]
  split
  · have hset := Heap.ownership_setChart (s.heap.stopChart c) c (f := ({ · with call := false }))
      fun _ => ⟨rfl, rfl, rfl, rfl⟩
    exact hset.trans (Heap.ownership_stopChart ..)
  · exact Heap.ownership_stopChart ..

theorem ownership_enterFlow (s : State) (n : NodeRef) (rest : List Frame) :
    (s.enterFlow cfg n rest).heap.ownership = s.heap.ownership := by
  have he := enters cfg s n rest
  generalize s.enterFlow cfg n rest = t at he ⊢
  cases he with
  | refused =>
    unfold refuse
    split
    · exact ownership_startLater ..
    · exact ownership_continueLater ..
    · rfl
  | gone => rfl
  | flow => exact Heap.ownership_beginFlow ..
  | skipped => exact Heap.ownership_skipFlow ..

theorem ownership_continueFlow (s : State) (n : NodeRef) (rest : List Frame) :
    (s.continueFlow n rest).heap.ownership = s.heap.ownership := by
  rw [continueFlow]
  dsimp only
  split
  · rfl
  · split
    · exact Heap.ownership_continueFlow ..
    · rfl

theorem ownership_flowRound (s : State) (l : ℕ) (c : ChartId) (k : ℕ) (r : Bool)
    (rest : List Frame) : (s.flowRound cfg l c k r rest).heap.ownership = s.heap.ownership := by
  have hrun : ∀ (u : State) (n : NodeRef), (u.runNode l n).heap.ownership = u.heap.ownership := by
    intro u n
    have hr := runsNode u l n
    generalize u.runNode l n = v at hr ⊢
    cases hr with
    | skip | null | script => exact Heap.ownership_enterNode ..
    | control =>
      exact (Heap.ownership_returnNode ..).trans
        ((Heap.ownership_callControl ..).trans (Heap.ownership_enterNode ..))
  rw [flowRound]
  split
  · exact Heap.ownership_restoreHistory ..
  · split
    · exact Heap.ownership_restoreHistory ..
    · split
      · exact (Heap.ownership_restoreHistory ..).trans (Heap.ownership_cutFlow ..)
      · split
        · exact Heap.ownership_pop ..
        · split
          · exact Heap.ownership_deferTick ..
          · exact hrun { s with frames := .flow l c (k + 1) r :: rest } _

theorem ownership_flowCheck (s : State) (l : ℕ) (c : ChartId) (r : Bool) (rest : List Frame) :
    (s.flowCheck l c r rest).heap.ownership = s.heap.ownership := by
  rw [flowCheck]
  split
  · exact ownership_chartReturn { s with frames := .flowReturn l c :: rest } c true
  · rfl

theorem ownership_handleRound (s : State) (rest : List Frame) :
    (s.handleRound rest).heap.ownership = s.heap.ownership := by
  rw [handleRound]
  split
  · rfl
  · split
    · rfl
    · rename_i r rs _ _ n ns _
      exact Heap.ownership_act { s.heap with handling := { r with nodes := ns } :: rs } n
        (f := ({ · with container := none, linked := false, status := .idle }))
        (o := .deliver n) rfl rfl

theorem ownership_asyncRound (s : State) (rest : List Frame) :
    (s.asyncRound rest).heap.ownership = s.heap.ownership := by
  rw [asyncRound]
  split
  · rfl
  · exact Heap.ownership_resumeNode ..

theorem ownership_eventsRound (s : State) (rest : List Frame) :
    (s.eventsRound cfg rest).heap.ownership = s.heap.ownership := by
  rw [eventsRound]
  split
  · rfl
  · dsimp only
    split <;> rfl

/-- **A step keeps names settled**, and what is registered. -/
theorem filed_of_step (hw : s.Wf) (hf : s.heap.registry.Filed) (h : s.step cfg a = some t) :
    t.heap.registry.Filed ∧ s.heap.registry.Extends t.heap.registry := by
  refine registry_of_step (P := fun r => r.Filed ∧ s.heap.registry.Extends r) hw h ?_ ⟨hf, .refl _⟩
  rintro r r' hm ⟨hr, he⟩
  refine ⟨Registry.filed_of_move ?_ hr hm, he.trans (Registry.extends_of_move hr.fresh hm)⟩
  rintro d ⟨g, name, -, hd⟩
  exact he.isSome (hf.dict name d hd)

theorem filed_of_reachable (h : Reachable cfg s) : s.heap.registry.Filed := by
  have hinv := h.invariant (I := fun s => s.Wf ∧ s.heap.registry.Filed)
    ⟨wf_init, ⟨nofun, nofun, nofun⟩⟩
    fun _ _ _ hi _ hs => ⟨wf_of_step hi.1 hs, (filed_of_step hi.1 hi.2 hs).1⟩
  exact hinv.2

/-- The current node of a call is a node of a chart that is there. -/
theorem alive_of_nodeCall (hr : Reachable cfg s) {o : Op} (hm : s.mayCall o = true)
    (hcall : o.isNodeCall = true) : ∃ n x, s.heap.currentNode = some n ∧
      s.heap.charts n.chart = some x ∧ n.id < x.nodeCount := by
  have hw := wf_of_reachable hr
  have hs := (shaped_of_reachable hr).stacked
  obtain ⟨n, rest, hf⟩ : ∃ n rest, s.frames = .func n :: rest := by
    rw [mayCall] at hm
    split at hm
    · rw [hcall] at hm
      cases hm
    · exact ⟨_, _, ‹_›⟩
    · rw [hcall] at hm
      cases hm
    · rw [hcall] at hm
      cases hm
    · cases hm
  rw [hf] at hs
  obtain ⟨_, _, _, _, _, _, hcur, _⟩ := hs.nest_of_func.func_inv
  have halive := alive_of_sound hw.sound (f := .func n) (by rw [hf]; exact List.mem_cons_self) rfl
  obtain ⟨x, hx⟩ := Option.isSome_iff_exists.mp halive
  exact ⟨n, x, hcur, hx, (hw.born.current _ n hcur).2 x hx⟩

/-- **The calls of the API keep the invariant.** -/
theorem owned_of_op (hr : Reachable cfg s) (ho : s.heap.Owned) {o : Op} (hm : s.mayCall o = true)
    (h : s.runOp cfg o = some t) (hf : t.heap.registry.Filed ∧
      s.heap.registry.Extends t.heap.registry)
    (hle : s.heap.nextChart ≤ t.heap.nextChart) : t.heap.Owned := by
  have hw := wf_of_reachable hr
  have hfiled := filed_of_reachable hr
  cases o with
  | importChart data =>
    cases h
    exact ho.congr (Heap.ownership_of_extends hfiled hf.2 hw.born rfl rfl rfl rfl) hle
  | patchChart doc =>
    cases h
    refine ho.congr (Heap.ownership_of_extends hfiled hf.2 hw.born ?_ ?_ ?_ ?_) hle <;>
      (simp only [mapHeap, Heap.patchChart]; split <;> split <;> rfl)
  | register o =>
    cases h
    refine ho.congr (Heap.ownership_register o ?_) hle
    have hfresh := (manned_of_reachable hr).sane.fresh
    exact Option.map_eq_none_iff.mp hfresh
  | unregister b =>
    cases h
    exact ho.congr (Heap.ownership_unregisterGameObject ..) hle
  | attachChart b name =>
    rw [runOp] at h
    split at h
    · rename_i hb
      cases h
      split
      · exact Heap.owned_attachChart ho hb
      · exact ho
    · cases h
  | removeChart b name =>
    cases h
    exact Heap.owned_removeChart ho name
  | startChart c =>
    rw [runOp] at h
    split at h
    · obtain ⟨b, -, rfl⟩ := Option.map_eq_some_iff.mp h
      exact ho.congr (ownership_startChart ..) hle
    · cases h
  | stopChart c =>
    rw [runOp] at h
    split at h
    · cases h
      exact ho.congr (Heap.ownership_stopChart ..) hle
    · cases h
  | stopAgent b =>
    cases h
    exact ho.congr (Heap.ownership_foldl Heap.ownership_stopChart ..) hle
  | setCall c =>
    cases h
    exact ho.congr (Heap.ownership_setChart _ c fun _ => ⟨rfl, rfl, rfl, rfl⟩) hle
  | event e b immediate trigger =>
    cases h
    exact ho.congr (ownership_event ..) hle
  | continueAsyncNode ctx b =>
    cases h
    exact ho.congr (Heap.ownership_continueAsyncNode ..) hle
  | cancelAsyncNode ctx stop =>
    cases h
    exact ho.congr (Heap.ownership_cancelAsyncNode ..) hle
  | wait =>
    cases h
    exact Heap.owned_wait ho
  | waitEvent b e =>
    rw [runOp] at h
    split at h
    · cases h
      exact ho.congr (Heap.ownership_managerWaitEvent ..) hle
    · cases h
  | waitAll args =>
    cases h
    exact ho.congr (Heap.ownership_waitAll ..) hle
  | stopNode args =>
    cases h
    exact ho.congr (Heap.ownership_stopNodes ..) hle
  | stopFlow args =>
    cases h
    exact ho.congr (Heap.ownership_stopFlow ..) hle
  | subchart name b =>
    obtain ⟨n, x, hcur, hx, hid⟩ := alive_of_nodeCall hr hm rfl
    cases h
    rw [subchart]
    split
    · rename_i hb
      have hp := Heap.owned_prepareSubchart ho name hcur hx hid hb
        (stoppable_of_reachable hr).ranked
      dsimp only
      split
      · rename_i c _
        have hstart := @ownership_startChart cfg
          (s.mapHeap fun _ => (s.heap.prepareSubchart name b).2) b c true
        refine Heap.Owned.congr (h := (s.heap.prepareSubchart name b).2) hp hstart ?_
        rw [startChart]
        split
        · exact Nat.le_refl _
        · have hd : Heap.Does (fun _ => True) (fun _ => True) (fun _ => False)
              (s.heap.prepareSubchart name b).2 ((s.heap.prepareSubchart name b).2.markStarted c) :=
            Heap.does_markStarted _ _
          exact Heap.nextChart_le_of_does hd
      · exact hp
    · exact ho
  | createAsyncContext =>
    cases h
    exact ho.congr (Heap.ownership_createAsyncContext ..) hle
  | managerReturn b =>
    cases h
    refine ho.congr ?_ hle
    rw [managerReturn]
    split
    · rfl
    · split
      · exact ownership_chartReturn ..
      · rfl
  | step =>
    cases h
    exact ho
  | place cells =>
    cases h
    exact ho

/-- **A step keeps the invariant.** -/
theorem owned_of_step (hr : Reachable cfg s) (ho : s.heap.Owned) (h : s.step cfg a = some t) :
    t.heap.Owned := by
  have hw := wf_of_reachable hr
  have hf := filed_of_step hw (filed_of_reachable hr) h
  have hd : Heap.Does (fun _ => True) (fun _ => True) (fun _ => False) s.heap t.heap :=
    does_of_step (fun _ _ => trivial) hw h fun _ _ => trivial
  have hle := Heap.nextChart_le_of_does hd
  cases (trans_of_step h).1 with
  | enter => exact ho.congr (ownership_enterFlow ..) hle
  | continuing => exact ho.congr (ownership_continueFlow ..) hle
  | flow => exact ho.congr (ownership_flowRound ..) hle
  | ran => exact ho.congr (Heap.ownership_finishNode ..) hle
  | ended => exact ho.congr (ownership_flowCheck ..) hle
  | @flowReturn l c rest hfr =>
    exact ho.congr (Heap.ownership_idle s.heap c) hle
  | @returning c rest hfr => exact ho.congr (ownership_finishReturn { s with frames := rest } c) hle
  | handle => exact ho.congr (ownership_handleRound ..) hle
  | async => exact ho.congr (ownership_asyncRound ..) hle
  | events => exact ho.congr (ownership_eventsRound ..) hle
  | @dying as rest hfr =>
    refine ho.congr ?_ hle
    cases as with
    | nil => rfl
    | cons b as => rfl
  | released => exact Heap.owned_destroyAgent ho _ _
  | op hm hop => exact owned_of_op hr ho hm hop hf hle
  | ret r hfr => exact ho.congr (Heap.ownership_returnNode ..) hle
  | @fire n rest hfr hatt =>
    refine ho.congr (Heap.ownership_act s.heap n rfl ?_) hle
    rw [Node.chart?, Node.chart?, hatt]
    rfl
  | tick => exact ho.congr (ownership_event ..) hle
  | starting | trigger | deleteEvent | done | timersDone => exact ho

/-- **In every reachable state every chart has its owner.** -/
theorem owned_of_reachable (h : Reachable cfg s) : s.heap.Owned := by
  have hinv := h.invariant (I := fun s => Reachable cfg s ∧ s.heap.Owned) ⟨.refl _, Heap.owned_init⟩
    fun _ _ _ hi _ hs => ⟨hi.1.tail trivial hs, owned_of_step hi.1 hi.2 hs⟩
  exact hinv.2

end State

end Asyncflow
