import Asyncflow.Lib.Preorder
import Asyncflow.Moves.Stopping

/-!
# The stack of a flow on a tree

The loop of `DfsExecutor::RunFlow` keeps the pending nodes on a stack. On the part of a
chart that is a tree, `Asyncflow.Heap.Walk` relates that stack to the list of trees still to
be traversed, and `Asyncflow.Heap.Walk.finish` says that the rest of a round, after the
function of the node on top, replaces the tree on top by its chosen children.

`Asyncflow.Heap.Walk.restored` is what the loop leaves when nothing is pending.
-/

namespace Asyncflow

/-- What the function of a node does to the node. -/
inductive Outcome
  /-- The node is done, with a result. -/
  | complete (b : Bool)
  /-- The node is stopped. -/
  | stop
  /-- The node goes on later. -/
  | suspend
deriving DecidableEq, Repr

namespace Outcome

/-- The list of successors that is traversed next. -/
def choice : Outcome → Option Bool
  | complete b => some b
  | stop | suspend => none

/-- What a skipped node counts as. -/
def ofResult : NodeResult → Outcome
  | .rTrue => complete true
  | .rFalse => complete false
  | .rStop => stop

/-- How a node is left by its function. -/
def Leaves (l : ℕ) (d : Node) : Outcome → Prop
  | complete b => d.status ≠ .running ∧ d.result = .ofBool b ∧ d.container = some (.executor l)
  | stop => d.status ≠ .running ∧ d.result = .rStop
  | suspend => d.status = .running

/-- How a node is left by its round of the loop. -/
def Finished (d : Node) (popped : Prop) : Outcome → Prop
  | complete _ => d.status = .endRun ∧ popped
  | stop => d.status ≠ .running
  | suspend => d.status = .running

end Outcome

/-- A node without the fields that being pushed changes. -/
def Node.core (d : Node) : Node := { d with preNodeId := -1, container := none, linked := false }

/-- The node an entry calls the function of. -/
def Obs.called? : Obs → Option NodeRef
  | .run n => some n
  | _ => none

namespace Heap

/-- The node functions called so far, in order. -/
def calls (h : Heap) : List NodeRef := h.log.reverse.filterMap Obs.called?

/-- The tree is the part of the chart that is reached from its root. -/
inductive Grows (h : Heap) (c : ChartId) : Tree ℕ → Prop
  | node {i ss fs} : i < h.nodesCount c →
      (h.nodeData ⟨c, i⟩).success = ss.map Tree.root →
      (h.nodeData ⟨c, i⟩).failure = fs.map Tree.root →
      (∀ t ∈ ss, Grows h c t) → (∀ t ∈ fs, Grows h c t) → Grows h c (.node i ss fs)

variable {h h' g base : Heap} {n m : NodeRef} {l : ℕ} {c : ChartId} {t : Tree ℕ}
  {ts : List (Tree ℕ)}

theorem Grows.root_lt (hg : h.Grows c t) : t.root < h.nodesCount c := by
  cases hg with
  | node hi _ _ _ _ => exact hi

theorem Grows.pick (hg : h.Grows c t) {b : Option Bool} {u : Tree ℕ} (hu : u ∈ t.pick b) :
    h.Grows c u := by
  cases hg with
  | node _ _ _ hss hfs =>
    rcases b with - | b
    · cases hu
    · cases b with
      | false => exact hfs u hu
      | true => exact hss u hu

theorem Grows.subsequenceIds (hg : h.Grows c t) (b : Bool) :
    (h.nodeData ⟨c, t.root⟩).subsequenceIds b = (t.pick (some b)).map Tree.root := by
  cases hg with
  | node _ hs hf _ _ =>
    cases b with
    | false => exact hf
    | true => exact hs

theorem Grows.congr (hg : h.Grows c t) (hc : h'.charts c = h.charts c)
    (hd : h'.dataOf c = h.dataOf c) : h'.Grows c t := by
  induction hg with
  | @node i ss fs hi hs hf _ _ ihs ihf =>
    have hn : h'.nodeData ⟨c, i⟩ = h.nodeData ⟨c, i⟩ := by
      rw [nodeData, nodeData, hd]
    refine .node ?_ ?_ ?_ ihs ihf
    · rwa [nodesCount, hc]
    · rwa [hn]
    · rwa [hn]

/-! ### Pushing the children -/

/-- The nodes `ids` of a chart have been pushed to an executor. -/
structure Pushed (l : ℕ) (c : ChartId) (ids : List ℕ) (h h' : Heap) : Prop where
  list : (h'.stack l).nodeList = ids.map (⟨c, ·⟩) ++ (h.stack l).nodeList
  history : (h'.stack l).historyNodes = (h.stack l).historyNodes
  container : ∀ i ∈ ids, (h'.nodes ⟨c, i⟩).container = some (.executor l)
  core : ∀ m, (h'.nodes m).core = (h.nodes m).core
  others : ∀ m, (∀ i ∈ ids, m ≠ ⟨c, i⟩) → h'.nodes m = h.nodes m
  charts : h'.charts = h.charts
  chartData : h'.chartData = h.chartData
  calls : h'.calls = h.calls
  ub : h'.ub = h.ub

/-- Pushing a node that is in no container. -/
theorem push_of_free (l : ℕ) (hn : (h.nodes n).container = none) : h.push (.executor l) n =
    (h.setExecutor l fun x => { x with nodeList := n :: x.nodeList }).setNode n
      ({ · with container := some (.executor l) }) := by
  unfold push detach
  rw [hn]
  rfl

theorem calls_cons {o : Obs} {log : List Obs} (hl : h'.log = o :: log) (hh : h.log = log)
    (ho : o.called? = none) : h'.calls = h.calls := by
  rw [calls, hl, List.reverse_cons, List.filterMap_append, calls, hh]
  simp [ho]

theorem pushed_addChild (l : ℕ) {i : ℕ} (hi : i < h.nodesCount n.chart)
    (hfree : (h.nodes ⟨n.chart, i⟩).container = none) :
    Pushed l n.chart [i] h (h.addChild l n i) := by
  have hfree' : ((h.act ⟨n.chart, i⟩ ({ · with preNodeId := n.id })
      (.edge n ⟨n.chart, i⟩)).nodes ⟨n.chart, i⟩).container = none := by
    rw [nodes_act, nodes_setNode_self]
    exact hfree
  rw [addChild, if_pos hi, push_of_free l hfree']
  constructor
  · simp [stack_setExecutor, act]
  · simp [stack_setExecutor, act]
  · intro j hj
    obtain rfl := List.mem_singleton.mp hj
    simp
  · intro m
    simp only [nodes_setNode, nodes_setExecutor, nodes_act]
    split <;> rfl
  · intro m hm
    have hne := hm i List.mem_cons_self
    simp only [nodes_setNode, nodes_setExecutor, nodes_act, if_neg hne]
  · rfl
  · rfl
  · exact calls_cons (h := h) rfl rfl rfl
  · rfl

theorem pushed_children (l : ℕ) (n : NodeRef) {ids : List ℕ} (hnd : ids.Nodup)
    (hids : ∀ i ∈ ids, i < h.nodesCount n.chart ∧ (h.nodes ⟨n.chart, i⟩).container = none) :
    Pushed l n.chart ids h (ids.reverse.foldl (fun h i => h.addChild l n i) h) := by
  rw [List.foldl_reverse]
  induction ids with
  | nil => exact ⟨rfl, rfl, nofun, fun _ => rfl, fun _ _ => rfl, rfl, rfl, rfl, rfl⟩
  | cons i ids ih =>
    have hp := ih hnd.of_cons fun j hj => hids j (List.mem_cons_of_mem i hj)
    obtain ⟨hi, hfree⟩ := hids i List.mem_cons_self
    have hnot : i ∉ ids := (List.nodup_cons.mp hnd).1
    rw [List.foldr_cons]
    generalize ids.foldr _ h = k at hp ⊢
    have hik : i < k.nodesCount n.chart := by rwa [nodesCount, hp.charts]
    have hfree' : (k.nodes ⟨n.chart, i⟩).container = none := by
      rw [hp.others]
      · exact hfree
      · rintro j hj he
        obtain rfl : i = j := congrArg NodeRef.id he
        exact hnot hj
    have hs := pushed_addChild (n := n) l hik hfree'
    constructor
    · rw [hs.list, hp.list]
      rfl
    · rw [hs.history, hp.history]
    · intro j hj
      rcases List.mem_cons.mp hj with rfl | hmem
      · exact hs.container j List.mem_cons_self
      · rw [hs.others]
        · exact hp.container j hmem
        · intro j' hj' he
          obtain rfl := List.mem_singleton.mp hj'
          obtain rfl : j = j' := congrArg NodeRef.id he
          exact hnot hmem
    · exact fun m => (hs.core m).trans (hp.core m)
    · intro m hm
      rw [hs.others, hp.others]
      · exact fun j hj => hm j (List.mem_cons_of_mem i hj)
      · intro j hj
        obtain rfl := List.mem_singleton.mp hj
        exact hm j List.mem_cons_self
    · exact hs.charts.trans hp.charts
    · exact hs.chartData.trans hp.chartData
    · exact hs.calls.trans hp.calls
    · exact hs.ub.trans hp.ub

/-! ### Taking the node on top -/

/-- The node on top has been taken, if it was still there. -/
structure Popped (l : ℕ) (n : NodeRef) (ns : List NodeRef) (h h' : Heap) : Prop where
  list : (h'.stack l).nodeList = ns
  history : (h'.stack l).historyNodes = if (h.nodes n).container = some (.executor l) then
    n :: (h.stack l).historyNodes else (h.stack l).historyNodes
  core : ∀ m, (h'.nodes m).core = (h.nodes m).core
  others : ∀ m, m ≠ n → h'.nodes m = h.nodes m
  charts : h'.charts = h.charts
  chartData : h'.chartData = h.chartData
  calls : h'.calls = h.calls
  ub : h'.ub = h.ub

theorem popped_popHeld {ns : List NodeRef} (hlist : (h.stack l).nodeList =
    if (h.nodes n).container = some (.executor l) then n :: ns else ns) :
    Popped l n ns h (h.popHeld l n) := by
  by_cases hc : (h.nodes n).container = some (.executor l)
  · rw [if_pos hc] at hlist
    have hp : h.popHeld l n = (h.setExecutor l fun x =>
        { x with nodeList := ns, historyNodes := n :: x.historyNodes }).setNode n
          ({ · with container := none }) := by
      rw [popHeld, if_pos hc, pop, hlist]
      exact if_pos hc
    rw [hp]
    constructor
    · simp [stack_setExecutor]
    · simp [stack_setExecutor, hc]
    · intro m
      rw [nodes_setNode]
      split <;> rfl
    · exact fun m hm => nodes_setNode_of_ne hm _
    all_goals rfl
  · rw [if_neg hc] at hlist
    rw [popHeld, if_neg hc]
    exact ⟨hlist, (if_neg hc).symm, fun _ => rfl, fun _ _ => rfl, rfl, rfl, rfl, rfl⟩

/-! ### The first node -/

/-- A flow has been started at a node that is in no container. -/
structure Begun (l : ℕ) (n : NodeRef) (h h' : Heap) : Prop where
  list : (h'.stack l).nodeList = [n]
  history : (h'.stack l).historyNodes = (h.stack l).historyNodes
  others : ∀ m, m ≠ n → h'.nodes m = h.nodes m
  root : h'.nodes n = { h.nodes n with status := .idle, container := some (.executor l) }
  charts : h'.charts = h.charts
  chartData : h'.chartData = h.chartData
  calls : h'.calls = h.calls
  ub : h'.ub = h.ub

theorem begun_beginFlow (l : ℕ) (a : AgentId) (hn : (h.nodes n).container = none) :
    Begun l n h (h.beginFlow l a n) := by
  have hfree : (((h.act n ({ · with status := .idle }) (.flow n)).setExecutor l
      ({ · with currentAgent := some a, nodeList := [] })).nodes n).container = none := by
    rw [nodes_setExecutor, nodes_act, nodes_setNode_self]
    exact hn
  unfold beginFlow
  dsimp only
  rw [push_of_free l hfree]
  constructor
  · simp [stack_setExecutor]
  · simp [stack_setExecutor, act]
  · intro m hm
    simp only [nodes_setNode, nodes_setExecutor, nodes_act, if_neg hm]
  · simp
  · rfl
  · rfl
  · exact calls_cons (h := h) rfl rfl rfl
  · rfl

/-! ### The stack of the loop and the trees still to be traversed -/

/-- **The pending nodes of the executor are the roots of the trees.** -/
structure Walk (base : Heap) (l : ℕ) (c : ChartId) (out : ℕ → Outcome) (ts : List (Tree ℕ))
    (done : List ℕ) (h : Heap) : Prop where
  list : (h.stack l).nodeList = ts.map fun t => ⟨c, t.root⟩
  /-- No node of the trees has been visited. -/
  core : ∀ i ∈ Tree.labelsAll ts, (h.nodes ⟨c, i⟩).core = (base.nodes ⟨c, i⟩).core
  container : ∀ i ∈ Tree.labelsAll ts, (h.nodes ⟨c, i⟩).container =
    if i ∈ ts.map Tree.root then some (.executor l) else none
  chart : h.charts c = base.charts c
  data : h.dataOf c = base.dataOf c
  grows : ∀ t ∈ ts, base.Grows c t
  apart : Tree.Apart ts done
  history : ∀ m ∈ (h.stack l).historyNodes, ∃ i ∈ done, m = ⟨c, i⟩
  finished : ∀ i ∈ done, (out i).Finished (h.nodes ⟨c, i⟩) (⟨c, i⟩ ∈ (h.stack l).historyNodes)

variable {out : ℕ → Outcome} {done : List ℕ}

namespace Walk

theorem root_mem (t : Tree ℕ) (ts : List (Tree ℕ)) : t.root ∈ Tree.labelsAll (t :: ts) :=
  List.mem_append_left _ t.root_mem_labels

/-- The chosen children are in no container yet. -/
theorem container_pick (hw : Walk base l c out (t :: ts) done h) {b : Option Bool} {i : ℕ}
    (hi : i ∈ (t.pick b).map Tree.root) : (h.nodes ⟨c, i⟩).container = none := by
  have hr := hw.apart.round b
  obtain ⟨u, hu, rfl⟩ := List.mem_map.mp hi
  have hnext : u.root ∈ Tree.labelsAll (t.pick b ++ ts) :=
    Tree.mem_labelsAll.mpr ⟨u, List.mem_append_left _ hu, u.root_mem_labels⟩
  rw [hw.container _ (Tree.labels_round b t ts hnext), if_neg]
  rw [List.map_cons, List.mem_cons]
  rintro (he | hroot)
  · exact hr.fresh _ hnext (he ▸ List.mem_cons_self)
  · -- The children and the other trees have different roots.
    have hnd := hr.nodup_roots
    rw [List.map_append] at hnd
    exact (List.nodup_append'.mp hnd).2.2 hi hroot

/-- **One round**: the root on top gives way to the chosen children. -/
theorem next {k : Heap} (hw : Walk base l c out (t :: ts) done h)
    (hlist : (k.stack l).nodeList =
      ((t.pick (out t.root).choice).map Tree.root).map (⟨c, ·⟩) ++ ts.map fun t => ⟨c, t.root⟩)
    (hcore : ∀ m, m ≠ ⟨c, t.root⟩ → (k.nodes m).core = (h.nodes m).core)
    (hpushed : ∀ i ∈ (t.pick (out t.root).choice).map Tree.root,
      (k.nodes ⟨c, i⟩).container = some (.executor l))
    (hothers : ∀ m, m ≠ ⟨c, t.root⟩ →
      (∀ i ∈ (t.pick (out t.root).choice).map Tree.root, m ≠ ⟨c, i⟩) → k.nodes m = h.nodes m)
    (hchart : k.charts c = h.charts c) (hdata : k.dataOf c = h.dataOf c)
    (hhistory : ∀ m, m ∈ (k.stack l).historyNodes →
      m = ⟨c, t.root⟩ ∨ m ∈ (h.stack l).historyNodes)
    (hhistory' : ∀ m ∈ (h.stack l).historyNodes, m ∈ (k.stack l).historyNodes)
    (hfin : (out t.root).Finished (k.nodes ⟨c, t.root⟩) (⟨c, t.root⟩ ∈ (k.stack l).historyNodes)) :
    Walk base l c out (t.pick (out t.root).choice ++ ts) (t.root :: done) k := by
  have hr := hw.apart.round (out t.root).choice
  have hold : ∀ i ∈ Tree.labelsAll (t.pick (out t.root).choice ++ ts),
      i ∈ Tree.labelsAll (t :: ts) :=
    fun i hi => Tree.labels_round _ t ts hi
  have hne : ∀ i ∈ Tree.labelsAll (t.pick (out t.root).choice ++ ts),
      (⟨c, i⟩ : NodeRef) ≠ ⟨c, t.root⟩ := by
    intro i hi he
    have hit : i = t.root := congrArg NodeRef.id he
    rw [hit] at hi
    exact hr.fresh _ hi List.mem_cons_self
  constructor
  · rw [hlist, List.map_append, List.map_map]
    rfl
  · exact fun i hi => (hcore _ (hne i hi)).trans (hw.core i (hold i hi))
  · intro i hi
    by_cases hpick : i ∈ (t.pick (out t.root).choice).map Tree.root
    · rw [hpushed i hpick, if_pos]
      rw [List.map_append]
      exact List.mem_append_left _ hpick
    · rw [hothers _ (hne i hi), hw.container i (hold i hi)]
      · have hit : i ≠ t.root := fun he => hne i hi (congrArg _ he)
        refine if_congr ?_ rfl rfl
        rw [List.map_append, List.mem_append, List.map_cons, List.mem_cons]
        simp only [hit, hpick, false_or]
      · rintro j hj he
        obtain rfl : i = j := congrArg NodeRef.id he
        exact hpick hj
  · exact hchart.trans hw.chart
  · exact hdata.trans hw.data
  · intro u hu
    rcases List.mem_append.mp hu with hu | hu
    · exact (hw.grows t List.mem_cons_self).pick hu
    · exact hw.grows u (List.mem_cons_of_mem t hu)
  · exact hr
  · intro m hm
    rcases hhistory m hm with rfl | hm
    · exact ⟨t.root, List.mem_cons_self, rfl⟩
    · obtain ⟨i, hi, rfl⟩ := hw.history m hm
      exact ⟨i, List.mem_cons_of_mem _ hi, rfl⟩
  · intro i hi
    rcases List.mem_cons.mp hi with rfl | hi
    · exact hfin
    · have hni : i ∉ Tree.labelsAll (t :: ts) :=
        fun hmem => hw.apart.fresh i hmem hi
      have hsame : k.nodes ⟨c, i⟩ = h.nodes ⟨c, i⟩ := by
        refine hothers _ ?_ ?_
        · intro he
          obtain rfl : i = t.root := congrArg NodeRef.id he
          exact hni (root_mem t ts)
        · rintro j hj he
          obtain rfl : i = j := congrArg NodeRef.id he
          obtain ⟨u, hu, rfl⟩ := List.mem_map.mp hj
          refine hni (hold _ (Tree.mem_labelsAll.mpr ⟨u, ?_, u.root_mem_labels⟩))
          exact List.mem_append_left _ hu
      have hf := hw.finished i hi
      rw [hsame]
      cases ho : out i with
      | complete b =>
        rw [ho] at hf
        exact ⟨hf.1, hhistory' _ hf.2⟩
      | stop =>
        rw [ho] at hf
        exact hf
      | suspend =>
        rw [ho] at hf
        exact hf

end Walk

/-- The node on top has run and is no longer pending. -/
structure Rooted (l : ℕ) (c : ChartId) (i : ℕ) (ns : List NodeRef) (h h' : Heap) : Prop where
  list : (h'.stack l).nodeList = ns
  others : ∀ m, m ≠ ⟨c, i⟩ → h'.nodes m = h.nodes m
  chart : h'.charts c = h.charts c
  data : h'.dataOf c = h.dataOf c
  recent : ∀ m, m ∈ (h'.stack l).historyNodes → m = ⟨c, i⟩ ∨ m ∈ (h.stack l).historyNodes
  old : ∀ m ∈ (h.stack l).historyNodes, m ∈ (h'.stack l).historyNodes

theorem rooted_of_popped {k : Heap} {i : ℕ} {ns : List NodeRef} (hp : Popped l ⟨c, i⟩ ns k g)
    (hothers : ∀ m, m ≠ ⟨c, i⟩ → k.nodes m = h.nodes m) (hchart : k.charts c = h.charts c)
    (hdata : k.dataOf c = h.dataOf c)
    (hhistory : (k.stack l).historyNodes = (h.stack l).historyNodes) : Rooted l c i ns h g where
  list := hp.list
  others m hm := (hp.others m hm).trans (hothers m hm)
  chart := by
    rw [hp.charts]
    exact hchart
  data := by
    rw [dataOf, hp.charts, hp.chartData]
    exact hdata
  recent m hm := by
    rw [hp.history, hhistory] at hm
    split at hm
    · exact List.mem_cons.mp hm
    · exact .inr hm
  old m hm := by
    rw [hp.history, hhistory]
    split
    · exact List.mem_cons_of_mem _ hm
    · exact hm

theorem Rooted.setNode {i : ℕ} {ns : List NodeRef} (hg : Rooted l c i ns h g) (f : Node → Node) :
    Rooted l c i ns h (g.setNode ⟨c, i⟩ f) :=
  { hg with others := fun m hm => (nodes_setNode_of_ne hm f).trans (hg.others m hm) }

theorem Rooted.act {i : ℕ} {ns : List NodeRef} (hg : Rooted l c i ns h g) (f : Node → Node)
    (o : Obs) : Rooted l c i ns h (g.act ⟨c, i⟩ f o) :=
  { hg with others := fun m hm => (nodes_setNode_of_ne hm f).trans (hg.others m hm) }

namespace Walk

/-- A round in which nothing is pushed. -/
theorem leave {k : Heap} (hw : Walk base l c out (t :: ts) done h)
    (hk : Rooted l c t.root (ts.map fun t => ⟨c, t.root⟩) h k) (hp : (out t.root).choice = none)
    (hfin : (out t.root).Finished (k.nodes ⟨c, t.root⟩) (⟨c, t.root⟩ ∈ (k.stack l).historyNodes)) :
    Walk base l c out (t.pick (out t.root).choice ++ ts) (t.root :: done) k := by
  refine hw.next ?_ ?_ ?_ ?_ hk.chart hk.data hk.recent hk.old hfin
  · rw [hp]
    exact hk.list
  · intro m hm
    rw [hk.others m hm]
  · intro i hi
    rw [hp] at hi
    cases hi
  · exact fun m hm _ => hk.others m hm

/-- The root is not among the chosen children, which are pushed one by one. -/
theorem root_not_mem_pick (hw : Walk base l c out (t :: ts) done h) (b : Bool) :
    ∀ i ∈ (t.pick (some b)).map Tree.root, (⟨c, i⟩ : NodeRef) ≠ ⟨c, t.root⟩ := by
  intro i hi he
  obtain ⟨u, hu, rfl⟩ := List.mem_map.mp hi
  have hit : u.root = t.root := congrArg NodeRef.id he
  refine (hw.apart.round (some b)).fresh u.root ?_ (hit ▸ List.mem_cons_self)
  exact Tree.mem_labelsAll.mpr ⟨u, List.mem_append_left _ hu, u.root_mem_labels⟩

theorem nodup_pick (hw : Walk base l c out (t :: ts) done h) (b : Bool) :
    ((t.pick (some b)).map Tree.root).Nodup := by
  have hnd := (hw.apart.round (some b)).nodup_roots
  rw [List.map_append] at hnd
  exact hnd.of_append_left

/-- A round in which the chosen children are pushed. -/
theorem expand {k : Heap} {b : Bool} (hw : Walk base l c out (t :: ts) done h)
    (hg : Rooted l c t.root (ts.map fun t => ⟨c, t.root⟩) h g)
    (hp : Pushed l c ((t.pick (some b)).map Tree.root) g k) (ho : out t.root = .complete b)
    (hend : (g.nodes ⟨c, t.root⟩).status = .endRun)
    (hhis : (⟨c, t.root⟩ : NodeRef) ∈ (g.stack l).historyNodes) :
    Walk base l c out (t.pick (out t.root).choice ++ ts) (t.root :: done) k := by
  have hne := hw.root_not_mem_pick b
  refine hw.next ?_ ?_ ?_ ?_ ?_ ?_ ?_ ?_ ?_
  · rw [ho, hp.list]
    exact congrArg _ hg.list
  · intro m hm
    rw [hp.core, hg.others m hm]
  · rw [ho]
    exact hp.container
  · intro m hm hmi
    rw [ho] at hmi
    rw [hp.others m hmi, hg.others m hm]
  · rw [hp.charts]
    exact hg.chart
  · rw [dataOf, hp.charts, hp.chartData]
    exact hg.data
  · rw [hp.history]
    exact hg.recent
  · rw [hp.history]
    exact hg.old
  · rw [ho, hp.others _ fun i hi he => hne i hi he.symm, hp.history]
    exact ⟨hend, hhis⟩

/-- **The rest of a round of the loop**, after the function of the root. -/
theorem finish {k : Heap} (hw : Walk base l c out (t :: ts) done h)
    (hothers : ∀ m, m ≠ ⟨c, t.root⟩ → k.nodes m = h.nodes m)
    (hchart : k.charts c = h.charts c) (hdata : k.dataOf c = h.dataOf c)
    (hlist : (k.stack l).nodeList =
      if (k.nodes ⟨c, t.root⟩).container = some (.executor l) then
        (⟨c, t.root⟩ : NodeRef) :: ts.map fun t => ⟨c, t.root⟩ else ts.map fun t => ⟨c, t.root⟩)
    (hhistory : (k.stack l).historyNodes = (h.stack l).historyNodes)
    (hout : (out t.root).Leaves l (k.nodes ⟨c, t.root⟩)) :
    Walk base l c out (t.pick (out t.root).choice ++ ts) (t.root :: done)
        (k.finishNode l ⟨c, t.root⟩) ∧
      (k.finishNode l ⟨c, t.root⟩).charts = k.charts ∧
      (k.finishNode l ⟨c, t.root⟩).calls = k.calls ∧
      (k.finishNode l ⟨c, t.root⟩).ub = k.ub := by
  have hp := popped_popHeld hlist
  have hstatus : ((k.popHeld l ⟨c, t.root⟩).nodes ⟨c, t.root⟩).status =
      (k.nodes ⟨c, t.root⟩).status := (congrArg Node.status (hp.core ⟨c, t.root⟩) :)
  have hresult : ((k.popHeld l ⟨c, t.root⟩).nodes ⟨c, t.root⟩).result =
      (k.nodes ⟨c, t.root⟩).result := (congrArg Node.result (hp.core ⟨c, t.root⟩) :)
  have hpopped : (k.nodes ⟨c, t.root⟩).container = some (.executor l) →
      (⟨c, t.root⟩ : NodeRef) ∈ ((k.popHeld l ⟨c, t.root⟩).stack l).historyNodes := by
    intro hc
    rw [hp.history, if_pos hc]
    exact List.mem_cons_self
  have hg := rooted_of_popped hp hothers hchart hdata hhistory
  obtain ⟨-, -, -, -, hcharts, -, hcalls, hub⟩ := hp
  unfold finishNode
  dsimp only
  rw [hstatus]
  generalize k.popHeld l ⟨c, t.root⟩ = g at *
  cases ho : out t.root with
  | suspend =>
    rw [ho] at hout
    have hrun : (k.nodes ⟨c, t.root⟩).status = .running := hout
    rw [if_pos hrun]
    refine ⟨?_, hcharts, hcalls, hub⟩
    rw [← ho]
    refine hw.leave (hg.setNode _) (by rw [ho]; rfl) ?_
    rw [ho, nodes_setNode_self]
    exact hstatus.trans hout
  | stop =>
    rw [ho] at hout
    rw [if_neg hout.1, addSubsequenceNodes, hresult, if_pos hout.2]
    refine ⟨?_, hcharts, (calls_cons (h := g) rfl rfl rfl).trans hcalls, hub⟩
    rw [← ho]
    refine hw.leave (hg.act _ _) (by rw [ho]; rfl) ?_
    rw [ho, nodes_act, nodes_setNode_self]
    exact nofun
  | complete b =>
    rw [ho] at hout
    have hstop : NodeResult.ofBool b ≠ .rStop := by cases b <;> exact nofun
    have hb : decide (NodeResult.ofBool b = .rTrue) = b := by cases b <;> rfl
    have hgrows := hw.grows t List.mem_cons_self
    have hids : ∀ (f : Node → Node) o, ((g.act ⟨c, t.root⟩ f o).nodeData
        ⟨c, t.root⟩).subsequenceIds b = (t.pick (some b)).map Tree.root := by
      intro f o
      have hd : (g.act ⟨c, t.root⟩ f o).dataOf c = base.dataOf c := hg.data.trans hw.data
      rw [← hgrows.subsequenceIds b, nodeData, hd, nodeData]
    rw [if_neg hout.1, addSubsequenceNodes, hresult, hout.2.1, if_neg hstop, hb, hids]
    -- The root has got its result; now its children are pushed.
    generalize ha : g.act (⟨c, t.root⟩ : NodeRef) _ (.succ ⟨c, t.root⟩ _) = a
    have hra : Rooted l c t.root (ts.map fun t => ⟨c, t.root⟩) h a := ha ▸ hg.act _ _
    have hend : (a.nodes ⟨c, t.root⟩).status = .endRun := by
      rw [← ha, nodes_act, nodes_setNode_self]
    have hfree : ∀ i ∈ (t.pick (some b)).map Tree.root,
        i < a.nodesCount c ∧ (a.nodes ⟨c, i⟩).container = none := by
      intro i hi
      constructor
      · obtain ⟨u, hu, rfl⟩ := List.mem_map.mp hi
        rw [nodesCount, hra.chart, hw.chart]
        exact (hgrows.pick hu).root_lt
      · rw [hra.others _ (hw.root_not_mem_pick b i hi)]
        exact hw.container_pick hi
    have hpush := pushed_children (h := a) l ⟨c, t.root⟩ (hw.nodup_pick b) hfree
    dsimp only at hpush
    generalize List.foldl _ a _ = p at hpush ⊢
    have hhis : (⟨c, t.root⟩ : NodeRef) ∈ (a.stack l).historyNodes := by
      rw [← ha]
      exact hpopped hout.2.2
    refine ⟨?_, ?_, ?_, ?_⟩
    · rw [← ho]
      exact hw.expand hra hpush ho hend hhis
    · rw [hpush.charts, ← ha]
      exact hcharts
    · rw [hpush.calls, ← ha]
      exact (calls_cons (h := g) rfl rfl rfl).trans hcalls
    · rw [hpush.ub, ← ha]
      exact hub

end Walk

/-- The function of the node is called in a flow on the executor. -/
structure Called (l : ℕ) (n : NodeRef) (h : Heap) : Prop where
  container : (h.nodes n).container = some (.executor l)
  status : (h.nodes n).status ≠ .running
  result : (h.nodes n).result = .rFalse

/-- **The function of the node has run**: it has left its node as the outcome says, and it
has touched no other node. -/
structure Behaves (o : Outcome) (l : ℕ) (n : NodeRef) (h h' : Heap) : Prop where
  others : ∀ m, m ≠ n → h'.nodes m = h.nodes m
  chart : h'.charts n.chart = h.charts n.chart
  data : h'.dataOf n.chart = h.dataOf n.chart
  /-- Unless the node has left it, the executor is as it was. -/
  list : (h'.stack l).nodeList = if (h'.nodes n).container = some (.executor l) then
    (h.stack l).nodeList else (h.stack l).nodeList.filter (· ≠ n)
  history : (h'.stack l).historyNodes = (h.stack l).historyNodes
  /-- It has not run other node functions. -/
  calls : h'.calls = h.calls
  ub : h'.ub = h.ub
  outcome : o.Leaves l (h'.nodes n)

/-- A function that does nothing. -/
theorem behaves_refl {o : Outcome} (hc : (h.nodes n).container = some (.executor l))
    (ho : o.Leaves l (h.nodes n)) : Behaves o l n h h :=
  ⟨fun _ _ => rfl, rfl, rfl, (if_pos hc).symm, rfl, rfl, rfl, ho⟩

/-! ### Clearing the history list -/

theorem calls_detach (h : Heap) (n : NodeRef) : (h.detach n).calls = h.calls := by
  rcases log_detach h n with hl | hl
  · rw [calls, hl, calls]
  · exact calls_cons hl rfl rfl

theorem calls_stop (h : Heap) (n : NodeRef) : (h.stop n).calls = h.calls := by
  refine stopNode_invariant (P := fun g => g.calls = h.calls) (R := fun _ => True)
    (S := fun _ => True) ?_ ?_ ?_ ?_ _ h n rfl trivial
  · exact fun g m hg _ => (calls_cons (h := g) rfl rfl rfl).trans hg
  · exact fun g m hg _ => (calls_detach g m).trans hg
  · exact fun g c hg _ => (calls_cons (h := g) rfl rfl rfl).trans hg
  · exact fun _ _ _ _ _ _ => ⟨trivial, fun _ _ => trivial⟩

/-! ### The charts a control function leaves -/

/-- Stopping destroys no chart. -/
theorem charts_stop_isSome (h : Heap) (n : NodeRef) {d : ChartId} (hd : (h.charts d).isSome) :
    ((h.stop n).charts d).isSome := by
  refine stopNode_invariant (P := fun g => (g.charts d).isSome) (R := fun _ => True)
    (S := fun _ => True) ?_ ?_ ?_ ?_ _ h n hd trivial
  · exact fun _ _ hg _ => hg
  · intro g m hg _
    rwa [charts_detach]
  · intro g e hg _
    change (Function.update g.charts e _ d).isSome
    rcases eq_or_ne d e with rfl | hne
    · rwa [Function.update_self, Option.isSome_map]
    · rwa [Function.update_of_ne hne]
  · exact fun _ _ _ _ _ _ => ⟨trivial, fun _ _ => trivial⟩

theorem charts_stopNodeId_isSome (h : Heap) (c : ChartId) (id : ℤ) {d : ChartId}
    (hd : (h.charts d).isSome) : ((h.stopNodeId c id).charts d).isSome := by
  unfold stopNodeId
  split
  · exact hd
  · split
    · exact hd
    · dsimp only
      rw [charts_remove]
      exact charts_stop_isSome h _ hd

/-- A control function destroys no chart. -/
theorem charts_callControl_isSome (h : Heap) (f : NodeFunc) {d : ChartId}
    (hd : (h.charts d).isSome) : ((h.callControl f).2.charts d).isSome := by
  have hfold : ∀ (c : ChartId) (ids : List ℤ) (g : Heap), (g.charts d).isSome →
      ((ids.foldl (fun h id => h.stopNodeId c id) g).charts d).isSome := by
    intro c ids
    induction ids with
    | nil => exact fun _ hg => hg
    | cons i ids ih => exact fun g hg => ih _ (charts_stopNodeId_isSome g c i hg)
  cases f with
  | waitAll args =>
    simp only [callControl, waitAll]
    split
    · exact hd
    · split <;> exact hd
  | stopNode args =>
    simp only [callControl, stopNodes]
    split
    · exact hd
    · exact hfold _ args h hd
  | stopFlow args =>
    simp only [callControl, stopFlow]
    split
    · exact hd
    · split
      · exact hd
      · rw [← List.foldl_map (f := fun i : ℕ => (i : ℤ))
          (g := fun (h : Heap) id => h.stopNodeId _ id)]
        exact hfold _ _ h hd
  | null | script => exact hd

/-! ### The end of the loop -/

/-- The nodes of a list have been restored. -/
structure Restored (c : ChartId) (ms : List NodeRef) (h h' : Heap) : Prop where
  others : ∀ m, m.chart = c → m ∉ ms → h'.nodes m = h.nodes m
  status : ∀ m ∈ ms, (h'.nodes m).status =
    if (h.nodes m).status = .endRun then .idle else (h.nodes m).status
  runFlag : ∀ m ∈ ms, (h'.nodes m).runFlag = false
  list : ∀ l, (h.stack l).nodeList = [] → (h'.stack l).nodeList = []
  chart : h'.charts c = h.charts c
  alive : ∀ d, (h.charts d).isSome → (h'.charts d).isSome
  calls : h'.calls = h.calls
  ub : h'.ub = h.ub

theorem ranked_clearFlag (hr : h.Ranked) (n : NodeRef) :
    (h.setNode n ({ · with runFlag := false })).Ranked := by
  intro m c hm
  rw [field_setNode h n m Node.attacher (by intro; rfl)] at hm
  exact hr m c hm

theorem stoppable_restoreNode (hr : h.Ranked) (ht : h.Tied) (n : NodeRef) :
    (h.restoreNode n).Ranked ∧ (h.restoreNode n).Tied := by
  have hr' := ranked_clearFlag hr n
  have ht' : (h.setNode n ({ · with runFlag := false })).Tied :=
    tied_setNode n (fun _ => ⟨rfl, rfl⟩) ht
  unfold restoreNode
  dsimp only
  split
  · have hd : Does (fun _ => True) (fun _ => True) (fun _ => False)
        (h.setNode n ({ · with runFlag := false })) _ := does_stop _ n
    exact ⟨Traced.Does.invariant (I := Ranked) hd (fun hm hi => ranked_of_move hm hi) hr',
      Traced.Does.invariant (I := Tied) hd (fun hm hi => tied_of_move hm hi) ht'⟩
  · exact ⟨hr', ht'⟩

theorem restored_restoreNode (hr : h.Ranked) (ht : h.Tied) (n : NodeRef) :
    Restored n.chart [n] h (h.restoreNode n) := by
  have hr' : (h.setNode n ({ · with runFlag := false })).Ranked := ranked_clearFlag hr n
  have ht' : (h.setNode n ({ · with runFlag := false })).Tied :=
    tied_setNode n (fun _ => ⟨rfl, rfl⟩) ht
  have hself : (h.setNode n ({ · with runFlag := false })).nodes n =
      { h.nodes n with runFlag := false } := nodes_setNode_self h n _
  have hne : ∀ m, m ≠ n → (h.setNode n ({ · with runFlag := false })).nodes m = h.nodes m :=
    fun m hm => nodes_setNode_of_ne hm _
  unfold restoreNode
  dsimp only
  rw [hself]
  split
  · rename_i he
    constructor
    · intro m hm hmn
      rw [List.mem_singleton] at hmn
      rw [nodes_stop_of_le hr' hmn (Nat.le_of_eq hm), hne m hmn]
    · intro m hm
      obtain rfl := List.mem_singleton.mp hm
      rw [if_pos he]
      exact field_stop (g := Node.status) (fun _ _ _ => rfl) hr' m
    · intro m hm
      obtain rfl := List.mem_singleton.mp hm
      exact field_stop (g := Node.runFlag) (fun _ _ _ => rfl) hr' m
    · exact fun l hl => nodeList_stop hr' n hl
    · exact charts_stop_of_le hr' (Nat.le_refl _)
    · exact fun d hd => charts_stop_isSome _ n hd
    · exact calls_stop _ n
    · exact ub_stop hr' ht' n
  · rename_i he
    constructor
    · exact fun m _ hmn => hne m fun hm => hmn (List.mem_singleton.mpr hm)
    · intro m hm
      obtain rfl := List.mem_singleton.mp hm
      rw [if_neg he, hself]
    · intro m hm
      obtain rfl := List.mem_singleton.mp hm
      rw [hself]
    all_goals intros; first | rfl | assumption

theorem restored_foldl {ms : List NodeRef} (hms : ∀ m ∈ ms, m.chart = c) (hr : h.Ranked)
    (ht : h.Tied) : Restored c ms h (ms.foldl restoreNode h) := by
  induction ms generalizing h with
  | nil => exact ⟨fun _ _ _ => rfl, nofun, nofun, fun _ => id, rfl, fun _ => id, rfl, rfl⟩
  | cons n ms ih =>
    obtain ⟨hr', ht'⟩ := stoppable_restoreNode hr ht n
    have h1 := restored_restoreNode hr ht n
    have h2 := ih (fun m hm => hms m (List.mem_cons_of_mem n hm)) hr' ht'
    have hnc : n.chart = c := hms n List.mem_cons_self
    subst hnc
    rw [List.foldl_cons]
    constructor
    · intro m hmc hm
      rw [List.mem_cons, not_or] at hm
      rw [h2.others m hmc hm.2, h1.others m hmc (by simpa using hm.1)]
    · intro m hm
      have hmc := hms m hm
      by_cases hmn : m = n
      · subst hmn
        have hs := h1.status m (by simp)
        by_cases hm' : m ∈ ms
        · rw [h2.status m hm', hs]
          by_cases he : (h.nodes m).status = .endRun
          · rw [if_pos he, if_neg nofun]
          · rw [if_neg he, if_neg he]
        · rw [h2.others m rfl hm', hs]
      · have hm' : m ∈ ms := by simpa [hmn] using hm
        rw [h2.status m hm', h1.others m hmc (by simpa using hmn)]
    · intro m hm
      by_cases hm' : m ∈ ms
      · exact h2.runFlag m hm'
      · obtain rfl : m = n := by simpa [hm'] using hm
        rw [h2.others m rfl hm', h1.runFlag m (by simp)]
    · exact fun l hl => h2.list l (h1.list l hl)
    · exact h2.chart.trans h1.chart
    · exact fun d hd => h2.alive d (h1.alive d hd)
    · exact h2.calls.trans h1.calls
    · exact h2.ub.trans h1.ub

/-- **After the loop**, when no node is pending: the nodes that are done are idle with a
clear run flag, and the suspended nodes are running. -/
theorem Walk.restored (hw : Walk base l c out [] done h) (hr : h.Ranked) (ht : h.Tied) :
    ((h.restoreHistory l).stack l).nodeList = [] ∧
    (∀ i ∈ done, ∀ b, out i = .complete b →
      ((h.restoreHistory l).nodes ⟨c, i⟩).status = .idle ∧
        ((h.restoreHistory l).nodes ⟨c, i⟩).runFlag = false) ∧
    (∀ i ∈ done, out i = .suspend → ((h.restoreHistory l).nodes ⟨c, i⟩).status = .running) ∧
    (h.restoreHistory l).charts c = h.charts c ∧
    (∀ d, (h.charts d).isSome → ((h.restoreHistory l).charts d).isSome) ∧
    (h.restoreHistory l).calls = h.calls ∧ (h.restoreHistory l).ub = h.ub := by
  have hms : ∀ m ∈ (h.stack l).historyNodes.reverse, m.chart = c := by
    intro m hm
    obtain ⟨i, -, rfl⟩ := hw.history m (List.mem_reverse.mp hm)
    rfl
  have hf := restored_foldl hms hr ht
  unfold restoreHistory
  generalize (h.stack l).historyNodes.reverse.foldl restoreNode h = k at hf ⊢
  refine ⟨?_, ?_, ?_, hf.chart, hf.alive, hf.calls, hf.ub⟩
  · rw [stack_setExecutor, if_pos rfl]
    exact hf.list l hw.list
  · intro i hi b ho
    have hfin := hw.finished i hi
    rw [ho] at hfin
    have hm := List.mem_reverse.mpr hfin.2
    refine ⟨?_, hf.runFlag _ hm⟩
    rw [nodes_setExecutor, hf.status _ hm, if_pos hfin.1]
  · intro i hi ho
    have hfin : (out i).Finished _ _ := hw.finished i hi
    rw [ho] at hfin
    rw [nodes_setExecutor]
    by_cases hm : (⟨c, i⟩ : NodeRef) ∈ (h.stack l).historyNodes.reverse
    · rw [hf.status _ hm, hfin]
      rfl
    · rw [hf.others _ rfl hm]
      exact hfin

end Heap

end Asyncflow
