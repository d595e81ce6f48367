import Asyncflow.Moves.Halting
import Asyncflow.Runtime.Ownership
import Asyncflow.Runtime.Rings

/-!
# Destroying an agent

`Agent::~Agent` walks along the rings of its waiting lists, and then empties the lists of
`chart_dict_` one after the other: while a list is not empty, it deletes the chart at the back,
through the attacher of its owner node if it has one. Each of these deletions runs down the tree
of subcharts, and takes charts out of the list it comes from, out of other lists and of other
agents.

`Asyncflow.Heap.Ends` says, without a bound on the depth, what the destructors and the stops
they begin with lead to, and `Asyncflow.Heap.DestroysCharts` does so for the whole. That the loops
lead anywhere is what the ranks of the ownership give; where they lead follows from
`Asyncflow.Ownership.Swept`. The rings are in order as long as no call tears one
(`Asyncflow.State.Tears`); a link that is left in a ring stays there when its node is destroyed,
and the destructor of the agent walks into freed memory.
-/

namespace Asyncflow

namespace Heap

/-! ### The calls -/

/-- A call of a destructor, or of what it begins with. -/
inductive Task
  /-- `Node::Stop`. -/
  | stop (n : NodeRef)
  /-- The loop of `Chart::Stop`. -/
  | stops (ns : List NodeRef)
  /-- `Node::SetAttacher(nullptr)`. -/
  | clear (n : NodeRef)
  /-- The loop of `Chart::~Chart`, with `Node::~Node`. -/
  | nodes (ns : List NodeRef)
  /-- `Chart::~Chart`. -/
  | chart (c : ChartId)

/-- **The call ends**, and what it leads to. One relation for all calls, since they call each
other. -/
inductive Ends : Task → Heap → Heap → Prop
  | stop {h : Heap} {n : NodeRef} : (h.nodes n).chart? = none →
      Ends (.stop n) h ((h.act n Node.stop (.stop n (h.nodes n).status)).detach n)
  /-- `Subchart::Stop` stops the chart. -/
  | stopSubchart {h g : Heap} {n : NodeRef} {c : ChartId} : (h.nodes n).chart? = some c →
      Ends (.stops (h.nodeList c)) (h.act n Node.stop (.stop n (h.nodes n).status)) g →
      Ends (.stop n) h
        (((g.setChart c ({ · with status := .idle })).note (.chartStop c)).detach n)
  | stopsNil {h : Heap} : Ends (.stops []) h h
  | stopsCons {h g k : Heap} {n : NodeRef} {ns : List NodeRef} : Ends (.stop n) h g →
      Ends (.stops ns) g k → Ends (.stops (n :: ns)) h k
  | clear {h : Heap} {n : NodeRef} : (h.nodes n).chart? = none →
      Ends (.clear n) h (h.act n ({ · with attacher := none }) (.noAttacher n))
  /-- `Subchart::~Subchart` deletes the chart. -/
  | clearSubchart {h g : Heap} {n : NodeRef} {c : ChartId} : (h.nodes n).chart? = some c →
      Ends (.chart c) h g →
      Ends (.clear n) h (g.act n ({ · with attacher := none }) (.noAttacher n))
  | nodesNil {h : Heap} : Ends (.nodes []) h h
  | nodesCons {h g k l : Heap} {n : NodeRef} {ns : List NodeRef} : Ends (.stop n) h g →
      Ends (.clear n) g k → Ends (.nodes ns) k l → Ends (.nodes (n :: ns)) h l
  | chart {h g : Heap} {c : ChartId} : Ends (.nodes (h.nodeList c)) h g →
      Ends (.chart c) h (g.dropChart c)

/-- `chart_dict_` of the agent at the name. -/
def chartDict (h : Heap) (a : AgentId) (name : String) : List ChartId :=
  (((h.agents a).map (·.charts)).getD []).filter fun c => h.nameOf c = some name

/-- The loop of `Agent::~Agent` over one list. -/
inductive Empties (a : AgentId) (name : String) : Heap → Heap → Prop
  | done {h : Heap} : h.chartDict a name = [] → Empties a name h h
  /-- The attacher of the owner node is deleted. -/
  | owned {h g k : Heap} {c : ChartId} {o : NodeRef} : (h.chartDict a name).getLast? = some c →
      h.ownerOf c = some o → Ends (.clear o) h g → Empties a name g k → Empties a name h k
  /-- The chart itself is deleted. -/
  | free {h g k : Heap} {c : ChartId} : (h.chartDict a name).getLast? = some c →
      h.ownerOf c = none → Ends (.chart c) h g → Empties a name g k → Empties a name h k

/-- The loop over the lists, in the order of the names. -/
inductive EmptiesAll (a : AgentId) : List String → Heap → Heap → Prop
  | nil {h : Heap} : EmptiesAll a [] h h
  | cons {h g k : Heap} {name : String} {names : List String} : Empties a name h g →
      EmptiesAll a names g k → EmptiesAll a (name :: names) h k

/-- **`Agent::~Agent`**, when it has waiting lists for the events, and its dictionary lists the
names in this order. -/
structure DestroysCharts (es : List EventId) (a : AgentId) (names : List String) (h g : Heap) :
    Prop where
  /-- The rings of the waiting lists hold no node that has been destroyed. -/
  rings : (h.dropWaiting es a).ub = false
  /-- The loops end. -/
  charts : EmptiesAll a names (h.dropWaiting es a) g
  /-- No node is unlinked from a ring in which it is not. -/
  sound : g.ub = false

/-- A chart of the dictionary, or one that hangs on a node of such a chart, however far
down. -/
inductive Doomed (h : Heap) (a : AgentId) : ChartId → Prop
  | listed {c : ChartId} {name : String} : c ∈ h.chartDict a name → Doomed h a c
  | subchart {n : NodeRef} {c : ChartId} : Doomed h a n.chart → n ∈ h.nodeList n.chart →
      (h.nodes n).attacher = some (.subchart c) → Doomed h a c

/-- How often `Chart::~Chart` has been called for the chart. -/
def destructions (h : Heap) (c : ChartId) : ℕ := (h.log.filterMap Obs.destroyed?).count c

variable {h g k : Heap} {n : NodeRef} {c : ChartId} {a : AgentId} {name : String}
  {names : List String} {t : Task} {A : Set ChartId}

/-! ### A call ends in one way -/

theorem Ends.unique (hg : Ends t h g) (hk : Ends t h k) : g = k := by
  induction hg generalizing k with
  | stop hn =>
    cases hk with
    | stop => rfl
    | stopSubchart hn' =>
      rw [hn] at hn'
      cases hn'
  | stopSubchart hn _ ih =>
    cases hk with
    | stop hn' =>
      rw [hn] at hn'
      cases hn'
    | stopSubchart hn' hs =>
      obtain rfl := Option.some.inj (hn.symm.trans hn')
      rw [ih hs]
  | stopsNil =>
    cases hk with
    | stopsNil => rfl
  | stopsCons _ _ ih1 ih2 =>
    cases hk with
    | stopsCons h1 h2 =>
      obtain rfl := ih1 h1
      exact ih2 h2
  | clear hn =>
    cases hk with
    | clear => rfl
    | clearSubchart hn' =>
      rw [hn] at hn'
      cases hn'
  | clearSubchart hn _ ih =>
    cases hk with
    | clear hn' =>
      rw [hn] at hn'
      cases hn'
    | clearSubchart hn' hc =>
      obtain rfl := Option.some.inj (hn.symm.trans hn')
      rw [ih hc]
  | nodesNil =>
    cases hk with
    | nodesNil => rfl
  | nodesCons _ _ _ ih1 ih2 ih3 =>
    cases hk with
    | nodesCons h1 h2 h3 =>
      obtain rfl := ih1 h1
      obtain rfl := ih2 h2
      exact ih3 h3
  | chart _ ih =>
    cases hk with
    | chart hn => rw [ih hn]

theorem Empties.unique (hg : Empties a name h g) (hk : Empties a name h k) : g = k := by
  induction hg generalizing k with
  | done hnil =>
    cases hk with
    | done => rfl
    | owned hlast | free hlast =>
      rw [hnil] at hlast
      cases hlast
  | owned hlast ho he _ ih =>
    cases hk with
    | done hnil =>
      rw [hnil] at hlast
      cases hlast
    | owned hlast' ho' he' hrest =>
      obtain rfl := Option.some.inj (hlast.symm.trans hlast')
      obtain rfl := Option.some.inj (ho.symm.trans ho')
      obtain rfl := he.unique he'
      exact ih hrest
    | free hlast' ho' =>
      obtain rfl := Option.some.inj (hlast.symm.trans hlast')
      rw [ho] at ho'
      cases ho'
  | free hlast ho he _ ih =>
    cases hk with
    | done hnil =>
      rw [hnil] at hlast
      cases hlast
    | owned hlast' ho' =>
      obtain rfl := Option.some.inj (hlast.symm.trans hlast')
      rw [ho] at ho'
      cases ho'
    | free hlast' _ he' hrest =>
      obtain rfl := Option.some.inj (hlast.symm.trans hlast')
      obtain rfl := he.unique he'
      exact ih hrest

theorem EmptiesAll.unique (hg : EmptiesAll a names h g) (hk : EmptiesAll a names h k) : g = k := by
  induction hg generalizing k with
  | nil =>
    cases hk with
    | nil => rfl
  | cons he _ ih =>
    cases hk with
    | cons he' hrest =>
      obtain rfl := he.unique he'
      exact ih hrest

/-! ### Nothing is unlinked twice -/

theorem tied_dropChart (c : ChartId) (ht : h.Tied) :
    (h.dropChart c).Tied ∧ (h.dropChart c).ub = h.ub := by
  have hf : (h.forgetChart c).Tied ∧ (h.forgetChart c).ub = h.ub := by
    unfold forgetChart setOwner
    split
    · have hs := tied_setNode (h := h) ‹NodeRef› (f := ({ · with attacher := none }))
        (fun _ => ⟨rfl, rfl⟩) ht
      exact ⟨tied_of_nodes rfl hs, rfl⟩
    · exact ⟨tied_of_nodes rfl ht, rfl⟩
  rw [dropChart_eq]
  split
  · exact ⟨tied_of_nodes rfl hf.1, hf.2⟩
  · exact hf

/-- **The calls unlink only what is linked.** -/
theorem Ends.sound (he : Ends t h g) (ht : h.Tied) : g.Tied ∧ g.ub = h.ub := by
  have hstop : ∀ (h : Heap) (n : NodeRef), h.Tied →
      (h.act n Node.stop (.stop n (h.nodes n).status)).Tied :=
    fun h n => tied_act n fun _ => ⟨rfl, rfl⟩
  have hclear : ∀ (h : Heap) (n : NodeRef), h.Tied →
      (h.act n ({ · with attacher := none }) (.noAttacher n)).Tied :=
    fun h n => tied_act n fun _ => ⟨rfl, rfl⟩
  induction he with
  | @stop h n _ =>
    have ha := hstop h n ht
    exact ⟨tied_detach _ ha, ub_detach_of_linked (ha _)⟩
  | @stopSubchart h g n c _ _ ih =>
    obtain ⟨hg, hu⟩ := ih (hstop h n ht)
    have hi : ((g.setChart c ({ · with status := .idle })).note (.chartStop c)).Tied :=
      tied_of_nodes (h := g) rfl hg
    exact ⟨tied_detach _ hi, (ub_detach_of_linked (hi _)).trans hu⟩
  | stopsNil | nodesNil => exact ⟨ht, rfl⟩
  | stopsCons _ _ ih1 ih2 =>
    obtain ⟨hg, hu⟩ := ih1 ht
    obtain ⟨hk, hu'⟩ := ih2 hg
    exact ⟨hk, hu'.trans hu⟩
  | clear _ => exact ⟨hclear _ _ ht, rfl⟩
  | clearSubchart _ _ ih =>
    obtain ⟨hg, hu⟩ := ih ht
    exact ⟨hclear _ _ hg, hu⟩
  | nodesCons _ _ _ ih1 ih2 ih3 =>
    obtain ⟨hg, hu⟩ := ih1 ht
    obtain ⟨hk, hu'⟩ := ih2 hg
    obtain ⟨hl, hu''⟩ := ih3 hk
    exact ⟨hl, hu''.trans (hu'.trans hu)⟩
  | @chart h g c _ ih =>
    obtain ⟨hg, hu⟩ := ih ht
    obtain ⟨hd, hu'⟩ := tied_dropChart c hg
    exact ⟨hd, hu'.trans hu⟩

theorem Empties.sound (he : Empties a name h g) (ht : h.Tied) : g.Tied ∧ g.ub = h.ub := by
  induction he with
  | done _ => exact ⟨ht, rfl⟩
  | owned _ _ he _ ih | free _ _ he _ ih =>
    obtain ⟨hg, hu⟩ := he.sound ht
    obtain ⟨hk, hu'⟩ := ih hg
    exact ⟨hk, hu'.trans hu⟩

theorem EmptiesAll.sound (he : EmptiesAll a names h g) (ht : h.Tied) : g.Tied ∧ g.ub = h.ub := by
  induction he with
  | nil => exact ⟨ht, rfl⟩
  | cons he _ ih =>
    obtain ⟨hg, hu⟩ := he.sound ht
    obtain ⟨hk, hu'⟩ := ih hg
    exact ⟨hk, hu'.trans hu⟩

/-! ### The calls end -/

theorem Owned.ranked (ho : h.Owned) : h.Ranked := by
  intro n c hc
  have hheld : h.ownership.held n = some c := by
    change ((h.nodes n).attacher).bind _ = _
    rw [hc]
    rfl
  obtain ⟨x, hx, hxo⟩ := (ho.held n c).mp hheld
  obtain ⟨-, -, -, hlt⟩ := ho.owner c x n hx hxo
  exact hlt

theorem Owned.numbered (ho : h.Owned) : h.Numbered := by
  intro c hc
  refine ho.bound c ?_
  rw [isSome_objects, Option.isSome_iff_ne_none]
  intro hnone
  rw [nodeList, nodesCount, hnone] at hc
  exact hc rfl

theorem attacher_of_chart? {d : Node} (hd : d.chart? = some c) :
    d.attacher = some (.subchart c) := by
  rw [Node.chart?, Option.bind_eq_some_iff] at hd
  obtain ⟨att, hatt, hc⟩ := hd
  cases att with
  | subchart c' =>
    cases hc
    exact hatt
  | timer b | waitAll ids => cases hc

/-- **`Node::Stop` ends.** -/
theorem ends_stopNode (fuel : ℕ) (h : Heap) (n : NodeRef) (hr : h.Ranked) (hnum : h.Numbered)
    (hn : n.chart < h.nextChart) (hfuel : h.nextChart < fuel + n.chart) :
    Ends (.stop n) h (stopNode fuel h n) := by
  induction fuel generalizing h n with
  | zero => exact absurd (Nat.zero_add n.chart ▸ hfuel) (Nat.lt_asymm hn)
  | succ fuel ih =>
    have hdown : ∀ a b c : ℕ, a < fuel + 1 + b → b < c → a < fuel + c := by omega
    have hstop : ((h.act n Node.stop (.stop n (h.nodes n).status)).nodes n).attacher =
        (h.nodes n).stop.attacher := congrArg Node.attacher (nodes_setNode_self h n Node.stop)
    have hsame : h.SameTree (h.act n Node.stop (.stop n (h.nodes n).status)) := by
      refine ⟨fun m c => ?_, fun _ => rfl, rfl⟩
      rcases eq_or_ne m n with rfl | hm
      · rw [hstop]
        exact Node.attacher_stop_iff _ c
      · rw [nodes_act, nodes_setNode_of_ne hm]
    rw [stopNode, hstop]
    cases hc : (h.nodes n).chart? with
    | none =>
      have hno : ∀ c, (h.nodes n).stop.attacher ≠ some (.subchart c) := by
        intro c hs
        rw [Node.chart?, (Node.attacher_stop_iff _ c).mp hs] at hc
        cases hc
      split
      · exact absurd ‹_› (hno _)
      · exact .stop hc
    | some c =>
      have hatt := attacher_of_chart? hc
      have hlt : n.chart < c := hr n c hatt
      rw [(Node.attacher_stop_iff _ c).mpr hatt]
      refine .stopSubchart hc ?_
      -- The nodes of the subchart are stopped one after the other, in a tree that stays the same.
      have hall : ∀ m ∈ h.nodeList c, m.chart = c ∧ c < h.nextChart :=
        fun m hm => ⟨chart_of_mem_nodeList hm, hnum c (List.ne_nil_of_mem hm)⟩
      have hlist : (h.act n Node.stop (.stop n (h.nodes n).status)).nodeList c = h.nodeList c := rfl
      rw [hlist]
      generalize h.act n Node.stop (.stop n (h.nodes n).status) = g at hsame
      generalize h.nodeList c = ms at hall
      induction ms generalizing g with
      | nil => exact .stopsNil
      | cons m ms ihm =>
        obtain ⟨hmc, hcn⟩ := hall m List.mem_cons_self
        have hgr := hsame.ranked hr
        have hgn := hsame.numbered hnum
        have hm : m.chart < g.nextChart := by rwa [hsame.next, hmc]
        have hmf : g.nextChart < fuel + m.chart := by
          rw [hsame.next, hmc]
          exact hdown _ _ _ hfuel hlt
        refine .stopsCons (ih g m hgr hgn hm hmf) ?_
        refine ihm _ (hsame.trans (halts_stopNode fuel g m hgr hgn hm hmf).sameTree)
          fun m' hm' => ?_
        exact hall m' (List.mem_cons_of_mem m hm')

/-- The fuel of `Asyncflow.Heap.stop` is enough. -/
theorem stop_fuel (h : Heap) (n : NodeRef) : h.nextChart < h.nextChart + 1 + n.chart :=
  Nat.lt_of_lt_of_le (Nat.lt_succ_self _) (Nat.le_add_right _ _)

theorem ends_stop (ho : h.Owned) (hn : n.chart < h.nextChart) : Ends (.stop n) h (h.stop n) :=
  ends_stopNode _ h n ho.ranked ho.numbered hn (stop_fuel h n)

theorem nextChart_stop (ho : h.Owned) (hn : n.chart < h.nextChart) :
    (h.stop n).nextChart = h.nextChart :=
  (halts_stopNode _ h n ho.ranked ho.numbered hn (stop_fuel h n)).next

theorem nextChart_dropChart (h : Heap) (c : ChartId) : (h.dropChart c).nextChart = h.nextChart := by
  rw [dropChart_eq]
  split <;> exact nextChart_setOwner ..

/-- **`Node::~Node` ends**, if the destructors of younger charts do. -/
theorem ends_loseNode {fuel : ℕ} (ho : h.Owned) (hn : n.chart < h.nextChart)
    (hdown : ∀ d, ((h.stop n).charts d).isSome → n.chart < d → h.nextChart ≤ fuel + d ∧
      Ends (.chart d) (h.stop n) (destroyChart fuel (h.stop n) d) ∧
        (destroyChart fuel (h.stop n) d).nextChart = h.nextChart) :
    Ends (.clear n) (h.stop n) (h.loseNode fuel n) ∧
      (h.loseNode fuel n).nextChart = h.nextChart ∧ (h.loseNode fuel n).Owned := by
  have hnext : (h.stop n).nextChart = h.nextChart := nextChart_stop ho hn
  have hs : (h.stop n).Owned := ho.congr (ownership_stop h n) (Nat.le_of_eq hnext.symm)
  rw [loseNode]
  cases hcn : ((h.stop n).nodes n).chart? with
  | none =>
    have hno : ∀ d, ((h.stop n).nodes n).attacher ≠ some (.subchart d) := by
      intro d hd
      rw [Node.chart?, hd] at hcn
      cases hcn
    split
    · exact absurd ‹_› (hno _)
    · exact ⟨.clear hcn, hnext, hs.congr (ownership_act _ n rfl hcn.symm) (Nat.le_refl _)⟩
  | some d =>
    have hatt := attacher_of_chart? hcn
    have hd : ((h.stop n).ownership.objects d).isSome := Ownership.Proper.alive hs hcn
    obtain ⟨hfuel, hends, hdn⟩ := hdown d (by rwa [← isSome_objects]) (hs.ranked n d hatt)
    rw [← hnext] at hfuel
    have hp := Ownership.prunes_destroy hs hd hfuel
    rw [← ownership_destroyChart] at hp
    have hfree : (destroyChart fuel (h.stop n) d).ownership.held n = none := by
      refine Option.eq_none_iff_forall_ne_some.mpr fun e he => ?_
      obtain ⟨hde, hne⟩ := (hp.held n e).mp he
      obtain rfl := Option.some.inj (hcn.symm.trans hde)
      exact hne .refl
    have hsw := (Ownership.Swept.refl (h.stop n).ownership).insert hs hd hp
    have hod := hs.swept hsw (Nat.le_of_eq (hnext.trans hdn.symm))
    rw [hatt]
    refine ⟨.clearSubchart hcn hends, hdn, hod.congr ?_ (Nat.le_refl _)⟩
    rw [ownership_clear _ n rfl rfl, Ownership.clear_of_free hfree]

/-- **`Chart::~Chart` ends**, and it makes no charts. -/
theorem ends_destroyChart (fuel : ℕ) (h : Heap) (c : ChartId) (ho : h.Owned)
    (hc : (h.charts c).isSome) (hfuel : h.nextChart ≤ fuel + c) :
    Ends (.chart c) h (destroyChart fuel h c) ∧
      (destroyChart fuel h c).nextChart = h.nextChart := by
  have hlt : c < h.nextChart := ho.bound c (by rwa [isSome_objects])
  induction fuel generalizing h c with
  | zero => exact absurd (Nat.zero_add c ▸ hfuel) (Nat.not_le.mpr hlt)
  | succ fuel ih =>
    have harith : ∀ a b c : ℕ, a ≤ fuel + 1 + b → b < c → a ≤ fuel + c := by omega
    have hall : ∀ m ∈ h.nodeList c, m.chart = c := fun m hm => chart_of_mem_nodeList hm
    have hnodes : Ends (.nodes (h.nodeList c)) h ((h.nodeList c).foldl (loseNode fuel) h) ∧
        ((h.nodeList c).foldl (loseNode fuel) h).nextChart = h.nextChart := by
      clear hc
      generalize h.nodeList c = ms at hall
      induction ms generalizing h with
      | nil => exact ⟨.nodesNil, rfl⟩
      | cons m ms ihm =>
        have hmc := hall m List.mem_cons_self
        have hm : m.chart < h.nextChart := by rwa [hmc]
        have hnext := nextChart_stop ho hm
        have hs : (h.stop m).Owned := ho.congr (ownership_stop h m) (Nat.le_of_eq hnext.symm)
        obtain ⟨hlose, hln, hlo⟩ := ends_loseNode ho hm fun d hd hmd => by
          have hdf : h.nextChart ≤ fuel + d := harith _ _ _ hfuel (hmc ▸ hmd)
          obtain ⟨hde, hdn⟩ := ih (h.stop m) d hs hd (by rwa [hnext])
            (hs.bound d (by rwa [isSome_objects]))
          exact ⟨hdf, hde, hdn.trans hnext⟩
        obtain ⟨hrest, hrestn⟩ := ihm (h.loseNode fuel m) hlo (by rwa [hln]) (by rwa [hln])
          fun m' hm' => hall m' (List.mem_cons_of_mem m hm')
        exact ⟨.nodesCons (ends_stop ho hm) hlose hrest, hrestn.trans hln⟩
    rw [destroyChart_succ, nextChart_dropChart]
    exact ⟨.chart hnodes.1, hnodes.2⟩

theorem ends_deleteChart (ho : h.Owned) (hc : (h.charts c).isSome) :
    Ends (.chart c) h (h.deleteChart c) :=
  (ends_destroyChart _ h c ho hc (Nat.le_trans (Nat.le_succ _) (Nat.le_add_right _ _))).1

theorem objects_of_charts {x : Chart} (hx : h.charts c = some x) :
    h.ownership.objects c = some ⟨h.nodeList c, x.owner, x.agent, h.nameOf c⟩ := by
  change (h.charts c).map _ = _
  rw [hx]
  rfl

/-- **The body of the loop ends.** -/
theorem ends_destroyListed (ho : h.Owned) (hc : (h.charts c).isSome) :
    (∀ o, h.ownerOf c = some o → Ends (.clear o) h (h.destroyListed c)) ∧
      (h.ownerOf c = none → Ends (.chart c) h (h.destroyListed c)) := by
  constructor
  · intro o hown
    obtain ⟨x, hx⟩ := Option.isSome_iff_exists.mp hc
    have hxo : x.owner = some o := by
      rw [ownerOf, hx] at hown
      exact hown
    have hheld : (h.nodes o).chart? = some c := (ho.held o c).mpr ⟨_, objects_of_charts hx, hxo⟩
    rw [destroyListed, hown]
    dsimp only
    rw [clearAttacher, deleteAttacher, attacher_of_chart? hheld]
    exact .clearSubchart hheld (ends_deleteChart ho hc)
  · intro hown
    rw [destroyListed, hown]
    exact ends_deleteChart ho hc

/-! ### The loops end -/

theorem mem_chartDict : c ∈ h.chartDict a name ↔ c ∈ h.ownership.lists a ∧
    h.nameOf c = some name := by
  rw [chartDict, List.mem_filter, decide_eq_true_iff]
  rfl

/-- A chart that is still there has the name it had. -/
theorem nameOf_of_swept (hs : h.ownership.Swept A g.ownership) (hc : (g.charts c).isSome) :
    g.nameOf c = h.nameOf c := by
  obtain ⟨x, hx⟩ := Option.isSome_iff_exists.mp hc
  have hobj := objects_of_charts hx
  obtain ⟨hold, -⟩ := hs.alive hobj
  obtain ⟨y, -, hy⟩ := Option.map_eq_some_iff.mp hold
  exact (congrArg Ownership.Object.name hy).symm

theorem Owned.alive_of_listed (ho : h.Owned) (hc : c ∈ h.ownership.lists a) :
    (h.charts c).isSome := by
  obtain ⟨x, hx, -⟩ := (ho.listed c a).mp hc
  rw [← isSome_objects, hx]
  rfl

/-- The lists only lose what is destroyed. -/
theorem chartDict_of_swept (hg : g.Owned) (hs : h.ownership.Swept A g.ownership)
    (a : AgentId) (name : String) : (g.chartDict a name).Sublist (h.chartDict a name) ∧
      ∀ c, c ∈ g.chartDict a name ↔ c ∈ h.chartDict a name ∧ (g.charts c).isSome := by
  have hname : ∀ c ∈ g.ownership.lists a, g.nameOf c = h.nameOf c :=
    fun c hc => nameOf_of_swept hs (hg.alive_of_listed hc)
  have hfilter : g.chartDict a name =
      (g.ownership.lists a).filter fun c => h.nameOf c = some name := by
    refine List.filter_congr fun c hc => ?_
    rw [hname c hc]
  constructor
  · rw [hfilter]
    exact (hs.sublist a).filter _
  · intro c
    rw [mem_chartDict, mem_chartDict, hs.mem]
    constructor
    · rintro ⟨⟨hc, hno⟩, hn⟩
      have hgc : (g.charts c).isSome := hg.alive_of_listed ((hs.mem a c).mpr ⟨hc, hno⟩)
      exact ⟨⟨hc, nameOf_of_swept hs hgc ▸ hn⟩, hgc⟩
    · rintro ⟨⟨hc, hn⟩, hgc⟩
      have hno : c ∉ {e | ∃ d ∈ A, h.ownership.Below d e} := by
        intro hmem
        have hdead := hs.dead c hmem
        rw [← isSome_objects, hdead] at hgc
        cases hgc
      exact ⟨⟨hc, hno⟩, (nameOf_of_swept hs hgc).trans hn⟩

/-- What the loops have come to: some charts of the agent have been destroyed, with what is
below them. -/
structure Sweeping (h : Heap) (a : AgentId) (A : Set ChartId) (g : Heap) : Prop where
  owned : g.Owned
  swept : h.ownership.Swept A g.ownership
  listed : A ⊆ {c | c ∈ h.ownership.lists a}

/-- **The loop over one list ends**, with the list empty. -/
theorem exists_empties (ho : h.Owned) (m : ℕ) (hg : Sweeping h a A g)
    (hm : (g.chartDict a name).length ≤ m) : ∃ B k, Empties a name g k ∧ Sweeping h a B k ∧
      k.chartDict a name = [] ∧ ∀ name', (k.chartDict a name').Sublist (g.chartDict a name') := by
  induction m generalizing g A with
  | zero =>
    have hnil := List.length_eq_zero_iff.mp (Nat.le_zero.mp hm)
    exact ⟨A, g, .done hnil, hg, hnil, fun _ => .refl _⟩
  | succ m ih =>
    cases hlast : (g.chartDict a name).getLast? with
    | none =>
      have hnil := List.getLast?_eq_none_iff.mp hlast
      exact ⟨A, g, .done hnil, hg, hnil, fun _ => .refl _⟩
    | some c =>
      have hmem := List.mem_of_getLast? hlast
      have hc : (g.charts c).isSome := hg.owned.alive_of_listed (mem_chartDict.mp hmem).1
      have hp := prunes_destroyListed hg.owned hc
      have hd : Does (fun _ => True) (fun _ => True) (fun _ => False) g (g.destroyListed c) := by
        rw [destroyListed]
        split
        · exact does_clearAttacher g _
        · exact does_deleteChart g c
      have hgs := (Ownership.Swept.refl g.ownership).insert hg.owned (by rwa [isSome_objects]) hp
      have hk : (g.destroyListed c).Owned := hg.owned.swept hgs (nextChart_le_of_does hd)
      -- The list gets shorter, whatever else has been taken out of it.
      obtain ⟨hsub, hiff⟩ := chartDict_of_swept hk hgs a name
      have hshort : ((g.destroyListed c).chartDict a name).length ≤ m := by
        have hne : (g.destroyListed c).chartDict a name ≠ g.chartDict a name := by
          intro heq
          have hdead : ((g.destroyListed c).charts c).isSome := ((hiff c).mp (heq ▸ hmem)).2
          rw [← isSome_objects, hp.dead c .refl] at hdead
          cases hdead
        have hle := hsub.length_le
        have hlen : ((g.destroyListed c).chartDict a name).length ≠ (g.chartDict a name).length :=
          fun heq => hne (hsub.eq_of_length heq)
        omega
      have hlisted : c ∈ h.ownership.lists a := ((hg.swept.mem a c).mp (mem_chartDict.mp hmem).1).1
      have hsweep : Sweeping h a (insert c A) (g.destroyListed c) :=
        ⟨hk, hg.swept.insert ho (by rwa [isSome_objects]) hp, Set.insert_subset hlisted hg.listed⟩
      obtain ⟨B, k, hempties, hB, hnil, hsubs⟩ := ih hsweep hshort
      obtain ⟨hclear, hfree⟩ := ends_destroyListed hg.owned hc
      refine ⟨B, k, ?_, hB, hnil, fun name' => ?_⟩
      · cases hown : g.ownerOf c with
        | none => exact .free hlast hown (hfree hown) hempties
        | some o => exact .owned hlast hown (hclear o hown) hempties
      · exact (hsubs name').trans (chartDict_of_swept hk hgs a name').1

/-- **The loop over the lists ends**, with all of them empty. -/
theorem exists_emptiesAll (ho : h.Owned) (names : List String) (hg : Sweeping h a A g) :
    ∃ B k, EmptiesAll a names g k ∧ Sweeping h a B k ∧ (∀ name ∈ names, k.chartDict a name = []) ∧
      ∀ name', (k.chartDict a name').Sublist (g.chartDict a name') := by
  induction names generalizing g A with
  | nil => exact ⟨A, g, .nil, hg, nofun, fun _ => .refl _⟩
  | cons name names ih =>
    obtain ⟨B, k, hone, hB, hnil, hsub⟩ := exists_empties ho _ hg (Nat.le_refl _)
    obtain ⟨B', k', hrest, hB', hnils, hsub'⟩ := ih hB
    refine ⟨B', k', .cons hone hrest, hB', fun name' hname' => ?_, fun name' =>
      (hsub' name').trans (hsub name')⟩
    rcases List.mem_cons.mp hname' with rfl | hmem
    · exact List.sublist_nil.mp (hnil ▸ hsub' name')
    · exact hnils name' hmem

/-! ### What is left -/

/-- The charts that are there have a name. -/
theorem nameOf_isSome (hf : h.registry.Filed) (hc : (h.charts c).isSome) :
    ∃ name, h.nameOf c = some name := by
  obtain ⟨x, hx⟩ := Option.isSome_iff_exists.mp hc
  have hrx : h.registry.charts c = some (x.data, x.nodeCount) := by
    change (h.charts c).map _ = _
    rw [hx]
    rfl
  obtain ⟨y, hy⟩ := Option.isSome_iff_exists.mp (hf.live c _ hrx)
  have hy' : h.chartData x.data = some y := hy
  refine ⟨y.name, ?_⟩
  rw [nameOf, dataOf, hx, Option.bind_some, hy']
  rfl

/-- The charts that go are those of the agent and what is below them. -/
theorem doomed_iff (ho : h.Owned) (hf : h.registry.Filed) : h.Doomed a c ↔
    ∃ d ∈ {d | d ∈ h.ownership.lists a}, h.ownership.Below d c := by
  constructor
  · intro hd
    induction hd with
    | listed hc => exact ⟨_, (mem_chartDict.mp hc).1, .refl⟩
    | @subchart n c _ hn hatt ih =>
      obtain ⟨d, hd, hb⟩ := ih
      have hheld : (h.nodes n).chart? = some c := by rw [Node.chart?, hatt]; rfl
      rw [← slotsOf_ownership, Ownership.slotsOf] at hn
      cases hx : h.ownership.objects n.chart with
      | none =>
        rw [hx] at hn
        cases hn
      | some x =>
        rw [hx] at hn
        exact ⟨d, hd, hb.tail ⟨x, n, hx, hn, hheld⟩⟩
  · rintro ⟨d, hd, hb⟩
    induction hb with
    | refl =>
      obtain ⟨name, hname⟩ := nameOf_isSome hf (ho.alive_of_listed hd)
      exact .listed (mem_chartDict.mpr ⟨hd, hname⟩)
    | tail _ hbc ih =>
      obtain ⟨x, n, hx, hn, hheld⟩ := hbc
      obtain rfl := ho.slots _ x n hx hn
      refine .subchart ih ?_ (attacher_of_chart? hheld)
      rw [← slotsOf_ownership, Ownership.slotsOf, hx]
      exact hn

/-- When nothing is listed any more, everything listed has been destroyed. -/
theorem Sweeping.all (hg : Sweeping h a A g) (hnil : g.ownership.lists a = []) :
    h.ownership.Swept {c | c ∈ h.ownership.lists a} g.ownership := by
  have hS : {e | ∃ c ∈ {c | c ∈ h.ownership.lists a}, h.ownership.Below c e} =
      {e | ∃ c ∈ A, h.ownership.Below c e} := by
    ext e
    constructor
    · rintro ⟨c, hc, hb⟩
      have hmem : c ∈ {e | ∃ c ∈ A, h.ownership.Below c e} := by
        by_contra hno
        have hleft := (hg.swept.mem a c).mpr ⟨hc, hno⟩
        rw [hnil] at hleft
        cases hleft
      exact (Ownership.closed_below h.ownership A).below hb hmem
    · rintro ⟨c, hc, hb⟩
      exact ⟨c, hg.listed hc, hb⟩
  rw [Ownership.Swept, hS]
  exact hg.swept

/-- **`Agent::~Agent` ends**, and the charts of the agent are gone with what is below them. -/
theorem exists_destroysCharts (es : List EventId) (ho : h.Owned) (hf : h.registry.Filed)
    (ht : h.Tied) (hub : (h.dropWaiting es a).ub = false)
    (hnames : ∀ name, h.chartDict a name ≠ [] → name ∈ names) :
    ∃ g, DestroysCharts es a names h g ∧
      g.Owned ∧ h.ownership.Swept {c | c ∈ h.ownership.lists a} g.ownership := by
  have hstart : Sweeping h a ∅ (h.dropWaiting es a) := by
    refine ⟨ho.congr (ownership_dropWaiting h es a) (Nat.le_refl _), ?_, Set.empty_subset _⟩
    rw [ownership_dropWaiting]
    exact .refl _
  obtain ⟨B, g, hall, hB, hnil, -⟩ := exists_emptiesAll ho names hstart
  have hsound : g.ub = false := (hall.sound (tied_dropWaiting es a ht)).2.trans hub
  refine ⟨g, ⟨hub, hall, hsound⟩, hB.owned, hB.all ?_⟩
  refine List.eq_nil_iff_forall_not_mem.mpr fun c hc => ?_
  have halive := hB.owned.alive_of_listed hc
  have hold : c ∈ h.ownership.lists a := ((hB.swept.mem a c).mp hc).1
  obtain ⟨name, hname⟩ := nameOf_isSome hf (ho.alive_of_listed hold)
  have hmem : c ∈ g.chartDict a name :=
    mem_chartDict.mpr ⟨hc, (nameOf_of_swept hB.swept halive).trans hname⟩
  rw [hnil name (hnames name (List.ne_nil_of_mem (mem_chartDict.mpr ⟨hold, hname⟩)))] at hmem
  cases hmem

/-- The same charts are there, at the same nodes and in the same dictionaries. -/
def Agrees (h g : Heap) : Prop :=
  h.ownership.objects = g.ownership.objects ∧ h.ownership.held = g.ownership.held ∧
    ∀ b c, c ∈ h.ownership.lists b ↔ c ∈ g.ownership.lists b

/-- **The step of the machine that destroys an agent** agrees with the loops. -/
theorem destroyAgent_agrees (es : List EventId) (ho : h.Owned)
    (hs : h.ownership.Swept {c | c ∈ h.ownership.lists a} g.ownership) :
    (h.destroyAgent es a).Agrees g := by
  have hd := swept_destroyAgent ho es a
  refine ⟨funext fun c => ?_, funext fun n => Option.ext fun c => ?_, fun b c => ?_⟩
  · by_cases hc : c ∈ {e | ∃ d ∈ {d | d ∈ h.ownership.lists a}, h.ownership.Below d e}
    · rw [hd.dead c hc, hs.dead c hc]
    · rw [hd.kept c hc, hs.kept c hc]
  · rw [hd.held, hs.held]
  · rw [hd.mem, hs.mem]

theorem destructions_of_swept (hs : h.ownership.Swept A g.ownership) (c : ChartId) :
    ((∃ d ∈ A, h.ownership.Below d c) → g.destructions c = h.destructions c + 1) ∧
      ((¬∃ d ∈ A, h.ownership.Below d c) → g.destructions c = h.destructions c) := by
  obtain ⟨new, hnew, hnd, hmem⟩ := hs.gone
  have hcount : g.destructions c = new.count c + h.destructions c := by
    have hg : g.destructions c = g.ownership.gone.count c := rfl
    rw [hg, hnew, List.count_append]
    rfl
  constructor
  · intro hc
    rw [hcount, List.count_eq_one_of_mem hnd ((hmem c).mpr hc), Nat.add_comm]
  · intro hc
    rw [hcount, List.count_eq_zero_of_not_mem fun hm => hc ((hmem c).mp hm), Nat.zero_add]

/-- The charts of the lists and all charts below them are gone, and no others. -/
theorem chart_of_swept (ho : h.Owned) (hf : h.registry.Filed)
    (hs : h.ownership.Swept {c | c ∈ h.ownership.lists a} g.ownership) (c : ChartId) :
    (h.Doomed a c → g.charts c = none ∧ g.destructions c = h.destructions c + 1) ∧
      (¬h.Doomed a c → (g.charts c).isSome = (h.charts c).isSome ∧
        g.destructions c = h.destructions c) := by
  have hd := destructions_of_swept hs c
  have hdoom : h.Doomed a c ↔ ∃ d ∈ {d | d ∈ h.ownership.lists a}, h.ownership.Below d c :=
    doomed_iff ho hf
  constructor
  · intro hc
    have hdead := hs.dead c (hdoom.mp hc)
    refine ⟨?_, hd.1 (hdoom.mp hc)⟩
    rw [← Option.not_isSome_iff_eq_none, ← isSome_objects, hdead]
    exact Bool.false_ne_true
  · intro hc
    have hno := mt hdoom.mpr hc
    refine ⟨?_, hd.2 hno⟩
    rw [← isSome_objects, ← isSome_objects, hs.kept c hno]

/-- The dictionaries have lost the charts that are gone and nothing else. -/
theorem mem_chartDict_of_swept (ho : h.Owned) (hf : h.registry.Filed) (hg : g.Owned)
    (hs : h.ownership.Swept {c | c ∈ h.ownership.lists a} g.ownership) (b : AgentId)
    (name : String) (c : ChartId) :
    c ∈ g.chartDict b name ↔ c ∈ h.chartDict b name ∧ ¬h.Doomed a c := by
  have hc := chart_of_swept ho hf hs c
  rw [(chartDict_of_swept hg hs b name).2]
  refine and_congr_right fun hm => ?_
  constructor
  · intro halive hd
    rw [(hc.1 hd).1] at halive
    cases halive
  · intro hno
    rw [(hc.2 hno).1]
    exact ho.alive_of_listed (mem_chartDict.mp hm).1

theorem Owned.agent_of_listed {x : Chart} (ho : h.Owned) (hx : h.charts c = some x)
    (hc : c ∈ h.ownership.lists a) : x.agent = some a := by
  obtain ⟨y, hy, hya⟩ := (ho.listed c a).mp hc
  rw [objects_of_charts hx] at hy
  obtain rfl := Option.some.inj hy
  exact hya

/-- **A chart in `chart_dict_`** has the name, the agent, and an owner node that is there, holds it
and has no other chart in the list, or no owner node. -/
theorem Owned.of_mem_chartDict (ho : h.Owned) (hc : c ∈ h.chartDict a name) :
    ∃ x, h.charts c = some x ∧ h.nameOf c = some name ∧ x.agent = some a ∧
      (∀ o, x.owner = some o → o ∈ h.nodeList o.chart ∧
        (h.nodes o).attacher = some (.subchart c)) ∧
      ∀ d ∈ h.chartDict a name, h.ownerOf d = x.owner → d = c := by
  obtain ⟨hlist, hname⟩ := mem_chartDict.mp hc
  obtain ⟨x, hx⟩ := Option.isSome_iff_exists.mp (ho.alive_of_listed hlist)
  have hobj := objects_of_charts hx
  refine ⟨x, hx, hname, ho.agent_of_listed hx hlist, fun o hxo => ?_, fun d hd hown => ?_⟩
  · obtain ⟨y, hy, hyo, -⟩ := ho.owner c _ o hobj hxo
    obtain ⟨z, -, rfl⟩ := Option.map_eq_some_iff.mp hy
    exact ⟨hyo, attacher_of_chart? ((ho.held o c).mpr ⟨_, hobj, hxo⟩)⟩
  · obtain ⟨hdl, hdn⟩ := mem_chartDict.mp hd
    obtain ⟨z, hz⟩ := Option.isSome_iff_exists.mp (ho.alive_of_listed hdl)
    rw [ownerOf, hz] at hown
    exact ho.unique d c _ _ a (objects_of_charts hz) hobj (ho.agent_of_listed hz hdl)
      (ho.agent_of_listed hx hlist) hown (hdn.trans hname.symm)

end Heap

namespace State

variable {cfg : Config} {s t : State}

/-- A run keeps what is registered. -/
theorem extends_of_reaches (hs : Reachable cfg s) (h : Run.Reaches (step cfg) s t) :
    s.heap.registry.Extends t.heap.registry :=
  h.relation (I := Reachable cfg) (R := fun s t => s.heap.registry.Extends t.heap.registry)
    (fun s => .refl s.heap.registry) .trans hs (fun _ _ _ hi _ hs => hi.tail trivial hs)
    fun _ _ _ hi _ hs => (filed_of_step (wf_of_reachable hi) (filed_of_reachable hi) hs).2

/-- A chart in `chart_dict_` keeps its name as long as it is there. -/
theorem nameOf_of_reaches {a : AgentId} {name : String} {c : ChartId} (hs : Reachable cfg s)
    (hc : c ∈ s.heap.chartDict a name) (h : Run.Reaches (step cfg) s t)
    (halive : (t.heap.charts c).isSome) : t.heap.nameOf c = some name := by
  obtain ⟨hlist, hname⟩ := Heap.mem_chartDict.mp hc
  obtain ⟨x, hx⟩ := Option.isSome_iff_exists.mp ((owned_of_reachable hs).alive_of_listed hlist)
  obtain ⟨x', hx'⟩ := Option.isSome_iff_exists.mp halive
  have hlt := (wf_of_reachable hs).born.chart c (by rw [hx]; rfl)
  exact (Heap.nameOf_of_extends (filed_of_reachable hs) (extends_of_reaches hs h) hlt hx
    hx').1.trans hname

/-- **Agent destruction terminates and is complete** in runs that tear no ring. In every state a
chart in `chart_dict_` at a name has the name, which it keeps as long as it is there, the agent,
and an owner node that is there, holds it and has no other chart in the list, or no owner node.
In whichever order `Agent::~Agent` takes the names, it ends, in one way only, and touches nothing
that has been destroyed; all lists of the agent are empty then: the charts of the lists and all
charts below them are gone, each after one call of its destructor, other charts stay, and the
dictionaries of the other agents have lost the charts that are gone and nothing else. The step of
the machine agrees. -/
theorem agent_destroyed (h : Run.Steps (step cfg) (fun s a => ¬s.Tears a) init s) :
    (∀ a name c, c ∈ s.heap.chartDict a name → ∃ x, s.heap.charts c = some x ∧
      s.heap.nameOf c = some name ∧ x.agent = some a ∧
      (∀ o, x.owner = some o → o ∈ s.heap.nodeList o.chart ∧
        (s.heap.nodes o).attacher = some (.subchart c)) ∧
      ∀ d ∈ s.heap.chartDict a name, s.heap.ownerOf d = x.owner → d = c) ∧
    (∀ a name c t, c ∈ s.heap.chartDict a name → Run.Reaches (step cfg) s t →
      (t.heap.charts c).isSome → t.heap.nameOf c = some name) ∧
    ∀ a names, (∀ name, s.heap.chartDict a name ≠ [] → name ∈ names) →
      ∃ g, Heap.DestroysCharts cfg.events a names s.heap g ∧
        (∀ k, Heap.DestroysCharts cfg.events a names s.heap k → k = g) ∧
        (∀ name, g.chartDict a name = []) ∧
        (∀ c, s.heap.Doomed a c →
          g.charts c = none ∧ g.destructions c = s.heap.destructions c + 1) ∧
        (∀ c, ¬s.heap.Doomed a c → (g.charts c).isSome = (s.heap.charts c).isSome ∧
          g.destructions c = s.heap.destructions c) ∧
        (∀ b name c,
          c ∈ g.chartDict b name ↔ c ∈ s.heap.chartDict b name ∧ ¬s.heap.Doomed a c) ∧
        (s.heap.destroyAgent cfg.events a).Agrees g := by
  have hs : Reachable cfg s := h.mono fun _ _ _ => trivial
  have ho := owned_of_reachable hs
  have hf := filed_of_reachable hs
  refine ⟨fun a name c hc => ho.of_mem_chartDict hc, fun a name c t hc hr halive =>
    nameOf_of_reaches hs hc hr halive, fun a names hnames => ?_⟩
  -- The rings come first: what is in them is there, since no call has torn one.
  have hub : (s.heap.dropWaiting cfg.events a).ub = false :=
    ((ringed_of_steps h).ub_dropWaiting cfg.events a).trans (ub_of_reachable hs)
  obtain ⟨g, hg, hgo, hsw⟩ := Heap.exists_destroysCharts cfg.events ho hf
    (stoppable_of_reachable hs).tied hub hnames
  have hchart := Heap.chart_of_swept ho hf hsw
  refine ⟨g, hg, fun k hk => Heap.EmptiesAll.unique hk.charts hg.charts, fun name => ?_,
    fun c => (hchart c).1, fun c => (hchart c).2, Heap.mem_chartDict_of_swept ho hf hgo hsw,
    Heap.destroyAgent_agrees cfg.events ho hsw⟩
  refine List.eq_nil_iff_forall_not_mem.mpr fun c hc => ?_
  have hmem := (Heap.mem_chartDict.mp hc).1
  rw [Heap.lists_of_swept hsw] at hmem
  cases hmem

/-- A chart whose node calls the chart itself. -/
def selfChart : ChartData :=
  { name := "main", nodes := [{ success := [1] }, { func := .script }] }

/-- The chart of agent 1 calls itself on agent 2, and that chart calls itself on agent 1. -/
def nestedActs : List Act :=
  [.op (.importChart selfChart), .op (.register 0), .op (.register 1),
    .op (.attachChart 1 "main"), .op (.startChart 0), .op .step, .timersDone,
    .op (.subchart "main" 2), .op (.subchart "main" 1), .op .wait, .ret .rTrue, .ret .rTrue,
    .ret .rTrue]

/-- With the first agent go both of its charts, and the chart of the second one between
them. -/
theorem agent_destroyed_nested : ∃ s, Run.Steps (step {}) (fun s a => ¬s.Tears a) init s ∧
    s.heap.chartDict 1 "main" = [0, 2] ∧ s.heap.chartDict 2 "main" = [1] ∧
    ∃ g, Heap.DestroysCharts (Config.events {}) 1 ["main"] s.heap g ∧
      g.chartDict 1 "main" = [] ∧ g.chartDict 2 "main" = [] ∧
      ∀ c ∈ ([0, 1, 2] : List ChartId), g.charts c = none ∧ g.destructions c = 1 := by
  obtain ⟨s, hs, hone, htwo, hlist, ⟨hn0, hn2⟩, ⟨hnode, hatt⟩, hzero⟩ := exists_of_guarded {}
    (fun s a => ¬s.Tears a) nestedActs
    (fun s => s.heap.chartDict 1 "main" = [0, 2] ∧ s.heap.chartDict 2 "main" = [1] ∧
      ((s.heap.agents 1).map (·.charts)).getD [] = [0, 2] ∧
      (s.heap.nameOf 0 = some "main" ∧ s.heap.nameOf 2 = some "main") ∧
      ((⟨0, 1⟩ : NodeRef) ∈ s.heap.nodeList 0 ∧
        (s.heap.nodes ⟨0, 1⟩).attacher = some (.subchart 1)) ∧
      ∀ c ∈ ([0, 1, 2] : List ChartId), s.heap.destructions c = 0) (by decide +kernel)
  obtain ⟨-, -, hdestroy⟩ := agent_destroyed hs
  obtain ⟨g, hg, -, hnil, hdoomed, -, hdict, -⟩ := hdestroy 1 ["main"] fun name hne => by
    obtain ⟨c, hc⟩ := List.exists_mem_of_ne_nil _ hne
    rw [Heap.chartDict, hlist, List.mem_filter, decide_eq_true_iff] at hc
    obtain ⟨hmem, hname⟩ := hc
    simp only [List.mem_cons, List.not_mem_nil, or_false] at hmem
    rcases hmem with rfl | rfl
    · rw [hn0] at hname
      simpa using hname.symm
    · rw [hn2] at hname
      simpa using hname.symm
  have hd0 : s.heap.Doomed 1 0 := .listed (hone ▸ List.mem_cons_self)
  have hd2 : s.heap.Doomed 1 2 := .listed (hone ▸ List.mem_cons_of_mem _ List.mem_cons_self)
  have hd1 : s.heap.Doomed 1 1 := .subchart (n := ⟨0, 1⟩) hd0 hnode hatt
  have hall : ∀ c ∈ ([0, 1, 2] : List ChartId), s.heap.Doomed 1 c := by
    intro c hc
    simp only [List.mem_cons, List.not_mem_nil, or_false] at hc
    rcases hc with rfl | rfl | rfl
    · exact hd0
    · exact hd1
    · exact hd2
  refine ⟨s, hs, hone, htwo, g, hg, hnil "main", ?_, fun c hc => ?_⟩
  · refine List.eq_nil_iff_forall_not_mem.mpr fun c hc => ?_
    obtain ⟨hmem, hno⟩ := (hdict 2 "main" c).mp hc
    rw [htwo, List.mem_singleton] at hmem
    subst c
    exact hno hd1
  · obtain ⟨hgone, hcount⟩ := hdoomed c (hall c hc)
    rw [hzero c hc] at hcount
    exact ⟨hgone, hcount⟩

/-- A node that waits for an event is continued late, with the context of an earlier suspension.
Its chart is removed, its agent is unregistered, and `Manager::Step` comes to the dying agents. -/
def tornActs : List Act :=
  restartedActs ++ [.op (.continueAsyncNode ⟨⟨0, 1⟩, 0⟩ true), .op (.removeChart 1 "waiting"),
    .op (.unregister 1), .op .step, .timersDone]

/-- **A torn ring**: the link of the node that has been destroyed is still in the ring of the
event, and `Agent::~Agent` does not end. -/
theorem not_agent_destroyed_torn : ∃ s, Reachable {} s ∧ s.frames = [.release 1, .dying []] ∧
    s.heap.waiting 1 0 = [⟨0, 1⟩] ∧ s.heap.charts 0 = none ∧ s.step {} .done = none ∧
    ∀ names g, ¬Heap.DestroysCharts (Config.events {}) 1 names s.heap g := by
  obtain ⟨s, hs, hf, hw, hc, hd, hub⟩ := exists_of_play {} tornActs (fun s =>
    s.frames = [.release 1, .dying []] ∧ s.heap.waiting 1 0 = [⟨0, 1⟩] ∧
      (s.heap.charts 0).isNone = true ∧ (s.step {} .done).isNone = true ∧
      (s.heap.dropWaiting (Config.events {}) 1).ub = true) (by decide +kernel)
  refine ⟨s, hs, hf, hw, Option.isNone_iff_eq_none.mp hc, Option.isNone_iff_eq_none.mp hd,
    fun names g hg => ?_⟩
  rw [hg.rings] at hub
  cases hub

end State

end Asyncflow
