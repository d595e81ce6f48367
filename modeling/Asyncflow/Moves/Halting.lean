import Asyncflow.Moves.Stopping

/-!
# What stopping a node does

`Node::Stop` comes to the node, to the nodes of the subchart that hangs on it, and so on.
`Asyncflow.Heap.Below` is that tree, `Asyncflow.Node.halt` what is done to each of its nodes,
and `Asyncflow.Heap.halts_stop` says that this is all: nodes and charts that are not in the
tree are left as they are.
-/

namespace Asyncflow

/-- A container of intrusive links. -/
def Container.usesLink : Option Container → Bool
  | some (.waiting _ _) => true
  | _ => false

/-- **A stopped node**: the writes of `Node::Stop`, and it is out of its container. -/
def Node.halt (d : Node) : Node :=
  { d.stop with container := none, linked := !Container.usesLink d.container && d.linked }

theorem Attacher.stop_stop (x : Attacher) : x.stop.stop = x.stop := by
  cases x with
  | waitAll ids =>
    have hids : waitAllReset (waitAllReset ids) = waitAllReset ids := by
      rw [waitAllReset, waitAllReset, List.map_map]
      rfl
    exact congrArg Attacher.waitAll hids
  | timer | subchart => rfl

/-- A node may be stopped twice. -/
theorem Node.halt_halt (d : Node) : d.halt.halt = d.halt := by
  have ha : (d.attacher.map Attacher.stop).map Attacher.stop = d.attacher.map Attacher.stop := by
    rw [Option.map_map]
    exact congrArg (d.attacher.map ·) (funext Attacher.stop_stop)
  simp only [halt, stop, ha, Container.usesLink, Bool.not_false, Bool.true_and]

/-- The subchart stays on a stopped node. -/
theorem Node.attacher_stop_iff (d : Node) (c : ChartId) :
    d.stop.attacher = some (.subchart c) ↔ d.attacher = some (.subchart c) := by
  rcases hd : d.attacher with - | (b | c' | ids) <;> simp [stop, hd, Attacher.stop]

namespace Heap

variable {h h' g : Heap} {n m k : NodeRef} {c c' : ChartId}

/-! ### The tree of subcharts -/

/-- A node of the tree below a node: the node itself, or one of a subchart that hangs on a
node of the tree. -/
inductive Below (h : Heap) : NodeRef → NodeRef → Prop
  | refl (a : NodeRef) : Below h a a
  | sub {a b d : NodeRef} {x : ChartId} : (h.nodes a).attacher = some (.subchart x) →
      b ∈ h.nodeList x → Below h b d → Below h a d

/-- A chart that hangs on a node of the tree below a node. -/
def Hung (h : Heap) (n : NodeRef) (c : ChartId) : Prop :=
  ∃ m, h.Below n m ∧ (h.nodes m).attacher = some (.subchart c)

/-- Both heaps have the same charts on the same nodes. -/
structure SameTree (h g : Heap) : Prop where
  attacher : ∀ m c, (g.nodes m).attacher = some (.subchart c) ↔
    (h.nodes m).attacher = some (.subchart c)
  nodeList : ∀ c, g.nodeList c = h.nodeList c
  next : g.nextChart = h.nextChart

theorem SameTree.refl (h : Heap) : h.SameTree h := ⟨fun _ _ => Iff.rfl, fun _ => rfl, rfl⟩

theorem SameTree.trans (hs : h.SameTree g) (hs' : g.SameTree h') : h.SameTree h' where
  attacher m c := (hs'.attacher m c).trans (hs.attacher m c)
  nodeList c := (hs'.nodeList c).trans (hs.nodeList c)
  next := hs'.next.trans hs.next

theorem SameTree.symm (hs : h.SameTree g) : g.SameTree h where
  attacher m c := (hs.attacher m c).symm
  nodeList c := (hs.nodeList c).symm
  next := hs.next.symm

theorem Below.of_sameTree (hs : h.SameTree g) (hb : h.Below n m) : g.Below n m := by
  induction hb with
  | refl n => exact .refl n
  | sub ha hk _ ih => exact .sub ((hs.attacher _ _).mpr ha) (hs.nodeList _ ▸ hk) ih

theorem SameTree.below_iff (hs : h.SameTree g) : g.Below n m ↔ h.Below n m :=
  ⟨.of_sameTree hs.symm, .of_sameTree hs⟩

theorem SameTree.hung_iff (hs : h.SameTree g) : g.Hung n c ↔ h.Hung n c :=
  exists_congr fun m => and_congr hs.below_iff (hs.attacher m c)

theorem SameTree.ranked (hs : h.SameTree g) (hr : h.Ranked) : g.Ranked :=
  fun n c hc => hr n c ((hs.attacher n c).mp hc)

/-- The tree grows towards younger charts. -/
theorem Below.chart_le (hr : h.Ranked) (hb : h.Below n m) : n.chart ≤ m.chart := by
  induction hb with
  | refl => exact Nat.le_refl _
  | @sub a b d x ha hb _ ih =>
    obtain ⟨i, -, rfl⟩ := List.mem_map.mp hb
    have hlt := hr a x ha
    exact Nat.le_trans (Nat.le_of_lt hlt) ih

/-- The tree below a node is the node and the trees below the nodes of its subchart. -/
theorem below_iff : h.Below n m ↔ m = n ∨
    ∃ c, (h.nodes n).attacher = some (.subchart c) ∧ ∃ k ∈ h.nodeList c, h.Below k m := by
  constructor
  · rintro (_ | ⟨ha, hk, hb⟩)
    · exact .inl rfl
    · exact .inr ⟨_, ha, _, hk, hb⟩
  · rintro (rfl | ⟨c, ha, k, hk, hb⟩)
    · exact .refl _
    · exact .sub ha hk hb

theorem hung_iff : h.Hung n c' ↔ ∃ c, (h.nodes n).attacher = some (.subchart c) ∧
    (c' = c ∨ ∃ k ∈ h.nodeList c, h.Hung k c') := by
  constructor
  · rintro ⟨m, hb, hm⟩
    rcases below_iff.mp hb with rfl | ⟨c, ha, k, hk, hkm⟩
    · exact ⟨c', hm, .inl rfl⟩
    · exact ⟨c, ha, .inr ⟨k, hk, m, hkm, hm⟩⟩
  · rintro ⟨c, ha, rfl | ⟨k, hk, m, hkm, hm⟩⟩
    · exact ⟨n, .refl n, ha⟩
    · exact ⟨m, .sub ha hk hkm, hm⟩

/-! ### Stopping -/

/-- **The nodes of `R` are stopped and the charts of `S` are idle**, and all others are as they
were. -/
structure Halts (R : NodeRef → Prop) (S : ChartId → Prop) (h h' : Heap) : Prop where
  stopped : ∀ m, R m → h'.nodes m = (h.nodes m).halt
  kept : ∀ m, ¬R m → h'.nodes m = h.nodes m
  idle : ∀ c, S c → h'.charts c = (h.charts c).map ({ · with status := .idle })
  charts : ∀ c, ¬S c → h'.charts c = h.charts c
  next : h'.nextChart = h.nextChart

variable {R R' : NodeRef → Prop} {S S' : ChartId → Prop}

theorem Halts.refl (h : Heap) : Halts (fun _ => False) (fun _ => False) h h :=
  ⟨nofun, fun _ _ => rfl, nofun, fun _ _ => rfl, rfl⟩

theorem Halts.congr (hh : Halts R S h h') (hR : ∀ m, R m ↔ R' m) (hS : ∀ c, S c ↔ S' c) :
    Halts R' S' h h' := by
  obtain rfl : R = R' := funext fun m => propext (hR m)
  obtain rfl : S = S' := funext fun c => propext (hS c)
  exact hh

theorem Halts.trans (hh : Halts R S h g) (hh' : Halts R' S' g h') :
    Halts (fun m => R m ∨ R' m) (fun c => S c ∨ S' c) h h' := by
  refine ⟨fun m hm => ?_, fun m hm => ?_, fun c hc => ?_, fun c hc => ?_, hh'.next.trans hh.next⟩
  · by_cases hR : R m
    · by_cases hR' : R' m
      · rw [hh'.stopped m hR', hh.stopped m hR, Node.halt_halt]
      · rw [hh'.kept m hR', hh.stopped m hR]
    · rw [hh'.stopped m (hm.resolve_left hR), hh.kept m hR]
  · rw [hh'.kept m fun hR => hm (.inr hR), hh.kept m fun hR => hm (.inl hR)]
  · by_cases hS : S c
    · by_cases hS' : S' c
      · rw [hh'.idle c hS', hh.idle c hS, Option.map_map]
        rfl
      · rw [hh'.charts c hS', hh.idle c hS]
    · rw [hh'.idle c (hc.resolve_left hS), hh.charts c hS]
  · rw [hh'.charts c fun hS => hc (.inr hS), hh.charts c fun hS => hc (.inl hS)]

/-- Stopping changes no subchart. -/
theorem Halts.sameTree (hh : Halts R S h h') : h.SameTree h' := by
  refine ⟨fun m c => ?_, fun c => ?_, hh.next⟩
  · by_cases hm : R m
    · rw [hh.stopped m hm]
      exact Node.attacher_stop_iff _ c
    · rw [hh.kept m hm]
  · have hcount : h'.nodesCount c = h.nodesCount c := by
      unfold nodesCount
      by_cases hc : S c
      · rw [hh.idle c hc, Option.map_map]
        rfl
      · rw [hh.charts c hc]
    rw [nodeList, hcount, nodeList]

/-- A node that is taken out of its container. -/
theorem nodes_detach_self (h : Heap) (n : NodeRef) : (h.detach n).nodes n =
    { h.nodes n with
      container := none
      linked := !Container.usesLink (h.nodes n).container && (h.nodes n).linked } := by
  have hremove : ∀ c, (h.remove c n).nodes n =
      { (h.unlink c n).nodes n with container := none } := by
    intro c
    unfold remove
    dsimp only
    split
    · exact nodes_setNode_self (h.unlink c n) n _
    · rw [nodes_note]
      exact nodes_setNode_self (h.unlink c n) n _
  unfold detach
  split
  · rename_i c hc
    rw [hremove, hc]
    cases c with
    | waiting a e =>
      have hu : (h.unlink (.waiting a e) n).nodes n = { h.nodes n with linked := false } := by
        unfold unlink unlinkRing
        exact nodes_setNode_self _ n _
      rw [hu]
      rfl
    | _ => rfl
  · rename_i hc
    rw [hc]
    cases hd : h.nodes n with
    | mk => simp_all [Container.usesLink]

/-- Nodes of one list, each stopped with its tree. -/
theorem halts_foldl {f : Heap → NodeRef → Heap} (ks : List NodeRef)
    (hf : ∀ g, h.SameTree g → ∀ k ∈ ks, Halts (h.Below k) (h.Hung k) g (f g k)) (g : Heap)
    (hg : h.SameTree g) :
    Halts (fun m => ∃ k ∈ ks, h.Below k m) (fun c => ∃ k ∈ ks, h.Hung k c) g (ks.foldl f g) := by
  induction ks generalizing g with
  | nil => exact (Halts.refl g).congr (by simp) (by simp)
  | cons k ks ih =>
    have hk := hf g hg k List.mem_cons_self
    have hks := ih (fun g hg k hk => hf g hg k (List.mem_cons_of_mem _ hk)) _ (hg.trans hk.sameTree)
    exact (hk.trans hks).congr (by simp) (by simp)

/-- Charts that are there have been made. -/
def Numbered (h : Heap) : Prop := ∀ c, h.nodeList c ≠ [] → c < h.nextChart

theorem SameTree.numbered (hs : h.SameTree g) (hn : h.Numbered) : g.Numbered := by
  intro c hc
  rw [hs.next]
  exact hn c (hs.nodeList c ▸ hc)

/-! ### One node -/

/-- The status and the event of the node are written first. -/
def stopSelf (h : Heap) (n : NodeRef) : Heap := h.act n Node.stop (.stop n (h.nodes n).status)

@[simp] theorem charts_stopSelf (h : Heap) (n : NodeRef) : (h.stopSelf n).charts = h.charts := rfl

@[simp] theorem nextChart_stopSelf (h : Heap) (n : NodeRef) :
    (h.stopSelf n).nextChart = h.nextChart := rfl

theorem nodes_stopSelf_self (h : Heap) (n : NodeRef) :
    (h.stopSelf n).nodes n = (h.nodes n).stop := nodes_setNode_self h n Node.stop

theorem nodes_stopSelf_of_ne (hm : m ≠ n) : (h.stopSelf n).nodes m = h.nodes m :=
  nodes_setNode_of_ne hm _

theorem sameTree_stopSelf (h : Heap) (n : NodeRef) : h.SameTree (h.stopSelf n) := by
  refine ⟨fun m c => ?_, fun _ => rfl, rfl⟩
  rcases eq_or_ne m n with rfl | hm
  · rw [nodes_stopSelf_self]
    exact Node.attacher_stop_iff _ c
  · rw [nodes_stopSelf_of_ne hm]

/-- A node that has been written leaves its container last. -/
theorem nodes_detach_of_stop (hg : g.nodes n = (h.nodes n).stop) :
    (g.detach n).nodes n = (h.nodes n).halt := by
  rw [nodes_detach_self, hg]
  rfl

/-- A node without a subchart. -/
theorem stopNode_of_leaf (fuel : ℕ) (hno : ∀ c, (h.nodes n).attacher ≠ some (.subchart c)) :
    stopNode (fuel + 1) h n = (h.stopSelf n).detach n := by
  have hno' : ∀ c, ((h.stopSelf n).nodes n).attacher ≠ some (.subchart c) :=
    fun c hc => hno c (((sameTree_stopSelf h n).attacher n c).mp hc)
  rw [stopNode]
  split
  · exact absurd ‹_› (hno' _)
  · rfl

/-- A node with a subchart stops the nodes of the subchart, one after the other. -/
theorem stopNode_of_subchart (fuel : ℕ) (hc : (h.nodes n).attacher = some (.subchart c)) :
    stopNode (fuel + 1) h n = ((((h.nodeList c).foldl (stopNode fuel) (h.stopSelf n)).setChart c
      ({ · with status := .idle })).note (.chartStop c)).detach n := by
  have hc' : ((h.stopSelf n).nodes n).attacher = some (.subchart c) :=
    ((sameTree_stopSelf h n).attacher n c).mpr hc
  change Heap.detach (_ : Heap) n = _
  rw [show (h.act n Node.stop (.stop n (h.nodes n).status)) = h.stopSelf n from rfl, hc']
  rfl

theorem halts_of_leaf (hno : ∀ c, (h.nodes n).attacher ≠ some (.subchart c)) :
    Halts (h.Below n) (h.Hung n) h ((h.stopSelf n).detach n) := by
  have hbelow : ∀ m, h.Below n m ↔ m = n := by
    intro m
    rw [below_iff]
    refine or_iff_left ?_
    rintro ⟨c, hc, -⟩
    exact hno c hc
  have hhung : ∀ d, ¬h.Hung n d := by
    intro d hd
    obtain ⟨c, hc, -⟩ := hung_iff.mp hd
    exact hno c hc
  refine ⟨fun m hm => ?_, fun m hm => ?_, fun d hd => absurd hd (hhung d), fun d _ => ?_, ?_⟩
  · obtain rfl := (hbelow m).mp hm
    exact nodes_detach_of_stop (nodes_stopSelf_self h m)
  · have hmn : m ≠ n := fun he => hm ((hbelow m).mpr he)
    rw [nodes_detach_of_ne hmn, nodes_stopSelf_of_ne hmn]
  · rw [charts_detach, charts_stopSelf]
  · rw [nextChart_detach, nextChart_stopSelf]

/-- The subchart of a node has been stopped down to its last node. -/
theorem halts_of_subchart (hr : h.Ranked) (hc : (h.nodes n).attacher = some (.subchart c))
    (hfold : Halts (fun m => ∃ k ∈ h.nodeList c, h.Below k m)
      (fun d => ∃ k ∈ h.nodeList c, h.Hung k d) (h.stopSelf n) g) :
    Halts (h.Below n) (h.Hung n) h
      (((g.setChart c ({ · with status := .idle })).note (.chartStop c)).detach n) := by
  have hnot : ¬∃ k ∈ h.nodeList c, h.Below k n := by
    rintro ⟨k, hk, hb⟩
    obtain ⟨i, -, rfl⟩ := List.mem_map.mp hk
    exact Nat.not_lt.mpr (hb.chart_le hr) (hr n c hc)
  have hcharts : ∀ d, (((g.setChart c ({ · with status := .idle })).note
      (.chartStop c)).detach n).charts d =
      if d = c then (g.charts c).map ({ · with status := .idle }) else g.charts d := by
    intro d
    rw [charts_detach]
    exact Function.update_apply ..
  have hhung : ∀ d, h.Hung n d ↔ d = c ∨ ∃ k ∈ h.nodeList c, h.Hung k d := by
    intro d
    rw [hung_iff, hc]
    simp
  have hbelow : ∀ m, h.Below n m ↔ m = n ∨ ∃ k ∈ h.nodeList c, h.Below k m := by
    intro m
    rw [below_iff, hc]
    simp
  refine ⟨fun m hm => ?_, fun m hm => ?_, fun d hd => ?_, fun d hd => ?_, ?_⟩
  · rcases eq_or_ne m n with rfl | hmn
    · exact nodes_detach_of_stop ((hfold.kept m hnot).trans (nodes_stopSelf_self h m))
    · rw [nodes_detach_of_ne hmn]
      exact (hfold.stopped m (((hbelow m).mp hm).resolve_left hmn)).trans
        (congrArg Node.halt (nodes_stopSelf_of_ne hmn))
  · have hmn : m ≠ n := fun he => hm ((hbelow m).mpr (.inl he))
    rw [nodes_detach_of_ne hmn]
    exact (hfold.kept m fun hk => hm ((hbelow m).mpr (.inr hk))).trans (nodes_stopSelf_of_ne hmn)
  · rw [hcharts]
    by_cases hk : ∃ k ∈ h.nodeList c, h.Hung k d
    · split
      · subst d
        rw [hfold.idle c hk, Option.map_map]
        rfl
      · exact hfold.idle d hk
    · obtain rfl : d = c := ((hhung d).mp hd).resolve_right hk
      rw [if_pos rfl, hfold.charts d hk]
      rfl
  · rw [hcharts, if_neg fun he => hd ((hhung d).mpr (.inl he))]
    exact hfold.charts d fun hk => hd ((hhung d).mpr (.inr hk))
  · rw [nextChart_detach]
    exact hfold.next

/-- **`Node::Stop`** stops the tree below the node. -/
theorem halts_stopNode (fuel : ℕ) (h : Heap) (n : NodeRef) (hr : h.Ranked) (hnum : h.Numbered)
    (hn : n.chart < h.nextChart) (hfuel : h.nextChart < fuel + n.chart) :
    Halts (h.Below n) (h.Hung n) h (stopNode fuel h n) := by
  induction fuel generalizing h n with
  | zero => exact absurd (Nat.zero_add n.chart ▸ hfuel) (Nat.lt_asymm hn)
  | succ fuel ih =>
    have hdown : ∀ a b c : ℕ, a < fuel + 1 + b → b < c → a < fuel + c := by omega
    by_cases hsub : ∃ c, (h.nodes n).attacher = some (.subchart c)
    · obtain ⟨c, hc⟩ := hsub
      rw [stopNode_of_subchart fuel hc]
      refine halts_of_subchart hr hc ?_
      -- A node of the subchart finds the tree as it was.
      refine halts_foldl _ (fun g hg k hk => ?_) _ (sameTree_stopSelf h n)
      have hck : k.chart = c := by
        obtain ⟨i, -, rfl⟩ := List.mem_map.mp hk
        rfl
      have hcn : c < h.nextChart := hnum c (List.ne_nil_of_mem hk)
      refine (ih g k (hg.ranked hr) (hg.numbered hnum) ?_ ?_).congr (fun m => hg.below_iff)
        fun d => hg.hung_iff
      · rw [hg.next, hck]
        exact hcn
      · rw [hg.next, hck]
        exact hdown _ _ _ hfuel (hr n c hc)
    · rw [stopNode_of_leaf fuel fun c hc => hsub ⟨c, hc⟩]
      exact halts_of_leaf fun c hc => hsub ⟨c, hc⟩

end Heap

end Asyncflow
