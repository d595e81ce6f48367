import Asyncflow.Moves.Step

/-!
# What stopping a node leaves alone

`Node::Stop` goes down the tree of subcharts. `Asyncflow.Heap.stopNode_invariant` is the
induction rule for it: whatever every write on the way keeps, the whole operation keeps.

Two invariants say where the tree of subcharts lies and that leaving a list is safe.
`Asyncflow.Heap.Ranked`: a subchart is younger than the chart of the node it hangs on, so
that stopping a node touches no other node of its own chart. `Asyncflow.Heap.Tied`: a node
whose container is a waiting list has its link set, so that taking it out is no undefined
behaviour.
-/

namespace Asyncflow

namespace Heap

variable {h h' : Heap} {n m : NodeRef} {c : ChartId} {flows : ℕ → Prop} {may : Permit → Prop}
  {D : NodeRef → Prop}

/-- **The induction rule of `Node::Stop`**, for the nodes `R` and charts `S` it comes to. -/
theorem stopNode_invariant {P : Heap → Prop} {R : NodeRef → Prop} {S : ChartId → Prop}
    (hact : ∀ g m, P g → R m → P (g.act m Node.stop (.stop m (g.nodes m).status)))
    (hdetach : ∀ g m, P g → R m → P (g.detach m))
    (hchart : ∀ g c, P g → S c → P
      ((g.setChart c ({ · with status := .idle })).note (.chartStop c)))
    (hclosed : ∀ g m c, P g → R m → (g.nodes m).attacher = some (.subchart c) →
      S c ∧ ∀ m' : NodeRef, m'.chart = c → R m')
    (fuel : ℕ) (h : Heap) (n : NodeRef) (hp : P h) (hn : R n) : P (stopNode fuel h n) := by
  induction fuel generalizing h n with
  | zero => exact hp
  | succ fuel ih =>
    have ha := hact h n hp hn
    unfold stopNode
    generalize h.act n Node.stop (.stop n (h.nodes n).status) = g at ha ⊢
    refine hdetach _ _ ?_ hn
    split
    · rename_i c hc
      obtain ⟨hs, hr⟩ := hclosed g n c ha hn hc
      refine hchart _ _ ?_ hs
      -- The nodes of the subchart are stopped one after the other.
      have hall : ∀ m ∈ g.nodeList c, R m := by
        intro m hm
        obtain ⟨i, -, rfl⟩ := List.mem_map.mp hm
        exact hr ⟨c, i⟩ rfl
      generalize g.nodeList c = ms at hall
      clear hc
      induction ms generalizing g with
      | nil => exact ha
      | cons m ms ihm =>
        exact ihm _ (ih g m ha (hall m List.mem_cons_self)) fun m' hm' =>
          hall m' (List.mem_cons_of_mem m hm')
    · exact ha

/-! ### Subcharts are younger than their owner nodes -/

/-- A subchart is younger than the chart of the node it hangs on. -/
def Ranked (h : Heap) : Prop := ∀ n c, (h.nodes n).attacher = some (.subchart c) → n.chart < c

theorem ranked_of_move (hm : Move flows may D h h') (hr : h.Ranked) : h'.Ranked := by
  intro n c hc
  rcases attacher_of_move hm hc with hc | hh
  · exact hr n c hc
  · cases hh with
    | subchart hlt _ => exact hlt
    | rest hne _ => exact absurd rfl (hne c)

theorem ranked_act (hr : h.Ranked) (n : NodeRef) {f : Node → Node} {o : Obs} (hw : h.Writes n f o) :
    (h.act n f o).Ranked := by
  have hm : Move (fun _ => True) (fun _ => False) (fun _ => False) h (h.act n f o) :=
    .act hw fun _ => ⟨0, trivial⟩
  exact ranked_of_move hm hr

/-- Stopping a node only comes to that node and to younger charts. -/
theorem stopNode_ranked {P : Heap → Prop} (n : NodeRef)
    (hact : ∀ g m, P g → m = n ∨ n.chart < m.chart →
      P (g.act m Node.stop (.stop m (g.nodes m).status)))
    (hdetach : ∀ g m, P g → m = n ∨ n.chart < m.chart → P (g.detach m))
    (hchart : ∀ g c, P g → n.chart < c →
      P ((g.setChart c ({ · with status := .idle })).note (.chartStop c)))
    (hr : h.Ranked) (hp : P h) : P (h.stop n) := by
  have hall := stopNode_invariant (P := fun g => g.Ranked ∧ P g)
    (R := fun m => m = n ∨ n.chart < m.chart) (S := fun c => n.chart < c) ?_ ?_ ?_ ?_
    (h.nextChart + 1) h n ⟨hr, hp⟩ (.inl rfl)
  · exact hall.2
  · rintro g m ⟨hg, hpg⟩ hm
    exact ⟨ranked_act hg m .stop, hact g m hpg hm⟩
  · rintro g m ⟨hg, hpg⟩ hm
    refine ⟨fun k c hc => hg k c ?_, hdetach g m hpg hm⟩
    rwa [attacher_detach] at hc
  · rintro g c ⟨hg, hpg⟩ hc
    exact ⟨hg, hchart g c hpg hc⟩
  · rintro g m c ⟨hg, -⟩ hm hc
    have hlt : n.chart < c := by
      have hmc := hg m c hc
      rcases hm with rfl | hm
      · exact hmc
      · exact Nat.lt_trans hm hmc
    refine ⟨hlt, ?_⟩
    rintro m' rfl
    exact .inr hlt

/-- **Stopping a node leaves the other nodes of its chart, and of older charts, alone.** -/
theorem nodes_stop_of_le (hr : h.Ranked) (hm : m ≠ n) (hle : m.chart ≤ n.chart) :
    (h.stop n).nodes m = h.nodes m := by
  have hne : ∀ k : NodeRef, k = n ∨ n.chart < k.chart → m ≠ k := by
    rintro k (rfl | hk) rfl
    · exact hm rfl
    · exact Nat.not_lt.mpr hle hk
  refine stopNode_ranked (P := fun g => g.nodes m = h.nodes m) n ?_ ?_ ?_ hr rfl
  · intro g k hg hk
    exact (nodes_setNode_of_ne (hne k hk) _).trans hg
  · intro g k hg hk
    exact (nodes_detach_of_ne (hne k hk)).trans hg
  · exact fun _ _ hg _ => hg

theorem charts_stop_of_le (hr : h.Ranked) (hle : c ≤ n.chart) :
    (h.stop n).charts c = h.charts c := by
  refine stopNode_ranked (P := fun g => g.charts c = h.charts c) n ?_ ?_ ?_ hr rfl
  · exact fun _ _ hg _ => hg
  · intro g k hg _
    rw [charts_detach]
    exact hg
  · intro g k hg hk
    refine (Function.update_of_ne ?_ ..).trans hg
    rintro rfl
    exact Nat.not_lt.mpr hle hk

/-- **The stopped node itself** is left as `Node::Stop` writes it. -/
theorem field_stop {β : Type} {g : Node → β} (hg : Inner g) (hr : h.Ranked) (n : NodeRef) :
    g ((h.stop n).nodes n) = g (h.nodes n).stop := by
  have hself : ∀ (k : Heap), k.Ranked → g (k.nodes n) = g (h.nodes n).stop → ∀ fuel m,
      n.chart < m.chart → (stopNode fuel k m).Ranked ∧
        g ((stopNode fuel k m).nodes n) = g (h.nodes n).stop := by
    intro k hk hn fuel m hm
    refine stopNode_invariant (P := fun k => k.Ranked ∧ g (k.nodes n) = g (h.nodes n).stop)
      (R := fun m => n.chart < m.chart) (S := fun _ => True) ?_ ?_ ?_ ?_ fuel k m ⟨hk, hn⟩ hm
    · rintro k m ⟨hk, hn⟩ hm
      have hne : n ≠ m := by
        rintro rfl
        exact Nat.lt_irrefl _ hm
      refine ⟨ranked_act hk m .stop, ?_⟩
      rw [nodes_act, nodes_setNode_of_ne hne]
      exact hn
    · rintro k m ⟨hk, hn⟩ -
      refine ⟨fun a c hc => hk a c (by rwa [attacher_detach] at hc), ?_⟩
      exact (field_detach k m n hg).trans hn
    · exact fun _ _ hk _ => hk
    · rintro k m c ⟨hk, -⟩ hm hc
      refine ⟨trivial, ?_⟩
      rintro m' rfl
      exact Nat.lt_trans hm (hk m _ hc)
  have ha : (h.act n Node.stop (.stop n (h.nodes n).status)).Ranked := ranked_act hr n .stop
  have hn : g ((h.act n Node.stop (.stop n (h.nodes n).status)).nodes n) = g (h.nodes n).stop :=
    congrArg g (nodes_setNode_self h n Node.stop)
  unfold stop stopNode
  generalize h.act n Node.stop (.stop n (h.nodes n).status) = k at ha hn ⊢
  rw [field_detach _ n n hg]
  split
  · rename_i c hc
    have hlt : ∀ m ∈ k.nodeList c, n.chart < m.chart := by
      intro m hm
      obtain ⟨i, -, rfl⟩ := List.mem_map.mp hm
      exact ha n c hc
    generalize k.nodeList c = ms at hlt
    clear hc
    induction ms generalizing k with
    | nil => exact hn
    | cons m ms ih =>
      obtain ⟨hk, hkn⟩ := hself k ha hn h.nextChart m (hlt m List.mem_cons_self)
      exact ih _ hk hkn fun m' hm' => hlt m' (List.mem_cons_of_mem m hm')
  · exact hn

/-- Stopping a node puts nothing on an executor. -/
theorem nodeList_stop (hr : h.Ranked) (n : NodeRef) {l : ℕ} (hl : (h.stack l).nodeList = []) :
    ((h.stop n).stack l).nodeList = [] := by
  refine stopNode_ranked (P := fun g => (g.stack l).nodeList = []) n ?_ ?_ ?_ hr hl
  · exact fun _ _ hg _ => hg
  · intro g m hg _
    refine List.eq_nil_iff_forall_not_mem.mpr fun k hk => ?_
    have hk' : k ∈ (g.detach m).content (.executor l) := hk
    have hmem : k ∈ (g.stack l).nodeList := mem_content_of_detach hk'
    rw [hg] at hmem
    cases hmem
  · exact fun _ _ hg _ => hg

/-! ### Links -/

/-- A node whose container is a waiting list has its link set. -/
def Tied (h : Heap) : Prop :=
  ∀ n a e, (h.nodes n).container = some (.waiting a e) → (h.nodes n).linked = true

theorem tied_dropWaiting (es : List EventId) (a : AgentId) (ht : h.Tied) :
    (h.dropWaiting es a).Tied := by
  intro n b e hc
  by_cases hn : n ∈ h.waitingFor es a
  · rw [nodes_dropWaiting_of_mem hn] at hc
    cases hc
  · rw [nodes_dropWaiting_of_not_mem hn] at hc ⊢
    exact ht n b e hc

theorem tied_of_nodes (hh : h'.nodes = h.nodes) (ht : h.Tied) : h'.Tied := by
  intro n a e hc
  rw [hh] at hc ⊢
  exact ht n a e hc

theorem tied_setNode (m : NodeRef) {f : Node → Node}
    (hf : ∀ d, (f d).container = d.container ∧ (f d).linked = d.linked) (ht : h.Tied) :
    (h.setNode m f).Tied := by
  intro n a e hc
  rw [field_setNode h m n Node.container fun d => (hf d).1] at hc
  rw [field_setNode h m n Node.linked fun d => (hf d).2]
  exact ht n a e hc

theorem tied_act (m : NodeRef) {f : Node → Node} {o : Obs}
    (hf : ∀ d, (f d).container = d.container ∧ (f d).linked = d.linked) (ht : h.Tied) :
    (h.act m f o).Tied := tied_setNode m hf ht

/-- The container pointer is cleared. -/
theorem tied_clear (m : NodeRef) {f : Node → Node} (hf : ∀ d, (f d).container = none)
    (ht : h.Tied) : (h.setNode m f).Tied := by
  intro n a e hc
  rw [nodes_setNode] at hc ⊢
  split at hc
  · rw [hf] at hc
    cases hc
  · rw [if_neg ‹_›]
    exact ht n a e hc

theorem tied_remove (m : NodeRef) (d : Container) (ht : h.Tied) : (h.remove d m).Tied := by
  intro n a e hc
  rcases eq_or_ne n m with rfl | hm
  · rw [container_remove] at hc
    cases hc
  · rw [nodes_remove_of_ne hm] at hc ⊢
    exact ht n a e hc

theorem tied_detach (m : NodeRef) (ht : h.Tied) : (h.detach m).Tied := by
  unfold detach
  split
  · exact tied_remove m _ ht
  · exact ht

theorem tied_push (m : NodeRef) (d : Container) (ht : h.Tied) : (h.push d m).Tied := by
  intro n a e hc
  rcases eq_or_ne n m with rfl | hm
  · rw [container_push] at hc
    obtain rfl := Option.some.inj hc
    simp [push, link]
  · rw [nodes_push_of_ne hm] at hc ⊢
    exact ht n a e hc

theorem tied_removeNode (m : NodeRef) (ht : h.Tied) : (h.removeNode m).Tied :=
  tied_of_nodes (h := h.remove .asyncWaiting m) rfl (tied_remove m _ ht)

theorem tied_activateNode (m : NodeRef) (skip : Bool) (ht : h.Tied) :
    (h.activateNode m skip).Tied := by
  unfold activateNode
  split
  · exact ht
  · exact tied_setNode m (fun _ => ⟨rfl, rfl⟩) (tied_push m _ ht)

theorem tied_of_move (hm : Move flows may D h h') (ht : h.Tied) : h'.Tied := by
  cases hm with
  | alike ha => exact tied_of_nodes ha.nodes ht
  | act hw _ => exact tied_setNode (h := h) _ hw.rim ht
  | flag m b => exact tied_setNode m (by intro; exact ⟨rfl, rfl⟩) ht
  | unskip m => exact tied_setNode m (by intro; exact ⟨rfl, rfl⟩) ht
  | detach hn => exact tied_detach _ ht
  | removeFree l hc => exact tied_remove _ _ ht
  | @wait m a e hn =>
    have hp : (h.push (.waiting a e) m).Tied := tied_push m (.waiting a e) ht
    exact tied_act m (f := ({ · with status := .running })) (fun _ => ⟨rfl, rfl⟩) hp
  | @suspend m hn =>
    exact tied_push (h := h.setNode m ({ · with status := .running })) m .asyncWaiting
      (tied_setNode m (by intro; exact ⟨rfl, rfl⟩) ht)
  | @continued m b hn ha =>
    exact tied_act m (by intro; exact ⟨rfl, rfl⟩) (tied_activateNode m true (tied_removeNode m ht))
  | @cancelled m stop hn ha =>
    unfold cancelNode
    split
    · exact tied_removeNode m ht
    · exact tied_act m (by intro; exact ⟨rfl, rfl⟩)
        (tied_activateNode m true (tied_removeNode m ht))
  | @takeActivated m ns ha hn =>
    exact tied_clear (h := { h with activated := ns }) m (fun _ => rfl) ht
  | @resume m skip r hc =>
    exact tied_removeNode m (tied_act m (by intro; exact ⟨rfl, rfl⟩) ht)
  | @started c x hx hne =>
    simp only [markStarted, hx, hne, ↓reduceIte]
    exact tied_act (h := h.setChart c ({ · with status := .running })) _
      (by intro; exact ⟨rfl, rfl⟩) ht
  | create d o hp ho =>
    intro n a e hc
    have hn : (h.initChart d o).nodes n = if n.chart = h.nextChart then {} else h.nodes n := rfl
    rw [hn] at hc ⊢
    split at hc
    · cases hc
    · rw [if_neg ‹_›]
      exact ht n a e hc
  | forget c =>
    have hs : (h.setOwner c ({ · with attacher := none })).Tied := by
      unfold setOwner
      split
      · exact tied_setNode _ (by intro; exact ⟨rfl, rfl⟩) ht
      · exact ht
    exact hs
  | dropWaiting es a => exact tied_dropWaiting es a ht
  | @beginFlow m l a hfl hn hv =>
    have hs : (h.act m ({ · with status := .idle }) (.flow m)).Tied :=
      tied_act m (by intro; exact ⟨rfl, rfl⟩) ht
    exact tied_push (h := (h.act m ({ · with status := .idle }) (.flow m)).setExecutor l
      ({ · with currentAgent := some a, nodeList := [] })) m _ hs
  | @pop m ns l hfl hl =>
    simp only [Heap.pop, hl]
    split
    · exact tied_clear (h := h.setExecutor l _) m (fun _ => rfl) ht
    · exact ht
  | @child p i l hfl hi hn =>
    simp only [addChild, hi, ↓reduceIte]
    exact tied_push _ _ (tied_act _ (by intro; exact ⟨rfl, rfl⟩) ht)
  | @continueFlow m l hfl hn =>
    exact tied_push m _ (tied_act m (by intro; exact ⟨rfl, rfl⟩) ht)
  | @deliver r rs m ns hh hr =>
    exact tied_clear (h := { h with handling := { r with nodes := ns } :: rs }) m
      (f := ({ · with container := none, linked := false, status := .idle })) (fun _ => rfl) ht
  | load | patch | manage | current | agent | clearHistory | closeFlow | swap | dropHandling =>
    exact tied_of_nodes rfl ht

/-- Taking a tied node out of its container is no undefined behaviour. -/
theorem ub_detach (ht : h.Tied) (n : NodeRef) : (h.detach n).ub = h.ub := by
  unfold detach
  split
  · rename_i d hd
    have hu : (h.unlink d n).ub = h.ub := by
      cases d with
      | waiting a e =>
        have hl := ht n a e hd
        change (h.ub || !(h.nodes n).linked) = h.ub
        rw [hl]
        exact Bool.or_false _
      | _ => rfl
    unfold remove
    split <;> exact hu
  · rfl

theorem ub_stop (hr : h.Ranked) (ht : h.Tied) (n : NodeRef) : (h.stop n).ub = h.ub := by
  refine (stopNode_ranked (P := fun g => g.Tied ∧ g.ub = h.ub) n ?_ ?_ ?_ hr ⟨ht, rfl⟩).2
  · rintro g m ⟨hg, hu⟩ -
    exact ⟨tied_setNode m (fun _ => ⟨rfl, rfl⟩) hg, hu⟩
  · rintro g m ⟨hg, hu⟩ -
    exact ⟨tied_detach m hg, (ub_detach hg m).trans hu⟩
  · exact fun _ _ hg _ => hg

end Heap

namespace State

variable {cfg : Config} {s : State}

/-- What stopping a node relies on. -/
structure Stoppable (h : Heap) : Prop where
  ranked : h.Ranked
  tied : h.Tied

theorem stoppable_of_reachable (h : Reachable cfg s) : Stoppable s.heap := by
  have hall : Stoppable s.heap ∧ s.Wf := by
    refine h.invariant (I := fun s => Stoppable s.heap ∧ s.Wf) ⟨⟨nofun, nofun⟩, wf_init⟩ ?_
    rintro u a v ⟨hu, hw⟩ - hs
    refine ⟨?_, wf_of_step hw hs⟩
    have hd : Heap.Does (fun _ => True) (fun _ => True) (fun _ => False) u.heap v.heap :=
      does_of_step (fun _ _ => trivial) hw hs fun _ _ => trivial
    exact Traced.Does.invariant (I := Stoppable) hd
      (fun hm hi => ⟨Heap.ranked_of_move hm hi.ranked, Heap.tied_of_move hm hi.tied⟩) hu
  exact hall.1

end State

end Asyncflow
