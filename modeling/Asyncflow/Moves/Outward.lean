import Asyncflow.Moves.Move

/-!
# What moves do to charts and attachers

Most moves are about nodes and lists only; `Asyncflow.Heap.outer_of_move` says which are not.
No move gives a chart that is there other nodes or another owner node
(`Asyncflow.Heap.keeps_of_move`), so that a node that has been made stays made, and
`Asyncflow.Heap.attacher_of_move` says what a move can hang on a node.
-/

namespace Asyncflow

namespace Heap

variable {h h' : Heap} {n : NodeRef} {flows : ℕ → Prop} {may : Permit → Prop} {D : NodeRef → Prop}

/-! ### Charts -/

/-- The heap without its nodes, its lists and its history. -/
def outer (h : Heap) : Heap :=
  { h with
    nodes := fun _ => {}, waiting := fun _ _ => [], handling := [], stack := fun _ => {}
    currentIndex := 0, asyncWaiting := [], activated := [], nodesSet := [], nextContext := 0
    log := [], ub := false }

theorem outer_unlink (h : Heap) (c : Container) (n : NodeRef) :
    (h.unlink c n).outer = h.outer := by
  cases c <;> rfl

theorem outer_link (h : Heap) (c : Container) (n : NodeRef) : (h.link c n).outer = h.outer := by
  cases c <;> rfl

theorem outer_remove (h : Heap) (c : Container) (n : NodeRef) :
    (h.remove c n).outer = h.outer := by
  unfold remove
  split <;> exact outer_unlink ..

theorem outer_detach (h : Heap) (n : NodeRef) : (h.detach n).outer = h.outer := by
  unfold detach
  split
  · exact outer_remove ..
  · rfl

theorem outer_push (h : Heap) (c : Container) (n : NodeRef) : (h.push c n).outer = h.outer :=
  (outer_link ..).trans (outer_detach ..)

theorem outer_removeNode (h : Heap) (n : NodeRef) : (h.removeNode n).outer = h.outer :=
  outer_remove ..

theorem outer_activateNode (h : Heap) (n : NodeRef) (skip : Bool) :
    (h.activateNode n skip).outer = h.outer := by
  unfold activateNode
  split
  · rfl
  · exact outer_push ..

/-- The moves that concern charts, chart data or agents. -/
inductive Outward (may : Permit → Prop) (h : Heap) : Heap → Prop
  | alike {g : Heap} : h.Alike g → Outward may h g
  | load (data) : may (.load data) → Outward may h (h.importChart data)
  | patch {d r} (doc) : may (.patch doc) → h.chartDataDict doc.path = some d →
      (h.chartData d).bind (·.patchFromYaml doc) = some r → Outward may h (h.setData d fun _ => r.2)
  | manage (agents agentIdCount gameObjects destroying nextDestroying) : may .agents →
      Outward may h { h with
        agents := agents, agentIdCount := agentIdCount, gameObjects := gameObjects
        destroying := destroying, nextDestroying := nextDestroying }
  | started {c x} : h.charts c = some x → x.nodeCount ≠ 0 → Outward may h (h.markStarted c)
  | create (d o) : may (.create d) → (∀ n, o = some n → h.Made n) →
      Outward may h (h.initChart d o)
  | forget (c) : Outward may h (h.forgetChart c)

/-- The other moves are about nodes and lists only. -/
theorem outer_of_move (hm : Move flows may D h h') : h'.outer = h.outer ∨ h.Outward may h' := by
  cases hm with
  | alike ha => exact .inr (.alike ha)
  | load data hp => exact .inr (.load data hp)
  | patch doc hp hd hr => exact .inr (.patch doc hp hd hr)
  | manage _ _ _ _ _ hp => exact .inr (.manage _ _ _ _ _ hp)
  | started hx hne => exact .inr (.started hx hne)
  | create d o hp ho => exact .inr (.create d o hp ho)
  | forget c => exact .inr (.forget c)
  | detach hn => exact .inl (outer_detach ..)
  | removeFree l hc => exact .inl (outer_remove ..)
  | wait a e hn => exact .inl (outer_push h ..)
  | @suspend n hn => exact .inl (outer_push (h.setNode n _) ..)
  | continued b hn ha => exact .inl ((outer_activateNode ..).trans (outer_removeNode ..))
  | cancelled stop hn ha =>
    refine .inl ?_
    unfold cancelNode
    split
    · exact outer_removeNode ..
    · exact (outer_activateNode ..).trans (outer_removeNode ..)
  | resume skip r hc => exact .inl (outer_removeNode ..)
  | beginFlow l a hfl hn hv => exact .inl (outer_push ((h.act ..).setExecutor ..) ..)
  | pop l hfl hl =>
    refine .inl ?_
    simp only [Heap.pop, hl]
    split <;> rfl
  | child l hfl hi hn =>
    refine .inl ?_
    simp only [addChild, hi, ↓reduceIte]
    exact outer_push (h.act ..) ..
  | continueFlow l hfl hn => exact .inl (outer_push (h.act ..) ..)
  | _ => exact .inl rfl

/-- Charts that have been made keep their nodes and their owner node while they are there. -/
structure Keeps (h h' : Heap) : Prop where
  next : h.nextChart ≤ h'.nextChart
  charts : ∀ c < h.nextChart, ∀ x', h'.charts c = some x' → ∃ x, h.charts c = some x ∧
    x'.nodeCount = x.nodeCount ∧ x'.owner = x.owner

theorem Keeps.refl (h : Heap) : h.Keeps h := ⟨Nat.le_refl _, fun _ _ x hx => ⟨x, hx, rfl, rfl⟩⟩

theorem Keeps.trans {g : Heap} (hk : h.Keeps g) (hk' : g.Keeps h') : h.Keeps h' where
  next := Nat.le_trans hk.next hk'.next
  charts c hc x' hx' := by
    obtain ⟨y, hy, hn, ho⟩ := hk'.charts c (Nat.lt_of_lt_of_le hc hk.next) x' hx'
    obtain ⟨x, hx, hn', ho'⟩ := hk.charts c hc y hy
    exact ⟨x, hx, hn.trans hn', ho.trans ho'⟩

theorem keeps_of_charts (hnext : h'.nextChart = h.nextChart) (hcharts : h'.charts = h.charts) :
    h.Keeps h' where
  next := Nat.le_of_eq hnext.symm
  charts _ _ x hx := ⟨x, hcharts ▸ hx, rfl, rfl⟩

theorem nextChart_setOwner (h : Heap) (c : ChartId) (f : Node → Node) :
    (h.setOwner c f).nextChart = h.nextChart := by
  unfold setOwner
  split <;> rfl

theorem keeps_of_outward (ho : h.Outward may h') : h.Keeps h' := by
  cases ho with
  | alike ha =>
    refine ⟨Nat.le_of_eq ha.nextChart.symm, fun c _ x' hx' => ?_⟩
    obtain ⟨x, hx, hd, hxo, -⟩ := ha.charts c x' hx'
    exact ⟨x, hx, hd.2, hxo⟩
  | load | patch | manage => exact keeps_of_charts rfl rfl
  | @started d x hx hne =>
    simp only [markStarted, hx, hne, ↓reduceIte]
    refine ⟨Nat.le_refl _, fun c _ x' hx' => ?_⟩
    have hx'' : Function.update h.charts d ((h.charts d).map ({ · with status := .running })) c =
        some x' := hx'
    rcases eq_or_ne c d with rfl | hcd
    · rw [Function.update_self] at hx''
      obtain ⟨y, hy, rfl⟩ := Option.map_eq_some_iff.mp hx''
      exact ⟨y, hy, rfl, rfl⟩
    · rw [Function.update_of_ne hcd] at hx''
      exact ⟨x', hx'', rfl, rfl⟩
  | create d o =>
    refine ⟨Nat.le_succ _, fun c hc x' hx' => ⟨x', ?_, rfl, rfl⟩⟩
    have hx'' : Function.update h.charts h.nextChart _ c = some x' := hx'
    rwa [Function.update_of_ne (Nat.ne_of_lt hc)] at hx''
  | forget d =>
    refine ⟨Nat.le_of_eq (nextChart_setOwner h d _).symm, fun c _ x' hx' => ⟨x', ?_, rfl, rfl⟩⟩
    have hx'' : Function.update h.charts d none c = some x' := hx'
    rcases eq_or_ne c d with rfl | hcd
    · rw [Function.update_self] at hx''
      cases hx''
    · rwa [Function.update_of_ne hcd] at hx''

/-- **Charts keep their nodes and their owner nodes.** -/
theorem keeps_of_move (hm : Move flows may D h h') : h.Keeps h' := by
  rcases outer_of_move hm with ho | ho
  · have hnext : h'.outer.nextChart = h.outer.nextChart := congrArg Heap.nextChart ho
    have hcharts : h'.outer.charts = h.outer.charts := congrArg Heap.charts ho
    exact keeps_of_charts hnext hcharts
  · exact keeps_of_outward ho

theorem keeps_of_does (hd : Does flows may D h h') : h.Keeps h' :=
  Traced.Does.invariant (I := h.Keeps) hd (fun hm hk => hk.trans (keeps_of_move hm)) (.refl h)

/-- Charts are never unmade. -/
theorem nextChart_le_of_move (hm : Move flows may D h h') : h.nextChart ≤ h'.nextChart :=
  (keeps_of_move hm).next

theorem nextChart_le_of_does (hd : Does flows may D h h') : h.nextChart ≤ h'.nextChart :=
  (keeps_of_does hd).next

/-- A node that has been made stays made. -/
theorem Made.of_keeps (hn : h.Made n) (hk : h.Keeps h') : h'.Made n := by
  refine ⟨Nat.lt_of_lt_of_le hn.1 hk.next, fun x' hx' => ?_⟩
  obtain ⟨x, hx, he, -⟩ := hk.charts _ hn.1 x' hx'
  rw [he]
  exact hn.2 x hx

/-! ### Attachers -/

/-- What a move can hang on a node: a younger chart whose owner node it is, a timer, and what
neither fires nor refers to a chart. -/
inductive Hangs (h : Heap) (n : NodeRef) : Attacher → Prop
  | subchart {c} : n.chart < c → h.ownerOf c = some n → Hangs h n (.subchart c)
  | timer : h.Made n → Hangs h n (.timer true)
  | rest {x} : (∀ c, x ≠ .subchart c) → x ≠ .timer true → Hangs h n x

/-- The writes that hang something on a node. -/
theorem attacher_of_writes {f : Node → Node} {o : Obs} {x : Attacher} (hw : h.Writes n f o)
    (hc : (f (h.nodes n)).attacher = some x) : (h.nodes n).attacher = some x ∨ h.Hangs n x := by
  cases hw with
  | stop =>
    have hc' : (h.nodes n).attacher.map Attacher.stop = some x := hc
    obtain ⟨y, hy, rfl⟩ := Option.map_eq_some_iff.mp hc'
    cases y with
    | subchart c => exact .inl hy
    | timer b | waitAll w => exact .inr (.rest nofun nofun)
  | waitAll args =>
    unfold Node.waitAll at hc
    dsimp only at hc
    split at hc <;>
      · cases hc
        exact .inr (.rest nofun nofun)
  | makeSubchart c' hlt ho =>
    cases hc
    exact .inr (.subchart hlt ho)
  | wait hn =>
    cases hc
    exact .inr (.timer hn)
  | fire =>
    cases hc
    exact .inr (.rest nofun nofun)
  | noAttacher => cases hc
  | ret r =>
    refine .inl ?_
    unfold Node.return at hc
    split at hc <;> exact hc
  | succ =>
    refine .inl ?_
    dsimp only [Node.count] at hc
    split at hc <;> exact hc
  | await | owner | subchart | run | cut => exact .inl hc

/-- **What a move hangs on a node**: in particular a subchart only on its owner node, which is
older. -/
theorem attacher_of_move {x : Attacher} (hm : Move flows may D h h')
    (hc : (h'.nodes n).attacher = some x) : (h.nodes n).attacher = some x ∨ h.Hangs n x := by
  have hset : ∀ (g : Heap) (m : NodeRef) (f : Node → Node), (∀ d, (f d).attacher = d.attacher) →
      ((g.setNode m f).nodes n).attacher = (g.nodes n).attacher :=
    fun g m f hf => field_setNode g m n Node.attacher hf
  cases hm with
  | alike ha => exact .inl (ha.nodes ▸ hc)
  | @act m f o hw _ =>
    rw [nodes_act, nodes_setNode] at hc
    split at hc
    · subst n
      exact attacher_of_writes hw hc
    · exact .inl hc
  | flag | unskip => exact .inl ((hset _ _ _ (by intro; rfl)).symm.trans hc)
  | detach => exact .inl (by simpa using hc)
  | removeFree => exact .inl (by simpa using hc)
  | @wait m a e hn =>
    have hw := hset (h.push (.waiting a e) m) m ({ · with status := .running }) fun _ => rfl
    exact .inl ((attacher_push ..).symm.trans (hw.symm.trans hc))
  | @suspend m hn =>
    have hs := hset h m ({ · with status := .running }) fun _ => rfl
    exact .inl (hs.symm.trans ((attacher_push ..).symm.trans hc))
  | continued b hn ha =>
    rw [continueNode, nodes_act, hset _ _ _ (by intro; rfl)] at hc
    unfold activateNode at hc
    split at hc
    · exact .inl (by simpa [removeNode] using hc)
    · rw [hset _ _ _ (by intro; rfl), attacher_push] at hc
      exact .inl (by simpa [removeNode] using hc)
  | cancelled stop hn ha =>
    unfold cancelNode at hc
    split at hc
    · exact .inl (by simpa [removeNode] using hc)
    · rw [nodes_act, hset _ _ _ (by intro; rfl)] at hc
      unfold activateNode at hc
      split at hc
      · exact .inl (by simpa [removeNode] using hc)
      · rw [hset _ _ _ (by intro; rfl), attacher_push] at hc
        exact .inl (by simpa [removeNode] using hc)
  | @takeActivated m ns ha hn =>
    have hs : ((h.takeActivated m ns).nodes n).attacher = (h.nodes n).attacher :=
      hset { h with activated := ns } m _ (by intro; rfl)
    exact .inl (hs.symm.trans hc)
  | @resume m skip r hf =>
    have ha := hset h m ({ · with skip := skip, result := r }) fun _ => rfl
    have hc' : (((h.act m ({ · with skip := skip, result := r }) (.resume m r)).remove .asyncWaiting
      m).nodes n).attacher = some x := hc
    rw [attacher_remove] at hc'
    exact .inl (ha.symm.trans hc')
  | @started c' y hx hne =>
    simp only [markStarted, hx, hne, ↓reduceIte] at hc
    exact .inl ((hset _ _ _ (by intro; rfl)).symm.trans hc)
  | create d o hp ho =>
    refine .inl ?_
    have hn : (h.initChart d o).nodes n = if n.chart = h.nextChart then {} else h.nodes n := rfl
    rw [hn] at hc
    split at hc
    · cases hc
    · exact hc
  | forget c' =>
    refine .inl ?_
    have hn : ((h.setOwner c' ({ · with attacher := none })).nodes n).attacher =
        some x := hc
    unfold setOwner at hn
    split at hn
    · rw [nodes_setNode] at hn
      split at hn
      · cases hn
      · exact hn
    · exact hn
  | dropWaiting es a =>
    rw [field_dropWaiting h n (g := Node.attacher) fun _ _ _ => rfl] at hc
    exact .inl hc
  | @beginFlow m l a hfl hn hv =>
    have hs := hset h m ({ · with status := .idle }) fun _ => rfl
    have hc' : ((((h.act m ({ · with status := .idle }) (.flow m)).setExecutor l
      ({ · with currentAgent := some a, nodeList := [] })).push (.executor l) m).nodes n).attacher =
        some x := hc
    rw [attacher_push] at hc'
    exact .inl (hs.symm.trans hc')
  | pop l hfl hl =>
    simp only [Heap.pop, hl] at hc
    split at hc
    · rw [hset _ _ _ (by intro; rfl)] at hc
      exact .inl hc
    · exact .inl hc
  | @child p i l hfl hi hn =>
    simp only [addChild, hi, ↓reduceIte, attacher_push] at hc
    exact .inl ((hset h _ ({ · with preNodeId := p.id }) fun _ => rfl).symm.trans hc)
  | @continueFlow m l hfl hn =>
    have hs := hset h m ({ · with runFlag := true }) fun _ => rfl
    have hc' : (((h.act m ({ · with runFlag := true }) (.goOn m)).push (.executor l) m).nodes
      n).attacher = some x := hc
    rw [attacher_push] at hc'
    exact .inl (hs.symm.trans hc')
  | @deliver r rs m ns hh hr =>
    have hs : ((h.takeHandled r rs m ns).nodes n).attacher = (h.nodes n).attacher :=
      hset { h with handling := { r with nodes := ns } :: rs } m
        ({ · with container := none, linked := false, status := .idle }) fun _ => rfl
    exact .inl (hs.symm.trans hc)
  | load | patch | manage | current | agent | clearHistory | closeFlow | swap | dropHandling =>
    exact .inl hc

end Heap

end Asyncflow
