import Asyncflow.Moves.Outward

/-!
# The calls as sequences of moves

Each function of `Asyncflow.Core.Heap`, `Asyncflow.Core.Objects` and
`Asyncflow.Core.Calls` is an operation in the sense of `Asyncflow.Heap.Does`, and
makes none of the moves reserved for flows. Continuing and cancelling a context
are the only two that may put a node astray.
-/

namespace Asyncflow

namespace Heap

variable {flows : ℕ → Prop} {may : Permit → Prop} {D : NodeRef → Prop} {h h' : Heap} {n : NodeRef}

/-! ### Changes of neither nodes nor containers -/

theorem Alike.does (ha : h.Alike h') : Does flows may D h h' :=
  .of_move (Move.alike ha)

theorem alike_setChart (c : ChartId) {f : Chart → Chart}
    (hdata : ∀ x, (f x).data = x.data ∧ (f x).nodeCount = x.nodeCount)
    (howner : ∀ x, (f x).owner = x.owner)
    (hrun : ∀ x, (f x).status = .running → x.status = .running)
    (hagent : ∀ x, h.charts c = some x → (f x).agent = x.agent ∨ x.agent = none) :
    h.Alike (h.setChart c f) := by
  refine ⟨rfl, rfl, rfl, rfl, fun _ => rfl, fun _ => rfl, fun _ => rfl, fun _ => rfl, rfl, rfl, rfl,
    rfl, rfl, rfl, fun c' x' hx' => ?_, rfl, rfl, rfl, fun _ => rfl, rfl, rfl, rfl, rfl,
    fun c' hc' => ?_, fun c' x x' hx hx' => ?_, .inl rfl⟩
  · rcases eq_or_ne c' c with rfl | hc
    · simp only [setChart, Function.update_self, Option.map_eq_some_iff] at hx'
      obtain ⟨x, hx, rfl⟩ := hx'
      exact ⟨x, hx, hdata x, howner x, hrun x⟩
    · simp only [setChart, Function.update_of_ne hc] at hx'
      exact ⟨x', hx', ⟨rfl, rfl⟩, rfl, id⟩
  · rcases eq_or_ne c' c with rfl | hc
    · simpa [setChart] using hc'
    · simpa [setChart, Function.update_of_ne hc] using hc'
  · rcases eq_or_ne c' c with rfl | hc
    · simp only [setChart, Function.update_self, hx, Option.map_some, Option.some.injEq] at hx'
      subst hx'
      exact hagent x hx
    · simp only [setChart, Function.update_of_ne hc, hx, Option.some.injEq] at hx'
      exact .inl (by rw [hx'])

/-- The charts of the agents, the agent of an executor, marks in the history and undefined
behaviour. -/
theorem alike_of_eq (agents : AgentId → Option Agent) (stack : ℕ → DfsExecutor) (log : List Obs)
    (ub : Bool) (ha : ∀ a, (agents a).map Agent.bare = (h.agents a).map Agent.bare)
    (hs : stack = h.stack) (hl : log = h.log ∨ ∃ o, o.isMark ∧ log = o :: h.log) :
    h.Alike { h with agents := agents, stack := stack, log := log, ub := ub } := by
  subst hs
  exact ⟨rfl, rfl, rfl, rfl, fun _ => rfl, fun _ => rfl, fun _ => rfl, fun _ => rfl, rfl, rfl, rfl,
    rfl, rfl, rfl, fun c x hx => ⟨x, hx, ⟨rfl, rfl⟩, rfl, id⟩, rfl, rfl, rfl, ha, rfl, rfl, rfl,
    rfl, fun _ => id, fun c x x' hx hx' => .inl (by rw [Option.some.inj (hx'.symm.trans hx)]), hl⟩

theorem alike_crash : h.Alike h.crash :=
  alike_of_eq h.agents h.stack h.log true (fun _ => rfl) rfl (.inl rfl)

theorem alike_note {o : Obs} (ho : o.isMark) : h.Alike (h.note o) :=
  alike_of_eq h.agents h.stack (o :: h.log) h.ub (fun _ => rfl) rfl (.inr ⟨o, ho, rfl⟩)

/-- The choice of the allocator. -/
theorem alike_place (cells : List NodeRef) : h.Alike { h with cells := cells } :=
  ⟨rfl, rfl, rfl, rfl, fun _ => rfl, fun _ => rfl, fun _ => rfl, fun _ => rfl, rfl, rfl, rfl,
    rfl, rfl, rfl, fun _ x hx => ⟨x, hx, ⟨rfl, rfl⟩, rfl, id⟩, rfl, rfl, rfl, fun _ => rfl, rfl,
    rfl, rfl, rfl, fun _ => id,
    fun _ _ _ hx hx' => .inl (by rw [Option.some.inj (hx'.symm.trans hx)]), .inl rfl⟩

/-- A write to the charts of an agent. -/
theorem alike_setAgent (a : AgentId) {f : Agent → Agent} (hf : ∀ g, (f g).bare = g.bare) :
    h.Alike (h.setAgent a f) := by
  refine alike_of_eq (h.setAgent a f).agents h.stack h.log h.ub (fun b => ?_) rfl (.inl rfl)
  rcases eq_or_ne b a with rfl | hb
  · cases hg : h.agents b with
    | none => simp [setAgent, hg]
    | some g => simp [setAgent, hg, hf]
  · simp [setAgent, Function.update_of_ne hb]

/-- The agents and the lists of agents. -/
theorem does_manage (hp : may .agents) (h : Heap) (agents agentIdCount gameObjects destroying
    nextDestroying) : Does flows may D h
      { h with
        agents := agents, agentIdCount := agentIdCount, gameObjects := gameObjects
        destroying := destroying, nextDestroying := nextDestroying } :=
  .of_move (Move.manage _ _ _ _ _ hp)

theorem does_crash (h : Heap) : Does flows may D h h.crash := Alike.does alike_crash

theorem does_note (h : Heap) {o : Obs} (ho : o.isMark) : Does flows may D h (h.note o) :=
  Alike.does (alike_note ho)

/-- A write to a chart that keeps its data and does not make it run. -/
theorem does_setChart (h : Heap) (c : ChartId) {f : Chart → Chart}
    (hf : ∀ x, ((f x).data = x.data ∧ (f x).nodeCount = x.nodeCount) ∧ (f x).owner = x.owner ∧
      ((f x).status = .running → x.status = .running))
    (hagent : ∀ x, h.charts c = some x → (f x).agent = x.agent ∨ x.agent = none) :
    Does flows may D h (h.setChart c f) :=
  Alike.does (alike_setChart c (fun x => (hf x).1) (fun x => (hf x).2.1)
    (fun x => (hf x).2.2) hagent)

theorem does_chartIdle (h : Heap) (c : ChartId) :
    Does flows may D h ((h.setChart c ({ · with status := .idle })).note (.chartStop c)) := by
  refine .trans ?_ (does_note _ trivial)
  exact does_setChart h c (fun _ => ⟨⟨rfl, rfl⟩, rfl, fun hi => nomatch hi⟩) fun _ _ => .inl rfl

/-! ### Stopping -/

theorem does_act {f : Node → Node} {o : Obs} (hw : h.Writes n f o)
    (hfl : o.isFlow → ∃ l, flows l) : Does flows may D h (h.act n f o) :=
  .of_move (Move.act hw hfl)

theorem does_detach (hn : D n) : Does flows may D h (h.detach n) := .of_move (Move.detach hn)

/-- `Node::Stop` is silent about the nodes it records only. -/
theorem does_stopNode (fuel : ℕ) (h : Heap) (n : NodeRef) (D : NodeRef → Prop) :
    Does flows may D h (stopNode fuel h n) := by
  induction fuel generalizing h n D with
  | zero => exact .refl h
  | succ fuel ih =>
    refine .absorb_head (i := n) (o := .stop n (h.nodes n).status) rfl rfl
      (Move.act .stop False.elim) ?_
    refine .trans ?_ (does_detach (.inl rfl))
    split
    · exact (Traced.Does.foldl (fun h n => ih h n _) _ _).trans (does_chartIdle _ _)
    · exact .refl _

theorem does_stop (h : Heap) (n : NodeRef) : Does flows may D h (h.stop n) :=
  does_stopNode _ h n D

theorem does_stopChart (h : Heap) (c : ChartId) : Does flows may D h (h.stopChart c) :=
  (Traced.Does.foldl does_stop _ _).trans (does_chartIdle _ c)

/-! ### Charts -/

theorem ownerOf_setChart (h : Heap) (c d : ChartId) {f : Chart → Chart}
    (hf : ∀ x, (f x).owner = x.owner) : (h.setChart d f).ownerOf c = h.ownerOf c := by
  rcases eq_or_ne c d with rfl | hc
  · cases hx : h.charts c with
    | none => simp [ownerOf, setChart, hx]
    | some x => simp [ownerOf, setChart, hx, hf]
  · simp [ownerOf, setChart, Function.update_of_ne hc]

/-- A chart that is destroyed leaves its agent, in whichever order. -/
theorem dropChart_eq (h : Heap) (c : ChartId) : h.dropChart c =
    match (h.charts c).bind (·.agent) with
    | some a => (h.forgetChart c).setAgent a fun g => { g with charts := g.charts.filter (· ≠ c) }
    | none => h.forgetChart c := by
  unfold dropChart eraseChart
  cases (h.charts c).bind (·.agent) with
  | none => rfl
  | some a =>
    have ho := ownerOf_setChart (h.setAgent a fun g => { g with charts := g.charts.filter (· ≠ c) })
      c c (f := ({ · with agent := none })) fun _ => rfl
    have hs : (h.setAgent a fun g => { g with charts := g.charts.filter (· ≠ c) }).ownerOf c =
        h.ownerOf c := rfl
    dsimp only
    unfold forgetChart setOwner
    rw [ho, hs]
    cases h.ownerOf c <;> simp [setNode, setChart, setAgent, note]

theorem does_dropChart {c : ChartId} (hn : ∀ n ∈ h.nodeList c, (h.nodes n).container = none) :
    Does flows may D h (h.dropChart c) := by
  rw [dropChart_eq]
  split
  · refine .trans (.of_move (Move.forget c hn)) (Alike.does (alike_setAgent _ fun _ => rfl))
  · exact .of_move (Move.forget c hn)

/-- No node comes into a container, and no chart comes to have more nodes. -/
structure Frees (h g : Heap) : Prop where
  free : ∀ n, (h.nodes n).container = none → (g.nodes n).container = none
  nodes : ∀ c, g.nodeList c ⊆ h.nodeList c

theorem Frees.refl (h : Heap) : Frees h h := ⟨fun _ => id, fun _ => List.Subset.refl _⟩

theorem Frees.trans {k : Heap} (hg : Frees h g) (hk : Frees g k) : Frees h k :=
  ⟨fun n hn => hk.free n (hg.free n hn), fun c => List.Subset.trans (hk.nodes c) (hg.nodes c)⟩

theorem frees_foldl {β : Type} {f : Heap → β → Heap} (hf : ∀ h b, Frees h (f h b)) (h : Heap)
    (l : List β) : Frees h (l.foldl f h) := by
  induction l generalizing h with
  | nil => exact .refl h
  | cons b l ih => exact (hf h b).trans (ih _)

theorem frees_act (h : Heap) (n : NodeRef) {f : Node → Node} (o : Obs)
    (hf : ∀ d, (f d).container = d.container) : Frees h (h.act n f o) := by
  refine ⟨fun m hm => ?_, fun _ => List.Subset.refl _⟩
  rwa [nodes_act, field_setNode h n m (·.container) hf]

theorem frees_detach (h : Heap) (n : NodeRef) : Frees h (h.detach n) := by
  refine ⟨fun m hm => ?_, fun c => ?_⟩
  · rcases eq_or_ne m n with rfl | hne
    · exact container_detach ..
    · rwa [nodes_detach_of_ne hne]
  · rw [nodeList, nodesCount, charts_detach]
    exact List.Subset.refl _

theorem nodeList_setChart (h : Heap) (c d : ChartId) {f : Chart → Chart}
    (hf : ∀ x, (f x).nodeCount = x.nodeCount) : (h.setChart c f).nodeList d = h.nodeList d := by
  have hcount : (h.setChart c f).nodesCount d = h.nodesCount d := by
    rcases eq_or_ne d c with rfl | hd
    · cases hx : h.charts d with
      | none => simp [nodesCount, setChart, hx]
      | some x => simp [nodesCount, setChart, hx, hf]
    · simp [nodesCount, setChart, Function.update_of_ne hd]
  rw [nodeList, hcount, nodeList]

theorem frees_chartIdle (h : Heap) (c : ChartId) :
    Frees h ((h.setChart c ({ · with status := .idle })).note (.chartStop c)) := by
  refine ⟨fun _ => id, fun d => ?_⟩
  have hd : ((h.setChart c ({ · with status := .idle })).note (.chartStop c)).nodeList d =
      h.nodeList d := nodeList_setChart h c d fun _ => rfl
  rw [hd]
  exact List.Subset.refl _

theorem frees_stopNode (fuel : ℕ) (h : Heap) (n : NodeRef) : Frees h (stopNode fuel h n) := by
  induction fuel generalizing h n with
  | zero => exact .refl h
  | succ fuel ih =>
    have hs : Frees h (h.act n Node.stop (.stop n (h.nodes n).status)) :=
      frees_act h n _ fun _ => rfl
    refine .trans (hs.trans ?_) (frees_detach _ n)
    split
    · exact (frees_foldl ih _ _).trans (frees_chartIdle _ _)
    · exact .refl _

theorem frees_stop (h : Heap) (n : NodeRef) : Frees h (h.stop n) := frees_stopNode _ h n

theorem frees_forgetChart (h : Heap) (c : ChartId) : Frees h (h.forgetChart c) := by
  have ho : ∀ m, ((h.setOwner c ({ · with attacher := none })).nodes m).container =
      (h.nodes m).container := by
    intro m
    unfold setOwner
    split
    · exact field_setNode h _ m (·.container) fun _ => rfl
    · rfl
  refine ⟨fun m hm => (ho m).trans hm, fun d => ?_⟩
  rcases eq_or_ne d c with rfl | hd
  · have hnil : (h.forgetChart d).nodeList d = [] := by
      simp [nodeList, nodesCount, forgetChart, note]
    rw [hnil]
    exact List.nil_subset _
  · have hsame : (h.forgetChart c).nodeList d = h.nodeList d := by
      simp [nodeList, nodesCount, forgetChart, note, Function.update_of_ne hd]
    rw [hsame]
    exact List.Subset.refl _

theorem frees_dropChart (h : Heap) (c : ChartId) : Frees h (h.dropChart c) := by
  rw [dropChart_eq]
  split
  · exact (frees_forgetChart h c).trans ⟨fun _ => id, fun _ => List.Subset.refl _⟩
  · exact frees_forgetChart h c

theorem frees_destroyChart (fuel : ℕ) (h : Heap) (c : ChartId) :
    Frees h (destroyChart fuel h c) := by
  induction fuel generalizing h c with
  | zero => exact .refl h
  | succ fuel ih =>
    refine .trans (frees_foldl (fun h n => ?_) _ _) (frees_dropChart _ c)
    refine .trans (.trans (frees_stop h n) ?_) (frees_act _ n _ fun _ => rfl)
    split
    · exact ih _ _
    · exact .refl _

/-- The nodes of a chart that is destroyed are in no container any more when the chart goes. -/
theorem free_of_foldl {f : Heap → NodeRef → Heap} (hf : ∀ h n, Frees (h.stop n) (f h n)) (h : Heap)
    (ns : List NodeRef) : ∀ n ∈ ns, ((ns.foldl f h).nodes n).container = none := by
  induction ns generalizing h with
  | nil => exact fun n hn => absurd hn List.not_mem_nil
  | cons m ns ih =>
    intro n hn
    rcases List.mem_cons.mp hn with rfl | hn
    · refine (frees_foldl (fun h m => (frees_stop h m).trans (hf h m)) _ ns).free n ?_
      exact (hf h n).free n (container_stop h n)
    · exact ih _ n hn

theorem free_of_nodeList {f : Heap → NodeRef → Heap} (hf : ∀ h n, Frees (h.stop n) (f h n))
    (h : Heap) (c : ChartId) (n : NodeRef) (hn : n ∈ ((h.nodeList c).foldl f h).nodeList c) :
    (((h.nodeList c).foldl f h).nodes n).container = none := by
  have hstep : ∀ h n, Frees h (f h n) := fun h n => (frees_stop h n).trans (hf h n)
  exact free_of_foldl hf h _ n ((frees_foldl hstep h _).nodes c hn)

theorem does_destroyChart (fuel : ℕ) (h : Heap) (c : ChartId) (D : NodeRef → Prop) :
    Does flows may D h (destroyChart fuel h c) := by
  induction fuel generalizing h c D with
  | zero => exact .refl h
  | succ fuel ih =>
    refine .trans (.foldl (fun h n => ?_) _ _) (does_dropChart fun n hn => ?_)
    · refine .trans (.trans (does_stop h n) ?_) (does_act .noAttacher False.elim)
      split
      · exact ih _ _ _
      · exact .refl _
    · -- Every node has been stopped, and is in no container since.
      refine free_of_nodeList (fun h n => ?_) h c n hn
      refine .trans ?_ (frees_act _ n _ fun _ => rfl)
      split
      · exact frees_destroyChart ..
      · exact .refl _

theorem does_deleteChart (h : Heap) (c : ChartId) : Does flows may D h (h.deleteChart c) :=
  does_destroyChart _ h c D

theorem does_deleteAttacher (h : Heap) (n : NodeRef) :
    Does flows may D h (h.deleteAttacher n) := by
  unfold deleteAttacher
  split
  · exact does_deleteChart h _
  · exact .refl h

theorem does_clearAttacher (h : Heap) (n : NodeRef) :
    Does flows may D h (h.clearAttacher n) :=
  (does_deleteAttacher h n).trans (does_act .noAttacher False.elim)

theorem does_addChart (h : Heap) (a : AgentId) {c : ChartId}
    (hc : ∀ x, h.charts c = some x → x.agent = none) :
    Does flows may D h (h.addChart a c).2 := by
  unfold addChart
  split
  · exact .refl h
  · split
    · exact .refl h
    · refine .trans ?_ (Alike.does (alike_setAgent a
        (f := fun g => { g with charts := g.charts ++ [c] }) fun _ => rfl))
      exact does_setChart h c (fun _ => ⟨⟨rfl, rfl⟩, rfl, id⟩) fun x hx => .inr (hc x hx)

/-- A new chart belongs to no agent. -/
theorem agent_initChart (h : Heap) (d : DataId) (o : Option NodeRef) {x : Chart}
    (hx : (h.initChart d o).charts h.nextChart = some x) : x.agent = none := by
  have hi : (h.initChart d o).charts h.nextChart =
      some { data := d, nodeCount := h.nodeCount d, owner := o, agent := none } := by
    simp [initChart, note]
  rw [hi] at hx
  cases hx
  rfl

theorem does_initChart {d : DataId} (hp : may (.create d)) (h : Heap) {o : Option NodeRef}
    (ho : ∀ n, o = some n → h.Made n) : Does flows may D h (h.initChart d o) :=
  .of_move (Move.create d o hp ho)

theorem does_attachChart {d : DataId} (hp : may (.create d)) (h : Heap) (a : AgentId) :
    Does flows may D h (h.attachChart a d) := by
  have hadd : Does flows may D h ((h.initChart d none).addChart a h.nextChart).2 :=
    (does_initChart hp h (by simp)).trans (does_addChart _ _ fun _ => agent_initChart h d none)
  unfold attachChart
  dsimp only
  split
  · exact hadd
  · exact hadd.trans (does_deleteChart _ _)

theorem does_removeChart (h : Heap) (a : AgentId) (name : String) :
    Does flows may D h (h.removeChart a name) := by
  unfold removeChart
  split
  · exact does_deleteChart h _
  · exact .refl h

/-! ### Agents -/

theorem does_register (hp : may .agents) (h : Heap) (o : ObjectId) :
    Does flows may D h (h.register o) := by
  unfold register
  split
  · exact .refl h
  · exact does_manage hp ..

theorem does_stopAgent (h : Heap) (a : AgentId) : Does flows may D h (h.stopAgent a) :=
  .foldl does_stopChart _ _

theorem does_unRegister (hp : may .agents) (h : Heap) (a : AgentId) :
    Does flows may D h (h.unRegister a) := by
  unfold unRegister
  split
  · exact does_manage hp ..
  · exact .refl h

theorem does_addDyingAgent (hp : may .agents) (h : Heap) (a : AgentId) (inStep : Bool) :
    Does flows may D h (h.addDyingAgent a inStep) := by
  unfold addDyingAgent
  split <;> exact does_manage hp ..

theorem does_unregisterGameObject (hp : may .agents) (h : Heap) (a : AgentId) (inStep : Bool) :
    Does flows may D h (h.unregisterGameObject a inStep) := by
  unfold unregisterGameObject
  split
  · exact (((does_manage hp ..).trans (does_stopAgent _ a)).trans
      (does_unRegister hp _ a)).trans (does_addDyingAgent hp _ _ _)
  · exact .refl h

theorem does_destroyAgent (hp : may .agents) (h : Heap) (es : List EventId) (a : AgentId) :
    Does flows may D h (h.destroyAgent es a) := by
  refine .trans (.trans (.of_move (Move.dropWaiting es a)) (.foldl (fun h c => ?_) _ _))
    (does_manage hp ..)
  split
  · exact .refl h
  · split
    · exact does_clearAttacher h _
    · exact does_deleteChart h c

theorem does_swapDying (hp : may .agents) (h : Heap) : Does flows may D h h.swapDying :=
  does_manage hp ..

/-! ### Chart data -/

theorem does_importChart (h : Heap) {data : ChartData} (hp : may (.load data)) :
    Does flows may D h (h.importChart data) := .of_move (Move.load data hp)

theorem does_patchChart (h : Heap) {doc : YamlChart} (hp : may (.patch doc))
    (hl : ∀ data, fromYaml doc = some (true, data) → may (.load data)) :
    Does flows may D h (h.patchChart doc) := by
  unfold patchChart
  split
  · split
    · exact .of_move (Move.patch doc hp ‹_› ‹_›)
    · exact does_crash h
  · split
    · exact does_importChart h (hl _ ‹_›)
    · exact .refl h
    · exact does_crash h

/-! ### The calls of a node function -/

variable {cfg : Config}

variable (cfg) in
theorem does_waitEvent (hn : h.Made n) (a : AgentId) (e : EventId) :
    Does flows may D h (h.waitEvent cfg a n e) := by
  unfold waitEvent
  split
  · split
    · exact .of_move (Move.wait a e hn ‹_›)
    · exact does_crash h
  · exact .refl h

theorem does_wait (hcur : ∀ n, h.currentNode = some n → h.Made n) : Does flows may D h h.wait := by
  unfold wait
  split
  · exact .refl h
  · rename_i n hn
    have hd : Does flows may D h (h.deleteAttacher n) := does_deleteAttacher h n
    exact hd.trans (does_act (.wait ((hcur n hn).of_keeps (keeps_of_does hd))) False.elim)

theorem does_waitAll (h : Heap) (args : List ℤ) : Does flows may D h (h.waitAll args).2 := by
  unfold waitAll
  split
  · exact does_crash h
  · split
    · exact does_crash h
    · exact does_crash h
    · exact does_act (.waitAll args) False.elim

/-! ### Stopping nodes by their ids -/

theorem does_stopNodeId (h : Heap) (c : ChartId) (id : ℤ) :
    Does flows may D h (h.stopNodeId c id) := by
  unfold stopNodeId
  split
  · exact .refl h
  · split
    · exact does_crash h
    · exact (does_stop h _).trans (.of_move (Move.removeFree _ (container_stop h _)))

theorem does_stopNodes (h : Heap) (args : List ℤ) :
    Does flows may D h (h.stopNodes args).2 := by
  unfold stopNodes
  split
  · exact does_crash h
  · exact .foldl (fun h id => does_stopNodeId h _ id) _ _

theorem does_stopFlow (h : Heap) (args : List ℤ) :
    Does flows may D h (h.stopFlow args).2 := by
  unfold stopFlow
  split
  · exact does_crash h
  · dsimp only
    split
    · exact does_crash h
    · exact .foldl (fun h (i : ℕ) => does_stopNodeId h _ i) _ _

/-! ### Waiting for events and async contexts -/

theorem does_managerWaitEvent (hcur : ∀ n, h.currentNode = some n → h.Made n)
    (a : AgentId) (e : EventId) : Does flows may D h (h.managerWaitEvent cfg a e).2 := by
  unfold managerWaitEvent
  split
  · exact .refl h
  · rename_i n hn
    split
    · refine (does_act (h := h) .await False.elim).trans (does_waitEvent cfg ?_ a e)
      exact hcur n hn
    · exact .refl h

theorem does_createAsyncContext (hcur : ∀ n, h.currentNode = some n → h.Made n) :
    Does flows may D h h.createAsyncContext := by
  unfold createAsyncContext
  split
  · exact .refl h
  · split
    · exact .of_move (Move.suspend (hcur _ ‹_›) ‹_›)
    · exact does_crash h

theorem does_continueAsyncNode (ctx : Context) (b : Bool)
    (hok : may .stray ∨ (h.nodeAt ctx ∈ h.nodesSet → h.awaited (h.nodeAt ctx))) :
    Does flows may D h (h.continueAsyncNode ctx b).2 :=
  continueAsyncNode_elim ctx b (.refl h) (does_crash h) fun hn _ =>
    .of_move (Move.continued b hn (hok.imp_right fun hf => hf hn))

theorem does_cancelAsyncNode (ctx : Context) (stop : Bool)
    (hok : may .stray ∨ (h.nodeAt ctx ∈ h.nodesSet → h.awaited (h.nodeAt ctx))) :
    Does flows may D h (h.cancelAsyncNode ctx stop).2 :=
  cancelAsyncNode_elim ctx stop (.refl h) (does_crash h) fun hn _ =>
    .of_move (Move.cancelled stop hn (hok.imp_right fun hf => hf hn))

/-- The node is run next, so that its chart has to be there. -/
theorem does_resumeNode {ns : List NodeRef} (ha : h.activated = n :: ns)
    (hx : ((h.resumeNode n ns).charts n.chart).isSome) :
    Does flows may D h (h.resumeNode n ns) := by
  have hstop : Does flows may (fun m => m = n ∨ D m) h ((h.takeActivated n ns).stop n) :=
    (Traced.Does.of_move (Move.takeActivated ha (.inl rfl))).trans (does_stop _ n)
  have hfree : (((h.takeActivated n ns).stop n).nodes n).container = none := container_stop _ n
  have halive : (((h.takeActivated n ns).stop n).charts n.chart).isSome := by
    rwa [resumeNode, removeNode, charts_remove] at hx
  refine hstop.absorb_tail (o := .resume n (h.nodes n).result) ?_ rfl
    (Move.resume (h.nodes n).skip (h.nodes n).result hfree halive)
  exact log_remove_of_free _ (by simp)

/-! ### Subcharts -/

/-- `Agent::AddChart` does not touch the owner nodes. -/
theorem ownerOf_addChart (h : Heap) (a : AgentId) (c c' : ChartId) :
    (h.addChart a c).2.ownerOf c' = h.ownerOf c' := by
  unfold addChart
  split
  · rfl
  · split
    · rfl
    · unfold ownerOf
      simp only [setAgent, setChart, Function.update_apply]
      split
      · subst c'
        cases h.charts c <;> rfl
      · rfl

theorem does_makeSubchart {d : DataId} (hp : may (.create d)) (hn : h.Made n)
    (a : AgentId) : Does flows may D h (h.makeSubchart n d a).2 := by
  have howner : (h.initChart d (some n)).ownerOf h.nextChart = some n := by
    simp [ownerOf, initChart, note]
  refine .trans ?_ (does_act (.makeSubchart _ hn.1 ((ownerOf_addChart ..).trans howner)) False.elim)
  refine (does_initChart hp h ?_).trans (does_addChart _ a fun _ => agent_initChart h _ _)
  rintro m ⟨⟩
  exact hn

end Heap

end Asyncflow
