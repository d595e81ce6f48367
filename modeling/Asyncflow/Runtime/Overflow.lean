import Asyncflow.Runtime.Nesting

/-!
# Starting and returning when the stack of executors is full

`Agent::StartChart` and `Chart::Return` call `RunFlow` and `ContinueFlow`, which
refuse when all executors are in use; the start node or the owner node is then put off
to the start event of its agent. `Asyncflow.Poised` says what is known when one of
these calls is about to be made: it is always the innermost one, so nothing has
happened since `StartChart` or `Return` prepared the node.
-/

namespace Asyncflow

/-- A call of `RunFlow` or `ContinueFlow` that is just being made. -/
def Frame.isEntry : Frame → Prop
  | .enter _ | .continuing _ => True
  | _ => False

/-- No such call. -/
def Calm (fs : List Frame) : Prop := ∀ f ∈ fs, ¬f.isEntry

/-- The node has been stopped and handed the value of its subchart. -/
structure Heap.Handed (h : Heap) (o : NodeRef) (c : ChartId) (b : Bool) : Prop where
  free : (h.nodes o).container = none
  result : (h.nodes o).result = .ofBool b
  skip : (h.nodes o).skip = true
  log : h.log.head? = some (.owner o c b)

/-- **Entries are innermost**, and what is known then. -/
inductive Poised (h : Heap) : List Frame → Prop
  | calm {fs} : Calm fs → Poised h fs
  | deliver {n f fs} : f = .timers ∨ f = .async ∨ (∃ ev, f = .handle ev) → Calm (f :: fs) →
      Poised h (.enter n :: f :: fs)
  | start {a c fs} : Calm fs → h.chartRunning c = true →
      (h.agentOf ⟨c, 0⟩ = some a ∨ h.agentOf ⟨c, 0⟩ = none) →
      (h.nodes ⟨c, 0⟩).status = .running → Poised h (.enter ⟨c, 0⟩ :: .starting a c :: fs)
  | continuing {o c b fs} : Calm fs → h.Handed o c b →
      Poised h (.continuing o :: .returning c :: fs)
  | enter {o c b fs} : Calm fs → h.Handed o c b → Poised h (.enter o :: .returning c :: fs)

section Poised

variable {h h' : Heap} {f : Frame} {fs gs : List Frame}

theorem calm_nil : Calm [] := fun _ hf => nomatch hf

theorem calm_cons (hf : ¬f.isEntry) (hc : Calm fs) : Calm (f :: fs) := by
  intro g hg
  rcases List.mem_cons.mp hg with rfl | hg
  · exact hf
  · exact hc g hg

theorem Calm.tail (hc : Calm (f :: fs)) : Calm fs := fun g hg => hc g (List.mem_cons_of_mem f hg)

/-- Below the innermost call nothing is just being entered. -/
theorem Poised.tail (hp : Poised h (f :: fs)) : Calm fs := by
  cases hp with
  | calm hc => exact hc.tail
  | deliver _ hc => exact hc
  | start hc => exact calm_cons id hc
  | continuing hc | enter hc => exact calm_cons id hc

/-- Unless the innermost call is being entered. -/
theorem Poised.calm_of_head (hp : Poised h fs) (hf : ∀ f, fs.head? = some f → ¬f.isEntry) :
    Calm fs := by
  cases hp with
  | calm hc => exact hc
  | deliver | start | continuing | enter => exact absurd trivial (hf _ rfl)

end Poised

namespace State

variable {cfg : Config} {s t u : State} {a : AgentId} {c : ChartId} {n o : NodeRef}
  {rest : List Frame}

theorem agentOf_makeSubchart (h : Heap) (n : NodeRef) (d : DataId) (a : AgentId) :
    (h.makeSubchart n d a).2.agentOf ⟨(h.makeSubchart n d a).1, 0⟩ = some a ∨
      (h.makeSubchart n d a).2.agentOf ⟨(h.makeSubchart n d a).1, 0⟩ = none := by
  have hch : (h.initChart d (some n)).charts h.nextChart =
      some { data := d, nodeCount := h.nodeCount d, owner := some n, agent := none } := by
    simp [Heap.initChart, Heap.note]
  change (((h.initChart d (some n)).addChart a h.nextChart).2.charts h.nextChart).bind _ = _ ∨
    (((h.initChart d (some n)).addChart a h.nextChart).2.charts h.nextChart).bind _ = _
  unfold Heap.addChart
  split
  · exact .inr (by rw [hch]; rfl)
  · split
    · exact .inr (by rw [hch]; rfl)
    · exact .inl (by simp [Heap.setAgent, Heap.setChart, hch])

/-- The chart `Manager::Subchart` starts belongs to the agent it is called with, unless
that agent has another chart of the name for the node. -/
theorem agentOf_prepareSubchart {h : Heap} {name : String}
    (hc : (h.prepareSubchart name a).1 = some c) :
    (h.prepareSubchart name a).2.agentOf ⟨c, 0⟩ = some a ∨
      (h.prepareSubchart name a).2.agentOf ⟨c, 0⟩ = none := by
  unfold Heap.prepareSubchart at hc ⊢
  split at hc
  · cases hc
  · split at hc
    · cases hc
    · split at hc
      · cases hc
      · cases hc
      · rename_i d _
        split at hc
        · rename_i hany
          obtain rfl : d = c := Option.some.inj hc
          rw [if_pos hany]
          cases hx : h.charts d with
          | none => simp [hx] at hany
          | some x =>
            simp only [hx, Option.any_some, Bool.and_eq_true, beq_iff_eq] at hany
            exact .inl (by simp [Heap.agentOf, Heap.act, Heap.note, Heap.setNode, hx, hany.1])
        · obtain rfl := Option.some.inj hc
          rw [if_neg ‹_›]
          exact agentOf_makeSubchart ..
      · obtain rfl := Option.some.inj hc
        exact agentOf_makeSubchart ..

/-- A call of `StartChart` for a chart of the agent. -/
theorem poised_startChart (hc : Calm s.frames) (sync : Bool)
    (ha : s.heap.agentOf ⟨c, 0⟩ = some a ∨ s.heap.agentOf ⟨c, 0⟩ = none)
    (hub : (s.startChart cfg a c sync).heap.ub = false) :
    Poised (s.startChart cfg a c sync).heap (s.startChart cfg a c sync).frames := by
  unfold startChart at hub ⊢
  split at hub
  · rename_i hr
    rw [if_pos hr]
    exact .calm hc
  · rename_i hr
    rw [if_neg hr]
    cases sync with
    | false =>
      refine .calm ?_
      simp only [Bool.false_eq_true, ↓reduceIte, frames_startLater]
      exact hc
    | true =>
      cases hx : s.heap.charts c with
      | none => simp [mapHeap, call, Heap.markStarted, hx, Heap.crash] at hub
      | some x =>
        by_cases hne : x.nodeCount = 0
        · simp [mapHeap, call, Heap.markStarted, hx, hne, Heap.crash] at hub
        · have hh : s.heap.markStarted c = (s.heap.setChart c ({ · with status := .running })).act
              ⟨c, 0⟩ (Node.start (s.heap.startFuncName c = "")) (.started c) := by
            simp only [Heap.markStarted, hx, hne, ↓reduceIte]
          have hch : (s.heap.markStarted c).charts c = some { x with status := .running } := by
            rw [hh]
            simp [Heap.act, Heap.note, Heap.setNode, Heap.setChart, hx]
          refine .start hc ?_ ?_ ?_
          · simp [mapHeap, call, Heap.chartRunning, hch]
          · have hag : (s.heap.markStarted c).agentOf ⟨c, 0⟩ = s.heap.agentOf ⟨c, 0⟩ := by
              simp only [Heap.agentOf, hch, hx]
              rfl
            exact hag.symm ▸ ha
          · change ((s.heap.markStarted c).nodes ⟨c, 0⟩).status = .running
            rw [hh, Heap.nodes_act, Heap.nodes_setNode_self]
            rfl

/-- A call of `Chart::Return`. -/
theorem poised_chartReturn (hc : Calm s.frames) (b : Bool) :
    Poised (s.chartReturn c b).heap (s.chartReturn c b).frames := by
  unfold chartReturn
  dsimp only
  split
  · exact .calm (calm_cons id hc)
  · rename_i o _
    refine .continuing hc (b := b) ⟨?_, ?_, ?_, rfl⟩
    · simp [mapHeap, call, Node.owner]
    · simp [mapHeap, call, Node.owner]
    · simp [mapHeap, call, Node.owner]

theorem poised_event (hc : Calm s.frames) (e : EventId) (immediate trigger : Bool) :
    Poised (s.event cfg e a immediate trigger).heap (s.event cfg e a immediate trigger).frames := by
  refine .calm ?_
  unfold event
  split
  · cases trigger with
    | false => exact hc
    | true =>
      simp only [↓reduceIte, triggerEvent]
      split
      · exact hc
      · split
        · exact hc
        · exact calm_cons id (calm_cons id hc)
  · exact hc

theorem poised_runOp {op : Op} (hc : Calm s.frames) (ht : s.runOp cfg op = some t)
    (hub : t.heap.ub = false) : Poised t.heap t.frames := by
  cases op <;> simp only [runOp] at ht
  case attachChart a name =>
    split at ht <;> cases ht
    split <;> exact .calm hc
  case startChart c =>
    split at ht
    · obtain ⟨a, ha, rfl⟩ := Option.map_eq_some_iff.mp ht
      exact poised_startChart hc _ (.inl ha) hub
    · cases ht
  case stopChart c => split at ht <;> cases ht; exact .calm hc
  case waitEvent a e => split at ht <;> cases ht; exact .calm hc
  case event e a immediate trigger => cases ht; exact poised_event hc ..
  case subchart name a =>
    cases ht
    unfold subchart at hub ⊢
    split
    · rename_i hs
      rw [if_pos hs] at hub
      dsimp only at hub ⊢
      split
      · rename_i c hpre
        rw [hpre] at hub
        exact poised_startChart (s := s.mapHeap fun _ => (s.heap.prepareSubchart name a).2) hc true
          (agentOf_prepareSubchart hpre) hub
      · exact .calm hc
    · exact .calm hc
  case managerReturn b =>
    cases ht
    unfold managerReturn
    split
    · exact .calm hc
    · split
      · exact poised_chartReturn hc b
      · exact .calm hc
  case step => cases ht; exact .calm (calm_cons id hc)
  all_goals cases ht; exact .calm hc

theorem calm_refuse (hp : Poised s.heap (.enter n :: rest)) :
    Calm (s.refuse cfg n rest).frames := by
  have hc := hp.tail
  unfold refuse
  split
  · rw [frames_startLater]
    exact hc.tail
  · rw [frames_continueLater]
    exact hc
  · exact hc

/-- **Entries stay innermost.** -/
theorem poised_of_step {x : Act} (hs : Poised s.heap s.frames) (h : s.step cfg x = some t) :
    Poised t.heap t.frames := by
  have hub : t.heap.ub = false := by
    have := sound_of_step h
    simp only [sound, Bool.and_eq_true, Bool.not_eq_true'] at this
    exact this.1
  -- Unless a call is just being entered, none is.
  have hcalm : ∀ {f fs}, s.frames = f :: fs → ¬f.isEntry → Calm s.frames := by
    intro f fs hf hne
    refine hs.calm_of_head fun g hg => ?_
    rw [hf] at hg
    obtain rfl := Option.some.inj hg
    exact hne
  cases (trans_of_step h).1 with
  | @enter n rest hf =>
    rw [hf] at hs
    have he := enters cfg s n rest
    generalize s.enterFlow cfg n rest = t at he hub ⊢
    cases he with
    | refused _ => exact .calm (calm_refuse hs)
    | gone _ => cases hub
    | flow _ _ _ _ => exact .calm (calm_cons id hs.tail)
    | skipped _ _ _ => exact .calm hs.tail
  | @continuing n rest hf =>
    rw [hf] at hs
    unfold continueFlow at hub ⊢
    dsimp only at hub ⊢
    split at hub
    · cases hub
    · rename_i hag
      rw [if_neg hag]
      split
      · exact .calm hs.tail
      · cases hs with
        | calm hc => exact absurd trivial (hc _ List.mem_cons_self)
        | continuing hc hh => exact .enter hc hh
  | @flow l c k r rest hf =>
    have hc := (hf ▸ hcalm hf id).tail
    have hr := rounds cfg s l c k r rest
    generalize s.flowRound cfg l c k r rest = t at hr
    cases hr with
    | ends _ | cut _ _ | waiting _ _ _ _ _ | defer _ _ _ _ _ _ => exact .calm (calm_cons id hc)
    | @run n ns _ _ _ _ _ =>
      have hr := runsNode { s with frames := .flow l c (k + 1) r :: rest } l n
      generalize State.runNode { s with frames := .flow l c (k + 1) r :: rest } l n = t at hr ⊢
      cases hr with
      | skip _ | null _ _ | script _ _ | control _ _ _ _ =>
        exact .calm (calm_cons id (calm_cons id hc))
  | ran hf => exact .calm (calm_cons id (hf ▸ hcalm hf id).tail.tail)
  | @ended l c r rest hf =>
    have hc := (hf ▸ hcalm hf id).tail
    unfold flowCheck
    split
    · exact poised_chartReturn (s := { s with frames := .flowReturn l c :: rest })
        (calm_cons id hc) true
    · exact .calm hc
  | flowReturn hf => exact .calm (hf ▸ hcalm hf id).tail
  | @returning c rest hf =>
    have hc := (hf ▸ hcalm hf id).tail
    refine .calm ?_
    unfold finishReturn
    dsimp only
    split
    · exact calm_cons id hc
    · exact hc
  | @handle ev rest hf =>
    have hc := hf ▸ hcalm hf id
    unfold handleRound
    split
    · exact .calm hc.tail
    · split
      · exact .calm hc.tail
      · rw [call, mapHeap, hf]
        exact .deliver (.inr (.inr ⟨ev, rfl⟩)) hc
  | trigger hf => exact .calm (hf ▸ hcalm hf id).tail
  | @async rest hf =>
    have hc := hf ▸ hcalm hf id
    unfold asyncRound
    split
    · exact .calm (calm_cons id hc.tail)
    · rw [call, mapHeap, hf]
      exact .deliver (.inr (.inl rfl)) hc
  | @events rest hf =>
    have hc := hf ▸ hcalm hf id
    unfold eventsRound
    split
    · exact .calm (calm_cons id hc.tail)
    · dsimp only
      split
      · rw [call, qnote, hf]
        exact .calm (calm_cons id hc)
      · rw [handleEvent, call, mapHeap, call, qnote, hf]
        exact .calm (calm_cons id (calm_cons id hc))
  | @dying as rest hf =>
    have hc := hf ▸ hcalm hf id
    unfold dyingRound
    split
    · exact .calm hc.tail
    · exact .calm (calm_cons id (calm_cons id hc.tail))
  | released hf => exact .calm (hf ▸ hcalm hf id).tail
  | op hm ho =>
    refine poised_runOp (hs.calm_of_head fun f hf => ?_) ho hub
    unfold mayCall at hm
    split at hm
    · rename_i hnil
      rw [hnil] at hf
      cases hf
    · rename_i hfn
      rw [hfn] at hf
      obtain rfl := Option.some.inj hf
      exact id
    · rename_i hcb
      rw [hcb] at hf
      obtain rfl := Option.some.inj hf
      exact id
    · rename_i hrl
      rw [hrl] at hf
      obtain rfl := Option.some.inj hf
      exact id
    · cases hm
  | ret r hf => exact .calm (calm_cons id (hf ▸ hcalm hf id).tail)
  | fire hf hn =>
    rw [fire, call, mapHeap, hf]
    exact .deliver (.inl rfl) (hf ▸ hcalm hf id)
  | tick hf ha => exact poised_event (hcalm hf id) ..
  | timersDone hf => exact .calm (calm_cons id (hf ▸ hcalm hf id).tail)
  | starting hf | deleteEvent hf | done hf => exact .calm (hf ▸ hcalm hf id).tail

theorem continueLater_eq (ho : s.heap.agentOf o = some a) : s.continueLater cfg o =
    (s.mapHeap (·.waitEvent cfg a o cfg.startEvent)).event cfg cfg.startEvent a true false := by
  rw [continueLater, ho]

/-- **In every reachable state only the innermost call is just being entered.** -/
theorem poised_of_reachable (h : Reachable cfg s) : Poised s.heap s.frames :=
  h.invariant (.calm calm_nil) fun _ _ _ hs _ h => poised_of_step hs h

/-! ### The alternatives -/

/-- The node waits for the start event of its agent, which is queued, and the stack of
executors is as before: at most the node itself has left one of the lists. -/
structure PutOff (cfg : Config) (a : AgentId) (n : NodeRef) (s t : State) : Prop where
  status : (t.heap.nodes n).status = .running
  waits : n ∈ t.heap.waiting a cfg.startEvent
  container : (t.heap.nodes n).container = some (.waiting a cfg.startEvent)
  queued : ∃ ev, ev.id = cfg.startEvent ∧ ev.agent = a ∧ t.queue = s.queue.addEvent ev
  index : t.heap.currentIndex = s.heap.currentIndex
  stack : ∀ l, t.heap.stack l = s.heap.stack l ∨ t.heap.stack l =
    { s.heap.stack l with nodeList := (s.heap.stack l).nodeList.filter (· ≠ n) }

/-- A flow of the node is run on the next executor. -/
structure Runs (n : NodeRef) (s t : State) : Prop where
  frame : t.frames.head? = some (.flow (s.heap.currentIndex + 1) n.chart 0 false)
  pending : (t.heap.stack (s.heap.currentIndex + 1)).nodeList = [n]
  container : (t.heap.nodes n).container = some (.executor (s.heap.currentIndex + 1))

/-- The node is pushed on the executor that is executing it, whose flow is in its loop. -/
structure Pushed (n : NodeRef) (s t : State) : Prop where
  frame : ∃ k r, .flow (s.heap.currentIndex - 1) n.chart k r ∈ t.frames
  current : (t.heap.stack (s.heap.currentIndex - 1)).currentNode = some n
  pending : n ∈ (t.heap.stack (s.heap.currentIndex - 1)).nodeList
  container : (t.heap.nodes n).container = some (.executor (s.heap.currentIndex - 1))

end State

/-- What can become of an owner node that goes on. -/
inductive Alternative
  | pushed
  | run
  | putOff

/-- The alternative happens between two states, to an owner node that has been handed
the value. -/
def Alternative.Happens (cfg : Config) (a : AgentId) (o : NodeRef) (b : Bool) (s t : State) :
    Alternative → Prop
  | .pushed => State.Pushed o s t
  | .run => State.Runs o s t
  | .putOff => State.PutOff cfg a o s t ∧ (t.heap.nodes o).skip = true ∧
      (t.heap.nodes o).result = .ofBool b

namespace State

variable {cfg : Config} {s t u : State} {a : AgentId} {c : ChartId} {n o : NodeRef}
  {rest : List Frame}

/-- A node that leaves its container leaves the stack of executors otherwise as it is. -/
theorem stack_detach (h : Heap) (n : NodeRef) (l : ℕ) : (h.detach n).stack l = h.stack l ∨
    (h.detach n).stack l = { h.stack l with nodeList := (h.stack l).nodeList.filter (· ≠ n) } := by
  unfold Heap.detach
  split
  · rename_i k _
    have hst : ∀ d : Container, (h.remove d n).stack = (h.unlink d n).stack := by
      intro d
      unfold Heap.remove
      dsimp only
      split <;> rfl
    rw [hst]
    cases k with
    | executor k =>
      rw [Heap.unlink, Heap.stack_setExecutor]
      split
      · rename_i hl
        exact .inr (by rw [hl])
      · exact .inl rfl
    | waiting _ _ | asyncWaiting | activated => exact .inl rfl
  · exact .inl rfl

/-- A node is put off. -/
theorem putOff_event (hv : cfg.validEvent cfg.startEvent = true) (ha : s.heap.agentRunning a = true)
    {n : NodeRef} (hx : (s.heap.charts n.chart).isSome) (immediate : Bool) : PutOff cfg a n s
      ((s.mapHeap (·.waitEvent cfg a n cfg.startEvent)).event cfg cfg.startEvent a immediate
        false) := by
  have hw : s.heap.waitEvent cfg a n cfg.startEvent =
      ((s.heap.push (.waiting a cfg.startEvent) n).setNode n ({ · with status := .running })).note
        (.wait n a cfg.startEvent) := by
    rw [Heap.waitEvent, if_pos hv, if_pos hx]
  have hr : (s.heap.waitEvent cfg a n cfg.startEvent).agentRunning a = true := by
    rw [hw]
    simpa [Heap.agentRunning, Heap.note, Heap.setNode] using ha
  unfold event
  simp only [mapHeap, hv, hr, Bool.and_self, ↓reduceIte, Bool.false_eq_true]
  refine ⟨?_, ?_, ?_, ⟨_, rfl, rfl, rfl⟩, ?_, fun l => ?_⟩
  · simp [addEvent, qnote, hw]
  · simp [addEvent, qnote, hw, Heap.note, Heap.setNode, Heap.push, Heap.link]
  · simp [addEvent, qnote, hw]
  · simp [addEvent, qnote, hw, Heap.note, Heap.setNode]
  · have hst : (s.heap.waitEvent cfg a n cfg.startEvent).stack l = (s.heap.detach n).stack l := by
      rw [hw]
      rfl
    simp only [addEvent, qnote, hst]
    exact stack_detach s.heap n l

/-- What is not read does not matter. -/
theorem PutOff.before (hp : PutOff cfg a n u t) (hq : u.queue = s.queue)
    (hi : u.heap.currentIndex = s.heap.currentIndex) (hst : u.heap.stack = s.heap.stack) :
    PutOff cfg a n s t := by
  refine ⟨hp.status, hp.waits, hp.container, hq ▸ hp.queued, hi ▸ hp.index, fun l => ?_⟩
  rw [← hst]
  exact hp.stack l

theorem field_waitEvent {β : Type} {g : Node → β} (hg : Heap.Inner g)
    (hs : ∀ d x, g { d with status := x } = g d) (h : Heap) (a : AgentId) (n m : NodeRef)
    (e : EventId) : g ((h.waitEvent cfg a n e).nodes m) = g (h.nodes m) := by
  unfold Heap.waitEvent
  split
  · split
    · rw [Heap.nodes_note, Heap.field_setNode _ _ _ g (fun d => hs d _)]
      exact Heap.field_push _ _ _ _ hg
    · rfl
  · rfl

theorem heap_event_false (s : State) (e : EventId) (a : AgentId) (immediate : Bool) :
    (s.event cfg e a immediate false).heap = s.heap := by
  unfold event
  split <;> rfl

/-- A flow of the node begins. -/
theorem runs_beginFlow (n : NodeRef) (b : AgentId) (rest : List Frame) : Runs n s
    { s.mapHeap (·.beginFlow (s.heap.currentIndex + 1) b n) with
      frames := .flow (s.heap.currentIndex + 1) n.chart 0 false :: rest } where
  frame := rfl
  pending := by
    generalize s.heap.currentIndex + 1 = l
    have hv : ∀ k, ((clearedFor s.heap l b n).detach n).stack k =
        (clearedFor s.heap l b n).stack k ∨ _ := stack_detach (clearedFor s.heap l b n) n
    have hc : ((clearedFor s.heap l b n).stack l).nodeList = [] := by
      simp [clearedFor, Heap.stack_setExecutor]
    have hd : (((clearedFor s.heap l b n).detach n).stack l).nodeList = [] := by
      rcases hv l with hv | hv <;> simp [hv, hc]
    change ((s.heap.beginFlow l b n).stack l).nodeList = [n]
    rw [stack_beginFlow]
    simp [Heap.push, Heap.link, Heap.stack_setExecutor, Heap.setNode, hd]
  container := Heap.container_push ..

/-- What a silent step leads to. -/
theorem next_of_tau (h : s.step cfg .tau = some t) : s.runTau cfg = some t :=
  (Option.filter_eq_some_iff.mp h).1

/-- The container an alternative puts the node into. -/
def target (cfg : Config) (a : AgentId) (s : State) : Alternative → Container
  | .pushed => .executor (s.heap.currentIndex - 1)
  | .run => .executor (s.heap.currentIndex + 1)
  | .putOff => .waiting a cfg.startEvent

theorem container_of_happens {b : Bool} {x : Alternative} (hx : x.Happens cfg a o b s t) :
    (t.heap.nodes o).container = some (target cfg a s x) := by
  cases x with
  | pushed => exact Pushed.container hx
  | run => exact Runs.container hx
  | putOff => exact hx.1.container

/-- The alternatives exclude each other. -/
theorem alternative_unique {b : Bool} {x y : Alternative} (hx : x.Happens cfg a o b s t)
    (hy : y.Happens cfg a o b s t) : x = y := by
  have hxy : target cfg a s x = target cfg a s y :=
    Option.some.inj ((container_of_happens hx).symm.trans (container_of_happens hy))
  cases x <;> cases y <;> simp only [target, Container.executor.injEq, reduceCtorEq] at hxy ⊢ <;>
    omega

/-- A call of `RunFlow` by `StartChart`: the flow is run, or else the stack is full. -/
theorem started_of_step (hv : cfg.validEvent cfg.startEvent = true) (hs : Reachable cfg s)
    (hf : s.frames = .enter ⟨c, 0⟩ :: .starting a c :: rest)
    (ha : s.heap.agentRunning a = true) (ht : s.step cfg .tau = some t) :
    if s.heap.currentIndex + 1 < maxStackSize then Runs ⟨c, 0⟩ s t
    else PutOff cfg a ⟨c, 0⟩ s t := by
  have hp := poised_of_reachable hs
  rw [hf] at hp
  obtain ⟨hrun, hag⟩ : s.heap.chartRunning c = true ∧
      (s.heap.agentOf ⟨c, 0⟩ = some a ∨ s.heap.agentOf ⟨c, 0⟩ = none) := by
    cases hp with
    | calm hc => exact absurd trivial (hc _ List.mem_cons_self)
    | deliver h => simp at h
    | start _ hr hag => exact ⟨hr, hag⟩
  have hub : t.heap.ub = false := by
    have := sound_of_step ht
    simp only [sound, Bool.and_eq_true, Bool.not_eq_true'] at this
    exact this.1
  have htu : s.enterFlow cfg ⟨c, 0⟩ (.starting a c :: rest) = t := by
    have hn := next_of_tau ht
    simp only [runTau, hf] at hn
    exact Option.some.inj hn
  have he := enters cfg s ⟨c, 0⟩ (.starting a c :: rest)
  rw [htu] at he
  cases he with
  | refused hl =>
    rw [if_neg (by omega)]
    have hx : (s.heap.charts c).isSome := by
      obtain ⟨x, hx, -⟩ := (Option.any_eq_true ..).mp hrun
      rw [hx]
      rfl
    exact (putOff_event (s := { s.mapHeap (·.note (.refused ⟨c, 0⟩)) with frames := rest })
      (n := ⟨c, 0⟩) hv ha hx false).before rfl rfl rfl
  | gone _ => cases hub
  | flow hl hb _ _ =>
    rw [if_pos hl]
    exact runs_beginFlow ..
  | @skipped b hl hb hr =>
    rcases hag with hag | hag
    · obtain rfl : a = b := Option.some.inj (hag.symm.trans hb)
      rcases hr with hr | hr
      · rw [ha] at hr
        cases hr
      · rw [hrun] at hr
        cases hr
    · rw [hag] at hb
      cases hb

variable (cfg) in
/-- `ContinueFlow` of the owner node: it pushes the node, or calls `RunFlow`. -/
def continued (s : State) : Option State :=
  (s.step cfg .tau).bind fun u => match u.frames with
    | .enter _ :: .returning _ :: _ => u.step cfg .tau
    | _ => some u

/-- When an owner node goes on: it is executed by the executor below the current one,
which is in its loop, or that executor has another current node, and the stack is full
or the chart of the owner node is running. -/
def GoesOn (s : State) (o : NodeRef) (rest : List Frame) : Prop :=
  if 0 < s.heap.currentIndex ∧ (s.heap.stack (s.heap.currentIndex - 1)).currentNode = some o then
    ∃ k r, .flow (s.heap.currentIndex - 1) o.chart k r ∈ rest
  else maxStackSize ≤ s.heap.currentIndex + 1 ∨ s.heap.chartRunning o.chart = true

/-- A call of `ContinueFlow` by `Return`. -/
theorem existsUnique_alternative_iff {b : Bool} (hv : cfg.validEvent cfg.startEvent = true)
    (hs : Reachable cfg s) (hf : s.frames = .continuing o :: .returning c :: rest)
    (hb : s.heap.log.head? = some (.owner o c b)) (ho : s.heap.agentOf o = some a)
    (ha : s.heap.agentRunning a = true) (ht : s.continued cfg = some t) :
    (∃! x : Alternative, x.Happens cfg a o b s t) ↔ s.GoesOn o rest := by
  have hp := poised_of_reachable hs
  rw [hf] at hp
  have hh : s.heap.Handed o c b := by
    cases hp with
    | calm hc => exact absurd trivial (hc _ List.mem_cons_self)
    | @continuing _ _ b' _ _ hh =>
      obtain rfl : b' = b := by
        have := hh.log.symm.trans hb
        simpa using this
      exact hh
  -- One alternative is enough, and the node must be in one of the three containers.
  have hone : ∀ x : Alternative, x.Happens cfg a o b s t →
      ∃! x : Alternative, x.Happens cfg a o b s t :=
    fun x hx => ⟨x, hx, fun y hy => alternative_unique hy hx⟩
  obtain ⟨u, hu, hut⟩ := Option.bind_eq_some_iff.mp ht
  have hsu : s.continueFlow o (.returning c :: rest) = u := by
    have hn := next_of_tau hu
    simp only [runTau, hf] at hn
    exact Option.some.inj hn
  unfold continueFlow at hsu
  unfold GoesOn
  rw [ho] at hsu
  dsimp only at hsu
  rw [if_neg (by simp)] at hsu
  split at hsu
  · rename_i hcur
    rw [if_pos hcur]
    subst hsu
    obtain rfl := Option.some.inj hut
    constructor
    · rintro ⟨x, hx, -⟩
      have hxc : target cfg a s x = .executor (s.heap.currentIndex - 1) :=
        Option.some.inj ((container_of_happens hx).symm.trans (Heap.container_push ..))
      cases x with
      | pushed =>
        obtain ⟨k, r, hm⟩ := Pushed.frame hx
        exact ⟨k, r, (List.mem_cons.mp hm).resolve_left (by simp)⟩
      | run =>
        simp only [target, Container.executor.injEq] at hxc
        omega
      | putOff => cases hxc
    · rintro ⟨k, r, hm⟩
      refine hone .pushed ⟨⟨k, r, List.mem_cons_of_mem _ hm⟩, ?_, ?_, Heap.container_push ..⟩
      · exact (Heap.currentNode_push ..).trans hcur.2
      · simp [mapHeap, Heap.continueFlow, Heap.push, Heap.link, Heap.stack_setExecutor,
          Heap.setNode]
  · rename_i hcur
    rw [if_neg hcur]
    subst hsu
    have htu : State.enterFlow cfg { s with frames := .enter o :: .returning c :: rest } o
        (.returning c :: rest) = t := Option.some.inj (next_of_tau hut)
    have he := enters cfg { s with frames := .enter o :: .returning c :: rest } o
      (.returning c :: rest)
    rw [htu] at he
    cases he with
    | refused hl =>
      have hw : State.refuse cfg { s with frames := .enter o :: .returning c :: rest } o
          (.returning c :: rest) =
          (State.mapHeap { s.mapHeap (·.note (.refused o)) with frames := .returning c :: rest }
            (·.waitEvent cfg a o cfg.startEvent)).event cfg cfg.startEvent a true false :=
        continueLater_eq ho
      have hx : (s.heap.charts o.chart).isSome := by
        obtain ⟨x, hx, -⟩ := Option.bind_eq_some_iff.mp ho
        rw [hx]
        rfl
      have hpo := (putOff_event (s := { s.mapHeap (·.note (.refused o)) with
        frames := .returning c :: rest }) (n := o) hv ha hx true).before (s := s) rfl rfl rfl
      rw [← hw] at hpo
      refine iff_of_true (hone .putOff ⟨hpo, ?_, ?_⟩) (.inl hl)
      · rw [hw, heap_event_false]
        exact (field_waitEvent (g := Node.skip) (fun _ _ _ => rfl) (fun _ _ => rfl) ..).trans
          hh.skip
      · rw [hw, heap_event_false]
        exact (field_waitEvent (g := Node.result) (fun _ _ _ => rfl) (fun _ _ => rfl) ..).trans
          hh.result
    | gone hg =>
      rw [show s.heap.agentOf o = none from hg] at ho
      cases ho
    | @flow d hl _ _ hr =>
      have hx := runs_beginFlow (s := { s with frames := .enter o :: .returning c :: rest }) o d
        (.returning c :: rest)
      exact iff_of_true (hone .run ⟨hx.frame, hx.pending, hx.container⟩) (.inr hr)
    | @skipped d hl hd hr =>
      obtain rfl : a = d := Option.some.inj (ho.symm.trans hd)
      refine iff_of_false ?_ ?_
      · rintro ⟨x, hx, -⟩
        have hnone : some (target cfg a s x) = none :=
          (container_of_happens hx).symm.trans hh.free
        cases hnone
      · rintro (hge | hrun)
        · exact absurd hge (Nat.not_le.mpr hl)
        · rcases hr with hr | hr
          · rw [show s.heap.agentRunning a = false from hr] at ha
            cases ha
          · rw [show s.heap.chartRunning o.chart = false from hr] at hrun
            cases hrun

/-- **Starts and returns when the stack may be full.** A synchronous start runs the start
node or puts it off, and exactly one of these; the latter when the stack is full. Exactly
one of the alternatives happens to the owner node of a chart that returns when the node
goes on: when the executor that is executing it is in its loop, or else when the stack is
full or the chart of the node is running. -/
theorem overflow_iff (hv : cfg.validEvent cfg.startEvent = true) (hs : Reachable cfg s) :
    (∀ a c rest t, s.frames = .enter ⟨c, 0⟩ :: .starting a c :: rest →
      s.heap.agentRunning a = true → s.step cfg .tau = some t →
      Xor (Runs ⟨c, 0⟩ s t) (PutOff cfg a ⟨c, 0⟩ s t) ∧
        (PutOff cfg a ⟨c, 0⟩ s t ↔ maxStackSize ≤ s.heap.currentIndex + 1)) ∧
    (∀ o c b rest a t, s.frames = .continuing o :: .returning c :: rest →
      s.heap.log.head? = some (.owner o c b) → s.heap.agentOf o = some a →
      s.heap.agentRunning a = true → s.continued cfg = some t →
      ((∃! x : Alternative, x.Happens cfg a o b s t) ↔ s.GoesOn o rest)) := by
  refine ⟨fun a c rest t hf ha ht => ?_, fun o c b rest a t hf hb ho ha ht => ?_⟩
  · have hst := started_of_step hv hs hf ha ht
    have hne : ¬(Runs ⟨c, 0⟩ s t ∧ PutOff cfg a ⟨c, 0⟩ s t) := by
      rintro ⟨hr, hp⟩
      cases hr.container.symm.trans hp.container
    split at hst
    · exact ⟨.inl ⟨hst, fun hp => hne ⟨hst, hp⟩⟩,
        iff_of_false (fun hp => hne ⟨hst, hp⟩) (by omega)⟩
    · exact ⟨.inr ⟨hst, fun hr => hne ⟨hr, hst⟩⟩, iff_of_true hst (by omega)⟩
  · exact existsUnique_alternative_iff hv hs hf hb ho ha ht

/-- A chart with a node that calls a subchart. -/
def ownerChart : ChartData :=
  { name := "owner", nodes := [{ success := [1] }, { func := .script }] }

/-- A chart that waits for an event. -/
def listenerChart : ChartData :=
  { name := "waiting", nodes := [{ success := [1] }, { func := .script, isEvent := true }] }

/-- The calls that bring such a chart to its node. -/
def ownerStarts : List Act :=
  [.op (.importChart ownerChart), .op (.importChart listenerChart), .op (.register 0),
    .op (.attachChart 1 "owner"), .op (.setCall 0), .op (.startChart 0)]

/-- The node calls a chart that waits for an event. -/
def ownerCalls : List Act :=
  [.op (.subchart "waiting" 1), .op (.waitEvent 1 0), .ret .rTrue, .ret .rTrue]

/-- An owner node goes on when its subchart is done. -/
theorem overflow_owner : ∃ s t, Reachable { deferEvent := false } s ∧
    s.continued { deferEvent := false } = some t ∧
    ∃! x : Alternative, x.Happens { deferEvent := false } 1 ⟨0, 1⟩ true s t := by
  obtain ⟨s, hs, hf, hb, ho, ha, hrun, hcur, ht⟩ := exists_of_exec { deferEvent := false }
    (ownerStarts ++ ownerCalls) (.op (.event 0 1 false true) :: List.replicate 6 .tau)
    (fun s => s.frames = .continuing ⟨0, 1⟩ :: .returning 1 :: s.frames.tail.tail ∧
      s.heap.log.head? = some (.owner ⟨0, 1⟩ 1 true) ∧ s.heap.agentOf ⟨0, 1⟩ = some 1 ∧
      s.heap.agentRunning 1 = true ∧ s.heap.chartRunning 0 = true ∧
      (s.heap.stack (s.heap.currentIndex - 1)).currentNode = none ∧
      (s.continued { deferEvent := false }).isSome) (by decide +kernel)
  obtain ⟨t, ht⟩ := Option.isSome_iff_exists.mp ht
  refine ⟨s, t, hs, ht, ((overflow_iff rfl hs).2 _ _ _ _ _ t hf hb ho ha ht).mpr ?_⟩
  rw [GoesOn, if_neg (by simp [hcur])]
  exact .inr hrun

/-- **A return is lost**: the callback of the owner chart has restarted it, and the flow
that called the callback has set its status back to idle. `RunFlow` then does nothing with
the owner node, and says it has run it. -/
theorem not_overflow_idle : ∃ s t, Reachable { deferEvent := false } s ∧
    s.frames = .continuing ⟨0, 1⟩ :: .returning 1 :: s.frames.tail.tail ∧
    s.heap.log.head? = some (.owner ⟨0, 1⟩ 1 true) ∧ s.heap.agentOf ⟨0, 1⟩ = some 1 ∧
    s.heap.agentRunning 1 = true ∧ s.continued { deferEvent := false } = some t ∧
    ¬∃! x : Alternative, x.Happens { deferEvent := false } 1 ⟨0, 1⟩ true s t := by
  obtain ⟨s, hs, hf, hb, ho, ha, hidle, hidx, hcur, ht⟩ := exists_of_exec { deferEvent := false }
    (ownerStarts ++ [.ret .rTrue, .op (.startChart 0)] ++ ownerCalls ++ [.done])
    (.op (.event 0 1 false true) :: List.replicate 6 .tau)
    (fun s => s.frames = .continuing ⟨0, 1⟩ :: .returning 1 :: s.frames.tail.tail ∧
      s.heap.log.head? = some (.owner ⟨0, 1⟩ 1 true) ∧ s.heap.agentOf ⟨0, 1⟩ = some 1 ∧
      s.heap.agentRunning 1 = true ∧ s.heap.chartRunning 0 = false ∧ s.heap.currentIndex = 1 ∧
      (s.heap.stack 0).currentNode = none ∧
      (s.continued { deferEvent := false }).isSome) (by decide +kernel)
  obtain ⟨t, ht⟩ := Option.isSome_iff_exists.mp ht
  refine ⟨s, t, hs, hf, hb, ho, ha, ht, fun hx => ?_⟩
  have hg := (existsUnique_alternative_iff rfl hs hf hb ho ha ht).mp hx
  rw [GoesOn, hidx, if_neg (by simp [hcur]), hidle] at hg
  simp [maxStackSize] at hg

end State

end Asyncflow
