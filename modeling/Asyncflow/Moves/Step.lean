import Asyncflow.Moves.Flow
import Asyncflow.Moves.Frames

/-!
# The steps of the machine

`Asyncflow.State.Trans` lists what a step can do, one constructor for each call
that goes on and one for each action of the environment;
`Asyncflow.State.trans_of_step` is the inversion of a step. The heap of a step
does a sequence of moves (`Asyncflow.State.does_of_step`), and so does the heap of
a run.

A step puts a node astray (`Asyncflow.State.Strays`) in two situations only: a
context is continued or cancelled although its node is linked somewhere else, and
a flow starts on an executor on which nodes are still pending.
-/

namespace Asyncflow

namespace State

variable {cfg : Config} {s t : State} {a : Act}

/-! ### The inversion of a step -/

/-- What a step can do. -/
inductive Trans (cfg : Config) (s : State) : Act → State → Prop
  | enter {n rest} : s.frames = .enter n :: rest → Trans cfg s .tau (s.enterFlow cfg n rest)
  | continuing {n rest} : s.frames = .continuing n :: rest →
      Trans cfg s .tau (s.continueFlow n rest)
  | starting {a c rest} : s.frames = .starting a c :: rest →
      Trans cfg s .tau { s with frames := rest }
  | flow {l c k r rest} : s.frames = .flow l c k r :: rest →
      Trans cfg s .tau (s.flowRound cfg l c k r rest)
  | ran {n l c k r rest} : s.frames = .ran n :: .flow l c k r :: rest →
      Trans cfg s .tau (s.flowFinish n l c k r rest)
  | ended {l c r rest} : s.frames = .ended l c r :: rest →
      Trans cfg s .tau (s.flowCheck l c r rest)
  | flowReturn {l c rest} : s.frames = .flowReturn l c :: rest →
      Trans cfg s .tau (s.flowReturned l c rest)
  | returning {c rest} : s.frames = .returning c :: rest →
      Trans cfg s .tau ({ s with frames := rest }.finishReturn c)
  | handle {ev rest} : s.frames = .handle ev :: rest → Trans cfg s .tau (s.handleRound rest)
  | trigger {prev ev rest} : s.frames = .trigger prev ev :: rest →
      Trans cfg s .tau (s.triggered prev ev rest)
  | async {rest} : s.frames = .async :: rest → Trans cfg s .tau (s.asyncRound rest)
  | events {rest} : s.frames = .events :: rest → Trans cfg s .tau (s.eventsRound cfg rest)
  | deleteEvent {ev rest} : s.frames = .deleteEvent ev :: rest →
      Trans cfg s .tau ({ s with frames := rest }.qnote (.deleted ev))
  | dying {as rest} : s.frames = .dying as :: rest → Trans cfg s .tau (s.dyingRound as rest)
  | released {a rest} : s.frames = .release a :: rest → Trans cfg s .done (s.released cfg a rest)
  | op {o t} : s.mayCall o = true → s.runOp cfg o = some t → Trans cfg s (.op o) t
  | ret {n rest} (r) : s.frames = .func n :: rest →
      Trans cfg s (.ret r) (({ s with frames := rest }.mapHeap (·.returnNode n r)).call (.ran n))
  | done {c rest} : s.frames = .callback c :: rest → Trans cfg s .done { s with frames := rest }
  | fire {n rest} : s.frames = .timers :: rest → (s.heap.nodes n).attacher = some (.timer true) →
      Trans cfg s (.fire n) (s.fire n)
  | tick {a rest} : s.frames = .timers :: rest → (s.heap.agents a).isSome →
      Trans cfg s (.tick a) (s.event cfg cfg.tickEvent a false false)
  | timersDone {rest} : s.frames = .timers :: rest →
      Trans cfg s .timersDone { s with frames := .async :: rest }

theorem trans_of_next (h : s.next cfg a = some t) : Trans cfg s a t := by
  cases a with
  | tau =>
    simp only [next, runTau] at h
    split at h <;> first | (obtain rfl := Option.some.inj h) | cases h
    · exact .enter ‹_›
    · exact .continuing ‹_›
    · exact .starting ‹_›
    · exact .flow ‹_›
    · exact .ran ‹_›
    · exact .ended ‹_›
    · exact .flowReturn ‹_›
    · exact .returning ‹_›
    · exact .handle ‹_›
    · exact .trigger ‹_›
    · exact .async ‹_›
    · exact .events ‹_›
    · exact .deleteEvent ‹_›
    · exact .dying ‹_›
  | op o =>
    simp only [next] at h
    split at h
    · exact .op ‹_› h
    · cases h
  | ret r =>
    simp only [next] at h
    split at h
    · obtain rfl := Option.some.inj h
      exact .ret r ‹_›
    · cases h
  | done =>
    simp only [next] at h
    split at h
    · obtain rfl := Option.some.inj h
      exact .done ‹_›
    · obtain rfl := Option.some.inj h
      exact .released ‹_›
    · cases h
  | fire n =>
    simp only [next] at h
    split at h
    · split at h
      · obtain rfl := Option.some.inj h
        exact .fire ‹_› ‹_›
      · cases h
    · cases h
  | tick a =>
    simp only [next] at h
    split at h
    · split at h
      · obtain rfl := Option.some.inj h
        exact .tick ‹_› ‹_›
      · cases h
    · cases h
  | timersDone =>
    simp only [next] at h
    split at h
    · obtain rfl := Option.some.inj h
      exact .timersDone ‹_›
    · cases h

/-- **The inversion of a step.** -/
theorem trans_of_step (h : s.step cfg a = some t) : Trans cfg s a t ∧ t.sound = true := by
  obtain ⟨h1, h2⟩ := Option.filter_eq_some_iff.mp h
  exact ⟨trans_of_next h1, h2⟩

theorem sound_of_step (h : s.step cfg a = some t) : t.sound = true := (trans_of_step h).2

theorem ub_of_sound (h : s.sound = true) : s.heap.ub = false := by
  simp only [sound, Bool.and_eq_true, Bool.not_eq_true'] at h
  exact h.1

/-- The chart of a call in progress is there. -/
theorem alive_of_sound (h : s.sound = true) {f : Frame} (hf : f ∈ s.frames) {c : ChartId}
    (hc : f.chart? = some c) : (s.heap.charts c).isSome := by
  simp only [sound, Bool.and_eq_true, List.all_eq_true] at h
  have := h.2 f hf
  rw [hc] at this
  exact this

/-- What every reachable state satisfies for the moves to go through. -/
structure Wf (s : State) : Prop where
  born : s.heap.Born
  sound : s.sound = true
  entry : ∀ f ∈ s.frames, ∀ n, f.entry? = some n → s.heap.Made n

theorem wf_init : init.Wf := ⟨Heap.born_init, rfl, nofun⟩

/-! ### The moves of a step -/

/-- A step that puts a node astray: its context is continued or cancelled although
it is linked in a container of another kind, or the list it is pending on is
cleared for a new flow. -/
def Strays (s : State) : Act → Prop
  | .op (.continueAsyncNode ctx _) | .op (.cancelAsyncNode ctx _) =>
    s.heap.nodeAt ctx ∈ s.heap.nodesSet ∧ ¬s.heap.awaited (s.heap.nodeAt ctx)
  | .tau => match s.frames with
    | .enter n :: _ => s.heap.currentIndex + 1 < maxStackSize ∧ s.heap.chartRunning n.chart ∧
        (s.heap.agentOf n).any s.heap.agentRunning ∧ ¬s.heap.vacant (s.heap.currentIndex + 1)
    | _ => False
  | _ => False

instance : Decidable (s.Strays a) := by
  unfold Strays
  split <;> try infer_instance
  split <;> infer_instance

/-- What a step may do. -/
def Permits (s : State) (a : Act) : Permit → Prop
  | .stray => s.Strays a
  | .load data => a = .op (.importChart data) ∨
      ∃ doc, a = .op (.patchChart doc) ∧ fromYaml doc = some (true, data)
  | .patch doc => a = .op (.patchChart doc)
  | .create d => ∃ g name, (a = .op (.attachChart g name) ∨ a = .op (.subchart name g)) ∧
      s.heap.chartDataDict name = some d
  | .agents => match a, s.frames with
    | .op (.register _), _ | .op (.unregister _), _ | .tau, .dying _ :: _
    | .done, .release _ :: _ => True
    | _, _ => False

/-- The executors on which a step can do the work of a flow: that of the innermost
flow, of the one that is started, or of the one that goes on. -/
def Flows (s : State) : ℕ → Prop :=
  match s.frames with
  | .enter _ :: _ => (· = s.heap.currentIndex + 1)
  | .continuing _ :: _ => (· = s.heap.currentIndex - 1)
  | .flow l _ _ _ :: _ | .ran _ :: .flow l _ _ _ :: _ | .ended l _ _ :: _ | .flowReturn l _ :: _ =>
    (· = l)
  | _ => fun _ => False

variable {flows : ℕ → Prop} {may : Permit → Prop} {D : NodeRef → Prop} {n : NodeRef} {c : ChartId}

theorem does_event (s : State) (e : EventId) (a : AgentId) (immediate trigger : Bool) :
    Heap.Does flows may D s.heap (s.event cfg e a immediate trigger).heap := by
  unfold event
  split
  · cases trigger with
    | false => exact .refl s.heap
    | true =>
      simp only [↓reduceIte, triggerEvent]
      split
      · exact .refl s.heap
      · split
        · exact .refl s.heap
        · exact .of_move (Heap.Move.swap _ _)
  · exact .refl s.heap

theorem heap_addLater (s : State) (e : EventId) (a : AgentId) (immediate : Bool) :
    (s.event cfg e a immediate false).heap = s.heap := by
  unfold event
  split <;> rfl

/-- Undefined behaviour is not undone. -/
theorem ub_startLater {s : State} {a : AgentId} (hub : (s.startLater cfg a c).heap.ub = false) :
    s.heap.ub = false := by
  unfold startLater at hub
  rw [heap_addLater] at hub
  exact @Heap.ub_waitEvent _ _ cfg _ cfg.startEvent hub

theorem does_startLater (s : State) (a : AgentId) (hc : s.heap.Made ⟨c, 0⟩) :
    Heap.Does flows may D s.heap (s.startLater cfg a c).heap := by
  refine .trans (Heap.does_waitEvent cfg (n := ⟨c, 0⟩) hc a cfg.startEvent) ?_
  exact does_event (s.mapHeap (·.waitEvent cfg a ⟨c, 0⟩ cfg.startEvent)) _ _ _ _

/-- The start node of a chart that can be started. -/
theorem made_start (hb : s.heap.Born) (hub : (s.heap.markStarted c).ub = false) :
    s.heap.Made ⟨c, 0⟩ := by
  cases hx : s.heap.charts c with
  | none => simp [Heap.markStarted, hx, Heap.crash] at hub
  | some x =>
    by_cases hne : x.nodeCount = 0
    · simp [Heap.markStarted, hx, hne, Heap.crash] at hub
    · refine ⟨hb.chart c (by rw [hx]; rfl), fun y hy => ?_⟩
      obtain rfl : x = y := Option.some.inj (hx.symm.trans hy)
      exact Nat.pos_of_ne_zero hne

/-- The state after a chart has been marked as started. -/
theorem does_startChart (s : State) (a : AgentId) (hb : s.heap.Born) (sync : Bool)
    (hub : (s.startChart cfg a c sync).heap.ub = false) :
    Heap.Does flows may D s.heap (s.startChart cfg a c sync).heap := by
  have hm : Heap.Does flows may D s.heap (s.heap.markStarted c) := Heap.does_markStarted _ c
  unfold startChart at hub ⊢
  dsimp only at hub ⊢
  split at hub
  · rw [if_pos ‹_›]
    exact .refl s.heap
  · rw [if_neg ‹_›]
    cases sync with
    | true => exact hm
    | false =>
      refine hm.trans (does_startLater (s.mapHeap (·.markStarted c)) a ?_)
      exact (made_start hb (ub_startLater hub)).of_keeps (Heap.keeps_of_does hm)

theorem does_chartReturn (s : State) (c : ChartId) (b : Bool) :
    Heap.Does flows may D s.heap (s.chartReturn c b).heap := by
  have hn : Heap.Does flows may D s.heap (s.heap.note (.returned c b)) :=
    Heap.does_note _ trivial
  unfold chartReturn
  dsimp only
  split
  · exact hn
  · exact hn.trans ((Heap.does_stop _ _).trans (Heap.does_act (.owner c b) False.elim))

theorem does_continueLater (hn : s.heap.Made n) :
    Heap.Does flows may D s.heap (s.continueLater cfg n).heap := by
  unfold continueLater
  split
  · rename_i a ha
    refine .trans (Heap.does_waitEvent cfg hn a cfg.startEvent) ?_
    exact does_event (s.mapHeap (·.waitEvent cfg a n cfg.startEvent)) _ _ _ _
  · exact Heap.does_crash _

theorem does_finishReturn (s : State) (c : ChartId) :
    Heap.Does flows may D s.heap (s.finishReturn c).heap := by
  have hn : Heap.Does flows may D s.heap (s.heap.stopChart c) := Heap.does_stopChart _ c
  unfold finishReturn
  dsimp only
  split
  · exact hn.trans (Heap.does_setChart _ c (fun _ => ⟨⟨rfl, rfl⟩, rfl, id⟩) fun _ _ => .inl rfl)
  · exact hn

theorem does_managerReturn (s : State) (b : Bool) :
    Heap.Does flows may D s.heap (s.managerReturn b).heap := by
  unfold managerReturn
  split
  · exact Heap.does_crash _
  · split
    · exact does_chartReturn s _ b
    · exact .refl s.heap

theorem does_subchart (hb : s.heap.Born) {name : String}
    (hmay : ∀ d, s.heap.chartDataDict name = some d → may (.create d)) (a : AgentId)
    (hub : (s.subchart cfg name a).heap.ub = false) :
    Heap.Does flows may D s.heap (s.subchart cfg name a).heap := by
  have hp : Heap.Does flows may D s.heap (s.heap.prepareSubchart name a).2 :=
    Heap.does_prepareSubchart (fun n hn => hb.current _ n hn) hmay a
  unfold subchart at hub ⊢
  dsimp only at hub ⊢
  split at hub
  · rw [if_pos ‹_›]
    split at hub
    · exact hp.trans (does_startChart (s.mapHeap fun _ => (s.heap.prepareSubchart name a).2) a
        (hb.does hp) true hub)
    · exact hp
  · rw [if_neg ‹_›]
    exact .refl s.heap

theorem does_refuse (hw : s.Wf) {rest : List Frame} (hf : s.frames = .enter n :: rest) :
    Heap.Does flows may D s.heap (s.refuse cfg n rest).heap := by
  have hn : Heap.Does flows may D s.heap (s.heap.note (.refused n)) :=
    Heap.does_note _ trivial
  unfold refuse
  split
  · rename_i a c rest
    exact hn.trans (does_startLater { s.mapHeap (·.note (.refused n)) with frames := rest } a
      (hw.entry (.starting a c) (by simp [hf]) _ rfl))
  · rename_i c rest
    exact hn.trans (does_continueLater
      (s := { s.mapHeap (·.note (.refused n)) with frames := .returning c :: rest })
      (hw.entry (.enter n) (by simp [hf]) n rfl))
  · exact hn

theorem does_enterFlow (hw : s.Wf) {rest : List Frame} (hf : s.frames = .enter n :: rest)
    (hfl : flows (s.heap.currentIndex + 1))
    (hmay : ∀ p, s.Permits .tau p → may p) :
    Heap.Does flows may D s.heap (s.enterFlow cfg n rest).heap := by
  unfold enterFlow
  dsimp only
  split
  · exact does_refuse hw hf
  · split
    · exact Heap.does_crash _
    · rename_i hl _ a ha
      split
      · rename_i hr
        obtain ⟨har, hcr⟩ : s.heap.agentRunning a = true ∧ s.heap.chartRunning n.chart = true := by
          simpa using hr
        refine .of_move (Heap.Move.beginFlow _ a hfl (hw.entry (.enter n) (by simp [hf]) n rfl) ?_)
        by_cases hv : s.heap.vacant (s.heap.currentIndex + 1)
        · exact .inr hv
        · refine .inl (hmay .stray ?_)
          simp only [Permits, Strays, hf]
          exact ⟨by omega, hcr, by simp [ha, har], hv⟩
      · exact Heap.does_skipFlow _ hfl a n

theorem does_continueFlow (hn : s.heap.Made n) (rest : List Frame)
    (hfl : flows (s.heap.currentIndex - 1)) :
    Heap.Does flows may D s.heap (s.continueFlow n rest).heap := by
  unfold continueFlow
  dsimp only
  split
  · exact Heap.does_crash _
  · split
    · exact .of_move (Heap.Move.continueFlow _ hfl hn)
    · exact .refl s.heap

theorem does_runNode {l : ℕ} (hfl : flows l) (hn : n ∈ (s.heap.stack l).nodeList) :
    Heap.Does flows may D s.heap (s.runNode l n).heap := by
  have he : Heap.Does flows may D s.heap (s.heap.enterNode l n) :=
    Heap.does_enterNode hfl hn
  unfold runNode
  dsimp only
  split
  · exact he
  · split
    · exact he
    · exact he
    · exact he.trans ((Heap.does_callControl _ _).trans (Heap.does_returnNode _ _ _))

theorem does_flowRound (hb : s.heap.Born) {l : ℕ} (hfl : flows l) (c : ChartId) (k : ℕ) (r : Bool)
    (rest : List Frame) : Heap.Does flows may D s.heap (s.flowRound cfg l c k r rest).heap := by
  unfold flowRound
  split
  · exact Heap.does_restoreHistory _ hfl
  · rename_i n ns hl
    have hn : n ∈ (s.heap.stack l).nodeList := by simp [hl]
    split
    · exact Heap.does_restoreHistory _ hfl
    · split
      · exact (Heap.does_cutFlow _ hfl).trans (Heap.does_restoreHistory _ hfl)
      · split
        · exact Heap.does_pop _ hfl
        · split
          · exact Heap.does_deferTick (hb.linked (.executor l) n hn)
          · exact does_runNode (s := { s with frames := .flow l c (k + 1) r :: rest }) hfl hn

theorem does_flowCheck (s : State) {l : ℕ} (hfl : flows l) (c : ChartId) (r : Bool)
    (rest : List Frame) :
    Heap.Does flows may D s.heap (s.flowCheck l c r rest).heap := by
  unfold flowCheck
  split
  · exact does_chartReturn { s with frames := .flowReturn l c :: rest } c true
  · exact Heap.does_closeFlow _ hfl

theorem does_flowReturned (s : State) {l : ℕ} (hfl : flows l) (c : ChartId) (rest : List Frame) :
    Heap.Does flows may D s.heap (s.flowReturned l c rest).heap := by
  refine .trans ?_ (Heap.does_closeFlow _ hfl)
  exact Heap.does_setChart _ c (fun _ => ⟨⟨rfl, rfl⟩, rfl, fun hi => nomatch hi⟩)
    fun _ _ => .inl rfl

theorem does_handleRound (s : State) (rest : List Frame) :
    Heap.Does flows may D s.heap (s.handleRound rest).heap := by
  unfold handleRound
  split
  · exact .refl s.heap
  · rename_i r rs hh
    split
    · exact .of_move (Heap.Move.dropHandling hh ‹_›)
    · exact .of_move (Heap.Move.deliver hh ‹_›)

/-- The node that the async manager has taken is run next. -/
theorem does_resumeNode {n : NodeRef} {ns : List NodeRef} {rest : List Frame}
    (ha : s.heap.activated = n :: ns) (hs : (s.asyncRound rest).sound = true) :
    Heap.Does flows may D s.heap (s.heap.resumeNode n ns) := by
  simp only [asyncRound, ha] at hs
  exact Heap.does_resumeNode ha (alive_of_sound hs (f := .enter n) List.mem_cons_self rfl)

theorem does_asyncRound {rest : List Frame} (hs : (s.asyncRound rest).sound = true) :
    Heap.Does flows may D s.heap (s.asyncRound rest).heap := by
  rcases ha : s.heap.activated with _ | ⟨n, ns⟩
  · simp only [asyncRound, ha]
    exact .refl s.heap
  · have hd : Heap.Does flows may D s.heap (s.heap.resumeNode n ns) := does_resumeNode ha hs
    simp only [asyncRound, ha]
    exact hd

theorem does_dyingRound (hp : may .agents) (s : State) (as : List AgentId) (rest : List Frame) :
    Heap.Does flows may D s.heap (s.dyingRound as rest).heap := by
  unfold dyingRound
  split
  · exact Heap.does_swapDying hp _
  · exact .refl s.heap

theorem does_eventsRound (s : State) (rest : List Frame) :
    Heap.Does flows may D s.heap (s.eventsRound cfg rest).heap := by
  unfold eventsRound
  split
  · exact .refl s.heap
  · dsimp only
    split
    · exact .refl s.heap
    · exact .of_move (Heap.Move.swap _ _)

theorem does_runOp (hb : s.heap.Born) (hub : t.heap.ub = false) {o : Op}
    (ht : s.runOp cfg o = some t)
    (hmay : ∀ p, s.Permits (.op o) p → may p) : Heap.Does flows may D s.heap t.heap := by
  have hcur : ∀ n, s.heap.currentNode = some n → s.heap.Made n := fun n hn => hb.current _ n hn
  have hok : ∀ n : NodeRef, (n ∈ s.heap.nodesSet ∧ ¬s.heap.awaited n → may .stray) →
      may .stray ∨ (n ∈ s.heap.nodesSet → s.heap.awaited n) := by
    intro n hn
    by_cases ha : n ∈ s.heap.nodesSet → s.heap.awaited n
    · exact .inr ha
    · exact .inl (hn (by simpa using ha))
  cases o <;> simp only [runOp] at ht
  case importChart data => cases ht; exact Heap.does_importChart _ (hmay (.load data) (.inl rfl))
  case patchChart doc =>
    cases ht
    exact Heap.does_patchChart _ (hmay (.patch doc) rfl)
      fun data hd => hmay (.load data) (.inr ⟨doc, rfl, hd⟩)
  case register o => cases ht; exact Heap.does_register (hmay .agents trivial) _ o
  case unregister a => cases ht; exact Heap.does_unregisterGameObject (hmay .agents trivial) _ a _
  case attachChart a name =>
    split at ht <;> cases ht
    split
    · exact Heap.does_attachChart (hmay (.create _) ⟨a, name, .inl rfl, ‹_›⟩) _ a
    · exact .refl s.heap
  case removeChart a name => cases ht; exact Heap.does_removeChart _ a name
  case startChart c =>
    split at ht
    · obtain ⟨a, ha, rfl⟩ := Option.map_eq_some_iff.mp ht
      exact does_startChart s a hb _ hub
    · cases ht
  case stopChart c => split at ht <;> cases ht; exact Heap.does_stopChart _ c
  case stopAgent a => cases ht; exact Heap.does_stopAgent _ a
  case setCall c =>
    cases ht
    exact Heap.does_setChart _ c (fun _ => ⟨⟨rfl, rfl⟩, rfl, id⟩) fun _ _ => .inl rfl
  case event e a immediate trigger => cases ht; exact does_event s e a immediate trigger
  case continueAsyncNode ctx b =>
    cases ht
    exact Heap.does_continueAsyncNode ctx b (hok _ (hmay .stray))
  case cancelAsyncNode ctx stop =>
    cases ht
    exact Heap.does_cancelAsyncNode ctx stop (hok _ (hmay .stray))
  case wait => cases ht; exact Heap.does_wait hcur
  case waitEvent a e =>
    split at ht <;> cases ht
    exact Heap.does_managerWaitEvent hcur a e
  case waitAll args => cases ht; exact Heap.does_waitAll _ args
  case stopNode args => cases ht; exact Heap.does_stopNodes _ args
  case stopFlow args => cases ht; exact Heap.does_stopFlow _ args
  case subchart name a =>
    cases ht
    exact does_subchart hb (fun d hd => hmay (.create d) ⟨a, name, .inr rfl, hd⟩) a hub
  case createAsyncContext => cases ht; exact Heap.does_createAsyncContext hcur
  case managerReturn b => cases ht; exact does_managerReturn s b
  case step => cases ht; exact .refl s.heap
  case place cells => cases ht; exact Heap.Alike.does (Heap.alike_place cells)

/-- **A step does a sequence of moves.** -/
theorem does_of_step (hfl : ∀ l, s.Flows l → flows l) (hw : s.Wf) (h : s.step cfg a = some t)
    (hmay : ∀ p, s.Permits a p → may p) : Heap.Does flows may D s.heap t.heap := by
  have hb := hw.born
  have hall : ∀ {fs l}, s.frames = fs → ({ s with frames := fs } : State).Flows l → flows l := by
    rintro _ l rfl hl
    exact hfl l hl
  cases (trans_of_step h).1 with
  | enter hf => exact does_enterFlow hw hf (hall hf rfl) hmay
  | continuing hf =>
    exact does_continueFlow (hw.entry (.continuing _) (by simp [hf]) _ rfl) _ (hall hf rfl)
  | starting hf => exact .refl s.heap
  | flow hf => exact does_flowRound hb (hall hf rfl) ..
  | ran hf => exact Heap.does_finishNode (hall hf rfl) hb
  | ended hf => exact does_flowCheck _ (hall hf rfl) ..
  | flowReturn hf => exact does_flowReturned _ (hall hf rfl) ..
  | returning hf => exact does_finishReturn { s with frames := _ } _
  | handle hf => exact does_handleRound ..
  | trigger hf => exact .refl s.heap
  | async hf => exact does_asyncRound (sound_of_step h)
  | events hf => exact does_eventsRound ..
  | dying hf => exact does_dyingRound (hmay .agents (by simp [Permits, hf])) ..
  | released hf => exact Heap.does_destroyAgent (hmay .agents (by simp [Permits, hf])) ..
  | deleteEvent hf => exact .refl s.heap
  | op hm ho => exact does_runOp hb (ub_of_sound (sound_of_step h)) ho hmay
  | ret r hf => exact Heap.does_returnNode ..
  | done hf => exact .refl s.heap
  | fire hf hn => exact Heap.does_act .fire False.elim
  | tick hf ha => exact does_event ..
  | timersDone hf => exact .refl s.heap

/-! ### Runs -/

variable (cfg) in
/-- **Reachable states.** -/
abbrev Reachable (s : State) : Prop := Run.Reaches (step cfg) init s

theorem reachable_of_play {as : List Act} (h : play cfg as = some s) : Reachable cfg s :=
  Run.reaches_of_drive h

/-- A reachable state found by playing actions. -/
theorem exists_of_play (cfg : Config) (as : List Act) (P : State → Prop) [DecidablePred P]
    (h : ((play cfg as).any fun s => decide (P s)) = true) : ∃ s, Reachable cfg s ∧ P s := by
  cases hp : play cfg as with
  | none => simp [hp] at h
  | some s => exact ⟨s, reachable_of_play hp, by simpa [hp] using h⟩

/-- A reachable state and a later one, found by playing actions. -/
theorem exists_of_play_play (cfg : Config) (as bs : List Act) (P : State → State → Prop)
    [∀ s u, Decidable (P s u)]
    (h : ((play cfg as).any fun s => (Run.drive (step cfg) .tau 1000 s bs).any
      fun u => decide (P s u)) = true) :
    ∃ s u, Reachable cfg s ∧ Run.Reaches (step cfg) s u ∧ P s u := by
  cases hp : play cfg as with
  | none => simp [hp] at h
  | some s =>
    rw [hp] at h
    cases hq : Run.drive (step cfg) .tau 1000 s bs with
    | none => simp [hq] at h
    | some u =>
      exact ⟨s, u, reachable_of_play hp, Run.reaches_of_drive hq, by simpa [hq] using h⟩

/-- A reachable state found by playing actions and then executing some. -/
theorem exists_of_exec (cfg : Config) (as bs : List Act) (P : State → Prop) [DecidablePred P]
    (h : ((play cfg as).any fun s => (Run.exec (step cfg) s bs).any
      fun u => decide (P u)) = true) : ∃ u, Reachable cfg u ∧ P u := by
  cases hp : play cfg as with
  | none => simp [hp] at h
  | some s =>
    rw [hp] at h
    cases hq : Run.exec (step cfg) s bs with
    | none => simp [hq] at h
    | some u =>
      exact ⟨u, (reachable_of_play hp).trans (Run.reaches_of_exec hq), by simpa [hq] using h⟩

/-- A guarded run found by playing actions. -/
theorem exists_of_guarded (cfg : Config) (ok : State → Act → Prop) [∀ s a, Decidable (ok s a)]
    (as : List Act) (P : State → Prop) [DecidablePred P]
    (h : ((Run.drive (Run.guarded (step cfg) ok) .tau 1000 init as).any
      fun s => decide (P s)) = true) : ∃ s, Run.Steps (step cfg) ok init s ∧ P s := by
  cases hp : Run.drive (Run.guarded (step cfg) ok) .tau 1000 init as with
  | none => simp [hp] at h
  | some s => exact ⟨s, Run.steps_of_guarded (Run.reaches_of_drive hp), by simpa [hp] using h⟩

/-- A guarded run found by playing actions and then executing some. -/
theorem exists_of_guarded_exec (cfg : Config) (ok : State → Act → Prop)
    [∀ s a, Decidable (ok s a)] (as bs : List Act) (P : State → Prop) [DecidablePred P]
    (h : ((Run.drive (Run.guarded (step cfg) ok) .tau 1000 init as).any fun s =>
      (Run.exec (Run.guarded (step cfg) ok) s bs).any fun u => decide (P u)) = true) :
    ∃ s, Run.Steps (step cfg) ok init s ∧ P s := by
  cases hp : Run.drive (Run.guarded (step cfg) ok) .tau 1000 init as with
  | none => simp [hp] at h
  | some s =>
    rw [hp] at h
    cases hq : Run.exec (Run.guarded (step cfg) ok) s bs with
    | none => simp [hq] at h
    | some u =>
      exact ⟨u, Run.steps_of_guarded ((Run.reaches_of_drive hp).trans (Run.reaches_of_exec hq)),
        by simpa [hq] using h⟩

/-- A reachable state and the end of a guarded run from it, found by executing
actions. -/
theorem exists_of_play_exec (cfg : Config) (ok : State → Act → Prop) [∀ s a, Decidable (ok s a)]
    (as bs : List Act) (P : State → State → Prop) [∀ s u, Decidable (P s u)]
    (h : ((play cfg as).any fun s => (Run.exec (Run.guarded (step cfg) ok) s bs).any
      fun u => decide (P s u)) = true) :
    ∃ s u, Reachable cfg s ∧ Run.Steps (step cfg) ok s u ∧ P s u := by
  cases hp : play cfg as with
  | none => simp [hp] at h
  | some s =>
    rw [hp] at h
    cases hq : Run.exec (Run.guarded (step cfg) ok) s bs with
    | none => simp [hq] at h
    | some u =>
      exact ⟨s, u, reachable_of_play hp, Run.steps_of_guarded (Run.reaches_of_exec hq),
        by simpa [hq] using h⟩

/-! ### What is pushed on the call stack -/

theorem made_of_startChart {g : AgentId} {sync : Bool} (hb : s.heap.Born)
    (hub : (s.startChart cfg g c sync).heap.ub = false) (hr : s.heap.chartRunning c = false) :
    (s.startChart cfg g c sync).heap.Made ⟨c, 0⟩ := by
  have hd : Heap.Does (fun _ => True) (fun _ => True) (fun _ => False) s.heap
      (s.startChart cfg g c sync).heap := does_startChart s g hb sync hub
  refine (made_start hb ?_).of_keeps (Heap.keeps_of_does hd)
  unfold startChart at hub
  rw [if_neg (by rw [hr]; exact Bool.false_ne_true)] at hub
  cases sync with
  | true => exact hub
  | false => exact ub_startLater hub

theorem made_of_chartReturn {b : Bool} (hb : s.heap.Born) {o : NodeRef}
    (ho : s.heap.ownerOf c = some o) : (s.chartReturn c b).heap.Made o := by
  obtain ⟨x, hx, hxo⟩ := Option.bind_eq_some_iff.mp ho
  have hd : Heap.Does (fun _ => True) (fun _ => True) (fun _ => False) s.heap
      (s.chartReturn c b).heap := does_chartReturn s c b
  exact (hb.owner c x o hx hxo).of_keeps (Heap.keeps_of_does hd)

/-- **A call of the API** leaves the call stack as it is or pushes a pair of calls. -/
theorem pushes_runOp (hb : s.heap.Born) (hub : t.heap.ub = false) {o : Op}
    (ht : s.runOp cfg o = some t) : Pushes t.heap.Made s.frames t.frames := by
  cases o <;> simp only [runOp] at ht
  case attachChart a name =>
    split at ht <;> cases ht
    split <;> exact .same
  case startChart c =>
    split at ht
    · obtain ⟨a, -, rfl⟩ := Option.map_eq_some_iff.mp ht
      exact pushes_startChart _ _ _ _ (made_of_startChart hb hub)
    · cases ht
  case stopChart c => split at ht <;> cases ht; exact .same
  case waitEvent a e => split at ht <;> cases ht; exact .same
  case event e a immediate trigger => cases ht; exact pushes_event ..
  case subchart name a =>
    cases ht
    unfold subchart at hub ⊢
    dsimp only at hub ⊢
    split at hub
    · rw [if_pos ‹_›]
      split at hub
      · have hd : Heap.Does (fun _ => True) (fun _ => True) (fun _ => False) s.heap
            (s.heap.prepareSubchart name a).2 :=
          Heap.does_prepareSubchart (fun n hn => hb.current _ n hn) (fun _ _ => trivial) a
        exact pushes_startChart (s.mapHeap fun _ => (s.heap.prepareSubchart name a).2) _ _ _
          (made_of_startChart (hb.does hd) hub)
      · exact .same
    · rw [if_neg ‹_›]
      exact .same
  case managerReturn b =>
    cases ht
    unfold managerReturn
    split
    · exact .same
    · split
      · exact pushes_chartReturn _ _ _ fun o ho => made_of_chartReturn hb ho
      · exact .same
  case step => cases ht; exact .step
  all_goals cases ht; exact .same

/-- **A flow that is to start starts from a node that has been made.** -/
theorem entry_of_step (hw : s.Wf) (h : s.step cfg a = some t) (hk : s.heap.Keeps t.heap) :
    ∀ f ∈ t.frames, ∀ n, f.entry? = some n → t.heap.Made n := by
  have hold : ∀ f ∈ s.frames, ∀ n, f.entry? = some n → t.heap.Made n :=
    fun f hf n hn => (hw.entry f hf n hn).of_keeps hk
  -- Calls that pop calls and push others.
  have hnew : ∀ gs {rest}, t.frames = gs ++ rest → rest <:+ s.frames →
      (∀ f ∈ gs, ∀ n, f.entry? = some n → t.heap.Made n) →
      ∀ f ∈ t.frames, ∀ n, f.entry? = some n → t.heap.Made n := by
    intro gs rest hft hsuf hgs f hf n hn
    rw [hft] at hf
    rcases List.mem_append.mp hf with hf | hf
    · exact hgs f hf n hn
    · exact hold f (hsuf.subset hf) n hn
  have hpush : Pushes t.heap.Made s.frames t.frames →
      ∀ f ∈ t.frames, ∀ n, f.entry? = some n → t.heap.Made n := by
    intro hp f hf n hn
    exact (hp.entry hf).elim (fun hf => hold f hf n hn) fun hm => hm n hn
  -- Nodes in the lists of the heap have been made.
  have hlist : ∀ {c n}, n ∈ s.heap.content c → ∀ f ∈ [Frame.enter n], ∀ m, f.entry? = some m →
      t.heap.Made m := by
    intro c n hn f hf m hm
    obtain rfl := List.mem_singleton.mp hf
    cases hm
    exact (hw.born.linked c _ hn).of_keeps hk
  have hsuf : ∀ {f rest}, s.frames = f :: rest → rest <:+ s.frames := by
    rintro f rest hf
    rw [hf]
    exact List.suffix_cons f rest
  cases (trans_of_step h).1 with
  | @enter n rest hf =>
    rcases @frames_of_enterFlow cfg s n rest hf with hr | ⟨l, hr⟩
    · exact hnew [] rfl hr nofun
    · exact hnew [.flow l n.chart 0 false] hr (hsuf hf) (by simp [Frame.entry?])
  | @continuing n rest hf =>
    rcases frames_of_continueFlow hf with hr | hr
    · exact hnew [] rfl hr nofun
    · refine hnew [.enter n] hr (hsuf hf) fun f hf' m hm => ?_
      obtain rfl := List.mem_singleton.mp hf'
      cases hm
      exact (hw.entry (.continuing n) (by simp [hf]) n rfl).of_keeps hk
  | @starting a c rest hf => exact hnew [] rfl (hsuf hf) nofun
  | @flow l c k r rest hf =>
    obtain ⟨gs, hgs, hnone⟩ := frames_of_flowRound cfg s l c k r rest
    refine hnew gs hgs (hsuf hf) fun f hf' m hm => ?_
    rw [hnone f hf'] at hm
    cases hm
  | @ran n l c k r rest hf =>
    refine hnew [.flow l c k _] rfl ?_ (by simp [Frame.entry?])
    rw [hf]
    exact (List.suffix_cons ..).trans (List.suffix_cons ..)
  | @ended l c r rest hf =>
    unfold flowCheck at hnew ⊢
    split
    · rename_i hc
      rw [if_pos hc] at hnew
      rcases frames_of_chartReturn { s with frames := .flowReturn l c :: rest } c true with
        hr | ⟨o, ho, hr⟩
      · exact hnew [.returning c, .flowReturn l c] hr (hsuf hf) (by simp [Frame.entry?])
      · refine hnew [.continuing o, .returning c, .flowReturn l c] hr (hsuf hf) ?_
        intro f hf' m hm
        simp only [List.mem_cons, List.not_mem_nil, or_false] at hf'
        rcases hf' with rfl | rfl | rfl <;> cases hm
        exact made_of_chartReturn (s := { s with frames := .flowReturn l c :: rest }) hw.born ho
    · rename_i hc
      rw [if_neg hc] at hnew
      exact hnew [] rfl (hsuf hf) nofun
  | @flowReturn l c rest hf => exact hnew [] rfl (hsuf hf) nofun
  | @returning c rest hf =>
    rcases frames_of_finishReturn { s with frames := rest } c with hr | hr
    · exact hnew [] hr (hsuf hf) nofun
    · exact hnew [.callback c] hr (hsuf hf) (by simp [Frame.entry?])
  | @handle ev rest hf =>
    rcases frames_of_handleRound s rest with hr | ⟨r, rs, n, ns, hh, hns, hr⟩
    · exact hnew [] hr (hsuf hf) nofun
    · refine hnew [.enter n] hr List.suffix_rfl (hlist (c := .waiting r.agent r.event) ?_)
      simp [Heap.content, hh, hns]
  | @trigger prev ev rest hf => exact hnew [] rfl (hsuf hf) nofun
  | @async rest hf =>
    rcases frames_of_asyncRound s rest with hr | ⟨n, ns, hn, hr⟩
    · exact hnew [.events] hr (hsuf hf) (by simp [Frame.entry?])
    · refine hnew [.enter n] hr List.suffix_rfl (hlist (c := .activated) ?_)
      simp [Heap.content, hn]
  | @events rest hf =>
    rcases frames_of_eventsRound cfg s rest with ⟨as, hr⟩ | ⟨ev, hr⟩ | ⟨ev, hr⟩
    · exact hnew [.dying as] hr (hsuf hf) (by simp [Frame.entry?])
    · exact hnew [.deleteEvent ev] hr List.suffix_rfl (by simp [Frame.entry?])
    · exact hnew [.handle ev, .deleteEvent ev] hr List.suffix_rfl (by simp [Frame.entry?])
  | @deleteEvent ev rest hf => exact hnew [] rfl (hsuf hf) nofun
  | @dying as rest hf =>
    rcases frames_of_dyingRound s as rest with hr | ⟨a, as', hr⟩
    · exact hnew [] hr (hsuf hf) nofun
    · exact hnew [.release a, .dying as'] hr (hsuf hf) (by simp [Frame.entry?])
  | @released a rest hf => exact hnew [] rfl (hsuf hf) nofun
  | op hm ho => exact hpush (pushes_runOp hw.born (ub_of_sound (sound_of_step h)) ho)
  | @ret n rest r hf => exact hnew [.ran n] rfl (hsuf hf) (by simp [Frame.entry?])
  | @done c rest hf => exact hnew [] rfl (hsuf hf) nofun
  | @fire n rest hf hn =>
    refine hnew [.enter n] rfl List.suffix_rfl fun f hf m hm => ?_
    obtain rfl := List.mem_singleton.mp hf
    cases hm
    exact (hw.born.timer n hn).of_keeps hk
  | tick hf ha => exact hpush (pushes_event ..)
  | @timersDone rest hf => exact hnew [.async] rfl (hsuf hf) (by simp [Frame.entry?])

theorem wf_of_step (hw : s.Wf) (h : s.step cfg a = some t) : t.Wf := by
  have hd : Heap.Does (fun _ => True) (fun _ => True) (fun _ => False) s.heap t.heap :=
    does_of_step (fun _ _ => trivial) hw h fun _ _ => trivial
  exact ⟨hw.born.does hd, sound_of_step h, entry_of_step hw h (Heap.keeps_of_does hd)⟩

theorem wf_of_reachable (h : Reachable cfg s) : s.Wf :=
  h.invariant wf_init fun _ _ _ hw _ hs => wf_of_step hw hs

/-- The entries of the second history that the first does not have yet. -/
def since (s u : State) : List Obs := u.heap.log.take (u.heap.log.length - s.heap.log.length)

theorem since_of_log {new : List Obs} (h : t.heap.log = new ++ s.heap.log) : since s t = new := by
  simp [since, h]

/-- **A run does a sequence of moves**, and only those that its steps may do. -/
theorem does_of_steps (hfl : ∀ l, flows l) {K : State → Act → Prop}
    (hK : ∀ s a, K s a → ∀ p, s.Permits a p → may p) (hw : s.Wf) (h : Run.Steps (step cfg) K s t) :
    Heap.Does flows may D s.heap t.heap := by
  refine h.relation (I := Wf) (R := fun s t => Heap.Does flows may D s.heap t.heap)
    (fun s => .refl s.heap) .trans hw (fun _ _ _ hw _ hs => wf_of_step hw hs) ?_
  exact fun u a v hw hk hs => does_of_step (fun l _ => hfl l) hw hs (hK u a hk)

theorem log_since {K : State → Act → Prop} (hw : s.Wf) (h : Run.Steps (step cfg) K s t) :
    t.heap.log = since s t ++ s.heap.log := by
  have hd : Heap.Does (fun _ => True) (fun _ => True) (fun _ => False) s.heap t.heap :=
    does_of_steps (fun _ => trivial) (fun _ _ _ _ _ => trivial) hw h
  obtain ⟨new, hnew⟩ := hd.grows
  rw [since_of_log hnew]
  exact hnew

theorem wf_of_steps {K : State → Act → Prop} (hw : s.Wf) (h : Run.Steps (step cfg) K s t) : t.Wf :=
  h.invariant hw fun _ _ _ hw _ hs => wf_of_step hw hs

/-- The entries of a run and one more step. -/
theorem since_tail {K : State → Act → Prop} {u : State} (hw : s.Wf)
    (h : Run.Steps (step cfg) K s t) (hs : t.step cfg a = some u) :
    since s u = since t u ++ since s t := by
  have hu : u.heap.log = since t u ++ t.heap.log :=
    log_since (K := fun _ _ => True) (wf_of_steps hw h) ((Run.Steps.refl t).tail trivial hs)
  rw [log_since hw h, ← List.append_assoc] at hu
  exact since_of_log hu

/-- No step of a run records an entry of a kind. -/
theorem calm_of_steps {bad : Obs → Prop} {K : State → Act → Prop}
    (hK : ∀ {s a}, K s a → ∀ t ∈ s.step cfg a, ∀ o ∈ since s t, ¬bad o) (hw : s.Wf)
    (h : Run.Steps (step cfg) K s t) : ∀ o ∈ since s t, ¬bad o := by
  induction h with
  | refl => simp [since]
  | tail hr hk hs ih =>
    intro o ho
    rw [since_tail hw hr hs] at ho
    rcases List.mem_append.mp ho with ho | ho
    · exact hK hk _ hs o ho
    · exact ih o ho

/-- A step from a state whose innermost call is the loop of the async manager. -/
theorem async_of_step {rest : List Frame} (hf : s.frames = .async :: rest)
    (h : s.step cfg a = some t) : t = s.asyncRound rest := by
  cases (trans_of_step h).1 with
  | async hf' =>
    rw [hf] at hf'
    cases hf'
    rfl
  | op hm ho =>
    rw [mayCall, hf] at hm
    cases hm
  | enter hf' | continuing hf' | starting hf' | flow hf' | ran hf' | ended hf' | flowReturn hf'
  | returning hf' | handle hf' | trigger hf' | events hf' | deleteEvent hf' | dying hf'
  | released hf' | ret r hf' | done hf'
  | fire hf' hn | tick hf' ha | timersDone hf' =>
    rw [hf] at hf'
    cases hf'

end State

end Asyncflow
