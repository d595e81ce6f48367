import Asyncflow.Runtime.Completion

/-!
# Calls are bracketed

What a node function acts on – the executor and its current node and agent, the
current event – is determined by the calls in progress: `Asyncflow.eventOf` reads
`current_event_` off the call stack, and `current_event_frame_` is the number of
`TriggerEvent` calls on it. So a call made from a node function, however deep the
calls it makes itself, leaves all of it as it was.
-/

namespace Asyncflow

/-- The current event, as the calls in progress say: that of the innermost
`_handleEvent`, and none after it. -/
def eventOf : List Frame → Option Event
  | [] => none
  | .handle ev :: _ => some ev
  | .trigger _ _ :: _ => none
  | _ :: fs => eventOf fs

/-- The call is a `TriggerEvent` or `HandleEvent`, or the loop of a step around it. -/
def Frame.ofEvents : Frame → Bool
  | .handle _ | .trigger _ _ | .timers | .async | .events => true
  | _ => false

/-- The call is a `TriggerEvent`. -/
def Frame.isTrigger : Frame → Bool
  | .trigger _ _ => true
  | _ => false

/-- Every `TriggerEvent` has kept the event that was current before, and nothing is
current before a `_handleEvent` and before a step. -/
def Restores : List Frame → Prop
  | [] => True
  | .trigger prev _ :: fs => prev = eventOf fs ∧ Restores fs
  | .handle _ :: fs | .timers :: fs | .async :: fs | .events :: fs =>
    eventOf fs = none ∧ Restores fs
  | _ :: fs => Restores fs

section Frames

variable {f : Frame} {fs gs : List Frame}

theorem eventOf_cons (hf : f.ofEvents = false) : eventOf (f :: fs) = eventOf fs := by
  cases f <;> first | rfl | cases hf

theorem restores_cons (hf : f.ofEvents = false) : Restores (f :: fs) ↔ Restores fs := by
  cases f <;> first | rfl | cases hf

theorem isTrigger_of_ofEvents (hf : f.ofEvents = false) : f.isTrigger = false := by
  cases f <;> first | rfl | cases hf

theorem eventOf_append (hg : ∀ f ∈ gs, f.ofEvents = false) : eventOf (gs ++ fs) = eventOf fs := by
  induction gs with
  | nil => rfl
  | cons g gs ih => exact (eventOf_cons (hg g (by simp))).trans (ih fun f hf => hg f (by simp [hf]))

theorem restores_append (hg : ∀ f ∈ gs, f.ofEvents = false) :
    Restores (gs ++ fs) ↔ Restores fs := by
  induction gs with
  | nil => rfl
  | cons g gs ih =>
    exact (restores_cons (hg g (by simp))).trans (ih fun f hf => hg f (by simp [hf]))

theorem countP_append (hg : ∀ f ∈ gs, f.ofEvents = false) :
    (gs ++ fs).countP Frame.isTrigger = fs.countP Frame.isTrigger := by
  have h0 : gs.countP Frame.isTrigger = 0 := by
    rw [List.countP_eq_zero]
    intro f hf
    simp [isTrigger_of_ofEvents (hg f hf)]
  rw [List.countP_append, h0, Nat.zero_add]

end Frames

namespace State

variable {cfg : Config} {s t u : State} {a : Act} {c : ChartId} {n : NodeRef}

/-- **What the event handling keeps on the side is what the call stack says.** -/
structure Bracketed (s : State) : Prop where
  event : s.currentEvent = eventOf s.frames
  depth : s.eventFrame = s.frames.countP Frame.isTrigger
  restores : Restores s.frames

/-- The second state is inside a call made in the first: some calls that are not about
events, or a `TriggerEvent` in its `_handleEvent`. -/
inductive Calls (s : State) : State → Prop
  | plain {t : State} (gs : List Frame) : (∀ f ∈ gs, f.ofEvents = false) →
      t.frames = gs ++ s.frames → t.currentEvent = s.currentEvent →
      t.eventFrame = s.eventFrame → Calls s t
  | trigger {t : State} (ev : Event) :
      t.frames = .handle ev :: .trigger s.currentEvent ev :: s.frames →
      t.currentEvent = some ev → t.eventFrame = s.eventFrame + 1 → Calls s t

theorem Calls.refl (s : State) : s.Calls s := .plain [] (by simp) rfl rfl rfl

/-- What a call does later does not depend on the heap. -/
theorem Calls.of_eq (hc : u.Calls t) (hf : u.frames = s.frames)
    (he : u.currentEvent = s.currentEvent) (hd : u.eventFrame = s.eventFrame) : s.Calls t := by
  cases hc with
  | plain gs hg h1 h2 h3 => exact .plain gs hg (hf ▸ h1) (he ▸ h2) (hd ▸ h3)
  | trigger ev h1 h2 h3 => exact .trigger ev (hf ▸ he ▸ h1) h2 (hd ▸ h3)

theorem Bracketed.of_calls (hb : s.Bracketed) (hc : s.Calls t) : t.Bracketed := by
  cases hc with
  | plain gs hg h1 h2 h3 =>
    constructor
    · rw [h1, h2, hb.event, eventOf_append hg]
    · rw [h1, h3, hb.depth, countP_append hg]
    · rw [h1, restores_append hg]
      exact hb.restores
  | trigger ev h1 h2 h3 =>
    constructor
    · rw [h1, h2]
      rfl
    · rw [h1, h3, hb.depth, List.countP_cons_of_neg (by simp [Frame.isTrigger]),
        List.countP_cons_of_pos (by rfl)]
    · rw [h1]
      exact ⟨rfl, hb.event, hb.restores⟩

/-- A call that is not about events returns. -/
theorem Bracketed.pop {f : Frame} {fs : List Frame} (hb : s.Bracketed) (hf : s.frames = f :: fs)
    (hp : f.ofEvents = false) : ({ s with frames := fs } : State).Bracketed := by
  constructor
  · rw [hb.event, hf, eventOf_cons hp]
  · have hc : ([f] ++ fs).countP Frame.isTrigger = fs.countP Frame.isTrigger :=
      countP_append (by simpa using hp)
    rw [hb.depth, hf]
    exact hc
  · have hr := hb.restores
    rw [hf] at hr
    exact (restores_cons hp).mp hr

variable (cfg) in
theorem calls_triggerEvent (s : State) (ev : Event) : s.Calls (s.triggerEvent cfg ev) := by
  unfold triggerEvent
  split
  · exact .plain [] (by simp) rfl rfl rfl
  · split
    · exact .plain [] (by simp) rfl rfl rfl
    · exact .trigger ev rfl rfl rfl

theorem calls_event (s : State) (e : EventId) (a : AgentId) (immediate trigger : Bool) :
    s.Calls (s.event cfg e a immediate trigger) := by
  unfold event
  split
  · cases trigger with
    | false => exact .plain [] (by simp) rfl rfl rfl
    | true => exact (calls_triggerEvent cfg _ _).of_eq rfl rfl rfl
  · exact .refl s

variable (cfg) in
theorem calls_startLater (s : State) (a : AgentId) (c : ChartId) :
    s.Calls (s.startLater cfg a c) := by
  unfold startLater event
  split <;> exact .plain [] (by simp) rfl rfl rfl

theorem calls_continueLater (s : State) (n : NodeRef) : s.Calls (s.continueLater cfg n) := by
  unfold continueLater event
  split
  · split <;> exact .plain [] (by simp) rfl rfl rfl
  · exact .plain [] (by simp) rfl rfl rfl

variable (cfg) in
theorem calls_startChart (s : State) (a : AgentId) (c : ChartId) (sync : Bool) :
    s.Calls (s.startChart cfg a c sync) := by
  unfold startChart
  split
  · exact .refl s
  · cases sync with
    | true => exact .plain [.enter ⟨c, 0⟩, .starting a c] (by simp [Frame.ofEvents]) rfl rfl rfl
    | false => exact (calls_startLater cfg _ _ _).of_eq rfl rfl rfl

theorem calls_chartReturn (s : State) (c : ChartId) (b : Bool) : s.Calls (s.chartReturn c b) := by
  unfold chartReturn
  dsimp only
  split
  · exact .plain [.returning c] (by simp [Frame.ofEvents]) rfl rfl rfl
  · rename_i o _
    exact .plain [.continuing o, .returning c] (by simp [Frame.ofEvents]) rfl rfl rfl

theorem calls_finishReturn (s : State) (c : ChartId) : s.Calls (s.finishReturn c) := by
  unfold finishReturn
  dsimp only
  split
  · exact .plain [.callback c] (by simp [Frame.ofEvents]) rfl rfl rfl
  · exact .plain [] (by simp) rfl rfl rfl

theorem calls_managerReturn (s : State) (b : Bool) : s.Calls (s.managerReturn b) := by
  unfold managerReturn
  split
  · exact .plain [] (by simp) rfl rfl rfl
  · split
    · exact calls_chartReturn ..
    · exact .refl s

theorem calls_subchart (s : State) (name : String) (a : AgentId) :
    s.Calls (s.subchart cfg name a) := by
  unfold subchart
  split
  · dsimp only
    split
    · exact (calls_startChart cfg (s.mapHeap _) a _ true).of_eq rfl rfl rfl
    · exact .plain [] (by simp) rfl rfl rfl
  · exact .refl s

/-- A call of the API other than `Step`. -/
theorem calls_runOp {o : Op} (ho : o ≠ .step) (ht : s.runOp cfg o = some t) : s.Calls t := by
  have hmap : ∀ f, s.Calls (s.mapHeap f) := fun f => .plain [] (by simp) rfl rfl rfl
  cases o <;> simp only [runOp] at ht
  case attachChart a name =>
    split at ht <;> cases ht
    split
    · exact hmap _
    · exact .refl s
  case startChart c =>
    split at ht
    · obtain ⟨a, -, rfl⟩ := Option.map_eq_some_iff.mp ht
      exact calls_startChart cfg ..
    · cases ht
  case stopChart c => split at ht <;> cases ht; exact hmap _
  case waitEvent a e => split at ht <;> cases ht; exact hmap _
  case event e a immediate trigger => cases ht; exact calls_event ..
  case subchart name a => cases ht; exact calls_subchart ..
  case managerReturn b => cases ht; exact calls_managerReturn ..
  case step => exact absurd rfl ho
  all_goals cases ht; exact hmap _

theorem bracketed_of_refuse (s : State) (n : NodeRef) (rest : List Frame) (hs : s.Bracketed)
    (hf : s.frames = .enter n :: rest) : (s.refuse cfg n rest).Bracketed := by
  have hp : ({ s.mapHeap (·.note (.refused n)) with frames := rest } : State).Bracketed := by
    have h := hs.pop hf rfl
    exact ⟨h.event, h.depth, h.restores⟩
  unfold refuse
  split
  · exact (hp.pop rfl rfl).of_calls (calls_startLater cfg ..)
  · exact hp.of_calls (calls_continueLater ..)
  · exact hp

theorem bracketed_of_enter {rest : List Frame} (hs : s.Bracketed)
    (hf : s.frames = .enter n :: rest) : (s.enterFlow cfg n rest).Bracketed := by
  have hp := hs.pop hf rfl
  have he := enters cfg s n rest
  generalize s.enterFlow cfg n rest = t at he ⊢
  cases he with
  | refused _ => exact bracketed_of_refuse s n rest hs hf
  | gone _ => exact hs.of_calls (.plain [] (by simp) rfl rfl rfl)
  | flow _ _ _ _ =>
    exact hp.of_calls (.plain [.flow _ _ _ _] (by simp [Frame.ofEvents]) rfl rfl rfl)
  | skipped _ _ _ => exact hp.of_calls (.plain [] (by simp) rfl rfl rfl)

theorem bracketed_of_continuing {rest : List Frame} (hs : s.Bracketed)
    (hf : s.frames = .continuing n :: rest) : (s.continueFlow n rest).Bracketed := by
  have hp := hs.pop hf rfl
  unfold continueFlow
  dsimp only
  split
  · exact hs.of_calls (.plain [] (by simp) rfl rfl rfl)
  · split
    · exact hp.of_calls (.plain [] (by simp) rfl rfl rfl)
    · exact hp.of_calls (.plain [.enter n] (by simp [Frame.ofEvents]) rfl rfl rfl)

theorem bracketed_of_flow {l k : ℕ} {r : Bool} {rest : List Frame} (hs : s.Bracketed)
    (hf : s.frames = .flow l c k r :: rest) : (s.flowRound cfg l c k r rest).Bracketed := by
  have hp := hs.pop hf rfl
  have hr := rounds cfg s l c k r rest
  generalize s.flowRound cfg l c k r rest = t at hr ⊢
  cases hr with
  | ends _ | cut _ _ =>
    exact hp.of_calls (.plain [.ended l c r] (by simp [Frame.ofEvents]) rfl rfl rfl)
  | waiting _ _ _ _ _ | defer _ _ _ _ _ _ =>
    exact hp.of_calls (.plain [.flow l c (k + 1) true] (by simp [Frame.ofEvents]) rfl rfl rfl)
  | @run n ns _ _ _ _ _ =>
    have hn := runsNode { s with frames := .flow l c (k + 1) r :: rest } l n
    generalize State.runNode _ l n = t at hn ⊢
    cases hn with
    | skip _ | null _ _ | control _ _ _ _ =>
      exact hp.of_calls
        (.plain [.ran n, .flow l c (k + 1) r] (by simp [Frame.ofEvents]) rfl rfl rfl)
    | script _ _ =>
      exact hp.of_calls
        (.plain [.func n, .flow l c (k + 1) r] (by simp [Frame.ofEvents]) rfl rfl rfl)

theorem bracketed_of_ended {l : ℕ} {r : Bool} {rest : List Frame} (hs : s.Bracketed)
    (hf : s.frames = .ended l c r :: rest) : (s.flowCheck l c r rest).Bracketed := by
  have hp := hs.pop hf rfl
  unfold flowCheck
  split
  · have hr : ({ s with frames := .flowReturn l c :: rest } : State).Bracketed :=
      hp.of_calls (.plain [.flowReturn l c] (by simp [Frame.ofEvents]) rfl rfl rfl)
    exact hr.of_calls (calls_chartReturn ..)
  · exact hp.of_calls (.plain [] (by simp) rfl rfl rfl)

theorem bracketed_of_handle {ev : Event} {rest : List Frame} (hs : s.Bracketed)
    (hf : s.frames = .handle ev :: rest) : (s.handleRound rest).Bracketed := by
  have hr := hs.restores
  have hd := hs.depth
  rw [hf] at hr hd
  have hover : ∀ f, ({ s.mapHeap f with currentEvent := none, frames := rest } : State).Bracketed :=
    fun f => ⟨hr.1.symm, hd, hr.2⟩
  unfold handleRound
  split
  · exact hover id
  · split
    · exact hover _
    · exact hs.of_calls (.plain [.enter _] (by simp [Frame.ofEvents]) rfl rfl rfl)

theorem bracketed_of_events {rest : List Frame} (hs : s.Bracketed)
    (hf : s.frames = .events :: rest) : (s.eventsRound cfg rest).Bracketed := by
  have hr := hs.restores
  have hd := hs.depth
  have he := hs.event
  rw [hf] at hr hd he
  unfold eventsRound
  split
  · exact ⟨he, hd, hr.2⟩
  · rename_i ev evs _
    dsimp only
    split
    · exact hs.of_calls (.plain [.deleteEvent ev] (by simp [Frame.ofEvents]) rfl rfl rfl)
    · refine ⟨rfl, ?_, ?_⟩
      · exact hs.depth
      · change Restores (.handle ev :: .deleteEvent ev :: s.frames)
        rw [hf]
        exact ⟨hr.1, hr⟩

/-- **Every step keeps the brackets.** -/
theorem bracketed_of_step (hs : s.Bracketed) (h : s.step cfg a = some t) : t.Bracketed := by
  cases (trans_of_step h).1 with
  | enter hf => exact bracketed_of_enter hs hf
  | continuing hf => exact bracketed_of_continuing hs hf
  | flow hf => exact bracketed_of_flow hs hf
  | @ran n l c k r rest hf =>
    have hp := (hs.pop hf rfl).pop rfl rfl
    exact hp.of_calls (.plain [.flow l c k (r || (s.heap.nodes n).status = .running)]
      (by simp [Frame.ofEvents]) rfl rfl rfl)
  | ended hf => exact bracketed_of_ended hs hf
  | flowReturn hf => exact (hs.pop hf rfl).of_calls (.plain [] (by simp) rfl rfl rfl)
  | returning hf => exact (hs.pop hf rfl).of_calls (calls_finishReturn ..)
  | handle hf => exact bracketed_of_handle hs hf
  | @trigger prev ev rest hf =>
    have hr := hs.restores
    have hd := hs.depth
    rw [hf] at hr hd
    rw [List.countP_cons_of_pos (by rfl)] at hd
    exact ⟨hr.1, by simp [triggered, qnote, hd], hr.2⟩
  | @async rest hf =>
    have hr := hs.restores
    have hd := hs.depth
    have he := hs.event
    rw [hf] at hr hd he
    unfold asyncRound
    split
    · exact ⟨he, hd, hr⟩
    · exact hs.of_calls (.plain [.enter _] (by simp [Frame.ofEvents]) rfl rfl rfl)
  | events hf => exact bracketed_of_events hs hf
  | @dying as rest hf =>
    unfold dyingRound
    split
    · exact (hs.pop hf rfl).of_calls (.plain [] (by simp) rfl rfl rfl)
    · rename_i a as
      exact (hs.pop hf rfl).of_calls
        (.plain [.release a, .dying as] (by simp [Frame.ofEvents]) rfl rfl rfl)
  | released hf => exact (hs.pop hf rfl).of_calls (.plain [] (by simp) rfl rfl rfl)
  | @op o t hm ho =>
    by_cases hstep : o = .step
    · subst hstep
      have hf : s.frames = [] := by
        unfold mayCall at hm
        split at hm <;> simp_all [Op.isNodeCall]
      obtain rfl : _ = t := Option.some.inj ho
      have he : s.currentEvent = none := by rw [hs.event, hf]; rfl
      have hd : s.eventFrame = 0 := by rw [hs.depth, hf]; rfl
      refine ⟨?_, ?_, ?_⟩
      · exact he.trans (by rw [call, hf]; rfl)
      · exact hd.trans (by rw [call, hf]; rfl)
      · rw [call, hf]
        exact ⟨rfl, trivial⟩
    · exact hs.of_calls (calls_runOp hstep ho)
  | @ret n rest r hf =>
    exact (hs.pop hf rfl).of_calls (.plain [.ran n] (by simp [Frame.ofEvents]) rfl rfl rfl)
  | fire hf hn => exact hs.of_calls (.plain [.enter _] (by simp [Frame.ofEvents]) rfl rfl rfl)
  | tick hf ha => exact hs.of_calls (calls_event ..)
  | timersDone hf =>
    have hr := hs.restores
    have hd := hs.depth
    have he := hs.event
    rw [hf] at hr hd he
    exact ⟨he, hd, hr⟩
  | starting hf | deleteEvent hf | done hf =>
    exact (hs.pop hf rfl).of_calls (.plain [] (by simp) rfl rfl rfl)

theorem bracketed_of_reachable (h : Reachable cfg s) : s.Bracketed :=
  h.invariant ⟨rfl, rfl, trivial⟩ fun _ _ _ hs _ ht => bracketed_of_step hs ht

/-! ### The agent of an executor in use -/

/-- While a node function is on the call stack, no flow but a continued one works on
its executor. -/
theorem not_flows_of_suffix {l k : ℕ} {r : Bool} {rest : List Frame} (hs : s.Shaped)
    (hf : .func n :: .flow l n.chart k r :: rest <:+ s.frames)
    (hc : ∀ m fs, s.frames ≠ .continuing m :: fs) : ¬s.Flows l := by
  have hst := hs.stacked
  -- Below the innermost call the flow of the function is suspended.
  have hmem : ∀ {f fs}, s.frames = f :: fs → f ≠ .func n → .flow l n.chart k r ∈ fs := by
    intro f fs hsf hne
    rw [hsf] at hf
    rcases List.suffix_cons_iff.mp hf with hf | hf
    · cases hf
      exact absurd rfl hne
    · exact hf.subset (by simp)
  rcases hsf : s.frames with _ | ⟨f, fs⟩
  · simp [Flows, hsf]
  rw [hsf] at hst hf
  cases f with
  | enter m =>
    have hle := ((hst.nest_of_call trivial).tail trivial).le_of_flow (hmem hsf nofun)
    simp only [Flows, hsf]
    omega
  | continuing m => exact absurd hsf (hc m fs)
  | flow l' c' k' r' =>
    obtain ⟨hl, hl0, -, hn⟩ := hst.flow_inv
    have hle := hn.le_of_flow (hmem hsf nofun)
    simp only [Flows, hsf]
    omega
  | ran m =>
    obtain ⟨k', r', fs', hl0, rfl, -, -, hn⟩ := hst.ran_inv
    -- The flow of the function is not the innermost one.
    have hm : .flow l n.chart k r ∈ fs' := by
      rcases List.suffix_cons_iff.mp hf with hf | hf
      · cases hf
      · rcases List.suffix_cons_iff.mp hf with hf | hf
        · cases hf
        · exact hf.subset (by simp)
    have hle := hn.le_of_flow hm
    simp only [Flows, hsf]
    omega
  | ended l' c' r' =>
    obtain ⟨hl, hl0, -, hn⟩ := hst.ended_inv
    have hle := hn.le_of_flow (hmem hsf nofun)
    simp only [Flows, hsf]
    omega
  | flowReturn l' c' =>
    cases hst with
    | nest hn =>
      obtain ⟨hl, hl0, -, hn⟩ := hn.flowReturn_inv
      have hle := hn.le_of_flow (hmem hsf nofun)
      simp only [Flows, hsf]
      omega
  | _ => simp [Flows, hsf]

/-- The agent of an executor that no flow works on. -/
theorem agent_of_step {l : ℕ} (hw : s.Wf) (h : s.step cfg a = some t)
    (hl : (∀ m fs, s.frames ≠ .continuing m :: fs) → ¬s.Flows l) :
    (t.heap.stack l).currentAgent = (s.heap.stack l).currentAgent := by
  by_cases hc : ∀ m fs, s.frames ≠ .continuing m :: fs
  · have hd : Heap.Does (fun k => s.Flows k) (fun _ => True) (fun _ => False) s.heap t.heap :=
      does_of_step (fun _ => id) hw h fun _ _ => trivial
    exact (Heap.steady_of_does hd (hl hc)).agent
  · obtain ⟨m, fs, hf⟩ : ∃ m fs, s.frames = .continuing m :: fs := by simpa using hc
    have ht : t = s.continueFlow m fs ∨ t.heap = s.heap := by
      cases (trans_of_step h).1 with
      | continuing hf' =>
        rw [hf] at hf'
        cases hf'
        exact .inl rfl
      | op hm _ =>
        unfold mayCall at hm
        rw [hf] at hm
        cases hm
      | enter hf' | starting hf' | flow hf' | ran hf' | ended hf' | flowReturn hf' | returning hf'
      | handle hf' | trigger hf' | async hf' | events hf' | deleteEvent hf' | dying hf'
      | released hf' | ret _ hf' | done hf' | fire hf' _ | tick hf' _ | timersDone hf' =>
        rw [hf] at hf'
        cases hf'
    rcases ht with rfl | ht
    · unfold continueFlow
      dsimp only
      split
      · rfl
      · split
        · exact Heap.currentAgent_push ..
        · rfl
    · rw [ht]

/-- **Calls are bracketed.** When a node function is in control again, whatever calls it
has made meanwhile, the stack of executors, the current node and agent of the current
executor, the current event and the number of `TriggerEvent` calls in progress are what
they were. -/
theorem bracketed_of_steps {rest : List Frame} (hs : Reachable cfg s)
    (hf : s.frames = .func n :: rest)
    (hu : Run.Steps (step cfg) (fun v _ => s.frames <:+ v.frames) s u) (he : u.frames = s.frames) :
    u.heap.currentIndex = s.heap.currentIndex ∧ u.heap.currentNode = s.heap.currentNode ∧
      (u.heap.stack u.heap.currentIndex).currentAgent =
        (s.heap.stack s.heap.currentIndex).currentAgent ∧
      u.eventFrame = s.eventFrame ∧ u.currentEvent = s.currentEvent := by
  have hur : Reachable cfg u := hs.trans (hu.mono fun _ _ _ => trivial)
  have hss := (shaped_of_reachable hs).stacked
  have hus := (shaped_of_reachable hur).stacked
  rw [hf] at hss
  rw [he, hf] at hus
  obtain ⟨k, r, fs, -, hfs, -, hcur, -⟩ := hss.nest_of_func.func_inv
  obtain ⟨k', r', fs', -, hfs', -, hcur', -⟩ := hus.nest_of_func.func_inv
  have hidx : u.heap.currentIndex = s.heap.currentIndex := by
    rw [hfs] at hfs'
    exact (Frame.flow.inj (List.cons.inj hfs').1).1.symm
  have hagent : (u.heap.stack s.heap.currentIndex).currentAgent =
      (s.heap.stack s.heap.currentIndex).currentAgent := by
    refine hu.relation (I := fun v => Reachable cfg v) (R := fun v w =>
      (w.heap.stack s.heap.currentIndex).currentAgent =
        (v.heap.stack s.heap.currentIndex).currentAgent) (fun _ => rfl)
      (fun h h' => h'.trans h) hs (fun v b w hv _ hvw => hv.tail trivial hvw) ?_
    intro v b w hv hsuf hvw
    refine agent_of_step (wf_of_reachable hv) hvw fun hc => ?_
    rw [hf, hfs] at hsuf
    exact not_flows_of_suffix (shaped_of_reachable hv) hsuf hc
  refine ⟨hidx, ?_, ?_, ?_, ?_⟩
  · rw [Heap.currentNode, Heap.currentNode, hcur, hcur']
  · rw [hidx, hagent]
  · rw [(bracketed_of_reachable hur).depth, (bracketed_of_reachable hs).depth, he]
  · rw [(bracketed_of_reachable hur).event, (bracketed_of_reachable hs).event, he]

/-- A node function triggers an event whose flow returns the chart. -/
theorem bracketed_triggering : ∃ s u n rest, Reachable {} s ∧ s.frames = .func n :: rest ∧
    Run.Reaches (step {}) s u ∧ .returned n.chart true ∈ since s u ∧ u.frames = s.frames ∧
    u.heap.currentIndex = s.heap.currentIndex ∧ u.heap.currentNode = s.heap.currentNode ∧
    (u.heap.stack u.heap.currentIndex).currentAgent =
      (s.heap.stack s.heap.currentIndex).currentAgent ∧
    u.eventFrame = s.eventFrame ∧ u.currentEvent = s.currentEvent := by
  obtain ⟨s, u, hs, hu, hf, he, hret⟩ := exists_of_play_exec {}
    (fun v _ => [.func ⟨0, 2⟩, .flow 1 0 3 true, .handle ⟨0, 1, 1, false, 0⟩,
      .deleteEvent ⟨0, 1, 1, false, 0⟩, .events] <:+ v.frames)
    [.op (.importChart triggeringChart), .op (.register 0), .op (.attachChart 1 "triggering"),
      .op (.startChart 0), .op .step, .timersDone, .op (.waitEvent 1 0), .ret .rTrue]
    (.op (.event 0 1 false true) :: List.replicate 10 .tau)
    (fun s u => s.frames = [.func ⟨0, 2⟩, .flow 1 0 3 true, .handle ⟨0, 1, 1, false, 0⟩,
      .deleteEvent ⟨0, 1, 1, false, 0⟩, .events] ∧ u.frames = s.frames ∧
      .returned 0 true ∈ since s u) (by decide +kernel)
  rw [← hf] at hu
  exact ⟨s, u, ⟨0, 2⟩, _, hs, hf, hu.mono fun _ _ _ => trivial, hret, he,
    bracketed_of_steps hs hf hu he⟩

end State

end Asyncflow
