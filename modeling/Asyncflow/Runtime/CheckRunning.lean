import Asyncflow.Runtime.Completion
import Asyncflow.Runtime.Overflow
import Asyncflow.Runtime.RunningNodes

/-!
# Charts whose completion was noticed

A chart that runs is meant to have a running node whenever no flow is executing: the flow that
ends or stops the last one calls `Chart::Return`. A chart that a flow works on
(`Asyncflow.WorkedOn`) may be without one, since the flow looks at the nodes when it ends.

It does not look at them when one of them was running earlier in its loop
(`has_running_node`), although that one may have been stopped since. And a node that
`Manager::_handleEvent` has taken from its list waits for nothing any more when no flow can be
run at it. `Asyncflow.State.Abandons` names the steps in which one or the other leaves a
running chart alone, and `Asyncflow.State.notices` says that in a run without such a step
every running chart has a running node or is worked on.
-/

namespace Asyncflow

/-! ### The calls in progress -/

/-- The chart that a flow in progress, or one that is just being entered, works on. -/
def Frame.works? : Frame → Option ChartId
  | .flow _ c _ _ | .ended _ c _ | .flowReturn _ c => some c
  | .enter n | .continuing n => some n.chart
  | _ => none

/-- A flow works on the chart, or is just being entered. -/
def WorkedOn (fs : List Frame) (c : ChartId) : Prop := ∃ f ∈ fs, f.works? = some c

instance (fs : List Frame) (c : ChartId) : Decidable (WorkedOn fs c) := by
  unfold WorkedOn
  infer_instance

section WorkedOn

variable {f : Frame} {fs gs : List Frame} {c : ChartId}

theorem workedOn_cons : WorkedOn (f :: fs) c ↔ f.works? = some c ∨ WorkedOn fs c := by
  unfold WorkedOn
  simp

theorem WorkedOn.tail (hw : WorkedOn (f :: fs) c) (hf : f.works? ≠ some c) : WorkedOn fs c :=
  (workedOn_cons.mp hw).resolve_left hf

theorem WorkedOn.append (hw : WorkedOn fs c) (gs : List Frame) : WorkedOn (gs ++ fs) c := by
  obtain ⟨f, hf, hc⟩ := hw
  exact ⟨f, List.mem_append_right gs hf, hc⟩

/-- A flow works on the chart of the current node of an executor in use. -/
theorem Nest.workedOn {h : Heap} {l k : ℕ} {n : NodeRef} (hn : Nest h fs l) (h0 : 0 < k)
    (hl : k ≤ l) (hc : (h.stack k).currentNode = some n) : WorkedOn fs n.chart := by
  obtain ⟨c, hu, hf⟩ := hn.flow_of_le h0 hl
  obtain rfl := hu.current n hc
  rcases hf with ⟨i, r, hf⟩ | hf
  · exact ⟨_, hf, rfl⟩
  · exact ⟨_, hf, rfl⟩

/-- Outside every executor, only a flow that is being entered works on a chart. -/
theorem Nest.not_workedOn {h : Heap} (hn : Nest h fs 0) (hc : Calm fs) : ¬WorkedOn fs c := by
  rintro ⟨f, hf, hw⟩
  generalize hl : 0 = l at hn
  induction hn with
  | nil => cases hf
  | @call g gs l hg _ ih =>
    rcases List.mem_cons.mp hf with rfl | hf
    · have hne := hc f List.mem_cons_self
      cases f with
      | enter | continuing => exact hne trivial
      | flow | ended | flowReturn => exact hg
      | _ => cases hw
    · exact ih hc.tail hf hl
  | func | flowReturn => exact absurd hl (Nat.succ_ne_zero _).symm

end WorkedOn

namespace State

variable {cfg : Config} {s t : State} {a : Act} {c : ChartId} {n : NodeRef} {rest fs : List Frame}

/-- **Every running chart has a running node or is worked on.** -/
def Noticed (s : State) : Prop := ∀ c, WorkedOn s.frames c ∨ s.heap.Lively c

/-- The chart runs, but none of its nodes does, and no flow among the calls works on it. -/
def deserted (s : State) (fs : List Frame) (c : ChartId) : Bool :=
  s.heap.chartRunning c && !s.heap.checkRunning c && !decide (WorkedOn fs c)

theorem workedOn_or_lively (hd : s.deserted fs c = false) : WorkedOn fs c ∨ s.heap.Lively c := by
  by_cases hw : WorkedOn fs c
  · exact .inl hw
  · refine .inr fun hr => ?_
    simpa [deserted, hr, hw] using hd

/-- No flow is run at the node, and the caller does not put it off to a start event. -/
def givesUp (cfg : Config) (s : State) (n : NodeRef) (rest : List Frame) : Bool :=
  if maxStackSize ≤ s.heap.currentIndex + 1 then
    match rest with
    | .starting _ _ :: _ | .returning _ :: _ => !cfg.validEvent cfg.startEvent
    | _ => true
  else !((s.heap.agentOf n).any s.heap.agentRunning && s.heap.chartRunning n.chart)

/-- The chart that a flow ceases to work on without a look at its nodes, and the calls below
the flow. -/
def leaves? (cfg : Config) (s : State) : Act → Option (ChartId × List Frame)
  | .tau => match s.frames with
    | .ended _ c true :: rest => some (c, rest)
    | .enter n :: rest => if s.givesUp cfg n rest then some (n.chart, rest) else none
    | _ => none
  | _ => none

/-- **A running chart without a running node is left alone**: by a flow that saw a running node
earlier, or by one that could not be run. -/
def Abandons (cfg : Config) (s : State) (a : Act) : Prop :=
  (s.leaves? cfg a).any (fun p => s.deserted p.2 p.1) = true

instance (cfg : Config) (s : State) (a : Act) : Decidable (Abandons cfg s a) :=
  inferInstanceAs (Decidable (_ = true))

/-! ### The functions on states -/

theorem lively_event (e : EventId) (b : AgentId) (immediate trigger : Bool) (hl : s.heap.Lively c) :
    (s.event cfg e b immediate trigger).heap.Lively c := by
  unfold event
  dsimp only
  split
  · split
    · unfold triggerEvent
      split
      · exact hl
      · split
        · exact hl
        · exact Heap.lively_of_eq rfl rfl hl
    · exact hl
  · exact hl

theorem lively_startLater (b : AgentId) (d : ChartId) (hl : s.heap.Lively c) :
    (s.startLater cfg b d).heap.Lively c :=
  lively_event _ _ _ _ (Heap.lively_waitEvent cfg b _ _ hl)

theorem lively_startChart (b : AgentId) (d : ChartId) (sync : Bool) (hl : s.heap.Lively c) :
    (s.startChart cfg b d sync).heap.Lively c := by
  have hm := Heap.lively_markStarted d hl
  unfold startChart
  split
  · exact hl
  · dsimp only
    split
    · exact hm
    · exact lively_startLater b d hm

theorem lively_continueLater (o : NodeRef) (hl : s.heap.Lively c) :
    (s.continueLater cfg o).heap.Lively c := by
  unfold continueLater
  split
  · exact lively_event _ _ _ _ (Heap.lively_waitEvent cfg _ o _ hl)
  · exact Heap.lively_of_eq rfl rfl hl

theorem lively_refuse (n : NodeRef) (rest : List Frame) (hl : s.heap.Lively c) :
    (s.refuse cfg n rest).heap.Lively c := by
  unfold refuse
  dsimp only
  split
  · exact lively_startLater _ _ (Heap.lively_of_eq rfl rfl hl)
  · exact lively_continueLater n (Heap.lively_of_eq rfl rfl hl)
  · exact Heap.lively_of_eq rfl rfl hl

theorem lively_finishReturn (d : ChartId) (hl : s.heap.Lively c) :
    (s.finishReturn d).heap.Lively c := by
  have hs := Heap.lively_stopChart d hl
  unfold finishReturn
  dsimp only
  split
  · exact Heap.lively_setChart (fun _ => ⟨rfl, rfl⟩) hs
  · exact hs

theorem lively_subchart (name : String) (b : AgentId) (hl : s.heap.Lively c) :
    (s.subchart cfg name b).heap.Lively c := by
  have hp := Heap.lively_prepareSubchart name b hl
  unfold subchart
  split
  · dsimp only
    split
    · exact lively_startChart _ _ _ hp
    · exact hp
  · exact hl

/-- The chart of a node that waits for a start event has a running node. -/
theorem lively_continueLater_self (hv : cfg.validEvent cfg.startEvent = true)
    (hm : s.heap.Made n) {b : AgentId} (hb : s.heap.agentOf n = some b) :
    (s.continueLater cfg n).heap.Lively n.chart := by
  obtain ⟨x, hx, -⟩ := Option.bind_eq_some_iff.mp hb
  have hwait : s.heap.waitEvent cfg b n cfg.startEvent =
      ((s.heap.push (.waiting b cfg.startEvent) n).setNode n ({ · with status := .running })).note
        (.wait n b cfg.startEvent) := by
    rw [Heap.waitEvent, if_pos hv, if_pos (by rw [hx]; rfl)]
  unfold continueLater
  rw [hb]
  refine lively_event _ _ _ _ fun _ => Heap.checkRunning_iff.mpr ⟨n.id, ?_, ?_⟩
  · show n.id < (s.heap.waitEvent cfg b n cfg.startEvent).nodesCount n.chart
    have hc : (s.heap.waitEvent cfg b n cfg.startEvent).charts = s.heap.charts := by
      rw [hwait]
      exact Heap.charts_push ..
    rw [Heap.nodesCount, hc, hx]
    exact hm.2 x hx
  · show ((s.heap.waitEvent cfg b n cfg.startEvent).nodes n).status = .running
    rw [hwait, Heap.nodes_note, Heap.nodes_setNode_self]

/-! ### The steps -/

/-- A step that keeps the calls which work on a chart. -/
theorem noticed_of_calls (hi : s.Noticed) (hf : ∀ c, WorkedOn s.frames c → WorkedOn t.frames c)
    (hh : ∀ c, ¬WorkedOn t.frames c → s.heap.Lively c → t.heap.Lively c) : t.Noticed := by
  intro c
  by_cases hw : WorkedOn t.frames c
  · exact .inl hw
  · exact .inr (hh c hw ((hi c).resolve_left fun hs => hw (hf c hs)))

/-- A call that does not work on a chart gives way to others. -/
theorem workedOn_pop {f : Frame} (gs : List Frame) (hf : s.frames = f :: rest)
    (hne : f.works? = none) (c : ChartId) (hw : WorkedOn s.frames c) : WorkedOn (gs ++ rest) c := by
  rw [hf] at hw
  exact (hw.tail (by simp [hne])).append gs

/-- What is known of the other charts when a call that works on a chart goes. -/
theorem Noticed.tail {f : Frame} {d : ChartId} (hi : s.Noticed) (hf : s.frames = f :: rest)
    (hd : f.works? = some d) (hc : c ≠ d) : WorkedOn rest c ∨ s.heap.Lively c := by
  refine (hi c).imp_left fun hw => ?_
  rw [hf] at hw
  refine hw.tail fun he => hc ?_
  rw [hd] at he
  exact (Option.some.inj he).symm

/-- The start node of a chart that is just being started is running. -/
theorem lively_of_start (hm : s.heap.Made ⟨c, 0⟩) (hr : (s.heap.nodes ⟨c, 0⟩).status = .running) :
    s.heap.Lively c := by
  intro hc
  obtain ⟨x, hx, -⟩ := (Option.any_eq_true _ _).mp hc
  refine Heap.checkRunning_iff.mpr ⟨0, ?_, hr⟩
  rw [Heap.nodesCount, hx]
  exact hm.2 x hx

/-- **A node that is refused, but not given up**, is put off to a start event. -/
theorem lively_of_refuse (hm : s.heap.Made n) (hp : Poised s.heap (.enter n :: rest))
    (hl : maxStackSize ≤ s.heap.currentIndex + 1) (hg : s.givesUp cfg n rest = false)
    (hub : (s.refuse cfg n rest).heap.ub = false) :
    (s.refuse cfg n rest).heap.Lively n.chart := by
  unfold givesUp at hg
  rw [if_pos hl] at hg
  cases hp with
  | calm hc => exact absurd trivial (hc _ List.mem_cons_self)
  | deliver hf _ => rcases hf with rfl | rfl | ⟨ev, rfl⟩ <;> cases hg
  | start _ _ _ hr => exact lively_refuse _ _ (lively_of_start hm hr)
  | @enter _ c b fs _ _ =>
    simp only [Bool.not_eq_false'] at hg
    cases ho : s.heap.agentOf n with
    | none =>
      have hcr : (s.refuse cfg n (.returning c :: fs)).heap.ub = true := by
        rw [refuse, continueLater]
        dsimp only [mapHeap]
        rw [show (s.heap.note (.refused n)).agentOf n = none from ho]
        rfl
      rw [hcr] at hub
      cases hub
    | some b =>
      exact lively_continueLater_self (s := { s.mapHeap (·.note (.refused n)) with
        frames := .returning c :: fs }) hg hm ho

theorem noticed_enterFlow (hw : s.Wf) (hp : Poised s.heap s.frames) (hi : s.Noticed)
    (hf : s.frames = .enter n :: rest) (ha : ¬s.Abandons cfg .tau)
    (hub : (s.enterFlow cfg n rest).heap.ub = false) : (s.enterFlow cfg n rest).Noticed := by
  have hm : s.heap.Made n := hw.entry (.enter n) (by simp [hf]) n rfl
  -- What is given up has a running node.
  have hleft : s.givesUp cfg n rest = true → WorkedOn rest n.chart ∨ s.heap.Lively n.chart := by
    intro hg
    refine workedOn_or_lively (Bool.eq_false_iff.mpr fun hd => ha ?_)
    rw [Abandons, leaves?, hf]
    simp only [hg, ↓reduceIte]
    exact hd
  have he := enters cfg s n rest
  generalize ht : s.enterFlow cfg n rest = t at he hub ⊢
  cases he with
  | refused hl =>
    have hfr : ∀ c, WorkedOn rest c → WorkedOn (s.refuse cfg n rest).frames c := by
      intro c hr
      rcases @frames_of_refuse cfg s n rest with he | ⟨b, d, he⟩
      · rwa [he]
      · rw [he] at hr
        exact hr.tail (by simp [Frame.works?])
    intro c
    by_cases hc : c = n.chart
    · subst c
      by_cases hg : s.givesUp cfg n rest = true
      · exact (hleft hg).imp (hfr _) (lively_refuse n rest)
      · exact .inr (lively_of_refuse hm (hf ▸ hp) hl (Bool.eq_false_iff.mpr hg) hub)
    · exact (hi.tail hf rfl hc).imp (hfr c) (lively_refuse n rest)
  | gone _ => cases hub
  | @flow b hl hb har hcr =>
    intro c
    by_cases hc : c = n.chart
    · exact .inl ⟨_, List.mem_cons_self, congrArg some hc.symm⟩
    · refine (hi.tail hf rfl hc).imp (fun hr => workedOn_cons.mpr (.inr hr)) fun hr => ?_
      exact Heap.lively_beginFlow _ b (Ne.symm hc) hr
  | @skipped b hl hb hr =>
    have hg : s.givesUp cfg n rest = true := by
      unfold givesUp
      rw [if_neg (by omega), hb]
      rcases hr with hr | hr <;> simp [hr]
    intro c
    have hc : WorkedOn rest c ∨ s.heap.Lively c := by
      by_cases hc : c = n.chart
      · subst c
        exact hleft hg
      · exact hi.tail hf rfl hc
    exact hc.imp_right (Heap.lively_of_eq rfl rfl)

/-- A flow is entered, or the executor below goes on with its current node. -/
theorem noticed_continueFlow (hs : s.Shaped) (hi : s.Noticed)
    (hf : s.frames = .continuing n :: rest) (hub : (s.continueFlow n rest).heap.ub = false) :
    (s.continueFlow n rest).Noticed := by
  have hst := hs.stacked
  rw [hf] at hst
  have hn : Nest s.heap rest s.heap.currentIndex := (hst.nest_of_call trivial).tail trivial
  unfold continueFlow at hub ⊢
  dsimp only at hub ⊢
  split at hub
  · cases hub
  · rename_i hag
    rw [if_neg hag]
    split
    · rename_i hcur
      have h0 : 0 < s.heap.currentIndex - 1 := by
        refine Nat.pos_of_ne_zero fun h0 => ?_
        rw [h0, hs.idle 0 (.inl rfl)] at hcur
        exact absurd hcur.2 (by simp)
      have hwork : WorkedOn rest n.chart := hn.workedOn h0 (by omega) hcur.2
      intro c
      by_cases hc : c = n.chart
      · exact .inl (hc ▸ hwork)
      · refine (hi.tail hf rfl hc).imp_right fun hl => ?_
        exact Heap.lively_push _ (Heap.lively_act (fun _ _ => id) hl)
    · refine noticed_of_calls hi (fun c hw => ?_) fun _ _ hl => hl
      rw [hf] at hw
      exact workedOn_cons.mpr ((workedOn_cons.mp hw).imp_left id)

/-- A flow that goes on, or leaves its loop. -/
theorem noticed_of_flow {l k : ℕ} {d : ChartId} {r : Bool} (gs : List Frame) (hi : s.Noticed)
    (hf : s.frames = .flow l d k r :: rest) (ht : t.frames = gs ++ rest) (hgs : WorkedOn gs d)
    (hh : ∀ c, c ≠ d → s.heap.Lively c → t.heap.Lively c) : t.Noticed := by
  have hd : WorkedOn t.frames d := by
    obtain ⟨g, hg, hw⟩ := hgs
    rw [ht]
    exact ⟨g, List.mem_append_left rest hg, hw⟩
  intro c
  by_cases hc : c = d
  · exact .inl (hc ▸ hd)
  · refine (hi.tail hf rfl hc).imp (fun hr => ?_) (hh c hc)
    rw [ht]
    exact hr.append gs

/-- A round of the loop works on the nodes of the chart of the flow only. -/
theorem noticed_flowRound {l k : ℕ} {d : ChartId} {r : Bool} (hs : s.Shaped) (hk : s.Kept)
    (hi : s.Noticed) (hf : s.frames = .flow l d k r :: rest) :
    (s.flowRound cfg l d k r rest).Noticed := by
  have hst := hs.stacked
  rw [hf] at hst
  obtain ⟨hl, hl0, hu, hn⟩ := hst.flow_inv
  rw [hl] at hl0 hu hn
  have hlist : ∀ m ∈ (s.heap.stack l).nodeList, m.chart = d := hu.nodes
  -- The history list is that of the innermost flow.
  have hhist : ∀ m ∈ (s.heap.stack l).historyNodes, m.chart = d := by
    intro m hm
    obtain ⟨k', r', hfl⟩ := hk l m hm
    rw [hf] at hfl
    rcases List.mem_cons.mp hfl with he | hfl
    · exact (Frame.flow.inj he).2.1
    · have := hn.le_of_flow hfl
      omega
  have hne : ∀ {c} {ms : List NodeRef}, c ≠ d → (∀ m ∈ ms, m.chart = d) →
      ∀ m ∈ ms, m.chart ≠ c :=
    fun hc hms m hm he => hc (he.symm.trans (hms m hm))
  have hr := rounds cfg s l d k r rest
  generalize s.flowRound cfg l d k r rest = t at hr ⊢
  cases hr with
  | ends _ =>
    refine noticed_of_flow [.ended l d r] hi hf rfl ⟨_, List.mem_cons_self, rfl⟩ fun c hc hl => ?_
    exact Heap.lively_restoreHistory l (hne hc hhist) hl
  | cut _ _ =>
    refine noticed_of_flow [.ended l d r] hi hf rfl ⟨_, List.mem_cons_self, rfl⟩ fun c hc hl => ?_
    refine Heap.lively_restoreHistory l (hne hc fun m hm => ?_)
      (Heap.lively_cutFlow l (hne hc hlist) hl)
    exact (Heap.mem_history_cutFlow s.heap l hm).elim (hhist m) (hlist m)
  | waiting _ _ _ _ _ =>
    refine noticed_of_flow [.flow l d (k + 1) true] hi hf rfl ⟨_, List.mem_cons_self, rfl⟩ ?_
    exact fun c _ => Heap.lively_pop l
  | @defer n _ _ _ _ _ _ _ =>
    refine noticed_of_flow [.flow l d (k + 1) true] hi hf rfl ⟨_, List.mem_cons_self, rfl⟩ ?_
    exact fun c _ => Heap.lively_deferTick cfg l n
  | @run n ns hl' _ _ _ _ =>
    have hnd : n.chart = d := hlist n (by simp [hl'])
    have hcur : (s.heap.enterNode l n).currentNode = some n := by
      have hset : ((s.heap.setExecutor l ({ · with currentNode := some n })).stack l).currentNode =
          some n := by rw [Heap.stack_setExecutor, if_pos rfl]
      rw [← hl] at hset ⊢
      unfold Heap.enterNode
      dsimp only
      split <;> exact hset
    have hrn := runsNode { s with frames := .flow l d (k + 1) r :: rest } l n
    have hent : ∀ c, s.heap.Lively c → (s.heap.enterNode l n).Lively c :=
      fun c => Heap.lively_enterNode l n
    generalize State.runNode _ l _ = w at hrn ⊢
    cases hrn with
    | skip | null =>
      exact noticed_of_flow [.ran n, .flow l d (k + 1) r] hi hf rfl
        ⟨.flow l d (k + 1) r, by simp, rfl⟩ fun c _ => hent c
    | script =>
      exact noticed_of_flow [.func n, .flow l d (k + 1) r] hi hf rfl
        ⟨.flow l d (k + 1) r, by simp, rfl⟩ fun c _ => hent c
    | @control f _ _ _ _ =>
      refine noticed_of_flow [.ran n, .flow l d (k + 1) r] hi hf rfl
        ⟨.flow l d (k + 1) r, by simp, rfl⟩ fun c hc hl => ?_
      refine Heap.lively_returnNode n _ (Heap.lively_callControl f (fun m hm => ?_) (hent c hl))
      obtain rfl := Option.some.inj (hcur.symm.trans hm)
      exact fun he => hc (he.symm.trans hnd)

/-- `Chart::Return` up to `ContinueFlow` of the owner node, which it stops. -/
theorem noticed_chartReturn (hi : s.Noticed) (d : ChartId) (b : Bool) :
    (s.chartReturn d b).Noticed := by
  unfold chartReturn
  dsimp only
  split
  · exact noticed_of_calls hi (fun c hw => hw.append [.returning d]) fun c _ =>
      Heap.lively_of_eq rfl rfl
  · rename_i o _
    refine noticed_of_calls hi (fun c hw => hw.append [.continuing o, .returning d]) ?_
    intro c hw hl
    have hne : o.chart ≠ c := fun he => hw ⟨.continuing o, List.mem_cons_self, congrArg some he⟩
    exact Heap.lively_act_of_ne hne (Heap.lively_stop hne (Heap.lively_of_eq rfl rfl hl))

/-- **The end of a flow**: the chart returns, or was left with a running node. -/
theorem noticed_flowCheck {l : ℕ} {d : ChartId} {r : Bool} (hi : s.Noticed)
    (hf : s.frames = .ended l d r :: rest) (ha : ¬s.Abandons cfg .tau) :
    (s.flowCheck l d r rest).Noticed := by
  unfold flowCheck
  split
  · refine noticed_chartReturn (s := { s with frames := .flowReturn l d :: rest })
      (fun c => ?_) d true
    refine (hi c).imp_left fun hw => ?_
    rw [hf] at hw
    exact workedOn_cons.mpr ((workedOn_cons.mp hw).imp_left id)
  · rename_i hcond
    intro c
    have hc : WorkedOn rest c ∨ s.heap.Lively c := by
      by_cases hc : c = d
      · subst c
        cases r with
        | true =>
          refine workedOn_or_lively (Bool.eq_false_iff.mpr fun hd => ha ?_)
          rw [Abandons, leaves?, hf]
          exact hd
        | false =>
          refine .inr fun hr => ?_
          simpa [hr] using hcond
      · exact hi.tail hf rfl hc
    exact hc.imp_right (Heap.lively_closeFlow l)

/-- **The calls of the API**: a call for the current node is made in a flow. -/
theorem noticed_runOp {o : Op} (hw : s.Wf) (hs : s.Shaped) (hi : s.Noticed)
    (hm : s.mayCall o = true)
    (hub : t.heap.ub = false) (ho : s.runOp cfg o = some t) : t.Noticed := by
  obtain ⟨gs, hgs, -⟩ := (pushes_runOp hw.born hub ho).calls
  have hkeep : ∀ c, WorkedOn s.frames c → WorkedOn t.frames c := fun c hwk => hgs ▸ hwk.append gs
  have hcur : ∀ n, s.heap.currentNode = some n → WorkedOn s.frames n.chart := by
    intro n hn
    have h0 : 0 < s.heap.currentIndex := by
      refine Nat.pos_of_ne_zero fun h0 => ?_
      rw [Heap.currentNode, h0, hs.idle 0 (.inl rfl)] at hn
      cases hn
    exact (nest_of_mayCall hs.stacked hm).workedOn h0 (Nat.le_refl _) hn
  -- A call for the current node leaves the other charts alone.
  have hother : ∀ c, ¬WorkedOn t.frames c → ∀ n, s.heap.currentNode = some n → n.chart ≠ c :=
    fun c hwk n hn he => hwk (he ▸ hkeep _ (hcur n hn))
  have hall : (∀ c, ¬WorkedOn t.frames c → s.heap.Lively c → t.heap.Lively c) → t.Noticed :=
    noticed_of_calls hi hkeep
  cases o <;> simp only [runOp, Option.ite_none_right_eq_some, Option.some.injEq] at ho
  case managerReturn b =>
    subst t
    unfold managerReturn
    split
    · exact noticed_of_calls hi (fun _ => id) fun c _ => Heap.lively_of_eq rfl rfl
    · split
      · exact noticed_chartReturn hi _ b
      · exact hi
  case attachChart b name =>
    obtain ⟨-, rfl⟩ := ho
    refine hall fun c _ hl => ?_
    split
    · exact Heap.lively_attachChart b _ hl
    · exact hl
  case startChart d =>
    obtain ⟨-, hmap⟩ := ho
    obtain ⟨b, -, rfl⟩ := Option.map_eq_some_iff.mp hmap
    exact hall fun c _ => lively_startChart b d _
  case stopChart d =>
    obtain ⟨-, rfl⟩ := ho
    exact hall fun c _ => Heap.lively_stopChart d
  case waitEvent b e =>
    obtain ⟨-, rfl⟩ := ho
    exact hall fun c _ => Heap.lively_managerWaitEvent cfg b e
  all_goals subst t; refine hall fun c hwk hl => ?_
  case importChart | step | place => exact Heap.lively_of_eq rfl rfl hl
  case patchChart doc => exact Heap.lively_patchChart doc hl
  case register o => exact Heap.lively_register o hl
  case unregister b => exact Heap.lively_unregisterGameObject b _ hl
  case removeChart b name => exact Heap.lively_removeChart b name hl
  case stopAgent b => exact Heap.lively_stopAgent b hl
  case setCall d => exact Heap.lively_setChart (fun _ => ⟨rfl, rfl⟩) hl
  case event e b immediate trigger => exact lively_event e b immediate trigger hl
  case continueAsyncNode ctx b => exact Heap.lively_continueAsyncNode ctx b hl
  case cancelAsyncNode ctx stop => exact Heap.lively_cancelAsyncNode ctx stop hl
  case wait => exact Heap.lively_wait hl
  case waitAll args => exact Heap.lively_waitAll args (hother c hwk) hl
  case stopNode args => exact Heap.lively_stopNodes args (hother c hwk) hl
  case stopFlow args => exact Heap.lively_stopFlow args (hother c hwk) hl
  case subchart name b => exact lively_subchart name b hl
  case createAsyncContext => exact Heap.lively_createAsyncContext hl

theorem noticed_of_step (hw : s.Wf) (hs : s.Shaped) (hk : s.Kept) (hp : Poised s.heap s.frames)
    (hi : s.Noticed) (h : s.step cfg a = some t) (ha : ¬s.Abandons cfg a) : t.Noticed := by
  have hub := ub_of_sound (sound_of_step h)
  cases (trans_of_step h).1 with
  | enter hf => exact noticed_enterFlow hw hp hi hf ha hub
  | continuing hf => exact noticed_continueFlow hs hi hf hub
  | flow hf => exact noticed_flowRound hs hk hi hf
  | @ran n l d k r rest hf =>
    have hst := hs.stacked
    rw [hf] at hst
    obtain ⟨_, _, _, -, he, -⟩ := hst.ran_inv
    obtain ⟨⟨rfl, rfl, -⟩, -⟩ : (l = s.heap.currentIndex ∧ d = n.chart ∧ _) ∧ _ := by simpa using he
    refine noticed_of_calls hi (fun c hwk => ?_) fun c hwk => ?_
    · rw [hf] at hwk
      exact workedOn_cons.mpr ((workedOn_cons.mp (hwk.tail (by simp [Frame.works?]))).imp_left id)
    · have hne : n.chart ≠ c := fun he => hwk ⟨_, List.mem_cons_self, congrArg some he⟩
      exact Heap.lively_finishNode _ hne
  | ended hf => exact noticed_flowCheck hi hf ha
  | @flowReturn l d rest hf =>
    intro c
    by_cases hc : c = d
    · subst c
      exact .inr (Heap.lively_closeFlow l (Heap.lively_of_idle (Heap.charts_setChart_self ..)))
    · refine (hi.tail hf rfl hc).imp_right fun hl => ?_
      exact Heap.lively_closeFlow l (Heap.lively_setIdle d hl)
  | @returning d rest hf =>
    obtain ⟨gs, hgs, -⟩ := pushed_finishReturn { s with frames := rest } d
    refine noticed_of_calls hi (fun c hwk => hgs ▸ workedOn_pop gs hf rfl c hwk) ?_
    exact fun c _ hl => lively_finishReturn (s := { s with frames := rest }) d hl
  | @handle ev rest hf =>
    unfold handleRound
    split
    · exact noticed_of_calls hi (workedOn_pop [] hf rfl) fun _ _ hl => hl
    · split
      · exact noticed_of_calls hi (workedOn_pop [] hf rfl) fun _ _ => Heap.lively_of_eq rfl rfl
      · rename_i n ns _
        refine noticed_of_calls hi (fun c hwk => hwk.append [.enter n]) fun c hwk => ?_
        have hne : n.chart ≠ c := fun he => hwk ⟨.enter n, List.mem_cons_self, congrArg some he⟩
        exact Heap.lively_takeHandled _ _ ns hne
  | @async rest hf =>
    unfold asyncRound
    split
    · exact noticed_of_calls hi (workedOn_pop [.events] hf rfl) fun _ _ hl => hl
    · rename_i n ns _
      refine noticed_of_calls hi (fun c hwk => hwk.append [.enter n]) fun c hwk => ?_
      have hne : n.chart ≠ c := fun he => hwk ⟨.enter n, List.mem_cons_self, congrArg some he⟩
      exact Heap.lively_resumeNode ns hne
  | @events rest hf =>
    unfold eventsRound
    split
    · exact noticed_of_calls hi (workedOn_pop [.dying _] hf rfl) fun _ _ hl => hl
    · rename_i ev evs _
      dsimp only
      split
      · exact noticed_of_calls hi (fun c hwk => hwk.append [.deleteEvent ev]) fun _ _ hl => hl
      · exact noticed_of_calls hi (fun c hwk => hwk.append [.handle ev, .deleteEvent ev])
          fun _ _ => Heap.lively_of_eq rfl rfl
  | @dying as rest hf =>
    unfold dyingRound
    split
    · exact noticed_of_calls hi (workedOn_pop [] hf rfl) fun _ _ => Heap.lively_of_eq rfl rfl
    · rename_i b as
      exact noticed_of_calls hi (workedOn_pop [.release b, .dying as] hf rfl) fun _ _ hl => hl
  | @released b rest hf =>
    exact noticed_of_calls hi (workedOn_pop [] hf rfl) fun _ _ =>
      Heap.lively_destroyAgent cfg.events b
  | op hm ho => exact noticed_runOp hw hs hi hm hub ho
  | @ret n rest r hf =>
    exact noticed_of_calls hi (workedOn_pop [.ran n] hf rfl) fun _ _ => Heap.lively_returnNode n r
  | @fire n rest hf hn =>
    exact noticed_of_calls hi (fun c hwk => hwk.append [.enter n]) fun _ _ =>
      Heap.lively_act fun _ _ => id
  | @tick b rest hf hb =>
    obtain ⟨gs, hgs, -⟩ := @pushed_event cfg s cfg.tickEvent b false false
    exact noticed_of_calls hi (fun c hwk => hgs ▸ hwk.append gs) fun c _ => lively_event _ b _ _
  | @timersDone rest hf =>
    exact noticed_of_calls hi (workedOn_pop [.async] hf rfl) fun _ _ hl => hl
  | starting hf | trigger hf | deleteEvent hf | done hf =>
    exact noticed_of_calls hi (workedOn_pop [] hf rfl) fun _ _ hl => hl

/-! ### The runs -/

theorem noticed_of_steps (h : Run.Steps (step cfg) (fun s a => ¬Abandons cfg s a) init s) :
    Reachable cfg s ∧ s.Noticed := by
  refine h.invariant (I := fun s => Reachable cfg s ∧ s.Noticed) ?_ fun u a v hi ha hs => ?_
  · exact ⟨.refl _, fun c => .inr (Heap.lively_of_not_running rfl)⟩
  · refine ⟨hi.1.tail trivial hs, ?_⟩
    exact noticed_of_step (wf_of_reachable hi.1) (shaped_of_reachable hi.1) (kept_of_reachable hi.1)
      (poised_of_reachable hi.1) hi.2 hs ha

/-- **The completion of a chart is not missed.** -/
structure Notices (cfg : Config) (s : State) : Prop where
  /-- When no flow is executed or just being entered, a running chart has a running node. -/
  running : s.heap.currentIndex = 0 → Calm s.frames →
    ∀ c, s.heap.chartRunning c = true → s.heap.checkRunning c = true
  /-- A running chart that has none when its last flow ends returns. -/
  returns : ∀ {l c r rest t}, s.frames = .ended l c r :: rest → ¬s.Abandons cfg .tau →
    s.deserted rest c = true → s.step cfg .tau = some t → .returning c ∈ t.frames

/-- A flow at whose end the chart is deserted returns it, if it saw no running node. -/
theorem returning_of_ended {l : ℕ} {r : Bool} (hf : s.frames = .ended l c r :: rest)
    (ha : ¬s.Abandons cfg .tau) (hd : s.deserted rest c = true)
    (h : s.step cfg .tau = some t) : .returning c ∈ t.frames := by
  have ht : s.flowCheck l c r rest = t := by
    have hnext := (Option.filter_eq_some_iff.mp h).1
    simpa only [next, runTau, hf, Option.some.injEq] using hnext
  have hr : r = false := by
    refine Bool.eq_false_iff.mpr fun hr => ha ?_
    subst r
    rw [Abandons, leaves?, hf]
    exact hd
  have hcond : s.heap.chartRunning c = true ∧ s.heap.checkRunning c = false := by
    simp only [deserted, Bool.and_eq_true, Bool.not_eq_true'] at hd
    exact hd.1
  subst t r
  rw [flowCheck, if_pos (by simp [hcond])]
  rcases frames_of_chartReturn { s with frames := .flowReturn l c :: rest } c true with
    he | ⟨o, -, he⟩
  · rw [he]
    exact List.mem_cons_self
  · rw [he]
    exact List.mem_cons_of_mem _ List.mem_cons_self

/-- **Every chart is looked at in the end**, in a run in which no running chart without a
running node is left alone. -/
theorem notices (h : Run.Steps (step cfg) (fun s a => ¬Abandons cfg s a) init s) :
    s.Notices cfg := by
  obtain ⟨hr, hn⟩ := noticed_of_steps h
  refine ⟨fun h0 hc c => ?_, fun hf ha hd hs => returning_of_ended hf ha hd hs⟩
  refine (hn c).resolve_left ?_
  have hst := (shaped_of_reachable hr).stacked
  rw [h0] at hst
  generalize s.frames = fs at hst hc
  cases hst with
  | nest hn => exact hn.not_workedOn hc

/-- A chart with a node that is followed by two others, the second of which may stop the
first. -/
def stopperChart (func : NodeFunc) : ChartData :=
  { name := "stopper", nodes := [{ success := [1] }, { func := .script, success := [2, 3] },
      { func := .script }, { func := func }] }

/-- The calls until the second node waits for its timer and the rest of the flow has run. -/
def stopperActs (func : NodeFunc) : List Act :=
  [.op (.importChart (stopperChart func)), .op (.register 0), .op (.attachChart 1 "stopper"),
    .op (.startChart 0), .ret .rTrue, .op .wait, .ret .rTrue]

/-- The first waits for its timer. -/
theorem notices_waiting : ∃ s : State, s.frames = [] ∧ s.heap.chartRunning 0 = true ∧
    s.heap.checkRunning 0 = true ∧ s.Notices { deferEvent := false } := by
  obtain ⟨s, hs, hp⟩ : ∃ s, Run.Steps (step { deferEvent := false })
      (fun s a => ¬Abandons { deferEvent := false } s a) init s ∧ s.frames = [] ∧
      s.heap.chartRunning 0 = true ∧ s.heap.checkRunning 0 = true := by
    have h : ((Run.drive (Run.guarded (step { deferEvent := false })
        fun s a => ¬Abandons { deferEvent := false } s a) .tau 1000 init (stopperActs .null)).any
        fun s => decide (s.frames = [] ∧ s.heap.chartRunning 0 = true ∧
          s.heap.checkRunning 0 = true)) = true := by
      decide +kernel
    obtain ⟨s, hs, hp⟩ := (Option.any_eq_true _ _).mp h
    exact ⟨s, Run.steps_of_guarded (Run.reaches_of_drive hs), of_decide_eq_true hp⟩
  exact ⟨s, hp.1, hp.2.1, hp.2.2, notices hs⟩

/-- **A chart whose completion is missed**: the second stops the first in the flow that saw it
running, and the chart stays as it is, without a running node. -/
theorem not_notices_stopped : ∃ s : State, Reachable { deferEvent := false } s ∧ s.frames = [] ∧
    s.heap.currentIndex = 0 ∧ s.heap.chartRunning 0 = true ∧ s.heap.checkRunning 0 = false ∧
    ¬s.Notices { deferEvent := false } := by
  have h : ((play { deferEvent := false } (stopperActs (.stopNode [2]))).any fun s =>
      decide (s.frames = [] ∧ s.heap.currentIndex = 0 ∧ s.heap.chartRunning 0 = true ∧
        s.heap.checkRunning 0 = false)) = true := by
    decide +kernel
  obtain ⟨s, hs, hp⟩ := (Option.any_eq_true _ _).mp h
  obtain ⟨hf, h0, hr, hn⟩ := of_decide_eq_true hp
  refine ⟨s, Run.reaches_of_drive hs, hf, h0, hr, hn, fun hall => ?_⟩
  have hc : Calm s.frames := by
    rw [hf]
    exact calm_nil
  rw [hall.running h0 hc 0 hr] at hn
  cases hn

end State

end Asyncflow
