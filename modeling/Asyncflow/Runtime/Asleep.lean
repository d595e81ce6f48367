import Asyncflow.Runtime.Stopped

/-!
# A stopped chart stays asleep

A node at rest goes on when an edge leads to it. But edges do not leave their chart, and lead
only from a node that has just run (`Asyncflow.State.leads_of_step`): when no node of a chart is
in play, no edge of the chart is followed. So a chart that is asleep stays so until it is started
or the subchart of one of its nodes returns, and stopping a chart puts it to sleep.
-/

namespace Asyncflow

namespace Heap

variable {h : Heap} {n : NodeRef} {c : ChartId}

/-! ### What stopping a chart records -/

theorem log_suffix_stop (h : Heap) (n : NodeRef) :
    (.stop n (h.nodes n).status :: h.log) <:+ (h.stop n).log := by
  have ha : Adds (fun _ => True) (h.act n Node.stop (.stop n (h.nodes n).status)) (h.stop n) := by
    refine .trans ?_ (adds_detach trivial _)
    split
    · exact (adds_foldl (adds_stopNode (fun _ _ => trivial) h.nextChart) _ _).trans
        (adds_of_cons trivial rfl)
    · exact adds_of_eq rfl
  obtain ⟨new, hl, -⟩ := ha
  exact ⟨new, hl.symm⟩

/-- Every node of the chart is stopped. -/
theorem stop_mem_of_stopChart {new : List Obs} (hl : (h.stopChart c).log = new ++ h.log)
    (hn : n ∈ h.nodeList c) : ∃ w, .stop n w ∈ new := by
  obtain ⟨pre, post, hsplit⟩ := List.append_of_mem hn
  have hstops : ∀ (g : Heap) (l : List NodeRef), Adds (fun _ => True) g (l.foldl stop g) :=
    adds_foldl fun g m => adds_stopNode (fun _ _ => trivial) _ g m
  obtain ⟨before, hbefore, -⟩ := hstops h pre
  obtain ⟨mid, hmid⟩ := log_suffix_stop (pre.foldl stop h) n
  obtain ⟨after, hafter, -⟩ := hstops ((pre.foldl stop h).stop n) post
  have hlog : (h.stopChart c).log =
      (.chartStop c :: (after ++ mid) ++ .stop n ((pre.foldl stop h).nodes n).status :: before) ++
        h.log := by
    show .chartStop c :: ((h.nodeList c).foldl stop h).log = _
    rw [hsplit, List.foldl_append, List.foldl_cons, hafter, ← hmid, hbefore]
    simp only [List.cons_append, List.append_assoc]
  refine ⟨((pre.foldl stop h).nodes n).status, ?_⟩
  rw [List.append_cancel_right (hl.symm.trans hlog)]
  exact List.mem_append_right _ List.mem_cons_self

end Heap

/-- The entries that let a chart go on: it is started, or the subchart of one of its nodes
returns. -/
def Obs.wakes (c : ChartId) : Obs → Prop
  | .started d => d = c
  | .owner m _ _ => m.chart = c
  | _ => False

instance (c : ChartId) (o : Obs) : Decidable (o.wakes c) :=
  decidable_of_iff ((match o with
    | .started d => decide (d = c)
    | .owner m _ _ => decide (m.chart = c)
    | _ => false) = true) (by cases o <;> simp [Obs.wakes])

namespace State

variable {cfg : Config} {s t u : State} {a : Act} {n m : NodeRef} {c : ChartId} {l k : ℕ} {r : Bool}
  {fs rest : List Frame}

/-! ### Nodes in play are nodes of charts -/

theorem current_of_nest {h : Heap} (hn : Nest h fs l) (hf : .func n ∈ fs) :
    ∃ k, (h.stack k).currentNode = some n := by
  induction hn with
  | nil => cases hf
  | call hc _ ih =>
    rcases List.mem_cons.mp hf with rfl | hf
    · exact hc.elim
    · exact ih hf
  | func _ hcur _ ih =>
    rcases List.mem_cons.mp hf with he | hf
    · obtain rfl := Frame.func.inj he
      exact ⟨_, hcur⟩
    · rcases List.mem_cons.mp hf with he | hf
      · cases he
      · exact ih hf
  | flowReturn _ _ ih =>
    rcases List.mem_cons.mp hf with he | hf
    · cases he
    · exact ih hf

/-- A node whose function is called, or was just called, is the current node of an executor. -/
theorem current_of_stacked {h : Heap} (hst : Stacked h fs l) (hf : .func n ∈ fs ∨ .ran n ∈ fs) :
    ∃ k, (h.stack k).currentNode = some n := by
  cases hst with
  | nest hn =>
    exact hf.elim (current_of_nest hn) fun hr => absurd hr (ran_not_mem_of_nest hn)
  | flow _ hn | ended _ hn =>
    rcases hf with hf | hf
    · refine current_of_nest hn ((List.mem_cons.mp hf).resolve_left fun he => ?_)
      cases he
    · refine absurd ((List.mem_cons.mp hf).resolve_left fun he => ?_) (ran_not_mem_of_nest hn)
      cases he
  | ran _ hcur hn =>
    rcases hf with hf | hf
    · refine current_of_nest hn ?_
      simpa using hf
    · rcases List.mem_cons.mp hf with he | hf
      · obtain rfl := Frame.ran.inj he
        exact ⟨_, hcur⟩
      · refine absurd ((List.mem_cons.mp hf).resolve_left fun he => ?_) (ran_not_mem_of_nest hn)
        cases he

theorem made_of_inPlay (hs : Reachable cfg s) (h : s.InPlay n) : s.heap.Made n := by
  have hw := wf_of_reachable hs
  have hst := (shaped_of_reachable hs).stacked
  cases h with
  | @frame f hf hnm =>
    cases f with
    | enter m => exact hw.entry _ hf n (congrArg some hnm)
    | continuing m => exact hw.entry _ hf n (congrArg some hnm)
    | func m =>
      obtain rfl : m = n := hnm
      obtain ⟨k, hk⟩ := current_of_stacked hst (.inl hf)
      exact hw.born.current k m hk
    | ran m =>
      obtain rfl : m = n := hnm
      obtain ⟨k, hk⟩ := current_of_stacked hst (.inr hf)
      exact hw.born.current k m hk
    | _ => exact hnm.elim
  | listed hm => exact hw.born.linked _ n hm
  | async hm => exact hw.born.refers.suspended n hm
  | timer hatt => exact hw.born.timer n hatt

/-! ### Where edges come from -/

/-- The entry is no edge, or one that leads from a node that has just run to a node of its
chart. -/
def Leads (s : State) (o : Obs) : Prop :=
  ∀ p n, o = .edge p n → (∃ rest, s.frames = .ran p :: rest) ∧ p.chart = n.chart

theorem leads_of_isQuiet (s : State) (o : Obs) (ho : o.isQuiet) : s.Leads o := by
  rintro p n rfl
  exact ho.elim

theorem leads_of_not_isFlow {o : Obs} (ho : ¬o.isFlow) : s.Leads o := by
  rintro p n rfl
  exact absurd trivial ho

theorem leads_enterFlow (hw : s.Wf) (hf : s.frames = .enter m :: rest) :
    Heap.Adds s.Leads s.heap (s.enterFlow cfg m rest).heap := by
  have he := enters cfg s m rest
  generalize s.enterFlow cfg m rest = t at he ⊢
  cases he with
  | refused _ =>
    have hd : Heap.Does (fun _ => False) (fun _ => True) (fun _ => False) s.heap
        (s.refuse cfg m rest).heap := does_refuse hw hf
    exact (Heap.adds_of_does hd).mono fun _ => leads_of_not_isFlow
  | gone _ => exact Heap.adds_of_eq rfl
  | flow => exact Heap.adds_beginFlow (leads_of_isQuiet s) _ _ _ (by rintro p n ⟨⟩)
  | skipped _ _ _ => exact Heap.adds_of_cons (o := .skipped m) (by rintro p n ⟨⟩) rfl

theorem leads_continueFlow : Heap.Adds s.Leads s.heap (s.continueFlow m rest).heap := by
  unfold continueFlow
  dsimp only
  split
  · exact Heap.adds_of_eq rfl
  · split
    · exact Heap.adds_continueFlow (leads_of_isQuiet s) _ _ (by rintro p n ⟨⟩)
    · exact Heap.adds_of_eq rfl

theorem leads_flowRound : Heap.Adds s.Leads s.heap (s.flowRound cfg l c k r rest).heap := by
  have hr := rounds cfg s l c k r rest
  generalize s.flowRound cfg l c k r rest = t at hr ⊢
  cases hr with
  | ends => exact Heap.adds_restored (leads_of_isQuiet s) _ l
  | cut =>
    exact (Heap.adds_cutFlow _ l fun m _ => by rintro p n ⟨⟩).trans
      (Heap.adds_restored (leads_of_isQuiet s) _ l)
  | waiting => exact Heap.adds_pop _ l
  | defer => exact Heap.adds_deferTick (leads_of_isQuiet s) _ l fun _ => by rintro p n ⟨⟩
  | @run m =>
    have he : Heap.Adds s.Leads s.heap (s.heap.enterNode l m) :=
      Heap.adds_enterNode _ l (by rintro p n ⟨⟩)
    have hn := runsNode { s with frames := .flow l c (k + 1) r :: rest } l m
    generalize State.runNode _ l m = w at hn ⊢
    cases hn with
    | skip | null | script => exact he
    | @control f =>
      have hcall : Heap.Does (fun _ => False) (fun _ => True) (fun _ => False)
          (s.heap.enterNode l m) (((s.heap.enterNode l m).callControl f).2.returnNode m
            (.ofBool ((s.heap.enterNode l m).callControl f).1)) :=
        (Heap.does_callControl _ f).trans (Heap.does_returnNode _ m _)
      exact he.trans ((Heap.adds_of_does hcall).mono fun _ => leads_of_not_isFlow)

theorem leads_flowFinish (hf : s.frames = .ran m :: rest) (l : ℕ) :
    Heap.Adds s.Leads s.heap (s.heap.finishNode l m) := by
  -- The successors are looked up in the chart of the node.
  refine Heap.adds_finishNode (leads_of_isQuiet s) _ l (fun _ => by rintro p n ⟨⟩) fun i => ?_
  rintro p n ⟨⟩
  exact ⟨⟨rest, hf⟩, rfl⟩

theorem leads_flowCheck : Heap.Adds s.Leads s.heap (s.flowCheck l c r rest).heap := by
  unfold flowCheck
  split
  · have hd : Heap.Does (fun _ => False) (fun _ => True) (fun _ => False) s.heap
        (({ s with frames := .flowReturn l c :: rest } : State).chartReturn c true).heap :=
      does_chartReturn { s with frames := .flowReturn l c :: rest } c true
    exact (Heap.adds_of_does hd).mono fun _ => leads_of_not_isFlow
  · exact Heap.adds_of_eq rfl

/-- **An edge leads from the node that has just run** to a node of the same chart. -/
theorem leads_of_step (hw : s.Wf) (h : s.step cfg a = some t) :
    Heap.Adds s.Leads s.heap t.heap := by
  have hdoes : Heap.Does (fun _ => False) (fun _ => True) (fun _ => False) s.heap t.heap →
      Heap.Adds s.Leads s.heap t.heap :=
    fun hd => (Heap.adds_of_does hd).mono fun _ => leads_of_not_isFlow
  have hcalls : (∀ l, ¬s.Flows l) → Heap.Adds s.Leads s.heap t.heap :=
    fun hno => hdoes (does_of_step (fun l hl => hno l hl) hw h fun _ _ => trivial)
  cases (trans_of_step h).1 with
  | enter hf => exact leads_enterFlow hw hf
  | continuing => exact leads_continueFlow
  | flow => exact leads_flowRound
  | ran hf => exact leads_flowFinish hf _
  | ended => exact leads_flowCheck
  | flowReturn => exact Heap.adds_of_eq rfl
  | op _ ho => exact hdoes (does_runOp hw.born (ub_of_sound (sound_of_step h)) ho fun _ _ =>
      trivial)
  | starting hf | returning hf | handle hf | trigger hf | async hf | events hf | dying hf
  | released hf | deleteEvent hf | ret _ hf | done hf | fire hf | tick hf | timersDone hf =>
    refine hcalls fun l hl => ?_
    simp only [Flows, hf] at hl

/-! ### Charts that are asleep -/

/-- No node of the chart is in play. -/
def Asleep (s : State) (c : ChartId) : Prop := ∀ n, n.chart = c → ¬s.InPlay n

/-- The step does not wake the chart. -/
def LetsSleep (cfg : Config) (c : ChartId) (s : State) (a : Act) : Prop :=
  ∀ t ∈ s.step cfg a, ∀ o ∈ since s t, ¬o.wakes c

instance (cfg : Config) (c : ChartId) (s : State) (a : Act) : Decidable (LetsSleep cfg c s a) := by
  unfold LetsSleep
  infer_instance

/-- **A step leaves a chart asleep**, unless it wakes it: the edges of the chart lead from nodes
that have just run. -/
theorem asleep_of_step (hs : Reachable cfg s) (hc : s.Asleep c) (hmade : c < s.heap.nextChart)
    (h : s.step cfg a = some t) (hwake : ∀ o ∈ since s t, ¬o.wakes c) :
    t.Asleep c ∧ ∀ n, n.chart = c → ∀ o ∈ since s t, ¬o.stirs n := by
  have hlets : ∀ n, n.chart = c → ∀ o ∈ since s t, ¬o.arouses n := by
    rintro n rfl o ho har
    cases o with
    | edge p m =>
      obtain rfl : m = n := har
      obtain ⟨new, hlog, hleads⟩ := leads_of_step (wf_of_reachable hs) h
      rw [since_of_log hlog] at ho
      -- The node the edge leads from is of the chart, and in play.
      obtain ⟨⟨rest, hf⟩, hchart⟩ := hleads _ ho p m rfl
      refine hc p hchart (.frame (f := .ran p) ?_ rfl)
      rw [hf]
      exact List.mem_cons_self
    | owner m => exact hwake _ ho (congrArg NodeRef.chart har)
    | started d => exact hwake _ ho (congrArg NodeRef.chart har).symm
    | _ => exact har.elim
  have hstep : ∀ n, n.chart = c → ¬t.InPlay n ∧ ∀ o ∈ since s t, ¬o.stirs n :=
    fun n hn => atRest_of_step hs (hc n hn) h (hlets n hn) fun hnew =>
      Nat.not_le_of_lt (hn ▸ hmade) hnew.1
  exact ⟨fun n hn => (hstep n hn).1, fun n hn => (hstep n hn).2⟩

/-- **A run that does not wake a chart leaves it asleep.** -/
theorem asleep_of_steps (hs : Reachable cfg s) (hc : s.Asleep c) (hmade : c < s.heap.nextChart)
    (h : Run.Steps (step cfg) (LetsSleep cfg c) s t) :
    t.Asleep c ∧ ∀ n, n.chart = c → ∀ o ∈ since s t, ¬o.stirs n := by
  suffices hall : (t.Asleep c ∧ c < t.heap.nextChart) ∧
      ∀ n, n.chart = c → ∀ o ∈ since s t, ¬o.stirs n from ⟨hall.1.1, hall.2⟩
  induction h with
  | refl =>
    refine ⟨⟨hc, hmade⟩, fun n _ => ?_⟩
    rw [since_of_log (List.nil_append s.heap.log).symm]
    intro o ho
    cases ho
  | @tail u v a hr hK hstep ih =>
    have hu : Reachable cfg u := hs.trans (hr.mono fun _ _ _ => trivial)
    obtain ⟨⟨hasleep, hlt⟩, hsteps⟩ := ih
    obtain ⟨hsleep, hcalm⟩ := asleep_of_step hu hasleep hlt hstep (hK v hstep)
    refine ⟨⟨hsleep, Nat.lt_of_lt_of_le hlt (nextChart_le_of_step hu hstep)⟩, fun n hn o ho => ?_⟩
    rw [since_tail (wf_of_reachable hs) hr hstep] at ho
    exact (List.mem_append.mp ho).elim (hcalm n hn o) (hsteps n hn o)

/-- **A stopped chart is asleep**, if none of its functions is in progress and the async manager
remembers none of its nodes. -/
theorem asleep_of_stopChart (hs : Run.Steps (step cfg) (fun u a => ¬u.Strays a) init s)
    (h : s.step cfg (.op (.stopChart c)) = some t)
    (hf : ∀ n, n.chart = c → .func n ∉ s.frames ∧ n ∉ s.heap.nodesSet) :
    t.Asleep c ∧ c < s.heap.nextChart := by
  have hr : Reachable cfg s := hs.mono fun _ _ _ => trivial
  obtain ⟨hsome, ht⟩ : (s.heap.charts c).isSome = true ∧ t.heap = s.heap.stopChart c := by
    have htr := (trans_of_step h).1
    cases htr with
    | op _ hop =>
      simp only [runOp] at hop
      split at hop <;> cases hop
      exact ⟨‹_›, rfl⟩
  obtain ⟨x, hx⟩ := Option.isSome_iff_exists.mp hsome
  have hmade : c < s.heap.nextChart := (wf_of_reachable hr).born.chart c hsome
  refine ⟨?_, hmade⟩
  rintro n rfl
  obtain ⟨new, hlog, hquiet⟩ : Heap.Adds Obs.isQuiet s.heap t.heap := by
    rw [ht]
    exact Heap.adds_stopChart (fun _ => id) s.heap n.chart
  by_cases hn : n ∈ s.heap.nodeList n.chart
  · refine atRest_of_stop (o := .stopChart n.chart) hs trivial h ?_ (hf n rfl).1 (hf n rfl).2 hmade
    rw [since_of_log hlog]
    exact Heap.stop_mem_of_stopChart (ht ▸ hlog) hn
  · -- The chart has no such node.
    refine (atRest_of_step hr (fun hp => hn ?_) h (fun o ho har => ?_) fun hnew =>
      Nat.not_le_of_lt hmade hnew.1).1
    · have hid : n.id < s.heap.nodesCount n.chart := by
        rw [Heap.nodesCount, hx]
        exact (made_of_inPlay hr hp).2 x hx
      exact List.mem_map.mpr ⟨n.id, List.mem_range.mpr hid, rfl⟩
    · rw [since_of_log hlog] at ho
      have hq := hquiet o ho
      cases o <;> first | exact har | exact hq

/-- **A stopped chart stays asleep** until it is started, or the subchart of one of its nodes
returns: its edges lead from nodes that are not in play. -/
theorem stays_asleep (hs : Run.Steps (step cfg) (fun u a => ¬u.Strays a) init s)
    (h : s.step cfg (.op (.stopChart c)) = some t)
    (hf : ∀ n, n.chart = c → .func n ∉ s.frames ∧ n ∉ s.heap.nodesSet)
    (hrun : Run.Steps (step cfg) (LetsSleep cfg c) t u) :
    u.Asleep c ∧ ∀ n, n.chart = c → ∀ o ∈ since t u, ¬o.stirs n := by
  have hr : Reachable cfg s := hs.mono fun _ _ _ => trivial
  obtain ⟨hsleep, hmade⟩ := asleep_of_stopChart hs h hf
  exact asleep_of_steps (hr.tail trivial h) hsleep
    (Nat.lt_of_lt_of_le hmade (nextChart_le_of_step hr h)) hrun

/-- Node 1 waits for its timer when the chart is stopped; the manager then steps on. -/
theorem stays_asleep_parked : ∃ s t u : State, (s.heap.nodes ⟨0, 1⟩).attacher = some (.timer true) ∧
    s.step {} (.op (.stopChart 0)) = some t ∧ Run.Reaches (step {}) t u ∧ u.frames = [] ∧
    u.Asleep 0 ∧ ∀ n, n.chart = 0 → ∀ o ∈ since t u, ¬o.stirs n := by
  obtain ⟨s, hs, hatt, hframes, hset, hrun⟩ := exists_of_guarded {} (fun u a => ¬u.Strays a)
    (parkedActs ++ [.ret .rTrue])
    (fun s => (s.heap.nodes ⟨0, 1⟩).attacher = some (.timer true) ∧ s.frames = [] ∧
      s.heap.nodesSet = [] ∧
      ((s.step {} (.op (.stopChart 0))).any fun t =>
        (Run.exec (Run.guarded (step {}) (LetsSleep {} 0)) t
          (.op .step :: .timersDone :: List.replicate 3 .tau)).any fun u =>
            decide (u.frames = [])) = true)
    (by decide +kernel)
  obtain ⟨t, ht, hrun⟩ := (Option.any_eq_true _ _).mp hrun
  obtain ⟨u, hu, hf⟩ := (Option.any_eq_true _ _).mp hrun
  have hsteps := Run.steps_of_guarded (Run.reaches_of_exec hu)
  obtain ⟨hsleep, hcalm⟩ := stays_asleep hs ht (fun n _ => by simp [hframes, hset]) hsteps
  exact ⟨s, t, u, hatt, ht, hsteps.mono fun _ _ _ => trivial, of_decide_eq_true hf, hsleep, hcalm⟩

end State

end Asyncflow
