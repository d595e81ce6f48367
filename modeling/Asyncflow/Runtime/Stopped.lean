import Asyncflow.Runtime.AtRest
import Asyncflow.Runtime.Coherence
import Asyncflow.Moves.NodeCalls

/-!
# A stopped node stays stopped

A call that stops a node takes it out of its container and cancels its timer. As long as the
lists are coherent nothing else holds the node but its own function, if that is in progress,
and the async manager, if the node is suspended: apart from these two the node is at rest, and
stays so until it is aroused. It makes no difference who makes the call (`Asyncflow.State.Halts`):
a script, a control node in its round of the flow, or `Chart::Return` at its end.
-/

namespace Asyncflow

/-- The calls that stop nodes and do nothing else to them. -/
def Op.isStop : Op → Prop
  | .stopNode _ | .stopFlow _ | .stopChart _ | .stopAgent _ | .unregister _ => True
  | _ => False

namespace Heap

variable {h h' g : Heap} {n m : NodeRef} {c : ChartId}

/-! ### What is stopped is out of its container -/

/-- The entry is none that stirs the node, and none of its stops. -/
def LeavesBe (n : NodeRef) (o : Obs) : Prop := ¬o.stirs n ∧ ∀ w, o ≠ .stop n w

/-- Nothing stirs the node, and if it is stopped, or was in no container, it is in none after
that. -/
def Parks (n : NodeRef) (h h' : Heap) : Prop :=
  ∃ new, h'.log = new ++ h.log ∧ (∀ o ∈ new, ¬o.stirs n) ∧
    ((h.nodes n).container = none ∨ (∃ w, .stop n w ∈ new) → (h'.nodes n).container = none)

theorem not_stirs_of_isStop {o : Obs} (ho : o.isStop) : ¬o.stirs n :=
  fun hst => hst.2 (Obs.isQuiet_of_isStop ho)

theorem parks_of_eq (hl : h'.log = h.log) (hn : h'.nodes = h.nodes) : Parks n h h' := by
  refine ⟨[], hl, nofun, ?_⟩
  rintro (hc | ⟨w, hw⟩)
  · rw [hn]
    exact hc
  · cases hw

theorem Parks.trans (hp : Parks n h g) (hp' : Parks n g h') : Parks n h h' := by
  obtain ⟨new, hl, hs, hc⟩ := hp
  obtain ⟨new', hl', hs', hc'⟩ := hp'
  refine ⟨new' ++ new, by rw [hl', hl, List.append_assoc], fun o ho => ?_, ?_⟩
  · exact (List.mem_append.mp ho).elim (hs' o) (hs o)
  · rintro (hn | ⟨w, hw⟩)
    · exact hc' (.inl (hc (.inl hn)))
    · rcases List.mem_append.mp hw with hw | hw
      · exact hc' (.inr ⟨w, hw⟩)
      · exact hc' (.inl (hc (.inr ⟨w, hw⟩)))

theorem parks_foldl {β : Type} {f : Heap → β → Heap} (hf : ∀ h b, Parks n h (f h b)) (h : Heap)
    (l : List β) : Parks n h (l.foldl f h) := by
  induction l generalizing h with
  | nil => exact parks_of_eq rfl rfl
  | cons b l ih => exact (hf h b).trans (ih _)

/-- A node that is in no container after all. -/
theorem parks_of_free (ha : Adds Obs.isStop h h') (hn : (h'.nodes n).container = none) :
    Parks n h h' := by
  obtain ⟨new, hl, hs⟩ := ha
  exact ⟨new, hl, fun o ho => not_stirs_of_isStop (hs o ho), fun _ => hn⟩

/-- Something that is done to another node. -/
theorem parks_of_other (ha : Adds (LeavesBe n) h h') (hn : h'.nodes n = h.nodes n) :
    Parks n h h' := by
  obtain ⟨new, hl, hs⟩ := ha
  refine ⟨new, hl, fun o ho => (hs o ho).1, ?_⟩
  rintro (hc | ⟨w, hw⟩)
  · rw [hn]
    exact hc
  · exact absurd rfl ((hs _ hw).2 w)

theorem parks_remove (hm : m ≠ n) (h : Heap) (c : Container) : Parks n h (h.remove c m) := by
  refine parks_of_other (adds_remove ?_ h c) (nodes_remove_of_ne hm.symm)
  exact ⟨not_stirs_of_isStop trivial, nofun⟩

theorem parks_detach (hm : m ≠ n) (h : Heap) : Parks n h (h.detach m) := by
  refine parks_of_other (adds_detach ?_ h) (nodes_detach_of_ne hm.symm)
  exact ⟨not_stirs_of_isStop trivial, nofun⟩

/-- The status of a chart is no node's. -/
theorem parks_idle (h : Heap) (c : ChartId) :
    Parks n h ((h.setChart c ({ · with status := .idle })).note (.chartStop c)) :=
  parks_of_other (adds_of_cons (o := .chartStop c) ⟨not_stirs_of_isStop trivial, nofun⟩ rfl) rfl

theorem parks_stopNode (fuel : ℕ) (h : Heap) (m : NodeRef) : Parks n h (stopNode fuel h m) := by
  induction fuel generalizing h m with
  | zero => exact parks_of_eq rfl rfl
  | succ fuel ih =>
    rcases eq_or_ne m n with rfl | hm
    · -- The node leaves its container last.
      exact parks_of_free (adds_stopNode (fun _ => id) _ h m) (container_detach ..)
    · have hs : Parks n h (h.act m Node.stop (.stop m (h.nodes m).status)) :=
        parks_of_other (adds_of_cons (o := .stop m _)
          ⟨not_stirs_of_isStop trivial, fun w hw => hm (Obs.stop.inj hw).1⟩ rfl)
          (nodes_setNode_of_ne hm.symm _)
      refine .trans (hs.trans ?_) (parks_detach hm _)
      split
      · exact (parks_foldl ih _ _).trans (parks_idle _ _)
      · exact parks_of_eq rfl rfl

theorem parks_stop (h : Heap) (m : NodeRef) : Parks n h (h.stop m) := parks_stopNode _ h m

theorem parks_stopChart (h : Heap) (c : ChartId) : Parks n h (h.stopChart c) :=
  (parks_foldl parks_stop h _).trans (parks_idle _ c)

theorem parks_stopAgent (h : Heap) (a : AgentId) : Parks n h (h.stopAgent a) :=
  parks_foldl parks_stopChart h _

theorem parks_unregister (h : Heap) (a : AgentId) (inStep : Bool) :
    Parks n h (h.unregisterGameObject a inStep) := by
  unfold unregisterGameObject
  split
  · refine .trans (.trans (parks_of_eq rfl rfl) (parks_stopAgent
      (h.setAgent a ({ · with status := .destroying })) a)) (.trans (g := (h.setAgent a
      ({ · with status := .destroying })).stopAgent a |>.unRegister a) ?_ ?_)
    · unfold unRegister
      split <;> exact parks_of_eq rfl rfl
    · unfold addDyingAgent
      split <;> exact parks_of_eq rfl rfl
  · exact parks_of_eq rfl rfl

theorem parks_stopNodeId (h : Heap) (c : ChartId) (id : ℤ) : Parks n h (h.stopNodeId c id) := by
  unfold stopNodeId
  split
  · exact parks_of_eq rfl rfl
  · split
    · exact parks_of_eq rfl rfl
    · refine (parks_stop h ⟨c, id.toNat⟩).trans ?_
      rcases eq_or_ne (⟨c, id.toNat⟩ : NodeRef) n with rfl | hm
      · exact parks_of_free (adds_remove (P := Obs.isStop) trivial _ _) (container_remove ..)
      · exact parks_remove hm _ _

theorem parks_stopNodes (h : Heap) (args : List ℤ) : Parks n h (h.stopNodes args).2 := by
  unfold stopNodes
  split
  · exact parks_of_eq rfl rfl
  · exact parks_foldl (fun h id => parks_stopNodeId h _ id) h args

theorem parks_stopFlow (h : Heap) (args : List ℤ) : Parks n h (h.stopFlow args).2 := by
  unfold stopFlow
  split
  · exact parks_of_eq rfl rfl
  · dsimp only
    split
    · exact parks_of_eq rfl rfl
    · exact parks_foldl (fun h (i : ℕ) => parks_stopNodeId h _ i) h _

/-- `Node::Run` of another node, up to the call of its function. -/
theorem parks_enterNode (hm : m ≠ n) (h : Heap) (l : ℕ) : Parks n h (h.enterNode l m) := by
  refine parks_of_other (adds_enterNode h l ⟨fun hst => hm hst.1, nofun⟩) ?_
  unfold enterNode
  dsimp only
  split <;> exact nodes_setNode_of_ne hm.symm _

/-- `Node::Run` of another node, after the call of its function. -/
theorem parks_returnNode (hm : m ≠ n) (h : Heap) (r : NodeResult) :
    Parks n h (h.returnNode m r) :=
  parks_of_other (adds_act ⟨fun hst => hm hst.1, nofun⟩ h m) (nodes_setNode_of_ne hm.symm _)

/-- A control node that stops nodes. -/
theorem parks_callControl {f : NodeFunc} {o : Op} (hf : f.op? = some o) (ho : o.isStop)
    (h : Heap) : Parks n h (h.callControl f).2 := by
  cases f with
  | stopNode params => exact parks_stopNodes h params
  | stopFlow params => exact parks_stopFlow h params
  | waitAll params =>
    obtain rfl := Option.some.inj hf
    exact ho.elim
  | _ => cases hf

end Heap

namespace State

variable {cfg : Config} {s t u : State} {a : Act} {n m : NodeRef} {o : Op} {fs : List Frame}

/-- **The step stops nodes**: a script calls for it, or a control node does, or the chart that
returns is stopped at the end of `Chart::Return`. -/
inductive Halts (cfg : Config) (s : State) : Act → Prop
  | call {o : Op} : o.isStop → Halts cfg s (.op o)
  | control {m : NodeRef} {o : Op} {g : Heap} : s.Makes cfg .tau m o g → o.isStop → Halts cfg s .tau
  | returning {c : ChartId} {rest : List Frame} : s.frames = .returning c :: rest → Halts cfg s .tau

theorem parks_of_stop (ho : o.isStop) (h : s.runOp cfg o = some t) :
    Heap.Parks n s.heap t.heap ∧ t.frames = s.frames := by
  cases o with
  | stopNode args => cases h; exact ⟨Heap.parks_stopNodes s.heap args, rfl⟩
  | stopFlow args => cases h; exact ⟨Heap.parks_stopFlow s.heap args, rfl⟩
  | stopChart c =>
    simp only [runOp] at h
    split at h <;> cases h
    exact ⟨Heap.parks_stopChart s.heap c, rfl⟩
  | stopAgent b => cases h; exact ⟨Heap.parks_stopAgent s.heap b, rfl⟩
  | unregister b => cases h; exact ⟨Heap.parks_unregister s.heap b s.inStep, rfl⟩
  | _ => exact ho.elim

theorem parks_finishReturn (s : State) (c : ChartId) :
    Heap.Parks n s.heap (s.finishReturn c).heap := by
  refine (Heap.parks_stopChart s.heap c).trans ?_
  unfold finishReturn
  dsimp only
  split <;> exact Heap.parks_of_eq rfl rfl

/-- Whose call the API is called from. -/
theorem head_of_mayCall (hm : s.mayCall o = true) {f : Frame} (hf : s.frames = f :: fs) :
    (∃ m, f = .func m) ∨ (∃ c, f = .callback c) ∨ ∃ b, f = .release b := by
  rw [mayCall, hf] at hm
  cases f with
  | func m => exact .inl ⟨m, rfl⟩
  | callback c => exact .inr (.inl ⟨c, rfl⟩)
  | release b => exact .inr (.inr ⟨b, rfl⟩)
  | _ => cases hm

/-- **What such a step does** to a node whose function it leaves neither in progress nor just
over: the node is parked, and no call in progress is about to enter a node. -/
theorem parks_of_halts (hs : Reachable cfg s) (ha : s.Halts cfg a) (h : s.step cfg a = some t)
    (hran : .ran n ∉ t.frames) : Heap.Parks n s.heap t.heap ∧ Calm t.frames := by
  have hpoised := poised_of_reachable hs
  have hnext := (Option.filter_eq_some_iff.mp h).1
  cases ha with
  | @call o ho =>
    obtain ⟨hmay, hop⟩ : s.mayCall o = true ∧ s.runOp cfg o = some t := by
      cases (trans_of_step h).1 with
      | op hmay hop => exact ⟨hmay, hop⟩
    obtain ⟨hparks, hframes⟩ := parks_of_stop (n := n) ho hop
    refine ⟨hparks, hframes ▸ hpoised.calm_of_head fun f hf hent => ?_⟩
    obtain ⟨fs, hfs⟩ := List.head?_eq_some_iff.mp hf
    rcases head_of_mayCall hmay hfs with ⟨m, rfl⟩ | ⟨c, rfl⟩ | ⟨b, rfl⟩ <;> exact hent
  | @control m o g hm ho =>
    cases hm with
    | @control _ _ ns l k c r rest hf hl hround hskip hfunc =>
      simp only [next, runTau, hf, hround, Option.some.injEq] at hnext
      have hheap := heap_of_control (s := { s with frames := .flow l c (k + 1) r :: rest })
        (l := l) hskip hfunc
      have hrun := runsNode { s with frames := .flow l c (k + 1) r :: rest } l m
      have hcalm : Calm s.frames := hpoised.calm_of_head fun f hhd hent => by
        rw [hf] at hhd
        obtain rfl := Option.some.inj hhd
        exact hent
      have hframes : t.frames = .ran m :: .flow l c (k + 1) r :: rest := by
        rw [← hnext]
        generalize State.runNode _ l m = v at hrun ⊢
        cases hrun with
        | skip hs => exact absurd (hskip.symm.trans hs) Bool.false_ne_true
        | null _ hn | script _ hn =>
          rw [hn] at hfunc
          cases hfunc
        | control _ _ => rfl
      -- The control node itself has just run, and so it is not the node in question.
      have hne : m ≠ n := by
        rintro rfl
        exact hran (hframes ▸ List.mem_cons_self)
      rw [hframes, ← hnext, hheap]
      refine ⟨(Heap.parks_enterNode hne _ l).trans ((Heap.parks_callControl hfunc ho _).trans
        (Heap.parks_returnNode hne _ _)), ?_⟩
      rintro f (_ | ⟨_, _ | ⟨_, hmem⟩⟩)
      · exact id
      · exact id
      · exact hcalm f (hf ▸ List.mem_cons_of_mem _ hmem)
  | @returning c rest hf =>
    simp only [next, runTau, hf, Option.some.injEq] at hnext
    have hcalm : Calm s.frames := hpoised.calm_of_head fun f hhd hent => by
      rw [hf] at hhd
      obtain rfl := Option.some.inj hhd
      exact hent
    have hrest : Calm rest := fun f hmem => hcalm f (hf ▸ List.mem_cons_of_mem _ hmem)
    rw [← hnext]
    refine ⟨parks_finishReturn { s with frames := rest } c, ?_⟩
    rcases frames_of_finishReturn { s with frames := rest } c with hr | hr
    · rw [hr]
      exact hrest
    · rw [hr]
      rintro f (_ | ⟨_, hmem⟩)
      · exact id
      · exact hrest f hmem

/-- Inside the call stack no node has just run. -/
theorem ran_not_mem_of_nest {h : Heap} {l : ℕ} (hn : Nest h fs l) : .ran n ∉ fs := by
  induction hn with
  | nil => nofun
  | call hf _ ih =>
    intro hm
    rcases List.mem_cons.mp hm with rfl | hm
    · exact hf
    · exact ih hm
  | func _ _ _ ih | flowReturn _ _ ih => simpa using ih

/-- When user code is in control, no node has just run. -/
theorem ran_not_mem_of_mayCall (hs : Reachable cfg s) (hm : s.mayCall o = true) :
    .ran n ∉ s.frames := by
  have hst := (shaped_of_reachable hs).stacked
  generalize hfs : s.frames = fs at hst
  generalize s.heap.currentIndex = l at hst
  cases hst with
  | nest hnest => exact ran_not_mem_of_nest hnest
  | flow | ran | ended =>
    rcases head_of_mayCall hm hfs with ⟨m, he⟩ | ⟨c, he⟩ | ⟨b, he⟩ <;> cases he

/-- A step that stops nodes puts none astray. -/
theorem not_strays_of_halts (ha : s.Halts cfg a) : ¬s.Strays a := by
  cases ha with
  | @call o ho => cases o <;> first | exact ho.elim | exact id
  | control hm =>
    cases hm with
    | control hf => simp [Strays, hf]
  | returning hf => simp [Strays, hf]

/-- **A stopped node is at rest**, unless its function is in progress or just over, or the async
manager remembers it. -/
theorem atRest_of_halts (hs : Run.Steps (step cfg) (fun u a => ¬u.Strays a) init s)
    (ha : s.Halts cfg a) (h : s.step cfg a = some t) (hn : ∃ w, .stop n w ∈ since s t)
    (hf : .func n ∉ t.frames ∧ .ran n ∉ t.frames) (hset : n ∉ s.heap.nodesSet)
    (hmade : n.chart < s.heap.nextChart) : ¬t.InPlay n := by
  have hr : Reachable cfg s := hs.mono fun _ _ _ => trivial
  have ht : Reachable cfg t := hr.tail trivial h
  obtain ⟨⟨new, hlog, hquiet, hfree⟩, hcalm⟩ := parks_of_halts hr ha h hf.2
  rw [since_of_log hlog] at hn
  intro hp
  cases hp with
  | @frame f hfr hnm =>
    cases f with
    | enter | continuing => exact absurd trivial (hcalm _ hfr)
    | func m => exact hf.1 ((show m = n from hnm) ▸ hfr)
    | ran m => exact hf.2 ((show m = n from hnm) ▸ hfr)
    | _ => exact hnm.elim
  | listed hm =>
    -- The node has left its container, and is in no list but its container's.
    have hcoh : t.heap.Coherent := coherent_of_steady (hs.tail (not_strays_of_halts ha) h)
    have hcon := hcoh.mem_iff.mp hm
    rw [hfree (.inr hn)] at hcon
    cases hcon
  | async hm =>
    rcases mem_nodesSet_of_calm hr h hlog hquiet hm with hm | hle
    · exact hset hm
    · exact Nat.not_le_of_lt hmade hle
  | timer hatt =>
    -- The timer is cancelled when the node is stopped, and is not set after that.
    obtain ⟨w, hw⟩ := hn
    obtain ⟨after, before, rfl⟩ := List.append_of_mem hw
    rw [timer_iff ht, hlog, List.append_assoc, List.cons_append] at hatt
    have htimed := Heap.timed_of_append (fun o ho => hquiet o (List.mem_append_left _ ho)) hatt
    have hstopped : ((Obs.stop n w).replay n (digestOf n (before ++ s.heap.log))).timed =
        false := by
      rw [Obs.replay_of_about (o := .stop n w) rfl]
      rfl
    rw [digestOf_cons, hstopped] at htimed
    cases htimed

/-- A node that a script's call has stopped is at rest, unless its function is in progress or the
async manager remembers it. -/
theorem atRest_of_stop (hs : Run.Steps (step cfg) (fun u a => ¬u.Strays a) init s) (ho : o.isStop)
    (h : s.step cfg (.op o) = some t) (hn : ∃ w, .stop n w ∈ since s t) (hf : .func n ∉ s.frames)
    (hset : n ∉ s.heap.nodesSet) (hmade : n.chart < s.heap.nextChart) : ¬t.InPlay n := by
  have hr : Reachable cfg s := hs.mono fun _ _ _ => trivial
  obtain ⟨hmay, hop⟩ : s.mayCall o = true ∧ s.runOp cfg o = some t := by
    cases (trans_of_step h).1 with
    | op hmay hop => exact ⟨hmay, hop⟩
  have hframes : t.frames = s.frames := (parks_of_stop (n := n) ho hop).2
  refine atRest_of_halts hs (.call ho) h hn ?_ hset hmade
  rw [hframes]
  exact ⟨hf, ran_not_mem_of_mayCall hr hmay⟩

/-- **A stopped node stays stopped** until it is aroused. -/
theorem stays_stopped (hs : Run.Steps (step cfg) (fun u a => ¬u.Strays a) init s)
    (ha : s.Halts cfg a) (h : s.step cfg a = some t) (hn : ∃ w, .stop n w ∈ since s t)
    (hf : .func n ∉ t.frames ∧ .ran n ∉ t.frames) (hset : n ∉ s.heap.nodesSet)
    (hmade : n.chart < s.heap.nextChart)
    (hrun : Run.Steps (step cfg) (LetsRest cfg n) t u) :
    ¬u.InPlay n ∧ ∀ o ∈ since t u, ¬o.stirs n := by
  have hr : Reachable cfg s := hs.mono fun _ _ _ => trivial
  exact atRest_of_steps (hr.tail trivial h) (atRest_of_halts hs ha h hn hf hset hmade)
    (Nat.lt_of_lt_of_le hmade (nextChart_le_of_step hr h)) hrun

/-- A chart whose node 2 is a control node that stops node 1. -/
def haltingChart : ChartData :=
  { name := "halting", nodes := [{ success := [1, 2] }, { func := .script, success := [3] },
    { func := .stopNode [1] }, { func := .script }] }

/-- The script of node 1 has been called. -/
def haltingActs : List Act :=
  [.op (.importChart haltingChart), .op (.register 0), .op (.attachChart 1 "halting"),
    .op (.startChart 0), .op .step, .timersDone]

/-- Node 1 waits for its timer when the control node stops it. -/
theorem stays_stopped_halting : ∃ s t u : State,
    (s.heap.nodes ⟨0, 1⟩).attacher = some (.timer true) ∧
    s.step {} .tau = some t ∧ Run.Reaches (step {}) t u ∧ u.frames = [] ∧
    ¬u.InPlay ⟨0, 1⟩ ∧ ∀ o ∈ since t u, ¬o.stirs ⟨0, 1⟩ := by
  obtain ⟨s, hs, hatt, ⟨hf, hl⟩, ⟨hc, hst, hflag⟩, ⟨hskip, hfunc⟩, ⟨hset, hmade⟩, hrun⟩ :=
    exists_of_guarded_exec {} (fun u a => ¬u.Strays a) haltingActs [.op .wait, .ret .rTrue, .tau]
    (fun s => (s.heap.nodes ⟨0, 1⟩).attacher = some (.timer true) ∧
      (s.frames = .flow 1 0 2 true :: s.frames.tail ∧ (s.heap.stack 1).nodeList = [⟨0, 2⟩]) ∧
      (s.heap.chartRunning 0 = true ∧ (s.heap.nodes ⟨0, 2⟩).status = .idle ∧
        (s.heap.nodes ⟨0, 2⟩).runFlag = false) ∧
      ((s.heap.nodes ⟨0, 2⟩).skip = false ∧
        (s.heap.nodeData ⟨0, 2⟩).func.op? = some (.stopNode [1])) ∧
      (⟨0, 1⟩ ∉ s.heap.nodesSet ∧ 0 < s.heap.nextChart) ∧
      ((s.step {} .tau).any fun t =>
        decide (.stop ⟨0, 1⟩ .running ∈ since s t ∧ .func ⟨0, 1⟩ ∉ t.frames ∧
          .ran ⟨0, 1⟩ ∉ t.frames) &&
        (Run.exec (Run.guarded (step {}) (LetsRest {} ⟨0, 1⟩)) t (List.replicate 7 .tau)).any
          fun u => decide (u.frames = [])) = true)
    (by decide +kernel)
  obtain ⟨t, ht, hrun⟩ := (Option.any_eq_true _ _).mp hrun
  obtain ⟨hstop, hrun⟩ := (Bool.and_eq_true _ _).mp hrun
  obtain ⟨u, hu, hfu⟩ := (Option.any_eq_true _ _).mp hrun
  obtain ⟨hstop, hframes⟩ := of_decide_eq_true hstop
  have hsteps := Run.steps_of_guarded (Run.reaches_of_exec hu)
  have hm : s.Makes {} .tau ⟨0, 2⟩ (.stopNode [1]) (s.heap.enterNode 1 ⟨0, 2⟩) :=
    makes_of_round hf hl hc (by decide) (by simp [hst]) hflag hskip hfunc
  obtain ⟨hrest, hcalm⟩ := stays_stopped hs (.control hm trivial) ht ⟨_, hstop⟩ hframes hset hmade
    hsteps
  exact ⟨s, t, u, hatt, ht, hsteps.mono fun _ _ _ => trivial, of_decide_eq_true hfu, hrest, hcalm⟩

end State

end Asyncflow
