import Asyncflow.Moves.HistoryLists
import Asyncflow.Runtime.FirstRound
import Asyncflow.Runtime.Phases

/-!
# Nodes that are put off to the next tick

The loop check of `DfsExecutor::RunFlow` puts a node that its flow has run before off to the
next tick. When that tick is handled the flow is over and has cleared the run flag of the
node (`Asyncflow.Heap.Marked`), so the loop check lets the node pass. What `Node::Run` does
then depends on the skip flag alone, and nothing on the way to the tick clears it: a flag
that a subchart left on its owner node when it returned makes the tick pass the node through
with the result it has.
-/

namespace Asyncflow

/-- **The function of the node is called first**, before the edges of its result are
followed. -/
def CallsFirst (n : NodeRef) (log : List Obs) : Prop :=
  ∃ after before, log = after ++ .run n :: before ∧ ∀ r, .succ n r ∉ before

namespace State

variable {cfg : Config} {d s t u v w : State} {a : Act} {n : NodeRef} {l k : ℕ} {c : ChartId}
  {r : Bool} {rest : List Frame}

/-- **The loop check puts the node off**: it is on top of the flow that has run it before, and
its run flag is still set. -/
structure Defers (s : State) (n : NodeRef) (l : ℕ) : Prop where
  round : ∃ c k r, s.frames.head? = some (.flow l c k r) ∧ s.heap.chartRunning c = true ∧
    k + 1 ≤ maxNodesPerExecution
  top : (s.heap.stack l).nodeList.head? = some n
  idle : (s.heap.nodes n).status = .running → (s.heap.nodes n).isWaitAll = true
  runFlag : (s.heap.nodes n).runFlag = true
  checked : (s.heap.nodeData n).noLoopCheck = false
  again : n ∈ (s.heap.stack l).historyNodes

/-- The next step waits for the tick. -/
theorem Defers.step (hd : s.Defers n l) (h : s.step cfg .tau = some t) :
    t.heap = s.heap.deferTick cfg l n := by
  obtain ⟨c, k, r, hhead, hc, hk⟩ := hd.round
  obtain ⟨rest, hf⟩ : ∃ rest, s.frames = .flow l c k r :: rest := by
    cases hs : s.frames <;> simp_all
  obtain ⟨ns, hl⟩ : ∃ ns, (s.heap.stack l).nodeList = n :: ns := by
    have htop := hd.top
    cases hs : (s.heap.stack l).nodeList <;> simp_all
  obtain rfl := tau_of_step (f := s.flowRound cfg l c k r rest) h (by simp only [runTau, hf])
  have hround : s.flowRound cfg l c k r rest =
      { s.mapHeap (·.deferTick cfg l n) with frames := .flow l c (k + 1) true :: rest } := by
    have hw : ¬((s.heap.nodes n).status = .running ∧ (s.heap.nodes n).isWaitAll = false) := by
      rintro ⟨hrun, hwa⟩
      rw [hd.idle hrun] at hwa
      cases hwa
    simp only [flowRound, hl]
    rw [if_neg (by rw [hc]; exact Bool.false_ne_true), if_neg (by omega), if_neg hw,
      if_pos ⟨hd.runFlag, hd.checked⟩]
  rw [hround]
  rfl

theorem history_deferTick (h : Heap) (n : NodeRef) :
    ((h.deferTick cfg l n).stack l).historyNodes = (h.stack l).historyNodes := by
  unfold Heap.deferTick Heap.waitEvent
  split
  · rename_i b _
    split
    · split
      · exact Heap.historyNodes_push h n (.waiting b cfg.tickEvent) l
      · rfl
    · rfl
  · rfl

/-- The node is neither run nor continued. -/
def LeavesPending (cfg : Config) (n : NodeRef) (s : State) (a : Act) : Prop :=
  ∀ t ∈ s.step cfg a, ∀ o ∈ since s t, ¬o.marks n

instance (n : NodeRef) : DecidablePred (Obs.marks n) := fun o => by
  apply @Obs.casesOn (fun o => Decidable (o.marks n)) o <;> intros <;>
    unfold Obs.marks <;> infer_instance

instance (n : NodeRef) : Decidable (s.LeavesPending cfg n a) := by
  unfold LeavesPending
  infer_instance

/-- **A tick is handled in the event phase, and the node is next.** -/
def AtTick (cfg : Config) (s : State) (n : NodeRef) : Prop :=
  (∃ ev rest, s.frames = .handle ev :: .deleteEvent ev :: .events :: rest ∧
    ev.id = cfg.tickEvent) ∧ s.heap.handling.head?.bind (·.nodes.head?) = some n

/-- **When the tick comes, the flow that put the node off has cleared its run flag.** -/
theorem runFlag_of_deferred (hd : Reachable cfg d) (hdef : d.Defers n l)
    (ht : d.step cfg .tau = some t) (hu : Run.Steps (step cfg) (LeavesPending cfg n) t u)
    (hat : u.AtTick cfg n) : (u.heap.nodes n).runFlag = false := by
  have hreach : Reachable cfg t := hd.tail trivial ht
  have hw := wf_of_reachable hreach
  have hmarked : t.heap.Marked n := by
    intro _
    refine ⟨l, ?_⟩
    rw [hdef.step ht, history_deferTick]
    exact hdef.again
  have hdoes : Heap.Does (fun _ => True) (fun _ => True) (fun _ => False) t.heap u.heap :=
    does_of_steps (fun _ => trivial) (fun _ _ _ _ _ => trivial) hw hu
  have hcalm : (Heap.moves (fun _ => True) (fun _ => True)).Calm (·.marks n) t.heap u.heap :=
    Traced.calm_of_log (log_since hw hu) (calm_of_steps (fun hk => hk) hw hu)
  have hmu : u.heap.Marked n :=
    hdoes.calm (P := (·.Marked n)) (fun hm hc hn => Heap.marked_of_move hm hc hn) hcalm hmarked
  -- No loop is in progress, so every history list is empty.
  by_contra hflag
  obtain ⟨l', hl'⟩ := hmu (by simpa using hflag)
  have hru : Reachable cfg u := hreach.trans (hu.mono fun _ _ _ => trivial)
  obtain ⟨⟨ev, rest, hf, -⟩, -⟩ := hat
  have hg := grounded_of_reachable hru .events rest
    (by rw [hf]; exact ⟨[.handle ev, .deleteEvent ev], rfl⟩) rfl
  have hno : ¬Loops u.frames l' := by
    rintro ⟨c, k, r, hm⟩
    rw [hf, hg] at hm
    simp at hm
  rw [tidy_of_reachable hru l' hno] at hl'
  cases hl'

/-- The node is taken from the list, and is about to be run. -/
theorem AtTick.deliver (hs : Reachable cfg u) (hat : u.AtTick cfg n)
    (h : u.step cfg .tau = some v) : v.frames = .enter n :: u.frames ∧
      v.heap.currentIndex = 0 ∧ v.heap.log = .deliver n :: u.heap.log ∧
      (v.heap.nodes n).container = none ∧ (v.heap.nodes n).runFlag = (u.heap.nodes n).runFlag ∧
      (v.heap.nodes n).skip = (u.heap.nodes n).skip ∧
      (v.heap.nodes n).result = (u.heap.nodes n).result ∧ v.heap.charts = u.heap.charts ∧
      v.heap.agents = u.heap.agents ∧ v.heap.chartData = u.heap.chartData := by
  obtain ⟨⟨ev, rest, hf, -⟩, hhead⟩ := hat
  obtain ⟨p, ps, ns, hh, hp⟩ : ∃ p ps ns, u.heap.handling = p :: ps ∧ p.nodes = n :: ns := by
    cases hs : u.heap.handling with
    | nil => simp [hs] at hhead
    | cons p ps =>
      rw [hs, List.head?_cons, Option.bind_some] at hhead
      cases hn : p.nodes <;> simp_all
  obtain rfl := tau_of_step (f := u.handleRound (.deleteEvent ev :: .events :: rest)) h
    (by simp only [runTau, hf])
  have hround : u.handleRound (.deleteEvent ev :: .events :: rest) =
      (u.mapHeap (·.takeHandled p ps n ns)).call (.enter n) := by
    simp only [handleRound, hh, hp]
  have hcalls : (u.handleRound (.deleteEvent ev :: .events :: rest)).frames =
      [.enter n, .handle ev, .deleteEvent ev] ++ .events :: rest := by
    rw [hround]
    show .enter n :: u.frames = _
    rw [hf]
    rfl
  have hci := currentIndex_of_phase (hs.tail trivial h) hcalls rfl (by simp [Frame.isCall])
  refine ⟨?_, hci, ?_⟩
  · rw [hround]
    rfl
  · rw [hround]
    refine ⟨rfl, ?_, ?_, ?_, ?_, rfl, rfl, rfl⟩ <;>
      simp [mapHeap, call, Heap.takeHandled, Heap.act, Heap.note, Heap.setNode]

/-- The node is to be run by a flow of its own. -/
theorem AtTick.entering (hs : Reachable cfg u) (hat : u.AtTick cfg n)
    (hflag : (u.heap.nodes n).runFlag = false) (hr : u.heap.Runnable n)
    (h : u.step cfg .tau = some v) : v.Entering n u.frames := by
  obtain ⟨hf, hci, -, hcon, hrf, -, -, hc, ha, -⟩ := hat.deliver hs h
  refine ⟨hf, by rw [hci]; decide, ?_, hcon, hrf.trans hflag⟩
  have hrun : v.heap.agentRunning = u.heap.agentRunning := by
    funext b
    rw [Heap.agentRunning, ha, Heap.agentRunning]
  rw [Heap.Runnable, Heap.agentOf, Heap.chartRunning, hc, hrun]
  exact hr

/-- **A node whose chart or agent is not running** is dropped. -/
theorem AtTick.dropped (hs : Reachable cfg u) (hat : u.AtTick cfg n) (hr : ¬u.heap.Runnable n)
    (h : Run.exec (step cfg) u [.tau, .tau, .tau] = some w) : .run n ∉ since u w := by
  simp only [Run.exec_cons, Run.exec_nil, Option.bind_eq_some_iff, Option.some.injEq] at h
  obtain ⟨v, hv, x, hx, w, hw, rfl⟩ := h
  obtain ⟨hf, hci, hlog, -, -, -, -, hc, ha, -⟩ := hat.deliver hs hv
  have hrun : v.heap.agentRunning = u.heap.agentRunning := by
    funext b
    rw [Heap.agentRunning, ha, Heap.agentRunning]
  -- The flow is not run.
  have hskip : x.frames = u.frames ∧ x.heap.log = .skipped n :: v.heap.log := by
    have hub := ub_of_step hx
    obtain rfl := tau_of_step (f := v.enterFlow cfg n u.frames) hx (by simp only [runTau, hf])
    have he := enters cfg v n u.frames
    generalize v.enterFlow cfg n u.frames = x at he hub
    cases he with
    | refused hfull =>
      rw [hci] at hfull
      exact absurd hfull (by decide)
    | gone _ => cases hub
    | @flow b _ hb hag hch =>
      refine absurd ⟨?_, ?_⟩ hr
      · have hb' : u.heap.agentOf n = some b := by
          rw [Heap.agentOf, ← hc]
          exact hb
        rw [hb', Option.any_some, ← hrun]
        exact hag
      · rw [Heap.chartRunning, ← hc]
        exact hch
    | skipped _ _ _ => exact ⟨rfl, rfl⟩
  -- The next node of the list is taken, if there is one.
  obtain ⟨⟨ev, rest, hfu, -⟩, -⟩ := hat
  obtain rfl := tau_of_step (f := x.handleRound (.deleteEvent ev :: .events :: rest)) hw
    (by simp only [runTau, hskip.1, hfu])
  have hround : ∃ new, (x.handleRound (.deleteEvent ev :: .events :: rest)).heap.log =
      new ++ [.skipped n, .deliver n] ++ u.heap.log ∧ .run n ∉ new := by
    have hx' : x.heap.log = [.skipped n, .deliver n] ++ u.heap.log := by rw [hskip.2, hlog]; rfl
    unfold handleRound
    split
    · exact ⟨[], hx', List.not_mem_nil⟩
    · split
      · exact ⟨[], hx', List.not_mem_nil⟩
      · rename_i m _ _
        exact ⟨[.deliver m], congrArg _ hx', by simp⟩
  obtain ⟨new, hnew, hno⟩ := hround
  rw [since_of_log hnew]
  simpa using hno

/-- **When a node that was put off is called at the tick**: exactly when its skip flag is clear
and its chart and its agent are running. -/
theorem deferred_callsFirst_iff (hd : Reachable cfg d) (hdef : d.Defers n l)
    (ht : d.step cfg .tau = some t) (hu : Run.Steps (step cfg) (LeavesPending cfg n) t u)
    (hat : u.AtTick cfg n) (hw : Run.exec (step cfg) u [.tau, .tau, .tau] = some w) :
    CallsFirst n (since u w) ↔ (u.heap.nodes n).skip = false ∧ u.heap.Runnable n := by
  have hru : Reachable cfg u := (hd.tail trivial ht).trans (hu.mono fun _ _ _ => trivial)
  have hflag := runFlag_of_deferred hd hdef ht hu hat
  obtain ⟨v, hv, hvw⟩ : ∃ v, u.step cfg .tau = some v ∧
      Run.exec (step cfg) v [.tau, .tau] = some w := by
    rw [Run.exec_cons, Option.bind_eq_some_iff] at hw
    exact hw
  obtain ⟨-, -, hlog, -, -, hskip, -⟩ := hat.deliver hru hv
  constructor
  · rintro ⟨after, before, hs, -⟩
    have hmem : .run n ∈ since u w := by
      rw [hs]
      simp
    have hr : u.heap.Runnable n := by
      by_contra hr
      exact hat.dropped hru hr hw hmem
    refine ⟨?_, hr⟩
    by_contra hsk
    have hlog' := ((hat.entering hru hflag hr hv).skipped
      (hskip.trans (by simpa using hsk)) hvw).2.1
    have hsince : since u w = [.flow n, .deliver n] := by
      refine since_of_log ?_
      rw [hlog', hlog]
      rfl
    rw [hsince] at hmem
    simp at hmem
  · rintro ⟨hsk, hr⟩
    obtain ⟨new, hnew⟩ := (hat.entering hru hflag hr hv).called (hskip.trans hsk) hvw
    have hsince : since u w = new ++ .run n :: [.flow n, .deliver n] := by
      refine since_of_log ?_
      rw [hnew, hlog]
      simp
    exact ⟨new, _, hsince, by simp⟩

/-- The second and the third node follow each other in a loop. -/
def loopingChart : ChartData :=
  { name := "looping", nodes := [{ success := [1] }, { func := .script, success := [2] },
    { func := .script, success := [1] }] }

/-- A chart that returns at once. -/
def returningChart : ChartData := { name := "returning", nodes := [{}] }

/-- The function of the second node has been called. -/
def loopingActs : List Act :=
  [.op (.importChart loopingChart), .op (.importChart returningChart), .op (.register 0),
    .op (.attachChart 1 "looping"), .op (.startChart 0), .op .step, .timersDone]

/-- From the deferral to the tick: the flow and the step end, and in the next step the timer of
the agent expires. -/
def tickActs : List Act :=
  List.replicate 6 .tau ++ [.op .step, .tick 1, .timersDone, .tau, .tau]

/-- A run over a deferral to the tick, found by executing actions. -/
theorem exists_deferred (as : List Act) (P : State → State → Prop) [∀ u w, Decidable (P u w)]
    (bs : List Act) (h : ((play {} as).any fun s => (Run.exec (step {}) s [.ret .rTrue, .tau]).any
      fun d => (d.step {} .tau).any fun t =>
        (Run.exec (Run.guarded (step {}) (LeavesPending {} ⟨0, 1⟩)) t tickActs).any fun u =>
        (Run.exec (step {}) u bs).any fun w =>
          d.frames.head? = some (.flow 1 0 3 false) ∧ d.heap.chartRunning 0 = true ∧
          (d.heap.stack 1).nodeList.head? = some ⟨0, 1⟩ ∧
          (d.heap.nodes ⟨0, 1⟩).status = .endRun ∧ (d.heap.nodes ⟨0, 1⟩).runFlag = true ∧
          (d.heap.nodeData ⟨0, 1⟩).noLoopCheck = false ∧
          ⟨0, 1⟩ ∈ (d.heap.stack 1).historyNodes ∧
          u.frames = [.handle ⟨1, 2, 1, false, 1⟩, .deleteEvent ⟨1, 2, 1, false, 1⟩, .events] ∧
          u.heap.handling.head?.bind (·.nodes.head?) = some ⟨0, 1⟩ ∧ P u w) = true) :
    ∃ d t u w, Reachable {} d ∧ d.Defers ⟨0, 1⟩ 1 ∧ d.step {} .tau = some t ∧
      Run.Steps (step {}) (LeavesPending {} ⟨0, 1⟩) t u ∧ u.AtTick {} ⟨0, 1⟩ ∧
      Run.exec (step {}) u bs = some w ∧ P u w := by
  obtain ⟨s, hs, h⟩ := (Option.any_eq_true _ _).mp h
  obtain ⟨d, hd, h⟩ := (Option.any_eq_true _ _).mp h
  obtain ⟨t, ht, h⟩ := (Option.any_eq_true _ _).mp h
  obtain ⟨u, hu, h⟩ := (Option.any_eq_true _ _).mp h
  obtain ⟨w, hw, h⟩ := (Option.any_eq_true _ _).mp h
  obtain ⟨hf, hc, htop, hst, hrf, hnl, hhist, hfu, hhu, hP⟩ := of_decide_eq_true h
  refine ⟨d, t, u, w, (reachable_of_play hs).trans (Run.reaches_of_exec hd), ?_, ht,
    Run.steps_of_guarded (Run.reaches_of_exec hu), ⟨⟨_, _, hfu, rfl⟩, hhu⟩, hw, hP⟩
  refine ⟨⟨0, 3, false, hf, hc, by decide⟩, htop, fun hrun => ?_, hrf, hnl, hhist⟩
  rw [hst] at hrun
  cases hrun

/-- A node that is called at the tick. -/
theorem deferred_called : ∃ d t u w, Reachable {} d ∧ d.Defers ⟨0, 1⟩ 1 ∧
    d.step {} .tau = some t ∧ Run.Steps (step {}) (LeavesPending {} ⟨0, 1⟩) t u ∧
    u.AtTick {} ⟨0, 1⟩ ∧ Run.exec (step {}) u [.tau, .tau, .tau] = some w ∧
    CallsFirst ⟨0, 1⟩ (since u w) := by
  obtain ⟨d, t, u, w, hd, hdef, ht, hu, hat, hw, hs⟩ :=
    exists_deferred (loopingActs ++ [.ret .rTrue])
      (fun u _ => (u.heap.nodes ⟨0, 1⟩).skip = false ∧ u.heap.Runnable ⟨0, 1⟩)
      [.tau, .tau, .tau] (by decide +kernel)
  exact ⟨d, t, u, w, hd, hdef, ht, hu, hat, hw,
    (deferred_callsFirst_iff hd hdef ht hu hat hw).mpr hs⟩

/-- **A stale result**: the function of the node calls a subchart that returns at once, and the
node is put off; at the tick its successor is pushed without its function being called. -/
theorem not_deferred_called_subchart : ∃ d t u w, Reachable {} d ∧ d.Defers ⟨0, 1⟩ 1 ∧
    d.step {} .tau = some t ∧ Run.Steps (step {}) (LeavesPending {} ⟨0, 1⟩) t u ∧
    u.AtTick {} ⟨0, 1⟩ ∧ Run.exec (step {}) u [.tau, .tau, .tau, .tau] = some w ∧
    u.heap.Runnable ⟨0, 1⟩ ∧ ¬CallsFirst ⟨0, 1⟩ (since u w) ∧ .succ ⟨0, 1⟩ .rTrue ∈ since u w ∧
    .edge ⟨0, 1⟩ ⟨0, 2⟩ ∈ since u w := by
  obtain ⟨d, t, u, w, hd, hdef, ht, hu, hat, hw, hr, hno, hsucc, hedge⟩ :=
    exists_deferred (loopingActs ++ [.op (.subchart "returning" 1), .ret .rTrue])
      (fun u w => u.heap.Runnable ⟨0, 1⟩ ∧ .run ⟨0, 1⟩ ∉ since u w ∧
        .succ ⟨0, 1⟩ .rTrue ∈ since u w ∧ .edge ⟨0, 1⟩ ⟨0, 2⟩ ∈ since u w)
      [.tau, .tau, .tau, .tau] (by decide +kernel)
  refine ⟨d, t, u, w, hd, hdef, ht, hu, hat, hw, hr, ?_, hsucc, hedge⟩
  rintro ⟨after, before, hs, -⟩
  refine hno ?_
  rw [hs]
  simp

end State

end Asyncflow
