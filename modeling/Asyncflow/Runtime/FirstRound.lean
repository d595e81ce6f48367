import Asyncflow.Runtime.Outcome
import Asyncflow.Runtime.TreeWalk
import Asyncflow.Moves.CallStack

/-!
# The first round of a flow

A node that is delivered, resumed or put off is run by a flow of its own. What the flow
does with it is decided in its first round: if the node is to be skipped its function is
not called and the edges of the result it has are followed, otherwise its function is
called.
-/

namespace Asyncflow

namespace Heap

variable {h : Heap} {n : NodeRef}

/-- The chart of the node is running, and so is the agent of the chart. -/
def Runnable (h : Heap) (n : NodeRef) : Prop :=
  (h.agentOf n).any h.agentRunning = true ∧ h.chartRunning n.chart = true

instance (h : Heap) (n : NodeRef) : Decidable (h.Runnable n) := by
  unfold Runnable
  infer_instance

theorem log_beginFlow (l : ℕ) (b : AgentId) (hn : (h.nodes n).container = none) :
    (h.beginFlow l b n).log = .flow n :: h.log := by
  have hfree : (((h.act n ({ · with status := .idle }) (.flow n)).setExecutor l
      ({ · with currentAgent := some b, nodeList := [] })).nodes n).container = none := by
    rw [nodes_setExecutor, nodes_act, nodes_setNode_self]
    exact hn
  unfold beginFlow
  dsimp only
  rw [push_of_free l hfree]
  rfl

/-- `Node::Run` of a node that is skipped changes nothing that its outcome depends on. -/
theorem enterNode_of_skip (l : ℕ) (hs : (h.nodes n).skip = true) :
    (h.enterNode l n).log = h.log ∧ (h.enterNode l n).charts = h.charts ∧
      (h.enterNode l n).chartData = h.chartData ∧
      ((h.enterNode l n).nodes n).digest = (h.nodes n).digest := by
  have he : h.enterNode l n =
      (h.setExecutor l ({ · with currentNode := some n })).setNode n
        ({ · with skip := false }) := by
    rw [enterNode, if_pos]
    exact hs
  rw [he]
  refine ⟨rfl, rfl, rfl, ?_⟩
  rw [nodes_setNode_self]
  rfl

end Heap

namespace State

variable {cfg : Config} {s t u v : State} {n : NodeRef} {l : ℕ} {c : ChartId} {rest : List Frame}

theorem ub_of_step {a : Act} (h : s.step cfg a = some t) : t.heap.ub = false :=
  ub_of_sound (sound_of_step h)

theorem tau_of_step {f : State} (h : s.step cfg .tau = some t) (hf : s.runTau cfg = some f) :
    t = f := by
  have hn : s.runTau cfg = some t := (Option.filter_eq_some_iff.mp h).1
  exact Option.some.inj (hn.symm.trans hf)

/-- **`RunFlow` of a node that is linked nowhere**, on an executor that is still free. -/
theorem begun_of_step (hf : s.frames = .enter n :: rest)
    (hl : s.heap.currentIndex + 1 < maxStackSize) (hr : s.heap.Runnable n)
    (hc : (s.heap.nodes n).container = none) (h : s.step cfg .tau = some t) :
    t.frames = .flow (s.heap.currentIndex + 1) n.chart 0 false :: rest ∧
      Heap.Begun (s.heap.currentIndex + 1) n s.heap t.heap ∧
      t.heap.log = .flow n :: s.heap.log := by
  have hub := ub_of_step h
  obtain rfl := tau_of_step (f := s.enterFlow cfg n rest) h (by simp only [runTau, hf])
  have he := enters cfg s n rest
  generalize s.enterFlow cfg n rest = t at he hub
  cases he with
  | refused hfull => omega
  | gone _ => cases hub
  | flow _ hb _ _ => exact ⟨rfl, Heap.begun_beginFlow _ _ hc, Heap.log_beginFlow _ _ hc⟩
  | skipped _ hb hno =>
    obtain ⟨hag, hch⟩ := hr
    rw [hb, Option.any_some] at hag
    rcases hno with hno | hno
    · rw [hag] at hno
      cases hno
    · rw [hch] at hno
      cases hno

/-- **The first round** runs the node. -/
theorem runNode_of_step (hf : s.frames = .flow l n.chart 0 false :: rest)
    (hlist : (s.heap.stack l).nodeList = [n]) (hst : (s.heap.nodes n).status = .idle)
    (hflag : (s.heap.nodes n).runFlag = false) (hr : s.heap.chartRunning n.chart = true)
    (h : s.step cfg .tau = some t) :
    t = ({ s with frames := .flow l n.chart 1 false :: rest } : State).runNode l n := by
  obtain rfl := tau_of_step (f := s.flowRound cfg l n.chart 0 false rest) h
    (by simp only [runTau, hf])
  have hro := rounds cfg s l n.chart 0 false rest
  generalize s.flowRound cfg l n.chart 0 false rest = t at hro
  cases hro with
  | ends ho =>
    rcases ho with ho | ho
    · rw [hlist] at ho
      cases ho
    · rw [hr] at ho
      cases ho
  | cut _ hk => exact absurd hk (by decide)
  | waiting hn _ _ hrun _ =>
    obtain rfl := (List.cons.inj (hlist.symm.trans hn)).1
    rw [hst] at hrun
    cases hrun
  | defer hn _ _ hrf _ _ =>
    obtain rfl := (List.cons.inj (hlist.symm.trans hn)).1
    rw [hflag] at hrf
    cases hrf
  | run hn _ _ _ _ =>
    obtain rfl := (List.cons.inj (hlist.symm.trans hn)).1
    rfl

/-- A node that is to be run by a flow of its own. -/
structure Entering (s : State) (n : NodeRef) (rest : List Frame) : Prop where
  frames : s.frames = .enter n :: rest
  free : s.heap.currentIndex + 1 < maxStackSize
  runnable : s.heap.Runnable n
  container : (s.heap.nodes n).container = none
  runFlag : (s.heap.nodes n).runFlag = false

/-- The state in which the first round of the flow runs the node. -/
theorem Entering.begun (he : s.Entering n rest) (h : s.step cfg .tau = some t) :
    t.frames = .flow (s.heap.currentIndex + 1) n.chart 0 false :: rest ∧
      Heap.Begun (s.heap.currentIndex + 1) n s.heap t.heap ∧
      t.heap.log = .flow n :: s.heap.log :=
  begun_of_step he.frames he.free he.runnable he.container h

theorem Entering.runNode (he : s.Entering n rest) (h : s.step cfg .tau = some t)
    (hu : t.step cfg .tau = some u) :
    u = ({ t with frames := .flow (s.heap.currentIndex + 1) n.chart 1 false :: rest }
      : State).runNode (s.heap.currentIndex + 1) n := by
  obtain ⟨hf, hb, -⟩ := he.begun h
  refine runNode_of_step hf hb.list ?_ ?_ ?_ hu
  · rw [hb.root]
  · rw [hb.root]
    exact he.runFlag
  · rw [Heap.chartRunning, hb.charts]
    exact he.runnable.2

/-- **A node that is not to be skipped is called** before anything else happens. -/
theorem Entering.called (he : s.Entering n rest) (hskip : (s.heap.nodes n).skip = false)
    (h : Run.exec (step cfg) s [.tau, .tau] = some u) :
    ∃ new, u.heap.log = new ++ [.run n, .flow n] ++ s.heap.log := by
  simp only [Run.exec_cons, Run.exec_nil, Option.bind_eq_some_iff, Option.some.injEq] at h
  obtain ⟨t, ht, u, hu, rfl⟩ := h
  obtain ⟨-, hb, hlog⟩ := he.begun ht
  have hrun := he.runNode ht hu
  generalize s.heap.currentIndex + 1 = l at hb hrun
  have hs : (t.heap.nodes n).skip = false := by
    rw [hb.root]
    exact hskip
  have hent : (t.heap.enterNode l n).log = .run n :: .flow n :: s.heap.log := by
    have hact : t.heap.enterNode l n =
        (t.heap.setExecutor l ({ · with currentNode := some n })).act n Node.run (.run n) := by
      rw [Heap.enterNode, if_neg]
      rw [Heap.nodes_setExecutor, hs]
      exact Bool.false_ne_true
    rw [hact, ← hlog]
    rfl
  have hn := runsNode { t with frames := .flow l n.chart 1 false :: rest } l n
  rw [← hrun] at hn
  cases hn with
  | skip hsk =>
    rw [hs] at hsk
    cases hsk
  | null _ _ => exact ⟨[], hent⟩
  | script _ _ => exact ⟨[], hent⟩
  | @control f _ _ _ _ =>
    have hd : Heap.Does (fun _ => False) (fun _ => False) (fun _ => False) (t.heap.enterNode l n)
        (((t.heap.enterNode l n).callControl f).2.returnNode n
          (.ofBool ((t.heap.enterNode l n).callControl f).1)) :=
      (Heap.does_callControl _ f).trans (Heap.does_returnNode _ n _)
    obtain ⟨new, hnew⟩ := hd.grows
    refine ⟨new, hnew.trans ?_⟩
    show new ++ (t.heap.enterNode l n).log = _
    rw [hent, List.append_assoc]
    rfl

/-- A node that is to be skipped is not called: the second step leaves it at the end of its
round. -/
theorem Entering.skipped (he : s.Entering n rest) (hskip : (s.heap.nodes n).skip = true)
    (h : Run.exec (step cfg) s [.tau, .tau] = some u) :
    u.frames = .ran n :: .flow (s.heap.currentIndex + 1) n.chart 1 false :: rest ∧
      u.heap.log = .flow n :: s.heap.log ∧ u.heap.charts = s.heap.charts ∧
      u.heap.chartData = s.heap.chartData ∧ (u.heap.nodes n).status = .idle ∧
      (u.heap.nodes n).result = (s.heap.nodes n).result := by
  simp only [Run.exec_cons, Run.exec_nil, Option.bind_eq_some_iff, Option.some.injEq] at h
  obtain ⟨t, ht, u, hu, rfl⟩ := h
  obtain ⟨-, hb, hlog⟩ := he.begun ht
  have hrun := he.runNode ht hu
  generalize s.heap.currentIndex + 1 = l at hb hrun ⊢
  have hs : (t.heap.nodes n).skip = true := by
    rw [hb.root]
    exact hskip
  obtain ⟨hl, hc, hd, hdig⟩ := Heap.enterNode_of_skip l hs
  have hn := runsNode { t with frames := .flow l n.chart 1 false :: rest } l n
  rw [← hrun] at hn
  have hu' : u = ({ t with frames := .flow l n.chart 1 false :: rest }.mapHeap
      (·.enterNode l n)).call (.ran n) := by
    cases hn with
    | skip _ => rfl
    | null hsk _ | script hsk _ | control hsk _ _ _ =>
      exact absurd (hs.symm.trans hsk) (Bool.noConfusion ·)
  clear hn hrun
  subst hu'
  have hroot : (t.heap.nodes n).digest =
      { (s.heap.nodes n).digest with status := .idle } := by rw [hb.root, Node.digest]; rfl
  refine ⟨rfl, hl.trans hlog, hc.trans hb.charts, hd.trans hb.chartData, ?_, ?_⟩
  · exact congrArg Digest.status (hdig.trans hroot)
  · exact congrArg Digest.result (hdig.trans hroot)

end State

end Asyncflow
