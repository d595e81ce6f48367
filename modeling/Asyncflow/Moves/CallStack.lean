import Asyncflow.Moves.Step

/-!
# The shape of the call stack

The flows in progress use the executors `1, 2, …` up to `current_index_`, one each
and the innermost one the last. All of them but the innermost are suspended at a
call: inside the function of their current node (`Frame.func` directly above
`Frame.flow`), or inside `Chart::Return` after their loop (`Frame.flowReturn`). An
executor in use holds nodes of the chart of its flow only.

`Asyncflow.State.Shaped` is that invariant, by the inductive predicates
`Asyncflow.Nest` (every flow is suspended) and `Asyncflow.Stacked` (the innermost
flow may also be in its loop), and `Asyncflow.State.shaped_of_reachable` says that it
holds of every reachable state.
-/

namespace Asyncflow

namespace Heap

variable {h h' g : Heap} {n m : NodeRef} {l : ℕ} {c : ChartId} {flows : ℕ → Prop}
  {may : Permit → Prop}
  {D : NodeRef → Prop}

/-! ### Executors that no flow works on -/

/-- The executor gets no new node but the current one, which stays. -/
structure Steady (h h' : Heap) (l : ℕ) : Prop where
  nodes : ∀ m ∈ (h'.stack l).nodeList,
    m ∈ (h.stack l).nodeList ∨ (h.stack l).currentNode = some m
  current : (h'.stack l).currentNode = (h.stack l).currentNode
  agent : (h'.stack l).currentAgent = (h.stack l).currentAgent

theorem steady_of_eq (hs : h'.stack l = h.stack l) : h.Steady h' l :=
  ⟨fun _ hm => .inl (by rwa [← hs]), by rw [hs], by rw [hs]⟩

theorem Steady.trans (hs : h.Steady g l) (hs' : g.Steady h' l) : h.Steady h' l := by
  refine ⟨fun m hm => ?_, hs'.current.trans hs.current, hs'.agent.trans hs.agent⟩
  rcases hs'.nodes m hm with hm | hm
  · exact hs.nodes m hm
  · exact .inr (hs.current ▸ hm)

/-- What is not on the stack of executors does not matter. -/
theorem Steady.congr (hs : h.Steady g l) (he : h'.stack = g.stack) : h.Steady h' l :=
  hs.trans (steady_of_eq (by rw [he]))

theorem Steady.of_stack (hs : g.Steady h' l) (he : g.stack = h.stack) : h.Steady h' l :=
  (steady_of_eq (by rw [he])).trans hs

/-- The list of an executor after a push. -/
theorem mem_nodeList_push {d : Container} (hm : m ∈ ((h.push d n).stack l).nodeList) :
    m = n ∧ .executor l = d ∨ m ∈ (h.stack l).nodeList := by
  have hm' : m ∈ (h.push d n).content (.executor l) := hm
  exact mem_content_of_push hm'

theorem mem_nodeList_remove {d : Container} (hm : m ∈ ((h.remove d n).stack l).nodeList) :
    m ∈ (h.stack l).nodeList := by
  have hm' : m ∈ (h.remove d n).content (.executor l) := hm
  exact mem_content_of_remove hm'

theorem steady_remove (h : Heap) (c : Container) (n : NodeRef) : h.Steady (h.remove c n) l :=
  ⟨fun _ hm => .inl (mem_nodeList_remove hm), currentNode_remove .., currentAgent_remove ..⟩

theorem steady_detach (h : Heap) (n : NodeRef) : h.Steady (h.detach n) l :=
  ⟨fun _ hm => .inl (mem_content_of_detach (c := .executor l) hm), currentNode_detach ..,
    currentAgent_detach ..⟩

theorem steady_push (h : Heap) (n : NodeRef) {c : Container} (hc : .executor l ≠ c) :
    h.Steady (h.push c n) l := by
  refine ⟨fun m hm => .inl ?_, currentNode_push .., currentAgent_push ..⟩
  rcases mem_nodeList_push hm with ⟨-, hce⟩ | hm
  · exact absurd hce hc
  · exact hm

theorem steady_setExecutor {k : ℕ} (hk : l ≠ k) (h : Heap) (f : DfsExecutor → DfsExecutor) :
    h.Steady (h.setExecutor k f) l :=
  steady_of_eq (by rw [stack_setExecutor, if_neg hk])

theorem steady_removeNode (h : Heap) (n : NodeRef) : h.Steady (h.removeNode n) l :=
  (steady_remove h .asyncWaiting n).congr rfl

theorem steady_activateNode (h : Heap) (n : NodeRef) (skip : Bool) :
    h.Steady (h.activateNode n skip) l := by
  unfold activateNode
  split
  · exact steady_of_eq rfl
  · exact (steady_push h n (c := .activated) nofun).congr rfl

theorem steady_continueNode (h : Heap) (n : NodeRef) (b : Bool) :
    h.Steady (h.continueNode n b) l :=
  ((steady_removeNode h n).trans (steady_activateNode _ n true)).congr rfl

/-- **A move that is not made on an executor leaves it steady.** -/
theorem steady_of_move (hm : Move flows may D h h') (hl : ¬flows l) : h.Steady h' l := by
  have hne : ∀ {k}, flows k → l ≠ k := by
    rintro k hk rfl
    exact hl hk
  have hec : ∀ {k}, l ≠ k → Container.executor l ≠ .executor k := by simp
  cases hm with
  | alike ha => exact ⟨fun m hm => .inl (by rwa [← ha.nodeList]), ha.currentNode l,
      ha.currentAgent l⟩
  | detach hn => exact steady_detach h _
  | removeFree k hc => exact steady_remove h _ _
  | @wait n a e hn => exact (steady_push h n (c := .waiting a e) nofun).congr rfl
  | @suspend n hn =>
    have hs := steady_push (l := l) (h.setNode n ({ · with status := .running })) n
      (c := .asyncWaiting) nofun
    have hs' : Steady (h.setNode n ({ · with status := .running })) (h.suspendNode n) l :=
      hs.congr rfl
    exact hs'.of_stack rfl
  | @continued n b hn ha => exact steady_continueNode h n b
  | @cancelled n stop hn ha =>
    unfold cancelNode
    split
    · exact (steady_removeNode h n).congr rfl
    · exact (steady_continueNode h n false).congr rfl
  | resume skip r hc => exact (steady_removeNode (h.act ..) _).of_stack rfl
  | started hx hne =>
    simp only [markStarted, hx, hne, ↓reduceIte]
    exact steady_of_eq rfl
  | forget c =>
    unfold forgetChart setOwner
    split <;> exact steady_of_eq rfl
  | @beginFlow n k a hfl hn hv =>
    have hs := steady_setExecutor (hne hfl) (h.act n ({ · with status := .idle }) (.flow n))
      ({ · with currentAgent := some a, nodeList := [] })
    have hp := steady_push ((h.act n ({ · with status := .idle }) (.flow n)).setExecutor k
      ({ · with currentAgent := some a, nodeList := [] })) n (hec (hne hfl))
    have hb : Steady (h.act n ({ · with status := .idle }) (.flow n)) (h.beginFlow k a n) l :=
      (hs.trans hp).congr rfl
    exact hb.of_stack rfl
  | @pop n ns k hfl hk =>
    have hs := steady_setExecutor (hne hfl) h
      fun x => { x with nodeList := ns, historyNodes := n :: x.historyNodes }
    simp only [pop, hk]
    split
    · exact hs.congr rfl
    · exact hs
  | current k hfl hn => exact steady_setExecutor (hne hfl) h _
  | child k hfl hi hn =>
    simp only [addChild, hi, ↓reduceIte]
    exact (steady_push (h.act ..) _ (hec (hne hfl))).of_stack rfl
  | continueFlow k hfl hn => exact (steady_push (h.act ..) _ (hec (hne hfl))).of_stack rfl
  | agent k a hfl => exact steady_setExecutor (hne hfl) h _
  | clearHistory k hfl _ => exact steady_setExecutor (hne hfl) h _
  | closeFlow k hfl =>
    have hs := steady_setExecutor (hne hfl) h ({ · with currentNode := none, currentAgent := none })
    exact hs.congr rfl
  | _ => exact steady_of_eq rfl

theorem steady_of_does (hd : Does flows may D h h') (hl : ¬flows l) : h.Steady h' l := by
  obtain ⟨new, -, hms⟩ := hd
  induction hms with
  | refl => exact steady_of_eq rfl
  | tail _ hm ih => exact ih.trans (steady_of_move hm hl)

/-- The stack index is moved by flows only. -/
theorem currentIndex_of_move (hm : Move flows may D h h') (hfl : ∀ l, ¬flows l) :
    h'.currentIndex = h.currentIndex := by
  cases hm with
  | alike ha => exact ha.currentIndex
  | detach hn => exact currentIndex_detach ..
  | removeFree k hc => exact currentIndex_remove ..
  | wait a e hn => exact currentIndex_push ..
  | suspend hn => exact currentIndex_push (h.setNode ..) ..
  | continued b hn ha =>
    unfold continueNode activateNode
    split
    · exact currentIndex_remove ..
    · exact (currentIndex_push ..).trans (currentIndex_remove ..)
  | cancelled stop hn ha =>
    unfold cancelNode activateNode
    split
    · exact currentIndex_remove ..
    · split
      · exact currentIndex_remove ..
      · exact (currentIndex_push ..).trans (currentIndex_remove ..)
  | resume skip r hc => exact currentIndex_remove (h.act ..) ..
  | started hx hne => simp only [markStarted, hx, hne, ↓reduceIte]; rfl
  | forget c =>
    unfold forgetChart setOwner
    split <;> rfl
  | beginFlow k _ hk | pop k hk | current k hk | child k hk | continueFlow k hk
  | agent k _ hk | clearHistory k hk _ | closeFlow k hk => exact absurd hk (hfl k)
  | _ => rfl

theorem currentIndex_of_does (hd : Does flows may D h h') (hfl : ∀ l, ¬flows l) :
    h'.currentIndex = h.currentIndex :=
  Traced.Does.invariant (I := fun g => g.currentIndex = h.currentIndex) hd
    (fun hm hi => (currentIndex_of_move hm hfl).trans hi) rfl

/-! ### Executors in use -/

/-- The executor is used by a flow of the chart: it refers to no node of another. -/
structure Uses (h : Heap) (l : ℕ) (c : ChartId) : Prop where
  nodes : ∀ m ∈ (h.stack l).nodeList, m.chart = c
  current : ∀ m, (h.stack l).currentNode = some m → m.chart = c

theorem Uses.of_steady (hu : h.Uses l c) (hs : h.Steady h' l) : h'.Uses l c where
  nodes m hm := (hs.nodes m hm).elim (hu.nodes m) (hu.current m)
  current m hm := hu.current m (hs.current ▸ hm)

end Heap

/-- The calls in progress, every flow among them suspended at a call, and the number
of executors they use. -/
inductive Nest (h : Heap) : List Frame → ℕ → Prop
  | nil : Nest h [] 0
  | call {f fs l} : f.isCall → Nest h fs l → Nest h (f :: fs) l
  | func {n l k r fs} : h.Uses (l + 1) n.chart → (h.stack (l + 1)).currentNode = some n →
      Nest h fs l → Nest h (.func n :: .flow (l + 1) n.chart k r :: fs) (l + 1)
  | flowReturn {l c fs} : h.Uses (l + 1) c → Nest h fs l →
      Nest h (.flowReturn (l + 1) c :: fs) (l + 1)

/-- The call stack: the innermost call may also be a flow that is not suspended. -/
inductive Stacked (h : Heap) : List Frame → ℕ → Prop
  | nest {fs l} : Nest h fs l → Stacked h fs l
  | flow {l c k r fs} : h.Uses (l + 1) c → Nest h fs l →
      Stacked h (.flow (l + 1) c k r :: fs) (l + 1)
  | ran {n l k r fs} : h.Uses (l + 1) n.chart → (h.stack (l + 1)).currentNode = some n →
      Nest h fs l → Stacked h (.ran n :: .flow (l + 1) n.chart k r :: fs) (l + 1)
  | ended {l c r fs} : h.Uses (l + 1) c → Nest h fs l →
      Stacked h (.ended (l + 1) c r :: fs) (l + 1)

section Nest

variable {h h' : Heap} {f : Frame} {fs rest : List Frame} {l : ℕ} {c : ChartId} {n : NodeRef}

theorem Nest.of_steady (hn : Nest h fs l) (hs : ∀ k ≤ l, h.Steady h' k) : Nest h' fs l := by
  induction hn with
  | nil => exact .nil
  | call hf _ ih => exact .call hf (ih hs)
  | func hu hc _ ih =>
    have hl := hs _ (Nat.le_refl _)
    exact .func (hu.of_steady hl) (hl.current.trans hc) (ih fun k hk => hs k (by omega))
  | flowReturn hu _ ih =>
    exact .flowReturn (hu.of_steady (hs _ (Nat.le_refl _))) (ih fun k hk => hs k (by omega))

theorem Nest.append (hn : Nest h rest l) (hfs : ∀ f ∈ fs, f.isCall) : Nest h (fs ++ rest) l := by
  induction fs with
  | nil => exact hn
  | cons f fs ih => exact .call (hfs f (by simp)) (ih fun g hg => hfs g (by simp [hg]))

/-- Below a call. -/
theorem Nest.tail (hn : Nest h (f :: fs) l) (hf : f.isCall) : Nest h fs l := by
  cases hn with
  | call _ hn => exact hn
  | func | flowReturn => exact hf.elim

/-- A call is innermost only when every flow is suspended. -/
theorem Stacked.nest_of_call (hs : Stacked h (f :: fs) l) (hf : f.isCall) : Nest h (f :: fs) l := by
  cases hs with
  | nest hn => exact hn
  | flow | ran | ended => exact hf.elim

theorem Stacked.nest_of_func (hs : Stacked h (.func n :: fs) l) : Nest h (.func n :: fs) l := by
  cases hs with
  | nest hn => exact hn

/-- The current node of the innermost flow is that of its function. -/
theorem Nest.func_inv (hn : Nest h (.func n :: fs) l) : ∃ k r rest, l ≠ 0 ∧
    fs = .flow l n.chart k r :: rest ∧ h.Uses l n.chart ∧ (h.stack l).currentNode = some n ∧
      Nest h rest (l - 1) := by
  cases hn with
  | call hf => exact hf.elim
  | func hu hc hn => exact ⟨_, _, _, Nat.succ_ne_zero _, rfl, hu, hc, hn⟩

theorem Nest.flowReturn_inv {k : ℕ} (hn : Nest h (.flowReturn k c :: fs) l) :
    l = k ∧ l ≠ 0 ∧ h.Uses l c ∧ Nest h fs (l - 1) := by
  cases hn with
  | call hf => exact hf.elim
  | flowReturn hu hn => exact ⟨rfl, Nat.succ_ne_zero _, hu, hn⟩

theorem Stacked.flow_inv {k i : ℕ} {r : Bool} (hs : Stacked h (.flow k c i r :: fs) l) :
    l = k ∧ l ≠ 0 ∧ h.Uses l c ∧ Nest h fs (l - 1) := by
  cases hs with
  | nest hn => cases hn with
    | call hf => exact hf.elim
  | flow hu hn => exact ⟨rfl, Nat.succ_ne_zero _, hu, hn⟩

theorem Stacked.ended_inv {k : ℕ} {r : Bool} (hs : Stacked h (.ended k c r :: fs) l) :
    l = k ∧ l ≠ 0 ∧ h.Uses l c ∧ Nest h fs (l - 1) := by
  cases hs with
  | nest hn => cases hn with
    | call hf => exact hf.elim
  | ended hu hn => exact ⟨rfl, Nat.succ_ne_zero _, hu, hn⟩

theorem Stacked.ran_inv (hs : Stacked h (.ran n :: fs) l) : ∃ k r rest, l ≠ 0 ∧
    fs = .flow l n.chart k r :: rest ∧ h.Uses l n.chart ∧ (h.stack l).currentNode = some n ∧
      Nest h rest (l - 1) := by
  cases hs with
  | nest hn => cases hn with
    | call hf => exact hf.elim
  | ran hu hc hn => exact ⟨_, _, _, Nat.succ_ne_zero _, rfl, hu, hc, hn⟩

/-- The executor of a suspended flow is one of those in use. -/
theorem Nest.le_of_flow {k i : ℕ} {r : Bool} (hn : Nest h fs l)
    (hf : .flow k c i r ∈ fs) : k ≤ l := by
  induction hn with
  | nil => cases hf
  | call hc _ ih =>
    rcases List.mem_cons.mp hf with rfl | hf
    · exact hc.elim
    · exact ih hf
  | func _ _ _ ih =>
    rcases List.mem_cons.mp hf with hf | hf
    · cases hf
    · rcases List.mem_cons.mp hf with hf | hf
      · obtain ⟨rfl, -, -, -⟩ := Frame.flow.inj hf
        exact Nat.le_refl _
      · exact Nat.le_succ_of_le (ih hf)
  | flowReturn _ _ ih =>
    rcases List.mem_cons.mp hf with hf | hf
    · cases hf
    · exact Nat.le_succ_of_le (ih hf)

end Nest

namespace State

variable {cfg : Config} {s t u : State} {a : Act} {n : NodeRef} {c : ChartId} {rest : List Frame}

/-- **The shape of the call stack.** -/
structure Shaped (s : State) : Prop where
  stacked : Stacked s.heap s.frames s.heap.currentIndex
  idle : ∀ l, l = 0 ∨ s.heap.currentIndex < l → (s.heap.stack l).currentNode = none

/-- An operation that needs no permission for flows, and calls pushed on a part of the
call stack in which every flow is suspended. -/
theorem shaped_of_calls {fs : List Frame} (hn : Nest s.heap fs s.heap.currentIndex)
    (hi : ∀ l, l = 0 ∨ s.heap.currentIndex < l → (s.heap.stack l).currentNode = none)
    (hd : Heap.Does (fun _ => False) (fun _ => True) (fun _ => False) s.heap t.heap)
    (hf : ∃ gs, t.frames = gs ++ fs ∧ ∀ f ∈ gs, f.isCall) : t.Shaped := by
  have hidx : t.heap.currentIndex = s.heap.currentIndex :=
    Heap.currentIndex_of_does hd fun _ => id
  have hst : ∀ l, s.heap.Steady t.heap l := fun _ => Heap.steady_of_does hd id
  obtain ⟨gs, hfs, hcall⟩ := hf
  constructor
  · rw [hidx, hfs]
    exact .nest ((hn.of_steady fun k _ => hst k).append hcall)
  · intro l hl
    rw [(hst l).current]
    exact hi l (by rwa [← hidx])

/-- User code is in control in a function or a callback, or outside every flow. -/
theorem nest_of_mayCall {o : Op} (hs : Stacked s.heap s.frames s.heap.currentIndex)
    (hm : s.mayCall o = true) : Nest s.heap s.frames s.heap.currentIndex := by
  unfold mayCall at hm
  split at hm
  · rename_i hf
    rw [hf] at hs ⊢
    cases hs with
    | nest hn => exact hn
  · rename_i hf
    rw [hf] at hs ⊢
    exact hs.nest_of_func
  · rename_i hf
    rw [hf] at hs ⊢
    exact hs.nest_of_call trivial
  · rename_i hf
    rw [hf] at hs ⊢
    exact hs.nest_of_call trivial
  · cases hm

/-! ### The start of a flow -/

theorem shaped_of_refuse (hw : s.Wf) (hs : s.Shaped) (hn : Nest s.heap rest s.heap.currentIndex)
    (hf : s.frames = .enter n :: rest) : (s.refuse cfg n rest).Shaped := by
  have hd : Heap.Does (fun _ => False) (fun _ => True) (fun _ => False) s.heap
    (s.refuse cfg n rest).heap :=
    does_refuse hw hf
  unfold refuse at hd ⊢
  split at hd
  · exact shaped_of_calls (hn.tail trivial) hs.idle hd ⟨[], frames_startLater .., by simp⟩
  · exact shaped_of_calls hn hs.idle hd ⟨[], frames_continueLater .., by simp⟩
  · rename_i h1 h2
    exact shaped_of_calls hn hs.idle (t := { s.mapHeap (·.note (.refused n)) with frames := rest })
      hd ⟨[], rfl, by simp⟩

/-- The executor of a new flow before its first node is pushed. -/
def clearedFor (h : Heap) (l : ℕ) (b : AgentId) (n : NodeRef) : Heap :=
  (h.act n ({ · with status := .idle }) (.flow n)).setExecutor l
    ({ · with currentAgent := some b, nodeList := [] })

theorem stack_beginFlow (h : Heap) (l : ℕ) (b : AgentId) (n : NodeRef) :
    (h.beginFlow l b n).stack = ((clearedFor h l b n).push (.executor l) n).stack := rfl

theorem nodeList_beginFlow {h : Heap} {l : ℕ} {b : AgentId} {m : NodeRef}
    (hm : m ∈ ((h.beginFlow l b n).stack l).nodeList) : m = n := by
  rw [stack_beginFlow] at hm
  rcases Heap.mem_nodeList_push hm with ⟨rfl, -⟩ | hm
  · rfl
  · simp [clearedFor, Heap.stack_setExecutor] at hm

theorem currentNode_beginFlow (h : Heap) (l k : ℕ) (b : AgentId) (n : NodeRef) :
    ((h.beginFlow l b n).stack k).currentNode = (h.stack k).currentNode := by
  rw [stack_beginFlow, Heap.currentNode_push]
  exact Heap.executor_setExecutor (h.act n _ _) DfsExecutor.currentNode (by intro; rfl) l k

/-- The executor of a new flow. -/
theorem uses_beginFlow {h : Heap} {l : ℕ} {b : AgentId} (hc : (h.stack l).currentNode = none) :
    (h.beginFlow l b n).Uses l n.chart where
  nodes m hm := congrArg NodeRef.chart (nodeList_beginFlow hm)
  current m hm := by
    rw [currentNode_beginFlow, hc] at hm
    cases hm

/-- **What `RunFlow` can do**: refuse, run into a chart that is gone, start a flow, or
return at once. -/
inductive Enters (cfg : Config) (s : State) (n : NodeRef) (rest : List Frame) : State → Prop
  | refused : maxStackSize ≤ s.heap.currentIndex + 1 → Enters cfg s n rest (s.refuse cfg n rest)
  | gone : s.heap.agentOf n = none → Enters cfg s n rest (s.mapHeap (·.crash))
  | flow {b : AgentId} : s.heap.currentIndex + 1 < maxStackSize → s.heap.agentOf n = some b →
      s.heap.agentRunning b = true → s.heap.chartRunning n.chart = true → Enters cfg s n rest
        { s.mapHeap (·.beginFlow (s.heap.currentIndex + 1) b n) with
          frames := .flow (s.heap.currentIndex + 1) n.chart 0 false :: rest }
  | skipped {b : AgentId} : s.heap.currentIndex + 1 < maxStackSize → s.heap.agentOf n = some b →
      (s.heap.agentRunning b = false ∨ s.heap.chartRunning n.chart = false) → Enters cfg s n rest
        { s.mapHeap (·.skipFlow (s.heap.currentIndex + 1) b n) with frames := rest }

theorem enters (cfg : Config) (s : State) (n : NodeRef) (rest : List Frame) :
    Enters cfg s n rest (s.enterFlow cfg n rest) := by
  unfold enterFlow
  dsimp only
  split
  · exact .refused ‹_›
  · split
    · exact .gone ‹_›
    · rename_i hl _ a ha
      split
      · rename_i hr
        rw [Bool.and_eq_true] at hr
        exact .flow (by omega) ha hr.1 hr.2
      · rename_i hr
        rw [Bool.and_eq_true, not_and_or, Bool.not_eq_true, Bool.not_eq_true] at hr
        exact .skipped (by omega) ha hr

theorem shaped_of_enter (hw : s.Wf) (hs : s.Shaped) (hf : s.frames = .enter n :: rest) :
    (s.enterFlow cfg n rest).Shaped := by
  have hst := hs.stacked
  rw [hf] at hst
  have hn : Nest s.heap rest s.heap.currentIndex := (hst.nest_of_call trivial).tail trivial
  have hd : Heap.Does (· = s.heap.currentIndex + 1) (fun _ => True) (fun _ => False) s.heap
      (s.enterFlow cfg n rest).heap := does_enterFlow hw hf rfl fun _ _ => trivial
  have he := enters cfg s n rest
  generalize s.enterFlow cfg n rest = t at he hd ⊢
  cases he with
  | refused hl => exact shaped_of_refuse hw hs hn hf
  | gone ha =>
    refine shaped_of_calls hn hs.idle (t := s.mapHeap (·.crash)) (Heap.does_crash _) ?_
    exact ⟨[.enter n], hf, by simp [Frame.isCall]⟩
  | @flow a hl ha har hcr =>
    have hc : (s.heap.stack (s.heap.currentIndex + 1)).currentNode = none :=
      hs.idle _ (.inr (Nat.lt_succ_self _))
    refine ⟨.flow (uses_beginFlow hc) ?_, fun k hk => ?_⟩
    · exact hn.of_steady fun k hk => Heap.steady_of_does hd (by omega)
    · have hk' : k = 0 ∨ s.heap.currentIndex + 1 < k := hk
      rw [(Heap.steady_of_does hd (by omega)).current]
      exact hs.idle k (by omega)
  | @skipped b hl ha hr =>
    refine ⟨.nest (hn.of_steady fun k hk => Heap.steady_of_does hd (by omega)), fun k hk => ?_⟩
    have hcur := Heap.executor_setExecutor s.heap DfsExecutor.currentNode
      (f := ({ · with currentAgent := some b })) (by intro; rfl) (s.heap.currentIndex + 1) k
    exact hcur.trans (hs.idle k hk)

theorem shaped_of_continuing (hs : s.Shaped) (hf : s.frames = .continuing n :: rest) :
    (s.continueFlow n rest).Shaped := by
  have hst := hs.stacked
  rw [hf] at hst
  have hn : Nest s.heap rest s.heap.currentIndex := (hst.nest_of_call trivial).tail trivial
  unfold continueFlow
  dsimp only
  split
  · refine shaped_of_calls hn hs.idle (t := s.mapHeap (·.crash)) (Heap.does_crash _) ?_
    exact ⟨[.continuing n], hf, by simp [Frame.isCall]⟩
  · split
    · rename_i hcur
      have hsteady : ∀ k, s.heap.Steady (s.heap.continueFlow (s.heap.currentIndex - 1) n) k := by
        intro k
        refine ⟨fun m hm => ?_, Heap.currentNode_push .., Heap.currentAgent_push ..⟩
        rcases Heap.mem_nodeList_push hm with ⟨rfl, hk⟩ | hm'
        · right
          obtain rfl : k = s.heap.currentIndex - 1 := by simpa using hk
          exact hcur.2
        · exact .inl hm'
      have hidx : (s.heap.continueFlow (s.heap.currentIndex - 1) n).currentIndex =
          s.heap.currentIndex := Heap.currentIndex_push ..
      refine ⟨?_, fun k hk => ?_⟩
      · exact .nest (hidx.symm ▸ hn.of_steady fun k _ => hsteady k)
      · have hk' : k = 0 ∨ s.heap.currentIndex < k := by rwa [← hidx]
        exact (hsteady k).current.trans (hs.idle k hk')
    · refine shaped_of_calls hn hs.idle (t := { s with frames := .enter n :: rest }) (.refl _) ?_
      exact ⟨[.enter n], rfl, by simp [Frame.isCall]⟩

end State

/-! ### What the innermost flow does on its executor -/

namespace Heap

variable {cfg : Config} {h h' g : Heap} {n : NodeRef} {l : ℕ} {c : ChartId}

/-- The second heap is the result of work for a flow of the chart on the executor. -/
structure Within (l : ℕ) (c : ChartId) (h h' : Heap) : Prop where
  uses : h.Uses l c → h'.Uses l c
  index : h'.currentIndex = h.currentIndex
  steady : ∀ k, k ≠ l → h.Steady h' k

theorem Within.refl (h : Heap) : Within l c h h := ⟨id, rfl, fun _ _ => steady_of_eq rfl⟩

theorem Within.trans (hw : Within l c h g) (hw' : Within l c g h') : Within l c h h' :=
  ⟨fun hu => hw'.uses (hw.uses hu), hw'.index.trans hw.index,
    fun k hk => (hw.steady k hk).trans (hw'.steady k hk)⟩

/-- An operation that is not made by a flow. -/
theorem within_of_does (hd : Does (fun _ => False) (fun _ => True) (fun _ => False) h h') :
    Within l c h h' where
  uses hu := hu.of_steady (steady_of_does hd id)
  index := currentIndex_of_does hd fun _ => id
  steady _ _ := steady_of_does hd id

theorem within_setExecutor {f : DfsExecutor → DfsExecutor}
    (hnodes : h.Uses l c → ∀ m ∈ (f (h.stack l)).nodeList, m.chart = c)
    (hcur : h.Uses l c → ∀ m, (f (h.stack l)).currentNode = some m → m.chart = c) :
    Within l c h (h.setExecutor l f) where
  uses hu := by
    refine ⟨fun m hm => ?_, fun m hm => ?_⟩
    · rw [stack_setExecutor, if_pos rfl] at hm
      exact hnodes hu m hm
    · rw [stack_setExecutor, if_pos rfl] at hm
      exact hcur hu m hm
  index := rfl
  steady k hk := steady_setExecutor hk h f

/-- Writes to nodes and entries of the history do not matter. -/
theorem Within.congr (hw : Within l c h g) (hs : h'.stack = g.stack)
    (hi : h'.currentIndex = g.currentIndex) : Within l c h h' where
  uses hu := (hw.uses hu).of_steady (steady_of_eq (by rw [hs]))
  index := hi.trans hw.index
  steady k hk := (hw.steady k hk).congr hs

theorem within_act (h : Heap) (m : NodeRef) (f : Node → Node) (o : Obs) :
    Within l c h (h.act m f o) := (Within.refl h).congr rfl rfl

theorem within_pop (h : Heap) : Within l c h (h.pop l) := by
  unfold pop
  split
  · exact (Within.refl h).congr rfl rfl
  · rename_i n ns hl
    have hp : Within l c h (h.setExecutor l fun x =>
        { x with nodeList := ns, historyNodes := n :: x.historyNodes }) := by
      refine within_setExecutor (fun hu m hm => hu.nodes m ?_) fun hu => hu.current
      rw [hl]
      exact List.mem_cons_of_mem n hm
    dsimp only
    split
    · exact hp.congr rfl rfl
    · exact hp

theorem within_push (h : Heap) {m : NodeRef} (hm : m.chart = c) :
    Within l c h (h.push (.executor l) m) where
  uses hu := by
    refine ⟨fun m' hm' => ?_, fun m' hm' => hu.current m' (by rwa [currentNode_push] at hm')⟩
    rcases mem_nodeList_push hm' with ⟨rfl, -⟩ | hm'
    · exact hm
    · exact hu.nodes m' hm'
  index := currentIndex_push ..
  steady k hk := steady_push h m (by simpa using hk)

theorem within_addChild (h : Heap) (hn : n.chart = c) (i : ℕ) :
    Within l c h (h.addChild l n i) := by
  unfold addChild
  split
  · have ha : Within l c h
        (h.act ⟨n.chart, i⟩ ({ · with preNodeId := n.id }) (.edge n ⟨n.chart, i⟩)) := within_act ..
    exact ha.trans (within_push _ (m := ⟨n.chart, i⟩) hn)
  · exact (Within.refl h).congr rfl rfl

theorem within_foldl {β : Type} {f : Heap → β → Heap} (hf : ∀ h b, Within l c h (f h b)) (h : Heap)
    (bs : List β) : Within l c h (bs.foldl f h) := by
  induction bs generalizing h with
  | nil => exact .refl h
  | cons b bs ih => exact (hf h b).trans (ih _)

theorem within_restoreNode (h : Heap) (m : NodeRef) : Within l c h (h.restoreNode m) := by
  have hs : Within l c h (h.setNode m ({ · with runFlag := false })) :=
    (Within.refl h).congr rfl rfl
  unfold restoreNode
  dsimp only
  split
  · exact hs.trans (within_of_does (does_stop _ m))
  · exact hs

theorem within_restoreHistory (h : Heap) : Within l c h (h.restoreHistory l) := by
  have hr : Within l c h ((h.stack l).historyNodes.reverse.foldl restoreNode h) :=
    within_foldl within_restoreNode h _
  exact hr.trans (within_setExecutor (fun hu => hu.nodes) fun hu => hu.current)

theorem within_cutFlow (h : Heap) : Within l c h (h.cutFlow l) :=
  within_foldl (fun g n => (within_pop g).trans (within_act (g.pop l) n _ (.cut n))) h _

theorem within_enterNode (hn : n ∈ (h.stack l).nodeList) : Within l c h (h.enterNode l n) := by
  have hc : Within l c h (h.setExecutor l ({ · with currentNode := some n })) := by
    refine within_setExecutor (fun hu => hu.nodes) fun hu m hm => ?_
    obtain rfl : n = m := by simpa using hm
    exact hu.nodes n hn
  unfold enterNode
  dsimp only
  split
  · exact hc.congr rfl rfl
  · exact hc.congr rfl rfl

theorem within_finishNode (h : Heap) (hn : n.chart = c) : Within l c h (h.finishNode l n) := by
  have hp : Within l c h (h.popHeld l n) := by
    unfold popHeld
    split
    · exact within_pop h
    · exact .refl h
  refine hp.trans ?_
  unfold finishNode addSubsequenceNodes
  dsimp only
  split
  · exact (Within.refl _).congr rfl rfl
  · have ha : Within l c (h.popHeld l n) ((h.popHeld l n).act n
        (fun d => { d.count with status := .endRun }) (.succ n ((h.popHeld l n).nodes n).result)) :=
      within_act ..
    split
    · exact ha
    · exact ha.trans (within_foldl (fun g i => within_addChild g hn i) _ _)

end Heap

namespace State

variable {cfg : Config} {s t : State} {a : Act} {n : NodeRef} {l : ℕ} {c : ChartId}
  {rest : List Frame}

/-! ### The rounds of a flow -/

/-- **What a round of the loop can do**: leave the loop because nothing is pending,
because the chart is not running any more or because of the iteration limit, drop a
node that is waiting, put a node off to the next tick, or run the node on top. -/
inductive Rounds (cfg : Config) (s : State) (l : ℕ) (c : ChartId) (k : ℕ) (r : Bool)
    (rest : List Frame) : State → Prop
  | ends : (s.heap.stack l).nodeList = [] ∨ s.heap.chartRunning c = false →
      Rounds cfg s l c k r rest
        { s.mapHeap (·.restoreHistory l) with frames := .ended l c r :: rest }
  | cut : s.heap.chartRunning c = true → maxNodesPerExecution < k + 1 → Rounds cfg s l c k r rest
      { s.mapHeap fun h => (h.cutFlow l).restoreHistory l with frames := .ended l c r :: rest }
  | waiting {n ns} : (s.heap.stack l).nodeList = n :: ns → s.heap.chartRunning c = true →
      k + 1 ≤ maxNodesPerExecution → (s.heap.nodes n).status = .running →
      (s.heap.nodes n).isWaitAll = false → Rounds cfg s l c k r rest
        { s.mapHeap (·.pop l) with frames := .flow l c (k + 1) true :: rest }
  | defer {n ns} : (s.heap.stack l).nodeList = n :: ns → s.heap.chartRunning c = true →
      k + 1 ≤ maxNodesPerExecution → (s.heap.nodes n).runFlag = true →
      (s.heap.nodeData n).noLoopCheck = false →
      ((s.heap.nodes n).status = .running → (s.heap.nodes n).isWaitAll = true) →
      Rounds cfg s l c k r rest
        { s.mapHeap (·.deferTick cfg l n) with frames := .flow l c (k + 1) true :: rest }
  | run {n ns} : (s.heap.stack l).nodeList = n :: ns → s.heap.chartRunning c = true →
      k + 1 ≤ maxNodesPerExecution →
      ((s.heap.nodes n).runFlag = true → (s.heap.nodeData n).noLoopCheck = true) →
      ((s.heap.nodes n).status = .running → (s.heap.nodes n).isWaitAll = true) →
      Rounds cfg s l c k r rest
        ({ s with frames := .flow l c (k + 1) r :: rest }.runNode l n)

theorem rounds (cfg : Config) (s : State) (l : ℕ) (c : ChartId) (k : ℕ) (r : Bool)
    (rest : List Frame) : Rounds cfg s l c k r rest (s.flowRound cfg l c k r rest) := by
  unfold flowRound
  split
  · exact .ends (.inl ‹_›)
  · rename_i n ns hl
    split
    · rename_i hc
      have hc' : s.heap.chartRunning c = false := by simpa using hc
      exact .ends (.inr hc')
    · rename_i hc
      have hc' : s.heap.chartRunning c = true := by simpa using hc
      split
      · exact .cut hc' ‹_›
      · rename_i hk
        split
        · rename_i hw
          exact .waiting hl hc' (by omega) hw.1 hw.2
        · rename_i hw
          have hw' : (s.heap.nodes n).status = .running → (s.heap.nodes n).isWaitAll = true :=
            fun h => by simpa [h] using hw
          split
          · rename_i hf
            exact .defer hl hc' (by omega) hf.1 hf.2 hw'
          · rename_i hf
            exact .run hl hc' (by omega) (fun h => by simpa [h] using hf) hw'

/-- **What `Node::Run` can do**: nothing but clear the skip flag, have no function,
call a script, or call a control function. -/
inductive RunsNode (s : State) (l : ℕ) (n : NodeRef) : State → Prop
  | skip : (s.heap.nodes n).skip = true →
      RunsNode s l n ((s.mapHeap (·.enterNode l n)).call (.ran n))
  | null : (s.heap.nodes n).skip = false → (s.heap.nodeData n).func = .null →
      RunsNode s l n ((s.mapHeap (·.enterNode l n)).call (.ran n))
  | script : (s.heap.nodes n).skip = false → (s.heap.nodeData n).func = .script →
      RunsNode s l n ((s.mapHeap (·.enterNode l n)).call (.func n))
  | control {f} : (s.heap.nodes n).skip = false → (s.heap.nodeData n).func = f →
      f ≠ .null → f ≠ .script → RunsNode s l n
        ((s.mapHeap fun h => ((h.enterNode l n).callControl f).2.returnNode n
          (.ofBool ((h.enterNode l n).callControl f).1)).call (.ran n))

theorem nodeData_enterNode (h : Heap) (l : ℕ) (n m : NodeRef) :
    (h.enterNode l n).nodeData m = h.nodeData m := by
  unfold Heap.enterNode
  dsimp only
  split <;> rfl

theorem runsNode (s : State) (l : ℕ) (n : NodeRef) : RunsNode s l n (s.runNode l n) := by
  unfold runNode
  dsimp only
  have hd : (s.mapHeap (·.enterNode l n)).heap.nodeData n = s.heap.nodeData n :=
    nodeData_enterNode s.heap l n n
  rw [hd]
  split
  · exact .skip ‹_›
  · rename_i hs
    have hs' : (s.heap.nodes n).skip = false := by simpa using hs
    split
    · exact .null hs' ‹_›
    · exact .script hs' ‹_›
    · rename_i h1 h2
      exact .control hs' rfl h1 h2

/-- The shape after work of the innermost flow. -/
theorem shaped_of_within (hs : s.Shaped) (hl : s.heap.currentIndex = l) (hl0 : l ≠ 0)
    (hu : s.heap.Uses l c) (hn : Nest s.heap rest (l - 1)) (hw : Heap.Within l c s.heap t.heap)
    (hf : t.heap.Uses l c → Nest t.heap rest (l - 1) → Stacked t.heap t.frames l) : t.Shaped where
  stacked := by
    rw [hw.index, hl]
    exact hf (hw.uses hu) (hn.of_steady fun k hk => hw.steady k (by omega))
  idle k hk := by
    rw [hw.index] at hk
    rw [(hw.steady k (by omega)).current]
    exact hs.idle k hk

theorem shaped_of_runNode {k : ℕ} {r : Bool} (hs : s.Shaped) (hl : s.heap.currentIndex = l)
    (hl0 : l ≠ 0) (hu : s.heap.Uses l c) (hn : Nest s.heap rest (l - 1))
    (hm : n ∈ (s.heap.stack l).nodeList) (hf : s.frames = .flow l c k r :: rest) :
    (s.runNode l n).Shaped := by
  obtain ⟨l, rfl⟩ := Nat.exists_eq_succ_of_ne_zero hl0
  obtain rfl : n.chart = c := hu.nodes n hm
  have he : Heap.Within (l + 1) n.chart s.heap (s.heap.enterNode (l + 1) n) :=
    Heap.within_enterNode hm
  have hcur : ((s.heap.enterNode (l + 1) n).stack (l + 1)).currentNode = some n := by
    unfold Heap.enterNode
    dsimp only
    split <;> simp [Heap.stack_setExecutor]
  have hr := runsNode s (l + 1) n
  generalize s.runNode (l + 1) n = t at hr ⊢
  cases hr with
  | skip _ | null _ _ =>
    exact shaped_of_within hs hl hl0 hu hn he fun hu hn => by
      simpa only [call, mapHeap, hf] using Stacked.ran hu hcur hn
  | script _ _ =>
    exact shaped_of_within hs hl hl0 hu hn he fun hu hn => by
      simpa only [call, mapHeap, hf] using Stacked.nest (.func hu hcur hn)
  | @control f _ _ _ _ =>
    have hd : Heap.Does (fun _ => False) (fun _ => True) (fun _ => False)
      (s.heap.enterNode (l + 1) n)
        (((s.heap.enterNode (l + 1) n).callControl f).2.returnNode n
          (.ofBool ((s.heap.enterNode (l + 1) n).callControl f).1)) :=
      (Heap.does_callControl _ f).trans (Heap.does_returnNode _ n _)
    refine shaped_of_within hs hl hl0 hu hn (he.trans (Heap.within_of_does hd)) fun hu hn => ?_
    have hcur' := (Heap.steady_of_does (l := l + 1) hd id).current.trans hcur
    simpa only [call, mapHeap, hf] using Stacked.ran hu hcur' hn

theorem shaped_of_flow {k : ℕ} {r : Bool} (hw : s.Wf) (hs : s.Shaped)
    (hf : s.frames = .flow l c k r :: rest) : (s.flowRound cfg l c k r rest).Shaped := by
  have hst := hs.stacked
  rw [hf] at hst
  obtain ⟨hl, hl0, hu, hn⟩ := hst.flow_inv
  rw [hl] at hl0 hu hn
  obtain ⟨l, rfl⟩ := Nat.exists_eq_succ_of_ne_zero hl0
  have hr := rounds cfg s (l + 1) c k r rest
  generalize s.flowRound cfg (l + 1) c k r rest = t at hr ⊢
  cases hr with
  | ends _ =>
    exact shaped_of_within hs hl hl0 hu hn (Heap.within_restoreHistory _) fun hu hn => .ended hu hn
  | cut _ _ =>
    exact shaped_of_within hs hl hl0 hu hn
      ((Heap.within_cutFlow _).trans (Heap.within_restoreHistory _)) fun hu hn => .ended hu hn
  | waiting _ _ _ _ _ =>
    exact shaped_of_within hs hl hl0 hu hn (Heap.within_pop _) fun hu hn => .flow hu hn
  | @defer n ns hlist _ _ _ _ _ =>
    have hd : Heap.Does (fun _ => False) (fun _ => True) (fun _ => False) s.heap
        (s.heap.deferTick cfg (l + 1) n) :=
      Heap.does_deferTick (hw.born.linked (.executor (l + 1)) n (by simp [Heap.content, hlist]))
    exact shaped_of_within hs hl hl0 hu hn (Heap.within_of_does hd) fun hu hn => .flow hu hn
  | @run n ns hlist _ _ _ _ =>
    have hs' : ({ s with frames := .flow (l + 1) c (k + 1) r :: rest } : State).Shaped :=
      shaped_of_within hs hl hl0 hu hn (.refl _) fun hu hn => .flow hu hn
    exact shaped_of_runNode hs' hl hl0 hu hn (by simp [hlist]) rfl

theorem shaped_of_ran {k : ℕ} {r : Bool} (hs : s.Shaped)
    (hf : s.frames = .ran n :: .flow l c k r :: rest) : (s.flowFinish n l c k r rest).Shaped := by
  have hst := hs.stacked
  rw [hf] at hst
  obtain ⟨k', r', rest', hl0, hfs, hu, hcur, hn⟩ := hst.ran_inv
  obtain ⟨⟨hl, rfl, rfl, rfl⟩, rfl⟩ : (l = s.heap.currentIndex ∧ c = n.chart ∧ k = k' ∧ r = r') ∧
      rest = rest' := by simpa using hfs
  rw [← hl] at hl0 hu hn
  obtain ⟨l, rfl⟩ := Nat.exists_eq_succ_of_ne_zero hl0
  exact shaped_of_within hs hl.symm hl0 hu hn (Heap.within_finishNode s.heap rfl)
    fun hu hn => .flow hu hn

/-- A flow that ends gives its executor back. -/
theorem shaped_of_close {h : Heap} (hs : s.Shaped) (hl : s.heap.currentIndex = l) (hl0 : l ≠ 0)
    (hn : Nest s.heap rest (l - 1))
    (hw : Heap.Does (fun _ => False) (fun _ => True) (fun _ => False) s.heap h)
    (hh : t.heap = h.closeFlow l) (hf : t.frames = rest) : t.Shaped := by
  have hst : ∀ k, k ≠ l → s.heap.Steady t.heap k := by
    intro k hk
    have hc : h.Steady (h.setExecutor l ({ · with currentNode := none, currentAgent := none })) k :=
      Heap.steady_setExecutor hk h _
    rw [hh]
    exact (Heap.steady_of_does hw id).trans (hc.congr rfl)
  have hidx : t.heap.currentIndex = l - 1 := by
    rw [hh]
    rfl
  refine ⟨?_, fun k hk => ?_⟩
  · rw [hidx, hf]
    exact .nest (hn.of_steady fun k hk => hst k (by omega))
  · rw [hidx] at hk
    rcases eq_or_ne k l with rfl | hkl
    · simp [hh, Heap.closeFlow, Heap.stack_setExecutor]
    · rw [(hst k hkl).current]
      exact hs.idle k (by omega)

theorem shaped_of_ended {r : Bool} (hs : s.Shaped) (hf : s.frames = .ended l c r :: rest) :
    (s.flowCheck l c r rest).Shaped := by
  have hst := hs.stacked
  rw [hf] at hst
  obtain ⟨hl, hl0, hu, hn⟩ := hst.ended_inv
  rw [hl] at hl0 hu hn
  unfold flowCheck
  split
  · obtain ⟨l, rfl⟩ := Nat.exists_eq_succ_of_ne_zero hl0
    have hn' : Nest s.heap (.flowReturn (l + 1) c :: rest) s.heap.currentIndex := by
      rw [hl]
      exact .flowReturn hu hn
    exact shaped_of_calls hn' hs.idle
      (does_chartReturn { s with frames := .flowReturn (l + 1) c :: rest } c true)
      (pushed_chartReturn ..)
  · exact shaped_of_close hs hl hl0 hn (.refl _) rfl rfl

theorem shaped_of_flowReturn (hs : s.Shaped) (hf : s.frames = .flowReturn l c :: rest) :
    (s.flowReturned l c rest).Shaped := by
  have hst := hs.stacked
  rw [hf] at hst
  have hn : Nest s.heap (.flowReturn l c :: rest) s.heap.currentIndex := by
    cases hst with
    | nest hn => exact hn
  obtain ⟨hl, hl0, hu, hn⟩ := hn.flowReturn_inv
  rw [hl] at hl0 hu hn
  have hd : Heap.Does (fun _ => False) (fun _ => True) (fun _ => False) s.heap
      (s.heap.setChart c ({ · with status := .idle })) :=
    Heap.does_setChart _ c (fun _ => ⟨⟨rfl, rfl⟩, rfl, fun hi => nomatch hi⟩) fun _ _ => .inl rfl
  exact shaped_of_close hs hl hl0 hn hd rfl rfl

/-- User code of a node function returns. -/
theorem shaped_of_ret {r : NodeResult} (hs : s.Shaped) (hf : s.frames = .func n :: rest) :
    (({ s with frames := rest }.mapHeap (·.returnNode n r)).call (.ran n)).Shaped := by
  have hst := hs.stacked
  rw [hf] at hst
  obtain ⟨k, r', rest', hl0, rfl, hu, hcur, hn⟩ := hst.nest_of_func.func_inv
  refine shaped_of_within hs rfl hl0 hu hn
    (Heap.within_of_does (Heap.does_returnNode s.heap n r)) fun hu hn => ?_
  obtain ⟨l, hl⟩ := Nat.exists_eq_succ_of_ne_zero hl0
  rw [hl] at hu hn hcur ⊢
  exact .ran hu hcur hn

/-- **The call stack keeps its shape.** -/
theorem shaped_of_step (hw : s.Wf) (hs : s.Shaped) (h : s.step cfg a = some t) : t.Shaped := by
  have hst := hs.stacked
  -- When a call is innermost, every flow is suspended, and so they are below it.
  have hcall : ∀ {f fs}, s.frames = f :: fs → f.isCall →
      Nest s.heap s.frames s.heap.currentIndex ∧ Nest s.heap fs s.heap.currentIndex := by
    intro f fs hf hc
    rw [hf] at hst ⊢
    exact ⟨hst.nest_of_call hc, (hst.nest_of_call hc).tail hc⟩
  cases (trans_of_step h).1 with
  | enter hf => exact shaped_of_enter hw hs hf
  | continuing hf => exact shaped_of_continuing hs hf
  | flow hf => exact shaped_of_flow hw hs hf
  | ran hf => exact shaped_of_ran hs hf
  | ended hf => exact shaped_of_ended hs hf
  | flowReturn hf => exact shaped_of_flowReturn hs hf
  | ret r hf => exact shaped_of_ret hs hf
  | @returning c rest hf =>
    exact shaped_of_calls (hcall hf trivial).2 hs.idle
      (does_finishReturn { s with frames := rest } c) (pushed_finishReturn ..)
  | @handle ev rest hf =>
    unfold handleRound
    split
    · exact shaped_of_calls (hcall hf trivial).2 hs.idle (.refl _) ⟨[], rfl, by simp⟩
    · rename_i r rs hh
      split
      · rename_i hr
        exact shaped_of_calls (hcall hf trivial).2 hs.idle
          (.of_move (Heap.Move.dropHandling hh hr)) ⟨[], rfl, by simp⟩
      · rename_i n ns hr
        exact shaped_of_calls (hcall hf trivial).1 hs.idle (.of_move (Heap.Move.deliver hh hr))
          ⟨[.enter n], rfl, by simp [Frame.isCall]⟩
  | @async rest hf =>
    have hsound := sound_of_step h
    unfold asyncRound
    split
    · exact shaped_of_calls (hcall hf trivial).2 hs.idle (.refl _)
        ⟨[.events], rfl, by simp [Frame.isCall]⟩
    · rename_i n ns ha
      exact shaped_of_calls (hcall hf trivial).1 hs.idle (does_resumeNode ha hsound)
        ⟨[.enter n], rfl, by simp [Frame.isCall]⟩
  | @events rest hf =>
    unfold eventsRound
    split
    · exact shaped_of_calls (hcall hf trivial).2 hs.idle (.refl _)
        ⟨[.dying s.heap.destroying], rfl, by simp [Frame.isCall]⟩
    · rename_i ev evs hq
      dsimp only
      split
      · exact shaped_of_calls (hcall hf trivial).1 hs.idle (.refl _)
          ⟨[.deleteEvent ev], rfl, by simp [Frame.isCall]⟩
      · exact shaped_of_calls (hcall hf trivial).1 hs.idle
          (.of_move (Heap.Move.swap ev.agent ev.id))
          ⟨[.handle ev, .deleteEvent ev], rfl, by simp [Frame.isCall]⟩
  | @dying as rest hf =>
    unfold dyingRound
    split
    · exact shaped_of_calls (hcall hf trivial).2 hs.idle (Heap.does_swapDying trivial _)
        ⟨[], rfl, by simp⟩
    · rename_i a as
      exact shaped_of_calls (hcall hf trivial).2 hs.idle (.refl _)
        ⟨[.release a, .dying as], rfl, by simp [Frame.isCall]⟩
  | @released a rest hf =>
    exact shaped_of_calls (hcall hf trivial).2 hs.idle
      (Heap.does_destroyAgent trivial _ cfg.events a)
      ⟨[], rfl, by simp⟩
  | op hm ho =>
    exact shaped_of_calls (nest_of_mayCall hst hm) hs.idle
      (does_runOp hw.born (ub_of_sound (sound_of_step h)) ho fun _ _ => trivial)
      (pushes_runOp hw.born (ub_of_sound (sound_of_step h)) ho).calls
  | fire hf hn =>
    exact shaped_of_calls (hcall hf trivial).1 hs.idle (Heap.does_act .fire False.elim)
      ⟨[.enter _], rfl, by simp [Frame.isCall]⟩
  | tick hf ha =>
    exact shaped_of_calls (hcall hf trivial).1 hs.idle (does_event ..) (pushed_event ..)
  | timersDone hf =>
    exact shaped_of_calls (hcall hf trivial).2 hs.idle (.refl _)
      ⟨[.async], rfl, by simp [Frame.isCall]⟩
  | starting hf | trigger hf | deleteEvent hf | done hf =>
    exact shaped_of_calls (hcall hf trivial).2 hs.idle (.refl _) ⟨[], rfl, by simp⟩

theorem shaped_init : init.Shaped := ⟨.nest .nil, fun _ _ => rfl⟩

/-- **Every reachable state has a shaped call stack.** -/
theorem shaped_of_reachable (h : Reachable cfg s) : s.Shaped := by
  have hi := h.invariant (I := fun s => s.Wf ∧ s.Shaped) ⟨wf_init, shaped_init⟩
    fun u a v hi _ hs => ⟨wf_of_step hi.1 hs, shaped_of_step hi.1 hi.2 hs⟩
  exact hi.2

end State

end Asyncflow
