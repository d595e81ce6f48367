import Asyncflow.Moves.CallStack

/-!
# The history lists between flows

The history list of an executor is filled in the loop of `DfsExecutor::RunFlow` and cleared
after it: outside the loop it is empty, so that a flow starts with an empty list, and in the
loop it holds nodes of the chart of the flow only.
-/

namespace Asyncflow

namespace Heap

theorem history_restoreHistory (h : Heap) (l : ℕ) :
    ((h.restoreHistory l).stack l).historyNodes = [] := by
  rw [restoreHistory, stack_setExecutor, if_pos rfl]

theorem history_addChild (h : Heap) (k l : ℕ) (n : NodeRef) (i : ℕ) :
    ((h.addChild k n i).stack l).historyNodes = (h.stack l).historyNodes := by
  unfold addChild
  split
  · exact historyNodes_push (h.act ..) ..
  · rfl

theorem mem_history_pop {h : Heap} {l : ℕ} {m : NodeRef}
    (hm : m ∈ ((h.pop l).stack l).historyNodes) :
    m ∈ (h.stack l).historyNodes ∨ m ∈ (h.stack l).nodeList := by
  rcases hl : (h.stack l).nodeList with - | ⟨n, ns⟩
  · simp only [pop, hl] at hm
    exact .inl hm
  · have hs : ((h.pop l).stack l).historyNodes = n :: (h.stack l).historyNodes := by
      simp only [pop, hl]
      split <;> simp [stack_setExecutor]
    rw [hs] at hm
    rcases List.mem_cons.mp hm with rfl | hm
    · exact .inr List.mem_cons_self
    · exact .inl hm

/-- The nodes that the end of a round adds to the history list were pending. -/
theorem mem_history_finishNode {h : Heap} {l : ℕ} {n m : NodeRef}
    (hm : m ∈ ((h.finishNode l n).stack l).historyNodes) :
    m ∈ (h.stack l).historyNodes ∨ m ∈ (h.stack l).nodeList := by
  have hp : m ∈ ((h.popHeld l n).stack l).historyNodes →
      m ∈ (h.stack l).historyNodes ∨ m ∈ (h.stack l).nodeList := by
    unfold popHeld
    split
    · exact mem_history_pop
    · exact .inl
  refine hp ?_
  have hchildren : ∀ (ids : List ℕ) (g : Heap),
      ((ids.foldl (fun g i => g.addChild l n i) g).stack l).historyNodes =
        (g.stack l).historyNodes := by
    intro ids
    induction ids with
    | nil => exact fun _ => rfl
    | cons i ids ih => exact fun g => (ih _).trans (history_addChild ..)
  unfold finishNode addSubsequenceNodes at hm
  dsimp only at hm
  split at hm
  · exact hm
  · split at hm
    · exact hm
    · rw [hchildren] at hm
      exact hm

theorem history_closeFlow (h : Heap) (k l : ℕ) :
    ((h.closeFlow k).stack l).historyNodes = (h.stack l).historyNodes :=
  executor_setExecutor h DfsExecutor.historyNodes
    (f := ({ · with currentNode := none, currentAgent := none })) (by intro; rfl) k l

end Heap

namespace State

variable {cfg : Config} {s t : State} {a : Act} {fs : List Frame}

/-- The executor is in the loop of a flow. -/
def Loops (fs : List Frame) (l : ℕ) : Prop := ∃ c k r, .flow l c k r ∈ fs

/-- **The history list of an executor is empty outside its loop.** -/
def Tidy (s : State) : Prop := ∀ l, ¬Loops s.frames l → (s.heap.stack l).historyNodes = []

/-- The executor is in the loop of a flow of the chart. -/
def LoopsOn (fs : List Frame) (l : ℕ) (c : ChartId) : Prop := ∃ k r, .flow l c k r ∈ fs

/-- **The nodes of a history list belong to the chart of the flow in whose loop the executor
is.** -/
def Kept (s : State) : Prop :=
  ∀ l, ∀ m ∈ (s.heap.stack l).historyNodes, LoopsOn s.frames l m.chart

theorem Kept.tidy (hk : s.Kept) : s.Tidy := by
  intro l hl
  refine List.eq_nil_iff_forall_not_mem.mpr fun m hm => hl ?_
  obtain ⟨k, r, hf⟩ := hk l m hm
  exact ⟨_, k, r, hf⟩

theorem kept_of_does {flows : ℕ → Prop} (hk : s.Kept)
    (hd : Heap.Does flows (fun _ => True) (fun _ => False) s.heap t.heap)
    (hf : ∀ l c, ¬flows l → LoopsOn s.frames l c → LoopsOn t.frames l c)
    (hfl : ∀ l, flows l → ∀ m ∈ (t.heap.stack l).historyNodes, LoopsOn t.frames l m.chart) :
    t.Kept := by
  intro l m hm
  by_cases hl : flows l
  · exact hfl l hl m hm
  · rw [Heap.history_of_does hd hl] at hm
    exact hf l _ hl (hk l m hm)

theorem loopsOn_cons {f : Frame} {l : ℕ} {c : ChartId} (h : LoopsOn fs l c) :
    LoopsOn (f :: fs) l c := by
  obtain ⟨k, r, hm⟩ := h
  exact ⟨k, r, List.mem_cons_of_mem _ hm⟩

/-- A frame that is not the loop of a flow. -/
theorem loopsOn_of_cons {f : Frame} {l : ℕ} {c : ChartId} (hf : ∀ c k r, f ≠ .flow l c k r)
    (h : LoopsOn (f :: fs) l c) : LoopsOn fs l c := by
  obtain ⟨k, r, hm⟩ := h
  rcases List.mem_cons.mp hm with he | hm
  · exact absurd he.symm (hf c k r)
  · exact ⟨k, r, hm⟩

/-- Frames pushed on a part of the call stack that has the loops. -/
theorem loopsOn_append {gs : List Frame} {l : ℕ} {c : ChartId} (h : LoopsOn fs l c) :
    LoopsOn (gs ++ fs) l c := by
  obtain ⟨k, r, hm⟩ := h
  exact ⟨k, r, List.mem_append_right _ hm⟩

theorem kept_of_calls (hk : s.Kept)
    (hd : Heap.Does (fun _ => False) (fun _ => True) (fun _ => False) s.heap t.heap)
    (hfs : ∀ l c, LoopsOn s.frames l c → LoopsOn fs l c) (hf : ∃ gs, t.frames = gs ++ fs) :
    t.Kept := by
  obtain ⟨gs, hgs⟩ := hf
  refine kept_of_does hk hd (fun l c _ hl => ?_) fun _ => False.elim
  rw [hgs]
  exact loopsOn_append (hfs l c hl)

/-- A loop that goes on: the nodes it adds to the history list were pending. -/
theorem kept_of_loop {l k : ℕ} {c : ChartId} {r : Bool} {rest : List Frame} (g : List Frame)
    (hk : s.Kept) (hu : s.heap.Uses l c)
    (hd : Heap.Does (· = l) (fun _ => True) (fun _ => False) s.heap t.heap)
    (hm : ∀ m ∈ (t.heap.stack l).historyNodes,
      m ∈ (s.heap.stack l).historyNodes ∨ m ∈ (s.heap.stack l).nodeList)
    (hsf : ∀ l' c', LoopsOn s.frames l' c' → l' = l ∧ c' = c ∨ LoopsOn rest l' c')
    (htf : t.frames = g ++ .flow l c k r :: rest) : t.Kept := by
  have hin : LoopsOn t.frames l c := ⟨k, r, by simp [htf]⟩
  have hall : ∀ l' c', LoopsOn s.frames l' c' → LoopsOn t.frames l' c' := by
    intro l' c' hl
    rcases hsf l' c' hl with ⟨rfl, rfl⟩ | hl
    · exact hin
    · rw [htf]
      exact loopsOn_append (loopsOn_cons hl)
  refine kept_of_does hk hd (fun l' c' _ => hall l' c') ?_
  rintro _ rfl m hmt
  rcases hm m hmt with hm | hm
  · exact hall _ _ (hk _ m hm)
  · rw [hu.nodes m hm]
    exact hin

/-- A loop that is left: the history list is cleared. -/
theorem kept_of_leave {l k : ℕ} {c : ChartId} {r : Bool} {rest : List Frame} (hk : s.Kept)
    (hf : s.frames = .flow l c k r :: rest)
    (hd : Heap.Does (· = l) (fun _ => True) (fun _ => False) s.heap t.heap)
    (hm : (t.heap.stack l).historyNodes = []) (htf : t.frames = .ended l c r :: rest) : t.Kept := by
  refine kept_of_does hk hd (fun l' c' hne hl => ?_) ?_
  · rw [htf]
    rw [hf] at hl
    refine loopsOn_cons (loopsOn_of_cons ?_ hl)
    intro c'' k' r' he
    exact hne (Frame.flow.inj he).1.symm
  · rintro _ rfl m hmt
    rw [hm] at hmt
    cases hmt

/-- A step that leaves the history lists as they were. -/
theorem kept_of_history (hk : s.Kept)
    (hh : ∀ l, (t.heap.stack l).historyNodes = (s.heap.stack l).historyNodes)
    (hf : ∀ l c, LoopsOn s.frames l c → LoopsOn t.frames l c) : t.Kept := by
  intro l m hm
  rw [hh] at hm
  exact hf l _ (hk l m hm)

/-- The loops of a call stack whose innermost call is left. -/
theorem loopsOn_tail {f : Frame} (hf : s.frames = f :: fs) (hne : ∀ c k r l, f ≠ .flow l c k r)
    (l : ℕ) (c : ChartId) (hl : LoopsOn s.frames l c) : LoopsOn fs l c := by
  rw [hf] at hl
  exact loopsOn_of_cons (fun c k r => hne c k r l) hl

theorem loopsOn_flow {l k l' : ℕ} {c c' : ChartId} {r : Bool}
    (hl : LoopsOn (.flow l c k r :: fs) l' c') : l' = l ∧ c' = c ∨ LoopsOn fs l' c' := by
  obtain ⟨k', r', hm⟩ := hl
  rcases List.mem_cons.mp hm with he | hm
  · obtain ⟨rfl, rfl, -⟩ := Frame.flow.inj he
    exact .inl ⟨rfl, rfl⟩
  · exact .inr ⟨k', r', hm⟩

/-! ### The steps -/

theorem kept_refuse (hw : s.Wf) (ht : s.Kept) {n : NodeRef} {rest : List Frame}
    (hf : s.frames = .enter n :: rest) : (s.refuse cfg n rest).Kept := by
  have hd : Heap.Does (fun _ => False) (fun _ => True) (fun _ => False) s.heap
      (s.refuse cfg n rest).heap := does_refuse hw hf
  refine kept_of_does ht hd (fun l c _ hl => ?_) fun _ => False.elim
  have hr := loopsOn_tail hf (by simp) l c hl
  unfold refuse
  split
  · rw [frames_startLater]
    exact loopsOn_of_cons (by simp) hr
  · rw [frames_continueLater]
    exact hr
  · exact hr

theorem kept_enterFlow (hw : s.Wf) (ht : s.Kept) {n : NodeRef} {rest : List Frame}
    (hf : s.frames = .enter n :: rest) : (s.enterFlow cfg n rest).Kept := by
  have he := enters cfg s n rest
  generalize s.enterFlow cfg n rest = t at he ⊢
  cases he with
  | refused hl => exact kept_refuse hw ht hf
  | gone ha => exact kept_of_calls ht (Heap.does_crash _) (fun _ _ => id) ⟨[], rfl⟩
  | @flow b hl ha har hcr =>
    -- The executor is a new one, and its history list is empty.
    refine kept_of_history ht (fun l => ?_) fun l c hl =>
      loopsOn_cons (loopsOn_tail hf (by simp) l c hl)
    have hs := Heap.executor_setExecutor (s.heap.act n ({ · with status := .idle }) (.flow n))
      DfsExecutor.historyNodes (f := ({ · with currentAgent := some b, nodeList := [] }))
      (by intro; rfl) (s.heap.currentIndex + 1) l
    exact (Heap.historyNodes_push _ n (.executor (s.heap.currentIndex + 1)) l).trans hs
  | @skipped b hl ha hr =>
    exact kept_of_history ht (fun l => Heap.executor_setExecutor s.heap DfsExecutor.historyNodes
      (f := ({ · with currentAgent := some b })) (by intro; rfl) (s.heap.currentIndex + 1) l)
      (loopsOn_tail hf (by simp))

theorem kept_continueFlow (ht : s.Kept) {n : NodeRef} {rest : List Frame}
    (hf : s.frames = .continuing n :: rest) : (s.continueFlow n rest).Kept := by
  unfold continueFlow
  dsimp only
  split
  · exact kept_of_calls ht (Heap.does_crash _) (fun _ _ => id) ⟨[], rfl⟩
  · split
    · exact kept_of_history ht (fun l => Heap.historyNodes_push
        (s.heap.act n ({ · with runFlag := true }) (.goOn n)) n
          (.executor (s.heap.currentIndex - 1)) l)
        (loopsOn_tail hf (by simp))
    · exact kept_of_calls ht (.refl _) (loopsOn_tail hf (by simp)) ⟨[.enter n], rfl⟩

theorem history_enterNode (h : Heap) (l : ℕ) (n : NodeRef) :
    ((h.enterNode l n).stack l).historyNodes = (h.stack l).historyNodes := by
  unfold Heap.enterNode
  dsimp only
  split <;> simp [Heap.stack_setExecutor]

theorem kept_flowRound (hw : s.Wf) (hs : s.Shaped) (ht : s.Kept) {l k : ℕ} {c : ChartId} {r : Bool}
    {rest : List Frame} (hf : s.frames = .flow l c k r :: rest) :
    (s.flowRound cfg l c k r rest).Kept := by
  have hst := hs.stacked
  rw [hf] at hst
  obtain ⟨hl, -, hu, -⟩ := hst.flow_inv
  rw [hl] at hu
  have hd : Heap.Does (· = l) (fun _ => True) (fun _ => False) s.heap
      (s.flowRound cfg l c k r rest).heap := does_flowRound hw.born (by rfl) ..
  have hr := rounds cfg s l c k r rest
  have hsf : ∀ l' c', LoopsOn s.frames l' c' → l' = l ∧ c' = c ∨ LoopsOn rest l' c' := by
    intro l' c' hl
    rw [hf] at hl
    exact loopsOn_flow hl
  generalize s.flowRound cfg l c k r rest = t at hr hd ⊢
  cases hr with
  | ends _ => exact kept_of_leave ht hf hd (Heap.history_restoreHistory _ l) rfl
  | cut _ _ => exact kept_of_leave ht hf hd (Heap.history_restoreHistory _ l) rfl
  | waiting _ _ _ _ _ => exact kept_of_loop [] ht hu hd (fun _ => Heap.mem_history_pop) hsf rfl
  | @defer n ns hlist _ _ _ _ _ =>
    have hd' : Heap.Does (fun _ => False) (fun _ => True) (fun _ => False) s.heap
        (s.heap.deferTick cfg l n) :=
      Heap.does_deferTick (hw.born.linked (.executor l) n (by simp [Heap.content, hlist]))
    refine kept_of_loop [] ht hu hd (fun m hm => .inl ?_) hsf rfl
    exact Heap.history_of_does (l := l) hd' id ▸ hm
  | @run n ns hlist _ _ _ _ =>
    have hn := runsNode { s with frames := .flow l c (k + 1) r :: rest } l n
    have hent := history_enterNode s.heap l n
    generalize State.runNode _ l _ = w at hn hd ⊢
    cases hn with
    | skip | null => exact kept_of_loop [.ran _] ht hu hd (fun m hm => .inl (hent ▸ hm)) hsf rfl
    | script => exact kept_of_loop [.func _] ht hu hd (fun m hm => .inl (hent ▸ hm)) hsf rfl
    | @control f _ _ _ _ =>
      have hc : Heap.Does (fun _ => False) (fun _ => True) (fun _ => False)
          (s.heap.enterNode l n) (((s.heap.enterNode l n).callControl f).2.returnNode n
            (.ofBool ((s.heap.enterNode l n).callControl f).1)) :=
        (Heap.does_callControl _ f).trans (Heap.does_returnNode _ n _)
      refine kept_of_loop [.ran _] ht hu hd (fun m hm => .inl ?_) hsf rfl
      exact ((Heap.history_of_does (l := l) hc id).trans hent) ▸ hm

theorem kept_flowFinish (hw : s.Wf) (hs : s.Shaped) (ht : s.Kept) {l k : ℕ} {n : NodeRef}
    {c : ChartId} {r : Bool} {rest : List Frame}
    (hf : s.frames = .ran n :: .flow l c k r :: rest) : (s.flowFinish n l c k r rest).Kept := by
  have hst := hs.stacked
  rw [hf] at hst
  obtain ⟨_, _, _, -, he, hu, -, -⟩ := hst.ran_inv
  obtain ⟨⟨rfl, rfl, -⟩, -⟩ : (l = s.heap.currentIndex ∧ c = n.chart ∧ _) ∧ _ := by
    simpa using he
  have hd : Heap.Does (· = s.heap.currentIndex) (fun _ => True) (fun _ => False) s.heap
      (s.heap.finishNode s.heap.currentIndex n) := Heap.does_finishNode rfl hw.born
  exact kept_of_loop [] ht hu hd (fun _ => Heap.mem_history_finishNode)
    (fun l' c' hl => loopsOn_flow (loopsOn_tail hf (by simp) l' c' hl)) rfl

theorem kept_flowCheck (ht : s.Kept) {l : ℕ} {c : ChartId} {r : Bool} {rest : List Frame}
    (hf : s.frames = .ended l c r :: rest) : (s.flowCheck l c r rest).Kept := by
  unfold flowCheck
  split
  · obtain ⟨gs, hgs, -⟩ := pushed_chartReturn { s with frames := .flowReturn l c :: rest } c true
    exact kept_of_calls ht (does_chartReturn { s with frames := .flowReturn l c :: rest } c true)
      (fun l' c' hm => loopsOn_cons (loopsOn_tail hf (by simp) l' c' hm)) ⟨gs, hgs⟩
  · exact kept_of_history ht (fun l' => Heap.history_closeFlow s.heap l l')
      (loopsOn_tail hf (by simp))

theorem kept_handleRound (ht : s.Kept) {ev : Event} {rest : List Frame}
    (hf : s.frames = .handle ev :: rest) : (s.handleRound rest).Kept := by
  unfold handleRound
  split
  · exact kept_of_calls ht (.refl _) (loopsOn_tail hf (by simp)) ⟨[], rfl⟩
  · rename_i r rs hh
    split
    · rename_i hr
      exact kept_of_calls ht (.of_move (Heap.Move.dropHandling hh hr)) (loopsOn_tail hf (by simp))
        ⟨[], rfl⟩
    · rename_i n ns hr
      exact kept_of_calls ht (.of_move (Heap.Move.deliver hh hr)) (fun _ _ => id)
        ⟨[.enter n], rfl⟩

theorem kept_eventsRound (ht : s.Kept) {rest : List Frame} (hf : s.frames = .events :: rest) :
    (s.eventsRound cfg rest).Kept := by
  unfold eventsRound
  split
  · exact kept_of_calls ht (.refl _) (loopsOn_tail hf (by simp)) ⟨[.dying _], rfl⟩
  · rename_i ev evs hq
    dsimp only
    split
    · exact kept_of_calls ht (.refl _) (fun _ _ => id) ⟨[.deleteEvent ev], rfl⟩
    · exact kept_of_calls ht (.of_move (Heap.Move.swap ev.agent ev.id)) (fun _ _ => id)
        ⟨[.handle ev, .deleteEvent ev], rfl⟩

theorem kept_of_step (hw : s.Wf) (hs : s.Shaped) (ht : s.Kept) (h : s.step cfg a = some t) :
    t.Kept := by
  have hpush : ∀ {gs}, (∃ ns, gs = ns ++ s.frames ∧ ∀ f ∈ ns, f.isCall) →
      ∃ ns, gs = ns ++ s.frames := by
    rintro gs ⟨ns, hns, -⟩
    exact ⟨ns, hns⟩
  cases (trans_of_step h).1 with
  | enter hf => exact kept_enterFlow hw ht hf
  | continuing hf => exact kept_continueFlow ht hf
  | flow hf => exact kept_flowRound hw hs ht hf
  | ran hf => exact kept_flowFinish hw hs ht hf
  | ended hf => exact kept_flowCheck ht hf
  | @flowReturn l c rest hf =>
    exact kept_of_history ht
      (fun l' => Heap.history_closeFlow (s.heap.setChart c ({ · with status := .idle })) l l')
      (loopsOn_tail hf (by simp))
  | @returning c rest hf =>
    obtain ⟨gs, hgs, -⟩ := pushed_finishReturn { s with frames := rest } c
    exact kept_of_calls ht (does_finishReturn { s with frames := rest } c)
      (loopsOn_tail hf (by simp)) ⟨gs, hgs⟩
  | handle hf => exact kept_handleRound ht hf
  | @async rest hf =>
    have hsound := sound_of_step h
    unfold asyncRound
    split
    · exact kept_of_calls ht (.refl _) (loopsOn_tail hf (by simp)) ⟨[.events], rfl⟩
    · rename_i n ns ha
      exact kept_of_calls ht (does_resumeNode ha hsound) (fun _ _ => id) ⟨[.enter n], rfl⟩
  | events hf => exact kept_eventsRound ht hf
  | @dying as rest hf =>
    unfold dyingRound
    split
    · exact kept_of_calls ht (Heap.does_swapDying trivial _) (loopsOn_tail hf (by simp)) ⟨[], rfl⟩
    · rename_i a as
      exact kept_of_calls ht (.refl _) (loopsOn_tail hf (by simp)) ⟨[.release a, .dying as], rfl⟩
  | @released a rest hf =>
    exact kept_of_calls ht (Heap.does_destroyAgent trivial _ cfg.events a)
      (loopsOn_tail hf (by simp)) ⟨[], rfl⟩
  | op hm ho =>
    have hub := ub_of_sound (sound_of_step h)
    exact kept_of_calls ht (does_runOp hw.born hub ho fun _ _ => trivial) (fun _ _ => id)
      (hpush (pushes_runOp hw.born hub ho).calls)
  | ret r hf =>
    exact kept_of_calls ht (Heap.does_returnNode ..) (loopsOn_tail hf (by simp)) ⟨[.ran _], rfl⟩
  | fire hf hn =>
    exact kept_of_calls ht (Heap.does_act .fire False.elim) (fun _ _ => id) ⟨[.enter _], rfl⟩
  | tick hf ha =>
    exact kept_of_calls ht (does_event ..) (fun _ _ => id) (hpush (pushed_event ..))
  | timersDone hf => exact kept_of_calls ht (.refl _) (loopsOn_tail hf (by simp)) ⟨[.async], rfl⟩
  | starting hf | trigger hf | deleteEvent hf | done hf =>
    exact kept_of_calls ht (.refl _) (loopsOn_tail hf (by simp)) ⟨[], rfl⟩

theorem kept_of_reachable (h : Reachable cfg s) : s.Kept := by
  have hi := h.invariant (I := fun s => s.Wf ∧ s.Shaped ∧ s.Kept)
    ⟨wf_init, shaped_init, fun _ _ hm => nomatch hm⟩ fun u a v hi _ hs =>
      ⟨wf_of_step hi.1 hs, shaped_of_step hi.1 hi.2.1 hs, kept_of_step hi.1 hi.2.1 hi.2.2 hs⟩
  exact hi.2.2

theorem tidy_of_reachable (h : Reachable cfg s) : s.Tidy := (kept_of_reachable h).tidy

end State

end Asyncflow
