import Asyncflow.Moves.Calls

/-!
# Run flags, skip flags and history lists

`Node::Run` sets the run flag of a node, and what clears it is its own run, the end of the
loop that popped it to a history list, or a stop. So a history list is not cleared before the
flags of its nodes are (`Asyncflow.Heap.runFlag_restoreNodes`), and a node whose run flag is
set was run or continued since it was last clear. The skip flag is set by the calls that make
a node wait, by a subchart that returns, by the continuation of an async node and by the start
of a chart.
-/

namespace Asyncflow

/-- The entries that set the run flag of a node. -/
def Obs.marks (n : NodeRef) : Obs → Prop
  | .run m | .goOn m => m = n
  | _ => False

/-- The entries that set the skip flag of a node. -/
def Obs.skips (n : NodeRef) : Obs → Prop
  | .timer m | .await m | .owner m _ _ | .continued m _ | .resume m _ => m = n
  | .cancelled m b => m = n ∧ b = false
  | .started c => n = ⟨c, 0⟩
  | _ => False

/-- The entries that set the run flag of a node, if `A`, or its skip flag, if `B`. -/
def Obs.raises (n : NodeRef) (A B : Prop) (o : Obs) : Prop := A ∧ o.marks n ∨ B ∧ o.skips n

/-- The run flag is clear, if `A`, and the skip flag, if `B`. -/
def Node.Clear (A B : Prop) (d : Node) : Prop := (A → d.runFlag = false) ∧ (B → d.skip = false)

namespace Heap

variable {h h' : Heap} {n m : NodeRef} {l : ℕ} {flows : ℕ → Prop} {may : Permit → Prop}
  {D : NodeRef → Prop} {A B : Prop}

/-! ### History lists -/

theorem history_activateNode (h : Heap) (n : NodeRef) (skip : Bool) (l : ℕ) :
    ((h.activateNode n skip).stack l).historyNodes = (h.stack l).historyNodes := by
  unfold activateNode
  split
  · rfl
  · exact historyNodes_push h n .activated l

/-- **What a move can do to a history list**: a flow pops a node to it, or clears it when the
run flags of its nodes have been cleared. -/
theorem histories_of_move (hm : Move flows may D h h') (l : ℕ) :
    (h'.stack l).historyNodes = (h.stack l).historyNodes ∨ flows l ∧
      ((∃ m, (h'.stack l).historyNodes = m :: (h.stack l).historyNodes) ∨
        ∀ m ∈ (h.stack l).historyNodes, (h.nodes m).runFlag = false) := by
  have hset : ∀ (g : Heap) (k : ℕ) {f : DfsExecutor → DfsExecutor},
      (∀ x, (f x).historyNodes = x.historyNodes) →
      ((g.setExecutor k f).stack l).historyNodes = (g.stack l).historyNodes :=
    fun g k _ hf => executor_setExecutor g DfsExecutor.historyNodes hf k l
  cases hm with
  | alike ha => exact .inl (ha.historyNodes l)
  | detach hn => exact .inl (historyNodes_detach ..)
  | removeFree k hc => exact .inl (historyNodes_remove ..)
  | @wait n a e hn => exact .inl (historyNodes_push h n (.waiting a e) l)
  | @suspend n hn =>
    exact .inl (historyNodes_push (h.setNode n ({ · with status := .running })) n .asyncWaiting l)
  | @continued n b hn ha =>
    exact .inl ((history_activateNode (h.removeNode n) n true l).trans (historyNodes_remove ..))
  | @cancelled n stop hn ha =>
    unfold cancelNode
    split
    · exact .inl (historyNodes_remove ..)
    · exact .inl ((history_activateNode (h.removeNode n) n true l).trans (historyNodes_remove ..))
  | resume skip r hc => exact .inl (historyNodes_remove (h.act ..) ..)
  | started hx hne =>
    simp only [markStarted, hx, hne, ↓reduceIte]
    exact .inl rfl
  | forget c =>
    unfold forgetChart setOwner
    split <;> exact .inl rfl
  | @beginFlow n k a hfl hn hv =>
    have hs := hset (h.act n ({ · with status := .idle }) (.flow n)) k
      (f := ({ · with currentAgent := some a, nodeList := [] })) fun _ => rfl
    exact .inl ((historyNodes_push _ n (.executor k) l).trans hs)
  | @pop n ns k hfl hk =>
    have hs : ((h.pop k).stack l).historyNodes = if l = k then n :: (h.stack l).historyNodes else
        (h.stack l).historyNodes := by
      have he : (h.pop k).stack = (h.setExecutor k fun x =>
          { x with nodeList := ns, historyNodes := n :: x.historyNodes }).stack := by
        simp only [pop, hk]
        split <;> rfl
      rw [he, stack_setExecutor]
      split <;> rfl
    rw [hs]
    split
    · subst l
      exact .inr ⟨hfl, .inl ⟨n, rfl⟩⟩
    · exact .inl rfl
  | current k hfl hn => exact .inl (hset h k fun _ => rfl)
  | child k hfl hi hn =>
    simp only [addChild, hi, ↓reduceIte]
    exact .inl (historyNodes_push (h.act ..) ..)
  | continueFlow k hfl hn => exact .inl (historyNodes_push (h.act ..) ..)
  | agent k a hfl => exact .inl (hset h k fun _ => rfl)
  | clearHistory k hfl hn =>
    rcases eq_or_ne l k with rfl | hk
    · exact .inr ⟨hfl, .inr hn⟩
    · refine .inl ?_
      rw [stack_setExecutor, if_neg hk]
  | closeFlow k hfl =>
    exact .inl (hset h k (f := ({ · with currentNode := none, currentAgent := none })) fun _ => rfl)
  | _ => exact .inl rfl

/-- A move that is not made on an executor keeps its history list. -/
theorem history_of_move (hm : Move flows may D h h') (hl : ¬flows l) :
    (h'.stack l).historyNodes = (h.stack l).historyNodes :=
  (histories_of_move hm l).resolve_right fun hf => hl hf.1

theorem history_of_does (hd : Does flows may D h h') (hl : ¬flows l) :
    (h'.stack l).historyNodes = (h.stack l).historyNodes :=
  Traced.Does.invariant (I := fun g => (g.stack l).historyNodes = (h.stack l).historyNodes) hd
    (fun hm hi => (history_of_move hm hl).trans hi) rfl

/-! ### The two flags -/

theorem clear_setNode {f : Node → Node} (hf : ∀ d : Node, d.Clear A B → (f d).Clear A B)
    (hn : (h.nodes n).Clear A B) : ((h.setNode m f).nodes n).Clear A B := by
  rw [nodes_setNode]
  split
  · subst n
    exact hf _ hn
  · exact hn

theorem clear_act {f : Node → Node} {o : Obs} (hf : ∀ d : Node, d.Clear A B → (f d).Clear A B)
    (hn : (h.nodes n).Clear A B) : ((h.act m f o).nodes n).Clear A B := clear_setNode hf hn

theorem clear_remove (c : Container) (hn : (h.nodes n).Clear A B) :
    ((h.remove c m).nodes n).Clear A B := by
  rwa [field_remove h m n c (g := Node.Clear A B) fun _ _ _ => rfl]

theorem clear_removeNode (hn : (h.nodes n).Clear A B) : ((h.removeNode m).nodes n).Clear A B :=
  clear_remove (h := h) (m := m) .asyncWaiting hn

theorem clear_push (c : Container) (hn : (h.nodes n).Clear A B) :
    ((h.push c m).nodes n).Clear A B := by
  rwa [field_push h m n c (g := Node.Clear A B) fun _ _ _ => rfl]

theorem clear_activateNode (hn : (h.nodes n).Clear A B) (hm : n = m → ¬B) (skip : Bool) :
    ((h.activateNode m skip).nodes n).Clear A B := by
  unfold activateNode
  split
  · exact hn
  · have hp := clear_push (m := m) .activated hn
    rw [nodes_setNode]
    split
    · rename_i hnm
      subst hnm
      exact ⟨hp.1, fun hB => absurd hB (hm rfl)⟩
    · exact hp

/-- What a write to a node does to its flags. -/
theorem Writes.clear {f : Node → Node} {o : Obs} (hw : h.Writes m f o) (ho : ¬o.raises m A B)
    (d : Node) (hd : d.Clear A B) : (f d).Clear A B := by
  cases hw with
  | run => exact ⟨fun hA => absurd (.inl ⟨hA, rfl⟩) ho, hd.2⟩
  | wait | await => exact ⟨hd.1, fun hB => absurd (.inr ⟨hB, rfl⟩) ho⟩
  | owner => exact ⟨fun _ => rfl, fun hB => absurd (.inr ⟨hB, rfl⟩) ho⟩
  | stop => exact ⟨fun _ => rfl, fun _ => rfl⟩
  | waitAll args =>
    unfold Node.waitAll
    dsimp only
    split <;> exact hd
  | ret r =>
    unfold Node.return
    split <;> exact hd
  | succ =>
    unfold Node.count
    dsimp only
    split <;> exact hd
  | _ => exact hd

/-- **A flag is set only with an entry that says so.** -/
theorem clear_of_move (hm : Move flows may D h h')
    (hc : (moves flows may).Calm (·.raises n A B) h h') (hn : (h.nodes n).Clear A B) :
    (h'.nodes n).Clear A B := by
  -- The newest entry raises no flag of the node.
  have hold : ∀ {o : Obs} {g : Heap}, h'.log = o :: g.log → h.log <:+ g.log →
      ¬o.raises n A B := by
    intro o g hl hs
    obtain ⟨new, hnew⟩ := hs
    refine hc (o :: new) ?_ o (by simp)
    show h'.log = _
    rw [hl, ← hnew]
    rfl
  have hB : ∀ {o : Obs}, ¬o.raises n A B → o.skips n → ¬B := fun ho hs hB => ho (.inr ⟨hB, hs⟩)
  cases hm with
  | alike ha => rwa [ha.nodes]
  | @act m f o hw _ =>
    rcases eq_or_ne n m with rfl | hne
    · exact clear_act (fun d hd => hw.clear (hold rfl List.suffix_rfl) d hd) hn
    · rwa [nodes_act, nodes_setNode_of_ne hne]
  | flag m b hb _ => exact clear_setNode (by intro d hd; exact ⟨fun _ => hb, hd.2⟩) hn
  | unskip m => exact clear_setNode (by intro d hd; exact ⟨hd.1, fun _ => rfl⟩) hn
  | @detach m _ =>
    unfold detach
    split
    · exact clear_remove _ hn
    · exact hn
  | removeFree l _ => exact clear_remove _ hn
  | @wait m a e _ =>
    exact clear_act (h := h.push (.waiting a e) m) (by intro _ hd; exact hd) (clear_push _ hn)
  | @suspend m _ =>
    exact clear_push (h := h.setNode m ({ · with status := .running })) .asyncWaiting
      (clear_setNode (by intro _ hd; exact hd) hn)
  | @continued m b _ _ =>
    have hs := (log_suffix_removeNode h m).trans (log_suffix_activateNode (h.removeNode m) m true)
    have hnB : n = m → ¬B := fun he => hB (hold (o := .continued m b) rfl hs) he.symm
    exact clear_act (h := (h.removeNode m).activateNode m true) (by intro _ hd; exact hd)
      (clear_activateNode (clear_removeNode hn) hnB true)
  | @cancelled m stop _ _ =>
    unfold cancelNode at hold ⊢
    split at hold
    · rw [if_pos ‹_›]
      exact clear_removeNode hn
    · rename_i hstop
      rw [if_neg hstop]
      have hs := (log_suffix_removeNode h m).trans (log_suffix_activateNode (h.removeNode m) m true)
      have hnB : n = m → ¬B := fun he =>
        hB (hold (o := .cancelled m stop) rfl hs) ⟨he.symm, by simpa using hstop⟩
      exact clear_act (by intro _ hd; exact hd)
        (clear_activateNode (clear_removeNode hn) hnB true)
  | @takeActivated m ns _ _ =>
    exact clear_setNode (h := { h with activated := ns }) (fun _ hd => hd) hn
  | @resume m skip r hm =>
    refine clear_removeNode (h := h.act m ({ · with skip := skip, result := r }) (.resume m r)) ?_
    rcases eq_or_ne n m with rfl | hne
    · have hlog : ((h.act n ({ · with skip := skip, result := r }) (.resume n r)).removeNode
          n).log = .resume n r :: h.log := log_remove_of_free .asyncWaiting (by simpa using hm)
      have hnB : ¬B := hB (hold (o := .resume n r) hlog List.suffix_rfl) rfl
      exact clear_act (by intro d hd; exact ⟨hd.1, fun hb => absurd hb hnB⟩) hn
    · rwa [nodes_act, nodes_setNode_of_ne hne]
  | @started c x hx hne0 =>
    simp only [markStarted, hx, hne0, ↓reduceIte] at hold ⊢
    rcases eq_or_ne n ⟨c, 0⟩ with rfl | hne
    · have hnB : ¬B := hB (hold (o := .started c) rfl List.suffix_rfl) rfl
      exact clear_act (h := h.setChart c ({ · with status := .running }))
        (fun d hd => ⟨hd.1, fun hb => absurd hb hnB⟩) hn
    · rwa [nodes_act, nodes_setNode_of_ne hne]
  | create d o _ _ =>
    show (if n.chart = h.nextChart then ({} : Node) else h.nodes n).Clear A B
    split
    · exact ⟨fun _ => rfl, fun _ => rfl⟩
    · exact hn
  | forget c =>
    unfold forgetChart setOwner
    split
    · rename_i o _
      exact clear_setNode (h := h) (m := o) (f := ({ · with attacher := none }))
        (fun _ hd => hd) hn
    · exact hn
  | dropWaiting es a => rwa [field_dropWaiting h n (g := Node.Clear A B) fun _ _ _ => rfl]
  | @beginFlow m l a _ _ _ =>
    exact clear_push (h := (h.act m _ _).setExecutor l _) (.executor l)
      (clear_act (h := h) (f := ({ · with status := .idle })) (o := .flow m) (fun _ hd => hd) hn)
  | @pop m ns l _ hl =>
    simp only [Heap.pop, hl]
    split
    · exact clear_setNode (h := h.setExecutor l _) (fun _ hd => hd) hn
    · exact hn
  | @child p i l _ hi _ =>
    simp only [addChild, hi, ↓reduceIte]
    exact clear_push _ (clear_act (by intro _ hd; exact hd) hn)
  | @continueFlow m l _ _ =>
    refine clear_push (h := h.act m ({ · with runFlag := true }) (.goOn m)) (.executor l) ?_
    rcases eq_or_ne n m with rfl | hne
    · obtain ⟨new, hnew⟩ := log_suffix_push (h.act n ({ · with runFlag := true }) (.goOn n)) n
        (.executor l)
      have hno : ¬Obs.raises n A B (.goOn n) := by
        refine hc (new ++ [.goOn n]) ?_ (.goOn n) (by simp)
        show (h.continueFlow l n).log = _
        rw [continueFlow, ← hnew, List.append_assoc]
        rfl
      exact clear_act (fun d hd => ⟨fun hA => absurd (.inl ⟨hA, rfl⟩) hno, hd.2⟩) hn
    · rwa [nodes_act, nodes_setNode_of_ne hne]
  | @deliver r rs m ns _ _ =>
    exact clear_act (h := { h with handling := { r with nodes := ns } :: rs })
      (f := ({ · with container := none, linked := false, status := .idle })) (fun _ hd => hd) hn
  | load | patch | manage | current | agent | clearHistory | closeFlow | swap | dropHandling =>
    exact hn

/-- **A run flag is set only with an entry that says so.** -/
theorem runFlag_of_move (hm : Move flows may D h h')
    (hc : (moves flows may).Calm (·.marks n) h h') (hn : (h.nodes n).runFlag = false) :
    (h'.nodes n).runFlag = false := by
  have hc' : (moves flows may).Calm (·.raises n True False) h h' :=
    fun new hl o ho hr => hr.elim (fun hr => hc new hl o ho hr.2) fun hr => hr.1
  exact (clear_of_move hm hc' ⟨fun _ => hn, False.elim⟩).1 trivial

/-- A node whose run flag is set is in a history list. -/
def Marked (h : Heap) (n : NodeRef) : Prop :=
  (h.nodes n).runFlag = true → ∃ l, n ∈ (h.stack l).historyNodes

/-- **A marked node stays marked** until it is run or continued. -/
theorem marked_of_move (hm : Move flows may D h h')
    (hc : (moves flows may).Calm (·.marks n) h h') (hn : h.Marked n) : h'.Marked n := by
  intro hflag
  have hset : (h.nodes n).runFlag = true := by
    by_contra hno
    rw [runFlag_of_move hm hc (by simpa using hno)] at hflag
    cases hflag
  obtain ⟨l, hl⟩ := hn hset
  refine ⟨l, ?_⟩
  rcases histories_of_move hm l with he | ⟨-, ⟨m, he⟩ | hclear⟩
  · rwa [he]
  · rw [he]
    exact List.mem_cons_of_mem m hl
  · rw [hclear n hl] at hset
    cases hset

/-- Stopping sets no run flag. -/
theorem runFlag_stop (m : NodeRef) (hn : (h.nodes n).runFlag = false) :
    ((h.stop m).nodes n).runFlag = false := by
  have hd : Does (fun _ => False) (fun _ => False) (fun _ => False) h (h.stop m) := does_stop h m
  obtain ⟨new, hlog, hnew⟩ := adds_stop (P := (¬Obs.marks n ·))
    (fun o ho => by cases o <;> first | exact ho.elim | exact id) h m
  have hcalm : (moves (fun _ => False) (fun _ => False)).Calm (·.marks n) h (h.stop m) :=
    Traced.calm_of_log hlog hnew
  exact hd.calm (P := fun g => (g.nodes n).runFlag = false)
    (fun hm hc hn => runFlag_of_move hm hc hn) hcalm hn

/-- Restoring a node clears its run flag and sets no other. -/
theorem runFlag_restoreNode (m : NodeRef) (hn : n = m ∨ (h.nodes n).runFlag = false) :
    ((h.restoreNode m).nodes n).runFlag = false := by
  have hs : ((h.setNode m ({ · with runFlag := false })).nodes n).runFlag = false := by
    rw [nodes_setNode]
    split
    · rfl
    · exact hn.resolve_left ‹_›
  unfold restoreNode
  dsimp only
  split
  · exact runFlag_stop m hs
  · exact hs

theorem history_restoreNode (h : Heap) (m : NodeRef) (l : ℕ) :
    ((h.restoreNode m).stack l).historyNodes = (h.stack l).historyNodes := by
  unfold restoreNode
  dsimp only
  split
  · have hd : Does (fun _ => False) (fun _ => False) (fun _ => False)
        (h.setNode m ({ · with runFlag := false }))
        ((h.setNode m ({ · with runFlag := false })).stop m) := does_stop _ m
    exact (history_of_does (l := l) hd (fun hf => hf)).trans rfl
  · rfl

/-- **The run flags of a history list are cleared** before the list is. -/
theorem runFlag_restoreNodes (ms : List NodeRef) (hn : n ∈ ms ∨ (h.nodes n).runFlag = false) :
    ((ms.foldl restoreNode h).nodes n).runFlag = false := by
  induction ms generalizing h with
  | nil => exact hn.resolve_left List.not_mem_nil
  | cons m ms ih =>
    rw [List.foldl_cons]
    refine ih ?_
    rcases hn with hn | hn
    · rcases List.mem_cons.mp hn with rfl | hn
      · exact .inr (runFlag_restoreNode n (.inl rfl))
      · exact .inl hn
    · exact .inr (runFlag_restoreNode m (.inr hn))

end Heap

end Asyncflow
