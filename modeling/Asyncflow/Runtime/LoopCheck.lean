import Asyncflow.Lib.Ledger
import Asyncflow.Moves.Entries
import Asyncflow.Runtime.Deferral
import Asyncflow.Runtime.RunningNodes

/-!
# The loop check

`Node::Run` sets the run flag of a node, and the loop of a flow does not run a node whose run
flag is set: it puts the node off to the next tick, so that a cycle in a chart does not keep a
flow from ending. The flags are cleared when the loop ends. A node that waits when its function
returns loses its flag earlier, but is then passed over because it is running.

What the check comes to is an account (`Asyncflow.Account`): each call of the function of a
node is paid for by a flow of its chart, or by one of the entries after which the node is
neither flagged nor running.
-/

namespace Asyncflow

/-- The entries after which a node may be neither flagged nor running. -/
def Obs.frees (n : NodeRef) : Obs → Prop
  | .stop m _ | .owner m _ _ | .deliver m | .arrive m _ _ | .flow m | .cut m => m = n
  | _ => False

/-- The entries that begin a flow of a chart. -/
def Obs.begins (c : ChartId) : Obs → Prop
  | .flow n => n.chart = c
  | _ => False

instance (n : NodeRef) (o : Obs) : Decidable (o.frees n) :=
  decidable_of_iff ((match o with
    | .stop m _ | .owner m _ _ | .deliver m | .arrive m _ _ | .flow m | .cut m => decide (m = n)
    | _ => false) = true) (by cases o <;> simp [Obs.frees])

instance (c : ChartId) (o : Obs) : Decidable (o.begins c) :=
  decidable_of_iff ((match o with
    | .flow n => decide (n.chart = c)
    | _ => false) = true) (by cases o <;> simp [Obs.begins])

/-- A node that a flow does not run: its run flag is set, or it is running. -/
def Node.Engaged (d : Node) : Prop := d.runFlag = true ∨ d.status = .running

instance (d : Node) : Decidable d.Engaged := by
  unfold Node.Engaged
  infer_instance

namespace Heap

variable {h h' g : Heap} {n m : NodeRef} {flows : ℕ → Prop} {may : Permit → Prop}
  {D : NodeRef → Prop}

/-- A node of a chart that has been made, and that a flow does not run. -/
def Busy (h : Heap) (n : NodeRef) : Prop := n.chart < h.nextChart ∧ (h.nodes n).Engaged

instance (h : Heap) (n : NodeRef) : Decidable (h.Busy n) := by
  unfold Busy
  infer_instance

/-- The account of a node: the calls of its function, against the entries that free it and the
call that has yet to be made up for. -/
def account (n : NodeRef) : Account Heap where
  spent h := h.log.count (.run n)
  earned h := h.log.countP (·.frees n) + if h.Busy n then 1 else 0

/-! ### Balanced operations -/

/-- If the function is not called, the node stays busy or is freed. -/
theorem balanced_of_log {new : List Obs} (hl : h'.log = new ++ h.log) (hr : .run n ∉ new)
    (hb : h.Busy n → h'.Busy n ∨ ∃ o ∈ new, o.frees n) : (account n).Balanced h h' := by
  have hspent : h'.log.count (.run n) = h.log.count (.run n) := by
    rw [hl, List.count_append, List.count_eq_zero.mpr hr, Nat.zero_add]
  have hearned : h'.log.countP (·.frees n) = new.countP (·.frees n) + h.log.countP (·.frees n) := by
    rw [hl, List.countP_append]
  refine Account.balanced_of_le (Nat.le_of_eq hspent) ?_
  show h.log.countP _ + (if h.Busy n then 1 else 0) ≤
    h'.log.countP _ + if h'.Busy n then 1 else 0
  rw [hearned]
  by_cases hbusy : h.Busy n
  · rcases hb hbusy with hb' | ⟨o, ho, hf⟩
    · rw [if_pos hbusy, if_pos hb']
      omega
    · have hpos : 0 < new.countP (·.frees n) := List.countP_pos_iff.mpr ⟨o, ho, by simpa using hf⟩
      rw [if_pos hbusy]
      omega
  · rw [if_neg hbusy]
    omega

theorem balanced_of_adds (ha : Adds (· ≠ .run n) h h') (hb : h.Busy n → h'.Busy n) :
    (account n).Balanced h h' := by
  obtain ⟨new, hl, hnew⟩ := ha
  exact balanced_of_log hl (fun hr => hnew _ hr rfl) fun hbusy => .inl (hb hbusy)

theorem Busy.of_nodes (hb : h.Busy n) (hnext : h.nextChart ≤ h'.nextChart)
    (hn : (h.nodes n).Engaged → (h'.nodes n).Engaged) : h'.Busy n :=
  ⟨Nat.lt_of_lt_of_le hb.1 hnext, hn hb.2⟩

theorem engaged_setNode {f : Node → Node} (hf : ∀ d : Node, d.Engaged → (f d).Engaged)
    (hn : (h.nodes n).Engaged) : ((h.setNode m f).nodes n).Engaged := by
  rw [nodes_setNode]
  split
  · subst n
    exact hf _ hn
  · exact hn

theorem engaged_act {f : Node → Node} {o : Obs} (hf : ∀ d : Node, d.Engaged → (f d).Engaged)
    (hn : (h.nodes n).Engaged) : ((h.act m f o).nodes n).Engaged := engaged_setNode hf hn

theorem engaged_remove (c : Container) (hn : (h.nodes n).Engaged) :
    ((h.remove c m).nodes n).Engaged := by
  rwa [field_remove h m n c (g := Node.Engaged) fun _ _ _ => rfl]

theorem engaged_push (c : Container) (hn : (h.nodes n).Engaged) :
    ((h.push c m).nodes n).Engaged := by
  rwa [field_push h m n c (g := Node.Engaged) fun _ _ _ => rfl]

theorem engaged_activateNode (skip : Bool) (hn : (h.nodes n).Engaged) :
    ((h.activateNode m skip).nodes n).Engaged := by
  unfold activateNode
  split
  · exact hn
  · exact engaged_setNode (h := h.push .activated m) (by intro _ hd; exact hd)
      (engaged_push _ hn)

/-- What a write to a node leaves of it, if it neither frees the node nor is made by a flow. -/
theorem Writes.engaged {f : Node → Node} {o : Obs} (hw : h.Writes m f o) (ho : ¬o.frees m)
    (hfl : ¬o.isFlow) (d : Node) (hd : d.Engaged) : (f d).Engaged := by
  cases hw with
  | stop | owner | waitAll => exact absurd rfl ho
  | run | succ | cut => exact absurd trivial hfl
  | wait | await | subchart | makeSubchart => exact .inr rfl
  | noAttacher | fire => exact hd
  | ret r =>
    unfold Node.return
    split <;> exact hd

/-- **A move outside the flows** keeps a busy node busy unless it frees the node. -/
theorem engaged_of_move (hm : Move (fun _ => False) may D h h')
    (hc : (moves (fun _ => False) may).Calm (·.frees n) h h') (hlt : n.chart < h.nextChart)
    (hn : (h.nodes n).Engaged) : (h'.nodes n).Engaged := by
  -- The newest entry does not free the node.
  have hold : ∀ {o : Obs} {g : Heap}, h'.log = o :: g.log → h.log <:+ g.log → ¬o.frees n := by
    intro o g hl hs
    obtain ⟨new, hnew⟩ := hs
    refine hc (o :: new) ?_ o (by simp)
    show h'.log = _
    rw [hl, ← hnew]
    rfl
  cases hm with
  | alike ha => rwa [ha.nodes]
  | @act m f o hw hfl =>
    rcases eq_or_ne n m with rfl | hne
    · have hno : ¬o.isFlow := fun ho => (hfl ho).elim fun _ => id
      exact engaged_setNode (hw.engaged (hold rfl List.suffix_rfl) hno) hn
    · rwa [nodes_act, nodes_setNode_of_ne hne]
  | @flag m b l _ hst =>
    have hrun : (h.nodes m).status = .running := hst.resolve_right And.left
    rw [nodes_setNode]
    split
    · subst n
      exact .inr hrun
    · exact hn
  | @detach m _ =>
    unfold detach
    split
    · exact engaged_remove _ hn
    · exact hn
  | removeFree l _ => exact engaged_remove _ hn
  | @wait m a e _ =>
    exact engaged_act (h := h.push (.waiting a e) m) (by intro _ _; exact .inr rfl)
      (engaged_push _ hn)
  | @suspend m _ =>
    exact engaged_push (h := h.setNode m ({ · with status := .running })) .asyncWaiting
      (engaged_setNode (by intro _ _; exact .inr rfl) hn)
  | @continued m b _ _ =>
    exact engaged_act (h := (h.removeNode m).activateNode m true) (by intro _ hd; exact hd)
      (engaged_activateNode true (engaged_remove (h := h) .asyncWaiting hn))
  | @cancelled m stop _ _ =>
    unfold cancelNode
    split
    · exact engaged_remove (h := h) .asyncWaiting hn
    · exact engaged_act (h := (h.removeNode m).activateNode m true) (by intro _ hd; exact hd)
        (engaged_activateNode true (engaged_remove (h := h) .asyncWaiting hn))
  | @takeActivated m ns _ _ =>
    exact engaged_setNode (h := { h with activated := ns }) (fun _ hd => hd) hn
  | @resume m skip r _ =>
    exact engaged_remove (h := h.act m ({ · with skip := skip, result := r }) (.resume m r))
      .asyncWaiting (engaged_act (by intro _ hd; exact hd) hn)
  | @started c x hx hne0 =>
    simp only [markStarted, hx, hne0, ↓reduceIte]
    exact engaged_setNode (h := h.setChart c ({ · with status := .running }))
      (fun d hd => .inr rfl) hn
  | create d o _ _ =>
    show (if n.chart = h.nextChart then ({} : Node) else h.nodes n).Engaged
    rwa [if_neg (Nat.ne_of_lt hlt)]
  | forget c =>
    unfold forgetChart setOwner
    split
    · rename_i o _
      exact engaged_setNode (h := h) (m := o) (f := ({ · with attacher := none }))
        (fun _ hd => hd) hn
    · exact hn
  | dropWaiting es a => rwa [field_dropWaiting h n (g := Node.Engaged) fun _ _ _ => rfl]
  | @deliver r rs m ns _ _ =>
    rcases eq_or_ne n m with rfl | hne
    · exact absurd rfl (hold (o := .deliver n) (g := h) rfl List.suffix_rfl)
    · rwa [takeHandled, nodes_act, nodes_setNode_of_ne hne]
  | load | patch | manage | swap | dropHandling => exact hn
  | unskip _ hf | beginFlow _ _ hf | pop _ hf | current _ hf | child _ hf | continueFlow _ hf
  | agent _ _ hf | clearHistory _ hf | closeFlow _ hf => exact hf.elim

theorem balanced_of_move (hm : Move (fun _ => False) may D h h') : (account n).Balanced h h' := by
  obtain ⟨new, hl, hnew⟩ := adds_of_move hm
  refine balanced_of_log hl (fun hr => hnew _ hr trivial) fun hb => ?_
  by_cases hf : ∃ o ∈ new, o.frees n
  · exact .inr hf
  · refine .inl (hb.of_nodes (nextChart_le_of_move hm) (engaged_of_move hm ?_ hb.1))
    exact Traced.calm_of_log (M := moves (fun _ => False) may) hl fun o ho hof => hf ⟨o, ho, hof⟩

/-- **Operations outside the flows are balanced.** -/
theorem balanced_of_does (hd : Does (fun _ => False) may D h h') : (account n).Balanced h h' :=
  Traced.Does.invariant (I := (account n).Balanced h) hd
    (fun hm hb => hb.trans (balanced_of_move hm)) (.refl h)

/-! ### The pieces of a flow -/

theorem balanced_of_eq (hl : h'.log = h.log) (hnext : h'.nextChart = h.nextChart)
    (hn : (h.nodes n).Engaged → (h'.nodes n).Engaged) : (account n).Balanced h h' :=
  balanced_of_adds (adds_of_eq hl) fun hb => hb.of_nodes (Nat.le_of_eq hnext.symm) hn

theorem balanced_setNode {f : Node → Node}
    (hf : m = n → (h.nodes n).Engaged → (f (h.nodes n)).Engaged) :
    (account n).Balanced h (h.setNode m f) := by
  refine balanced_of_eq rfl rfl fun hn => ?_
  rw [nodes_setNode]
  split
  · subst n
    exact hf rfl hn
  · exact hn

/-- A recorded write that calls no function, and frees the node or keeps it busy. -/
theorem balanced_act {f : Node → Node} {o : Obs} (ho : o ≠ .run n)
    (hf : m = n → o.frees n ∨ ((h.nodes n).Engaged → (f (h.nodes n)).Engaged)) :
    (account n).Balanced h (h.act m f o) := by
  refine balanced_of_log (show (h.act m f o).log = [o] ++ h.log from rfl)
    (by simpa using ho.symm) fun hb => ?_
  rcases eq_or_ne n m with rfl | hne
  · refine (hf rfl).symm.imp (fun hf => hb.of_nodes (Nat.le_refl _) fun hn => ?_) fun hfr =>
      ⟨o, List.mem_singleton_self o, hfr⟩
    rw [nodes_act, nodes_setNode_self]
    exact hf hn
  · refine .inl (hb.of_nodes (Nat.le_refl _) fun hn => ?_)
    rwa [nodes_act, nodes_setNode_of_ne hne]

theorem balanced_setExecutor (h : Heap) (l : ℕ) (f : DfsExecutor → DfsExecutor) :
    (account n).Balanced h (h.setExecutor l f) := balanced_of_eq rfl rfl id

theorem balanced_push (h : Heap) (c : Container) (m : NodeRef) :
    (account n).Balanced h (h.push c m) := by
  refine balanced_of_adds (adds_push (by simp) h c) fun hb => ?_
  exact hb.of_nodes (Nat.le_of_eq (congrArg Heap.nextChart (outer_push h c m)).symm)
    (engaged_push c)

theorem balanced_pop (h : Heap) (l : ℕ) : (account n).Balanced h (h.pop l) := by
  unfold pop
  split
  · exact balanced_of_eq rfl rfl id
  · dsimp only
    split
    · exact (balanced_setExecutor h l _).trans (balanced_setNode fun _ => id)
    · exact balanced_setExecutor h l _

/-- The limit frees the nodes it drops. -/
theorem balanced_cutFlow (h : Heap) (l : ℕ) : (account n).Balanced h (h.cutFlow l) := by
  refine Account.balanced_foldl (fun h m _ => ?_) h
  have hp : (account n).Balanced h (h.pop l) := balanced_pop h l
  exact hp.trans (balanced_act (by simp) fun hm => .inl hm)

theorem balanced_beginFlow (h : Heap) (l : ℕ) (a : AgentId) (m : NodeRef) :
    (account n).Balanced h (h.beginFlow l a m) := by
  have ha : (account n).Balanced h (h.act m ({ · with status := .idle }) (.flow m)) :=
    balanced_act (by simp) fun hm => .inl hm
  have hp := (ha.trans (balanced_setExecutor _ l
    ({ · with currentAgent := some a, nodeList := [] }))).trans
    (balanced_push _ (.executor l) m)
  exact hp.trans (balanced_of_eq rfl rfl id)

theorem balanced_continueFlow (h : Heap) (l : ℕ) (m : NodeRef) :
    (account n).Balanced h (h.continueFlow l m) := by
  have ha : (account n).Balanced h (h.act m ({ · with runFlag := true }) (.goOn m)) :=
    balanced_act (by simp) fun _ => .inr fun _ => .inl rfl
  exact ha.trans (balanced_push _ _ m)

theorem balanced_addChild (h : Heap) (l : ℕ) (m : NodeRef) (i : ℕ) :
    (account n).Balanced h (h.addChild l m i) := by
  unfold addChild
  split
  · have ha : (account n).Balanced h
        (h.act ⟨m.chart, i⟩ ({ · with preNodeId := m.id }) (.edge m ⟨m.chart, i⟩)) :=
      balanced_act (by simp) fun _ => .inr id
    exact ha.trans (balanced_push _ _ _)
  · exact balanced_of_eq rfl rfl id

/-- **The end of a round**: a node that is not running keeps its run flag, and one that is
loses it. -/
theorem balanced_finishNode (h : Heap) (l : ℕ) (m : NodeRef) :
    (account n).Balanced h (h.finishNode l m) := by
  have hp : (account n).Balanced h (h.popHeld l m) := by
    unfold popHeld
    split
    · exact balanced_pop h l
    · exact .refl h
  refine hp.trans ?_
  unfold finishNode addSubsequenceNodes
  dsimp only
  generalize h.popHeld l m = g
  split
  · rename_i hrun
    refine balanced_setNode fun hm _ => ?_
    subst m
    exact .inr hrun
  · rename_i hrun
    have ha : (account n).Balanced g
        (g.act m (fun d => { d.count with status := .endRun }) (.succ m (g.nodes m).result)) := by
      refine balanced_act (by simp) fun hm => .inr fun hn => ?_
      subst m
      refine .inl ((?_ : _ = (g.nodes n).runFlag).trans (hn.resolve_right hrun))
      dsimp only [Node.count]
      split <;> rfl
    split
    · exact ha
    · exact ha.trans (Account.balanced_foldl (fun g i _ => balanced_addChild g l m i) _)

/-- **The call of a function** is paid for by the node, which has to be free. -/
theorem balanced_enterNode (h : Heap) (l : ℕ) (m : NodeRef)
    (hm : m = n → ¬(h.nodes n).Engaged ∧ n.chart < h.nextChart) :
    (account n).Balanced h (h.enterNode l m) := by
  refine (balanced_setExecutor h l ({ · with currentNode := some m })).trans ?_
  unfold enterNode
  dsimp only
  split
  · exact balanced_setNode fun _ => id
  · rcases eq_or_ne n m with rfl | hne
    · obtain ⟨hfree, hlt⟩ := hm rfl
      generalize hg : h.setExecutor l ({ · with currentNode := some n }) = g
      have hno : ¬g.Busy n := by
        rw [← hg]
        exact fun hb => hfree hb.2
      have hbusy : (g.act n Node.run (.run n)).Busy n := by
        refine ⟨by rw [← hg]; exact hlt, ?_⟩
        rw [nodes_act, nodes_setNode_self]
        exact .inl rfl
      show (Obs.run n :: g.log).count _ + (g.log.countP _ + if g.Busy n then 1 else 0) ≤
        g.log.count _ + ((Obs.run n :: g.log).countP _ + if (g.act n _ _).Busy n then 1 else 0)
      rw [if_neg hno, if_pos hbusy, List.count_cons_self, List.countP_cons]
      omega
    · exact balanced_act (by simpa using hne.symm) fun hm => absurd hm.symm hne

/-- The nodes of the history list other than the node itself. -/
theorem balanced_restoreHistory (h : Heap) (l : ℕ) (hn : n ∉ (h.stack l).historyNodes) :
    (account n).Balanced h (h.restoreHistory l) := by
  have hr : (account n).Balanced h ((h.stack l).historyNodes.reverse.foldl restoreNode h) := by
    refine Account.balanced_foldl (fun g m hm => ?_) h
    have hne : m ≠ n := by
      rintro rfl
      exact hn (List.mem_reverse.mp hm)
    have hs : (account n).Balanced g (g.setNode m ({ · with runFlag := false })) :=
      balanced_setNode fun he => absurd he hne
    unfold restoreNode
    dsimp only
    split
    · have hd : Does (fun _ => False) (fun _ => True) (fun _ => False)
          (g.setNode m ({ · with runFlag := false }))
          ((g.setNode m ({ · with runFlag := false })).stop m) := does_stop _ m
      exact hs.trans (balanced_of_does hd)
    · exact hs
  exact hr.trans (balanced_setExecutor ..)

/-- No function is called when the flags are cleared. -/
theorem adds_restoreHistory (h : Heap) (l : ℕ) : Adds (¬Obs.isFlow ·) h (h.restoreHistory l) := by
  refine adds_restored (fun o ho => ?_) h l
  cases o <;> first | exact id | exact ho.elim

end Heap

/-- The loop of a flow of the chart. -/
def Frame.loopsOn (c : ChartId) : Frame → Prop
  | .flow _ c' _ _ => c' = c
  | _ => False

instance (c : ChartId) (f : Frame) : Decidable (f.loopsOn c) :=
  decidable_of_iff ((match f with
    | .flow _ c' _ _ => decide (c' = c)
    | _ => false) = true) (by cases f <;> simp [Frame.loopsOn])

namespace State

variable {cfg : Config} {s t u : State} {a : Act} {n m : NodeRef} {l k : ℕ} {c : ChartId} {r : Bool}
  {fs gs rest : List Frame}

/-- The number of flows of a chart whose loop has not ended. -/
def loops (s : State) (c : ChartId) : ℕ := s.frames.countP (·.loopsOn c)

/-- The account of a node with the flows of its chart: a flow is earned when it begins, and
spent while its loop lasts. -/
def ledger (n : NodeRef) : Account State where
  spent s := s.heap.log.count (.run n) + s.loops n.chart
  earned s := s.heap.log.countP (·.begins n.chart) + (Heap.account n).earned s.heap

/-! ### The steps -/

theorem balanced_of_heap (hb : (Heap.account n).Balanced s.heap t.heap)
    (hlog : s.heap.log <:+ t.heap.log) (hl : t.loops n.chart ≤ s.loops n.chart) :
    (ledger n).Balanced s t := by
  have hbegun := hlog.sublist.countP_le (p := fun o => decide (o.begins n.chart))
  unfold Account.Balanced at hb ⊢
  have hsp : ∀ u : State, (ledger n).spent u = (Heap.account n).spent u.heap + u.loops n.chart :=
    fun _ => rfl
  have hea : ∀ u : State, (ledger n).earned u =
      u.heap.log.countP (·.begins n.chart) + (Heap.account n).earned u.heap := fun _ => rfl
  rw [hsp, hsp, hea, hea]
  omega

/-- Frames that are no loops, pushed on a part of the call stack. -/
theorem loops_of_frames (gs : List Frame) (ht : t.frames = gs ++ fs) (hgs : ∀ f ∈ gs, ¬f.loopsOn c)
    (hfs : fs <:+ s.frames) : t.loops c ≤ s.loops c := by
  have hzero : gs.countP (·.loopsOn c) = 0 :=
    List.countP_eq_zero.mpr fun f hf => by simpa using hgs f hf
  show t.frames.countP _ ≤ s.frames.countP _
  rw [ht, List.countP_append, hzero, Nat.zero_add]
  exact hfs.sublist.countP_le

theorem not_loopsOn_of_isCall {f : Frame} (hf : f.isCall) : ¬f.loopsOn c := by
  cases f with
  | flow => exact hf.elim
  | _ => exact id

/-- A step that does none of the work of a flow, and pushes calls on a part of the call stack. -/
theorem balanced_of_calls
    (hd : Heap.Does (fun _ => False) (fun _ => True) (fun _ => False) s.heap t.heap)
    (hfs : fs <:+ s.frames) (hf : ∃ gs, t.frames = gs ++ fs ∧ ∀ f ∈ gs, f.isCall) :
    (ledger n).Balanced s t := by
  obtain ⟨gs, hgs, hcall⟩ := hf
  obtain ⟨new, hnew⟩ := hd.grows
  exact balanced_of_heap (Heap.balanced_of_does hd) ⟨new, hnew.symm⟩
    (loops_of_frames _ hgs (fun f hf => not_loopsOn_of_isCall (hcall f hf)) hfs)

/-- A flow is earned when it begins. -/
theorem balanced_enterFlow (hw : s.Wf) (hf : s.frames = .enter m :: rest) :
    (ledger n).Balanced s (s.enterFlow cfg m rest) := by
  have htail : rest <:+ s.frames := hf ▸ List.suffix_cons ..
  have he := enters cfg s m rest
  generalize s.enterFlow cfg m rest = t at he ⊢
  cases he with
  | refused =>
    rcases @frames_of_refuse cfg s m rest with hr | ⟨a, c, hr⟩
    · exact balanced_of_calls (does_refuse hw hf) htail ⟨[], hr, by simp⟩
    · exact balanced_of_calls (does_refuse hw hf) ((hr ▸ List.suffix_cons ..).trans htail)
        ⟨[], rfl, by simp⟩
  | gone => exact balanced_of_calls (Heap.does_crash _) List.suffix_rfl ⟨[], rfl, by simp⟩
  | skipped =>
    refine balanced_of_heap ?_ (List.suffix_cons ..) htail.sublist.countP_le
    exact Heap.balanced_of_adds (Heap.adds_of_cons (by simp) rfl) id
  | @flow b =>
    -- The loop that begins is paid for by the entry of the flow.
    set h' := s.heap.beginFlow (s.heap.currentIndex + 1) b m with hh'
    have hb : (Heap.account n).Balanced s.heap h' := Heap.balanced_beginFlow ..
    have hlog : (.flow m :: s.heap.log) <:+ h'.log := Heap.log_suffix_push
      ((s.heap.act m ({ · with status := .idle }) (.flow m)).setExecutor (s.heap.currentIndex + 1)
        ({ · with currentAgent := some b, nodeList := [] })) m (.executor (s.heap.currentIndex + 1))
    have hbegun := hlog.sublist.countP_le (p := fun o => decide (o.begins n.chart))
    have hloops := htail.sublist.countP_le (p := fun f => decide (f.loopsOn n.chart))
    unfold Account.Balanced at hb ⊢
    show (Heap.account n).spent h' + (Frame.flow (s.heap.currentIndex + 1) m.chart 0 false ::
        rest).countP _ + (s.heap.log.countP _ + (Heap.account n).earned s.heap) ≤
      (Heap.account n).spent s.heap + s.frames.countP _ +
        (h'.log.countP _ + (Heap.account n).earned h')
    rw [List.countP_cons] at hbegun ⊢
    have hsame : decide ((Obs.flow m).begins n.chart) =
        decide ((Frame.flow (s.heap.currentIndex + 1) m.chart 0 false).loopsOn n.chart) := rfl
    rw [hsame] at hbegun
    omega

theorem balanced_continueFlow (hf : s.frames = .continuing m :: rest) :
    (ledger n).Balanced s (s.continueFlow m rest) := by
  have htail : rest <:+ s.frames := hf ▸ List.suffix_cons ..
  unfold continueFlow
  dsimp only
  split
  · exact balanced_of_calls (Heap.does_crash _) List.suffix_rfl ⟨[], rfl, by simp⟩
  · split
    · refine balanced_of_heap (Heap.balanced_continueFlow s.heap _ m) ?_ htail.sublist.countP_le
      exact (List.suffix_cons _ s.heap.log).trans
        (Heap.log_suffix_push (s.heap.act m ({ · with runFlag := true }) (.goOn m)) m (.executor _))
    · exact balanced_of_calls (.refl _) htail ⟨[.enter m], rfl, by simp [Frame.isCall]⟩

/-- The node is subject to the loop check. -/
def LoopChecked (n : NodeRef) (s : State) : Prop :=
  (s.heap.nodeData n).noLoopCheck = false ∧ (s.heap.nodes n).isWaitAll = false

instance (n : NodeRef) (s : State) : Decidable (s.LoopChecked n) := by
  unfold LoopChecked
  infer_instance

/-- The nodes whose flags are cleared at the end of a loop are of its chart. -/
theorem chart_of_history (hs : s.Shaped) (hk : s.Kept) (hf : s.frames = .flow l c k r :: rest)
    (hm : m ∈ (s.heap.stack l).historyNodes) : m.chart = c := by
  have hst := hs.stacked
  rw [hf] at hst
  obtain ⟨hl, hl0, -, hn⟩ := hst.flow_inv
  obtain ⟨k', r', hmem⟩ := hk l m hm
  rw [hf] at hmem
  rcases List.mem_cons.mp hmem with he | hmem
  · exact (Frame.flow.inj he).2.1
  · have hle := hn.le_of_flow hmem
    omega

/-- **A loop that ends** makes up for the call that it clears the flag of. -/
theorem balanced_of_leave (hf : s.frames = .flow l c k r :: rest) {h : Heap}
    (hb : (Heap.account n).Balanced s.heap h) (hlog : s.heap.log <:+ h.log)
    (hh : ∀ m ∈ (h.stack l).historyNodes, m.chart = c) (ht : t.heap = h.restoreHistory l)
    (hfr : t.frames = .ended l c r :: rest) : (ledger n).Balanced s t := by
  obtain ⟨new, hnew, hno⟩ := Heap.adds_restoreHistory h l
  have hlog' : s.heap.log <:+ t.heap.log := by
    rw [ht, hnew]
    exact hlog.trans (List.suffix_append ..)
  rcases eq_or_ne c n.chart with rfl | hc
  · -- The loop was spent as long as it lasted.
    have hcount : (h.restoreHistory l).log.count (.run n) = h.log.count (.run n) := by
      rw [hnew, List.count_append, List.count_eq_zero.mpr fun hr => hno (.run n) hr trivial,
        Nat.zero_add]
    have hfreed := (List.suffix_append new h.log).sublist.countP_le
      (p := fun o => decide (o.frees n))
    rw [← hnew] at hfreed
    have hbegun := hlog'.sublist.countP_le (p := fun o => decide (o.begins n.chart))
    have hone : (if h.Busy n then 1 else 0) ≤ 1 := by split <;> omega
    unfold Account.Balanced at hb ⊢
    show t.heap.log.count _ + t.frames.countP _ +
        (s.heap.log.countP _ + (Heap.account n).earned s.heap) ≤
      (Heap.account n).spent s.heap + s.frames.countP _ + (t.heap.log.countP _ +
        (t.heap.log.countP _ + if t.heap.Busy n then 1 else 0))
    have hspent : (Heap.account n).spent h = h.log.count (.run n) := rfl
    have hearned : (Heap.account n).earned h =
      h.log.countP (·.frees n) + if h.Busy n then 1 else 0 := rfl
    rw [hspent, hearned] at hb
    rw [ht] at hbegun ⊢
    rw [hfr, hf, List.countP_cons_of_neg (by exact of_decide_eq_false rfl),
      List.countP_cons_of_pos (by exact decide_eq_true rfl), hcount]
    omega
  · -- The flags that are cleared are those of another chart.
    have hmem : n ∉ (h.stack l).historyNodes := fun hm => hc (hh n hm).symm
    refine balanced_of_heap ?_ hlog' ?_
    · rw [ht]
      exact hb.trans (Heap.balanced_restoreHistory h l hmem)
    · show t.frames.countP _ ≤ s.frames.countP _
      rw [hfr, hf, List.countP_cons_of_neg (by exact of_decide_eq_false rfl)]
      exact (List.suffix_cons _ rest).sublist.countP_le

/-- The loop that goes on. -/
theorem balanced_of_loop (gs : List Frame) {k' : ℕ} {r' : Bool}
    (hf : s.frames = .flow l c k r :: rest)
    (hb : (Heap.account n).Balanced s.heap t.heap) (hlog : s.heap.log <:+ t.heap.log)
    (hgs : ∀ f ∈ gs, ¬f.loopsOn n.chart) (hfr : t.frames = gs ++ .flow l c k' r' :: rest) :
    (ledger n).Balanced s t := by
  refine balanced_of_heap hb hlog ?_
  have hzero : gs.countP (·.loopsOn n.chart) = 0 :=
    List.countP_eq_zero.mpr fun f hf => by simpa using hgs f hf
  have hsame : decide ((Frame.flow l c k' r').loopsOn n.chart) =
      decide ((Frame.flow l c k r).loopsOn n.chart) := rfl
  show t.frames.countP _ ≤ s.frames.countP _
  refine Nat.le_of_eq ?_
  rw [hfr, hf, List.countP_append, hzero, Nat.zero_add, List.countP_cons, List.countP_cons, hsame]

/-- **A round of the loop**: a node that is run was not busy. -/
theorem balanced_flowRound (hw : s.Wf) (hs : s.Shaped) (hk : s.Kept) (hc : s.LoopChecked n)
    (hf : s.frames = .flow l c k r :: rest) :
    (ledger n).Balanced s (s.flowRound cfg l c k r rest) := by
  have hst := hs.stacked
  rw [hf] at hst
  obtain ⟨hl, -, hu, -⟩ := hst.flow_inv
  rw [hl] at hu
  have hlog : s.heap.log <:+ (s.flowRound cfg l c k r rest).heap.log := by
    have hd : Heap.Does (· = l) (fun _ => True) (fun _ => False) s.heap
        (s.flowRound cfg l c k r rest).heap := does_flowRound hw.born (by rfl) ..
    obtain ⟨new, hnew⟩ := hd.grows
    exact ⟨new, hnew.symm⟩
  have hr := rounds cfg s l c k r rest
  generalize s.flowRound cfg l c k r rest = t at hr hlog ⊢
  cases hr with
  | ends =>
    exact balanced_of_leave hf (.refl _) List.suffix_rfl (fun m hm => chart_of_history hs hk hf hm)
      rfl rfl
  | cut =>
    have hd : Heap.Does (· = l) (fun _ => True) (fun _ => False) s.heap (s.heap.cutFlow l) :=
      Heap.does_cutFlow s.heap rfl
    obtain ⟨new, hnew⟩ := hd.grows
    refine balanced_of_leave hf (Heap.balanced_cutFlow s.heap l) ⟨new, hnew.symm⟩ (fun m hm => ?_)
      rfl rfl
    rcases Heap.mem_history_cutFlow s.heap l hm with hm | hm
    · exact chart_of_history hs hk hf hm
    · exact hu.nodes m hm
  | waiting =>
    exact balanced_of_loop [] hf (Heap.balanced_pop s.heap l) hlog (by simp)
      (List.nil_append _).symm
  | @defer m ns hlist =>
    have hd : Heap.Does (fun _ => False) (fun _ => True) (fun _ => False) s.heap
        (s.heap.deferTick cfg l m) :=
      Heap.does_deferTick (hw.born.linked (.executor l) m (by simp [Heap.content, hlist]))
    exact balanced_of_loop [] hf (Heap.balanced_of_does hd) hlog (by simp) (List.nil_append _).symm
  | @run m ns hlist _ _ hflag hwait =>
    -- A node that is subject to the check is neither flagged nor running here.
    have hmade : s.heap.Made m := hw.born.linked (.executor l) m (by simp [Heap.content, hlist])
    have hent : (Heap.account n).Balanced s.heap (s.heap.enterNode l m) := by
      refine Heap.balanced_enterNode s.heap l m ?_
      rintro rfl
      refine ⟨?_, hmade.1⟩
      rintro (hrf | hrun)
      · exact absurd ((hflag hrf).symm.trans hc.1) (by decide)
      · exact absurd ((hwait hrun).symm.trans hc.2) (by decide)
    have hn := runsNode { s with frames := .flow l c (k + 1) r :: rest } l m
    generalize State.runNode _ l m = w at hn hlog ⊢
    cases hn with
    | skip | null =>
      exact balanced_of_loop [.ran m] hf hent hlog (by simp [Frame.loopsOn]) rfl
    | script => exact balanced_of_loop [.func m] hf hent hlog (by simp [Frame.loopsOn]) rfl
    | @control f =>
      have hcall : Heap.Does (fun _ => False) (fun _ => True) (fun _ => False)
          (s.heap.enterNode l m) (((s.heap.enterNode l m).callControl f).2.returnNode m
            (.ofBool ((s.heap.enterNode l m).callControl f).1)) :=
        (Heap.does_callControl _ f).trans (Heap.does_returnNode _ m _)
      exact balanced_of_loop [.ran m] hf (hent.trans (Heap.balanced_of_does hcall)) hlog
        (by simp [Frame.loopsOn]) rfl

/-- An executor that is given back. -/
theorem balanced_closeFlow (h : Heap) (l : ℕ) : (Heap.account n).Balanced h (h.closeFlow l) :=
  Heap.balanced_of_eq rfl rfl id

theorem balanced_flowCheck (hf : s.frames = .ended l c r :: rest) :
    (ledger n).Balanced s (s.flowCheck l c r rest) := by
  have htail : rest <:+ s.frames := hf ▸ List.suffix_cons ..
  unfold flowCheck
  split
  · have hd : Heap.Does (fun _ => False) (fun _ => True) (fun _ => False) s.heap
        (({ s with frames := .flowReturn l c :: rest } : State).chartReturn c true).heap :=
      does_chartReturn { s with frames := .flowReturn l c :: rest } c true
    obtain ⟨gs, hgs, hcall⟩ := pushed_chartReturn
      { s with frames := .flowReturn l c :: rest } c true
    obtain ⟨new, hnew⟩ := hd.grows
    refine balanced_of_heap (Heap.balanced_of_does hd) ⟨new, hnew.symm⟩
      (loops_of_frames (gs ++ [.flowReturn l c]) (by rw [hgs, List.append_assoc]; rfl) ?_ htail)
    intro f hf
    rcases List.mem_append.mp hf with hf | hf
    · exact not_loopsOn_of_isCall (hcall f hf)
    · obtain rfl := List.mem_singleton.mp hf
      exact id
  · exact balanced_of_heap (balanced_closeFlow s.heap l) List.suffix_rfl htail.sublist.countP_le

theorem balanced_flowFinish (hw : s.Wf) (hf : s.frames = .ran m :: .flow l c k r :: rest) :
    (ledger n).Balanced s (s.flowFinish m l c k r rest) := by
  have hd : Heap.Does (· = l) (fun _ => True) (fun _ => False) s.heap (s.heap.finishNode l m) :=
    Heap.does_finishNode rfl hw.born
  obtain ⟨new, hnew⟩ := hd.grows
  refine balanced_of_heap (Heap.balanced_finishNode s.heap l m) ⟨new, hnew.symm⟩ ?_
  have hsame : ∀ r', (Frame.flow l c k r' :: rest).countP (·.loopsOn n.chart) =
      (Frame.flow l c k r :: rest).countP (·.loopsOn n.chart) := by
    intro r'
    rw [List.countP_cons, List.countP_cons]
    rfl
  show (Frame.flow l c k _ :: rest).countP _ ≤ s.frames.countP _
  rw [hsame, hf]
  exact (List.suffix_cons _ (.flow l c k r :: rest)).sublist.countP_le

/-- **Every step is balanced.** -/
theorem balanced_of_step (hw : s.Wf) (hs : s.Shaped) (hk : s.Kept) (hc : s.LoopChecked n)
    (h : s.step cfg a = some t) : (ledger n).Balanced s t := by
  have htail : ∀ {f fs}, s.frames = f :: fs → fs <:+ s.frames := by
    rintro f fs hf
    rw [hf]
    exact List.suffix_cons ..
  cases (trans_of_step h).1 with
  | enter hf => exact balanced_enterFlow hw hf
  | continuing hf => exact balanced_continueFlow hf
  | flow hf => exact balanced_flowRound hw hs hk hc hf
  | ran hf => exact balanced_flowFinish hw hf
  | ended hf => exact balanced_flowCheck hf
  | @flowReturn l c rest hf =>
    have hd : Heap.Does (fun _ => False) (fun _ => True) (fun _ => False) s.heap
        (s.heap.setChart c ({ · with status := .idle })) :=
      Heap.does_setChart _ c (fun _ => ⟨⟨rfl, rfl⟩, rfl, fun hi => nomatch hi⟩) fun _ _ => .inl rfl
    exact balanced_of_heap ((Heap.balanced_of_does hd).trans (balanced_closeFlow _ l))
      List.suffix_rfl (htail hf).sublist.countP_le
  | @returning c rest hf =>
    exact balanced_of_calls (does_finishReturn { s with frames := rest } c) (htail hf)
      (pushed_finishReturn ..)
  | @handle ev rest hf =>
    rcases frames_of_handleRound s rest with hr | ⟨_, _, n, _, _, _, hr⟩
    · exact balanced_of_calls (does_handleRound s rest) (htail hf) ⟨[], hr, by simp⟩
    · exact balanced_of_calls (does_handleRound s rest) List.suffix_rfl
        ⟨[.enter n], hr, by simp [Frame.isCall]⟩
  | @async rest hf =>
    rcases frames_of_asyncRound s rest with hr | ⟨n, _, _, hr⟩
    · exact balanced_of_calls (does_asyncRound (sound_of_step h)) (htail hf)
        ⟨[.events], hr, by simp [Frame.isCall]⟩
    · exact balanced_of_calls (does_asyncRound (sound_of_step h)) List.suffix_rfl
        ⟨[.enter n], hr, by simp [Frame.isCall]⟩
  | @events rest hf =>
    rcases frames_of_eventsRound cfg s rest with ⟨as, hr⟩ | ⟨ev, hr⟩ | ⟨ev, hr⟩
    · exact balanced_of_calls (does_eventsRound s rest) (htail hf)
        ⟨[.dying as], hr, by simp [Frame.isCall]⟩
    · exact balanced_of_calls (does_eventsRound s rest) List.suffix_rfl
        ⟨[.deleteEvent ev], hr, by simp [Frame.isCall]⟩
    · exact balanced_of_calls (does_eventsRound s rest) List.suffix_rfl
        ⟨[.handle ev, .deleteEvent ev], hr, by simp [Frame.isCall]⟩
  | @dying as rest hf =>
    rcases frames_of_dyingRound s as rest with hr | ⟨a, as', hr⟩
    · exact balanced_of_calls (does_dyingRound trivial s as rest) (htail hf) ⟨[], hr, by simp⟩
    · exact balanced_of_calls (does_dyingRound trivial s as rest) (htail hf)
        ⟨[.release a, .dying as'], hr, by simp [Frame.isCall]⟩
  | @released a rest hf =>
    exact balanced_of_calls (Heap.does_destroyAgent trivial _ cfg.events a) (htail hf)
      ⟨[], rfl, by simp⟩
  | op hm ho =>
    have hub := ub_of_sound (sound_of_step h)
    exact balanced_of_calls (does_runOp hw.born hub ho fun _ _ => trivial) List.suffix_rfl
      (pushes_runOp hw.born hub ho).calls
  | @ret m rest r hf =>
    have hd : Heap.Does (fun _ => False) (fun _ => True) (fun _ => False) s.heap
        (s.heap.returnNode m r) := Heap.does_returnNode s.heap m r
    exact balanced_of_heap (Heap.balanced_of_does hd) (List.suffix_cons ..)
      (loops_of_frames [.ran m] rfl (by simp [Frame.loopsOn]) (htail hf))
  | fire hf hn =>
    exact balanced_of_calls (Heap.does_act .fire False.elim) List.suffix_rfl
      ⟨[.enter _], rfl, by simp [Frame.isCall]⟩
  | tick hf ha => exact balanced_of_calls (does_event ..) List.suffix_rfl (pushed_event ..)
  | timersDone hf =>
    exact balanced_of_calls (.refl _) (htail hf) ⟨[.async], rfl, by simp [Frame.isCall]⟩
  | starting hf | trigger hf | deleteEvent hf | done hf =>
    exact balanced_of_calls (.refl _) (htail hf) ⟨[], rfl, by simp⟩

/-! ### Runs -/

/-- **A run is balanced** as long as the node is subject to the loop check. -/
theorem balanced_of_steps (hs : Reachable cfg s)
    (h : Run.Steps (step cfg) (fun u _ => u.LoopChecked n) s t) : (ledger n).Balanced s t := by
  refine Account.balanced_of_steps (I := Reachable cfg) h hs
    (fun u a v hu _ hv => hu.tail trivial hv)
    fun u a v hu hc hv => ?_
  exact balanced_of_step (wf_of_reachable hu) (shaped_of_reachable hu) (kept_of_reachable hu) hc hv

/-- **The loop check**: each call of the function of a node is paid for by a flow of its chart
or by an entry that frees the node. The loops in progress count as calls to come, so that in the
loop of one flow the node is called once. -/
theorem calls_le_of_steps (hs : Reachable cfg s)
    (h : Run.Steps (step cfg) (fun u _ => u.LoopChecked n) s t) :
    (since s t).count (.run n) + t.loops n.chart + (if s.heap.Busy n then 1 else 0) ≤
      s.loops n.chart + (since s t).countP (·.begins n.chart) + (since s t).countP (·.frees n) +
        if t.heap.Busy n then 1 else 0 := by
  have hb := balanced_of_steps hs h
  have hlog : t.heap.log = since s t ++ s.heap.log := log_since (wf_of_reachable hs) h
  unfold Account.Balanced ledger Heap.account at hb
  dsimp only at hb
  rw [hlog, List.count_append, List.countP_append, List.countP_append] at hb
  omega

/-- Two nodes in a loop: the second is reached again from the third, and not called again. -/
theorem calls_le_of_steps_looping : ∃ s t, Reachable {} s ∧
    Run.Steps (step {}) (fun u _ => u.LoopChecked ⟨0, 1⟩) s t ∧ .edge ⟨0, 2⟩ ⟨0, 1⟩ ∈ since s t ∧
    (since s t).count (.run ⟨0, 1⟩) + t.loops 0 + (if s.heap.Busy ⟨0, 1⟩ then 1 else 0) ≤
      s.loops 0 + (since s t).countP (·.begins 0) + (since s t).countP (·.frees ⟨0, 1⟩) +
        if t.heap.Busy ⟨0, 1⟩ then 1 else 0 := by
  obtain ⟨s, t, hs, h, hedge⟩ := exists_of_play_exec {} (fun u _ => u.LoopChecked ⟨0, 1⟩)
    [.op (.importChart loopingChart), .op (.register 0), .op (.attachChart 1 "looping"),
      .op (.startChart 0), .op .step]
    (.timersDone :: List.replicate 7 .tau ++ [.ret .rTrue, .tau, .tau, .ret .rTrue, .tau, .tau])
    (fun s t => .edge ⟨0, 2⟩ ⟨0, 1⟩ ∈ since s t) (by decide +kernel)
  exact ⟨s, t, hs, h, hedge, calls_le_of_steps hs h⟩

end State

end Asyncflow
