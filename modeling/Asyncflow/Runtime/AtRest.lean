import Asyncflow.Moves.Entries
import Asyncflow.Runtime.AsyncContext
import Asyncflow.Runtime.Overflow
import Asyncflow.Moves.Replay

/-!
# Nodes at rest

What can make a node go on is held by something: a call in progress, a list, the set of the
async manager, a timer. A node that none of these holds is at rest, and it stays at rest
through everything that happens to other nodes, until an edge leads to it, its chart is
started from it, or a subchart of it returns.

Stopping a node brings it to rest only if no call in progress is about it and the async manager
has forgotten it: `Node::Stop` reaches neither.
-/

namespace Asyncflow

/-- The entries that make a node at rest go on. -/
def Obs.arouses (n : NodeRef) : Obs → Prop
  | .edge _ m | .owner m _ _ => m = n
  | .started c => n = ⟨c, 0⟩
  | _ => False

instance (n : NodeRef) (o : Obs) : Decidable (o.arouses n) :=
  decidable_of_iff ((match o with
    | .edge _ m | .owner m _ _ => decide (m = n)
    | .started c => decide (n = ⟨c, 0⟩)
    | _ => false) = true) (by cases o <;> simp [Obs.arouses])

/-- Something other than a stop or the like happens to the node. -/
def Obs.stirs (n : NodeRef) (o : Obs) : Prop := o.about n ∧ ¬o.isQuiet

namespace Heap

variable {h h' : Heap} {n m : NodeRef} {flows : ℕ → Prop} {may : Permit → Prop}
  {D : NodeRef → Prop}

/-! ### The lists -/

/-- The node is in no list. -/
structure Unlisted (h : Heap) (n : NodeRef) : Prop where
  not_mem : ∀ c, n ∉ h.content c

theorem Unlisted.of_subset (hn : h.Unlisted n) (hc : ∀ c, n ∈ h'.content c → n ∈ h.content c) :
    h'.Unlisted n := ⟨fun c hm => hn.not_mem c (hc c hm)⟩

theorem Unlisted.of_eq (hn : h.Unlisted n) (hc : ∀ c, h'.content c = h.content c) :
    h'.Unlisted n := hn.of_subset fun c hm => hc c ▸ hm

theorem Unlisted.push (hn : h.Unlisted n) (hm : n ≠ m) (c : Container) :
    (h.push c m).Unlisted n :=
  ⟨fun c' hc => (mem_content_of_push hc).elim (fun he => hm he.1) (hn.not_mem c')⟩

theorem Unlisted.remove (hn : h.Unlisted n) (c : Container) (m : NodeRef) :
    (h.remove c m).Unlisted n := hn.of_subset fun _ => mem_content_of_remove

theorem Unlisted.detach (hn : h.Unlisted n) (m : NodeRef) : (h.detach m).Unlisted n :=
  hn.of_subset fun _ => mem_content_of_detach

theorem Unlisted.setNode (hn : h.Unlisted n) (m : NodeRef) (f : Node → Node) :
    (h.setNode m f).Unlisted n := hn.of_eq fun _ => content_setNode ..

theorem Unlisted.act (hn : h.Unlisted n) (m : NodeRef) (f : Node → Node) (o : Obs) :
    (h.act m f o).Unlisted n := hn.of_eq fun _ => content_act ..

theorem Unlisted.setExecutor (hn : h.Unlisted n) (l : ℕ) {f : DfsExecutor → DfsExecutor}
    (hf : ∀ x, n ∈ (f x).nodeList → n ∈ x.nodeList) : (h.setExecutor l f).Unlisted n := by
  refine hn.of_subset fun c hm => ?_
  cases c with
  | executor k =>
    have hm' : n ∈ ((h.setExecutor l f).stack k).nodeList := hm
    rw [stack_setExecutor] at hm'
    show n ∈ (h.stack k).nodeList
    split at hm'
    · subst k
      exact hf _ hm'
    · exact hm'
  | _ => exact hm

theorem Unlisted.activateNode (hn : h.Unlisted n) (hm : n ≠ m) (skip : Bool) :
    (h.activateNode m skip).Unlisted n := by
  unfold Heap.activateNode
  split
  · exact hn
  · exact (hn.push hm .activated).setNode m _

/-- **A node joins a list only with an entry about it.** -/
theorem unlisted_of_move (hm : Move flows may D h h')
    (hc : (moves flows may).Calm (·.stirs n) h h') (hn : h.Unlisted n) : h'.Unlisted n := by
  -- The newest entry is not about the node.
  have hold : ∀ {o : Obs} {g : Heap}, h'.log = o :: g.log → h.log <:+ g.log → ¬o.stirs n := by
    intro o g hl hs
    obtain ⟨new, hnew⟩ := hs
    refine hc (o :: new) ?_ o (by simp)
    show h'.log = _
    rw [hl, ← hnew]
    rfl
  cases hm with
  | alike ha =>
    exact hn.of_eq fun c =>
      content_congr c ha.nodeList ha.waiting ha.handling ha.asyncWaiting ha.activated
  | act => exact hn.act ..
  | flag | unskip => exact hn.setNode ..
  | detach => exact hn.detach _
  | removeFree => exact hn.remove ..
  | @wait m a e _ =>
    have hne : n ≠ m := fun he => hold (o := .wait m a e) (g := h.push (.waiting a e) m) rfl
      (log_suffix_push ..) ⟨he.symm, id⟩
    exact ((hn.push hne _).setNode m _).of_eq fun _ => content_note ..
  | @suspend m _ =>
    have hne : n ≠ m := fun he => hold (o := .suspend m h.nextContext)
      (g := (h.setNode m ({ · with status := .running })).push .asyncWaiting m) rfl
      (log_suffix_push (h.setNode m ({ · with status := .running })) ..) ⟨he.symm, id⟩
    exact ((hn.setNode m _).push hne .asyncWaiting).of_eq fun c =>
      content_congr c (fun _ => rfl) rfl rfl rfl rfl
  | @continued m b _ _ =>
    have hs := (log_suffix_removeNode h m).trans (log_suffix_activateNode (h.removeNode m) m true)
    have hne : n ≠ m := fun he => hold (o := .continued m b) rfl hs ⟨he.symm, id⟩
    have hr : (h.removeNode m).Unlisted n := (hn.remove .asyncWaiting m).of_eq fun c =>
      content_congr c (fun _ => rfl) rfl rfl rfl rfl
    exact (hr.activateNode hne true).act ..
  | @cancelled m stop _ _ =>
    have hr : (h.removeNode m).Unlisted n := (hn.remove .asyncWaiting m).of_eq fun c =>
      content_congr c (fun _ => rfl) rfl rfl rfl rfl
    unfold cancelNode at hold ⊢
    split at hold
    · rw [if_pos ‹_›]
      exact hr.of_eq fun _ => content_note ..
    · rename_i hstop
      rw [if_neg hstop]
      have hs := (log_suffix_removeNode h m).trans (log_suffix_activateNode (h.removeNode m) m true)
      have hne : n ≠ m := fun he => hold (o := .cancelled m stop) rfl hs ⟨he.symm, id⟩
      exact (hr.activateNode hne true).act ..
  | @takeActivated m ns ha _ =>
    have ht : ({ h with activated := ns } : Heap).Unlisted n := by
      refine hn.of_subset fun c hm => ?_
      cases c with
      | activated =>
        show n ∈ h.activated
        rw [ha]
        exact List.mem_cons_of_mem m hm
      | _ => exact hm
    exact ht.setNode m _
  | @resume m skip r _ =>
    exact ((hn.act m _ _).remove .asyncWaiting m).of_eq fun c =>
      content_congr c (fun _ => rfl) rfl rfl rfl rfl
  | @started c x hx hne0 =>
    simp only [markStarted, hx, hne0, ↓reduceIte]
    have hs : (h.setChart c ({ · with status := .running })).Unlisted n :=
      hn.of_eq fun _ => content_setChart ..
    exact hs.act ..
  | create d o _ _ => exact hn.of_eq fun c => content_congr c (fun _ => rfl) rfl rfl rfl rfl
  | forget c =>
    refine hn.of_eq fun c => content_congr c ?_ ?_ ?_ ?_ ?_ <;>
      · unfold forgetChart setOwner
        split <;> intros <;> rfl
  | dropWaiting es a => exact hn.of_subset fun c hm => mem_content_of_dropWaiting hm
  | @beginFlow m l a _ _ _ =>
    obtain ⟨new, hnew⟩ := log_suffix_push
      ((h.act m ({ · with status := .idle }) (.flow m)).setExecutor
      l ({ · with currentAgent := some a, nodeList := [] })) m (.executor l)
    have hne : n ≠ m := by
      intro he
      refine hc (new ++ [.flow m]) ?_ (.flow m) (by simp) ⟨he.symm, id⟩
      show (h.beginFlow l a m).log = _
      rw [List.append_assoc]
      exact hnew.symm
    have hs : ((h.act m ({ · with status := .idle }) (.flow m)).setExecutor l
        ({ · with currentAgent := some a, nodeList := [] })).Unlisted n :=
      (hn.act m _ _).setExecutor l fun _ hm => absurd hm List.not_mem_nil
    exact (hs.push hne (.executor l)).of_eq fun c => content_congr c (fun _ => rfl) rfl rfl rfl rfl
  | @pop m ns l _ hl =>
    have hs : (h.setExecutor l fun x =>
        { x with nodeList := ns, historyNodes := m :: x.historyNodes }).Unlisted n := by
      refine hn.of_subset fun c hm => ?_
      cases c with
      | executor k =>
        have hm' : n ∈ ((h.setExecutor l fun x =>
          { x with nodeList := ns, historyNodes := m :: x.historyNodes }).stack k).nodeList := hm
        rw [stack_setExecutor] at hm'
        show n ∈ (h.stack k).nodeList
        split at hm'
        · subst k
          rw [hl]
          exact List.mem_cons_of_mem m hm'
        · exact hm'
      | _ => exact hm
    simp only [Heap.pop, hl]
    split
    · exact hs.setNode m _
    · exact hs
  | current l _ _ => exact hn.setExecutor l fun _ => id
  | @child p i l _ hi _ =>
    simp only [addChild, hi, ↓reduceIte] at hc ⊢
    obtain ⟨new, hnew⟩ := log_suffix_push (h.act ⟨p.chart, i⟩ ({ · with preNodeId := p.id })
      (.edge p ⟨p.chart, i⟩)) ⟨p.chart, i⟩ (.executor l)
    have hne : n ≠ ⟨p.chart, i⟩ := by
      intro he
      refine hc (new ++ [.edge p ⟨p.chart, i⟩]) ?_ (.edge p ⟨p.chart, i⟩) (by simp) ⟨he.symm, id⟩
      rw [List.append_assoc]
      exact hnew.symm
    exact (hn.act _ _ _).push hne _
  | @continueFlow m l _ _ =>
    obtain ⟨new, hnew⟩ := log_suffix_push (h.act m ({ · with runFlag := true }) (.goOn m)) m
      (.executor l)
    have hne : n ≠ m := by
      intro he
      refine hc (new ++ [.goOn m]) ?_ (.goOn m) (by simp) ⟨he.symm, id⟩
      show (h.continueFlow l m).log = _
      rw [List.append_assoc]
      exact hnew.symm
    exact (hn.act m _ _).push hne _
  | agent l a _ => exact hn.setExecutor l fun _ => id
  | clearHistory l _ _ => exact hn.setExecutor l fun _ => id
  | closeFlow l _ =>
    have hs : (h.setExecutor l ({ · with currentNode := none, currentAgent := none })).Unlisted n :=
      hn.setExecutor l fun _ => id
    exact hs.of_eq fun c => content_congr c (fun _ => rfl) rfl rfl rfl rfl
  | swap a e => exact hn.of_subset fun c hm => (content_swapWaiting h c a e).mem_iff.mp hm
  | @deliver r rs m ns hh hr =>
    have hd : ({ h with handling := { r with nodes := ns } :: rs } : Heap).Unlisted n := by
      refine hn.of_subset fun c hm => ?_
      have hp := (content_handling (h := { h with handling := { r with nodes := ns } :: rs }) rfl
        c).mem_iff.mp hm
      refine (content_handling hh c).mem_iff.mpr ?_
      rcases List.mem_append.mp hp with hp | hp
      · refine List.mem_append_left _ ?_
        split at hp
        · rename_i he
          rw [if_pos he, hr]
          exact List.mem_cons_of_mem m hp
        · cases hp
      · exact List.mem_append_right _ hp
    exact hd.act m _ _
  | @dropHandling r rs hh hr =>
    exact hn.of_subset fun c hm => (content_handling hh c).mem_iff.mpr (List.mem_append_right _ hm)
  | load | patch | manage =>
    exact hn.of_eq fun c => content_congr c (fun _ => rfl) rfl rfl rfl rfl

theorem currentNode_enterNode {l : ℕ} (hl : h.currentIndex = l) (m : NodeRef) :
    (h.enterNode l m).currentNode = some m := by
  have hi : (h.enterNode l m).currentIndex = l := by
    unfold enterNode
    dsimp only
    split <;> exact hl
  rw [currentNode, hi]
  unfold enterNode
  dsimp only
  split <;> simp [stack_setExecutor]

/-- **Who enters the set of the async manager**: a node that is suspended, or one that is made at
an address of the set. -/
theorem forgotten_of_move (hm : Move flows may D h h')
    (hc : (moves flows may).Calm (·.stirs n) h h') (hn : n ∉ h.nodesSet ∧ n.chart < h.nextChart) :
    n ∉ h'.nodesSet ∧ n.chart < h'.nextChart := by
  refine ⟨?_, Nat.lt_of_lt_of_le hn.2 (nextChart_le_of_move hm)⟩
  obtain ⟨hn, hlt⟩ := hn
  cases hm with
  | alike ha => rwa [ha.nodesSet]
  | detach => rwa [nodesSet_detach]
  | removeFree => rwa [nodesSet_remove]
  | wait a e =>
    show n ∉ (h.push _ _).nodesSet
    rwa [nodesSet_push]
  | @suspend m =>
    intro hmem
    rcases nodesSet_suspendNode.mp hmem with rfl | hmem
    · obtain ⟨new, hnew⟩ := log_suffix_push
        (h.setNode n ({ · with status := .running })) n .asyncWaiting
      refine hc (.suspend n h.nextContext :: new) ?_ _ List.mem_cons_self ⟨rfl, id⟩
      exact congrArg (List.cons _) hnew.symm
    · exact hn hmem
  | @continued m b _ _ =>
    show n ∉ ((h.removeNode m).activateNode m true).nodesSet
    rw [nodesSet_activateNode]
    exact fun hmem => hn (mem_nodesSet_removeNode.mp hmem).1
  | @cancelled m stop _ _ =>
    unfold cancelNode
    split
    · exact fun hmem => hn (mem_nodesSet_removeNode.mp hmem).1
    · show n ∉ ((h.removeNode m).activateNode m true).nodesSet
      rw [nodesSet_activateNode]
      exact fun hmem => hn (mem_nodesSet_removeNode.mp hmem).1
  | @resume m skip r _ => exact fun hmem => hn (mem_nodesSet_removeNode.mp hmem).1
  | @started c x hx hne0 =>
    simp only [markStarted, hx, hne0, ↓reduceIte]
    exact hn
  | create d o =>
    intro hmem
    obtain ⟨m, hm, he⟩ := List.mem_map.mp hmem
    rcases h.rehouse_eq (h.nodeCount d) m with he' | ⟨i, -, he'⟩
    · exact hn (by rwa [← he, he'])
    · rw [he'] at he
      exact Nat.lt_irrefl _ (he ▸ hlt)
  | forget c =>
    unfold forgetChart setOwner
    split <;> exact hn
  | @beginFlow m l a =>
    show n ∉ (((h.act m _ _).setExecutor l _).push (.executor l) m).nodesSet
    rwa [nodesSet_push]
  | @pop m ns l _ hl =>
    simp only [Heap.pop, hl]
    split <;> exact hn
  | @child p i l _ hi _ =>
    simp only [addChild, hi, ↓reduceIte]
    rwa [nodesSet_push]
  | @continueFlow m l _ _ =>
    show n ∉ ((h.act m _ _).push (.executor l) m).nodesSet
    rwa [nodesSet_push]
  | _ => exact hn

/-- A timer is scheduled only by an entry about its node. -/
theorem timed_of_append {new log : List Obs} (hnew : ∀ o ∈ new, ¬o.stirs n)
    (ht : (digestOf n (new ++ log)).timed = true) : (digestOf n log).timed = true := by
  induction new with
  | nil => exact ht
  | cons o new ih =>
    refine ih (fun o ho => hnew o (List.mem_cons_of_mem _ ho)) ?_
    have ho : ¬o.stirs n := hnew o List.mem_cons_self
    rw [List.cons_append, digestOf_cons] at ht
    by_cases ha : o.about n
    · rw [Obs.replay_of_about ha] at ht
      have hq : o.isQuiet := by
        by_contra hq
        exact ho ⟨ha, hq⟩
      cases o with
      | misplaced => exact ht
      | destroyed c x =>
        simp only [Obs.effect] at ht
        split at ht
        · cases ht
        · exact ht
      | stop | noAttacher | created => cases ht
      | chartStop | refused | skipped | returned => exact ha.elim
      | _ => exact hq.elim
    · rwa [Obs.replay_of_not_about ha] at ht

end Heap

/-- The call is about the node. -/
def Frame.names (n : NodeRef) : Frame → Prop
  | .enter m | .continuing m | .func m | .ran m => m = n
  | _ => False

namespace State

variable {cfg : Config} {s t u : State} {a : Act} {n m : NodeRef} {l k : ℕ} {c : ChartId} {r : Bool}
  {rest : List Frame}

/-- **The node is in play**: a call in progress is about it, it is in a list, the async manager
remembers it, or its timer is scheduled. -/
inductive InPlay (s : State) (n : NodeRef) : Prop
  | frame {f : Frame} : f ∈ s.frames → f.names n → InPlay s n
  | listed {d : Container} : n ∈ s.heap.content d → InPlay s n
  | async : n ∈ s.heap.nodesSet → InPlay s n
  | timer : (s.heap.nodes n).attacher = some (.timer true) → InPlay s n

/-- The entry is not about the node, or quiet, or one that arouses it. -/
def Passes (n : NodeRef) (o : Obs) : Prop := o.stirs n → o.arouses n

theorem passes_of_isQuiet {o : Obs} (ho : o.isQuiet) : Passes n o := fun hs => absurd ho hs.2

theorem passes_of_ne {o : Obs} (ho : ∀ n, o.about n → n = m) (hm : m ≠ n) : Passes n o :=
  fun hs => absurd (ho n hs.1).symm hm

/-- Between the two states the node is aroused, or it is not stirred and no call is about it. -/
def Avoids (n : NodeRef) (s t : State) : Prop :=
  (∃ o ∈ since s t, o.arouses n) ∨
    Heap.Adds (¬Obs.stirs n ·) s.heap t.heap ∧ ∀ f ∈ t.frames, ¬f.names n

theorem avoids_of_adds (ha : Heap.Adds (Passes n) s.heap t.heap)
    (hf : ∀ f ∈ t.frames, f.names n → ∃ o ∈ since s t, o.arouses n) : Avoids n s t := by
  by_cases hr : ∃ o ∈ since s t, o.arouses n
  · exact .inl hr
  · obtain ⟨new, hl, hnew⟩ := ha
    refine .inr ⟨⟨new, hl, fun o ho hs => hr ⟨o, ?_, hnew o ho hs⟩⟩, fun f hm hn => hr (hf f hm hn)⟩
    rwa [since_of_log hl]

theorem mem_since {o : Obs} {log : List Obs} (hl : t.heap.log = o :: log)
    (hs : s.heap.log <:+ log) : o ∈ since s t := by
  obtain ⟨new, rfl⟩ := hs
  rw [since_of_log (show t.heap.log = (o :: new) ++ s.heap.log from hl)]
  exact List.mem_cons_self

theorem unnamed_nil : ∀ f ∈ ([] : List Frame), ¬f.names n :=
  fun _ hf => absurd hf List.not_mem_nil

/-- Frames that are not about the node, pushed on a part of the call stack. -/
theorem avoids_of_frames (gs : List Frame) {fs : List Frame}
    (ha : Heap.Adds (Passes n) s.heap t.heap)
    (hs : ∀ f ∈ s.frames, ¬f.names n) (ht : t.frames = gs ++ fs) (hgs : ∀ f ∈ gs, ¬f.names n)
    (hfs : fs <:+ s.frames) : Avoids n s t := by
  refine avoids_of_adds ha fun f hf hn => ?_
  rw [ht] at hf
  rcases List.mem_append.mp hf with hf | hf
  · exact absurd hn (hgs f hf)
  · exact absurd hn (hs f (hfs.subset hf))

/-- A step that leaves a part of the call stack. -/
theorem avoids_of_suffix (ha : Heap.Adds (Passes n) s.heap t.heap) (hs : ∀ f ∈ s.frames, ¬f.names n)
    (hfs : t.frames <:+ s.frames) : Avoids n s t :=
  avoids_of_frames [] ha hs rfl unnamed_nil hfs

theorem avoids_of_pushes {P : NodeRef → Prop}
    (ha : Heap.Adds (Passes n) s.heap t.heap) (hs : ∀ f ∈ s.frames, ¬f.names n)
    (hp : Pushes P s.frames t.frames) (hP : ∀ m, P m → m ≠ n) : Avoids n s t := by
  refine avoids_of_adds ha fun f hf hn => ?_
  rcases hp.entry hf with hf' | he
  · exact absurd hn (hs f hf')
  · obtain ⟨es, hes, hcall⟩ := hp.calls
    rw [hes] at hf
    rcases List.mem_append.mp hf with hf | hf
    · have hc := hcall f hf
      cases f with
      | enter | continuing => exact absurd hn (hP _ (he _ rfl))
      | func | ran => exact hc.elim
      | _ => exact hn.elim
    · exact absurd hn (hs f hf)

/-! ### The calls -/

theorem adds_event (s : State) (e : EventId) (b : AgentId) (immediate trigger : Bool) :
    Heap.Adds (Passes n) s.heap (s.event cfg e b immediate trigger).heap := by
  have hd : Heap.Adds (Passes n) s.heap (s.heap.swapWaiting b e) := Heap.adds_of_eq rfl
  unfold event
  split
  · dsimp only
    split
    · unfold triggerEvent
      split
      · exact Heap.adds_of_eq rfl
      · split
        · exact Heap.adds_of_eq rfl
        · exact hd
    · exact Heap.adds_of_eq rfl
  · exact Heap.adds_of_eq rfl

theorem quiet_passes (n : NodeRef) : ∀ o : Obs, o.isQuiet → Passes n o :=
  fun _ ho => passes_of_isQuiet ho

theorem adds_startLater (s : State) (b : AgentId) (hc : n ≠ ⟨c, 0⟩) :
    Heap.Adds (Passes n) s.heap (s.startLater cfg b c).heap := by
  unfold startLater
  rw [heap_addLater]
  exact Heap.adds_waitEvent (quiet_passes n) _ _ _ (passes_of_ne (fun _ => Eq.symm) hc.symm)

theorem adds_continueLater (s : State) (hm : n ≠ m) :
    Heap.Adds (Passes n) s.heap (s.continueLater cfg m).heap := by
  unfold continueLater
  split
  · rw [heap_addLater]
    exact Heap.adds_waitEvent (quiet_passes n) _ _ _ (passes_of_ne (fun _ => Eq.symm) hm.symm)
  · exact Heap.adds_of_eq rfl

theorem log_markStarted {h : Heap} (hub : (h.markStarted c).ub = false) :
    (h.markStarted c).log = .started c :: h.log := by
  unfold Heap.markStarted at hub ⊢
  split at hub
  · split at hub
    · cases hub
    · rename_i hne
      rw [if_neg hne]
      rfl
  · cases hub

theorem suffix_startLater (s : State) (b : AgentId) (c : ChartId) :
    s.heap.log <:+ (s.startLater cfg b c).heap.log := by
  unfold startLater
  rw [heap_addLater]
  show s.heap.log <:+ (s.heap.waitEvent cfg b ⟨c, 0⟩ cfg.startEvent).log
  unfold Heap.waitEvent
  split
  · split
    · exact (Heap.log_suffix_push ..).trans (List.suffix_cons ..)
    · exact List.suffix_rfl
  · exact List.suffix_rfl

theorem frames_startChart (s : State) (b : AgentId) (sync : Bool) :
    (s.startChart cfg b c sync).frames = s.frames ∨
      s.heap.chartRunning c = false ∧
        (s.startChart cfg b c sync).frames = .enter ⟨c, 0⟩ :: .starting b c :: s.frames := by
  unfold startChart
  split
  · exact .inl rfl
  · rename_i hr
    dsimp only
    split
    · exact .inr ⟨by simpa using hr, rfl⟩
    · exact .inl (frames_startLater ..)

/-- **Starting a chart** arouses its start node only. -/
theorem avoids_startChart {v : State} (b : AgentId) (sync : Bool)
    (hub : (v.startChart cfg b c sync).heap.ub = false)
    (ha : Heap.Adds (Passes n) s.heap v.heap) (hs : ∀ f ∈ s.frames, ¬f.names n)
    (hv : v.frames = s.frames) : Avoids n s (v.startChart cfg b c sync) := by
  by_cases hr : v.heap.chartRunning c = true
  · -- A chart that runs is not started again.
    have he : v.startChart cfg b c sync = v := by
      unfold startChart
      rw [if_pos hr]
    rw [he]
    exact avoids_of_frames [] ha hs hv unnamed_nil List.suffix_rfl
  · have hub' : (v.heap.markStarted c).ub = false := by
      unfold startChart at hub
      rw [if_neg hr] at hub
      cases sync with
      | true => exact hub
      | false => exact ub_startLater hub
    have hlog : (v.heap.markStarted c).log = .started c :: v.heap.log := log_markStarted hub'
    have hsuf : (.started c :: v.heap.log) <:+ (v.startChart cfg b c sync).heap.log := by
      rw [← hlog]
      unfold startChart
      rw [if_neg hr]
      cases sync with
      | true => exact List.suffix_rfl
      | false => exact suffix_startLater (v.mapHeap (·.markStarted c)) b c
    obtain ⟨new, hnew, hno⟩ := ha
    by_cases hn : n = ⟨c, 0⟩
    · refine .inl ⟨.started c, ?_, hn⟩
      obtain ⟨after, hafter⟩ := hsuf
      have hl : (v.startChart cfg b c sync).heap.log = (after ++ .started c :: new) ++
          s.heap.log := by
        rw [← hafter, hnew, List.append_assoc, List.cons_append]
      rw [since_of_log hl]
      simp
    · have hpass : Heap.Adds (Passes n) s.heap (v.startChart cfg b c sync).heap := by
        have hst : Heap.Adds (Passes n) v.heap (v.heap.markStarted c) :=
          Heap.adds_of_cons (o := .started c) (fun hs => absurd hs.1 hn) hlog
        refine (Heap.Adds.trans ⟨new, hnew, hno⟩ hst).trans ?_
        unfold startChart
        rw [if_neg hr]
        cases sync with
        | true => exact Heap.adds_of_eq rfl
        | false => exact adds_startLater (v.mapHeap (·.markStarted c)) b hn
      rcases @frames_startChart cfg c v b sync with hf | ⟨-, hf⟩
      · exact avoids_of_frames [] hpass hs (hf.trans hv) unnamed_nil List.suffix_rfl
      · refine avoids_of_frames [.enter ⟨c, 0⟩, .starting b c] hpass hs (by rw [hf, hv]; rfl) ?_
          List.suffix_rfl
        intro f hf hnm
        rcases List.mem_cons.mp hf with rfl | hf
        · exact hn hnm.symm
        · obtain rfl := List.mem_singleton.mp hf
          exact hnm

/-- **A chart that returns** arouses its owner node only. -/
theorem avoids_chartReturn {v : State} (gs : List Frame) {fs : List Frame} (c : ChartId) (b : Bool)
    (hh : v.heap = s.heap) (hs : ∀ f ∈ s.frames, ¬f.names n) (hv : v.frames = gs ++ fs)
    (hgs : ∀ f ∈ gs, ¬f.names n) (hfs : fs <:+ s.frames) : Avoids n s (v.chartReturn c b) := by
  have hn : Heap.Adds (Passes n) s.heap (v.heap.note (.returned c b)) :=
    Heap.adds_of_cons (passes_of_isQuiet (o := .returned c b) trivial) (by rw [hh]; rfl)
  have hret : ∀ f ∈ v.frames, ¬f.names n := by
    intro f hf
    rw [hv] at hf
    rcases List.mem_append.mp hf with hf | hf
    · exact hgs f hf
    · exact hs f (hfs.subset hf)
  have hnames : ¬(Frame.returning c).names n := id
  unfold chartReturn
  dsimp only
  split
  · refine avoids_of_adds hn fun f hf hnm => ?_
    rcases List.mem_cons.mp hf with rfl | hf
    · exact absurd hnm hnames
    · exact absurd hnm (hret f hf)
  · rename_i o ho
    -- The owner node is stopped before it is given the result.
    have ha : Heap.Adds (Passes n) (v.heap.note (.returned c b))
        (((v.heap.note (.returned c b)).stop o).act o (Node.owner b) (.owner o c b)) :=
      (Heap.adds_stopped (quiet_passes n) _ o).trans (Heap.adds_act (fun hs => hs.1) _ o)
    refine avoids_of_adds (hn.trans ha) fun f hf hnm => ?_
    rcases List.mem_cons.mp hf with rfl | hf
    · have ho : o = n := hnm
      obtain ⟨new, hnew, -⟩ := hn.trans
        (Heap.adds_stopped (quiet_passes n) (v.heap.note (.returned c b)) o)
      exact ⟨.owner o c b, mem_since rfl ⟨new, hnew.symm⟩, ho⟩
    · rcases List.mem_cons.mp hf with rfl | hf
      · exact absurd hnm hnames
      · exact absurd hnm (hret f hf)

theorem adds_finishReturn (s : State) (c : ChartId) :
    Heap.Adds (Passes n) s.heap (s.finishReturn c).heap := by
  have hc : Heap.Adds (Passes n) s.heap (s.heap.stopChart c) :=
    Heap.adds_stopChart (quiet_passes n) _ c
  unfold finishReturn
  dsimp only
  split
  · exact hc.trans (Heap.adds_of_eq rfl)
  · exact hc

theorem avoids_subchart (name : String) (b : AgentId) (hs : ∀ f ∈ s.frames, ¬f.names n)
    (hcur : ∀ m, s.heap.currentNode = some m → m ≠ n)
    (hub : (s.subchart cfg name b).heap.ub = false) : Avoids n s (s.subchart cfg name b) := by
  have hp : Heap.Adds (Passes n) s.heap (s.heap.prepareSubchart name b).2 :=
    Heap.adds_prepareSubchart (quiet_passes n) _ name b fun m c hm =>
      passes_of_ne (fun _ => Eq.symm) (hcur m hm)
  unfold subchart at hub ⊢
  dsimp only at hub ⊢
  split at hub
  · rw [if_pos ‹_›]
    split at hub
    · exact avoids_startChart b true hub hp hs rfl
    · exact avoids_of_suffix hp hs List.suffix_rfl
  · rw [if_neg ‹_›]
    exact avoids_of_suffix (Heap.adds_of_eq rfl) hs List.suffix_rfl

/-- **A call of the API** arouses the node, or avoids it. -/
theorem avoids_runOp {o : Op} (hs : ∀ f ∈ s.frames, ¬f.names n) (hset : n ∉ s.heap.nodesSet)
    (hcur : o.isNodeCall = true → ∀ m, s.heap.currentNode = some m → m ≠ n)
    (hub : t.heap.ub = false) (ht : s.runOp cfg o = some t) : Avoids n s t := by
  -- A call that leaves the call stack as it is.
  have hheap : ∀ {h : Heap}, Heap.Adds (Passes n) s.heap h → Avoids n s { s with heap := h } :=
    fun ha => avoids_of_suffix ha hs List.suffix_rfl
  have hne : o.isNodeCall = true → ∀ {P : NodeRef → Obs}, (∀ m k, (P m).about k → k = m) →
      ∀ m, s.heap.currentNode = some m → Passes n (P m) :=
    fun ho _ hP m hm => passes_of_ne (hP m) (hcur ho m hm)
  cases o <;> simp only [runOp] at ht
  case importChart data => cases ht; exact hheap (Heap.adds_of_eq rfl)
  case patchChart doc =>
    cases ht
    exact hheap (Heap.adds_patchChart _ doc)
  case register x =>
    cases ht
    exact hheap (Heap.adds_register _ x)
  case unregister b =>
    cases ht
    exact hheap (Heap.adds_unregisterGameObject (quiet_passes n) _ b _)
  case attachChart b name =>
    split at ht <;> cases ht
    split
    · exact hheap (Heap.adds_attachChart (quiet_passes n) _ b _)
    · exact hheap (Heap.adds_of_eq rfl)
  case removeChart b name => cases ht; exact hheap (Heap.adds_removeChart (quiet_passes n) _ b name)
  case startChart c =>
    split at ht
    · obtain ⟨b, -, rfl⟩ := Option.map_eq_some_iff.mp ht
      exact avoids_startChart b _ hub (Heap.adds_of_eq rfl) hs rfl
    · cases ht
  case stopChart c =>
    split at ht <;> cases ht
    exact hheap (Heap.adds_stopChart (quiet_passes n) _ c)
  case stopAgent b => cases ht; exact hheap (Heap.adds_stopAgent (quiet_passes n) _ b)
  case setCall c => cases ht; exact hheap (Heap.adds_of_eq rfl)
  case event e b immediate trigger =>
    cases ht
    exact avoids_of_pushes (adds_event s e b immediate trigger) hs
      (pushes_event (P := fun _ => False) s e b immediate trigger) fun _ hf => hf.elim
  case continueAsyncNode ctx b =>
    cases ht
    refine hheap (Heap.adds_continueAsyncNode (quiet_passes n) _ ctx b fun hm => ?_)
    exact passes_of_ne (fun _ => Eq.symm) fun he => hset (he ▸ hm)
  case cancelAsyncNode ctx stop =>
    cases ht
    refine hheap (Heap.adds_cancelAsyncNode (quiet_passes n) _ ctx stop fun hm => ?_)
    exact passes_of_ne (fun _ => Eq.symm) fun he => hset (he ▸ hm)
  case wait =>
    cases ht
    exact hheap (Heap.adds_wait (quiet_passes n) _ (hne rfl fun _ _ => Eq.symm))
  case waitEvent b e =>
    split at ht <;> cases ht
    exact hheap (Heap.adds_managerWaitEvent (quiet_passes n) _ b e fun m hm =>
      ⟨hne rfl (P := .await) (fun _ _ => Eq.symm) m hm,
        hne rfl (P := (.wait · b e)) (fun _ _ => Eq.symm) m hm⟩)
  case waitAll args =>
    cases ht
    exact hheap (Heap.adds_waitAll _ args fun m id b hm =>
      hne rfl (P := (.arrive · id b)) (fun _ _ => Eq.symm) m hm)
  case stopNode args => cases ht; exact hheap (Heap.adds_stopNodes (quiet_passes n) _ args)
  case stopFlow args => cases ht; exact hheap (Heap.adds_stopFlow (quiet_passes n) _ args)
  case subchart name b => cases ht; exact avoids_subchart name b hs (hcur rfl) hub
  case createAsyncContext =>
    cases ht
    exact hheap (Heap.adds_createAsyncContext (quiet_passes n) _
      (hne rfl (P := (.suspend · s.heap.nextContext)) fun _ _ => Eq.symm))
  case managerReturn b =>
    cases ht
    unfold managerReturn
    split
    · exact hheap (Heap.adds_of_eq rfl)
    · split
      · exact avoids_chartReturn [] _ b rfl hs rfl unnamed_nil List.suffix_rfl
      · exact avoids_of_suffix (Heap.adds_of_eq rfl) hs List.suffix_rfl
  case place cells =>
    cases ht
    exact hheap (Heap.adds_of_eq rfl)
  case step =>
    cases ht
    exact avoids_of_frames [.timers] (Heap.adds_of_eq rfl) hs rfl
      (by simp [Frame.names]) List.suffix_rfl

/-! ### The steps -/

theorem unnamed_enter (hm : m ≠ n) : ∀ f ∈ [Frame.enter m], ¬f.names n := by
  intro f hf hn
  obtain rfl := List.mem_singleton.mp hf
  exact hm hn

theorem adds_refuse (hm : m ≠ n) (hst : ∀ b c, rest.head? = some (.starting b c) → m = ⟨c, 0⟩) :
    Heap.Adds (Passes n) s.heap (s.refuse cfg m rest).heap := by
  have hr : Heap.Adds (Passes n) s.heap (s.heap.note (.refused m)) :=
    Heap.adds_of_cons (passes_of_isQuiet (o := .refused m) trivial) rfl
  unfold refuse
  dsimp only
  split
  · rename_i b c fs
    exact hr.trans (adds_startLater { s.mapHeap (·.note (.refused m)) with frames := fs } b
      fun he => hm ((hst b c rfl).trans he.symm))
  · rename_i c fs
    exact hr.trans (adds_continueLater
      { s.mapHeap (·.note (.refused m)) with frames := .returning c :: fs } hm.symm)
  · exact hr

theorem avoids_enterFlow (hp : Poised s.heap s.frames) (hf : s.frames = .enter m :: rest)
    (hs : ∀ f ∈ s.frames, ¬f.names n) : Avoids n s (s.enterFlow cfg m rest) := by
  have hm : m ≠ n := by
    rintro rfl
    exact hs (.enter m) (by rw [hf]; exact List.mem_cons_self) rfl
  have hrest : rest <:+ s.frames := by
    rw [hf]
    exact List.suffix_cons ..
  have he := enters cfg s m rest
  generalize s.enterFlow cfg m rest = t at he ⊢
  cases he with
  | refused _ =>
    have hsuf : (s.refuse cfg m rest).frames <:+ s.frames := by
      rcases @frames_of_refuse cfg s m rest with hr | ⟨b, c, hr⟩
      · rw [hr]
        exact hrest
      · exact List.IsSuffix.trans ⟨[.starting b c], hr.symm⟩ hrest
    refine avoids_of_suffix (adds_refuse hm fun b c hst => ?_) hs hsuf
    -- The start node of the chart is entered from `StartChart`.
    rw [hf] at hp
    cases hp with
    | calm hc => exact (hc _ List.mem_cons_self trivial).elim
    | deliver hd _ =>
      rcases hd with rfl | rfl | ⟨ev, rfl⟩ <;> cases hst
    | start => cases hst; rfl
    | enter => cases hst
  | gone _ => exact avoids_of_suffix (Heap.adds_of_eq rfl) hs List.suffix_rfl
  | @flow b _ _ _ _ =>
    refine avoids_of_frames [.flow (s.heap.currentIndex + 1) m.chart 0 false]
      (Heap.adds_beginFlow (quiet_passes n) _ _ b ?_) hs rfl ?_ hrest
    · exact passes_of_ne (fun _ => Eq.symm) hm
    · simp [Frame.names]
  | skipped _ _ _ =>
    have hk : Heap.Adds (Passes n) s.heap (s.heap.note (.skipped m)) :=
      Heap.adds_of_cons (passes_of_isQuiet (o := .skipped m) trivial) rfl
    exact avoids_of_suffix (hk.trans (Heap.adds_of_eq rfl)) hs hrest

theorem avoids_continueFlow (hf : s.frames = .continuing m :: rest)
    (hs : ∀ f ∈ s.frames, ¬f.names n) : Avoids n s (s.continueFlow m rest) := by
  have hm : m ≠ n := by
    rintro rfl
    exact hs (.continuing m) (by rw [hf]; exact List.mem_cons_self) rfl
  have hrest : rest <:+ s.frames := by
    rw [hf]
    exact List.suffix_cons ..
  unfold continueFlow
  dsimp only
  split
  · exact avoids_of_suffix (Heap.adds_of_eq rfl) hs List.suffix_rfl
  · split
    · refine avoids_of_suffix (Heap.adds_continueFlow (quiet_passes n) _ _ ?_) hs hrest
      exact passes_of_ne (fun _ => Eq.symm) hm
    · exact avoids_of_frames [.enter m] (Heap.adds_of_eq rfl) hs rfl (unnamed_enter hm) hrest

/-- **`Node::Run`** of another node. -/
theorem avoids_runNode {v : State} (hl : v.heap.currentIndex = l) (hm : m ≠ n)
    (ha : Heap.Adds (Passes n) s.heap v.heap) (hs : ∀ f ∈ s.frames, ¬f.names n)
    (hv : v.frames = .flow l c k r :: rest) (hrest : rest <:+ s.frames) :
    Avoids n s (v.runNode l m) := by
  have he : Heap.Adds (Passes n) s.heap (v.heap.enterNode l m) :=
    ha.trans (Heap.adds_enterNode _ l (passes_of_ne (fun _ => Eq.symm) hm))
  have hframes : ∀ {f : Frame} {t : State}, ¬f.names n → t.frames = f :: v.frames →
      Heap.Adds (Passes n) s.heap t.heap → Avoids n s t := by
    intro f t hname ht hadds
    refine avoids_of_frames [f, .flow l c k r] hadds hs (by rw [ht, hv]; rfl) ?_ hrest
    intro g hg hn
    rcases List.mem_cons.mp hg with rfl | hg
    · exact hname hn
    · obtain rfl := List.mem_singleton.mp hg
      exact hn
  have hr := runsNode v l m
  generalize v.runNode l m = t at hr ⊢
  cases hr with
  | skip _ | null _ _ => exact hframes (f := .ran m) hm rfl he
  | script _ _ => exact hframes (f := .func m) hm rfl he
  | @control f _ _ _ _ =>
    have hret : ∀ b, Passes n (.ret m b) := fun b => passes_of_ne (fun _ => Eq.symm) hm
    refine hframes (f := .ran m) hm rfl ((he.trans (Heap.adds_callControl (quiet_passes n) _ f
      fun p id b hp => ?_)).trans (Heap.adds_act (hret _) _ m))
    obtain rfl : m = p := Option.some.inj ((Heap.currentNode_enterNode hl m).symm.trans hp)
    exact passes_of_ne (fun _ => Eq.symm) hm

theorem avoids_flowRound (hl : s.heap.currentIndex = l) (hf : s.frames = .flow l c k r :: rest)
    (hs : ∀ f ∈ s.frames, ¬f.names n) (hn : s.heap.Unlisted n) :
    Avoids n s (s.flowRound cfg l c k r rest) := by
  have hrest : rest <:+ s.frames := by
    rw [hf]
    exact List.suffix_cons ..
  have hne : ∀ m ∈ (s.heap.stack l).nodeList, m ≠ n := by
    rintro m hm rfl
    exact hn.not_mem (.executor l) hm
  have hround := rounds cfg s l c k r rest
  generalize s.flowRound cfg l c k r rest = t at hround ⊢
  cases hround with
  | ends _ =>
    refine avoids_of_frames [.ended l c r] (Heap.adds_restored (quiet_passes n) _ l) hs rfl
      ?_ hrest
    simp [Frame.names]
  | cut _ _ =>
    refine avoids_of_frames [.ended l c r] ((Heap.adds_cutFlow _ l fun m hm => ?_).trans
      (Heap.adds_restored (quiet_passes n) _ l)) hs rfl ?_ hrest
    · exact passes_of_ne (fun _ => Eq.symm) (hne m hm)
    · simp [Frame.names]
  | waiting _ _ _ _ _ =>
    refine avoids_of_frames [.flow l c (k + 1) true] (Heap.adds_pop _ l) hs rfl ?_ hrest
    simp [Frame.names]
  | @defer m ns hlist _ _ _ _ _ =>
    refine avoids_of_frames [.flow l c (k + 1) true] (Heap.adds_deferTick (quiet_passes n) _ l
      fun a => ?_) hs rfl ?_ hrest
    · exact passes_of_ne (fun _ => Eq.symm) (hne m (by rw [hlist]; exact List.mem_cons_self))
    · simp [Frame.names]
  | @run m ns hlist _ _ _ _ =>
    exact avoids_runNode (v := { s with frames := .flow l c (k + 1) r :: rest }) hl
      (hne m (by rw [hlist]; exact List.mem_cons_self)) (Heap.adds_of_eq rfl) hs rfl hrest

/-- The current node of a node function is the node of the call. -/
theorem current_of_mayCall (hs : s.Shaped) {o : Op} (hm : s.mayCall o = true)
    (hcall : o.isNodeCall = true) (hcur : s.heap.currentNode = some m) : .func m ∈ s.frames := by
  obtain ⟨p, fs, hf⟩ : ∃ p fs, s.frames = .func p :: fs := by
    rw [mayCall] at hm
    split at hm
    · rw [hcall] at hm
      cases hm
    · exact ⟨_, _, ‹_›⟩
    · rw [hcall] at hm
      cases hm
    · rw [hcall] at hm
      cases hm
    · cases hm
  have hst := hs.stacked
  rw [hf] at hst
  obtain ⟨_, _, _, _, _, _, hp, _⟩ := hst.nest_of_func.func_inv
  obtain rfl : p = m := Option.some.inj (hp.symm.trans hcur)
  rw [hf]
  exact List.mem_cons_self

/-- **A step arouses a node that is not in play, or avoids it.** -/
theorem avoids_of_step (hs : Reachable cfg s) (hn : ¬s.InPlay n) (h : s.step cfg a = some t) :
    Avoids n s t := by
  obtain ⟨htr, hsound⟩ := trans_of_step h
  have hub : t.heap.ub = false := ub_of_sound hsound
  have hshape := shaped_of_reachable hs
  have hfr : ∀ f ∈ s.frames, ¬f.names n := fun f hf hnm => hn (.frame hf hnm)
  have hlist : s.heap.Unlisted n := ⟨fun c hm => hn (.listed hm)⟩
  have hset : n ∉ s.heap.nodesSet := fun hm => hn (.async hm)
  have hsub : ∀ {f : Frame} {rest : List Frame}, s.frames = f :: rest → rest <:+ s.frames := by
    intro f rest hf
    rw [hf]
    exact List.suffix_cons ..
  have htop : ∀ {f : Frame} {rest : List Frame}, s.frames = f :: rest → ¬f.names n := by
    intro f rest hf
    exact hfr f (by rw [hf]; exact List.mem_cons_self)
  cases htr with
  | enter hf => exact avoids_enterFlow (poised_of_reachable hs) hf hfr
  | continuing hf => exact avoids_continueFlow hf hfr
  | @starting b c rest hf =>
    exact avoids_of_suffix (Heap.adds_of_eq rfl) hfr (hsub hf)
  | @flow l c k r rest hf =>
    have hst := hshape.stacked
    rw [hf] at hst
    exact avoids_flowRound hst.flow_inv.1 hf hfr hlist
  | @ran m l c k r rest hf =>
    have hm : m ≠ n := htop hf
    -- An edge that is followed arouses the node it leads to.
    refine avoids_of_frames [_] (Heap.adds_finishNode (quiet_passes n) _ l
      (fun r => passes_of_ne (fun _ => Eq.symm) hm) fun i hi => hi.1) hfr rfl ?_
      ((List.suffix_cons ..).trans (hsub hf))
    simp [Frame.names]
  | @ended l c r rest hf =>
    unfold flowCheck
    split
    · exact avoids_chartReturn [.flowReturn l c] c true rfl hfr rfl
        (by simp [Frame.names]) (hsub hf)
    · exact avoids_of_suffix (Heap.adds_of_eq rfl) hfr (hsub hf)
  | flowReturn hf =>
    exact avoids_of_suffix (Heap.adds_of_eq rfl) hfr (hsub hf)
  | @returning c rest hf =>
    rcases frames_of_finishReturn { s with frames := rest } c with hr | hr
    · exact avoids_of_frames [] (adds_finishReturn { s with frames := rest } c) hfr hr unnamed_nil
        (hsub hf)
    · exact avoids_of_frames [.callback c] (adds_finishReturn { s with frames := rest } c) hfr
        hr (by simp [Frame.names]) (hsub hf)
  | @handle ev rest hf =>
    unfold handleRound
    split
    · exact avoids_of_suffix (Heap.adds_of_eq rfl) hfr (hsub hf)
    · rename_i r rs hh
      split
      · exact avoids_of_suffix (Heap.adds_of_eq rfl) hfr (hsub hf)
      · rename_i m ms hr
        -- The event is delivered to a node that waits for it.
        have hm : m ≠ n := by
          rintro rfl
          refine hlist.not_mem (.waiting r.agent r.event)
            ((Heap.content_handling hh _).mem_iff.mpr ?_)
          rw [if_pos rfl, hr]
          exact List.mem_cons_self
        exact avoids_of_frames [.enter m] (Heap.adds_of_cons (o := .deliver m)
          (passes_of_ne (fun _ => Eq.symm) hm) rfl) hfr rfl (unnamed_enter hm) List.suffix_rfl
  | trigger hf => exact avoids_of_suffix (Heap.adds_of_eq rfl) hfr (hsub hf)
  | @async rest hf =>
    unfold asyncRound
    split
    · exact avoids_of_frames [.events] (Heap.adds_of_eq rfl) hfr rfl
        (by simp [Frame.names]) (hsub hf)
    · rename_i m ms hact
      -- The node that is resumed is activated.
      have hm : m ≠ n := by
        rintro rfl
        refine hlist.not_mem .activated ?_
        show m ∈ s.heap.activated
        rw [hact]
        exact List.mem_cons_self
      exact avoids_of_frames [.enter m] (Heap.adds_resumeNode (quiet_passes n) _ ms
        (passes_of_ne (fun _ => Eq.symm) hm)) hfr rfl (unnamed_enter hm) List.suffix_rfl
  | @events rest hf =>
    have hnil : Heap.Adds (Passes n) s.heap (s.eventsRound cfg rest).heap := by
      unfold eventsRound
      split
      · exact Heap.adds_of_eq rfl
      · dsimp only
        split <;> exact Heap.adds_of_eq rfl
    rcases frames_of_eventsRound cfg s rest with ⟨as, hr⟩ | ⟨ev, hr⟩ | ⟨ev, hr⟩
    · exact avoids_of_frames [.dying as] hnil hfr hr
        (by simp [Frame.names]) (hsub hf)
    · exact avoids_of_frames [.deleteEvent ev] hnil hfr hr
        (by simp [Frame.names]) List.suffix_rfl
    · exact avoids_of_frames [.handle ev, .deleteEvent ev] hnil hfr hr
        (by simp [Frame.names]) List.suffix_rfl
  | deleteEvent hf =>
    exact avoids_of_suffix (Heap.adds_of_eq rfl) hfr (hsub hf)
  | @dying as rest hf =>
    have hnil : Heap.Adds (Passes n) s.heap (s.dyingRound as rest).heap := by
      cases as <;> exact Heap.adds_of_eq rfl
    rcases frames_of_dyingRound s as rest with hr | ⟨b, bs, hr⟩
    · exact avoids_of_frames [] hnil hfr hr unnamed_nil (hsub hf)
    · exact avoids_of_frames [.release b, .dying bs] hnil hfr hr
        (by simp [Frame.names]) (hsub hf)
  | released hf =>
    exact avoids_of_suffix (Heap.adds_destroyAgent (quiet_passes n) _ _ _) hfr
      (hsub hf)
  | op hmay hop =>
    exact avoids_runOp hfr hset (fun hcall m hcur he =>
      hfr _ (current_of_mayCall hshape hmay hcall hcur) he) hub hop
  | @ret m rest r hf =>
    have hm : m ≠ n := htop hf
    refine avoids_of_frames [.ran m] (Heap.adds_of_cons (o := .ret m r)
      (passes_of_ne (fun _ => Eq.symm) hm) rfl) hfr rfl ?_ (hsub hf)
    intro f hf hnm
    obtain rfl := List.mem_singleton.mp hf
    exact hm hnm
  | done hf => exact avoids_of_suffix (Heap.adds_of_eq rfl) hfr (hsub hf)
  | @fire m rest hf htm =>
    have hm : m ≠ n := by
      rintro rfl
      exact hn (.timer htm)
    exact avoids_of_frames [.enter m] (Heap.adds_of_cons (o := .fire m)
      (passes_of_ne (fun _ => Eq.symm) hm) rfl) hfr rfl (unnamed_enter hm) List.suffix_rfl
  | tick hf hb =>
    exact avoids_of_pushes (adds_event s _ _ _ _) hfr
      (pushes_event (P := fun _ => False) s _ _ _ _) fun _ hf => hf.elim
  | timersDone hf =>
    exact avoids_of_frames [.async] (Heap.adds_of_eq rfl) hfr rfl
      (by simp [Frame.names]) (hsub hf)

/-! ### Runs -/

theorem nextChart_le_of_step (hs : Reachable cfg s) (h : s.step cfg a = some t) :
    s.heap.nextChart ≤ t.heap.nextChart := by
  have hd : Heap.Does (fun _ => True) (fun _ => True) (fun _ => False) s.heap t.heap :=
    does_of_step (fun _ _ => trivial) (wf_of_reachable hs) h fun _ _ => trivial
  exact Heap.nextChart_le_of_does hd

/-- The async manager takes a node into its set only with an entry about it, unless the node is
made at an address of the set. -/
theorem mem_nodesSet_of_calm (hs : Reachable cfg s) (h : s.step cfg a = some t) {new : List Obs}
    (hlog : t.heap.log = new ++ s.heap.log) (hnew : ∀ o ∈ new, ¬o.stirs n)
    (hm : n ∈ t.heap.nodesSet) : n ∈ s.heap.nodesSet ∨ s.heap.nextChart ≤ n.chart := by
  by_contra hno
  obtain ⟨hset, hlt⟩ := not_or.mp hno
  have hd : Heap.Does (fun _ => True) (fun _ => True) (fun _ => False) s.heap t.heap :=
    does_of_step (fun _ _ => trivial) (wf_of_reachable hs) h fun _ _ => trivial
  have hcalm : (Heap.moves (fun _ => True) fun _ => True).Calm (·.stirs n) s.heap t.heap :=
    Traced.calm_of_log hlog hnew
  exact (hd.calm (P := fun g => n ∉ g.nodesSet ∧ n.chart < g.nextChart)
    (fun hm hc hn => Heap.forgotten_of_move hm hc hn) hcalm ⟨hset, Nat.lt_of_not_le hlt⟩).1 hm

/-- The timer of a node is the one of the history. -/
theorem timer_iff (hs : Reachable cfg s) : (s.heap.nodes n).attacher = some (.timer true) ↔
    (digestOf n s.heap.log).timed = true := by
  rw [← (told_of_reachable hs).digest n]
  exact decide_eq_true_iff.symm

/-- The node is made at an address that the async manager remembers. -/
def Inherits (n : NodeRef) (s t : State) : Prop :=
  s.heap.nextChart ≤ n.chart ∧ n ∈ t.heap.nodesSet

/-- **A step leaves a node at rest**, unless it arouses it or makes it at an address that is
remembered. -/
theorem atRest_of_step (hs : Reachable cfg s) (hn : ¬s.InPlay n) (h : s.step cfg a = some t)
    (ha : ∀ o ∈ since s t, ¬o.arouses n) (hmade : ¬Inherits n s t) :
    ¬t.InPlay n ∧ ∀ o ∈ since s t, ¬o.stirs n := by
  have ht : Reachable cfg t := hs.tail trivial h
  obtain ⟨hadds, hframes⟩ : Heap.Adds (¬Obs.stirs n ·) s.heap t.heap ∧ ∀ f ∈ t.frames,
      ¬f.names n := by
    rcases avoids_of_step hs hn h with ⟨o, ho, har⟩ | havoid
    · exact absurd har (ha o ho)
    · exact havoid
  obtain ⟨new, hlog, hnew⟩ := hadds
  refine ⟨fun hp => ?_, by rwa [since_of_log hlog]⟩
  cases hp with
  | frame hf hnm => exact hframes _ hf hnm
  | listed hm =>
    have hd : Heap.Does (fun _ => True) (fun _ => True) (fun _ => False) s.heap t.heap :=
      does_of_step (fun _ _ => trivial) (wf_of_reachable hs) h fun _ _ => trivial
    have hcalm : (Heap.moves (fun _ => True) fun _ => True).Calm (·.stirs n) s.heap t.heap :=
      Traced.calm_of_log hlog hnew
    have hun : t.heap.Unlisted n := by
      refine hd.calm (P := (·.Unlisted n)) ?_ hcalm ⟨fun c hm => hn (.listed hm)⟩
      exact fun hm hc hu => Heap.unlisted_of_move hm hc hu
    exact hun.not_mem _ hm
  | async hm =>
    rcases mem_nodesSet_of_calm hs h hlog hnew hm with hset | hle
    · exact hn (.async hset)
    · exact hmade ⟨hle, hm⟩
  | timer hatt =>
    rw [timer_iff ht, hlog] at hatt
    exact hn (.timer ((timer_iff hs).mpr (Heap.timed_of_append hnew hatt)))

/-- The step does not arouse the node. -/
def LetsRest (cfg : Config) (n : NodeRef) (s : State) (a : Act) : Prop :=
  ∀ t ∈ s.step cfg a, ∀ o ∈ since s t, ¬o.arouses n

instance (cfg : Config) (n : NodeRef) (s : State) (a : Act) : Decidable (LetsRest cfg n s a) := by
  unfold LetsRest
  infer_instance

/-- **A run that spares a node leaves it at rest.** -/
theorem atRest_of_steps (hs : Reachable cfg s) (hn : ¬s.InPlay n) (hlt : n.chart < s.heap.nextChart)
    (h : Run.Steps (step cfg) (LetsRest cfg n) s t) :
    ¬t.InPlay n ∧ ∀ o ∈ since s t, ¬o.stirs n := by
  suffices hall : (¬t.InPlay n ∧ n.chart < t.heap.nextChart) ∧ ∀ o ∈ since s t, ¬o.stirs n from
    ⟨hall.1.1, hall.2⟩
  induction h with
  | refl =>
    refine ⟨⟨hn, hlt⟩, ?_⟩
    rw [since_of_log (List.nil_append s.heap.log).symm]
    nofun
  | @tail u v a hr hK hstep ih =>
    obtain ⟨⟨hin, hmade⟩, hsteps⟩ := ih
    have hu : Reachable cfg u := hs.trans (hr.mono fun _ _ _ => trivial)
    obtain ⟨hrest, hcalm⟩ := atRest_of_step hu hin hstep (hK v hstep)
      fun hnew => Nat.not_le_of_lt hmade hnew.1
    refine ⟨⟨hrest, Nat.lt_of_lt_of_le hmade (nextChart_le_of_step hu hstep)⟩, fun o ho => ?_⟩
    rw [since_tail (wf_of_reachable hs) hr hstep] at ho
    exact (List.mem_append.mp ho).elim (hcalm o) (hsteps o)

/-- **What is in play was aroused**, or made at an address that the async manager remembers: the
node was at rest until that step, and it has been in play since then. -/
theorem inPlay_since_aroused (hs : Reachable cfg s) (hn : ¬s.InPlay n)
    (h : Run.Reaches (step cfg) s t) (ht : t.InPlay n) :
    ∃ u a v, Run.Reaches (step cfg) s u ∧ ¬u.InPlay n ∧ u.step cfg a = some v ∧
      ((∃ o ∈ since u v, o.arouses n) ∨ Inherits n u v) ∧
      Run.Steps (step cfg) (fun w _ => w.InPlay n) v t := by
  obtain ⟨u, a, v, hu, ⟨hrest, har⟩, hv, hrun⟩ := h.since
    (E := fun u a => ¬u.InPlay n ∧ ∀ v ∈ u.step cfg a,
      (∃ o ∈ since u v, o.arouses n) ∨ Inherits n u v)
    hn ht fun u a v hu _ hv hin => by
      by_cases hp : u.InPlay n
      · exact .inl hp
      · refine .inr ⟨hp, fun w hw => ?_⟩
        -- The step has one end only.
        obtain rfl : w = v := Option.some.inj (hw.symm.trans hv)
        by_contra hno
        obtain ⟨har, hnew⟩ := not_or.mp hno
        exact (atRest_of_step (hs.trans hu) hp hv (fun o ho hat => har ⟨o, ho, hat⟩) hnew).1 hin
  exact ⟨u, a, v, hu, hrest, hv, har v hv, hrun.mono fun _ _ h => h.2⟩

/-- At first every node is at rest. -/
theorem not_inPlay_init (n : NodeRef) : ¬init.InPlay n := by
  intro h
  cases h with
  | frame hf => cases hf
  | @listed d hm => cases d <;> cases hm
  | async hm => cases hm
  | timer hatt => cases hatt

/-- A chart whose nodes 1 and 2 run side by side. -/
def parkedChart : ChartData :=
  { name := "parked", nodes := [{ success := [1, 2] }, { func := .script, success := [3] },
    { func := .script }, { func := .script }] }

/-- Node 1 waits for its timer, and node 2 is running. -/
def parkedActs : List Act :=
  [.op (.importChart parkedChart), .op (.register 0), .op (.attachChart 1 "parked"),
    .op (.startChart 0), .op .step, .timersDone, .op .wait, .ret .rTrue]

/-- Node 1, which waits for its timer, was aroused by an edge. -/
theorem inPlay_since_aroused_parked : ∃ t u v : State, t.InPlay ⟨0, 1⟩ ∧
    Run.Reaches (step {}) init u ∧ ¬u.InPlay ⟨0, 1⟩ ∧ (∃ a, u.step {} a = some v) ∧
    ((∃ o ∈ since u v, o.arouses ⟨0, 1⟩) ∨ Inherits ⟨0, 1⟩ u v) ∧
    Run.Steps (step {}) (fun w _ => w.InPlay ⟨0, 1⟩) v t := by
  obtain ⟨t, ht, hatt⟩ := exists_of_play {} parkedActs
    (fun s => (s.heap.nodes ⟨0, 1⟩).attacher = some (.timer true)) (by decide +kernel)
  obtain ⟨u, a, v, hu, hrest, hv, har, hrun⟩ :=
    inPlay_since_aroused (.refl _) (not_inPlay_init ⟨0, 1⟩) ht (.timer hatt)
  exact ⟨t, u, v, .timer hatt, hu, hrest, ⟨a, hv⟩, har, hrun⟩

end State

end Asyncflow
