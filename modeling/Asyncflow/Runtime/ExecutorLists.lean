import Asyncflow.Moves.CallStack
import Asyncflow.Runtime.Coherence

/-!
# The lists of the executors

An executor holds a node exactly if the node points to it, but for the nodes that the
clear at the start of `DfsExecutor::RunFlow` has dropped (`Asyncflow.Heap.Lost`): this
needs that no continuation is late (`Asyncflow.State.Late`). Whatever happens in the
function of a node, the node is on top of the list of its executor when the function
returns, if it still points to it (`Asyncflow.State.Topped`): what `Pop` takes then is
the node that ran.
-/

namespace Asyncflow

namespace Heap

variable {h h' g : Heap} {n m : NodeRef} {l : ℕ} {E E' : NodeRef → ℕ → Prop}
  {M : NodeRef → Prop} {flows : ℕ → Prop} {may : Permit → Prop} {D : NodeRef → Prop}

/-- The node points to the executor and is not in its list. -/
def Lost (h : Heap) (n : NodeRef) (l : ℕ) : Prop :=
  (h.nodes n).container = some (.executor l) ∧ n ∉ (h.stack l).nodeList

/-- The node is in a list other than the waiting nodes of the async manager. -/
def linkedElsewhere (h : Heap) (n : NodeRef) : Prop :=
  ∃ c ∈ (h.nodes n).container, c ≠ .asyncWaiting ∧ n ∈ h.content c

instance (h : Heap) (n : NodeRef) : Decidable (h.linkedElsewhere n) := by
  unfold linkedElsewhere
  infer_instance

/-- The nodes that are lost are those that an executor has lost. -/
theorem Orderly.lost (ho : h.Orderly E M) (hE : ∀ n l, h.Lost n l → E' n l) :
    h.Orderly E' M where
  nodup := ho.nodup
  of_mem := ho.of_mem
  mem {c n} hn := by
    by_cases hm : n ∈ h.content c
    · exact .inl hm
    · obtain ⟨l, rfl, -⟩ := (ho.mem hn).resolve_left hm
      exact .inr ⟨l, rfl, hE n l ⟨hn, hm⟩⟩
  linked := ho.linked
  placed := ho.placed

/-- A node that is in no other list may be removed from the waiting nodes. -/
theorem Orderly.removeNode_of_not_linked (ho : h.Orderly E fun _ => True)
    (hn : ¬h.linkedElsewhere n) : (h.removeNode n).Orderly E fun _ => True := by
  refine ho.removeNode (fun c hm => ?_) fun _ _ => trivial
  by_contra hc
  exact hn ⟨c, ho.of_mem hm, hc, hm⟩

/-! ### The top of a list -/

/-- If the node points to the executor, it is on top of its list. -/
def OnTop (h : Heap) (l : ℕ) (n : NodeRef) : Prop :=
  (h.nodes n).container = some (.executor l) → ∃ ns, (h.stack l).nodeList = n :: ns

theorem onTop_of_ne (hn : (h.nodes n).container ≠ some (.executor l)) : h.OnTop l n :=
  fun hc => absurd hc hn

/-- Neither the list nor the pointer has changed. -/
theorem OnTop.congr (ht : h.OnTop l n) (hl : (h'.stack l).nodeList = (h.stack l).nodeList)
    (hn : (h'.nodes n).container = (h.nodes n).container) : h'.OnTop l n := by
  intro hc
  rw [hl]
  exact ht (hn ▸ hc)

theorem OnTop.setNode (ht : h.OnTop l n) (m : NodeRef) {f : Node → Node}
    (hf : ∀ d, (f d).container = d.container) : (h.setNode m f).OnTop l n :=
  ht.congr rfl (field_setNode h m n (·.container) hf)

theorem OnTop.act (ht : h.OnTop l n) (m : NodeRef) {f : Node → Node} (o : Obs)
    (hf : ∀ d, (f d).container = d.container) : (h.act m f o).OnTop l n :=
  (ht.setNode m hf).congr rfl rfl

theorem OnTop.setExecutor (ht : h.OnTop l n) {k : ℕ} {f : DfsExecutor → DfsExecutor}
    (hk : l ≠ k) : (h.setExecutor k f).OnTop l n :=
  ht.congr (by rw [stack_setExecutor, if_neg hk]) rfl

/-- Removing another node leaves the node on top. -/
theorem OnTop.remove (ht : h.OnTop l n) (c : Container) (m : NodeRef) :
    (h.remove c m).OnTop l n := by
  rcases eq_or_ne n m with rfl | hne
  · exact onTop_of_ne (by simp)
  intro hc
  rw [nodes_remove_of_ne hne] at hc
  obtain ⟨ns, hns⟩ := ht hc
  have hl := content_remove h m c (.executor l)
  simp only [content] at hl
  rw [hl, hns]
  split
  · rw [List.filter_cons_of_pos (by simpa using hne)]
    exact ⟨_, rfl⟩
  · exact ⟨ns, rfl⟩

theorem OnTop.detach (ht : h.OnTop l n) (m : NodeRef) : (h.detach m).OnTop l n := by
  unfold Heap.detach
  split
  · exact ht.remove _ m
  · exact ht

/-- A push on another list. -/
theorem OnTop.push (ht : h.OnTop l n) {c : Container} (hcl : c ≠ .executor l) (m : NodeRef) :
    (h.push c m).OnTop l n := by
  rcases eq_or_ne n m with rfl | hne
  · refine onTop_of_ne ?_
    rw [container_push]
    exact fun hc => hcl (Option.some.inj hc)
  · refine (ht.detach m).congr ?_ (by rw [nodes_push_of_ne hne, nodes_detach_of_ne hne])
    exact content_push_of_ne hcl.symm

/-- A node that is pushed is on top. -/
theorem onTop_push (h : Heap) (l : ℕ) (n : NodeRef) : (h.push (.executor l) n).OnTop l n := by
  intro _
  refine ⟨((h.detach n).stack l).nodeList, ?_⟩
  simp [Heap.push, link, stack_setExecutor]

theorem OnTop.removeNode (ht : h.OnTop l n) (m : NodeRef) : (h.removeNode m).OnTop l n :=
  (ht.remove .asyncWaiting m).congr rfl rfl

theorem OnTop.activateNode (ht : h.OnTop l n) (m : NodeRef) (skip : Bool) :
    (h.activateNode m skip).OnTop l n := by
  unfold Heap.activateNode
  split
  · exact ht
  · refine (ht.push (c := .activated) (by simp) m).setNode m ?_
    exact fun _ => rfl

theorem OnTop.continueNode (ht : h.OnTop l n) (m : NodeRef) (b : Bool) :
    (h.continueNode m b).OnTop l n := by
  refine ((ht.removeNode m).activateNode m true).act m _ ?_
  exact fun _ => rfl

/-- **A move that is not made on an executor leaves the node on top.** -/
theorem onTop_of_move (hm : Move flows may D h h') (hl : ¬flows l) (ht : h.OnTop l n) :
    h'.OnTop l n := by
  have hne : ∀ {k}, flows k → l ≠ k := by
    rintro k hk rfl
    exact hl hk
  have hec : ∀ {k}, flows k → Container.executor k ≠ .executor l := by
    rintro k hk he
    exact hne hk (Container.executor.inj he).symm
  cases hm with
  | alike ha => exact ht.congr (ha.nodeList l) (by rw [ha.nodes])
  | act hw _ => exact ht.act _ _ fun d => (hw.rim d).1
  | flag m b _ _ => exact ht.setNode m fun _ => rfl
  | unskip m => exact ht.setNode m fun _ => rfl
  | detach hn => exact ht.detach _
  | removeFree k hc => exact ht.remove _ _
  | @wait m a e hn =>
    have hp := (ht.push (c := .waiting a e) (by simp) m).setNode m
      (f := ({ · with status := .running }))
      fun _ => rfl
    exact hp.congr rfl rfl
  | @suspend m hn =>
    have hs := ht.setNode m (f := ({ · with status := .running })) fun _ => rfl
    exact (hs.push (c := .asyncWaiting) (by simp) m).congr rfl rfl
  | continued b hn ha => exact ht.continueNode _ b
  | cancelled stop hn ha =>
    unfold cancelNode
    split
    · exact (ht.removeNode _).congr rfl rfl
    · exact (ht.continueNode _ false).congr rfl rfl
  | @takeActivated m ns ha hn =>
    rcases eq_or_ne n m with rfl | hnm
    · exact onTop_of_ne (by simp [takeActivated])
    · exact ht.congr rfl (by rw [takeActivated, nodes_setNode_of_ne hnm])
  | resume skip r hc =>
    refine (ht.act _ _ ?_).removeNode _
    exact fun _ => rfl
  | @started c x hx hne =>
    simp only [markStarted, hx, hne, ↓reduceIte]
    have hs : (h.setChart c ({ · with status := .running })).OnTop l n := ht.congr rfl rfl
    refine hs.act _ _ ?_
    exact fun _ => rfl
  | create d o hp _ =>
    by_cases hc : n.chart = h.nextChart
    · exact onTop_of_ne (by simp [initChart, note, hc])
    · exact ht.congr rfl (by simp [initChart, note, hc])
  | forget c =>
    unfold forgetChart setOwner
    split
    · exact (ht.setNode _ (f := ({ · with attacher := none })) fun _ => rfl).congr rfl rfl
    · exact ht.congr rfl rfl
  | dropWaiting es a =>
    by_cases hw : n ∈ h.waitingFor es a
    · exact onTop_of_ne (by simp [nodes_dropWaiting_of_mem hw])
    · exact ht.congr rfl (by rw [nodes_dropWaiting_of_not_mem hw])
  | @beginFlow m k a hfl hn hv =>
    have ha := ht.act m (f := ({ · with status := .idle })) (.flow m) fun _ => rfl
    exact ((ha.setExecutor (hne hfl)).push (hec hfl) m).congr rfl rfl
  | @pop m ns k hfl hk =>
    have hs := ht.setExecutor (f := fun x =>
      { x with nodeList := ns, historyNodes := m :: x.historyNodes })
      (hne hfl)
    simp only [pop, hk]
    split
    · rcases eq_or_ne n m with rfl | hnm
      · exact onTop_of_ne (by simp)
      · exact hs.congr rfl (by rw [nodes_setNode_of_ne hnm])
    · exact hs
  | current k hfl hn => exact ht.setExecutor (hne hfl)
  | child k hfl hi hn =>
    simp only [addChild, hi, ↓reduceIte]
    refine (ht.act _ _ ?_).push (hec hfl) _
    exact fun _ => rfl
  | continueFlow k hfl hn =>
    refine (ht.act _ _ ?_).push (hec hfl) _
    exact fun _ => rfl
  | agent k a hfl => exact ht.setExecutor (hne hfl)
  | clearHistory k hfl _ => exact ht.setExecutor (hne hfl)
  | closeFlow k hfl =>
    have hs := ht.setExecutor (f := ({ · with currentNode := none, currentAgent := none }))
      (hne hfl)
    exact hs.congr rfl rfl
  | @deliver r rs m ns hh hr =>
    rcases eq_or_ne n m with rfl | hnm
    · exact onTop_of_ne (by simp [takeHandled])
    · exact ht.congr rfl (by simp [takeHandled, nodes_setNode_of_ne hnm])
  | _ => exact ht.congr rfl rfl

theorem onTop_of_does (hd : Does flows may D h h') (hl : ¬flows l) (ht : h.OnTop l n) :
    h'.OnTop l n :=
  Traced.Does.invariant (I := fun g => g.OnTop l n) hd (fun hm => onTop_of_move hm hl) ht

/-- `Pop` takes the node: the list is not empty, and the node is at its back. -/
def Pops (h : Heap) (l : ℕ) (n : NodeRef) : Prop :=
  ∃ ns, (h.stack l).nodeList = n :: ns ∧ ((h.pop l).stack l).nodeList = ns ∧
    ((h.pop l).stack l).historyNodes = n :: (h.stack l).historyNodes ∧ (h.pop l).ub = h.ub

theorem pops_of_nodeList {ns : List NodeRef} (hl : (h.stack l).nodeList = n :: ns) :
    h.Pops l n := by
  refine ⟨ns, hl, ?_⟩
  simp only [pop, hl]
  split <;> simp [Heap.setNode, Heap.setExecutor]

/-- One round of the loop that pops what is pending at the iteration limit. -/
def cutTop (h : Heap) (l : ℕ) (n : NodeRef) : Heap :=
  (h.pop l).act n ({ · with status := .endRun }) (.cut n)

/-- **The loop at the iteration limit** pops what was pending, one node after the other. -/
theorem pops_cut {ns ms : List NodeRef} (hl : (h.stack l).nodeList = ns ++ n :: ms) :
    (ns.foldl (fun h n => h.cutTop l n) h).Pops l n := by
  induction ns generalizing h with
  | nil => exact pops_of_nodeList hl
  | cons m ns ih =>
    obtain ⟨rest, hm, hp, -⟩ := pops_of_nodeList hl
    obtain rfl : rest = ns ++ n :: ms := (List.cons.inj (hm.symm.trans hl)).2
    exact ih hp

end Heap

/-! ### The nodes that run -/

/-- The node whose `Node::Run` the call is in, or has just left. -/
def Frame.runs? : Frame → Option NodeRef
  | .func n | .ran n => some n
  | _ => none

/-- The flow on the executor is in `Node::Run` of the node, or just after it. -/
def Running (fs : List Frame) (n : NodeRef) (l : ℕ) : Prop :=
  ∃ f c k r, f.runs? = some n ∧ [f, .flow l c k r] <:+: fs

section Running

variable {h : Heap} {fs gs rest : List Frame} {f : Frame} {n : NodeRef} {l i : ℕ}

theorem Running.of_suffix (hr : Running fs n l) (hs : fs <:+ gs) : Running gs n l := by
  obtain ⟨f, c, k, r, hf, hin⟩ := hr
  exact ⟨f, c, k, r, hf, hin.trans hs.isInfix⟩

/-- Running in a call stack is running in its innermost call, or below it. -/
theorem running_cons : Running (f :: fs) n l ↔
    (f.runs? = some n ∧ ∃ c k r rest, fs = .flow l c k r :: rest) ∨ Running fs n l := by
  constructor
  · rintro ⟨g, c, k, r, hg, hin⟩
    rcases List.infix_cons_iff.mp hin with hp | hin
    · obtain ⟨rfl, rest, hrest⟩ := List.cons_prefix_cons.mp hp
      exact .inl ⟨hg, c, k, r, rest, hrest.symm⟩
    · exact .inr ⟨g, c, k, r, hg, hin⟩
  · rintro (⟨hf, c, k, r, rest, rfl⟩ | hr)
    · exact ⟨f, c, k, r, hf, ⟨[], rest, rfl⟩⟩
    · exact hr.of_suffix (List.suffix_cons ..)

theorem Running.tail (hr : Running (f :: fs) n l) (hf : f.runs? = none) : Running fs n l := by
  refine (running_cons.mp hr).resolve_left fun ⟨hn, _⟩ => ?_
  rw [hf] at hn
  cases hn

theorem Running.drop (hr : Running (gs ++ fs) n l) (hgs : ∀ f ∈ gs, f.runs? = none) :
    Running fs n l := by
  induction gs with
  | nil => exact hr
  | cons f gs ih =>
    rw [List.cons_append] at hr
    exact ih (hr.tail (hgs f (by simp))) fun g hg => hgs g (by simp [hg])

theorem runs_of_isCall (hf : f.isCall) : f.runs? = none := by
  cases f <;> first | rfl | exact hf.elim

/-- A node that runs in a suspended flow is the current node of an executor in use. -/
theorem Nest.running (hn : Nest h fs i) (hr : Running fs n l) :
    l ≤ i ∧ (h.stack l).currentNode = some n := by
  induction hn with
  | nil =>
    obtain ⟨f, c, k, r, -, hin⟩ := hr
    exact absurd (List.infix_nil.mp hin) (List.cons_ne_nil _ _)
  | call hf _ ih => exact ih (hr.tail (runs_of_isCall hf))
  | @func m j k r fs hu hc hn ih =>
    rcases running_cons.mp hr with ⟨hm, c, k', r', rest, he⟩ | hr
    · obtain ⟨rfl, -⟩ := Frame.flow.inj (List.cons.inj he).1
      obtain rfl : m = n := Option.some.inj hm
      exact ⟨Nat.le_refl _, hc⟩
    · obtain ⟨hl, hcur⟩ := ih (hr.tail rfl)
      exact ⟨Nat.le_succ_of_le hl, hcur⟩
  | flowReturn hu hn ih =>
    obtain ⟨hl, hcur⟩ := ih (hr.tail rfl)
    exact ⟨Nat.le_succ_of_le hl, hcur⟩

end Running

namespace State

variable {cfg : Config} {s t : State} {a : Act} {n : NodeRef} {l : ℕ} {E : NodeRef → ℕ → Prop}

/-- The node at the address of the context that is continued or cancelled. -/
def resumed? (s : State) : Act → Option NodeRef
  | .op (.continueAsyncNode ctx _) | .op (.cancelAsyncNode ctx _) => some (s.heap.nodeAt ctx)
  | _ => none

/-- `ContinueAsyncNode` or `CancelAsyncNode` succeeds for a node that is in a list other
than the waiting nodes. -/
def Late (s : State) (a : Act) : Prop :=
  ∃ n ∈ s.resumed? a, n ∈ s.heap.nodesSet ∧ s.heap.linkedElsewhere n

instance : Decidable (s.Late a) :=
  inferInstanceAs (Decidable (∃ n ∈ s.resumed? a, n ∈ s.heap.nodesSet ∧ s.heap.linkedElsewhere n))

/-- `RunFlow` starts a flow and clears the list of the executor, with the node in it. -/
def Clears (s : State) (a : Act) (n : NodeRef) (l : ℕ) : Prop :=
  a = .tau ∧ s.Strays a ∧ l = s.heap.currentIndex + 1 ∧ n ∈ (s.heap.stack l).nodeList

/-- **A step keeps the containers orderly** if it is not late. -/
theorem orderly_of_step (hw : s.Wf) (hk : ¬s.Late a) (h : s.step cfg a = some t)
    (hE : ∀ n l, s.Clears a n l → E n l) (ho : s.heap.Orderly E fun _ => True) :
    t.heap.Orderly E fun _ => True := by
  by_cases hst : s.Strays a
  · cases (trans_of_step h).1 with
    | @op o t hm hop =>
      cases o with
      | continueAsyncNode ctx b =>
        obtain ⟨hset, -⟩ := hst
        have hr := ho.removeNode_of_not_linked fun hl => hk ⟨s.heap.nodeAt ctx, rfl, hset, hl⟩
        cases hop
        rw [mapHeap, Heap.continueAsyncNode_of_mem hset (ub_of_sound (sound_of_step h))]
        exact hr.continueNode (fun _ _ _ => trivial) b
      | cancelAsyncNode ctx stop =>
        obtain ⟨hset, -⟩ := hst
        have hr := ho.removeNode_of_not_linked fun hl => hk ⟨s.heap.nodeAt ctx, rfl, hset, hl⟩
        cases hop
        rw [mapHeap, Heap.cancelAsyncNode_of_mem hset (ub_of_sound (sound_of_step h))]
        exact hr.cancelNode (fun _ _ _ => trivial) stop
      | _ => exact hst.elim
    | @enter n rest hf =>
      -- The flow starts, and what was pending on its executor is lost.
      have hcl : ∀ m ∈ (s.heap.stack (s.heap.currentIndex + 1)).nodeList,
          E m (s.heap.currentIndex + 1) := fun m hm => hE m _ ⟨rfl, hst, rfl, hm⟩
      simp only [Strays, hf] at hst
      obtain ⟨hl, hcr, har, -⟩ := hst
      obtain ⟨g, hg, hgr⟩ := (Option.any_eq_true ..).mp har
      have hlt : ¬maxStackSize ≤ s.heap.currentIndex + 1 := Nat.not_le.mpr hl
      simp only [enterFlow, hlt, ↓reduceIte, hg, hgr, hcr, Bool.and_self]
      exact ho.beginFlow (fun _ _ _ => trivial) _ g n hcl
    | continuing hf | starting hf | flow hf | ran hf | ended hf | flowReturn hf | returning hf
    | handle hf | trigger hf | async hf | events hf | deleteEvent hf | dying hf =>
      simp [Strays, hf] at hst
    | _ => exact hst.elim
  · have hd : Heap.Does (fun _ => True) (fun p => p ≠ .stray) (fun _ => False) s.heap t.heap :=
      does_of_step (fun _ _ => trivial) hw h fun p hp he => by
        subst he
        exact hst hp
    have hinv := Traced.Does.invariant (I := fun g => g.Born ∧ g.Orderly E fun _ => True) hd
      (fun hm hg => ⟨Heap.born_of_move hm hg.1,
        Heap.orderly_of_move (fun hne => hne rfl) hm hg.1 (fun _ _ _ => trivial) hg.2⟩)
      ⟨hw.born, ho⟩
    exact hinv.2

/-- Nothing is lost but by the clear of a flow. -/
theorem lost_of_step (hw : s.Wf) (hk : ¬s.Late a) (h : s.step cfg a = some t)
    (ho : s.heap.Orderly E fun _ => True) (hn : t.heap.Lost n l) :
    s.heap.Lost n l ∨ s.Clears a n l := by
  have hs : s.heap.Orderly (fun n l => s.heap.Lost n l ∨ s.Clears a n l) fun _ => True :=
    ho.lost fun _ _ => .inl
  have ht := orderly_of_step hw hk h (fun _ _ => .inr) hs
  obtain ⟨k, hk, hl⟩ := (ht.mem hn.1).resolve_left hn.2
  obtain rfl : l = k := by simpa using hk
  exact hl

theorem orderly_of_steps (h : Run.Steps (step cfg) (fun s a => ¬s.Late a) init s) :
    s.heap.Orderly (fun _ _ => True) fun _ => True := by
  have hi := h.invariant (I := fun s => s.Wf ∧ s.heap.Orderly (fun _ _ => True) fun _ => True)
    ⟨wf_init, ?_⟩ fun u a v hi hk hs =>
      ⟨wf_of_step hi.1 hs, orderly_of_step hi.1 hk hs (fun _ _ _ => trivial) hi.2⟩
  · exact hi.2
  · have hc := Heap.coherent_iff.mp Heap.coherent_init
    exact ⟨hc.nodup, hc.of_mem, fun hn => (hc.mem hn).imp_right fun ⟨l, hl, _⟩ => ⟨l, hl, trivial⟩,
      hc.linked, fun _ _ => trivial⟩

/-- **A lost node has been cleared by a flow**, and has been lost ever since. -/
theorem cleared_of_lost (h : Run.Steps (step cfg) (fun s a => ¬s.Late a) init s)
    (hn : s.heap.Lost n l) :
    ∃ u a v, Run.Steps (step cfg) (fun s a => ¬s.Late a) init u ∧ u.Clears a n l ∧
      u.step cfg a = some v ∧
      Run.Steps (step cfg) (fun w b => ¬w.Late b ∧ w.heap.Lost n l) v s := by
  refine h.since (P := fun s => s.heap.Lost n l) ?_ hn fun u a v hu hk hs hv => ?_
  · intro h0
    cases h0.1
  · exact lost_of_step (wf_of_steps wf_init hu) hk hs (orderly_of_steps hu) hv

/-! ### What `Pop` takes -/

/-- **The node that runs is on top** of its executor, if it points to it. -/
def Topped (s : State) : Prop := ∀ n l, Running s.frames n l → s.heap.OnTop l n

/-- A node on top becomes the current node and is on top. -/
theorem onTop_enterNode {h : Heap} {ns : List NodeRef} (hl : (h.stack l).nodeList = n :: ns) :
    (h.enterNode l n).OnTop l n := by
  have hlist : ((h.enterNode l n).stack l).nodeList = (h.stack l).nodeList := by
    unfold Heap.enterNode
    dsimp only
    split <;> simp [Heap.stack_setExecutor]
  exact fun _ => ⟨ns, hlist.trans hl⟩

theorem topped_runNode {c : ChartId} {k : ℕ} {r : Bool} {rest : List Frame} {ns : List NodeRef}
    (hf : s.frames = .flow l c k r :: rest) (hl : (s.heap.stack l).nodeList = n :: ns) {m : NodeRef}
    {i : ℕ} (hr : Running (s.runNode l n).frames m i) :
    Running rest m i ∨ (s.runNode l n).heap.OnTop i m := by
  have hnew : ∀ {f}, f.runs? = some n → (s.runNode l n).frames = f :: s.frames →
      Running rest m i ∨ m = n ∧ i = l := by
    intro f hfn hfs
    rw [hfs, hf] at hr
    rcases running_cons.mp hr with ⟨hm, c', k', r', rest', he⟩ | hr
    · obtain ⟨rfl, -⟩ := Frame.flow.inj (List.cons.inj he).1
      exact .inr ⟨Option.some.inj (hm.symm.trans hfn), rfl⟩
    · exact .inl (hr.tail rfl)
  have hn := runsNode s l n
  have htop := onTop_enterNode hl
  generalize s.runNode l n = t at hn hnew ⊢
  cases hn with
  | skip _ | null _ _ =>
    rcases hnew (f := .ran n) rfl rfl with hr | ⟨rfl, rfl⟩
    · exact .inl hr
    · exact .inr htop
  | script _ _ =>
    rcases hnew (f := .func n) rfl rfl with hr | ⟨rfl, rfl⟩
    · exact .inl hr
    · exact .inr htop
  | @control f _ _ _ _ =>
    rcases hnew (f := .ran n) rfl rfl with hr | ⟨rfl, rfl⟩
    · exact .inl hr
    · have hd : Heap.Does (fun _ => False) (fun _ => True) (fun _ => False) (s.heap.enterNode i m)
          (((s.heap.enterNode i m).callControl f).2.returnNode m
            (.ofBool ((s.heap.enterNode i m).callControl f).1)) :=
        (Heap.does_callControl _ f).trans (Heap.does_returnNode _ m _)
      exact .inr (Heap.onTop_of_does hd id htop)

/-- The calls of the API work on no executor. -/
theorem not_flows_of_mayCall {o : Op} (hm : s.mayCall o = true) (i : ℕ) : ¬s.Flows i := by
  unfold mayCall at hm
  split at hm
  case h_5 => cases hm
  all_goals
    rename_i hf
    simp [Flows, hf]

theorem topped_of_step (hw : s.Wf) (hs : s.Shaped) (ht : s.Topped) (h : s.step cfg a = some t) :
    t.Topped := by
  intro n l hr
  have hd : Heap.Does s.Flows (fun _ => True) (fun _ => False) s.heap t.heap :=
    does_of_step (fun _ => id) hw h fun _ _ => trivial
  have hst := hs.stacked
  -- A node that has been running, on an executor that the step does not work on.
  have hkeep : Running s.frames n l → ¬s.Flows l → t.heap.OnTop l n :=
    fun hr hl => Heap.onTop_of_does hd hl (ht n l hr)
  -- The flow that the step works for is above those that are suspended.
  have hbelow : ∀ {rest j}, Nest s.heap rest j → (∃ gs, s.frames = gs ++ rest) →
      (∀ i, s.Flows i → j < i) → Running rest n l → t.heap.OnTop l n := by
    rintro rest j hn ⟨gs, hgs⟩ hfl hr
    refine hkeep (hr.of_suffix (hgs ▸ List.suffix_append ..)) fun hl => ?_
    have hle := (hn.running hr).1
    have hlt := hfl l hl
    omega
  -- Steps that work on no executor.
  have hcalls : ∀ gs, (∀ i, ¬s.Flows i) → (∃ fs, t.frames = gs ++ fs ∧ fs <:+ s.frames) →
      (∀ f ∈ gs, f.isCall) → t.heap.OnTop l n := by
    rintro gs hfl ⟨fs, hfs, hsuf⟩ hc
    rw [hfs] at hr
    exact hkeep ((hr.drop fun f hf => runs_of_isCall (hc f hf)).of_suffix hsuf) (hfl l)
  have hpop : (∀ i, ¬s.Flows i) → t.frames <:+ s.frames → t.heap.OnTop l n :=
    fun hfl hsuf => hcalls [] hfl ⟨_, rfl, hsuf⟩ (by simp)
  have hsuf : ∀ {f rest}, s.frames = f :: rest → rest <:+ s.frames := by
    intro f rest hf
    rw [hf]
    exact List.suffix_cons ..
  have hpush : (∀ i, ¬s.Flows i) → (∃ gs, t.frames = gs ++ s.frames ∧ ∀ f ∈ gs, f.isCall) →
      t.heap.OnTop l n :=
    fun hfl ⟨gs, hgs, hc⟩ => hcalls gs hfl ⟨_, hgs, List.suffix_rfl⟩ hc
  cases (trans_of_step h).1 with
  | @enter m rest hf =>
    rw [hf] at hst
    refine hbelow ((hst.nest_of_call trivial).tail trivial) ⟨[_], hf⟩ (by simp [Flows, hf]) ?_
    rcases @frames_of_enterFlow cfg s m rest hf with hsuf | ⟨k, he⟩
    · have hr' := hr.of_suffix hsuf
      rw [hf] at hr'
      exact hr'.tail rfl
    · rw [he] at hr
      exact hr.tail rfl
  | @continuing m rest hf =>
    rw [hf] at hst
    have hn : Nest s.heap rest s.heap.currentIndex := (hst.nest_of_call trivial).tail trivial
    have hrest : Running rest n l := by
      rcases frames_of_continueFlow hf with hsuf | he
      · have hr' := hr.of_suffix hsuf
        rw [hf] at hr'
        exact hr'.tail rfl
      · rw [he] at hr
        exact hr.tail rfl
    have hold : s.heap.OnTop l n := ht n l (hf ▸ hrest.of_suffix (List.suffix_cons ..))
    unfold continueFlow
    dsimp only
    split
    · exact hold
    · split
      · rename_i hcur
        rcases eq_or_ne l (s.heap.currentIndex - 1) with rfl | hne
        · -- The node that goes on is the one that runs there.
          obtain rfl : m = n := Option.some.inj (hcur.2.symm.trans (hn.running hrest).2)
          exact Heap.onTop_push _ _ m
        · refine Heap.OnTop.push (hold.act m _ ?_) ?_ m
          · exact fun _ => rfl
          · exact fun he => hne (Container.executor.inj he).symm
      · exact hold
  | @flow j c k r rest hf =>
    rw [hf] at hst
    obtain ⟨hj, hj0, hu, hn⟩ := hst.flow_inv
    rw [hj] at hj0 hn
    have hlow : Running rest n l → (s.flowRound cfg j c k r rest).heap.OnTop l n :=
      hbelow hn ⟨[_], hf⟩ (by simp only [Flows, hf]; omega)
    have hround := rounds cfg s j c k r rest
    generalize s.flowRound cfg j c k r rest = t at hround hlow hr ⊢
    cases hround with
    | ends | cut | waiting | defer => exact hlow (hr.tail rfl)
    | @run m ms hl _ _ _ _ =>
      rcases topped_runNode (s := { s with frames := .flow j c (k + 1) r :: rest }) rfl hl hr with
        hr | htop
      · exact hlow hr
      · exact htop
  | @ran m j c k r rest hf =>
    rw [hf] at hst
    obtain ⟨k', r', rest', hl0, he, -, -, hn⟩ := hst.ran_inv
    obtain ⟨⟨rfl, rfl, -⟩, rfl⟩ : (j = s.heap.currentIndex ∧ c = m.chart ∧ _) ∧ rest = rest' := by
      simpa using he
    exact hbelow hn ⟨[_, _], hf⟩ (by simp only [Flows, hf]; omega) (hr.tail rfl)
  | @ended j c r rest hf =>
    rw [hf] at hst
    obtain ⟨hj, hj0, hu, hn⟩ := hst.ended_inv
    rw [hj] at hj0 hn
    refine hbelow hn ⟨[_], hf⟩ (by simp only [Flows, hf]; omega) ?_
    unfold flowCheck at hr
    split at hr
    · obtain ⟨gs, hgs, hc⟩ := pushed_chartReturn { s with frames := .flowReturn j c :: rest } c true
      rw [hgs] at hr
      exact (hr.drop fun f hf => runs_of_isCall (hc f hf)).tail rfl
    · exact hr
  | @flowReturn j c rest hf =>
    rw [hf] at hst
    have hn : Nest s.heap (.flowReturn j c :: rest) s.heap.currentIndex := by
      cases hst with
      | nest hn => exact hn
    obtain ⟨hj, hj0, -, hn⟩ := hn.flowReturn_inv
    rw [hj] at hj0 hn
    exact hbelow hn ⟨[_], hf⟩ (by simp only [Flows, hf]; omega) hr
  | @ret m rest r hf =>
    refine hkeep ?_ (by simp [Flows, hf])
    rw [hf]
    exact running_cons.mpr ((running_cons.mp hr).imp_left fun hm => hm)
  | @starting g c rest hf => exact hpop (by simp [Flows, hf]) (hsuf hf)
  | @returning c rest hf =>
    obtain ⟨gs, hgs, hc⟩ := pushed_finishReturn { s with frames := rest } c
    exact hcalls gs (by simp [Flows, hf]) ⟨_, hgs, hsuf hf⟩ hc
  | @handle ev rest hf =>
    rcases frames_of_handleRound s rest with he | ⟨_, _, m, _, _, _, he⟩
    · exact hpop (by simp [Flows, hf]) (by rw [he]; exact hsuf hf)
    · exact hpush (by simp [Flows, hf]) ⟨[.enter m], he, by simp [Frame.isCall]⟩
  | @trigger p ev rest hf => exact hpop (by simp [Flows, hf]) (hsuf hf)
  | @async rest hf =>
    rcases frames_of_asyncRound s rest with he | ⟨m, _, _, he⟩
    · exact hcalls [.events] (by simp [Flows, hf]) ⟨_, he, hsuf hf⟩ (by simp [Frame.isCall])
    · exact hpush (by simp [Flows, hf]) ⟨[.enter m], he, by simp [Frame.isCall]⟩
  | @events rest hf =>
    rcases frames_of_eventsRound cfg s rest with ⟨as, he⟩ | ⟨ev, he⟩ | ⟨ev, he⟩
    · exact hcalls [.dying as] (by simp [Flows, hf]) ⟨_, he, hsuf hf⟩ (by simp [Frame.isCall])
    · exact hpush (by simp [Flows, hf]) ⟨[.deleteEvent ev], he, by simp [Frame.isCall]⟩
    · exact hpush (by simp [Flows, hf]) ⟨[.handle ev, .deleteEvent ev], he, by simp [Frame.isCall]⟩
  | @deleteEvent ev rest hf =>
    exact hpop (by simp [Flows, hf]) (hsuf hf)
  | @dying as rest hf =>
    rcases frames_of_dyingRound s as rest with he | ⟨g, gs, he⟩
    · exact hpop (by simp [Flows, hf]) (by rw [he]; exact hsuf hf)
    · exact hcalls [.release g, .dying gs] (by simp [Flows, hf]) ⟨_, he, hsuf hf⟩
        (by simp [Frame.isCall])
  | @released g rest hf => exact hpop (by simp [Flows, hf]) (hsuf hf)
  | op hm ho =>
    exact hpush (not_flows_of_mayCall hm)
      (pushes_runOp hw.born (ub_of_sound (sound_of_step h)) ho).calls
  | @done c rest hf => exact hpop (by simp [Flows, hf]) (hsuf hf)
  | @fire m rest hf hn =>
    exact hpush (by simp [Flows, hf]) ⟨[.enter m], rfl, by simp [Frame.isCall]⟩
  | tick hf ha => exact hpush (by simp [Flows, hf]) (pushed_event ..)
  | @timersDone rest hf =>
    exact hcalls [.async] (by simp [Flows, hf]) ⟨_, rfl, hsuf hf⟩ (by simp [Frame.isCall])

theorem topped_init : init.Topped := by
  intro n l hr
  have hn : Nest init.heap [] 0 := .nil
  have hc := (hn.running hr).2
  cases hc

theorem topped_of_reachable (h : Reachable cfg s) : s.Topped := by
  have hi := h.invariant (I := fun s => s.Wf ∧ s.Shaped ∧ s.Topped)
    ⟨wf_init, shaped_init, topped_init⟩ fun u a v hi _ hs =>
      ⟨wf_of_step hi.1 hs, shaped_of_step hi.1 hi.2.1 hs, topped_of_step hi.1 hi.2.1 hi.2.2 hs⟩
  exact hi.2.2

variable (cfg) in
/-- A clear of `RunFlow` has dropped the node from the list of the executor, and it has
been lost ever since. -/
def Cleared (s : State) (n : NodeRef) (l : ℕ) : Prop :=
  ∃ u a v, Reachable cfg u ∧ u.Clears a n l ∧ u.step cfg a = some v ∧
    Run.Steps (step cfg) (fun w _ => w.heap.Lost n l) v s

variable (cfg) in
/-- **The executor pops what it ran.** -/
structure PopsRun (s : State) : Prop where
  /-- No executor holds a node twice. -/
  nodup : ∀ l, (s.heap.stack l).nodeList.Nodup
  /-- A node in the list of an executor points to it. -/
  of_mem : ∀ l n, n ∈ (s.heap.stack l).nodeList → (s.heap.nodes n).container = some (.executor l)
  /-- A node that points to an executor is in its list, unless `RunFlow` has cleared it. -/
  mem : ∀ l n, (s.heap.nodes n).container = some (.executor l) →
    n ∈ (s.heap.stack l).nodeList ∨ s.Cleared cfg n l
  /-- After `Node::Run`, a node that still points to the executor is what `Pop` takes. -/
  ran : ∀ n l c k r rest, s.frames = .ran n :: .flow l c k r :: rest →
    (s.heap.nodes n).container = some (.executor l) → s.heap.Pops l n
  /-- The nodes that the loop looks at, or pops at the iteration limit, are in the list. -/
  flow : ∀ l c k r rest, s.frames = .flow l c k r :: rest →
    ∀ ns n ms, (s.heap.stack l).nodeList = ns ++ n :: ms →
      (ns.foldl (fun h n => h.cutTop l n) s.heap).Pops l n

/-- **The executors pop what they ran** in runs without late continuations. -/
theorem popsRun_of_steps (h : Run.Steps (step cfg) (fun s a => ¬s.Late a) init s) :
    s.PopsRun cfg := by
  have hreach : ∀ {u}, Run.Steps (step cfg) (fun s a => ¬s.Late a) init u → Reachable cfg u :=
    fun hu => hu.mono fun _ _ _ => trivial
  have ho := orderly_of_steps h
  refine ⟨fun l => ho.nodup (.executor l), fun l n hn => ho.of_mem hn, fun l n hn => ?_,
    fun n l c k r rest hf hn => ?_, fun l c k r rest _ ns n ms => Heap.pops_cut⟩
  · by_cases hm : n ∈ (s.heap.stack l).nodeList
    · exact .inl hm
    · obtain ⟨u, a, v, hu, hcl, hv, hs⟩ := cleared_of_lost h ⟨hn, hm⟩
      exact .inr ⟨u, a, v, hreach hu, hcl, hv, hs.mono fun _ _ hw => hw.2⟩
  · have hrun : Running s.frames n l := ⟨.ran n, c, k, r, rfl, [], rest, hf.symm⟩
    obtain ⟨ns, hns⟩ := topped_of_reachable (hreach h) n l hrun hn
    exact Heap.pops_of_nodeList hns

/-- A chart whose start node has two successors. -/
def forkChart : ChartData :=
  { name := "fork", nodes := [{ success := [1, 2] }, { func := .script }, { func := .script }] }

/-- The second successor is suspended; the chart is stopped and started again, and now the
first successor runs while the second one is pending. -/
def forkActs : List Act :=
  [.op (.importChart forkChart), .op (.register 0), .op (.attachChart 1 "fork"),
    .op (.startChart 0), .op .step, .timersDone, .ret .rTrue, .op .createAsyncContext, .ret .rTrue,
    .op (.stopChart 0), .op (.startChart 0), .op .step, .timersDone]

theorem popsRun_fork : ∃ s, Run.Steps (step {}) (fun s a => ¬s.Late a) init s ∧
    (s.heap.stack 1).nodeList = [⟨0, 1⟩, ⟨0, 2⟩] ∧ s.PopsRun {} := by
  obtain ⟨s, hs, hl⟩ := exists_of_guarded {} (fun s a => ¬s.Late a) forkActs
    (fun s => (s.heap.stack 1).nodeList = [⟨0, 1⟩, ⟨0, 2⟩]) (by decide +kernel)
  exact ⟨s, hs, hl, popsRun_of_steps hs⟩

/-- **A late continuation** in the function of the first successor: the second one stays in
the list of the executor, and points to the activated nodes. -/
theorem not_popsRun_late : ∃ s, Reachable {} s ∧ ⟨0, 2⟩ ∈ (s.heap.stack 1).nodeList ∧
    (s.heap.nodes ⟨0, 2⟩).container = some .activated ∧ ¬s.PopsRun {} := by
  obtain ⟨s, hs, hm, hc⟩ := exists_of_play {}
    (forkActs ++ [.op (.continueAsyncNode ⟨⟨0, 2⟩, 0⟩ true)])
    (fun s => ⟨0, 2⟩ ∈ (s.heap.stack 1).nodeList ∧
      (s.heap.nodes ⟨0, 2⟩).container = some .activated) (by decide +kernel)
  refine ⟨s, hs, hm, hc, fun hp => ?_⟩
  have he := hp.of_mem 1 _ hm
  rw [hc] at he
  cases he

end State

end Asyncflow
