import Asyncflow.Moves.Replay

/-!
# Nodes that wait and are reached again

What wakes a waiting node is its place in a waiting list of an agent, its timer, or
its place among the activated nodes. When `AddSubsequenceNodes` reaches a node it
moves it to the executor, whatever it was waiting in, and the loop of `RunFlow`
then drops a running node without putting it back: only a timer survives.
-/

namespace Asyncflow

/-- What a waiting node waits for. -/
inductive Wait
  /-- An event of an agent, for instance the tick. -/
  | event (a : AgentId) (e : EventId)
  /-- The expiry of its timer. -/
  | timer
  /-- The next `AsyncManager::Step`, having been continued. -/
  | activated
deriving DecidableEq

/-- The containers from which nodes are woken. -/
def Container.wakes : Container → Bool
  | .waiting _ _ | .activated => true
  | _ => false

/-- The node is running, and registered with what will wake it. -/
def Heap.Waits (h : Heap) (n : NodeRef) : Wait → Prop
  | .event a e => (h.nodes n).status = .running ∧ (h.nodes n).container = some (.waiting a e)
  | .timer => (h.nodes n).status = .running ∧ (h.nodes n).attacher = some (.timer true)
  | .activated => (h.nodes n).status = .running ∧ (h.nodes n).container = some .activated

instance (h : Heap) (n : NodeRef) (w : Wait) : Decidable (h.Waits n w) := by
  cases w <;> unfold Heap.Waits <;> infer_instance

/-- An edge leads to the node. -/
def Obs.reaches (n : NodeRef) : Obs → Prop
  | .edge _ m => m = n
  | _ => False

/-- The entries that put a node into a waiting list or among the activated nodes. -/
def Obs.registers (n : NodeRef) : Obs → Prop
  | .wait m _ _ | .continued m _ | .cancelled m _ => m = n
  | _ => False

/-- Something other than an edge or the iteration limit happens to the waiting node. -/
def Obs.interferes (n : NodeRef) : Obs → Prop
  | .edge _ _ | .cut _ | .misplaced _ | .ret _ _ => False
  | .stop m was => m = n ∧ was = .running
  | o => o.about n

instance (n : NodeRef) : DecidablePred (Obs.interferes n) := fun o => by
  apply @Obs.casesOn (fun o => Decidable (o.interferes n)) o <;> intros <;>
    unfold Obs.interferes <;> infer_instance

namespace Heap

variable {h h' g : Heap} {n m : NodeRef} {flows : ℕ → Prop} {may : Permit → Prop}
  {D : NodeRef → Prop}

/-! ### The registration -/

/-- The node is in a waiting list or among the activated nodes. -/
def Registered (h : Heap) (n : NodeRef) : Prop := (h.nodes n).container.any (·.wakes) = true

/-- The node is not newly registered, and unless it no longer is, no edge leads to it. -/
def Leaves (n : NodeRef) (h h' : Heap) : Prop :=
  h'.Registered n → h.Registered n ∧ Adds (fun o => ¬o.reaches n) h h'

theorem Leaves.trans (hl : Leaves n h g) (hl' : Leaves n g h') : Leaves n h h' := fun hr =>
  let ⟨hg, ha'⟩ := hl' hr
  let ⟨hh, ha⟩ := hl hg
  ⟨hh, ha.trans ha'⟩

theorem leaves_of_eq (hc : (h'.nodes n).container = (h.nodes n).container) (hl : h'.log = h.log) :
    Leaves n h h' := fun hr => ⟨by rwa [Registered, ← hc], adds_of_eq hl⟩

theorem leaves_of_cons {o : Obs} (hc : (h'.nodes n).container = (h.nodes n).container)
    (hl : h'.log = o :: h.log) (ho : ¬o.reaches n) : Leaves n h h' := fun hr =>
  ⟨by rwa [Registered, ← hc], adds_of_cons ho hl⟩

theorem leaves_setNode (m : NodeRef) {f : Node → Node} (hf : ∀ d, (f d).container = d.container) :
    Leaves n h (h.setNode m f) :=
  leaves_of_eq (field_setNode h m n Node.container hf) rfl

theorem leaves_act (m : NodeRef) {f : Node → Node} {o : Obs}
    (hf : ∀ d, (f d).container = d.container) (ho : ¬o.reaches n) : Leaves n h (h.act m f o) :=
  leaves_of_cons (field_setNode h m n Node.container hf) rfl ho

theorem leaves_remove (h : Heap) (c : Container) (m : NodeRef) : Leaves n h (h.remove c m) := by
  intro hr
  rcases eq_or_ne n m with rfl | hm
  · simp [Registered] at hr
  · rw [Registered, nodes_remove_of_ne hm] at hr
    exact ⟨hr, adds_remove id h c⟩

theorem leaves_detach (h : Heap) (m : NodeRef) : Leaves n h (h.detach m) := by
  unfold detach
  split
  · exact leaves_remove h _ m
  · exact leaves_of_eq rfl rfl

/-- Pushing another node, or to an executor or the nodes not yet continued. -/
theorem leaves_push (h : Heap) {c : Container} (hc : c.wakes = true → n ≠ m) :
    Leaves n h (h.push c m) := by
  intro hr
  rcases eq_or_ne n m with rfl | hm
  · rw [Registered, container_push] at hr
    exact absurd rfl (hc hr)
  · rw [Registered, nodes_push_of_ne hm] at hr
    exact ⟨hr, adds_push id h c⟩

theorem leaves_push_executor (h : Heap) (l : ℕ) (m : NodeRef) :
    Leaves n h (h.push (.executor l) m) := leaves_push h nofun

/-- The container pointer is cleared. -/
theorem leaves_clear (h : Heap) (m : NodeRef) {f : Node → Node}
    (hf : ∀ d, (f d).container = none) : Leaves n h (h.setNode m f) := by
  intro hr
  rcases eq_or_ne n m with rfl | hm
  · simp [Registered, hf] at hr
  · rw [Registered, nodes_setNode_of_ne hm] at hr
    exact ⟨hr, adds_of_eq rfl⟩

theorem leaves_removeNode (h : Heap) (m : NodeRef) : Leaves n h (h.removeNode m) :=
  (leaves_remove h .asyncWaiting m).trans (leaves_of_eq rfl rfl)

theorem leaves_activateNode (h : Heap) (skip : Bool) (hm : n ≠ m) :
    Leaves n h (h.activateNode m skip) := by
  unfold activateNode
  split
  · exact leaves_of_eq rfl rfl
  · exact (leaves_push h fun _ => hm).trans (leaves_setNode m fun _ => rfl)

/-- **A move registers a node only with an entry that says so.** -/
theorem leaves_of_move (hm : Move flows may D h h') (n : NodeRef) :
    Leaves n h h' ∨ ∃ o l, h'.log = o :: l ∧ o.registers n := by
  cases hm with
  | alike ha =>
    refine .inl fun hr => ⟨by rwa [Registered, ← ha.nodes], ?_⟩
    rcases ha.log with hl | ⟨o, ho, hl⟩
    · exact adds_of_eq hl
    · refine adds_of_cons (fun hn => ?_) hl
      cases o <;> first | exact hn | exact ho
  | act hw _ =>
    refine .inl (leaves_act _ (fun d => (hw.rim d).1) ?_)
    cases hw <;> exact id
  | flag m b => exact .inl (leaves_setNode m fun _ => rfl)
  | unskip m => exact .inl (leaves_setNode m fun _ => rfl)
  | detach hn => exact .inl (leaves_detach h _)
  | removeFree l hc => exact .inl (leaves_remove h _ _)
  | @wait m a e hn =>
    rcases eq_or_ne n m with rfl | hm
    · exact .inr ⟨.wait n a e, _, rfl, rfl⟩
    · have ha : Leaves n (h.push (.waiting a e) m) ((h.push (.waiting a e) m).act m
          ({ · with status := .running }) (.wait m a e)) := leaves_act m (fun _ => rfl) id
      exact .inl ((leaves_push h fun _ => hm).trans ha)
  | @suspend m hn =>
    have hs : Leaves n h (h.setNode m ({ · with status := .running })) :=
      leaves_setNode m fun _ => rfl
    have hp : Leaves n (h.setNode m ({ · with status := .running }))
      ((h.setNode m ({ · with status := .running })).push .asyncWaiting m) := leaves_push _ nofun
    exact .inl ((hs.trans hp).trans (leaves_of_cons (o := .suspend m h.nextContext) rfl rfl id))
  | @continued m b hn ha =>
    rcases eq_or_ne n m with rfl | hm
    · exact .inr ⟨.continued n b, _, rfl, rfl⟩
    · exact .inl (((leaves_removeNode h m).trans (leaves_activateNode _ true hm)).trans
        (leaves_act m (fun _ => rfl) id))
  | @cancelled m stop hn ha =>
    unfold cancelNode
    rcases eq_or_ne n m with rfl | hm
    · refine .inr ⟨.cancelled n stop, ?_⟩
      split <;> exact ⟨_, rfl, rfl⟩
    · split
      · exact .inl ((leaves_removeNode h m).trans
          (leaves_of_cons (o := .cancelled m stop) rfl rfl id))
      · exact .inl (((leaves_removeNode h m).trans (leaves_activateNode _ true hm)).trans
          (leaves_act m (fun _ => rfl) id))
  | @takeActivated m ns ha hn =>
    have hs : Leaves n h { h with activated := ns } := leaves_of_eq rfl rfl
    exact .inl (hs.trans (leaves_clear _ m fun _ => rfl))
  | @resume m skip r hc =>
    have ha : Leaves n h (h.act m ({ · with skip := skip, result := r }) (.resume m r)) :=
      leaves_act m (fun _ => rfl) id
    exact .inl (ha.trans (leaves_removeNode _ m))
  | @started c x hx hne =>
    simp only [markStarted, hx, hne, ↓reduceIte]
    have hs : Leaves n h (h.setChart c ({ · with status := .running })) := leaves_of_eq rfl rfl
    exact .inl (hs.trans (leaves_act _ (fun _ => rfl) id))
  | create d o hp ho =>
    refine .inl fun hr => ?_
    have hn : (h.initChart d o).nodes n = if n.chart = h.nextChart then {} else h.nodes n := rfl
    rw [Registered, hn] at hr
    split at hr
    · cases hr
    · exact ⟨hr, adds_of_cons id rfl⟩
  | forget c =>
    have hs : Leaves n h (h.setOwner c ({ · with attacher := none })) := by
      unfold setOwner
      split
      · exact leaves_setNode _ fun _ => rfl
      · exact leaves_of_eq rfl rfl
    exact .inl (hs.trans (leaves_of_cons rfl rfl id))
  | dropWaiting es a =>
    refine .inl fun hr => ⟨?_, adds_of_eq rfl⟩
    rw [Registered] at hr ⊢
    by_cases hn : n ∈ h.waitingFor es a
    · rw [nodes_dropWaiting_of_mem hn] at hr
      cases hr
    · rwa [nodes_dropWaiting_of_not_mem hn] at hr
  | @beginFlow m l a hfl hn hv =>
    have ha : Leaves n h (h.act m ({ · with status := .idle }) (.flow m)) :=
      leaves_act m (fun _ => rfl) id
    have hs : Leaves n (h.act m ({ · with status := .idle }) (.flow m))
      ((h.act m ({ · with status := .idle }) (.flow m)).setExecutor l
        ({ · with currentAgent := some a, nodeList := [] })) := leaves_of_eq rfl rfl
    exact .inl (((ha.trans hs).trans (leaves_push_executor _ l m)).trans (leaves_of_eq rfl rfl))
  | @pop m ns l hfl hl =>
    have hs : Leaves n h (h.setExecutor l fun x =>
        { x with nodeList := ns, historyNodes := m :: x.historyNodes }) := leaves_of_eq rfl rfl
    simp only [Heap.pop, hl]
    split
    · exact .inl (hs.trans (leaves_clear _ m fun _ => rfl))
    · exact .inl hs
  | @child p i l hfl hi hn =>
    simp only [addChild, hi, ↓reduceIte]
    refine .inl fun hr => ?_
    rcases eq_or_ne n ⟨p.chart, i⟩ with rfl | hm
    · rw [Registered, container_push] at hr
      cases hr
    · have ha : Leaves n h (h.act ⟨p.chart, i⟩ ({ · with preNodeId := p.id })
          (.edge p ⟨p.chart, i⟩)) := leaves_act _ (fun _ => rfl) hm.symm
      exact (ha.trans (leaves_push_executor _ l _)) hr
  | @continueFlow m l hfl hn =>
    have ha : Leaves n h (h.act m ({ · with runFlag := true }) (.goOn m)) :=
      leaves_act m (fun _ => rfl) id
    exact .inl (ha.trans (leaves_push_executor _ l m))
  | @deliver r rs m ns hh hr =>
    let g : Heap := { h with handling := { r with nodes := ns } :: rs }
    have hs : Leaves n h g := leaves_of_eq rfl rfl
    have hc : Leaves n g (g.setNode m
      ({ · with container := none, linked := false, status := .idle })) :=
      leaves_clear g m fun _ => rfl
    exact .inl ((hs.trans hc).trans (leaves_of_cons (o := .deliver m) rfl rfl id))
  | _ => exact .inl (leaves_of_eq rfl rfl)

/-- **A node that was reached is not registered** before it registers again. -/
def Unregistered (h : Heap) : Prop :=
  ∀ n, History.Since (Obs.reaches n) (Obs.registers n) h.log → ¬h.Registered n

theorem unregistered_of_move (hm : Move flows may D h h') (hu : h.Unregistered) :
    h'.Unregistered := by
  intro n hs hr
  rcases leaves_of_move hm n with hl | ⟨o, l, hl, ho⟩
  · obtain ⟨hr, new, hnew, hn⟩ := hl hr
    rw [hnew] at hs
    exact hu n (History.since_of_append hn hs) hr
  · rw [hl] at hs
    rcases hs with hs | ⟨hs, -⟩
    · cases o <;> first | exact ho | exact hs
    · exact hs ho

theorem registered_of_waits {w : Wait} (hw : h.Waits n w) (ht : w ≠ .timer) : h.Registered n := by
  cases w with
  | timer => exact absurd rfl ht
  | _ => simp [Registered, hw.2, Container.wakes]

end Heap

/-! ### The history of a waiting node -/

variable {n : NodeRef} {o : Obs} {new log : List Obs}

/-- What does not interfere with a running node leaves it running with its timer, but
for the iteration limit. -/
theorem timed_of_calm {d : Digest} (ho : ¬o.interferes n) (hc : o ≠ .cut n)
    (hs : o.about n → o.Says d) (hd : d.status = .running ∧ d.timed = true) :
    (o.replay n d).status = .running ∧ (o.replay n d).timed = true := by
  by_cases ha : o.about n
  · rw [Obs.replay_of_about ha]
    cases o with
    | edge p m => exact hd
    | misplaced m => exact hd
    | ret m r =>
      rw [Obs.effect_ret]
      split <;> exact hd
    | cut m => exact absurd (congrArg Obs.cut ha) hc
    | stop m was => exact absurd ⟨ha, (hs ha).trans hd.1⟩ ho
    | _ => exact absurd ha ho
  · rwa [Obs.replay_of_not_about ha]

/-- It does not make a node running. -/
theorem not_running_of_calm {d : Digest} (ho : ¬o.interferes n) (hd : d.status ≠ .running) :
    (o.replay n d).status ≠ .running := by
  by_cases ha : o.about n
  · rw [Obs.replay_of_about ha]
    cases o with
    | edge p m => exact hd
    | misplaced m => exact hd
    | ret m r =>
      rw [Obs.effect_ret]
      split <;> exact hd
    | cut m => exact nofun
    | stop m was => exact nofun
    | _ => exact absurd ha ho
  · rwa [Obs.replay_of_not_about ha]

theorem not_running_of_cut (log : List Obs) (hcalm : ∀ o ∈ new, ¬o.interferes n)
    (hcut : .cut n ∈ new) :
    (digestOf n (new ++ log)).status ≠ .running := by
  induction new with
  | nil => cases hcut
  | cons o new ih =>
    rw [List.cons_append, digestOf_cons]
    by_cases hin : .cut n ∈ new
    · exact not_running_of_calm (hcalm o (by simp)) (ih (fun o ho => hcalm o (by simp [ho])) hin)
    · obtain rfl : .cut n = o := (List.mem_cons.mp hcut).resolve_right hin
      rw [Obs.replay_of_about (o := .cut n) rfl]
      exact nofun

namespace Heap

variable {h h' : Heap}

/-- The timer of a waiting node survives a calm history that does not cut it. -/
theorem timed_of_log (ht : h'.Told) (hlog : h'.log = new ++ log)
    (hcalm : ∀ o ∈ new, ¬o.interferes n) (hcut : .cut n ∉ new)
    (hd : (digestOf n log).status = .running ∧ (digestOf n log).timed = true) :
    (h'.nodes n).digest.status = .running ∧ (h'.nodes n).digest.timed = true := by
  rw [ht.digest, hlog]
  -- The entries are read from the oldest one on, each with those before it.
  suffices hsuf : ∀ after l, new = after ++ l →
      (digestOf n (l ++ log)).status = .running ∧ (digestOf n (l ++ log)).timed = true from
    hsuf [] new rfl
  intro after l hl
  induction l generalizing after with
  | nil => exact hd
  | cons o l ih =>
    have hin : o ∈ new := by simp [hl]
    refine timed_of_calm (hcalm o hin) (fun hc => hcut (hc ▸ hin)) (fun ha => ?_)
      (ih (after ++ [o]) (by simp [hl]))
    exact ht.honest n o after (l ++ log) (by simp [hlog, hl]) ha

theorem waits_timer_iff : h.Waits n .timer ↔
    (h.nodes n).digest.status = .running ∧ (h.nodes n).digest.timed = true := by
  simp [Waits, Node.digest]

end Heap

namespace State

variable {cfg : Config} {s u : State} {w : Wait}

theorem unregistered_of_reachable (h : Reachable cfg s) : s.heap.Unregistered := by
  have hd : Heap.Does (fun _ => True) (fun _ => True) (fun _ => False) init.heap s.heap :=
    does_of_steps (fun _ => trivial) (fun _ _ _ _ _ => trivial) wf_init h
  exact Traced.Does.invariant (I := Heap.Unregistered) hd Heap.unregistered_of_move
    fun _ hs => hs.elim

/-- **When a waiting node that is reached again keeps waiting**: exactly when it waits
for its timer, and the iteration limit does not drop it. The run may have any length,
as long as nothing else happens to the node. -/
theorem waits_iff_of_reached (hs : Reachable cfg s) (hu : Run.Reaches (step cfg) s u)
    (hw : s.heap.Waits n w) (hlog : u.heap.log = new ++ s.heap.log)
    (hedge : ∃ p, .edge p n ∈ new) (hcalm : ∀ o ∈ new, ¬o.interferes n) :
    u.heap.Waits n w ↔ w = .timer ∧ .cut n ∉ new := by
  obtain ⟨p, hp⟩ := hedge
  constructor
  · intro hwu
    have hwt : w = .timer := by
      by_contra hwt
      refine unregistered_of_reachable (hs.trans hu) n ?_ (Heap.registered_of_waits hwu hwt)
      rw [hlog]
      refine History.since_append_of_mem hp rfl fun o ho hreg => hcalm o ho ?_
      cases o <;> first | exact hreg | exact hreg.elim
    subst hwt
    refine ⟨rfl, fun hcut => not_running_of_cut s.heap.log hcalm hcut ?_⟩
    rw [← hlog, ← (told_of_reachable (hs.trans hu)).digest]
    exact (Heap.waits_timer_iff.mp hwu).1
  · rintro ⟨rfl, hcut⟩
    have hd := Heap.waits_timer_iff.mp hw
    rw [(told_of_reachable hs).digest] at hd
    exact Heap.waits_timer_iff.mpr
      (Heap.timed_of_log (told_of_reachable (hs.trans hu)) hlog hcalm hcut hd)

/-- A chart with two ways into its second node, a script that waits. -/
def diamondChart : ChartData :=
  { name := "diamond", nodes := [{ success := [1, 2] }, { func := .script, isEvent := true },
    { failure := [1] }] }

/-- The second node has been called; the second way into it is still pending. -/
def diamondActs : List Act :=
  [.op (.importChart diamondChart), .op (.register 0), .op (.attachChart 1 "diamond"),
    .op (.startChart 0), .op .step, .timersDone]

/-- The node keeps waiting for its timer. -/
theorem waits_timer_of_reached : ∃ s u, Reachable {} s ∧ Run.Reaches (step {}) s u ∧
    u.frames = [] ∧ s.heap.Waits ⟨0, 1⟩ .timer ∧ .edge ⟨0, 2⟩ ⟨0, 1⟩ ∈ since s u ∧
    u.heap.Waits ⟨0, 1⟩ .timer := by
  obtain ⟨s, u, hs, hu, hf, hw, hlog, hedge, hcalm, hcut⟩ := exists_of_play_play {}
    (diamondActs ++ [.op .wait]) [.ret .rTrue]
      (fun s u => u.frames = [] ∧ s.heap.Waits ⟨0, 1⟩ .timer ∧
      u.heap.log = since s u ++ s.heap.log ∧ .edge ⟨0, 2⟩ ⟨0, 1⟩ ∈ since s u ∧
      (∀ o ∈ since s u, ¬o.interferes ⟨0, 1⟩) ∧ .cut ⟨0, 1⟩ ∉ since s u) (by decide +kernel)
  exact ⟨s, u, hs, hu, hf, hw, hedge,
    (waits_iff_of_reached hs hu hw hlog ⟨_, hedge⟩ hcalm).mpr ⟨rfl, hcut⟩⟩

/-- **An event waiter is lost**: the flow is over, nothing but the second edge happened
to the node, and it is no longer in the waiting list. -/
theorem not_waits_event_of_reached : ∃ s u, Reachable {} s ∧ Run.Reaches (step {}) s u ∧
    u.frames = [] ∧ s.heap.Waits ⟨0, 1⟩ (.event 1 0) ∧ .edge ⟨0, 2⟩ ⟨0, 1⟩ ∈ since s u ∧
    (∀ o ∈ since s u, ¬o.interferes ⟨0, 1⟩) ∧ (s.heap.nodes ⟨0, 1⟩).isWaitAll = false ∧
    ¬u.heap.Waits ⟨0, 1⟩ (.event 1 0) :=
  exists_of_play_play {} (diamondActs ++ [.op (.waitEvent 1 0)]) [.ret .rTrue]
    (fun s u => u.frames = [] ∧ s.heap.Waits ⟨0, 1⟩ (.event 1 0) ∧
      .edge ⟨0, 2⟩ ⟨0, 1⟩ ∈ since s u ∧ (∀ o ∈ since s u, ¬o.interferes ⟨0, 1⟩) ∧
      (s.heap.nodes ⟨0, 1⟩).isWaitAll = false ∧ ¬u.heap.Waits ⟨0, 1⟩ (.event 1 0))
    (by decide +kernel)

end State

/-! ### A wait that cannot be registered -/

namespace Heap

variable {cfg : Config} {h : Heap} {n : NodeRef} {a : AgentId} {e : EventId}

/-- **A wait for an event either takes hold or leaves no trace**: with an id of the event
table the node is running, to be skipped, and the last in the agent's list; with any other
id the call fails and the node is as it was. -/
def AwaitsOrNot (cfg : Config) (h : Heap) (n : NodeRef) (a : AgentId) (e : EventId) : Prop :=
  if cfg.validEvent e then
    ((h.managerWaitEvent cfg a e).2.nodes n).status = .running ∧
      ((h.managerWaitEvent cfg a e).2.nodes n).skip = true ∧
      ((h.managerWaitEvent cfg a e).2.waiting a e).getLast? = some n
  else
    (h.managerWaitEvent cfg a e).1 = false ∧
      ((h.managerWaitEvent cfg a e).2.nodes n).status = (h.nodes n).status ∧
      ((h.managerWaitEvent cfg a e).2.nodes n).skip = (h.nodes n).skip ∧
      ((h.managerWaitEvent cfg a e).2.nodes n).result = (h.nodes n).result ∧
      ((h.managerWaitEvent cfg a e).2.nodes n).container = (h.nodes n).container

instance : Decidable (h.AwaitsOrNot cfg n a e) := by
  unfold AwaitsOrNot
  infer_instance

/-- `Manager::WaitEvent` of an event node writes the node before it looks at the id. -/
theorem managerWaitEvent_eq (hn : h.currentNode = some n) (hev : (h.nodeData n).isEvent = true)
    (a : AgentId) (e : EventId) : h.managerWaitEvent cfg a e =
      (true, (h.act n ({ · with status := .running, skip := true, result := .rTrue })
        (.await n)).waitEvent cfg a n e) := by
  unfold managerWaitEvent
  rw [hn]
  dsimp only
  rw [if_pos hev]

/-- An event node is the node of a chart. -/
theorem isSome_of_isEvent (hev : (h.nodeData n).isEvent = true) : (h.charts n.chart).isSome := by
  cases hx : h.charts n.chart with
  | none =>
    rw [nodeData, dataOf, hx] at hev
    cases hev
  | some x => rfl

/-- `Agent::WaitEvent` with an id of the table appends the node to the list. -/
theorem getLast_waitEvent (he : cfg.validEvent e = true) (hx : (h.charts n.chart).isSome) :
    ((h.waitEvent cfg a n e).waiting a e).getLast? = some n := by
  unfold waitEvent
  rw [if_pos he, if_pos hx]
  simp [push, link, setNode, note]

theorem fields_waitEvent (he : cfg.validEvent e = true) (hx : (h.charts n.chart).isSome) :
    ((h.waitEvent cfg a n e).nodes n).status = .running ∧
      ((h.waitEvent cfg a n e).nodes n).skip = (h.nodes n).skip := by
  unfold waitEvent
  rw [if_pos he, if_pos hx]
  have hw : (((h.push (.waiting a e) n).setNode n ({ · with status := .running })).note
      (.wait n a e)).nodes n = { (h.push (.waiting a e) n).nodes n with status := .running } := by
    rw [nodes_note]
    exact nodes_setNode_self ..
  rw [hw]
  exact ⟨rfl, skip_push ..⟩

/-- **Exactly with the ids of the event table** the node waits if the call says so: with any other
id the call reports success, and the node waits for nothing. -/
theorem awaitsOrNot_iff (hn : h.currentNode = some n) (hev : (h.nodeData n).isEvent = true)
    (a : AgentId) (e : EventId) : h.AwaitsOrNot cfg n a e ↔ cfg.validEvent e = true := by
  unfold AwaitsOrNot
  rw [managerWaitEvent_eq hn hev a e]
  constructor
  · intro hw
    by_contra he
    rw [if_neg he] at hw
    exact Bool.noConfusion hw.1
  · intro he
    rw [if_pos he]
    have hx : ((h.act n ({ · with status := .running, skip := true, result := .rTrue })
        (.await n)).charts n.chart).isSome := isSome_of_isEvent hev
    obtain ⟨hst, hsk⟩ := fields_waitEvent (a := a) he hx
    refine ⟨hst, ?_, getLast_waitEvent he hx⟩
    rw [hsk, nodes_act, nodes_setNode_self]

end Heap

namespace State

/-- The event node of the diamond waits for event 0. -/
theorem awaitsOrNot_diamond : ∃ s, Reachable {} s ∧ s.heap.currentNode = some ⟨0, 1⟩ ∧
    s.heap.AwaitsOrNot {} ⟨0, 1⟩ 1 0 := by
  obtain ⟨s, hs, hn, hev⟩ := exists_of_play {} diamondActs (fun s =>
    s.heap.currentNode = some ⟨0, 1⟩ ∧ (s.heap.nodeData ⟨0, 1⟩).isEvent = true) (by decide +kernel)
  exact ⟨s, hs, hn, (Heap.awaitsOrNot_iff hn hev 1 0).mpr (by decide)⟩

/-- **An id that the event table does not contain**: the call succeeds, and when the flow is
over the node is running and in no container; its chart never ends. -/
theorem not_awaitsOrNot_unknown : ∃ s u, Reachable {} s ∧ Run.Reaches (step {}) s u ∧
    s.heap.currentNode = some ⟨0, 1⟩ ∧ (s.heap.nodeData ⟨0, 1⟩).isEvent = true ∧
    ¬s.heap.AwaitsOrNot {} ⟨0, 1⟩ 1 99 ∧ u.frames = [] ∧
    (u.heap.nodes ⟨0, 1⟩).status = .running ∧ (u.heap.nodes ⟨0, 1⟩).container = none :=
  exists_of_play_play {} diamondActs [.op (.waitEvent 1 99), .ret .rTrue] (fun s u =>
    s.heap.currentNode = some ⟨0, 1⟩ ∧ (s.heap.nodeData ⟨0, 1⟩).isEvent = true ∧
      ¬s.heap.AwaitsOrNot {} ⟨0, 1⟩ 1 99 ∧ u.frames = [] ∧
      (u.heap.nodes ⟨0, 1⟩).status = .running ∧ (u.heap.nodes ⟨0, 1⟩).container = none)
    (by decide +kernel)

end State

end Asyncflow
