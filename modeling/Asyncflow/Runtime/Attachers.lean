import Asyncflow.Moves.NodeCalls
import Asyncflow.Runtime.Versions

/-!
# The attacher of a node

A node has one slot for three kinds of objects, which stay in it when the node is run again.
`Manager::Wait` looks at the type of what it finds there, `Manager::WaitAll` and
`Manager::Subchart` cast it to the type they need.

The history of the calls determines the type (`Asyncflow.State.type_of_reachable`), and
`Asyncflow.State.ownType_iff` states after which calls a call uses the attacher at its own
type: after none or one of the same kind. Any other call casts the attacher to a type that it
does not have, with which the run ends.
-/

namespace Asyncflow

/-- `INodeAttacher::Type`. -/
inductive AttacherType
  | timer
  | subchart
  | waitAll
deriving DecidableEq, Repr

/-- `INodeAttacher::GetType`. -/
def Attacher.type : Attacher → AttacherType
  | .timer _ => .timer
  | .subchart _ => .subchart
  | .waitAll _ => .waitAll

/-- `Node::GetAttacher()->GetType()`, if there is an attacher. -/
def Node.attacherType (d : Node) : Option AttacherType := d.attacher.map Attacher.type

/-! ### The type and the history -/

/-- The attacher that the entry leaves the node with, if it says so: that of the call of
`Wait`, `WaitAll` or `Subchart`, or none. -/
def Obs.leaves (n : NodeRef) : Obs → Option (Option AttacherType)
  | .timer m | .fire m => if m = n then some (some .timer) else none
  | .arrive m _ _ => if m = n then some (some .waitAll) else none
  | .subchart m _ => if m = n then some (some .subchart) else none
  | .noAttacher m => if m = n then some none else none
  | .destroyed _ o => if o = some n then some none else none
  | .created c => if n.chart = c then some none else none
  | _ => none

/-- **The newest call** of `Wait`, `WaitAll` or `Subchart` for the node, unless its attacher
has been removed since. The node starts with the given one. -/
def lastCall (n : NodeRef) (start : Option AttacherType) : List Obs → Option AttacherType
  | [] => start
  | o :: log => (o.leaves n).getD (lastCall n start log)

theorem lastCall_append (n : NodeRef) (start : Option AttacherType) (new log : List Obs) :
    lastCall n start (new ++ log) = lastCall n (lastCall n start log) new := by
  induction new with
  | nil => rfl
  | cons o new ih => rw [List.cons_append, lastCall, lastCall, ih]

theorem lastCall_of_silent {n : NodeRef} {start : Option AttacherType} {new : List Obs}
    (hnew : ∀ o ∈ new, o.leaves n = none) : lastCall n start new = start := by
  induction new with
  | nil => rfl
  | cons o new ih =>
    rw [lastCall, hnew o List.mem_cons_self, Option.getD_none,
      ih fun x hx => hnew x (List.mem_cons_of_mem o hx)]

namespace Heap

variable {h h' g : Heap} {n m : NodeRef} {flows : ℕ → Prop} {may : Permit → Prop}
  {D : NodeRef → Prop}

/-- The entries made between two states tell what happened to the types. -/
def Retypes (h h' : Heap) : Prop :=
  ∃ new, h'.log = new ++ h.log ∧
    ∀ n, (h'.nodes n).attacherType = lastCall n (h.nodes n).attacherType new

theorem Retypes.trans (ht : h.Retypes g) (ht' : g.Retypes h') : h.Retypes h' := by
  obtain ⟨new, hl, hn⟩ := ht
  obtain ⟨new', hl', hn'⟩ := ht'
  refine ⟨new' ++ new, by rw [hl', hl, List.append_assoc], fun n => ?_⟩
  rw [hn', hn, lastCall_append]

/-- Neither the types nor what the entries say of them change. -/
theorem retypes_of_silent (hl : Adds (fun o => ∀ n, o.leaves n = none) h h')
    (hn : ∀ n, (h'.nodes n).attacherType = (h.nodes n).attacherType) : h.Retypes h' := by
  obtain ⟨new, hl, hnew⟩ := hl
  refine ⟨new, hl, fun n => ?_⟩
  rw [hn, lastCall_of_silent fun o ho => hnew o ho n]

theorem retypes_of_eq (hl : h'.log = h.log)
    (hn : ∀ n, (h'.nodes n).attacherType = (h.nodes n).attacherType) : h.Retypes h' :=
  retypes_of_silent (adds_of_eq hl) hn

theorem retypes_setNode (h : Heap) (n : NodeRef) {f : Node → Node}
    (hf : ∀ d, (f d).attacher = d.attacher) : h.Retypes (h.setNode n f) :=
  retypes_of_eq rfl fun m => field_setNode h n m Node.attacherType fun d =>
    congrArg (Option.map Attacher.type) (hf d)

/-- A write to a node that keeps the attacher, with an entry that says nothing of it. -/
theorem retypes_act (h : Heap) (n : NodeRef) {f : Node → Node} {o : Obs}
    (ho : ∀ m, o.leaves m = none) (hf : ∀ d, (f d).attacher = d.attacher) :
    h.Retypes (h.act n f o) :=
  retypes_of_silent (adds_of_cons ho rfl) fun m => field_setNode h n m Node.attacherType fun d =>
    congrArg (Option.map Attacher.type) (hf d)

/-- A write to the attacher of a node, with the entry that tells of it. -/
theorem retypes_call (h : Heap) (n : NodeRef) {f : Node → Node} {o : Obs}
    {k : Option AttacherType} (ho : ∀ m, o.leaves m = if n = m then some k else none)
    (hf : (f (h.nodes n)).attacherType = k) : h.Retypes (h.act n f o) := by
  refine ⟨[o], rfl, fun m => ?_⟩
  rw [lastCall, ho, nodes_act]
  rcases eq_or_ne m n with rfl | hm
  · rw [nodes_setNode_self, if_pos rfl]
    exact hf
  · rw [nodes_setNode_of_ne hm, if_neg hm.symm]
    rfl

theorem retypes_remove (h : Heap) (c : Container) (n : NodeRef) : h.Retypes (h.remove c n) := by
  refine retypes_of_silent ?_ fun m => congrArg (Option.map Attacher.type) (attacher_remove ..)
  exact adds_remove (P := fun o => ∀ n, o.leaves n = none) (fun _ => rfl) h c

theorem retypes_detach (h : Heap) (n : NodeRef) : h.Retypes (h.detach n) := by
  unfold detach
  split
  · exact retypes_remove ..
  · exact retypes_of_eq rfl fun _ => rfl

theorem retypes_push (h : Heap) (c : Container) (n : NodeRef) : h.Retypes (h.push c n) := by
  refine (retypes_detach h n).trans (retypes_of_eq (by simp [push]) fun m => ?_)
  have hp := attacher_push h n m c
  have hd := attacher_detach h n m
  exact congrArg (Option.map Attacher.type) (hp.trans hd.symm)

theorem retypes_removeNode (h : Heap) (n : NodeRef) : h.Retypes (h.removeNode n) :=
  (retypes_remove h .asyncWaiting n).trans (retypes_of_eq rfl fun _ => rfl)

theorem retypes_activateNode (h : Heap) (n : NodeRef) (skip : Bool) :
    h.Retypes (h.activateNode n skip) := by
  unfold activateNode
  split
  · exact retypes_of_eq rfl fun _ => rfl
  · exact (retypes_push ..).trans (retypes_setNode _ n fun _ => rfl)

/-- The writes to the fields of a node. -/
theorem retypes_writes {f : Node → Node} {o : Obs} (hw : h.Writes n f o) :
    h.Retypes (h.act n f o) := by
  cases hw with
  | stop =>
    refine retypes_of_silent (adds_of_cons (fun _ => rfl) rfl) fun m => ?_
    refine field_setNode h n m Node.attacherType fun d => ?_
    rcases hd : d.attacher with - | (b | c | ids) <;>
      simp [Node.attacherType, Node.stop, hd, Attacher.stop, Attacher.type]
  | wait | fire => exact retypes_call h n (k := some .timer) (fun _ => rfl) rfl
  | waitAll args =>
    refine retypes_call h n (k := some .waitAll) (fun _ => rfl) ?_
    unfold Node.waitAll
    dsimp only
    split <;> rfl
  | subchart c hc =>
    refine retypes_call h n (k := some .subchart) (fun _ => rfl) ?_
    rw [Node.attacherType, hc]
    rfl
  | makeSubchart c => exact retypes_call h n (k := some .subchart) (fun _ => rfl) rfl
  | noAttacher => exact retypes_call h n (k := none) (fun _ => rfl) rfl
  | ret r =>
    refine retypes_act h n (fun _ => rfl) fun d => ?_
    unfold Node.return
    split <;> rfl
  | succ =>
    refine retypes_act h n (fun _ => rfl) fun d => ?_
    dsimp only [Node.count]
    split <;> rfl
  | await | owner | run | cut => exact retypes_act h n (fun _ => rfl) fun _ => rfl

theorem retypes_forgetChart (h : Heap) (c : ChartId) : h.Retypes (h.forgetChart c) := by
  have hl : (h.forgetChart c).log = [.destroyed c (h.ownerOf c)] ++ h.log := by
    unfold forgetChart setOwner
    split <;> rfl
  have hn : (h.forgetChart c).nodes = (h.setOwner c ({ · with attacher := none })).nodes := rfl
  refine ⟨_, hl, fun n => ?_⟩
  rw [hn, setOwner, lastCall, lastCall]
  cases ho : h.ownerOf c with
  | none => rfl
  | some o =>
    rcases eq_or_ne n o with rfl | hno
    · simp [Obs.leaves, Node.attacherType]
    · simp [Obs.leaves, nodes_setNode_of_ne hno, hno.symm]

/-- **Every move tells what it does to the attachers.** -/
theorem retypes_of_move (hm : Move flows may D h h') : h.Retypes h' := by
  cases hm with
  | alike ha =>
    refine retypes_of_silent ?_ fun n => by rw [ha.nodes]
    rcases ha.log with hl | ⟨o, ho, hl⟩
    · exact adds_of_eq hl
    · refine adds_of_cons (fun n => ?_) hl
      cases o <;> first | rfl | exact ho.elim
  | act hw _ => exact retypes_writes hw
  | flag n b => exact retypes_setNode _ n fun _ => rfl
  | unskip n => exact retypes_setNode _ n fun _ => rfl
  | detach hn => exact retypes_detach ..
  | removeFree l hc => exact retypes_remove ..
  | @wait n a e hn =>
    exact (retypes_push h (.waiting a e) n).trans
      (retypes_act _ n (f := ({ · with status := .running }))
      (o := .wait n a e) (fun _ => rfl) fun _ => rfl)
  | @suspend n hn =>
    have hset := retypes_setNode h n (f := ({ · with status := .running })) fun _ => rfl
    have hpush := retypes_push (h.setNode n ({ · with status := .running })) .asyncWaiting n
    refine (hset.trans hpush).trans (retypes_of_silent ?_ fun _ => rfl)
    exact adds_of_cons (o := .suspend n h.nextContext) (fun _ => rfl) rfl
  | @continued n b hn ha =>
    exact ((retypes_removeNode h n).trans (retypes_activateNode _ n true)).trans
      (retypes_act _ n (fun _ => rfl) fun _ => rfl)
  | @cancelled n stop hn ha =>
    unfold cancelNode
    split
    · refine (retypes_removeNode h n).trans (retypes_of_silent ?_ fun _ => rfl)
      exact adds_of_cons (o := .cancelled n stop) (fun _ => rfl) rfl
    · exact ((retypes_removeNode h n).trans (retypes_activateNode _ n true)).trans
        (retypes_act _ n (fun _ => rfl) fun _ => rfl)
  | @takeActivated n ns ha hn =>
    have hset := retypes_setNode { h with activated := ns } n (f := ({ · with container := none }))
      fun _ => rfl
    exact .trans (retypes_of_eq rfl fun _ => rfl) hset
  | @resume n skip r hc =>
    exact (retypes_act h n (f := ({ · with skip := skip, result := r })) (o := .resume n r)
      (fun _ => rfl) fun _ => rfl).trans (retypes_removeNode ..)
  | @started c x hx hne =>
    simp only [markStarted, hx, hne, ↓reduceIte]
    exact .trans (g := h.setChart c ({ · with status := .running }))
      (retypes_of_eq rfl fun _ => rfl)
      (retypes_act _ _ (fun _ => rfl) fun _ => rfl)
  | create d o hp ho =>
    refine ⟨[.created h.nextChart], rfl, fun n => ?_⟩
    have hn : (h.initChart d o).nodes n = if n.chart = h.nextChart then {} else h.nodes n := rfl
    rw [hn, lastCall, lastCall, Obs.leaves]
    split <;> rfl
  | forget c => exact retypes_forgetChart h c
  | dropWaiting es a =>
    refine retypes_of_eq rfl fun n => ?_
    simp only [Heap.dropWaiting]
    split <;> rfl
  | @beginFlow n l a hfl hn hv =>
    refine .trans (retypes_act h n (f := ({ · with status := .idle })) (o := .flow n)
      (fun _ => rfl) fun _ => rfl) ?_
    exact .trans (retypes_push ((h.act n ({ · with status := .idle }) (.flow n)).setExecutor l
      ({ · with currentAgent := some a, nodeList := [] })) (.executor l) n)
      (retypes_of_eq rfl fun _ => rfl)
  | @pop n ns l hfl hl =>
    simp only [Heap.pop, hl]
    split
    · exact retypes_setNode (h.setExecutor l _) n fun _ => rfl
    · exact retypes_of_eq rfl fun _ => rfl
  | @child n i l hfl hi hn =>
    simp only [addChild, hi, ↓reduceIte]
    refine .trans (retypes_act h _ ?_ ?_) (retypes_push ..)
    · exact fun _ => rfl
    · exact fun _ => rfl
  | @continueFlow n l hfl hn =>
    exact (retypes_act h n (f := ({ · with runFlag := true })) (o := .goOn n)
      (fun _ => rfl) fun _ => rfl).trans (retypes_push ..)
  | @deliver r rs n ns hh hr =>
    have hd := retypes_act { h with handling := { r with nodes := ns } :: rs } n
      (f := ({ · with container := none, linked := false, status := .idle })) (o := .deliver n)
      (fun _ => rfl) fun _ => rfl
    exact .trans (retypes_of_eq rfl fun _ => rfl) hd
  | _ => exact retypes_of_eq rfl fun _ => rfl

theorem retypes_of_does (hd : Does flows may D h h') : h.Retypes h' :=
  Traced.Does.invariant (I := fun g => h.Retypes g) hd (fun hm ht => ht.trans (retypes_of_move hm))
    (retypes_of_eq rfl fun _ => rfl)

end Heap

namespace State

variable {cfg : Config} {s t : State} {a : Act} {n : NodeRef} {o : Op} {g : Heap}

/-- **The type of an attacher is that of the newest call.** -/
theorem type_of_reachable (h : Reachable cfg s) (n : NodeRef) :
    (s.heap.nodes n).attacherType = lastCall n none s.heap.log := by
  have hd : Heap.Does (fun _ => True) (fun _ => True) (fun _ => False) init.heap s.heap :=
    does_of_steps (fun _ => trivial) (fun _ _ _ _ _ => trivial) wf_init h
  obtain ⟨new, hl, hn⟩ := Heap.retypes_of_does hd
  obtain rfl : s.heap.log = new := by rw [hl]; exact List.append_nil new
  exact hn n

end State

/-! ### What is released -/

namespace Heap

variable {h g : Heap} {n : NodeRef} {c d : ChartId} {a : AgentId} {x : Chart}

theorem charts_eraseChart_of_ne (hc : d ≠ c) : (h.eraseChart c).charts d = h.charts d := by
  unfold eraseChart
  split
  · exact Function.update_of_ne hc _ _
  · rfl

theorem agents_setOwner (h : Heap) (c : ChartId) (f : Node → Node) :
    (h.setOwner c f).agents = h.agents := by
  unfold setOwner
  split <;> rfl

theorem charts_dropChart_of_ne (hc : d ≠ c) : (h.dropChart c).charts d = h.charts d := by
  have hforget : (h.dropChart c).charts d = (h.eraseChart c).charts d :=
    Function.update_of_ne hc _ _
  exact hforget.trans (charts_eraseChart_of_ne hc)

/-- A chart that is dropped leaves the list of its agent. -/
theorem agents_dropChart {k : Agent} (hx : h.charts c = some x) (ha : x.agent = some a)
    (hk : (h.dropChart c).agents a = some k) : c ∉ k.charts := by
  have he : (h.dropChart c).agents = (h.eraseChart c).agents := agents_setOwner ..
  have hagent : (h.charts c).bind (·.agent) = some a := by rw [hx]; exact ha
  rw [he, eraseChart, hagent] at hk
  have hk' : (h.agents a).map (fun g => { g with charts := g.charts.filter (· ≠ c) }) = some k := by
    rw [← hk]
    exact (Function.update_self (β := fun _ => Option Agent) a _ h.agents).symm
  obtain ⟨g, -, rfl⟩ := Option.map_eq_some_iff.mp hk'
  simp

/-- What destroying a chart does to one of its nodes. -/
def loseNode (fuel : ℕ) (h : Heap) (n : NodeRef) : Heap :=
  (match ((h.stop n).nodes n).attacher with
    | some (.subchart c) => destroyChart fuel (h.stop n) c
    | _ => h.stop n).act n ({ · with attacher := none }) (.noAttacher n)

theorem destroyChart_succ (fuel : ℕ) (h : Heap) (c : ChartId) :
    destroyChart (fuel + 1) h c = ((h.nodeList c).foldl (loseNode fuel) h).dropChart c := rfl

/-- What loses its attacher keeps older charts, as long as destroying one does. -/
theorem charts_loseNode {fuel : ℕ} (hr : h.Ranked) (hd : d ≤ n.chart)
    (hfuel : ∀ (g : Heap) (c : ChartId), g.Ranked → d < c → (destroyChart fuel g c).charts d =
      g.charts d) :
    (h.loseNode fuel n).charts d = h.charts d ∧ (h.loseNode fuel n).Ranked := by
  have hstop : (h.stop n).charts d = h.charts d := charts_stop_of_le hr hd
  have hsr : (h.stop n).Ranked := by
    have hdoes : Does (fun _ => True) (fun _ => True) (fun _ => False) h (h.stop n) := does_stop h n
    exact Traced.Does.invariant (I := Ranked) hdoes (fun hm => ranked_of_move hm) hr
  unfold loseNode
  split
  · rename_i c' hc'
    have hlt : d < c' := Nat.lt_of_le_of_lt hd (hsr n c' hc')
    have hdoes : Does (fun _ => True) (fun _ => True) (fun _ => False) (h.stop n)
        (destroyChart fuel (h.stop n) c') := does_destroyChart fuel _ c' _
    refine ⟨(hfuel _ _ hsr hlt).trans hstop, ranked_act ?_ n .noAttacher⟩
    exact Traced.Does.invariant (I := Ranked) hdoes (fun hm => ranked_of_move hm) hsr
  · exact ⟨hstop, ranked_act hsr n .noAttacher⟩

theorem charts_loseNodes {fuel : ℕ} (hfuel : ∀ (g : Heap) (c : ChartId), g.Ranked → d < c →
    (destroyChart fuel g c).charts d = g.charts d) (ks : List NodeRef) (hr : h.Ranked)
    (hks : ∀ k ∈ ks, d ≤ k.chart) : (ks.foldl (loseNode fuel) h).charts d = h.charts d := by
  induction ks generalizing h with
  | nil => rfl
  | cons k ks ih =>
    obtain ⟨hk, hkr⟩ := charts_loseNode hr (hks k List.mem_cons_self) hfuel
    rw [List.foldl_cons, ih hkr fun k' hk' => hks k' (List.mem_cons_of_mem k hk')]
    exact hk

theorem chart_of_mem_nodeList (hn : n ∈ h.nodeList c) : n.chart = c := by
  obtain ⟨i, -, rfl⟩ := List.mem_map.mp hn
  rfl

/-- Destroying a chart leaves older charts alone. -/
theorem charts_destroyChart_of_lt (fuel : ℕ) (h : Heap) (c : ChartId) (hr : h.Ranked) (hd : d < c) :
    (destroyChart fuel h c).charts d = h.charts d := by
  induction fuel generalizing h c with
  | zero => rfl
  | succ fuel ih =>
    rw [destroyChart_succ, charts_dropChart_of_ne (Nat.ne_of_lt hd)]
    refine charts_loseNodes (fun g c' hg hlt => ih g c' hg hlt) _ hr fun k hk => ?_
    rw [chart_of_mem_nodeList hk]
    exact Nat.le_of_lt hd

/-- **A chart that is deleted** is gone, and its agent has forgotten it. -/
theorem gone_deleteChart (hr : h.Ranked) (hx : h.charts c = some x) :
    (h.deleteChart c).charts c = none ∧
      ∀ a k, x.agent = some a → (h.deleteChart c).agents a = some k → c ∉ k.charts := by
  rw [deleteChart, destroyChart_succ]
  have hkeep : ((h.nodeList c).foldl (loseNode h.nextChart) h).charts c = some x := by
    rw [← hx]
    refine charts_loseNodes (fun g c' hg hlt => charts_destroyChart_of_lt _ g c' hg hlt) _ hr ?_
    intro k hk
    exact Nat.le_of_eq (chart_of_mem_nodeList hk).symm
  exact ⟨Function.update_self .., fun a k ha hk => agents_dropChart hkeep ha hk⟩

/-! ### The calls -/

/-- The call of `Manager` for the node, `Manager::Subchart` up to the start of the chart. -/
def callNode (h : Heap) : Op → Heap
  | .wait => h.wait
  | .waitAll args => (h.waitAll args).2
  | .subchart name a => if (h.agents a).isSome then (h.prepareSubchart name a).2 else h
  | _ => h

/-- The type that the call casts the attacher to without a look at its tag. -/
def castsTo (h : Heap) : Op → Option AttacherType
  | .waitAll _ => some .waitAll
  | .subchart name a =>
    if (h.agents a).isSome && (h.chartDataDict name).isSome then some .subchart else none
  | _ => none

/-- The type as which the call uses the attacher of the node, if it uses it. -/
def usesAs (h : Heap) (n : NodeRef) : Op → Option AttacherType
  | .wait => (h.nodes n).attacherType.filter (· = .timer)
  | o => (h.nodes n).attacherType.bind fun _ => h.castsTo o

/-- **The call uses the attacher of the node at its own type.** -/
structure OwnType (h : Heap) (n : NodeRef) (o : Op) : Prop where
  /-- The type is that of the tag. -/
  typed : ∀ k, h.usesAs n o = some k → (h.nodes n).attacherType = some k
  /-- A subchart that is replaced is deleted and removed from its agent. -/
  released : ∀ c x, (h.nodes n).attacher = some (.subchart c) → h.charts c = some x →
    ((h.callNode o).nodes n).attacher ≠ some (.subchart c) →
    (h.callNode o).charts c = none ∧
      ∀ a k, x.agent = some a → (h.callNode o).agents a = some k → c ∉ k.charts

/-- The newest call for the node was one of the type that this call casts to. -/
def Suits (h : Heap) (n : NodeRef) (o : Op) : Prop :=
  ∀ k, h.castsTo o = some k → lastCall n none h.log = none ∨ lastCall n none h.log = some k

theorem charts_addChart_of_ne {b : AgentId} (hne : c ≠ d) :
    (h.addChart b d).2.charts c = h.charts c := by
  unfold addChart
  split
  · rfl
  · split
    · rfl
    · exact Function.update_of_ne hne _ _

/-- A new chart of an agent is no other chart. -/
theorem agents_addChart_of_ne {b : AgentId} (hne : c ≠ d)
    (ha : ∀ k, h.agents a = some k → c ∉ k.charts) {k : Agent}
    (hk : (h.addChart b d).2.agents a = some k) : c ∉ k.charts := by
  unfold addChart at hk
  split at hk
  · exact ha k hk
  · split at hk
    · exact ha k hk
    · simp only [setAgent, Function.update_apply] at hk
      split at hk
      · rename_i hab
        subst hab
        obtain ⟨g, hg, rfl⟩ := Option.map_eq_some_iff.mp hk
        simpa [hne] using ha g hg
      · exact ha k hk

/-- `Manager::Subchart` of a node with a `Subchart` attacher keeps the chart, or deletes it
and makes a new one. -/
theorem prepareSubchart_replaces (name : String) (hn : h.currentNode = some n)
    (hc : (h.nodes n).attacher = some (.subchart c)) :
    (((h.prepareSubchart name a).2.nodes n).attacher = some (.subchart c)) ∨
      ∃ d, (h.prepareSubchart name a).2 = ((h.clearAttacher n).makeSubchart n d a).2 := by
  unfold prepareSubchart
  rw [hn]
  dsimp only
  cases h.chartDataDict name with
  | none => exact .inl hc
  | some d =>
    dsimp only
    rw [hc]
    dsimp only
    split
    · left
      rw [nodes_act, nodes_setNode_self]
      exact hc
    · exact .inr ⟨d, rfl⟩

/-- The calls release the subchart that they replace. -/
theorem released_callNode (hb : h.Born) (hr : h.Ranked) (hn : h.currentNode = some n) (o : Op)
    (hc : (h.nodes n).attacher = some (.subchart c)) (hx : h.charts c = some x)
    (hne : ((h.callNode o).nodes n).attacher ≠ some (.subchart c)) :
    (h.callNode o).charts c = none ∧
      ∀ a k, x.agent = some a → (h.callNode o).agents a = some k → c ∉ k.charts := by
  obtain ⟨hgone, hagent⟩ := gone_deleteChart hr hx
  have hdel : h.deleteAttacher n = h.deleteChart c := by
    unfold deleteAttacher
    rw [hc]
  cases o with
  | wait =>
    rw [callNode, wait, hn]
    dsimp only
    rw [hdel]
    exact ⟨hgone, hagent⟩
  | waitAll args =>
    refine absurd ?_ hne
    rw [callNode, waitAll, hn]
    dsimp only
    rw [hc]
    exact hc
  | subchart name b =>
    rw [callNode] at hne ⊢
    by_cases hsome : (h.agents b).isSome = true
    · rw [if_pos hsome] at hne ⊢
      rcases prepareSubchart_replaces name hn hc with hkeep | ⟨d, hmake⟩
      · exact absurd hkeep hne
      · have hlt : c ≠ (h.clearAttacher n).nextChart := by
          have hd : Does (fun _ => True) (fun _ => True) (fun _ => False) h (h.clearAttacher n) :=
            does_clearAttacher h n
          have hborn : c < h.nextChart := hb.chart c (by rw [hx]; rfl)
          exact Nat.ne_of_lt (Nat.lt_of_lt_of_le hborn (nextChart_le_of_does hd))
        have hclear : (h.clearAttacher n).charts c = none ∧ ∀ a k, x.agent = some a →
            (h.clearAttacher n).agents a = some k → c ∉ k.charts := by
          rw [clearAttacher, hdel]
          exact ⟨hgone, hagent⟩
        rw [hmake]
        constructor
        · have hinit : ((h.clearAttacher n).initChart d (some n)).charts c = none := by
            rw [← hclear.1]
            exact Function.update_of_ne hlt _ _
          exact (charts_addChart_of_ne hlt).trans hinit
        · intro a k ha hk
          have hinit : ∀ k, ((h.clearAttacher n).initChart d (some n)).agents a = some k →
              c ∉ k.charts := fun k' hk' => hclear.2 a k' ha hk'
          exact agents_addChart_of_ne hlt hinit hk
    · rw [if_neg hsome] at hne
      exact absurd hc hne
  | _ => exact absurd hc hne

/-- **A call uses the attacher at its own type** exactly if it suits the newest call. -/
theorem ownType_iff_suits (hb : h.Born) (hr : h.Ranked) (hn : h.currentNode = some n)
    (ht : (h.nodes n).attacherType = lastCall n none h.log) (o : Op) :
    h.OwnType n o ↔ h.Suits n o := by
  constructor
  · intro hown k hk
    rw [← ht]
    cases hty : (h.nodes n).attacherType with
    | none => exact .inl rfl
    | some k' =>
      refine .inr (hty.symm.trans (hown.typed k ?_))
      cases o with
      | wait => cases hk
      | _ => exact (congrArg (Option.bind · _) hty).trans hk
  · intro hsuit
    refine ⟨fun k hk => ?_, fun c x hc hx hne => released_callNode hb hr hn o hc hx hne⟩
    cases o with
    | wait =>
      obtain ⟨hk, hd⟩ := Option.filter_eq_some_iff.mp hk
      exact hk
    | _ =>
      obtain ⟨k', hk', hcast⟩ := Option.bind_eq_some_iff.mp hk
      rw [ht] at hk' ⊢
      refine (hsuit k hcast).resolve_left fun hnone => ?_
      rw [hnone] at hk'
      cases hk'

end Heap

namespace State

variable {cfg : Config} {s t : State} {a : Act} {n : NodeRef} {o : Op} {g : Heap}

/-- Every call that the action makes for the current node uses the attacher of the node at
its own type. -/
def UsesOwnTypes (cfg : Config) (s : State) (a : Act) : Prop :=
  ∀ n o g, s.Makes cfg a n o g → g.OwnType n o

/-- Every call that the action makes for the current node suits the newest call before it. -/
def SuitsCalls (cfg : Config) (s : State) (a : Act) : Prop :=
  ∀ n o g, s.Makes cfg a n o g → g.Suits n o

/-- The types and the history agree in every heap in which a call is made. -/
theorem type_of_makes (hs : Reachable cfg s) (hm : s.Makes cfg a n o g) :
    (g.nodes n).attacherType = lastCall n none g.log := by
  obtain ⟨new, hl, hn⟩ := Heap.retypes_of_does (does_of_makes hm)
  rw [hn, type_of_reachable hs, hl, lastCall_append]

/-- **The attacher is used at its own type** by the calls that an action makes in a
reachable state, exactly if they suit the calls before: a call of `WaitAll` or `Subchart`
comes after none or after one of the same kind, a call of `Wait` after any. -/
theorem ownType_iff (hs : Reachable cfg s) (a : Act) :
    s.UsesOwnTypes cfg a ↔ s.SuitsCalls cfg a := by
  refine forall₄_congr fun n o g hm => ?_
  obtain ⟨hb, hst⟩ := stoppable_of_makes hs hm
  exact Heap.ownType_iff_suits hb hst.ranked (currentNode_of_makes hs hm) (type_of_makes hs hm) o

/-- Node 1 runs again and again. -/
def againChart : ChartData :=
  { name := "again", nodes := [{ success := [1] }, { func := .script, success := [1] }] }

/-- A chart to be called. -/
def calleeChart : ChartData :=
  { name := "callee", nodes := [{ success := [1] }, { func := .script }] }

/-- Node 1 is in its first run. -/
def againActs : List Act :=
  [.op (.importChart againChart), .op (.importChart calleeChart), .op (.register 0),
    .op (.attachChart 1 "again"), .op (.startChart 0), .op .step, .timersDone]

/-- Node 1 calls a subchart in both of its runs. -/
theorem ownType_subchart : ∃ s, Reachable {} s ∧ s.mayCall (.subchart "callee" 1) = true ∧
    (s.heap.nodes ⟨0, 1⟩).attacher = some (.subchart 1) ∧
    s.UsesOwnTypes {} (.op (.subchart "callee" 1)) := by
  obtain ⟨s, hs, hmay, hatt, hcur, hlast⟩ := exists_of_play {}
    (againActs ++ [.op (.subchart "callee" 1), .op .wait, .ret .rTrue, .ret .rTrue, .op .step,
      .fire ⟨1, 1⟩])
    (fun s => s.mayCall (.subchart "callee" 1) = true ∧
      (s.heap.nodes ⟨0, 1⟩).attacher = some (.subchart 1) ∧
      s.heap.currentNode = some ⟨0, 1⟩ ∧ lastCall ⟨0, 1⟩ none s.heap.log = some .subchart)
    (by decide +kernel)
  refine ⟨s, hs, hmay, hatt, (ownType_iff hs _).mpr fun n o g hm => ?_⟩
  cases hm with
  | script _ _ hn =>
    obtain rfl := Option.some.inj (hcur.symm.trans hn)
    intro k hk
    rw [Heap.castsTo] at hk
    split at hk
    · exact .inr (hlast.trans hk)
    · cases hk

/-- **The tag is not looked at**: node 1 waited in its first run and calls `WaitAll` or
`Subchart` in its second. -/
theorem not_ownType_timer : ∃ s, Reachable {} s ∧
    (s.heap.nodes ⟨0, 1⟩).attacher = some (.timer false) ∧
    ¬s.UsesOwnTypes {} (.op (.waitAll [1])) ∧
    ¬s.UsesOwnTypes {} (.op (.subchart "callee" 1)) ∧
    (s.heap.waitAll [1]).2.ub = true ∧ (s.heap.prepareSubchart "callee" 1).2.ub = true := by
  obtain ⟨s, hs, ⟨hcur, hatt⟩, ⟨hmay, hmay'⟩, ⟨huse, huse'⟩, hub, hub'⟩ := exists_of_play {}
    (againActs ++ [.op .wait, .ret .rTrue, .op .step, .fire ⟨0, 1⟩])
    (fun s => (s.heap.currentNode = some ⟨0, 1⟩ ∧
        (s.heap.nodes ⟨0, 1⟩).attacher = some (.timer false)) ∧
      (s.mayCall (.waitAll [1]) = true ∧ s.mayCall (.subchart "callee" 1) = true) ∧
      (s.heap.usesAs ⟨0, 1⟩ (.waitAll [1]) = some .waitAll ∧
        s.heap.usesAs ⟨0, 1⟩ (.subchart "callee" 1) = some .subchart) ∧
      (s.heap.waitAll [1]).2.ub = true ∧ (s.heap.prepareSubchart "callee" 1).2.ub = true)
    (by decide +kernel)
  have htype : (s.heap.nodes ⟨0, 1⟩).attacherType = some .timer :=
    congrArg (Option.map Attacher.type) hatt
  refine ⟨s, hs, hatt, fun h => ?_, fun h => ?_, hub, hub'⟩
  · have := (h _ _ _ (.script hmay rfl hcur)).typed _ huse
    rw [htype] at this
    cases this
  · have := (h _ _ _ (.script hmay' rfl hcur)).typed _ huse'
    rw [htype] at this
    cases this

end State

end Asyncflow
