import Asyncflow.Moves.Step

/-!
# What the history says about a node

The entries of the history are made next to the writes they tell of, and nothing
else writes the status, the result, the timer, the predecessor id and the
wait-all mark of a node: in every reachable state they are what replaying the
history yields (`Asyncflow.Heap.Told`). Facts about these fields over whole runs are
therefore facts about the history alone.
-/

namespace Asyncflow

/-- The fields of a node that the history determines. -/
structure Digest where
  /-- `status_`. -/
  status : NodeStatus := .idle
  /-- `result_`. -/
  result : NodeResult := .rTrue
  /-- Whether the attacher is a scheduled timer. -/
  timed : Bool := false
  /-- `pre_node_id_`. -/
  preNodeId : ℤ := -1
  /-- `is_wait_all`. -/
  isWaitAll : Bool := false
deriving DecidableEq

/-- The digest of a node. -/
def Node.digest (d : Node) : Digest :=
  ⟨d.status, d.result, d.attacher = some (.timer true), d.preNodeId, d.isWaitAll⟩

/-- What an entry about the node does to it. -/
def Obs.effect (n : NodeRef) : Obs → Digest → Digest
  | .run _, d => { d with result := .rFalse }
  | .ret _ r, d => if d.result = .rStop then d else { d with result := r }
  | .succ _ _, d | .cut _, d => { d with status := .endRun }
  | .edge p _, d => { d with preNodeId := p.id }
  | .stop _ _, d => { d with status := .idle, result := .rStop, timed := false }
  | .wait _ _ _, d | .suspend _ _, d => { d with status := .running }
  | .await _, d => { d with status := .running, result := .rTrue }
  | .timer _, d => { d with status := .running, result := .rTrue, timed := true }
  | .fire _, d => { d with result := .rTrue, timed := false }
  | .arrive _ _ fired, d =>
    if fired then { d with status := .endRun, result := .rTrue, timed := false, isWaitAll := true }
    else { d with status := .running, timed := false, isWaitAll := true }
  | .continued _ b, d | .owner _ _ b, d => { d with result := .ofBool b }
  | .cancelled _ b, d => if b then d else { d with result := .rFalse }
  | .resume _ r, d => { d with result := r }
  | .deliver _, d | .flow _, d => { d with status := .idle }
  | .subchart _ _, d => { d with status := .running, timed := false }
  | .started _, d => { d with status := .running, result := .rTrue }
  | .noAttacher _, d => { d with timed := false }
  | .destroyed _ o, d => if o = some n then { d with timed := false } else d
  | .created _, _ => {}
  | _, d => d

theorem Obs.effect_ret (n m : NodeRef) (r : NodeResult) (d : Digest) :
    (Obs.ret m r).effect n d = if d.result = .rStop then d else { d with result := r } := rfl

instance (n : NodeRef) : DecidablePred (Obs.about n) := fun o => by
  apply @Obs.casesOn (fun o => Decidable (o.about n)) o <;> intros <;>
    unfold Obs.about <;> infer_instance

/-- What an entry does to a node. -/
def Obs.replay (n : NodeRef) (o : Obs) (d : Digest) : Digest :=
  if o.about n then o.effect n d else d

theorem Obs.replay_of_about {n : NodeRef} {o : Obs} (ho : o.about n) (d : Digest) :
    o.replay n d = o.effect n d := if_pos ho

theorem Obs.replay_of_not_about {n : NodeRef} {o : Obs} (ho : ¬o.about n) (d : Digest) :
    o.replay n d = d := if_neg ho

/-- What an entry says about the node before it. -/
def Obs.Says : Obs → Digest → Prop
  | .stop _ was, d => was = d.status
  | .succ _ r, d => r = d.result
  | .arrive _ id _, d => id = d.preNodeId
  | _, _ => True

/-- The entries about a node that starts with a digest say the truth. -/
def Honest (n : NodeRef) (d : Digest) : List Obs → Prop
  | [] => True
  | o :: l => (o.about n → o.Says (l.foldr (Obs.replay n) d)) ∧ Honest n d l

theorem honest_append {n : NodeRef} {d : Digest} {l l' : List Obs} :
    Honest n d (l' ++ l) ↔ Honest n (l.foldr (Obs.replay n) d) l' ∧ Honest n d l := by
  induction l' with
  | nil => simp [Honest]
  | cons o l' ih => rw [List.cons_append, Honest, Honest, ih, List.foldr_append, and_assoc]

/-- The digest of a node after a history. -/
def digestOf (n : NodeRef) (log : List Obs) : Digest := log.foldr (Obs.replay n) {}

theorem digestOf_cons (n : NodeRef) (o : Obs) (log : List Obs) :
    digestOf n (o :: log) = o.replay n (digestOf n log) := rfl

namespace Heap

variable {h h' g : Heap} {n m : NodeRef} {flows : ℕ → Prop} {may : Permit → Prop}
  {D : NodeRef → Prop}

/-- The entries made between two states tell what happened to the digests. -/
def Tells (h h' : Heap) : Prop :=
  ∃ new, h'.log = new ++ h.log ∧ ∀ n,
    (h'.nodes n).digest = new.foldr (Obs.replay n) (h.nodes n).digest ∧
    Honest n (h.nodes n).digest new

theorem Tells.trans (ht : h.Tells g) (ht' : g.Tells h') : h.Tells h' := by
  obtain ⟨new, hl, hd⟩ := ht
  obtain ⟨new', hl', hd'⟩ := ht'
  refine ⟨new' ++ new, by rw [hl', hl, List.append_assoc], fun n => ⟨?_, ?_⟩⟩
  · rw [(hd' n).1, (hd n).1, List.foldr_append]
  · rw [honest_append, ← (hd n).1]
    exact ⟨(hd' n).2, (hd n).2⟩

/-- No entry and no digest changes. -/
theorem tells_of_eq (hl : h'.log = h.log) (hd : ∀ n, (h'.nodes n).digest = (h.nodes n).digest) :
    h.Tells h' := ⟨[], hl, fun n => ⟨hd n, trivial⟩⟩

theorem tells_setNode (n : NodeRef) {f : Node → Node} (hf : ∀ d, (f d).digest = d.digest) :
    h.Tells (h.setNode n f) :=
  tells_of_eq rfl fun m => field_setNode h n m Node.digest hf

/-- A single entry that says nothing about the state before it. -/
theorem tells_of_cons {o : Obs} (hl : h'.log = o :: h.log) (ho : ∀ d, o.Says d)
    (hd : ∀ n, (h'.nodes n).digest = o.replay n (h.nodes n).digest) : h.Tells h' :=
  ⟨[o], hl, fun n => ⟨hd n, fun _ => ho _, trivial⟩⟩

/-- A write to a node and the entry that tells of it. -/
theorem tells_act {f : Node → Node} {o : Obs} (ho : ∀ m, o.about m ↔ m = n)
    (hf : (f (h.nodes n)).digest = o.effect n (h.nodes n).digest)
    (hs : o.Says (h.nodes n).digest) : h.Tells (h.act n f o) := by
  refine ⟨[o], rfl, fun m => ⟨?_, fun hm => ?_, trivial⟩⟩
  · rw [nodes_act, nodes_setNode]
    split
    · subst m
      exact hf.trans (Obs.replay_of_about ((ho n).mpr rfl) _).symm
    · rename_i hm
      exact (Obs.replay_of_not_about (fun hm' => hm ((ho m).mp hm')) _).symm
  · obtain rfl := (ho m).mp hm
    exact hs

/-- An operation on containers, which may have been called on the wrong one. -/
theorem tells_of_misplaced (hl : h'.log = h.log ∨ h'.log = .misplaced n :: h.log)
    (hd : ∀ m, (h'.nodes m).digest = (h.nodes m).digest) : h.Tells h' := by
  rcases hl with hl | hl
  · exact tells_of_eq hl hd
  · exact tells_of_cons hl (fun _ => trivial) fun m => (hd m).trans (ite_self _).symm

/-- A write that is told of only after a container operation. -/
theorem tells_act_of_misplaced {o : Obs} (ho : ∀ m, o.about m ↔ m = n) (hs : ∀ d, o.Says d)
    (hl : h'.log = o :: h.log ∨ h'.log = o :: .misplaced n :: h.log)
    (hd : (h'.nodes n).digest = o.effect n (h.nodes n).digest)
    (hd' : ∀ m ≠ n, (h'.nodes m).digest = (h.nodes m).digest) : h.Tells h' := by
  have hr : ∀ m, (h'.nodes m).digest = o.replay m (h.nodes m).digest := by
    intro m
    rcases eq_or_ne m n with rfl | hm
    · rw [hd, Obs.replay_of_about ((ho m).mpr rfl)]
    · rw [hd' m hm, Obs.replay_of_not_about fun hm' => hm ((ho m).mp hm')]
  rcases hl with hl | hl
  · exact tells_of_cons hl hs hr
  · have hm : h.Tells (h.note (.misplaced n)) :=
      tells_of_misplaced (.inr rfl) fun _ => rfl
    exact hm.trans (tells_of_cons hl hs hr)

theorem tells_remove (h : Heap) (c : Container) (n : NodeRef) : h.Tells (h.remove c n) :=
  tells_of_misplaced (log_remove ..) fun m =>
    field_remove h n m c (g := Node.digest) fun _ _ _ => rfl

theorem tells_detach (h : Heap) (n : NodeRef) : h.Tells (h.detach n) :=
  tells_of_misplaced (log_detach ..) fun m => field_detach h n m (g := Node.digest) fun _ _ _ => rfl

theorem tells_push (h : Heap) (c : Container) (n : NodeRef) : h.Tells (h.push c n) :=
  tells_of_misplaced (log_push ..) fun m => field_push h n m c (g := Node.digest) fun _ _ _ => rfl

theorem tells_removeNode (h : Heap) (n : NodeRef) : h.Tells (h.removeNode n) :=
  (tells_remove h .asyncWaiting n).trans (tells_of_eq rfl fun _ => rfl)

theorem tells_activateNode (h : Heap) (n : NodeRef) (skip : Bool) :
    h.Tells (h.activateNode n skip) := by
  unfold activateNode
  split
  · exact tells_of_eq rfl fun _ => rfl
  · exact (tells_push ..).trans (tells_setNode n fun _ => rfl)

theorem tells_writes {f : Node → Node} {o : Obs} (hw : h.Writes n f o) : h.Tells (h.act n f o) := by
  refine tells_act (fun m => ?_) ?_ ?_
  · cases hw <;> exact eq_comm
  · cases hw with
    | stop =>
      have hs : (h.nodes n).attacher.map Attacher.stop ≠ some (.timer true) := by
        rcases (h.nodes n).attacher with - | (a | c | ids) <;> exact nofun
      simp [Node.digest, Node.stop, Obs.effect, hs]
    | waitAll args =>
      cases hw : (h.nodes n).waitAllFires args <;>
        simp [Node.digest, Node.waitAll, Obs.effect, hw]
    | ret r => exact apply_ite Node.digest ..
    | succ =>
      dsimp only [Node.count]
      split <;> rfl
    | subchart c ha => simp [Node.digest, Obs.effect, ha]
    | _ => rfl
  · cases hw <;> trivial

theorem tells_forgetChart (h : Heap) (c : ChartId) : h.Tells (h.forgetChart c) := by
  have hl : (h.forgetChart c).log = .destroyed c (h.ownerOf c) :: h.log := by
    unfold forgetChart setOwner
    split <;> rfl
  have hn : (h.forgetChart c).nodes = (h.setOwner c ({ · with attacher := none })).nodes := rfl
  refine tells_of_cons hl (fun _ => trivial) fun n => ?_
  rw [hn, setOwner]
  cases ho : h.ownerOf c with
  | none => simp [Obs.replay, Obs.effect]
  | some o =>
    rcases eq_or_ne n o with rfl | hno
    · simp [Obs.replay, Obs.about, Obs.effect, Node.digest]
    · simp [Obs.replay, Obs.effect, nodes_setNode_of_ne hno, hno.symm]

/-- **Every move tells what it does.** -/
theorem tells_of_move (hm : Move flows may D h h') : h.Tells h' := by
  cases hm with
  | alike ha =>
    have hd : ∀ n, (h'.nodes n).digest = (h.nodes n).digest := fun n => by rw [ha.nodes]
    rcases ha.log with hl | ⟨o, ho, hl⟩
    · exact tells_of_eq hl hd
    · refine tells_of_cons hl (fun d => ?_) fun n => (hd n).trans
        (Obs.replay_of_not_about ?_ _).symm
      · cases o <;> first | exact ho.elim | trivial
      · cases o <;> first | exact ho.elim | exact id
  | act hw _ => exact tells_writes hw
  | flag n b => exact tells_setNode n fun _ => rfl
  | unskip n => exact tells_setNode n fun _ => rfl
  | detach hn => exact tells_detach ..
  | removeFree l hc => exact tells_remove ..
  | @wait n a e hn =>
    have hp := tells_push h (.waiting a e) n
    exact hp.trans (tells_act (n := n) (f := ({ · with status := .running })) (o := .wait n a e)
      (fun _ => eq_comm) rfl trivial)
  | @suspend n hn =>
    have hp : ∀ m, ((h.suspendNode n).nodes m).digest =
        ((h.setNode n ({ · with status := .running })).nodes m).digest := fun m =>
      field_push _ n m _ (g := Node.digest) fun _ _ _ => rfl
    refine tells_act_of_misplaced (n := n) (o := .suspend n h.nextContext) (fun _ => eq_comm)
      (fun _ => trivial) ?_ ?_ fun m hm => ?_
    · have hl := log_push (h.setNode n ({ · with status := .running })) n .asyncWaiting
      exact hl.imp (congrArg _) (congrArg _)
    · rw [hp, nodes_setNode_self]
      rfl
    · rw [hp, nodes_setNode_of_ne hm]
  | @continued n b hn ha =>
    exact ((tells_removeNode h n).trans (tells_activateNode _ n true)).trans
      (tells_act (fun _ => eq_comm) rfl trivial)
  | @cancelled n stop hn ha =>
    unfold cancelNode
    split
    · rename_i hs
      refine (tells_removeNode h n).trans
        (tells_of_cons (o := .cancelled n stop) rfl (fun _ => trivial) fun m => ?_)
      rw [hs]
      exact (ite_self _).symm
    · rename_i hs
      refine ((tells_removeNode h n).trans (tells_activateNode _ n true)).trans
        (tells_act (fun _ => eq_comm) ?_ trivial)
      simp [Obs.effect, hs, Node.digest]
  | takeActivated ha hn => exact tells_setNode _ fun _ => rfl
  | @resume n skip r hc =>
    exact (tells_act (n := n) (f := ({ · with skip := skip, result := r })) (o := .resume n r)
      (fun _ => eq_comm) rfl trivial).trans (tells_removeNode ..)
  | @started c x hx hne =>
    simp only [markStarted, hx, hne, ↓reduceIte]
    exact .trans (g := h.setChart c ({ · with status := .running })) (tells_of_eq rfl fun _ => rfl)
      (tells_act (fun _ => Iff.rfl) rfl trivial)
  | create d o hp ho =>
    refine tells_of_cons (o := .created h.nextChart) rfl (fun _ => trivial) fun n => ?_
    have hn : (h.initChart d o).nodes n = if n.chart = h.nextChart then {} else h.nodes n := rfl
    rw [hn]
    split <;> rename_i hc
    · exact (Obs.replay_of_about (o := .created h.nextChart) hc _).symm
    · exact (Obs.replay_of_not_about (o := .created h.nextChart) hc _).symm
  | forget c => exact tells_forgetChart h c
  | dropWaiting es a =>
    refine tells_of_eq rfl fun n => ?_
    simp only [Heap.dropWaiting]
    split <;> rfl
  | @beginFlow n l a hfl hn hv =>
    refine .trans (tells_act (n := n) (f := ({ · with status := .idle })) (o := .flow n)
      (fun _ => eq_comm) rfl trivial) ?_
    refine .trans (tells_push ((h.act n ({ · with status := .idle }) (.flow n)).setExecutor l
      ({ · with currentAgent := some a, nodeList := [] })) (.executor l) n)
        (tells_of_eq rfl fun _ => rfl)
  | @pop n ns l hfl hl =>
    simp only [Heap.pop, hl]
    split
    · exact tells_setNode (h := h.setExecutor l _) n fun _ => rfl
    · exact tells_of_eq rfl fun _ => rfl
  | @child n i l hfl hi hn =>
    simp only [addChild, hi, ↓reduceIte]
    refine .trans (tells_act (fun m => ?_) ?_ ?_) (tells_push ..)
    · exact eq_comm
    · rfl
    · trivial
  | @continueFlow n l hfl hn =>
    exact (tells_act (n := n) (f := ({ · with runFlag := true })) (o := .goOn n)
      (fun _ => eq_comm) rfl trivial).trans (tells_push ..)
  | @deliver r rs n ns hh hr =>
    let g : Heap := { h with handling := { r with nodes := ns } :: rs }
    have hd : g.Tells (h.takeHandled r rs n ns) := tells_act (fun _ => eq_comm) rfl trivial
    exact .trans (tells_of_eq rfl fun _ => rfl) hd
  | _ => exact tells_of_eq rfl fun _ => rfl

theorem tells_of_does (hd : Does flows may D h h') : h.Tells h' :=
  Traced.Does.invariant (I := fun g => h.Tells g) hd (fun hm ht => ht.trans (tells_of_move hm))
    (tells_of_eq rfl fun _ => rfl)

/-- **The history tells the truth**: the digests are what it yields, and what an entry
says about a node held before it. -/
structure Told (h : Heap) : Prop where
  digest : ∀ n, (h.nodes n).digest = digestOf n h.log
  honest : ∀ n o after before, h.log = after ++ o :: before → o.about n →
    o.Says (digestOf n before)

theorem told_of_tells (ht : ({} : Heap).Tells h) : h.Told := by
  obtain ⟨new, hl, hd⟩ := ht
  obtain rfl : h.log = new := by rw [hl, List.append_nil]
  refine ⟨fun n => (hd n).1, fun n o after before ho hn => ?_⟩
  have hh := (hd n).2
  rw [ho, honest_append] at hh
  exact hh.2.1 hn

end Heap

theorem State.told_of_reachable {cfg : Config} {s : State} (h : Reachable cfg s) : s.heap.Told :=
  have hd : Heap.Does (fun _ => True) (fun _ => True) (fun _ => False) init.heap s.heap :=
    does_of_steps (fun _ => trivial) (fun _ _ _ _ _ => trivial) wf_init h
  Heap.told_of_tells (Heap.tells_of_does hd)

end Asyncflow
