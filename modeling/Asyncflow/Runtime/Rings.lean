import Asyncflow.Moves.Stopping
import Asyncflow.Runtime.ExecutorLists

/-!
# The rings of the waiting lists

The links of the waiting lists are in the nodes, and the rings they form hold together as long as
every link in a ring belongs to a node that points to it: then a node is unlinked before it is
destroyed, and no link is pushed while it is in a ring.

One call breaks this (`Asyncflow.State.Tears`): `waiting_nodes_.remove` of a late continuation,
for a node that waits for an event, clears the pointer and leaves the link where it is. In runs
without such a call the rings are in order (`Asyncflow.Heap.Ringed`), and what is in them is
there.
-/

namespace Asyncflow

/-- A waiting list of an agent, or the activated nodes. -/
def Container.isGuarded : Container → Bool
  | .waiting _ _ | .activated => true
  | _ => false

namespace Heap

/-- **The rings are in order.** -/
structure Ringed (h : Heap) : Prop where
  /-- No waiting list holds a node twice, nor do the activated nodes. -/
  nodup : ∀ {c}, c.isGuarded → (h.content c).Nodup
  /-- A node in such a list points to it. -/
  of_mem : ∀ {c n}, c.isGuarded → n ∈ h.content c → (h.nodes n).container = some c
  /-- A link that is in use is in the waiting list that its node points to. -/
  linked : ∀ {n}, (h.nodes n).linked = true → ∃ a e, (h.nodes n).container = some (.waiting a e)
  /-- An activated node is not remembered as waiting. -/
  forgotten : ∀ {n}, n ∈ h.activated → n ∉ h.nodesSet
  /-- A node in a waiting list has not been destroyed. -/
  alive : ∀ {a e n}, n ∈ h.content (.waiting a e) → (h.charts n.chart).isSome

variable {h h' : Heap} {n m : NodeRef} {c : Container} {flows : ℕ → Prop} {may : Permit → Prop}
  {D : NodeRef → Prop}

namespace Ringed

/-- The lists may be reordered, and whatever concerns none of them may change. -/
theorem of_perm (hr : h.Ringed) (hcontent : ∀ c, c.isGuarded → (h'.content c).Perm (h.content c))
    (hcontainer : ∀ n, (h'.nodes n).container = (h.nodes n).container)
    (hlinked : ∀ n, (h'.nodes n).linked = (h.nodes n).linked)
    (hset : ∀ n, n ∈ h'.nodesSet → n ∈ h.nodesSet)
    (hcharts : ∀ c, (h.charts c).isSome → (h'.charts c).isSome) : h'.Ringed where
  nodup hc := (hcontent _ hc).nodup_iff.mpr (hr.nodup hc)
  of_mem hc hn := by
    rw [hcontainer]
    exact hr.of_mem hc ((hcontent _ hc).mem_iff.mp hn)
  linked hl := by
    rw [hlinked] at hl
    rw [hcontainer]
    exact hr.linked hl
  forgotten hn hs := hr.forgotten ((hcontent .activated rfl).mem_iff.mp hn) (hset _ hs)
  alive hn := hcharts _ (hr.alive ((hcontent (.waiting _ _) rfl).mem_iff.mp hn))

/-- Nothing but the fields of nodes changes. -/
theorem of_nodes (hr : h.Ringed) (hcontent : ∀ c, h'.content c = h.content c)
    (hnodes : ∀ n, (h'.nodes n).container = (h.nodes n).container ∧
      (h'.nodes n).linked = (h.nodes n).linked)
    (hset : h'.nodesSet = h.nodesSet) (hcharts : ∀ c, (h.charts c).isSome → (h'.charts c).isSome) :
    h'.Ringed :=
  hr.of_perm (fun c _ => .of_eq (hcontent c)) (fun n => (hnodes n).1) (fun n => (hnodes n).2)
    (fun _ hn => hset ▸ hn) hcharts

theorem setNode (hr : h.Ringed) (n : NodeRef) {f : Node → Node}
    (hf : ∀ d, (f d).container = d.container ∧ (f d).linked = d.linked) : (h.setNode n f).Ringed :=
  hr.of_nodes (fun _ => content_setNode ..)
    (fun m => ⟨field_setNode h n m _ fun d => (hf d).1, field_setNode h n m _ fun d =>
      (hf d).2⟩) rfl
    fun _ => id

theorem act (hr : h.Ringed) (n : NodeRef) {f : Node → Node} {o : Obs}
    (hf : ∀ d, (f d).container = d.container ∧ (f d).linked = d.linked) : (h.act n f o).Ringed :=
  (hr.setNode n hf).of_nodes (fun _ => rfl) (fun _ => ⟨rfl, rfl⟩) rfl fun _ => id

theorem setExecutor (hr : h.Ringed) (l : ℕ) (f : DfsExecutor → DfsExecutor) :
    (h.setExecutor l f).Ringed := by
  refine hr.of_perm (fun c hc => ?_) (fun _ => rfl) (fun _ => rfl) (fun _ => id) fun _ => id
  cases c with
  | executor k => cases hc
  | _ => exact .refl _

/-- A node in a container of another kind has its link free. -/
theorem not_linked (hr : h.Ringed) {c : Container} (hn : (h.nodes n).container = some c)
    (hw : c.isWaiting = false) : (h.nodes n).linked = false := by
  rw [Bool.eq_false_iff]
  intro hl
  obtain ⟨a, e, hae⟩ := hr.linked hl
  rw [hn] at hae
  cases hae
  cases hw

/-- A node that points to none of the lists is in none of them. -/
theorem not_mem (hr : h.Ringed) (hn : ∀ c, c.isGuarded → (h.nodes n).container ≠ some c)
    (hc : c.isGuarded) : n ∉ h.content c := fun hm => hn c hc (hr.of_mem hc hm)

/-- **`Remove`** of a node that is linked in no other of the lists. -/
theorem remove (hr : h.Ringed) (hn : ∀ c', c'.isGuarded → n ∈ h.content c' → c' = c)
    (hw : ∀ a e, (h.nodes n).container = some (.waiting a e) → c.isWaiting) :
    (h.remove c n).Ringed := by
  have hout : ∀ c', c'.isGuarded → n ∉ (h.remove c n).content c' := by
    intro c' hc' hm
    obtain rfl := hn c' hc' (mem_content_of_remove hm)
    rw [content_remove, if_pos (Container.Ring.refl c')] at hm
    simp at hm
  have hne : ∀ {c' m}, c'.isGuarded → m ∈ (h.remove c n).content c' → m ≠ n := by
    rintro c' m hc' hm rfl
    exact hout c' hc' hm
  refine ⟨fun {c'} hc' => ?_, fun {c' m} hc' hm => ?_, fun {m} hl => ?_, fun {m} hm => ?_,
    fun {a e m} hm => ?_⟩
  · rw [content_remove]
    split
    · exact (hr.nodup hc').filter _
    · exact hr.nodup hc'
  · rw [nodes_remove_of_ne (hne hc' hm)]
    exact hr.of_mem hc' (mem_content_of_remove hm)
  · rcases eq_or_ne m n with rfl | hmn
    · rw [linked_remove] at hl
      obtain ⟨hc, hl⟩ := (Bool.and_eq_true _ _).mp hl
      obtain ⟨a, e, hae⟩ := hr.linked hl
      rw [hw a e hae] at hc
      cases hc
    · rw [nodes_remove_of_ne hmn] at hl ⊢
      exact hr.linked hl
  · rw [nodesSet_remove]
    have hm : m ∈ (h.remove c n).content .activated := hm
    exact hr.forgotten (mem_content_of_remove hm)
  · rw [charts_remove]
    exact hr.alive (mem_content_of_remove hm)

/-- `Remove` of a node from the container it points to. -/
theorem detach (hr : h.Ringed) (n : NodeRef) : (h.detach n).Ringed := by
  unfold Heap.detach
  split
  · rename_i c hc
    refine hr.remove (fun c' hc' hm => ?_) fun a e hae => ?_
    · exact Option.some.inj ((hr.of_mem hc' hm).symm.trans hc)
    · rw [hc] at hae
      cases hae
      rfl
  · exact hr

/-- **`Push`**: the node comes out of the container it points to. -/
theorem push (hr : h.Ringed) {c : Container} (hset : c = .activated → n ∉ h.nodesSet)
    (hx : c.isWaiting → (h.charts n.chart).isSome) : (h.push c n).Ringed := by
  have hd := hr.detach n
  have hfree : ((h.detach n).nodes n).container = none := container_detach ..
  have hout : ∀ c', c'.isGuarded → n ∉ (h.detach n).content c' := by
    refine fun c' hc' => hd.not_mem (fun c'' _ hc'' => ?_) hc'
    rw [hfree] at hc''
    cases hc''
  have hmem : ∀ {c' m}, m ≠ n → m ∈ (h.push c n).content c' → m ∈ (h.detach n).content c' := by
    intro c' m hm hp
    rcases eq_or_ne c' c with rfl | hcc
    · exact (List.mem_cons.mp ((content_push_self h n c').mem_iff.mp hp)).resolve_left hm
    · rwa [content_push_of_ne hcc] at hp
  have hnodes : ∀ m ≠ n, (h.push c n).nodes m = (h.detach n).nodes m := fun m hm => by
    rw [nodes_push_of_ne hm, nodes_detach_of_ne hm]
  -- The node itself is in the list it has been pushed to, and in no other.
  have hself : ∀ {c'}, c'.isGuarded → n ∈ (h.push c n).content c' → c' = c := by
    intro c' hc' hp
    by_contra hcc
    rw [content_push_of_ne hcc] at hp
    exact hout c' hc' hp
  refine ⟨fun {c'} hc' => ?_, fun {c' m} hc' hm => ?_, fun {m} hl => ?_, fun {m} hm => ?_,
    fun {a e m} hm => ?_⟩
  · rcases eq_or_ne c' c with rfl | hcc
    · rw [(content_push_self ..).nodup_iff, List.nodup_cons]
      exact ⟨hout c' hc', hd.nodup hc'⟩
    · rw [content_push_of_ne hcc]
      exact hd.nodup hc'
  · rcases eq_or_ne m n with rfl | hmn
    · rw [container_push, hself hc' hm]
    · rw [hnodes m hmn]
      exact hd.of_mem hc' (hmem hmn hm)
  · rcases eq_or_ne m n with rfl | hmn
    · rw [container_push]
      rw [linked_push] at hl
      rcases (Bool.or_eq_true _ _).mp hl with hc | hl
      · obtain ⟨a, e, rfl⟩ := Container.isWaiting_iff.mp hc
        exact ⟨a, e, rfl⟩
      · obtain ⟨a, e, hae⟩ := hd.linked hl
        rw [hfree] at hae
        cases hae
    · rw [hnodes m hmn] at hl ⊢
      exact hd.linked hl
  · rw [nodesSet_push]
    have hp : m ∈ (h.push c n).content .activated := hm
    rcases eq_or_ne m n with rfl | hmn
    · exact hset (hself rfl hp).symm
    · rw [← nodesSet_detach h n]
      exact hd.forgotten (hmem hmn hp)
  · rw [charts_push]
    rcases eq_or_ne m n with rfl | hmn
    · refine hx ?_
      rw [← hself rfl hm]
      rfl
    · rw [← charts_detach h n]
      exact hd.alive (hmem hmn hm)

/-- A node in a container of another kind forgets it. -/
theorem setFree (hr : h.Ringed) {c : Container} (hn : (h.nodes n).container = some c)
    (hc : c.isGuarded = false) : (h.setNode n ({ · with container := none })).Ringed := by
  refine ⟨hr.nodup, fun {c' m} hc' hm => ?_, fun {m} hl => ?_, hr.forgotten, hr.alive⟩
  · have hm' : m ∈ h.content c' := by rwa [content_setNode] at hm
    have hmn : m ≠ n := by
      rintro rfl
      obtain rfl := Option.some.inj (hn.symm.trans (hr.of_mem hc' hm'))
      rw [hc] at hc'
      cases hc'
    rw [nodes_setNode_of_ne hmn]
    exact hr.of_mem hc' hm'
  · rcases eq_or_ne m n with rfl | hmn
    · rw [nodes_setNode_self] at hl
      obtain ⟨a, e, hae⟩ := hr.linked hl
      rw [hn] at hae
      cases hae
      cases hc
    · rw [nodes_setNode_of_ne hmn] at hl ⊢
      exact hr.linked hl

/-- A node that leaves the list it is in. -/
theorem take (hr : h.Ringed) {c : Container} (hc : c.isGuarded)
    (hself : (h.content c).Perm (n :: h'.content c))
    (hother : ∀ c' ≠ c, c'.isGuarded → (h'.content c').Perm (h.content c'))
    (hnode : (h'.nodes n).linked = false) (hnodes : ∀ m ≠ n, h'.nodes m = h.nodes m)
    (hset : h'.nodesSet = h.nodesSet) (hcharts : h'.charts = h.charts) : h'.Ringed := by
  have hn : (h.nodes n).container = some c := hr.of_mem hc (hself.mem_iff.mpr List.mem_cons_self)
  obtain ⟨hout, hnd⟩ := List.nodup_cons.mp (hself.nodup_iff.mp (hr.nodup hc))
  have hmem : ∀ {c' m}, c'.isGuarded → m ∈ h'.content c' → m ∈ h.content c' := by
    intro c' m hc' hm
    rcases eq_or_ne c' c with rfl | hcc
    · exact hself.mem_iff.mpr (List.mem_cons_of_mem n hm)
    · exact (hother c' hcc hc').mem_iff.mp hm
  have hne : ∀ {c' m}, c'.isGuarded → m ∈ h'.content c' → m ≠ n := by
    rintro c' m hc' hm rfl
    obtain rfl := Option.some.inj (hn.symm.trans (hr.of_mem hc' (hmem hc' hm)))
    exact hout hm
  refine ⟨fun {c'} hc' => ?_, fun {c' m} hc' hm => ?_, fun {m} hl => ?_, fun {m} hm => ?_,
    fun {a e m} hm => ?_⟩
  · rcases eq_or_ne c' c with rfl | hcc
    · exact hnd
    · exact (hother c' hcc hc').nodup_iff.mpr (hr.nodup hc')
  · rw [hnodes m (hne hc' hm)]
    exact hr.of_mem hc' (hmem hc' hm)
  · have hmn : m ≠ n := by
      rintro rfl
      rw [hnode] at hl
      cases hl
    rw [hnodes m hmn] at hl ⊢
    exact hr.linked hl
  · rw [hset]
    exact hr.forgotten (@hmem .activated m rfl hm)
  · rw [hcharts]
    exact hr.alive (@hmem (.waiting a e) m rfl hm)

/-- A push to an executor. -/
theorem pushed (hr : h.Ringed) (l : ℕ) (n : NodeRef) : (h.push (.executor l) n).Ringed :=
  hr.push nofun fun hw => Bool.noConfusion hw

/-! ### The calls -/

/-- `AsyncManager::RemoveNode` of a node that is in none of the lists. -/
theorem removeNode (hr : h.Ringed) (hw : ∀ a e, (h.nodes n).container ≠ some (.waiting a e))
    (ha : n ∉ h.activated) : (h.removeNode n).Ringed := by
  have hrem : (h.remove .asyncWaiting n).Ringed := by
    refine hr.remove (fun c hc hm => ?_) fun a e hae => absurd hae (hw a e)
    cases c with
    | waiting a e => exact absurd (hr.of_mem rfl hm) (hw a e)
    | activated => exact absurd hm ha
    | executor l => cases hc
    | asyncWaiting => cases hc
  refine hrem.of_perm (fun _ _ => .refl _) (fun _ => rfl) (fun _ => rfl) (fun m hm => ?_)
    fun _ => id
  rw [nodesSet_remove]
  exact (mem_nodesSet_removeNode.mp hm).1

theorem removeNode_of_awaited (hr : h.Ringed) (hn : h.awaited n) : (h.removeNode n).Ringed := by
  refine hr.removeNode (fun a e hae => ?_) fun hm => ?_
  · rcases hn with hn | hn <;> rw [hn] at hae <;> cases hae
  · have hac := hr.of_mem (c := .activated) rfl hm
    rcases hn with hn | hn <;> rw [hn] at hac <;> cases hac

theorem activateNode (hr : h.Ringed) (hn : n ∉ h.nodesSet) (skip : Bool) :
    (h.activateNode n skip).Ringed := by
  unfold Heap.activateNode
  split
  · exact hr
  · exact (hr.push (fun _ => hn) fun hw => Bool.noConfusion hw).setNode n fun _ => ⟨rfl, rfl⟩

theorem not_mem_removeNode (h : Heap) (n : NodeRef) : n ∉ (h.removeNode n).nodesSet := by
  rw [mem_nodesSet_removeNode]
  exact fun hm => hm.2 rfl

/-- `ContinueAsyncNode` and `CancelAsyncNode`, after the node has been removed. -/
theorem continueNode (hr : (h.removeNode n).Ringed) (b : Bool) : (h.continueNode n b).Ringed :=
  (hr.activateNode (not_mem_removeNode h n) true).act n fun _ => ⟨rfl, rfl⟩

theorem cancelNode (hr : (h.removeNode n).Ringed) (stop : Bool) : (h.cancelNode n stop).Ringed := by
  unfold Heap.cancelNode
  split
  · exact hr.of_nodes (fun _ => rfl) (fun _ => ⟨rfl, rfl⟩) rfl fun _ => id
  · exact (hr.activateNode (not_mem_removeNode h n) true).act n fun _ => ⟨rfl, rfl⟩

theorem suspendNode (hr : h.Ringed) (n : NodeRef) : (h.suspendNode n).Ringed := by
  have hp : ((h.setNode n ({ · with status := .running })).push .asyncWaiting n).Ringed := by
    have hs : (h.setNode n ({ · with status := .running })).Ringed :=
      hr.setNode n fun _ => ⟨rfl, rfl⟩
    exact hs.push nofun fun hw => Bool.noConfusion hw
  refine ⟨hp.nodup, hp.of_mem, hp.linked, fun {m} hm hs => ?_, hp.alive⟩
  have hac := hp.of_mem (c := .activated) rfl hm
  have hmn : m ≠ n := by
    rintro rfl
    rw [container_push] at hac
    cases hac
  refine hp.forgotten hm ?_
  change m ∈ if n ∈ _ then _ else _ at hs
  split at hs
  · exact hs
  · exact (List.mem_cons.mp hs).resolve_left hmn

/-- A flow begins. -/
theorem beginFlow (hr : h.Ringed) (l : ℕ) (a : AgentId) (n : NodeRef) :
    (h.beginFlow l a n).Ringed := by
  have ha : (h.act n ({ · with status := .idle }) (.flow n)).Ringed := hr.act n fun _ => ⟨rfl, rfl⟩
  have hp := (ha.setExecutor l ({ · with currentAgent := some a, nodeList := [] })).pushed l n
  exact hp.of_nodes (fun _ => rfl) (fun _ => ⟨rfl, rfl⟩) rfl fun _ => id

/-- The waiting lists of an agent are dropped together with the pointers to them. -/
theorem dropWaiting (hr : h.Ringed) (es : List EventId) (a : AgentId) :
    (h.dropWaiting es a).Ringed := by
  have hsub : ∀ c, ((h.dropWaiting es a).content c).Sublist (h.content c) :=
    content_dropWaiting_sublist h es a
  -- A node that loses its pointer is in none of the lists now.
  have hout : ∀ {c}, c.isGuarded → ∀ n ∈ h.waitingFor es a, n ∉ (h.dropWaiting es a).content c := by
    intro c hc n hn hm
    obtain ⟨e, he, hne⟩ := mem_waitingFor.mp hn
    have hcn : (h.nodes n).container = some (.waiting a e) :=
      hr.of_mem rfl (List.mem_append_left _ hne)
    obtain rfl := Option.some.inj (hcn.symm.trans (hr.of_mem hc (mem_content_of_dropWaiting hm)))
    rw [content_waiting, waiting_dropWaiting, if_pos ⟨rfl, he⟩] at hm
    have hnd := hr.nodup (c := .waiting a e) rfl
    rw [content_waiting, List.nodup_append] at hnd
    exact hnd.2.2 n hne n hm rfl
  refine ⟨fun {c} hc => (hr.nodup hc).sublist (hsub c), fun {c n} hc hm => ?_, fun {n} hl => ?_,
    fun {n} hm => hr.forgotten (mem_content_of_dropWaiting (c := .activated) hm),
    fun {a' e n} hm => hr.alive (mem_content_of_dropWaiting hm)⟩
  · rw [nodes_dropWaiting_of_not_mem fun hn => hout hc n hn hm]
    exact hr.of_mem hc (mem_content_of_dropWaiting hm)
  · by_cases hn : n ∈ h.waitingFor es a
    · rw [nodes_dropWaiting_of_mem hn] at hl
      cases hl
    · rw [nodes_dropWaiting_of_not_mem hn] at hl ⊢
      exact hr.linked hl

theorem create (hr : h.Ringed) (hb : h.Born) (d : DataId) (o : Option NodeRef) :
    (h.initChart d o).Ringed := by
  have hnodes : ∀ n, (h.initChart d o).nodes n = if n.chart = h.nextChart then {} else h.nodes n :=
    fun _ => rfl
  have hold : ∀ {c n}, n ∈ h.content c → n.chart ≠ h.nextChart := fun hn =>
    Nat.ne_of_lt (hb.linked _ _ hn).1
  refine ⟨hr.nodup, fun {c n} hc hn => ?_, fun {n} hl => ?_, fun {n} hn hs => ?_,
    fun {a e n} hn => ?_⟩
  · rw [hnodes, if_neg (hold hn)]
    exact hr.of_mem hc hn
  · rw [hnodes] at hl ⊢
    split at hl
    · cases hl
    · rw [if_neg ‹_›]
      exact hr.linked hl
  · -- What is remembered at a new address is a node of the new chart.
    obtain ⟨m, hm, rfl⟩ := List.mem_map.mp hs
    rcases h.rehouse_eq (h.nodeCount d) m with he | ⟨i, -, he⟩ <;> rw [he] at hn
    · exact hr.forgotten hn hm
    · exact hold (c := .activated) hn rfl
  · change (Function.update h.charts h.nextChart _ n.chart).isSome
    rw [Function.update_of_ne (hold (c := .waiting a e) hn)]
    exact hr.alive hn

/-- A chart goes when its nodes are in no container any more. -/
theorem forget (hr : h.Ringed) (hb : h.Born) {c : ChartId}
    (hfree : ∀ n ∈ h.nodeList c, (h.nodes n).container = none) : (h.forgetChart c).Ringed := by
  have ho : (h.setOwner c ({ · with attacher := none })).Ringed := by
    unfold setOwner
    split
    · exact hr.setNode _ fun _ => ⟨rfl, rfl⟩
    · exact hr
  refine ⟨ho.nodup, ho.of_mem, ho.linked, ho.forgotten, fun {a e n} hn => ?_⟩
  have hn' : n ∈ h.content (.waiting a e) := by
    rw [forgetChart, content_note] at hn
    unfold setOwner at hn
    split at hn <;> exact hn
  have hx := hr.alive hn'
  have hne : n.chart ≠ c := by
    rintro rfl
    obtain ⟨x, hx⟩ := Option.isSome_iff_exists.mp hx
    have hmem : n ∈ h.nodeList n.chart := by
      refine List.mem_map.mpr ⟨n.id, List.mem_range.mpr ?_, rfl⟩
      rw [nodesCount, hx]
      exact (hb.linked _ n hn').2 x hx
    have hcn := hfree n hmem
    rw [hr.of_mem rfl hn'] at hcn
    cases hcn
  change (Function.update h.charts c none n.chart).isSome
  rwa [Function.update_of_ne hne]

end Ringed

/-- **A move keeps the rings in order**, as long as it is not stray. -/
theorem ringed_of_move (hst : ¬may .stray) (hm : Move flows may D h h') (hb : h.Born)
    (hr : h.Ringed) : h'.Ringed := by
  cases hm with
  | load | patch | manage => exact hr.of_nodes (fun _ => rfl) (fun _ => ⟨rfl, rfl⟩) rfl fun _ => id
  | alike ha =>
    refine hr.of_nodes (fun c => ?_) (fun n => ?_) ha.nodesSet ha.alive
    · exact content_congr c ha.nodeList ha.waiting ha.handling ha.asyncWaiting ha.activated
    · rw [ha.nodes]
      exact ⟨rfl, rfl⟩
  | act hw _ => exact hr.act _ hw.rim
  | flag n b _ _ => exact hr.setNode n fun _ => ⟨rfl, rfl⟩
  | unskip n => exact hr.setNode n fun _ => ⟨rfl, rfl⟩
  | detach _ => exact hr.detach _
  | @removeFree n l hn =>
    have hout : ∀ c', (h.nodes n).container ≠ some c' := by
      intro c' hc'
      rw [hn] at hc'
      cases hc'
    exact hr.remove (fun c' hc' hm => absurd hm (hr.not_mem (fun c _ => hout c) hc'))
      fun a e hae => absurd hae (hout _)
  | @wait n a e _ hx =>
    -- A node that waits is there, as `alive` asks.
    have hp : (h.push (.waiting a e) n).Ringed := hr.push nofun fun _ => hx
    exact (hp.setNode n (f := ({ · with status := .running })) fun _ => ⟨rfl, rfl⟩).of_nodes
      (fun _ => rfl) (fun _ => ⟨rfl, rfl⟩) rfl fun _ => id
  | @suspend n _ _ => exact hr.suspendNode n
  -- A move that is not stray finds the node among the waiting nodes, or in no list.
  | continued b _ ha => exact (hr.removeNode_of_awaited (ha.resolve_left hst)).continueNode b
  | cancelled stop _ ha => exact (hr.removeNode_of_awaited (ha.resolve_left hst)).cancelNode stop
  | @takeActivated n ns ha _ =>
    have hcn : (h.nodes n).container = some .activated :=
      hr.of_mem rfl (show n ∈ h.activated by rw [ha]; exact List.mem_cons_self)
    refine hr.take (c := .activated) (n := n) rfl ?_ (fun c' hcc _ => ?_) ?_
      (fun m hm => nodes_setNode_of_ne hm _) rfl rfl
    · exact .of_eq ha
    · cases c' <;> first | exact .refl _ | exact absurd rfl hcc
    · have hl := hr.not_linked hcn rfl
      rw [takeActivated, nodes_setNode_self]
      exact hl
  | @resume n skip r hn _ =>
    have ha : (h.act n ({ · with skip := skip, result := r }) (.resume n r)).Ringed :=
      hr.act n fun _ => ⟨rfl, rfl⟩
    refine ha.removeNode_of_awaited (.inl ?_)
    rw [nodes_act, nodes_setNode_self]
    exact hn
  | @started c x hx hne =>
    simp only [markStarted, hx, hne, ↓reduceIte]
    have hs : (h.setChart c ({ · with status := .running })).Ringed := by
      refine hr.of_nodes (fun _ => content_setChart ..) (fun _ => ⟨rfl, rfl⟩) rfl fun d hd => ?_
      rw [setChart]
      dsimp only
      rcases eq_or_ne d c with rfl | hdc
      · rwa [Function.update_self, Option.isSome_map]
      · rwa [Function.update_of_ne hdc]
    exact hs.act _ fun _ => ⟨rfl, rfl⟩
  | create d o _ _ => exact hr.create hb d o
  | forget c hfree => exact hr.forget hb hfree
  | dropWaiting es a => exact hr.dropWaiting es a
  | @beginFlow n l a _ _ _ => exact hr.beginFlow l a n
  | @pop n ns l _ hl =>
    simp only [Heap.pop, hl]
    have hs := hr.setExecutor l fun x =>
      { x with nodeList := ns, historyNodes := n :: x.historyNodes }
    split
    · exact hs.setFree (c := .executor l) ‹_› rfl
    · exact hs
  | current l | agent l | clearHistory l => exact hr.setExecutor l _
  | @child n i l _ hi _ =>
    simp only [addChild, hi, ↓reduceIte]
    exact (hr.act _ (by intro; exact ⟨rfl, rfl⟩)).pushed l _
  | @continueFlow n l _ _ =>
    exact (hr.act n (o := .goOn n) (f := ({ · with runFlag := true })) fun _ =>
      ⟨rfl, rfl⟩).pushed l n
  | closeFlow l _ =>
    exact (hr.setExecutor l ({ · with currentNode := none, currentAgent := none })).of_nodes
      (fun _ => rfl) (fun _ => ⟨rfl, rfl⟩) rfl fun _ => id
  | swap a e =>
    exact hr.of_perm (fun c _ => content_swapWaiting h c a e) (fun _ => rfl) (fun _ => rfl)
      (fun _ => id) fun _ => id
  | @deliver r rs n ns hh hrn =>
    -- What is left of the list that is handled counts as part of the waiting list.
    have hself := content_handling hh (.waiting r.agent r.event)
    rw [if_pos rfl, hrn] at hself
    have hg : ∀ c, ((h.takeHandled r rs n ns).content c).Perm
        ((if c = .waiting r.agent r.event then ns else []) ++
          ({ h with handling := rs } : Heap).content c) := fun c => by
      rw [takeHandled, content_act]
      exact content_handling (h := { h with handling := { r with nodes := ns } :: rs }) rfl c
    refine hr.take (c := .waiting r.agent r.event) (n := n) rfl ?_ (fun c' hcc _ => ?_) ?_
      (fun m hm => ?_) rfl rfl
    · refine hself.trans (.cons n (.symm ?_))
      simpa using hg (.waiting r.agent r.event)
    · have h1 := content_handling hh c'
      have h2 := hg c'
      rw [if_neg hcc] at h1 h2
      exact h2.trans h1.symm
    · simp [takeHandled]
    · simp [takeHandled, nodes_setNode_of_ne hm]
  | @dropHandling r rs hh hrn =>
    refine hr.of_perm (fun c _ => ?_) (fun _ => rfl) (fun _ => rfl) (fun _ => id) fun _ => id
    have := (content_handling hh c).symm
    simpa [hrn] using this

theorem ringed_init : ({} : Heap).Ringed where
  nodup {c} _ := by cases c <;> exact List.nodup_nil
  of_mem {c n} _ hn := by cases c <;> exact absurd hn List.not_mem_nil
  linked hl := Bool.noConfusion hl
  forgotten hn := absurd hn List.not_mem_nil
  alive hn := absurd hn List.not_mem_nil

/-! ### What does not happen -/

/-- **No link is pushed while it is in a ring.** -/
theorem Ringed.ub_push (hr : h.Ringed) (ht : h.Tied) (c : Container) (n : NodeRef) :
    (h.push c n).ub = h.ub := by
  have hd : (h.detach n).ub = h.ub := ub_detach_of_linked (ht n)
  cases c with
  | waiting a e =>
    have hfree : ((h.detach n).nodes n).linked = false := by
      rw [Bool.eq_false_iff]
      intro hl
      obtain ⟨a', e', hae⟩ := (hr.detach n).linked hl
      rw [container_detach] at hae
      cases hae
    change ((h.detach n).ub || ((h.detach n).nodes n).linked) = h.ub
    rw [hfree, hd, Bool.or_false]
  | _ => exact hd

/-- **The destructors of the waiting lists find no node that has been destroyed.** -/
theorem Ringed.ub_dropWaiting (hr : h.Ringed) (es : List EventId) (a : AgentId) :
    (h.dropWaiting es a).ub = h.ub := by
  have hnone : ((h.waitingFor es a).any fun n => (h.charts n.chart).isNone) = false := by
    rw [List.any_eq_false]
    intro n hn
    obtain ⟨e, -, hm⟩ := mem_waitingFor.mp hn
    obtain ⟨x, hx⟩ := Option.isSome_iff_exists.mp (hr.alive (List.mem_append_left _ hm))
    rw [hx]
    exact Bool.false_ne_true
  change (h.ub || (h.waitingFor es a).any fun n => (h.charts n.chart).isNone) = h.ub
  rw [hnone, Bool.or_false]

end Heap

namespace State

variable {cfg : Config} {s t : State} {a : Act}

/-- No state is reached through undefined behaviour. -/
theorem ub_of_reachable (h : Reachable cfg s) : s.heap.ub = false :=
  h.invariant (I := fun s => s.heap.ub = false) rfl fun _ _ _ _ _ hs =>
    ub_of_sound (sound_of_step hs)

/-- `ContinueAsyncNode` or `CancelAsyncNode` succeeds for a node that is in a waiting list of an
agent: its link stays in the ring. -/
def Tears (s : State) (a : Act) : Prop :=
  ∃ n ∈ s.resumed? a, n ∈ s.heap.nodesSet ∧ ∃ c ∈ (s.heap.nodes n).container, c.isWaiting

instance : Decidable (s.Tears a) :=
  inferInstanceAs (Decidable (∃ n ∈ s.resumed? a, n ∈ s.heap.nodesSet ∧
    ∃ c ∈ (s.heap.nodes n).container, c.isWaiting))

/-- **A step keeps the rings in order** if it tears none. -/
theorem ringed_of_step (hw : s.Wf) (hk : ¬s.Tears a) (h : s.step cfg a = some t)
    (hr : s.heap.Ringed) : t.heap.Ringed := by
  by_cases hst : s.Strays a
  · -- A node that is remembered is removed from the waiting nodes, wherever it is.
    have hrem : ∀ n ∈ s.resumed? a, n ∈ s.heap.nodesSet → (s.heap.removeNode n).Ringed := by
      intro n hn hset
      refine hr.removeNode (fun b e hbe => ?_) fun hm => hr.forgotten hm hset
      exact hk ⟨n, hn, hset, .waiting b e, hbe, rfl⟩
    cases (trans_of_step h).1 with
    | @op o t hm hop =>
      cases o with
      | continueAsyncNode ctx b =>
        obtain ⟨hset, -⟩ := hst
        cases hop
        rw [mapHeap, Heap.continueAsyncNode_of_mem hset (ub_of_sound (sound_of_step h))]
        exact (hrem _ rfl hset).continueNode b
      | cancelAsyncNode ctx stop =>
        obtain ⟨hset, -⟩ := hst
        cases hop
        rw [mapHeap, Heap.cancelAsyncNode_of_mem hset (ub_of_sound (sound_of_step h))]
        exact (hrem _ rfl hset).cancelNode stop
      | _ => exact hst.elim
    | @enter n rest hf =>
      simp only [Strays, hf] at hst
      obtain ⟨hl, hcr, har, -⟩ := hst
      obtain ⟨g, hg, hgr⟩ := (Option.any_eq_true ..).mp har
      have hlt : ¬maxStackSize ≤ s.heap.currentIndex + 1 := Nat.not_le.mpr hl
      simp only [enterFlow, hlt, ↓reduceIte, hg, hgr, hcr, Bool.and_self]
      exact hr.beginFlow _ g n
    | continuing hf | starting hf | flow hf | ran hf | ended hf | flowReturn hf | returning hf
    | handle hf | trigger hf | async hf | events hf | deleteEvent hf | dying hf =>
      simp [Strays, hf] at hst
    | _ => exact hst.elim
  · have hd : Heap.Does (fun _ => True) (fun p => p ≠ .stray) (fun _ => False) s.heap t.heap :=
      does_of_step (fun _ _ => trivial) hw h fun p hp he => by
        subst he
        exact hst hp
    have hinv := Traced.Does.invariant (I := fun g => g.Born ∧ g.Ringed) hd
      (fun hm hg => ⟨Heap.born_of_move hm hg.1,
        Heap.ringed_of_move (fun hne => hne rfl) hm hg.1 hg.2⟩)
      ⟨hw.born, hr⟩
    exact hinv.2

/-- **The rings are in order** in runs that tear none. -/
theorem ringed_of_steps (h : Run.Steps (step cfg) (fun s a => ¬s.Tears a) init s) :
    s.heap.Ringed := by
  have hi := h.invariant (I := fun s => s.Wf ∧ s.heap.Ringed) ⟨wf_init, Heap.ringed_init⟩
    fun u a v hi hk hs => ⟨wf_of_step hi.1 hs, ringed_of_step hi.1 hk hs hi.2⟩
  exact hi.2

end State

end Asyncflow
