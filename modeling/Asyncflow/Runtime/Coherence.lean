import Asyncflow.Core.Content
import Asyncflow.Moves.Step
import Mathlib.Data.List.Nodup

/-!
# Nodes and their containers

A node has one pointer `container_` for six kinds of lists. `Asyncflow.Heap.Coherent`
says that the pointers and the lists agree and that no `Remove` has been called on
the wrong list, and every move keeps it but for two, which are those that put a
node astray: a late continuation calls `waiting_nodes_.remove` for a node that is
linked somewhere else, and a flow clears a list on which nodes are still pending.
-/

namespace Asyncflow

/-- A waiting list of an agent, with intrusive links. -/
def Container.isWaiting : Container → Bool
  | .waiting _ _ => true
  | _ => false

theorem Container.isWaiting_iff {c : Container} : c.isWaiting ↔ ∃ a e, c = .waiting a e := by
  cases c <;> simp [isWaiting]

namespace Heap

/-- **Container coherence.** -/
structure Coherent (h : Heap) : Prop where
  /-- A node is linked in the container it points to, once, and in no other. -/
  count : ∀ c n, (h.content c).count n = if (h.nodes n).container = some c then 1 else 0
  /-- The intrusive link is in use exactly while the node is in a waiting list. -/
  linked : ∀ n, (h.nodes n).linked = true ↔ ∃ a e, (h.nodes n).container = some (.waiting a e)
  /-- Every `Remove` was called on a container that held the node, or for a node that
  was not linked. -/
  placed : ∀ n, .misplaced n ∉ h.log

variable {h h' : Heap} {n m : NodeRef} {c c' : Container} {flows : ℕ → Prop}
  {may : Permit → Prop} {D : NodeRef → Prop}

/-- Membership, as opposed to the number of times. -/
theorem Coherent.mem_iff (hc : h.Coherent) : n ∈ h.content c ↔ (h.nodes n).container = some c := by
  rw [← List.count_pos_iff, hc.count]
  split <;> simp_all

/-! ### What is kept whatever has been lost -/

/-- **Orderly containers**: coherence but for the nodes that an executor has lost, `E`, which may
still point to it; only nodes of `M` have been removed from a container that does not hold them. -/
structure Orderly (E : NodeRef → ℕ → Prop) (M : NodeRef → Prop) (h : Heap) : Prop where
  /-- No container holds a node twice. -/
  nodup : ∀ c, (h.content c).Nodup
  /-- A node that is linked in a container points to it. -/
  of_mem : ∀ {c n}, n ∈ h.content c → (h.nodes n).container = some c
  /-- A node that points to a container is linked in it, or lost. -/
  mem : ∀ {c n}, (h.nodes n).container = some c → n ∈ h.content c ∨ ∃ l, c = .executor l ∧ E n l
  /-- The intrusive link is in use exactly while the node is in a waiting list. -/
  linked : ∀ n, (h.nodes n).linked = true ↔ ∃ a e, (h.nodes n).container = some (.waiting a e)
  placed : ∀ n, .misplaced n ∈ h.log → M n

/-- **Coherence** is order with nothing lost. -/
theorem coherent_iff : h.Coherent ↔ h.Orderly (fun _ _ => False) (fun _ => False) := by
  constructor
  · intro hc
    refine ⟨fun c => List.nodup_iff_count.mpr fun n => ?_, hc.mem_iff.mp,
      fun hn => .inl (hc.mem_iff.mpr hn), hc.linked, hc.placed⟩
    rw [hc.count]
    split <;> omega
  · intro ho
    refine ⟨fun c n => ?_, ho.linked, ho.placed⟩
    split_ifs with hn
    · refine List.count_eq_one_of_mem (ho.nodup c) ((ho.mem hn).resolve_right ?_)
      rintro ⟨l, -, hl⟩
      exact hl
    · exact List.count_eq_zero.mpr fun hm => hn (ho.of_mem hm)

variable {E : NodeRef → ℕ → Prop} {M : NodeRef → Prop}

namespace Orderly

/-- Lists may be reordered, and whatever concerns no container may change. -/
theorem of_perm (ho : h.Orderly E M) (hcontent : ∀ c, (h'.content c).Perm (h.content c))
    (hcontainer : ∀ n, (h'.nodes n).container = (h.nodes n).container)
    (hlinked : ∀ n, (h'.nodes n).linked = (h.nodes n).linked)
    (hlog : ∀ n, .misplaced n ∈ h'.log → .misplaced n ∈ h.log) : h'.Orderly E M where
  nodup c := (hcontent c).nodup_iff.mpr (ho.nodup c)
  of_mem hn := by rw [hcontainer, ho.of_mem ((hcontent _).mem_iff.mp hn)]
  mem hn := by
    rw [hcontainer] at hn
    rw [(hcontent _).mem_iff]
    exact ho.mem hn
  linked n := by rw [hlinked, hcontainer, ho.linked]
  placed n hn := ho.placed n (hlog n hn)

theorem setNode (ho : h.Orderly E M) (n : NodeRef) {f : Node → Node}
    (hf : ∀ d, (f d).container = d.container) (hf' : ∀ d, (f d).linked = d.linked) :
    (h.setNode n f).Orderly E M :=
  ho.of_perm (fun _ => .of_eq (content_setNode ..)) (fun m => field_setNode h n m _ hf)
    (fun m => field_setNode h n m _ hf') fun _ hm => hm

theorem note (ho : h.Orderly E M) {o : Obs} (hne : ∀ n, o ≠ .misplaced n) :
    (h.note o).Orderly E M := by
  refine ho.of_perm (fun _ => .refl _) (fun _ => rfl) (fun _ => rfl) fun m hm => ?_
  exact (List.mem_cons.mp hm).resolve_left fun he => hne m he.symm

theorem act (ho : h.Orderly E M) (n : NodeRef) {f : Node → Node} {o : Obs}
    (hf : ∀ d, (f d).container = d.container) (hf' : ∀ d, (f d).linked = d.linked)
    (hne : ∀ n, o ≠ .misplaced n) : (h.act n f o).Orderly E M :=
  (ho.setNode n hf hf').note hne

theorem writes {f : Node → Node} {o : Obs} (ho : h.Orderly E M) (hw : h.Writes n f o) :
    (h.act n f o).Orderly E M := by
  refine ho.act n (fun d => (hw.rim d).1) (fun d => (hw.rim d).2) fun m => ?_
  cases hw <;> exact nofun

theorem setExecutor (ho : h.Orderly E M) (l : ℕ) {f : DfsExecutor → DfsExecutor}
    (hf : ∀ x, (f x).nodeList = x.nodeList) : (h.setExecutor l f).Orderly E M :=
  ho.of_perm (fun c => .of_eq (content_setExecutor h c hf)) (fun _ => rfl) (fun _ => rfl)
    fun _ hm => hm

/-- A node in a container of another kind has its link free. -/
theorem not_linked (ho : h.Orderly E M) (hn : (h.nodes n).container = some c)
    (hw : c.isWaiting = false) : (h.nodes n).linked = false := by
  rw [Bool.eq_false_iff]
  intro hl
  obtain ⟨a, e, hae⟩ := (ho.linked n).mp hl
  rw [hn] at hae
  cases hae
  exact Bool.noConfusion hw

end Orderly

/-! ### Taking nodes out and putting them in -/

theorem linked_unlink : ((h.unlink c n).nodes n).linked = (!c.isWaiting && (h.nodes n).linked) := by
  cases c <;> simp [unlink, unlinkRing, Container.isWaiting]

theorem linked_remove : ((h.remove c n).nodes n).linked = (!c.isWaiting && (h.nodes n).linked) := by
  rw [← linked_unlink]
  unfold remove
  split <;> simp

theorem linked_link : ((h.link c n).nodes n).linked = (c.isWaiting || (h.nodes n).linked) := by
  cases c <;> simp [link, Container.isWaiting, Heap.setExecutor]

theorem linked_push : ((h.push c n).nodes n).linked =
    (c.isWaiting || ((h.detach n).nodes n).linked) := by
  rw [← linked_link]
  simp [push]

/-- What a `Remove` adds to the record. -/
theorem misplaced_of_log_remove (hm : .misplaced m ∈ (h.remove c n).log) :
    .misplaced m ∈ h.log ∨ m = n ∧ n ∉ h.content c ∧ (h.nodes n).container ≠ none := by
  unfold Heap.remove at hm
  dsimp only at hm
  split at hm
  · rw [log_setNode, log_unlink] at hm
    exact .inl hm
  · rename_i hn
    rw [log_note, log_setNode, log_unlink] at hm
    rcases List.mem_cons.mp hm with hm | hm
    · exact .inr ⟨Obs.misplaced.inj hm, not_or.mp hn⟩
    · exact .inl hm

namespace Orderly

/-- **`Remove`** of a node that is linked in no other container. -/
theorem remove (ho : h.Orderly E M) (hn : ∀ c', n ∈ h.content c' → c' = c)
    (hM : n ∉ h.content c → (h.nodes n).container ≠ none → M n) :
    (h.remove c n).Orderly E M := by
  -- The node is in no container any more.
  have hout : ∀ c', n ∉ (h.remove c n).content c' := by
    intro c' hm
    obtain rfl := hn c' (mem_content_of_remove hm)
    rw [content_remove, if_pos (Container.Ring.refl c')] at hm
    simp at hm
  have hkeep : ∀ m ≠ n, ∀ c', m ∈ h.content c' → m ∈ (h.remove c n).content c' := by
    intro m hm c' hmc
    rw [content_remove]
    split
    · exact List.mem_filter.mpr ⟨hmc, by simpa using hm⟩
    · exact hmc
  refine ⟨fun c' => ?_, fun {c' m} hm => ?_, fun {c' m} hm => ?_, fun m => ?_, fun m hm => ?_⟩
  · rw [content_remove]
    split
    · exact (ho.nodup c').filter _
    · exact ho.nodup c'
  · have hne : m ≠ n := by
      rintro rfl
      exact hout c' hm
    rw [nodes_remove_of_ne hne]
    exact ho.of_mem (mem_content_of_remove hm)
  · have hne : m ≠ n := by
      rintro rfl
      rw [container_remove] at hm
      cases hm
    rw [nodes_remove_of_ne hne] at hm
    exact (ho.mem hm).imp_left (hkeep m hne c')
  · rcases eq_or_ne m n with rfl | hne
    · rw [container_remove, linked_remove]
      refine iff_of_false (fun hl => ?_) nofun
      obtain ⟨hw, hl⟩ := (Bool.and_eq_true _ _).mp hl
      obtain ⟨a, e, hae⟩ := (ho.linked m).mp hl
      rcases ho.mem hae with hmem | ⟨l, hl, -⟩
      · rw [← hn _ hmem] at hw
        exact Bool.noConfusion hw
      · cases hl
    · rw [nodes_remove_of_ne hne]
      exact ho.linked m
  · rcases misplaced_of_log_remove hm with hm | ⟨rfl, hmc, hne⟩
    · exact ho.placed m hm
    · exact hM hmc hne

/-- A node that points nowhere is linked nowhere. -/
theorem not_mem_of_free (ho : h.Orderly E M) (hn : (h.nodes n).container = none) (c : Container) :
    n ∉ h.content c := by
  intro hm
  rw [ho.of_mem hm] at hn
  cases hn

theorem remove_of_free (ho : h.Orderly E M) (c : Container) (hn : (h.nodes n).container = none) :
    (h.remove c n).Orderly E M :=
  ho.remove (fun c' hm => absurd hm (ho.not_mem_of_free hn c')) fun _ hne => absurd hn hne

/-- **`Remove`** of a node from the container it points to. -/
theorem detach (ho : h.Orderly E M) (hEM : ∀ n l, E n l → M n) (n : NodeRef) :
    (h.detach n).Orderly E M := by
  unfold Heap.detach
  split
  · rename_i c hc
    refine ho.remove (fun c' hm => Option.some.inj ((ho.of_mem hm).symm.trans hc)) fun hm _ => ?_
    obtain ⟨l, -, hl⟩ := (ho.mem hc).resolve_left hm
    exact hEM n l hl
  · exact ho

/-- **`Push`**: the node comes out of the container it points to. -/
theorem push (ho : h.Orderly E M) (hEM : ∀ n l, E n l → M n) (c : Container) (n : NodeRef) :
    (h.push c n).Orderly E M := by
  have hd := ho.detach hEM n
  have hn : ((h.detach n).nodes n).container = none := container_detach ..
  have hout := hd.not_mem_of_free hn
  have hnodes : ∀ m ≠ n, (h.push c n).nodes m = (h.detach n).nodes m := fun m hm => by
    rw [nodes_push_of_ne hm, nodes_detach_of_ne hm]
  have hmem : ∀ c' m, m ≠ n → (m ∈ (h.push c n).content c' ↔ m ∈ (h.detach n).content c') := by
    intro c' m hm
    rcases eq_or_ne c' c with rfl | hcc
    · rw [(content_push_self ..).mem_iff, List.mem_cons]
      exact or_iff_right hm
    · rw [content_push_of_ne hcc]
  refine ⟨fun c' => ?_, fun {c' m} hm => ?_, fun {c' m} hm => ?_, fun m => ?_, fun m hm => ?_⟩
  · rcases eq_or_ne c' c with rfl | hcc
    · rw [(content_push_self ..).nodup_iff, List.nodup_cons]
      exact ⟨hout c', hd.nodup c'⟩
    · rw [content_push_of_ne hcc]
      exact hd.nodup c'
  · rcases eq_or_ne m n with rfl | hne
    · rw [container_push]
      by_contra hcc
      rw [content_push_of_ne fun he => hcc (by rw [he])] at hm
      exact hout c' hm
    · rw [hnodes m hne]
      exact hd.of_mem ((hmem c' m hne).mp hm)
  · rcases eq_or_ne m n with rfl | hne
    · rw [container_push] at hm
      obtain rfl := Option.some.inj hm
      exact .inl ((content_push_self ..).mem_iff.mpr List.mem_cons_self)
    · rw [hnodes m hne] at hm
      exact (hd.mem hm).imp_left (hmem c' m hne).mpr
  · rcases eq_or_ne m n with rfl | hne
    · have hl : ((h.detach m).nodes m).linked = false := by
        rw [Bool.eq_false_iff]
        intro hl
        obtain ⟨a, e, hae⟩ := (hd.linked m).mp hl
        rw [hn] at hae
        cases hae
      rw [container_push, linked_push, hl, Bool.or_false, Container.isWaiting_iff]
      simp
    · rw [hnodes m hne]
      exact hd.linked m
  · refine hd.placed m ?_
    have hl : (h.push c n).log = (h.detach n).log := by simp [Heap.push]
    rwa [hl] at hm

/-! ### The moves -/

/-- `AsyncManager::RemoveNode` of a node that is in no list but the waiting nodes. -/
theorem removeNode (ho : h.Orderly E M) (hn : ∀ c, n ∈ h.content c → c = .asyncWaiting)
    (hM : n ∉ h.content .asyncWaiting → (h.nodes n).container ≠ none → M n) :
    (h.removeNode n).Orderly E M :=
  (ho.remove hn hM).of_perm (fun _ => .refl _) (fun _ => rfl) (fun _ => rfl) fun _ hm => hm

/-- Awaited nodes are in no other list. -/
theorem removeNode_of_awaited (ho : h.Orderly E M) (hn : h.awaited n) :
    (h.removeNode n).Orderly E M := by
  rcases hn with hn | hn
  · exact ho.removeNode (fun c hm => absurd hm (ho.not_mem_of_free hn c)) fun _ hne => absurd hn hne
  · refine ho.removeNode (fun c hm => ?_) fun hm _ => ?_
    · exact Option.some.inj ((ho.of_mem hm).symm.trans hn)
    · obtain ⟨l, hl, -⟩ := (ho.mem hn).resolve_left hm
      cases hl

theorem activateNode (ho : h.Orderly E M) (hEM : ∀ n l, E n l → M n) (n : NodeRef) (skip : Bool) :
    (h.activateNode n skip).Orderly E M := by
  unfold Heap.activateNode
  split
  · exact ho
  · exact (ho.push hEM .activated n).setNode n (fun _ => rfl) fun _ => rfl

/-- `ContinueAsyncNode` and `CancelAsyncNode`, after the node has been removed. -/
theorem continueNode (hr : (h.removeNode n).Orderly E M) (hEM : ∀ n l, E n l → M n) (b : Bool) :
    (h.continueNode n b).Orderly E M :=
  (hr.activateNode hEM n true).act n (fun _ => rfl) (fun _ => rfl) nofun

theorem cancelNode (hr : (h.removeNode n).Orderly E M) (hEM : ∀ n l, E n l → M n) (stop : Bool) :
    (h.cancelNode n stop).Orderly E M := by
  unfold Heap.cancelNode
  split
  · exact hr.note nofun
  · exact (hr.activateNode hEM n true).act n (fun _ => rfl) (fun _ => rfl) nofun

/-- A node that leaves the one list it is in. -/
theorem take (ho : h.Orderly E M) (hself : (h.content c).Perm (n :: h'.content c))
    (hother : ∀ c' ≠ c, (h'.content c').Perm (h.content c'))
    (hnode : (h'.nodes n).container = none ∧ (h'.nodes n).linked = false)
    (hnodes : ∀ m ≠ n, h'.nodes m = h.nodes m)
    (hlog : ∀ n, .misplaced n ∈ h'.log → .misplaced n ∈ h.log) : h'.Orderly E M := by
  have hn : (h.nodes n).container = some c := ho.of_mem (hself.mem_iff.mpr List.mem_cons_self)
  obtain ⟨hout, hnd⟩ := List.nodup_cons.mp (hself.nodup_iff.mp (ho.nodup c))
  have hmem : ∀ c' m, m ≠ n → (m ∈ h'.content c' ↔ m ∈ h.content c') := by
    intro c' m hm
    rcases eq_or_ne c' c with rfl | hcc
    · rw [hself.mem_iff, List.mem_cons]
      exact (or_iff_right hm).symm
    · exact (hother c' hcc).mem_iff
  have hnout : ∀ c', n ∉ h'.content c' := by
    intro c' hm
    rcases eq_or_ne c' c with rfl | hcc
    · exact hout hm
    · have := ho.of_mem ((hother c' hcc).mem_iff.mp hm)
      exact hcc (Option.some.inj (this.symm.trans hn))
  refine ⟨fun c' => ?_, fun {c' m} hm => ?_, fun {c' m} hm => ?_, fun m => ?_,
    fun m hm => ho.placed m (hlog m hm)⟩
  · rcases eq_or_ne c' c with rfl | hcc
    · exact hnd
    · exact (hother c' hcc).nodup_iff.mpr (ho.nodup c')
  · have hne : m ≠ n := by
      rintro rfl
      exact hnout c' hm
    rw [hnodes m hne]
    exact ho.of_mem ((hmem c' m hne).mp hm)
  · have hne : m ≠ n := by
      rintro rfl
      rw [hnode.1] at hm
      cases hm
    rw [hnodes m hne] at hm
    exact (ho.mem hm).imp_left (hmem c' m hne).mpr
  · rcases eq_or_ne m n with rfl | hne
    · simp [hnode]
    · rw [hnodes m hne]
      exact ho.linked m

/-- The nodes of a new chart are linked nowhere, and neither were those they
replace. -/
theorem create (ho : h.Orderly E M) (hb : h.Born) (d : DataId) (o : Option NodeRef) :
    (h.initChart d o).Orderly E M := by
  have hnodes : ∀ n, (h.initChart d o).nodes n = if n.chart = h.nextChart then {} else h.nodes n :=
    fun _ => rfl
  refine ⟨ho.nodup, fun {c n} hn => ?_, fun {c n} hn => ?_, fun n => ?_, fun n hn => ?_⟩
  · rw [hnodes, if_neg (Nat.ne_of_lt (hb.linked c n hn).1)]
    exact ho.of_mem hn
  · rw [hnodes] at hn
    split at hn
    · cases hn
    · exact ho.mem hn
  · rw [hnodes]
    split
    · simp
    · exact ho.linked n
  · exact ho.placed n ((List.mem_cons.mp hn).resolve_left nofun)

/-- The waiting lists of an agent are dropped together with the pointers to them. -/
theorem dropWaiting (ho : h.Orderly E M) (es : List EventId) (a : AgentId) :
    (h.dropWaiting es a).Orderly E M := by
  -- A node that loses its pointer was in one of the lists, and is in no list now.
  have hout : ∀ n ∈ h.waitingFor es a, ∀ c, n ∉ (h.dropWaiting es a).content c := by
    intro n hn c hm
    obtain ⟨e, he, hne⟩ := mem_waitingFor.mp hn
    have hc : (h.nodes n).container = some (.waiting a e) :=
      ho.of_mem (List.mem_append_left _ hne)
    obtain rfl := Option.some.inj (hc.symm.trans (ho.of_mem (mem_content_of_dropWaiting hm)))
    rw [content_waiting, waiting_dropWaiting, if_pos ⟨rfl, he⟩] at hm
    have hnd := ho.nodup (.waiting a e)
    rw [content_waiting, List.nodup_append] at hnd
    exact hnd.2.2 n hne n hm rfl
  have hnode : ∀ n, n ∉ h.waitingFor es a → (h.dropWaiting es a).nodes n = h.nodes n :=
    fun n hn => nodes_dropWaiting_of_not_mem hn
  refine ⟨fun c => (ho.nodup c).sublist (content_dropWaiting_sublist h es a c), fun {c n} hm => ?_,
    fun {c n} hm => ?_, fun n => ?_, ho.placed⟩
  · rw [hnode n fun hn => hout n hn c hm]
    exact ho.of_mem (mem_content_of_dropWaiting hm)
  · have hn : n ∉ h.waitingFor es a := by
      intro hn
      rw [nodes_dropWaiting_of_mem hn] at hm
      cases hm
    rw [hnode n hn] at hm
    refine (ho.mem hm).imp_left fun hmem => ?_
    cases c with
    | waiting b e =>
      rw [content_waiting, waiting_dropWaiting]
      split
      · rename_i hbe
        obtain ⟨rfl, he⟩ := hbe
        refine (List.mem_append.mp hmem).resolve_left fun hw => hn ?_
        exact mem_waitingFor.mpr ⟨e, he, hw⟩
      · exact hmem
    | _ => exact hmem
  · by_cases hn : n ∈ h.waitingFor es a
    · rw [nodes_dropWaiting_of_mem hn]
      exact iff_of_false Bool.false_ne_true nofun
    · rw [hnode n hn]
      exact ho.linked n

/-- **A flow begins**: the executor loses what is pending on it. -/
theorem beginFlow (ho : h.Orderly E M) (hEM : ∀ n l, E n l → M n) (l : ℕ) (a : AgentId)
    (n : NodeRef) (hl : ∀ m ∈ (h.stack l).nodeList, E m l) : (h.beginFlow l a n).Orderly E M := by
  have ha := ho.act n (f := ({ · with status := .idle })) (o := .flow n) (fun _ => rfl)
    (fun _ => rfl) nofun
  have hs : ((h.act n ({ · with status := .idle }) (.flow n)).setExecutor l
      ({ · with currentAgent := some a, nodeList := [] })).Orderly E M := by
    have hcontent : ∀ c, c ≠ .executor l →
        ((h.act n ({ · with status := .idle }) (.flow n)).setExecutor l
          ({ · with currentAgent := some a, nodeList := [] })).content c =
        (h.act n ({ · with status := .idle }) (.flow n)).content c := by
      intro c hc
      cases c with
      | executor k =>
        have hk : k ≠ l := fun hk => hc (by rw [hk])
        simp only [content, stack_setExecutor, if_neg hk]
      | _ => rfl
    have hempty : ((h.act n ({ · with status := .idle }) (.flow n)).setExecutor l
        ({ · with currentAgent := some a, nodeList := [] })).content (.executor l) = [] := by
      simp only [content, stack_setExecutor, if_true]
    refine ⟨fun c => ?_, fun {c m} hm => ?_, fun {c m} hm => ?_, ha.linked, ha.placed⟩
    · rcases eq_or_ne c (.executor l) with rfl | hc
      · rw [hempty]
        exact List.nodup_nil
      · rw [hcontent c hc]
        exact ha.nodup c
    · rcases eq_or_ne c (.executor l) with rfl | hc
      · rw [hempty] at hm
        cases hm
      · rw [hcontent c hc] at hm
        exact ha.of_mem hm
    · rcases eq_or_ne c (.executor l) with rfl | hc
      · rcases ha.mem hm with hmem | hlost
        · exact .inr ⟨l, rfl, hl m hmem⟩
        · exact .inr hlost
      · rw [hcontent c hc]
        exact ha.mem hm
  exact (hs.push hEM (.executor l) n).of_perm (fun _ => .refl _) (fun _ => rfl) (fun _ => rfl)
    fun _ hm => hm

end Orderly

/-- **Moves keep the containers orderly**, as long as none is stray. -/
theorem orderly_of_move (hst : ¬may .stray) (hm : Move flows may D h h') (hb : h.Born)
    (hEM : ∀ n l, E n l → M n) (ho : h.Orderly E M) : h'.Orderly E M := by
  cases hm with
  | load | patch | manage =>
    exact ho.of_perm (fun c => .of_eq rfl) (fun _ => rfl) (fun _ => rfl) fun _ => id
  | alike ha =>
    refine ho.of_perm (fun c => .of_eq ?_) (fun n => by rw [ha.nodes]) (fun n => by rw [ha.nodes])
      fun n hn => ?_
    · exact content_congr c ha.nodeList ha.waiting ha.handling ha.asyncWaiting ha.activated
    · rcases ha.log with hl | ⟨o, hmark, hl⟩ <;> rw [hl] at hn
      · exact hn
      · refine (List.mem_cons.mp hn).resolve_left fun he => ?_
        rw [← he] at hmark
        exact hmark
  | act hw _ => exact ho.writes hw
  | flag n b _ _ => exact ho.setNode n (fun _ => rfl) fun _ => rfl
  | unskip n => exact ho.setNode n (fun _ => rfl) fun _ => rfl
  | detach hn => exact ho.detach hEM _
  | removeFree l hn => exact ho.remove_of_free _ hn
  | wait a e hn =>
    refine ((ho.push hEM _ _).setNode _ ?_ ?_).note ?_
    · exact fun _ => rfl
    · exact fun _ => rfl
    · simp
  | @suspend n hn =>
    have hp := ((ho.setNode n (f := ({ · with status := .running })) (fun _ => rfl)
      fun _ => rfl).push hEM .asyncWaiting n).note (o := .suspend n h.nextContext) (by simp)
    exact hp.of_perm (fun _ => .refl _) (fun _ => rfl) (fun _ => rfl) fun _ hm => hm
  | continued b hn ha =>
    exact (ho.removeNode_of_awaited (ha.resolve_left hst)).continueNode hEM b
  | cancelled stop hn ha =>
    exact (ho.removeNode_of_awaited (ha.resolve_left hst)).cancelNode hEM stop
  | @takeActivated n ns ha hn =>
    have hcn : (h.nodes n).container = some .activated := ho.of_mem (by simp [content, ha])
    refine ho.take (c := .activated) ?_ (fun c' hcc => ?_) ?_ (fun m hm => nodes_setNode_of_ne hm _)
      fun _ hm => hm
    · simp [content, ha, takeActivated, setNode]
    · cases c' <;> first | exact .refl _ | exact absurd rfl hcc
    · simp [takeActivated, ho.not_linked hcn rfl]
  | resume skip r hn =>
    refine ((ho.act _ ?_ ?_ ?_).removeNode_of_awaited (.inl ?_))
    · exact fun _ => rfl
    · exact fun _ => rfl
    · simp
    · simpa using hn
  | @started c x hx hne =>
    simp only [markStarted, hx, hne, ↓reduceIte]
    have hs : (h.setChart c ({ · with status := .running })).Orderly E M :=
      ho.of_perm (fun _ => .refl _) (fun _ => rfl) (fun _ => rfl) fun _ hm => hm
    exact hs.act _ (fun _ => rfl) (fun _ => rfl) (by simp)
  | create d o hp _ => exact ho.create hb d o
  | forget c =>
    have hown : (h.setOwner c ({ · with attacher := none })).Orderly E M := by
      unfold setOwner
      split
      · exact ho.setNode _ (fun _ => rfl) fun _ => rfl
      · exact ho
    refine Orderly.note ?_ (by simp)
    exact hown.of_perm (fun _ => .refl _) (fun _ => rfl) (fun _ => rfl) fun _ hm => hm
  | dropWaiting es a => exact ho.dropWaiting es a
  | @beginFlow n l a hfl hn hv =>
    have hl : (h.stack l).nodeList = [] := hv.resolve_left hst
    exact ho.beginFlow hEM l a n (by rw [hl]; exact fun m hm => absurd hm List.not_mem_nil)
  | @pop n ns l hfl hl =>
    have hcn : (h.nodes n).container = some (.executor l) := ho.of_mem (by simp [content, hl])
    simp only [Heap.pop, hl, nodes_setExecutor, hcn, ↓reduceIte]
    refine ho.take (c := .executor l) ?_ (fun c' hcc => ?_) ?_
      (fun m hm => nodes_setNode_of_ne hm _) fun _ hm => hm
    · simp [content, hl, stack_setExecutor]
    · rw [content_setNode]
      cases c' with
      | executor k =>
        have hk : k ≠ l := fun hk => hcc (by rw [hk])
        simp [content, stack_setExecutor, hk]
      | _ => exact .refl _
    · simp [ho.not_linked hcn rfl]
  | current l hfl hn => exact ho.setExecutor l fun _ => rfl
  | child l hfl hi hn =>
    simp only [addChild, hi, ↓reduceIte]
    refine (ho.act _ ?_ ?_ ?_).push hEM ..
    · exact fun _ => rfl
    · exact fun _ => rfl
    · simp
  | continueFlow l hfl hn =>
    refine (ho.act _ ?_ ?_ ?_).push hEM ..
    · exact fun _ => rfl
    · exact fun _ => rfl
    · simp
  | agent l a hfl => exact ho.setExecutor l fun _ => rfl
  | clearHistory l hfl _ => exact ho.setExecutor l fun _ => rfl
  | closeFlow l hfl =>
    have hs := ho.setExecutor l (f := ({ · with currentNode := none, currentAgent := none }))
      fun _ => rfl
    exact hs.of_perm (fun _ => .refl _) (fun _ => rfl) (fun _ => rfl) fun _ hm => hm
  | swap a e =>
    exact ho.of_perm (content_swapWaiting h · a e) (fun _ => rfl) (fun _ => rfl) fun _ hm => hm
  | @deliver r rs n ns hh hr =>
    have hself := content_handling hh (.waiting r.agent r.event)
    rw [if_pos rfl, hr] at hself
    have hg : ∀ c, ((h.takeHandled r rs n ns).content c).Perm
        ((if c = .waiting r.agent r.event then ns else []) ++
          ({ h with handling := rs } : Heap).content c) := fun c => by
      rw [takeHandled, content_act]
      exact content_handling (h := { h with handling := { r with nodes := ns } :: rs }) rfl c
    refine ho.take (n := n) (c := .waiting r.agent r.event) ?_ (fun c' hcc => ?_) ?_
      (fun m hm => ?_)
      fun m hm => ?_
    · refine hself.trans (.cons n (.symm ?_))
      simpa using hg (.waiting r.agent r.event)
    · have h1 := content_handling hh c'
      have h2 := hg c'
      rw [if_neg hcc] at h1 h2
      exact h2.trans h1.symm
    · simp [takeHandled]
    · simp [takeHandled, nodes_setNode_of_ne hm]
    · exact (List.mem_cons.mp hm).resolve_left (by simp)
  | @dropHandling r rs hh hr =>
    refine ho.of_perm (fun c => ?_) (fun _ => rfl) (fun _ => rfl) fun _ hm => hm
    have := (content_handling hh c).symm
    simpa [hr] using this

/-- **Moves keep the containers coherent**, as long as none is stray. -/
theorem coherent_of_move (hst : ¬may .stray) (hm : Move flows may D h h') (hb : h.Born)
    (hc : h.Coherent) : h'.Coherent :=
  coherent_iff.mpr (orderly_of_move hst hm hb (fun _ _ => id) (coherent_iff.mp hc))

theorem coherent_init : ({} : Heap).Coherent where
  count c n := by cases c <;> simp [content]
  linked n := by simp
  placed n := List.not_mem_nil

/-! ### Stray moves -/

/-- A `Remove` on the wrong list is on record. -/
theorem misplaced_of_remove (hn : n ∉ h.content c) (hcn : (h.nodes n).container ≠ none) :
    .misplaced n ∈ (h.remove c n).log := by
  simp [Heap.remove, hn, hcn]

theorem misplaced_of_removeNode (hc : h.Coherent) (hn : ¬h.awaited n) :
    .misplaced n ∈ (h.removeNode n).log := by
  obtain ⟨hfree, hwait⟩ := not_or.mp hn
  exact misplaced_of_remove (fun hm => hwait (hc.mem_iff.mp hm)) hfree

/-- **A stray continuation calls `Remove` on the wrong list.** -/
theorem not_coherent_of_continueNode (hc : h.Coherent) (hn : ¬h.awaited n) (b : Bool) :
    ¬(h.continueNode n b).Coherent := fun hc' =>
  hc'.placed n (List.mem_cons_of_mem _ ((log_suffix_activateNode ..).subset
    (misplaced_of_removeNode hc hn)))

theorem not_coherent_of_cancelNode (hc : h.Coherent) (hn : ¬h.awaited n) (stop : Bool) :
    ¬(h.cancelNode n stop).Coherent := fun hc' => by
  have hm := misplaced_of_removeNode hc hn
  refine hc'.placed n ?_
  unfold cancelNode
  split
  · exact List.mem_cons_of_mem _ hm
  · exact List.mem_cons_of_mem _ ((log_suffix_activateNode ..).subset hm)

/-- **A flow on an executor with pending nodes loses them.** -/
theorem not_coherent_of_beginFlow (hc : h.Coherent) {l : ℕ} (hl : ¬h.vacant l) (a : AgentId)
    (n : NodeRef) : ¬(h.beginFlow l a n).Coherent := by
  intro hc'
  obtain ⟨m, ms, hms⟩ := List.exists_cons_of_ne_nil hl
  have hcm : (h.nodes m).container = some (.executor l) := hc.mem_iff.mp (by simp [content, hms])
  let g := (h.act n ({ · with status := .idle }) (.flow n)).setExecutor l
    ({ · with currentAgent := some a, nodeList := [] })
  have hg : g.content (.executor l) = [] := by simp [g, content, stack_setExecutor]
  have hgm : (g.nodes m).container = some (.executor l) := by
    rw [← hcm]
    exact field_setNode h n m (f := ({ · with status := .idle })) (·.container) fun _ => rfl
  rcases eq_or_ne m n with rfl | hm
  · -- The node itself was pending: it is removed from the list that has just been cleared.
    have hp : .misplaced m ∈ (g.remove (.executor l) m).log :=
      misplaced_of_remove (by simp [hg]) (by simp [hgm])
    refine hc'.placed m ?_
    change .misplaced m ∈ (g.push (.executor l) m).log
    simpa [Heap.push, Heap.detach, hgm] using hp
  · have hmem : m ∈ (g.push (.executor l) n).content (.executor l) :=
      hc'.mem_iff.mpr (by rw [← hgm]; exact congrArg Node.container (nodes_push_of_ne hm))
    rcases mem_content_of_push hmem with ⟨he, -⟩ | hmem
    · exact hm he
    · rw [hg] at hmem
      exact List.not_mem_nil hmem

end Heap

namespace State

variable {cfg : Config} {s t : State} {a : Act}

/-- A step that puts a node astray breaks the coherence. -/
theorem not_coherent_of_strays (hc : s.heap.Coherent) (hs : s.step cfg a = some t)
    (hst : s.Strays a) : ¬t.heap.Coherent := by
  cases (trans_of_step hs).1 with
  | @op o t hm ho =>
    cases o with
    | continueAsyncNode ctx b =>
      obtain ⟨hset, hn⟩ := hst
      cases ho
      rw [mapHeap, Heap.continueAsyncNode_of_mem hset (ub_of_sound (sound_of_step hs))]
      exact Heap.not_coherent_of_continueNode hc hn b
    | cancelAsyncNode ctx stop =>
      obtain ⟨hset, hn⟩ := hst
      cases ho
      rw [mapHeap, Heap.cancelAsyncNode_of_mem hset (ub_of_sound (sound_of_step hs))]
      exact Heap.not_coherent_of_cancelNode hc hn stop
    | _ => exact hst.elim
  | @enter n rest hf =>
    simp only [Strays, hf] at hst
    obtain ⟨hl, hcr, har, hv⟩ := hst
    obtain ⟨g, hg, hgr⟩ := (Option.any_eq_true ..).mp har
    have hlt : ¬maxStackSize ≤ s.heap.currentIndex + 1 := Nat.not_le.mpr hl
    simp only [enterFlow, hlt, ↓reduceIte, hg, hgr, hcr, Bool.and_self]
    exact Heap.not_coherent_of_beginFlow hc hv g n
  | continuing hf | starting hf | flow hf | ran hf | ended hf | flowReturn hf | returning hf
  | handle hf | trigger hf | async hf | events hf | deleteEvent hf | dying hf =>
    simp [Strays, hf] at hst
  | _ => exact hst.elim

/-- The containers stay coherent in a run without stray steps. -/
theorem coherent_of_steady (h : Run.Steps (step cfg) (fun s a => ¬s.Strays a) init s) :
    s.heap.Coherent := by
  have hd : Heap.Does (fun _ => True) (fun p => p ≠ .stray) (fun _ => False) init.heap s.heap :=
    does_of_steps (fun _ => trivial) (fun s a hk p hp he => by
      subst he
      exact hk hp) wf_init h
  have hinv := Traced.Does.invariant (I := fun g => g.Born ∧ g.Coherent) hd
    (fun hm hg => ⟨Heap.born_of_move hm hg.1,
      Heap.coherent_of_move (fun hne => hne rfl) hm hg.1 hg.2⟩)
    ⟨Heap.born_init, Heap.coherent_init⟩
  exact hinv.2

/-- **Container coherence of whole runs**: as long as no step of the run is stray, the
containers are coherent in every state, and the first stray step breaks them. -/
theorem coherent_of_steps (h : Run.Steps (step cfg) (fun s a => ¬s.Strays a) init s) :
    s.heap.Coherent ∧ ∀ a t, s.step cfg a = some t → (t.heap.Coherent ↔ ¬s.Strays a) := by
  have hc := coherent_of_steady h
  refine ⟨hc, fun a t ht => ⟨fun hc' hst => not_coherent_of_strays hc ht hst hc', fun hst => ?_⟩⟩
  exact coherent_of_steady (h.tail hst ht)

/-- A chart whose second node is a script that may wait for an event. -/
def waitingChart : ChartData :=
  { name := "waiting", nodes := [{ success := [1] }, { func := .script, isEvent := true }] }

/-- The second node is suspended and waits for its continuation; the chart is stopped
and started again, and now the node waits for an event. -/
def restartedActs : List Act :=
  [.op (.importChart waitingChart), .op (.register 0), .op (.attachChart 1 "waiting"),
    .op (.startChart 0), .op .step, .timersDone, .op .createAsyncContext, .ret .rTrue,
    .op (.stopChart 0), .op (.startChart 0), .op .step, .timersDone, .op (.waitEvent 1 0),
    .ret .rTrue]

/-- Stopping and restarting the chart is no stray step. -/
theorem coherent_restarted : ∃ s, Run.Steps (step {}) (fun s a => ¬s.Strays a) init s ∧
    ⟨0, 1⟩ ∈ s.heap.content (.waiting 1 0) ∧ s.heap.Coherent := by
  obtain ⟨s, hs, hm⟩ := exists_of_guarded {} (fun s a => ¬s.Strays a) restartedActs
    (fun s => ⟨0, 1⟩ ∈ s.heap.content (.waiting 1 0)) (by decide +kernel)
  exact ⟨s, hs, hm, (coherent_of_steps hs).1⟩

/-- **The late continuation** of the first run: the node is now linked in the waiting
list and among the activated nodes. -/
theorem not_coherent_late : ∃ s, Reachable {} s ∧ ⟨0, 1⟩ ∈ s.heap.content (.waiting 1 0) ∧
    ⟨0, 1⟩ ∈ s.heap.content .activated ∧ ¬s.heap.Coherent := by
  obtain ⟨s, hs, hw, ha⟩ := exists_of_play {}
    (restartedActs ++ [.op (.continueAsyncNode ⟨⟨0, 1⟩, 0⟩ true)])
    (fun s => ⟨0, 1⟩ ∈ s.heap.content (.waiting 1 0) ∧ ⟨0, 1⟩ ∈ s.heap.content .activated)
    (by decide +kernel)
  refine ⟨s, hs, hw, ha, fun hc => ?_⟩
  have h1 := hc.mem_iff.mp hw
  rw [hc.mem_iff.mp ha] at h1
  cases h1

end State

end Asyncflow
