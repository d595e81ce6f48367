import Asyncflow.Core.Content
import Asyncflow.Moves.Calls

/-!
# Only nodes of charts that exist or existed are linked

`Asyncflow.Heap.Born` is the invariant that makes a new chart new: whatever the
heap refers to – the nodes in containers, the current nodes, the nodes with a
pending async context, the charts – was made before.
-/

namespace Asyncflow

namespace Heap

/-- The nodes in containers, the current nodes and those with a pending async context. -/
structure Refers (h : Heap) (P : NodeRef → Prop) : Prop where
  linked : ∀ c n, n ∈ h.content c → P n
  current : ∀ l n, (h.stack l).currentNode = some n → P n
  suspended : ∀ n ∈ h.nodesSet, P n

/-- Everything the heap refers to was made before. -/
structure Born (h : Heap) : Prop where
  chart : ∀ c, (h.charts c).isSome → c < h.nextChart
  refers : h.Refers h.Made
  owner : ∀ c x n, h.charts c = some x → x.owner = some n → h.Made n
  timer : ∀ n, (h.nodes n).attacher = some (.timer true) → h.Made n

theorem Born.linked {h : Heap} (hb : h.Born) (c : Container) (n : NodeRef) (hn : n ∈ h.content c) :
    h.Made n := hb.refers.linked c n hn

theorem Born.current {h : Heap} (hb : h.Born) (l : ℕ) (n : NodeRef)
    (hn : (h.stack l).currentNode = some n) : h.Made n := hb.refers.current l n hn

variable {h h' : Heap} {n : NodeRef} {flows : ℕ → Prop} {may : Permit → Prop} {D : NodeRef → Prop}
  {P : NodeRef → Prop}

/-! ### The lists -/

theorem Refers.mono {Q : NodeRef → Prop} (hr : h.Refers P) (hPQ : ∀ n, P n → Q n) : h.Refers Q where
  linked c n hn := hPQ n (hr.linked c n hn)
  current l n hn := hPQ n (hr.current l n hn)
  suspended n hn := hPQ n (hr.suspended n hn)

/-- A change of the lists alone. -/
theorem Refers.of_lists (hr : h.Refers P) (hset : h'.nodesSet = h.nodesSet)
    (hcurrent : ∀ l, (h'.stack l).currentNode = (h.stack l).currentNode)
    (hlinked : ∀ c n, n ∈ h'.content c → n ∈ h.content c ∨ P n) : h'.Refers P where
  linked c n hn := (hlinked c n hn).elim (hr.linked c n) id
  current l n hn := hr.current l n (hcurrent l ▸ hn)
  suspended n hn := hr.suspended n (hset ▸ hn)

theorem Refers.setNode (hr : h.Refers P) (n : NodeRef) (f : Node → Node) :
    (h.setNode n f).Refers P :=
  hr.of_lists rfl (fun _ => rfl) fun _ _ hn => .inl (by simpa using hn)

theorem Refers.note (hr : h.Refers P) (o : Obs) : (h.note o).Refers P :=
  hr.of_lists rfl (fun _ => rfl) fun _ _ hn => .inl (by simpa using hn)

theorem Refers.act (hr : h.Refers P) (n : NodeRef) (f : Node → Node) (o : Obs) :
    (h.act n f o).Refers P := (hr.setNode n f).note o

theorem Refers.remove (hr : h.Refers P) (c : Container) (n : NodeRef) : (h.remove c n).Refers P :=
  hr.of_lists (by simp) (by simp) fun _ _ hm => .inl (mem_content_of_remove hm)

theorem Refers.detach (hr : h.Refers P) (n : NodeRef) : (h.detach n).Refers P :=
  hr.of_lists (by simp) (by simp) fun _ _ hm => .inl (mem_content_of_detach hm)

theorem Refers.push (hr : h.Refers P) (c : Container) (hn : P n) : (h.push c n).Refers P := by
  refine hr.of_lists (by simp) (by simp) fun c' m hm => ?_
  rcases mem_content_of_push hm with ⟨rfl, -⟩ | hm
  · exact .inr hn
  · exact .inl hm

theorem Refers.setExecutor (hr : h.Refers P) {l : ℕ} {f : DfsExecutor → DfsExecutor}
    (hlist : ∀ m ∈ (f (h.stack l)).nodeList, m ∈ (h.stack l).nodeList)
    (hcur : ∀ m, (f (h.stack l)).currentNode = some m → (h.stack l).currentNode = some m ∨ P m) :
    (h.setExecutor l f).Refers P := by
  refine ⟨fun c m hm => hr.linked c m ?_, fun k m hm => ?_, hr.suspended⟩
  · cases c with
    | executor k =>
      simp only [content, stack_setExecutor] at hm ⊢
      split at hm
      · subst k
        exact hlist m hm
      · exact hm
    | _ => exact hm
  · rw [stack_setExecutor] at hm
    split at hm
    · subst k
      exact (hcur m hm).elim (hr.current l m) id
    · exact hr.current k m hm

theorem Refers.removeNode (hr : h.Refers P) (n : NodeRef) : (h.removeNode n).Refers P := by
  have hr' := hr.remove .asyncWaiting n
  exact ⟨hr'.linked, hr'.current, fun m hm => hr'.suspended m (List.mem_of_mem_filter hm)⟩

theorem Refers.activateNode (hr : h.Refers P) (skip : Bool) (hn : P n) :
    (h.activateNode n skip).Refers P := by
  unfold Heap.activateNode
  split
  · exact hr
  · exact (hr.push .activated hn).setNode n _

/-- The node made at an address is a node of the new chart. -/
theorem rehouse_eq (h : Heap) (k : ℕ) (n : NodeRef) :
    h.rehouse k n = n ∨ ∃ i < k, h.rehouse k n = ⟨h.nextChart, i⟩ := by
  unfold rehouse
  split
  · exact .inr ⟨_, (by assumption : _ ∧ _ ∧ _).2.2, rfl⟩
  · exact .inl rfl

theorem made_rehouse {d : DataId} {o : Option NodeRef} {i : ℕ} (hi : i < h.nodeCount d) :
    (h.initChart d o).Made ⟨h.nextChart, i⟩ := by
  refine ⟨Nat.lt_succ_self _, fun x hx => ?_⟩
  obtain rfl : _ = x := Option.some.inj
    ((Function.update_self h.nextChart _ h.charts).symm.trans hx)
  exact hi

/-- A move refers to what was referred to, and to nodes that have been made. -/
theorem refers_of_move (hm : Move flows may D h h') (hr : h.Refers P) (hP : ∀ n, h'.Made n → P n) :
    h'.Refers P := by
  have hP' : ∀ n, h.Made n → P n := fun n hn => hP n (hn.of_keeps (keeps_of_move hm))
  cases hm with
  | alike ha =>
    refine hr.of_lists ha.nodesSet ha.currentNode fun c m hm => .inl ?_
    rwa [content_congr c ha.nodeList ha.waiting ha.handling ha.asyncWaiting ha.activated] at hm
  | load | patch | manage => exact hr.of_lists rfl (fun _ => rfl) fun _ _ hm => .inl hm
  | act hw _ => exact hr.act ..
  | flag n b => exact hr.setNode ..
  | unskip n => exact hr.setNode ..
  | detach hn => exact hr.detach _
  | removeFree l hc => exact hr.remove ..
  | wait a e hn => exact ((hr.push _ (hP' _ hn)).setNode ..).note _
  | @suspend n hn _ =>
    have hp := (hr.setNode n ({ · with status := .running })).push .asyncWaiting (hP' n hn)
    refine ⟨hp.linked, hp.current, fun m hm => ?_⟩
    change m ∈ ite _ _ _ at hm
    split at hm
    · exact hp.suspended m hm
    · rcases List.mem_cons.mp hm with rfl | hm
      · exact hP' m hn
      · exact hp.suspended m hm
  | continued b hn ha =>
    exact ((hr.removeNode _).activateNode true (hr.suspended _ hn)).act ..
  | cancelled stop hn ha =>
    unfold cancelNode
    split
    · exact (hr.removeNode _).note _
    · exact ((hr.removeNode _).activateNode true (hr.suspended _ hn)).act ..
  | @takeActivated n ns ha hn =>
    refine hr.of_lists rfl (fun _ => rfl) fun c m hm => .inl ?_
    rw [takeActivated, content_setNode] at hm
    cases c with
    | activated => exact (congrArg (m ∈ ·) ha).mpr (List.mem_cons_of_mem n hm)
    | _ => exact hm
  | resume skip r hc => exact (hr.act ..).removeNode _
  | @started c x hx hne =>
    simp only [markStarted, hx, hne, ↓reduceIte]
    refine Refers.act ?_ ..
    exact hr.of_lists rfl (fun _ => rfl) fun _ _ hm => .inl (by simpa using hm)
  | create d o hp ho =>
    refine ⟨hr.linked, hr.current, fun m hm => ?_⟩
    obtain ⟨n, hn, rfl⟩ := List.mem_map.mp hm
    rcases h.rehouse_eq (h.nodeCount d) n with he | ⟨i, hi, he⟩ <;> rw [he]
    · exact hr.suspended n hn
    · exact hP _ (made_rehouse hi)
  | forget c =>
    refine Refers.note ?_ _
    have hown : (h.setOwner c ({ · with attacher := none })).Refers P := by
      unfold setOwner
      split
      · exact hr.setNode ..
      · exact hr
    exact hown.of_lists rfl (fun _ => rfl) fun _ _ hm => .inl hm
  | dropWaiting es a =>
    exact hr.of_lists rfl (fun _ => rfl) fun _ _ hm => .inl (mem_content_of_dropWaiting hm)
  | @beginFlow n l a hfl hn hv =>
    have hcl := (hr.act n ({ · with status := .idle }) (.flow n)).setExecutor
      (l := l) (f := fun x => { x with currentAgent := some a, nodeList := [] }) (by simp)
      fun m hm => .inl hm
    exact (hcl.push (.executor l) (hP' n hn)).of_lists rfl (fun _ => rfl) fun _ _ hm => .inl hm
  | @pop n ns l hfl hl =>
    have hp := hr.setExecutor (l := l)
      (f := fun x => { x with nodeList := ns, historyNodes := n :: x.historyNodes })
      (fun m hm => by rw [hl]; exact List.mem_cons_of_mem n hm) fun m hm => .inl hm
    simp only [Heap.pop, hl]
    split
    · exact hp.setNode ..
    · exact hp
  | current l hfl hn =>
    refine hr.setExecutor (fun m hm => hm) fun m hm => .inr ?_
    obtain rfl : _ = m := by simpa using hm
    exact hr.linked (.executor l) _ hn
  | @child n i l hfl hi hn =>
    simp only [addChild, hi, ↓reduceIte]
    refine (hr.act ..).push _ (hP' _ ⟨hn, fun x hx => ?_⟩)
    have hcount : h.nodesCount n.chart = x.nodeCount := by simp [nodesCount, show _ = _ from hx]
    exact lt_of_lt_of_eq hi hcount
  | continueFlow l hfl hn => exact (hr.act ..).push _ (hP' _ hn)
  | agent l a hfl => exact hr.setExecutor (fun m hm => hm) fun m hm => .inl hm
  | clearHistory l hfl _ => exact hr.setExecutor (fun m hm => hm) fun m hm => .inl hm
  | closeFlow l hfl =>
    have hc := hr.setExecutor (l := l)
      (f := fun x => { x with currentNode := none, currentAgent := none })
      (fun m hm => hm) (by simp)
    exact hc.of_lists rfl (fun _ => rfl) fun _ _ hm => .inl hm
  | swap a e =>
    refine hr.of_lists rfl (fun _ => rfl) fun c m hm => .inl ?_
    exact (content_swapWaiting h c a e).mem_iff.mp hm
  | @deliver r rs n ns hh hr' =>
    have hd : ({ h with handling := { r with nodes := ns } :: rs } : Heap).Refers P := by
      refine hr.of_lists rfl (fun _ => rfl) fun c m hm => .inl ?_
      have hm' := (content_handling (h := { h with handling := { r with nodes := ns } :: rs })
        rfl c).mem_iff.mp hm
      refine (content_handling hh c).mem_iff.mpr ?_
      rw [hr']
      split at hm'
      · rw [if_pos ‹_›]
        exact List.mem_cons_of_mem n hm'
      · rw [if_neg ‹_›]
        exact hm'
    exact hd.act ..
  | @dropHandling r rs hh hr' =>
    refine hr.of_lists rfl (fun _ => rfl) fun c m hm => .inl ?_
    exact (content_handling hh c).mem_iff.mpr (List.mem_append_right _ hm)

/-! ### The charts and the attachers -/

/-- A chart that is new has the next number, and an owner node that has been made. -/
theorem new_of_move (hm : Move flows may D h h') {c : ChartId} {x' : Chart}
    (hx' : h'.charts c = some x') : (∃ x, h.charts c = some x) ∨
      c = h.nextChart ∧ h'.nextChart = h.nextChart + 1 ∧ ∀ n, x'.owner = some n → h.Made n := by
  rcases outer_of_move hm with ho | ho
  · have hcharts : h'.outer.charts = h.outer.charts := congrArg Heap.charts ho
    exact .inl ⟨x', by rwa [← show h'.charts = h.charts from hcharts]⟩
  · cases ho with
    | alike ha =>
      obtain ⟨x, hx, -⟩ := ha.charts c x' hx'
      exact .inl ⟨x, hx⟩
    | load | patch | manage => exact .inl ⟨x', hx'⟩
    | @started d x hd hn =>
      simp only [markStarted, hd, hn, ↓reduceIte] at hx'
      rcases eq_or_ne c d with rfl | hcd
      · exact .inl ⟨x, hd⟩
      · have hx'' : Function.update h.charts d
          ((h.charts d).map ({ · with status := .running })) c =
            some x' := hx'
        rw [Function.update_of_ne hcd] at hx''
        exact .inl ⟨x', hx''⟩
    | create d o hp hn =>
      have hx'' : Function.update h.charts h.nextChart (some
        { data := d, nodeCount := h.nodeCount d, owner := o, agent := none }) c = some x' := hx'
      rcases eq_or_ne c h.nextChart with rfl | hcn
      · rw [Function.update_self] at hx''
        cases hx''
        exact .inr ⟨rfl, rfl, hn⟩
      · rw [Function.update_of_ne hcn] at hx''
        exact .inl ⟨x', hx''⟩
    | forget d =>
      have hx'' : Function.update h.charts d none c = some x' := hx'
      rcases eq_or_ne c d with rfl | hcd
      · rw [Function.update_self] at hx''
        cases hx''
      · rw [Function.update_of_ne hcd] at hx''
        exact .inl ⟨x', hx''⟩

/-- **Moves refer to nothing unborn.** -/
theorem born_of_move (hm : Move flows may D h h') (hb : h.Born) : h'.Born := by
  have hk := keeps_of_move hm
  refine ⟨fun c hc => ?_, ?_, fun c x' n hx' ho => ?_, fun n hn => ?_⟩
  · obtain ⟨x', hx'⟩ := Option.isSome_iff_exists.mp hc
    rcases new_of_move hm hx' with ⟨x, hx⟩ | ⟨rfl, hnext, -⟩
    · exact Nat.lt_of_lt_of_le (hb.chart c (by rw [hx]; rfl)) hk.next
    · rw [hnext]
      exact Nat.lt_succ_self _
  · exact refers_of_move hm (hb.refers.mono fun n hn => hn.of_keeps hk) fun _ => id
  · rcases new_of_move hm hx' with ⟨x, hx⟩ | ⟨-, -, hn⟩
    · obtain ⟨y, hy, -, hyo⟩ := hk.charts c (hb.chart c (by rw [hx]; rfl)) x' hx'
      exact (hb.owner c y n hy (hyo ▸ ho)).of_keeps hk
    · exact (hn n ho).of_keeps hk
  · rcases attacher_of_move hm hn with hn | hn
    · exact (hb.timer n hn).of_keeps hk
    · cases hn with
      | timer hn => exact hn.of_keeps hk
      | rest _ hne => exact absurd rfl hne

theorem Born.does (hd : Does flows may D h h') (hb : h.Born) : h'.Born :=
  Traced.Does.invariant hd born_of_move hb

theorem born_init : ({} : Heap).Born where
  chart _ hc := nomatch hc
  refers := by
    refine ⟨fun c n hn => ?_, nofun, nofun⟩
    cases c <;> simp [content] at hn
  owner _ _ _ hx := nomatch hx
  timer _ hn := nomatch hn

end Heap

end Asyncflow
