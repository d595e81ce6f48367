import Asyncflow.Core.Fields

/-!
# What the containers hold

The effect of the basic operations on `Asyncflow.Heap.content`. All waiting lists,
of whatever agent and event, share one kind of link: unlinking a node from one of
them takes it out of all (`Asyncflow.Container.Ring`).
-/

namespace Asyncflow

/-- Unlinking a node from the first container takes it out of the second. -/
def Container.Ring : Container → Container → Prop
  | .waiting _ _, .waiting _ _ => True
  | c, c' => c = c'

instance : DecidableRel Container.Ring := fun c c' => by
  cases c <;> cases c' <;> unfold Container.Ring <;> infer_instance

@[simp] theorem Container.Ring.refl (c : Container) : c.Ring c := by
  cases c <;> simp [Container.Ring]

namespace Heap

variable (h : Heap) (n m : NodeRef) (c c' : Container)

/-- The lists swapped out of a waiting list. -/
def handled (a : AgentId) (e : EventId) : List NodeRef :=
  (h.handling.filter fun r => r.agent = a ∧ r.event = e).flatMap (·.nodes)

theorem content_waiting (a : AgentId) (e : EventId) :
    h.content (.waiting a e) = h.waiting a e ++ h.handled a e := rfl

/-- Contents are read off the lists. -/
theorem content_congr {h h' : Heap} (hstack : ∀ l, (h'.stack l).nodeList = (h.stack l).nodeList)
    (hwait : h'.waiting = h.waiting) (hhand : h'.handling = h.handling)
    (hasync : h'.asyncWaiting = h.asyncWaiting) (hact : h'.activated = h.activated) :
    h'.content c = h.content c := by
  cases c <;> simp only [content, hstack, hwait, hhand, hasync, hact]

@[simp] theorem content_setNode (f : Node → Node) : (h.setNode n f).content c = h.content c :=
  content_congr c (fun _ => rfl) rfl rfl rfl rfl

@[simp] theorem content_note (o : Obs) : (h.note o).content c = h.content c :=
  content_congr c (fun _ => rfl) rfl rfl rfl rfl

@[simp] theorem content_act (f : Node → Node) (o : Obs) :
    (h.act n f o).content c = h.content c :=
  content_congr c (fun _ => rfl) rfl rfl rfl rfl

@[simp] theorem content_setChart (i : ChartId) (f : Chart → Chart) :
    (h.setChart i f).content c = h.content c :=
  content_congr c (fun _ => rfl) rfl rfl rfl rfl

theorem content_setExecutor {l : ℕ} {f : DfsExecutor → DfsExecutor}
    (hf : ∀ x, (f x).nodeList = x.nodeList) : (h.setExecutor l f).content c = h.content c := by
  refine content_congr c (fun k => ?_) rfl rfl rfl rfl
  rw [stack_setExecutor]
  split
  · exact hf _
  · rfl

/-- Erasing a node from every list swapped out. -/
theorem handled_erase (l : List Handling) (a : AgentId) (e : EventId) :
    ((l.map (·.erase n)).filter fun r => r.agent = a ∧ r.event = e).flatMap (·.nodes) =
      ((l.filter fun r => r.agent = a ∧ r.event = e).flatMap (·.nodes)).filter (· ≠ n) := by
  induction l with
  | nil => rfl
  | cons r l ih =>
    by_cases hr : r.agent = a ∧ r.event = e
    · simp [Handling.erase, hr, List.filter_append] at ih ⊢
      exact ih
    · simp [Handling.erase, hr] at ih ⊢
      exact ih

/-- **Unlinking**: the node leaves the list, and every waiting list with it. -/
theorem content_unlink : (h.unlink c n).content c' =
    if c.Ring c' then (h.content c').filter (· ≠ n) else h.content c' := by
  cases c with
  | executor l =>
    cases c' with
    | executor k =>
      simp only [Container.Ring, unlink, content, stack_setExecutor, Container.executor.injEq]
      split <;> split <;> first | rfl | omega
    | _ => simp [Container.Ring, unlink, content, setExecutor]
  | waiting a e =>
    cases c' with
    | waiting a' e' =>
      simp only [Container.Ring, unlink, unlinkRing, content, setNode, if_true,
        List.filter_append]
      exact congrArg _ (handled_erase n h.handling a' e')
    | _ => simp [Container.Ring, unlink, unlinkRing, content, setNode]
  | asyncWaiting => cases c' <;> simp [Container.Ring, unlink, content]
  | activated => cases c' <;> simp [Container.Ring, unlink, content]

theorem content_remove : (h.remove c n).content c' =
    if c.Ring c' then (h.content c').filter (· ≠ n) else h.content c' := by
  have hn : ((h.unlink c n).setNode n ({ · with container := none })).content c' =
      if c.Ring c' then (h.content c').filter (· ≠ n) else h.content c' := by
    rw [content_setNode, content_unlink]
  unfold remove
  split
  · exact hn
  · exact hn

/-- Detaching only takes nodes out of lists. -/
theorem mem_content_of_remove {h : Heap} {n m : NodeRef} {c c' : Container}
    (hm : m ∈ (h.remove c n).content c') : m ∈ h.content c' := by
  rw [content_remove] at hm
  split at hm
  · exact List.mem_of_mem_filter hm
  · exact hm

theorem mem_content_of_detach {h : Heap} {n m : NodeRef} {c : Container}
    (hm : m ∈ (h.detach n).content c) : m ∈ h.content c := by
  unfold detach at hm
  split at hm
  · exact mem_content_of_remove hm
  · exact hm

/-- **Linking**: the node joins the list, and no other list. -/
theorem content_link_of_ne {h : Heap} {n : NodeRef} {c c' : Container} (hc : c' ≠ c) :
    (h.link c n).content c' = h.content c' := by
  cases c with
  | executor l =>
    cases c' with
    | executor k =>
      have hk : k ≠ l := fun hk => hc (by rw [hk])
      simp [link, content, stack_setExecutor, hk]
    | _ => rfl
  | waiting a e =>
    cases c' with
    | waiting a' e' =>
      have hae : (Function.update h.waiting a
          (Function.update (h.waiting a) e (h.waiting a e ++ [n]))) a' e' = h.waiting a' e' := by
        rcases eq_or_ne a' a with rfl | ha
        · have he : e' ≠ e := fun he => hc (by rw [he])
          rw [Function.update_self, Function.update_of_ne he]
        · rw [Function.update_of_ne ha]
      exact congrArg (· ++ _) hae
    | _ => rfl
  | asyncWaiting => cases c' <;> first | rfl | exact absurd rfl hc
  | activated => cases c' <;> first | rfl | exact absurd rfl hc

theorem content_link_self : ((h.link c n).content c).Perm (n :: h.content c) := by
  cases c with
  | executor l => simp [link, content, stack_setExecutor]
  | waiting a e =>
    have hae : (h.link (.waiting a e) n).content (.waiting a e) =
        (h.waiting a e ++ [n]) ++ h.handled a e := by
      simp [link, content, setNode, handled]
    rw [hae, content_waiting]
    simp
  | asyncWaiting => simp [link, content, List.perm_append_singleton]
  | activated => simp [link, content, List.perm_append_singleton]

theorem content_push_of_ne {h : Heap} {n : NodeRef} {c c' : Container} (hc : c' ≠ c) :
    (h.push c n).content c' = (h.detach n).content c' := by
  rw [push, content_setNode, content_link_of_ne hc]

theorem content_push_self : ((h.push c n).content c).Perm (n :: (h.detach n).content c) := by
  rw [push, content_setNode]
  exact content_link_self ..

/-- Pushing adds nothing but the node. -/
theorem mem_content_of_push {h : Heap} {n m : NodeRef} {c c' : Container}
    (hm : m ∈ (h.push c n).content c') : m = n ∧ c' = c ∨ m ∈ h.content c' := by
  rcases eq_or_ne c' c with rfl | hc
  · rcases List.mem_cons.mp ((content_push_self h n c').mem_iff.mp hm) with rfl | hm
    · exact .inl ⟨rfl, rfl⟩
    · exact .inr (mem_content_of_detach hm)
  · rw [content_push_of_ne hc] at hm
    exact .inr (mem_content_of_detach hm)

theorem waiting_dropWaiting (es : List EventId) (a b : AgentId) (e : EventId) :
    (h.dropWaiting es a).waiting b e = if b = a ∧ e ∈ es then [] else h.waiting b e := by
  rw [dropWaiting]
  dsimp only
  rcases eq_or_ne b a with rfl | hb
  · rw [Function.update_self]
    simp only [true_and]
  · rw [Function.update_of_ne hb, if_neg fun he => hb he.1]

theorem content_dropWaiting_sublist (es : List EventId) (a : AgentId) (c : Container) :
    ((h.dropWaiting es a).content c).Sublist (h.content c) := by
  cases c with
  | waiting b e =>
    rw [content_waiting, waiting_dropWaiting]
    split
    · exact List.sublist_append_right ..
    · exact .refl _
  | _ => exact .refl _

theorem mem_content_of_dropWaiting {h : Heap} {n : NodeRef} {c : Container} {es : List EventId}
    {a : AgentId} (hn : n ∈ (h.dropWaiting es a).content c) : n ∈ h.content c :=
  (content_dropWaiting_sublist h es a c).subset hn

/-- Swapping a waiting list out moves its nodes inside the content. -/
theorem content_swapWaiting (a : AgentId) (e : EventId) :
    ((h.swapWaiting a e).content c).Perm (h.content c) := by
  cases c with
  | waiting a' e' =>
    by_cases hae : a = a' ∧ e = e'
    · obtain ⟨rfl, rfl⟩ := hae
      simp [swapWaiting, content]
    · have hw : (h.swapWaiting a e).waiting a' e' = h.waiting a' e' := by
        rcases eq_or_ne a' a with rfl | ha
        · have he : e' ≠ e := fun he => hae ⟨rfl, he.symm⟩
          simp [swapWaiting, Function.update_of_ne he]
        · simp [swapWaiting, Function.update_of_ne ha]
      simp only [content, hw]
      simp [swapWaiting, hae]
  | _ => exact .refl _

/-- The content when the innermost list swapped out is the given one. -/
theorem content_handling {h : Heap} {r : Handling} {rs : List Handling}
    (hh : h.handling = r :: rs) (c : Container) : (h.content c).Perm
      ((if c = .waiting r.agent r.event then r.nodes else []) ++
        ({ h with handling := rs } : Heap).content c) := by
  cases c with
  | waiting a e =>
    simp only [content, hh, List.filter_cons, Container.waiting.injEq, eq_comm (a := a),
      eq_comm (a := e), decide_eq_true_eq]
    split
    · rw [List.flatMap_cons]
      exact List.perm_append_comm_assoc ..
    · exact .refl _
  | _ => simp [content]

end Heap

end Asyncflow
