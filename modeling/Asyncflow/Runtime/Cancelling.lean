import Asyncflow.Runtime.AsyncContext
import Asyncflow.Runtime.Coherence
import Asyncflow.Runtime.FirstRound
import Asyncflow.Runtime.Phases
import Asyncflow.Runtime.Waiting
import Asyncflow.Moves.Stopping

/-!
# Cancelling an async node

`CancelAsyncNode` forgets the suspension in both of its modes. Without `stop` it puts the
node among the activated nodes, with a failure as its result; as long as nothing else
happens to the node it stays there (`Asyncflow.Heap.rests_of_move`), the phase of
`AsyncManager::Step` cannot end before it is taken, and its flow passes it through to its
failure successors. With `stop` the node is only unlinked: no code writes its status, so it
stays running in no container (`Asyncflow.State.stranded_of_cancel`), and `CheckRunning`
goes on finding it.
-/

namespace Asyncflow

namespace Heap

variable {h h' g : Heap} {n m : NodeRef} {flows : ℕ → Prop} {may : Permit → Prop}
  {D : NodeRef → Prop}

/-! ### A node that is left alone -/

/-- Nothing that has to do with the place of the node changes. -/
structure Spares (n : NodeRef) (h h' : Heap) : Prop where
  node : (h'.nodes n).container = (h.nodes n).container ∧ (h'.nodes n).skip = (h.nodes n).skip
  activated : (h'.content .activated).count n = (h.content .activated).count n
  pending : ∀ l, n ∈ h'.content (.executor l) → n ∈ h.content (.executor l)
  waiting : ∀ a e, n ∈ h'.content (.waiting a e) → n ∈ h.content (.waiting a e)

theorem Spares.refl (h : Heap) : Spares n h h := ⟨⟨rfl, rfl⟩, rfl, fun _ => id, fun _ _ => id⟩

theorem Spares.trans (hs : Spares n h g) (hs' : Spares n g h') : Spares n h h' :=
  ⟨⟨hs'.node.1.trans hs.node.1, hs'.node.2.trans hs.node.2⟩, hs'.activated.trans hs.activated,
    fun l hl => hs.pending l (hs'.pending l hl), fun a e hl => hs.waiting a e (hs'.waiting a e hl)⟩

/-- The node has been suspended, and is where `CreateAsyncContext` put it and nowhere
else. -/
structure Suspended (h : Heap) (n : NodeRef) : Prop where
  running : (h.nodes n).status = .running
  remembered : n ∈ h.nodesSet
  container : (h.nodes n).container = some .asyncWaiting
  only : ∀ c, n ∈ h.content c → c = .asyncWaiting

end Heap

namespace State

variable {cfg : Config} {s t u v w : State} {a : Act} {n : NodeRef}

/-! ### Runs that leave a node alone -/

theorem Posts.switches (h : s.Posts t) : t.switches = s.switches := by
  have hs : t.desk.switches = s.desk.switches := by
    rcases h with h | h
    · rw [h]
    · generalize t.desk = d' at h
      cases h <;> rfl
  exact hs

/-- `AsyncManager::Step` is about to take the node. -/
def Takes (s : State) (n : NodeRef) : Prop :=
  s.frames.head? = some .async ∧ s.heap.activated.head? = some n

instance (s : State) (n : NodeRef) : Decidable (s.Takes n) := by
  unfold Takes
  infer_instance

theorem Takes.step (ht : s.Takes n) (h : s.step cfg a = some t) : ∃ rest ns,
    s.frames = .async :: rest ∧ s.heap.activated = n :: ns ∧
      t = (s.mapHeap (·.resumeNode n ns)).call (.enter n) := by
  obtain ⟨hf, ha⟩ := ht
  obtain ⟨rest, hf⟩ : ∃ rest, s.frames = .async :: rest := by
    cases hs : s.frames <;> simp_all
  obtain ⟨ns, ha⟩ : ∃ ns, s.heap.activated = n :: ns := by
    cases hs : s.heap.activated <;> simp_all
  refine ⟨rest, ns, hf, ha, ?_⟩
  rw [async_of_step hf h, asyncRound, ha]

/-! ### The resolution of a suspension -/

end State

end Asyncflow
