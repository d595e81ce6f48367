import Asyncflow.Moves.Registry
import Asyncflow.Runtime.EventQueue

/-!
# The life of an agent

An agent is made by `Register`, leaves both maps of the `AgentManager` when it is
unregistered, and is deleted by `DyingAgents::Step`: at the end of the step under way if it
was unregistered outside a step, and at the end of the next step otherwise, since the two
lists of dying agents are swapped.

`Asyncflow.Crew` is the part of the heap that has to do with this, and `Asyncflow.Roster`
adds what the calls in progress contribute; `Asyncflow.Roster.Move` lists the seven things
that can happen to it. The invariant `Asyncflow.Roster.Sane` is proved move by move.
`Asyncflow.State.lifecycle` reads off that the maps are in bijection, that ids are not used
again, and when an agent is deleted.
-/

namespace Asyncflow

/-- The agents, without their charts. -/
@[ext] structure Crew where
  /-- The agents that are there; `registered` says whether `agent_map_` has the agent. -/
  agents : AgentId → Option Agent
  /-- `AGENT_ID_COUNT`. -/
  agentIdCount : AgentId
  /-- `gameobject_map_`. -/
  gameObjects : ObjectId → Option AgentId
  /-- `destroying_agents_`. -/
  destroying : List AgentId
  /-- `next_destroying_agents_`. -/
  nextDestroying : List AgentId

namespace Crew

variable (k : Crew)

/-- `AgentManager::Register`. -/
def register (o : ObjectId) : Crew :=
  match k.gameObjects o with
  | some _ => k
  | none =>
    { k with
      agents := Function.update k.agents (k.agentIdCount + 1) (some { object := o })
      agentIdCount := k.agentIdCount + 1
      gameObjects := Function.update k.gameObjects o (some (k.agentIdCount + 1)) }

/-- An agent leaves the maps and joins one of the lists. -/
def dismiss (a : AgentId) (g : Agent) (inStep : Bool) : Crew :=
  { k with
    agents := Function.update k.agents a
      (some { g with status := .destroying, registered := false })
    gameObjects := Function.update k.gameObjects g.object none
    destroying := if inStep then k.destroying else k.destroying ++ [a]
    nextDestroying := if inStep then k.nextDestroying ++ [a] else k.nextDestroying }

/-- `Manager::UnregisterGameObject`. -/
def unregister (a : AgentId) (inStep : Bool) : Crew :=
  match k.agents a with
  | none => k
  | some g => if g.status = .running then k.dismiss a g inStep else k

/-- `Agent::~Agent`. -/
def destroy (a : AgentId) : Crew := { k with agents := Function.update k.agents a none }

/-- The end of `DyingAgents::Step`. -/
def swapDying : Crew := { k with destroying := k.nextDestroying, nextDestroying := [] }

end Crew

namespace Heap

variable {h h' : Heap} {flows : ℕ → Prop} {may : Permit → Prop} {D : NodeRef → Prop}

/-- The crew of a heap. -/
def crew (h : Heap) : Crew where
  agents a := (h.agents a).map Agent.bare
  agentIdCount := h.agentIdCount
  gameObjects := h.gameObjects
  destroying := h.destroying
  nextDestroying := h.nextDestroying

theorem Alike.crew (ha : h.Alike h') : h'.crew = h.crew := by
  ext1
  · exact funext ha.agents
  · exact ha.agentIdCount
  · exact ha.gameObjects
  · exact ha.destroying
  · exact ha.nextDestroying

theorem crew_of_move (hm : Move flows may D h h') (hmay : ¬may .agents) : h'.crew = h.crew := by
  rcases outer_of_move hm with ho | ho
  · have hk : h'.outer.crew = h.outer.crew := congrArg Heap.crew ho
    exact hk
  cases ho with
  | alike ha => exact ha.crew
  | manage _ _ _ _ _ hp => exact absurd hp hmay
  | started hx hne =>
    simp only [markStarted, hx, hne, ↓reduceIte]
    rfl
  | forget c =>
    unfold forgetChart setOwner
    split <;> rfl
  | load | patch | create => rfl

/-- Operations that may not touch the agents leave the crew alone. -/
theorem crew_of_does (hd : Does flows may D h h') (hmay : ¬may .agents) : h'.crew = h.crew :=
  Traced.Does.invariant (I := fun g => g.crew = h.crew) hd
    (fun hm hg => (crew_of_move hm hmay).trans hg) rfl

/-- The permission of the operations that leave the agents alone. -/
theorem crew_of_still (hd : Does (fun _ => True) (fun p => p ≠ .agents) D h h') :
    h'.crew = h.crew := crew_of_does hd fun hp => hp rfl

theorem crew_register (h : Heap) (o : ObjectId) : (h.register o).crew = h.crew.register o := by
  have hgo : h.crew.gameObjects o = h.gameObjects o := rfl
  unfold register Crew.register
  rw [hgo]
  cases h.gameObjects o with
  | some b => rfl
  | none =>
    refine Crew.ext (funext fun a => ?_) rfl rfl rfl rfl
    simp only [crew, Function.update_apply]
    split <;> rfl

/-- A write to an agent, as the crew sees it. -/
theorem crew_setAgent (h : Heap) (a : AgentId) {f : Agent → Agent}
    (hf : ∀ g, (f g).bare = f g.bare) :
    (h.setAgent a f).crew =
      { h.crew with agents := Function.update h.crew.agents a ((h.crew.agents a).map f) } := by
  refine Crew.ext (funext fun a' => ?_) rfl rfl rfl rfl
  simp only [crew, setAgent, Function.update_apply]
  split
  · rw [Option.map_map, Option.map_map]
    exact Option.map_congr fun g _ => hf g
  · rfl

theorem crew_unRegister {g : Agent} (h : Heap) (a : AgentId) (hg : h.crew.agents a = some g) :
    (h.unRegister a).crew =
      { h.crew with
        agents := Function.update h.crew.agents a (some { g with registered := false })
        gameObjects := Function.update h.crew.gameObjects g.object none } := by
  obtain ⟨g', hg', rfl⟩ := Option.map_eq_some_iff.mp hg
  have hset := crew_setAgent h a (f := ({ · with registered := false })) fun _ => rfl
  rw [hg, Option.map_some] at hset
  unfold unRegister
  rw [hg']
  exact Crew.ext (congrArg Crew.agents hset :) rfl rfl rfl rfl

theorem crew_addDyingAgent (h : Heap) (a : AgentId) (inStep : Bool) :
    (h.addDyingAgent a inStep).crew =
      { h.crew with
        destroying := if inStep then h.crew.destroying else h.crew.destroying ++ [a]
        nextDestroying :=
          if inStep then h.crew.nextDestroying ++ [a] else h.crew.nextDestroying } := by
  cases inStep <;> rfl

theorem crew_unregister (h : Heap) (a : AgentId) (inStep : Bool) :
    (h.unregisterGameObject a inStep).crew = h.crew.unregister a inStep := by
  have hcrew : h.crew.agents a = (h.agents a).map Agent.bare := rfl
  unfold unregisterGameObject Crew.unregister agentRunning
  rw [hcrew]
  cases hg : h.agents a with
  | none => rfl
  | some g =>
    have hb : g.bare.status = g.status := rfl
    simp only [Option.any_some, beq_iff_eq, Option.map_some, hb]
    split
    · -- Stopping the charts leaves the agents alone.
      have hstop : ((h.setAgent a ({ · with status := .destroying })).stopAgent a).crew = _ :=
        crew_of_still (D := fun _ => False) (does_stopAgent _ a)
      rw [crew_setAgent h a (f := ({ · with status := .destroying })) fun _ => rfl, hcrew, hg,
        Option.map_some, Option.map_some] at hstop
      have hat := (congrArg (fun k => Crew.agents k a) hstop).trans (Function.update_self ..)
      rw [crew_addDyingAgent, crew_unRegister _ a hat, hstop]
      refine Crew.ext ?_ rfl rfl rfl rfl
      exact Function.update_idem ..
    · rfl

theorem crew_destroyAgent (h : Heap) (es : List EventId) (a : AgentId) :
    (h.destroyAgent es a).crew = h.crew.destroy a := by
  -- Letting go of a chart is an operation that registers nobody.
  obtain ⟨f, hf, he⟩ : ∃ f : Heap → ChartId → Heap,
      (∀ g c, Does (fun _ => True) (fun p => p ≠ .agents) (fun _ => False) g (f g c)) ∧
      h.destroyAgent es a =
        { (((h.agents a).map (·.charts)).getD []).reverse.foldl f (h.dropWaiting es a) with
          agents := Function.update ((((h.agents a).map (·.charts)).getD []).reverse.foldl f
            (h.dropWaiting es a)).agents a none } := by
    refine ⟨_, fun g c => ?_, rfl⟩
    split
    · exact .refl g
    · split
      · exact does_clearAttacher g _
      · exact does_deleteChart g c
  have hk := crew_of_still
    (.foldl hf (h.dropWaiting es a) (((h.agents a).map fun g => g.charts).getD []).reverse)
  have hkh : (h.dropWaiting es a).crew = h.crew := rfl
  rw [hkh] at hk
  have hag := congrArg Crew.agents hk
  rw [he]
  refine Crew.ext (funext fun a' => ?_) (congrArg Crew.agentIdCount hk :)
    (congrArg Crew.gameObjects hk :) (congrArg Crew.destroying hk :)
    (congrArg Crew.nextDestroying hk :)
  have ha' := congrFun hag a'
  simp only [crew, Crew.destroy, Function.update_apply] at ha' ⊢
  split
  · rfl
  · exact ha'

end Heap

/-! ### The calls that delete agents -/

/-- The calls of `DyingAgents::Step`. -/
def Frame.isExit : Frame → Bool
  | .dying _ | .release _ => true
  | _ => false

/-- The agents that such a call is still going to delete. -/
def Frame.leaving : Frame → List AgentId
  | .dying as => as
  | .release a => [a]
  | _ => []

/-- The crew, with the calls in progress that delete agents. -/
structure Roster where
  /-- The agents. -/
  crew : Crew
  /-- The calls of `DyingAgents::Step`. -/
  exits : List Frame
  /-- `in_step_`. -/
  inStep : Bool
  /-- The agents deleted so far. -/
  deleted : List AgentId

/-- The roster of a state. -/
def State.roster (s : State) : Roster :=
  ⟨s.heap.crew, s.frames.filter (·.isExit), s.inStep, s.deleted⟩

namespace Roster

/-- The agents that the step under way, or else the next one, is going to delete. -/
def doomed (r : Roster) : List AgentId :=
  if r.exits = [] then r.crew.destroying else r.exits.flatMap Frame.leaving

/-- **What can happen to agents.** -/
inductive Move : Act → Roster → Roster → Prop
  /-- `Manager::RegisterGameObject`. -/
  | register {r : Roster} (o) : Move (.op (.register o)) r { r with crew := r.crew.register o }
  /-- `Manager::UnregisterGameObject`. -/
  | unregister {r : Roster} (a) :
      Move (.op (.unregister a)) r { r with crew := r.crew.unregister a r.inStep }
  /-- `Manager::Step`. -/
  | step {r : Roster} : r.exits = [] → r.inStep = false →
      Move (.op .step) r { r with inStep := true }
  /-- The call of `DyingAgents::Step`. -/
  | dying {r : Roster} : r.exits = [] → r.inStep = true →
      Move .tau r { r with exits := [.dying r.crew.destroying] }
  /-- The deletion of an agent begins. -/
  | release {r : Roster} {a as} : r.exits = [.dying (a :: as)] →
      Move .tau r { r with exits := [.release a, .dying as] }
  /-- The deletion of an agent ends. -/
  | released {r : Roster} {a as} : r.exits = [.release a, .dying as] →
      Move .done r
        { r with exits := [.dying as], crew := r.crew.destroy a, deleted := a :: r.deleted }
  /-- The end of `DyingAgents::Step` and of the step. -/
  | leave {r : Roster} : r.exits = [.dying []] →
      Move .tau r { r with exits := [], crew := r.crew.swapDying, inStep := false }

/-- An agent that is there but in no map. -/
def Dismissed (r : Roster) (a : AgentId) : Prop :=
  ∃ g, r.crew.agents a = some g ∧ g.registered = false

/-- The invariant of the roster. -/
structure Sane (r : Roster) : Prop where
  /-- The calls of `DyingAgents::Step` are inside a step. -/
  exits : r.exits ≠ [] → r.inStep = true
  /-- Ids are counted up. -/
  counted : ∀ a, (r.crew.agents a).isSome → 1 ≤ a ∧ a ≤ r.crew.agentIdCount
  /-- The two maps are each other's inverse. -/
  bijective : ∀ o a, r.crew.gameObjects o = some a ↔
    ∃ g, r.crew.agents a = some g ∧ g.registered = true ∧ g.object = o
  status : ∀ a g, r.crew.agents a = some g → (g.registered = true ↔ g.status = .running)
  /-- What is dismissed and nothing else waits for its deletion, in one place. -/
  pending : ∀ a, (r.doomed ++ r.crew.nextDestroying).count a ≤ 1 ∧
    (a ∈ r.doomed ++ r.crew.nextDestroying ↔ r.Dismissed a)
  /-- Between steps only the first list is used. -/
  next : r.inStep = false → r.crew.nextDestroying = []
  /-- What is gone has been deleted, once. -/
  deleted : ∀ a, r.deleted.count a ≤ 1 ∧
    (a ∈ r.deleted ↔ (1 ≤ a ∧ a ≤ r.crew.agentIdCount) ∧ r.crew.agents a = none)

variable {r r' : Roster} {a b : AgentId} {o : ObjectId} {g : Agent}

theorem doomed_of_exits (he : r'.exits = r.exits) (hd : r'.crew.destroying = r.crew.destroying) :
    r'.doomed = r.doomed := by
  unfold doomed
  rw [he, hd]

/-- The next id is not in use. -/
theorem Sane.fresh (hs : r.Sane) : r.crew.agents (r.crew.agentIdCount + 1) = none := by
  refine Option.eq_none_iff_forall_ne_some.mpr fun g hg => ?_
  have hle := (hs.counted (r.crew.agentIdCount + 1) (by rw [hg]; rfl)).2
  exact Nat.not_succ_le_self _ hle

theorem Sane.register (hs : r.Sane) (o : ObjectId) :
    Sane { r with crew := r.crew.register o } := by
  unfold Crew.register
  cases ho : r.crew.gameObjects o with
  | some b => exact hs
  | none =>
    have hfresh := hs.fresh
    have hnew : ∀ b g, r.crew.agents b = some g → b ≠ r.crew.agentIdCount + 1 := by
      rintro b g hg rfl
      rw [hfresh] at hg
      cases hg
    have hdis : ∀ b, Dismissed { r with crew := { r.crew with
        agents := Function.update r.crew.agents (r.crew.agentIdCount + 1) (some { object := o })
        agentIdCount := r.crew.agentIdCount + 1
        gameObjects := Function.update r.crew.gameObjects o (some (r.crew.agentIdCount + 1)) } } b ↔
        r.Dismissed b := by
      intro b
      unfold Dismissed
      simp only [Function.update_apply]
      split
      · subst b
        simp [hfresh]
      · exact Iff.rfl
    constructor
    · exact hs.exits
    · intro b hb
      simp only [Function.update_apply] at hb ⊢
      split at hb
      · subst b
        exact ⟨Nat.succ_pos _, Nat.le_refl _⟩
      · have hb' := hs.counted b hb
        exact ⟨hb'.1, Nat.le_succ_of_le hb'.2⟩
    · intro o' b
      simp only [Function.update_apply]
      by_cases hb : b = r.crew.agentIdCount + 1
      · subst b
        have hno : r.crew.gameObjects o' ≠ some (r.crew.agentIdCount + 1) := by
          intro hgo
          obtain ⟨g, hg, -⟩ := (hs.bijective o' _).mp hgo
          exact hnew _ g hg rfl
        by_cases ho' : o' = o
        · simp [ho']
        · simp [ho', hno, Ne.symm ho']
      · rw [if_neg hb, ← hs.bijective]
        by_cases ho' : o' = o
        · subst o'
          simp [ho, Ne.symm hb]
        · rw [if_neg ho']
    · intro b g hg
      simp only [Function.update_apply] at hg
      split at hg
      · obtain rfl := Option.some.inj hg
        exact ⟨fun _ => rfl, fun _ => rfl⟩
      · exact hs.status b g hg
    · intro b
      rw [hdis]
      exact hs.pending b
    · exact hs.next
    · intro b
      refine ⟨(hs.deleted b).1, (hs.deleted b).2.trans ?_⟩
      simp only [Function.update_apply]
      split
      · subst b
        constructor
        · rintro ⟨⟨-, hle⟩, -⟩
          exact absurd hle (Nat.not_succ_le_self _)
        · exact fun hn => nomatch hn.2
      · rename_i hne
        constructor
        · rintro ⟨⟨h1, h2⟩, h3⟩
          exact ⟨⟨h1, Nat.le_succ_of_le h2⟩, h3⟩
        · rintro ⟨⟨h1, h2⟩, h3⟩
          exact ⟨⟨h1, Nat.le_of_lt_succ (Nat.lt_of_le_of_ne h2 hne)⟩, h3⟩

/-- The agents waiting for their deletion after one more has been dismissed. -/
theorem Sane.doomed_dismiss (hs : r.Sane) (a : AgentId) (g : Agent) :
    let r' : Roster := { r with crew := r.crew.dismiss a g r.inStep }
    (r'.doomed ++ r'.crew.nextDestroying).Perm (a :: (r.doomed ++ r.crew.nextDestroying)) := by
  dsimp only
  cases hin : r.inStep with
  | true =>
    have hd : doomed { r with crew := r.crew.dismiss a g true } = r.doomed :=
      doomed_of_exits rfl rfl
    have hn : (r.crew.dismiss a g true).nextDestroying = r.crew.nextDestroying ++ [a] := rfl
    have hd' : doomed { r with crew := r.crew.dismiss a g true, inStep := true } = r.doomed := hd
    rw [hd', hn, ← List.append_assoc]
    exact List.perm_append_singleton ..
  | false =>
    have he : r.exits = [] := by
      by_contra hne
      have hstep := hs.exits hne
      rw [hin] at hstep
      cases hstep
    have hd : doomed { r with crew := r.crew.dismiss a g false } = r.doomed ++ [a] := by
      rw [doomed, doomed, if_pos he, if_pos he]
      rfl
    have hn : (r.crew.dismiss a g false).nextDestroying = r.crew.nextDestroying := rfl
    have hd' : doomed { r with crew := r.crew.dismiss a g false, inStep := false } =
      r.doomed ++ [a] :=
      hd
    rw [hd', hn]
    exact (List.perm_append_singleton a r.doomed).append_right _

theorem Sane.unregister (hs : r.Sane) (a : AgentId) :
    Sane { r with crew := r.crew.unregister a r.inStep } := by
  unfold Crew.unregister
  cases hg : r.crew.agents a with
  | none => exact hs
  | some g =>
    by_cases hrun : g.status = .running
    swap
    · simpa only [hrun, ↓reduceIte] using hs
    simp only [hrun, ↓reduceIte]
    have hreg : g.registered = true := (hs.status a g hg).mpr hrun
    have hgo : r.crew.gameObjects g.object = some a := (hs.bijective _ _).mpr ⟨g, hg, hreg, rfl⟩
    have hperm := hs.doomed_dismiss a g
    have hat : ∀ b, (r.crew.dismiss a g r.inStep).agents b =
        if b = a then some { g with status := .destroying, registered := false }
        else r.crew.agents b := fun b => Function.update_apply ..
    have hdis : ∀ b, Dismissed { r with crew := r.crew.dismiss a g r.inStep } b ↔
        b = a ∨ r.Dismissed b := by
      intro b
      unfold Dismissed
      simp only [hat]
      by_cases hb : b = a
      · simp [hb]
      · simp only [hb, ↓reduceIte, false_or]
    constructor
    · exact hs.exits
    · intro b hb
      refine hs.counted b ?_
      simp only [hat] at hb
      split at hb
      · subst b
        rw [hg]
        rfl
      · exact hb
    · intro o b
      have hob : (r.crew.dismiss a g r.inStep).gameObjects o =
          if o = g.object then none else r.crew.gameObjects o := Function.update_apply ..
      simp only [hob, hat]
      by_cases hb : b = a
      · subst b
        rw [if_pos rfl]
        by_cases ho : o = g.object
        · simp [ho]
        · rw [if_neg ho]
          constructor
          · intro hgo'
            obtain ⟨g', hg', -, rfl⟩ := (hs.bijective o a).mp hgo'
            obtain rfl := Option.some.inj (hg.symm.trans hg')
            exact absurd rfl ho
          · rintro ⟨g', hg', hr', -⟩
            obtain rfl := Option.some.inj hg'
            cases hr'
      · rw [if_neg hb, ← hs.bijective]
        by_cases ho : o = g.object
        · subst o
          simp [hgo, Ne.symm hb]
        · rw [if_neg ho]
    · intro b g' hg'
      simp only [hat] at hg'
      split at hg'
      · obtain rfl := Option.some.inj hg'
        exact ⟨fun h => (nomatch h), fun h => (nomatch h)⟩
      · exact hs.status b g' hg'
    · intro b
      rw [hdis, hperm.count_eq, hperm.mem_iff, List.mem_cons, (hs.pending b).2]
      refine ⟨?_, Iff.rfl⟩
      by_cases hb : b = a
      · subst b
        have hno : a ∉ r.doomed ++ r.crew.nextDestroying := by
          rw [(hs.pending a).2]
          rintro ⟨g', hg', hr'⟩
          obtain rfl := Option.some.inj (hg.symm.trans hg')
          rw [hreg] at hr'
          cases hr'
        have hone : (a :: (r.doomed ++ r.crew.nextDestroying)).count a = 1 := by
          rw [List.count_cons_self, List.count_eq_zero.mpr hno]
        exact Nat.le_of_eq hone
      · rw [List.count_cons_of_ne (Ne.symm hb)]
        exact (hs.pending b).1
    · intro hin
      have hn : (r.crew.dismiss a g r.inStep).nextDestroying = r.crew.nextDestroying := by
        have hin' : r.inStep = false := hin
        rw [hin']
        rfl
      exact hn.trans (hs.next hin)
    · intro b
      refine ⟨(hs.deleted b).1, (hs.deleted b).2.trans ?_⟩
      simp only [hat]
      split
      · subst b
        simp [hg]
      · exact Iff.rfl

/-- The end of the deletion of an agent. -/
theorem Sane.released {as : List AgentId} (hs : r.Sane) (he : r.exits = [.release a, .dying as]) :
    Sane { r with
      exits := [.dying as], crew := r.crew.destroy a, deleted := a :: r.deleted } := by
  have hd : r.doomed = a :: as := by
    rw [doomed, he, if_neg nofun]
    simp [Frame.leaving]
  have hpend := hs.pending a
  rw [hd, List.cons_append, List.count_cons_self] at hpend
  obtain ⟨g, hg, hreg⟩ := hpend.2.mp List.mem_cons_self
  have hnot : a ∉ as ++ r.crew.nextDestroying := by
    rw [← List.count_eq_zero]
    omega
  have hat : ∀ b, (r.crew.destroy a).agents b = if b = a then none else r.crew.agents b :=
    fun b => Function.update_apply ..
  constructor
  · intro _
    exact hs.exits (by rw [he]; exact nofun)
  · intro b hb
    simp only [hat] at hb
    split at hb
    · cases hb
    · exact hs.counted b hb
  · intro o b
    refine (hs.bijective o b).trans ?_
    simp only [hat]
    split
    · subst b
      constructor
      · rintro ⟨g', hg', hr', -⟩
        obtain rfl := Option.some.inj (hg.symm.trans hg')
        rw [hreg] at hr'
        cases hr'
      · rintro ⟨g', hg', -⟩
        cases hg'
    · exact Iff.rfl
  · intro b g' hg'
    simp only [hat] at hg'
    split at hg'
    · cases hg'
    · exact hs.status b g' hg'
  · intro b
    have hp := hs.pending b
    rw [hd, List.cons_append] at hp
    have hl : doomed { r with
        exits := [.dying as], crew := r.crew.destroy a, deleted := a :: r.deleted } = as := by
      rw [doomed, if_neg nofun]
      simp [Frame.leaving]
    rw [hl]
    change (as ++ r.crew.nextDestroying).count b ≤ 1 ∧ (b ∈ as ++ r.crew.nextDestroying ↔ _)
    unfold Dismissed
    simp only [hat]
    split
    · subst b
      rw [List.count_eq_zero.mpr hnot]
      refine ⟨Nat.zero_le 1, ?_⟩
      simp only [hnot, false_iff]
      rintro ⟨g', hg', -⟩
      cases hg'
    · rename_i hb
      rw [List.count_cons_of_ne (Ne.symm hb), List.mem_cons] at hp
      simp only [hb, false_or] at hp
      exact hp
  · intro hin
    have hin' : r.inStep = true := hs.exits (by rw [he]; exact nofun)
    rw [hin'] at hin
    cases hin
  · intro b
    have hb' := hs.deleted b
    simp only [hat]
    by_cases hb : b = a
    · subst b
      have hno : a ∉ r.deleted := by
        intro hmem
        have := (hb'.2.mp hmem).2
        rw [hg] at this
        cases this
      rw [List.count_cons_self, List.count_eq_zero.mpr hno]
      refine ⟨Nat.le_refl 1, ?_⟩
      simp only [List.mem_cons_self, ↓reduceIte, and_true, true_iff]
      exact hs.counted a (by rw [hg]; rfl)
    · rw [List.count_cons_of_ne (Ne.symm hb), List.mem_cons]
      simp only [hb, false_or, ↓reduceIte]
      exact hb'

/-- A move that leaves the maps alone. -/
theorem Sane.of_crew (hs : r.Sane) (hexits : r'.exits ≠ [] → r'.inStep = true)
    (hagents : r'.crew.agents = r.crew.agents) (hcount : r'.crew.agentIdCount = r.crew.agentIdCount)
    (hobjects : r'.crew.gameObjects = r.crew.gameObjects)
    (hpending : r'.doomed ++ r'.crew.nextDestroying = r.doomed ++ r.crew.nextDestroying)
    (hnext : r'.inStep = false → r'.crew.nextDestroying = []) (hdel : r'.deleted = r.deleted) :
    r'.Sane where
  exits := hexits
  counted := by rw [hagents, hcount]; exact hs.counted
  bijective := by rw [hagents, hobjects]; exact hs.bijective
  status := by rw [hagents]; exact hs.status
  pending b := by
    have hdis : r'.Dismissed b ↔ r.Dismissed b := by rw [Dismissed, hagents, Dismissed]
    rw [hpending, hdis]
    exact hs.pending b
  next := hnext
  deleted := by rw [hagents, hcount, hdel]; exact hs.deleted

/-- **Every move keeps the roster sane.** -/
theorem Sane.move {act : Act} (hm : Move act r r') (hs : r.Sane) : r'.Sane := by
  cases hm with
  | register o => exact hs.register o
  | unregister a => exact hs.unregister a
  | step he hin => exact hs.of_crew (fun _ => rfl) rfl rfl rfl rfl nofun rfl
  | dying he hin =>
    refine hs.of_crew (fun _ => hin) rfl rfl rfl ?_ (fun h => ?_) rfl
    · rw [doomed, doomed, he, if_neg nofun, if_pos rfl]
      simp [Frame.leaving]
    · exact hs.next h
  | release he =>
    have hin : r.inStep = true := hs.exits (by rw [he]; exact nofun)
    refine hs.of_crew (fun _ => hin) rfl rfl rfl ?_ (fun h => hs.next h) rfl
    rw [doomed, doomed, he, if_neg nofun, if_neg nofun]
    simp [Frame.leaving]
  | released he => exact hs.released he
  | leave he =>
    refine hs.of_crew (fun h => absurd rfl h) rfl rfl rfl ?_ (fun _ => rfl) rfl
    rw [doomed, doomed, he, if_pos rfl, if_neg nofun]
    simp [Frame.leaving, Crew.swapDying]

theorem sane_init : Sane ⟨({} : Heap).crew, [], false, []⟩ where
  exits := fun h => absurd rfl h
  counted _ ha := nomatch ha
  bijective _ _ := ⟨nofun, fun ⟨_, hg, _⟩ => nomatch hg⟩
  status _ _ hg := nomatch hg
  pending _ := ⟨Nat.zero_le 1, nofun, fun ⟨_, hg, _⟩ => nomatch hg⟩
  next _ := rfl
  deleted a := by
    refine ⟨Nat.zero_le 1, nofun, fun h => ?_⟩
    exact absurd (Nat.le_trans h.1.1 h.1.2) (by decide)

/-! ### What becomes of an agent -/

/-- The agent was registered and no longer is. -/
def Gone (r : Roster) (a : AgentId) : Prop :=
  (1 ≤ a ∧ a ≤ r.crew.agentIdCount) ∧ ∀ g, r.crew.agents a = some g → g.registered = false

/-- A registration leaves the agents that are there alone. -/
theorem agents_register {k : Crew} (o : ObjectId) (ha : a ≤ k.agentIdCount) :
    (k.register o).agents a = k.agents a := by
  unfold Crew.register
  split
  · rfl
  · refine Function.update_of_ne ?_ ..
    rintro rfl
    exact Nat.not_succ_le_self _ ha

theorem agentIdCount_register (k : Crew) (o : ObjectId) :
    k.agentIdCount ≤ (k.register o).agentIdCount := by
  unfold Crew.register
  split
  · exact Nat.le_refl _
  · exact Nat.le_succ _

/-- What `Manager::UnregisterGameObject` does to an agent. -/
theorem agents_unregister (hs : r.Sane) (b : AgentId) (inStep : Bool)
    (ha : r.crew.agents a = some g) :
    ∃ g', (r.crew.unregister b inStep).agents a = some g' ∧
      (g'.registered = true ↔ g.registered = true ∧ a ≠ b) := by
  have hsame : r.crew.agents b = none ∨ (∃ g', r.crew.agents b = some g' ∧ g'.status ≠ .running) →
      (g.registered = true ↔ g.registered = true ∧ a ≠ b) := by
    intro hb
    refine ⟨fun hr => ⟨hr, ?_⟩, fun h => h.1⟩
    rintro rfl
    rcases hb with hb | ⟨g', hb, hne⟩
    · rw [ha] at hb
      cases hb
    · obtain rfl := Option.some.inj (ha.symm.trans hb)
      exact hne ((hs.status a g ha).mp hr)
  unfold Crew.unregister
  cases hb : r.crew.agents b with
  | none => exact ⟨g, ha, hsame (.inl hb)⟩
  | some g' =>
    dsimp only
    split
    · by_cases hab : a = b
      · subst hab
        exact ⟨_, Function.update_self .., fun h => (nomatch h), fun h => absurd rfl h.2⟩
      · refine ⟨g, (Function.update_of_ne hab ..).trans ha, fun h => ⟨h, hab⟩, fun h => h.1⟩
    · exact ⟨g, ha, hsame (.inr ⟨g', hb, ‹_›⟩)⟩

theorem agents_unregister_none {k : Crew} (b : AgentId) (inStep : Bool) (ha : k.agents a = none) :
    (k.unregister b inStep).agents a = none := by
  unfold Crew.unregister
  split
  · exact ha
  · rename_i g hb
    have hab : a ≠ b := by
      rintro rfl
      rw [ha] at hb
      cases hb
    split
    · exact (Function.update_of_ne hab ..).trans ha
    · exact ha

theorem agentIdCount_unregister (k : Crew) (b : AgentId) (inStep : Bool) :
    (k.unregister b inStep).agentIdCount = k.agentIdCount := by
  unfold Crew.unregister
  split
  · rfl
  · split <;> rfl

variable {act : Act}

theorem agentIdCount_move (hm : Move act r r') : r.crew.agentIdCount ≤ r'.crew.agentIdCount := by
  cases hm with
  | register o => exact agentIdCount_register r.crew o
  | unregister a => exact Nat.le_of_eq (agentIdCount_unregister r.crew a r.inStep).symm
  | step | dying | release | released | leave => exact Nat.le_refl _

/-- **An id is not used again.** -/
theorem Gone.move (hm : Move act r r') (hs : r.Sane) (ha : r.Gone a) : r'.Gone a := by
  obtain ⟨⟨h1, hle⟩, hgone⟩ := ha
  refine ⟨⟨h1, Nat.le_trans hle (agentIdCount_move hm)⟩, fun g' hg' => ?_⟩
  cases hm with
  | register o =>
    have hg : r.crew.agents a = some g' := (agents_register o hle).symm.trans hg'
    exact hgone g' hg
  | unregister b =>
    cases ha : r.crew.agents a with
    | none =>
      have hno := agents_unregister_none b r.inStep ha
      exact nomatch hno.symm.trans hg'
    | some g =>
      obtain ⟨g'', hg'', hiff⟩ := agents_unregister hs b r.inStep ha
      obtain rfl := Option.some.inj (hg'.symm.trans hg'')
      refine Bool.eq_false_iff.mpr fun hr => ?_
      have hreg := (hiff.mp hr).1
      rw [hgone g ha] at hreg
      cases hreg
  | @released _ b as he =>
    have hat : (r.crew.destroy b).agents a = if a = b then none else r.crew.agents a :=
      Function.update_apply ..
    have hg'' := hat.symm.trans hg'
    split at hg''
    · cases hg''
    · exact hgone g' hg''
  | step | dying | release | leave => exact hgone g' hg'

theorem doomed_register (r : Roster) (o : ObjectId) :
    doomed { r with crew := r.crew.register o } = r.doomed := by
  refine doomed_of_exits rfl ?_
  unfold Crew.register
  split <;> rfl

/-- Inside a step nothing more is doomed. -/
theorem doomed_unregister (b : AgentId) (hin : r.inStep = true) :
    doomed { r with crew := r.crew.unregister b r.inStep } = r.doomed := by
  refine doomed_of_exits rfl ?_
  unfold Crew.unregister
  split
  · rfl
  · split
    · exact if_pos hin
    · rfl

/-- An agent that the step under way is going to delete. -/
def Leaving (r : Roster) (a : AgentId) : Prop := a ∈ r.deleted ∨ r.inStep = true ∧ a ∈ r.doomed

/-- **The step deletes the agents that wait for it.** -/
theorem Leaving.move (hm : Move act r r') (ha : r.Leaving a) : r'.Leaving a := by
  rcases ha with ha | ⟨hin, ha⟩
  · refine .inl ?_
    cases hm with
    | released he => exact List.mem_cons_of_mem _ ha
    | register | unregister | step | dying | release | leave => exact ha
  cases hm with
  | register o =>
    rw [← doomed_register r o] at ha
    exact .inr ⟨hin, ha⟩
  | unregister b =>
    rw [← doomed_unregister b hin] at ha
    exact .inr ⟨hin, ha⟩
  | step he hout =>
    rw [hin] at hout
    cases hout
  | dying he _ =>
    refine .inr ⟨hin, ?_⟩
    rw [doomed, if_pos he] at ha
    rw [doomed, if_neg nofun]
    simpa [Frame.leaving] using ha
  | release he =>
    refine .inr ⟨hin, ?_⟩
    rw [doomed, he, if_neg nofun] at ha
    rw [doomed, if_neg nofun]
    simpa [Frame.leaving] using ha
  | @released _ b as he =>
    rw [doomed, he, if_neg nofun] at ha
    have hmem : a = b ∨ a ∈ as := by simpa [Frame.leaving] using ha
    rcases hmem with rfl | hmem
    · exact .inl List.mem_cons_self
    · refine .inr ⟨hin, ?_⟩
      rw [doomed, if_neg nofun]
      simpa [Frame.leaving] using hmem
  | leave he =>
    rw [doomed, he, if_neg nofun] at ha
    simp [Frame.leaving] at ha

/-- What is gone when a step begins is deleted at its end. -/
theorem leaving_of_gone (hs : r.Sane) (hin : r.inStep = false) (ha : r.Gone a) :
    Leaving { r with inStep := true } a := by
  obtain ⟨hle, hgone⟩ := ha
  cases hg : r.crew.agents a with
  | none => exact .inl ((hs.deleted a).2.mpr ⟨hle, hg⟩)
  | some g =>
    have hmem := (hs.pending a).2.mpr ⟨g, hg, hgone g hg⟩
    rw [hs.next hin, List.append_nil] at hmem
    exact .inr ⟨rfl, hmem⟩

/-- An agent that the step under way is not going to delete. -/
def Kept (r : Roster) (a : AgentId) : Prop :=
  (r.crew.agents a).isSome ∧ (r.inStep = true → a ∉ r.doomed)

/-- **An agent outlives the step in which it is unregistered.** -/
theorem Kept.move (hm : Move act r r') (hs : r.Sane) (hin : r.inStep = true) (ha : r.Kept a) :
    r'.Kept a := by
  obtain ⟨hsome, hnot⟩ := ha
  have hnot := hnot hin
  cases hm with
  | register o =>
    refine ⟨?_, fun _ hmem => hnot ?_⟩
    · have hsame := agents_register o (hs.counted a hsome).2
      exact (congrArg Option.isSome hsame).trans hsome
    · rwa [doomed_register] at hmem
  | unregister b =>
    obtain ⟨g, hg⟩ := Option.isSome_iff_exists.mp hsome
    obtain ⟨g', hg', -⟩ := agents_unregister hs b r.inStep hg
    refine ⟨Option.isSome_of_eq_some hg', fun _ hmem => hnot ?_⟩
    rwa [doomed_unregister b hin] at hmem
  | step he hout =>
    rw [hin] at hout
    cases hout
  | dying he _ =>
    refine ⟨hsome, fun _ hmem => hnot ?_⟩
    rw [doomed, if_neg nofun] at hmem
    rw [doomed, if_pos he]
    simpa [Frame.leaving] using hmem
  | release he =>
    refine ⟨hsome, fun _ hmem => hnot ?_⟩
    rw [doomed, if_neg nofun] at hmem
    rw [doomed, he, if_neg nofun]
    simpa [Frame.leaving] using hmem
  | @released _ b as he =>
    rw [doomed, he, if_neg nofun] at hnot
    have hne : a ≠ b ∧ a ∉ as := by simpa [Frame.leaving] using hnot
    refine ⟨?_, fun _ hmem => hne.2 ?_⟩
    · have hat : (r.crew.destroy b).agents a = r.crew.agents a := Function.update_of_ne hne.1 ..
      exact (congrArg Option.isSome hat).trans hsome
    · rw [doomed, if_neg nofun] at hmem
      simpa [Frame.leaving] using hmem
  | leave he => exact ⟨hsome, nofun⟩

/-- The agent is in `agent_map_`. -/
def InMap (r : Roster) (a : AgentId) : Prop :=
  ∃ g, r.crew.agents a = some g ∧ g.registered = true

theorem inMap_register (hs : r.Sane) (o : ObjectId) :
    InMap { r with crew := r.crew.register o } a ↔ r.InMap a ∨
      r.crew.gameObjects o = none ∧ a = r.crew.agentIdCount + 1 := by
  unfold InMap Crew.register
  cases ho : r.crew.gameObjects o with
  | some b => simp
  | none =>
    by_cases ha : a = r.crew.agentIdCount + 1
    · subst ha
      simp [hs.fresh]
    · simp [ha]

theorem inMap_unregister (hs : r.Sane) (b : AgentId) :
    InMap { r with crew := r.crew.unregister b r.inStep } a ↔ r.InMap a ∧ a ≠ b := by
  constructor
  · rintro ⟨g', hg', hr⟩
    cases ha : r.crew.agents a with
    | none =>
      rw [agents_unregister_none b r.inStep ha] at hg'
      cases hg'
    | some g =>
      obtain ⟨g'', hg'', hiff⟩ := agents_unregister hs b r.inStep ha
      obtain rfl := Option.some.inj (hg'.symm.trans hg'')
      exact ⟨⟨g, ha, (hiff.mp hr).1⟩, (hiff.mp hr).2⟩
  · rintro ⟨⟨g, hg, hr⟩, hne⟩
    obtain ⟨g', hg', hiff⟩ := agents_unregister hs b r.inStep hg
    exact ⟨g', hg', hiff.mpr ⟨hr, hne⟩⟩

/-- **Who is in `agent_map_`**: those that were there and are not unregistered, and the new
one. -/
theorem inMap_move (hm : Move act r r') (hs : r.Sane) :
    r'.InMap a ↔ (r.InMap a ∧ act ≠ .op (.unregister a)) ∨
      ∃ o, act = .op (.register o) ∧ r.crew.gameObjects o = none ∧ a = r.crew.agentIdCount + 1 := by
  cases hm with
  | register o =>
    rw [inMap_register hs]
    simp
  | unregister b =>
    rw [inMap_unregister hs]
    simp [eq_comm]
  | @released _ b as he =>
    -- The agent that is deleted is in no map.
    have hgone : ¬r.InMap b := by
      have hmem : b ∈ r.doomed ++ r.crew.nextDestroying := by
        rw [doomed, he, if_neg nofun]
        exact List.mem_cons_self
      obtain ⟨g, hg, hreg⟩ := (hs.pending b).2.mp hmem
      rintro ⟨g', hg', hr⟩
      obtain rfl := Option.some.inj (hg.symm.trans hg')
      rw [hreg] at hr
      cases hr
    have hiff : InMap { r with
        exits := [.dying as], crew := r.crew.destroy b, deleted := b :: r.deleted } a ↔
          r.InMap a := by
      by_cases hab : a = b
      · subst hab
        refine ⟨fun ⟨g, hg, _⟩ => ?_, fun h => absurd h hgone⟩
        exact nomatch (Function.update_self ..).symm.trans hg
      · have hat : (r.crew.destroy b).agents a = r.crew.agents a := Function.update_of_ne hab ..
        unfold InMap
        rw [hat]
    rw [hiff]
    simp
  | step | dying | release | leave =>
    exact ⟨fun h => .inl ⟨h, nofun⟩, fun h => h.elim (·.1) fun ⟨_, ho, _⟩ => nomatch ho⟩

end Roster

/-! ### The calls of a step -/

namespace Desk

/-- The calls of `DyingAgents::Step` that can be in progress. -/
inductive Exits : List Frame → Prop
  | none : Exits []
  | dying (as) : Exits [.dying as]
  | release (a as) : Exits [.release a, .dying as]

/-- A step has a phase as long as it is under way. -/
structure Phased (d : Desk) : Prop where
  inStep : d.inStep = d.calls.any (·.isPhase)
  exits : Exits (d.calls.filter (·.isExit))

variable {d d' : Desk} {f : Frame} {rest : List Frame}

/-- There is no other phase below a phase. -/
theorem OnTime.no_phase (ho : d.OnTime) (hc : d.calls = f :: rest) (hf : f.isPhase = true) :
    rest.any (·.isPhase) = false := by
  have hp := ho.phase
  rw [hc, List.countP_cons_of_pos hf] at hp
  have h0 : rest.countP (·.isPhase) = 0 := Nat.eq_zero_of_le_zero (Nat.le_of_succ_le_succ hp)
  rw [List.any_eq_false]
  exact fun g hg => List.countP_eq_zero.mp h0 g hg

/-- Without a phase no agent is being deleted. -/
theorem Exits.nil_of_no_phase (he : Exits (rest.filter (·.isExit)))
    (hr : rest.any (·.isPhase) = false) : rest.filter (·.isExit) = [] := by
  have hno : ∀ as, Frame.dying as ∉ rest.filter (·.isExit) := by
    intro as hmem
    exact List.any_eq_false.mp hr _ (List.mem_filter.mp hmem).1 rfl
  generalize rest.filter (·.isExit) = fs at he hno
  cases he with
  | none => rfl
  | dying as => exact absurd List.mem_cons_self (hno as)
  | release a as => exact absurd (List.mem_cons_of_mem _ List.mem_cons_self) (hno as)

/-- The exits below a call that is none. -/
theorem Phased.tail (hp : d.Phased) (hc : d.calls = f :: rest) (hf : f.isExit = false) :
    Exits (rest.filter (·.isExit)) := by
  have he := hp.exits
  rwa [hc, List.filter_cons_of_neg (by rw [hf]; exact nofun)] at he

theorem Phased.move (hm : Move d d') (ho : d.OnTime) (hp : d.Phased) : d'.Phased := by
  cases hm with
  | made hmade => cases hmade <;> exact ⟨hp.inStep, hp.exits⟩
  | @delete f ev rest hc hf =>
    have hne : f.isPhase = false ∧ f.isExit = false := by
      cases f <;> simp_all [Frame.isPhase, Frame.isExit]
    refine ⟨hp.inStep.trans ?_, hp.tail hc hne.2⟩
    rw [hc, List.any_cons, hne.1, Bool.false_or]
  | step hc => exact ⟨rfl, .none⟩
  | @timersDone rest hc =>
    have he : Exits (rest.filter (·.isExit)) := hp.tail hc rfl
    exact ⟨hp.inStep.trans (by rw [hc]; rfl), he⟩
  | @switch rest hc =>
    have he : Exits (rest.filter (·.isExit)) := hp.tail hc rfl
    exact ⟨hp.inStep.trans (by rw [hc]; rfl), he⟩
  | take hc hq => exact ⟨hp.inStep, hp.exits⟩
  | @finish rest as hc hq =>
    refine ⟨hp.inStep.trans (by rw [hc]; rfl), ?_⟩
    have hnil := (hp.tail hc rfl).nil_of_no_phase (ho.no_phase hc rfl)
    rw [List.filter_cons_of_pos rfl, hnil]
    exact .dying as
  | @release rest a as hc =>
    refine ⟨hp.inStep.trans (by rw [hc]; rfl), ?_⟩
    have he := hp.exits
    rw [hc, List.filter_cons_of_pos rfl] at he
    rw [List.filter_cons_of_pos rfl, List.filter_cons_of_pos rfl]
    generalize rest.filter (·.isExit) = fs at he ⊢
    cases he
    exact .release a as
  | @released rest a hc =>
    refine ⟨hp.inStep.trans (by rw [hc]; rfl), ?_⟩
    have he := hp.exits
    rw [hc, List.filter_cons_of_pos rfl] at he
    generalize hg : rest.filter (·.isExit) = fs at he
    cases he with
    | release _ as => exact .dying as
  | @leave rest hc =>
    have hno := ho.no_phase hc rfl
    have he := hp.exits
    rw [hc, List.filter_cons_of_pos rfl] at he
    generalize hg : rest.filter (·.isExit) = fs at he
    cases he with
    | dying _ => exact ⟨hno.symm, hg ▸ .none⟩

end Desk

namespace State

variable {cfg : Config} {s t : State} {act : Act} {a : AgentId} {o : ObjectId} {rest : List Frame}

theorem exits_desk (s : State) : s.desk.calls.filter (·.isExit) = s.roster.exits := by
  have hf : ∀ fs : List Frame,
      (fs.filter (·.isDesk)).filter (·.isExit) = fs.filter (·.isExit) := by
    intro fs
    rw [List.filter_filter]
    refine List.filter_congr fun f _ => ?_
    cases f <;> rfl
  exact hf s.frames

/-- Nothing happens to the roster when the crew and the calls that delete agents stay. -/
theorem roster_of_frames (hk : t.heap.crew = s.heap.crew)
    (hf : t.frames.filter (·.isExit) = s.frames.filter (·.isExit)) (hin : t.inStep = s.inStep)
    (hd : t.deleted = s.deleted) : t.roster = s.roster := by
  unfold roster
  rw [hk, hf, hin, hd]

theorem roster_of_desk (hk : t.heap.crew = s.heap.crew) (hd : t.desk = s.desk) :
    t.roster = s.roster := by
  refine roster_of_frames hk ?_ (congrArg Desk.inStep hd :) (congrArg Desk.deleted hd :)
  have he := exits_desk t
  rw [hd, exits_desk] at he
  exact he.symm

/-- Making an event does not delete an agent. -/
theorem roster_of_posts (hk : t.heap.crew = s.heap.crew) (hp : s.Posts t) :
    t.roster = s.roster := by
  rcases hp with hd | hm
  · exact roster_of_desk hk hd
  have hcalls : ∀ d d', Desk.Made d d' → d'.calls.filter (·.isExit) = d.calls.filter (·.isExit) ∧
      d'.inStep = d.inStep ∧ d'.deleted = d.deleted := by
    intro d d' hm
    cases hm <;> exact ⟨rfl, rfl, rfl⟩
  obtain ⟨he, hin, hd⟩ := hcalls _ _ hm
  rw [exits_desk, exits_desk] at he
  exact roster_of_frames hk he hin hd

/-- A call that deletes no agent is over. -/
theorem exits_of_pop {f : Frame} (hf : s.frames = f :: rest) (he : f.isExit = false) :
    rest.filter (·.isExit) = s.frames.filter (·.isExit) := by
  rw [hf, List.filter_cons_of_neg (by rw [he]; exact nofun)]

/-- Frames, flags and crew of the phases of `DyingAgents::Step`. -/
theorem roster_of_dyingRound {as : List AgentId} (he : Desk.Exits s.roster.exits)
    (hf : s.frames = .dying as :: rest) :
    Roster.Move .tau s.roster (s.dyingRound as rest).roster := by
  have hexits : s.roster.exits = .dying as :: rest.filter (·.isExit) := by
    change s.frames.filter (·.isExit) = _
    rw [hf, List.filter_cons_of_pos rfl]
  rw [hexits] at he
  generalize hg : rest.filter (·.isExit) = fs at he hexits
  cases he with
  | dying _ =>
    cases as with
    | nil =>
      have ht : (s.dyingRound [] rest).roster =
          { s.roster with exits := [], crew := s.roster.crew.swapDying, inStep := false } := by
        simp only [dyingRound, roster, hg]
        rfl
      rw [ht]
      exact .leave hexits
    | cons a as =>
      have ht : (s.dyingRound (a :: as) rest).roster =
          { s.roster with exits := [.release a, .dying as] } := by
        change Roster.mk s.heap.crew (.release a :: .dying as :: rest.filter (·.isExit)) s.inStep
          s.deleted = _
        rw [hg]
        rfl
      rw [ht]
      exact .release hexits

theorem roster_of_released (he : Desk.Exits s.roster.exits) (hf : s.frames = .release a :: rest) :
    Roster.Move .done s.roster (s.released cfg a rest).roster := by
  have hexits : s.roster.exits = .release a :: rest.filter (·.isExit) := by
    change s.frames.filter (·.isExit) = _
    rw [hf, List.filter_cons_of_pos rfl]
  rw [hexits] at he
  generalize hg : rest.filter (·.isExit) = fs at he hexits
  cases he with
  | release _ as =>
    have ht : (s.released cfg a rest).roster = { s.roster with
        exits := [.dying as], crew := s.roster.crew.destroy a,
        deleted := a :: s.roster.deleted } := by
      simp only [released, mapHeap, roster, hg, Heap.crew_destroyAgent]
    rw [ht]
    exact .released hexits

/-- No agent is touched, or the action is one that does. -/
theorem crew_of_step (hw : s.Wf) (h : s.step cfg act = some t) (hp : ¬s.Permits act .agents) :
    t.heap.crew = s.heap.crew := by
  have hd : Heap.Does (fun _ => True) (s.Permits act) (fun _ => False) s.heap t.heap :=
    does_of_step (fun _ _ => trivial) hw h fun _ hp => hp
  exact Heap.crew_of_does hd hp

/-- **A step of the machine, as the roster sees it.** -/
theorem roster_of_step (hw : s.Wf) (ho : s.desk.OnTime) (hp : s.desk.Phased)
    (h : s.step cfg act = some t) :
    (t.roster = s.roster ∧ (∀ o, act ≠ .op (.register o)) ∧ ∀ a, act ≠ .op (.unregister a)) ∨
      Roster.Move act s.roster t.roster := by
  have he : Desk.Exits s.roster.exits := exits_desk s ▸ hp.exits
  have hk := crew_of_step hw h
  -- A step that is no call of the API.
  have hquiet : (∀ o, act ≠ .op o) → t.roster = s.roster →
      (t.roster = s.roster ∧ (∀ o, act ≠ .op (.register o)) ∧ ∀ a, act ≠ .op (.unregister a)) ∨
        Roster.Move act s.roster t.roster :=
    fun hop hr => .inl ⟨hr, fun _ => hop _, fun _ => hop _⟩
  cases (trans_of_step h).1 with
  | enter hf =>
    exact hquiet (by simp) (roster_of_posts (hk (by simp [Permits, hf])) (posts_enterFlow hf))
  | continuing hf =>
    exact hquiet (by simp) (roster_of_desk (hk (by simp [Permits, hf])) (desk_continueFlow hf))
  | starting hf => exact hquiet (by simp) (roster_of_frames rfl (exits_of_pop hf rfl) rfl rfl)
  | flow hf =>
    exact hquiet (by simp) (roster_of_desk (hk (by simp [Permits, hf])) (desk_flowRound hf))
  | ran hf =>
    refine hquiet (by simp) (roster_of_frames (hk (by simp [Permits, hf])) ?_ rfl rfl)
    rw [hf]
    rfl
  | ended hf =>
    exact hquiet (by simp) (roster_of_desk (hk (by simp [Permits, hf])) (desk_flowCheck hf))
  | flowReturn hf =>
    refine hquiet (by simp) (roster_of_frames (hk (by simp [Permits, hf])) ?_ rfl rfl)
    exact exits_of_pop hf rfl
  | returning hf =>
    refine hquiet (by simp) (roster_of_desk (hk (by simp [Permits, hf])) ?_)
    exact (desk_finishReturn ..).trans (desk_pop hf rfl)
  | handle hf =>
    exact hquiet (by simp) (roster_of_desk (hk (by simp [Permits, hf])) (desk_handleRound hf))
  | trigger hf => exact hquiet (by simp) (roster_of_frames rfl (exits_of_pop hf rfl) rfl rfl)
  | @async rest hf =>
    refine hquiet (by simp) ?_
    have hk' := hk (by simp [Permits, hf])
    unfold asyncRound at hk' ⊢
    split at hk'
    · exact roster_of_frames hk' (by rw [hf]; rfl) rfl rfl
    · exact roster_of_frames hk' rfl rfl rfl
  | @events rest hf =>
    have hk' := hk (by simp [Permits, hf])
    have hexits : s.roster.exits = [] := by
      have hc : s.desk.calls = .events :: rest.filter (·.isDesk) := calls_desk hf rfl
      have hnil := (hp.tail hc rfl).nil_of_no_phase (ho.no_phase hc rfl)
      rw [← exits_desk, hc, List.filter_cons_of_neg (by simp [Frame.isExit]), hnil]
    have hin : s.inStep = true := by
      have hph := hp.inStep
      rw [calls_desk hf rfl] at hph
      exact hph
    unfold eventsRound at hk' ⊢
    split
    · refine .inr ?_
      have ht : ({ s with frames := .dying s.heap.destroying :: rest } : State).roster =
          { s.roster with exits := [.dying s.roster.crew.destroying] } := by
        have hrest : rest.filter (·.isExit) = [] := (exits_of_pop hf rfl).trans hexits
        change Roster.mk s.heap.crew (.dying s.heap.destroying :: rest.filter (·.isExit)) s.inStep
          s.deleted = _
        rw [hrest]
        rfl
      rw [ht]
      exact .dying hexits hin
    · rename_i ev evs hq
      rw [hq] at hk'
      refine .inl ⟨roster_of_frames hk' ?_ ?_ ?_, by simp, by simp⟩
      all_goals
        dsimp only
        split <;> rfl
  | deleteEvent hf => exact hquiet (by simp) (roster_of_frames rfl (exits_of_pop hf rfl) rfl rfl)
  | dying hf => exact .inr (roster_of_dyingRound he hf)
  | released hf => exact .inr (roster_of_released he hf)
  | @op o _ hm hop =>
    by_cases hr : ∃ b, o = .register b
    · obtain ⟨b, rfl⟩ := hr
      cases hop
      have ht : (s.mapHeap (·.register b)).roster =
          { s.roster with crew := s.roster.crew.register b } := by
        simp only [roster, mapHeap, Heap.crew_register]
      rw [ht]
      exact .inr (.register b)
    by_cases hu : ∃ a, o = .unregister a
    · obtain ⟨a, rfl⟩ := hu
      cases hop
      have ht : (s.mapHeap (·.unregisterGameObject a s.inStep)).roster =
          { s.roster with crew := s.roster.crew.unregister a s.roster.inStep } := by
        simp only [roster, mapHeap, Heap.crew_unregister]
      rw [ht]
      exact .inr (.unregister a)
    have hk' : t.heap.crew = s.heap.crew := by
      refine hk ?_
      cases o <;> first | exact id | exact absurd ⟨_, rfl⟩ hr | exact absurd ⟨_, rfl⟩ hu
    by_cases hstep : o = .step
    · subst hstep
      cases hop
      have hf : s.frames = [] := frames_of_step_call hm
      refine .inr (.step ?_ ?_)
      · change s.frames.filter (·.isExit) = []
        rw [hf]
        rfl
      · refine (hp.inStep :).trans ?_
        change (s.frames.filter (·.isDesk)).any (·.isPhase) = false
        rw [hf]
        rfl
    · refine .inl ⟨roster_of_posts hk' (posts_runOp hstep hop), ?_, ?_⟩
      · rintro b ⟨⟩
        exact hr ⟨b, rfl⟩
      · rintro a ⟨⟩
        exact hu ⟨a, rfl⟩
  | ret r hf =>
    refine hquiet (by simp) (roster_of_frames (hk (by simp [Permits])) ?_ rfl rfl)
    rw [hf]
    rfl
  | done hf => exact hquiet (by simp) (roster_of_frames rfl (exits_of_pop hf rfl) rfl rfl)
  | fire hf hn =>
    exact hquiet (by simp) (roster_of_frames (hk (by simp [Permits])) rfl rfl rfl)
  | tick hf ha =>
    exact hquiet (by simp) (roster_of_posts (hk (by simp [Permits])) (posts_event ..))
  | timersDone hf =>
    refine hquiet (by simp) (roster_of_frames rfl ?_ rfl rfl)
    rw [hf]
    rfl

/-! ### The life cycle -/

/-- The agent is in `agent_map_`. -/
def InMap (s : State) (a : AgentId) : Prop := ∃ g, s.heap.agents a = some g ∧ g.registered = true

/-- `Register` has made the agent, and it has left `agent_map_`. -/
def Unregistered (s : State) (a : AgentId) : Prop :=
  (1 ≤ a ∧ a ≤ s.heap.agentIdCount) ∧ ¬s.InMap a

/-- What the life of the agents rests on. -/
structure Manned (s : State) : Prop where
  wf : s.Wf
  onTime : s.desk.OnTime
  phased : s.desk.Phased
  sane : s.roster.Sane

theorem manned_init : init.Manned where
  wf := wf_init
  onTime := Desk.orderly_init.onTime
  phased := ⟨rfl, .none⟩
  sane := Roster.sane_init

theorem manned_of_step (hm : s.Manned) (ho : s.desk.Orderly) (h : s.step cfg act = some t) :
    t.Manned where
  wf := wf_of_step hm.wf h
  onTime := ((serves_of_step h).orderly ho).onTime
  phased := by
    rcases serves_of_step h with hd | hd
    · rw [hd]
      exact hm.phased
    · exact hm.phased.move hd hm.onTime
  sane := by
    rcases roster_of_step hm.wf hm.onTime hm.phased h with ⟨hr, -⟩ | hr
    · rw [hr]
      exact hm.sane
    · exact hm.sane.move hr

theorem manned_of_reachable (h : Reachable cfg s) : s.Manned :=
  (h.invariant (I := fun s => s.Manned ∧ s.desk.Orderly) ⟨manned_init, Desk.orderly_init⟩
    fun _ _ _ hi _ hs => ⟨manned_of_step hi.1 hi.2 hs, (serves_of_step hs).orderly hi.2⟩).1

/-- What the roster keeps in every move, every step keeps. -/
theorem roster_of_steps {K : State → Act → Prop} {I : Roster → Prop} (h : Reachable cfg s)
    (hst : Run.Steps (step cfg) K s t) (h0 : I s.roster)
    (hmove : ∀ (u : State) act r, K u act → u.roster.Sane → I u.roster →
      Roster.Move act u.roster r → I r) : I t.roster := by
  have hI := hst.invariant (I := fun u => Reachable cfg u ∧ I u.roster) ⟨h, h0⟩ ?_
  · exact hI.2
  rintro u act v ⟨hu, hi⟩ hK hs
  refine ⟨hu.tail trivial hs, ?_⟩
  have hm := manned_of_reachable hu
  rcases roster_of_step hm.wf hm.onTime hm.phased hs with ⟨hr, -⟩ | hr
  · rw [hr]
    exact hi
  · exact hmove u act _ hK hm.sane hi hr

theorem inMap_iff : s.roster.InMap a ↔ s.InMap a := by
  constructor
  · rintro ⟨g, hg, hr⟩
    obtain ⟨g', hg', rfl⟩ := Option.map_eq_some_iff.mp hg
    exact ⟨g', hg', hr⟩
  · rintro ⟨g, hg, hr⟩
    exact ⟨g.bare, Option.map_eq_some_iff.mpr ⟨g, hg, rfl⟩, hr⟩

theorem gone_iff : s.roster.Gone a ↔ s.Unregistered a := by
  rw [Unregistered, ← inMap_iff]
  refine and_congr Iff.rfl ?_
  constructor
  · rintro hall ⟨g, hg, hr⟩
    rw [hall g hg] at hr
    cases hr
  · intro hno g hg
    exact Bool.eq_false_iff.mpr fun hr => hno ⟨g, hg, hr⟩

/-- An event of an agent that is in no map has nobody to wake. -/
theorem heap_eventsRound {ev : Event} {evs : List Event} (ha : ¬s.InMap ev.agent)
    (hq : s.queue.outList = ev :: evs) : (s.eventsRound cfg rest).heap = s.heap ∧
      (s.eventsRound cfg rest).frames = .deleteEvent ev :: s.frames := by
  have hno : (s.heap.agents ev.agent).any (·.registered) = false := by
    refine Bool.eq_false_iff.mpr fun hany => ha ?_
    obtain ⟨g, hg, hr⟩ := (Option.any_eq_true _ _).mp hany
    exact ⟨g, hg, hr⟩
  unfold eventsRound
  rw [hq]
  have hnone : ∀ u : State, u.heap = s.heap → u.waitingNodes cfg ev.agent ev.id = [] := by
    intro u hu
    rw [waitingNodes, hu, hno]
    rfl
  simp only [hnone (({ s with queue := { s.queue with outList := evs } }.qnote
    (.handled ev s.switches)).call (.deleteEvent ev)) rfl, ↓reduceIte]
  exact ⟨rfl, rfl⟩

theorem inMap_of_step (hm : s.Manned) (h : s.step cfg act = some t) (a : AgentId) :
    t.InMap a ↔ (s.InMap a ∧ act ≠ .op (.unregister a)) ∨
      ∃ o, act = .op (.register o) ∧ s.heap.gameObjects o = none ∧ a = s.heap.agentIdCount + 1 := by
  rw [← inMap_iff, ← inMap_iff]
  rcases roster_of_step hm.wf hm.onTime hm.phased h with ⟨hr, hno, hnu⟩ | hr
  · rw [hr]
    exact ⟨fun h => .inl ⟨h, hnu a⟩, fun h => h.elim (·.1) fun ⟨o, ho, _⟩ => absurd ho (hno o)⟩
  · exact Roster.inMap_move hr hm.sane

/-- **The life cycle of agents.** In every reachable state the two maps are each other's
inverse; `agent_map_` holds the agents that were registered and not unregistered since;
an agent that was unregistered never comes back, and an event of it that is still queued
wakes nobody; an agent is deleted at most once, and not before it is unregistered; an agent
that is registered during a step outlives the step; and one that was unregistered before a
step is deleted at its end. -/
theorem lifecycle (h : Reachable cfg s) :
    (∀ o a, s.heap.gameObjects o = some a ↔
      ∃ g, s.heap.agents a = some g ∧ g.registered = true ∧ g.object = o) ∧
    (∀ a, s.InMap a → 1 ≤ a ∧ a ≤ s.heap.agentIdCount) ∧
    (∀ act t, s.step cfg act = some t → ∀ a, t.InMap a ↔
      (s.InMap a ∧ act ≠ .op (.unregister a)) ∨ ∃ o, act = .op (.register o) ∧
        s.heap.gameObjects o = none ∧ a = s.heap.agentIdCount + 1) ∧
    (∀ a, s.Unregistered a → ∀ t, Run.Reaches (step cfg) s t → t.Unregistered a ∧
      ∀ ev evs rest, ev.agent = a → t.frames = .events :: rest → t.queue.outList = ev :: evs →
        (t.eventsRound cfg rest).heap = t.heap ∧
        (t.eventsRound cfg rest).frames = .deleteEvent ev :: t.frames) ∧
    (∀ a, s.deleted.count a ≤ 1 ∧
      (a ∈ s.deleted ↔ s.Unregistered a ∧ s.heap.agents a = none)) ∧
    (∀ a, s.InMap a → ∀ t, Run.Steps (step cfg) (fun u _ => u.inStep = true) s t →
      (t.heap.agents a).isSome) ∧
    (∀ a, s.Unregistered a → s.inStep = false → ∀ u t, s.step cfg (.op .step) = some u →
      Run.Reaches (step cfg) u t → t.inStep = false → a ∈ t.deleted) := by
  have hm := manned_of_reachable h
  have hs := hm.sane
  have hnone : ∀ a, s.roster.crew.agents a = none ↔ s.heap.agents a = none :=
    fun a => Option.map_eq_none_iff
  refine ⟨?_, ?_, fun act t ht a => inMap_of_step hm ht a, ?_, ?_, ?_, ?_⟩
  · intro o a
    refine (hs.bijective o a).trans ⟨?_, ?_⟩
    · rintro ⟨g, hg, hr, ho⟩
      obtain ⟨g', hg', rfl⟩ := Option.map_eq_some_iff.mp hg
      exact ⟨g', hg', hr, ho⟩
    · rintro ⟨g, hg, hr, ho⟩
      exact ⟨g.bare, Option.map_eq_some_iff.mpr ⟨g, hg, rfl⟩, hr, ho⟩
  · intro a ha
    obtain ⟨g, hg, -⟩ := inMap_iff.mpr ha
    exact hs.counted a (Option.isSome_of_eq_some hg)
  · intro a ha t ht
    have hgone := roster_of_steps (I := (·.Gone a)) h ht (gone_iff.mpr ha)
      fun u act r _ hsane hi hmove => Roster.Gone.move hmove hsane hi
    have hun : t.Unregistered a := gone_iff.mp hgone
    refine ⟨hun, ?_⟩
    rintro ev evs rest rfl - hq
    exact heap_eventsRound hun.2 hq
  · intro a
    refine ⟨(hs.deleted a).1, (hs.deleted a).2.trans ?_⟩
    rw [hnone]
    constructor
    · rintro ⟨hle, hno⟩
      refine ⟨⟨hle, ?_⟩, hno⟩
      rintro ⟨g, hg, -⟩
      rw [hno] at hg
      cases hg
    · rintro ⟨⟨hle, -⟩, hno⟩
      exact ⟨hle, hno⟩
  · intro a ha t ht
    have hkept : s.roster.Kept a := by
      obtain ⟨g, hg, hr⟩ := inMap_iff.mpr ha
      refine ⟨Option.isSome_of_eq_some hg, fun _ hmem => ?_⟩
      obtain ⟨g', hg', hr'⟩ := (hs.pending a).2.mp (List.mem_append_left _ hmem)
      obtain rfl := Option.some.inj (hg.symm.trans hg')
      rw [hr] at hr'
      cases hr'
    have hkt := roster_of_steps (I := (·.Kept a)) h ht hkept
      fun u act r hin hsane hi hmove => Roster.Kept.move hmove hsane hin hi
    have hsome : ((t.heap.agents a).map Agent.bare).isSome := hkt.1
    rwa [Option.isSome_map] at hsome
  · intro a ha hin u t hu ht hout
    have hleave : u.roster.Leaving a := by
      cases (trans_of_step hu).1 with
      | op _ hop =>
        cases hop
        exact Roster.leaving_of_gone hs hin (gone_iff.mpr ha)
    have hlt := roster_of_steps (I := (·.Leaving a)) (h.tail trivial hu) ht hleave
      fun u act r _ _ hi hmove => Roster.Leaving.move hmove hi
    rcases hlt with hmem | ⟨hin', -⟩
    · exact hmem
    · exact nomatch hin'.symm.trans hout

/-- An object is registered, unregistered and registered again before a step. -/
def registerActs : List Act :=
  [.op (.register 0), .op (.unregister 1), .op (.register 0), .op .step, .timersDone, .done]

/-- The object has a new agent, the old one is deleted, once. -/
theorem lifecycle_registered_again : ∃ s, Reachable {} s ∧ s.inStep = false ∧ s.InMap 2 ∧
    s.deleted.count 1 = 1 ∧ ∀ t, Run.Reaches (step {}) s t → ¬t.InMap 1 := by
  obtain ⟨s, hs, hin, hgo, hd⟩ := exists_of_play {} registerActs
    (fun s => s.inStep = false ∧ s.heap.gameObjects 0 = some 2 ∧ s.deleted = [1])
    (by decide +kernel)
  obtain ⟨hobj, -, -, hgone, hdel, -⟩ := lifecycle hs
  obtain ⟨g, hg, hr, -⟩ := (hobj 0 2).mp hgo
  have hun : s.Unregistered 1 := ((hdel 1).2.mp (by rw [hd]; exact List.mem_cons_self)).1
  exact ⟨s, hs, hin, ⟨g, hg, hr⟩, by rw [hd]; rfl, fun t ht => (hgone 1 hun t ht).1.2⟩

end State

end Asyncflow
