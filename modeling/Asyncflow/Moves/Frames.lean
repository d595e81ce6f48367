import Asyncflow.Core.Manager

/-!
# The calls a step pushes

What the functions of the manager leave on the call stack. A call of the API leaves it as it
is or pushes one of a few pairs of calls, `Asyncflow.Pushes`.
-/

namespace Asyncflow

/-- The calls that are not on behalf of a flow of their own. -/
def Frame.isCall : Frame → Prop
  | .flow _ _ _ _ | .ended _ _ _ | .flowReturn _ _ | .func _ | .ran _ => False
  | _ => True

instance : DecidablePred Frame.isCall := fun f => by
  apply @Frame.casesOn (fun f => Decidable (f.isCall)) f <;> intros <;>
    unfold Frame.isCall <;> infer_instance

/-- The node a flow is to start from. -/
def Frame.entry? : Frame → Option NodeRef
  | .enter n | .continuing n => some n
  | .starting _ c => some ⟨c, 0⟩
  | _ => none

/-- What a call of the API leaves on the call stack. What is pushed starts, if at all, from a
node with the property. -/
inductive Pushes (P : NodeRef → Prop) (fs : List Frame) : List Frame → Prop
  | same : Pushes P fs fs
  | start {a c} : P ⟨c, 0⟩ → Pushes P fs (.enter ⟨c, 0⟩ :: .starting a c :: fs)
  | trigger {p ev} : Pushes P fs (.handle ev :: .trigger p ev :: fs)
  | returning {c} : Pushes P fs (.returning c :: fs)
  | continuing {o c} : P o → Pushes P fs (.continuing o :: .returning c :: fs)
  | step : Pushes P fs (.timers :: fs)

section Pushes

variable {P : NodeRef → Prop} {fs gs : List Frame} {f : Frame}

theorem Pushes.mem (hp : Pushes P fs gs) (hf : f ∈ fs) : f ∈ gs := by
  cases hp <;> simp [hf]

theorem Pushes.entry (hp : Pushes P fs gs) (hf : f ∈ gs) :
    f ∈ fs ∨ ∀ n, f.entry? = some n → P n := by
  cases hp with
  | same => exact .inl hf
  | start hP =>
    rcases List.mem_cons.mp hf with rfl | hf
    · refine .inr fun n hn => ?_
      cases hn
      exact hP
    · rcases List.mem_cons.mp hf with rfl | hf
      · refine .inr fun n hn => ?_
        cases hn
        exact hP
      · exact .inl hf
  | continuing hP =>
    rcases List.mem_cons.mp hf with rfl | hf
    · refine .inr fun n hn => ?_
      cases hn
      exact hP
    · rcases List.mem_cons.mp hf with rfl | hf
      · exact .inr nofun
      · exact .inl hf
  | trigger =>
    rcases List.mem_cons.mp hf with rfl | hf
    · exact .inr nofun
    · rcases List.mem_cons.mp hf with rfl | hf
      · exact .inr nofun
      · exact .inl hf
  | returning | step =>
    rcases List.mem_cons.mp hf with rfl | hf
    · exact .inr nofun
    · exact .inl hf

theorem Pushes.calls (hp : Pushes P fs gs) :
    ∃ es, gs = es ++ fs ∧ ∀ f ∈ es, f.isCall := by
  cases hp with
  | same => exact ⟨[], rfl, by simp⟩
  | @start a c _ => exact ⟨[.enter _, .starting a c], rfl, by simp [Frame.isCall]⟩
  | @trigger p ev => exact ⟨[.handle ev, .trigger p ev], rfl, by simp [Frame.isCall]⟩
  | @returning c => exact ⟨[.returning c], rfl, by simp [Frame.isCall]⟩
  | @continuing o c _ => exact ⟨[.continuing o, .returning c], rfl, by simp [Frame.isCall]⟩
  | step => exact ⟨[.timers], rfl, by simp [Frame.isCall]⟩

end Pushes

namespace State

variable {cfg : Config} {s t : State} {P : NodeRef → Prop}

theorem frames_startLater (s : State) (a : AgentId) (c : ChartId) :
    (s.startLater cfg a c).frames = s.frames := by
  unfold startLater event
  split <;> rfl

theorem frames_continueLater (s : State) (n : NodeRef) :
    (s.continueLater cfg n).frames = s.frames := by
  unfold continueLater event
  split
  · split <;> rfl
  · rfl

theorem pushes_event (s : State) (e : EventId) (a : AgentId) (immediate trigger : Bool) :
    Pushes P s.frames (s.event cfg e a immediate trigger).frames := by
  unfold event
  split
  · cases trigger with
    | false => exact .same
    | true =>
      simp only [↓reduceIte, triggerEvent]
      split
      · exact .same
      · split
        · exact .same
        · exact .trigger
  · exact .same

theorem pushes_startChart (s : State) (a : AgentId) (c : ChartId) (sync : Bool)
    (hP : s.heap.chartRunning c = false → P ⟨c, 0⟩) :
    Pushes P s.frames (s.startChart cfg a c sync).frames := by
  unfold startChart
  split
  · exact .same
  · cases sync with
    | true => exact .start (hP (Bool.eq_false_iff.mpr ‹_›))
    | false =>
      have hf := @frames_startLater cfg (s.mapHeap (·.markStarted c)) a c
      simp only [Bool.false_eq_true, if_false, hf]
      exact .same

/-- `Chart::Return` goes on with the owner node, if there is one. -/
theorem frames_of_chartReturn (s : State) (c : ChartId) (b : Bool) :
    (s.chartReturn c b).frames = .returning c :: s.frames ∨
      ∃ o, s.heap.ownerOf c = some o ∧
        (s.chartReturn c b).frames = .continuing o :: .returning c :: s.frames := by
  unfold chartReturn
  dsimp only
  split
  · exact .inl rfl
  · rename_i o ho
    exact .inr ⟨o, ho, rfl⟩

theorem pushes_chartReturn (s : State) (c : ChartId) (b : Bool)
    (hP : ∀ o, s.heap.ownerOf c = some o → P o) :
    Pushes P s.frames (s.chartReturn c b).frames := by
  rcases frames_of_chartReturn s c b with hf | ⟨o, ho, hf⟩ <;> rw [hf]
  · exact .returning
  · exact .continuing (hP o ho)

theorem frames_of_finishReturn (s : State) (c : ChartId) :
    (s.finishReturn c).frames = s.frames ∨ (s.finishReturn c).frames = .callback c :: s.frames := by
  unfold finishReturn
  dsimp only
  split
  · exact .inr rfl
  · exact .inl rfl

theorem pushed_finishReturn (s : State) (c : ChartId) :
    ∃ fs, (s.finishReturn c).frames = fs ++ s.frames ∧ ∀ f ∈ fs, f.isCall := by
  rcases frames_of_finishReturn s c with hf | hf
  · exact ⟨[], hf, by simp⟩
  · exact ⟨[.callback c], hf, by simp [Frame.isCall]⟩

theorem pushed_chartReturn (s : State) (c : ChartId) (b : Bool) :
    ∃ fs, (s.chartReturn c b).frames = fs ++ s.frames ∧ ∀ f ∈ fs, f.isCall :=
  (pushes_chartReturn (P := fun _ => True) s c b fun _ _ => trivial).calls

theorem pushed_event (s : State) (e : EventId) (a : AgentId) (immediate trigger : Bool) :
    ∃ fs, (s.event cfg e a immediate trigger).frames = fs ++ s.frames ∧ ∀ f ∈ fs, f.isCall :=
  (pushes_event (P := fun _ => True) s e a immediate trigger).calls

/-- What the caller does when `RunFlow` refuses. -/
theorem frames_of_refuse (s : State) (n : NodeRef) (rest : List Frame) :
    (s.refuse cfg n rest).frames = rest ∨
      ∃ a c, rest = .starting a c :: (s.refuse cfg n rest).frames := by
  unfold refuse
  dsimp only
  split
  · exact .inr ⟨_, _, by rw [frames_startLater]⟩
  · exact .inl (frames_continueLater ..)
  · exact .inl rfl

theorem frames_of_enterFlow {n : NodeRef} {rest : List Frame} (hf : s.frames = .enter n :: rest) :
    (s.enterFlow cfg n rest).frames <:+ s.frames ∨
      ∃ l, (s.enterFlow cfg n rest).frames = .flow l n.chart 0 false :: rest := by
  have hrest : rest <:+ s.frames := by
    rw [hf]
    exact List.suffix_cons ..
  unfold enterFlow
  dsimp only
  split
  · rcases @frames_of_refuse cfg s n rest with hr | ⟨a, c, hr⟩
    · rw [hr]
      exact .inl hrest
    · refine .inl (List.IsSuffix.trans ?_ hrest)
      exact ⟨[.starting a c], hr.symm⟩
  · split
    · exact .inl List.suffix_rfl
    · split
      · exact .inr ⟨_, rfl⟩
      · exact .inl hrest

theorem frames_of_continueFlow {n : NodeRef} {rest : List Frame}
    (hf : s.frames = .continuing n :: rest) : (s.continueFlow n rest).frames <:+ s.frames ∨
      (s.continueFlow n rest).frames = .enter n :: rest := by
  unfold continueFlow
  dsimp only
  split
  · exact .inl List.suffix_rfl
  · split
    · refine .inl ?_
      rw [hf]
      exact List.suffix_cons ..
    · exact .inr rfl

/-- A round of a flow enters no other flow. -/
theorem frames_of_flowRound (cfg : Config) (s : State) (l : ℕ) (c : ChartId) (k : ℕ) (r : Bool)
    (rest : List Frame) : ∃ gs, (s.flowRound cfg l c k r rest).frames = gs ++ rest ∧
      ∀ f ∈ gs, f.entry? = none := by
  have hone : ∀ f : Frame, f.entry? = none → ∀ g ∈ [f], g.entry? = none := by simp
  unfold flowRound
  split
  · exact ⟨[_], rfl, hone (.ended l c r) rfl⟩
  · split
    · exact ⟨[_], rfl, hone (.ended l c r) rfl⟩
    · split
      · exact ⟨[_], rfl, hone (.ended l c r) rfl⟩
      · split
        · exact ⟨[_], rfl, hone (.flow l c (k + 1) true) rfl⟩
        · split
          · exact ⟨[_], rfl, hone (.flow l c (k + 1) true) rfl⟩
          · unfold runNode
            dsimp only
            split
            · exact ⟨[.ran _, .flow l c (k + 1) r], rfl, by simp [Frame.entry?]⟩
            · split
              · exact ⟨[.ran _, .flow l c (k + 1) r], rfl, by simp [Frame.entry?]⟩
              · exact ⟨[.func _, .flow l c (k + 1) r], rfl, by simp [Frame.entry?]⟩
              · exact ⟨[.ran _, .flow l c (k + 1) r], rfl, by simp [Frame.entry?]⟩

theorem frames_of_handleRound (s : State) (rest : List Frame) :
    (s.handleRound rest).frames = rest ∨ ∃ r rs n ns, s.heap.handling = r :: rs ∧
      r.nodes = n :: ns ∧ (s.handleRound rest).frames = .enter n :: s.frames := by
  unfold handleRound
  split
  · exact .inl rfl
  · split
    · exact .inl rfl
    · exact .inr ⟨_, _, _, _, ‹_›, ‹_›, rfl⟩

theorem frames_of_asyncRound (s : State) (rest : List Frame) :
    (s.asyncRound rest).frames = .events :: rest ∨
      ∃ n ns, s.heap.activated = n :: ns ∧ (s.asyncRound rest).frames = .enter n :: s.frames := by
  unfold asyncRound
  split
  · exact .inl rfl
  · exact .inr ⟨_, _, ‹_›, rfl⟩

theorem frames_of_eventsRound (cfg : Config) (s : State) (rest : List Frame) :
    (∃ as, (s.eventsRound cfg rest).frames = .dying as :: rest) ∨
      (∃ ev, (s.eventsRound cfg rest).frames = .deleteEvent ev :: s.frames) ∨
      ∃ ev, (s.eventsRound cfg rest).frames = .handle ev :: .deleteEvent ev :: s.frames := by
  unfold eventsRound
  split
  · exact .inl ⟨_, rfl⟩
  · dsimp only
    split
    · exact .inr (.inl ⟨_, rfl⟩)
    · exact .inr (.inr ⟨_, rfl⟩)

theorem frames_of_dyingRound (s : State) (as : List AgentId) (rest : List Frame) :
    (s.dyingRound as rest).frames = rest ∨
      ∃ a as', (s.dyingRound as rest).frames = .release a :: .dying as' :: rest := by
  cases as with
  | nil => exact .inl rfl
  | cons a as => exact .inr ⟨a, as, rfl⟩

end State

end Asyncflow
