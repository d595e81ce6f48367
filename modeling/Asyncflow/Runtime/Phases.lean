import Asyncflow.Moves.CallStack
import Asyncflow.Runtime.EventQueue

/-!
# The phases of a step

`Manager::Step` is called from outside everything, so the call of one of its phases – the
timers, the async manager, the events, the dying agents – is the bottom of the call stack
(`Asyncflow.State.grounded_of_reachable`). When it is also the innermost call, or all calls
above it are calls that suspend no flow, no executor is in use.
-/

namespace Asyncflow

/-- Nothing is below a phase of a step. -/
def Grounded (fs : List Frame) : Prop := ∀ f rest, f :: rest <:+ fs → f.isPhase = true → rest = []

theorem Grounded.suffix {fs gs : List Frame} (hg : Grounded fs) (hs : gs <:+ fs) : Grounded gs :=
  fun f rest hf hp => hg f rest (hf.trans hs) hp

theorem grounded_singleton (f : Frame) : Grounded [f] := by
  intro g rest hs _
  have hl := hs.length_le
  rw [List.length_cons, List.length_singleton] at hl
  exact List.length_eq_zero_iff.mp (by omega)

/-- Calls that are no phases may be pushed. -/
theorem Grounded.append {fs gs : List Frame} (hg : Grounded fs)
    (hgs : ∀ f ∈ gs, f.isPhase = false) : Grounded (gs ++ fs) := by
  induction gs with
  | nil => exact hg
  | cons g gs ih =>
    intro f rest hs hp
    rcases List.suffix_cons_iff.mp hs with he | hs
    · obtain ⟨rfl, -⟩ := List.cons.inj he
      rw [hgs f (by simp)] at hp
      cases hp
    · exact ih (fun f hf => hgs f (by simp [hf])) f rest hs hp

namespace State

variable {cfg : Config} {s t : State} {a : Act} {f : Frame} {rest gs : List Frame}

theorem phases_of_pushes {P : NodeRef → Prop} {fs : List Frame} (hp : Pushes P fs gs) :
    (∃ ns, gs = ns ++ fs ∧ ∀ f ∈ ns, f.isPhase = false) ∨ gs = .timers :: fs := by
  cases hp with
  | same => exact .inl ⟨[], rfl, by simp⟩
  | @start a c => exact .inl ⟨[.enter ⟨c, 0⟩, .starting a c], rfl, by simp [Frame.isPhase]⟩
  | @trigger p ev => exact .inl ⟨[.handle ev, .trigger p ev], rfl, by simp [Frame.isPhase]⟩
  | @returning c => exact .inl ⟨[.returning c], rfl, by simp [Frame.isPhase]⟩
  | @continuing o c => exact .inl ⟨[.continuing o, .returning c], rfl, by simp [Frame.isPhase]⟩
  | step => exact .inr rfl

/-- Posting an event enters no phase. -/
theorem not_timers_of_posts (h : s.Posts t) : t.frames ≠ .timers :: s.frames := by
  intro hf
  have hc : t.desk.calls = .timers :: s.desk.calls := by
    show t.frames.filter (·.isDesk) = _
    rw [hf, List.filter_cons_of_pos rfl]
    rfl
  rcases h with h | h
  · rw [h] at hc
    exact List.cons_ne_self _ _ hc.symm
  · generalize t.desk = d' at h hc
    cases h with
    | queue _ | idle _ => exact List.cons_ne_self _ _ hc.symm
    | trigger _ _ => cases (List.cons.inj hc).1

theorem phases_of_flowRound (cfg : Config) (s : State) (l : ℕ) (c : ChartId) (k : ℕ) (r : Bool)
    (rest : List Frame) : ∃ gs, (s.flowRound cfg l c k r rest).frames = gs ++ rest ∧
      ∀ f ∈ gs, f.isPhase = false := by
  have hr := rounds cfg s l c k r rest
  generalize s.flowRound cfg l c k r rest = t at hr
  cases hr with
  | ends _ | cut _ _ => exact ⟨[.ended l c r], rfl, by simp [Frame.isPhase]⟩
  | waiting _ _ _ _ _ | defer _ _ _ _ _ _ =>
    exact ⟨[.flow l c (k + 1) true], rfl, by simp [Frame.isPhase]⟩
  | @run n ns _ _ _ _ _ =>
    have hn := runsNode { s with frames := .flow l c (k + 1) r :: rest } l n
    generalize State.runNode _ l n = t at hn
    cases hn with
    | skip | null | control =>
      exact ⟨[.ran n, .flow l c (k + 1) r], rfl, by simp [Frame.isPhase]⟩
    | script => exact ⟨[.func n, .flow l c (k + 1) r], rfl, by simp [Frame.isPhase]⟩

theorem grounded_of_step (hw : s.Wf) (hg : Grounded s.frames) (h : s.step cfg a = some t) :
    Grounded t.frames := by
  -- A step pops some calls and pushes others.
  have hnew : ∀ ns {fs}, t.frames = ns ++ fs → fs <:+ s.frames → (∀ f ∈ ns, f.isPhase = false) →
      Grounded t.frames := by
    intro ns fs hft hs hns
    rw [hft]
    exact (hg.suffix hs).append hns
  have hpush : (∃ ns, t.frames = ns ++ s.frames ∧ ∀ f ∈ ns, f.isPhase = false) →
      Grounded t.frames := fun ⟨ns, hns, hp⟩ => hnew ns hns List.suffix_rfl hp
  -- One phase follows another.
  have hphase : ∀ {f g rest}, s.frames = f :: rest → f.isPhase = true → t.frames = g :: rest →
      Grounded t.frames := by
    intro f g rest hf hp hft
    obtain rfl := hg f rest (hf ▸ List.suffix_rfl) hp
    rw [hft]
    exact grounded_singleton g
  have hsuf : ∀ {f rest}, s.frames = f :: rest → rest <:+ s.frames := by
    rintro f rest hf
    rw [hf]
    exact List.suffix_cons f rest
  cases (trans_of_step h).1 with
  | @enter n rest hf =>
    rcases @frames_of_enterFlow cfg s n rest hf with hr | ⟨l, hr⟩
    · exact hnew [] rfl hr nofun
    · exact hnew [.flow l n.chart 0 false] hr (hsuf hf) (by simp [Frame.isPhase])
  | @continuing n rest hf =>
    rcases frames_of_continueFlow hf with hr | hr
    · exact hnew [] rfl hr nofun
    · exact hnew [.enter n] hr (hsuf hf) (by simp [Frame.isPhase])
  | @flow l c k r rest hf =>
    obtain ⟨ns, hns, hp⟩ := phases_of_flowRound cfg s l c k r rest
    exact hnew ns hns (hsuf hf) hp
  | @ran n l c k r rest hf =>
    refine hnew [.flow l c k _] rfl ?_ (by simp [Frame.isPhase])
    rw [hf]
    exact (List.suffix_cons ..).trans (List.suffix_cons ..)
  | @ended l c r rest hf =>
    unfold flowCheck at hnew hphase ⊢
    split
    · rename_i hc
      rw [if_pos hc] at hnew
      rcases frames_of_chartReturn { s with frames := .flowReturn l c :: rest } c true with
        hr | ⟨o, -, hr⟩
      · exact hnew [.returning c, .flowReturn l c] hr (hsuf hf) (by simp [Frame.isPhase])
      · exact hnew [.continuing o, .returning c, .flowReturn l c] hr (hsuf hf)
          (by simp [Frame.isPhase])
    · rename_i hc
      rw [if_neg hc] at hnew
      exact hnew [] rfl (hsuf hf) nofun
  | @returning c rest hf =>
    rcases frames_of_finishReturn { s with frames := rest } c with hr | hr
    · exact hnew [] hr (hsuf hf) nofun
    · exact hnew [.callback c] hr (hsuf hf) (by simp [Frame.isPhase])
  | @handle ev rest hf =>
    rcases frames_of_handleRound s rest with hr | ⟨_, _, n, _, -, -, hr⟩
    · exact hnew [] hr (hsuf hf) nofun
    · exact hnew [.enter n] hr List.suffix_rfl (by simp [Frame.isPhase])
  | @async rest hf =>
    rcases frames_of_asyncRound s rest with hr | ⟨n, _, -, hr⟩
    · exact hphase hf rfl hr
    · exact hnew [.enter n] hr List.suffix_rfl (by simp [Frame.isPhase])
  | @events rest hf =>
    rcases frames_of_eventsRound cfg s rest with ⟨as, hr⟩ | ⟨ev, hr⟩ | ⟨ev, hr⟩
    · exact hphase hf rfl hr
    · exact hnew [.deleteEvent ev] hr List.suffix_rfl (by simp [Frame.isPhase])
    · exact hnew [.handle ev, .deleteEvent ev] hr List.suffix_rfl (by simp [Frame.isPhase])
  | @dying as rest hf =>
    rcases frames_of_dyingRound s as rest with hr | ⟨b, as', hr⟩
    · exact hnew [] hr (hsuf hf) nofun
    · obtain rfl := hg (.dying as) rest (hf ▸ List.suffix_rfl) rfl
      rw [hr]
      exact @Grounded.append [.dying as'] [.release b] (grounded_singleton _)
        (by simp [Frame.isPhase])
  | @op o t hm ho =>
    by_cases hstep : o = .step
    · subst hstep
      cases ho
      show Grounded (.timers :: s.frames)
      rw [frames_of_step_call hm]
      exact grounded_singleton _
    · rcases phases_of_pushes (pushes_runOp hw.born (ub_of_sound (sound_of_step h)) ho) with
        hp | hp
      · exact hpush hp
      · exact absurd hp (not_timers_of_posts (posts_runOp hstep ho))
  | @ret n rest r hf => exact hnew [.ran n] rfl (hsuf hf) (by simp [Frame.isPhase])
  | fire hf hn => exact hpush ⟨[.enter _], rfl, by simp [Frame.isPhase]⟩
  | @tick b rest hf ha =>
    rcases phases_of_pushes (P := fun _ => True) (pushes_event s cfg.tickEvent b false false) with
      hp | hp
    · exact hpush hp
    · exact absurd hp (not_timers_of_posts (posts_event s cfg.tickEvent b false false))
  | @timersDone rest hf => exact hphase hf rfl rfl
  | @starting _ _ rest hf | @flowReturn _ _ rest hf | @trigger _ _ rest hf
  | @deleteEvent _ rest hf | @released _ rest hf | @done _ rest hf =>
    exact hnew [] rfl (hsuf hf) nofun

/-- **A phase is the bottom of the call stack.** -/
theorem grounded_of_reachable (h : Reachable cfg s) : Grounded s.frames := by
  have hi := h.invariant (I := fun s => s.Wf ∧ Grounded s.frames) ⟨wf_init, ?_⟩
    fun u a v hi _ hs => ⟨wf_of_step hi.1 hs, grounded_of_step hi.1 hi.2 hs⟩
  · exact hi.2
  · intro f rest hs _
    have hl := hs.length_le
    simp [init] at hl

/-- Above a phase there are calls only: no flow is in progress. -/
theorem currentIndex_of_phase (h : Reachable cfg s) (hf : s.frames = gs ++ f :: rest)
    (hp : f.isPhase = true) (hgs : ∀ g ∈ gs, g.isCall) : s.heap.currentIndex = 0 := by
  have hrest : rest = [] := by
    refine grounded_of_reachable h f rest ?_ hp
    rw [hf]
    exact List.suffix_append ..
  have hcall : f.isCall := by cases f <;> trivial
  have hst := (shaped_of_reachable h).stacked
  rw [hf, hrest] at hst
  have hbase : ∀ {l}, Nest s.heap [f] l → l = 0 := by
    intro l hn
    cases hn.tail hcall with
    | nil => rfl
  cases gs with
  | nil => exact hbase (hst.nest_of_call hcall)
  | cons g gs =>
    have hn := (hst.nest_of_call (hgs g (by simp))).tail (hgs g (by simp))
    clear hst hf
    induction gs with
    | nil => exact hbase hn
    | cons g' gs ih =>
      refine ih (fun x hx => hgs x ?_) (hn.tail (hgs g' (by simp)))
      rcases List.mem_cons.mp hx with rfl | hx
      · simp
      · simp [hx]

end State

end Asyncflow
