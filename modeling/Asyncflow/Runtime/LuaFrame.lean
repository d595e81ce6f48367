import Asyncflow.Core.LuaManager
import Asyncflow.Moves.Registry
import Asyncflow.Runtime.Overflow

/-!
# The frame of a call of a Lua function

`LuaNodeFunc::call` takes the function table and the argument `self` from the top of the Lua
stack, where `LuaManager::RunFlow` has pushed them for the agent of the flow. A flow that
`Chart::Return` runs for an owner node is not run by `LuaManager::RunFlow`
(`Asyncflow.LuaManager.Bypasses`): it finds there what is on top when the chart returns.

`Asyncflow.LuaManager.Framed` says what is known of the windows of the Lua stack. Where a
flow is suspended in a node function, its frame is on top of the window below that of the
function; the innermost flow, while it runs, has it on top of the current window.
-/

namespace Asyncflow

/-! ### The agent of a chart -/

namespace Heap

variable {h h' : Heap} {c : ChartId} {a : AgentId} {n : NodeRef} {flows : ℕ → Prop}
  {may : Permit → Prop} {D : NodeRef → Prop}

/-- While the chart exists, it belongs to the agent. -/
def Serves (h : Heap) (c : ChartId) (a : AgentId) : Prop :=
  ∀ x, h.charts c = some x → x.agent = some a

theorem serves_of_outward (ho : h.Outward may h') (hc : c < h.nextChart) (hs : h.Serves c a) :
    h'.Serves c a := by
  intro x hx
  cases ho with
  | alike ha =>
    obtain ⟨y, hy, -⟩ := ha.charts c x hx
    have hya := hs y hy
    rcases ha.agent c y x hy hx with he | he
    · exact he.trans hya
    · rw [he] at hya
      cases hya
  | @started d y hy hne =>
    simp only [markStarted, hy, hne, ↓reduceIte] at hx
    have hx' : Function.update h.charts d ((h.charts d).map ({ · with status := .running })) c =
        some x := hx
    rcases eq_or_ne c d with rfl | hcd
    · rw [Function.update_self, hy] at hx'
      cases hx'
      exact hs y hy
    · rw [Function.update_of_ne hcd] at hx'
      exact hs x hx'
  | create d o =>
    have hx' : Function.update h.charts h.nextChart _ c = some x := hx
    rw [Function.update_of_ne (Nat.ne_of_lt hc)] at hx'
    exact hs x hx'
  | forget d =>
    have hx' : Function.update h.charts d none c = some x := hx
    rcases eq_or_ne c d with rfl | hcd
    · rw [Function.update_self] at hx'
      cases hx'
    · rw [Function.update_of_ne hcd] at hx'
      exact hs x hx'
  | load | patch | manage => exact hs x hx

theorem serves_of_move (hm : Move flows may D h h') (hc : c < h.nextChart) (hs : h.Serves c a) :
    h'.Serves c a := by
  rcases outer_of_move hm with ho | ho
  · intro x hx
    have hch : h'.outer.charts = h.outer.charts := congrArg Heap.charts ho
    have hx' : h.outer.charts c = some x := hch ▸ hx
    exact hs x hx'
  · exact serves_of_outward ho hc hs

/-- **A chart keeps its agent** as long as it exists. -/
theorem agentOf_of_does (hd : Does flows may D h h') (hb : h.Born) (ha : h.agentOf n = some a)
    (hn : (h'.charts n.chart).isSome) : h'.agentOf n = some a := by
  obtain ⟨x, hx, hxa⟩ := Option.bind_eq_some_iff.mp ha
  have hlt : n.chart < h.nextChart := hb.chart _ (by rw [hx]; rfl)
  have hs : h.Serves n.chart a := by
    intro y hy
    rw [hx] at hy
    cases hy
    exact hxa
  have hs' := Traced.Does.invariant
    (I := fun g => h.nextChart ≤ g.nextChart ∧ g.Serves n.chart a) hd
    (fun hm hi => ⟨Nat.le_trans hi.1 (nextChart_le_of_move hm),
      serves_of_move hm (Nat.lt_of_lt_of_le hlt hi.1) hi.2⟩) ⟨Nat.le_refl _, hs⟩
  obtain ⟨y, hy⟩ := Option.isSome_iff_exists.mp hn
  exact Option.bind_eq_some_iff.mpr ⟨y, hy, hs'.2 y hy⟩

end Heap

namespace LuaManager

/-! ### What is known of the windows -/

/-- The frame of the agent of the chart is on top of the window. -/
def Served (h : Heap) (c : ChartId) (w : List LuaValue) : Prop :=
  ∃ a, h.agentOf ⟨c, 0⟩ = some a ∧ frame a <+: w

/-- The windows below the current one, for the calls in progress. -/
inductive Laid (h : Heap) : List Frame → List (List LuaValue) → Prop
  | nil : Laid h [] []
  | func {n l k r fs w ws} : Served h n.chart w → Laid h fs ws →
      Laid h (.func n :: .flow l n.chart k r :: fs) (w :: ws)
  | callback {c fs w ws} : Laid h fs ws → Laid h (.callback c :: fs) (w :: ws)
  | call {f fs ws} : f.isCall → (∀ c, f ≠ .callback c) → Laid h fs ws → Laid h (f :: fs) ws
  | flowReturn {l c fs ws} : Laid h fs ws → Laid h (.flowReturn l c :: fs) ws

/-- While a chart returns at the end of its flow, the frame of the flow is still there. -/
def Returns (h : Heap) (w : List LuaValue) (fs : List Frame) : Prop :=
  ∀ f c l d rest, fs = f :: .returning c :: .flowReturn l d :: rest → f.isEntry →
    Served h c w

/-- **The windows of the Lua stack.** -/
inductive Framed (h : Heap) : List Frame → List (List LuaValue) → Prop
  | laid {fs w ws} : Laid h fs ws → Returns h w fs → Framed h fs (w :: ws)
  | flow {l c k r fs w ws} : Served h c w → Laid h fs ws →
      Framed h (.flow l c k r :: fs) (w :: ws)
  | ran {n l k r fs w ws} : Served h n.chart w → Laid h fs ws →
      Framed h (.ran n :: .flow l n.chart k r :: fs) (w :: ws)
  | ended {l c r fs w ws} : Served h c w → Laid h fs ws → Framed h (.ended l c r :: fs) (w :: ws)

variable {cfg : Config} {s t : State} {h h' : Heap} {m m' : LuaManager} {fs gs rest : List Frame}
  {w : List LuaValue} {ws : List (List LuaValue)} {a : AgentId} {c : ChartId} {n : NodeRef}
  {P : NodeRef → Prop}

theorem Laid.tail {f : Frame} (hl : Laid h (f :: fs) ws) (hf : f.isCall)
    (hc : ∀ c, f ≠ .callback c) :
    Laid h fs ws := by
  cases hl with
  | call _ _ hl => exact hl
  | callback => exact absurd rfl (hc _)
  | func | flowReturn => exact hf.elim

/-- No loop of a flow is on top. -/
theorem Laid.not_flow {l k : ℕ} {r : Bool} (hl : Laid h (.flow l c k r :: fs) ws) : False := by
  cases hl with
  | call hf => exact hf

theorem Laid.of_pushes (hl : Laid h fs ws) (hp : Pushes P fs gs) : Laid h gs ws := by
  cases hp with
  | same => exact hl
  | start | trigger | continuing => exact .call trivial nofun (.call trivial nofun hl)
  | returning | step => exact .call trivial nofun hl

theorem Laid.append (hl : Laid h fs ws) (hg : ∀ g ∈ gs, g.isCall ∧ ∀ c, g ≠ .callback c) :
    Laid h (gs ++ fs) ws := by
  induction gs with
  | nil => exact hl
  | cons g gs ih =>
    obtain ⟨hgc, hgb⟩ := hg g List.mem_cons_self
    exact .call hgc hgb (ih fun g' hg' => hg g' (List.mem_cons_of_mem g hg'))

theorem Laid.of_agents (hl : Laid h fs ws)
    (ha : ∀ n, .func n ∈ fs → ∀ w, Served h n.chart w → Served h' n.chart w) : Laid h' fs ws := by
  induction hl with
  | nil => exact .nil
  | @func n l k r fs w ws hs _ ih =>
    refine .func (ha n List.mem_cons_self w hs) (ih fun m hm => ha m ?_)
    exact List.mem_cons_of_mem _ (List.mem_cons_of_mem _ hm)
  | callback _ ih => exact .callback (ih fun m hm => ha m (List.mem_cons_of_mem _ hm))
  | call hf hc _ ih => exact .call hf hc (ih fun m hm => ha m (List.mem_cons_of_mem _ hm))
  | flowReturn _ ih => exact .flowReturn (ih fun m hm => ha m (List.mem_cons_of_mem _ hm))

/-- A script does not call at the end of a flow. -/
theorem returns_of_pushes (hp : Pushes P fs gs)
    (hf : ∀ f rest, fs = f :: rest → ¬f.isEntry ∧ ∀ l d, f ≠ .flowReturn l d) : Returns h w gs := by
  rintro f c l d rest rfl hent
  cases hp with
  | same => exact absurd hent (hf _ _ rfl).1
  | continuing => exact absurd rfl ((hf _ _ rfl).2 l d)
  | returning | step => exact hent.elim

/-- What is just being entered is not called by `Chart::Return`. -/
theorem returns_cons {f g : Frame} (hg : ∀ c, g ≠ .returning c) : Returns h w (f :: g :: fs) := by
  intro f' c l d rest he _
  cases he
  exact absurd rfl (hg c)

/-- Nothing is just being entered. -/
theorem returns_of_calm (hc : Calm fs) : Returns h w fs := by
  rintro f c l d rest rfl hf
  exact absurd hf (hc f List.mem_cons_self)

/-! ### The steps -/

/-- The call of `Chart::Return` at the end of a flow. -/
def atEnd : List Frame → Bool
  | .flowReturn _ _ :: _ => true
  | _ => false

/-- `Chart::Return` is about to run the flow of an owner node, and is not called at the end
of a flow of the same agent: the Lua stack has not been prepared for that flow. -/
def Bypasses (s : State) (a : Act) : Prop :=
  match a, s.frames with
  | .tau, .enter n :: .returning c :: rest =>
    s.heap.currentIndex + 1 < maxStackSize ∧ s.heap.chartRunning n.chart = true ∧
      (s.heap.agentOf n).any s.heap.agentRunning = true ∧
      ¬(atEnd rest = true ∧ s.heap.agentOf n = s.heap.agentOf ⟨c, 0⟩)
  | _, _ => False

instance (s : State) (a : Act) : Decidable (Bypasses s a) := by
  unfold Bypasses
  generalize s.frames = fs
  cases a <;> try exact instDecidableFalse
  rcases fs with _ | ⟨f, _ | ⟨g, rest⟩⟩
  · exact instDecidableFalse
  · cases f <;> exact instDecidableFalse
  · cases f <;> try exact instDecidableFalse
    cases g <;> try exact instDecidableFalse
    infer_instance

theorem stack_ne_nil (hm : Framed h fs ws) : ∃ w vs, ws = w :: vs := by
  cases hm <;> exact ⟨_, _, rfl⟩

/-- A flow that is run by `LuaManager::RunFlow` has its frame. -/
theorem served_frame {b : AgentId} (hb : h.agentOf n = some b) (w : List LuaValue) :
    Served h n.chart (frame b ++ w) := ⟨b, hb, List.prefix_append _ _⟩

/-- When a call is innermost, no flow is in its loop. -/
theorem Framed.laid_of_call {f : Frame} (hm : Framed h (f :: fs) (w :: ws)) (hf : f.isCall) :
    Laid h (f :: fs) ws ∧ Returns h w (f :: fs) := by
  cases hm with
  | laid hl hr => exact ⟨hl, hr⟩
  | flow | ran | ended => exact hf.elim

/-- The call stack after a call has gone on, with the windows as they were. -/
theorem framed_of_calm (hl : Laid h fs ws) (hc : Calm fs) : Framed h fs (w :: ws) :=
  .laid hl (returns_of_calm hc)

/-- The charts of the calls in progress keep their agents. -/
structure Carries (s t : State) : Prop where
  sound : t.sound = true
  served : ∀ {f c w}, f ∈ t.frames → f.chart? = some c → Served s.heap c w → Served t.heap c w

theorem carries_of_step {act : Act} (hr : State.Reachable cfg s) (h : s.step cfg act = some t) :
    Carries s t := by
  have hwf := State.wf_of_reachable hr
  have hsound := State.sound_of_step h
  refine ⟨hsound, ?_⟩
  rintro f c w hf hc ⟨a, ha, hw⟩
  have hd : Heap.Does (fun _ => True) (fun _ => True) (fun _ => False) s.heap t.heap :=
    State.does_of_step (fun _ _ => trivial) hwf h fun _ _ => trivial
  exact ⟨a, Heap.agentOf_of_does hd hwf.born ha (State.alive_of_sound hsound hf hc), hw⟩

theorem Carries.laid (hc : Carries s t) (hl : Laid s.heap fs ws) (hf : ∀ f ∈ fs, f ∈ t.frames) :
    Laid t.heap fs ws :=
  hl.of_agents fun n hn _ hs => hc.served (hf _ hn) (f := .func n) rfl hs

section Step

variable {x : LuaAct} {vs : List (List LuaValue)} {f : Frame}

/-- A call that goes on without the Lua stack. -/
theorem Carries.framed_of_call (hc : Carries s t) (gs : List Frame)
    (hm : Framed s.heap s.frames (w :: vs))
    (hf : s.frames = f :: rest) (hfc : f.isCall) (hfb : ∀ c, f ≠ .callback c)
    (hgs : ∀ g ∈ gs, g.isCall ∧ ∀ c, g ≠ .callback c) (hft : t.frames = gs ++ rest)
    (hr : Returns t.heap w t.frames) : Framed t.heap t.frames (w :: vs) := by
  rw [hf] at hm
  refine .laid ?_ hr
  rw [hft]
  refine Laid.append (hc.laid ((hm.laid_of_call hfc).1.tail hfc hfb) fun g hg => ?_) hgs
  rw [hft]
  exact List.mem_append_right gs hg

/-- A flow that is refused or has nothing to do. What is put off to a start event leaves the
call, too. -/
theorem Carries.framed_of_refused (hc : Carries s t) (hm : Framed s.heap s.frames (w :: vs))
    (hf : s.frames = .enter n :: rest) (hcalm : Calm rest)
    (hfr : t.frames = rest ∨ ∃ a c, rest = .starting a c :: t.frames) :
    Framed t.heap t.frames (w :: vs) := by
  rw [hf] at hm
  have hrest := (hm.laid_of_call trivial).1.tail trivial (by simp)
  rcases hfr with hfr | ⟨a, c, hfr⟩
  · rw [← hfr] at hrest hcalm
    exact framed_of_calm (hc.laid hrest fun f hf => hf) hcalm
  · rw [hfr] at hrest hcalm
    exact framed_of_calm (hc.laid (hrest.tail trivial (by simp)) fun f hf => hf) hcalm.tail

/-- Where the Lua stack is not prepared, a chart returns at the end of a flow of the agent of
its owner node, unless the frame is bypassed. -/
theorem flowReturn_of_not_prepares {b : AgentId} (hb : ¬Bypasses s .tau)
    (hf : s.frames = .enter n :: rest) (hlev : s.heap.currentIndex + 1 < maxStackSize)
    (hcr : s.heap.chartRunning n.chart = true) (hag : s.heap.agentOf n = some b)
    (har : s.heap.agentRunning b = true) (hp : prepares rest = false) :
    ∃ d l e fs, rest = .returning d :: .flowReturn l e :: fs ∧ s.heap.agentOf ⟨d, 0⟩ = some b := by
  obtain ⟨d, rest, rfl⟩ : ∃ d rest', rest = .returning d :: rest' := by
    unfold prepares at hp
    split at hp
    · exact ⟨_, _, rfl⟩
    · cases hp
  have hby : atEnd rest = true ∧ s.heap.agentOf n = s.heap.agentOf ⟨d, 0⟩ := by
    by_contra hne
    refine hb ?_
    unfold Bypasses
    rw [hf]
    exact ⟨hlev, hcr, by rw [hag]; exact har, hne⟩
  obtain ⟨l, e, rest, rfl⟩ : ∃ l e rest', rest = .flowReturn l e :: rest' := by
    have hat := hby.1
    unfold atEnd at hat
    split at hat
    · exact ⟨_, _, _, rfl⟩
    · cases hat
  exact ⟨d, l, e, rest, rfl, hby.2.symm.trans hag⟩

/-- `Agent::RunFlow`. -/
theorem framed_of_enter (hm : Framed s.heap s.frames (w :: vs)) (hact : x.act = .tau)
    (hb : ¬Bypasses s .tau) (hf : s.frames = .enter n :: rest) (hcalm : Calm rest)
    (hc : Carries s (s.enterFlow cfg n rest)) :
    Framed (s.enterFlow cfg n rest).heap (s.enterFlow cfg n rest).frames
      (nextStack s x (s.enterFlow cfg n rest) (w :: vs)) := by
  have hm' := hm
  rw [hf] at hm'
  obtain ⟨hl, hret⟩ := hm'.laid_of_call trivial
  have hrest := hl.tail trivial (by simp)
  -- The stack stays as it was, when there is no flow.
  have hsame : (∀ l c k r fs, (s.enterFlow cfg n rest).frames ≠ .flow l c k r :: fs) →
      nextStack s x (s.enterFlow cfg n rest) (w :: vs) = w :: vs := by
    intro hno
    simp only [nextStack, hact, hf]
    split
    · exact absurd ‹_› (hno _ _ _ _ _)
    · rfl
  have hnot : ∀ {u : State}, Laid s.heap u.frames vs →
      ∀ l c k r fs, u.frames ≠ .flow l c k r :: fs := by
    intro u hu l c k r fs he
    rw [he] at hu
    exact hu.not_flow
  have he := State.enters cfg s n rest
  generalize s.enterFlow cfg n rest = t at *
  cases he with
  | refused hlev =>
    have hfr := @State.frames_of_refuse cfg s n rest
    rw [hsame (hnot ?_)]
    · exact hc.framed_of_refused hm hf hcalm hfr
    · rcases hfr with hfr | ⟨a, c, hfr⟩
      · rw [hfr]
        exact hrest
      · rw [hfr] at hrest
        exact hrest.tail trivial (by simp)
  | gone ha =>
    have hub : (s.mapHeap (·.crash)).heap.ub = false := State.ub_of_sound hc.sound
    cases hub
  | @flow b hlev hb' har hcr =>
    have hag : Served s.heap n.chart w → Served _ n.chart w := hc.served List.mem_cons_self rfl
    have hl' := hc.laid hrest fun f hf => List.mem_cons_of_mem _ hf
    have hn : nextStack s x { s.mapHeap (·.beginFlow (s.heap.currentIndex + 1) b n) with
        frames := .flow (s.heap.currentIndex + 1) n.chart 0 false :: rest } (w :: vs) =
          enterFlow b rest (w :: vs) := by
      simp only [nextStack, hact, hf, hb']
    rw [hn]
    cases hp : prepares rest with
    | true =>
      rw [enterFlow, if_pos hp]
      exact .flow (hc.served List.mem_cons_self rfl (served_frame hb' w)) hl'
    | false =>
      rw [enterFlow, if_neg (by rw [hp]; exact Bool.false_ne_true)]
      obtain ⟨d, l, e, fs, rfl, hd⟩ := flowReturn_of_not_prepares hb hf hlev hcr hb' har hp
      obtain ⟨a, ha, hw⟩ := hret _ _ _ _ _ rfl trivial
      obtain rfl := Option.some.inj (hd.symm.trans ha)
      exact .flow (hag ⟨b, hb', hw⟩) hl'
  | skipped hlev ha hr =>
    rw [hsame (hnot hrest)]
    exact hc.framed_of_refused hm hf hcalm (.inl rfl)

/-- `Node::Continue` of an owner node. -/
theorem framed_of_continuing (hm : Framed s.heap s.frames (w :: vs)) (hact : x.act = .tau)
    (hf : s.frames = .continuing n :: rest) (hcalm : Calm rest)
    (hc : Carries s (s.continueFlow n rest)) :
    Framed (s.continueFlow n rest).heap (s.continueFlow n rest).frames
      (nextStack s x (s.continueFlow n rest) (w :: vs)) := by
  have hn : nextStack s x (s.continueFlow n rest) (w :: vs) = w :: vs := by
    simp only [nextStack, hact, hf]
  rw [hn]
  rw [hf] at hm
  obtain ⟨hl, hret⟩ := hm.laid_of_call trivial
  have hrest := hl.tail trivial (by simp)
  have hsound := State.ub_of_sound hc.sound
  unfold State.continueFlow at *
  dsimp only at *
  split
  · rename_i ha
    rw [if_pos ha] at hsound
    cases hsound
  · rename_i ha
    rw [if_neg ha] at hc
    split
    · rename_i hcur
      rw [if_pos hcur] at hc
      exact framed_of_calm (hc.laid hrest fun f hf => hf) hcalm
    · rename_i hcur
      rw [if_neg hcur] at hc
      refine .laid (.call trivial (by simp)
        (hc.laid hrest fun f hf => List.mem_cons_of_mem _ hf)) ?_
      rintro f c l d fs he -
      cases he
      exact hc.served (f := .returning c) (by simp) rfl (hret _ _ _ _ _ rfl trivial)

/-- `Node::Run`, from a round of the loop. -/
theorem framed_of_runNode {l k : ℕ} {r : Bool} (hs : Served s.heap c w) (hl : Laid s.heap rest vs)
    (hact : x.act = .tau) (hf : s.frames = .flow l c k r :: rest)
    (hst : ({ s with frames := .flow l c (k + 1) r :: rest }.runNode l n).Shaped)
    (hc : Carries s ({ s with frames := .flow l c (k + 1) r :: rest }.runNode l n)) :
    Framed ({ s with frames := .flow l c (k + 1) r :: rest }.runNode l n).heap
      ({ s with frames := .flow l c (k + 1) r :: rest }.runNode l n).frames
      (nextStack s x ({ s with frames := .flow l c (k + 1) r :: rest }.runNode l n) (w :: vs)) := by
  have hr := State.runsNode { s with frames := .flow l c (k + 1) r :: rest } l n
  generalize State.runNode { s with frames := .flow l c (k + 1) r :: rest } l n = t at *
  have hran : t.frames = .ran n :: .flow l c (k + 1) r :: rest →
      Framed t.heap t.frames (nextStack s x t (w :: vs)) := by
    intro hft
    have hn : nextStack s x t (w :: vs) = w :: vs := by simp only [nextStack, hact, hf, hft]
    rw [hn]
    have hst := hst.stacked
    rw [hft] at hst ⊢
    obtain ⟨_, _, _, -, he, -⟩ := hst.ran_inv
    cases he
    exact .ran (hc.served (f := .ran n) (by simp [hft]) rfl hs)
      (hc.laid hl fun f hf => by simp [hft, hf])
  cases hr with
  | skip _ | null _ _ | control _ _ _ _ => exact hran rfl
  | script _ _ =>
    obtain ⟨_, _, _, -, he, -⟩ := hst.stacked.nest_of_func.func_inv
    have he : Frame.flow l c (k + 1) r :: rest = _ := he
    obtain rfl : c = n.chart := (Frame.flow.inj (List.cons.inj he).1).2.1
    have hn : nextStack s x
        (((({ s with frames := .flow l n.chart (k + 1) r :: rest } : State).mapHeap
          (·.enterNode l n)).call (.func n))) (w :: vs) = [] :: w :: vs := by
      simp only [nextStack, hact, hf, State.call]
    rw [hn]
    refine .laid (.func (hc.served (f := .func n) List.mem_cons_self rfl hs) ?_) ?_
    · exact hc.laid hl fun f hf => by simp [State.call, State.mapHeap, hf]
    · exact returns_cons (by simp)

/-- A round of the loop of a flow. -/
theorem framed_of_flow {l k : ℕ} {r : Bool} (hm : Framed s.heap s.frames (w :: vs))
    (hact : x.act = .tau) (hf : s.frames = .flow l c k r :: rest)
    (hst : (s.flowRound cfg l c k r rest).Shaped)
    (hc : Carries s (s.flowRound cfg l c k r rest)) :
    Framed (s.flowRound cfg l c k r rest).heap (s.flowRound cfg l c k r rest).frames
      (nextStack s x (s.flowRound cfg l c k r rest) (w :: vs)) := by
  obtain ⟨hs, hl⟩ : Served s.heap c w ∧ Laid s.heap rest vs := by
    rw [hf] at hm
    cases hm with
    | laid hl => exact hl.not_flow.elim
    | flow hs hl => exact ⟨hs, hl⟩
  have hr := State.rounds cfg s l c k r rest
  generalize s.flowRound cfg l c k r rest = t at *
  have hflow : ∀ k r, t.frames = .flow l c k r :: rest →
      Framed t.heap t.frames (nextStack s x t (w :: vs)) := by
    intro k r hft
    have hn : nextStack s x t (w :: vs) = w :: vs := by simp only [nextStack, hact, hf, hft]
    rw [hn, hft]
    exact .flow (hc.served (f := .flow l c k r) (by simp [hft]) rfl hs)
      (hc.laid hl fun f hf => by simp [hft, hf])
  have hended : t.frames = .ended l c r :: rest →
      Framed t.heap t.frames (nextStack s x t (w :: vs)) := by
    intro hft
    have hn : nextStack s x t (w :: vs) = w :: vs := by simp only [nextStack, hact, hf, hft]
    rw [hn, hft]
    exact .ended (hc.served (f := .ended l c r) (by simp [hft]) rfl hs)
      (hc.laid hl fun f hf => by simp [hft, hf])
  cases hr with
  | ends _ | cut _ _ => exact hended rfl
  | waiting _ _ _ _ _ | defer _ _ _ _ _ _ => exact hflow _ _ rfl
  | run _ _ _ _ _ => exact framed_of_runNode hs hl hact hf hst hc

/-- The end of a flow. -/
theorem framed_of_ended {l : ℕ} {r : Bool} (hm : Framed s.heap s.frames (w :: vs))
    (hact : x.act = .tau) (hf : s.frames = .ended l c r :: rest) (hcalm : Calm rest)
    (hc : Carries s (s.flowCheck l c r rest)) :
    Framed (s.flowCheck l c r rest).heap (s.flowCheck l c r rest).frames
      (nextStack s x (s.flowCheck l c r rest) (w :: vs)) := by
  obtain ⟨hs, hl⟩ : Served s.heap c w ∧ Laid s.heap rest vs := by
    rw [hf] at hm
    cases hm with
    | laid hl =>
      cases hl with
      | call hc => exact hc.elim
    | ended hs hl => exact ⟨hs, hl⟩
  unfold State.flowCheck at *
  split
  · rename_i hcond
    rw [if_pos hcond] at hc
    -- The chart returns at the end of its flow, whose frame is still there.
    have hp := State.pushes_chartReturn (P := fun _ => True)
      { s with frames := .flowReturn l c :: rest } c true fun _ _ => trivial
    have hfr := State.frames_of_chartReturn { s with frames := .flowReturn l c :: rest } c true
    generalize State.chartReturn { s with frames := .flowReturn l c :: rest } c true = t at *
    dsimp only at hp hfr
    have hn : nextStack s x t (w :: vs) = w :: vs := by
      simp only [nextStack, hact, hf]
      refine if_neg fun he => ?_
      have hlen := congrArg List.length he
      rcases hfr with hfr | ⟨o, -, hfr⟩ <;>
        · rw [hfr] at hlen
          simp only [List.length_cons] at hlen
          omega
    rw [hn]
    have hl' := hc.laid hl fun f hf => hp.mem (List.mem_cons_of_mem _ hf)
    refine .laid (hl'.flowReturn.of_pushes hp) ?_
    rintro f d k e fs he hent
    rcases hfr with hfr | ⟨o, -, hfr⟩
    · rw [hfr] at he
      cases he
    · rw [hfr] at he
      cases he
      exact hc.served (f := .returning c) (by simp [hfr]) rfl hs
  · rename_i hcond
    rw [if_neg hcond] at hc
    have hn : ∃ w', nextStack s x { s.mapHeap (·.closeFlow l) with frames := rest } (w :: vs) =
        w' :: vs := by
      simp only [nextStack, hact, hf, leaveFlow, ↓reduceIte]
      split <;> exact ⟨_, rfl⟩
    obtain ⟨w', hn⟩ := hn
    rw [hn]
    exact framed_of_calm (hc.laid hl fun f hf => hf) hcalm

/-- The end of `Chart::Return`. -/
theorem framed_of_returning (hm : Framed s.heap s.frames (w :: vs)) (hact : x.act = .tau)
    (hf : s.frames = .returning c :: rest) (hcalm : Calm rest)
    (hc : Carries s (State.finishReturn { s with frames := rest } c)) :
    Framed (State.finishReturn { s with frames := rest } c).heap
      (State.finishReturn { s with frames := rest } c).frames
      (nextStack s x (State.finishReturn { s with frames := rest } c) (w :: vs)) := by
  have hm' := hm
  rw [hf] at hm'
  have hrest := (hm'.laid_of_call trivial).1.tail trivial (by simp)
  have hn : ∃ w', nextStack s x (State.finishReturn { s with frames := rest } c) (w :: vs) =
      if (State.finishReturn { s with frames := rest } c).frames = .callback c :: rest then
        [] :: w' :: vs else w' :: vs := by
    simp only [nextStack, hact, hf]
    split <;> split <;> exact ⟨_, rfl⟩
  obtain ⟨w', hn⟩ := hn
  rw [hn]
  have hfr : (State.finishReturn { s with frames := rest } c).frames = rest ∨
      (State.finishReturn { s with frames := rest } c).frames = .callback c :: rest := by
    unfold State.finishReturn
    dsimp only
    split
    · exact .inr rfl
    · exact .inl rfl
  generalize State.finishReturn { s with frames := rest } c = t at *
  rcases hfr with hfr | hfr
  · rw [hfr, if_neg fun he => by simpa using congrArg List.length he]
    exact framed_of_calm (hc.laid hrest fun f hf => hfr ▸ hf) hcalm
  · rw [hfr, if_pos rfl]
    refine framed_of_calm (.callback (hc.laid hrest fun f hf => ?_)) (calm_cons id hcalm)
    rw [hfr]
    exact List.mem_cons_of_mem _ hf

/-- A call of the library by a script that is in control, so that nothing is just being
entered. -/
theorem framed_of_op {o : Op} (hm : Framed s.heap s.frames (w :: vs)) (hact : x.act = .op o)
    (ho : s.mayCall o = true) (hp : Pushes P s.frames t.frames) (hc : Carries s t) :
    Framed t.heap t.frames (nextStack s x t (w :: vs)) := by
  have hn : nextStack s x t (w :: vs) = x.args :: vs := by
    simp only [nextStack, hact, List.tail_cons]
  rw [hn]
  have hhead : ∀ f fs, s.frames = f :: fs → ¬f.isEntry ∧ ∀ l d, f ≠ .flowReturn l d := by
    intro f fs hf
    unfold State.mayCall at ho
    rw [hf] at ho
    cases f with
    | func | callback | release => exact ⟨id, by simp⟩
    | _ => cases ho
  have hl : Laid s.heap s.frames vs := by
    cases hfs : s.frames with
    | nil =>
      rw [hfs] at hm
      cases hm with
      | laid hl => exact hl
    | cons f fs =>
      rw [hfs] at hm
      cases hm with
      | laid hl => exact hl
      | flow | ran | ended =>
        unfold State.mayCall at ho
        rw [hfs] at ho
        cases ho
  exact .laid ((hc.laid hl fun f hf => hp.mem hf).of_pushes hp) (returns_of_pushes hp hhead)

/-- What a step leaves of the windows. -/
theorem framed_of_trans (hr : State.Reachable cfg s) (hm : Framed s.heap s.frames ws)
    (h : s.step cfg x.act = some t) (hb : ¬Bypasses s x.act) :
    Framed t.heap t.frames (nextStack s x t ws) := by
  have hst := State.shaped_of_step (State.wf_of_reachable hr) (State.shaped_of_reachable hr) h
  have hpoised := State.poised_of_reachable hr
  have hc := carries_of_step hr h
  obtain ⟨w, vs, rfl⟩ := stack_ne_nil hm
  generalize hact : x.act = act at h hb
  cases (State.trans_of_step h).1 with
  | @enter n rest hf => exact framed_of_enter hm hact hb hf (hf ▸ hpoised).tail hc
  | @continuing n rest hf => exact framed_of_continuing hm hact hf (hf ▸ hpoised).tail hc
  | @flow l c k r rest hf => exact framed_of_flow hm hact hf hst hc
  | @ran n l c k r rest hf =>
    have hn : nextStack s x (s.flowFinish n l c k r rest) (w :: vs) = w :: vs := by
      simp only [nextStack, hact, hf]
    rw [hn]
    rw [hf] at hm
    cases hm with
    | laid hl =>
      cases hl with
      | call hc => exact hc.elim
    | ran hs hl =>
      exact .flow (hc.served (f := .flow l n.chart k _) List.mem_cons_self rfl hs)
        (hc.laid hl fun f hf => List.mem_cons_of_mem _ hf)
  | @ended l c r rest hf => exact framed_of_ended hm hact hf (hf ▸ hpoised).tail hc
  | @flowReturn l c rest hf =>
    have hn : ∃ w', nextStack s x (s.flowReturned l c rest) (w :: vs) = w' :: vs := by
      simp only [nextStack, hact, hf, leaveFlow]
      split <;> exact ⟨_, rfl⟩
    obtain ⟨w', hn⟩ := hn
    rw [hn]
    rw [hf] at hm hpoised
    have hl : Laid s.heap rest vs := by
      cases hm with
      | laid hl =>
        cases hl with
        | call hc => exact hc.elim
        | flowReturn hl => exact hl
    exact framed_of_calm (hc.laid hl fun f hf => hf) hpoised.tail
  | @returning c rest hf => exact framed_of_returning hm hact hf (hf ▸ hpoised).tail hc
  | @op o _ ho hrun =>
    exact framed_of_op hm hact ho (State.pushes_runOp (State.wf_of_reachable hr).born
      (State.ub_of_sound hc.sound) hrun) hc
  | @ret n rest r hf =>
    have hn : ∀ u, nextStack s x u (w :: vs) = vs := by
      intro u
      simp only [nextStack, hact, List.tail_cons]
    rw [hn]
    rw [hf] at hm
    cases hm with
    | laid hl =>
      cases hl with
      | call hc => exact hc.elim
      | func hs hl =>
        exact .ran (hc.served (f := .ran n) List.mem_cons_self rfl hs)
          (hc.laid hl fun f hf => by simp [State.call, State.mapHeap, hf])
  | @done c rest hf =>
    have hn : nextStack s x { s with frames := rest } (w :: vs) = vs := by
      simp only [nextStack, hact, hf, List.tail_cons]
    rw [hn]
    rw [hf] at hm hpoised
    cases (hm.laid_of_call trivial).1 with
    | callback hl => exact framed_of_calm (hc.laid hl fun f hf => hf) hpoised.tail
    | call _ hcb => exact absurd rfl (hcb c)
  | @fire n rest hf hn =>
    have hn : nextStack s x (s.fire n) (w :: vs) = w :: vs := by simp only [nextStack, hact]
    rw [hn]
    rw [hf] at hm
    have hft : (s.fire n).frames = .enter n :: .timers :: rest := congrArg (List.cons _) hf
    rw [hft]
    refine .laid (.call trivial (by simp) (hc.laid (hm.laid_of_call trivial).1 fun f hf => ?_))
      (returns_cons (by simp))
    rw [hft]
    exact List.mem_cons_of_mem _ hf
  | @tick a rest hf ha =>
    have hn : nextStack s x (s.event cfg cfg.tickEvent a false false) (w :: vs) = w :: vs := by
      simp only [nextStack, hact]
    rw [hn]
    have hp := @State.pushes_event cfg (fun _ => True) s cfg.tickEvent a false false
    have hl : Laid s.heap s.frames vs := by
      rw [hf] at hm ⊢
      exact (hm.laid_of_call trivial).1
    refine .laid ((hc.laid hl fun f hf => hp.mem hf).of_pushes hp) ?_
    refine returns_of_pushes hp fun f fs he => ?_
    rw [hf] at he
    cases he
    exact ⟨id, by simp⟩
  | @starting a c rest hf | @trigger prev ev rest hf | @deleteEvent ev rest hf
  | @released a rest hf =>
    have hn : ∀ u, nextStack s x u (w :: vs) = w :: vs := by
      intro u
      simp only [nextStack, hact, hf]
    rw [hn]
    exact hc.framed_of_call [] hm hf trivial (by simp) (by simp) rfl
      (returns_of_calm (hf ▸ hpoised).tail)
  | @handle ev rest hf =>
    have hn : nextStack s x (s.handleRound rest) (w :: vs) = w :: vs := by
      simp only [nextStack, hact, hf]
    rw [hn]
    have hfr := s.frames_of_handleRound rest
    generalize s.handleRound rest = t at *
    rcases hfr with hfr | ⟨_, _, n, _, -, -, hfr⟩
    · exact hc.framed_of_call [] hm hf trivial (by simp) (by simp) hfr
        (returns_of_calm (hfr ▸ (hf ▸ hpoised).tail))
    · rw [hf] at hfr
      refine hc.framed_of_call [.enter n, .handle ev] hm hf trivial (by simp)
        (by simp [Frame.isCall]) hfr ?_
      rw [hfr]
      exact returns_cons (by simp)
  | @async rest hf =>
    have hn : nextStack s x (s.asyncRound rest) (w :: vs) = w :: vs := by
      simp only [nextStack, hact, hf]
    rw [hn]
    have hfr := s.frames_of_asyncRound rest
    generalize s.asyncRound rest = t at *
    rcases hfr with hfr | ⟨n, _, -, hfr⟩
    · exact hc.framed_of_call [.events] hm hf trivial (by simp) (by simp [Frame.isCall]) hfr
        (returns_of_calm (hfr ▸ calm_cons id (hf ▸ hpoised).tail))
    · rw [hf] at hfr
      refine hc.framed_of_call [.enter n, .async] hm hf trivial (by simp)
        (by simp [Frame.isCall]) hfr ?_
      rw [hfr]
      exact returns_cons (by simp)
  | @events rest hf =>
    have hn : nextStack s x (s.eventsRound cfg rest) (w :: vs) = w :: vs := by
      simp only [nextStack, hact, hf]
    rw [hn]
    have hfr := s.frames_of_eventsRound cfg rest
    generalize s.eventsRound cfg rest = t at *
    have hcalm := (hf ▸ hpoised).tail
    rcases hfr with ⟨as, hfr⟩ | ⟨ev, hfr⟩ | ⟨ev, hfr⟩
    · exact hc.framed_of_call [.dying as] hm hf trivial (by simp) (by simp [Frame.isCall])
        hfr (returns_of_calm (hfr ▸ calm_cons id hcalm))
    · rw [hf] at hfr
      exact hc.framed_of_call [.deleteEvent ev, .events] hm hf trivial (by simp)
        (by simp [Frame.isCall]) hfr (returns_of_calm (hfr ▸ calm_cons id (calm_cons id hcalm)))
    · rw [hf] at hfr
      exact hc.framed_of_call [.handle ev, .deleteEvent ev, .events] hm hf trivial (by simp)
        (by simp [Frame.isCall]) hfr
        (returns_of_calm (hfr ▸ calm_cons id (calm_cons id (calm_cons id hcalm))))
  | @dying as rest hf =>
    have hn : nextStack s x (s.dyingRound as rest) (w :: vs) = w :: vs := by
      simp only [nextStack, hact, hf]
    rw [hn]
    have hfr := s.frames_of_dyingRound as rest
    generalize s.dyingRound as rest = t at *
    have hcalm := (hf ▸ hpoised).tail
    rcases hfr with hfr | ⟨a, as', hfr⟩
    · exact hc.framed_of_call [] hm hf trivial (by simp) (by simp) hfr
        (returns_of_calm (hfr ▸ hcalm))
    · exact hc.framed_of_call [.release a, .dying as'] hm hf trivial (by simp)
        (by simp [Frame.isCall]) hfr (returns_of_calm (hfr ▸ calm_cons id (calm_cons id hcalm)))
  | @timersDone rest hf =>
    have hn : ∀ u, nextStack s x u (w :: vs) = w :: vs := by
      intro u
      simp only [nextStack, hact]
    rw [hn]
    exact hc.framed_of_call [.async] hm hf trivial (by simp) (by simp [Frame.isCall]) rfl
      (returns_of_calm (calm_cons id (hf ▸ hpoised).tail))

end Step

/-! ### The runs -/

/-- Each call of a node function finds the frame of the agent of its node. -/
def Prepared (m : LuaManager) : Prop :=
  ∀ n, m.manager.frames.head? = some (.func n) → ∃ a w, m.manager.heap.agentOf n = some a ∧
    m.stack[1]? = some w ∧ frame a <+: w ∧
    call w = ⟨some .functionTable, some (.object a), some .errorHandler⟩

theorem call_of_frame (hw : frame a <+: w) :
    call w = ⟨some .functionTable, some (.object a), some .errorHandler⟩ := by
  obtain ⟨v, rfl⟩ := hw
  rfl

/-- A step is one of the manager. -/
theorem step_inv {x : LuaAct} (h : step cfg m x = some m') :
    (∀ o a fs, x.act = .op o → m.manager.frames ≠ .release a :: fs) ∧
      m.manager.step cfg x.act = some m'.manager ∧
      m'.stack = nextStack m.manager x m'.manager m.stack := by
  unfold step at h
  split at h
  · cases h
  · rename_i hne
    obtain ⟨t, ht, rfl⟩ := Option.map_eq_some_iff.mp h
    exact ⟨fun o a fs ho hf => hne o a fs ho hf, ht, rfl⟩

theorem framed_of_steps
    (h : Run.Steps (step cfg) (fun m x => ¬Bypasses m.manager x.act) {} m) :
    State.Reachable cfg m.manager ∧ Framed m.manager.heap m.manager.frames m.stack := by
  refine h.invariant (I := fun m => State.Reachable cfg m.manager ∧
    Framed m.manager.heap m.manager.frames m.stack) ?_ fun u x v hi hb hs => ?_
  · exact ⟨.refl _, .laid .nil (returns_of_calm calm_nil)⟩
  · obtain ⟨-, ht, hstack⟩ := step_inv hs
    refine ⟨hi.1.tail trivial ht, ?_⟩
    rw [hstack]
    exact framed_of_trans hi.1 hi.2 ht hb

/-- **Every call has its frame**, in a run in which `Chart::Return` runs the flow of an owner
node at the end of a flow of the same agent only. -/
theorem prepared (h : Run.Steps (step cfg) (fun m x => ¬Bypasses m.manager x.act) {} m) :
    m.Prepared := by
  obtain ⟨-, hm⟩ := framed_of_steps h
  intro n hn
  generalize m.manager.frames = fs at hm hn
  generalize m.stack = ws at hm
  cases hm with
  | laid hl =>
    cases hl with
    | nil => cases hn
    | call hf =>
      cases hn
      exact hf.elim
    | callback | flowReturn => cases hn
    | func hs =>
      cases hn
      obtain ⟨a, ha, hw⟩ := hs
      exact ⟨a, _, ha, rfl, hw, call_of_frame hw⟩
  | flow | ran | ended => cases hn

/-- A chart with a node that calls a subchart, and a node after it. -/
def callerChart : ChartData :=
  { name := "caller", nodes := [{ success := [1] }, { func := .script, success := [2] },
      { func := .script }] }

/-- A chart that waits for an event, and a node after it. -/
def calleeChart : ChartData :=
  { name := "callee", nodes := [{ success := [1] },
      { func := .script, isEvent := true, success := [2] }, { func := .script }] }

/-- The calls until the event comes and the node after it is called. -/
def calleeActs : List LuaAct :=
  [⟨.op (.importChart callerChart), []⟩, ⟨.op (.importChart calleeChart), []⟩,
    ⟨.op (.register 0), []⟩, ⟨.op (.attachChart 1 "caller"), []⟩, ⟨.op (.startChart 0), []⟩,
    ⟨.op (.subchart "callee" 1), []⟩, ⟨.op (.waitEvent 1 0), []⟩, ⟨.ret .rTrue, []⟩,
    ⟨.ret .rTrue, []⟩, ⟨.op (.event 0 1 false true), []⟩]

/-- The flow of the subchart ends, and the owner node goes on. -/
theorem prepared_end : ∃ m : LuaManager, m.manager.frames.head? = some (.func ⟨0, 2⟩) ∧
    m.Prepared := by
  obtain ⟨m, hm, hf⟩ : ∃ m, Run.Steps (step { deferEvent := false })
      (fun m x => ¬Bypasses m.manager x.act) {} m ∧
      m.manager.frames.head? = some (.func ⟨0, 2⟩) := by
    have h : ((Run.drive (Run.guarded (step { deferEvent := false })
        fun m x => ¬Bypasses m.manager x.act) ⟨.tau, []⟩ 1000 {}
          (calleeActs ++ [⟨.ret .rTrue, []⟩])).any
        fun m => decide (m.manager.frames.head? = some (.func ⟨0, 2⟩))) = true := by
      decide +kernel
    obtain ⟨m, hm, hf⟩ := (Option.any_eq_true _ _).mp h
    exact ⟨m, Run.steps_of_guarded (Run.reaches_of_drive hm), of_decide_eq_true hf⟩
  exact ⟨m, hf, prepared hm⟩

/-- **A call without a frame**: a script of the subchart returns, so that the owner node goes
on. Its function is looked up in the argument of `Return`. -/
theorem not_prepared_return : ∃ m : LuaManager,
    Run.Reaches (step { deferEvent := false }) {} m ∧
    m.manager.frames.head? = some (.func ⟨0, 2⟩) ∧ m.stack[1]? = some [.value] ∧ ¬m.Prepared := by
  have h : ((Run.drive (step { deferEvent := false }) ⟨.tau, []⟩ 1000 {}
      (calleeActs ++ [⟨.op (.managerReturn true), [.value]⟩])).any
      fun m => decide (m.manager.frames.head? = some (.func ⟨0, 2⟩) ∧
        m.stack[1]? = some [.value])) = true := by
    decide +kernel
  obtain ⟨m, hm, h⟩ := (Option.any_eq_true _ _).mp h
  obtain ⟨hf, hw⟩ := of_decide_eq_true h
  refine ⟨m, Run.reaches_of_drive hm, hf, hw, fun hp => ?_⟩
  obtain ⟨a, w, -, hw', -, hc⟩ := hp _ hf
  rw [hw] at hw'
  obtain rfl := Option.some.inj hw'
  cases hc

end LuaManager

end Asyncflow
