import Asyncflow.Runtime.EventQueue

/-!
# Events raised immediate

`EventQueue::AddEvent` pushes an `immediate` event to the front of the list that is
being emptied. In the event phase of a step that is the list whose events are handled
now, and the event goes before all others (`Asyncflow.Desk.Ahead`). Outside of it, it is
the list that the next `Switch` puts back: the event is handled one step too late
(`Asyncflow.Desk.Late`).
-/

namespace Asyncflow

/-- Whenever the second event is given to a handler, the first has been before. -/
def Before (log : List QueueObs) (ev x : Event) : Prop :=
  ∀ after o before, log = after ++ o :: before → o.gives x = true →
    ∃ p ∈ before, p.gives ev = true

section Before

variable {log : List QueueObs} {ev x : Event} {o : QueueObs}

theorem before_of_not_given (h : ∀ o ∈ log, o.gives x = false) : Before log ev x := by
  intro after o before hl hg
  have ho := h o (by simp [hl])
  rw [hg] at ho
  cases ho

/-- New entries that do not give the second event too early. -/
theorem Before.append (hb : Before log ev x) (new : List QueueObs)
    (hn : (∀ o ∈ new, o.gives x = false) ∨ ∃ p ∈ log, p.gives ev = true) :
    Before (new ++ log) ev x := by
  intro after o before hl hg
  rcases List.append_eq_append_iff.mp hl.symm with ⟨mid, hnew, hcons⟩ | ⟨mid, -, hlog⟩
  · -- The entry is one of the new ones, or the newest of the old.
    rcases List.cons_eq_append_iff.mp hcons with ⟨-, hlog⟩ | ⟨mid, rfl, rfl⟩
    · exact hb [] o before hlog hg
    · rcases hn with hn | ⟨p, hp, hev⟩
      · have ho := hn o (by simp [hnew])
        rw [hg] at ho
        cases ho
      · exact ⟨p, List.mem_append_right _ hp, hev⟩
  · exact hb mid o before hlog hg

end Before

namespace Desk

variable {b d d' : Desk} {ev x : Event}

/-- The events in the two lists. -/
def queued (d : Desk) : List Event := d.queue.inList ++ d.queue.outList

/-- The event has been given to a handler, no later than in the first event phase that
begins after it was raised. -/
def Served (ev : Event) (o : QueueObs) : Prop :=
  o.gives ev = true ∧ ∀ k, o = .handled ev k → k ≤ ev.epoch + 1

/-- Between the given desk and a later one, an event stays ahead of all that are queued:
it is given before them, or it is in their list and in front of them. -/
structure Ahead (b : Desk) (ev : Event) (d : Desk) : Prop where
  raised : .raised ev ∈ d.qlog
  older : ∀ x ∈ b.queued, x.oid < ev.oid
  before : ∀ x ∈ b.queued, Before d.qlog ev x
  place : (∃ o ∈ d.qlog, Served ev o) ∨ (.events ∈ d.calls ∧ d.switches = ev.epoch ∧
    ∃ pre post, d.queue.outList = pre ++ ev :: post ∧ ∀ x ∈ pre, ev.oid < x.oid)

theorem Move.log (hm : Move d d') : ∃ new, d'.qlog = new ++ d.qlog := by
  cases hm with
  | made hmade =>
    cases hmade with
    | queue => exact ⟨[_], rfl⟩
    | idle => exact ⟨[_, _, _], rfl⟩
    | trigger => exact ⟨[_, _], rfl⟩
  | delete | take => exact ⟨[_], rfl⟩
  | step | timersDone | switch | finish | release | released | leave => exact ⟨[], rfl⟩

/-- After the event has been given nothing matters any more. -/
theorem Ahead.of_served (ha : Ahead b ev d) (hs : ∃ o ∈ d.qlog, Served ev o)
    (hq : ∃ new, d'.qlog = new ++ d.qlog) : Ahead b ev d' := by
  obtain ⟨new, hq⟩ := hq
  obtain ⟨o, ho, hserved⟩ := hs
  refine ⟨?_, ha.older, fun x hx => ?_, .inl ⟨o, ?_, hserved⟩⟩
  · exact hq ▸ List.mem_append_right _ ha.raised
  · exact hq ▸ (ha.before x hx).append new (.inr ⟨o, ho, hserved.1⟩)
  · exact hq ▸ List.mem_append_right _ ho

/-- Before that it stays in front of the others, as long as nothing gives one of them. -/
theorem Ahead.of_place (ha : Ahead b ev d) (new : List QueueObs) (hq : d'.qlog = new ++ d.qlog)
    (hn : ∀ o ∈ new, ∀ x, o.gives x = true → ev.oid ≤ x.oid)
    (hp : (∃ o ∈ d'.qlog, Served ev o) ∨ (.events ∈ d'.calls ∧ d'.switches = ev.epoch ∧
      ∃ pre post, d'.queue.outList = pre ++ ev :: post ∧ ∀ x ∈ pre, ev.oid < x.oid)) :
    Ahead b ev d' := by
  refine ⟨hq ▸ List.mem_append_right _ ha.raised, ha.older, fun x hx => ?_, hp⟩
  rw [hq]
  refine (ha.before x hx).append new (.inl fun o ho => ?_)
  rw [Bool.eq_false_iff]
  intro hg
  have h1 := ha.older x hx
  have h2 := hn o ho x hg
  omega

/-- **The event stays ahead.** -/
theorem Ahead.move (hm : Move d d') (ho : d.Orderly) (ha : Ahead b ev d) : Ahead b ev d' := by
  rcases ha.place with hs | ⟨hc, hk, pre, post, hout, hpre⟩
  · exact ha.of_served hs hm.log
  · have hfresh : ev.oid < d.nextEvent := ho.accounted.fresh ev ha.raised
    cases hm with
    | made hmade =>
      cases hmade with
      | @queue ev' hev =>
        refine ha.of_place [.raised ev'] rfl (by simp) (.inr ⟨hc, hk, ?_⟩)
        cases hi : ev'.immediate with
        | false => exact ⟨pre, post, by simp [EventQueue.addEvent, hi, hout], hpre⟩
        | true =>
          refine ⟨ev' :: pre, post, by simp [EventQueue.addEvent, hi, hout], fun x hx => ?_⟩
          rcases List.mem_cons.mp hx with rfl | hx
          · rw [hev.1]
            exact hfresh
          · exact hpre x hx
      | @idle ev' hev =>
        refine ha.of_place [.deleted ev', .triggered ev', .raised ev'] rfl ?_
          (.inr ⟨hc, hk, pre, post, hout, hpre⟩)
        have h1 := hev.1
        simp
        omega
      | @trigger ev' prev hev =>
        refine ha.of_place [.triggered ev', .raised ev'] rfl ?_
          (.inr ⟨List.mem_cons_of_mem _ hc, hk, pre, post, hout, hpre⟩)
        have h1 := hev.1
        simp
        omega
    | @delete f ev' rest hcalls hf =>
      rw [hcalls] at hc
      rcases List.mem_cons.mp hc with rfl | hc
      · cases hf
      · exact ha.of_place [.deleted ev'] rfl (by simp) (.inr ⟨hc, hk, pre, post, hout, hpre⟩)
    | step hcalls =>
      rw [hcalls] at hc
      cases hc
    | @timersDone rest hcalls =>
      rw [hcalls] at hc
      have hc' : .events ∈ rest := (List.mem_cons.mp hc).resolve_left (by simp)
      exact ha.of_place [] rfl (by simp)
        (.inr ⟨List.mem_cons_of_mem _ hc', hk, pre, post, hout, hpre⟩)
    | switch hcalls => exact absurd hc (ho.onTime.not_events hcalls)
    | @take rest ev' evs hcalls hq =>
      have hne : .events ∈ (.deleteEvent ev' :: d.calls) := List.mem_cons_of_mem _ hc
      rw [hout] at hq
      cases pre with
      | nil =>
        obtain ⟨rfl, rfl⟩ : ev = ev' ∧ post = evs := by simpa using hq
        refine ha.of_place [.handled ev d.switches] rfl (by simp)
          (.inl ⟨.handled ev d.switches, List.mem_cons_self, by simp, fun k hk' => ?_⟩)
        obtain rfl : d.switches = k := by simpa using hk'
        omega
      | cons y pre =>
        obtain ⟨rfl, rfl⟩ : y = ev' ∧ pre ++ ev :: post = evs := by simpa using hq
        have hy := hpre y (by simp)
        refine ha.of_place [.handled y d.switches] rfl (by simp; omega)
          (.inr ⟨hne, hk, pre, post, rfl, fun x hx => hpre x (by simp [hx])⟩)
    | finish as hcalls hq =>
      rw [hout] at hq
      simp at hq
    | @release rest a as hcalls =>
      rw [hcalls] at hc
      have hc' : .events ∈ rest := (List.mem_cons.mp hc).resolve_left (by simp)
      exact ha.of_place [] rfl (by simp) (.inr ⟨by simp [hc'], hk, pre, post, hout, hpre⟩)
    | @released rest a hcalls =>
      rw [hcalls] at hc
      have hc' : .events ∈ rest := (List.mem_cons.mp hc).resolve_left (by simp)
      exact ha.of_place [] rfl (by simp) (.inr ⟨hc', hk, pre, post, hout, hpre⟩)
    | @leave rest hcalls =>
      rw [hcalls] at hc
      have hc' : .events ∈ rest := (List.mem_cons.mp hc).resolve_left (by simp)
      exact ha.of_place [] rfl (by simp) (.inr ⟨hc', hk, pre, post, hout, hpre⟩)

/-! ### One step too late -/

/-- The event was raised outside of the event phase: it goes through both lists. -/
structure Late (ev : Event) (d : Desk) : Prop where
  raised : .raised ev ∈ d.qlog
  queued : .triggered ev ∉ d.qlog
  handled : ∀ k, .handled ev k ∈ d.qlog → k = ev.epoch + 2
  phase : ev ∈ d.queue.outList → .events ∈ d.calls → d.switches ≠ ev.epoch

/-- Entries and places that are not about the event do not matter. -/
theorem Late.of_new (hl : Late ev d) (new : List QueueObs) (hq : d'.qlog = new ++ d.qlog)
    (hn : ∀ o ∈ new, o.gives ev = false)
    (hp : ev ∈ d'.queue.outList → .events ∈ d'.calls → d'.switches ≠ ev.epoch) : Late ev d' := by
  have hold : ∀ {o : QueueObs}, o.gives ev = true → o ∈ d'.qlog → o ∈ d.qlog := by
    intro o hg ho
    rw [hq] at ho
    refine (List.mem_append.mp ho).resolve_left fun hmem => ?_
    have := hn o hmem
    rw [hg] at this
    cases this
  refine ⟨hq ▸ List.mem_append_right _ hl.raised, fun ht => ?_, fun k hk => ?_, hp⟩
  · exact hl.queued (hold (by simp) ht)
  · exact hl.handled k (hold (by simp) hk)

/-- **The event stays late.** -/
theorem Late.move (hi : ev.immediate = true) (hm : Move d d') (ho : d.Orderly) (hl : Late ev d) :
    Late ev d' := by
  have hfresh : ev.oid < d.nextEvent := ho.accounted.fresh ev hl.raised
  have hne : ∀ {ev'}, d.Makes ev' → ev' ≠ ev := by
    rintro ev' hev rfl
    have h1 := hev.1
    omega
  cases hm with
  | made hmade =>
    cases hmade with
    | @queue ev' hev =>
      refine hl.of_new [.raised ev'] rfl (by simp) fun hout hc => hl.phase ?_ hc
      cases hi' : ev'.immediate with
      | false => simpa [EventQueue.addEvent, hi'] using hout
      | true =>
        simp only [EventQueue.addEvent, hi', ↓reduceIte, List.mem_cons] at hout
        exact hout.resolve_left (hne hev).symm
    | @idle ev' hev =>
      exact hl.of_new [.deleted ev', .triggered ev', .raised ev'] rfl (by simp [hne hev]) hl.phase
    | @trigger ev' prev hev =>
      refine hl.of_new [.triggered ev', .raised ev'] rfl (by simp [hne hev]) fun hout hc => ?_
      exact hl.phase hout ((List.mem_cons.mp hc).resolve_left (by simp))
  | @delete f ev' rest hcalls hf =>
    refine hl.of_new [.deleted ev'] rfl (by simp) fun hout hc => hl.phase hout ?_
    rw [hcalls]
    exact List.mem_cons_of_mem _ hc
  | step hcalls => exact hl.of_new [] rfl (by simp) (by simp)
  | @timersDone rest hcalls =>
    refine hl.of_new [] rfl (by simp) fun hout hc => hl.phase hout ?_
    rw [hcalls]
    exact List.mem_cons_of_mem _ ((List.mem_cons.mp hc).resolve_left (by simp))
  | @switch rest hcalls =>
    refine hl.of_new [] rfl (by simp) fun hout _ => ?_
    have hcome := ho.onTime.coming ev hout
    rw [Coming, if_pos hi] at hcome
    dsimp only
    omega
  | @take rest ev' evs hcalls hq =>
    have hout : ∀ {x}, x = ev' ∨ x ∈ evs → x ∈ d.queue.outList := by simp [hq]
    refine ⟨List.mem_cons_of_mem _ hl.raised, ?_, fun k hk => ?_, fun h hc => ?_⟩
    · simpa [note] using hl.queued
    · rcases List.mem_cons.mp hk with hk | hk
      · obtain ⟨rfl, rfl⟩ : ev = ev' ∧ k = d.switches := by simpa using hk
        have hdue := ho.onTime.due ev (hout (.inl rfl))
        have hph := hl.phase (hout (.inl rfl)) (by simp [hcalls])
        rw [Due, if_pos (by simp [hcalls]), if_pos hi] at hdue
        omega
      · exact hl.handled k hk
    · exact hl.phase (hout (.inr h)) ((List.mem_cons.mp hc).resolve_left (by simp))
  | finish as hcalls hq => exact hl.of_new [] rfl (by simp) (by simp [hq])
  | @release rest a as hcalls =>
    refine hl.of_new [] rfl (by simp) fun hout hc => hl.phase hout ?_
    rw [hcalls]
    simpa using hc
  | released hcalls | leave hcalls =>
    refine hl.of_new [] rfl (by simp) fun hout hc => hl.phase hout ?_
    rw [hcalls]
    exact List.mem_cons_of_mem _ hc

/-! ### When the event is raised -/

/-- A move that raises the event. -/
def Raises (ev : Event) (d d' : Desk) : Prop := .raised ev ∈ d'.qlog ∧ .raised ev ∉ d.qlog

/-- A queued event is older than a new one, and has not been given to a handler. -/
theorem Accounted.of_queued (ho : d.Accounted) (hx : x ∈ d.queued) :
    x.oid < d.nextEvent ∧ ∀ o ∈ d.qlog, o.gives x = false := by
  have hk := ho.kept x
  have hone := ho.once x
  have hg := ho.given x
  have hlists : 0 < d.queue.outList.count x + d.queue.inList.count x := by
    rcases List.mem_append.mp hx with hin | hout
    · exact Nat.add_pos_right _ (List.count_pos_iff.mpr hin)
    · exact Nat.add_pos_left (List.count_pos_iff.mpr hout) _
  constructor
  · exact ho.fresh x (List.count_pos_iff.mp (by omega))
  · have h0 : d.qlog.countP (·.gives x) = 0 := by omega
    simpa using List.countP_eq_zero.mp h0

/-- The beginning: the event has just been made. -/
theorem ahead_of_makes (ho : b.Orderly) (hm : b.Makes ev) (new : List QueueObs)
    (hq : d.qlog = new ++ .raised ev :: b.qlog) (hn : ∀ o ∈ new, ∀ x, o.gives x = true → x = ev)
    (hp : (∃ o ∈ d.qlog, Served ev o) ∨ (.events ∈ d.calls ∧ d.switches = ev.epoch ∧
      ∃ pre post, d.queue.outList = pre ++ ev :: post ∧ ∀ x ∈ pre, ev.oid < x.oid)) :
    Ahead b ev d := by
  refine ⟨by simp [hq], fun x hx => ?_, fun x hx => before_of_not_given ?_, hp⟩
  · rw [hm.1]
    exact (ho.accounted.of_queued hx).1
  · obtain ⟨hlt, hg⟩ := ho.accounted.of_queued hx
    intro o hin
    rw [hq] at hin
    rcases List.mem_append.mp hin with hin | hin
    · rw [Bool.eq_false_iff]
      intro hgx
      obtain rfl := hn o hin x hgx
      rw [hm.1] at hlt
      exact Nat.lt_irrefl _ hlt
    · rcases List.mem_cons.mp hin with rfl | hin
      · rfl
      · exact hg o hin

/-- **An immediate event that is raised** in the event phase, or given to its handler at
once, is ahead; another one is late. -/
theorem ahead_or_late (hm : Move b d) (ho : b.Orderly) (hr : Raises ev b d)
    (hi : ev.immediate = true) :
    if .events ∈ b.calls ∨ .triggered ev ∈ d.qlog then Ahead b ev d else Late ev d := by
  obtain ⟨hin, hnot⟩ := hr
  -- What has been triggered is served, whatever the phase.
  have hserved : ∀ new : List QueueObs, b.Makes ev → d.qlog = new ++ .raised ev :: b.qlog →
      (∀ o ∈ new, ∀ x, o.gives x = true → x = ev) → .triggered ev ∈ new →
      if .events ∈ b.calls ∨ .triggered ev ∈ d.qlog then Ahead b ev d else Late ev d := by
    intro new hev hq hn ht
    have htq : .triggered ev ∈ d.qlog := hq ▸ List.mem_append_left _ ht
    rw [if_pos (.inr htq)]
    exact ahead_of_makes ho hev new hq hn (.inl ⟨_, htq, by simp [Served]⟩)
  cases hm with
  | made hmade =>
    cases hmade with
    | @queue ev' hev =>
      obtain rfl : ev = ev' := by simpa [raise, note, hnot] using hin
      have hgiven : ∀ o : QueueObs, o.gives ev = true → o ∉ b.qlog := by
        intro o hg ho'
        have h0 : b.qlog.countP (·.gives ev) = 0 := by
          have h1 := ho.accounted.kept ev
          have h2 := ho.accounted.given ev
          have h3 := count_raised ho.accounted hev
          omega
        exact absurd hg (List.countP_eq_zero.mp h0 o ho')
      have ht : .triggered ev ∉ b.qlog := hgiven _ (by simp)
      split
      · rename_i hc
        have hc' : .events ∈ b.calls := hc.resolve_right (by simpa [raise, note] using ht)
        refine ahead_of_makes ho hev [] rfl (by simp)
          (.inr ⟨hc', hev.2.symm, [], b.queue.outList, ?_, ?_⟩)
        · simp [EventQueue.addEvent, hi]
        · simp
      · rename_i hc
        refine ⟨List.mem_cons_self, by simpa [raise, note] using ht, fun k hk => ?_, fun _ h => ?_⟩
        · have hk' : .handled ev k ∈ b.qlog := by simpa [raise, note] using hk
          exact absurd hk' (hgiven _ (by simp))
        · exact absurd (.inl h) hc
    | @idle ev' hev =>
      obtain rfl : ev = ev' := by simpa [raise, note, hnot] using hin
      exact hserved [.deleted ev, .triggered ev] hev rfl (by simp) (by simp)
    | @trigger ev' prev hev =>
      obtain rfl : ev = ev' := by simpa [raise, note, hnot] using hin
      exact hserved [.triggered ev] hev rfl (by simp) (by simp)
  | delete | take => exact absurd (by simpa [note] using hin) hnot
  | step | timersDone | switch | finish | release | released | leave => exact absurd hin hnot

end Desk

namespace State

variable {cfg : Config} {s t u : State} {a : Act} {ev : Event}

/-- The first event phase that begins after the event was raised is over. -/
def Past (u : State) (ev : Event) : Prop :=
  ev.epoch + 1 < u.switches ∨ ev.epoch + 1 = u.switches ∧ .events ∉ u.frames

/-- **The event goes first**: before all events queued in the first state, and no later
than in the first event phase that begins after it was raised. -/
structure First (s u : State) (ev : Event) : Prop where
  order : ∀ x ∈ s.queue.inList ++ s.queue.outList, Before u.qlog ev x
  inTime : u.Past ev → ∃ o ∈ u.qlog, Desk.Served ev o

theorem events_mem_desk (s : State) : .events ∈ s.desk.calls ↔ .events ∈ s.frames := by
  simp [desk, Frame.isDesk]

/-- What every move keeps, every run keeps. -/
theorem desk_of_reaches {P : Desk → Prop}
    (hP : ∀ {d d' : Desk}, Desk.Move d d' → d.Orderly → P d → P d') (ho : t.desk.Orderly)
    (h0 : P t.desk) (hu : Run.Reaches (step cfg) t u) : P u.desk := by
  have hi := hu.invariant (I := fun v => v.desk.Orderly ∧ P v.desk) ⟨ho, h0⟩
      fun v b w hv _ hvw => by
    refine ⟨(serves_of_step hvw).orderly hv.1, ?_⟩
    rcases serves_of_step hvw with he | hm
    · exact he ▸ hv.2
    · exact hP hm hv.1 hv.2
  exact hi.2

/-- **When immediate events go first**: when they are raised in the event phase of a
step, or triggered and not refused. Any other is still waiting when the next event
phase is over. -/
theorem first_iff (hs : Reachable cfg s) (ht : s.step cfg a = some t)
    (hr : .raised ev ∈ t.qlog) (hn : .raised ev ∉ s.qlog) (hi : ev.immediate = true)
    (hu : Run.Reaches (step cfg) t u) :
    (.events ∈ s.frames ∨ .triggered ev ∈ t.qlog → First s u ev) ∧
      (u.Past ev → (First s u ev ↔ .events ∈ s.frames ∨ .triggered ev ∈ t.qlog)) := by
  have ho := orderly_of_reachable hs
  have hot := (serves_of_step ht).orderly ho
  have hm : Desk.Move s.desk t.desk := by
    refine (serves_of_step ht).resolve_left fun he => hn ?_
    have hq : t.qlog = s.qlog := congrArg Desk.qlog he
    rwa [← hq]
  have hplace := Desk.ahead_or_late hm ho ⟨hr, hn⟩ hi
  have hlog : t.desk.qlog = t.qlog := rfl
  simp only [events_mem_desk, hlog] at hplace
  have hfirst : .events ∈ s.frames ∨ .triggered ev ∈ t.qlog → First s u ev := by
    intro hc
    rw [if_pos hc] at hplace
    have ha : Desk.Ahead s.desk ev u.desk :=
      desk_of_reaches (fun hm ho => .move hm ho) hot hplace hu
    refine ⟨ha.before, fun hp => ha.place.resolve_right ?_⟩
    rintro ⟨-, hk, -⟩
    have hk' : u.switches = ev.epoch := hk
    unfold Past at hp
    omega
  refine ⟨hfirst, fun hp => ⟨fun hf => ?_, hfirst⟩⟩
  by_contra hc
  rw [if_neg hc] at hplace
  have hl : Desk.Late ev u.desk := desk_of_reaches (fun hm ho => .move hi hm ho) hot hplace hu
  obtain ⟨o, ho, hg, hk⟩ := hf.inTime hp
  cases o with
  | handled ev' k =>
    obtain rfl : ev' = ev := by simpa using hg
    have h1 := hl.handled k ho
    have h2 := hk k rfl
    omega
  | triggered ev' =>
    obtain rfl : ev' = ev := by simpa using hg
    exact hl.queued ho
  | raised ev' | deleted ev' => cases hg

/-- A step that raises an event and the end of a run after it, found by playing actions. -/
theorem exists_of_raise (cfg : Config) (as bs : List Act) (a : Act) (ev : Event)
    (P : State → State → State → Prop) [∀ s t u, Decidable (P s t u)]
    (h : ((play cfg as).any fun s => (s.step cfg a).any fun t =>
      decide (.raised ev ∈ t.qlog ∧ .raised ev ∉ s.qlog) &&
        (Run.drive (step cfg) .tau 1000 t bs).any fun u => decide (P s t u)) = true) :
    ∃ s t u, Reachable cfg s ∧ s.step cfg a = some t ∧ .raised ev ∈ t.qlog ∧
      .raised ev ∉ s.qlog ∧ Run.Reaches (step cfg) t u ∧ P s t u := by
  obtain ⟨s, hs, h⟩ := (Option.any_eq_true _ _).mp h
  obtain ⟨t, ht, h⟩ := (Option.any_eq_true _ _).mp h
  rw [Bool.and_eq_true, decide_eq_true_iff] at h
  obtain ⟨⟨hr, hn⟩, h⟩ := h
  obtain ⟨u, hu, h⟩ := (Option.any_eq_true _ _).mp h
  exact ⟨s, t, u, reachable_of_play hs, ht, hr, hn, Run.reaches_of_drive hu, of_decide_eq_true h⟩

instance : Decidable (t.Past ev) := by
  unfold Past
  infer_instance

/-- A node function raises an immediate event in the event phase. -/
theorem first_raising : ∃ s t u, Reachable {} s ∧
    s.step {} (.op (.event 2 1 true false)) = some t ∧ Run.Reaches (step {}) t u ∧
    s.queue.inList ≠ [] ∧ u.Past ⟨2, 2, 1, true, 1⟩ ∧ First s u ⟨2, 2, 1, true, 1⟩ := by
  obtain ⟨s, t, u, hs, ht, hr, hn, hu, hin, hph, hp⟩ := exists_of_raise {} (raisingActs.take 7)
    (raisingActs.drop 8) (.op (.event 2 1 true false)) ⟨2, 2, 1, true, 1⟩
    (fun s _ u => s.queue.inList ≠ [] ∧ .events ∈ s.frames ∧ u.Past ⟨2, 2, 1, true, 1⟩)
    (by decide +kernel)
  exact ⟨s, t, u, hs, ht, hu, hin, hp, (first_iff hs ht hr hn rfl hu).1 (.inl hph)⟩

/-- **An immediate event goes last**: it is raised between steps, after another event. The
next step handles that one, and the step after it the immediate one. -/
theorem not_first_between : ∃ s t u, Reachable {} s ∧
    s.step {} (.op (.event 0 1 true false)) = some t ∧ .raised ⟨1, 0, 1, true, 0⟩ ∈ t.qlog ∧
    Run.Reaches (step {}) t u ∧ ¬First s u ⟨1, 0, 1, true, 0⟩ := by
  obtain ⟨s, t, u, hs, ht, hr, hn, hu, hf, hp, hx⟩ := exists_of_raise {}
    [.op (.register 0), .op (.event 0 1 false false)] [.op .step, .timersDone]
    (.op (.event 0 1 true false)) ⟨1, 0, 1, true, 0⟩
    (fun s t u => s.frames = [] ∧ u.Past ⟨1, 0, 1, true, 0⟩ ∧
      .triggered ⟨1, 0, 1, true, 0⟩ ∉ t.qlog) (by decide +kernel)
  refine ⟨s, t, u, hs, ht, hr, hu, fun h => ?_⟩
  rcases ((first_iff hs ht hr hn rfl hu).2 hp).mp h with hc | hc
  · simp [hf] at hc
  · exact hx hc

end State

end Asyncflow
