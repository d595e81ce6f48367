import Asyncflow.Moves.Step

/-!
# The event queue

The two lists of `EventQueue` are swapped by every `Step`, events raised
`immediate` go to the front of the list being emptied, and a triggered event only
reaches the queue when it is refused. `Asyncflow.Desk` is what this has to do
with: the two lists, the history of the events, and of the call stack only the
calls that hold an event or are a phase of a step. A step of the machine makes at most
one of the few moves of `Asyncflow.Desk.Move` there
(`Asyncflow.State.serves_of_step`).

The invariant `Asyncflow.Desk.Orderly` says what each list may hold in each
phase, in terms of the number of `Switch` calls; an event raised `immediate`
outside the event phase goes through both lists and is handled one step later
than the others.
-/

namespace Asyncflow

/-! ### The desk -/

/-- The event that `Manager::Event` made. -/
def QueueObs.raised? : QueueObs → Option Event
  | .raised ev => some ev
  | .handled _ _ | .triggered _ | .deleted _ => none

/-- The event that `HandleEvent` got. -/
def QueueObs.handled? : QueueObs → Option Event
  | .handled ev _ => some ev
  | .raised _ | .triggered _ | .deleted _ => none

/-- `HandleEvent` or `TriggerEvent` got the event. -/
def QueueObs.gives (ev : Event) : QueueObs → Bool
  | .handled ev' _ | .triggered ev' => ev' = ev
  | _ => false

@[simp] theorem QueueObs.gives_raised (ev ev' : Event) : (raised ev').gives ev = false := rfl

@[simp] theorem QueueObs.gives_handled (ev ev' : Event) (k : ℕ) :
    (handled ev' k).gives ev = decide (ev' = ev) := rfl

@[simp] theorem QueueObs.gives_triggered (ev ev' : Event) :
    (triggered ev').gives ev = decide (ev' = ev) := rfl

@[simp] theorem QueueObs.gives_deleted (ev ev' : Event) : (deleted ev').gives ev = false := rfl

/-- The event that a call deletes when it is done. -/
def Frame.held? : Frame → Option Event
  | .trigger _ ev | .deleteEvent ev => some ev
  | _ => none

@[simp] theorem Frame.held?_trigger (prev : Option Event) (ev : Event) :
    (trigger prev ev).held? = some ev := rfl

@[simp] theorem Frame.held?_deleteEvent (ev : Event) : (deleteEvent ev).held? = some ev := rfl

@[simp] theorem Frame.held?_timers : timers.held? = none := rfl

@[simp] theorem Frame.held?_async : async.held? = none := rfl

@[simp] theorem Frame.held?_events : events.held? = none := rfl

@[simp] theorem Frame.held?_dying (as : List AgentId) : (dying as).held? = none := rfl

@[simp] theorem Frame.held?_release (a : AgentId) : (release a).held? = none := rfl

/-- The phases of a step. -/
def Frame.isPhase : Frame → Bool
  | .timers | .async | .events | .dying _ => true
  | _ => false

/-- The calls that the discipline of the queue depends on. -/
def Frame.isDesk : Frame → Bool
  | .trigger _ _ | .deleteEvent _ | .timers | .async | .events | .dying _ | .release _ => true
  | _ => false

/-- The part of the state that has to do with the events. -/
structure Desk where
  /-- The phase of the step and the calls that hold an event. -/
  calls : List Frame
  /-- `event_queue_`. -/
  queue : EventQueue
  /-- The number of events made so far. -/
  nextEvent : ℕ
  /-- The number of `Switch` calls so far. -/
  switches : ℕ
  /-- The history of the events. -/
  qlog : List QueueObs
  /-- `in_step_`. -/
  inStep : Bool
  /-- The agents deleted so far. -/
  deleted : List AgentId

/-- The desk of a state. -/
def State.desk (s : State) : Desk :=
  ⟨s.frames.filter (·.isDesk), s.queue, s.nextEvent, s.switches, s.qlog, s.inStep, s.deleted⟩

namespace Desk

/-- Records entries of the history of the events, the newest one first. -/
def note (d : Desk) (os : List QueueObs) : Desk := { d with qlog := os ++ d.qlog }

/-- An event that `Manager::Event` makes now. -/
def Makes (d : Desk) (ev : Event) : Prop := ev.oid = d.nextEvent ∧ ev.epoch = d.switches

/-- The start of `Manager::Event`. -/
def raise (d : Desk) (ev : Event) : Desk :=
  { d.note [.raised ev] with nextEvent := d.nextEvent + 1 }

/-- What `Manager::Event` does with the event it makes. -/
inductive Made : Desk → Desk → Prop
  /-- The event is queued. -/
  | queue {d ev} : d.Makes ev → Made d { d.raise ev with queue := d.queue.addEvent ev }
  /-- The event is triggered, with nobody waiting for it. -/
  | idle {d ev} : d.Makes ev → Made d ((d.raise ev).note [.deleted ev, .triggered ev])
  /-- The event is being triggered. -/
  | trigger {d ev} (prev) : d.Makes ev → Made d
      { (d.raise ev).note [.triggered ev] with calls := .trigger prev ev :: d.calls }

/-- **What can happen to the events.** -/
inductive Move : Desk → Desk → Prop
  /-- `Manager::Event`. -/
  | made {d d'} : Made d d' → Move d d'
  /-- A call that holds an event is done with it. -/
  | delete {d f ev rest} : d.calls = f :: rest → f.held? = some ev →
      Move d { d.note [.deleted ev] with calls := rest }
  /-- `Manager::Step`. -/
  | step {d} : d.calls = [] → Move d { d with calls := [.timers], inStep := true }
  /-- The end of the timer phase. -/
  | timersDone {d rest} : d.calls = .timers :: rest → Move d { d with calls := .async :: rest }
  /-- The `Switch`. -/
  | switch {d rest} : d.calls = .async :: rest → Move d
      { d with calls := .events :: rest, queue := d.queue.switch, switches := d.switches + 1 }
  /-- An event is taken from the queue. -/
  | take {d rest ev evs} : d.calls = .events :: rest → d.queue.outList = ev :: evs →
      Move d { d.note [.handled ev d.switches] with
        calls := .deleteEvent ev :: d.calls, queue := { d.queue with outList := evs } }
  /-- The end of the event phase. -/
  | finish {d rest} (as) : d.calls = .events :: rest → d.queue.outList = [] →
      Move d { d with calls := .dying as :: rest }
  /-- The deletion of an agent begins. -/
  | release {d rest a as} : d.calls = .dying (a :: as) :: rest →
      Move d { d with calls := .release a :: .dying as :: rest }
  /-- The deletion of an agent ends. -/
  | released {d rest a} : d.calls = .release a :: rest →
      Move d { d with calls := rest, deleted := a :: d.deleted }
  /-- The end of the step. -/
  | leave {d rest} : d.calls = .dying [] :: rest → Move d { d with calls := rest, inStep := false }

end Desk

/-! ### A step of the machine at the desk -/

namespace State

variable {cfg : Config} {s t : State} {a : Act} {rest : List Frame}

/-- At most one event is made between the first state and the second. -/
def Posts (s t : State) : Prop := t.desk = s.desk ∨ Desk.Made s.desk t.desk

theorem Posts.of_eq (h : t.desk = s.desk) : s.Posts t := .inl h

theorem Posts.of_desk {u : State} (hd : s.desk = u.desk) (h : u.Posts t) : s.Posts t := by
  rwa [Posts, hd]

/-- The heap does not matter at the desk. -/
theorem Posts.of_mapHeap (f : Heap → Heap) (h : (s.mapHeap f).Posts t) : s.Posts t := h

/-- At most one move leads from the first state to the second. -/
def Serves (s t : State) : Prop := t.desk = s.desk ∨ Desk.Move s.desk t.desk

theorem Serves.of_eq (h : t.desk = s.desk) : s.Serves t := .inl h

theorem Serves.single (h : Desk.Move s.desk t.desk) : s.Serves t := .inr h

theorem Posts.serves (h : s.Posts t) : s.Serves t := h.imp_right .made

theorem Serves.congr {u : State} (h : s.Serves t) (hd : u.desk = t.desk) : s.Serves u := by
  rwa [Serves, hd]

theorem desk_call {f : Frame} (hf : f.isDesk = false) : (s.call f).desk = s.desk := by
  simp [desk, call, hf]

/-- A call that is not at the desk goes on as others that are not. -/
theorem desk_frames {fs : List Frame}
    (hf : fs.filter (·.isDesk) = s.frames.filter (·.isDesk)) :
    { s with frames := fs }.desk = s.desk := by
  simp only [desk, hf]

theorem desk_pop {f : Frame} (hs : s.frames = f :: rest) (hf : f.isDesk = false) :
    { s with frames := rest }.desk = s.desk :=
  desk_frames (by simp [hs, hf])

theorem calls_desk {f : Frame} (hs : s.frames = f :: rest) (hf : f.isDesk = true) :
    s.desk.calls = f :: rest.filter (·.isDesk) := by
  simp [desk, hs, hf]

theorem posts_event (s : State) (e : EventId) (a : AgentId) (imm trigger : Bool) :
    s.Posts (s.event cfg e a imm trigger) := by
  unfold event
  split
  · cases trigger with
    | false => exact .inr (.queue ⟨rfl, rfl⟩)
    | true =>
      simp only [↓reduceIte, triggerEvent]
      split
      · exact .inr (.idle ⟨rfl, rfl⟩)
      · split
        · exact .inr (.queue ⟨rfl, rfl⟩)
        · exact .inr (.trigger s.currentEvent ⟨rfl, rfl⟩)
  · exact .of_eq rfl

theorem posts_startLater (s : State) (a : AgentId) (c : ChartId) :
    s.Posts (s.startLater cfg a c) :=
  .of_mapHeap _ (posts_event ..)

theorem posts_startChart (s : State) (a : AgentId) (c : ChartId) (sync : Bool) :
    s.Posts (s.startChart cfg a c sync) := by
  unfold startChart
  split
  · exact .of_eq rfl
  · cases sync with
    | true => exact .of_eq rfl
    | false => exact .of_mapHeap _ (posts_startLater ..)

theorem desk_chartReturn (s : State) (c : ChartId) (b : Bool) :
    (s.chartReturn c b).desk = s.desk := by
  unfold chartReturn
  dsimp only
  split <;> rfl

theorem posts_continueLater (s : State) (n : NodeRef) : s.Posts (s.continueLater cfg n) := by
  unfold continueLater
  split
  · exact .of_mapHeap _ (posts_event ..)
  · exact .of_eq rfl

theorem desk_finishReturn (s : State) (c : ChartId) : (s.finishReturn c).desk = s.desk := by
  unfold finishReturn
  dsimp only
  split <;> rfl

theorem desk_managerReturn (s : State) (b : Bool) : (s.managerReturn b).desk = s.desk := by
  unfold managerReturn
  split
  · rfl
  · split
    · exact desk_chartReturn ..
    · rfl

theorem posts_subchart (s : State) (name : String) (a : AgentId) :
    s.Posts (s.subchart cfg name a) := by
  unfold subchart
  split
  · dsimp only
    split
    · exact .of_mapHeap _ (posts_startChart ..)
    · exact .of_eq rfl
  · exact .of_eq rfl

theorem posts_refuse {n : NodeRef} (hs : s.frames = .enter n :: rest) :
    s.Posts (s.refuse cfg n rest) := by
  unfold refuse
  split
  · refine .of_desk (u := { s.mapHeap (·.note (.refused n)) with frames := _ }) ?_
      (posts_startLater ..)
    exact (desk_frames (by simp [hs, Frame.isDesk])).symm
  · refine .of_desk (u := { s.mapHeap (·.note (.refused n)) with frames := _ }) ?_
      (posts_continueLater ..)
    exact (desk_frames (by simp [hs, Frame.isDesk])).symm
  · exact .of_eq (desk_pop (s := s.mapHeap (·.note (.refused n))) hs rfl)

theorem posts_enterFlow {n : NodeRef} (hs : s.frames = .enter n :: rest) :
    s.Posts (s.enterFlow cfg n rest) := by
  unfold enterFlow
  dsimp only
  split
  · exact posts_refuse hs
  · split
    · exact .of_eq rfl
    · split
      · exact .of_eq (desk_frames (s := s.mapHeap _) (by simp [mapHeap, hs, Frame.isDesk]))
      · exact .of_eq (desk_pop (s := s.mapHeap _) hs rfl)

theorem desk_continueFlow {n : NodeRef} (hs : s.frames = .continuing n :: rest) :
    (s.continueFlow n rest).desk = s.desk := by
  unfold continueFlow
  dsimp only
  split
  · rfl
  · split
    · exact desk_pop (s := s.mapHeap _) hs rfl
    · exact desk_frames (by simp [hs, Frame.isDesk])

theorem desk_runNode (s : State) (l : ℕ) (n : NodeRef) : (s.runNode l n).desk = s.desk := by
  unfold runNode
  dsimp only
  split
  · rfl
  · split <;> rfl

/-- A flow is not at the desk in any of its rounds. -/
theorem desk_flow {l k k' : ℕ} {c : ChartId} {r r' : Bool} {f : Heap → Heap}
    (hs : s.frames = .flow l c k r :: rest) :
    { s.mapHeap f with frames := .flow l c k' r' :: rest }.desk = s.desk :=
  desk_frames (s := s.mapHeap f) (by simp [mapHeap, hs, Frame.isDesk])

theorem desk_ended {l k : ℕ} {c : ChartId} {r : Bool} {f : Heap → Heap}
    (hs : s.frames = .flow l c k r :: rest) :
    { s.mapHeap f with frames := .ended l c r :: rest }.desk = s.desk :=
  desk_frames (s := s.mapHeap f) (by simp [mapHeap, hs, Frame.isDesk])

theorem desk_flowRound {l k : ℕ} {c : ChartId} {r : Bool} (hs : s.frames = .flow l c k r :: rest) :
    (s.flowRound cfg l c k r rest).desk = s.desk := by
  unfold flowRound
  split
  · exact desk_ended hs
  · split
    · exact desk_ended hs
    · split
      · exact desk_ended hs
      · split
        · exact desk_flow hs
        · split
          · exact desk_flow hs
          · exact (desk_runNode ..).trans (desk_flow (f := id) hs)

theorem desk_flowCheck {l : ℕ} {c : ChartId} {r : Bool} (hs : s.frames = .ended l c r :: rest) :
    (s.flowCheck l c r rest).desk = s.desk := by
  unfold flowCheck
  split
  · exact (desk_chartReturn ..).trans
      (desk_frames (by simp [hs, Frame.isDesk]))
  · exact desk_pop (s := s.mapHeap _) hs rfl

theorem desk_handleRound {ev : Event} (hs : s.frames = .handle ev :: rest) :
    (s.handleRound rest).desk = s.desk := by
  unfold handleRound
  split
  · exact desk_pop (s := { s with currentEvent := none }) hs rfl
  · split
    · exact desk_pop (s := { s.mapHeap ({ · with handling := _ }) with currentEvent := none })
        hs rfl
    · rfl

theorem serves_asyncRound (hs : s.frames = .async :: rest) : s.Serves (s.asyncRound rest) := by
  unfold asyncRound
  split
  · exact .single (.switch (calls_desk hs rfl))
  · exact .of_eq rfl

theorem serves_eventsRound (hs : s.frames = .events :: rest) :
    s.Serves (s.eventsRound cfg rest) := by
  unfold eventsRound
  split
  · have hd : ({ s with frames := .dying s.heap.destroying :: rest } : State).desk =
        { s.desk with calls := .dying s.heap.destroying :: rest.filter (·.isDesk) } := rfl
    exact .single (hd ▸ .finish _ (calls_desk hs rfl) ‹_›)
  · rename_i ev evs hq
    refine .congr (t := ({ s with queue := { s.queue with outList := evs } }.qnote
      (.handled ev s.switches)).call (.deleteEvent ev)) ?_ ?_
    · exact .single (.take (calls_desk hs rfl) hq)
    · dsimp only
      split <;> rfl

theorem serves_dyingRound {as : List AgentId} (hs : s.frames = .dying as :: rest) :
    s.Serves (s.dyingRound as rest) := by
  unfold dyingRound
  split
  · exact .single (.leave (calls_desk hs rfl))
  · exact .single (.release (calls_desk hs rfl))

/-- The calls of the API, apart from `Manager::Step`. -/
theorem posts_runOp {o : Op} (hne : o ≠ .step) (ho : s.runOp cfg o = some t) : s.Posts t := by
  cases o <;> simp only [runOp] at ho
  case startChart c =>
    split at ho
    · obtain ⟨a, -, rfl⟩ := Option.map_eq_some_iff.mp ho
      exact posts_startChart ..
    · cases ho
  case event e a imm trigger => cases ho; exact posts_event ..
  case subchart name a => cases ho; exact posts_subchart ..
  case managerReturn b => cases ho; exact .of_eq (desk_managerReturn ..)
  case step => exact absurd rfl hne
  case attachChart a name =>
    split at ho <;> cases ho
    split <;> exact .of_eq rfl
  case stopChart c => split at ho <;> cases ho; exact .of_eq rfl
  case waitEvent a e => split at ho <;> cases ho; exact .of_eq rfl
  all_goals cases ho; exact .of_eq rfl

/-- `Manager::Step` is called from outside only. -/
theorem frames_of_step_call (hm : s.mayCall .step = true) : s.frames = [] := by
  cases hs : s.frames with
  | nil => rfl
  | cons f fs => cases f <;> simp [mayCall, hs] at hm

theorem serves_runOp {o : Op} (hm : s.mayCall o = true) (ho : s.runOp cfg o = some t) :
    s.Serves t := by
  by_cases hstep : o = .step
  swap
  · exact (posts_runOp hstep ho).serves
  subst hstep
  cases ho
  have hf : s.frames = [] := frames_of_step_call hm
  have hd : (({ s with inStep := true } : State).call .timers).desk =
      { s.desk with calls := [.timers], inStep := true } := by
    simp [desk, call, hf, Frame.isDesk]
  refine .single ?_
  rw [hd]
  exact .step (by simp [desk, hf])

/-- **A step of the machine at the desk.** -/
theorem serves_of_step (h : s.step cfg a = some t) : s.Serves t := by
  cases (trans_of_step h).1 with
  | enter hf => exact (posts_enterFlow hf).serves
  | continuing hf => exact .of_eq (desk_continueFlow hf)
  | starting hf => exact .of_eq (desk_pop hf rfl)
  | flow hf => exact .of_eq (desk_flowRound hf)
  | ran hf =>
    exact .of_eq (desk_frames (s := s.mapHeap _) (by
      simp [mapHeap, hf, Frame.isDesk]))
  | ended hf => exact .of_eq (desk_flowCheck hf)
  | flowReturn hf => exact .of_eq (desk_pop (s := s.mapHeap _) hf rfl)
  | returning hf => exact .of_eq ((desk_finishReturn ..).trans (desk_pop hf rfl))
  | handle hf => exact .of_eq (desk_handleRound hf)
  | trigger hf => exact .single (.delete (calls_desk hf rfl) rfl)
  | async hf => exact serves_asyncRound hf
  | events hf => exact serves_eventsRound hf
  | deleteEvent hf => exact .single (.delete (calls_desk hf rfl) rfl)
  | dying hf => exact serves_dyingRound hf
  | released hf => exact .single (.released (calls_desk hf rfl))
  | op hm ho => exact serves_runOp hm ho
  | ret r hf =>
    refine .of_eq ((desk_call rfl).trans ?_)
    exact desk_pop (s := s.mapHeap (·.returnNode _ r)) hf rfl
  | done hf => exact .of_eq (desk_pop hf rfl)
  | fire hf hn => exact .of_eq rfl
  | tick hf ha => exact (posts_event ..).serves
  | timersDone hf => exact .single (.timersDone (calls_desk hf rfl))

end State

/-! ### The invariant -/

namespace Desk

/-- What the list being emptied may hold: in the event phase the events of the
last step and those raised `immediate` now or before it, otherwise only those
raised `immediate` since. -/
def Due (d : Desk) (ev : Event) : Prop :=
  if .events ∈ d.calls then
    if ev.immediate then ev.epoch = d.switches ∨ ev.epoch + 2 = d.switches
    else ev.epoch + 1 = d.switches
  else ev.immediate = true ∧ ev.epoch = d.switches

/-- What the list being filled may hold. -/
def Coming (d : Desk) (ev : Event) : Prop :=
  if ev.immediate then ev.epoch + 1 = d.switches else ev.epoch = d.switches

/-- The events that were not raised `immediate` and are handled or queued, the one
to be handled last first. -/
def line (d : Desk) : List Event :=
  (d.queue.inList.reverse ++ (d.queue.outList.reverse ++ d.qlog.filterMap QueueObs.handled?)).filter
    (!·.immediate)

/-- Where the events are. -/
structure Accounted (d : Desk) : Prop where
  /-- Events are made with different identities. -/
  fresh : ∀ ev, .raised ev ∈ d.qlog → ev.oid < d.nextEvent
  once : ∀ ev, d.qlog.count (.raised ev) ≤ 1
  /-- Every event is deleted, held by a call or in one of the lists. -/
  kept : ∀ ev, d.qlog.count (.deleted ev) + (d.calls.countP (·.held? = some ev) +
    (d.queue.outList.count ev + d.queue.inList.count ev)) = d.qlog.count (.raised ev)
  /-- The events given to a handler are those deleted or held by a call. -/
  given : ∀ ev, d.qlog.countP (·.gives ev) =
    d.qlog.count (.deleted ev) + d.calls.countP (·.held? = some ev)

/-- When the events are handled. -/
structure OnTime (d : Desk) : Prop where
  /-- A step is in one phase at a time. -/
  phase : d.calls.countP (·.isPhase) ≤ 1
  due : ∀ ev ∈ d.queue.outList, d.Due ev
  coming : ∀ ev ∈ d.queue.inList, d.Coming ev
  /-- An event that was not raised `immediate` is handled after the next `Switch`. -/
  epoch : ∀ ev k, .handled ev k ∈ d.qlog → ev.immediate = false → k = ev.epoch + 1

/-- The order of the events. -/
def InLine (d : Desk) : Prop := d.line.Sublist (d.qlog.filterMap QueueObs.raised?)

variable {d d' : Desk} {ev : Event}

theorem count_raised (ho : d.Accounted) (hm : d.Makes ev) : d.qlog.count (.raised ev) = 0 := by
  refine List.count_eq_zero.mpr fun hin => ?_
  have := ho.fresh ev hin
  rw [hm.1] at this
  exact Nat.lt_irrefl _ this

/-- The identities after a new event has been made. -/
theorem fresh_raise (ho : d.Accounted) (hm : d.Makes ev) (ev' : Event)
    (h : .raised ev' ∈ (d.raise ev).qlog) : ev'.oid < (d.raise ev).nextEvent := by
  have hn : (d.raise ev).nextEvent = d.nextEvent + 1 := rfl
  rcases List.mem_cons.mp h with h | h
  · obtain rfl : ev' = ev := by simpa using h
    rw [hn, hm.1]
    exact Nat.lt_succ_self _
  · exact Nat.lt_succ_of_lt (ho.fresh ev' h)

theorem once_raise (ho : d.Accounted) (hm : d.Makes ev) (ev' : Event) :
    (d.raise ev).qlog.count (.raised ev') ≤ 1 := by
  have hl : (d.raise ev).qlog = .raised ev :: d.qlog := rfl
  rw [hl]
  by_cases he : ev = ev'
  · subst he
    simp [count_raised ho hm]
  · rw [List.count_cons_of_ne (by simpa using he)]
    exact ho.once ev'

/-- The accounts after some entries, as long as they are balanced. -/
theorem Accounted.add (ho : d.Accounted) (os : List QueueObs) (hq : d'.qlog = os ++ d.qlog)
    (hfresh : ∀ ev, .raised ev ∈ d'.qlog → ev.oid < d'.nextEvent)
    (honce : ∀ ev, d'.qlog.count (.raised ev) ≤ 1)
    (hkept : ∀ ev, os.count (.deleted ev) + (d'.calls.countP (·.held? = some ev) +
      (d'.queue.outList.count ev + d'.queue.inList.count ev)) = os.count (.raised ev) +
      (d.calls.countP (·.held? = some ev) + (d.queue.outList.count ev + d.queue.inList.count ev)))
    (hgiven : ∀ ev, os.countP (·.gives ev) + d.calls.countP (·.held? = some ev) =
      os.count (.deleted ev) + d'.calls.countP (·.held? = some ev)) : d'.Accounted := by
  refine ⟨hfresh, honce, fun ev => ?_, fun ev => ?_⟩
  · have h1 := ho.kept ev
    have h2 := hkept ev
    rw [hq, List.count_append, List.count_append]
    omega
  · have h1 := ho.given ev
    have h2 := hgiven ev
    rw [hq, List.count_append, List.countP_append]
    omega

/-- The phases make no entries. -/
theorem Accounted.of_calls (ho : d.Accounted) (hq : d'.qlog = d.qlog)
    (hn : d'.nextEvent = d.nextEvent) (hcalls : ∀ ev, d'.calls.countP (·.held? = some ev) =
      d.calls.countP (·.held? = some ev))
    (hlists : ∀ ev, d'.queue.outList.count ev + d'.queue.inList.count ev =
      d.queue.outList.count ev + d.queue.inList.count ev) : d'.Accounted := by
  refine ho.add [] hq (by rw [hq, hn]; exact ho.fresh) (by rw [hq]; exact ho.once)
    (fun ev => ?_) fun ev => ?_
  · rw [hcalls, hlists]
    rfl
  · rw [hcalls]
    rfl

theorem Accounted.move (hm : Move d d') (ho : d.Accounted) : d'.Accounted := by
  cases hm with
  | made hmade =>
    cases hmade with
    | @queue ev hev =>
      refine ho.add [.raised ev] rfl (fresh_raise ho hev) (once_raise ho hev) (fun ev' => ?_)
        fun ev' => ?_
      · cases hi : ev.immediate <;>
          simp [EventQueue.addEvent, hi, List.count_cons, raise, note] <;> omega
      · simp [raise, note]
    | @idle ev hev =>
      refine ho.add [.deleted ev, .triggered ev, .raised ev] rfl ?_ ?_ (fun ev' => ?_) fun ev' => ?_
      · simpa [note] using fresh_raise ho hev
      · simpa [note] using once_raise ho hev
      · simp [List.count_cons, raise, note]
      · simp [List.count_cons, List.countP_cons, raise, note]
    | @trigger ev prev hev =>
      refine ho.add [.triggered ev, .raised ev] rfl ?_ ?_ (fun ev' => ?_) fun ev' => ?_
      · simpa [note] using fresh_raise ho hev
      · simpa [note] using once_raise ho hev
      · simp [List.count_cons, List.countP_cons, raise, note]
        omega
      · simp [List.countP_cons]
        omega
  | @delete f ev rest hc hf =>
    refine ho.add [.deleted ev] rfl (by simpa [note] using ho.fresh) (by simpa [note] using ho.once)
      (fun ev' => ?_) fun ev' => ?_
    · simp [hc, hf, List.count_cons, List.countP_cons, note]
      omega
    · simp [hc, hf, List.count_cons, List.countP_cons, Nat.add_comm]
  | @take rest ev evs hc hq =>
    refine ho.add [.handled ev d.switches] rfl (by simpa [note] using ho.fresh)
      (by simpa [note] using ho.once) (fun ev' => ?_) fun ev' => ?_
    · simp [hc, hq, List.count_cons, List.countP_cons]
      omega
    · simp [hc, List.countP_cons, Nat.add_comm]
  | step hc => exact ho.of_calls rfl rfl (by simp [hc]) fun _ => rfl
  | timersDone hc => exact ho.of_calls rfl rfl (by simp [hc]) fun _ => rfl
  | switch hc => exact ho.of_calls rfl rfl (by simp [hc]) fun _ => Nat.add_comm ..
  | finish as hc hq => exact ho.of_calls rfl rfl (by simp [hc]) fun _ => rfl
  | release hc => exact ho.of_calls rfl rfl (by simp [hc]) fun _ => rfl
  | released hc => exact ho.of_calls rfl rfl (by simp [hc]) fun _ => rfl
  | leave hc => exact ho.of_calls rfl rfl (by simp [hc]) fun _ => rfl

/-! ### The time -/

theorem due_congr (hc : .events ∈ d'.calls ↔ .events ∈ d.calls) (hs : d'.switches = d.switches) :
    d'.Due ev ↔ d.Due ev := by
  unfold Due
  rw [hs]
  simp only [hc]

/-- The conditions on the lists, as long as no phase begins or ends. -/
theorem OnTime.of_phase (ho : d.OnTime)
    (hp : d'.calls.countP (·.isPhase) = d.calls.countP (·.isPhase))
    (hc : .events ∈ d'.calls ↔ .events ∈ d.calls) (hs : d'.switches = d.switches)
    (hout : ∀ ev ∈ d'.queue.outList, ev ∈ d.queue.outList ∨ d.Due ev)
    (hin : ∀ ev ∈ d'.queue.inList, ev ∈ d.queue.inList ∨ d.Coming ev)
    (hq : ∀ ev k, .handled ev k ∈ d'.qlog → ev.immediate = false →
      .handled ev k ∈ d.qlog ∨ k = ev.epoch + 1) : d'.OnTime := by
  refine ⟨hp ▸ ho.phase, fun ev hev => ?_, fun ev hev => ?_, fun ev k hk => ?_⟩
  · exact (due_congr hc hs).mpr ((hout ev hev).elim (ho.due ev) id)
  · have h : d.Coming ev := (hin ev hev).elim (ho.coming ev) id
    rwa [Coming, hs]
  · exact fun hi => (hq ev k hk hi).elim (ho.epoch ev k · hi) id

/-- The place of a new event. -/
theorem due_or_coming_of_makes (hm : d.Makes ev) :
    if ev.immediate then d.Due ev else d.Coming ev := by
  unfold Due Coming
  cases hi : ev.immediate <;> simp [hm.2]

/-- Before the `Switch` the event phase has not begun. -/
theorem OnTime.not_events (ho : d.OnTime) {rest : List Frame} (hc : d.calls = .async :: rest) :
    .events ∉ d.calls := by
  have hp := ho.phase
  rw [hc, List.countP_cons_of_pos (by rfl)] at hp
  rw [hc]
  rintro (_ | ⟨_, h⟩)
  have : 0 < rest.countP (·.isPhase) := List.countP_pos_iff.mpr ⟨_, h, rfl⟩
  omega

theorem OnTime.move (hm : Move d d') (ho : d.OnTime) : d'.OnTime := by
  cases hm with
  | made hmade =>
    cases hmade with
    | @queue ev hev =>
      have hev := due_or_coming_of_makes hev
      refine ho.of_phase rfl Iff.rfl rfl (fun ev' h => ?_) (fun ev' h => ?_)
        fun _ _ h _ => .inl (by simpa [raise, note] using h)
      · cases hi : ev.immediate with
        | false => exact .inl (by simpa [EventQueue.addEvent, hi] using h)
        | true =>
          simp only [hi, ↓reduceIte, EventQueue.addEvent, List.mem_cons] at h hev
          exact h.symm.imp_right fun (he : ev' = ev) => he ▸ hev
      · cases hi : ev.immediate with
        | true => exact .inl (by simpa [EventQueue.addEvent, hi] using h)
        | false =>
          simp only [hi, Bool.false_eq_true, ↓reduceIte, EventQueue.addEvent, List.mem_append,
            List.mem_singleton] at h hev
          exact h.imp_right fun (he : ev' = ev) => he ▸ hev
    | @idle ev hev =>
      exact ho.of_phase rfl Iff.rfl rfl (fun _ => .inl) (fun _ => .inl)
        fun _ _ h _ => .inl (by simpa [raise, note] using h)
    | @trigger ev prev hev =>
      exact ho.of_phase (by simp [Frame.isPhase]) (by simp) rfl (fun _ => .inl) (fun _ => .inl)
        fun _ _ h _ => .inl (by simpa [raise, note] using h)
  | @delete f ev rest hc hf =>
    have hne : f.isPhase = false ∧ .events ≠ f := by cases f <;> simp_all [Frame.isPhase]
    exact ho.of_phase (by simp [hc, hne.1]) (by simp [hc, hne.2]) rfl (fun _ => .inl)
      (fun _ => .inl) fun _ _ h _ => .inl (by simpa [note] using h)
  | step hc =>
    refine ⟨Nat.le_refl 1, fun ev h => ?_, ho.coming, ho.epoch⟩
    have hd : Due { d with calls := [.timers] } ev ↔ d.Due ev := due_congr (by simp [hc]) rfl
    exact hd.mpr (ho.due ev h)
  | timersDone hc =>
    exact ho.of_phase (by simp [hc, Frame.isPhase]) (by simp [hc]) rfl (fun _ => .inl)
      (fun _ => .inl) fun _ _ h _ => .inl h
  | @switch rest hc =>
    have hev : .events ∉ d.calls := ho.not_events hc
    refine ⟨?_, fun ev h => ?_, fun ev h => ?_, ho.epoch⟩
    · have := ho.phase
      rw [hc, List.countP_cons_of_pos (by rfl)] at this
      rw [List.countP_cons_of_pos (by rfl)]
      exact this
    · have h := ho.coming ev h
      unfold Coming at h
      unfold Due
      simp only [List.mem_cons, true_or, ↓reduceIte]
      split at h <;> simp [*]
    · have h := ho.due ev h
      rw [Due, if_neg hev] at h
      simp [Coming, h]
  | @take rest ev evs hc hq =>
    have hev : d.Due ev := ho.due ev (by simp [hq])
    refine ho.of_phase (by simp [Frame.isPhase]) (by simp) rfl (fun ev' h => .inl ?_)
      (fun _ => .inl) fun ev' k h hi => ?_
    · rw [hq]
      exact List.mem_cons_of_mem _ h
    · rcases List.mem_cons.mp h with h | h
      · obtain ⟨rfl, rfl⟩ : ev' = ev ∧ k = d.switches := by simpa using h
        rw [Due, if_pos (by simp [hc])] at hev
        exact .inr (by simpa [hi, eq_comm] using hev)
      · exact .inl h
  | @finish rest as hc hq =>
    have hp := ho.phase
    rw [hc, List.countP_cons_of_pos (by rfl)] at hp
    refine ⟨?_, by simp [hq], fun ev h => ho.coming ev h, ho.epoch⟩
    rw [List.countP_cons_of_pos (by rfl)]
    exact hp
  | release hc =>
    exact ho.of_phase (by simp [hc, Frame.isPhase]) (by simp [hc]) rfl (fun _ => .inl)
      (fun _ => .inl) fun _ _ h _ => .inl h
  | released hc =>
    exact ho.of_phase (by simp [hc, Frame.isPhase]) (by simp [hc]) rfl (fun _ => .inl)
      (fun _ => .inl) fun _ _ h _ => .inl h
  | @leave rest hc =>
    have hp := ho.phase
    rw [hc, List.countP_cons_of_pos (by rfl)] at hp
    have hdue : ∀ ev, Due { d with calls := rest } ev ↔ d.Due ev :=
      fun ev => due_congr (by simp [hc]) rfl
    refine ⟨by dsimp only; omega, fun ev h => (hdue ev).mpr (ho.due ev h), ho.coming, ho.epoch⟩

/-! ### The order -/

theorem InLine.move (hm : Move d d') (ht : d.OnTime) (ho : d.InLine) : d'.InLine := by
  unfold InLine line at *
  cases hm with
  | made hmade =>
    cases hmade with
    | @queue ev hev =>
      cases hi : ev.immediate with
      | true =>
        refine .trans ?_ (List.sublist_cons_self ev _)
        simpa [EventQueue.addEvent, hi, raise, note, List.filterMap_cons,
          QueueObs.handled?] using ho
      | false =>
        simpa [EventQueue.addEvent, hi, raise, note, List.filterMap_cons, QueueObs.handled?,
          QueueObs.raised?] using
          ho.cons_cons ev
    | @idle ev hev =>
      refine .trans ?_ (List.sublist_cons_self ev _)
      simpa [raise, note, List.filterMap_cons, QueueObs.handled?] using ho
    | @trigger ev prev hev =>
      refine .trans ?_ (List.sublist_cons_self ev _)
      simpa [raise, note, List.filterMap_cons, QueueObs.handled?] using ho
  | delete hc hf => simpa [note, List.filterMap_cons, QueueObs.handled?,
        QueueObs.raised?] using ho
  | @switch rest hc =>
    -- The list that has been emptied holds only events raised `immediate`.
    have hout : d.queue.outList.filter (!·.immediate) = [] := by
      refine List.filter_eq_nil_iff.mpr fun ev hev => ?_
      have := ht.due ev hev
      rw [Due, if_neg (ht.not_events hc)] at this
      simp [this.1]
    simpa [EventQueue.switch, hout] using ho
  | @take rest ev evs hc hq =>
    simpa [hq, note, List.filterMap_cons, QueueObs.handled?,
        QueueObs.raised?] using ho
  | step hc => exact ho
  | timersDone hc => exact ho
  | finish as hc hq => exact ho
  | release hc => exact ho
  | released hc => exact ho
  | leave hc => exact ho

/-- **The invariant of the event queue.** -/
structure Orderly (d : Desk) : Prop where
  accounted : d.Accounted
  onTime : d.OnTime
  inLine : d.InLine

theorem Orderly.move (hm : Move d d') (ho : d.Orderly) : d'.Orderly :=
  ⟨ho.accounted.move hm, ho.onTime.move hm, ho.inLine.move hm ho.onTime⟩

theorem orderly_init : State.init.desk.Orderly where
  accounted := ⟨nofun, fun _ => Nat.zero_le 1, fun _ => rfl, fun _ => rfl⟩
  onTime := ⟨Nat.zero_le 1, nofun, nofun, nofun⟩
  inLine := .slnil

end Desk

namespace State

variable {cfg : Config} {s t : State} {ev : Event}

theorem Serves.orderly (h : s.Serves t) (ho : s.desk.Orderly) : t.desk.Orderly := by
  rcases h with h | h
  · rwa [h]
  · exact ho.move h

theorem orderly_of_reachable (h : Reachable cfg s) : s.desk.Orderly :=
  h.invariant Desk.orderly_init fun _ _ _ ho _ hs => (serves_of_step hs).orderly ho

/-! ### The discipline -/

/-- **The discipline of the event queue.** Events are numbered by the `Switch` calls
before they were raised, so that those raised during the event phase of a step have
its number and all others the number of the step before. -/
structure Disciplined (s : State) : Prop where
  /-- Events are different objects. -/
  raisedOnce : ∀ ev, s.qlog.count (.raised ev) ≤ 1
  /-- An event is handled at most once, be it from the queue or by a trigger. -/
  handledOnce : ∀ ev, s.qlog.countP (·.gives ev) ≤ 1
  /-- No event is dropped or doubled: it is queued, in the hands of its handler, or
  deleted once. -/
  kept : ∀ ev, .raised ev ∈ s.qlog → s.qlog.count (.deleted ev) +
    (s.frames.countP (·.held? = some ev) +
      (s.queue.outList.count ev + s.queue.inList.count ev)) = 1
  /-- What is deleted has been handled. -/
  handled : ∀ ev, .deleted ev ∈ s.qlog → 0 < s.qlog.countP (·.gives ev)
  /-- Queued events that were not raised `immediate` are handled in the order in which
  they were raised. -/
  order : ((s.qlog.filterMap QueueObs.handled?).filter (!·.immediate)).Sublist
    (s.qlog.filterMap QueueObs.raised?)
  /-- They are handled in the first event phase that begins after they were raised. -/
  inTime : ∀ ev k, .handled ev k ∈ s.qlog → ev.immediate = false → k = ev.epoch + 1
  /-- Between steps they have been handled and deleted if a `Switch` came after them, and
  those raised `immediate` if two did. -/
  drained : s.frames = [] → ∀ ev, .raised ev ∈ s.qlog →
    (if ev.immediate then ev.epoch + 1 < s.switches else ev.epoch < s.switches) →
    s.qlog.countP (·.gives ev) = 1 ∧ s.qlog.count (.deleted ev) = 1

/-- The calls that hold an event are at the desk. -/
theorem countP_held_desk (s : State) (ev : Event) :
    s.desk.calls.countP (·.held? = some ev) = s.frames.countP (·.held? = some ev) := by
  rw [desk, List.countP_filter]
  refine List.countP_congr fun f _ => ?_
  cases f <;> simp [Frame.held?, Frame.isDesk]

theorem kept_of_accounted (ho : s.desk.Accounted) (hr : .raised ev ∈ s.qlog) :
    s.qlog.count (.deleted ev) + (s.frames.countP (·.held? = some ev) +
      (s.queue.outList.count ev + s.queue.inList.count ev)) = 1 := by
  have hk := ho.kept ev
  have hpos : 0 < s.qlog.count (.raised ev) := List.count_pos_iff.mpr hr
  have hle : s.qlog.count (.raised ev) ≤ 1 := ho.once ev
  rw [countP_held_desk] at hk
  exact hk.trans (Nat.le_antisymm hle hpos)

/-- Between steps both lists hold only what the next step or the one after it
handles. -/
theorem not_queued (ho : s.desk.OnTime) (hf : s.frames = [])
    (hlt : if ev.immediate then ev.epoch + 1 < s.switches else ev.epoch < s.switches) :
    ev ∉ s.queue.outList ∧ ev ∉ s.queue.inList := by
  have hev : .events ∉ s.desk.calls := by simp [desk, hf]
  constructor
  · intro h
    have hd := ho.due ev h
    rw [Desk.Due, if_neg hev] at hd
    rw [if_pos hd.1, hd.2] at hlt
    exact Nat.lt_irrefl _ (Nat.lt_of_succ_lt hlt)
  · intro h
    have hc := ho.coming ev h
    unfold Desk.Coming at hc
    change if ev.immediate then ev.epoch + 1 = s.switches else ev.epoch = s.switches at hc
    split at hc <;> simp_all

/-- **The event queue keeps its discipline**, in every run. -/
theorem disciplined_of_reachable (h : Reachable cfg s) : s.Disciplined := by
  obtain ⟨ha, ht, hl⟩ := orderly_of_reachable h
  have hgiven : ∀ ev, s.qlog.countP (·.gives ev) =
      s.qlog.count (.deleted ev) + s.frames.countP (·.held? = some ev) := fun ev => by
    rw [← countP_held_desk]
    exact ha.given ev
  refine ⟨ha.once, fun ev => ?_, fun ev => kept_of_accounted ha, fun ev hd => ?_, ?_, ht.epoch,
    fun hf ev hr hlt => ?_⟩
  · have hk := ha.kept ev
    have ho := ha.once ev
    rw [countP_held_desk] at hk
    rw [hgiven]
    dsimp only [desk] at hk ho
    omega
  · rw [hgiven]
    exact Nat.add_pos_left (List.count_pos_iff.mpr hd) _
  · refine List.Sublist.trans ?_ hl
    rw [Desk.line, List.filter_append, List.filter_append]
    exact (List.sublist_append_right ..).trans (List.sublist_append_right ..)
  · obtain ⟨hout, hin⟩ := not_queued ht hf hlt
    have hk := kept_of_accounted ha hr
    have hg := hgiven ev
    rw [List.count_eq_zero.mpr hout, List.count_eq_zero.mpr hin] at hk
    rw [hf] at hk hg
    simp only [List.countP_nil, Nat.add_zero] at hk hg
    exact ⟨hg.trans hk, hk⟩

/-- A chart is started by a queued start event; its second node raises one event of
each kind. -/
def raisingActs : List Act :=
  [.op (.importChart { name := "raising", nodes := [{ success := [1] }, { func := .script }] }),
    .op (.register 0), .op (.attachChart 1 "raising"), .op (.startChart 0), .op .step, .timersDone,
    .op (.event 2 1 false false), .op (.event 2 1 true false), .op (.event 1 1 false true),
    .ret .rTrue, .op .step, .timersDone]

theorem disciplined_raising : ∃ s, Reachable {} s ∧ s.frames = [] ∧ s.switches = 2 ∧
    s.qlog.countP (fun o => o.raised?.isSome) = 4 ∧ s.queue.inList = [] ∧ s.Disciplined := by
  obtain ⟨s, hs, hf, hk, hr, hq⟩ := exists_of_play {} raisingActs
    (fun s => s.frames = [] ∧ s.switches = 2 ∧ s.qlog.countP (fun o => o.raised?.isSome) = 4 ∧
      s.queue.inList = []) (by decide +kernel)
  exact ⟨s, hs, hf, hk, hr, hq, disciplined_of_reachable hs⟩

end State

end Asyncflow
