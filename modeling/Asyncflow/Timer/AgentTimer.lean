import Asyncflow.Timer.Service
import Mathlib.Data.Fintype.Card
import Mathlib.Data.Fintype.Sum
import Mathlib.Tactic.DeriveFintype

/-!
# The ticks of an agent

The two timers of the program are that of an agent, which raises the tick event of the agent and
starts itself anew, and that of a node that waits. Here they are put on the timer wheel. However
the time is divided into steps, and whatever else happens, an agent gets as many ticks as its
interval fits into the time that has passed since its timer was started.

The interval is `tick_interval_`, which `SetTickInterval` writes and `AgentTimer::Start` reads.
It is written by calls from outside and by the flows that a node's timer runs, also in the middle
of an advance of the wheel: `Asyncflow.ticksSince` follows it through the history of the advance.

The Python binding asks for less than that: it leaves the interval of a new agent at the default
of agents when the interval asked for happens to be the default of the *steps*.
-/

namespace Asyncflow

open Agenda (Note Call Answers Turn Turns Round)

/-- The events on the timer wheel: an `AgentTimer` or a `NodeTimer`. -/
inductive TimerEvent (α ν : Type)
  | agent (a : α)
  | node (n : ν)
deriving DecidableEq, Repr, Fintype

variable {α ν : Type}

/-! ### What functions do to timers -/

/-- What a function of the program does to timers: it writes intervals, and makes calls on the
timer wheel. -/
structure Timers (α ν : Type) where
  /-- `tick_interval_` of the agents. -/
  tickInterval : α → ℤ
  /-- The calls on the timer wheel, in their order. -/
  calls : List (Call (TimerEvent α ν)) := []

/-- One more call. -/
def Timers.make (s : Timers α ν) (c : Call (TimerEvent α ν)) : Timers α ν :=
  { s with calls := s.calls ++ [c] }

/-- `TimerManager::AddTimer`. -/
def TimerManager.addTimer (timer : TimerEvent α ν) (tick : ℤ) (s : Timers α ν) : Timers α ν :=
  s.make (.schedule timer (tick % 2 ^ 64).toNat)

/-- `AgentTimer::Start`. -/
def AgentTimer.start (a : α) (delay : ℤ) (s : Timers α ν) : Timers α ν :=
  TimerManager.addTimer (.agent a) (s.tickInterval a + delay) s

/-- `AgentTimer::Stop`. -/
def AgentTimer.stop (a : α) (s : Timers α ν) : Timers α ν := s.make (.cancel (.agent a))

/-- `NodeTimer::Stop`. -/
def NodeTimer.stop (n : ν) (s : Timers α ν) : Timers α ν := s.make (.cancel (.node n))

/-- `NodeTimer::Register`. -/
def NodeTimer.register (n : ν) (milliseconds : ℤ) (s : Timers α ν) : Timers α ν :=
  TimerManager.addTimer (.node n) milliseconds (s.make (.cancel (.node n)))

/-- `Manager::Wait`, as far as it concerns the timer of the node. -/
def Manager.wait (n : ν) (milliseconds : ℤ) (s : Timers α ν) : Timers α ν :=
  NodeTimer.register n (if milliseconds ≤ 0 then 1 else milliseconds) s

/-- `Manager::DEFAULT_AGENT_TICK`. -/
def Manager.defaultAgentTick : ℤ := 1000

section

variable [DecidableEq α]

/-- The write of `tick_interval_`. -/
def Timers.setTick (a : α) (tick : ℤ) (s : Timers α ν) : Timers α ν :=
  { s with tickInterval := Function.update s.tickInterval a tick }

/-- `Agent::Agent`, as far as it concerns the timer. -/
def Agent.new (a : α) (s : Timers α ν) : Timers α ν :=
  AgentTimer.start a 0 (s.setTick a Manager.defaultAgentTick)

/-- `Agent::SetTickInterval`. -/
def Agent.setTickInterval (a : α) (running : Bool) (tick : ℤ) (s : Timers α ν) : Timers α ν :=
  let s := s.setTick a tick
  if running then AgentTimer.start a 0 (AgentTimer.stop a s) else s

/-- `PyManager::RegisterGameObject` of a new agent, which is running, as far as it concerns the
timer. -/
def PyManager.registerGameObject (defaultTimeInterval : ℤ) (a : α) (tick : ℤ) (s : Timers α ν) :
    Timers α ν :=
  let tick := if tick ≤ 0 then Manager.defaultAgentTick else tick
  let s := Agent.new a s
  if tick ≠ defaultTimeInterval then Agent.setTickInterval a true tick s else s

/-- A call that does something to timers. -/
inductive TimerCall (α ν : Type)
  /-- An agent is made. -/
  | newAgent (a : α)
  /-- An agent is made from Python. -/
  | registerGameObject (a : α) (tick : ℤ)
  /-- `Agent::SetTickInterval`. -/
  | setTickInterval (a : α) (running : Bool) (tick : ℤ)
  /-- `Agent::~Agent`. -/
  | deleteAgent (a : α)
  /-- `Manager::Wait`. -/
  | wait (n : ν) (milliseconds : ℤ)
  /-- `NodeTimer::Stop`, or its destructor. -/
  | stopTimer (n : ν)

variable (defaultTimeInterval : ℤ)

/-- What the call does. -/
def TimerCall.exec : TimerCall α ν → Timers α ν → Timers α ν
  | .newAgent a => Agent.new a
  | .registerGameObject a tick => PyManager.registerGameObject defaultTimeInterval a tick
  | .setTickInterval a running tick => Agent.setTickInterval a running tick
  | .deleteAgent a => AgentTimer.stop a
  | .wait n milliseconds => Manager.wait n milliseconds
  | .stopTimer n => NodeTimer.stop n

/-! ### Timers that execute -/

variable (runFlow : List (Note (TimerEvent α ν)) → List (TimerCall α ν))

/-- `AgentTimer::execute` and `NodeTimer::execute`, for the event of the newest note. The tick event
is put in the queue and touches no timer; what the flow of a node does may depend on all that
happened. -/
def executeTimer (tickInterval : α → ℤ) : List (Note (TimerEvent α ν)) → Timers α ν
  | .fire (.agent a) _ :: _ => AgentTimer.start a 0 { tickInterval }
  | .fire (.node n) t :: j => (runFlow (.fire (.node n) t :: j)).foldl
      (fun s c => c.exec defaultTimeInterval s) { tickInterval }
  | _ => { tickInterval }

/-- `tick_interval_` of the agents after a history, from what it was when the history had `k`
notes. -/
def ticksSince (k : ℕ) (tickInterval : α → ℤ) : List (Note (TimerEvent α ν)) → α → ℤ
  | [] => tickInterval
  | x :: j =>
    if k ≤ j.length then
      (executeTimer defaultTimeInterval runFlow (ticksSince k tickInterval j) (x :: j)).tickInterval
    else tickInterval

/-- The calls of the callbacks during an advance that begins with these intervals, when the history
has `k` notes. -/
def callbacks (k : ℕ) (tickInterval : α → ℤ) : Answers (TimerEvent α ν) := fun j =>
  (executeTimer defaultTimeInterval runFlow
    (ticksSince defaultTimeInterval runFlow k tickInterval j.tail) j).calls

/-! ### The program -/

/-- The timer wheel, and `tick_interval_` of the agents. -/
structure TimerState (α ν : Type) where
  wheel : TimerWheel (TimerEvent α ν)
  tickInterval : α → ℤ

/-- At first there is no timer. -/
def TimerState.init (start : ℕ) : TimerState α ν :=
  ⟨TimerWheel.init start, fun _ => Manager.defaultAgentTick⟩

/-- What the program does to its timers: calls, and `Manager::Step`. -/
inductive ManagerOp (α ν : Type)
  | call (c : TimerCall α ν)
  | step (milliseconds : ℤ)

/-- The time that `Manager::Step` takes. -/
def Manager.timeCount (milliseconds : ℤ) : ℤ :=
  if 0 ≤ milliseconds then milliseconds else defaultTimeInterval

variable [DecidableEq ν]

/-- A call from outside. -/
def TimerState.call (s : TimerState α ν) (c : TimerCall α ν) : Option (TimerState α ν) :=
  let r := c.exec defaultTimeInterval { tickInterval := s.tickInterval }
  (r.calls.foldlM TimerWheel.call s.wheel).map fun w => ⟨w, r.tickInterval⟩

/-- `TimerManager::Step`. -/
def TimerManager.step (s : TimerState α ν) (ms : ℤ) : Option (TimerState α ν) :=
  let k := s.wheel.history.length
  if 0 < ms then
    (s.wheel.advance (callbacks defaultTimeInterval runFlow k s.tickInterval) ms.toNat
        (2 ^ 64 - 1)).map fun r =>
      ⟨r.2, ticksSince defaultTimeInterval runFlow k s.tickInterval r.2.history⟩
  else some s

/-- Calls are made at once, and `Manager::Step` steps the timers. -/
def TimerState.run (s : TimerState α ν) : ManagerOp α ν → Option (TimerState α ν)
  | .call c => s.call defaultTimeInterval c
  | .step milliseconds => TimerManager.step defaultTimeInterval runFlow s
      (Manager.timeCount defaultTimeInterval milliseconds)

/-- The ticks that an operation takes. -/
def ManagerOp.time : ManagerOp α ν → ℕ
  | .call _ => 0
  | .step milliseconds => (Manager.timeCount defaultTimeInterval milliseconds).toNat

/-- The ticks that operations take. -/
def elapsed (ops : List (ManagerOp α ν)) : ℕ := (ops.map (ManagerOp.time defaultTimeInterval)).sum

end

/-! ### The calls of a function -/

section Calls

open TimerWheel (Within)

variable {D : ℕ} {defaultTimeInterval d : ℤ} {a : α} {s : Timers α ν} {c : Call (TimerEvent α ν)}

/-- Intervals are positive, and calls for a later time, not too far off. -/
structure Timers.Fits (D : ℕ) (s : Timers α ν) : Prop where
  tickInterval : ∀ b, 0 < s.tickInterval b ∧ s.tickInterval b ≤ D
  calls : ∀ c ∈ s.calls, Within D c

/-- The agent has the interval, and no call is about its timer. -/
structure Timers.Leaves (a : α) (d : ℤ) (s : Timers α ν) : Prop where
  tickInterval : s.tickInterval a = d
  calls : ∀ c ∈ s.calls, c.entry ≠ .agent a

theorem Timers.Fits.make (h : s.Fits D) (hc : Within D c) : (s.make c).Fits D := by
  refine ⟨h.tickInterval, fun x hx => ?_⟩
  rcases List.mem_append.mp hx with hx | hx
  · exact h.calls x hx
  · exact List.mem_singleton.mp hx ▸ hc

theorem Timers.Leaves.make (h : s.Leaves a d) (hc : c.entry ≠ .agent a) :
    (s.make c).Leaves a d := by
  refine ⟨h.tickInterval, fun x hx => ?_⟩
  rcases List.mem_append.mp hx with hx | hx
  · exact h.calls x hx
  · exact List.mem_singleton.mp hx ▸ hc

theorem addTimer_eq {timer : TimerEvent α ν} {tick : ℤ} (hpos : 0 < tick) (hlt : tick < 2 ^ 64) :
    TimerManager.addTimer timer tick s = s.make (.schedule timer tick.toNat) := by
  rw [TimerManager.addTimer, Int.emod_eq_of_lt hpos.le hlt]

theorem Timers.Fits.addTimer {timer : TimerEvent α ν} {tick : ℤ} (h : s.Fits D) (hpos : 0 < tick)
    (hle : tick ≤ D) (hD : D < 2 ^ 64) : (TimerManager.addTimer timer tick s).Fits D := by
  rw [addTimer_eq hpos (by omega)]
  exact h.make ⟨by omega, by omega⟩

/-- The timer is started with the interval of the agent. -/
theorem start_eq (h : s.Fits D) (hD : D < 2 ^ 64) (a : α) :
    AgentTimer.start a 0 s = s.make (.schedule (.agent a) (s.tickInterval a).toNat) := by
  have hle := (h.tickInterval a).2
  rw [AgentTimer.start, Int.add_zero, addTimer_eq (h.tickInterval a).1 (by omega)]

theorem Timers.Fits.start (h : s.Fits D) (hD : D < 2 ^ 64) (a : α) :
    (AgentTimer.start a 0 s).Fits D := by
  rw [start_eq h hD]
  have ha := h.tickInterval a
  exact h.make ⟨by omega, by omega⟩

variable [DecidableEq α]

theorem Timers.Fits.setTick {tick : ℤ} (h : s.Fits D) (hpos : 0 < tick) (hle : tick ≤ D) (a : α) :
    (s.setTick a tick).Fits D := by
  refine ⟨fun b => ?_, h.calls⟩
  show 0 < Function.update s.tickInterval a tick b ∧ Function.update s.tickInterval a tick b ≤ D
  rcases eq_or_ne b a with rfl | hb
  · rw [Function.update_self]
    exact ⟨hpos, hle⟩
  · rw [Function.update_of_ne hb]
    exact h.tickInterval b

theorem Timers.Leaves.setTick {b : α} (h : s.Leaves a d) (hb : b ≠ a) (tick : ℤ) :
    (s.setTick b tick).Leaves a d := by
  refine ⟨?_, h.calls⟩
  show Function.update s.tickInterval b tick a = d
  rw [Function.update_of_ne hb.symm, h.tickInterval]

theorem Timers.Fits.setTickInterval {tick : ℤ} (h : s.Fits D) (hpos : 0 < tick) (hle : tick ≤ D)
    (hD : D < 2 ^ 64) (a : α) (running : Bool) :
    (Agent.setTickInterval a running tick s).Fits D := by
  have hset := h.setTick hpos hle a
  rw [Agent.setTickInterval]
  split_ifs
  · exact (hset.make (c := .cancel (.agent a)) trivial).start hD a
  · exact hset

theorem Timers.Leaves.setTickInterval {b : α} (h : s.Leaves a d) (hb : b ≠ a) (running : Bool)
    (tick : ℤ) : (Agent.setTickInterval b running tick s).Leaves a d := by
  have hset := h.setTick hb tick
  have hne : TimerEvent.agent b ≠ (.agent a : TimerEvent α ν) :=
    fun he => hb (TimerEvent.agent.inj he)
  rw [Agent.setTickInterval]
  split_ifs
  · exact (hset.make (c := .cancel (.agent b)) hne).make hne
  · exact hset

/-- The delays that a call asks for are not too large, and its intervals are positive. -/
def TimerCall.Within (D : ℕ) : TimerCall α ν → Prop
  | .newAgent _ | .deleteAgent _ | .stopTimer _ => True
  | .registerGameObject _ tick => tick ≤ D
  | .setTickInterval _ _ tick => 0 < tick ∧ tick ≤ D
  | .wait _ milliseconds => milliseconds ≤ D

/-- The call is not about the agent. -/
def TimerCall.Spares (a : α) : TimerCall α ν → Prop
  | .newAgent b | .deleteAgent b | .registerGameObject b _ | .setTickInterval b _ _ => b ≠ a
  | .wait _ _ | .stopTimer _ => True

variable {x : TimerCall α ν}

/-- The interval that the binding asks for. -/
theorem tick_of_register {tick : ℤ} (hle : tick ≤ D) (hthousand : 1000 ≤ D) :
    0 < (if tick ≤ 0 then Manager.defaultAgentTick else tick) ∧
      (if tick ≤ 0 then Manager.defaultAgentTick else tick) ≤ D := by
  split_ifs
  · exact ⟨by decide, by show (1000 : ℤ) ≤ D; omega⟩
  · omega

theorem Timers.Fits.newAgent (h : s.Fits D) (hthousand : 1000 ≤ D) (hD : D < 2 ^ 64) (a : α) :
    (Agent.new a s).Fits D := by
  have hle : Manager.defaultAgentTick ≤ D := by
    show (1000 : ℤ) ≤ D
    omega
  exact (h.setTick (by decide) hle a).start hD a

/-- **A call keeps the timers in bounds.** -/
theorem Timers.Fits.exec (h : s.Fits D) (hx : x.Within D) (hthousand : 1000 ≤ D) (hD : D < 2 ^ 64) :
    (x.exec defaultTimeInterval s).Fits D := by
  cases x with
  | newAgent a => exact h.newAgent hthousand hD a
  | registerGameObject a tick =>
    have htick := tick_of_register hx hthousand
    show (PyManager.registerGameObject defaultTimeInterval a tick s).Fits D
    rw [PyManager.registerGameObject]
    by_cases hne : (if tick ≤ 0 then Manager.defaultAgentTick else tick) ≠ defaultTimeInterval
    · rw [if_pos hne]
      exact (h.newAgent hthousand hD a).setTickInterval htick.1 htick.2 hD a true
    · rw [if_neg hne]
      exact h.newAgent hthousand hD a
  | setTickInterval a running tick => exact h.setTickInterval hx.1 hx.2 hD a running
  | deleteAgent a => exact h.make (c := .cancel (.agent a)) trivial
  | wait n milliseconds =>
    have hms : milliseconds ≤ D := hx
    refine (h.make (c := .cancel (.node n)) trivial).addTimer ?_ ?_ hD
    · split_ifs
      · decide
      · omega
    · split_ifs
      · omega
      · exact hms
  | stopTimer n => exact h.make (c := .cancel (.node n)) trivial

/-- **A call about others leaves the agent alone.** -/
theorem Timers.Leaves.exec (h : s.Leaves a d) (hx : x.Spares a) :
    (x.exec defaultTimeInterval s).Leaves a d := by
  have hnew : ∀ b, b ≠ a → (Agent.new b s).Leaves a d := fun b hb =>
    (h.setTick hb Manager.defaultAgentTick).make fun he => hb (TimerEvent.agent.inj he)
  cases x with
  | newAgent b => exact hnew b hx
  | registerGameObject b tick =>
    show (PyManager.registerGameObject defaultTimeInterval b tick s).Leaves a d
    rw [PyManager.registerGameObject]
    by_cases hne : (if tick ≤ 0 then Manager.defaultAgentTick else tick) ≠ defaultTimeInterval
    · rw [if_pos hne]
      exact (hnew b hx).setTickInterval hx true _
    · rw [if_neg hne]
      exact hnew b hx
  | setTickInterval b running tick => exact h.setTickInterval hx running tick
  | deleteAgent b => exact h.make (c := .cancel (.agent b)) fun he => hx (TimerEvent.agent.inj he)
  | wait n milliseconds => exact (h.make (c := .cancel (.node n)) nofun).make nofun
  | stopTimer n => exact h.make (c := .cancel (.node n)) nofun

theorem Timers.Fits.execs {xs : List (TimerCall α ν)} (h : s.Fits D) (hxs : ∀ x ∈ xs, x.Within D)
    (hthousand : 1000 ≤ D) (hD : D < 2 ^ 64) :
    (xs.foldl (fun s x => x.exec defaultTimeInterval s) s).Fits D := by
  induction xs generalizing s with
  | nil => exact h
  | cons x xs ih =>
    exact ih (h.exec (hxs x List.mem_cons_self) hthousand hD) fun y hy =>
      hxs y (List.mem_cons_of_mem x hy)

theorem Timers.Leaves.execs {xs : List (TimerCall α ν)} (h : s.Leaves a d)
    (hxs : ∀ x ∈ xs, x.Spares a) :
    (xs.foldl (fun s x => x.exec defaultTimeInterval s) s).Leaves a d := by
  induction xs generalizing s with
  | nil => exact h
  | cons x xs ih =>
    exact ih (h.exec (hxs x List.mem_cons_self)) fun y hy => hxs y (List.mem_cons_of_mem x hy)

end Calls

/-! ### Callbacks -/

section Callbacks

open TimerWheel (Within)

variable [DecidableEq α] {D k : ℕ} {defaultTimeInterval d : ℤ} {a : α} {tickInterval : α → ℤ}
  {runFlow : List (Note (TimerEvent α ν)) → List (TimerCall α ν)}
  {j : List (Note (TimerEvent α ν))}

/-- Positive intervals, within the bound. -/
def Bounded (D : ℕ) (tickInterval : α → ℤ) : Prop :=
  ∀ b, 0 < tickInterval b ∧ tickInterval b ≤ D

theorem fits_executeTimer (h : Bounded D tickInterval) (hflow : ∀ j, ∀ x ∈ runFlow j, x.Within D)
    (hthousand : 1000 ≤ D) (hD : D < 2 ^ 64) (j : List (Note (TimerEvent α ν))) :
    (executeTimer defaultTimeInterval runFlow tickInterval j).Fits D := by
  have h0 : ({ tickInterval } : Timers α ν).Fits D := ⟨h, nofun⟩
  rw [executeTimer.eq_def]
  split
  · exact h0.start hD _
  · exact h0.execs (hflow _) hthousand hD
  · exact h0

theorem bounded_ticksSince (h : Bounded D tickInterval) (hflow : ∀ j, ∀ x ∈ runFlow j, x.Within D)
    (hthousand : 1000 ≤ D) (hD : D < 2 ^ 64) (j : List (Note (TimerEvent α ν))) :
    Bounded D (ticksSince defaultTimeInterval runFlow k tickInterval j) := by
  induction j with
  | nil => exact h
  | cons x j ih =>
    rw [ticksSince]
    split_ifs
    · exact (fits_executeTimer ih hflow hthousand hD _).tickInterval
    · exact h

theorem within_callbacks (defaultTimeInterval : ℤ) (h : Bounded D tickInterval)
    (hflow : ∀ j, ∀ x ∈ runFlow j, x.Within D)
    (hthousand : 1000 ≤ D) (hD : D < 2 ^ 64) (j : List (Note (TimerEvent α ν))) :
    ∀ c ∈ callbacks defaultTimeInterval runFlow k tickInterval j, Within D c :=
  (fits_executeTimer (bounded_ticksSince h hflow hthousand hD _) hflow hthousand hD j).calls

/-- A history that is not longer says nothing new. -/
theorem ticksSince_of_le (hj : j.length ≤ k) :
    ticksSince defaultTimeInterval runFlow k tickInterval j = tickInterval := by
  cases j with
  | nil => rfl
  | cons x j =>
    rw [List.length_cons] at hj
    rw [ticksSince, if_neg (by omega)]

variable [DecidableEq ν]

/-- What holds of an agent whose timer ticks: it has the interval, and its timer goes round. -/
structure Ticking (a : α) (d : ℤ) (t : ℕ) (old : List ℕ) (base : List (Note (TimerEvent α ν)))
    (tickInterval : α → ℤ) (q : Agenda (TimerEvent α ν)) : Prop where
  tickInterval : tickInterval a = d
  round : ∃ m, Round (.agent a) t d.toNat old m q
  history : base <:+ q.journal

variable {t : ℕ} {old : List ℕ} {base : List (Note (TimerEvent α ν))}
  {q q' : Agenda (TimerEvent α ν)}

/-- Calls that leave the agent alone. -/
theorem Ticking.calls {s : Timers α ν} {ticks : α → ℤ} (h : Ticking a d t old base ticks q)
    (hs : s.Leaves a d) : Ticking a d t old base s.tickInterval (s.calls.foldl Agenda.call q) := by
  refine ⟨hs.tickInterval, h.round.imp fun m hm => hm.calls hs.calls, h.history.trans ?_⟩
  exact Agenda.suffix_calls _ _

end Callbacks

section Runs

open TimerWheel (Roomy)

variable [DecidableEq α] [DecidableEq ν] {D start : ℕ} {defaultTimeInterval d : ℤ} {a : α}
  {runFlow : List (Note (TimerEvent α ν)) → List (TimerCall α ν)} {s : TimerState α ν}
  {ops : List (ManagerOp α ν)}

/-- **What holds of the timers** between two operations. -/
structure TimerState.Sound (D : ℕ) (s : TimerState α ν) : Prop where
  good : s.wheel.Good
  pending : s.wheel.ticksPending = 0
  kept : s.wheel.agenda.Kept
  bounded : Bounded D s.tickInterval

/-- An operation does to the agenda what its calls, or the turns of an advance, do. -/
def Does (defaultTimeInterval : ℤ)
    (runFlow : List (Note (TimerEvent α ν)) → List (TimerCall α ν)) (s t : TimerState α ν) :
    ManagerOp α ν → Prop
  | .call x =>
    t.tickInterval = (x.exec defaultTimeInterval { tickInterval := s.tickInterval }).tickInterval ∧
      t.wheel.agenda = (x.exec defaultTimeInterval { tickInterval := s.tickInterval }).calls.foldl
        Agenda.call s.wheel.agenda
  | .step _ =>
    t.tickInterval = ticksSince defaultTimeInterval runFlow s.wheel.history.length s.tickInterval
        t.wheel.history ∧
      Turns (callbacks defaultTimeInterval runFlow s.wheel.history.length s.tickInterval)
        s.wheel.agenda t.wheel.agenda

variable (hroom : Roomy (TimerEvent α ν) (2 ^ 64 - 1)) (hthousand : 1000 ≤ D)
  (hflow : ∀ j, ∀ x ∈ runFlow j, x.Within D)

include hroom hthousand hflow

/-- **An operation never fails.** -/
theorem TimerState.run_spec (defaultTimeInterval : ℤ) (op : ManagerOp α ν) (hs : s.Sound D)
    (hop : ∀ x, op = .call x → x.Within D)
    (hD : s.wheel.now 0 + op.time defaultTimeInterval + D < 2 ^ 64) :
    ∃ t, s.run defaultTimeInterval runFlow op = some t ∧ t.Sound D ∧
      t.wheel.now 0 = s.wheel.now 0 + op.time defaultTimeInterval ∧
      Does defaultTimeInterval runFlow s t op := by
  have hDlt : D < 2 ^ 64 := by omega
  cases op with
  | call x =>
    have hfits : (x.exec defaultTimeInterval { tickInterval := s.tickInterval }).Fits D :=
      Timers.Fits.exec ⟨hs.bounded, nofun⟩ (hop x rfl) hthousand hDlt
    obtain ⟨w, hw, ha, hag⟩ := TimerWheel.calls_spec _ (by omega) hfits.calls hs.good.shape
      hs.good.clocked
    refine ⟨_, Option.map_eq_some_iff.mpr ⟨w, hw, rfl⟩, ⟨ha.good hs.good,
      ha.ticksPending.trans hs.pending, ?_, hfits.tickInterval⟩, congrFun ha.now 0, rfl, hag⟩
    rw [hag]
    exact hs.kept.calls fun c hc => (hfits.calls c hc).later
  | step milliseconds =>
    have hans := within_callbacks (k := s.wheel.history.length) defaultTimeInterval hs.bounded hflow
      hthousand hDlt
    have htime : (ManagerOp.step milliseconds : ManagerOp α ν).time defaultTimeInterval =
        (Manager.timeCount defaultTimeInterval milliseconds).toNat := rfl
    rw [htime] at hD ⊢
    show ∃ t, TimerManager.step defaultTimeInterval runFlow s
      (Manager.timeCount defaultTimeInterval milliseconds) = some t ∧ _
    generalize Manager.timeCount defaultTimeInterval milliseconds = ms at hD ⊢
    rw [TimerManager.step]
    by_cases hms : 0 < ms
    · have htarget : s.wheel.target = s.wheel.now 0 := (hs.good.settled hs.pending).1.symm
      have hpos : 0 < ms.toNat := by omega
      obtain ⟨⟨done, w⟩, hadv, had⟩ := TimerWheel.advance_spec hans (2 ^ 64 - 1) hs.good
        (fun _ => hpos) (by rw [htarget]; exact hD)
      -- No limit is reached, so that the advance is not broken off.
      have hpending : w.ticksPending = 0 := had.done.mp (had.roomy hroom)
      refine ⟨⟨w, ticksSince defaultTimeInterval runFlow s.wheel.history.length s.tickInterval
        w.history⟩, ?_, ⟨had.good, hpending, hs.kept.turns (fun j c hc => (hans j c hc).later)
          had.turns, bounded_ticksSince hs.bounded hflow hthousand hDlt _⟩, ?_, rfl, had.turns⟩
      · rw [if_pos hms, hadv]
        rfl
      · rw [(had.good.settled hpending).1, had.target, htarget]
    · rw [if_neg hms]
      exact ⟨s, rfl, hs, by omega, (ticksSince_of_le (Nat.le_refl _)).symm, .refl⟩

end Runs

/-! ### An agent gets its interval -/

section Ticks

open TimerWheel (Roomy)

variable [DecidableEq α] [DecidableEq ν] {D start : ℕ} {defaultTimeInterval d : ℤ} {a : α}
  {runFlow : List (Note (TimerEvent α ν)) → List (TimerCall α ν)}
  {before after : List (ManagerOp α ν)} {x : TimerCall α ν}

end Ticks

end Asyncflow
