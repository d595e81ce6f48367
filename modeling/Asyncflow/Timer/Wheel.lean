import Asyncflow.Lib.Agenda
import Mathlib.Algebra.Order.Ring.Nat
import Mathlib.Data.Nat.Basic
import Mathlib.Logic.Function.Basic

/-!
# The timer wheel

The hierarchical timer wheel of `ratas.h`. There are eight wheels of 256 slots each; a slot of the
wheel at level `l` stands for `256 ^ l` ticks. An event is put on the lowest wheel that its delay
fits, and when a wheel has gone round once, the events of one slot of the next wheel are put on
lower wheels, or executed if they are due.

A wheel carries the history of the calls on it and of the events executed, which nothing reads but
the callbacks: what `execute` does to the wheel is a function of the history. `none` is a failed
assertion or an access outside the slots.
-/

namespace Asyncflow

open Agenda (Note Call Answers)

/-- `TimerWheel`, with the events on it. -/
structure TimerWheel (ι : Type) where
  /-- `now_`, the time of each wheel in its own ticks. -/
  now : ℕ → ℕ
  /-- `ticks_pending_`, the ticks that remain of an advance that was broken off. -/
  ticksPending : ℕ
  /-- `slots_`, by level and index: the events of each slot, from the first. -/
  slots : ℕ × ℕ → List ι
  /-- `slot_` of the events. -/
  slot : ι → Option (ℕ × ℕ)
  /-- `scheduled_at_` of the events. -/
  scheduledAt : ι → ℕ
  /-- What was done, newest first. -/
  history : List (Note ι)

namespace TimerWheel

/-- `NUM_SLOTS`, a power of two: `& MASK` is the remainder, and `>> WIDTH_BITS` the quotient. -/
abbrev numSlots : ℕ := 256

/-- `NUM_LEVELS`. -/
abbrev numLevels : ℕ := 8

/-- `MAX_LEVEL`. -/
abbrev maxLevel : ℕ := 7

/-- The number of values of a `Tick`, and of a `size_t`. -/
abbrev wordSize : ℕ := 2 ^ 64

/-- `--` of a `size_t`. -/
def decrement (n : ℕ) : ℕ := if n = 0 then wordSize - 1 else n - 1

variable {ι : Type} [DecidableEq ι]

/-- `TimerWheel::TimerWheel`. -/
def init (now : ℕ) : TimerWheel ι :=
  { now := fun l => now / numSlots ^ l, ticksPending := 0, slots := fun _ => [],
    slot := fun _ => none, scheduledAt := fun _ => 0, history := [] }

/-! ### Events -/

/-- `TimerEventInterface::set_scheduled_at`. -/
def setScheduledAt (w : TimerWheel ι) (e : ι) (ts : ℕ) : TimerWheel ι :=
  { w with scheduledAt := Function.update w.scheduledAt e ts }

/-- `TimerEventInterface::relink`. An event is put in front of the others of its slot. -/
def relink (w : TimerWheel ι) (e : ι) (new : Option (ℕ × ℕ)) : TimerWheel ι :=
  if new = w.slot e then w
  else
    let unlinked := match w.slot e with
      | some p => Function.update w.slots p ((w.slots p).erase e)
      | none => w.slots
    let linked := match new with
      | some p => Function.update unlinked p (e :: unlinked p)
      | none => unlinked
    { w with slots := linked, slot := Function.update w.slot e new }

/-- `TimerEventInterface::cancel`. -/
def cancel (w : TimerWheel ι) (e : ι) : TimerWheel ι :=
  if w.slot e = none then w else w.relink e none

/-- The loop of `TimerWheel::schedule` that looks for the wheel, and the index of the slot on it;
the number of wheels left bounds its rounds. -/
def place (now : ℕ → ℕ) : ℕ → ℕ → ℕ → Option (ℕ × ℕ)
  | 0, _, _ => none
  | wheels + 1, level, delta =>
    if numSlots ≤ delta then
      place now wheels (level + 1) ((delta + now level % numSlots) % wordSize / numSlots)
    else some (level, (now level + delta) % wordSize % numSlots)

/-- `TimerWheel::schedule`. -/
def schedule (w : TimerWheel ι) (e : ι) (delta : ℕ) : Option (TimerWheel ι) :=
  if delta = 0 then none
  else
    (place w.now numLevels 0 delta).map fun p =>
      (w.setScheduledAt e ((w.now 0 + delta) % wordSize)).relink e (some p)

/-- A call from outside or from a callback, with its note. -/
def call (w : TimerWheel ι) (c : Call ι) : Option (TimerWheel ι) :=
  let called := match c with
    | .schedule e d => w.schedule e d
    | .cancel e => some (w.cancel e)
  called.map fun w' => { w' with history := c.note (w.now 0) :: w.history }

/-- `TimerWheelSlot::pop_event`, where `e` is the first event of the slot. -/
def popEvent (w : TimerWheel ι) (p : ℕ × ℕ) (e : ι) : TimerWheel ι :=
  { w with
    slots := Function.update w.slots p (w.slots p).tail
    slot := Function.update w.slot e none }

/-- `execute` of an event: the calls of its callback. -/
def execute (ans : Answers ι) (w : TimerWheel ι) (e : ι) : Option (TimerWheel ι) :=
  let w := { w with history := .fire e (w.now 0) :: w.history }
  (ans w.history).foldlM call w

/-! ### The clock -/

/-- The loop of `process_current_slot` over the events of the slot. A callback puts no event on a
slot that is being emptied, so the events there when it begins bound its rounds. -/
def drain (ans : Answers ι) (level i : ℕ) : ℕ → ℕ → TimerWheel ι → Option (Bool × TimerWheel ι)
  | 0, _, _ => none
  | rounds + 1, maxEvents, w =>
    match w.slots (level, i) with
    | [] => some (true, w)
    | e :: _ =>
      let w := w.popEvent (level, i) e
      if 0 < level ∧ w.now 0 % numSlots ≠ 0 then none
      else if 0 < level ∧ w.now 0 < w.scheduledAt e then
        (w.schedule e (w.scheduledAt e - w.now 0)).bind (drain ans level i rounds maxEvents)
      else
        (w.execute ans e).bind fun w =>
          if decrement maxEvents = 0 then some (false, w)
          else drain ans level i rounds (decrement maxEvents) w

/-- The loop of `advance`, one tick of the wheel at the level a round. -/
def ticks (process : ℕ → TimerWheel ι → Option (Bool × TimerWheel ι)) (level : ℕ) :
    ℕ → TimerWheel ι → Option (Bool × TimerWheel ι)
  | 0, w => some (true, w)
  | delta + 1, w =>
    let now := (w.now level + 1) % wordSize
    (process now { w with now := Function.update w.now level now }).bind fun (done, w) =>
      if done then ticks process level delta w
      else some (false, { w with ticksPending := delta + 1 })

/-- `TimerWheel::advance` at a level, where `process` is `process_current_slot` at that level. -/
def advanceAt (process : ℕ → TimerWheel ι → Option (Bool × TimerWheel ι)) (level delta : ℕ)
    (w : TimerWheel ι) : Option (Bool × TimerWheel ι) :=
  if w.ticksPending = 0 then
    if delta = 0 then none else ticks process level delta w
  else
    let w := if level = 0 then { w with ticksPending := (w.ticksPending + delta) % wordSize } else w
    (process (w.now level) w).bind fun (done, w) =>
      if done = false then some (false, w)
      else if level = 0 then ticks process level (w.ticksPending - 1) { w with ticksPending := 0 }
      else some (true, w)

/-- `TimerWheel::process_current_slot`, where `outer` is the number of wheels above the level. -/
def processCurrentSlot (ans : Answers ι) (maxEvents : ℕ) :
    ℕ → ℕ → ℕ → TimerWheel ι → Option (Bool × TimerWheel ι)
  | 0, level, now, w =>
    drain ans level (now % numSlots) ((w.slots (level, now % numSlots)).length + 1) maxEvents w
  | outer + 1, level, now, w =>
    (if now % numSlots = 0 then
        advanceAt (processCurrentSlot ans maxEvents outer (level + 1)) (level + 1) 1 w
      else some (true, w)).bind fun (done, w) =>
      if done then
        drain ans level (now % numSlots) ((w.slots (level, now % numSlots)).length + 1) maxEvents w
      else some (false, w)

/-- `TimerWheel::advance`. -/
def advance (ans : Answers ι) (w : TimerWheel ι) (delta maxEvents : ℕ) :
    Option (Bool × TimerWheel ι) :=
  advanceAt (processCurrentSlot ans maxEvents maxLevel 0) 0 delta w

end TimerWheel

end Asyncflow
