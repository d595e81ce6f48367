import Asyncflow.Timer.Links
import Mathlib.Algebra.Order.Ring.Nat

/-!
# The timer wheel is an agenda

`advance` takes turns on the agenda: it executes what is due, and moves the clock on when nothing
is due any more. The levels of the wheel enter through `Asyncflow.TimerWheel.Shape` alone. When
the clock comes to a new tick, the current slot of every wheel may have events; the outermost of
these wheels is processed first, and when the slot of a wheel has been emptied, the wheels from
there outwards have nothing left that is due or could become due before they move on.

An advance that is broken off because it executed as many events as it may leaves the clock where
it is and keeps the ticks that remain, so that the next one takes the same turns as if there had
been no limit.
-/

namespace Asyncflow

open Agenda (Note Call Answers Turn Turns)

namespace TimerWheel

variable {ι : Type} [DecidableEq ι] {ans : Answers ι} {D l maxEvents : ℕ} {w w' : TimerWheel ι}

/-- More events may be executed than there are. -/
def Roomy (ι : Type) (maxEvents : ℕ) : Prop :=
  maxEvents < 2 ^ 64 ∧ ∀ es : List ι, es.Nodup → es.length < maxEvents

theorem mod_of_dvd_pow {N : ℕ} (h : 256 ^ l ∣ N) (hl : 0 < l) : N % 256 = 0 :=
  Nat.mod_eq_zero_of_dvd ((dvd_pow_self 256 hl.ne').trans h)

theorem decrement_eq {n : ℕ} (hn : 0 < n) : decrement n = n - 1 := if_neg (Nat.ne_of_gt hn)

/-! ### One slot -/

/-- What the loop over the current slot of a wheel does. -/
structure Drained (ans : Answers ι) (l : ℕ) (w : TimerWheel ι) (r : Bool × TimerWheel ι) :
    Prop where
  now : r.2.now = w.now
  ticksPending : r.2.ticksPending = w.ticksPending
  turns : Turns ans w.agenda r.2.agenda
  shape : r.2.Shape (l + 1)
  done : r.1 = true → r.2.Shape l

theorem Drained.after {r : Bool × TimerWheel ι} (h : Drained ans l w' r) (hn : w'.now = w.now)
    (hp : w'.ticksPending = w.ticksPending) (ht : Turns ans w.agenda w'.agenda) :
    Drained ans l w r :=
  ⟨h.now.trans hn, h.ticksPending.trans hp, ht.trans h.turns, h.shape, h.done⟩

section

variable (hans : ∀ j, ∀ c ∈ ans j, Within D c)

include hans

/-- **The loop over the current slot** executes or promotes the events that are there. It ends,
since every round takes an event off the slot and no call puts one on it. -/
theorem drain_spec : ∀ rounds maxEvents (w : TimerWheel ι),
    (w.slots (current (w.now 0) l)).length < rounds → w.Shape (l + 1) → Clocked w.now →
    256 ^ l ∣ w.now 0 → w.now 0 + D < 2 ^ 64 →
    ∃ r, drain ans l (w.now 0 / 256 ^ l % 256) rounds maxEvents w = some r ∧ Drained ans l w r ∧
      ((w.slots (current (w.now 0) l)).length < maxEvents → maxEvents < 2 ^ 64 → r.1 = true) := by
  intro rounds
  induction rounds with
  | zero => exact fun _ _ hr => absurd hr (Nat.not_lt_zero _)
  | succ rounds ih =>
    intro maxEvents w hr hs hc hdvd hD
    have hcur : (l, w.now 0 / 256 ^ l % 256) = current (w.now 0) l := rfl
    cases hslot : w.slots (current (w.now 0) l) with
    | nil =>
      have hl : w.Shape l := ⟨hs.linked, fun e p hp =>
          (hs.placed e p hp).of_ne_current fun heq => by
        subst heq
        have hmem := (hs.linked.mem e _).mpr hp
        rw [hslot] at hmem
        cases hmem⟩
      refine ⟨(true, w), ?_, ⟨rfl, rfl, .refl, hs, fun _ => hl⟩, fun _ _ => rfl⟩
      rw [drain, hcur, hslot]
    | cons e es =>
      have he : w.slot e = some (current (w.now 0) l) :=
        (hs.linked.mem e _).mp (hslot ▸ List.mem_cons_self)
      have hplaced := hs.placed e _ he
      have hle : w.now 0 ≤ w.scheduledAt e := hplaced.le
      have hdiv := hplaced.of_current
      have hpop := popEvent_eq hs.linked hslot
      have hu := hs.unlink e
      -- the current slot of the wheel without the event
      have hrest : ((w.relink e none).slots (current (w.now 0) l)) = es := by
        rw [← hpop, popEvent]
        show Function.update w.slots _ _ _ = es
        rw [Function.update_self, hslot, List.tail_cons]
      have hlen : ∀ w', After (l + 1) (w.relink e none) w' →
          (w'.slots (current (w.now 0) l)).length ≤ es.length := fun w' ha => by
        have hsub := ha.thins l
        rw [relink_now, hrest] at hsub
        exact hsub.length_le
      rw [hslot, List.length_cons] at hr
      rw [drain, hcur, hslot]
      simp only [hpop, relink_now, relink_scheduledAt]
      rw [if_neg fun hbad => hbad.2 (mod_of_dvd_pow hdvd hbad.1)]
      split
      · -- it is promoted to a lower wheel
        rename_i hlt
        have hd : (w.relink e none).now 0 + (w.scheduledAt e - w.now 0) = w.scheduledAt e := by
          rw [relink_now]
          omega
        obtain ⟨w', hsch, ha, hag⟩ := schedule_spec hu.shape (hu.now ▸ hc) e
          (d := w.scheduledAt e - w.now 0) (by omega) (by rw [hd]; exact hplaced.bound)
        have hnow : w'.now = w.now := ha.now.trans hu.now
        have hsame : w'.agenda = w.agenda := by
          rw [hag, hd, relink_now, relink_history]
          refine Agenda.ext rfl (funext fun e' => ?_) rfl
          show Function.update (w.relink e none).agenda.due e _ e' = _
          rw [agenda_unlink]
          rcases eq_or_ne e' e with rfl | hee
          · rw [Function.update_self]
            show _ = (w.slot e').map fun _ => w.scheduledAt e'
            rw [he]
            rfl
          · rw [Function.update_of_ne hee]
            exact Function.update_of_ne hee _ _
        obtain ⟨r, hrun, hdr, hroom⟩ := ih maxEvents w' (by have := hlen w' ha; rw [hnow]; omega)
          ha.shape (hnow ▸ hc) (hnow ▸ hdvd) (hnow ▸ hD)
        rw [hnow] at hrun hroom
        refine ⟨r, ?_, hdr.after hnow (ha.ticksPending.trans hu.ticksPending) ?_, fun hm hw => ?_⟩
        · rw [hsch]
          exact hrun
        · rw [hsame]
        · have := hlen w' ha
          rw [List.length_cons] at hm
          exact hroom (by omega) hw
      · -- it is executed
        rename_i hnlt
        have hdue : w.scheduledAt e = w.now 0 := by
          rcases Nat.eq_zero_or_pos l with rfl | hl
          · rw [Nat.pow_zero, Nat.div_one, Nat.div_one] at hdiv
            exact hdiv.symm
          · have := fun hlt => hnlt ⟨hl, hlt⟩
            omega
        obtain ⟨w', hex, ha, hag⟩ := execute_spec hD hans hs hc e
        have hnow : w'.now = w.now := ha.now.trans hu.now
        have hpend := ha.ticksPending.trans hu.ticksPending
        have hturn : Turns ans w.agenda w'.agenda := by
          refine .single (hag ▸ Turn.fire ?_)
          show (w.slot e).map _ = some (w.now 0)
          rw [he, Option.map_some, hdue]
        rw [hex]
        simp only [Option.bind_some]
        split
        · rename_i hzero
          refine ⟨(false, w'), rfl,
            ⟨hnow, hpend, hturn, ha.shape, fun h => absurd h Bool.false_ne_true⟩, fun hm hw => ?_⟩
          rw [List.length_cons] at hm
          rw [decrement_eq (by omega)] at hzero
          omega
        · obtain ⟨r, hrun, hdr, hroom⟩ := ih (decrement maxEvents) w'
            (by have := hlen w' ha; rw [hnow]; omega) ha.shape (hnow ▸ hc) (hnow ▸ hdvd) (hnow ▸ hD)
          rw [hnow] at hrun hroom
          refine ⟨r, hrun, hdr.after hnow hpend hturn, fun hm hw => ?_⟩
          have := hlen w' ha
          rw [List.length_cons] at hm
          rw [decrement_eq (by omega)] at hroom
          exact hroom (by omega) (by omega)

end

/-! ### One wheel and those outside it -/

/-- The clocks when the wheel at level `l` has come to a new tick and those outside have not. -/
def Lag (l : ℕ) (now : ℕ → ℕ) : Prop :=
  ∀ j ≤ 7, now j = if j ≤ l then now 0 / 256 ^ j else (now 0 - 1) / 256 ^ j

/-- **What is given when the current slot of a wheel is processed**: either the clock has just
moved on, or an advance that was broken off is taken up again. -/
structure Ready (D l : ℕ) (w : TimerWheel ι) : Prop where
  shape : w.Shape 8
  begins : 256 ^ l ∣ w.now 0
  room : w.now 0 + D < 2 ^ 64
  clock : (w.ticksPending = 0 ∧ 0 < w.now 0 ∧ Lag l w.now) ∨
    (w.ticksPending ≠ 0 ∧ Clocked w.now)

/-- What it does to process the current slots of a wheel and of those outside it. -/
structure Processed (ans : Answers ι) (maxEvents l : ℕ) (w : TimerWheel ι)
    (r : Bool × TimerWheel ι) : Prop where
  now : r.2.now 0 = w.now 0
  clocked : Clocked r.2.now
  turns : Turns ans w.agenda r.2.agenda
  shape : r.2.Shape 8
  done : r.1 = true → r.2.Shape l ∧ r.2.ticksPending = w.ticksPending
  pending : w.ticksPending ≠ 0 → r.2.ticksPending = w.ticksPending
  roomy : Roomy ι maxEvents → r.1 = true

omit [DecidableEq ι] in
theorem Ready.now_eq (h : Ready D l w) (hl : l ≤ 7) : w.now l = w.now 0 / 256 ^ l := by
  rcases h.clock with ⟨-, -, hlag⟩ | ⟨-, hc⟩
  · rw [hlag l hl, if_pos (Nat.le_refl l)]
  · exact hc l hl

theorem pred_div {N m : ℕ} (hN : 0 < N) : (N - 1) / m + (if m ∣ N then 1 else 0) = N / m := by
  have h := Nat.succ_div (a := N - 1) (b := m)
  rw [Nat.sub_add_cancel hN] at h
  exact h.symm

theorem begins_iff {N : ℕ} (h : 256 ^ l ∣ N) : N / 256 ^ l % 256 = 0 ↔ 256 ^ (l + 1) ∣ N := by
  obtain ⟨m, rfl⟩ := h
  rw [Nat.mul_div_cancel_left m (Nat.pow_pos (by decide)), Nat.pow_succ,
    Nat.mul_dvd_mul_iff_left (Nat.pow_pos (by decide)), Nat.dvd_iff_mod_eq_zero]

/-- When the wheel is not at its first slot, the wheels outside it have nothing to do. -/
theorem Ready.settled (ans : Answers ι) (maxEvents : ℕ) (h : Ready D l w)
    (hl : l = 7 ∨ ¬ 256 ^ (l + 1) ∣ w.now 0) :
    Processed ans maxEvents (l + 1) w (true, w) := by
  have hs : w.Shape (l + 1) := by
    rcases hl with rfl | hl
    · exact h.shape
    · exact ⟨h.shape.linked, fun e p hp => (h.shape.placed e p hp).of_not_dvd hl⟩
  have hc : Clocked w.now := by
    rcases h.clock with ⟨-, hpos, hlag⟩ | ⟨-, hc⟩
    · intro j hj
      rw [hlag j hj]
      split
      · rfl
      · rcases hl with rfl | hl
        · omega
        · have hnot : ¬ 256 ^ j ∣ w.now 0 := fun hd =>
            hl ((Nat.pow_dvd_pow 256 (by omega)).trans hd)
          have := pred_div (m := 256 ^ j) hpos
          rw [if_neg hnot] at this
          exact this
    · exact hc
  exact ⟨rfl, hc, .refl, h.shape, fun _ => ⟨hs, rfl⟩, fun _ => rfl, fun _ => rfl⟩

/-- **The wheel outside moves on by one of its ticks**, or is taken up again. -/
theorem advanceAt_spec {process : ℕ → TimerWheel ι → Option (Bool × TimerWheel ι)}
    (hp : ∀ w, Ready D (l + 1) w → ∃ r, process (w.now (l + 1)) w = some r ∧
      Processed ans maxEvents (l + 1) w r)
    (h : Ready D l w) (hl : l < 7) (hd : 256 ^ (l + 1) ∣ w.now 0) :
    ∃ r, advanceAt process (l + 1) 1 w = some r ∧ Processed ans maxEvents (l + 1) w r := by
  rw [advanceAt]
  rcases h.clock with ⟨hpend, hpos, hlag⟩ | ⟨hpend, hc⟩
  · -- its clock has not come to the new tick yet
    have hnext : (w.now (l + 1) + 1) % wordSize = w.now 0 / 256 ^ (l + 1) := by
      have hdiv := pred_div (m := 256 ^ (l + 1)) hpos
      rw [if_pos hd] at hdiv
      rw [hlag (l + 1) hl, if_neg (Nat.not_succ_le_self l), hdiv]
      have hlt : w.now 0 < wordSize := (Nat.le_add_right _ D).trans_lt h.room
      exact Nat.mod_eq_of_lt ((Nat.div_le_self _ _).trans_lt hlt)
    let u : TimerWheel ι :=
      { w with now := Function.update w.now (l + 1) (w.now 0 / 256 ^ (l + 1)) }
    have hzero : u.now 0 = w.now 0 :=
      Function.update_of_ne (Nat.succ_ne_zero l).symm (w.now 0 / 256 ^ (l + 1)) w.now
    have hself : u.now (l + 1) = w.now 0 / 256 ^ (l + 1) :=
      Function.update_self (l + 1) (w.now 0 / 256 ^ (l + 1)) w.now
    have hu : Ready D (l + 1) u := by
      refine ⟨⟨h.shape.linked, fun e p he => hzero ▸ h.shape.placed e p he⟩, hzero ▸ hd,
        hzero ▸ h.room, Or.inl ⟨hpend, hzero ▸ hpos, fun j hj => ?_⟩⟩
      rw [hzero]
      rcases eq_or_ne j (l + 1) with rfl | hne
      · rw [hself, if_pos (Nat.le_refl _)]
      · have hother : u.now j = w.now j := Function.update_of_ne hne _ _
        rw [hother, hlag j hj]
        by_cases hjl : j ≤ l
        · rw [if_pos hjl, if_pos (by omega)]
        · rw [if_neg hjl, if_neg (by omega)]
    obtain ⟨⟨done, w'⟩, hrun, hpr⟩ := hp u hu
    have hag : u.agenda = w.agenda := Agenda.ext hzero rfl rfl
    rw [if_pos hpend, if_neg (by decide), ticks, hnext]
    rw [hself] at hrun
    show ∃ r, (process (w.now 0 / 256 ^ (l + 1)) u).bind _ = some r ∧ _
    rw [hrun]
    cases done with
    | true =>
      exact ⟨(true, w'), rfl, hpr.now.trans hzero, hpr.clocked, hag ▸ hpr.turns, hpr.shape,
        hpr.done, hpr.pending, hpr.roomy⟩
    | false =>
      exact ⟨(false, { w' with ticksPending := 1 }), rfl, hpr.now.trans hzero, hpr.clocked,
        hag ▸ hpr.turns, ⟨hpr.shape.linked, hpr.shape.placed⟩, nofun, fun hne => absurd hpend hne,
        fun hroom => absurd (hpr.roomy hroom) nofun⟩
  · obtain ⟨⟨done, w'⟩, hrun, hpr⟩ := hp w ⟨h.shape, hd, h.room, Or.inr ⟨hpend, hc⟩⟩
    rw [if_neg hpend, if_neg (Nat.succ_ne_zero l)]
    show ∃ r, (process (w.now (l + 1)) w).bind _ = some r ∧ _
    rw [hrun]
    cases done with
    | true => exact ⟨(true, w'), rfl, hpr⟩
    | false => exact ⟨(false, w'), rfl, hpr⟩

section

variable (hans : ∀ j, ∀ c ∈ ans j, Within D c)

include hans

/-- The wheels outside are processed first, and then the slot of the wheel itself. -/
theorem Processed.drain {r : Bool × TimerWheel ι} (h : Processed ans maxEvents (l + 1) w r)
    (hdone : r.1 = true) (hd : 256 ^ l ∣ w.now 0) (hD : w.now 0 + D < 2 ^ 64) :
    ∃ r', TimerWheel.drain ans l (w.now 0 / 256 ^ l % 256)
        ((r.2.slots (current (w.now 0) l)).length + 1) maxEvents r.2 = some r' ∧
      Processed ans maxEvents l w r' := by
  obtain ⟨hs, hpend⟩ := h.done hdone
  obtain ⟨r', hrun, hdr, hroom⟩ := drain_spec hans ((r.2.slots (current (w.now 0) l)).length + 1)
    maxEvents r.2 (by rw [h.now]; exact Nat.lt_succ_self _) hs h.clocked (h.now ▸ hd) (h.now ▸ hD)
  rw [h.now] at hrun hroom
  refine ⟨r', hrun, (congrFun hdr.now 0).trans h.now, hdr.now ▸ h.clocked, h.turns.trans hdr.turns,
    ⟨hdr.shape.linked, fun e p he => ?_⟩, fun ht => ⟨hdr.done ht, hdr.ticksPending.trans hpend⟩,
    fun _ => hdr.ticksPending.trans hpend, fun ⟨hmax, hm⟩ => ?_⟩
  · have hpl := hdr.shape.placed e p he
    refine { hpl with ahead := hpl.ahead.imp_right fun ⟨_, hr⟩ => ⟨?_, hr⟩ }
    exact Nat.lt_succ_of_le hpl.level
  · exact hroom (hm _ (hs.linked.nodup _)) hmax

/-- **`process_current_slot`**, by recursion on the wheels outside. -/
theorem processCurrentSlot_spec (maxEvents : ℕ) : ∀ outer l, outer + l = 7 → ∀ w, Ready D l w →
    ∃ r, processCurrentSlot ans maxEvents outer l (w.now l) w = some r ∧
      Processed ans maxEvents l w r := by
  intro outer
  induction outer with
  | zero =>
    intro l hl w h
    have hslot : (l, w.now l % numSlots) = current (w.now 0) l := by
      rw [h.now_eq (by omega)]
      rfl
    obtain ⟨r, hrun, hpr⟩ := (h.settled ans maxEvents (Or.inl (by omega))).drain hans rfl h.begins
      h.room
    refine ⟨r, ?_, hpr⟩
    rw [processCurrentSlot, hslot, h.now_eq (by omega)]
    exact hrun
  | succ outer ih =>
    intro l hl w h
    have hslot : (l, w.now l % numSlots) = current (w.now 0) l := by
      rw [h.now_eq (by omega)]
      rfl
    -- the wheels outside
    obtain ⟨r, hrun, hpr⟩ : ∃ r,
        (if w.now l % numSlots = 0 then
            advanceAt (processCurrentSlot ans maxEvents outer (l + 1)) (l + 1) 1 w
          else some (true, w)) = some r ∧ Processed ans maxEvents (l + 1) w r := by
      have hiff := begins_iff h.begins
      rw [← h.now_eq (by omega)] at hiff
      by_cases hz : w.now l % numSlots = 0
      · rw [if_pos hz]
        exact advanceAt_spec (ih (l + 1) (by omega)) h (by omega) (hiff.mp hz)
      · rw [if_neg hz]
        exact ⟨_, rfl, h.settled ans maxEvents (Or.inr fun hd => hz (hiff.mpr hd))⟩
    rw [processCurrentSlot, hrun]
    obtain ⟨done, w'⟩ := r
    cases done with
    | true =>
      obtain ⟨r', hrun', hpr'⟩ := hpr.drain hans rfl h.begins h.room
      refine ⟨r', ?_, hpr'⟩
      rw [Option.bind_some, hslot, h.now_eq (by omega)]
      exact hrun'
    | false =>
      exact ⟨(false, w'), rfl, hpr.now, hpr.clocked, hpr.turns, hpr.shape, nofun, hpr.pending,
        hpr.roomy⟩

/-! ### The clock of the core wheel -/

/-- **What holds of a timer wheel between the calls on it.** -/
structure Good (w : TimerWheel ι) : Prop where
  clocked : Clocked w.now
  shape : w.Shape (if w.ticksPending = 0 then 0 else 8)
  moved : w.ticksPending ≠ 0 → 0 < w.now 0

/-- The time the clock shows when the ticks that remain are over. -/
def target (w : TimerWheel ι) : ℕ := w.now 0 + (w.ticksPending - 1)

/-- What an advance does. -/
structure Advanced (ans : Answers ι) (maxEvents delta : ℕ) (w : TimerWheel ι)
    (r : Bool × TimerWheel ι) : Prop where
  good : r.2.Good
  turns : Turns ans w.agenda r.2.agenda
  target : r.2.target = w.target + delta
  done : r.1 = true ↔ r.2.ticksPending = 0
  roomy : Roomy ι maxEvents → r.1 = true

include hans

/-- **The loop of `advance`** on the core wheel. -/
theorem ticks_spec (maxEvents : ℕ) : ∀ delta w, Clocked w.now → w.Shape 0 → w.ticksPending = 0 →
    w.now 0 + delta + D < 2 ^ 64 →
    ∃ r, ticks (processCurrentSlot ans maxEvents 7 0) 0 delta w = some r ∧
      Advanced ans maxEvents delta w r := by
  intro delta
  induction delta with
  | zero =>
    intro w hc hs hp _
    exact ⟨(true, w), rfl, ⟨hc, by rw [if_pos hp]; exact hs, fun hne => absurd hp hne⟩, .refl, rfl,
      iff_of_true rfl hp, fun _ => rfl⟩
  | succ delta ih =>
    intro w hc hs hp hD
    have hnow : (w.now 0 + 1) % wordSize = w.now 0 + 1 := by
      refine Nat.mod_eq_of_lt ?_
      show w.now 0 + 1 < 2 ^ 64
      omega
    let u : TimerWheel ι := { w with now := Function.update w.now 0 (w.now 0 + 1) }
    have hself : u.now 0 = w.now 0 + 1 := Function.update_self 0 (w.now 0 + 1) w.now
    -- the clock waits for what is due
    have htick : Turn ans w.agenda u.agenda := by
      have hu : u.agenda = w.agenda.tick := Agenda.ext hself rfl rfl
      rw [hu]
      refine .tick fun e hdue => ?_
      obtain ⟨p, he, hT⟩ := Option.map_eq_some_iff.mp hdue
      have hlt := (hs.placed e p he).lt
      rw [hT] at hlt
      exact Nat.lt_irrefl _ hlt
    have hu : Ready D 0 u := by
      refine ⟨⟨hs.linked, fun e p he => hself ▸ (hs.placed e p he).succ⟩, one_dvd _,
        by rw [hself]; omega, Or.inl ⟨hp, by omega, fun j hj => ?_⟩⟩
      rw [hself]
      rcases eq_or_ne j 0 with rfl | hne
      · rw [hself, if_pos (Nat.le_refl 0), Nat.pow_zero, Nat.div_one]
      · have hother : u.now j = w.now j := Function.update_of_ne hne _ _
        rw [hother, hc j hj, if_neg (by omega), Nat.add_sub_cancel]
    obtain ⟨⟨done, w'⟩, hrun, hpr⟩ := processCurrentSlot_spec hans maxEvents 7 0 rfl u hu
    rw [ticks, hnow]
    rw [hself] at hrun
    show ∃ r, (processCurrentSlot ans maxEvents 7 0 (w.now 0 + 1) u).bind _ = some r ∧ _
    rw [hrun]
    have hnow' : w'.now 0 = w.now 0 + 1 := hpr.now.trans hself
    have hturns : Turns ans w.agenda w'.agenda :=
      (Relation.ReflTransGen.single htick).trans hpr.turns
    cases done with
    | true =>
      obtain ⟨hs', hp'⟩ := hpr.done rfl
      obtain ⟨r, hr, had⟩ := ih w' hpr.clocked hs' (hp'.trans hp) (by omega)
      refine ⟨r, hr, had.good, hturns.trans had.turns, ?_, had.done, had.roomy⟩
      rw [had.target, TimerWheel.target, TimerWheel.target, hnow', hp'.trans hp, hp]
      omega
    | false =>
      refine ⟨(false, { w' with ticksPending := delta + 1 }), rfl, ⟨hpr.clocked, ?_, fun _ => ?_⟩,
        hturns, ?_, iff_of_false nofun (Nat.succ_ne_zero delta),
        fun hroom => absurd (hpr.roomy hroom) nofun⟩
      · rw [if_neg (Nat.succ_ne_zero delta)]
        exact ⟨hpr.shape.linked, hpr.shape.placed⟩
      · show 0 < w'.now 0
        omega
      · show w'.now 0 + (delta + 1 - 1) = w.now 0 + (w.ticksPending - 1) + (delta + 1)
        omega

/-- **`advance`** takes turns on the agenda until the time is over or it is broken off. -/
theorem advance_spec (maxEvents : ℕ) {delta : ℕ} (h : w.Good) (hd : w.ticksPending = 0 → 0 < delta)
    (hD : w.target + delta + D < 2 ^ 64) :
    ∃ r, w.advance ans delta maxEvents = some r ∧ Advanced ans maxEvents delta w r := by
  have hs := h.shape
  have hmoved := h.moved
  rw [target] at hD
  rw [advance, advanceAt]
  by_cases hp : w.ticksPending = 0
  · rw [if_pos hp] at hs
    rw [if_pos hp, if_neg (Nat.ne_of_gt (hd hp))]
    exact ticks_spec hans maxEvents delta w h.clocked hs hp (by omega)
  · rw [if_neg hp] at hs
    rw [if_neg hp, if_pos rfl]
    have hpend : (w.ticksPending + delta) % wordSize = w.ticksPending + delta := by
      refine Nat.mod_eq_of_lt ?_
      show w.ticksPending + delta < 2 ^ 64
      omega
    let u : TimerWheel ι := { w with ticksPending := w.ticksPending + delta }
    have hu : Ready D 0 u := by
      refine ⟨⟨hs.linked, hs.placed⟩, one_dvd _, ?_, Or.inr ⟨?_, h.clocked⟩⟩
      · show w.now 0 + D < 2 ^ 64
        omega
      · show w.ticksPending + delta ≠ 0
        omega
    have hne : u.ticksPending ≠ 0 := by
      show w.ticksPending + delta ≠ 0
      omega
    obtain ⟨⟨done, w'⟩, hrun, hpr⟩ := processCurrentSlot_spec hans maxEvents 7 0 rfl u hu
    rw [hpend]
    show ∃ r, (processCurrentSlot ans maxEvents 7 0 (u.now 0) u).bind _ = some r ∧ _
    rw [hrun]
    have hnow' : w'.now 0 = w.now 0 := hpr.now
    have hp' : w'.ticksPending = w.ticksPending + delta := hpr.pending hne
    cases done with
    | true =>
      obtain ⟨r, hr, had⟩ := ticks_spec hans maxEvents (w'.ticksPending - 1)
        { w' with ticksPending := 0 } hpr.clocked
        ⟨(hpr.done rfl).1.linked, (hpr.done rfl).1.placed⟩ rfl (by
          show w'.now 0 + (w'.ticksPending - 1) + D < 2 ^ 64
          omega)
      refine ⟨r, hr, had.good, hpr.turns.trans had.turns, ?_, had.done, had.roomy⟩
      rw [had.target]
      show w'.now 0 + (0 - 1) + (w'.ticksPending - 1) = w.now 0 + (w.ticksPending - 1) + delta
      omega
    | false =>
      have hne' : w'.ticksPending ≠ 0 := by omega
      refine ⟨(false, w'), rfl, ⟨hpr.clocked, ?_, fun _ => ?_⟩, hpr.turns, ?_,
        iff_of_false nofun hne', fun hroom => absurd (hpr.roomy hroom) nofun⟩
      · rw [if_neg hne']
        exact hpr.shape
      · show 0 < w'.now 0
        omega
      · show w'.now 0 + (w'.ticksPending - 1) = w.now 0 + (w.ticksPending - 1) + delta
        omega

end

end TimerWheel

end Asyncflow
