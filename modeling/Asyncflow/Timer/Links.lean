import Asyncflow.Timer.Places

/-!
# What the calls on a timer wheel keep

The shape of a timer wheel is that its slots and its events agree about who is where, and that
each slot is right for the time of the event. Calls keep it, and they leave the current slots of
the wheels with no more events than they had, which is why the loop over a slot comes to its end.

`Asyncflow.TimerWheel.agenda` forgets the slots: what is left is when each event is due.
-/

namespace Asyncflow

open Agenda (Note Call Answers)

namespace TimerWheel

variable {ι : Type} [DecidableEq ι]

/-- The slots and the events agree. -/
structure Linked (slots : ℕ × ℕ → List ι) (slot : ι → Option (ℕ × ℕ)) : Prop where
  mem : ∀ e p, e ∈ slots p ↔ slot e = some p
  nodup : ∀ p, (slots p).Nodup

variable {slots : ℕ × ℕ → List ι} {slot : ι → Option (ℕ × ℕ)} {e : ι} {p : ℕ × ℕ}

theorem Linked.unlink (h : Linked slots slot) (hp : slot e = some p) :
    Linked (Function.update slots p ((slots p).erase e)) (Function.update slot e none) := by
  refine ⟨fun e' p' => ?_, fun p' => ?_⟩
  · rcases eq_or_ne p' p with rfl | hpp
    · rw [Function.update_self]
      rcases eq_or_ne e' e with rfl | hee
      · rw [Function.update_self]
        exact iff_of_false (h.nodup p').not_mem_erase nofun
      · rw [Function.update_of_ne hee, List.mem_erase_of_ne hee, h.mem]
    · rw [Function.update_of_ne hpp, h.mem]
      rcases eq_or_ne e' e with rfl | hee
      · rw [Function.update_self, hp]
        exact iff_of_false (fun heq => hpp (Option.some.inj heq).symm) nofun
      · rw [Function.update_of_ne hee]
  · rcases eq_or_ne p' p with rfl | hpp
    · rw [Function.update_self]
      exact (h.nodup p').erase e
    · rw [Function.update_of_ne hpp]
      exact h.nodup p'

theorem Linked.link (h : Linked slots slot) (hn : slot e = none) (p : ℕ × ℕ) :
    Linked (Function.update slots p (e :: slots p)) (Function.update slot e (some p)) := by
  have hnot : ∀ q, e ∉ slots q := fun q hq => by
    rw [h.mem, hn] at hq
    cases hq
  refine ⟨fun e' p' => ?_, fun p' => ?_⟩
  · rcases eq_or_ne e' e with rfl | hee
    · rw [Function.update_self]
      rcases eq_or_ne p' p with rfl | hpp
      · rw [Function.update_self]
        exact iff_of_true List.mem_cons_self rfl
      · rw [Function.update_of_ne hpp]
        exact iff_of_false (hnot p') fun heq => hpp (Option.some.inj heq).symm
    · rw [Function.update_of_ne hee, ← h.mem]
      rcases eq_or_ne p' p with rfl | hpp
      · rw [Function.update_self, List.mem_cons]
        exact ⟨fun hm => hm.resolve_left hee, Or.inr⟩
      · rw [Function.update_of_ne hpp]
  · rcases eq_or_ne p' p with rfl | hpp
    · rw [Function.update_self]
      exact List.nodup_cons.mpr ⟨hnot p', h.nodup p'⟩
    · rw [Function.update_of_ne hpp]
      exact h.nodup p'

/-! ### `relink` -/

variable {w w' : TimerWheel ι} {new : Option (ℕ × ℕ)}

@[simp] theorem relink_now : (w.relink e new).now = w.now := by
  rw [relink]
  split <;> rfl

@[simp] theorem relink_ticksPending : (w.relink e new).ticksPending = w.ticksPending := by
  rw [relink]
  split <;> rfl

@[simp] theorem relink_scheduledAt : (w.relink e new).scheduledAt = w.scheduledAt := by
  rw [relink]
  split <;> rfl

@[simp] theorem relink_history : (w.relink e new).history = w.history := by
  rw [relink]
  split <;> rfl

@[simp] theorem relink_slot : (w.relink e new).slot = Function.update w.slot e new := by
  rw [relink]
  split
  · rename_i h
    rw [h, Function.update_eq_self]
  · rfl

theorem Linked.relink (h : Linked w.slots w.slot) :
    Linked (w.relink e new).slots (w.relink e new).slot := by
  rw [relink_slot, TimerWheel.relink]
  split
  · rename_i heq
    rw [heq, Function.update_eq_self]
    exact h
  · -- the event is taken off its slot, if it is on one, and then put on the other
    rename_i hne
    cases hold : w.slot e with
    | none =>
      cases new with
      | none => exact absurd hold.symm hne
      | some q => exact h.link hold q
    | some p =>
      have hun := h.unlink hold
      cases new with
      | none => exact hun
      | some q =>
        have hl := hun.link (Function.update_self e none w.slot) q
        rw [Function.update_idem] at hl
        exact hl

/-- Only the slot the event goes to gets longer. -/
theorem relink_sublist (hp : new ≠ some p) : ((w.relink e new).slots p).Sublist (w.slots p) := by
  have hold : ∀ q, (Function.update w.slots q ((w.slots q).erase e) p).Sublist (w.slots p) := by
    intro q
    rcases eq_or_ne p q with rfl | hpq
    · rw [Function.update_self]
      exact List.erase_sublist
    · rw [Function.update_of_ne hpq]
  rw [relink]
  split
  · exact List.Sublist.refl _
  · cases new with
    | none =>
      cases w.slot e with
      | none => exact List.Sublist.refl _
      | some q => exact hold q
    | some r =>
      have hpr : p ≠ r := fun heq => hp (congrArg some heq.symm)
      cases w.slot e with
      | none =>
        show List.Sublist (Function.update w.slots r (e :: w.slots r) p) (w.slots p)
        rw [Function.update_of_ne hpr]
      | some q =>
        show List.Sublist (Function.update
          (Function.update w.slots q ((w.slots q).erase e)) r _ p) _
        rw [Function.update_of_ne hpr]
        exact hold q

theorem cancel_eq : w.cancel e = w.relink e none := by
  rw [cancel]
  split
  · rename_i h
    rw [relink, if_pos h.symm]
  · rfl

theorem popEvent_eq {es : List ι} (h : Linked w.slots w.slot) (hp : w.slots p = e :: es) :
    w.popEvent p e = w.relink e none := by
  have hs : w.slot e = some p := (h.mem e p).mp (hp ▸ List.mem_cons_self)
  have hne : none ≠ w.slot e := fun h => Option.some_ne_none p (hs.symm.trans h.symm)
  simp only [relink, if_neg hne, popEvent]
  rw [hs]
  simp only [hp, List.erase_cons_head, List.tail_cons]

/-! ### The shape -/

/-- **The shape of a timer wheel**; the parameter says below which level the current slots may
have events. -/
structure Shape (o : ℕ) (w : TimerWheel ι) : Prop where
  linked : Linked w.slots w.slot
  placed : ∀ e p, w.slot e = some p → Placed o (w.now 0) p (w.scheduledAt e)

/-- The wheel without its slots. -/
def agenda (w : TimerWheel ι) : Agenda ι :=
  ⟨w.now 0, fun e => (w.slot e).map fun _ => w.scheduledAt e, w.history⟩

/-- What calls keep: the shape and the clocks, and the current slots get no new events. -/
structure After (o : ℕ) (w w' : TimerWheel ι) : Prop where
  shape : w'.Shape o
  now : w'.now = w.now
  ticksPending : w'.ticksPending = w.ticksPending
  thins : ∀ l, (w'.slots (current (w.now 0) l)).Sublist (w.slots (current (w.now 0) l))

variable {o D d : ℕ} {c : Call ι}

omit [DecidableEq ι] in
theorem After.trans {w'' : TimerWheel ι} (h : After o w w') (h' : After o w' w'') :
    After o w w'' :=
  ⟨h'.shape, h'.now.trans h.now, h'.ticksPending.trans h.ticksPending,
    fun l => (h.now ▸ h'.thins l).trans (h.thins l)⟩

omit [DecidableEq ι] in
theorem Shape.after (h : w.Shape o) : After o w w :=
  ⟨h, rfl, rfl, fun _ => List.Sublist.refl _⟩

/-- An event is taken off its slot. -/
theorem Shape.unlink (h : w.Shape o) (e : ι) : After o w (w.relink e none) := by
  refine ⟨⟨h.linked.relink, fun e' p hp => ?_⟩, relink_now, relink_ticksPending,
    fun l => relink_sublist nofun⟩
  rw [relink_slot] at hp
  rw [relink_now, relink_scheduledAt]
  rcases eq_or_ne e' e with rfl | he
  · rw [Function.update_self] at hp
    cases hp
  · rw [Function.update_of_ne he] at hp
    exact h.placed e' p hp

theorem agenda_unlink (w : TimerWheel ι) (e : ι) :
    (w.relink e none).agenda = ⟨w.now 0, Function.update w.agenda.due e none, w.history⟩ := by
  refine Agenda.ext (congrFun relink_now 0) (funext fun e' => ?_) relink_history
  show ((w.relink e none).slot e').map _ = Function.update w.agenda.due e none e'
  rw [relink_slot, relink_scheduledAt]
  rcases eq_or_ne e' e with rfl | he
  · rw [Function.update_self, Function.update_self]
    rfl
  · rw [Function.update_of_ne he, Function.update_of_ne he]
    rfl

/-- **`schedule`** puts the event on a slot that is right for its time. -/
theorem schedule_spec (h : w.Shape o) (hc : Clocked w.now) (e : ι) (hd : 0 < d)
    (hD : w.now 0 + d < 2 ^ 64) :
    ∃ w', w.schedule e d = some w' ∧ After o w w' ∧
      w'.agenda =
        ⟨w.now 0, Function.update w.agenda.due e (some (w.now 0 + d)), w.history⟩ := by
  obtain ⟨p, hp, hpl⟩ := place_spec hc hD 8 0 rfl (by omega)
  have hdelta : (w.now 0 + d) / 256 ^ 0 - w.now 0 / 256 ^ 0 = d := by omega
  rw [hdelta] at hp
  let set := w.setScheduledAt e (w.now 0 + d)
  have hmod : (w.now 0 + d) % wordSize = w.now 0 + d := Nat.mod_eq_of_lt hD
  have hself : set.scheduledAt e = w.now 0 + d := Function.update_self _ _ _
  have hother : ∀ e' ≠ e, set.scheduledAt e' = w.scheduledAt e' :=
    fun e' he => Function.update_of_ne he _ _
  refine ⟨set.relink e (some p), ?_, ⟨⟨?_, fun e' p' hp' => ?_⟩, relink_now, relink_ticksPending,
    fun l => relink_sublist fun heq => hpl.ne_current l (Option.some.inj heq)⟩, ?_⟩
  · rw [schedule, if_neg (by omega), hmod]
    show (place w.now 8 0 d).map _ = _
    rw [hp]
    rfl
  · exact Linked.relink (w := set) h.linked
  · rw [relink_slot] at hp'
    rw [relink_now, relink_scheduledAt]
    show Placed o (w.now 0) p' (set.scheduledAt e')
    rcases eq_or_ne e' e with rfl | he
    · rw [Function.update_self] at hp'
      obtain rfl := Option.some.inj hp'
      rw [hself]
      exact hpl.mono (Nat.zero_le o)
    · rw [Function.update_of_ne he] at hp'
      rw [hother e' he]
      exact h.placed e' p' hp'
  · refine Agenda.ext (congrFun relink_now 0) (funext fun e' => ?_) relink_history
    show ((set.relink e (some p)).slot e').map _ =
      Function.update w.agenda.due e (some (w.now 0 + d)) e'
    rw [relink_slot, relink_scheduledAt]
    rcases eq_or_ne e' e with rfl | he
    · rw [Function.update_self, Function.update_self, Option.map_some, hself]
    · rw [Function.update_of_ne he, Function.update_of_ne he, hother e' he]
      rfl

/-! ### Calls -/

/-- A call that schedules does so for a later time, not too far off. -/
def Within (D : ℕ) : Call ι → Prop
  | .schedule _ d => 0 < d ∧ d ≤ D
  | .cancel _ => True

omit [DecidableEq ι] in
theorem Within.later (h : Within D c) : c.Later := by
  cases c with
  | schedule e d => exact h.1
  | cancel e => trivial

/-- A call is a call on the agenda. -/
theorem call_spec (h : w.Shape o) (hc : Clocked w.now) (hw : Within D c)
    (hD : w.now 0 + D < 2 ^ 64) :
    ∃ w', w.call c = some w' ∧ After o w w' ∧ w'.agenda = w.agenda.call c := by
  have hnote : ∀ w' : TimerWheel ι, After o w w' →
      After o w { w' with history := c.note (w.now 0) :: w.history } :=
    fun w' ha => ⟨⟨ha.shape.linked, ha.shape.placed⟩, ha.now, ha.ticksPending, ha.thins⟩
  cases c with
  | schedule e d =>
    obtain ⟨w', hs, ha, hag⟩ := schedule_spec h hc e hw.1 (by have := hw.2; omega)
    refine ⟨{ w' with history := .set e (w.now 0 + d) :: w.history }, ?_, hnote w' ha, ?_⟩
    · show (w.schedule e d).map _ = _
      rw [hs]
      rfl
    · exact Agenda.ext (congrArg Agenda.now hag :) (congrArg Agenda.due hag :) rfl
  | cancel e =>
    have ha := h.unlink e
    rw [← cancel_eq] at ha
    have hag := agenda_unlink w e
    rw [← cancel_eq] at hag
    exact ⟨{ w.cancel e with history := .clear e :: w.history }, rfl, hnote _ ha,
      Agenda.ext (congrArg Agenda.now hag :) (congrArg Agenda.due hag :) rfl⟩

theorem calls_spec (cs : List (Call ι)) (hD : w.now 0 + D < 2 ^ 64) (hcs : ∀ c ∈ cs, Within D c)
    (h : w.Shape o) (hc : Clocked w.now) :
    ∃ w', cs.foldlM call w = some w' ∧ After o w w' ∧
      w'.agenda = cs.foldl Agenda.call w.agenda := by
  induction cs generalizing w with
  | nil => exact ⟨w, rfl, h.after, rfl⟩
  | cons c cs ih =>
    obtain ⟨w₁, h₁, ha₁, hag₁⟩ := call_spec h hc (hcs c List.mem_cons_self) hD
    obtain ⟨w₂, h₂, ha₂, hag₂⟩ := ih (ha₁.now ▸ hD)
      (fun c' hc' => hcs c' (List.mem_cons_of_mem c hc')) ha₁.shape (ha₁.now ▸ hc)
    refine ⟨w₂, ?_, ha₁.trans ha₂, ?_⟩
    · rw [List.foldlM_cons, h₁]
      exact h₂
    · rw [hag₂, hag₁]
      rfl

/-- **`execute`** of an event taken off its slot is the answer to the event on the agenda. -/
theorem execute_spec {ans : Answers ι} (hD : w.now 0 + D < 2 ^ 64)
    (hans : ∀ j, ∀ c ∈ ans j, Within D c) (h : w.Shape o) (hc : Clocked w.now) (e : ι) :
    ∃ w', (w.relink e none).execute ans e = some w' ∧ After o (w.relink e none) w' ∧
      w'.agenda = w.agenda.answer ans e := by
  let u : TimerWheel ι :=
    { w.relink e none with
      history := .fire e ((w.relink e none).now 0) :: (w.relink e none).history }
  have hu := h.unlink e
  have hus : u.Shape o := ⟨hu.shape.linked, hu.shape.placed⟩
  have hnow : u.now = w.now := relink_now
  obtain ⟨w', hw, ha, hag⟩ := calls_spec (ans u.history) (hnow ▸ hD) (hans u.history) hus
    (hnow ▸ hc)
  have hfire : u.agenda = w.agenda.fire e := by
    have hun := agenda_unlink w e
    refine Agenda.ext (congrArg Agenda.now hun :) (congrArg Agenda.due hun :) ?_
    show Note.fire e ((w.relink e none).now 0) :: (w.relink e none).history = _
    rw [relink_now, relink_history]
    rfl
  refine ⟨w', hw, ⟨ha.shape, ha.now, ha.ticksPending, ha.thins⟩, ?_⟩
  rw [hag, hfire]
  show (ans u.history).foldl _ _ = (ans (w.agenda.fire e).journal).foldl _ _
  rw [← hfire]
  rfl

end TimerWheel

end Asyncflow
