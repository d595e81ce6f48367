import Asyncflow.Timer.Refinement

/-!
# Runs of the timer wheel

Runs of calls and advances on a timer wheel. A run from a new wheel never fails, and it executes
each event at exactly the tick for which it was last scheduled, however the time is divided into
advances.
-/

namespace Asyncflow

open Agenda (Note Call Answers Turn Turns)

namespace TimerWheel

/-- What is done to a timer wheel from outside its callbacks. -/
inductive Op (ι : Type)
  | call (c : Call ι)
  | advance (delta maxEvents : ℕ)
deriving DecidableEq, Repr

variable {ι : Type} [DecidableEq ι]

/-- An operation on a timer wheel. -/
def run (ans : Answers ι) (w : TimerWheel ι) : Op ι → Option (TimerWheel ι)
  | .call c => w.call c
  | .advance delta maxEvents => (w.advance ans delta maxEvents).map Prod.snd

/-- Calls are for a later time, not too far off. -/
def Op.Fits (D : ℕ) : Op ι → Prop
  | .call c => Within D c
  | .advance _ _ => True

/-- What `advance` asserts: it is by no tick only if there are ticks pending. -/
def Op.Allowed (w : TimerWheel ι) : Op ι → Prop
  | .call _ => True
  | .advance delta _ => w.ticksPending = 0 → 0 < delta

instance (w : TimerWheel ι) (op : Op ι) : Decidable (op.Allowed w) := by
  cases op <;> unfold Op.Allowed <;> infer_instance

/-- **Advances by no tick** only go on with one that was broken off. -/
def Allowed (ans : Answers ι) : TimerWheel ι → List (Op ι) → Prop
  | _, [] => True
  | w, op :: ops => op.Allowed w ∧ ∀ w' ∈ run ans w op, Allowed ans w' ops

instance decidableAllowed (ans : Answers ι) :
    ∀ (w : TimerWheel ι) (ops : List (Op ι)), Decidable (Allowed ans w ops)
  | _, [] => .isTrue trivial
  | w, op :: ops =>
    have (w' : TimerWheel ι) : Decidable (Allowed ans w' ops) := decidableAllowed ans w' ops
    inferInstanceAs (Decidable (op.Allowed w ∧ ∀ w' ∈ run ans w op, Allowed ans w' ops))

/-- The ticks an operation takes. -/
def Op.time : Op ι → ℕ
  | .call _ => 0
  | .advance delta _ => delta

/-- An advance of which no event can see the limit. -/
def Op.Roomy : Op ι → Prop
  | .call _ => True
  | .advance _ maxEvents => TimerWheel.Roomy ι maxEvents

/-- The ticks that operations take. -/
def elapsed (ops : List (Op ι)) : ℕ := (ops.map Op.time).sum

variable {ans : Answers ι} {D start : ℕ} {w : TimerWheel ι} {ops : List (Op ι)}

omit [DecidableEq ι] in
theorem init_good (start : ℕ) : (init start : TimerWheel ι).Good := by
  have hzero : (init start : TimerWheel ι).now 0 = start := Nat.div_one start
  refine ⟨fun l _ => ?_, ⟨⟨fun e p => ?_, fun p => List.nodup_nil⟩, nofun⟩, fun h => absurd rfl h⟩
  · rw [hzero]
    rfl
  · exact iff_of_false List.not_mem_nil nofun

omit [DecidableEq ι] in
theorem After.good {w' : TimerWheel ι} (h : w.Good)
    (ha : After (if w.ticksPending = 0 then 0 else 8) w w') : w'.Good :=
  ⟨ha.now ▸ h.clocked, ha.ticksPending ▸ ha.shape, fun hne => by
    rw [ha.now]
    exact h.moved (ha.ticksPending ▸ hne)⟩

/-- What operations do to a timer wheel. The predicate is one that the calls of the operations
and all turns keep. -/
structure Served (J : Agenda ι → Prop) (w w' : TimerWheel ι) (ops : List (Op ι)) : Prop where
  good : w'.Good
  target : w'.target = w.target + elapsed ops
  inv : J w'.agenda
  roomy : (∀ op ∈ ops, op.Roomy) → w.ticksPending = 0 → w'.ticksPending = 0

/-- **Operations never fail**, and act on the agenda by calls and turns. -/
theorem run_spec (hans : ∀ j, ∀ c ∈ ans j, Within D c) {J : Agenda ι → Prop}
    (hturn : ∀ q q', J q → Turn ans q q' → J q') (hw : w.Good) (hJ : J w.agenda)
    (hcall : ∀ c, .call c ∈ ops → ∀ q, J q → J (q.call c)) (hops : ∀ op ∈ ops, op.Fits D)
    (hallowed : Allowed ans w ops) (hD : w.target + elapsed ops + D < 2 ^ 64) :
    ∃ w', ops.foldlM (run ans) w = some w' ∧ Served J w w' ops := by
  induction ops generalizing w with
  | nil => exact ⟨w, rfl, hw, rfl, hJ, fun _ hp => hp⟩
  | cons op ops ih =>
    obtain ⟨hgo, hrest⟩ := hallowed
    have hsum : elapsed (op :: ops) = op.time + elapsed ops := List.sum_cons
    rw [hsum] at hD
    -- the first operation
    obtain ⟨w₁, hrun, hgood, htarget, hJ₁, hroomy⟩ : ∃ w₁, run ans w op = some w₁ ∧ w₁.Good ∧
        w₁.target = w.target + op.time ∧ J w₁.agenda ∧
        (op.Roomy → w.ticksPending = 0 → w₁.ticksPending = 0) := by
      cases op with
      | call c =>
        have hfits := hops (.call c) List.mem_cons_self
        have hroom : w.now 0 + D < 2 ^ 64 := by
          rw [target] at hD
          omega
        obtain ⟨w₁, hc, ha, hag⟩ := call_spec hw.shape hw.clocked hfits hroom
        refine ⟨w₁, hc, ha.good hw, ?_, ?_, fun _ hp => ha.ticksPending.trans hp⟩
        · rw [target, target, ha.now, ha.ticksPending]
          rfl
        · rw [hag]
          exact hcall c List.mem_cons_self w.agenda hJ
      | advance delta maxEvents =>
        have hroom : w.target + delta + D < 2 ^ 64 := by
          have : (Op.advance delta maxEvents : Op ι).time = delta := rfl
          omega
        obtain ⟨⟨done, w₁⟩, hadv, had⟩ :=
          advance_spec hans maxEvents hw hgo hroom
        refine ⟨w₁, ?_, had.good, had.target, ?_, fun hr _ => had.done.mp (had.roomy hr)⟩
        · show (w.advance ans delta maxEvents).map _ = _
          rw [hadv]
          rfl
        · exact Agenda.keep_of_turns hturn had.turns hJ
    obtain ⟨w₂, hrun₂, hs⟩ := ih hgood hJ₁ (fun c hc => hcall c (List.mem_cons_of_mem op hc))
      (fun op' hop' => hops op' (List.mem_cons_of_mem op hop')) (hrest w₁ hrun) (by omega)
    refine ⟨w₂, ?_, hs.good, ?_, hs.inv, fun hr hp => ?_⟩
    · rw [List.foldlM_cons, hrun]
      exact hrun₂
    · rw [hs.target, htarget, hsum, Nat.add_assoc]
    · exact hs.roomy (fun op' hop' => hr op' (List.mem_cons_of_mem op hop'))
        (hroomy (hr op List.mem_cons_self) hp)

omit [DecidableEq ι] in
/-- The clock is where it should be, and nothing that is due waits. -/
theorem Good.settled (h : w.Good) (hp : w.ticksPending = 0) :
    w.now 0 = w.target ∧ ∀ e t, w.agenda.due e = some t → w.now 0 < t := by
  refine ⟨by rw [target, hp]; rfl, fun e t hdue => ?_⟩
  have hs := h.shape
  rw [if_pos hp] at hs
  obtain ⟨p, he, rfl⟩ := Option.map_eq_some_iff.mp hdue
  exact (hs.placed e p he).lt

/-- **Every event is executed at the tick for which it was last scheduled**: in a run from a new
wheel, whatever the callbacks do, events are executed at their times and in the order of these,
and an event that is scheduled and was neither executed nor cancelled since is due later. -/
theorem executed_when_scheduled (hans : ∀ j, ∀ c ∈ ans j, Within D c)
    (hops : ∀ op ∈ ops, op.Fits D) (hallowed : Allowed ans (init start) ops)
    (hD : start + elapsed ops + D < 2 ^ 64) :
    ∃ w, ops.foldlM (run ans) (init start) = some w ∧
      Agenda.Punctual w.history ∧ (Agenda.fired w.history).Pairwise (· ≥ ·) ∧
      (∀ t ∈ Agenda.fired w.history, t ≤ w.now 0) ∧
      (∀ e, (w.slot e).map (fun _ => w.scheduledAt e) = Agenda.latest e w.history) ∧
      (∀ e t, Agenda.latest e w.history = some t → w.now 0 ≤ t) ∧
      w.now 0 + (w.ticksPending - 1) = start + elapsed ops ∧
      (w.ticksPending = 0 → ∀ e t, Agenda.latest e w.history = some t → w.now 0 < t) ∧
      ((∀ op ∈ ops, op.Roomy) → w.ticksPending = 0) := by
  have htarget : (init start : TimerWheel ι).target = start := Nat.div_one start
  have hkept : (init start : TimerWheel ι).agenda.Kept := Agenda.kept_blank _
  obtain ⟨w, hrun, hs⟩ := run_spec (J := Agenda.Kept) hans
    (fun q q' hk ht => hk.turns (fun j c hc => (hans j c hc).later) (.single ht))
      (init_good start) hkept
    (fun c hc q hk => hk.call (hops (.call c) hc).later) hops hallowed (htarget.symm ▸ hD)
  have hk := hs.inv
  refine ⟨w, hrun, hk.punctual, hk.ordered, hk.past, hk.due, fun e t ht => ?_, ?_,
    fun hp e t ht => ?_, fun hr => hs.roomy hr rfl⟩
  · exact hk.ahead e t ((hk.due e).trans ht)
  · rw [← htarget]
    exact hs.target
  · exact (hs.good.settled hp).2 e t ((hk.due e).trans ht)

/-- Two events are scheduled; the first schedules itself anew, and the second cancels the first. -/
def twoEvents : Answers Bool
  | .fire true _ :: _ => [.schedule true 300]
  | .fire false _ :: _ => [.cancel true]
  | _ => []

/-- The first advance is broken off twice, before it goes on by no tick and by some. -/
def twoOps : List (Op Bool) :=
  [.call (.schedule true 300), .call (.schedule false 1000), .advance 700 1, .advance 0 1,
    .advance 400 (2 ^ 64 - 1)]

theorem executed_when_scheduled_two :
    ∃ w : TimerWheel Bool, twoOps.foldlM (run twoEvents) (init 5) = some w ∧
      Agenda.Punctual w.history ∧ (Agenda.fired w.history).Pairwise (· ≥ ·) ∧
      (∀ t ∈ Agenda.fired w.history, t ≤ w.now 0) ∧
      (∀ e, (w.slot e).map (fun _ => w.scheduledAt e) = Agenda.latest e w.history) ∧
      (∀ e t, Agenda.latest e w.history = some t → w.now 0 ≤ t) ∧
      w.now 0 + (w.ticksPending - 1) = 5 + 1100 ∧
      (w.ticksPending = 0 → ∀ e t, Agenda.latest e w.history = some t → w.now 0 < t) ∧
      ((∀ op ∈ twoOps, op.Roomy) → w.ticksPending = 0) := by
  refine executed_when_scheduled (D := 1000) (fun j c hc => ?_) (fun op hop => ?_)
    (by decide +kernel)
    (by decide)
  · unfold twoEvents at hc
    split at hc
    · obtain rfl := List.mem_singleton.mp hc
      exact ⟨by decide, by decide⟩
    · obtain rfl := List.mem_singleton.mp hc
      trivial
    · cases hc
  · simp only [twoOps, List.mem_cons, List.not_mem_nil, or_false] at hop
    rcases hop with rfl | rfl | rfl | rfl | rfl
    · exact ⟨by decide, by decide⟩
    · exact ⟨by decide, by decide⟩
    all_goals trivial

end TimerWheel

end Asyncflow
