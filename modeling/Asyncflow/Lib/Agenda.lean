import Mathlib.Logic.Relation
import Mathlib.Logic.Function.Basic
import Mathlib.Data.List.Basic

/-!
# Agendas

An agenda is a clock together with the time at which each entry is due, if at all. Entries are
scheduled for a later time and cancelled; an entry fires when the clock shows its time, and the
clock does not move on before that. This is what a timer service is for, whatever it looks like
inside. An entry that fires is answered by calls that may depend on everything done so far.

The journal records, newest first, what was done with the entries. `Asyncflow.Agenda.latest`
reads off it when an entry is due, and `Asyncflow.Agenda.Kept` is what holds of every agenda that
came about by calls and turns: the journal and the clock say the same as the agenda, and every
entry fired at the time it was last set for, in the order of the times.

`Asyncflow.Agenda.Round` is about an entry that is answered by scheduling it anew, a fixed time
ahead.
-/

namespace Asyncflow

/-- What is done with the entries of an agenda. -/
inductive Agenda.Note (ι : Type)
  /-- The entry is set for a time. -/
  | set (e : ι) (t : ℕ)
  /-- The entry is cleared. -/
  | clear (e : ι)
  /-- The entry fires, and the time the clock shows. -/
  | fire (e : ι) (t : ℕ)
deriving DecidableEq, Repr

/-- **An agenda**, with its journal. -/
@[ext] structure Agenda (ι : Type) where
  /-- The clock. -/
  now : ℕ
  /-- When the entries are due. -/
  due : ι → Option ℕ
  /-- What was done, newest first. -/
  journal : List (Agenda.Note ι)

namespace Agenda

variable {ι : Type} [DecidableEq ι] {e : ι} {j : List (Note ι)}

/-! ### Journals -/

/-- The time the journal says an entry is due. -/
def latest (e : ι) : List (Note ι) → Option ℕ
  | [] => none
  | .set e' t :: j => if e' = e then some t else latest e j
  | .clear e' :: j => if e' = e then none else latest e j
  | .fire e' _ :: j => if e' = e then none else latest e j

/-- The time of a note about firing. -/
def Note.fired? : Note ι → Option ℕ
  | .fire _ t => some t
  | _ => none

/-- The times at which entries fired, newest first. -/
def fired (j : List (Note ι)) : List ℕ := j.filterMap Note.fired?

/-- The times at which an entry fired, newest first. -/
def firedAt (e : ι) : List (Note ι) → List ℕ
  | [] => []
  | .fire e' t :: j => if e' = e then t :: firedAt e j else firedAt e j
  | _ :: j => firedAt e j

/-- **Every entry fired at the time it was last set for.** -/
def Punctual (j : List (Note ι)) : Prop :=
  ∀ after e t before, j = after ++ .fire e t :: before → latest e before = some t

theorem punctual_cons {x : Note ι} (hx : ∀ e t, x = .fire e t → latest e j = some t)
    (hj : Punctual j) : Punctual (x :: j) := by
  intro after e t before h
  cases after with
  | nil =>
    obtain ⟨rfl, rfl⟩ := List.cons.inj h
    exact hx e t rfl
  | cons y after =>
    obtain ⟨-, rfl⟩ := List.cons.inj h
    exact hj after e t before rfl

/-! ### Calls and turns -/

/-- A call on an agenda. -/
inductive Call (ι : Type)
  /-- The entry is to fire that many ticks ahead. -/
  | schedule (e : ι) (d : ℕ)
  /-- The entry is not to fire. -/
  | cancel (e : ι)
deriving DecidableEq, Repr

/-- The entry a call is about. -/
def Call.entry : Call ι → ι
  | schedule e _ | cancel e => e

/-- A call that schedules does so for a later time. -/
def Call.Later : Call ι → Prop
  | schedule _ d => 0 < d
  | cancel _ => True

/-- The note about a call. -/
def Call.note (now : ℕ) : Call ι → Note ι
  | schedule e d => .set e (now + d)
  | cancel e => .clear e

/-- The calls an entry that fired is answered by, from the journal. -/
abbrev Answers (ι : Type) := List (Note ι) → List (Call ι)

/-- When the entry of a call is due after it. -/
def Call.due (now : ℕ) : Call ι → Option ℕ
  | schedule _ d => some (now + d)
  | cancel _ => none

/-- A call on the agenda. -/
def call (q : Agenda ι) (c : Call ι) : Agenda ι :=
  { q with
    due := Function.update q.due c.entry (c.due q.now)
    journal := c.note q.now :: q.journal }

/-- The entry fires. -/
def fire (q : Agenda ι) (e : ι) : Agenda ι :=
  { q with due := Function.update q.due e none, journal := .fire e q.now :: q.journal }

/-- The entry fires and is answered. -/
def answer (ans : Answers ι) (q : Agenda ι) (e : ι) : Agenda ι :=
  (ans (q.fire e).journal).foldl call (q.fire e)

/-- The clock moves on by one tick. -/
def tick (q : Agenda ι) : Agenda ι := { q with now := q.now + 1 }

/-- **A turn**: entries fire when they are due, and the clock waits for them. -/
inductive Turn (ans : Answers ι) (q : Agenda ι) : Agenda ι → Prop
  | fire {f} : q.due f = some q.now → Turn ans q (q.answer ans f)
  | tick : (∀ f, q.due f ≠ some q.now) → Turn ans q q.tick

/-- Any number of turns. -/
abbrev Turns (ans : Answers ι) : Agenda ι → Agenda ι → Prop := Relation.ReflTransGen (Turn ans)

variable {ans : Answers ι} {q q' : Agenda ι}

@[simp] theorem now_calls (cs : List (Call ι)) (q : Agenda ι) : (cs.foldl call q).now = q.now := by
  induction cs generalizing q with
  | nil => rfl
  | cons c cs ih => exact ih (q.call c)

@[simp] theorem now_answer : (q.answer ans e).now = q.now := now_calls _ _

theorem suffix_calls (cs : List (Call ι)) (q : Agenda ι) :
    q.journal <:+ (cs.foldl call q).journal := by
  induction cs generalizing q with
  | nil => exact List.suffix_rfl
  | cons c cs ih => exact (List.suffix_cons _ _).trans (ih (q.call c))

/-- What every turn keeps, any number of turns keep. -/
theorem keep_of_turns {J : Agenda ι → Prop} (hturn : ∀ q q', J q → Turn ans q q' → J q')
    (h : Turns ans q q') (hq : J q) : J q' := by
  induction h with
  | refl => exact hq
  | tail _ ht ih => exact hturn _ _ ih ht

/-- An agenda without entries. -/
def blank (now : ℕ) : Agenda ι := ⟨now, fun _ => none, []⟩

/-! ### What calls and turns keep -/

/-- **What holds of an agenda that came about by calls and turns.** -/
structure Kept (q : Agenda ι) : Prop where
  /-- The journal says what is due. -/
  due : ∀ e, q.due e = latest e q.journal
  /-- Nothing is overdue. -/
  ahead : ∀ e t, q.due e = some t → q.now ≤ t
  /-- Entries fired at their times. -/
  punctual : Punctual q.journal
  /-- The times at which entries fired do not go back. -/
  ordered : (fired q.journal).Pairwise (· ≥ ·)
  /-- They have passed. -/
  past : ∀ t ∈ fired q.journal, t ≤ q.now

theorem kept_blank (now : ℕ) : (blank now : Agenda ι).Kept :=
  ⟨fun _ => rfl, nofun, fun after e t before h => by simp [blank] at h, List.Pairwise.nil, nofun⟩

theorem latest_note (e : ι) (c : Call ι) (now : ℕ) (j : List (Note ι)) :
    latest e (c.note now :: j) = if c.entry = e then c.due now else latest e j := by
  cases c <;> rfl

theorem Kept.call {c : Call ι} (hk : q.Kept) (hc : c.Later) : (q.call c).Kept := by
  have hf : fired (c.note q.now :: q.journal) = fired q.journal :=
    List.filterMap_cons_none (by cases c <;> rfl)
  refine ⟨fun e => ?_, fun e t ht => ?_, punctual_cons (fun e t h => ?_) hk.punctual, ?_, ?_⟩
  · show Function.update q.due c.entry _ e = latest e (c.note q.now :: q.journal)
    rw [latest_note]
    rcases eq_or_ne e c.entry with rfl | he
    · rw [Function.update_self, if_pos rfl]
    · rw [Function.update_of_ne he, if_neg he.symm, hk.due]
  · replace ht : Function.update q.due c.entry (c.due q.now) e = some t := ht
    rcases eq_or_ne e c.entry with rfl | he
    · rw [Function.update_self] at ht
      cases c with
      | schedule e d =>
        have := Option.some.inj ht
        show q.now ≤ t
        omega
      | cancel e => cases ht
    · rw [Function.update_of_ne he] at ht
      exact hk.ahead e t ht
  · cases c <;> cases h
  · exact hf ▸ hk.ordered
  · exact hf ▸ hk.past

theorem Kept.calls {cs : List (Call ι)} (hk : q.Kept) (hcs : ∀ c ∈ cs, c.Later) :
    (cs.foldl Agenda.call q).Kept := by
  induction cs generalizing q with
  | nil => exact hk
  | cons c cs ih =>
    exact ih (hk.call (hcs c List.mem_cons_self)) fun c' hc' => hcs c' (List.mem_cons_of_mem c hc')

theorem Kept.fire (hk : q.Kept) (hd : q.due e = some q.now) : (q.fire e).Kept := by
  refine ⟨fun e' => ?_, fun e' t ht => ?_, punctual_cons (fun e' t h => ?_) hk.punctual, ?_, ?_⟩
  · show Function.update q.due e none e' = latest e' (.fire e q.now :: q.journal)
    rw [latest]
    rcases eq_or_ne e' e with rfl | he
    · rw [Function.update_self, if_pos rfl]
    · rw [Function.update_of_ne he, if_neg he.symm, hk.due]
  · replace ht : Function.update q.due e none e' = some t := ht
    rcases eq_or_ne e' e with rfl | he
    · rw [Function.update_self] at ht
      cases ht
    · rw [Function.update_of_ne he] at ht
      exact hk.ahead e' t ht
  · obtain ⟨rfl, rfl⟩ := Note.fire.inj h
    rw [← hk.due, hd]
  · exact List.pairwise_cons.mpr ⟨hk.past, hk.ordered⟩
  · intro t ht
    rcases List.mem_cons.mp ht with rfl | ht
    · exact Nat.le_refl _
    · exact hk.past t ht

theorem Kept.tick (hk : q.Kept) (hno : ∀ f, q.due f ≠ some q.now) : q.tick.Kept := by
  refine ⟨hk.due, fun e t ht => ?_, hk.punctual, hk.ordered, fun t ht => ?_⟩
  · have hle := hk.ahead e t ht
    have hne : q.now ≠ t := fun h => hno e (h ▸ ht)
    show q.now + 1 ≤ t
    omega
  · exact Nat.le_succ_of_le (hk.past t ht)

theorem Kept.turns (hk : q.Kept) (hans : ∀ j, ∀ c ∈ ans j, c.Later) (h : Turns ans q q') :
    q'.Kept := by
  refine keep_of_turns (fun q q' hk ht => ?_) h hk
  cases ht with
  | fire hd => exact (hk.fire hd).calls (hans _)
  | tick hno => exact hk.tick hno

/-! ### Entries that are scheduled anew -/

/-- **A round entry**: it fired at the first `k` of the times `t`, `t + d`, `t + 2 * d` and so on,
and is due at the next. Before that it fired at the times `old`. -/
def Round (e : ι) (t d : ℕ) (old : List ℕ) (k : ℕ) (q : Agenda ι) : Prop :=
  firedAt e q.journal = ((List.range k).map fun i => t + i * d).reverse ++ old ∧
    q.due e = some (t + k * d)

variable {t d k : ℕ} {old : List ℕ}

theorem firedAt_note (c : Call ι) (now : ℕ) (j : List (Note ι)) :
    firedAt e (c.note now :: j) = firedAt e j := by
  cases c <;> rfl

/-- A call about another entry changes nothing about an entry. -/
theorem Round.call {c : Call ι} (h : Round e t d old k q) (hc : c.entry ≠ e) :
    Round e t d old k (q.call c) := by
  refine ⟨(firedAt_note c q.now q.journal).trans h.1, ?_⟩
  show Function.update q.due c.entry _ e = _
  rw [Function.update_of_ne hc.symm, h.2]

theorem Round.calls {cs : List (Call ι)} (h : Round e t d old k q) (hcs : ∀ c ∈ cs, c.entry ≠ e) :
    Round e t d old k (cs.foldl Agenda.call q) := by
  induction cs generalizing q with
  | nil => exact h
  | cons c cs ih =>
    exact ih (h.call (hcs c List.mem_cons_self)) fun c' hc' => hcs c' (List.mem_cons_of_mem c hc')

/-- The entry fires and is scheduled anew: one more round. -/
theorem Round.again (h : Round e t d old k q) (hd : q.due e = some q.now) :
    Round e t d old (k + 1) ((q.fire e).call (.schedule e d)) := by
  have hnow : q.now = t + k * d := Option.some.inj (hd.symm.trans h.2)
  refine ⟨?_, ?_⟩
  · show firedAt e (.fire e q.now :: q.journal) = _
    rw [firedAt, if_pos rfl, h.1, hnow, List.range_succ, List.map_append, List.reverse_append]
    rfl
  · show Function.update (q.fire e).due e (some (q.now + d)) e = some (t + (k + 1) * d)
    rw [Function.update_self, hnow, Nat.succ_mul, Nat.add_assoc]

/-- Another entry fires. -/
theorem Round.fire {f : ι} (h : Round e t d old k q) (hf : f ≠ e) :
    Round e t d old k (q.fire f) := by
  refine ⟨?_, ?_⟩
  · show firedAt e (.fire f q.now :: q.journal) = _
    rw [firedAt, if_neg hf, h.1]
  · show Function.update q.due f none e = _
    rw [Function.update_of_ne hf.symm, h.2]

theorem mem_fired_of_firedAt (h : t ∈ firedAt e j) : t ∈ fired j := by
  induction j with
  | nil => cases h
  | cons x j ih =>
    cases x with
    | set | clear => exact ih h
    | fire f s =>
      rw [firedAt] at h
      split at h
      · rcases List.mem_cons.mp h with rfl | h
        · exact List.mem_cons_self
        · exact List.mem_cons_of_mem _ (ih h)
      · exact List.mem_cons_of_mem _ (ih h)

/-- **The rounds that are over** are counted by the clock. -/
theorem Round.count (h : Round e t d old k q) (hk : q.Kept)
    (hahead : ∀ s, q.due e = some s → q.now < s) (ht : t ≤ q.now) :
    k = (q.now - t) / d + 1 := by
  have hlt : q.now < t + k * d := hahead _ h.2
  have hpos : k ≠ 0 := by
    rintro rfl
    omega
  obtain ⟨m, rfl⟩ : ∃ m, k = m + 1 := Nat.exists_eq_succ_of_ne_zero hpos
  have hmem : t + m * d ∈ firedAt e q.journal := by
    rw [h.1, List.mem_append, List.mem_reverse, List.mem_map]
    exact Or.inl ⟨m, List.mem_range.mpr (Nat.lt_succ_self m), rfl⟩
  have hle : t + m * d ≤ q.now := hk.past _ (mem_fired_of_firedAt hmem)
  have hdiv : (q.now - t) / d = m := by
    refine Nat.div_eq_of_lt_le ?_ ?_ <;> omega
  rw [hdiv]

end Agenda

end Asyncflow
