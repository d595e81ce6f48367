import Mathlib.Logic.Relation
import Mathlib.Data.List.Basic

/-!
# Runs of a labelled system

A system is a partial step function `step : σ → α → Option σ`: from a state, an
action of the environment either leads to a next state or is not possible. This
file has the two readings of its runs that the rest of the development uses, and
nothing about any particular system.

* `Asyncflow.Run.exec` executes a list of actions, so that a concrete run can be
  evaluated, and `Asyncflow.Run.drive` fills in the actions of the system itself;
* `Asyncflow.Run.Steps` is the run as a relation, every one of whose steps meets
  a *guard* `K s a`. With the guard `fun _ _ => True` it is plain reachability
  (`Asyncflow.Run.Reaches`).

The invariant rule is `Asyncflow.Run.Steps.invariant`, and
`Asyncflow.Run.Steps.relation` is its two-state form: a reflexive and transitive
relation that every step establishes holds between the ends of a run. The origin
rule `Asyncflow.Run.Steps.since` finds the step that made something true.
-/

namespace Asyncflow

namespace Run

variable {σ α : Type} (step : σ → α → Option σ)

/-- Executes a list of actions, one after the other. -/
def exec (s : σ) : List α → Option σ
  | [] => some s
  | a :: as => (step s a).bind fun t => exec t as

@[simp] theorem exec_nil (s : σ) : exec step s [] = some s := rfl

theorem exec_cons (s : σ) (a : α) (as : List α) :
    exec step s (a :: as) = (step s a).bind fun t => exec step t as := rfl

/-- **Guarded runs**: every step of the run meets the guard `K` in the state it
starts from. -/
inductive Steps (K : σ → α → Prop) : σ → σ → Prop
  /-- The empty run. -/
  | refl (s : σ) : Steps K s s
  /-- One more step at the end of a run. -/
  | tail {s t u : σ} {a : α} : Steps K s t → K t a → step t a = some u → Steps K s u

/-- Runs without a guard. -/
abbrev Reaches (s t : σ) : Prop := Steps step (fun _ _ => True) s t

variable {step} {K : σ → α → Prop} {s t u : σ}

namespace Steps

theorem trans (h : Steps step K s t) (h' : Steps step K t u) : Steps step K s u := by
  induction h' with
  | refl => exact h
  | tail _ hK hs ih => exact ih.tail hK hs

theorem head {a : α} (hK : K s a) (hs : step s a = some t) (h : Steps step K t u) :
    Steps step K s u :=
  ((Steps.refl s).tail hK hs).trans h

/-- A run may be read with any weaker guard. -/
theorem mono {K' : σ → α → Prop} (hKK : ∀ s a, K s a → K' s a) (h : Steps step K s t) :
    Steps step K' s t := by
  induction h with
  | refl => exact .refl _
  | tail _ hK hs ih => exact ih.tail (hKK _ _ hK) hs

/-- **The invariant rule**: what the first state satisfies and every guarded step
preserves, every state of the run satisfies. -/
theorem invariant {I : σ → Prop} (h : Steps step K s t) (h0 : I s)
    (hstep : ∀ u a v, I u → K u a → step u a = some v → I v) : I t := by
  induction h with
  | refl => exact h0
  | tail _ hK hs ih => exact hstep _ _ _ ih hK hs

/-- **The two-state rule**: a reflexive and transitive relation established by
every step from a state satisfying an invariant holds along the run. -/
theorem relation {I : σ → Prop} {R : σ → σ → Prop} (hrefl : ∀ s, R s s)
    (htrans : ∀ {s t u}, R s t → R t u → R s u) (h : Steps step K s t) (h0 : I s)
    (hI : ∀ u a v, I u → K u a → step u a = some v → I v)
    (hR : ∀ u a v, I u → K u a → step u a = some v → R u v) : R s t := by
  induction h with
  | refl => exact hrefl _
  | tail hr hK hs ih => exact htrans ih (hR _ _ _ (hr.invariant h0 hI) hK hs)

/-- **The origin rule**: what is not true at first, and becomes true only in steps of a kind,
has been true since such a step. -/
theorem since {P : σ → Prop} {E : σ → α → Prop} (h : Steps step K s t) (h0 : ¬P s) (ht : P t)
    (hstep : ∀ u a v, Steps step K s u → K u a → step u a = some v → P v → P u ∨ E u a) :
    ∃ u a v, Steps step K s u ∧ E u a ∧ step u a = some v ∧
      Steps step (fun w b => K w b ∧ P w) v t := by
  induction h with
  | refl => exact absurd ht h0
  | @tail u v a hr hK hs ih =>
    rcases hstep u a v hr hK hs ht with hu | he
    · obtain ⟨w, b, w', hw, he, hw', hrun⟩ := ih hu
      exact ⟨w, b, w', hw, he, hw', hrun.tail ⟨hK, hu⟩ hs⟩
    · exact ⟨u, a, v, hr, he, hs, .refl _⟩

end Steps

/-- An execution is a run. -/
theorem reaches_of_exec {as : List α} (h : exec step s as = some t) : Reaches step s t := by
  induction as generalizing s with
  | nil => obtain rfl : s = t := by simpa using h
           exact .refl _
  | cons a as ih =>
    rw [exec_cons, Option.bind_eq_some_iff] at h
    obtain ⟨u, hu, hut⟩ := h
    exact Steps.head trivial hu (ih hut)

/-! ### Systems that go on by themselves -/

variable (step) in
/-- Repeats an action as long as it is possible, up to a number of times. -/
def exhaust (a : α) : ℕ → σ → σ
  | 0, s => s
  | k + 1, s => match step s a with
    | some t => exhaust a k t
    | none => s

variable (step) in
/-- Executes a list of actions, and after each of them the action `a` as long as it
is possible, up to `k` times. -/
def drive (a : α) (k : ℕ) (s : σ) : List α → Option σ
  | [] => some s
  | b :: bs => (step s b).bind fun t => drive a k (exhaust step a k t) bs

theorem reaches_exhaust (a : α) (k : ℕ) (s : σ) : Reaches step s (exhaust step a k s) := by
  induction k generalizing s with
  | zero => exact .refl s
  | succ k ih =>
    unfold exhaust
    split
    · exact .head trivial ‹_› (ih _)
    · exact .refl s

/-- A driven execution is a run. -/
theorem reaches_of_drive {a : α} {k : ℕ} {bs : List α} (h : drive step a k s bs = some t) :
    Reaches step s t := by
  induction bs generalizing s with
  | nil =>
    obtain rfl : s = t := by simpa [drive] using h
    exact .refl s
  | cons b bs ih =>
    simp only [drive, Option.bind_eq_some_iff] at h
    obtain ⟨u, hu, hut⟩ := h
    exact .head trivial hu ((reaches_exhaust a k u).trans (ih hut))

/-! ### Runs that stop at a guard -/

/-- The system that goes no further when a step does not meet the guard. -/
def guarded (step : σ → α → Option σ) (ok : σ → α → Prop) [∀ s a, Decidable (ok s a)] (s : σ)
    (a : α) : Option σ :=
  if ok s a then step s a else none

variable {ok : σ → α → Prop} [∀ s a, Decidable (ok s a)]

/-- A run of the guarded system is a guarded run. -/
theorem steps_of_guarded (h : Reaches (guarded step ok) s t) : Steps step ok s t := by
  induction h with
  | refl => exact .refl s
  | tail _ _ hs ih =>
    unfold guarded at hs
    split at hs
    · exact ih.tail ‹_› hs
    · cases hs

end Run

end Asyncflow
