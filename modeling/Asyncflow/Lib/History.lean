import Mathlib.Data.List.Basic

/-!
# Reading a history

A history is a list of entries, newest first. `Asyncflow.History.Since` says that
something has happened and has not been undone since, as a recursion that follows
the growth of the history; `Asyncflow.History.since_iff` reads it off the whole
list.
-/

namespace Asyncflow

namespace History

variable {ω : Type} (set reset : ω → Prop)

/-- Some entry sets the flag and no later one resets it. An entry that does both
sets it. -/
def Since : List ω → Prop
  | [] => False
  | o :: l => set o ∨ ¬reset o ∧ Since l

instance [DecidablePred set] [DecidablePred reset] : DecidablePred (Since set reset) := fun l =>
  l.rec (inferInstanceAs (Decidable False)) fun o _ _ =>
    inferInstanceAs (Decidable (set o ∨ ¬reset o ∧ Since set reset _))

@[simp] theorem since_nil : Since set reset [] ↔ False := Iff.rfl

theorem since_cons (o : ω) (l : List ω) :
    Since set reset (o :: l) ↔ set o ∨ ¬reset o ∧ Since set reset l := Iff.rfl

variable {set reset} {set' reset' : ω → Prop} {o : ω} {l new : List ω}

/-- **The flag, read off the whole history**: there is an entry that sets it and
none after it that resets it. -/
theorem since_iff : Since set reset l ↔
    ∃ after o before, l = after ++ o :: before ∧ set o ∧ ∀ x ∈ after, ¬reset x := by
  induction l with
  | nil => simp
  | cons x l ih =>
    rw [since_cons, ih]
    constructor
    · rintro (hx | ⟨hx, after, o, before, rfl, ho, hafter⟩)
      · exact ⟨[], x, l, rfl, hx, by simp⟩
      · refine ⟨x :: after, o, before, rfl, ho, ?_⟩
        rintro y (_ | ⟨_, hy⟩)
        exacts [hx, hafter y hy]
    · rintro ⟨after, o, before, hl, ho, hafter⟩
      cases after with
      | nil =>
        obtain ⟨rfl, -⟩ : x = o ∧ l = before := by simpa using hl
        exact .inl ho
      | cons y after =>
        obtain ⟨rfl, rfl⟩ : x = y ∧ l = after ++ o :: before := by simpa using hl
        exact .inr ⟨hafter x (by simp), after, o, before, rfl, ho,
          fun z hz => hafter z (by simp [hz])⟩

/-- An entry that neither sets nor resets. -/
theorem since_cons_of_neutral (hset : ¬set o) (hreset : ¬reset o) :
    Since set reset (o :: l) ↔ Since set reset l := by
  simp [since_cons, hset, hreset]

theorem since_append_of_neutral (h : ∀ x ∈ new, ¬set x ∧ ¬reset x) :
    Since set reset (new ++ l) ↔ Since set reset l := by
  induction new with
  | nil => rfl
  | cons x new ih =>
    obtain ⟨hset, hreset⟩ := h x (by simp)
    rw [List.cons_append, since_cons_of_neutral hset hreset, ih fun y hy => h y (by simp [hy])]

/-- Entries that do not set the flag. -/
theorem since_of_append (h : ∀ x ∈ new, ¬set x) (hs : Since set reset (new ++ l)) :
    Since set reset l := by
  induction new with
  | nil => exact hs
  | cons x new ih =>
    rcases hs with hx | ⟨-, hs⟩
    · exact absurd hx (h x (by simp))
    · exact ih (fun y hy => h y (by simp [hy])) hs

/-- The flag is set by an entry of a history none of whose entries resets it. -/
theorem since_append_of_mem (ho : o ∈ new) (hset : set o) (h : ∀ x ∈ new, ¬reset x) :
    Since set reset (new ++ l) := by
  obtain ⟨after, before, rfl⟩ := List.append_of_mem ho
  refine since_iff.mpr ⟨after, o, before ++ l, by simp, hset, fun x hx => h x (by simp [hx])⟩

/-- The flag only looks at the entries of the history. -/
theorem since_congr (h : ∀ o ∈ l, (set o ↔ set' o) ∧ (reset o ↔ reset' o)) :
    Since set reset l ↔ Since set' reset' l := by
  induction l with
  | nil => rfl
  | cons o l ih =>
    obtain ⟨hset, hreset⟩ := h o List.mem_cons_self
    rw [since_cons, since_cons, hset, hreset, ih fun x hx => h x (List.mem_cons_of_mem o hx)]

end History

end Asyncflow
