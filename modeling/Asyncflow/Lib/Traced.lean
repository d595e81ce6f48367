import Mathlib.Logic.Relation
import Mathlib.Data.List.Basic

/-!
# Operations made of recorded moves

A large operation on a state is easier to reason about when it is known to be a
sequence of small *moves* from a fixed list. This file is about systems whose
moves record what they do in a history, newest entry first, and in which some
moves are *silent* about the object they change. A silent move is only allowed on
the objects of a set `D`; the point of `Asyncflow.Traced.Does` is that an
operation may make silent moves exactly on the objects its own entries mention.

* `Asyncflow.Traced.Does.trans` composes operations;
* `Asyncflow.Traced.Does.absorb` says that an entry about an object makes the
  silent moves on it legitimate, wherever it stands in the operation;
* `Asyncflow.Traced.Does.invariant` is the invariant rule, `Asyncflow.Traced.Does.calm`
  the one for operations that record nothing *bad*, and `Asyncflow.Traced.Does.frame`
  the frame rule, about an object that nothing is recorded about.
-/

namespace Asyncflow

/-- A system of moves on `σ` with a history of entries `ω` about objects `ι`. -/
structure Traced (σ ω ι : Type) where
  /-- The history of a state, newest entry first. -/
  log : σ → List ω
  /-- The objects an entry is about. -/
  about : ω → ι → Prop
  /-- A move, silent only about the given objects. -/
  move : (ι → Prop) → σ → σ → Prop
  /-- More permission allows more. -/
  mono : ∀ {D D' : ι → Prop} {s t : σ}, (∀ i, D i → D' i) → move D s t → move D' s t
  /-- A move only adds entries. -/
  grows : ∀ {D : ι → Prop} {s t : σ}, move D s t → ∃ new, log t = new ++ log s

namespace Traced

variable {σ ω ι : Type} (M : Traced σ ω ι)

/-- The objects of `D` and those the entries are about. -/
def stirred (D : ι → Prop) (new : List ω) (i : ι) : Prop := D i ∨ ∃ o ∈ new, M.about o i

/-- **An operation**: a sequence of moves, silent only about the objects of `D`
and those its own entries are about. -/
def Does (D : ι → Prop) (s t : σ) : Prop :=
  ∃ new, M.log t = new ++ M.log s ∧ Relation.ReflTransGen (M.move (M.stirred D new)) s t

/-- None of the entries added between two states is bad. -/
def Calm (bad : ω → Prop) (s t : σ) : Prop :=
  ∀ new, M.log t = new ++ M.log s → ∀ o ∈ new, ¬bad o

variable {M} {D D' : ι → Prop} {s t u : σ} {new : List ω} {i : ι} {bad : ω → Prop}

theorem moves_mono (hD : ∀ i, D i → D' i) (h : Relation.ReflTransGen (M.move D) s t) :
    Relation.ReflTransGen (M.move D') s t :=
  Relation.ReflTransGen.mono (fun _ _ => M.mono hD) _ _ h

/-- A sequence of moves only adds entries. -/
theorem moves_grow (h : Relation.ReflTransGen (M.move D) s t) :
    ∃ new, M.log t = new ++ M.log s := by
  induction h with
  | refl => exact ⟨[], rfl⟩
  | tail _ hm ih =>
    obtain ⟨a, ha⟩ := ih
    obtain ⟨b, hb⟩ := M.grows hm
    exact ⟨b ++ a, by rw [hb, ha, List.append_assoc]⟩

/-- What every calm move of a sequence keeps, a calm sequence keeps. -/
theorem moves_calm {P : σ → Prop} (hP : ∀ {u v}, M.move D u v → M.Calm bad u v → P u → P v)
    (h : Relation.ReflTransGen (M.move D) s t) (hc : M.Calm bad s t) (h0 : P s) : P t := by
  -- The entries of the first part of the sequence are among those of the whole.
  suffices h' : ∀ u, Relation.ReflTransGen (M.move D) s u →
      Relation.ReflTransGen (M.move D) u t → P u from h' t h .refl
  intro u hsu
  induction hsu with
  | refl => exact fun _ => h0
  | @tail v w hv hm ih =>
    intro hw
    refine hP hm ?_ (ih (.head hm hw))
    obtain ⟨a, ha⟩ := moves_grow hv
    obtain ⟨b, hb⟩ := M.grows hm
    obtain ⟨c, hcw⟩ := moves_grow hw
    intro b' hb' o ho
    obtain rfl : b' = b := List.append_cancel_right (hb'.symm.trans hb)
    refine hc (c ++ (b' ++ a)) ?_ o ?_
    · rw [hcw, hb, ha]
      simp only [List.append_assoc]
    · exact List.mem_append_right _ (List.mem_append_left _ ho)

theorem calm_of_log (h : M.log t = new ++ M.log s) (hc : ∀ o ∈ new, ¬bad o) : M.Calm bad s t := by
  intro new' h' o ho
  obtain rfl : new' = new := List.append_cancel_right (h'.symm.trans h)
  exact hc o ho

namespace Does

theorem refl (s : σ) : M.Does D s s := ⟨[], rfl, .refl⟩

theorem grows (h : M.Does D s t) : ∃ new, M.log t = new ++ M.log s :=
  h.imp fun _ hnew => hnew.1

/-- A single move, with the entries it adds. -/
theorem single (hlog : M.log t = new ++ M.log s) (hm : M.move (M.stirred D new) s t) :
    M.Does D s t := ⟨new, hlog, .single hm⟩

/-- A single move that needs no permission for the objects of its entries. -/
theorem of_move (hm : M.move D s t) : M.Does D s t := by
  obtain ⟨new, hnew⟩ := M.grows hm
  exact single hnew (M.mono (fun _ hi => .inl hi) hm)

theorem mono (hD : ∀ i, D i → D' i) (h : M.Does D s t) : M.Does D' s t := by
  obtain ⟨new, hlog, hms⟩ := h
  exact ⟨new, hlog, moves_mono (fun i hi => hi.imp_left (hD i)) hms⟩

theorem trans (h : M.Does D s t) (h' : M.Does D t u) : M.Does D s u := by
  obtain ⟨new, hlog, hms⟩ := h
  obtain ⟨new', hlog', hms'⟩ := h'
  refine ⟨new' ++ new, by rw [hlog', hlog, List.append_assoc], ?_⟩
  refine .trans (moves_mono (fun i hi => ?_) hms) (moves_mono (fun i hi => ?_) hms')
  · exact hi.imp_right fun ⟨o, ho, hi⟩ => ⟨o, List.mem_append_right _ ho, hi⟩
  · exact hi.imp_right fun ⟨o, ho, hi⟩ => ⟨o, List.mem_append_left _ ho, hi⟩

/-- **Absorption**: an entry about an object, anywhere in an operation, allows it
to be silent about the object. -/
theorem absorb (h : M.Does (fun j => j = i ∨ D j) s t) (new : List ω)
    (hlog : M.log t = new ++ M.log s) (hi : ∃ o ∈ new, M.about o i) : M.Does D s t := by
  obtain ⟨new', hlog', hms⟩ := h
  obtain rfl : new' = new := List.append_cancel_right (hlog'.symm.trans hlog)
  refine ⟨new', hlog, moves_mono ?_ hms⟩
  rintro j ((rfl | hj) | hj)
  exacts [.inr hi, .inl hj, .inr hj]

/-- Absorption of an entry made by the first move. -/
theorem absorb_head {o : ω} (hlog : M.log t = o :: M.log s) (hi : M.about o i)
    (hm : M.move D s t) (h : M.Does (fun j => j = i ∨ D j) t u) : M.Does D s u := by
  obtain ⟨new, hnew⟩ := h.grows
  refine absorb (((of_move hm).mono fun _ => .inr).trans h) (new ++ [o]) ?_
    ⟨o, by simp, hi⟩
  rw [hnew, hlog, List.append_assoc, List.singleton_append]

/-- Absorption of an entry made by the last move. -/
theorem absorb_tail {o : ω} (h : M.Does (fun j => j = i ∨ D j) s t)
    (hlog : M.log u = o :: M.log t) (hi : M.about o i) (hm : M.move D t u) : M.Does D s u := by
  obtain ⟨new, hnew⟩ := h.grows
  refine absorb (h.trans ((of_move hm).mono fun _ => .inr)) (o :: new) ?_
    ⟨o, by simp, hi⟩
  rw [hlog, hnew, List.cons_append]

/-- A loop does what its rounds do. -/
theorem foldl {β : Type} {f : σ → β → σ} (hf : ∀ s b, M.Does D s (f s b)) (s : σ) (l : List β) :
    M.Does D s (l.foldl f s) := by
  induction l generalizing s with
  | nil => exact refl s
  | cons b l ih => exact (hf s b).trans (ih (f s b))

/-- **The invariant rule.** -/
theorem invariant {I : σ → Prop} (h : M.Does D s t)
    (hI : ∀ {D u v}, M.move D u v → I u → I v) (h0 : I s) : I t := by
  obtain ⟨new, -, hms⟩ := h
  induction hms with
  | refl => exact h0
  | tail _ hm ih => exact hI hm ih

/-- **The rule of calm**: an operation that records nothing bad keeps what every move
keeps that records nothing bad. -/
theorem calm {P : σ → Prop} (h : M.Does D s t)
    (hP : ∀ {D u v}, M.move D u v → M.Calm bad u v → P u → P v) (hc : M.Calm bad s t)
    (h0 : P s) : P t := by
  obtain ⟨new, -, hms⟩ := h
  exact moves_calm hP hms hc h0

/-- **The frame rule**: if moreover every entry about an object is bad, the moves need
not be silent about the object. -/
theorem frame {P : σ → Prop} (h : M.Does D s t) (hD : ¬D i) (hi : ∀ o, M.about o i → bad o)
    (hP : ∀ {D u v}, M.move D u v → ¬D i → M.Calm bad u v → P u → P v)
    (hc : M.Calm bad s t) (h0 : P s) : P t := by
  obtain ⟨new, hlog, hms⟩ := h
  have hst : ¬M.stirred D new i := by
    rintro (h | ⟨o, ho, hoi⟩)
    exacts [hD h, hc new hlog o ho (hi o hoi)]
  exact moves_calm (fun hm => hP hm hst) hms hc h0

end Does

end Traced

end Asyncflow
