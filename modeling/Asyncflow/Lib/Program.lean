import Mathlib.Data.List.Basic
import Mathlib.Logic.Function.Basic

/-!
# Programs that change a state and may abort

A program `Asyncflow.Program ε σ α` reads and writes a state of the type `σ` and ends with a
value of the type `α` or with an exception of the type `ε`. The state is kept in both cases.

`Asyncflow.Program.Returns x s a t` states that the run of `x` from the state `s` returns `a`
in the state `t`, `Asyncflow.Program.Throws x s e t` that it throws `e` there. The file has one
rule for each construct, so that what a program returns is derived along its text: `pure`,
`>>=`, `get`, `modify`, an optional action, and the loop `List.forM`.
-/

namespace Asyncflow

/-- Programs with a state that may abort. -/
abbrev Program (ε σ α : Type) := ExceptT ε (StateM σ) α

namespace Program

variable {ε σ α β : Type} {x : Program ε σ α} {f : α → Program ε σ β} {s t u : σ} {a : α} {b : β}

/-- **The program returns**: from the state `s`, the value `a` in the state `t`. -/
def Returns (x : Program ε σ α) (s : σ) (a : α) (t : σ) : Prop := x.run.run s = (.ok a, t)

theorem returns_pure (a : α) (s : σ) : (pure a : Program ε σ α).Returns s a s := rfl

theorem returns_get (s : σ) : (get : Program ε σ σ).Returns s s s := rfl

theorem returns_modify (g : σ → σ) (s : σ) :
    (modify g : Program ε σ PUnit).Returns s ⟨⟩ (g s) := rfl

/-- What is run after a program that returns. -/
theorem Returns.run_bind (hx : x.Returns s a t) : (x >>= f).run.run s = (f a).run.run t := by
  rw [ExceptT.run_bind, StateT.run_bind, hx]
  rfl

/-- One program after the other. -/
theorem Returns.bind (hx : x.Returns s a t) (hf : (f a).Returns t b u) :
    (x >>= f).Returns s b u :=
  hx.run_bind.trans hf

/-- **The program throws**: from the state `s`, the exception `e` in the state `t`. -/
def Throws (x : Program ε σ α) (s : σ) (e : ε) (t : σ) : Prop := x.run.run s = (.error e, t)

theorem throws_throw (e : ε) (s : σ) : (throw e : Program ε σ α).Throws s e s := rfl

/-- What follows an exception is not run. -/
theorem Throws.bind {e : ε} (hx : x.Throws s e t) : (x >>= f).Throws s e t := by
  rw [Throws, ExceptT.run_bind, StateT.run_bind, hx]
  rfl

theorem Returns.bind_throws {e : ε} (hx : x.Returns s a t) (hf : (f a).Throws t e u) :
    (x >>= f).Throws s e u :=
  hx.run_bind.trans hf

/-- A program has one result. -/
theorem Returns.unique {a' : α} {t' : σ} (h : x.Returns s a t) (h' : x.Returns s a' t') :
    a = a' ∧ t = t' := by
  obtain ⟨ha, ht⟩ := Prod.mk.inj (h.symm.trans h')
  exact ⟨Except.ok.inj ha, ht⟩

/-- A program that is put together returns if its parts do. -/
theorem returns_bind_iff :
    (x >>= f).Returns s b u ↔ ∃ a t, x.Returns s a t ∧ (f a).Returns t b u := by
  constructor
  · intro h
    rw [Returns, ExceptT.run_bind, StateT.run_bind] at h
    rcases hx : x.run.run s with ⟨a | a, t⟩
    · rw [hx] at h
      cases h
    · rw [hx] at h
      exact ⟨a, t, hx, h⟩
  · rintro ⟨a, t, hx, hf⟩
    exact hx.bind hf

theorem returns_pure_iff {a' : α} : (pure a : Program ε σ α).Returns s a' t ↔ a = a' ∧ s = t := by
  constructor
  · intro h
    exact (returns_pure a s).unique h
  · rintro ⟨rfl, rfl⟩
    exact returns_pure a s

theorem returns_modify_iff {g : σ → σ} :
    (modify g : Program ε σ PUnit).Returns s ⟨⟩ t ↔ g s = t := by
  constructor
  · intro h
    exact ((returns_modify g s).unique h).2
  · rintro rfl
    exact returns_modify g s

theorem not_returns_throw {e : ε} : ¬(throw e : Program ε σ α).Returns s a t := by
  intro h
  cases h

/-- A program that throws does not return. -/
theorem Throws.not_returns {e : ε} (h : x.Throws s e t) : ¬x.Returns s a u := by
  intro hr
  cases (hr.symm.trans h)

/-- **The rule for loops.** The invariant speaks of the elements that are done. -/
theorem returns_forM {I : List β → σ → Prop} {g : β → Program ε σ PUnit} (bs : List β)
    (hs : I [] s) (hg : ∀ done b rest, bs = done ++ b :: rest → ∀ s, I done s →
      ∃ t, (g b).Returns s ⟨⟩ t ∧ I (done ++ [b]) t) :
    ∃ t, (bs.forM g).Returns s ⟨⟩ t ∧ I bs t := by
  have hloop : ∀ rest done s, bs = done ++ rest → I done s →
      ∃ t, (rest.forM g).Returns s ⟨⟩ t ∧ I bs t := by
    intro rest
    induction rest with
    | nil =>
      rintro done s rfl hi
      exact ⟨s, returns_pure _ s, by rwa [List.append_nil]⟩
    | cons b rest ih =>
      intro done s hbs hi
      obtain ⟨t, hb, ht⟩ := hg done b rest hbs s hi
      obtain ⟨u, hr, hu⟩ := ih (done ++ [b]) t (by rw [hbs, List.append_assoc]; rfl) ht
      exact ⟨u, hb.bind hr, hu⟩
  exact hloop bs [] s rfl hs

/-- The program throws the exception, or if there is none, returns in a state with `P`. -/
def Ends (x : Program ε σ α) (s : σ) (a : α) (P : σ → Prop) : Option ε → Prop
  | none => ∃ t, x.Returns s a t ∧ P t
  | some e => ∃ t, x.Throws s e t

/-- **The rule for loops that may end early**: with the first item that has something wrong. -/
theorem ends_forM {I : List β → σ → Prop} {w : β → Option ε} {g : β → Program ε σ PUnit}
    (bs : List β) (hs : I [] s) (hg : ∀ done b rest, bs = done ++ b :: rest → ∀ s, I done s →
      (g b).Ends s ⟨⟩ (I (done ++ [b])) (w b)) :
    (bs.forM g).Ends s ⟨⟩ (I bs) (bs.findSome? w) := by
  have hloop : ∀ rest done s, bs = done ++ rest → I done s →
      (rest.forM g).Ends s ⟨⟩ (I bs) (rest.findSome? w) := by
    intro rest
    induction rest with
    | nil =>
      rintro done s rfl hi
      exact ⟨s, returns_pure _ s, by rwa [List.append_nil]⟩
    | cons b rest ih =>
      intro done s hbs hi
      have hb := hg done b rest hbs s hi
      rw [List.findSome?_cons]
      cases hf : w b with
      | some e =>
        rw [hf] at hb
        obtain ⟨t, ht⟩ := hb
        exact ⟨t, ht.bind⟩
      | none =>
        rw [hf] at hb
        obtain ⟨t, ht, hi'⟩ := hb
        have hrest := ih (done ++ [b]) t (by rw [hbs, List.append_assoc]; rfl) hi'
        dsimp only
        generalize rest.findSome? w = o at hrest
        match o, hrest with
        | none, ⟨u, hu, hiu⟩ => exact ⟨u, ht.bind hu, hiu⟩
        | some e, ⟨u, hu⟩ => exact ⟨u, ht.bind_throws hu⟩
  exact hloop bs [] s rfl hs

/-- The program ends in the state: it throws the exception, or returns if there is none. -/
def Stops (x : Program ε σ α) (s : σ) (a : α) (t : σ) : Option ε → Prop
  | none => x.Returns s a t
  | some e => x.Throws s e t

/-- **The rule for loops that stop with an item.** An item that has nothing wrong is put into
the state, and one that has stops the loop and leaves the state. -/
theorem stops_forM {I : σ → Prop} {p : σ → β → σ} {w : β → Option ε} {g : β → Program ε σ PUnit}
    (bs : List β) (hs : I s) (hp : ∀ b s, I s → I (p s b))
    (hg : ∀ b s, I s → (g b).Stops s ⟨⟩ (if w b = none then p s b else s) (w b)) :
    (bs.forM g).Stops s ⟨⟩ ((bs.takeWhile fun b => (w b).isNone).foldl p s)
      (bs.findSome? w) := by
  induction bs generalizing s with
  | nil => exact returns_pure _ s
  | cons b bs ih =>
    have hb := hg b s hs
    rw [List.findSome?_cons]
    cases hf : w b with
    | some e =>
      rw [List.takeWhile_cons_of_neg (by rw [hf]; nofun)]
      rw [hf, if_neg nofun] at hb
      exact Throws.bind hb
    | none =>
      rw [List.takeWhile_cons_of_pos (by rw [hf]; rfl), List.foldl_cons]
      rw [hf, if_pos rfl] at hb
      have hrest := ih (hp b s hs)
      dsimp only
      generalize bs.findSome? w = o at hrest
      match o, hrest with
      | none, hrest => exact Returns.bind hb hrest
      | some e, hrest => exact Returns.bind_throws hb hrest

/-! ### What every run keeps -/

/-- The program keeps what holds of the state, however it ends. -/
def Keeps (x : Program ε σ α) (P : σ → Prop) : Prop := ∀ s, P s → P (x.run.run s).2

section Keeps

variable {P : σ → Prop}

theorem keeps_pure (a : α) : (pure a : Program ε σ α).Keeps P := fun _ h => h

theorem keeps_throw (e : ε) : (throw e : Program ε σ α).Keeps P := fun _ h => h

theorem keeps_get : (get : Program ε σ σ).Keeps P := fun _ h => h

theorem keeps_modify {g : σ → σ} (hg : ∀ s, P s → P (g s)) :
    (modify g : Program ε σ PUnit).Keeps P := hg

theorem Keeps.bind (hx : x.Keeps P) (hf : ∀ a, (f a).Keeps P) : (x >>= f).Keeps P := by
  intro s hs
  have ht := hx s hs
  rw [ExceptT.run_bind, StateT.run_bind]
  generalize x.run.run s = r at ht
  match r, ht with
  | (.ok a, t), ht => exact hf a t ht
  | (.error e, t), ht => exact ht

/-- The state that is read is one with the property. -/
theorem keeps_get_bind {f : σ → Program ε σ β} (hf : ∀ s, P s → (f s).Keeps P) :
    (get >>= f).Keeps P := fun s hs => hf s hs s hs

theorem keeps_forM {g : β → Program ε σ PUnit} (bs : List β) (hg : ∀ b, (g b).Keeps P) :
    (bs.forM g).Keeps P := by
  induction bs with
  | nil => exact keeps_pure _
  | cons b bs ih => exact (hg b).bind fun _ => ih

theorem keeps_option {g : α → Program ε σ PUnit} (o : Option α) (hg : ∀ a, (g a).Keeps P) :
    (o.forM g).Keeps P := by
  cases o with
  | none => exact keeps_pure _
  | some a => exact hg a

theorem Returns.of_keeps (h : x.Returns s a t) (hx : x.Keeps P) (hs : P s) : P t := by
  have ht := hx s hs
  rwa [h] at ht

end Keeps

/-- A value is read for every item. -/
theorem length_of_mapM {γ : Type} {read : β → Option γ} {bs : List β} {cs : List γ}
    (h : bs.mapM read = some cs) : cs.length = bs.length := by
  induction bs generalizing cs with
  | nil =>
    obtain rfl := Option.some.inj h
    rfl
  | cons b bs ih =>
    simp only [List.mapM_cons, Option.bind_eq_bind, Option.bind_eq_some_iff] at h
    obtain ⟨c, -, cs', hcs, h⟩ := h
    obtain rfl := Option.some.inj h
    rw [List.length_cons, List.length_cons, ih hcs]

/-- **Loops over items that are read.** If every item is read as a value which the body then
puts into the state, the loop reads all of them and puts them in one after the other. -/
theorem returns_forM_iff {γ : Type} {read : β → Option γ} {put : σ → γ → σ}
    {g : β → Program ε σ PUnit}
    (hg : ∀ b s t, (g b).Returns s ⟨⟩ t ↔ ∃ c, read b = some c ∧ put s c = t) (bs : List β) :
    (bs.forM g).Returns s ⟨⟩ t ↔ ∃ cs, bs.mapM read = some cs ∧ cs.foldl put s = t := by
  induction bs generalizing s with
  | nil =>
    change (pure ⟨⟩ : Program ε σ PUnit).Returns s ⟨⟩ t ↔ _
    rw [returns_pure_iff]
    constructor
    · rintro ⟨-, rfl⟩
      exact ⟨[], rfl, rfl⟩
    · rintro ⟨cs, hcs, rfl⟩
      obtain rfl := Option.some.inj hcs
      exact ⟨rfl, rfl⟩
  | cons b bs ih =>
    change (g b >>= fun _ => bs.forM g).Returns s ⟨⟩ t ↔ _
    rw [returns_bind_iff]
    simp only [hg, ih, List.mapM_cons, Option.bind_eq_bind, Option.bind_eq_some_iff]
    constructor
    · rintro ⟨-, u, ⟨c, hc, rfl⟩, cs, hcs, rfl⟩
      exact ⟨c :: cs, ⟨c, hc, cs, hcs, rfl⟩, rfl⟩
    · rintro ⟨-, ⟨c, hc, cs, hcs, ⟨⟩⟩, rfl⟩
      exact ⟨⟨⟩, _, ⟨c, hc, rfl⟩, cs, hcs, rfl⟩

end Program

end Asyncflow
