import Mathlib.Data.List.Nodup
import Mathlib.Data.Set.Insert
import Mathlib.Logic.Function.Basic
import Mathlib.Logic.Relation

/-!
# Objects that own objects

An object has slots, and a slot may hold another object, which then goes with it. An object
may also be listed in a register. Destroying an object destroys what its slots hold, slot by
slot, and then takes the object out of its register and out of the slot that holds it.

`Asyncflow.Ownership.Proper` is the invariant that makes this safe: what a slot holds is
exactly what has the slot as its owner, what is listed in a register is exactly what has it as
its register, and the objects are ranked, so that no object owns itself.

Under the invariant, destroying an object takes away the objects below it and nothing else
(`Asyncflow.Ownership.prunes_destroy`), each of them once. `Asyncflow.Ownership.Swept` is
what a sequence of such destructions leaves, in whichever order the roots are taken and
however many of them are gone when it is their turn.
-/

namespace Asyncflow

/-- An object, with what the slots and the registers have to agree with. -/
structure Ownership.Object (ν ι χ : Type) where
  /-- The slots of the object. -/
  slots : List ν
  /-- The slot that holds it. -/
  owner : Option ν
  /-- The register it is listed in. -/
  register : Option ι
  /-- Its name. -/
  name : χ

/-- Objects with slots and registers. -/
structure Ownership (κ ν ι χ : Type) where
  /-- The objects that are there. -/
  objects : κ → Option (Ownership.Object ν ι χ)
  /-- What the slots hold. -/
  held : ν → Option κ
  /-- The registers. -/
  lists : ι → List κ
  /-- The objects destroyed so far, the last one first. -/
  gone : List κ

namespace Ownership

variable {κ ν ι χ : Type}

/-- A slot of the first object holds the second one. -/
def Holds (f : Ownership κ ν ι χ) (c d : κ) : Prop :=
  ∃ x n, f.objects c = some x ∧ n ∈ x.slots ∧ f.held n = some d

/-- The second object is the first one, or further down. -/
def Below (f : Ownership κ ν ι χ) : κ → κ → Prop := Relation.ReflTransGen f.Holds

/-- **The invariant of ownership.** A slot belongs to the object that `home` says, and objects
have smaller ranks than what they hold. -/
structure Proper (home : ν → κ) (rank : κ → ℕ) (bound : ℕ) (f : Ownership κ ν ι χ) : Prop where
  slots : ∀ c x n, f.objects c = some x → n ∈ x.slots → home n = c
  held : ∀ n c, f.held n = some c ↔ ∃ x, f.objects c = some x ∧ x.owner = some n
  owner : ∀ c x n, f.objects c = some x → x.owner = some n →
    ∃ y, f.objects (home n) = some y ∧ n ∈ y.slots ∧ rank (home n) < rank c
  bound : ∀ c, (f.objects c).isSome → rank c < bound
  listed : ∀ c i, c ∈ f.lists i ↔ ∃ x, f.objects c = some x ∧ x.register = some i
  nodup : ∀ i, (f.lists i).Nodup
  /-- Two objects of a register differ in the name or in the owner. -/
  unique : ∀ c d x y i, f.objects c = some x → f.objects d = some y → x.register = some i →
    y.register = some i → x.owner = y.owner → x.name = y.name → c = d

/-- **The objects of `S` are gone**, from the slots and the registers too, each was destroyed
once, and the rest is as it was. -/
structure Prunes (S : Set κ) (f g : Ownership κ ν ι χ) : Prop where
  dead : ∀ c ∈ S, g.objects c = none
  kept : ∀ c ∉ S, g.objects c = f.objects c
  held : ∀ n c, g.held n = some c ↔ f.held n = some c ∧ c ∉ S
  sublist : ∀ i, (g.lists i).Sublist (f.lists i)
  mem : ∀ i c, c ∈ g.lists i ↔ c ∈ f.lists i ∧ c ∉ S
  gone : ∃ new, g.gone = new ++ f.gone ∧ new.Nodup ∧ ∀ c, c ∈ new ↔ c ∈ S

variable {f g k : Ownership κ ν ι χ} {home : ν → κ} {rank : κ → ℕ} {bound fuel : ℕ} {c d : κ}
  {n : ν} {x : Object ν ι χ} {S T A : Set κ}

/-! ### What is below an object -/

theorem Proper.alive (hf : f.Proper home rank bound) (hn : f.held n = some c) :
    (f.objects c).isSome := by
  obtain ⟨x, hx, -⟩ := (hf.held n c).mp hn
  rw [hx]
  rfl

theorem Proper.alive_of_below (hf : f.Proper home rank bound) (hc : (f.objects c).isSome)
    (hb : f.Below c d) : (f.objects d).isSome := by
  induction hb with
  | refl => exact hc
  | tail _ hd _ =>
    obtain ⟨-, n, -, -, hn⟩ := hd
    exact hf.alive hn

/-- An object has a smaller rank than what it holds. -/
theorem Proper.rank_lt (hf : f.Proper home rank bound) (hd : f.Holds c d) : rank c < rank d := by
  obtain ⟨x, n, hx, hn, hheld⟩ := hd
  obtain ⟨y, hy, hyn⟩ := (hf.held n d).mp hheld
  obtain ⟨-, -, -, hlt⟩ := hf.owner d y n hy hyn
  rwa [hf.slots c x n hx hn] at hlt

theorem Proper.rank_le (hf : f.Proper home rank bound) (hb : f.Below c d) : rank c ≤ rank d := by
  induction hb with
  | refl => exact Nat.le_refl _
  | tail _ hd ih => exact Nat.le_trans ih (Nat.le_of_lt (hf.rank_lt hd))

theorem Proper.mono {bound' : ℕ} (hf : f.Proper home rank bound) (hle : bound ≤ bound') :
    f.Proper home rank bound' :=
  { hf with bound := fun c hc => Nat.lt_of_lt_of_le (hf.bound c hc) hle }

/-! ### What is left of the invariant -/

/-- What is held by an object of the set is in the set. -/
def Closed (f : Ownership κ ν ι χ) (S : Set κ) : Prop := ∀ c d, f.Holds c d → c ∈ S → d ∈ S

theorem Closed.below (hS : f.Closed S) (hb : f.Below c d) (hc : c ∈ S) : d ∈ S := by
  induction hb with
  | refl => exact hc
  | tail _ hd ih => exact hS _ _ hd ih

namespace Prunes

theorem refl (f : Ownership κ ν ι χ) : Prunes ∅ f f where
  dead _ hc := hc.elim
  kept _ _ := rfl
  held _ _ := by simp
  sublist _ := .refl _
  mem _ _ := by simp
  gone := ⟨[], rfl, List.nodup_nil, by simp⟩

theorem trans (hp : Prunes S f g) (hp' : Prunes T g k) (hd : ∀ c ∈ T, c ∉ S) :
    Prunes (S ∪ T) f k where
  dead c hc := by
    by_cases hT : c ∈ T
    · exact hp'.dead c hT
    · rw [hp'.kept c hT]
      exact hp.dead c (hc.resolve_right hT)
  kept c hc := by
    rw [hp'.kept c fun hT => hc (.inr hT), hp.kept c fun hS => hc (.inl hS)]
  held n c := by
    rw [hp'.held, hp.held, and_assoc, Set.mem_union, not_or]
  sublist i := (hp'.sublist i).trans (hp.sublist i)
  mem i c := by
    rw [hp'.mem, hp.mem, and_assoc, Set.mem_union, not_or]
  gone := by
    obtain ⟨new, hnew, hnd, hmem⟩ := hp.gone
    obtain ⟨new', hnew', hnd', hmem'⟩ := hp'.gone
    refine ⟨new' ++ new, by rw [hnew', hnew, List.append_assoc], ?_, fun c => ?_⟩
    · refine List.nodup_append'.mpr ⟨hnd', hnd, fun c hc hc' => ?_⟩
      exact hd c ((hmem' c).mp hc) ((hmem c).mp hc')
    · rw [List.mem_append, hmem', hmem, or_comm, Set.mem_union]

theorem alive (hp : Prunes S f g) (hx : g.objects c = some x) :
    f.objects c = some x ∧ c ∉ S := by
  have hc : c ∉ S := by
    intro hS
    rw [hp.dead c hS] at hx
    cases hx
  exact ⟨(hp.kept c hc).symm.trans hx, hc⟩

theorem objects_iff (hp : Prunes S f g) (c : κ) (x : Object ν ι χ) :
    g.objects c = some x ↔ f.objects c = some x ∧ c ∉ S :=
  ⟨hp.alive, fun hx => (hp.kept c hx.2).trans hx.1⟩

/-- What is below an object afterwards was below it before. -/
theorem below_of_below (hp : Prunes S f g) (hb : g.Below c d) : f.Below c d := by
  refine hb.lift id fun a b hab => ?_
  obtain ⟨x, n, hx, hn, hheld⟩ := hab
  exact ⟨x, n, (hp.alive hx).1, hn, ((hp.held n b).mp hheld).1⟩

/-- What was below an object is gone, or still below it. -/
theorem below (hp : Prunes S f g) (hS : f.Closed S) (hb : f.Below c d) :
    d ∈ S ∨ g.Below c d := by
  induction hb with
  | refl => exact .inr .refl
  | @tail a b _ hab ih =>
    by_cases hb : b ∈ S
    · exact .inl hb
    · have ha : a ∉ S := fun ha => hb (hS a b hab ha)
      obtain ⟨x, n, hx, hn, hheld⟩ := hab
      refine .inr ((ih.resolve_left ha).tail ⟨x, n, ?_, hn, ?_⟩)
      · rw [hp.kept a ha, hx]
      · exact (hp.held n b).mpr ⟨hheld, hb⟩

end Prunes

/-- **The invariant survives** when nothing is left behind that is owned by what is gone. -/
theorem Proper.prunes (hf : f.Proper home rank bound) (hp : Prunes S f g) (hS : f.Closed S) :
    g.Proper home rank bound where
  slots c x n hx hn := hf.slots c x n (hp.alive hx).1 hn
  held n c := by
    rw [hp.held, hf.held]
    constructor
    · rintro ⟨⟨x, hx, ho⟩, hc⟩
      exact ⟨x, (hp.objects_iff c x).mpr ⟨hx, hc⟩, ho⟩
    · rintro ⟨x, hx, ho⟩
      exact ⟨⟨x, (hp.alive hx).1, ho⟩, (hp.alive hx).2⟩
  owner c x n hx ho := by
    obtain ⟨hx', hc⟩ := hp.alive hx
    obtain ⟨y, hy, hn, hlt⟩ := hf.owner c x n hx' ho
    refine ⟨y, (hp.objects_iff _ y).mpr ⟨hy, fun hh => hc (hS _ c ⟨y, n, hy, hn, ?_⟩ hh)⟩, hn, hlt⟩
    exact (hf.held n c).mpr ⟨x, hx', ho⟩
  bound c hc := by
    obtain ⟨x, hx⟩ := Option.isSome_iff_exists.mp hc
    exact hf.bound c (by rw [(hp.alive hx).1]; rfl)
  listed c i := by
    rw [hp.mem, hf.listed]
    constructor
    · rintro ⟨⟨x, hx, hi⟩, hc⟩
      exact ⟨x, (hp.objects_iff c x).mpr ⟨hx, hc⟩, hi⟩
    · rintro ⟨x, hx, hi⟩
      exact ⟨⟨x, (hp.alive hx).1, hi⟩, (hp.alive hx).2⟩
  nodup i := (hf.nodup i).sublist (hp.sublist i)
  unique c d x y i hx hy := hf.unique c d x y i (hp.alive hx).1 (hp.alive hy).1

/-- **What is left when everything below the objects of `A` is gone.** -/
def Swept (f : Ownership κ ν ι χ) (A : Set κ) (g : Ownership κ ν ι χ) : Prop :=
  Prunes {e | ∃ c ∈ A, f.Below c e} f g

theorem closed_below (f : Ownership κ ν ι χ) (A : Set κ) :
    f.Closed {e | ∃ c ∈ A, f.Below c e} := by
  rintro a b hab ⟨c, hc, hca⟩
  exact ⟨c, hc, hca.tail hab⟩

namespace Swept

theorem refl (f : Ownership κ ν ι χ) : f.Swept ∅ f := by
  have hS : {e | ∃ c ∈ (∅ : Set κ), f.Below c e} = ∅ := by simp
  rw [Swept, hS]
  exact .refl f

theorem proper (hs : f.Swept A g) (hf : f.Proper home rank bound) : g.Proper home rank bound :=
  hf.prunes hs (closed_below f A)

/-- A root whose turn it is after it is gone makes no difference. -/
theorem skip (hs : f.Swept A g) (hc : (f.objects c).isSome) (hg : g.objects c = none) :
    f.Swept (insert c A) g := by
  have hmem : ∃ a ∈ A, f.Below a c := by
    by_contra hno
    rw [← hs.kept c hno, hg] at hc
    cases hc
  have hS : {e | ∃ a ∈ insert c A, f.Below a e} = {e | ∃ a ∈ A, f.Below a e} := by
    ext e
    constructor
    · rintro ⟨a, rfl | ha, hb⟩
      · exact (closed_below f A).below hb hmem
      · exact ⟨a, ha, hb⟩
    · rintro ⟨a, ha, hb⟩
      exact ⟨a, .inr ha, hb⟩
  rw [Swept, hS]
  exact hs

/-- **One more root goes**, with what is left below it. -/
theorem insert (hs : f.Swept A g) (hf : f.Proper home rank bound) (hc : (g.objects c).isSome)
    (hp : Prunes {e | g.Below c e} g k) : f.Swept (insert c A) k := by
  have hg := hs.proper hf
  have hd : ∀ e ∈ {e | g.Below c e}, e ∉ {e | ∃ a ∈ A, f.Below a e} := by
    intro e he hmem
    obtain ⟨x, hx⟩ := Option.isSome_iff_exists.mp (hg.alive_of_below hc he)
    exact (hs.alive hx).2 hmem
  have hS : {e | ∃ a ∈ Insert.insert c A, f.Below a e} =
      {e | ∃ a ∈ A, f.Below a e} ∪ {e | g.Below c e} := by
    ext e
    constructor
    · rintro ⟨a, rfl | ha, hb⟩
      · exact hs.below (closed_below f A) hb
      · exact .inl ⟨a, ha, hb⟩
    · rintro (⟨a, ha, hb⟩ | hb)
      · exact ⟨a, .inr ha, hb⟩
      · exact ⟨c, .inl rfl, hs.below_of_below hb⟩
  rw [Swept, hS]
  exact hs.trans hp hd

end Swept

/-! ### The operations -/

variable [DecidableEq κ] [DecidableEq ν] [DecidableEq ι]

/-- The slots of an object. -/
def slotsOf (f : Ownership κ ν ι χ) (c : κ) : List ν := ((f.objects c).map (·.slots)).getD []

/-- A slot holds nothing from now on. -/
def clear (f : Ownership κ ν ι χ) (n : ν) : Ownership κ ν ι χ :=
  { f with held := Function.update f.held n none }

/-- A new object, in its slot and in its register. -/
def add (f : Ownership κ ν ι χ) (c : κ) (x : Object ν ι χ) : Ownership κ ν ι χ where
  objects := Function.update f.objects c (some x)
  held := match x.owner with
    | some n => Function.update f.held n (some c)
    | none => f.held
  lists := match x.register with
    | some i => Function.update f.lists i (f.lists i ++ [c])
    | none => f.lists
  gone := f.gone

/-- The end of the destruction of an object. -/
def drop (f : Ownership κ ν ι χ) (c : κ) : Ownership κ ν ι χ where
  objects := Function.update f.objects c none
  held := match (f.objects c).bind (·.owner) with
    | some n => Function.update f.held n none
    | none => f.held
  lists := match (f.objects c).bind (·.register) with
    | some i => Function.update f.lists i ((f.lists i).filter (· ≠ c))
    | none => f.lists
  gone := c :: f.gone

/-- **The destruction of an object**, as far down as there is fuel. -/
def destroy : ℕ → Ownership κ ν ι χ → κ → Ownership κ ν ι χ
  | 0, f, _ => f
  | fuel + 1, f, c =>
    ((f.slotsOf c).foldl (fun f n =>
      (match f.held n with
        | some d => destroy fuel f d
        | none => f).clear n) f).drop c

omit [DecidableEq κ] [DecidableEq ι] in
theorem clear_of_free (hn : f.held n = none) : f.clear n = f := by
  unfold clear
  rw [← hn, Function.update_eq_self]

/-- The destruction of what a slot holds. -/
def lose (fuel : ℕ) (f : Ownership κ ν ι χ) (n : ν) : Ownership κ ν ι χ :=
  (match f.held n with
    | some d => destroy fuel f d
    | none => f).clear n

theorem destroy_succ (fuel : ℕ) (f : Ownership κ ν ι χ) (c : κ) :
    destroy (fuel + 1) f c = ((f.slotsOf c).foldl (lose fuel) f).drop c := rfl

/-! ### New objects -/

/-- **A new object** keeps the invariant: its slot is free and on an object that is there, and
its register has no other object of the name and the owner. -/
theorem Proper.add (hf : f.Proper home rank bound) {bound' : ℕ} (hle : bound ≤ bound')
    (hc : f.objects c = none) (hslots : ∀ n ∈ x.slots, home n = c)
    (hrank : rank c < bound')
    (hown : ∀ n, x.owner = some n → f.held n = none ∧
      ∃ y, f.objects (home n) = some y ∧ n ∈ y.slots ∧ rank (home n) < rank c)
    (huniq : ∀ d y i, f.objects d = some y → x.register = some i → y.register = some i →
      x.owner = y.owner → x.name ≠ y.name) : (f.add c x).Proper home rank bound' := by
  have hobj : ∀ d y, (f.add c x).objects d = some y ↔
      d = c ∧ x = y ∨ d ≠ c ∧ f.objects d = some y := by
    intro d y
    rcases eq_or_ne d c with rfl | hd
    · simp [Ownership.add]
    · simp [Ownership.add, hd]
  have hother : ∀ d y, f.objects d = some y → d ≠ c := by
    rintro d y hy rfl
    rw [hc] at hy
    cases hy
  have hold : ∀ d y, f.objects d = some y → (f.add c x).objects d = some y :=
    fun d y hy => (hobj d y).mpr (.inr ⟨hother d y hy, hy⟩)
  have hnew : (f.add c x).objects c = some x := (hobj c x).mpr (.inl ⟨rfl, rfl⟩)
  constructor
  · intro d y n hy hn
    rcases (hobj d y).mp hy with ⟨rfl, rfl⟩ | ⟨-, hy⟩
    · exact hslots n hn
    · exact hf.slots d y n hy hn
  · intro n d
    have hheld : (f.add c x).held n = if x.owner = some n then some c else f.held n := by
      unfold Ownership.add
      dsimp only
      cases x.owner with
      | none => rfl
      | some m => simp only [Function.update_apply, Option.some.injEq, eq_comm]
    rw [hheld]
    split
    · rename_i hn
      constructor
      · rintro ⟨⟩
        exact ⟨x, hnew, hn⟩
      · rintro ⟨y, hy, hyn⟩
        rcases (hobj d y).mp hy with ⟨rfl, -⟩ | ⟨-, hy⟩
        · rfl
        · have hfree := (hown n hn).1
          rw [(hf.held n d).mpr ⟨y, hy, hyn⟩] at hfree
          cases hfree
    · rename_i hn
      rw [hf.held]
      constructor
      · rintro ⟨y, hy, hyn⟩
        exact ⟨y, hold d y hy, hyn⟩
      · rintro ⟨y, hy, hyn⟩
        rcases (hobj d y).mp hy with ⟨-, rfl⟩ | ⟨-, hy⟩
        · exact absurd hyn hn
        · exact ⟨y, hy, hyn⟩
  · intro d y n hy hyn
    rcases (hobj d y).mp hy with ⟨rfl, rfl⟩ | ⟨-, hy⟩
    · obtain ⟨-, z, hz, hn, hlt⟩ := hown n hyn
      exact ⟨z, hold _ z hz, hn, hlt⟩
    · obtain ⟨z, hz, hn, hlt⟩ := hf.owner d y n hy hyn
      exact ⟨z, hold _ z hz, hn, hlt⟩
  · intro d hd
    obtain ⟨y, hy⟩ := Option.isSome_iff_exists.mp hd
    rcases (hobj d y).mp hy with ⟨rfl, -⟩ | ⟨-, hy⟩
    · exact hrank
    · exact Nat.lt_of_lt_of_le (hf.bound d (by rw [hy]; rfl)) hle
  · intro d i
    have hlist : d ∈ (f.add c x).lists i ↔ d ∈ f.lists i ∨ x.register = some i ∧ d = c := by
      unfold Ownership.add
      dsimp only
      cases x.register with
      | none => simp
      | some j =>
        rcases eq_or_ne i j with rfl | hij
        · simp
        · simp [Function.update_of_ne hij, hij.symm]
    rw [hlist, hf.listed]
    constructor
    · rintro (⟨y, hy, hyi⟩ | ⟨hi, rfl⟩)
      · exact ⟨y, hold d y hy, hyi⟩
      · exact ⟨x, hnew, hi⟩
    · rintro ⟨y, hy, hyi⟩
      rcases (hobj d y).mp hy with ⟨rfl, rfl⟩ | ⟨-, hy⟩
      · exact .inr ⟨hyi, rfl⟩
      · exact .inl ⟨y, hy, hyi⟩
  · intro i
    have hnot : c ∉ f.lists i := by
      intro hmem
      obtain ⟨y, hy, -⟩ := (hf.listed c i).mp hmem
      exact hother c y hy rfl
    unfold Ownership.add
    dsimp only
    cases x.register with
    | none => exact hf.nodup i
    | some j =>
      dsimp only
      rcases eq_or_ne i j with rfl | hij
      · rw [Function.update_self]
        exact List.nodup_append'.mpr ⟨hf.nodup i, List.nodup_singleton c, by simpa using hnot⟩
      · rw [Function.update_of_ne hij]
        exact hf.nodup i
  · intro d e y z i hy hz hyi hzi howner hname
    rcases (hobj d y).mp hy with ⟨rfl, rfl⟩ | ⟨-, hy'⟩
    · rcases (hobj e z).mp hz with ⟨rfl, -⟩ | ⟨-, hz'⟩
      · rfl
      · exact absurd hname (huniq e z i hz' hyi hzi howner)
    · rcases (hobj e z).mp hz with ⟨rfl, rfl⟩ | ⟨-, hz'⟩
      · exact absurd hname.symm (huniq d y i hy' hzi hyi howner.symm)
      · exact hf.unique d e y z i hy' hz' hyi hzi howner hname

/-! ### Destroying objects -/

/-- The end of a destruction takes the object alone. -/
theorem prunes_drop (hf : f.Proper home rank bound) (hx : f.objects c = some x) :
    Prunes {c} f (f.drop c) where
  dead d hd := by
    obtain rfl : d = c := hd
    exact Function.update_self ..
  kept d hd := Function.update_of_ne hd ..
  held n d := by
    have hiff : ∀ m, f.held m = some c ↔ x.owner = some m := by
      intro m
      rw [hf.held, hx]
      simp
    unfold drop
    dsimp only
    rw [hx, Option.bind_some, Set.mem_singleton_iff]
    cases ho : x.owner with
    | none =>
      refine ⟨fun hn => ⟨hn, ?_⟩, And.left⟩
      rintro rfl
      rw [hiff, ho] at hn
      cases hn
    | some o =>
      rcases eq_or_ne n o with rfl | hno
      · have hheld := (hiff n).mpr ho
        simp [hheld, eq_comm]
      · dsimp only
        rw [Function.update_of_ne hno]
        refine ⟨fun hn => ⟨hn, ?_⟩, And.left⟩
        rintro rfl
        rw [hiff, ho] at hn
        exact hno (Option.some.inj hn).symm
  sublist i := by
    unfold drop
    dsimp only
    cases (f.objects c).bind (·.register) with
    | none => exact .refl _
    | some j =>
      dsimp only
      rcases eq_or_ne i j with rfl | hij
      · rw [Function.update_self]
        exact List.filter_sublist
      · rw [Function.update_of_ne hij]
  mem i d := by
    have hmem : c ∈ f.lists i ↔ x.register = some i := by
      rw [hf.listed, hx]
      simp
    -- Elsewhere the object is not listed.
    have hother : x.register ≠ some i → (d ∈ f.lists i ↔ d ∈ f.lists i ∧ d ∉ ({c} : Set κ)) := by
      refine fun hi => ⟨fun hd => ⟨hd, ?_⟩, And.left⟩
      rintro rfl
      exact hi (hmem.mp hd)
    unfold drop
    dsimp only
    rw [hx, Option.bind_some]
    cases hr : x.register with
    | none => exact hother (by simp [hr])
    | some j =>
      rcases eq_or_ne i j with rfl | hij
      · simp
      · dsimp only
        rw [Function.update_of_ne hij]
        exact hother (by simp [hr, hij.symm])
  gone := ⟨[c], rfl, List.nodup_singleton c, by simp⟩

/-- **The slots lose what they hold** when the fuel is enough for that. -/
theorem swept_lose (hf : f.Proper home rank bound)
    (hfuel : ∀ (g : Ownership κ ν ι χ) (d : κ), g.Proper home rank bound →
      (g.objects d).isSome → rank c < rank d →
      Prunes {e | g.Below d e} g (destroy fuel g d)) (ns : List ν)
    (hns : ∀ n ∈ ns, ∀ d, f.held n = some d → rank c < rank d) (hs : f.Swept A g) :
    f.Swept (A ∪ {d | ∃ n ∈ ns, f.held n = some d}) (ns.foldl (lose fuel) g) := by
  induction ns generalizing g A with
  | nil => simpa using hs
  | cons n ns ih =>
    have hrest := fun m hm => hns m (List.mem_cons_of_mem n hm)
    have hg := hs.proper hf
    rw [List.foldl_cons]
    cases hn : f.held n with
    | none =>
      have hgn : g.held n = none := by
        refine Option.eq_none_iff_forall_ne_some.mpr fun d hd => ?_
        rw [((hs.held n d).mp hd).1] at hn
        cases hn
      have hlose : lose fuel g n = g := by
        rw [lose, hgn]
        exact clear_of_free hgn
      have hA : A ∪ {d | ∃ m ∈ n :: ns, f.held m = some d} =
          A ∪ {d | ∃ m ∈ ns, f.held m = some d} := by simp [hn]
      rw [hlose, hA]
      exact ih hrest hs
    | some d =>
      have hA : A ∪ {d | ∃ m ∈ n :: ns, f.held m = some d} =
          Insert.insert d A ∪ {d | ∃ m ∈ ns, f.held m = some d} := by
        ext e
        simp only [List.mem_cons, exists_eq_or_imp, hn, Option.some.injEq, Set.mem_union,
          Set.mem_ofPred_eq, Set.mem_insert_iff, eq_comm (a := d)]
        tauto
      rw [hA]
      refine ih hrest ?_
      cases hgn : g.held n with
      | none =>
        have hdead : g.objects d = none := by
          refine Option.eq_none_iff_forall_ne_some.mpr fun x hx => ?_
          rw [(hs.held n d).mpr ⟨hn, (hs.alive hx).2⟩] at hgn
          cases hgn
        have hlose : lose fuel g n = g := by
          rw [lose, hgn]
          exact clear_of_free hgn
        rw [hlose]
        exact hs.skip (hf.alive hn) hdead
      | some d' =>
        obtain rfl : d = d' := Option.some.inj (hn.symm.trans ((hs.held n d').mp hgn).1)
        have hp := hfuel g d hg (hg.alive hgn) (hns n List.mem_cons_self d hn)
        have hfree : (destroy fuel g d).held n = none := by
          refine Option.eq_none_iff_forall_ne_some.mpr fun e he => ?_
          obtain ⟨hge, hne⟩ := (hp.held n e).mp he
          obtain rfl := Option.some.inj (hgn.symm.trans hge)
          exact hne .refl
        have hlose : lose fuel g n = destroy fuel g d := by
          rw [lose, hgn]
          exact clear_of_free hfree
        rw [hlose]
        exact hs.insert hf (hg.alive hgn) hp

/-- **Destroying an object** takes away the objects below it, each once, and nothing else. -/
theorem prunes_destroy (hf : f.Proper home rank bound) (hc : (f.objects c).isSome)
    (hfuel : bound ≤ fuel + rank c) : Prunes {e | f.Below c e} f (destroy fuel f c) := by
  induction fuel generalizing f c with
  | zero => exact absurd (hf.bound c hc) (Nat.not_lt.mpr (Nat.zero_add (rank c) ▸ hfuel))
  | succ fuel ih =>
    obtain ⟨x, hx⟩ := Option.isSome_iff_exists.mp hc
    have hslots : f.slotsOf c = x.slots := by rw [slotsOf, hx]; rfl
    have hholds : ∀ n ∈ x.slots, ∀ d, f.held n = some d → f.Holds c d :=
      fun n hn d hd => ⟨x, n, hx, hn, hd⟩
    rw [destroy_succ, hslots]
    have hs : f.Swept (∅ ∪ {d | ∃ n ∈ x.slots, f.held n = some d})
        (x.slots.foldl (lose fuel) f) := by
      refine swept_lose hf (fun g d hg hd hlt => ih hg hd ?_) x.slots
        (fun n hn d hd => hf.rank_lt (hholds n hn d hd)) (.refl f)
      omega
    generalize x.slots.foldl (lose fuel) f = g at hs ⊢
    -- The object itself is not below what it holds.
    have hnot : c ∉ {e | ∃ d ∈ ∅ ∪ {d | ∃ n ∈ x.slots, f.held n = some d}, f.Below d e} := by
      rintro ⟨d, hd | ⟨n, hn, hd⟩, hb⟩
      · exact hd
      · exact Nat.not_lt.mpr (hf.rank_le hb) (hf.rank_lt (hholds n hn d hd))
    have hgx : g.objects c = some x := (hs.kept c hnot).trans hx
    have hp := hs.trans (prunes_drop (hs.proper hf) hgx) (by simpa using hnot)
    have hS : {e | f.Below c e} =
        {e | ∃ d ∈ ∅ ∪ {d | ∃ n ∈ x.slots, f.held n = some d}, f.Below d e} ∪ {c} := by
      ext e
      constructor
      · intro hb
        rcases Relation.ReflTransGen.cases_head hb with rfl | ⟨d, ⟨y, n, hy, hn, hd⟩, hb⟩
        · exact .inr rfl
        · obtain rfl := Option.some.inj (hx.symm.trans hy)
          exact .inl ⟨d, .inr ⟨n, hn, hd⟩, hb⟩
      · rintro (⟨d, hd | ⟨n, hn, hd⟩, hb⟩ | rfl)
        · exact hd.elim
        · exact .head (hholds n hn d hd) hb
        · exact .refl
    rw [hS]
    exact hp

end Ownership

end Asyncflow
