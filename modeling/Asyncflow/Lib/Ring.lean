import Mathlib.Data.List.Chain
import Mathlib.Data.List.Nodup
import Mathlib.Logic.Equiv.Basic

/-!
# Circular doubly linked lists

A list in memory is a ring: a cell of its own, the *sentinel*, is linked to the first element and
the last element back to it, and every two neighbours point to each other
(`Asyncflow.Ring.Linked`). This file has the two edits of such a ring, over any type of addresses,
and nothing about who makes them.

* `Asyncflow.Ring.IsRing` is a ring through a sentinel with given elements, and
  `Asyncflow.Ring.isRing_append` cuts it at any place;
* `Asyncflow.Ring.Rings` is a family of rings that share a memory, outside of which all links are
  null. `Asyncflow.Ring.Rings.link` links a new cell in between two neighbours, and
  `Asyncflow.Ring.Rings.unlink` takes a cell out;
* `Asyncflow.Ring.walk` follows the links until it comes to the sentinel, and
  `Asyncflow.Ring.IsRing.forward` and `backward` say what it meets.
-/

namespace Asyncflow

namespace Ring

/-- A cell that can be linked; null pointers are `none`. -/
@[ext] structure Links (A : Type) where
  prev : Option A := none
  next : Option A := none
deriving DecidableEq, Repr

/-- A memory of cells. -/
abbrev Mem (A : Type) := A → Links A

variable {A : Type} {m n : Mem A} {s a x y : A} {xs ys zs l : List A}

/-- Neighbours point to each other. -/
def Linked (m : Mem A) (x y : A) : Prop := (m x).next = some y ∧ (m y).prev = some x

/-- **The ring** through a sentinel with the elements. -/
def IsRing (m : Mem A) (s : A) (xs : List A) : Prop := (s :: xs ++ [s]).IsChain (Linked m)

/-- The cell before what comes after `ys`. -/
def before (s : A) (ys : List A) : A := (s :: ys).getLast (List.cons_ne_nil s ys)

/-- The cell after what comes before `zs`. -/
def after (zs : List A) (s : A) : A := (zs ++ [s]).head (by simp)

@[simp] theorem before_nil : before s [] = s := rfl

@[simp] theorem after_nil : after [] s = s := rfl

theorem after_cons (x : A) (xs : List A) (s : A) : after (x :: xs) s = x := rfl

theorem before_concat (s : A) (xs : List A) (x : A) : before s (xs ++ [x]) = x := by
  rw [before, List.getLast_cons (by simp), List.getLast_concat]

theorem before_mem (s : A) (ys : List A) : before s ys ∈ s :: ys := List.getLast_mem _

theorem after_mem (zs : List A) (s : A) : after zs s ∈ zs ++ [s] := List.head_mem _

/-! ### Cutting a ring -/

/-- **A ring, cut at some place**: what is before it, what is after it, and the two neighbours. -/
theorem isRing_append : IsRing m s (ys ++ zs) ↔
    (s :: ys).IsChain (Linked m) ∧ (zs ++ [s]).IsChain (Linked m) ∧
      Linked m (before s ys) (after zs s) := by
  have hsplit : s :: (ys ++ zs) ++ [s] = (s :: ys) ++ (zs ++ [s]) := by simp
  rw [IsRing, hsplit, List.isChain_append, List.getLast?_eq_some_getLast (List.cons_ne_nil s ys),
    List.head?_eq_some_head (by simp : zs ++ [s] ≠ [])]
  refine and_congr_right fun _ => and_congr_right fun _ => ⟨fun h => h _ rfl _ rfl, ?_⟩
  rintro h x hx y hy
  obtain rfl := Option.some.inj hx
  obtain rfl := Option.some.inj hy
  exact h

theorem isRing_nil : IsRing m s [] ↔ (m s).next = some s ∧ (m s).prev = some s := by
  rw [← List.append_nil [], isRing_append]
  exact ⟨fun h => h.2.2, fun h => ⟨.singleton s, .singleton s, h⟩⟩

/-- The links of the sentinel. -/
theorem IsRing.sentinel (h : IsRing m s xs) :
    (m s).next = some (after xs s) ∧ (m s).prev = some (before s xs) := by
  constructor
  · have hcut : IsRing m s ([] ++ xs) := h
    exact (isRing_append.mp hcut).2.2.1
  · rw [← List.append_nil xs] at h
    exact (isRing_append.mp h).2.2.2

/-- The links of an element. -/
theorem IsRing.element (h : IsRing m s (ys ++ a :: zs)) :
    (m a).prev = some (before s ys) ∧ (m a).next = some (after zs s) := by
  constructor
  · exact (isRing_append.mp h).2.2.2
  · have hsplit : ys ++ a :: zs = (ys ++ [a]) ++ zs := by simp
    rw [hsplit, isRing_append] at h
    rw [before_concat] at h
    exact h.2.2.1

/-- A chain reads the links forward of all its cells but the last, and the links back of all but
the first. -/
theorem isChain_congr (h : l.IsChain (Linked m)) (hnext : ∀ x ∈ l.dropLast, (n x).next = (m x).next)
    (hprev : ∀ x ∈ l.tail, (n x).prev = (m x).prev) : l.IsChain (Linked n) := by
  rw [List.isChain_iff_forall_rel_of_append_cons_cons] at h ⊢
  rintro x y l₁ l₂ rfl
  have hx : x ∈ (l₁ ++ x :: y :: l₂).dropLast := by
    rw [List.dropLast_append_cons]
    simp
  have hy : y ∈ (l₁ ++ x :: y :: l₂).tail := by
    cases l₁ <;> simp
  rw [Linked, hnext x hx, hprev y hy]
  exact h rfl

/-- A ring does not depend on what is outside of it. -/
theorem IsRing.congr (h : IsRing m s xs) (heq : ∀ x ∈ s :: xs, n x = m x) : IsRing n s xs := by
  have hmem : ∀ x ∈ s :: xs ++ [s], n x = m x := by
    intro x hx
    refine heq x ?_
    rw [List.mem_append, List.mem_singleton] at hx
    rcases hx with hx | rfl
    · exact hx
    · exact List.mem_cons_self
  exact isChain_congr h (fun x hx => by rw [hmem x ((List.dropLast_sublist _).subset hx)])
    fun x hx => by rw [hmem x (List.mem_of_mem_tail hx)]

/-! ### Editing a ring -/

variable [DecidableEq A]

/-- A cell is linked in between two neighbours. -/
def link (m : Mem A) (a p q : A) : Mem A := fun x =>
  { prev := if x = q then some a else if x = a then some p else (m x).prev
    next := if x = p then some a else if x = a then some q else (m x).next }

/-- A cell is taken out from between its neighbours. -/
def unlink (m : Mem A) (a p q : A) : Mem A := fun x =>
  if x = a then {}
  else
    { prev := if x = q then some p else (m x).prev
      next := if x = p then some q else (m x).next }

theorem link_next (m : Mem A) (a p q x : A) :
    (link m a p q x).next = if x = p then some a else if x = a then some q else (m x).next := rfl

theorem link_prev (m : Mem A) (a p q x : A) :
    (link m a p q x).prev = if x = q then some a else if x = a then some p else (m x).prev := rfl

theorem link_of_ne {p q : A} (ha : x ≠ a) (hp : x ≠ p) (hq : x ≠ q) : link m a p q x = m x := by
  rw [link, if_neg hq, if_neg ha, if_neg hp, if_neg ha]

theorem unlink_of_ne {p q : A} (ha : x ≠ a) (hp : x ≠ p) (hq : x ≠ q) :
    unlink m a p q x = m x := by
  rw [unlink, if_neg ha, if_neg hq, if_neg hp]

theorem unlink_next {p q : A} (ha : x ≠ a) :
    (unlink m a p q x).next = if x = p then some q else (m x).next := by
  rw [unlink, if_neg ha]

theorem unlink_prev {p q : A} (ha : x ≠ a) :
    (unlink m a p q x).prev = if x = q then some p else (m x).prev := by
  rw [unlink, if_neg ha]

theorem unlink_self {p q : A} : unlink m a p q a = {} := if_pos rfl

omit [DecidableEq A] in
/-- What comes before a place has another cell at its end than elsewhere. -/
theorem ne_before (hnd : (s :: ys).Nodup) (hx : x ∈ (s :: ys).dropLast) : x ≠ before s ys := by
  rintro rfl
  have hcut := List.dropLast_append_getLast (List.cons_ne_nil s ys)
  rw [← hcut, List.nodup_append] at hnd
  exact hnd.2.2 _ hx _ (List.mem_singleton_self _) rfl

omit [DecidableEq A] in
theorem ne_after (hnd : (zs ++ [s]).Nodup) (hx : x ∈ (zs ++ [s]).tail) : x ≠ after zs s := by
  rintro rfl
  have hcut := List.cons_head_tail (by simp : zs ++ [s] ≠ [])
  rw [← hcut, List.nodup_cons] at hnd
  exact hnd.1 hx

omit [DecidableEq A] in
/-- The two sides of a place have no cell twice, and share none but the sentinel. -/
theorem nodup_cut (hnd : (s :: (ys ++ zs)).Nodup) :
    (s :: ys).Nodup ∧ (zs ++ [s]).Nodup ∧ (∀ x ∈ zs, x ∉ s :: ys) ∧ ∀ x ∈ ys, x ∉ zs ++ [s] := by
  rw [List.nodup_cons, List.nodup_append, List.mem_append, not_or] at hnd
  obtain ⟨⟨hys, hzs⟩, hny, hnz, hne⟩ := hnd
  refine ⟨List.nodup_cons.mpr ⟨hys, hny⟩, ?_, ?_, ?_⟩
  · rw [List.nodup_append]
    refine ⟨hnz, List.nodup_singleton s, ?_⟩
    rintro x hx y hy rfl
    exact hzs (List.mem_singleton.mp hy ▸ hx)
  · rintro x hx (_ | ⟨_, hxy⟩)
    · exact hzs hx
    · exact hne x hxy x hx rfl
  · rintro x hx hxz
    rw [List.mem_append, List.mem_singleton] at hxz
    rcases hxz with hxz | rfl
    · exact hne x hx x hxz rfl
    · exact hys hx

omit [DecidableEq A] in
/-- The two sides of a place are kept by what only changes the links across it. -/
theorem sides_congr (hys : (s :: ys).IsChain (Linked m)) (hzs : (zs ++ [s]).IsChain (Linked m))
    (hnd : (s :: (ys ++ zs)).Nodup)
    (hnext : ∀ x ∈ s :: (ys ++ zs), x ≠ before s ys → (n x).next = (m x).next)
    (hprev : ∀ x ∈ s :: (ys ++ zs), x ≠ after zs s → (n x).prev = (m x).prev) :
    (s :: ys).IsChain (Linked n) ∧ (zs ++ [s]).IsChain (Linked n) := by
  obtain ⟨hny, hnz, hzy, hyz⟩ := nodup_cut hnd
  constructor
  · refine isChain_congr hys (fun x hx => hnext x ?_ (ne_before hny hx)) fun x hx => ?_
    · have := (List.dropLast_sublist _).subset hx
      simp only [List.mem_cons, List.mem_append] at this ⊢
      tauto
    · refine hprev x (by simp [show x ∈ ys from hx]) ?_
      rintro rfl
      exact hyz _ hx (after_mem zs s)
  · refine isChain_congr hzs (fun x hx => ?_) fun x hx => hprev x ?_ (ne_after hnz hx)
    · rw [List.dropLast_concat] at hx
      refine hnext x (by simp [hx]) ?_
      rintro rfl
      exact hzy _ hx (before_mem s ys)
    · have := List.mem_of_mem_tail hx
      simp only [List.mem_cons, List.mem_append, List.not_mem_nil, or_false] at this ⊢
      tauto

omit [DecidableEq A] in
/-- The neighbours of a place are cells of the ring. -/
theorem neighbours_mem (s : A) (ys zs : List A) :
    before s ys ∈ s :: (ys ++ zs) ∧ after zs s ∈ s :: (ys ++ zs) := by
  have hp := before_mem s ys
  have hq := after_mem zs s
  simp only [List.mem_cons, List.mem_append, List.not_mem_nil, or_false] at hp hq ⊢
  tauto

omit [DecidableEq A] in
theorem ne_neighbours (ha : a ∉ s :: (ys ++ zs)) : a ≠ before s ys ∧ a ≠ after zs s := by
  constructor
  · rintro rfl
    exact ha (neighbours_mem s ys zs).1
  · rintro rfl
    exact ha (neighbours_mem s ys zs).2

omit [DecidableEq A] in
/-- A cell of a ring, and the rest of it. -/
theorem nodup_middle : (s :: (ys ++ a :: zs)).Nodup ↔ a ∉ s :: (ys ++ zs) ∧
    (s :: (ys ++ zs)).Nodup := by
  rw [← List.cons_append, ← List.cons_append, ← List.nodup_cons]
  exact List.perm_middle.nodup_iff

/-- **A cell is linked in.** -/
theorem IsRing.link (h : IsRing m s (ys ++ zs)) (hnd : (s :: (ys ++ zs)).Nodup)
    (ha : a ∉ s :: (ys ++ zs)) :
    IsRing (link m a (before s ys) (after zs s)) s (ys ++ a :: zs) := by
  obtain ⟨hpa, hqa⟩ := ne_neighbours ha
  have hne : ∀ x ∈ s :: (ys ++ zs), x ≠ a := by
    rintro x hx rfl
    exact ha hx
  obtain ⟨hys, hzs, -⟩ := isRing_append.mp h
  obtain ⟨hys, hzs⟩ := sides_congr (n := Ring.link m a (before s ys) (after zs s)) hys hzs hnd
    (fun x hx hxp => by rw [link_next, if_neg hxp, if_neg (hne x hx)])
    (fun x hx hxq => by rw [link_prev, if_neg hxq, if_neg (hne x hx)])
  rw [isRing_append]
  refine ⟨hys, ?_, ?_⟩
  · rw [List.cons_append, List.isChain_cons]
    refine ⟨fun y hy => ?_, hzs⟩
    obtain rfl : after zs s = y := by
      rw [List.head?_eq_some_head (by simp : zs ++ [s] ≠ [])] at hy
      exact Option.some.inj hy
    constructor
    · rw [link_next, if_neg hpa, if_pos rfl]
    · rw [link_prev, if_pos rfl]
  · constructor
    · rw [link_next, if_pos rfl]
      rfl
    · show (Ring.link m a _ _ a).prev = _
      rw [link_prev, if_neg hqa, if_pos rfl]

/-- **A cell is taken out.** -/
theorem IsRing.unlink (h : IsRing m s (ys ++ a :: zs)) (hnd : (s :: (ys ++ a :: zs)).Nodup) :
    IsRing (unlink m a (before s ys) (after zs s)) s (ys ++ zs) := by
  obtain ⟨ha, hnd'⟩ := nodup_middle.mp hnd
  obtain ⟨hpa, hqa⟩ := ne_neighbours ha
  have hne : ∀ x ∈ s :: (ys ++ zs), x ≠ a := by
    rintro x hx rfl
    exact ha hx
  obtain ⟨hys, hzs, -⟩ := isRing_append.mp h
  rw [List.cons_append, List.isChain_cons] at hzs
  obtain ⟨hys, hzs⟩ := sides_congr (n := Ring.unlink m a (before s ys) (after zs s)) hys hzs.2 hnd'
    (fun x hx hxp => by rw [unlink_next (hne x hx), if_neg hxp])
    (fun x hx hxq => by rw [unlink_prev (hne x hx), if_neg hxq])
  rw [isRing_append]
  refine ⟨hys, hzs, ?_, ?_⟩
  · rw [unlink_next hpa.symm, if_pos rfl]
  · rw [unlink_prev hqa.symm, if_pos rfl]

/-! ### Several rings -/

variable {L : Type} {t : L → A} {xss : L → List A} {k l : L}

/-- A cell that is in none of the rings. -/
def Outside (t : L → A) (xss : L → List A) (a : A) : Prop := ∀ l, a ∉ t l :: xss l

/-- **Rings in one memory**: they share no cells, and cells outside of them are not linked. -/
structure Rings (m : Mem A) (t : L → A) (xss : L → List A) : Prop where
  ring : ∀ l, IsRing m (t l) (xss l)
  nodup : ∀ l, (t l :: xss l).Nodup
  disjoint : ∀ l k, l ≠ k → ∀ x ∈ t l :: xss l, x ∉ t k :: xss k
  outside : ∀ a, Outside t xss a → m a = {}

omit [DecidableEq A] in
/-- The rings may be permuted. -/
theorem Rings.comp (h : Rings m t xss) (σ : L ≃ L) :
    Rings m (fun l => t (σ l)) (fun l => xss (σ l)) where
  ring l := h.ring (σ l)
  nodup l := h.nodup (σ l)
  disjoint l k hne := h.disjoint (σ l) (σ k) (σ.injective.ne hne)
  outside a ha := h.outside a fun l => by
    have := ha (σ.symm l)
    dsimp only at this
    rwa [Equiv.apply_symm_apply] at this

variable [DecidableEq L]

omit [DecidableEq A] in
/-- One ring is replaced, and the memory has changed only there. -/
theorem Rings.update (h : Rings m t xss) (hring : IsRing n (t l) xs) (hnd : (t l :: xs).Nodup)
    (hnew : ∀ x ∈ xs, x ∈ xss l ∨ Outside t xss x)
    (hkeep : ∀ k, k ≠ l → ∀ x ∈ t k :: xss k, n x = m x)
    (hout : ∀ a, Outside t (Function.update xss l xs) a → n a = {}) :
    Rings n t (Function.update xss l xs) := by
  -- No cell of the new ring is in another one.
  have hdis : ∀ k, k ≠ l → ∀ x ∈ t l :: xs, x ∉ t k :: xss k := by
    rintro k hk x hx
    rcases List.mem_cons.mp hx with rfl | hx
    · exact h.disjoint l k hk.symm _ List.mem_cons_self
    · rcases hnew x hx with hx | hx
      · exact h.disjoint l k hk.symm x (List.mem_cons_of_mem _ hx)
      · exact hx k
  refine ⟨fun k => ?_, fun k => ?_, fun j k hjk x hx => ?_, hout⟩
  · rcases eq_or_ne k l with rfl | hk
    · rwa [Function.update_self]
    · rw [Function.update_of_ne hk]
      exact (h.ring k).congr (hkeep k hk)
  · rcases eq_or_ne k l with rfl | hk
    · rwa [Function.update_self]
    · rw [Function.update_of_ne hk]
      exact h.nodup k
  · rcases eq_or_ne j l with rfl | hj
    · rw [Function.update_self] at hx
      rw [Function.update_of_ne hjk.symm]
      exact hdis k hjk.symm x hx
    · rw [Function.update_of_ne hj] at hx
      rcases eq_or_ne k l with rfl | hk
      · rw [Function.update_self]
        exact fun hxk => hdis j hj x hxk hx
      · rw [Function.update_of_ne hk]
        exact h.disjoint j k hjk x hx

omit [DecidableEq A] in
/-- What is in none of the rings after one has been replaced. -/
theorem Outside.of_update (h : Outside t (Function.update xss l xs) a) :
    a ∉ t l :: xs ∧ ∀ k, k ≠ l → a ∉ t k :: xss k := by
  constructor
  · have := h l
    rwa [Function.update_self] at this
  · intro k hk
    have := h k
    rwa [Function.update_of_ne hk] at this

/-- **A new cell is linked in** between two neighbours. -/
theorem Rings.link (h : Rings m t xss) (hl : xss l = ys ++ zs) (ha : Outside t xss a) :
    Rings (link m a (before (t l) ys) (after zs (t l))) t
      (Function.update xss l (ys ++ a :: zs)) := by
  have hring := h.ring l
  have hnd := h.nodup l
  have hal := ha l
  rw [hl] at hring hnd hal
  obtain ⟨hp, hq⟩ := neighbours_mem (t l) ys zs
  refine h.update (hring.link hnd hal) (nodup_middle.mpr ⟨hal, hnd⟩) (fun x hx => ?_)
    (fun k hk x hx => ?_) fun b hb => ?_
  · rw [hl]
    simp only [List.mem_append, List.mem_cons] at hx ⊢
    rcases hx with hx | rfl | hx
    · exact .inl (.inl hx)
    · exact .inr ha
    · exact .inl (.inr hx)
  · have hx' := h.disjoint k l hk x hx
    rw [hl] at hx'
    refine link_of_ne ?_ (fun hxp => hx' (hxp ▸ hp)) fun hxq => hx' (hxq ▸ hq)
    rintro rfl
    exact ha k hx
  · obtain ⟨hbl, hbk⟩ := hb.of_update
    obtain ⟨hba, hbl⟩ : b ≠ a ∧ b ∉ t l :: (ys ++ zs) := by
      simp only [List.mem_cons, List.mem_append] at hbl ⊢
      tauto
    rw [link_of_ne hba (fun hbp => hbl (hbp ▸ hp)) fun hbq => hbl (hbq ▸ hq)]
    refine h.outside b fun k => ?_
    rcases eq_or_ne k l with rfl | hk
    · rwa [hl]
    · exact hbk k hk

/-- **A cell is taken out.** -/
theorem Rings.unlink (h : Rings m t xss) (hl : xss l = ys ++ a :: zs) :
    Rings (unlink m a (before (t l) ys) (after zs (t l))) t
      (Function.update xss l (ys ++ zs)) := by
  have hring := h.ring l
  have hnd := h.nodup l
  rw [hl] at hring hnd
  obtain ⟨hal, hnd'⟩ := nodup_middle.mp hnd
  obtain ⟨hp, hq⟩ := neighbours_mem (t l) ys zs
  have hmem : ∀ x ∈ t l :: (ys ++ zs), x ∈ t l :: xss l := by
    intro x hx
    rw [hl]
    simp only [List.mem_cons, List.mem_append] at hx ⊢
    tauto
  refine h.update (hring.unlink hnd) hnd' (fun x hx => ?_) (fun k hk x hx => ?_) fun b hb => ?_
  · rw [hl]
    simp only [List.mem_append, List.mem_cons] at hx ⊢
    tauto
  · have hx' := h.disjoint k l hk x hx
    refine unlink_of_ne ?_ (fun hxp => hx' (hmem x (hxp ▸ hp))) fun hxq => hx' (hmem x (hxq ▸ hq))
    rintro rfl
    exact hx' (by rw [hl]; simp)
  · obtain ⟨hbl, hbk⟩ := hb.of_update
    rcases eq_or_ne b a with rfl | hba
    · exact unlink_self
    · rw [unlink_of_ne hba (fun hbp => hbl (hbp ▸ hp)) fun hbq => hbl (hbq ▸ hq)]
      refine h.outside b fun k => ?_
      rcases eq_or_ne k l with rfl | hk
      · rw [hl]
        simp only [List.mem_cons, List.mem_append] at hbl ⊢
        tauto
      · exact hbk k hk

/-! ### Following the links -/

/-- The cells met on the way from a pointer to the sentinel, by at most `fuel` steps. A null
pointer is not followed. -/
def walk (f : A → Option A) (s : A) : ℕ → Option A → Option (List A)
  | 0, cur => if cur = some s then some [] else none
  | _ + 1, none => none
  | fuel + 1, some x => if x = s then some [] else (walk f s fuel (f x)).map (x :: ·)

omit [DecidableEq L] in
theorem walk_of_isChain {f : A → Option A} (fuel : ℕ)
    (h : (a :: xs ++ [s]).IsChain fun x y => f x = some y) (hs : s ∉ xs)
    (hfuel : xs.length ≤ fuel) : walk f s fuel (f a) = some xs := by
  induction xs generalizing a fuel with
  | nil =>
    have hfa : f a = some s := (List.isChain_cons_cons.mp h).1
    rw [hfa]
    cases fuel with
    | zero => rw [walk, if_pos rfl]
    | succ fuel => rw [walk, if_pos rfl]
  | cons x xs ih =>
    obtain ⟨hfa, hrest⟩ := List.isChain_cons_cons.mp h
    rw [List.mem_cons, not_or] at hs
    obtain ⟨hsx, hsxs⟩ := hs
    cases fuel with
    | zero => cases hfuel
    | succ fuel =>
      rw [hfa, walk, if_neg (Ne.symm hsx), ih fuel hrest hsxs (Nat.le_of_succ_le_succ hfuel)]
      rfl

omit [DecidableEq L] in
/-- **Forward**, one meets the elements. -/
theorem IsRing.forward (h : IsRing m s xs) (hs : s ∉ xs) {fuel : ℕ} (hfuel : xs.length ≤ fuel) :
    walk (fun x => (m x).next) s fuel (m s).next = some xs :=
  walk_of_isChain fuel (h.imp fun _ _ hxy => hxy.1) hs hfuel

omit [DecidableEq L] in
/-- **Back**, one meets them in the reverse order. -/
theorem IsRing.backward (h : IsRing m s xs) (hs : s ∉ xs) {fuel : ℕ} (hfuel : xs.length ≤ fuel) :
    walk (fun x => (m x).prev) s fuel (m s).prev = some xs.reverse := by
  refine walk_of_isChain fuel ?_ (by rwa [List.mem_reverse]) (by rwa [List.length_reverse])
  have hrev : s :: xs.reverse ++ [s] = (s :: xs ++ [s]).reverse := by simp
  rw [hrev, List.isChain_reverse]
  exact h.imp fun _ _ hxy => hxy.2

end Ring

end Asyncflow
