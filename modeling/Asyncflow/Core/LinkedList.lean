import Asyncflow.Lib.Ring
import Asyncflow.Lib.Run

/-!
# Linked lists

A `LinkedList` is a ring of `LinkedNode`s through a sentinel that it allocates, `list_`. The
nodes are the caller's, and carry their own links: a node that is in no list has null links.

`LinkedList::clear` takes the elements' links away but leaves those of the sentinel, so that a
list that was not empty does not become empty. Every run that clears only empty lists
represents sequences (`Asyncflow.LinkedList.represents_iff`).
-/

namespace Asyncflow

namespace LinkedList

open Asyncflow.Ring

variable {L A : Type} [DecidableEq L] [DecidableEq A]

/-! ### Writing through pointers -/

/-- `p->prev = v`, which a null pointer does not survive. -/
def setPrev (m : Mem A) (p v : Option A) : Option (Mem A) :=
  p.map fun a => Function.update m a { m a with prev := v }

/-- `p->next = v`. -/
def setNext (m : Mem A) (p v : Option A) : Option (Mem A) :=
  p.map fun a => Function.update m a { m a with next := v }

/-- `LinkedList::insert`. -/
def insert (m : Mem A) (node : A) (prev next : Option A) : Option (Mem A) := do
  let m ← setPrev m next (some node)
  let m ← setNext m (some node) next
  let m ← setPrev m (some node) prev
  setNext m prev (some node)

/-- `LinkedList::remove`. -/
def remove (m : Mem A) (node : A) : Option (Mem A) := do
  let m ← setPrev m (m node).next (m node).prev
  let m ← setNext m (m node).prev (m node).next
  let m ← setNext m (some node) none
  setPrev m (some node) none

/-! ### Lists -/

/-- Lists in one memory. -/
structure Lists (L A : Type) where
  mem : Mem A
  /-- `list_`. -/
  list : L → A

namespace Lists

variable (s : Lists L A) (l : L)

/-- `LinkedList::push_front`. -/
def pushFront (node : A) : Option (Lists L A) :=
  (insert s.mem node (some (s.list l)) (s.mem (s.list l)).next).map fun m => { s with mem := m }

/-- `LinkedList::push_back`. -/
def pushBack (node : A) : Option (Lists L A) :=
  (insert s.mem node (s.mem (s.list l)).prev (some (s.list l))).map fun m => { s with mem := m }

/-- `LinkedList::empty`. -/
def empty : Bool := (s.mem (s.list l)).next = some (s.list l)

/-- `LinkedList::front`. -/
def front : Option A := if s.empty l then none else (s.mem (s.list l)).next

/-- `LinkedList::back`. -/
def back : Option A := if s.empty l then none else (s.mem (s.list l)).prev

/-- Removes a node that a pointer points to, and returns the pointer. -/
def removeAt (ret : Option A) : Option (Lists L A × Option A) := do
  let node ← ret
  let m ← remove s.mem node
  pure ({ s with mem := m }, ret)

/-- `LinkedList::pop_front`. -/
def popFront : Option (Lists L A × Option A) :=
  if s.empty l then some (s, none) else s.removeAt (s.mem (s.list l)).next

/-- `LinkedList::pop_back`. -/
def popBack : Option (Lists L A × Option A) :=
  if s.empty l then some (s, none) else s.removeAt (s.mem (s.list l)).prev

/-- `LinkedList::swap`. -/
def swap (k : L) : Lists L A :=
  { s with list := Function.update (Function.update s.list l (s.list k)) k (s.list l) }

/-- The loop of `LinkedList::clear`, in at most `fuel` rounds. -/
def clearLoop (sentinel : A) : ℕ → Mem A → Option A → Option (Mem A)
  | 0, m, cur => if cur = some sentinel then some m else none
  | fuel + 1, m, cur =>
    if cur = some sentinel then some m
    else do
      let a ← cur
      let next := (m a).next
      let m ← setPrev m (some a) none
      let m ← setNext m (some a) none
      clearLoop sentinel fuel m next

/-- `LinkedList::clear`. -/
def clear (fuel : ℕ) : Option (Lists L A) :=
  (clearLoop (s.list l) fuel s.mem (s.mem (s.list l)).next).map fun m => { s with mem := m }

/-- The loop of `LinkedList::size`. -/
def sizeLoop (sentinel : A) (m : Mem A) : ℕ → Option A → ℕ → Option ℕ
  | 0, cur, count => if cur = some sentinel then some count else none
  | fuel + 1, cur, count =>
    if cur = some sentinel then some count
    else do
      let a ← cur
      sizeLoop sentinel m fuel (m a).next (count + 1)

/-- `LinkedList::size`. -/
def size (fuel : ℕ) : Option ℕ := sizeLoop (s.list l) s.mem fuel (s.mem (s.list l)).next 0

end Lists

/-! ### Runs -/

/-- A call. The place of an insertion, the `i`-th of the list `l`, is for the reader: the code
has the two neighbours only. -/
inductive Call (L A : Type)
  | pushFront (l : L) (node : A)
  | pushBack (l : L) (node : A)
  | insert (node prev next : A) (l : L) (i : ℕ)
  | remove (node : A)
  | popFront (l : L)
  | popBack (l : L)
  | swap (l k : L)
  | clear (l : L) (fuel : ℕ)

/-- The lists after a call, and the pointer it returns. -/
def Lists.exec (s : Lists L A) : Call L A → Option (Lists L A × Option A)
  | .pushFront l node => (s.pushFront l node).map (·, none)
  | .pushBack l node => (s.pushBack l node).map (·, none)
  | .insert node prev next _ _ =>
    (LinkedList.insert s.mem node (some prev) (some next)).map fun m => ({ s with mem := m }, none)
  | .remove node => (LinkedList.remove s.mem node).map fun m => ({ s with mem := m }, none)
  | .popFront l => s.popFront l
  | .popBack l => s.popBack l
  | .swap l k => some (s.swap l k, none)
  | .clear l fuel => (s.clear l fuel).map (·, none)

/-- What a call does to sequences. -/
def Call.apply (q : L → List A) : Call L A → L → List A
  | .pushFront l node => Function.update q l (node :: q l)
  | .pushBack l node => Function.update q l (q l ++ [node])
  | .insert node _ _ l i => Function.update q l ((q l).take i ++ node :: (q l).drop i)
  | .remove node => fun l => (q l).erase node
  | .popFront l => Function.update q l (q l).tail
  | .popBack l => Function.update q l (q l).dropLast
  | .swap l k => fun j => q (Equiv.swap l k j)
  | .clear l _ => Function.update q l []

/-- What a call returns, said of sequences. -/
def Call.returns (q : L → List A) : Call L A → Option A
  | .popFront l => (q l).head?
  | .popBack l => (q l).getLast?
  | _ => none

/-- What the caller of a function sees to: a node that it pushes is in no list and is no sentinel,
one that it inserts goes between two neighbours, and one that it removes is in a list. -/
def Call.Allowed (s : Lists L A) (q : L → List A) : Call L A → Prop
  | .pushFront _ node | .pushBack _ node => Outside s.list q node
  | .insert node prev next l i => Outside s.list q node ∧ i ≤ (q l).length ∧
      prev = before (s.list l) ((q l).take i) ∧ next = after ((q l).drop i) (s.list l)
  | .remove node => ∃ l, node ∈ q l
  | _ => True

/-- The lists with the sequences they stand for. A call that the caller may not make is no step. -/
def step (t : Lists L A × (L → List A)) (c : Call L A) : Option (Lists L A × (L → List A)) :=
  (t.1.exec c).map fun r => (r.1, c.apply t.2)

/-- **The lists represent sequences.** -/
structure Represents (s : Lists L A) (q : L → List A) : Prop where
  /-- Every list is a circular doubly linked ring through its sentinel. -/
  ring : ∀ l, IsRing s.mem (s.list l) (q l)
  forward : ∀ l fuel, (q l).length ≤ fuel →
    walk (fun x => (s.mem x).next) (s.list l) fuel (s.mem (s.list l)).next = some (q l)
  backward : ∀ l fuel, (q l).length ≤ fuel →
    walk (fun x => (s.mem x).prev) (s.list l) fuel (s.mem (s.list l)).prev = some (q l).reverse
  empty : ∀ l, s.empty l = (q l).isEmpty
  front : ∀ l, s.front l = (q l).head?
  back : ∀ l, s.back l = (q l).getLast?
  size : ∀ l fuel, (q l).length ≤ fuel → s.size l fuel = some (q l).length
  outside : ∀ a, Outside s.list q a → s.mem a = {}

/-- **The condition**: only empty lists are cleared. -/
def Meets (q : L → List A) : Call L A → Prop
  | .clear l _ => q l = []
  | _ => True

/-- New lists: distinct sentinels that point to themselves. -/
structure Lists.IsNew (s : Lists L A) : Prop where
  inj : Function.Injective s.list
  sentinel : ∀ l, s.mem (s.list l) = ⟨some (s.list l), some (s.list l)⟩
  outside : ∀ a, (∀ l, a ≠ s.list l) → s.mem a = {}

/-! ### Writes -/

variable {m m' : Mem A} {s : Lists L A} {q : L → List A} {a p n : A} {l : L} {ys zs : List A}

/-- **`insert`** links a cell in. -/
theorem insert_eq (hp : a ≠ p) (hn : a ≠ n) :
    insert m a (some p) (some n) = some (link m a p n) := by
  simp only [insert, setPrev, setNext, Option.map_some, Option.bind_eq_bind, Option.bind_some]
  refine congrArg some (funext fun x => Links.ext ?_ ?_)
  · rw [link_prev]
    grind [Function.update_apply]
  · rw [link_next]
    grind [Function.update_apply]

/-- **`remove`** takes a cell out. -/
theorem remove_eq (hprev : (m a).prev = some p) (hnext : (m a).next = some n) (hp : a ≠ p)
    (hn : a ≠ n) : remove m a = some (unlink m a p n) := by
  simp only [remove, setPrev, setNext, hprev, hnext, Option.map_some, Option.bind_eq_bind,
    Option.bind_some, Function.update_of_ne hn, Function.update_of_ne hp]
  refine congrArg some (funext fun x => ?_)
  rcases eq_or_ne x a with rfl | hxa
  · rw [unlink_self, Function.update_self, Function.update_self]
  · refine Links.ext ?_ ?_
    · rw [unlink_prev hxa]
      grind [Function.update_apply]
    · rw [unlink_next hxa]
      grind [Function.update_apply]

omit [DecidableEq L] in
/-- The loop of `clear` comes to an end at the sentinel, and does not write to it. -/
theorem clearLoop_sentinel {fuel : ℕ} {cur : Option A}
    (h : Lists.clearLoop p fuel m cur = some m') :
    m' p = m p := by
  induction fuel generalizing m cur with
  | zero =>
    rw [Lists.clearLoop] at h
    split_ifs at h
    rw [← Option.some.inj h]
  | succ fuel ih =>
    rw [Lists.clearLoop] at h
    split_ifs at h with hcur
    · rw [← Option.some.inj h]
    · obtain ⟨x, rfl, h⟩ := Option.bind_eq_some_iff.mp h
      have hxp : p ≠ x := fun hpx => hcur (congrArg some hpx.symm)
      rw [ih h]
      show Function.update (Function.update m x _) x _ p = m p
      rw [Function.update_of_ne hxp, Function.update_of_ne hxp]

omit [DecidableEq L] in
/-- The loop of `size` counts the cells that it meets. -/
theorem sizeLoop_eq (fuel : ℕ) (cur : Option A) (count : ℕ) :
    Lists.sizeLoop p m fuel cur count =
      (walk (fun x => (m x).next) p fuel cur).map fun xs => count + xs.length := by
  induction fuel generalizing cur count with
  | zero =>
    rw [Lists.sizeLoop, walk]
    split_ifs <;> rfl
  | succ fuel ih =>
    rw [Lists.sizeLoop]
    cases cur with
    | none => rfl
    | some x =>
      rw [walk]
      split_ifs with hx hx' hx'
      · rfl
      · exact absurd (Option.some.inj hx) hx'
      · exact absurd (congrArg some hx') hx
      · show Lists.sizeLoop p m fuel (m x).next (count + 1) = _
        rw [ih, Option.map_map]
        refine congrArg (fun f => Option.map f _) (funext fun xs => ?_)
        rw [Function.comp_apply, List.length_cons]
        omega

/-! ### Rings are lists -/

omit [DecidableEq L] in
theorem empty_eq (h : Rings s.mem s.list q) (l : L) : s.empty l = (q l).isEmpty := by
  have hnext := (h.ring l).sentinel.1
  have hnd := h.nodup l
  rw [Lists.empty, hnext]
  cases hq : q l with
  | nil => rw [after_nil, decide_eq_true rfl, List.isEmpty_nil]
  | cons x xs =>
    rw [hq, List.nodup_cons] at hnd
    have hne : x ≠ s.list l := fun hx => hnd.1 (hx ▸ List.mem_cons_self)
    rw [after_cons, List.isEmpty_cons, decide_eq_false fun hx => hne (Option.some.inj hx)]

omit [DecidableEq L] in
theorem front_eq (h : Rings s.mem s.list q) (l : L) : s.front l = (q l).head? := by
  rw [Lists.front, empty_eq h, (h.ring l).sentinel.1]
  cases q l with
  | nil => rfl
  | cons x xs => rfl

omit [DecidableEq L] in
theorem back_eq (h : Rings s.mem s.list q) (l : L) : s.back l = (q l).getLast? := by
  rw [Lists.back, empty_eq h, (h.ring l).sentinel.2]
  rcases List.eq_nil_or_concat (q l) with hq | ⟨xs, x, hq⟩
  · rw [hq]
    rfl
  · rw [hq, List.concat_eq_append, before_concat, List.getLast?_concat, if_neg (by simp)]

omit [DecidableEq L] in
/-- **Rings through the sentinels represent their elements.** -/
theorem represents_of_rings (h : Rings s.mem s.list q) : Represents s q := by
  have hs : ∀ l, s.list l ∉ q l := fun l => (List.nodup_cons.mp (h.nodup l)).1
  have hforward : ∀ l fuel, (q l).length ≤ fuel → _ = some (q l) :=
    fun l fuel hfuel => (h.ring l).forward (hs l) hfuel
  refine ⟨h.ring, hforward, fun l fuel hfuel => (h.ring l).backward (hs l) hfuel, empty_eq h,
    front_eq h, back_eq h, fun l fuel hfuel => ?_, h.outside⟩
  rw [Lists.size, sizeLoop_eq, hforward l fuel hfuel, Option.map_some, Nat.zero_add]

omit [DecidableEq L] [DecidableEq A] in
theorem rings_of_isNew (h : s.IsNew) : Rings s.mem s.list fun _ => [] where
  ring l := by
    rw [isRing_nil, h.sentinel l]
    exact ⟨rfl, rfl⟩
  nodup l := List.nodup_singleton _
  disjoint l k hne x hx hxk := by
    rw [List.mem_singleton] at hx hxk
    exact hne (h.inj (hx.symm.trans hxk))
  outside a ha := h.outside a fun l hal => ha l (List.mem_singleton.mpr hal)

/-! ### Calls -/

/-- A node is put between two neighbours. -/
theorem insert_rings (ys zs : List A) (h : Rings s.mem s.list q) (hl : q l = ys ++ zs)
    (ha : Outside s.list q a) :
    ∃ m, insert s.mem a (some (before (s.list l) ys)) (some (after zs (s.list l))) = some m ∧
      Rings m s.list (Function.update q l (ys ++ a :: zs)) := by
  have hal := ha l
  rw [hl] at hal
  obtain ⟨hp, hn⟩ := ne_neighbours hal
  exact ⟨_, insert_eq hp hn, h.link hl ha⟩

/-- A node of a list is removed. -/
theorem remove_rings (ys zs : List A) (h : Rings s.mem s.list q) (hl : q l = ys ++ a :: zs) :
    ∃ m, remove s.mem a = some m ∧ Rings m s.list (Function.update q l (ys ++ zs)) := by
  have hring := h.ring l
  have hnd := h.nodup l
  rw [hl] at hring hnd
  obtain ⟨hprev, hnext⟩ := hring.element
  obtain ⟨hp, hn⟩ := ne_neighbours (nodup_middle.mp hnd).1
  exact ⟨_, remove_eq hprev hnext hp hn, h.unlink hl⟩

/-- The list that an element is in, without it. -/
theorem erase_eq (h : Rings s.mem s.list q) (hl : q l = ys ++ a :: zs) :
    (fun l => (q l).erase a) = Function.update q l (ys ++ zs) := by
  have hnd := h.nodup l
  rw [hl] at hnd
  obtain ⟨ha, -⟩ := nodup_middle.mp hnd
  funext k
  rcases eq_or_ne k l with rfl | hk
  · rw [Function.update_self, hl, List.erase_append_right, List.erase_cons_head]
    exact fun hys => ha (by simp [hys])
  · rw [Function.update_of_ne hk]
    refine List.erase_of_not_mem fun hak => ?_
    exact h.disjoint l k hk.symm a (by rw [hl]; simp) (List.mem_cons_of_mem _ hak)

omit [DecidableEq A] in
theorem swap_list (s : Lists L A) (l k : L) :
    (s.swap l k).list = fun j => s.list (Equiv.swap l k j) := by
  funext j
  rw [Lists.swap, Equiv.swap_apply_def]
  dsimp only
  split_ifs with hl hk
  · subst hl
    rcases eq_or_ne j k with rfl | hjk
    · rw [Function.update_self]
    · rw [Function.update_of_ne hjk, Function.update_self]
  · subst hk
    rw [Function.update_self]
  · rw [Function.update_of_ne hk, Function.update_of_ne hl]

/-- **A call that meets the condition** does to the rings what it does to the sequences. -/
theorem exec_rings {c : Call L A} (h : Rings s.mem s.list q) (ha : c.Allowed s q)
    (hm : Meets q c) :
    ∃ u, s.exec c = some (u, c.returns q) ∧ Rings u.mem u.list (c.apply q) := by
  cases c with
  | pushFront l node =>
    obtain ⟨m, hins, hrings⟩ := insert_rings [] (q l) h rfl ha
    refine ⟨{ s with mem := m }, ?_, hrings⟩
    rw [Lists.exec, Lists.pushFront, (h.ring l).sentinel.1]
    rw [before_nil] at hins
    rw [hins]
    rfl
  | pushBack l node =>
    obtain ⟨m, hins, hrings⟩ := insert_rings (q l) [] h (List.append_nil (q l)).symm ha
    refine ⟨{ s with mem := m }, ?_, hrings⟩
    rw [Lists.exec, Lists.pushBack, (h.ring l).sentinel.2]
    rw [after_nil] at hins
    rw [hins]
    rfl
  | insert node prev next l i =>
    obtain ⟨hout, -, rfl, rfl⟩ := ha
    obtain ⟨m, hins, hrings⟩ := insert_rings _ _ h (List.take_append_drop i (q l)).symm hout
    refine ⟨{ s with mem := m }, ?_, hrings⟩
    rw [Lists.exec, hins]
    rfl
  | remove node =>
    obtain ⟨l, hl⟩ := ha
    obtain ⟨ys, zs, hl⟩ := List.append_of_mem hl
    obtain ⟨m, hrem, hrings⟩ := remove_rings ys zs h hl
    refine ⟨{ s with mem := m }, ?_, ?_⟩
    · rw [Lists.exec, hrem]
      rfl
    · rw [Call.apply, erase_eq h hl]
      exact hrings
  | popFront l =>
    rw [Lists.exec, Lists.popFront, empty_eq h, (h.ring l).sentinel.1]
    cases hq : q l with
    | nil =>
      refine ⟨s, ?_, ?_⟩
      · rw [Call.returns, hq]
        rfl
      · rw [Call.apply, hq, List.tail_nil, ← hq, Function.update_eq_self]
        exact h
    | cons x xs =>
      obtain ⟨m, hrem, hrings⟩ := remove_rings [] xs h hq
      refine ⟨{ s with mem := m }, ?_, ?_⟩
      · rw [Call.returns, hq, after_cons, List.isEmpty_cons, if_neg (by simp), Lists.removeAt]
        show ((remove s.mem x).bind fun m => _) = _
        rw [hrem]
        rfl
      · rw [Call.apply, hq]
        exact hrings
  | popBack l =>
    rw [Lists.exec, Lists.popBack, empty_eq h, (h.ring l).sentinel.2]
    rcases List.eq_nil_or_concat (q l) with hq | ⟨xs, x, hq⟩
    · refine ⟨s, ?_, ?_⟩
      · rw [Call.returns, hq]
        rfl
      · rw [Call.apply, hq, List.dropLast_nil, ← hq, Function.update_eq_self]
        exact h
    · rw [List.concat_eq_append] at hq
      obtain ⟨m, hrem, hrings⟩ := remove_rings xs [] h hq
      rw [List.append_nil] at hrings
      refine ⟨{ s with mem := m }, ?_, ?_⟩
      · rw [Call.returns, hq, before_concat, List.getLast?_concat, if_neg (by simp), Lists.removeAt]
        show ((remove s.mem x).bind fun m => _) = _
        rw [hrem]
        rfl
      · rw [Call.apply, hq, List.dropLast_concat]
        exact hrings
  | swap l k =>
    refine ⟨s.swap l k, rfl, ?_⟩
    rw [swap_list]
    exact h.comp (Equiv.swap l k)
  | clear l fuel =>
    have hq : q l = [] := hm
    refine ⟨s, ?_, ?_⟩
    · have hnext := (h.ring l).sentinel.1
      rw [hq, after_nil] at hnext
      have hloop : Lists.clearLoop (s.list l) fuel s.mem (some (s.list l)) = some s.mem := by
        cases fuel with
        | zero => rw [Lists.clearLoop, if_pos rfl]
        | succ fuel => rw [Lists.clearLoop, if_pos rfl]
      rw [Lists.exec, Lists.clear, hnext, hloop]
      rfl
    · rw [Call.apply, ← hq, Function.update_eq_self]
      exact h

/-- **A list that is cleared** does not become empty if it was not. -/
theorem not_represents_clear {u : Lists L A} {fuel : ℕ} {r : Option A}
    (h : Rings s.mem s.list q) (hq : q l ≠ []) (hu : s.exec (.clear l fuel) = some (u, r)) :
    ¬Represents u (Call.apply q (.clear l fuel)) := by
  intro hrep
  obtain ⟨v, hv, hvu⟩ := Option.map_eq_some_iff.mp hu
  obtain ⟨m, hm, rfl⟩ := Option.map_eq_some_iff.mp hv
  obtain ⟨rfl, -⟩ := Prod.mk.inj hvu
  have hempty := hrep.empty l
  rw [Call.apply, Function.update_self, Lists.empty] at hempty
  -- The sentinel still points to what was the first element.
  have hwas := empty_eq h l
  rw [Lists.empty, ← clearLoop_sentinel hm, hempty] at hwas
  exact hq (List.isEmpty_iff.mp hwas.symm)

/-! ### Runs -/

theorem rings_of_step {t u : Lists L A × (L → List A)} {c : Call L A}
    (h : Rings t.1.mem t.1.list t.2) (hc : c.Allowed t.1 t.2 ∧ Meets t.2 c)
    (hs : step t c = some u) : Rings u.1.mem u.1.list u.2 := by
  obtain ⟨v, hv, hrings⟩ := exec_rings h hc.1 hc.2
  rw [step, hv] at hs
  obtain rfl := Option.some.inj hs
  exact hrings

/-- **When lists represent sequences**: in a run that only clears empty lists they do, and a call
does to the lists what it does to the sequences if and only if it does not clear a list with
elements either. -/
theorem represents_iff {s : Lists L A} {t : Lists L A × (L → List A)} (hs : s.IsNew)
    (hr : Run.Steps step (fun t c => c.Allowed t.1 t.2 ∧ Meets t.2 c) (s, fun _ => []) t) :
    Represents t.1 t.2 ∧ ∀ c : Call L A, c.Allowed t.1 t.2 →
      ((∃ u, t.1.exec c = some (u, c.returns t.2) ∧ Represents u (c.apply t.2)) ↔
        Meets t.2 c) := by
  have h : Rings t.1.mem t.1.list t.2 := hr.invariant (rings_of_isNew hs)
    fun _ _ _ ht hc hstep => rings_of_step ht hc hstep
  refine ⟨represents_of_rings h, fun c hc => ⟨?_, fun hm => ?_⟩⟩
  · rintro ⟨u, hu, hrep⟩
    cases c with
    | clear l fuel =>
      by_contra hq
      exact not_represents_clear h hq hu hrep
    | _ => exact trivial
  · obtain ⟨u, hu, hrings⟩ := exec_rings h hc hm
    exact ⟨u, hu, represents_of_rings hrings⟩

/-! ### Two lists -/

/-- Two new lists, with the sentinels 0 and 1. -/
def newLists : Lists Bool ℕ where
  mem a := if a < 2 then ⟨some a, some a⟩ else {}
  list b := if b then 1 else 0

theorem isNew_newLists : newLists.IsNew where
  inj b c h := by
    revert b c
    decide
  sentinel := by decide
  outside a ha := by
    have h0 : a ≠ 0 := ha false
    have h1 : a ≠ 1 := ha true
    exact if_neg (by omega)

/-- The node 2 is in no list. -/
theorem outside_two : Outside newLists.list (fun _ => []) 2 := by
  rw [Outside]
  decide

/-- Three nodes are pushed to the first list, and two of them taken out again. The second one,
which is empty, is cleared. -/
theorem represents_pushed : ∃ t : Lists Bool ℕ × (Bool → List ℕ),
    Run.exec step (newLists, fun _ => [])
      [.pushFront false 2, .pushBack false 3, .pushFront false 4,
      .remove 2, .clear true 0, .popBack false] = some t ∧
    t.2 false = [4] ∧ t.2 true = [] ∧ Represents t.1 t.2 := by
  refine ⟨_, rfl, by decide, by decide, (represents_iff isNew_newLists
    (((((((Run.Steps.refl _).tail (a := .pushFront false 2) ⟨outside_two, trivial⟩ rfl).tail
      (a := .pushBack false 3) ⟨?_, trivial⟩ rfl).tail
      (a := .pushFront false 4) ⟨?_, trivial⟩ rfl).tail
      (a := .remove 2) ⟨⟨false, by decide⟩, trivial⟩ rfl).tail
      (a := .clear true 0) ⟨trivial, rfl⟩ rfl).tail
      (a := .popBack false) ⟨trivial, trivial⟩ rfl)).1⟩
  all_goals
    rw [Call.Allowed, Outside]
    decide

/-- A node is pushed to the first list, which is then cleared: the list is not empty. -/
theorem not_represents_cleared : ∃ t v,
    Run.Steps step (fun t c => c.Allowed t.1 t.2) (newLists, fun _ => []) t ∧
      t.1.exec (.clear false 1) = some (v, none) ∧ v.empty false = false ∧
      ¬Represents v (Call.apply t.2 (.clear false 1)) := by
  refine ⟨_, _, (Run.Steps.refl _).tail (a := .pushFront false 2) outside_two rfl, rfl, ?_, ?_⟩
  · decide
  · intro h
    have hempty := h.empty false
    revert hempty
    decide

end LinkedList

end Asyncflow
