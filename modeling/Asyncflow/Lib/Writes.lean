import Mathlib.Data.List.Basic
import Mathlib.Order.Basic

/-!
# Writes to the positions of a list

A list of writes (`Asyncflow.applyWrites`), each of which changes one position, does to a
position what its writes there do, one after the other (`Asyncflow.writesAt`). So questions about
the list are questions about its positions: whether the writes change it
(`Asyncflow.applyWrites_eq_self_iff`), and whether a second time changes it
(`Asyncflow.applyWrites_twice_iff`).
-/

namespace Asyncflow

variable {α : Type} {ws vs : List (ℕ × (α → α))} {l : List α} {i : ℕ}

/-- The writes, one after the other. -/
def applyWrites (l : List α) (ws : List (ℕ × (α → α))) : List α :=
  ws.foldl (fun l w => l.modify w.1 w.2) l

/-- What the writes do to a position. -/
def writesAt (ws : List (ℕ × (α → α))) (i : ℕ) (a : α) : α :=
  ws.foldl (fun a w => if w.1 = i then w.2 a else a) a

@[simp]
theorem applyWrites_nil (l : List α) : applyWrites l [] = l := rfl

theorem applyWrites_cons (w : ℕ × (α → α)) : applyWrites l (w :: ws) =
    applyWrites (l.modify w.1 w.2) ws := rfl

theorem applyWrites_append : applyWrites l (ws ++ vs) = applyWrites (applyWrites l ws) vs :=
  List.foldl_append

@[simp]
theorem writesAt_nil (i : ℕ) (a : α) : writesAt [] i a = a := rfl

theorem writesAt_cons (w : ℕ × (α → α)) (i : ℕ) (a : α) :
    writesAt (w :: ws) i a = writesAt ws i (if w.1 = i then w.2 a else a) := rfl

theorem writesAt_append (i : ℕ) (a : α) :
    writesAt (ws ++ vs) i a = writesAt vs i (writesAt ws i a) :=
  List.foldl_append

/-- **A position of the list.** -/
theorem getElem?_applyWrites (ws : List (ℕ × (α → α))) (l : List α) (i : ℕ) :
    (applyWrites l ws)[i]? = l[i]?.map (writesAt ws i) := by
  induction ws generalizing l with
  | nil =>
    rw [applyWrites_nil]
    exact Option.map_id'.symm
  | cons w ws ih =>
    rw [applyWrites_cons, ih, List.getElem?_modify, Option.map_eq_map,
      Option.map_map]
    congr 1

@[simp]
theorem length_applyWrites (ws : List (ℕ × (α → α))) (l : List α) :
    (applyWrites l ws).length = l.length := by
  induction ws generalizing l with
  | nil => rfl
  | cons w ws ih => rw [applyWrites_cons, ih, List.length_modify]

/-- What none of the writes changes is kept. -/
theorem map_applyWrites {β : Type} {f : α → β} (h : ∀ w ∈ ws, ∀ a, f (w.2 a) = f a) (l : List α) :
    (applyWrites l ws).map f = l.map f := by
  induction ws generalizing l with
  | nil => rfl
  | cons w ws ih =>
    rw [applyWrites_cons, ih fun v hv => h v (List.mem_cons_of_mem w hv)]
    apply List.ext_getElem?
    intro i
    rw [List.getElem?_map, List.getElem?_map, List.getElem?_modify, Option.map_eq_map,
      Option.map_map]
    congr 1
    funext a
    rw [Function.comp_apply]
    split_ifs
    · exact h w List.mem_cons_self a
    · rfl

/-- **The writes change nothing.** -/
theorem applyWrites_eq_self_iff :
    applyWrites l ws = l ↔ ∀ i a, l[i]? = some a → writesAt ws i a = a := by
  constructor
  · intro h i a ha
    have hi := getElem?_applyWrites ws l i
    rw [h, ha] at hi
    exact (Option.some.inj hi).symm
  · intro h
    apply List.ext_getElem?
    intro i
    rw [getElem?_applyWrites]
    cases ha : l[i]? with
    | none => rfl
    | some a => rw [Option.map_some, h i a ha]

/-- **The writes change nothing any more** when they are applied again. -/
theorem applyWrites_twice_iff : applyWrites (applyWrites l ws) ws = applyWrites l ws ↔
    ∀ i a, l[i]? = some a → writesAt ws i (writesAt ws i a) = writesAt ws i a := by
  rw [applyWrites_eq_self_iff]
  constructor
  · intro h i a ha
    exact h i _ (by rw [getElem?_applyWrites, ha]; rfl)
  · intro h i b hb
    rw [getElem?_applyWrites] at hb
    obtain ⟨a, ha, rfl⟩ := Option.map_eq_some_iff.mp hb
    exact h i a ha

end Asyncflow
