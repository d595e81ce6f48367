import Asyncflow.Lib.Checked

/-!
# Arrays with a journal

The journal of an array is the list of what was written to it, newest first, where a *blank*
stands for a write of the same value to every cell. `Asyncflow.Journal.latest` is the value that
the journal gives a cell: that of the last write since the last blank. The array
*shows* its journal (`Asyncflow.Journal.Shows`) if every cell has that value, and the accesses of
`Asyncflow.Checked` keep it so.
-/

namespace Asyncflow

namespace Journal

/-- What is done to an array. -/
inductive Entry (α : Type)
  /-- A cell is written. -/
  | write (i : ℤ) (x : α)
  /-- All cells get the initial value. -/
  | blank

variable {α : Type} {x₀ x : α} {xs ys : List α} {i : ℤ} {l : List (Entry α)}

/-- The value of the last write to a cell since the last blank, and the initial value if there is
none. -/
def latest (x₀ : α) (i : ℤ) : List (Entry α) → α
  | [] => x₀
  | .write j x :: l => if j = i then x else latest x₀ i l
  | .blank :: _ => x₀

/-- The array has the values of the journal. -/
def Shows (x₀ : α) (xs : List α) (l : List (Entry α)) : Prop :=
  ∀ i : ℕ, i < xs.length → xs[i]? = some (latest x₀ i l)

theorem shows_blank (h : ∀ i : ℕ, i < xs.length → xs[i]? = some x₀) : Shows x₀ xs (.blank :: l) := h

/-- A cell is written, and the journal says so. -/
theorem Shows.write (h : Shows x₀ xs l) (hw : Checked.write xs i x = .ok ys) :
    Shows x₀ ys (.write i x :: l) := by
  obtain ⟨⟨h0, hlt⟩, rfl⟩ := Checked.write_eq_ok.mp hw
  intro j hj
  rw [List.length_set] at hj
  rw [latest]
  split_ifs with hij
  · obtain rfl : i.toNat = j := by omega
    rw [List.getElem?_set_self (by omega)]
  · rw [List.getElem?_set_ne (by omega), h j hj]

/-- A cell is read. -/
theorem Shows.read (h : Shows x₀ xs l) (hr : Checked.read xs i = .ok x) : x = latest x₀ i l := by
  obtain ⟨h0, hx⟩ := Checked.read_eq_ok.mp hr
  have hlt : i.toNat < xs.length := (List.getElem?_eq_some_iff.mp hx).1
  have hi : ((i.toNat : ℕ) : ℤ) = i := by omega
  rw [h _ hlt, hi] at hx
  exact (Option.some.inj hx).symm

end Journal

end Asyncflow
