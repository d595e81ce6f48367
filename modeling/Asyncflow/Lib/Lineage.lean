import Mathlib.Data.List.Basic

/-!
# Chains of predecessors

A store of objects in which each object may point to a predecessor, as in a singly
linked list. `Asyncflow.Lineage prev start ds` says that following the pointers from
`start` visits the objects `ds` and then comes to an end.

The chain only depends on the pointers of its own objects, so that storing a new object, or
rewriting another one, keeps it (`Asyncflow.Lineage.congr`).
-/

namespace Asyncflow

variable {ι : Type}

/-- Following `prev` from `start` visits exactly the objects of the list. -/
inductive Lineage (prev : ι → Option ι) : Option ι → List ι → Prop
  | nil : Lineage prev none []
  | cons {d ds} : Lineage prev (prev d) ds → Lineage prev (some d) (d :: ds)

namespace Lineage

variable {prev prev' : ι → Option ι} {start : Option ι} {d : ι} {ds : List ι}

/-- A chain only depends on the pointers of its own objects. -/
theorem congr (h : Lineage prev start ds) (he : ∀ d ∈ ds, prev' d = prev d) :
    Lineage prev' start ds := by
  induction h with
  | nil => exact .nil
  | @cons d ds _ ih =>
    refine .cons ?_
    rw [he d List.mem_cons_self]
    exact ih fun e hmem => he e (List.mem_cons_of_mem d hmem)

/-- The object a chain starts with is the first it visits. -/
theorem mem_start (h : Lineage prev (some d) ds) : d ∈ ds := by
  cases h
  exact List.mem_cons_self

end Lineage

end Asyncflow
