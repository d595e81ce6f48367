import Asyncflow.Core.Data
import Asyncflow.Lib.History

/-!
# When a wait_all node fires

`NodeWaitAll` keeps a mark for each of the ids it waits for. What the marks stand for is a
matter of the calls so far: `Asyncflow.NodeWaitAll.Arrived` says that an id has been an argument
of `Run` after the last call that fired and the last `Stop`, and `Asyncflow.NodeWaitAll.Marks`
that exactly these ids are marked.
-/

namespace Asyncflow

namespace NodeWaitAll

/-- A call after `Init`. -/
inductive Call
  /-- `NodeWaitAll::Run`. -/
  | run (id : ℤ)
  /-- `NodeWaitAll::Stop`. -/
  | stop
deriving DecidableEq, Repr

/-- A call that has been made, with what it has returned. -/
inductive Entry
  | run (id : ℤ) (fired : Bool)
  | stop
deriving DecidableEq, Repr

end NodeWaitAll

/-- A `NodeWaitAll`, with the calls that have been made, newest first. -/
structure NodeWaitAll where
  /-- `node_ids_`. -/
  nodeIds : List (ℤ × Bool)
  history : List NodeWaitAll.Entry := []

namespace NodeWaitAll

/-- After `Init`. -/
def init (args : List ℤ) : NodeWaitAll := { nodeIds := waitAllInit args }

/-- After one more call. -/
def call (w : NodeWaitAll) : Call → NodeWaitAll
  | .run id => ⟨(waitAllRun w.nodeIds id).2, .run id (waitAllRun w.nodeIds id).1 :: w.history⟩
  | .stop => ⟨waitAllReset w.nodeIds, .stop :: w.history⟩

/-- The call takes all marks away. -/
def Entry.resets : Entry → Prop
  | .run _ fired => fired = true
  | .stop => True

/-- **The id has occurred** since the last call that fired, the last `Stop` or `Init`. -/
def Arrived (history : List Entry) (id : ℤ) : Prop :=
  History.Since (· = .run id false) Entry.resets history

theorem arrived_cons_run (history : List Entry) (id i : ℤ) :
    Arrived (.run id false :: history) i ↔ i = id ∨ Arrived history i := by
  rw [Arrived, History.since_cons]
  refine or_congr ⟨fun h => (Entry.run.inj h).1.symm, ?_⟩ ?_
  · rintro rfl
    rfl
  · exact ⟨fun h => h.2, fun h => ⟨Bool.false_ne_true, h⟩⟩

/-- After a call that resets nothing has arrived. -/
theorem not_arrived_cons {e : Entry} (he : e.resets) (history : List Entry) (i : ℤ) :
    ¬Arrived (e :: history) i := by
  rintro (rfl | ⟨h, -⟩)
  · exact Bool.false_ne_true he
  · exact h he

/-! ### The marks -/

/-- **The marks are the arrivals.** -/
structure Marks (args : List ℤ) (w : NodeWaitAll) : Prop where
  mem_iff : ∀ id, id ∈ w.nodeIds.map Prod.fst ↔ id ∈ args
  marked_iff : ∀ p ∈ w.nodeIds, p.2 = true ↔ Arrived w.history p.1

variable {args : List ℤ} {w : NodeWaitAll} {id i : ℤ} {ids : List (ℤ × Bool)}
  {history : List Entry}

theorem any_iff : ids.any (·.1 == id) = true ↔ id ∈ ids.map Prod.fst := by
  simp only [List.any_eq_true, beq_iff_eq, List.mem_map]

/-- No id has arrived yet. -/
theorem marks_init (args : List ℤ) : (init args).Marks args := by
  have hloop : ∀ (args : List ℤ) (ids : List (ℤ × Bool)), (∀ p ∈ ids, p.2 = false) →
      (∀ id, id ∈ (args.foldl (fun ids id =>
        if ids.any (·.1 == id) then ids else ids ++ [(id, false)]) ids).map Prod.fst ↔
          id ∈ ids.map Prod.fst ∨ id ∈ args) ∧
      ∀ p ∈ args.foldl (fun ids id =>
        if ids.any (·.1 == id) then ids else ids ++ [(id, false)]) ids, p.2 = false := by
    intro args
    induction args with
    | nil => exact fun ids hids => ⟨fun id => by simp, hids⟩
    | cons a args ih =>
      intro ids hids
      rw [List.foldl_cons]
      split
      · rename_i ha
        obtain ⟨hmem, hfalse⟩ := ih ids hids
        refine ⟨fun id => ?_, hfalse⟩
        rw [hmem, List.mem_cons]
        constructor
        · rintro (h | h)
          exacts [.inl h, .inr (.inr h)]
        · rintro (h | rfl | h)
          exacts [.inl h, .inl (any_iff.mp ha), .inr h]
      · obtain ⟨hmem, hfalse⟩ := ih (ids ++ [(a, false)]) (by
          intro p hp
          rcases List.mem_append.mp hp with hp | hp
          · exact hids p hp
          · rw [List.mem_singleton.mp hp])
        refine ⟨fun id => ?_, hfalse⟩
        rw [hmem, List.map_append, List.mem_append, List.mem_cons, or_assoc]
        simp
  obtain ⟨hmem, hfalse⟩ := hloop args [] (by simp)
  refine ⟨fun id => (hmem id).trans (by simp), fun p hp => ?_⟩
  rw [hfalse p hp]
  exact iff_of_false Bool.false_ne_true fun h => h

/-- The reset takes every mark away. -/
theorem Marks.reset {e : Entry} (hw : w.Marks args)
    (hids : ids.map Prod.fst = w.nodeIds.map Prod.fst) (he : e.resets) :
    Marks args ⟨waitAllReset ids, e :: history⟩ where
  mem_iff id := by
    have hfst : (waitAllReset ids).map Prod.fst = ids.map Prod.fst := by
      rw [waitAllReset, List.map_map]
      rfl
    rw [hfst, hids]
    exact hw.mem_iff id
  marked_iff p hp := by
    obtain ⟨q, -, rfl⟩ := List.mem_map.mp hp
    exact iff_of_false Bool.false_ne_true (not_arrived_cons he history q.1)

/-- The marks that `Run` looks at. -/
theorem marked_iff_of_marks (hw : w.Marks args) (p : ℤ × Bool)
    (hp : p ∈ w.nodeIds.map fun p => if p.1 = id then (p.1, true) else p) :
    p.2 = true ↔ p.1 = id ∨ Arrived w.history p.1 := by
  obtain ⟨q, hq, rfl⟩ := List.mem_map.mp hp
  split
  · rename_i heq
    exact iff_of_true rfl (.inl heq)
  · rename_i hne
    rw [hw.marked_iff q hq]
    exact ⟨.inr, fun h => h.resolve_left hne⟩

theorem map_fst_mark (ids : List (ℤ × Bool)) (id : ℤ) :
    (ids.map fun p => if p.1 = id then (p.1, true) else p).map Prod.fst = ids.map Prod.fst := by
  rw [List.map_map]
  refine List.map_congr_left fun p _ => ?_
  rw [Function.comp_apply]
  split <;> rfl

/-- When all ids are marked. -/
theorem all_marked_iff (hw : w.Marks args) :
    (w.nodeIds.map fun p => if p.1 = id then (p.1, true) else p).all (·.2) = true ↔
      ∀ i ∈ args, i = id ∨ Arrived w.history i := by
  rw [List.all_eq_true]
  constructor
  · intro h i hi
    rw [← hw.mem_iff, ← map_fst_mark _ id] at hi
    obtain ⟨p, hp, rfl⟩ := List.mem_map.mp hi
    exact (marked_iff_of_marks hw p hp).mp (h p hp)
  · intro h p hp
    refine (marked_iff_of_marks hw p hp).mpr (h p.1 ?_)
    rw [← hw.mem_iff, ← map_fst_mark _ id]
    exact List.mem_map_of_mem hp

/-- **What `Run` returns and writes**, when the marks are the arrivals. -/
theorem waitAllRun_eq (hw : w.Marks args) (id : ℤ) :
    ((waitAllRun w.nodeIds id).1 = true ↔
      id ∈ args ∧ ∀ i ∈ args, i = id ∨ Arrived w.history i) ∧
      (id ∉ args → waitAllRun w.nodeIds id = (false, w.nodeIds)) := by
  have hmem : w.nodeIds.any (·.1 == id) = true ↔ id ∈ args := any_iff.trans (hw.mem_iff id)
  rw [waitAllRun]
  by_cases hid : id ∈ args
  · rw [if_pos (hmem.mpr hid)]
    refine ⟨?_, fun hno => absurd hid hno⟩
    rw [← all_marked_iff hw]
    dsimp only
    split
    · rename_i hall
      exact iff_of_true rfl ⟨hid, hall⟩
    · rename_i hall
      exact iff_of_false Bool.false_ne_true fun h => hall h.2
  · rw [if_neg fun h => hid (hmem.mp h)]
    exact ⟨iff_of_false Bool.false_ne_true fun h => hid h.1, fun _ => rfl⟩

/-- One call keeps the marks. -/
theorem Marks.call (hw : w.Marks args) (c : Call) : (w.call c).Marks args := by
  cases c with
  | stop => exact hw.reset rfl trivial
  | run id =>
    have hmem : w.nodeIds.any (·.1 == id) = true ↔ id ∈ args := any_iff.trans (hw.mem_iff id)
    show Marks args ⟨(waitAllRun w.nodeIds id).2, .run id (waitAllRun w.nodeIds id).1 :: w.history⟩
    rw [waitAllRun]
    split
    · rename_i hany
      dsimp only
      split
      · -- The call fires.
        exact hw.reset (map_fst_mark ..) rfl
      · refine ⟨fun i => ?_, fun p hp => ?_⟩
        · rw [map_fst_mark]
          exact hw.mem_iff i
        · exact (marked_iff_of_marks hw p hp).trans (arrived_cons_run w.history id p.1).symm
    · rename_i hany
      have hid : id ∉ args := fun hid => hany (hmem.mpr hid)
      refine ⟨hw.mem_iff, fun p hp => ?_⟩
      -- The call is about no id that is waited for.
      have hp' : p.1 ∈ args := (hw.mem_iff p.1).mp (List.mem_map_of_mem hp)
      have hne : p.1 ≠ id := fun h => hid (h ▸ hp')
      refine (hw.marked_iff p hp).trans ?_
      rw [arrived_cons_run]
      exact ⟨.inr, fun h => h.resolve_left hne⟩

/-- After any calls the marks are the arrivals. -/
theorem marks_calls (args : List ℤ) (cs : List Call) :
    (cs.foldl NodeWaitAll.call (init args)).Marks args := by
  have hrun : ∀ (cs : List Call) (w : NodeWaitAll), w.Marks args →
      (cs.foldl NodeWaitAll.call w).Marks args := by
    intro cs
    induction cs with
    | nil => exact fun _ hw => hw
    | cons c cs ih => exact fun w hw => ih _ (hw.call c)
  exact hrun cs _ (marks_init args)

/-- **The law of wait_all**: after `Init` and any calls, `Run` fires if and only if the id is
waited for and every id that is waited for has now occurred since the last call that fired, the
last `Stop` or `Init`. For another id nothing changes. -/
theorem run_fires_iff (args : List ℤ) (cs : List Call) (id : ℤ) :
    ((waitAllRun (cs.foldl NodeWaitAll.call (init args)).nodeIds id).1 = true ↔
      id ∈ args ∧ ∀ i ∈ args, i = id ∨
        Arrived (cs.foldl NodeWaitAll.call (init args)).history i) ∧
      (id ∉ args → waitAllRun (cs.foldl NodeWaitAll.call (init args)).nodeIds id =
        (false, (cs.foldl NodeWaitAll.call (init args)).nodeIds)) :=
  waitAllRun_eq (marks_calls args cs) id

end NodeWaitAll

end Asyncflow
