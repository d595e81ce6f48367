import Asyncflow.Moves.CallStack

/-!
# When a flow completes its chart

At its end a flow calls `Chart::Return(true)` on its own initiative if its flag
`has_running_node` is not set and `Chart::CheckRunning` finds no running node. The
nodes an enclosing flow of the same chart is executing or has pending are idle, so
the check does not see them: the return is premature exactly when such a flow is
further down the call stack.
-/

namespace Asyncflow

/-- The call is a function of a node of the chart. -/
def Frame.executes (c : ChartId) : Frame → Prop
  | .func n => n.chart = c
  | _ => False

/-- The call is no flow of the chart, but possibly one that has left its loop and
whose executor has nothing pending. -/
def Frame.Clear (h : Heap) (c : ChartId) : Frame → Prop
  | .flow _ c' _ _ => c' ≠ c
  | .flowReturn k c' => c' = c → h.vacant k
  | _ => True

instance (c : ChartId) : DecidablePred (Frame.executes c) := fun f => by
  apply @Frame.casesOn (fun f => Decidable (f.executes c)) f <;> intros <;>
    unfold Frame.executes <;> infer_instance

/-! ### What the call stack says about the enclosing executors -/

section Nest

variable {h : Heap} {fs : List Frame} {l k i : ℕ} {c : ChartId} {n : NodeRef} {r : Bool}

/-- Below a node function is a flow of its chart. -/
theorem Nest.flow_of_func (hn : Nest h fs l) (hf : .func n ∈ fs) :
    ∃ k i r, .flow k n.chart i r ∈ fs := by
  induction hn with
  | nil => cases hf
  | call hc _ ih =>
    rcases List.mem_cons.mp hf with rfl | hf
    · exact hc.elim
    · obtain ⟨k, i, r, hm⟩ := ih hf
      exact ⟨k, i, r, List.mem_cons_of_mem _ hm⟩
  | func _ _ _ ih =>
    rcases List.mem_cons.mp hf with hf | hf
    · obtain rfl := Frame.func.inj hf
      exact ⟨_, _, _, List.mem_cons_of_mem _ List.mem_cons_self⟩
    · rcases List.mem_cons.mp hf with hf | hf
      · cases hf
      · obtain ⟨k, i, r, hm⟩ := ih hf
        exact ⟨k, i, r, List.mem_cons_of_mem _ (List.mem_cons_of_mem _ hm)⟩
  | flowReturn _ _ ih =>
    rcases List.mem_cons.mp hf with hf | hf
    · cases hf
    · obtain ⟨k, i, r, hm⟩ := ih hf
      exact ⟨k, i, r, List.mem_cons_of_mem _ hm⟩

/-- A suspended flow in its loop is executing a node of its chart. -/
theorem Nest.executes_of_flow (hn : Nest h fs l) (hf : .flow k c i r ∈ fs) :
    ∃ f ∈ fs, f.executes c := by
  induction hn with
  | nil => cases hf
  | call hc _ ih =>
    rcases List.mem_cons.mp hf with rfl | hf
    · exact hc.elim
    · obtain ⟨f, hm, he⟩ := ih hf
      exact ⟨f, List.mem_cons_of_mem _ hm, he⟩
  | func _ _ _ ih =>
    rcases List.mem_cons.mp hf with hf | hf
    · cases hf
    · rcases List.mem_cons.mp hf with hf | hf
      · obtain ⟨-, rfl, -, -⟩ := Frame.flow.inj hf
        exact ⟨_, List.mem_cons_self, rfl⟩
      · obtain ⟨f, hm, he⟩ := ih hf
        exact ⟨f, List.mem_cons_of_mem _ (List.mem_cons_of_mem _ hm), he⟩
  | flowReturn _ _ ih =>
    rcases List.mem_cons.mp hf with hf | hf
    · cases hf
    · obtain ⟨f, hm, he⟩ := ih hf
      exact ⟨f, List.mem_cons_of_mem _ hm, he⟩

/-- A flow in `Chart::Return` uses one of the enclosing executors. -/
theorem Nest.uses_of_flowReturn (hn : Nest h fs l) (hf : .flowReturn k c ∈ fs) :
    0 < k ∧ k ≤ l ∧ h.Uses k c := by
  induction hn with
  | nil => cases hf
  | call hc _ ih =>
    rcases List.mem_cons.mp hf with rfl | hf
    · exact hc.elim
    · exact ih hf
  | func _ _ _ ih =>
    rcases List.mem_cons.mp hf with hf | hf
    · cases hf
    · rcases List.mem_cons.mp hf with hf | hf
      · cases hf
      · obtain ⟨h0, hl, hu⟩ := ih hf
        exact ⟨h0, by omega, hu⟩
  | flowReturn hu _ ih =>
    rcases List.mem_cons.mp hf with hf | hf
    · obtain ⟨rfl, rfl⟩ := Frame.flowReturn.inj hf
      exact ⟨Nat.succ_pos _, Nat.le_refl _, hu⟩
    · obtain ⟨h0, hl, hu⟩ := ih hf
      exact ⟨h0, by omega, hu⟩

/-- Every enclosing executor is used by a flow of the call stack. -/
theorem Nest.flow_of_le (hn : Nest h fs l) (h0 : 0 < k) (hl : k ≤ l) : ∃ c, h.Uses k c ∧
    ((∃ i r, .flow k c i r ∈ fs) ∨ .flowReturn k c ∈ fs) := by
  induction hn with
  | nil => omega
  | call _ _ ih =>
    obtain ⟨c, hu, hf⟩ := ih hl
    refine ⟨c, hu, hf.imp (fun ⟨i, r, hm⟩ => ⟨i, r, ?_⟩) fun hm => ?_⟩
    · exact List.mem_cons_of_mem _ hm
    · exact List.mem_cons_of_mem _ hm
  | @func n l' i r fs hu _ _ ih =>
    rcases Nat.lt_or_ge l' k with hk | hk
    · obtain rfl : k = l' + 1 := by omega
      exact ⟨_, hu, .inl ⟨i, r, List.mem_cons_of_mem _ List.mem_cons_self⟩⟩
    · obtain ⟨c, hu, hf⟩ := ih hk
      refine ⟨c, hu, hf.imp (fun ⟨i, r, hm⟩ => ⟨i, r, ?_⟩) fun hm => ?_⟩
      · exact List.mem_cons_of_mem _ (List.mem_cons_of_mem _ hm)
      · exact List.mem_cons_of_mem _ (List.mem_cons_of_mem _ hm)
  | @flowReturn l' c fs hu _ ih =>
    rcases Nat.lt_or_ge l' k with hk | hk
    · obtain rfl : k = l' + 1 := by omega
      exact ⟨_, hu, .inr List.mem_cons_self⟩
    · obtain ⟨c, hu, hf⟩ := ih hk
      refine ⟨c, hu, hf.imp (fun ⟨i, r, hm⟩ => ⟨i, r, ?_⟩) fun hm => ?_⟩
      · exact List.mem_cons_of_mem _ hm
      · exact List.mem_cons_of_mem _ hm

end Nest

/-! ### Returning on one's own initiative -/

namespace State

variable {cfg : Config} {s t : State} {l : ℕ} {c : ChartId} {r : Bool} {rest : List Frame}

/-- The chart of the flow on the executor at `l` is complete: none of its nodes is
running, and none of the enclosing executors is executing a node of it or has one
pending. -/
def Complete (s : State) (c : ChartId) (l : ℕ) (rest : List Frame) : Prop :=
  (∀ n ∈ s.heap.nodeList c, (s.heap.nodes n).status ≠ .running) ∧
    (∀ f ∈ rest, ¬f.executes c) ∧
    ∀ k < l, 0 < k → ∀ m ∈ (s.heap.stack k).nodeList, m.chart ≠ c

instance : Decidable (s.Complete c l rest) := by
  unfold Complete
  infer_instance

/-- A flow returns its chart only when it sees no running node. -/
theorem check_of_returned (hf : s.frames = .ended l c r :: rest) (ht : s.step cfg .tau = some t)
    (hret : .returned c true ∈ since s t) :
    r = false ∧ s.heap.checkRunning c = false ∧ s.heap.chartRunning c = true := by
  have htu : t = s.flowCheck l c r rest := by
    have hn := (Option.filter_eq_some_iff.mp ht).1
    simp only [next, runTau, hf] at hn
    exact (Option.some.inj hn).symm
  unfold flowCheck at htu
  split at htu
  · rename_i hg
    simpa [and_assoc] using hg
  · have hlog : t.heap.log = [] ++ s.heap.log := by rw [htu]; rfl
    rw [since_of_log hlog] at hret
    cases hret

/-- **When `RunFlow` returns a chart prematurely.** When a flow calls `Chart::Return`
on its own initiative, the chart is complete exactly when no enclosing flow of the
chart is in its loop and none that has left its loop has a node pending. -/
theorem complete_iff (hs : Reachable cfg s) (hf : s.frames = .ended l c r :: rest)
    (ht : s.step cfg .tau = some t) (hret : .returned c true ∈ since s t) :
    s.Complete c l rest ↔ ∀ f ∈ rest, f.Clear s.heap c := by
  obtain ⟨-, hcheck, -⟩ := check_of_returned hf ht hret
  have hst := (shaped_of_reachable hs).stacked
  rw [hf] at hst
  obtain ⟨hl, hl0, -, hn⟩ := hst.ended_inv
  rw [hl] at hl0 hn
  constructor
  · rintro ⟨-, hexec, hpend⟩ f hfm
    cases f with
    | flow k c' i r' =>
      rintro rfl
      obtain ⟨g, hg, he⟩ := hn.executes_of_flow hfm
      exact hexec g hg he
    | flowReturn k c' =>
      rintro rfl
      obtain ⟨h0, hk, hu⟩ := hn.uses_of_flowReturn hfm
      refine List.eq_nil_iff_forall_not_mem.mpr fun m hm => ?_
      exact hpend k (by omega) h0 m hm (hu.nodes m hm)
    | _ => trivial
  · intro hclear
    refine ⟨fun n hn hr => ?_, fun f hfm he => ?_, fun k hk h0 m hm hc => ?_⟩
    · have hany : s.heap.checkRunning c = true := List.any_eq_true.mpr ⟨n, hn, by simpa using hr⟩
      rw [hcheck] at hany
      cases hany
    · cases f with
      | func n =>
        obtain rfl : n.chart = c := he
        obtain ⟨k, i, r', hm⟩ := hn.flow_of_func hfm
        exact hclear _ hm rfl
      | _ => exact he
    · obtain ⟨c', hu, hfl⟩ := hn.flow_of_le h0 (by omega)
      obtain rfl : c' = c := (hu.nodes m hm).symm.trans hc
      rcases hfl with ⟨i, r', hfm⟩ | hfm
      · exact hclear _ hfm rfl
      · have hv : (s.heap.stack k).nodeList = [] := hclear _ hfm rfl
        rw [hv] at hm
        cases hm

/-- A chart of two nodes that runs through. -/
def plainChart : ChartData := { name := "plain", nodes := [{ success := [1] }, {}] }

/-- Its flow is not nested in another one, and returns the chart. -/
theorem complete_plain : ∃ s t rest, Reachable {} s ∧ s.frames = .ended 1 0 false :: rest ∧
    s.step {} .tau = some t ∧ .returned 0 true ∈ since s t ∧ s.Complete 0 1 rest := by
  obtain ⟨s, hs, hf, hret⟩ := exists_of_exec {}
    [.op (.importChart plainChart), .op (.register 0), .op (.attachChart 1 "plain"),
      .op (.startChart 0), .op .step]
    (.timersDone :: List.replicate 9 .tau)
    (fun s => s.frames = [.ended 1 0 false, .handle ⟨0, 1, 1, false, 0⟩,
        .deleteEvent ⟨0, 1, 1, false, 0⟩, .events] ∧
      (s.step {} .tau).any (fun t => .returned 0 true ∈ since s t) = true) (by decide +kernel)
  obtain ⟨t, ht, hret⟩ := (Option.any_eq_true _ _).mp hret
  have hret : .returned 0 true ∈ since s t := by simpa using hret
  exact ⟨s, t, _, hs, hf, ht, hret, (complete_iff hs hf ht hret).mpr (by simp [Frame.Clear])⟩

/-- A chart whose third node triggers the event its second node waits for. -/
def triggeringChart : ChartData :=
  { name := "triggering", nodes := [{ success := [1, 2] }, { func := .script, isEvent := true },
    { func := .script, success := [3] }, { func := .script }] }

/-- **A premature return**: the third node triggers the event, and the flow of the second
node returns the chart while the third is being executed. -/
theorem not_complete_triggering : ∃ s t rest, Reachable {} s ∧
    s.frames = .ended 2 0 false :: rest ∧ s.step {} .tau = some t ∧ .returned 0 true ∈ since s t ∧
    .func ⟨0, 2⟩ ∈ rest ∧ ¬s.Complete 0 2 rest := by
  obtain ⟨s, hs, hf, hret⟩ := exists_of_exec {}
    [.op (.importChart triggeringChart), .op (.register 0), .op (.attachChart 1 "triggering"),
      .op (.startChart 0), .op .step, .timersDone, .op (.waitEvent 1 0), .ret .rTrue]
    (.op (.event 0 1 false true) :: List.replicate 5 .tau)
    (fun s => s.frames = .ended 2 0 false :: s.frames.tail ∧ .func ⟨0, 2⟩ ∈ s.frames.tail ∧
      (s.step {} .tau).any (fun t => .returned 0 true ∈ since s t) = true) (by decide +kernel)
  obtain ⟨hexec, hret⟩ := hret
  obtain ⟨t, ht, hret⟩ := (Option.any_eq_true _ _).mp hret
  refine ⟨s, t, _, hs, hf, ht, by simpa using hret, hexec, fun hc => ?_⟩
  exact hc.2.1 _ hexec rfl

end State

end Asyncflow
