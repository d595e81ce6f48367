import Asyncflow.Moves.Replay

/-!
# The outcome of a suspended node

A node suspended by a subchart or an async context is resolved with a value, by
`Chart::Return` or by `ContinueAsyncNode`. The successors it goes on with are those
of its field `result_`, and between the resolution and `AddSubsequenceNodes` the
field may be written once more: by `Node::Run`, with the value of the node function,
when the function has not returned yet.
-/

namespace Asyncflow

/-- The suspension of the node is resolved with a value. -/
def Obs.resolves (n : NodeRef) (b : Bool) : Obs → Prop
  | .owner m _ b' | .continued m b' => m = n ∧ b' = b
  | _ => False

/-- The entries that come with another result of the node, except for the return of
its function. -/
def Obs.rewrites (n : NodeRef) : Obs → Prop
  | .run m | .stop m _ | .await m | .timer m | .fire m | .arrive m _ _ | .owner m _ _
  | .continued m _ | .cancelled m _ | .resume m _ => m = n
  | .started c => n = ⟨c, 0⟩
  | .created c => n.chart = c
  | _ => False

instance (n : NodeRef) (b : Bool) : DecidablePred (Obs.resolves n b) := fun o => by
  apply @Obs.casesOn (fun o => Decidable (o.resolves n b)) o <;> intros <;>
    unfold Obs.resolves <;> infer_instance

instance (n : NodeRef) : DecidablePred (Obs.rewrites n) := fun o => by
  apply @Obs.casesOn (fun o => Decidable (o.rewrites n)) o <;> intros <;>
    unfold Obs.rewrites <;> infer_instance

/-- The value the function of the node returned. -/
def Obs.returned? (n : NodeRef) : Obs → Option NodeResult
  | .ret m r => if m = n then some r else none
  | _ => none

/-- The values the function of the node returned, newest first. -/
def returns (n : NodeRef) (log : List Obs) : List NodeResult := log.filterMap (Obs.returned? n)

/-- The result after some returns: a result `rSTOP` stays. -/
def resultAfter (r : NodeResult) (rs : List NodeResult) : NodeResult :=
  rs.foldr (fun x r => if r = .rStop then .rStop else x) r

theorem resultAfter_append (r : NodeResult) (rs rs' : List NodeResult) :
    resultAfter r (rs' ++ rs) = resultAfter (resultAfter r rs) rs' := List.foldr_append

theorem resultAfter_eq_rStop_iff {r : NodeResult} (hr : r ≠ .rStop) (rs : List NodeResult) :
    resultAfter r rs = .rStop ↔ .rStop ∈ rs := by
  induction rs with
  | nil => simp [resultAfter, hr]
  | cons x rs ih =>
    have hx : resultAfter r (x :: rs) = if resultAfter r rs = .rStop then .rStop else x := rfl
    rw [hx, List.mem_cons, ← ih]
    split <;> simp_all [eq_comm]

/-- The value that counts among some returns: a `rSTOP`, else the newest. -/
def lastReturn (rs : List NodeResult) : Option NodeResult :=
  if .rStop ∈ rs then some .rStop else rs.head?

/-- The result is that of the last return, if there is one. -/
theorem resultAfter_eq {r : NodeResult} (hr : r ≠ .rStop) (rs : List NodeResult) :
    resultAfter r rs = (lastReturn rs).getD r := by
  unfold lastReturn
  by_cases hs : .rStop ∈ rs
  · rw [if_pos hs]
    exact (resultAfter_eq_rStop_iff hr rs).mpr hs
  · rw [if_neg hs]
    rcases rs with _ | ⟨x, rs⟩
    · rfl
    · have hx : resultAfter r (x :: rs) = if resultAfter r rs = .rStop then .rStop else x := rfl
      rw [hx, if_neg]
      · rfl
      · rw [resultAfter_eq_rStop_iff hr]
        exact fun h => hs (List.mem_cons_of_mem x h)

variable {n : NodeRef} {o : Obs} {new : List Obs}

/-- An entry that does not rewrite the result. -/
theorem result_replay (ho : ¬o.rewrites n) (d : Digest) :
    (o.replay n d).result = resultAfter d.result (returns n [o]) := by
  by_cases ha : o.about n
  · rw [Obs.replay_of_about ha]
    cases o with
    | ret m r =>
      obtain rfl : m = n := ha
      rw [Obs.effect_ret]
      simp only [returns, Obs.returned?, List.filterMap_cons, ↓reduceIte, List.filterMap_nil,
        resultAfter, List.foldr_cons, List.foldr_nil]
      split <;> simp_all
    | destroyed c m =>
      unfold Obs.effect
      dsimp only
      split <;> rfl
    | _ => first | rfl | exact absurd ha ho
  · rw [Obs.replay_of_not_about ha]
    cases o with
    | ret m r =>
      have hm : ¬m = n := ha
      simp [returns, Obs.returned?, hm, resultAfter]
    | _ => rfl

theorem result_foldr (hnew : ∀ o ∈ new, ¬o.rewrites n) (d : Digest) :
    (new.foldr (Obs.replay n) d).result = resultAfter d.result (returns n new) := by
  induction new with
  | nil => rfl
  | cons o new ih =>
    have hcons : returns n (o :: new) = returns n [o] ++ returns n new := by
      rw [returns, returns, returns, ← List.filterMap_append, List.singleton_append]
    rw [List.foldr_cons, result_replay (hnew o (by simp)), ih fun x hx => hnew x (by simp [hx]),
      hcons, resultAfter_append]

/-! ### The successors -/

/-- An edge is followed. -/
def Obs.isEdge : Obs → Bool
  | .edge _ _ => true
  | _ => false

namespace Heap

variable {h h' g : Heap}

/-- The edges of an outcome, the first successor on top. -/
def follows (h : Heap) (n : NodeRef) (r : NodeResult) : List Obs :=
  if r = .rStop then []
  else (((h.nodeData n).subsequenceIds (r = .rTrue)).filter (· < h.nodesCount n.chart)).map
    fun i => .edge n ⟨n.chart, i⟩

/-- The entries made between two states follow exactly the given edges. -/
def Follows (es : List Obs) (h h' : Heap) : Prop :=
  ∃ new, h'.log = new ++ h.log ∧ new.filter (·.isEdge) = es

theorem Follows.trans {es es' : List Obs} (hf : Follows es h g) (hf' : Follows es' g h') :
    Follows (es' ++ es) h h' := by
  obtain ⟨new, hl, rfl⟩ := hf
  obtain ⟨new', hl', rfl⟩ := hf'
  exact ⟨new' ++ new, by rw [hl', hl, List.append_assoc], List.filter_append ..⟩

theorem follows_push (h : Heap) (c : Container) (n : NodeRef) : Follows [] h (h.push c n) := by
  rcases log_push h n c with hl | hl
  · exact ⟨[], hl, rfl⟩
  · exact ⟨[.misplaced n], hl, rfl⟩

theorem follows_addChild (h : Heap) (l : ℕ) (n : NodeRef) (i : ℕ) :
    Follows (if i < h.nodesCount n.chart then [.edge n ⟨n.chart, i⟩] else []) h
      (h.addChild l n i) := by
  unfold addChild
  split
  · have he : Follows [.edge n ⟨n.chart, i⟩] h
        (h.act ⟨n.chart, i⟩ ({ · with preNodeId := n.id }) (.edge n ⟨n.chart, i⟩)) :=
      ⟨[.edge n ⟨n.chart, i⟩], rfl, rfl⟩
    exact he.trans (follows_push _ (.executor l) _)
  · exact ⟨[], rfl, rfl⟩

theorem charts_addChild (h : Heap) (l : ℕ) (n : NodeRef) (i : ℕ) :
    (h.addChild l n i).charts = h.charts := by
  unfold addChild
  split
  · exact charts_push ..
  · rfl

theorem nodesCount_congr (hc : h'.charts = h.charts) (c : ChartId) :
    h'.nodesCount c = h.nodesCount c := by
  rw [nodesCount, hc, nodesCount]

theorem nodeData_congr (hc : h'.charts = h.charts) (hd : h'.chartData = h.chartData) (n : NodeRef) :
    h'.nodeData n = h.nodeData n := by
  rw [nodeData, dataOf, hc, hd, nodeData, dataOf]

/-- The children are pushed from right to left. -/
theorem follows_children (h : Heap) (l : ℕ) (n : NodeRef) (ids : List ℕ) :
    Follows ((ids.filter (· < h.nodesCount n.chart)).map fun i => .edge n ⟨n.chart, i⟩) h
        (ids.reverse.foldl (fun h i => h.addChild l n i) h) ∧
      (ids.reverse.foldl (fun h i => h.addChild l n i) h).charts = h.charts := by
  induction ids with
  | nil => exact ⟨⟨[], rfl, rfl⟩, rfl⟩
  | cons i ids ih =>
    obtain ⟨hf, hc⟩ := ih
    rw [List.reverse_cons, List.foldl_append]
    refine ⟨?_, (charts_addChild ..).trans hc⟩
    have hi := hf.trans (follows_addChild _ l n i)
    rw [nodesCount_congr hc] at hi
    rw [List.filter_cons]
    by_cases hlt : i < h.nodesCount n.chart
    · simpa [hlt] using hi
    · simpa [hlt] using hi

/-- **`AddSubsequenceNodes`** follows the edges of the result it reads. -/
theorem follows_addSubsequenceNodes (h : Heap) (l : ℕ) (n : NodeRef) :
    ∃ pushed, (h.addSubsequenceNodes l n).log =
        pushed ++ .succ n (h.nodes n).result :: h.log ∧
      pushed.filter (·.isEdge) = h.follows n (h.nodes n).result := by
  unfold addSubsequenceNodes follows
  dsimp only
  split
  · exact ⟨[], rfl, rfl⟩
  · exact (follows_children (h.act n _ _) l n _).1

theorem log_popHeld (h : Heap) (l : ℕ) (n : NodeRef) : (h.popHeld l n).log = h.log := by
  unfold popHeld pop
  split
  · split
    · rfl
    · dsimp only
      split <;> rfl
  · rfl

theorem charts_popHeld (h : Heap) (l : ℕ) (n : NodeRef) : (h.popHeld l n).charts = h.charts := by
  unfold popHeld pop
  split
  · split
    · rfl
    · dsimp only
      split <;> rfl
  · rfl

theorem chartData_popHeld (h : Heap) (l : ℕ) (n : NodeRef) :
    (h.popHeld l n).chartData = h.chartData := by
  unfold popHeld pop
  split
  · split
    · rfl
    · dsimp only
      split <;> rfl
  · rfl

theorem digest_popHeld (h : Heap) (l : ℕ) (n m : NodeRef) :
    ((h.popHeld l n).nodes m).digest = (h.nodes m).digest := by
  unfold popHeld pop
  split
  · split
    · rfl
    · dsimp only
      split
      · exact field_setNode (h.setExecutor l _) _ m Node.digest fun _ => rfl
      · rfl
  · rfl

/-- The end of a round whose node is not running. -/
theorem follows_finishNode (l : ℕ) (hst : (h.nodes n).status ≠ .running) :
    ∃ pushed, (h.finishNode l n).log = pushed ++ .succ n (h.nodes n).result :: h.log ∧
      pushed.filter (·.isEdge) = h.follows n (h.nodes n).result := by
  have hd := digest_popHeld h l n n
  have hs : ((h.popHeld l n).nodes n).status = (h.nodes n).status := congrArg Digest.status hd
  have hr : ((h.popHeld l n).nodes n).result = (h.nodes n).result := congrArg Digest.result hd
  have hf := follows_addSubsequenceNodes (h.popHeld l n) l n
  rw [log_popHeld, hr, follows, nodeData_congr (charts_popHeld ..) (chartData_popHeld ..),
    nodesCount_congr (charts_popHeld ..)] at hf
  unfold finishNode
  dsimp only
  rw [hs, if_neg hst]
  exact hf

end Heap

/-! ### From the resolution to the successors -/

namespace State

variable {cfg : Config} {s t u : State} {a : Act} {b : Bool}

/-- A step that leaves the result of the node alone, except for the return of its
function: in particular the node is not stopped but by `AsyncManager::Step`, which
keeps its result. -/
def Undisturbed (cfg : Config) (n : NodeRef) (s : State) (a : Act) : Prop :=
  ∀ t ∈ s.step cfg a, (∀ o ∈ since s t, ¬o.rewrites n) ∨
    (s.frames.head? = some .async ∧ s.heap.activated.head? = some n)

instance (n : NodeRef) : Decidable (s.Undisturbed cfg n a) := by
  unfold Undisturbed
  infer_instance

theorem returns_append (new log : List Obs) :
    returns n (new ++ log) = returns n new ++ returns n log :=
  List.filterMap_append

/-- `AsyncManager::Step` keeps the result of the node it takes. -/
theorem result_resumeNode (h : Heap) (n : NodeRef) (ns : List NodeRef) :
    ((h.resumeNode n ns).nodes n).result = (h.nodes n).result ∧
      Heap.Adds (fun o => o.returned? n = none) h (h.resumeNode n ns) := by
  constructor
  · simp [Heap.resumeNode, Heap.removeNode]
  · let P : Obs → Prop := fun o => o.returned? n = none
    have hs : Heap.Adds P (h.takeActivated n ns) ((h.takeActivated n ns).stop n) :=
      Heap.adds_stop (fun o ho => by cases o <;> first | rfl | exact ho.elim) _ n
    have ha : ∀ (g : Heap) f r, Heap.Adds P g (g.act n f (.resume n r)) :=
      fun g _ _ => Heap.adds_of_cons (P := P) rfl rfl
    have hr : ∀ g : Heap, Heap.Adds P g (g.removeNode n) :=
      fun g => Heap.adds_remove (P := P) rfl g .asyncWaiting
    exact (hs.trans (ha ..)).trans (hr _)

theorem result_of_step (hw : s.Wf) (ht : s.step cfg a = some t) (hk : s.Undisturbed cfg n a) :
    (t.heap.nodes n).result = resultAfter (s.heap.nodes n).result (returns n (since s t)) := by
  rcases hk t ht with hnew | ⟨hf, hact⟩
  · have hd : Heap.Does (fun _ => True) (fun _ => True) (fun _ => False) s.heap t.heap :=
      does_of_step (fun _ _ => trivial) hw ht fun _ _ => trivial
    obtain ⟨new, hlog, hdig⟩ := Heap.tells_of_does hd
    rw [since_of_log hlog] at hnew ⊢
    have hr := congrArg Digest.result (hdig n).1
    rw [result_foldr hnew] at hr
    exact hr
  · obtain ⟨rest, hf⟩ : ∃ rest, s.frames = .async :: rest := by
      cases hs : s.frames <;> simp_all
    obtain ⟨ns, hact⟩ : ∃ ns, s.heap.activated = n :: ns := by
      cases hs : s.heap.activated <;> simp_all
    obtain rfl := async_of_step hf ht
    have hh : (s.asyncRound rest).heap = s.heap.resumeNode n ns := by
      simp only [asyncRound, hact]
      rfl
    obtain ⟨hr, new, hlog, hnew⟩ := result_resumeNode s.heap n ns
    rw [since_of_log (hh ▸ hlog), hh, hr, returns, List.filterMap_eq_nil_iff.mpr hnew]
    rfl

/-- **Only the returns of its function** change the result of an undisturbed node. -/
theorem result_of_steps (hw : s.Wf) (h : Run.Steps (step cfg) (Undisturbed cfg n) s t) :
    (t.heap.nodes n).result = resultAfter (s.heap.nodes n).result (returns n (since s t)) := by
  induction h with
  | refl => simp [since, returns, resultAfter]
  | tail h hk hs ih =>
    rw [since_tail hw h hs, returns_append, resultAfter_append, ← ih]
    exact result_of_step (wf_of_steps hw h) hs hk

theorem result_of_resolves (hs : Reachable cfg s) (hhead : s.heap.log.head? = some o)
    (ho : o.resolves n b) : (s.heap.nodes n).result = .ofBool b := by
  have hd := congrArg Digest.result ((told_of_reachable hs).digest n)
  obtain ⟨l, hl⟩ : ∃ l, s.heap.log = o :: l := by
    cases hlog : s.heap.log <;> simp_all
  rw [hl, digestOf_cons] at hd
  cases o with
  | owner m c b' | continued m b' =>
    obtain ⟨rfl, rfl⟩ := ho
    rw [Obs.replay_of_about (by exact rfl)] at hd
    exact hd
  | _ => exact ho.elim

/-- **When a node goes on with the outcome of its resolution.** The node was resolved
with `b` in the first state, nothing but the return of its function has written its
result since, and now it is no longer running and the edges of its outcome are
followed. They are the edges of the outcome `b` exactly when the function has not
returned since, or has returned a value with the same edges. -/
theorem outcome_iff (hs : Reachable cfg s) (hhead : s.heap.log.head? = some o)
    (ho : o.resolves n b) (hu : Run.Steps (step cfg) (Undisturbed cfg n) s u) {l k : ℕ}
    {c : ChartId} {r : Bool} {rest : List Frame} (hf : u.frames = .ran n :: .flow l c k r :: rest)
    (hst : (u.heap.nodes n).status ≠ .running) (ht : u.step cfg .tau = some t) :
    ∃ res pushed, t.heap.log = pushed ++ .succ n res :: u.heap.log ∧
      pushed.filter (·.isEdge) = u.heap.follows n res ∧
      (res = .ofBool b ↔ ∀ x ∈ lastReturn (returns n (since s u)), x = .ofBool b) ∧
      (pushed.filter (·.isEdge) = u.heap.follows n (.ofBool b) ↔
        ∀ x ∈ lastReturn (returns n (since s u)),
          u.heap.follows n x = u.heap.follows n (.ofBool b)) := by
  obtain ⟨pushed, hlog, hedges⟩ := Heap.follows_finishNode l hst
  have htu : t = u.flowFinish n l c k r rest := by
    have hn := (Option.filter_eq_some_iff.mp ht).1
    simp only [next, runTau, hf] at hn
    exact (Option.some.inj hn).symm
  have hb : NodeResult.ofBool b ≠ .rStop := by cases b <;> simp [NodeResult.ofBool]
  have hres : (u.heap.nodes n).result = (lastReturn (returns n (since s u))).getD (.ofBool b) := by
    rw [result_of_steps (wf_of_reachable hs) hu, result_of_resolves hs hhead ho]
    exact resultAfter_eq hb _
  refine ⟨_, pushed, by rw [htu]; exact hlog, hedges, ?_, ?_⟩
  · rw [hres]
    cases lastReturn (returns n (since s u)) <;> simp
  · rw [hedges, hres]
    cases lastReturn (returns n (since s u)) <;> simp

/-- A chart whose second node has a successor for each outcome. -/
def choosingChart : ChartData :=
  { name := "choosing", nodes := [{ success := [1] },
    { func := .script, success := [2], failure := [3] }, { func := .script }, { func := .script }] }

/-- The second node has created an async context. -/
def choosingActs : List Act :=
  [.op (.importChart choosingChart), .op (.register 0), .op (.attachChart 1 "choosing"),
    .op (.startChart 0), .op .step, .timersDone, .op .createAsyncContext]

/-- A context that is continued after the function has returned. -/
theorem outcome_deferred : ∃ s u t : State, Reachable {} s ∧
    Run.Steps (step {}) (Undisturbed {} ⟨0, 1⟩) s u ∧
    .continued ⟨0, 1⟩ false ∈ s.heap.log ∧ u.step {} .tau = some t ∧
    ∃ res pushed, t.heap.log = pushed ++ .succ ⟨0, 1⟩ res :: u.heap.log ∧
      pushed.filter (·.isEdge) = u.heap.follows ⟨0, 1⟩ res ∧
      (res = .ofBool false ↔
        ∀ x ∈ lastReturn (returns ⟨0, 1⟩ (since s u)), x = .ofBool false) ∧
      (pushed.filter (·.isEdge) = u.heap.follows ⟨0, 1⟩ (.ofBool false) ↔
        ∀ x ∈ lastReturn (returns ⟨0, 1⟩ (since s u)),
          u.heap.follows ⟨0, 1⟩ x = u.heap.follows ⟨0, 1⟩ (.ofBool false)) := by
  obtain ⟨s, u, hs, hu, hhead, hf, hst, ht⟩ := exists_of_play_exec {} (Undisturbed {} ⟨0, 1⟩)
    (choosingActs ++ [.ret .rTrue, .op (.continueAsyncNode ⟨⟨0, 1⟩, 0⟩ false)])
    [.op .step, .timersDone, .tau, .tau, .tau]
    (fun s u => s.heap.log.head? = some (.continued ⟨0, 1⟩ false) ∧
      u.frames = [.ran ⟨0, 1⟩, .flow 1 0 1 false, .async] ∧
      (u.heap.nodes ⟨0, 1⟩).status ≠ .running ∧ (u.step {} .tau).isSome) (by decide +kernel)
  obtain ⟨t, ht⟩ := Option.isSome_iff_exists.mp ht
  exact ⟨s, u, t, hs, hu, List.mem_of_mem_head? hhead, ht,
    outcome_iff hs hhead ⟨rfl, rfl⟩ hu hf hst ht⟩

/-- **A synchronous completion is lost**: the context is continued with `false` before
the function returns `rTRUE`, and the node goes on with its successors of `rTRUE`. -/
theorem not_outcome_synchronous : ∃ s u, Reachable {} s ∧
    Run.Steps (step {}) (Undisturbed {} ⟨0, 1⟩) s u ∧
    s.heap.log.head? = some (.continued ⟨0, 1⟩ false) ∧
    .succ ⟨0, 1⟩ .rTrue ∈ since s u ∧ .edge ⟨0, 1⟩ ⟨0, 2⟩ ∈ since s u ∧
    .edge ⟨0, 1⟩ ⟨0, 3⟩ ∉ since s u ∧
    u.heap.follows ⟨0, 1⟩ (.ofBool false) = [.edge ⟨0, 1⟩ ⟨0, 3⟩] :=
  exists_of_play_exec {} (Undisturbed {} ⟨0, 1⟩)
    (choosingActs ++ [.op (.continueAsyncNode ⟨⟨0, 1⟩, 0⟩ false)])
    (.ret .rTrue :: List.replicate 7 .tau ++ [.op .step, .timersDone] ++ List.replicate 5 .tau)
    (fun s u => s.heap.log.head? = some (.continued ⟨0, 1⟩ false) ∧
      .succ ⟨0, 1⟩ .rTrue ∈ since s u ∧ .edge ⟨0, 1⟩ ⟨0, 2⟩ ∈ since s u ∧
      .edge ⟨0, 1⟩ ⟨0, 3⟩ ∉ since s u ∧
      u.heap.follows ⟨0, 1⟩ (.ofBool false) = [.edge ⟨0, 1⟩ ⟨0, 3⟩]) (by decide +kernel)

end State

end Asyncflow
