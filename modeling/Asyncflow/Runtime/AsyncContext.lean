import Asyncflow.Moves.Addresses
import Asyncflow.Moves.Step

/-!
# Async contexts

The context that `CreateAsyncContext` returns is the address of the node, and
whether it can be continued is decided by `nodes_set_` alone. The set remembers a
suspension until the next `ContinueAsyncNode`, `CancelAsyncNode` or resumption at
the address of the node (`Asyncflow.State.remembers_of_reachable`); stopping the node, or
destroying its chart, does not remove it, and the suspensions at one address are
not told apart, be they of one node or of nodes made there one after the other.

So a context is answered as it should be (`Asyncflow.Heap.OneShot`) unless it is
stale while the set still remembers a suspension at its address.
-/

namespace Asyncflow

/-- The node an entry takes out of `nodes_set_`. -/
def Obs.forgotten? : Obs → Option NodeRef
  | .continued n _ | .cancelled n _ | .resume n _ => some n
  | _ => none

/-- The node an entry suspends. -/
def Obs.suspended? : Obs → Option NodeRef
  | .suspend n _ => some n
  | _ => none

/-- The entries that end the suspensions of a node. Resuming a node stops it. -/
def Obs.endsSuspension (n : NodeRef) : Obs → Prop
  | .continued m _ | .cancelled m _ | .resume m _ | .stop m _ => m = n
  | .destroyed c _ => c = n.chart
  | _ => False

instance (n : NodeRef) : DecidablePred (Obs.endsSuspension n) := fun o => by
  apply @Obs.casesOn (fun o => Decidable (o.endsSuspension n)) o <;> intros <;>
    unfold Obs.endsSuspension <;> infer_instance

/-- **The suspension of a context is pending**: the `CreateAsyncContext` call that
returned it was made, and since then the node has been neither continued,
cancelled nor stopped, and still exists. -/
def Pending (log : List Obs) (ctx : Context) : Prop :=
  History.Since (· = .suspend ctx.node ctx.call) (Obs.endsSuspension ctx.node) log

instance (log : List Obs) (ctx : Context) : Decidable (Pending log ctx) :=
  inferInstanceAs (Decidable (History.Since _ _ log))

/-- A node was suspended at the address of the node, and none was continued, cancelled or
resumed there since. Two nodes have one address when they have one tenant. -/
def Remembered (tenant : NodeRef → NodeRef) (log : List Obs) (n : NodeRef) : Prop :=
  History.Since (fun o => ∃ m ∈ o.suspended?, tenant m = tenant n)
    (fun o => ∃ m ∈ o.forgotten?, tenant m = tenant n) log

namespace Heap

variable {h h' g : Heap} {n m : NodeRef} {o : Obs} {flows : ℕ → Prop} {may : Permit → Prop}
  {D : NodeRef → Prop} {tenant : NodeRef → NodeRef}

/-! ### What the set remembers -/

/-- The entries that have to do with suspensions. -/
abbrev Aside (o : Obs) : Prop := o.suspended? = none ∧ o.forgotten? = none

/-- What the set remembers is not what entries that have nothing to do with it are about. -/
theorem remembered_of_adds (ha : Adds Aside h h') :
    Remembered tenant h'.log n ↔ Remembered tenant h.log n := by
  obtain ⟨new, hl, hn⟩ := ha
  refine Adds.since_iff ⟨new, hl, fun o ho => ⟨?_, ?_⟩⟩
  · rintro ⟨m, hm, -⟩
    rw [(hn o ho).1] at hm
    cases hm
  · rintro ⟨m, hm, -⟩
    rw [(hn o ho).2] at hm
    cases hm

/-- An address at which a node is suspended. -/
theorem remembered_suspended (ho : o.suspended? = some n ∧ o.forgotten? = none) (log : List Obs) :
    Remembered tenant (o :: log) m ↔ tenant n = tenant m ∨ Remembered tenant log m := by
  simp [Remembered, History.since_cons, ho.1, ho.2]

/-- An address at which a node is forgotten. -/
theorem remembered_forgotten (ho : o.suspended? = none ∧ o.forgotten? = some n) (log : List Obs) :
    Remembered tenant (o :: log) m ↔ tenant n ≠ tenant m ∧ Remembered tenant log m := by
  simp [Remembered, History.since_cons, ho.1, ho.2]

/-- What is remembered of a node is remembered of its address. -/
theorem remembered_of_tenant {log : List Obs} (he : tenant n = tenant m) :
    Remembered tenant log n ↔ Remembered tenant log m := by
  rw [Remembered, he, Remembered]

theorem suspended_of_remembered {log : List Obs} (hn : Remembered tenant log n) :
    ∃ o ∈ log, ∃ m ∈ o.suspended?, tenant m = tenant n := by
  obtain ⟨after, o, before, rfl, ho, -⟩ := History.since_iff.mp hn
  exact ⟨o, by simp, ho⟩

/-- A pending suspension is older than entries that suspend nothing. -/
theorem pending_of_adds {ctx : Context} (ha : Adds Aside h h') (hp : Pending h'.log ctx) :
    Pending h.log ctx := by
  obtain ⟨new, hl, hn⟩ := ha
  rw [hl] at hp
  refine History.since_of_append (fun o ho hs => ?_) hp
  subst hs
  cases (hn _ ho).1

/-- The entries are about nodes that have been made. -/
def LogMade (h : Heap) : Prop :=
  ∀ o ∈ h.log, ∀ n, n ∈ o.suspended? ∨ n ∈ o.forgotten? → n.chart < h.nextChart

theorem LogMade.of_adds (ht : h.LogMade) (hn : h.nextChart ≤ h'.nextChart) (ha : Adds Aside h h') :
    h'.LogMade := by
  intro o ho m hm
  obtain ⟨new, hlog, hnew⟩ := ha
  rw [hlog] at ho
  rcases List.mem_append.mp ho with ho | ho
  · rw [(hnew o ho).1, (hnew o ho).2] at hm
    rcases hm with hm | hm <;> cases hm
  · exact Nat.lt_of_lt_of_le (ht o ho m hm) hn

theorem LogMade.of_cons (ht : g.LogMade) (hn : h'.nextChart = g.nextChart)
    (hl : h'.log = o :: g.log)
    (ho : ∀ m, m ∈ o.suspended? ∨ m ∈ o.forgotten? → m.chart < g.nextChart) : h'.LogMade := by
  intro o' ho' m hm
  rw [hn]
  rw [hl] at ho'
  rcases List.mem_cons.mp ho' with rfl | ho'
  · exact ho m hm
  · exact ht o' ho' m hm

/-- The set is what the history says. Its entries are the nodes at their addresses, and a
suspension that is pending is one of them. -/
structure Remembers (h : Heap) : Prop where
  housed : h.Housed
  tenants : ∀ n ∈ h.nodesSet, h.tenant n = n ∧ n.chart < h.nextChart
  told : h.LogMade
  pending : ∀ ctx, Pending h.log ctx → ctx.node ∈ h.nodesSet ∧ (h.charts ctx.node.chart).isSome
  iff : ∀ n, h.tenant n ∈ h.nodesSet ↔ Remembered h.tenant h.log n

section Moves

variable (hr : h.Remembers) (hs : h.Stays h')
  (hx : ∀ c, (h.charts c).isSome → (h'.charts c).isSome ∨ ∃ o, h'.log = .destroyed c o :: h.log)
include hr hs hx

/-- A move that has nothing to do with suspensions. -/
theorem Remembers.of_aside (hset : h'.nodesSet = h.nodesSet) (ha : Adds Aside h h') :
    h'.Remembers where
  housed := hr.housed.of_stays hs
  tenants n hn := by
    rw [hs.tenant, hs.next]
    exact hr.tenants n (hset ▸ hn)
  told := hr.told.of_adds (Nat.le_of_eq hs.next.symm) ha
  pending ctx hp := by
    obtain ⟨hn, hc⟩ := hr.pending ctx (pending_of_adds ha hp)
    refine ⟨hset.symm ▸ hn, ?_⟩
    rcases hx _ hc with hc | ⟨o, hl⟩
    · exact hc
    · -- The chart of a suspension that is still pending has not been destroyed.
      rw [hl, Pending, History.since_cons] at hp
      rcases hp with ho | ho
      · cases ho
      · exact absurd rfl ho.1
  iff n := by
    rw [hset, hs.tenant, remembered_of_adds ha]
    exact hr.iff n

omit hx in
/-- A move that takes a node out of the set. -/
theorem Remembers.of_forgets (hset : ∀ m, m ∈ h'.nodesSet ↔ m ∈ h.nodesSet ∧ m ≠ n)
    (hcharts : h'.charts = h.charts) (ha : Adds Aside h g) (hg : g.nextChart = h.nextChart)
    (hl : h'.log = o :: g.log)
    (ho : o.suspended? = none ∧ o.forgotten? = some n) (hend : o.endsSuspension n)
    (hn : h.tenant n = n ∧ n.chart < h.nextChart) : h'.Remembers where
  housed := hr.housed.of_stays hs
  tenants m hm := by
    rw [hs.tenant, hs.next]
    exact hr.tenants m ((hset m).mp hm).1
  told := by
    refine (hr.told.of_adds (Nat.le_of_eq hg.symm) ha).of_cons (hs.next.trans hg.symm) hl ?_
    intro m hm
    rw [ho.1, ho.2] at hm
    obtain rfl : n = m := Option.some.inj (hm.resolve_left nofun)
    exact lt_of_lt_of_eq hn.2 hg.symm
  pending ctx hp := by
    rw [hl, Pending, History.since_cons] at hp
    rcases hp with rfl | hp
    · cases ho.1
    · obtain ⟨hmem, hc⟩ := hr.pending ctx (pending_of_adds ha hp.2)
      refine ⟨(hset _).mpr ⟨hmem, ?_⟩, hcharts.symm ▸ hc⟩
      rintro rfl
      exact hp.1 hend
  iff m := by
    rw [hs.tenant, hset, hl, remembered_forgotten ho, remembered_of_adds ha, hn.1, hr.iff m]
    exact and_comm.trans (and_congr_left' ne_comm)

omit hx in
/-- A move that puts a node into the set. -/
theorem Remembers.of_suspends {ctx : ℕ} (hset : ∀ m, m ∈ h'.nodesSet ↔ m = n ∨ m ∈ h.nodesSet)
    (hcharts : h'.charts = h.charts) (ha : Adds Aside h g) (hg : g.nextChart = h.nextChart)
    (hl : h'.log = .suspend n ctx :: g.log)
    (hc : (h.charts n.chart).isSome) : h'.Remembers where
  housed := hr.housed.of_stays hs
  tenants m hm := by
    rw [hs.tenant, hs.next]
    rcases (hset m).mp hm with rfl | hm
    · exact ⟨hr.housed.alive m hc, hr.housed.born _ hc⟩
    · exact hr.tenants m hm
  told := by
    refine (hr.told.of_adds (Nat.le_of_eq hg.symm) ha).of_cons (hs.next.trans hg.symm) hl ?_
    rintro m (hm | hm)
    · obtain rfl : n = m := Option.some.inj hm
      exact lt_of_lt_of_eq (hr.housed.born _ hc) hg.symm
    · cases hm
  pending c hp := by
    rw [hl, Pending, History.since_cons] at hp
    rcases hp with hp | hp
    · obtain ⟨rfl, -⟩ := Obs.suspend.inj hp
      exact ⟨(hset _).mpr (.inl rfl), hcharts.symm ▸ hc⟩
    · obtain ⟨hmem, hc⟩ := hr.pending c (pending_of_adds ha hp.2)
      exact ⟨(hset _).mpr (.inr hmem), hcharts.symm ▸ hc⟩
  iff m := by
    rw [hs.tenant, hset, hl, remembered_suspended ⟨rfl, rfl⟩, remembered_of_adds ha, hr.iff m,
      hr.housed.alive n hc]
    exact or_congr_left eq_comm

end Moves

/-- **The addresses of the set go to the nodes of a new chart**, and what the history says about
them goes with them. -/
theorem Remembers.initChart (hr : h.Remembers) (d : DataId) (owner : Option NodeRef) :
    (h.initChart d owner).Remembers where
  housed := hr.housed.initChart d owner
  tenants n hn := by
    obtain ⟨m, hm, rfl⟩ := List.mem_map.mp hn
    obtain ⟨ht, hmade⟩ := hr.tenants m hm
    refine ⟨hr.housed.tenant_rehouse _ ht, ?_⟩
    change _ < h.nextChart + 1
    rcases h.rehouse_eq (h.nodeCount d) m with he | ⟨i, -, he⟩ <;> rw [he]
    · exact Nat.lt_succ_of_lt hmade
    · exact Nat.lt_succ_self _
  told := by
    have ha : Adds Aside h (h.initChart d owner) := adds_of_cons ⟨rfl, rfl⟩ rfl
    exact hr.told.of_adds (Nat.le_succ _) ha
  pending ctx hp := by
    have ha : Adds Aside h (h.initChart d owner) := adds_of_cons ⟨rfl, rfl⟩ rfl
    obtain ⟨hmem, hc⟩ := hr.pending ctx (pending_of_adds ha hp)
    refine ⟨List.mem_map.mpr ⟨ctx.node, hmem, rehouse_of_alive h _ hc⟩, ?_⟩
    change (Function.update h.charts h.nextChart _ ctx.node.chart).isSome
    rwa [Function.update_of_ne (Nat.ne_of_lt (hr.housed.born _ hc))]
  iff n := by
    -- Nodes that have been made keep apart, and what was remembered at an address still is.
    have hmade : ∀ m, m.chart < h.nextChart → ((h.initChart d owner).tenant m ∈
        (h.initChart d owner).nodesSet ↔
          Remembered (h.initChart d owner).tenant (h.initChart d owner).log m) := by
      intro m hm
      have hset : (h.initChart d owner).tenant m ∈ (h.initChart d owner).nodesSet ↔
          h.tenant m ∈ h.nodesSet := by
        refine ⟨fun hp => ?_, fun hp => List.mem_map.mpr ⟨_, hp, rfl⟩⟩
        obtain ⟨p, hp, he⟩ := List.mem_map.mp hp
        rwa [← h.rehouse_inj _ (hr.tenants p hp).2 (hr.housed.made m hm) he]
      have hsame : ∀ o ∈ h.log, ∀ k, k ∈ o.suspended? ∨ k ∈ o.forgotten? →
          (h.tenant k = h.tenant m ↔ (h.initChart d owner).tenant k =
            (h.initChart d owner).tenant m) :=
        fun o ho k hk => (hr.housed.tenant_initChart_inj d owner (hr.told o ho k hk) hm).symm
      have ha : Adds Aside h (h.initChart d owner) := adds_of_cons ⟨rfl, rfl⟩ rfl
      rw [hset, hr.iff m, remembered_of_adds ha]
      refine History.since_congr fun o ho => ⟨?_, ?_⟩
      · exact exists_congr fun k => and_congr_right fun hk => hsame o ho k (.inl hk)
      · exact exists_congr fun k => and_congr_right fun hk => hsame o ho k (.inr hk)
    constructor
    · intro hn
      obtain ⟨m, hm, he⟩ := List.mem_map.mp hn
      obtain ⟨ht, hlt⟩ := hr.tenants m hm
      have hmn : (h.initChart d owner).tenant m = (h.initChart d owner).tenant n :=
        (congrArg (h.rehouse _) ht).trans he
      exact (remembered_of_tenant hmn).mp ((hmade m hlt).mp (hmn ▸ hn))
    · intro hn
      obtain ⟨o, ho, m, hm, hmn⟩ := suspended_of_remembered hn
      have hlt : m.chart < h.nextChart := by
        rcases List.mem_cons.mp ho with rfl | ho
        · cases hm
        · exact hr.told o ho m (.inl hm)
      exact hmn ▸ (hmade m hlt).mpr ((remembered_of_tenant hmn).mpr hn)

theorem aside_of_writes {f : Node → Node} {o : Obs} (hw : h.Writes n f o) : Aside o := by
  cases hw <;> exact ⟨rfl, rfl⟩

theorem aside_misplaced : Aside (.misplaced n) := ⟨rfl, rfl⟩

theorem adds_removeNode (h : Heap) (n : NodeRef) : Adds Aside h (h.removeNode n) :=
  adds_remove aside_misplaced h .asyncWaiting

theorem adds_removed_activated (h : Heap) (n : NodeRef) (skip : Bool) :
    Adds Aside h ((h.removeNode n).activateNode n skip) :=
  (adds_removeNode h n).trans (adds_activateNode aside_misplaced _ skip)

theorem charts_removed_activated (h : Heap) (n : NodeRef) (skip : Bool) :
    ((h.removeNode n).activateNode n skip).charts = h.charts := by
  have ho : ((h.removeNode n).activateNode n skip).outer = h.outer :=
    (outer_activateNode ..).trans (outer_removeNode ..)
  exact (congrArg Heap.charts ho : _)

theorem nextChart_removed_activated (h : Heap) (n : NodeRef) (skip : Bool) :
    ((h.removeNode n).activateNode n skip).nextChart = h.nextChart := by
  have ho : ((h.removeNode n).activateNode n skip).outer = h.outer :=
    (outer_activateNode ..).trans (outer_removeNode ..)
  exact (congrArg Heap.nextChart ho : _)

theorem nodesSet_suspendNode : m ∈ (h.suspendNode n).nodesSet ↔ m = n ∨ m ∈ h.nodesSet := by
  have hp : ((h.setNode n ({ · with status := .running })).push .asyncWaiting n).nodesSet =
      h.nodesSet := nodesSet_push ..
  simp only [suspendNode, addNode, note, hp]
  split
  · rename_i hn
    exact ⟨.inr, fun hm => hm.elim (fun he => he ▸ hn) id⟩
  · exact List.mem_cons

/-- **Each move keeps the set in step with the history.** -/
theorem remembers_of_move (hm : Move flows may D h h') (hr : h.Remembers) : h'.Remembers := by
  rcases stays_of_move hm with hs | ⟨d, o, rfl⟩
  swap
  · exact hr.initChart d o
  have hx := fun c => alive_of_move (c := c) hm
  cases hm with
  | alike ha =>
    refine hr.of_aside hs hx ha.nodesSet ?_
    rcases ha.log with hl | ⟨o, ho, hl⟩
    · exact adds_of_eq hl
    · refine adds_of_cons ?_ hl
      cases o <;> first | exact ho.elim | exact ⟨rfl, rfl⟩
  | act hw _ => exact hr.of_aside hs hx rfl (adds_act (aside_of_writes hw) h _)
  | detach hn => exact hr.of_aside hs hx (nodesSet_detach ..) (adds_detach aside_misplaced h)
  | removeFree l hc =>
    exact hr.of_aside hs hx (nodesSet_remove ..) (adds_remove aside_misplaced h _)
  | wait a e hn =>
    exact hr.of_aside hs hx (nodesSet_push ..)
      ((adds_push aside_misplaced h _).trans (adds_of_cons ⟨rfl, rfl⟩ rfl))
  | @suspend n hn hc =>
    have ha : Adds Aside h ((h.setNode n ({ · with status := .running })).push .asyncWaiting n) :=
      adds_push aside_misplaced (h.setNode n _) _
    have hcharts : (h.suspendNode n).charts = h.charts := charts_push (h.setNode n _) ..
    have hnext : ((h.setNode n ({ · with status := .running })).push .asyncWaiting n).nextChart =
        h.nextChart := nextChart_push (h.setNode n _) ..
    exact hr.of_suspends hs (fun m => nodesSet_suspendNode) hcharts ha hnext rfl hc
  | @continued n b hn ha =>
    have hset : ∀ m, m ∈ (h.continueNode n b).nodesSet ↔ m ∈ h.nodesSet ∧ m ≠ n := fun m =>
      (Iff.of_eq (congrArg (m ∈ ·) (nodesSet_activateNode true))).trans mem_nodesSet_removeNode
    exact hr.of_forgets hs hset (charts_removed_activated h n true)
      (adds_removed_activated h _ true) (nextChart_removed_activated h n true) rfl ⟨rfl, rfl⟩ rfl
      (hr.tenants _ hn)
  | @cancelled n stop hn ha =>
    cases stop with
    | true =>
      exact hr.of_forgets hs (fun m => mem_nodesSet_removeNode) (charts_remove ..)
        (adds_removeNode h _) (nextChart_remove ..) rfl ⟨rfl, rfl⟩ rfl (hr.tenants _ hn)
    | false =>
      have hset : ∀ m, m ∈ (h.cancelNode n false).nodesSet ↔ m ∈ h.nodesSet ∧ m ≠ n := fun m =>
        (Iff.of_eq (congrArg (m ∈ ·) (nodesSet_activateNode true))).trans mem_nodesSet_removeNode
      exact hr.of_forgets hs hset (charts_removed_activated h n true)
        (adds_removed_activated h _ true) (nextChart_removed_activated h n true) rfl ⟨rfl, rfl⟩ rfl
        (hr.tenants _ hn)
  | @resume n skip r hc hc' =>
    -- The node has left the activated nodes before it is removed from the waiting ones.
    have hl : ((h.act n ({ · with skip := skip, result := r }) (.resume n r)).removeNode n).log =
        .resume n r :: h.log := log_remove_of_free _ (by simpa using hc)
    exact hr.of_forgets hs (fun m => mem_nodesSet_removeNode) (charts_remove ..) (adds_of_eq rfl)
      rfl hl ⟨rfl, rfl⟩ rfl ⟨hr.housed.alive n hc', hr.housed.born _ hc'⟩
  | started hd hne =>
    simp only [markStarted, hd, hne, ↓reduceIte] at hs hx ⊢
    exact hr.of_aside hs hx rfl (adds_of_cons ⟨rfl, rfl⟩ rfl)
  | create d o hp ho => exact hr.initChart d o
  | forget c =>
    have ha : Adds Aside h (h.forgetChart c) := by
      unfold forgetChart setOwner
      split <;> exact adds_of_cons ⟨rfl, rfl⟩ rfl
    refine hr.of_aside hs hx ?_ ha
    unfold forgetChart setOwner
    split <;> rfl
  | beginFlow l a hfl hn hv =>
    exact hr.of_aside hs hx (nodesSet_push ((h.act ..).setExecutor ..) ..)
      (.trans (adds_of_cons ⟨rfl, rfl⟩ rfl) (adds_push aside_misplaced _ _))
  | pop l hfl hl =>
    refine hr.of_aside hs hx ?_ (adds_of_eq ?_) <;>
      (simp only [pop, hl]; split <;> rfl)
  | child l hfl hi hn =>
    simp only [addChild, hi, ↓reduceIte] at hs hx ⊢
    exact hr.of_aside hs hx (nodesSet_push (h.act ..) ..)
      (.trans (adds_of_cons ⟨rfl, rfl⟩ rfl) (adds_push aside_misplaced _ _))
  | continueFlow l hfl hn =>
    exact hr.of_aside hs hx (nodesSet_push (h.act ..) ..)
      (.trans (adds_of_cons ⟨rfl, rfl⟩ rfl) (adds_push aside_misplaced _ _))
  | deliver hh hl => exact hr.of_aside hs hx rfl (adds_of_cons ⟨rfl, rfl⟩ rfl)
  | _ => exact hr.of_aside hs hx rfl (adds_of_eq rfl)

theorem remembers_init : Remembers {} where
  housed := housed_init
  tenants _ hn := absurd hn List.not_mem_nil
  told _ ho := absurd ho List.not_mem_nil
  pending _ hp := hp.elim
  iff _ := ⟨fun hn => absurd hn List.not_mem_nil, False.elim⟩

end Heap

/-- **What `nodes_set_` holds**: in every reachable state it is the set of the addresses
at which a node was suspended and none was continued, cancelled or resumed since. -/
theorem State.remembers_of_reachable {cfg : Config} {s : State} (h : Reachable cfg s) :
    s.heap.Remembers := by
  have hd : Heap.Does (fun _ => True) (fun _ => True) (fun _ => False) init.heap s.heap :=
    does_of_steps (fun _ => trivial) (fun _ _ _ _ _ => trivial) wf_init h
  exact Traced.Does.invariant hd Heap.remembers_of_move Heap.remembers_init

/-! ### Continuing and cancelling -/

namespace Heap

/-- An answer of `ContinueAsyncNode` or `CancelAsyncNode` that fits the context: it
is `true`, with the effect on the node, if the suspension of the context is
pending, and otherwise `false`, with no effect at all. -/
def Fits (h : Heap) (ctx : Context) (effect : Heap → Prop) (answer : Bool × Heap) : Prop :=
  (Pending h.log ctx → answer.1 = true ∧ effect answer.2) ∧
    (¬Pending h.log ctx → answer = (false, h))

/-- The node is about to be resumed with a result. -/
def Activated (n : NodeRef) (r : NodeResult) (h : Heap) : Prop :=
  (h.nodes n).container = some .activated ∧ (h.nodes n).skip = true ∧ (h.nodes n).result = r

/-- **One-shot and never stale**: every call with the context is answered as it
should be. -/
def OneShot (h : Heap) (ctx : Context) : Prop :=
  (∀ b, h.Fits ctx (Activated ctx.node (.ofBool b)) (h.continueAsyncNode ctx b)) ∧
    h.Fits ctx (fun g => (g.nodes ctx.node).container = none) (h.cancelAsyncNode ctx true) ∧
    h.Fits ctx (Activated ctx.node .rFalse) (h.cancelAsyncNode ctx false)

variable {h : Heap} {n : NodeRef} {ctx : Context}

theorem activated_of_activateNode (hc : (h.nodes n).container = none) (r : NodeResult) (o : Obs) :
    Activated n r ((h.activateNode n true).act n ({ · with result := r }) o) := by
  have ha : h.activateNode n true =
      (h.push .activated n).setNode n ({ · with skip := true }) := by
    simp [activateNode, hc]
  rw [ha]
  simp [Activated]

theorem activated_of_continueNode (b : Bool) :
    Activated n (.ofBool b) (h.continueNode n b) :=
  activated_of_activateNode (h := h.removeNode n) (container_remove ..) _ _

theorem activated_of_cancelNode : Activated n .rFalse (h.cancelNode n false) :=
  activated_of_activateNode (h := h.removeNode n) (container_remove ..) _ _

theorem container_cancelNode : ((h.cancelNode n true).nodes n).container = none :=
  container_remove ..

/-- An answer that fits a pending context. -/
theorem fits_of_pending {effect : Heap → Prop} {answer : Bool × Heap} (hp : Pending h.log ctx)
    (h1 : answer.1 = true) (h2 : effect answer.2) : h.Fits ctx effect answer :=
  ⟨fun _ => ⟨h1, h2⟩, absurd hp⟩

/-- An answer that fits a stale context. -/
theorem fits_of_stale {effect : Heap → Prop} {answer : Bool × Heap} (hp : ¬Pending h.log ctx)
    (ha : answer = (false, h)) : h.Fits ctx effect answer := ⟨fun hp' => absurd hp' hp, fun _ => ha⟩

/-- The set decides the answer. -/
theorem oneShot_iff_of_remembers (hr : h.Remembers) :
    h.OneShot ctx ↔ (Pending h.log ctx ∨ ¬Remembered h.tenant h.log ctx.node) := by
  have hset : h.isNodeWaiting (h.nodeAt ctx) = true ↔ Remembered h.tenant h.log ctx.node :=
    decide_eq_true_iff.trans (hr.iff ctx.node)
  by_cases hrem : Remembered h.tenant h.log ctx.node
  · constructor
    · intro ho
      by_contra hc
      have hfalse := (ho.1 true).2 fun hp => hc (.inl hp)
      have htrue : (h.continueAsyncNode ctx true).1 = true := by
        rw [continueAsyncNode, if_pos (hset.mpr hrem)]
      rw [hfalse] at htrue
      cases htrue
    · intro hor
      -- The node is there, so that it is the node at its address.
      have hp : Pending h.log ctx := hor.resolve_right (not_not_intro hrem)
      have hc := (hr.pending ctx hp).2
      have hat : h.nodeAt ctx = ctx.node := hr.housed.alive _ hc
      have hw : h.isNodeWaiting ctx.node = true := hat ▸ hset.mpr hrem
      refine ⟨fun b => ?_, ?_, ?_⟩
      · rw [continueAsyncNode, hat]
        simp only [hw, hc, ↓reduceIte]
        exact fits_of_pending hp rfl (activated_of_continueNode b)
      · rw [cancelAsyncNode, hat]
        simp only [hw, hc, ↓reduceIte]
        exact fits_of_pending hp rfl container_cancelNode
      · rw [cancelAsyncNode, hat]
        simp only [hw, hc, ↓reduceIte]
        exact fits_of_pending hp rfl activated_of_cancelNode
  · have hp : ¬Pending h.log ctx := by
      intro hp
      obtain ⟨hn, hc⟩ := hr.pending ctx hp
      exact hrem ((hr.iff _).mp ((hr.housed.alive _ hc).symm ▸ hn))
    have hno : ¬h.isNodeWaiting (h.nodeAt ctx) = true := fun hw => hrem (hset.mp hw)
    have hcont : ∀ b, h.continueAsyncNode ctx b = (false, h) := fun b => by
      rw [continueAsyncNode]
      exact if_neg hno
    have hcanc : ∀ stop, h.cancelAsyncNode ctx stop = (false, h) := fun stop => by
      rw [cancelAsyncNode]
      exact if_neg hno
    exact iff_of_true ⟨fun b => fits_of_stale hp (hcont b), fits_of_stale hp (hcanc true),
      fits_of_stale hp (hcanc false)⟩ (.inr hrem)

end Heap

/-- **When a context is one-shot and never stale**: in a reachable state, exactly
when its own suspension is pending, or no suspension at its address is without a later
continuation, cancellation or resumption there. -/
theorem State.oneShot_iff {cfg : Config} {s : State} (h : Reachable cfg s) (ctx : Context) :
    s.heap.OneShot ctx ↔
      (Pending s.heap.log ctx ∨ ¬Remembered s.heap.tenant s.heap.log ctx.node) :=
  Heap.oneShot_iff_of_remembers (remembers_of_reachable h)

/-- A chart whose second node is a script. -/
def suspendingChart : ChartData :=
  { name := "suspending", nodes := [{ success := [1] }, { func := .script }] }

/-- The script of the second node has created its first context and returned. -/
def suspendingActs : List Act :=
  [.op (.importChart suspendingChart), .op (.register 0), .op (.attachChart 1 "suspending"),
    .op (.startChart 0), .op .step, .timersDone, .op .createAsyncContext, .ret .rTrue]

/-- The context just created is one-shot and never stale. -/
theorem State.oneShot_suspending :
    ∃ s, Reachable {} s ∧ s.heap.OneShot ⟨⟨0, 1⟩, 0⟩ := by
  obtain ⟨s, hs, hp⟩ := exists_of_play {} suspendingActs
    (fun s => Pending s.heap.log ⟨⟨0, 1⟩, 0⟩) (by decide +kernel)
  exact ⟨s, hs, (State.oneShot_iff hs _).mpr (.inl hp)⟩

/-- **A stale context is continued**: the chart has been stopped since, and the
context of its node is still answered with `true`. -/
theorem State.not_oneShot_stopped : ∃ s, Reachable {} s ∧
    Obs.suspend ⟨0, 1⟩ 0 ∈ s.heap.log ∧ ¬s.heap.OneShot ⟨⟨0, 1⟩, 0⟩ := by
  obtain ⟨s, hs, hmem, hp, hans⟩ := exists_of_play {} (suspendingActs ++ [.op (.stopChart 0)])
    (fun s => Obs.suspend ⟨0, 1⟩ 0 ∈ s.heap.log ∧ ¬Pending s.heap.log ⟨⟨0, 1⟩, 0⟩ ∧
      (s.heap.continueAsyncNode ⟨⟨0, 1⟩, 0⟩ true).1 = true) (by decide +kernel)
  refine ⟨s, hs, hmem, fun ho => ?_⟩
  rw [(ho.1 true).2 hp] at hans
  exact Bool.noConfusion hans

/-- A context outlives its chart: it has been used, and is answered with `true` once more when a
node of another chart is suspended at its address. -/
example : ∃ s, State.Reachable {} s ∧
    Obs.continued ⟨0, 1⟩ true ∈ s.heap.log ∧ s.heap.charts 0 = none ∧
      (s.heap.continueAsyncNode ⟨⟨0, 1⟩, 0⟩ true).1 = true := by
  obtain ⟨s, hs, hmem, hgone, hans⟩ := State.exists_of_play {} (suspendingActs ++
      [.op (.continueAsyncNode ⟨⟨0, 1⟩, 0⟩ true), .op (.removeChart 1 "suspending"),
        .op (.place [⟨0, 0⟩, ⟨0, 1⟩]), .op (.attachChart 1 "suspending"), .op (.startChart 1),
        .op .step, .timersDone, .op .createAsyncContext, .ret .rTrue])
    (fun s => Obs.continued ⟨0, 1⟩ true ∈ s.heap.log ∧ (s.heap.charts 0).isNone ∧
      (s.heap.continueAsyncNode ⟨⟨0, 1⟩, 0⟩ true).1 = true) (by decide +kernel)
  exact ⟨s, hs, hmem, Option.isNone_iff_eq_none.mp hgone, hans⟩

end Asyncflow
