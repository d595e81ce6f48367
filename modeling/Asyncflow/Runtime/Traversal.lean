import Asyncflow.Moves.HistoryLists
import Asyncflow.Runtime.TreeWalk

/-!
# The order of a flow

On the part of a chart that is a tree, `DfsExecutor::RunFlow` is a traversal in pre-order:
it calls the node functions in the order of the recursive traversal that goes on below a
node with the children its result chooses, and not at all below a node that is stopped or
suspended.

The node functions are played by an environment, and `Asyncflow.State.Obeys` says what it
does when the function of a node is called. `Asyncflow.State.walk_round` is one round of the
loop, and the induction along a traversal with a stack gives the whole loop,
`Asyncflow.State.walk_loop`.
-/

namespace Asyncflow

namespace State

variable {cfg : Config} {env : State → Act} {s u v : State} {base : Heap} {n : NodeRef} {l k : ℕ}
  {c : ChartId} {r : Bool} {rest : List Frame} {t : Tree ℕ} {ts : List (Tree ℕ)}
  {out : ℕ → Outcome} {done : List ℕ}

variable (cfg env) in
/-- The run in which the environment answers every state in a fixed way. -/
abbrev Plays (u v : State) : Prop := Run.Steps (step cfg) (fun w a => a = env w) u v

theorem step_of_next {a : Act} (h : u.next cfg a = some v) (hs : v.sound = true) :
    u.step cfg a = some v := Option.filter_eq_some_iff.mpr ⟨h, hs⟩

/-- What the runtime does by itself is played. -/
theorem plays_tau (henv : ∀ w, (w.runTau cfg).isSome → env w = .tau) (h : u.runTau cfg = some v)
    (hs : v.sound = true) : Plays cfg env u v :=
  (Run.Steps.refl u).tail (henv u (Option.isSome_of_eq_some h)).symm (step_of_next h hs)

/-- A state without undefined behaviour, with no more charts in its calls. -/
theorem sound_of_calls (hs : u.sound = true) (hub : v.heap.ub = u.heap.ub)
    (hc : ∀ c, (u.heap.charts c).isSome → (v.heap.charts c).isSome)
    (hf : ∀ f ∈ v.frames, ∀ c, f.chart? = some c → ∃ g ∈ u.frames, g.chart? = some c) :
    v.sound = true := by
  simp only [sound, Bool.and_eq_true, Bool.not_eq_true', List.all_eq_true] at hs ⊢
  refine ⟨hub.trans hs.1, fun f hfm => ?_⟩
  cases hfc : f.chart? with
  | none => rfl
  | some c =>
    obtain ⟨g, hg, hgc⟩ := hf f hfm c hfc
    have halive := hs.2 g hg
    rw [hgc] at halive
    exact hc c halive

theorem calls_enterNode (h : Heap) (l : ℕ) (n : NodeRef) : (h.enterNode l n).calls =
    h.calls ++ if (h.nodes n).skip then [] else [n] := by
  have hskip : ((h.setExecutor l ({ · with currentNode := some n })).nodes n).skip =
      (h.nodes n).skip := rfl
  unfold Heap.enterNode
  dsimp only
  rw [hskip]
  split
  · rw [List.append_nil]
    rfl
  · simp [Heap.calls, Heap.act, Heap.note, Heap.setNode, Heap.setExecutor, Obs.called?]

/-- What entering a node leaves alone. -/
theorem enterNode_spec (h : Heap) (l : ℕ) (n : NodeRef) :
    (∀ m, m ≠ n → (h.enterNode l n).nodes m = h.nodes m) ∧
    (h.enterNode l n).charts = h.charts ∧ (h.enterNode l n).chartData = h.chartData ∧
    ((h.enterNode l n).stack l).nodeList = (h.stack l).nodeList ∧
    ((h.enterNode l n).stack l).historyNodes = (h.stack l).historyNodes ∧
    (h.enterNode l n).currentIndex = h.currentIndex ∧ (h.enterNode l n).ub = h.ub ∧
    ((h.nodes n).skip = true → (h.enterNode l n).nodes n = { h.nodes n with skip := false }) := by
  have hskip : ((h.setExecutor l ({ · with currentNode := some n })).nodes n).skip =
      (h.nodes n).skip := rfl
  have hlist : ((h.setExecutor l ({ · with currentNode := some n })).stack l).nodeList =
      (h.stack l).nodeList := by simp [Heap.stack_setExecutor]
  have hhist : ((h.setExecutor l ({ · with currentNode := some n })).stack l).historyNodes =
      (h.stack l).historyNodes := by simp [Heap.stack_setExecutor]
  unfold Heap.enterNode
  dsimp only
  rw [hskip]
  split
  · refine ⟨?_, rfl, rfl, hlist, hhist, rfl, rfl, ?_⟩
    · exact fun m hm => Heap.nodes_setNode_of_ne hm _
    · intro _
      rw [Heap.nodes_setNode_self]
      rfl
  · refine ⟨?_, rfl, rfl, hlist, hhist, rfl, rfl, fun hs => absurd hs ‹_›⟩
    exact fun m hm => Heap.nodes_setNode_of_ne hm _

theorem enterNode_run {h : Heap} (hs : (h.nodes n).skip = false) :
    (h.enterNode l n).nodes n = (h.nodes n).run := by
  have hskip : ((h.setExecutor l ({ · with currentNode := some n })).nodes n).skip = false := hs
  unfold Heap.enterNode
  dsimp only
  rw [hskip]
  exact Heap.nodes_setNode_self _ n _

/-- The frame of a flow that goes on names the same chart. -/
theorem chart_flow_mem {gs : List Frame} {r' : Bool} {k' : ℕ} {f : Frame}
    (hm : .flow l c k r ∈ gs) (hrest : ∀ g ∈ rest, g ∈ gs) (hf : f ∈ .flow l c k' r' :: rest)
    {d : ChartId} (hd : f.chart? = some d) : ∃ g ∈ gs, g.chart? = some d := by
  rcases List.mem_cons.mp hf with rfl | hf
  · exact ⟨_, hm, hd⟩
  · exact ⟨f, hrest f hf, hd⟩

/-- **The end of a round**, after the function of the root on top has run. -/
theorem walk_finish (henv : ∀ w, (w.runTau cfg).isSome → env w = .tau) {h : Heap}
    (hs : v.sound = true) (hf : v.frames = .ran ⟨c, t.root⟩ :: .flow l c k r :: rest)
    (hw : Heap.Walk base l c out (t :: ts) done h)
    (hb : Heap.Behaves (out t.root) l ⟨c, t.root⟩ (h.enterNode l ⟨c, t.root⟩) v.heap) :
    ∃ w r', Plays cfg env v w ∧ w.frames = .flow l c k r' :: rest ∧
      Heap.Walk base l c out (t.pick (out t.root).choice ++ ts) (t.root :: done) w.heap ∧
      w.heap.calls = v.heap.calls ∧ (r' = true ↔ r = true ∨ out t.root = .suspend) := by
  obtain ⟨heo, hec, hed, hel, heh, -, -, -⟩ := enterNode_spec h l ⟨c, t.root⟩
  have hdata : (h.enterNode l ⟨c, t.root⟩).dataOf c = h.dataOf c := by
    rw [Heap.dataOf, hec, hed]
    rfl
  have hlist := hb.list
  rw [hel, hw.list, List.map_cons] at hlist
  have hfilter : ((⟨c, t.root⟩ : NodeRef) :: ts.map fun t => ⟨c, t.root⟩).filter (· ≠ ⟨c, t.root⟩) =
      ts.map fun t => (⟨c, t.root⟩ : NodeRef) := by
    rw [List.filter_cons_of_neg (by simp), List.filter_eq_self]
    intro m hm
    obtain ⟨u, hu, rfl⟩ := List.mem_map.mp hm
    rw [decide_eq_true_eq]
    intro he
    have hur : u.root = t.root := congrArg NodeRef.id he
    refine (List.pairwise_cons.mp hw.apart.disjoint).1 u hu t.root_mem_labels ?_
    rw [← hur]
    exact u.root_mem_labels
  rw [hfilter] at hlist
  obtain ⟨hwalk, hcharts, hcalls, hub⟩ := hw.finish
    (fun m hm => (hb.others m hm).trans (heo m hm))
    (hb.chart.trans (congrFun hec c)) (hb.data.trans hdata) hlist (hb.history.trans heh) hb.outcome
  refine ⟨v.flowFinish ⟨c, t.root⟩ l c k r rest, _, plays_tau henv ?_ ?_, rfl, hwalk, hcalls, ?_⟩
  · simp only [runTau, hf]
  · refine sound_of_calls hs hub (fun d hd => ?_) fun f hfm d hd => ?_
    · have hsame : (v.flowFinish ⟨c, t.root⟩ l c k r rest).heap.charts = v.heap.charts := hcharts
      rwa [hsame]
    · refine chart_flow_mem (k := k) (r := r) ?_ (fun g hg => ?_) hfm hd
      · simp [hf]
      · simp [hf, hg]
  · rw [Bool.or_eq_true, decide_eq_true_eq]
    have hout := hb.outcome
    refine or_congr Iff.rfl ?_
    cases ho : out t.root with
    | complete b =>
      rw [ho] at hout
      exact ⟨fun h => absurd h hout.1, by simp⟩
    | stop =>
      rw [ho] at hout
      exact ⟨fun h => absurd h hout.1, by simp⟩
    | suspend =>
      rw [ho] at hout
      exact ⟨fun _ => rfl, fun _ => hout⟩

variable (cfg env s l n) in
/-- **The function of a node does what the outcome says**, whenever a flow on the executor
calls it. A node without a function has the outcome of a function that returns `false`. -/
def Obeys (o : Outcome) : Prop :=
  match (s.heap.nodeData n).func with
  | .null => o = .complete false
  | .script => ∀ u fs, Plays cfg env s u → u.frames = .func n :: fs → Heap.Called l n u.heap →
      ∃ v, Plays cfg env u v ∧ v.frames = .ran n :: fs ∧ Heap.Behaves o l n u.heap v.heap
  | f => ∀ u k r fs, Plays cfg env s u → u.frames = .flow l n.chart k r :: fs →
      Heap.Called l n (u.heap.enterNode l n) →
      Heap.Behaves o l n (u.heap.enterNode l n)
        (((u.heap.enterNode l n).callControl f).2.returnNode n
          (.ofBool ((u.heap.enterNode l n).callControl f).1))

/-- A node that is at rest, and whose function does what the outcome says. A node that is
skipped keeps its result. -/
structure Awaits (cfg : Config) (env : State → Act) (s : State) (base : Heap) (l : ℕ) (n : NodeRef)
    (o : Outcome) : Prop where
  status : (base.nodes n).status ≠ .running
  runFlag : (base.nodes n).runFlag = false
  skip : (base.nodes n).skip = true → o = .ofResult (base.nodes n).result
  obeys : (base.nodes n).skip = false → Obeys cfg env s n l o

/-- **The round runs the root on top**, which is at rest. -/
theorem flowRound_of_walk (hk : k + 1 ≤ maxNodesPerExecution)
    (hw : Heap.Walk base l c out (t :: ts) done u.heap) (hchart : base.chartRunning c = true)
    (hstatus : (u.heap.nodes ⟨c, t.root⟩).status ≠ .running)
    (hflag : (u.heap.nodes ⟨c, t.root⟩).runFlag = false) :
    u.flowRound cfg l c k r rest =
      { u with frames := .flow l c (k + 1) r :: rest }.runNode l ⟨c, t.root⟩ := by
  have hrunning : u.heap.chartRunning c = true := by
    rw [Heap.chartRunning, hw.chart]
    exact hchart
  have hround := rounds cfg u l c k r rest
  generalize u.flowRound cfg l c k r rest = w at hround
  cases hround with
  | ends ho =>
    rcases ho with ho | ho
    · rw [hw.list] at ho
      cases ho
    · rw [hrunning] at ho
      cases ho
  | cut _ hc => omega
  | @waiting n ns hl _ _ hrun _ =>
    rw [hw.list] at hl
    obtain ⟨rfl, -⟩ := List.cons.inj hl
    exact absurd hrun hstatus
  | @defer n ns hl _ _ hfl _ _ =>
    rw [hw.list] at hl
    obtain ⟨rfl, -⟩ := List.cons.inj hl
    rw [hflag] at hfl
    cases hfl
  | @run n ns hl _ _ _ _ =>
    rw [hw.list] at hl
    obtain ⟨rfl, -⟩ := List.cons.inj hl
    rfl

/-- Nothing that happens in a round is undefined behaviour, as long as the charts stay. -/
theorem sound_of_round {w : State} {f : Frame} (hs : u.sound = true)
    (hf : u.frames = .flow l c k r :: rest) (hub : w.heap.ub = u.heap.ub)
    (hch : ∀ d, (u.heap.charts d).isSome → (w.heap.charts d).isSome) (hfc : f.chart? = some c)
    (hwf : w.frames = f :: .flow l c (k + 1) r :: rest) : w.sound = true := by
  refine sound_of_calls hs hub hch fun g hg d hd => ?_
  rw [hwf] at hg
  rcases List.mem_cons.mp hg with rfl | hg
  · rw [hfc] at hd
    cases hd
    exact ⟨.flow l c k r, by simp [hf], rfl⟩
  · refine chart_flow_mem (k := k) (r := r) ?_ (fun g hg => ?_) hg hd
    · simp [hf]
    · simp [hf, hg]

/-- A node that is not skipped has the result of a function that returned nothing yet. -/
theorem called_enterNode {h : Heap} (hc : (h.nodes n).container = some (.executor l))
    (hstatus : (h.nodes n).status ≠ .running) (hs : (h.nodes n).skip = false) :
    Heap.Called l n (h.enterNode l n) := by
  have hn := enterNode_run (l := l) hs
  constructor
  · rw [hn]
    exact hc
  · rw [hn]
    exact hstatus
  · rw [hn]
    rfl

/-- The function of the root on top runs. -/
theorem walk_run (henv : ∀ w, (w.runTau cfg).isSome → env w = .tau) (hru : Reachable cfg u)
    (hsu : Plays cfg env s u) (hf : u.frames = .flow l c k r :: rest)
    (hk : k + 1 ≤ maxNodesPerExecution) (hw : Heap.Walk base l c out (t :: ts) done u.heap)
    (hchart : base.chartRunning c = true) (hdata : base.dataOf c = s.heap.dataOf c)
    (ha : Awaits cfg env s base l ⟨c, t.root⟩ (out t.root)) :
    ∃ v, Plays cfg env u v ∧ v.frames = .ran ⟨c, t.root⟩ :: .flow l c (k + 1) r :: rest ∧
      Heap.Behaves (out t.root) l ⟨c, t.root⟩ (u.heap.enterNode l ⟨c, t.root⟩) v.heap := by
  have hsu' := (wf_of_reachable hru).sound
  obtain ⟨hstatus, hflag, hskip, hobeys⟩ := ha
  have hcore := hw.core t.root (Heap.Walk.root_mem t ts)
  have hstatus' : (u.heap.nodes ⟨c, t.root⟩).status ≠ .running := fun he =>
    hstatus ((congrArg Node.status hcore : _ = _).symm.trans he)
  have hflag' : (u.heap.nodes ⟨c, t.root⟩).runFlag = false :=
    (congrArg Node.runFlag hcore : _ = _).trans hflag
  have hskip' : (u.heap.nodes ⟨c, t.root⟩).skip = (base.nodes ⟨c, t.root⟩).skip :=
    (congrArg Node.skip hcore :)
  have hresult' : (u.heap.nodes ⟨c, t.root⟩).result = (base.nodes ⟨c, t.root⟩).result :=
    (congrArg Node.result hcore :)
  have hcont : (u.heap.nodes ⟨c, t.root⟩).container = some (.executor l) := by
    rw [hw.container _ (Heap.Walk.root_mem t ts)]
    exact if_pos List.mem_cons_self
  have hnodeData : u.heap.nodeData ⟨c, t.root⟩ = s.heap.nodeData ⟨c, t.root⟩ := by
    rw [Heap.nodeData, Heap.nodeData, hw.data, hdata]
  have hnext : u.runTau cfg = some (u.flowRound cfg l c k r rest) := by
    simp only [runTau, hf]
  rw [flowRound_of_walk hk hw hchart hstatus' hflag'] at hnext
  obtain ⟨-, hec, -, -, -, -, heu, hes⟩ := enterNode_spec u.heap l ⟨c, t.root⟩
  have hcharts : ∀ d, (u.heap.charts d).isSome →
      ((u.heap.enterNode l ⟨c, t.root⟩).charts d).isSome := fun d hd => by rwa [hec]
  have hrun := called_enterNode (n := ⟨c, t.root⟩) hcont hstatus'
  have hr := runsNode { u with frames := .flow l c (k + 1) r :: rest } l ⟨c, t.root⟩
  generalize State.runNode { u with frames := .flow l c (k + 1) r :: rest } l ⟨c, t.root⟩ = w
    at hr hnext
  cases hr with
  | skip hs =>
    have hn := hes hs
    refine ⟨_, plays_tau henv hnext (sound_of_round (f := .ran ⟨c, t.root⟩) hsu' hf heu hcharts rfl
      rfl), rfl, ?_⟩
    refine Heap.behaves_refl ?_ ?_
    · rw [hn]
      exact hcont
    · rw [hn, hskip (hskip'.symm.trans hs), ← hresult']
      cases hres : (u.heap.nodes ⟨c, t.root⟩).result with
      | rTrue | rFalse => exact ⟨hstatus', hres, hcont⟩
      | rStop => exact ⟨hstatus', hres⟩
  | null hs hfn =>
    have ho := hobeys (hskip'.symm.trans hs)
    have hfn' : (s.heap.nodeData ⟨c, t.root⟩).func = .null := hnodeData ▸ hfn
    rw [Obeys, hfn'] at ho
    have hcalled := hrun hs
    refine ⟨_, plays_tau henv hnext (sound_of_round (f := .ran ⟨c, t.root⟩) hsu' hf heu hcharts rfl
      rfl), rfl, ?_⟩
    refine Heap.behaves_refl hcalled.container ?_
    rw [ho]
    exact ⟨hcalled.status, hcalled.result, hcalled.container⟩
  | script hs hfn =>
    have ho := hobeys (hskip'.symm.trans hs)
    have hfn' : (s.heap.nodeData ⟨c, t.root⟩).func = .script := hnodeData ▸ hfn
    rw [Obeys, hfn'] at ho
    have hplay := plays_tau henv hnext (sound_of_round (f := .func ⟨c, t.root⟩) hsu' hf heu hcharts
      rfl rfl)
    obtain ⟨v, huv, hvf, hb⟩ := ho _ _ (hsu.trans hplay) rfl (hrun hs)
    exact ⟨v, hplay.trans huv, hvf, hb⟩
  | @control f hs hfn hf1 hf2 =>
    have ho := hobeys (hskip'.symm.trans hs)
    have hfn' : (s.heap.nodeData ⟨c, t.root⟩).func = f := hnodeData ▸ hfn
    have hb : Heap.Behaves (out t.root) l ⟨c, t.root⟩ (u.heap.enterNode l ⟨c, t.root⟩)
        (((u.heap.enterNode l ⟨c, t.root⟩).callControl f).2.returnNode ⟨c, t.root⟩
          (.ofBool ((u.heap.enterNode l ⟨c, t.root⟩).callControl f).1)) := by
      rw [Obeys, hfn'] at ho
      cases f with
      | null => exact absurd rfl hf1
      | script => exact absurd rfl hf2
      | waitAll | stopNode | stopFlow => exact ho u k r rest hsu hf (hrun hs)
    refine ⟨_, plays_tau henv hnext (sound_of_round (f := .ran ⟨c, t.root⟩) hsu' hf
      (hb.ub.trans heu) ?_ rfl rfl), rfl, hb⟩
    exact fun d hd => Heap.charts_callControl_isSome _ f (hcharts d hd)

/-- **One round of the loop.** -/
theorem walk_round (henv : ∀ w, (w.runTau cfg).isSome → env w = .tau) (hru : Reachable cfg u)
    (hsu : Plays cfg env s u) (hf : u.frames = .flow l c k r :: rest)
    (hk : k + 1 ≤ maxNodesPerExecution) (hw : Heap.Walk base l c out (t :: ts) done u.heap)
    (hchart : base.chartRunning c = true) (hdata : base.dataOf c = s.heap.dataOf c)
    (ha : Awaits cfg env s base l ⟨c, t.root⟩ (out t.root)) :
    ∃ w r', Plays cfg env u w ∧ w.frames = .flow l c (k + 1) r' :: rest ∧
      Heap.Walk base l c out (t.pick (out t.root).choice ++ ts) (t.root :: done) w.heap ∧
      w.heap.calls = u.heap.calls ++
        (if (base.nodes ⟨c, t.root⟩).skip then [] else [⟨c, t.root⟩]) ∧
      (r' = true ↔ r = true ∨ out t.root = .suspend) := by
  obtain ⟨v, huv, hvf, hb⟩ := walk_run henv hru hsu hf hk hw hchart hdata ha
  have hv : Reachable cfg v := hru.trans (huv.mono fun _ _ _ => trivial)
  obtain ⟨w, r', hvw, hwf, hwalk, hcalls, hr'⟩ :=
    walk_finish henv (wf_of_reachable hv).sound hvf hw hb
  refine ⟨w, r', huv.trans hvw, hwf, hwalk, ?_, hr'⟩
  have hcore := hw.core t.root (Heap.Walk.root_mem t ts)
  have hskip : (u.heap.nodes ⟨c, t.root⟩).skip = (base.nodes ⟨c, t.root⟩).skip :=
    (congrArg Node.skip hcore :)
  rw [hcalls, hb.calls, calls_enterNode, hskip]

variable (base c) in
/-- The nodes of a list whose functions are called. -/
def functions (ids : List ℕ) : List NodeRef :=
  (ids.filter fun i => !(base.nodes ⟨c, i⟩).skip).map (⟨c, ·⟩)

theorem functions_cons (i : ℕ) (ids : List ℕ) : functions base c (i :: ids) =
    (if (base.nodes ⟨c, i⟩).skip then [] else [⟨c, i⟩]) ++ functions base c ids := by
  unfold functions
  cases h : (base.nodes ⟨c, i⟩).skip with
  | false => simp [h]
  | true => simp [h]

/-- **The loop**: it visits the nodes in the order of the recursive traversal. -/
theorem walk_loop (henv : ∀ w, (w.runTau cfg).isSome → env w = .tau)
    (hchart : base.chartRunning c = true) (hdata : base.dataOf c = s.heap.dataOf c)
    (hru : Reachable cfg u) (hsu : Plays cfg env s u) (hf : u.frames = .flow l c k r :: rest)
    (hk : k + (Tree.preorders (fun i => (out i).choice) ts).length ≤ maxNodesPerExecution)
    (hw : Heap.Walk base l c out ts done u.heap)
    (ha : ∀ i ∈ Tree.labelsAll ts, Awaits cfg env s base l ⟨c, i⟩ (out i)) :
    ∃ w k' r', Plays cfg env u w ∧ w.frames = .flow l c k' r' :: rest ∧
      Heap.Walk base l c out []
        ((Tree.preorders (fun i => (out i).choice) ts).reverse ++ done) w.heap ∧
      w.heap.calls = u.heap.calls ++
        functions base c (Tree.preorders (fun i => (out i).choice) ts) ∧
      (r' = true ↔ r = true ∨
        ∃ i ∈ Tree.preorders (fun i => (out i).choice) ts, out i = .suspend) := by
  induction ts using Tree.walk_induction fun i => (out i).choice generalizing u done k r with
  | hnil =>
    refine ⟨u, k, r, .refl u, hf, hw, ?_, ?_⟩
    · exact (List.append_nil _).symm
    · exact ⟨.inl, fun h => h.elim id fun ⟨_, hi, _⟩ => nomatch hi⟩
  | hcons t ts ih =>
    rw [Tree.preorders_cons] at hk ⊢
    rw [List.length_cons] at hk
    obtain ⟨v, r₁, huv, hvf, hwalk, hcalls, hr₁⟩ := walk_round henv hru hsu hf (by omega) hw hchart
      hdata (ha t.root (Heap.Walk.root_mem t ts))
    have hv : Reachable cfg v := hru.trans (huv.mono fun _ _ _ => trivial)
    obtain ⟨w, k', r', hvw, hwf, hend, hcalls', hr'⟩ := ih hv (hsu.trans huv) hvf (by omega) hwalk
      fun i hi => ha i (Tree.labels_round _ t ts hi)
    refine ⟨w, k', r', huv.trans hvw, hwf, ?_, ?_, ?_⟩
    · rw [List.reverse_cons, List.append_assoc]
      exact hend
    · rw [hcalls', hcalls, List.append_assoc, functions_cons]
    · rw [hr', hr₁, List.exists_mem_cons_iff, or_assoc]

/-- **A flow is about to be run at the root of a tree**, with the edges of both kinds together,
whose nodes are at rest, and whose functions do what the outcomes say. The root may be skipped. -/
structure Begins (cfg : Config) (env : State → Act) (s : State) (c : ChartId) (t : Tree ℕ)
    (out : ℕ → Outcome) (rest : List Frame) : Prop where
  frames : s.frames = .enter ⟨c, t.root⟩ :: rest
  level : s.heap.currentIndex + 1 < maxStackSize
  agent : (s.heap.agentOf ⟨c, t.root⟩).any s.heap.agentRunning = true
  chart : s.heap.chartRunning c = true
  grows : s.heap.Grows c t
  unshared : t.Unshared
  container : ∀ i ∈ t.labels, (s.heap.nodes ⟨c, i⟩).container = none
  runFlag : ∀ i ∈ t.labels, (s.heap.nodes ⟨c, i⟩).runFlag = false
  status : ∀ i ∈ t.labels, i ≠ t.root → (s.heap.nodes ⟨c, i⟩).status ≠ .running
  skip : ∀ i ∈ t.labels, i ≠ t.root → (s.heap.nodes ⟨c, i⟩).skip = false
  skipped : (s.heap.nodes ⟨c, t.root⟩).skip = true →
    out t.root = .ofResult (s.heap.nodes ⟨c, t.root⟩).result
  obeys : ∀ i ∈ t.labels, (s.heap.nodes ⟨c, i⟩).skip = false →
    Obeys cfg env s ⟨c, i⟩ (s.heap.currentIndex + 1) (out i)

/-- **The start of the loop.** -/
theorem walk_begin (henv : ∀ w, (w.runTau cfg).isSome → env w = .tau) (hs : Reachable cfg s)
    (hb : Begins cfg env s c t out rest) : ∃ u, Plays cfg env s u ∧
      u.frames = .flow (s.heap.currentIndex + 1) c 0 false :: rest ∧
      Heap.Walk u.heap (s.heap.currentIndex + 1) c out [t] [] u.heap ∧
      u.heap.chartRunning c = true ∧ u.heap.dataOf c = s.heap.dataOf c ∧
      u.heap.calls = s.heap.calls ∧
      (∀ i, (u.heap.nodes ⟨c, i⟩).skip = (s.heap.nodes ⟨c, i⟩).skip) ∧
      ∀ i ∈ t.labels, Awaits cfg env s u.heap (s.heap.currentIndex + 1) ⟨c, i⟩ (out i) := by
  obtain ⟨hf, hlevel, hagent, hchart, hgrows, hunshared, hcont, hflag, hstatus, hskip, hskipped,
    hobeys⟩ := hb
  have hwf := wf_of_reachable hs
  have hshape := shaped_of_reachable hs
  -- The executor of the new flow has no history.
  have hhist : (s.heap.stack (s.heap.currentIndex + 1)).historyNodes = [] := by
    refine tidy_of_reachable hs _ ?_
    rintro ⟨d, k, r, hl⟩
    have hst := hshape.stacked
    rw [hf] at hst hl
    exact Nat.not_succ_le_self _ ((hst.nest_of_call trivial).le_of_flow hl)
  obtain ⟨a, ha, har⟩ := (Option.any_eq_true _ _).mp hagent
  have hbegun := Heap.begun_beginFlow (s.heap.currentIndex + 1) a (hcont t.root t.root_mem_labels)
  have hnext : s.runTau cfg = some { s.mapHeap (·.beginFlow (s.heap.currentIndex + 1) a ⟨c, t.root⟩)
      with frames := .flow (s.heap.currentIndex + 1) c 0 false :: rest } := by
    have hnot : ¬maxStackSize ≤ s.heap.currentIndex + 1 := by omega
    simp only [runTau, hf, enterFlow, if_neg hnot, ha, har, hchart, Bool.and_self, if_true]
  have hplay : Plays cfg env s { s.mapHeap (·.beginFlow (s.heap.currentIndex + 1) a ⟨c, t.root⟩)
      with frames := .flow (s.heap.currentIndex + 1) c 0 false :: rest } := by
    refine plays_tau henv hnext (sound_of_calls hwf.sound hbegun.ub (fun d hd => ?_) ?_)
    · exact (congrFun hbegun.charts d).symm ▸ hd
    · intro f hfm d hd
      rcases List.mem_cons.mp hfm with rfl | hfm
      · exact ⟨.enter ⟨c, t.root⟩, by simp [hf], hd⟩
      · exact ⟨f, by simp [hf, hfm], hd⟩
  refine ⟨_, hplay, rfl, ?_⟩
  change Heap.Walk (s.heap.beginFlow _ a ⟨c, t.root⟩) _ c out [t] []
    (s.heap.beginFlow _ a ⟨c, t.root⟩) ∧
      (s.heap.beginFlow _ a ⟨c, t.root⟩).chartRunning c = true ∧ _
  dsimp only [mapHeap]
  generalize s.heap.beginFlow (s.heap.currentIndex + 1) a ⟨c, t.root⟩ = g at hbegun ⊢
  generalize hl : s.heap.currentIndex + 1 = l at *
  have hdata : g.dataOf c = s.heap.dataOf c := by
    rw [Heap.dataOf, hbegun.charts, hbegun.chartData]
    rfl
  have hlabels : Tree.labelsAll [t] = t.labels := List.append_nil _
  have hothers : ∀ i, i ≠ t.root → g.nodes ⟨c, i⟩ = s.heap.nodes ⟨c, i⟩ :=
    fun i hi => hbegun.others _ fun he => hi (congrArg NodeRef.id he)
  have hskips : ∀ i, (g.nodes ⟨c, i⟩).skip = (s.heap.nodes ⟨c, i⟩).skip := by
    intro i
    by_cases hi : i = t.root
    · rw [hi, hbegun.root]
    · rw [hothers i hi]
  refine ⟨?_, ?_, hdata, hbegun.calls, hskips, ?_⟩
  · constructor
    · exact hbegun.list
    · exact fun _ _ => rfl
    · intro i hi
      rw [hlabels] at hi
      by_cases hir : i = t.root
      · rw [hir, hbegun.root]
        exact (if_pos List.mem_cons_self).symm
      · rw [hothers i hir, hcont i hi, if_neg]
        exact fun hm => hir (List.mem_singleton.mp hm)
    · rfl
    · rfl
    · intro u hu
      obtain rfl := List.mem_singleton.mp hu
      exact hgrows.congr (congrFun hbegun.charts c) hdata
    · exact hunshared.apart
    · simp [hbegun.history, hhist]
    · simp
  · rw [Heap.chartRunning, hbegun.charts]
    exact hchart
  · intro i hi
    have hobey := hobeys i hi
    by_cases hir : i = t.root
    · subst hir
      constructor
      · simp [hbegun.root]
      · rw [hbegun.root]
        exact hflag _ hi
      · rw [hbegun.root]
        exact hskipped
      · rw [hbegun.root]
        exact hobey
    · constructor
      · rw [hothers i hir]
        exact hstatus i hi hir
      · rw [hothers i hir]
        exact hflag i hi
      · simp [hothers i hir, hskip i hi hir]
      · rw [hothers i hir]
        exact hobey

/-- **The end of the loop**, when no node is pending. -/
theorem walk_end (henv : ∀ w, (w.runTau cfg).isSome → env w = .tau) (hru : Reachable cfg u)
    (hf : u.frames = .flow l c k r :: rest) (hw : Heap.Walk base l c out [] done u.heap) :
    ∃ v, Plays cfg env u v ∧ v.frames = .ended l c r :: rest ∧
      v.heap = u.heap.restoreHistory l := by
  have hst := stoppable_of_reachable hru
  obtain ⟨-, -, -, -, halive, -, hub⟩ := hw.restored hst.ranked hst.tied
  have hlist : (u.heap.stack l).nodeList = [] := hw.list
  refine ⟨{ u.mapHeap (·.restoreHistory l) with frames := .ended l c r :: rest },
    plays_tau henv ?_ (sound_of_calls (wf_of_reachable hru).sound hub halive ?_), rfl, rfl⟩
  · simp only [runTau, hf, flowRound, hlist]
  · intro f hfm d hd
    rcases List.mem_cons.mp hfm with rfl | hfm
    · exact ⟨.flow l c k r, by simp [hf], hd⟩
    · exact ⟨f, by simp [hf, hfm], hd⟩

/-- **A flow has traversed the tree**: it has called the functions of the nodes in the order
of the recursive traversal. It says whether a node is suspended. -/
structure Traversed (s : State) (c : ChartId) (t : Tree ℕ) (out : ℕ → Outcome) (rest : List Frame)
    (v : State) (r : Bool) : Prop where
  frames : v.frames = .ended (s.heap.currentIndex + 1) c r :: rest
  /-- The function of a start node that is skipped is not called. -/
  order : v.heap.calls = s.heap.calls ++
    (if (s.heap.nodes ⟨c, t.root⟩).skip then (t.preorder fun i => (out i).choice).tail
      else t.preorder fun i => (out i).choice).map (⟨c, ·⟩)
  stack : (v.heap.stack (s.heap.currentIndex + 1)).nodeList = []
  completed : ∀ i ∈ t.preorder fun i => (out i).choice, ∀ b, out i = .complete b →
    (v.heap.nodes ⟨c, i⟩).status = .idle ∧ (v.heap.nodes ⟨c, i⟩).runFlag = false
  suspended : ∀ i ∈ t.preorder fun i => (out i).choice, out i = .suspend →
    (v.heap.nodes ⟨c, i⟩).status = .running
  running : r = true ↔ ∃ i ∈ t.preorder fun i => (out i).choice, out i = .suspend

/-- **One `RunFlow` on a tree.** The loop ends, and when it has left a suspended node or
another node of the chart is running, `RunFlow` returns with the nodes as they are. -/
theorem traversed (henv : ∀ w, (w.runTau cfg).isSome → env w = .tau) (hs : Reachable cfg s)
    (hb : Begins cfg env s c t out rest)
    (hmax : (t.preorder fun i => (out i).choice).length ≤ maxNodesPerExecution) :
    ∃ v r, Plays cfg env s v ∧ Traversed s c t out rest v r ∧
      (r = true ∨ v.heap.checkRunning c = true → ∃ w, Plays cfg env v w ∧ w.frames = rest ∧
        w.heap.currentIndex = s.heap.currentIndex ∧ w.heap.nodes = v.heap.nodes ∧
        w.heap.calls = v.heap.calls ∧
        (w.heap.stack (s.heap.currentIndex + 1)).nodeList = []) := by
  obtain ⟨u, hsu, huf, hwalk, hchart, hdata, hcalls, hskips, ha⟩ := walk_begin henv hs hb
  have hu : Reachable cfg u := hs.trans (hsu.mono fun _ _ _ => trivial)
  have hlabels : Tree.labelsAll [t] = t.labels := List.append_nil _
  have hpre : Tree.preorders (fun i => (out i).choice) [t] = t.preorder fun i => (out i).choice :=
    List.append_nil _
  obtain ⟨w, k, r, huw, hwf, hend, hwcalls, hr⟩ := walk_loop henv hchart hdata hu hsu huf
    (by rwa [Nat.zero_add, hpre]) hwalk (by rwa [hlabels])
  rw [hpre] at hend hwcalls hr
  have hwr : Reachable cfg w := hu.trans (huw.mono fun _ _ _ => trivial)
  obtain ⟨v, hwv, hvf, hvh⟩ := walk_end henv hwr hwf hend
  have hst := stoppable_of_reachable hwr
  obtain ⟨hlist, hcomplete, hsuspend, -, -, hvcalls, -⟩ := hend.restored hst.ranked hst.tied
  rw [← hvh] at hlist hcomplete hsuspend hvcalls
  have hv : Reachable cfg v := hwr.trans (hwv.mono fun _ _ _ => trivial)
  refine ⟨v, r, (hsu.trans huw).trans hwv, ⟨hvf, ?_, hlist, ?_, ?_, ?_⟩, fun hrun => ?_⟩
  · rw [hvcalls, hwcalls, hcalls, functions]
    have hfilter : (t.preorder fun i => (out i).choice).filter
        (fun i => !(u.heap.nodes ⟨c, i⟩).skip) =
        if (s.heap.nodes ⟨c, t.root⟩).skip then (t.preorder fun i => (out i).choice).tail
          else t.preorder fun i => (out i).choice := by
      have hsub : (t.preorder fun i => (out i).choice) ⊆ t.labels := by
        rw [← hpre, ← hlabels]
        exact Tree.preorders_subset _ _
      have hnodup := hb.unshared.apart.nodup_preorders fun i => (out i).choice
      rw [hpre] at hnodup
      rw [Tree.preorder_eq] at hsub hnodup ⊢
      -- Only the root may be skipped.
      have htail : (Tree.preorders (fun i => (out i).choice) (t.pick (out t.root).choice)).filter
          (fun i => !(u.heap.nodes ⟨c, i⟩).skip) =
          Tree.preorders (fun i => (out i).choice) (t.pick (out t.root).choice) := by
        refine List.filter_eq_self.mpr fun i hi => ?_
        have hne : i ≠ t.root := by
          rintro rfl
          exact (List.nodup_cons.mp hnodup).1 hi
        rw [hskips, hb.skip i (hsub (List.mem_cons_of_mem _ hi)) hne]
        rfl
      rw [List.filter_cons, htail, hskips, List.tail_cons]
      cases (s.heap.nodes ⟨c, t.root⟩).skip <;> rfl
    rw [hfilter]
  · intro i hi b ho
    exact hcomplete i (List.mem_append_left _ (List.mem_reverse.mpr hi)) b ho
  · intro i hi ho
    exact hsuspend i (List.mem_append_left _ (List.mem_reverse.mpr hi)) ho
  · exact hr.trans ⟨fun h => h.elim (fun h => nomatch h) id, .inr⟩
  · have hnot : (!r && !v.heap.checkRunning c && v.heap.chartRunning c) = false := by
      rcases hrun with rfl | hcr
      · rfl
      · rw [hcr, Bool.not_true, Bool.and_false, Bool.false_and]
    refine ⟨{ v.mapHeap (·.closeFlow (s.heap.currentIndex + 1)) with frames := rest },
      plays_tau henv ?_ ?_, rfl, rfl, rfl, rfl, ?_⟩
    · simp only [runTau, hvf, flowCheck, hnot]
      rfl
    · refine sound_of_calls (wf_of_reachable hv).sound rfl (fun _ => id) fun f hfm d hd => ?_
      exact ⟨f, by simp [hvf, hfm], hd⟩
    · simp only [mapHeap, Heap.closeFlow, Heap.stack_setExecutor, if_true]
      exact hlist

/-- A script that returns at once. -/
theorem obeys_of_ret (hs : Reachable cfg s) {x : NodeResult}
    (hn : (s.heap.nodeData n).func = .script)
    (henv : ∀ w fs, w.frames = .func n :: fs → env w = .ret x) :
    Obeys cfg env s n l (.ofResult x) := by
  rw [Obeys, hn]
  intro u fs hsu hf hc
  have hu : Reachable cfg u := hs.trans (hsu.mono fun _ _ _ => trivial)
  have hnext : u.next cfg (.ret x) = some
      (({ u with frames := fs }.mapHeap (·.returnNode n x)).call (.ran n)) := by
    simp only [next, hf]
  have hsound : (({ u with frames := fs }.mapHeap (·.returnNode n x)).call
      (.ran n)).sound = true := by
    refine sound_of_calls (wf_of_reachable hu).sound rfl (fun _ => id) fun f hfm d hd => ?_
    rcases List.mem_cons.mp hfm with rfl | hfm
    · exact ⟨.func n, by simp [hf], hd⟩
    · refine ⟨f, ?_, hd⟩
      rw [hf]
      exact List.mem_cons_of_mem _ hfm
  refine ⟨_, (Run.Steps.refl u).tail (henv u fs hf).symm (step_of_next hnext hsound), rfl, ?_⟩
  have hself : (u.heap.returnNode n x).nodes n = { u.heap.nodes n with result := x } := by
    rw [Heap.returnNode, Heap.nodes_act, Heap.nodes_setNode_self, Node.return, hc.result]
    exact if_neg (by simp)
  constructor
  · exact fun m hm => Heap.nodes_setNode_of_ne hm _
  · rfl
  · rfl
  · refine (if_pos ?_).symm
    change ((u.heap.returnNode n x).nodes n).container = _
    rw [hself]
    exact hc.container
  · rfl
  · exact Heap.calls_cons (h := u.heap) rfl rfl rfl
  · rfl
  · change Outcome.Leaves l ((u.heap.returnNode n x).nodes n) (.ofResult x)
    rw [hself]
    cases x with
    | rTrue | rFalse => exact ⟨hc.status, rfl, hc.container⟩
    | rStop => exact ⟨hc.status, rfl⟩

/-- A chart whose start node has two children for both results, as a connector of type 2 makes
them. The first one has a child for both results and one for the second. -/
def treeChart : ChartData :=
  { name := "tree"
    startFuncName := "start"
    nodes := [{ func := .script, success := [1, 2], failure := [1, 2] },
      { func := .script, success := [3], failure := [3, 4] }, { func := .script, success := [5] },
      { func := .script }, { func := .script }, { func := .script }] }

/-- What is reached from the start node, on success and on failure. -/
def startTrees : List (Tree ℕ) :=
  [.node 1 [.node 3 [] []] [.node 3 [] [], .node 4 [] []], .node 2 [.node 5 [] []] []]

/-- The part of the chart that is reached from its start node. -/
def chartTree : Tree ℕ :=
  .node 0 startTrees startTrees

theorem unshared_chartTree : chartTree.Unshared := by
  have hleaf : ∀ i : ℕ, (Tree.node i [] []).Unshared := fun i =>
    .node List.nodup_nil List.nodup_nil nofun nofun nofun
  have h1 : (Tree.node 1 [.node 3 [] []] [.node 3 [] [], .node 4 [] []]).Unshared := by
    refine .node (by simp) (by simp) (by decide) ?_ ?_
    all_goals simp [hleaf, Tree.labels, Tree.labelsAll]
  have h2 : (Tree.node 2 [.node 5 [] []] []).Unshared := by
    refine .node (by simp) (by simp) (by decide) ?_ ?_
    all_goals simp [hleaf]
  refine .node (by simp [startTrees]) (by simp [startTrees]) (by decide) ?_ ?_
  all_goals simp [startTrees, h1, h2, Tree.labels, Tree.labelsAll]

/-- The second node is done without success, the third is stopped. -/
def treeResult : ℕ → NodeResult
  | 1 => .rFalse
  | 2 => .rStop
  | _ => .rTrue

/-- Every function returns at once. -/
def treeEnv (w : State) : Act :=
  match w.frames with
  | .func n :: _ => .ret (treeResult n.id)
  | _ => .tau

/-- The nodes are visited from left to right, and not below the one that is stopped. -/
theorem traversed_tree : ∃ s v r, Reachable { deferEvent := false } s ∧
    Plays { deferEvent := false } treeEnv s v ∧
    Traversed s 0 chartTree (fun i => .ofResult (treeResult i)) [.starting 1 0] v r ∧
    chartTree.preorder (fun i => (Outcome.ofResult (treeResult i)).choice) = [0, 1, 3, 4, 2] := by
  obtain ⟨s, hs, hf, hidx, hagent, hchart, hcount, hdata, hnodes⟩ :=
    exists_of_exec { deferEvent := false }
      [.op (.importChart treeChart), .op (.register 0), .op (.attachChart 1 "tree")]
      [.op (.startChart 0)]
      (fun s => s.frames = [.enter ⟨0, 0⟩, .starting 1 0] ∧ s.heap.currentIndex = 0 ∧
        (s.heap.agentOf ⟨0, 0⟩).any s.heap.agentRunning = true ∧ s.heap.chartRunning 0 = true ∧
        s.heap.nodesCount 0 = 6 ∧
        (∀ i ∈ chartTree.labels, treeChart.nodes[i]? = some (s.heap.nodeData ⟨0, i⟩)) ∧
        (∀ i ∈ chartTree.labels, s.heap.nodes ⟨0, i⟩ =
          if i = 0 then { status := .running } else {})) (by decide +kernel)
  have henv : ∀ w, (w.runTau { deferEvent := false }).isSome → treeEnv w = .tau := by
    intro w hw
    unfold treeEnv
    split
    · rename_i hfn
      simp [runTau, hfn] at hw
    · rfl
  have hgrows : s.heap.Grows 0 chartTree := by
    have hnode : ∀ i ss fs, i ∈ chartTree.labels → i < 6 →
        treeChart.nodes[i]? = some
          { func := .script, success := ss.map Tree.root, failure := fs.map Tree.root } →
        (∀ t ∈ ss, s.heap.Grows 0 t) → (∀ t ∈ fs, s.heap.Grows 0 t) →
        s.heap.Grows 0 (.node i ss fs) := by
      intro i ss fs hi hlt hd hss hfs
      have hn := Option.some.inj ((hdata i hi).symm.trans hd)
      refine .node ?_ ?_ ?_ hss hfs
      · rwa [hcount]
      · rw [hn]
      · rw [hn]
    have h3 := hnode 3 [] [] (by decide) (by decide) rfl (by simp) (by simp)
    have h4 := hnode 4 [] [] (by decide) (by decide) rfl (by simp) (by simp)
    have h5 := hnode 5 [] [] (by decide) (by decide) rfl (by simp) (by simp)
    have h1 := hnode 1 [.node 3 [] []] [.node 3 [] [], .node 4 [] []] (by decide) (by decide) rfl
      (by simpa using h3) (by simpa using ⟨h3, h4⟩)
    have h2 := hnode 2 [.node 5 [] []] [] (by decide) (by decide) rfl (by simpa using h5) (by simp)
    have h12 : ∀ t ∈ startTrees, s.heap.Grows 0 t := by simpa [startTrees] using ⟨h1, h2⟩
    exact hnode 0 startTrees startTrees (by decide) (by decide) rfl h12 h12
  have hscript : ∀ i ∈ chartTree.labels, (s.heap.nodeData ⟨0, i⟩).func = .script := by
    intro i hi
    have hall : ∀ i ∈ chartTree.labels, ∀ d ∈ treeChart.nodes[i]?, d.func = .script := by decide
    exact hall i hi _ (hdata i hi)
  have hbegins : Begins { deferEvent := false } treeEnv s 0 chartTree
      (fun i => .ofResult (treeResult i)) [.starting 1 0] := by
    refine ⟨hf, by rw [hidx]; decide, hagent, hchart, hgrows, unshared_chartTree, ?_, ?_, ?_, ?_,
      ?_, ?_⟩
    · intro i hi
      rw [hnodes i hi]
      split <;> rfl
    · intro i hi
      rw [hnodes i hi]
      split <;> rfl
    · intro i hi hne
      have hne' : i ≠ 0 := hne
      simp [hnodes i hi, if_neg hne']
    · intro i hi hne
      have hne' : i ≠ 0 := hne
      rw [hnodes i hi, if_neg hne']
    · intro hskip
      rw [hnodes _ (Tree.root_mem_labels _)] at hskip
      cases hskip
    · intro i hi _
      refine obeys_of_ret hs (hscript i hi) fun w fs hw => ?_
      rw [treeEnv, hw]
  obtain ⟨v, r, hsv, ht, -⟩ := traversed henv hs hbegins (by decide)
  exact ⟨s, v, r, hs, hsv, ht, rfl⟩

end State

end Asyncflow
