import Asyncflow.Loading.Import
import Asyncflow.Loading.Patch

/-!
# Patches that fail

`Manager::PatchFromYaml` with `in_place` applies each document to the chart data that is
registered under its path. `ChartData::PatchFromYaml` writes while it reads, and takes nothing
back. A node that it rejects does not stop it, and the chart is counted although it returns
`false`; so the only failure that may leave everything as it was is an exception of `std::stoi`,
and only if what is written before it was there already
(`Asyncflow.Loading.failsCleanly_iff`).
-/

namespace Asyncflow

namespace Loading

open Program

/-! ### The manager -/

/-- What `Manager::PatchFromYaml` changes. -/
structure Patches where
  /-- `chart_data_dict_`. -/
  dict : ChartDict
  /-- The names of the charts in the `data_list`, which are counted. -/
  counted : List String := []

/-- A chart that is loaded anew, and registered. -/
def patchNew (doc : YamlTree) : Program Abort Patches PUnit :=
  match (fromYaml doc).run.run {} with
  | (.ok true, t) => modify fun s =>
    { dict := reloadChartData s.dict t.chart, counted := s.counted ++ [t.chart.name] }
  | (.ok false, _) => pure ⟨⟩
  | (.error e, _) => throw e

/-- A chart that is patched in place. It is counted whatever the patch returns. -/
def patchInPlace (path : String) (data : ChartData) (doc : YamlTree) :
    Program Abort Patches PUnit :=
  match (patchFromYaml doc).run.run data.patching with
  | (.ok _, t) => modify fun s =>
    { dict := Function.update s.dict path (some t.chart), counted := s.counted ++ [path] }
  | (.error e, t) => do
    modify fun s => { s with dict := Function.update s.dict path (some t.chart) }
    throw e

/-- A round of `Manager::PatchFromYaml`. -/
def patchChart (inPlace : Bool) (doc : YamlTree) : Program Abort Patches PUnit := do
  let path ← doc.get "path"
  match (← get).dict path, inPlace with
  | some data, true => patchInPlace path data doc
  | _, _ => patchNew doc

/-- `Manager::PatchFromYaml` of the documents of a stream. -/
def patchCharts (inPlace : Bool) (docs : List YamlTree) : Program Abort Patches ℕ := do
  docs.forM (patchChart inPlace)
  pure (← get).counted.length

/-! ### Clean failures -/

/-- **The patch changes nothing**: the chart data are the same, no chart is counted, and the code
has neither run into undefined behaviour nor ended the process. -/
def FailsCleanly (doc : YamlTree) (s : Patches) : Prop :=
  ∃ r, (patchChart true doc).run.run s = (r, s) ∧ r ≠ .error .undefined ∧ r ≠ .error .assertion

/-- **What a patch writes is there already**, up to the connector that aborts it: the document
lists no new node, every node of the document has the values it writes, and the successors of
every node are those that the connectors write. -/
structure Redundant (data : ChartData) (doc : YamlTree) : Prop where
  uids : ∀ u ∈ doc.uids, u ∈ data.nodes.map (·.uid)
  fields : ∀ (i : ℕ) (d : NodeData), data.nodes[i]? = some d →
    ∀ p ∈ overlay ((doc.items "nodes").filterMap (YamlTree.overwrite? data data.indexOf)) i,
      p.apply d = d
  unlisted : ∀ (i : ℕ) (d : NodeData), data.nodes[i]? = some d →
    overlay ((doc.items "nodes").filterMap (YamlTree.overwrite? data data.indexOf)) i = none →
      endsOf data.indexOf [0, 2] (doc.linksRead data) i = [] ∧
        endsOf data.indexOf [1, 2] (doc.linksRead data) i = []
  listed : ∀ (i : ℕ) (d : NodeData), data.nodes[i]? = some d →
    overlay ((doc.items "nodes").filterMap (YamlTree.overwrite? data data.indexOf)) i ≠ none →
      d.failure = endsOf data.indexOf [0, 2] (doc.linksRead data) i ∧
        d.success = endsOf data.indexOf [1, 2] (doc.linksRead data) i

/-! ### Redundant patches -/

section Redundant

variable {data : ChartData} {doc : YamlTree}

/-- A node that a patch leaves as it is. -/
theorem linked_overlaid_eq_self_iff {o : Option NodePatch} {f g : List ℕ} {d : NodeData} :
    linked f g (overlaid o d) = d ↔ (∀ p ∈ o, p.apply d = d) ∧ (o = none → f = [] ∧ g = []) ∧
      (o ≠ none → d.failure = f ∧ d.success = g) := by
  cases o with
  | none =>
    constructor
    · intro h
      have hf := congrArg NodeData.failure h
      have hg := congrArg NodeData.success h
      exact ⟨by simp, fun _ => by simpa [linked, overlaid] using And.intro hf hg, fun h =>
        absurd rfl h⟩
    · rintro ⟨-, h, -⟩
      obtain ⟨rfl, rfl⟩ := h rfl
      simp [linked, overlaid]
  | some p =>
    -- Between the fields and the successors.
    have hlinked : d.failure = f → d.success = g →
        linked f g (overlaid (some p) d) = p.apply d := by
      rintro rfl rfl
      rfl
    constructor
    · intro h
      have hf : d.failure = f := (congrArg NodeData.failure h).symm
      have hg : d.success = g := (congrArg NodeData.success h).symm
      refine ⟨?_, by simp, fun _ => ⟨hf, hg⟩⟩
      rintro q hq
      obtain rfl := Option.some.inj hq
      exact (hlinked hf hg).symm.trans h
    · rintro ⟨hp, -, hd⟩
      obtain ⟨hf, hg⟩ := hd (by simp)
      exact (hlinked hf hg).trans (hp p rfl)

theorem grown_eq_self_iff : data.grown doc = data ↔ ∀ u ∈ doc.uids, u ∈ data.nodes.map (·.uid) := by
  constructor
  · intro h u hu
    rw [← h]
    exact (mem_uids_foldl_grow doc.uids).mpr (Or.inr hu)
  · intro h
    unfold ChartData.grown
    rw [foldl_grow_of_mem doc.uids h]

/-- A patch changes nothing if and only if what it writes is there. -/
theorem patched_eq_self_iff : data.patched doc = data ↔ Redundant data doc := by
  have hnodes : data.patched doc = data ↔
      applyWrites (data.grown doc).nodes (doc.patchWrites data) = data.nodes := by
    constructor
    · intro h
      exact congrArg ChartData.nodes h
    · intro h
      exact congrArg (fun l => ({ data with nodes := l } : ChartData)) h
  rw [hnodes]
  constructor
  · intro h
    have hgrown : data.grown doc = data := by
      rw [grown_eq_self_iff]
      intro u hu
      rw [← h]
      have huids := uids_patched data doc
      change (applyWrites (data.grown doc).nodes (doc.patchWrites data)).map (·.uid) = _ at huids
      rw [huids]
      exact (mem_uids_foldl_grow doc.uids).mpr (Or.inr hu)
    rw [hgrown, applyWrites_eq_self_iff] at h
    simp only [writesAt_patchWrites, linked_overlaid_eq_self_iff, hgrown] at h
    exact ⟨grown_eq_self_iff.mp hgrown, fun i d hd => (h i d hd).1, fun i d hd => (h i d hd).2.1,
      fun i d hd => (h i d hd).2.2⟩
  · intro h
    have hgrown := grown_eq_self_iff.mpr h.uids
    rw [hgrown, applyWrites_eq_self_iff]
    simp only [writesAt_patchWrites, linked_overlaid_eq_self_iff, hgrown]
    exact fun i d hd => ⟨h.fields i d hd, h.unlisted i d hd, h.listed i d hd⟩

end Redundant

/-! ### Failures -/

section Failures

variable {data : ChartData} {doc : YamlTree} {path : String} {s : Patches}

/-- A node never throws what `std::stoi` throws. -/
theorem bodyFault?_ne_stoi (known : String → Bool) (first : Bool) (uid : String) (n : YamlTree) :
    n.bodyFault? known first uid ≠ some (.abort .stoi) := by
  have hscalar : ∀ c : YamlTree, c.scalarFault? ≠ some .stoi := by
    intro c
    unfold YamlTree.scalarFault?
    split_ifs <;> nofun
  have hmap : ∀ o : Option Abort, o ≠ some .stoi → o.map Fault.abort ≠ some (.abort .stoi) := by
    intro o ho h
    obtain ⟨e, rfl, he⟩ := Option.map_eq_some_iff.mp h
    exact ho (congrArg some (Fault.abort.inj he))
  have hscript : ∀ code : YamlTree, code.scriptFault? uid ≠ some .stoi := by
    intro code
    unfold YamlTree.scriptFault?
    by_cases hret : code.Optional "return_var_name"
    · rw [if_pos hret]
      cases code.child? "func_name" with
      | some c => exact hscalar c
      | none =>
        cases code.child? "content" with
        | some c => exact hscalar c
        | none =>
          dsimp only
          split_ifs <;> nofun
    · rw [if_neg hret]
      nofun
  have hparam : ∀ p : YamlTree, p.paramFault? known ≠ some (.abort .stoi) := by
    intro p
    unfold YamlTree.paramFault?
    cases p.scalar? with
    | none => nofun
    | some v =>
      dsimp only
      split_ifs <;> nofun
  have hcontent : ∀ cs : List YamlTree, YamlTree.contentFault? known cs ≠ some (.abort .stoi) := by
    rintro (_ | ⟨c, cs⟩) h
    · cases h
    · rcases Option.or_eq_some_iff.mp h with h | ⟨-, h⟩
      · exact hmap _ (hscalar c) h
      · obtain ⟨p, -, hp⟩ := List.exists_of_findSome?_eq_some h
        exact hparam p hp
  have hcode : ∀ code : YamlTree, code.codeFault? known uid ≠ some (.abort .stoi) := by
    intro code
    unfold YamlTree.codeFault?
    cases code.kind? with
    | none => nofun
    | some kind =>
      dsimp only
      split_ifs
      · exact hmap _ (hscript code)
      · exact hcontent _
      · nofun
      · nofun
  unfold YamlTree.bodyFault?
  split_ifs
  · nofun
  · intro h
    obtain ⟨code, -, hc⟩ := Option.bind_eq_some_iff.mp h
    exact hcode code hc
  · nofun

theorem patchListFault?_ne_stoi (data : ChartData) (doc : YamlTree) :
    doc.patchListFault? data ≠ some .stoi := by
  intro h
  rcases Option.or_eq_some_iff.mp h with h | ⟨-, h⟩
  · obtain ⟨n, -, hn⟩ := List.exists_of_findSome?_eq_some h
    unfold YamlTree.uidFault? at hn
    split_ifs at hn
    cases Option.some.inj hn
  · obtain ⟨n, -, hn⟩ := List.exists_of_findSome?_eq_some h
    unfold YamlTree.patchAbort? at hn
    generalize hfault : n.patchFault? (data.grown doc).indexOf = o at hn
    match o, hn with
    | some (.abort e), hn =>
      obtain rfl := Option.some.inj hn
      obtain ⟨uid, -, hbody⟩ := Option.bind_eq_some_iff.mp hfault
      exact bodyFault?_ne_stoi _ _ uid n hbody

/-- **A failed patch changes nothing** if and only if it fails with the exception of `std::stoi`,
and all that is written before was there. -/
theorem failsCleanly_iff (hpath : doc.text? "path" = some path) (hdict : s.dict path = some data)
    (hp : data.Positioned) :
    FailsCleanly doc s ↔ doc.patchListFault? data = none ∧
      (doc.items "connectors").findSome? (YamlTree.linkFault? (data.grown doc).indexOf) =
        some .stoi ∧ Redundant data doc := by
  have hrun : (patchChart true doc).run.run s = (patchInPlace path data doc).run.run s := by
    unfold patchChart
    rw [(YamlTree.returns_get hpath).run_bind, (returns_get s).run_bind, hdict]
  have hout := patchFromYaml_outcome hp (YamlTree.isMap_of_text? hpath)
  have hstoi := patchListFault?_ne_stoi data doc
  unfold FailsCleanly
  rw [hrun, ← patched_eq_self_iff]
  unfold patchInPlace
  rcases hpatch : (patchFromYaml doc).run.run data.patching with ⟨e | ok, t⟩
  · -- An exception, behind what is written.
    have hdata : Function.update s.dict path (some t.chart) = s.dict ↔ t.chart = data := by
      rw [Function.update_eq_self_iff, hdict, Option.some.injEq]
    have hclean : (∃ r : Except Abort PUnit, ((Except.error e,
        { s with dict := Function.update s.dict path (some t.chart) }) : _ × Patches) = (r, s) ∧
        r ≠ .error .undefined ∧ r ≠ .error .assertion) ↔ e = .stoi ∧ t.chart = data := by
      rw [← hdata]
      constructor
      · rintro ⟨r, h, hundef, hassert⟩
        obtain ⟨rfl, hs⟩ := Prod.mk.inj h
        refine ⟨?_, congrArg Patches.dict hs⟩
        cases e with
        | stoi => rfl
        | undefined => exact absurd rfl hundef
        | assertion => exact absurd rfl hassert
      · rintro ⟨rfl, h⟩
        exact ⟨.error .stoi, by rw [h], nofun, nofun⟩
    refine hclean.trans ?_
    generalize doc.patchListFault? data = o at hout hstoi
    match o, hout with
    | some e', ⟨t', ht'⟩ =>
      obtain ⟨he, -⟩ := Prod.mk.inj (hpatch.symm.trans ht')
      obtain rfl := Except.error.inj he
      refine iff_of_false ?_ fun h => absurd h.1 nofun
      rintro ⟨rfl, -⟩
      exact hstoi rfl
    | none, hout =>
      dsimp only at hout
      generalize (doc.items "connectors").findSome?
        (YamlTree.linkFault? (data.grown doc).indexOf) = o at hout
      match o, hout with
      | none, ht' => cases hpatch.symm.trans ht'
      | some e', ht' =>
        obtain ⟨he, rfl⟩ := Prod.mk.inj (hpatch.symm.trans ht')
        obtain rfl := Except.error.inj he
        rw [Option.some.injEq]
        simp only [true_and]
  · -- The patch returns, and the chart is counted.
    refine iff_of_false ?_ ?_
    · rintro ⟨r, h, -⟩
      have hcounted := congrArg (fun x : _ × Patches => x.2.counted.length) h
      change (s.counted ++ [path]).length = s.counted.length at hcounted
      rw [List.length_append, List.length_singleton] at hcounted
      omega
    · rintro ⟨hlist, hlinks, -⟩
      rw [hlist, hlinks] at hout
      cases hpatch.symm.trans hout

end Failures

/-! ### Samples -/

section Samples

/-- The loop is registered. -/
def loopPatches : Patches where
  dict := fun path => if path = "AI.loop" then some loopChart else none

/-- A patch of the second node, with a connector and another one of the type. -/
def codeDoc (code type : String) : YamlTree :=
  .map [("path", .scalar "AI.loop"),
    ("nodes", .seq [.map [("uid", .scalar "b"), ("code", .map [("type", .scalar code)])]]),
    ("connectors", .seq
      [.map [("start", .scalar "b"), ("end", .scalar "a"), ("type", .scalar "1")],
        .map [("start", .scalar "b"), ("end", .scalar "a"), ("type", .scalar type)]])]

/-- The patch writes the connector that is there, and then fails. -/
theorem failsCleanly_sample : FailsCleanly (codeDoc "OTHER" "x") loopPatches := by
  have hnodes : (loopChart.patched (codeDoc "OTHER" "x")).nodes = loopChart.nodes := by
    decide +kernel
  exact (failsCleanly_iff rfl rfl loopChart_positioned).mpr ⟨by decide +kernel, by decide +kernel,
    patched_eq_self_iff.mp (congrArg (fun l => { loopChart with nodes := l }) hnodes)⟩

/-- A node of type `ERROR` makes the patch fail. The chart is counted. -/
theorem not_forall_failsCleanly : ¬∀ (data : ChartData) (doc : YamlTree) (path : String)
    (s : Patches), doc.text? "path" = some path → s.dict path = some data → data.Positioned →
      (∀ t, ¬(patchFromYaml doc).Returns data.patching true t) → FailsCleanly doc s := by
  intro h
  have hclean := h loopChart (codeDoc "ERROR" "1") "AI.loop" loopPatches rfl rfl
    loopChart_positioned (by
      intro t ht
      have hok := ((returns_patchFromYaml_iff loopChart_positioned).mp ht).2.2.2.1
      exact absurd hok (by decide +kernel))
  obtain ⟨r, hr, -⟩ := hclean
  have hcounted : ((patchChart true (codeDoc "ERROR" "1")).run.run loopPatches).2.counted ≠
      loopPatches.counted := by decide +kernel
  exact hcounted (by rw [hr])

end Samples

end Loading

end Asyncflow
