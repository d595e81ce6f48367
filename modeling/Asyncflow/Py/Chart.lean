import Asyncflow.Lib.Journal
import Asyncflow.Lib.Run
import Asyncflow.Loading.Variables

/-!
# The variables of a Python chart

A `PyChart` keeps the values of its chart's `n` variables in an array, `variables_`, that is
allocated when the chart is started for the first time. Scripts read and write it by number,
and `SetArgs`, the init table and the results of other charts write it too.

`PyChart::GetVar` and `PyChart::SetVar` check the number, but let `n` itself through, and neither
looks whether there is an array. In every run in which `n` is not asked for, and no variable
before the first start, the array is never left, exactly the numbers outside of it are rejected,
and a variable has the last value it was given (`Asyncflow.Py.behaves_iff`).

What a variable was given is read off the calls of the run alone (`Asyncflow.Py.Python.journal`):
the functions of the chart do not write it, and the array does not occur in it.
-/

namespace Asyncflow

namespace Py

open Loading

/-- `PyChartData`: chart data with a number of variables, among them the parameters. -/
structure PyChartData extends Loading.ChartData where
  counted : 0 ≤ variableCount
  params_le : paramsCount ≤ vars.length

/-- The part of Python's C interface that a chart uses. Some of it depends on the interpreter's
heap `H` at the time of the call; `Obj` are the pointers to objects. -/
structure Python (H Obj : Type) where
  /-- `Py_None`. -/
  none : Obj
  /-- `Py_True`. -/
  true : Obj
  /-- `Py_False`. -/
  false : Obj
  /-- `PyBool_Check`. -/
  isBool : H → Obj → Bool
  /-- `PyNumber_Check`. -/
  isNumber : H → Obj → Bool
  /-- `PyUnicode_AsUTF8`. -/
  asUTF8 : H → Obj → String
  /-- `PyFloat_FromString`. -/
  floatFromString : H → Obj → Obj
  /-- `PyWeakref_Check`. -/
  isWeakref : H → Obj → Bool
  /-- `PyWeakref_GetObject`. -/
  getObject : H → Obj → Obj
  /-- `PyWeakref_NewRef`. -/
  newRef : H → Obj → Obj

/-- `PyChart`. -/
structure PyChart (Obj : Type) where
  /-- `variables_`; nothing is allocated at first. -/
  vars : Option (List Obj) := none

/-- What `GetVar` returns, and whether it has warned. -/
structure Got (Obj : Type) where
  value : Obj
  warned : Bool

variable {H Obj : Type} (data : PyChartData) (py : Python H Obj)

/-! ### The functions of a chart -/

/-- What is stored for a value. -/
def Python.store (h : H) (v : Obj) (weak : Bool) : Obj := if weak then py.newRef h v else v

/-- What is returned for what is stored. -/
def Python.load (h : H) (obj : Obj) (weak : Bool) : Obj :=
  if weak ∧ py.isWeakref h obj then py.getObject h obj else obj

/-- The value of the init table as a value of the parameter's type. -/
def Python.convert (h : H) (type : String) (value : Obj) : Obj :=
  if type = "Bool" ∧ ¬py.isBool h value then
    if py.asUTF8 h value = "true" then py.true else py.false
  else if type = "Number" ∧ ¬py.isNumber h value then py.floatFromString h value
  else value

namespace PyChart

variable (h : H) (c : PyChart Obj)

/-- The memory that `variables_` points to. There is none at a null pointer. -/
def cells : Except Fault (List Obj) :=
  match c.vars with
  | some xs => .ok xs
  | none => .error .outOfBounds

/-- `PyChart::GetVar`. -/
def getVar (id : ℤ) (weak : Bool) : Except Fault (Got Obj) :=
  if id > data.variableCount ∨ id < 0 then .ok ⟨py.none, true⟩
  else do
    let xs ← c.cells
    let obj ← Checked.read xs id
    pure ⟨py.load h obj weak, false⟩

/-- `PyChart::SetVar`. -/
def setVar (id : ℤ) (v : Obj) (weak : Bool) : Except Fault (PyChart Obj × Bool) :=
  if id > data.variableCount ∨ id < 0 then .ok (c, false)
  else do
    let xs ← c.cells
    let _ ← Checked.read xs id -- `Py_XDECREF(variables_[id])`
    let ys ← Checked.write xs id (py.store h v weak)
    pure (⟨some ys⟩, true)

/-- `PyChart::ClearVariables`. -/
def clearVariables : Except Fault (PyChart Obj) :=
  match c.vars with
  | none => .ok c
  | some xs => do
    let ys ← Checked.fill xs data.variableCount py.none
    pure ⟨some ys⟩

/-- `PyChart::InitArgs`. -/
def initArgs [DecidableEq Obj] : Except Fault (PyChart Obj) :=
  match c.vars with
  | none => do
    let xs ← Checked.alloc data.variableCount py.none
    pure ⟨some xs⟩
  | some xs => do
    let ys ← Checked.refill xs data.variableCount py.none
    pure ⟨some ys⟩

/-- `PyChart::SetArgs`. -/
def setArgs (args : List Obj) : Except Fault (PyChart Obj) :=
  let count : ℤ := if data.variableCount < args.length then data.variableCount else args.length
  (List.range count.toNat).foldlM (fun (c : PyChart Obj) (i : ℕ) => do
    let v ← Checked.read args i
    let r ← c.setVar data py h i v false
    pure r.1) c

/-- A round of the loop of `PyChart::SetArgsFromDict`. -/
def setArgFromDict (dict : String → Option Obj) (i : ℕ) : Except Fault (PyChart Obj) := do
  let param ← Checked.read data.vars i
  match dict param.name with
  | some value => do
    let r ← c.setVar data py h i (py.convert h param.type value) false
    pure r.1
  | none => pure c

/-- `PyChart::SetArgsFromDict`. -/
def setArgsFromDict (dict : String → Option Obj) : Except Fault (PyChart Obj) :=
  (List.range data.paramsCount).foldlM (fun c i => c.setArgFromDict data py h dict i) c

/-- `PyChart::ResetVariables`, with what `init_table_` holds at the time of the call. -/
def resetVariables [DecidableEq Obj] (initTable : Option (String → Option Obj)) :
    Except Fault (PyChart Obj) := do
  let c ← c.initArgs data py
  match initTable with
  | some dict => c.setArgsFromDict data py h dict
  | none => pure c

end PyChart

/-- A call of a function of the chart. -/
inductive Call (Obj : Type)
  | resetVariables (initTable : Option (String → Option Obj))
  | setArgs (args : List Obj)
  | setVar (id : ℤ) (v : Obj) (weak : Bool)
  | getVar (id : ℤ) (weak : Bool)
  | clearVariables

/-- The chart after a call. -/
def PyChart.exec [DecidableEq Obj] (h : H) (c : PyChart Obj) : Call Obj → Except Fault (PyChart Obj)
  | .resetVariables initTable => c.resetVariables data py h initTable
  | .setArgs args => c.setArgs data py h args
  | .setVar id v weak => do
    let r ← c.setVar data py h id v weak
    pure r.1
  | .getVar id weak => do
    let _ ← c.getVar data py h id weak
    pure c
  | .clearVariables => c.clearVariables data py

/-- A chart, and the calls that were made of it, newest first, each with the interpreter's heap
at its time. -/
structure Session (H Obj : Type) where
  chart : PyChart Obj := {}
  calls : List (H × Call Obj) := []

/-- A call as a step of a run, which a fault ends. -/
def step [DecidableEq Obj] (s : Session H Obj) (a : H × Call Obj) : Option (Session H Obj) :=
  match s.chart.exec data py a.1 a.2 with
  | .ok d => some ⟨d, a :: s.calls⟩
  | .error _ => none

/-! ### What the calls give the variables -/

/-- The variable numbers. -/
def PyChartData.IsVar (id : ℤ) : Prop := 0 ≤ id ∧ id < data.variableCount

instance (id : ℤ) : Decidable (data.IsVar id) := inferInstanceAs (Decidable (_ ∧ _))

/-- What a `SetVar` that is to be accepted gives. -/
def PyChartData.given (id : ℤ) (v : Obj) : Option (Journal.Entry Obj) :=
  if data.IsVar id then some (.write id v) else none

/-- What the entry of the init table for a parameter gives. -/
def Python.givenByDict (h : H) (dict : String → Option Obj) (i : ℕ) :
    Option (Journal.Entry Obj) := do
  let param ← data.vars[i]?
  let value ← dict param.name
  data.given i (py.convert h param.type value)

/-- What a call gives the variables, newest first: values, or their initial values to all. -/
def Python.givenBy (h : H) : Call Obj → List (Journal.Entry Obj)
  | .resetVariables .none => [.blank]
  | .resetVariables (.some dict) =>
    ((List.range data.paramsCount).filterMap (py.givenByDict data h dict)).reverse ++ [.blank]
  | .setArgs args =>
    ((List.range args.length).filterMap fun (i : ℕ) => args[i]?.bind (data.given i)).reverse
  | .setVar id v weak => (data.given id (py.store h v weak)).toList
  | .getVar _ _ => []
  | .clearVariables => [.blank]

/-- What the calls gave the variables, newest first. -/
def Python.journal (calls : List (H × Call Obj)) : List (Journal.Entry Obj) :=
  calls.flatMap fun a => py.givenBy data a.1 a.2

/-! ### A bounded store, and when -/

/-- **A call behaves**: it stays within the allocated array, it rejects exactly what is not a
variable, and then changes nothing, and a variable has the last value that a call gave it. -/
structure Behaves [DecidableEq Obj] (h : H) (s : Session H Obj) (call : Call Obj) : Prop where
  safe : ∃ d, s.chart.exec data py h call = .ok d
  setVar : ∀ id v weak d accepted, call = .setVar id v weak →
    s.chart.setVar data py h id v weak = .ok (d, accepted) →
    (accepted = false ↔ ¬data.IsVar id) ∧ (accepted = false → d = s.chart)
  getVar : ∀ id weak r, call = .getVar id weak → s.chart.getVar data py h id weak = .ok r →
    (r.warned = true ↔ ¬data.IsVar id) ∧
      (r.warned = false →
        r.value = py.load h (Journal.latest py.none id (py.journal data s.calls)) weak)

/-- A variable may be asked for: it is not the one after the last, and if it is one there is an
array. -/
def Asks (c : PyChart Obj) (id : ℤ) : Prop :=
  id ≠ data.variableCount ∧ (data.IsVar id → c.vars.isSome)

/-- **The condition**: no call asks for the variable after the last one, and until the chart has
been started for the first time none asks for a variable at all. -/
def Meets (c : PyChart Obj) : Call Obj → Prop
  | .resetVariables initTable => ∀ dict param, initTable = some dict →
      data.variableCount < data.paramsCount →
      Checked.read data.vars data.variableCount = .ok param → dict param.name = none
  | .setArgs args => args ≠ [] → 0 < data.variableCount → c.vars.isSome
  | .setVar id _ _ => Asks data c id
  | .getVar id _ => Asks data c id
  | .clearVariables => True

/-! ### What the functions do -/

/-- The array has a cell for every variable, with the value that the journal says. -/
structure Fits (c : PyChart Obj) (l : List (Journal.Entry Obj)) : Prop where
  length : ∀ xs, c.vars = some xs → (xs.length : ℤ) = data.variableCount
  shows : ∀ xs, c.vars = some xs → Journal.Shows py.none xs l

variable {data py} {h : H} {c : PyChart Obj} {l : List (Journal.Entry Obj)} {id : ℤ} {v : Obj}
  {weak : Bool} {call : Call Obj}

theorem fits_none (l : List (Journal.Entry Obj)) : Fits data py ⟨none⟩ l := ⟨nofun, nofun⟩

theorem fits_some {ys : List Obj} (hlen : (ys.length : ℤ) = data.variableCount)
    (hshows : Journal.Shows py.none ys l) : Fits data py ⟨some ys⟩ l where
  length := by
    rintro _ ⟨⟩
    exact hlen
  shows := by
    rintro _ ⟨⟩
    exact hshows

/-- The variables of the array can be read. -/
theorem exists_cells (hc : Fits data py c l) (hid : Asks data c id) (hvar : data.IsVar id) :
    ∃ xs x, c.vars = some xs ∧ c.cells = .ok xs ∧ Checked.read xs id = .ok x ∧
      id < xs.length := by
  obtain ⟨xs, hxs⟩ := Option.isSome_iff_exists.mp (hid.2 hvar)
  have hlen := hc.length xs hxs
  obtain ⟨x, hx⟩ := Checked.read_ok xs hvar.1 (by rw [hlen]; exact hvar.2)
  exact ⟨xs, x, hxs, by rw [PyChart.cells, hxs], hx, by rw [hlen]; exact hvar.2⟩

/-- The check of `SetVar` and `GetVar`, for what may be asked for. -/
theorem outOfRange_iff (hid : Asks data c id) :
    (id > data.variableCount ∨ id < 0) ↔ ¬data.IsVar id := by
  have hne := hid.1
  rw [PyChartData.IsVar]
  omega

theorem given_of_isVar (hvar : data.IsVar id) (v : Obj) : data.given id v = some (.write id v) :=
  if_pos hvar

theorem given_of_not_isVar (hvar : ¬data.IsVar id) (v : Obj) : data.given id v = none :=
  if_neg hvar

/-- **`SetVar`**, where the variable may be asked for. -/
theorem setVar_ok (h : H) (v : Obj) (weak : Bool) (hc : Fits data py c l) (hid : Asks data c id) :
    ∃ d accepted, c.setVar data py h id v weak = .ok (d, accepted) ∧
      Fits data py d ((data.given id (py.store h v weak)).toList ++ l) ∧
      (c.vars.isSome → d.vars.isSome) ∧ (accepted = false ↔ ¬data.IsVar id) ∧
      (accepted = false → d = c) := by
  rw [PyChart.setVar]
  by_cases hvar : data.IsVar id
  · obtain ⟨xs, x, hxs, hcells, hx, hlt⟩ := exists_cells hc hid hvar
    obtain ⟨ys, hys⟩ := Checked.write_ok xs hvar.1 hlt (x := py.store h v weak)
    rw [if_neg ((outOfRange_iff hid).not.mpr (not_not.mpr hvar)), hcells]
    refine ⟨⟨some ys⟩, true, ?_, ?_, fun _ => rfl, iff_of_false nofun (not_not.mpr hvar), nofun⟩
    · show (Checked.read xs id >>= fun _ => _) = _
      rw [hx]
      show (Checked.write xs id (py.store h v weak) >>= fun ys => _) = _
      rw [hys]
      rfl
    · have hlen := (Checked.bounds_of_write hys).2
      rw [given_of_isVar hvar]
      exact fits_some (by rw [hlen, hc.length xs hxs]) ((hc.shows xs hxs).write hys)
  · rw [if_pos ((outOfRange_iff hid).mpr hvar), given_of_not_isVar hvar]
    exact ⟨c, false, rfl, hc, fun hs => hs, iff_of_true rfl hvar, fun _ => rfl⟩

/-- **`GetVar`**, where the variable may be asked for. -/
theorem getVar_ok (h : H) (weak : Bool) (hc : Fits data py c l) (hid : Asks data c id) :
    ∃ r, c.getVar data py h id weak = .ok r ∧ (r.warned = true ↔ ¬data.IsVar id) ∧
      (r.warned = false → r.value = py.load h (Journal.latest py.none id l) weak) := by
  rw [PyChart.getVar]
  by_cases hvar : data.IsVar id
  · obtain ⟨xs, x, hxs, hcells, hx, hlt⟩ := exists_cells hc hid hvar
    rw [if_neg ((outOfRange_iff hid).not.mpr (not_not.mpr hvar)), hcells]
    refine ⟨⟨py.load h x weak, false⟩, ?_, iff_of_false nofun (not_not.mpr hvar), fun _ => ?_⟩
    · show (Checked.read xs id >>= fun obj => _) = _
      rw [hx]
      rfl
    · rw [(hc.shows xs hxs).read hx]
  · rw [if_pos ((outOfRange_iff hid).mpr hvar)]
    exact ⟨_, rfl, iff_of_true rfl hvar, nofun⟩

/-- What the first rounds of a loop gather, newest first. -/
def gathered {α : Type} (g : ℕ → Option α) (k : ℕ) : List α :=
  ((List.range k).filterMap g).reverse

theorem gathered_succ {α : Type} (g : ℕ → Option α) (k : ℕ) :
    gathered g (k + 1) = (g k).toList ++ gathered g k := by
  rw [gathered, List.range_succ, List.filterMap_append, List.reverse_append]
  cases hg : g k with
  | none => rw [List.filterMap_cons_none hg]; rfl
  | some x => rw [List.filterMap_cons_some hg]; rfl

/-- Rounds that gather nothing. -/
theorem gathered_of_none {α : Type} {g : ℕ → Option α} {k m : ℕ} (hkm : k ≤ m)
    (hg : ∀ i, k ≤ i → i < m → g i = none) : gathered g m = gathered g k := by
  induction m, hkm using Nat.le_induction with
  | base => rfl
  | succ m hkm ih =>
    rw [gathered_succ, hg m hkm (Nat.lt_succ_self m), ih fun i hi hlt => hg i hi (by omega)]
    rfl

/-- **`SetArgs`**, where there is an array or nothing to do. -/
theorem setArgs_ok {args : List Obj} (hc : Fits data py c l) (hm : Meets data c (.setArgs args)) :
    ∃ d, c.setArgs data py h args = .ok d ∧
      Fits data py d (py.givenBy data h (.setArgs args) ++ l) ∧
      (c.vars.isSome → d.vars.isSome) := by
  have hgiven : py.givenBy data h (.setArgs args) =
      gathered (fun (i : ℕ) => args[i]?.bind (data.given i)) args.length := rfl
  rw [PyChart.setArgs]
  set count : ℤ := if data.variableCount < args.length then data.variableCount else args.length
    with hcount
  have hle : count.toNat ≤ args.length := by
    rw [hcount]
    split_ifs
    all_goals omega
  -- The arguments that the loop does not come to are no variables.
  rw [hgiven, gathered_of_none hle fun i hi hlt => ?_]
  swap
  · rw [List.getElem?_eq_getElem hlt]
    refine given_of_not_isVar (fun hvar => ?_) _
    have hlt' := hvar.2
    rw [hcount] at hi
    split_ifs at hi
    all_goals omega
  refine Checked.range_ok (I := fun i d =>
    Fits data py d (gathered (fun (i : ℕ) => args[i]?.bind (data.given i)) i ++ l) ∧
      (c.vars.isSome → d.vars.isSome)) ⟨hc, fun hs => hs⟩ ?_
  rintro i hi d ⟨hd, hsome⟩
  have hi' : (i : ℤ) < data.variableCount ∧ (i : ℤ) < args.length := by
    rw [hcount] at hi
    split_ifs at hi
    all_goals omega
  obtain ⟨v, hv⟩ := Checked.read_ok args (Int.natCast_nonneg i) hi'.2
  have hv' : args[i]? = some v := (Checked.read_eq_ok.mp hv).2
  have hargs : args ≠ [] := List.ne_nil_of_length_pos (by omega)
  have hasks : Asks data d i := ⟨by omega, fun _ => hsome (hm hargs (by omega))⟩
  obtain ⟨e, accepted, he, hfits, hsome', -⟩ := setVar_ok h v false hd hasks
  refine ⟨e, ?_, ?_, fun hs => hsome' (hsome hs)⟩
  · show (Checked.read args i >>= fun v => _) = _
    rw [hv]
    show (d.setVar data py h i v false >>= fun r => _) = _
    rw [he]
    rfl
  · rw [gathered_succ, hv', List.append_assoc]
    exact hfits

/-- A round of `SetArgsFromDict`. -/
theorem setArgFromDict_ok {dict : String → Option Obj} {i : ℕ} (hc : Fits data py c l)
    (hsome : c.vars.isSome) (hi : i < data.paramsCount)
    (hskip : ∀ param, (i : ℤ) = data.variableCount → Checked.read data.vars i = .ok param →
      dict param.name = none) :
    ∃ d, c.setArgFromDict data py h dict i = .ok d ∧
      Fits data py d ((py.givenByDict data h dict i).toList ++ l) ∧ d.vars.isSome := by
  have hle := data.params_le
  obtain ⟨param, hparam⟩ := Checked.read_ok data.vars (Int.natCast_nonneg i) (by omega)
  have hparam' : data.vars[i]? = some param := (Checked.read_eq_ok.mp hparam).2
  rw [PyChart.setArgFromDict, hparam, Python.givenByDict, hparam']
  show ∃ d, (match dict param.name with
    | some value => _
    | none => _) = Except.ok d ∧ Fits data py d (((dict param.name).bind fun value =>
      data.given i (py.convert h param.type value)).toList ++ l) ∧ _
  cases hv : dict param.name with
  | none => exact ⟨c, rfl, hc, hsome⟩
  | some value =>
    have hasks : Asks data c i := by
      refine ⟨fun heq => ?_, fun _ => hsome⟩
      rw [hskip param heq hparam] at hv
      cases hv
    obtain ⟨d, accepted, hd, hfits, hsome', -⟩ :=
      setVar_ok h (py.convert h param.type value) false hc hasks
    refine ⟨d, ?_, hfits, hsome' hsome⟩
    show (c.setVar data py h i _ false >>= fun r => _) = _
    rw [hd]
    rfl

/-- The first rounds of `SetArgsFromDict`. -/
theorem setArgsFromDict_ok (h : H) {dict : String → Option Obj} {m : ℕ} (hc : Fits data py c l)
    (hsome : c.vars.isSome) (hm : m ≤ data.paramsCount)
    (hskip : ∀ param, data.variableCount < m →
      Checked.read data.vars data.variableCount = .ok param →
      dict param.name = none) :
    ∃ d, (List.range m).foldlM (fun c i => PyChart.setArgFromDict data py h c dict i) c = .ok d ∧
      Fits data py d (gathered (py.givenByDict data h dict) m ++ l) ∧ d.vars.isSome := by
  refine Checked.range_ok (I := fun i d =>
    Fits data py d (gathered (py.givenByDict data h dict) i ++ l) ∧ d.vars.isSome) ⟨hc, hsome⟩ ?_
  rintro i hi d ⟨hd, hsome⟩
  rw [gathered_succ, List.append_assoc]
  refine setArgFromDict_ok hd hsome (by omega) fun param heq hparam => hskip param (by omega) ?_
  rw [← heq]
  exact hparam

variable [DecidableEq Obj]

/-- **`InitArgs`** leaves an array of the initial values. -/
theorem initArgs_ok (hc : Fits data py c l) :
    ∃ d, c.initArgs data py = .ok d ∧ Fits data py d (.blank :: l) ∧ d.vars.isSome := by
  have hcount := data.counted
  rw [PyChart.initArgs]
  cases hv : c.vars with
  | none =>
    obtain ⟨xs, hxs, hlen⟩ := Checked.alloc_ok data.counted (x := py.none)
    refine ⟨⟨some xs⟩, ?_, fits_some (by omega) ?_, rfl⟩
    · show (Checked.alloc data.variableCount py.none >>= fun xs => _) = _
      rw [hxs]
      rfl
    · rw [Checked.alloc, if_neg (by omega)] at hxs
      cases hxs
      exact Journal.shows_blank fun i hi => by
        rw [List.getElem?_replicate, if_pos (by rwa [List.length_replicate] at hi)]
  | some xs =>
    have hlen := hc.length xs hv
    obtain ⟨ys, hys, hlen', hnone⟩ := Checked.refill_ok xs (x := py.none) (Int.le_of_eq hlen.symm)
    refine ⟨⟨some ys⟩, ?_, fits_some (by omega) ?_, rfl⟩
    · show (Checked.refill xs data.variableCount py.none >>= fun ys => _) = _
      rw [hys]
      rfl
    · exact Journal.shows_blank fun i hi => hnone i (by omega)

omit [DecidableEq Obj] in
/-- **`ClearVariables`**. -/
theorem clearVariables_ok (hc : Fits data py c l) :
    ∃ d, c.clearVariables data py = .ok d ∧ Fits data py d (.blank :: l) := by
  rw [PyChart.clearVariables]
  cases hv : c.vars with
  | none =>
    refine ⟨c, rfl, ?_, ?_⟩
    all_goals
      rintro _ hxs
      rw [hv] at hxs
      cases hxs
  | some xs =>
    have hlen := hc.length xs hv
    obtain ⟨ys, hys, hlen', hnone⟩ := Checked.fill_ok xs (x := py.none) (Int.le_of_eq hlen.symm)
    refine ⟨⟨some ys⟩, ?_, fits_some (by omega) ?_⟩
    · show (Checked.fill xs data.variableCount py.none >>= fun ys => _) = _
      rw [hys]
      rfl
    · exact Journal.shows_blank fun i hi => hnone i (by omega)

/-- **A call that meets the condition** does not fault. -/
theorem exec_ok (hc : Fits data py c l) (hm : Meets data c call) :
    ∃ d, c.exec data py h call = .ok d ∧ Fits data py d (py.givenBy data h call ++ l) := by
  cases call with
  | resetVariables initTable =>
    obtain ⟨d, hd, hfits, hsome⟩ := initArgs_ok hc
    show ∃ e, (c.initArgs data py >>= fun c => _) = .ok e ∧ _
    rw [hd]
    cases initTable with
    | none => exact ⟨d, rfl, hfits⟩
    | some dict =>
      obtain ⟨e, he, hfits, -⟩ := setArgsFromDict_ok h hfits hsome (Nat.le_refl data.paramsCount)
        fun param hlt hparam => hm dict param rfl hlt hparam
      refine ⟨e, he, ?_⟩
      rw [Python.givenBy, List.append_assoc]
      exact hfits
  | setArgs args =>
    obtain ⟨d, hd, hfits, -⟩ := setArgs_ok hc hm
    exact ⟨d, hd, hfits⟩
  | setVar id v weak =>
    obtain ⟨d, accepted, hd, hfits, -⟩ := setVar_ok h v weak hc hm
    refine ⟨d, ?_, hfits⟩
    show (c.setVar data py h id v weak >>= fun r => _) = _
    rw [hd]
    rfl
  | getVar id weak =>
    obtain ⟨r, hr, -⟩ := getVar_ok h weak hc hm
    refine ⟨c, ?_, hc⟩
    show (c.getVar data py h id weak >>= fun r => _) = _
    rw [hr]
    rfl
  | clearVariables => exact clearVariables_ok hc

variable {s : Session H Obj}

theorem fits_of_step {t : Session H Obj} {a : H × Call Obj}
    (hs : Fits data py s.chart (py.journal data s.calls)) (hm : Meets data s.chart a.2)
    (hstep : step data py s a = some t) : Fits data py t.chart (py.journal data t.calls) := by
  obtain ⟨d, hd, hfits⟩ := exec_ok (h := a.1) hs hm
  rw [step, hd] at hstep
  obtain rfl := Option.some.inj hstep
  exact hfits

theorem fits_of_steps
    (hr : Run.Steps (step data py) (fun s a => Meets data s.chart a.2) {} s) :
    Fits data py s.chart (py.journal data s.calls) :=
  hr.invariant (fits_none []) fun _ _ _ hu hm hs => fits_of_step hu hm hs

/-- What `FromYaml` leaves: all variables are counted. -/
theorem counted_of_fromYaml {doc : YamlTree} {t : Loader}
    (h : (Loading.fromYaml doc).Returns {} true t) :
    t.chart.variableCount = t.chart.vars.length ∧ t.chart.paramsCount ≤ t.chart.vars.length := by
  obtain ⟨name, s, hs, hrest⟩ := returns_variables_of_fromYaml h
  refine hrest (fun s => s.chart.variableCount = s.chart.vars.length ∧
    s.chart.paramsCount ≤ s.chart.vars.length) ⟨fun _ _ _ hs => hs, fun _ _ hs => hs⟩ ?_
  cases ho : doc.child? "variables" with
  | none =>
    rw [ho] at hs
    obtain ⟨-, rfl⟩ := Program.returns_pure_iff.mp hs
    exact ⟨rfl, Nat.le_refl 0⟩
  | some vs =>
    rw [ho] at hs
    obtain ⟨-, ps, -, rfl⟩ := returns_readVariables_iff.mp hs
    exact ⟨rfl, List.countP_le_length⟩

/-- The chart data that a document gives. -/
def PyChartData.ofYaml {doc : YamlTree} {t : Loader}
    (h : (Loading.fromYaml doc).Returns {} true t) :
    PyChartData where
  toChartData := t.chart
  counted := by
    rw [(counted_of_fromYaml h).1]
    exact Int.natCast_nonneg _
  params_le := (counted_of_fromYaml h).2

/-- With such chart data, whatever the init table has: a reset goes well after every run whose
calls meet the condition. -/
theorem resetVariables_ofYaml {doc : YamlTree} {t : Loader}
    (h' : (Loading.fromYaml doc).Returns {} true t)
    (hr : Run.Steps (step (.ofYaml h') py) (fun s a => Meets (.ofYaml h') s.chart a.2) {} s)
    (initTable : Option (String → Option Obj)) :
    ∃ d, s.chart.exec (.ofYaml h') py h (.resetVariables initTable) = .ok d := by
  have hcount : t.chart.variableCount = t.chart.vars.length := (counted_of_fromYaml h').1
  have hle : t.chart.paramsCount ≤ t.chart.vars.length := (counted_of_fromYaml h').2
  have hmeets : Meets (.ofYaml h') s.chart (.resetVariables initTable) :=
    fun dict param _ hlt => by
      have hlt' : t.chart.variableCount < t.chart.paramsCount := hlt
      omega
  obtain ⟨d, hd, -⟩ := exec_ok (fits_of_steps hr) hmeets
  exact ⟨d, hd⟩

/-! ### A chart with one variable -/

/-- The chart after it has been started and its variable has been written, with an id that is no
variable's in between. -/
def started : Session Unit ℕ where
  chart := ⟨some [5]⟩
  calls := [((), .setVar (-1) 6 false), ((), .setVar 0 5 false), ((), .resetVariables none)]

end Py

end Asyncflow
