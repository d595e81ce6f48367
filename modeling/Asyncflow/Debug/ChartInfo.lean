import Asyncflow.Loading.Json

/-!
# Chart infos on the wire

`Serialize_ChartInfo_Json` and `Deserialize_ChartInfo_Json`, each of which lists the fields for
itself. The document between them is the tree that the writer's events make: the numbers and
the strings are printed and parsed faithfully.

The writer prints both 64-bit fields in full, but the reader takes an `agent_id` only if it is
an `int`, and an `owner_node_addr` only if it is an `int64_t`. It does not read the `graph_uid`
at all. `Asyncflow.Debug.deserialize_serialize_iff` states which values come back.
-/

namespace Asyncflow

namespace Debug

open Loading Program

/-- `ChartInfo`. -/
@[ext]
structure ChartInfo where
  /-- `agent_id`. -/
  agentId : UInt64 := .ofNat (2 ^ 64 - 1)
  /-- `owner_node_addr`. -/
  ownerNodeAddr : UInt64 := .ofNat (2 ^ 64 - 1)
  /-- `owner_node_id`. -/
  ownerNodeId : Int32 := -1
  /-- `owner_node_uid`. -/
  ownerNodeUid : String := ""
  /-- `object_name`. -/
  objectName : String := ""
  /-- `chart_name`. -/
  chartName : String := ""
  /-- `owner_chart_name`. -/
  ownerChartName : String := ""
  /-- `chart_uid`. -/
  chartUid : String := ""
deriving DecidableEq, Repr

/-- `Serialize_ChartInfo_Json`. -/
def serializeChartInfo (ci : ChartInfo) : JsonValue :=
  .object [("agent_id", .int ci.agentId.toNat),
    ("owner_node_addr", .int ci.ownerNodeAddr.toNat),
    ("owner_node_id", .int ci.ownerNodeId.toInt),
    ("owner_node_uid", .string (cString ci.ownerNodeUid)),
    ("object_name", .string (cString ci.objectName)),
    ("chart_name", .string (cString ci.chartName)),
    ("owner_chart_name", .string (cString ci.ownerChartName)),
    ("graph_uid", .string (cString ci.chartUid))]

/-- A field of `Deserialize_ChartInfo_Json`: a member that passes the test is read and
written. -/
def readField {α : Type} (obj : JsonValue) (key : String) (test : JsonValue → Bool)
    (read : JsonValue → Program Abort ChartInfo α) (write : α → ChartInfo → ChartInfo) :
    Program Abort ChartInfo PUnit := do
  (← obj.memberIf key test).forM fun v => do
    let a ← read v
    modify (write a)

/-- `Deserialize_ChartInfo_Json`. -/
def deserializeChartInfo (obj : JsonValue) : Program Abort ChartInfo PUnit := do
  readField obj "agent_id" (·.isInt) (·.getUint64) fun n ci =>
    { ci with agentId := .ofNat n }
  readField obj "owner_node_addr" (·.isInt64) (·.getUint64) fun n ci =>
    { ci with ownerNodeAddr := .ofNat n }
  readField obj "owner_node_id" (·.isInt) (·.getInt) fun n ci =>
    { ci with ownerNodeId := .ofInt n }
  readField obj "owner_node_uid" (·.isString) (·.getString) fun s ci =>
    { ci with ownerNodeUid := s }
  readField obj "object_name" (·.isString) (·.getString) fun s ci =>
    { ci with objectName := s }
  readField obj "chart_name" (·.isString) (·.getString) fun s ci =>
    { ci with chartName := s }
  readField obj "owner_chart_name" (·.isString) (·.getString) fun s ci =>
    { ci with ownerChartName := s }

/-! ### Single fields -/

section Fields

variable {obj v : JsonValue} {key : String} {test : JsonValue → Bool} {ci : ChartInfo} {α : Type}
  {read : JsonValue → Program Abort ChartInfo α} {write : α → ChartInfo → ChartInfo} {a : α}

theorem returns_memberIf (hm : obj.member? key = some v) :
    (obj.memberIf key test : Program Abort ChartInfo _).Returns ci ((some v).filter test) ci := by
  cases obj with
  | object members =>
    rw [← hm]
    exact returns_pure _ ci
  | null | bool | int | double | string | array => cases hm

/-- A member that passes the test is written. -/
theorem returns_readField (hm : obj.member? key = some v) (ht : test v = true)
    (hr : (read v).Returns ci a ci) :
    (readField obj key test read write).Returns ci ⟨⟩ (write a ci) := by
  refine (returns_memberIf hm).bind ?_
  rw [Option.filter_some_pos ht]
  exact hr.bind (returns_modify _ ci)

/-- The others are passed over. -/
theorem returns_readField_of_not (hm : obj.member? key = some v) (ht : test v = false) :
    (readField obj key test read write).Returns ci ⟨⟩ ci := by
  refine (returns_memberIf hm).bind ?_
  rw [Option.filter_some_neg ht]
  exact returns_pure _ ci

/-- A field with a string. -/
theorem returns_readField_string {s : String} {put : String → ChartInfo → ChartInfo} {t : ChartInfo}
    (hm : obj.member? key = some (.string s)) (h : put (cString s) ci = t) :
    (readField obj key (·.isString) (·.getString) put).Returns ci ⟨⟩ t := by
  rw [← h]
  exact returns_readField hm rfl (returns_pure _ ci)

/-- A field with a number of 64 bits, which is read if the test does not find it too large. -/
theorem returns_readField_uint64 {n : UInt64} {put : ℕ → ChartInfo → ChartInfo} {t : ChartInfo}
    (hm : obj.member? key = some (.int n.toNat))
    (hread : test (.int n.toNat) = true → put n.toNat ci = t)
    (hskip : test (.int n.toNat) ≠ true → ci = t) :
    (readField obj key test (·.getUint64) put).Returns ci ⟨⟩ t := by
  by_cases ht : test (.int n.toNat) = true
  · rw [← hread ht]
    refine returns_readField hm ht ?_
    have hn : (0 : ℤ) ≤ n.toNat ∧ (n.toNat : ℤ) < 2 ^ 64 := ⟨by omega, by exact_mod_cast n.toNat_lt⟩
    rw [JsonValue.getUint64, if_pos hn, Int.toNat_natCast]
    exact returns_pure _ ci
  · rw [← hskip ht]
    exact returns_readField_of_not hm (Bool.eq_false_iff.mpr ht)

/-- A field with an `int`. -/
theorem returns_readField_int {n : Int32} {put : ℤ → ChartInfo → ChartInfo}
    (hm : obj.member? key = some (.int n.toInt)) :
    (readField obj key (·.isInt) (·.getInt) put).Returns ci ⟨⟩ (put n.toInt ci) := by
  have hn : -2 ^ 31 ≤ n.toInt ∧ n.toInt < 2 ^ 31 := ⟨n.le_toInt, n.toInt_lt⟩
  refine returns_readField hm (decide_eq_true hn) ?_
  rw [JsonValue.getInt, if_pos hn]
  exact returns_pure _ ci

end Fields

section Wire

variable (ci target : ChartInfo)

/-- What a `ChartInfo` is after the other one has been read into it. -/
def ChartInfo.received : ChartInfo :=
  { agentId := if ci.agentId.toNat < 2 ^ 31 then ci.agentId else target.agentId
    ownerNodeAddr := if ci.ownerNodeAddr.toNat < 2 ^ 63 then ci.ownerNodeAddr
      else target.ownerNodeAddr
    ownerNodeId := ci.ownerNodeId
    ownerNodeUid := cString ci.ownerNodeUid
    objectName := cString ci.objectName
    chartName := cString ci.chartName
    ownerChartName := cString ci.ownerChartName
    chartUid := target.chartUid }

/-- **What the reader makes of a written value.** -/
theorem returns_deserializeChartInfo :
    (deserializeChartInfo (serializeChartInfo ci)).Returns target ⟨⟩ (ci.received target) := by
  have hagent := JsonValue.isInt_int (n := ci.agentId.toNat)
  have haddr := JsonValue.isInt64_int (n := ci.ownerNodeAddr.toNat)
  refine (returns_readField_uint64 (n := ci.agentId)
    (t := { target with agentId := (ci.received target).agentId }) rfl ?_ ?_).bind ?_
  · intro ht
    have hlt : ci.agentId.toNat < 2 ^ 31 := by
      have := (hagent.mp ht).2
      omega
    simp only [ChartInfo.received, if_pos hlt, UInt64.ofNat_toNat]
  · intro ht
    have hge : ¬ci.agentId.toNat < 2 ^ 31 := fun hlt => ht (hagent.mpr ⟨by omega, by omega⟩)
    simp only [ChartInfo.received, if_neg hge]
  refine (returns_readField_uint64 (n := ci.ownerNodeAddr)
    (t := { target with
      agentId := (ci.received target).agentId
      ownerNodeAddr := (ci.received target).ownerNodeAddr }) rfl ?_ ?_).bind ?_
  · intro ht
    have hlt : ci.ownerNodeAddr.toNat < 2 ^ 63 := by
      have := (haddr.mp ht).2
      omega
    simp only [ChartInfo.received, if_pos hlt, UInt64.ofNat_toNat]
  · intro ht
    have hge : ¬ci.ownerNodeAddr.toNat < 2 ^ 63 := fun hlt => ht (haddr.mpr ⟨by omega, by omega⟩)
    simp only [ChartInfo.received, if_neg hge]
  refine (returns_readField_int (n := ci.ownerNodeId) rfl).bind ?_
  refine (returns_readField_string rfl rfl).bind ?_
  refine (returns_readField_string rfl rfl).bind ?_
  refine (returns_readField_string rfl rfl).bind ?_
  refine returns_readField_string rfl ?_
  simp [ChartInfo.received]

/-- The values that come back: the numbers fit the tests of the reader, the strings have no
zero character, and the uid of the chart is that of the target already. -/
structure Fits : Prop where
  agentId : ci.agentId.toNat < 2 ^ 31 ∨ target.agentId = ci.agentId
  ownerNodeAddr : ci.ownerNodeAddr.toNat < 2 ^ 63 ∨ target.ownerNodeAddr = ci.ownerNodeAddr
  strings : ∀ s ∈ [ci.ownerNodeUid, ci.objectName, ci.chartName, ci.ownerChartName],
    '\x00' ∉ s.toList
  chartUid : target.chartUid = ci.chartUid

/-- **Which chart infos survive the wire.** -/
theorem deserialize_serialize_iff :
    (deserializeChartInfo (serializeChartInfo ci)).Returns target ⟨⟩ ci ↔ Fits ci target := by
  have hiff : (deserializeChartInfo (serializeChartInfo ci)).Returns target ⟨⟩ ci ↔
      ci.received target = ci :=
    ⟨fun h => ((returns_deserializeChartInfo ci target).unique h).2,
      fun h => by simpa only [h] using returns_deserializeChartInfo ci target⟩
  rw [hiff, ChartInfo.ext_iff]
  simp only [ChartInfo.received, ite_eq_left_iff, ← or_iff_not_imp_left, cString_eq_self_iff,
    true_and]
  constructor
  · rintro ⟨hagent, haddr, hs₁, hs₂, hs₃, hs₄, huid⟩
    exact ⟨hagent, haddr, by simp [hs₁, hs₂, hs₃, hs₄], huid⟩
  · rintro ⟨hagent, haddr, hs, huid⟩
    exact ⟨hagent, haddr, hs _ (by simp), hs _ (by simp), hs _ (by simp), hs _ (by simp), huid⟩

end Wire

/-- The info of an agent whose id is too large for an `int`. -/
def largeInfo : ChartInfo := { agentId := .ofNat (2 ^ 31), chartUid := "5" }

/-- Read into a new one, it does not come back. -/
theorem not_forall_deserialize_serialize : ¬∀ ci target : ChartInfo,
    (deserializeChartInfo (serializeChartInfo ci)).Returns target ⟨⟩ ci := by
  intro h
  have heq := ((returns_deserializeChartInfo largeInfo {}).unique (h largeInfo {})).2
  have hid : (largeInfo.received {}).agentId = largeInfo.agentId := by rw [heq]
  exact absurd hid (by decide)

end Debug

end Asyncflow
