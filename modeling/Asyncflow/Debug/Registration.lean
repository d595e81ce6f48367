import Asyncflow.Core.Data
import Asyncflow.Lib.Run

/-!
# Who debugs which chart

`WebsocketManager` keeps the connections that debug a chart in `chart_map_`, and those that
wait for the next start of a chart in `quick_debug_map_`; the chart itself has a debug flag
and collects debug data while it is set. The two are written in different orders, in loops
over the connections and in exception handlers, whenever a command arrives, a send fails, or
a chart starts, completes or is destroyed.

`Asyncflow.WebsocketManager.registered` states that they agree after every sequence of these
operations, whichever sends end in an exception: a chart is in the map exactly if it is debugged,
and then by someone, and charts that are gone are not in the map.

A connection handle is a weak pointer, so two handles of closed connections compare equal;
which handles are still alive changes at any time.
-/

namespace Asyncflow

/-- `websocketpp::connection_hdl`. -/
abbrev Hdl := ℕ

/-- `Chart`, as far as debugging goes. -/
structure DebugChart where
  /-- `Name`. -/
  name : String
  /-- `GetOwnerNode()->GetChart()`. -/
  owner : Option ChartId := none
  /-- `GetNodesCount`. -/
  nodeCount : ℕ := 0
  /-- Whether `agent_` is set: an agent has the chart in its list. -/
  attached : Bool := false
  /-- `debug_`. -/
  debug : Bool := false
  /-- The length of `debug_data_list_`. -/
  debugData : ℕ := 0
deriving DecidableEq, Repr

namespace DebugChart

variable (x : DebugChart)

/-- `Chart::StartDebug`. -/
def startDebug : DebugChart := { x with debug := true }

/-- `Chart::StopDebug`. -/
def stopDebug : DebugChart := { x with debug := false, debugData := 0 }

/-- `JsonDebugger::PrepareChartDebugData`, which clears the data. -/
def prepareData : DebugChart := { x with debugData := 0 }

/-- `Chart::SendAllNodeCount`, and the data of the running nodes. -/
def sendAll (running : ℕ) : DebugChart :=
  { x with debugData := x.debugData + x.nodeCount + running }

/-- Debug data of a chart that is debugged. -/
def send (k : ℕ) : DebugChart := if x.debug then { x with debugData := x.debugData + k } else x

end DebugChart

/-- `WebsocketManager`, with the charts. -/
structure WebsocketManager where
  /-- The charts that exist. -/
  charts : ChartId → Option DebugChart := fun _ => none
  /-- `lock` of a handle: the connection, if it is still there. -/
  lock : Hdl → Option ℕ := fun _ => none
  /-- `chart_map_`. -/
  chartMap : ChartId → Option (List Hdl) := fun _ => none
  /-- `quick_debug_map_`. -/
  quickDebugMap : String → Option (List Hdl) := fun _ => none

namespace WebsocketManager

variable (s : WebsocketManager)

/-! ### The operations -/

/-- Writes a chart, if it exists. -/
def setChart (c : ChartId) (f : DebugChart → DebugChart) : WebsocketManager :=
  { s with charts := Function.update s.charts c ((s.charts c).map f) }

/-- `chart_map_[chart] = hdls`. -/
def setEntry (c : ChartId) (hs : List Hdl) : WebsocketManager :=
  { s with chartMap := Function.update s.chartMap c (some hs) }

/-- `chart_map_.erase`. -/
def eraseEntry (c : ChartId) : WebsocketManager :=
  { s with chartMap := Function.update s.chartMap c none }

/-- `ContainsHdl`. -/
def containsHdl (hs : List Hdl) (hdl : Hdl) : Bool := hs.any fun h => s.lock h = s.lock hdl

/-- `RemoveHdl`. -/
def removeHdl (hs : List Hdl) (hdl : Hdl) : List Hdl := hs.eraseP fun h => s.lock h = s.lock hdl

/-- `StartDebugChart`, with the number of running nodes. -/
def startDebugChart (c : ChartId) (hdl : Hdl) (running : ℕ) : WebsocketManager :=
  let hs := (s.chartMap c).getD []
  if s.containsHdl hs hdl then s.setEntry c hs
  else (s.setEntry c (hs ++ [hdl])).setChart c fun x => x.startDebug.sendAll running

/-- `QuickDebugChart`. -/
def quickDebugChart (name : String) (hdl : Hdl) : WebsocketManager :=
  let hs := (s.quickDebugMap name).getD []
  let hs := if s.containsHdl hs hdl then hs else hs ++ [hdl]
  { s with quickDebugMap := Function.update s.quickDebugMap name (some hs) }

/-- The exception handler of `StartQuickDebug`: `operator[]` makes an entry that is not
there. -/
def dropQuick (c : ChartId) (hdl : Hdl) : WebsocketManager :=
  let hs := s.removeHdl ((s.chartMap c).getD []) hdl
  if hs = [] then (s.setChart c DebugChart.stopDebug).eraseEntry c else s.setEntry c hs

/-- `StartQuickDebug`; the send fails for some of the connections. -/
def startQuickDebug (c : ChartId) (name : String) (fails : Hdl → Bool) : WebsocketManager :=
  match s.quickDebugMap name with
  | none => s
  | some hs =>
    let s := s.setChart c DebugChart.startDebug
    let s := if (s.chartMap c).isSome then s else s.setEntry c hs
    let s := hs.foldl (fun s hdl => if fails hdl then s.dropQuick c hdl else s) s
    { s with quickDebugMap := Function.update s.quickDebugMap name none }

/-- `StopDebugChart` of a chart. The sends of `SendStopData` may fail without effect. -/
def stopDebugChart (c : ChartId) : WebsocketManager :=
  (s.setChart c DebugChart.stopDebug).eraseEntry c

/-- `StopDebugChart` of a connection. -/
def stopDebugHdl (c : ChartId) (hdl : Hdl) : WebsocketManager :=
  match s.chartMap c with
  | none => s
  | some hs =>
    if s.containsHdl hs hdl then
      if s.removeHdl hs hdl = [] then s.stopDebugChart c else s.setEntry c (s.removeHdl hs hdl)
    else s

/-- The connections that are left after a round of sends of `Step`, whose handler erases a
connection on an exception. The call of `send` there passes an `error_code` and reports a failure
through it, so the exceptions are those of the allocations below; `fails` leaves it open whether
any is thrown. -/
def sendTo (fails : Hdl → Bool) (hs : List Hdl) : List Hdl := hs.filter fun h => !fails h

/-- What `Step` makes of an entry of `chart_map_` and its chart. A chart without data is
passed over, and one that loses its last connection is not debugged any more. -/
def stepEntry (fails : Hdl → Bool) (hs : List Hdl) (x : DebugChart) :
    Option (List Hdl) × DebugChart :=
  if x.debugData = 0 then (some hs, x)
  else if sendTo fails hs = [] ∧ hs ≠ [] then (none, x.prepareData.stopDebug)
  else (some (sendTo fails hs), x.prepareData)

/-- `Step`, up to `poll`, whose messages are operations of their own. -/
def step (fails : ChartId → Hdl → Bool) : WebsocketManager :=
  { s with
    chartMap := fun c => match s.chartMap c, s.charts c with
      | some hs, some x => (stepEntry (fails c) hs x).1
      | entry, _ => entry
    charts := fun c => match s.chartMap c, s.charts c with
      | some hs, some x => some (stepEntry (fails c) hs x).2
      | _, chart => chart }

/-- The end of `DfsExecutor::RunFlow` of a chart that has no running node: a chart that is
no subchart stops being debugged, a subchart unless the chart of its owner node is. -/
def flowEnded (c : ChartId) (x : DebugChart) : WebsocketManager :=
  match x.owner with
  | none => if x.debug then s.stopDebugChart c else s
  | some o => if (s.charts o).any (·.debug) then s else s.stopDebugChart c

/-- `Chart::~Chart`. -/
def destroy (c : ChartId) (x : DebugChart) : WebsocketManager :=
  let s := if x.debug && x.attached then s.stopDebugChart c else s
  { s with charts := Function.update s.charts c none }

end WebsocketManager

/-- What happens to the debugged charts. -/
inductive DebugOp
  /-- `CreateChart`: a chart that no agent has yet, at any free address. -/
  | create (c : ChartId) (name : String) (owner : Option ChartId) (nodeCount : ℕ)
  /-- `Agent::AddChart`. -/
  | attach (c : ChartId)
  /-- `StartDebugChart`, for a chart found in the list of an agent. -/
  | startDebugChart (c : ChartId) (hdl : Hdl) (running : ℕ)
  /-- `QuickDebugChart`. -/
  | quickDebugChart (name : String) (hdl : Hdl)
  /-- `StartQuickDebug`, in `Agent::StartChart` of a chart of the agent. -/
  | startQuickDebug (c : ChartId) (fails : Hdl → Bool)
  /-- `StopDebugChart` of a chart. -/
  | stopDebugChart (c : ChartId)
  /-- `StopDebugChart` of a connection. -/
  | stopDebugHdl (c : ChartId) (hdl : Hdl)
  /-- `Step`. -/
  | step (fails : ChartId → Hdl → Bool)
  /-- `Node::SetStatus` and the other places where debug data is made. -/
  | send (c : ChartId) (k : ℕ)
  /-- A flow of the chart ends without a running node. -/
  | flowEnded (c : ChartId)
  /-- `Chart::~Chart`. -/
  | destroy (c : ChartId)
  /-- Connections are opened and closed. -/
  | connections (lock : Hdl → Option ℕ)

namespace WebsocketManager

/-- An operation, if it is possible: charts are created where there is none, commands find
the charts that agents have, and `Agent::StartChart` starts a chart of the agent. -/
def next (s : WebsocketManager) : DebugOp → Option WebsocketManager
  | .create c name owner nodeCount =>
    if (s.charts c).isNone then
      let x : DebugChart := { name := name, owner := owner, nodeCount := nodeCount }
      some { s with charts := Function.update s.charts c (some x) }
    else none
  | .attach c => some (s.setChart c ({ · with attached := true }))
  | .startDebugChart c hdl running =>
    if (s.charts c).any (·.attached) then some (s.startDebugChart c hdl running) else none
  | .quickDebugChart name hdl => some (s.quickDebugChart name hdl)
  | .startQuickDebug c fails =>
    ((s.charts c).filter (·.attached)).map fun x => s.startQuickDebug c x.name fails
  | .stopDebugChart c => if (s.charts c).isSome then some (s.stopDebugChart c) else none
  | .stopDebugHdl c hdl => if (s.charts c).isSome then some (s.stopDebugHdl c hdl) else none
  | .step fails => some (s.step fails)
  | .send c k => some (s.setChart c (·.send k))
  | .flowEnded c => (s.charts c).map (s.flowEnded c)
  | .destroy c => (s.charts c).map (s.destroy c)
  | .connections lock => some { s with lock := lock }

/-- The states that the operations lead to. -/
abbrev Reachable (s : WebsocketManager) : Prop := Run.Reaches next {} s

/-! ### The invariant -/

/-- The entry of a chart fits the chart. -/
def Fitting : Option (List Hdl) → Option DebugChart → Prop
  | none, x => ∀ y ∈ x, y.debug = false
  | some hs, x => (hs ≠ [] ∧ hs.Nodup) ∧ ∃ y ∈ x, y.debug = true ∧ y.attached = true

/-- **The registration is consistent.** -/
structure Registered (s : WebsocketManager) : Prop where
  /-- Every chart fits its entry. -/
  chart : ∀ c, Fitting (s.chartMap c) (s.charts c)
  /-- Someone waits for every chart of the other map. -/
  quick : ∀ name hs, s.quickDebugMap name = some hs → hs ≠ [] ∧ hs.Nodup

variable {s t : WebsocketManager} {c : ChartId} {x : DebugChart} {hs : List Hdl} {h : Hdl}

@[simp] theorem charts_setChart (s : WebsocketManager) (c : ChartId) (f : DebugChart → DebugChart) :
    (s.setChart c f).charts c = (s.charts c).map f := Function.update_self ..

@[simp] theorem charts_setEntry (s : WebsocketManager) (c : ChartId) (hs : List Hdl) :
    (s.setEntry c hs).charts = s.charts := rfl

@[simp] theorem charts_eraseEntry (s : WebsocketManager) (c : ChartId) :
    (s.eraseEntry c).charts = s.charts := rfl

@[simp] theorem chartMap_setChart (s : WebsocketManager) (c : ChartId)
    (f : DebugChart → DebugChart) :
    (s.setChart c f).chartMap = s.chartMap := rfl

@[simp] theorem chartMap_setEntry (s : WebsocketManager) (c : ChartId) (hs : List Hdl) :
    (s.setEntry c hs).chartMap c = some hs := Function.update_self ..

@[simp] theorem chartMap_eraseEntry (s : WebsocketManager) (c : ChartId) :
    (s.eraseEntry c).chartMap c = none := Function.update_self ..

/-- A change of one chart and its entry. -/
theorem Registered.update (hr : s.Registered) (hc : Fitting (t.chartMap c) (t.charts c))
    (hcharts : ∀ d, d ≠ c → t.charts d = s.charts d)
    (hmap : ∀ d, d ≠ c → t.chartMap d = s.chartMap d)
    (hquick : t.quickDebugMap = s.quickDebugMap) : t.Registered where
  chart d := by
    rcases eq_or_ne d c with rfl | hd
    · exact hc
    · rw [hcharts d hd, hmap d hd]
      exact hr.chart d
  quick := by
    rw [hquick]
    exact hr.quick

theorem Registered.setChart (hr : s.Registered) {f : DebugChart → DebugChart}
    (hf : ∀ y ∈ s.charts c, Fitting (s.chartMap c) (some y) → Fitting (s.chartMap c) (some (f y))) :
    (s.setChart c f).Registered := by
  refine hr.update (c := c) ?_ (fun d hd => Function.update_of_ne hd _ _) (fun _ _ => rfl) rfl
  rw [charts_setChart, chartMap_setChart]
  have hc := hr.chart c
  cases hx : s.charts c with
  | none =>
    rw [hx] at hc
    exact hc
  | some y =>
    rw [hx] at hc
    exact hf y hx hc

/-- A chart that is not debugged any more leaves the map. -/
theorem Registered.stopDebugChart (hr : s.Registered) (c : ChartId) :
    (s.stopDebugChart c).Registered := by
  refine hr.update (c := c) ?_ (fun d hd => Function.update_of_ne hd _ _)
    (fun d hd => Function.update_of_ne hd _ _) rfl
  unfold WebsocketManager.stopDebugChart
  rw [chartMap_eraseEntry, charts_eraseEntry, charts_setChart]
  intro y hy
  obtain ⟨x, -, rfl⟩ := Option.map_eq_some_iff.mp hy
  rfl

/-- A chart that is debugged gets an entry. -/
theorem Registered.setEntry (hr : s.Registered)
    (hx : ∃ y ∈ s.charts c, y.debug = true ∧ y.attached = true)
    (hne : hs ≠ []) (hnd : hs.Nodup) : (s.setEntry c hs).Registered := by
  refine hr.update (c := c) ?_ (fun _ _ => rfl) (fun d hd => Function.update_of_ne hd _ _) rfl
  rw [chartMap_setEntry]
  exact ⟨⟨hne, hnd⟩, hx⟩

theorem not_mem_of_containsHdl (hc : s.containsHdl hs h = false) : h ∉ hs := by
  intro hm
  rw [containsHdl, List.any_eq_false] at hc
  exact hc h hm (by simp)

theorem nodup_append_hdl (hnd : hs.Nodup) (hc : s.containsHdl hs h = false) :
    (hs ++ [h]).Nodup := by
  refine List.nodup_append.mpr ⟨hnd, by simp, fun a ha b hb => ?_⟩
  obtain rfl := List.mem_singleton.mp hb
  rintro rfl
  exact not_mem_of_containsHdl hc ha

theorem nodup_removeHdl (hnd : hs.Nodup) (h : Hdl) : (s.removeHdl hs h).Nodup :=
  hnd.sublist List.eraseP_sublist

/-- The entry that is there, or the one that `operator[]` makes. -/
theorem Registered.nodup_entry (hr : s.Registered) (c : ChartId) :
    ((s.chartMap c).getD []).Nodup := by
  have hc := hr.chart c
  cases he : s.chartMap c with
  | none => exact List.nodup_nil
  | some hs =>
    rw [he] at hc
    exact hc.1.2

/-! ### The operations keep it -/

theorem Registered.startDebugChart (hr : s.Registered) (hx : s.charts c = some x)
    (ha : x.attached = true) (hdl : Hdl) (running : ℕ) :
    (s.startDebugChart c hdl running).Registered := by
  have hc := hr.chart c
  have hnd := hr.nodup_entry c
  unfold WebsocketManager.startDebugChart
  dsimp only
  split
  · rename_i hcont
    cases he : s.chartMap c with
    | none =>
      rw [he] at hcont
      exact Bool.noConfusion hcont
    | some hs =>
      rw [he] at hc
      exact hr.setEntry hc.2 hc.1.1 hc.1.2
  · rename_i hcont
    have hcont := Bool.eq_false_iff.mpr hcont
    refine hr.update (c := c) ?_ (fun d hd => Function.update_of_ne hd _ _)
      (fun d hd => Function.update_of_ne hd _ _) rfl
    rw [charts_setChart, chartMap_setChart, chartMap_setEntry, charts_setEntry, hx]
    exact ⟨⟨by simp, nodup_append_hdl hnd hcont⟩, x.startDebug.sendAll running, rfl, rfl, ha⟩

theorem Registered.quickDebugChart (hr : s.Registered) (name : String) (hdl : Hdl) :
    (s.quickDebugChart name hdl).Registered := by
  refine ⟨hr.chart, fun name' hs hq => ?_⟩
  have hnd : ((s.quickDebugMap name).getD []).Nodup := by
    cases he : s.quickDebugMap name with
    | none => exact List.nodup_nil
    | some hs => exact (hr.quick name hs he).2
  simp only [WebsocketManager.quickDebugChart, Function.update_apply] at hq
  split at hq
  · obtain rfl := Option.some.inj hq
    split
    · rename_i hcont
      refine ⟨fun hnil => ?_, hnd⟩
      rw [hnil] at hcont
      exact Bool.noConfusion hcont
    · rename_i hcont
      exact ⟨by simp, nodup_append_hdl hnd (Bool.eq_false_iff.mpr hcont)⟩
  · exact hr.quick name' hs hq

/-- A failed send leaves the chart debugged by the others, or not at all. -/
theorem Registered.dropQuick (hr : s.Registered) (c : ChartId) (hdl : Hdl) :
    (s.dropQuick c hdl).Registered := by
  unfold WebsocketManager.dropQuick
  dsimp only
  split
  · exact hr.stopDebugChart c
  · rename_i hne
    have hc := hr.chart c
    cases he : s.chartMap c with
    | none =>
      rw [he] at hne
      exact absurd rfl hne
    | some hs =>
      rw [he] at hc hne
      exact hr.setEntry hc.2 hne (nodup_removeHdl hc.1.2 hdl)

theorem Registered.startQuickDebug (hr : s.Registered) (hx : s.charts c = some x)
    (ha : x.attached = true) (name : String) (fails : Hdl → Bool) :
    (s.startQuickDebug c name fails).Registered := by
  unfold WebsocketManager.startQuickDebug
  cases hq : s.quickDebugMap name with
  | none => exact hr
  | some hs =>
    dsimp only
    -- The chart is debugged, and has an entry: its own or that of the other map.
    have hstart : (if ((s.setChart c DebugChart.startDebug).chartMap c).isSome then
        s.setChart c DebugChart.startDebug
        else (s.setChart c DebugChart.startDebug).setEntry c hs).Registered := by
      have hc := hr.chart c
      split
      · rename_i hsome
        refine hr.setChart fun y hy _ => ?_
        obtain rfl := Option.some.inj (hx.symm.trans hy)
        rw [chartMap_setChart] at hsome
        obtain ⟨hs', he⟩ := Option.isSome_iff_exists.mp hsome
        rw [he] at hc ⊢
        exact ⟨hc.1, _, rfl, rfl, ha⟩
      · refine hr.update (c := c) ?_ (fun d hd => Function.update_of_ne hd _ _)
          (fun d hd => Function.update_of_ne hd _ _) (by rfl)
        rw [chartMap_setEntry, charts_setEntry, charts_setChart, hx]
        exact ⟨hr.quick name hs hq, _, rfl, rfl, ha⟩
    generalize (if ((s.setChart c DebugChart.startDebug).chartMap c).isSome then
      s.setChart c DebugChart.startDebug
      else (s.setChart c DebugChart.startDebug).setEntry c hs) = t at hstart
    have hloop : ∀ (ks : List Hdl) (t : WebsocketManager), t.Registered →
        (ks.foldl (fun s hdl => if fails hdl then s.dropQuick c hdl else s) t).Registered := by
      intro ks
      induction ks with
      | nil => exact fun _ ht => ht
      | cons k ks ih =>
        intro t ht
        refine ih _ ?_
        change (if fails k = true then t.dropQuick c k else t).Registered
        split
        · exact ht.dropQuick c k
        · exact ht
    have hend := hloop hs t hstart
    refine ⟨hend.chart, fun name' hs' hq' => ?_⟩
    simp only [Function.update_apply] at hq'
    split at hq'
    · cases hq'
    · exact hend.quick name' hs' hq'

theorem Registered.stopDebugHdl (hr : s.Registered) (c : ChartId) (hdl : Hdl) :
    (s.stopDebugHdl c hdl).Registered := by
  unfold WebsocketManager.stopDebugHdl
  have hc := hr.chart c
  cases he : s.chartMap c with
  | none => exact hr
  | some hs =>
    rw [he] at hc
    dsimp only
    split
    · split
      · exact hr.stopDebugChart c
      · rename_i hne
        exact hr.setEntry hc.2 hne (nodup_removeHdl hc.1.2 hdl)
    · exact hr

/-- A round of sends keeps an entry and its chart together. -/
theorem fitting_stepEntry (fails : Hdl → Bool) (hc : Fitting (some hs) (some x)) :
    Fitting (stepEntry fails hs x).1 (some (stepEntry fails hs x).2) := by
  obtain ⟨⟨hne, hnd⟩, y, hy, hd, ha⟩ := hc
  obtain rfl := Option.some.inj hy
  unfold stepEntry
  split
  · exact ⟨⟨hne, hnd⟩, x, rfl, hd, ha⟩
  · split
    · rintro y ⟨⟩
      rfl
    · rename_i hleft
      exact ⟨⟨fun hnil => hleft ⟨hnil, hne⟩, hnd.filter _⟩, _, rfl, hd, ha⟩

theorem Registered.step (hr : s.Registered) (fails : ChartId → Hdl → Bool) :
    (s.step fails).Registered := by
  refine ⟨fun c => ?_, hr.quick⟩
  have hc := hr.chart c
  unfold WebsocketManager.step
  dsimp only
  cases he : s.chartMap c with
  | none =>
    rw [he] at hc
    exact hc
  | some hs =>
    rw [he] at hc
    cases hx : s.charts c with
    | none =>
      rw [hx] at hc
      exact hc
    | some x =>
      rw [hx] at hc
      exact fitting_stepEntry (fails c) hc

theorem Registered.flowEnded (hr : s.Registered) (c : ChartId) (x : DebugChart) :
    (s.flowEnded c x).Registered := by
  unfold WebsocketManager.flowEnded
  split
  · split
    · exact hr.stopDebugChart c
    · exact hr
  · split
    · exact hr
    · exact hr.stopDebugChart c

/-- A chart that is destroyed has left the map. -/
theorem Registered.destroy (hr : s.Registered) (hx : s.charts c = some x) :
    (s.destroy c x).Registered := by
  unfold WebsocketManager.destroy
  dsimp only
  have hc := hr.chart c
  split
  · refine (hr.stopDebugChart c).update (c := c) ?_ (fun d hd => Function.update_of_ne hd _ _)
      (fun _ _ => rfl) rfl
    change Fitting ((s.stopDebugChart c).chartMap c)
      (Function.update (s.stopDebugChart c).charts c none c)
    rw [Function.update_self, WebsocketManager.stopDebugChart, chartMap_eraseEntry]
    exact nofun
  · rename_i hno
    refine hr.update (c := c) ?_ (fun d hd => Function.update_of_ne hd _ _) (fun _ _ => rfl) rfl
    change Fitting (s.chartMap c) (Function.update s.charts c none c)
    rw [Function.update_self]
    cases he : s.chartMap c with
    | none => exact nofun
    | some hs =>
      -- A chart with an entry is debugged and belongs to an agent.
      rw [he, hx] at hc
      obtain ⟨-, y, hy, hd, ha⟩ := hc
      obtain rfl := Option.some.inj hy
      rw [hd, ha] at hno
      exact absurd rfl hno

/-- **Every operation keeps the registration consistent.** -/
theorem registered_of_next {o : DebugOp} (hr : s.Registered) (ho : s.next o = some t) :
    t.Registered := by
  cases o with
  | create c name owner nodeCount =>
    rw [next] at ho
    split at ho
    · rename_i hnone
      obtain rfl := Option.some.inj ho
      refine hr.update (c := c) ?_ (fun d hd => Function.update_of_ne hd _ _) (fun _ _ => rfl) rfl
      have hc := hr.chart c
      rw [Option.isNone_iff_eq_none.mp hnone] at hc
      change Fitting (s.chartMap c) (Function.update s.charts c _ c)
      rw [Function.update_self]
      cases he : s.chartMap c with
      | none =>
        rintro y ⟨⟩
        rfl
      | some hs =>
        rw [he] at hc
        obtain ⟨-, y, hy, -⟩ := hc
        cases hy
    · cases ho
  | attach c =>
    obtain rfl := Option.some.inj ho
    refine hr.setChart fun y _ hf => ?_
    cases he : s.chartMap c with
    | none =>
      rw [he] at hf
      rintro z ⟨⟩
      exact hf y rfl
    | some hs =>
      rw [he] at hf
      obtain ⟨hh, z, hz, hd, -⟩ := hf
      obtain rfl := Option.some.inj hz
      exact ⟨hh, _, rfl, hd, rfl⟩
  | startDebugChart c hdl running =>
    rw [next] at ho
    split at ho
    · rename_i hany
      obtain rfl := Option.some.inj ho
      obtain ⟨x, hx, ha⟩ := (Option.any_eq_true _ _).mp hany
      exact hr.startDebugChart hx ha hdl running
    · cases ho
  | quickDebugChart name hdl =>
    obtain rfl := Option.some.inj ho
    exact hr.quickDebugChart name hdl
  | startQuickDebug c fails =>
    obtain ⟨x, hx, rfl⟩ := Option.map_eq_some_iff.mp ho
    obtain ⟨hx, ha⟩ := Option.filter_eq_some_iff.mp hx
    exact hr.startQuickDebug hx ha x.name fails
  | stopDebugChart c =>
    rw [next] at ho
    split at ho
    · obtain rfl := Option.some.inj ho
      exact hr.stopDebugChart c
    · cases ho
  | stopDebugHdl c hdl =>
    rw [next] at ho
    split at ho
    · obtain rfl := Option.some.inj ho
      exact hr.stopDebugHdl c hdl
    · cases ho
  | step fails =>
    obtain rfl := Option.some.inj ho
    exact hr.step fails
  | send c k =>
    obtain rfl := Option.some.inj ho
    refine hr.setChart fun y _ hf => ?_
    unfold DebugChart.send
    split
    · cases he : s.chartMap c with
      | none =>
        rw [he] at hf
        rintro z ⟨⟩
        exact hf y rfl
      | some hs =>
        rw [he] at hf
        obtain ⟨hh, z, hz, hd, ha⟩ := hf
        obtain rfl := Option.some.inj hz
        exact ⟨hh, _, rfl, hd, ha⟩
    · exact hf
  | flowEnded c =>
    obtain ⟨x, -, rfl⟩ := Option.map_eq_some_iff.mp ho
    exact hr.flowEnded c x
  | destroy c =>
    obtain ⟨x, hx, rfl⟩ := Option.map_eq_some_iff.mp ho
    exact hr.destroy hx
  | connections lock =>
    obtain rfl := Option.some.inj ho
    exact ⟨hr.chart, hr.quick⟩

/-- **The debug registration**: after every sequence of operations, whichever sends fail, a
chart is in the map exactly if its debug flag is set, an entry has at least one connection
and none of them twice, and only charts that exist are in the map. -/
theorem registered (h : Reachable s) :
    (∀ c x, s.charts c = some x → ((s.chartMap c).isSome ↔ x.debug = true)) ∧
      (∀ c hs, s.chartMap c = some hs → hs ≠ [] ∧ hs.Nodup) ∧
      ∀ c, (s.chartMap c).isSome → (s.charts c).isSome := by
  have hr : s.Registered :=
    h.invariant (I := Registered) ⟨fun _ => nofun, nofun⟩ fun _ _ _ hr _ ho =>
      registered_of_next hr ho
  refine ⟨fun c x hx => ?_, fun c hs he => ?_, fun c he => ?_⟩
  · have hc := hr.chart c
    rw [hx] at hc
    cases he : s.chartMap c with
    | none =>
      rw [he] at hc
      simp [hc x rfl]
    | some hs =>
      rw [he] at hc
      obtain ⟨-, y, hy, hd, -⟩ := hc
      obtain rfl := Option.some.inj hy
      simp [hd]
  · have hc := hr.chart c
    rw [he] at hc
    exact hc.1
  · obtain ⟨hs, he⟩ := Option.isSome_iff_exists.mp he
    have hc := hr.chart c
    rw [he] at hc
    obtain ⟨-, y, hy, -⟩ := hc
    exact Option.isSome_iff_exists.mpr ⟨y, hy⟩

/-- Two connections wait for a chart; when it starts, the send to the first one fails. -/
def quickOps : List DebugOp :=
  [.create 0 "chart" none 3, .attach 0, .connections some, .quickDebugChart "chart" 1,
    .quickDebugChart "chart" 2, .startQuickDebug 0 (· = 1)]

/-- The second connection debugs the chart. -/
theorem registered_quick : ∃ s x, Reachable s ∧ s.chartMap 0 = some [2] ∧ s.charts 0 = some x ∧
    x.debug = true := by
  have hrun : ((Run.exec next {} quickOps).any fun s =>
      decide (s.chartMap 0 = some [2]) && (s.charts 0).isSome) = true := by decide +kernel
  obtain ⟨s, hs, h⟩ := (Option.any_eq_true _ _).mp hrun
  obtain ⟨he, hx⟩ := (Bool.and_eq_true _ _).mp h
  obtain ⟨x, hx⟩ := Option.isSome_iff_exists.mp hx
  have he := of_decide_eq_true he
  have hreach := Run.reaches_of_exec hs
  exact ⟨s, x, hreach, he, hx, ((registered hreach).1 0 x hx).mp (by rw [he]; rfl)⟩

end WebsocketManager

end Asyncflow
