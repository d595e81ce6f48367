import Asyncflow.Debug.Registration

/-!
# Who debugs a chart that is started

The connections that wait for a chart in `quick_debug_map_` become those that debug it when it
is started: `StartQuickDebug` inserts them into `chart_map_`. But an insert does nothing when
there is an entry, and then the waiting connections are forgotten while the failed sends are
taken out of the entry that is there.

A handle is compared by its connection, so the argument counts, for a connection, the handles
of an entry that are its own (`Asyncflow.WebsocketManager.share`): a failed send takes one of
them away. `Asyncflow.WebsocketManager.honoured_iff` states when everybody who waits, and whose
send succeeds, debugs the chart.
-/

namespace Asyncflow

namespace WebsocketManager

variable {s t : WebsocketManager} {c : ChartId} {x : DebugChart} {hs ks : List Hdl} {h k : Hdl}
  {fails : Hdl → Bool} {name : String}

/-- The handles of the connection in a list. -/
def count (s : WebsocketManager) (hs : List Hdl) (h : Hdl) : ℕ :=
  hs.countP fun k => s.lock k = s.lock h

/-- The handles of the connection in the entry of the chart. -/
def share (s : WebsocketManager) (c : ChartId) (h : Hdl) : ℕ := s.count ((s.chartMap c).getD []) h

/-- The handles of the connection for which the send fails. -/
def failed (s : WebsocketManager) (fails : Hdl → Bool) (hs : List Hdl) (h : Hdl) : ℕ :=
  hs.countP fun k => fails k && s.lock k = s.lock h

theorem containsHdl_iff : s.containsHdl hs h = true ↔ 0 < s.count hs h := by
  unfold containsHdl count
  rw [List.any_eq_true, List.countP_pos_iff]

theorem count_removeHdl : s.count (s.removeHdl hs k) h =
    if s.lock k = s.lock h then s.count hs h - 1 else s.count hs h := by
  unfold count removeHdl
  rcases List.exists_or_eq_self_of_eraseP (fun a => decide (s.lock a = s.lock k)) hs with
    heq | ⟨a, l₁, l₂, -, ha, hsplit, heq⟩
  · rw [heq]
    split_ifs with hk
    · -- The connection has no handle here.
      have hnone : hs.countP (fun a => decide (s.lock a = s.lock h)) = 0 := by
        rw [List.countP_eq_zero]
        intro a hmem ha
        have hlt := List.length_eraseP_of_mem hmem (p := fun a => decide (s.lock a = s.lock k))
          (by rwa [hk])
        rw [heq] at hlt
        have := List.length_pos_of_mem hmem
        omega
      rw [hnone]
    · rfl
  · rw [heq, hsplit, List.countP_append, List.countP_append, List.countP_cons]
    have ha := of_decide_eq_true ha
    rw [ha]
    split_ifs with hk hd hd
    · omega
    · exact absurd (decide_eq_true hk) hd
    · exact absurd (of_decide_eq_true hd) hk
    · rfl

@[simp] theorem lock_dropQuick (s : WebsocketManager) (c : ChartId) (k : Hdl) :
    (s.dropQuick c k).lock = s.lock := by
  unfold dropQuick
  dsimp only
  split <;> rfl

/-- A failed send takes away one handle of its connection. -/
theorem share_dropQuick : (s.dropQuick c k).share c h =
    if s.lock k = s.lock h then s.share c h - 1 else s.share c h := by
  unfold share
  rw [← count_removeHdl]
  unfold dropQuick
  dsimp only
  split_ifs with hnil
  · rw [chartMap_eraseEntry, hnil]
    rfl
  · rw [chartMap_setEntry]
    rfl

/-- The loop of `StartQuickDebug`. -/
def dropFailed (s : WebsocketManager) (c : ChartId) (fails : Hdl → Bool) (ks : List Hdl) :
    WebsocketManager :=
  ks.foldl (fun s hdl => if fails hdl then s.dropQuick c hdl else s) s

/-- **The loop takes away as many handles of a connection as its sends fail.** -/
theorem share_dropFailed (s : WebsocketManager) (ks : List Hdl) :
    (s.dropFailed c fails ks).lock = s.lock ∧
      (s.dropFailed c fails ks).share c h = s.share c h - s.failed fails ks h := by
  induction ks generalizing s with
  | nil => exact ⟨rfl, rfl⟩
  | cons k ks ih =>
    unfold dropFailed
    rw [List.foldl_cons]
    by_cases hk : fails k = true
    · rw [if_pos hk]
      obtain ⟨hlock, hshare⟩ := ih (s.dropQuick c k)
      refine ⟨hlock.trans (lock_dropQuick s c k), hshare.trans ?_⟩
      rw [share_dropQuick]
      unfold failed
      rw [lock_dropQuick, List.countP_cons, hk]
      split_ifs with h₁ h₂ h₂
      · omega
      · simp [h₁] at h₂
      · simp [h₁] at h₂
      · omega
    · rw [if_neg hk]
      obtain ⟨hlock, hshare⟩ := ih s
      refine ⟨hlock, hshare.trans ?_⟩
      unfold failed
      rw [List.countP_cons_of_neg (by simp [hk])]

/-- The connection debugs the chart: `Step` sends it the data of the chart. -/
def Debugs (s : WebsocketManager) (c : ChartId) (h : Hdl) : Prop :=
  (∃ x ∈ s.charts c, x.debug = true) ∧ ∃ hs ∈ s.chartMap c, s.containsHdl hs h = true

/-- The connections that wait for a chart. -/
def waiting (s : WebsocketManager) (name : String) : List Hdl := (s.quickDebugMap name).getD []

/-- **The waiting connections debug the chart**, if their sends succeed, and so do those that
debugged it before. -/
structure Honoured (s t : WebsocketManager) (c : ChartId) (name : String) (fails : Hdl → Bool) :
    Prop where
  waiting : ∀ h ∈ s.waiting name, fails h = false → t.Debugs c h
  kept : ∀ hs ∈ s.chartMap c, ∀ h ∈ hs,
    (∀ k ∈ s.waiting name, s.lock k = s.lock h → fails k = false) → t.Debugs c h

/-- There is no entry for the chart, or every waiting connection whose send succeeds has
handles in it that the failed sends leave. -/
def Joined (s : WebsocketManager) (c : ChartId) (name : String) (fails : Hdl → Bool) : Prop :=
  s.chartMap c = none ∨ ∀ h ∈ s.waiting name, fails h = false →
    s.failed fails (s.waiting name) h < s.share c h

theorem count_pos_of_mem (hm : h ∈ hs) : 0 < s.count hs h :=
  List.countP_pos_iff.mpr ⟨h, hm, decide_eq_true rfl⟩

/-- A send that succeeds leaves a handle. -/
theorem failed_lt_count (hm : h ∈ hs) (hf : fails h = false) :
    s.failed fails hs h < s.count hs h := by
  have hsplit := List.countP_eq_countP_filter_add hs (fun k => decide (s.lock k = s.lock h)) fails
  have hfailed : (hs.filter fails).countP (fun k => decide (s.lock k = s.lock h)) =
      s.failed fails hs h := by
    rw [List.countP_filter]
    exact List.countP_congr fun a _ => by rw [Bool.and_comm]
  have hleft : 0 < (hs.filter fun k => !fails k).countP fun k => decide (s.lock k = s.lock h) :=
    List.countP_pos_iff.mpr ⟨h, List.mem_filter.mpr ⟨hm, by rw [hf]; rfl⟩, decide_eq_true rfl⟩
  unfold count
  omega

/-- **What a start leaves of every connection.** -/
theorem share_startQuickDebug (hq : s.quickDebugMap name = some ks) :
    (s.startQuickDebug c name fails).lock = s.lock ∧
      (s.startQuickDebug c name fails).share c h =
        (if s.chartMap c = none then s.count ks h else s.share c h) - s.failed fails ks h := by
  have hrun : ∀ u : WebsocketManager, u.lock = s.lock →
      (if (u.chartMap c).isSome then u else u.setEntry c ks).lock = s.lock ∧
        (if (u.chartMap c).isSome then u else u.setEntry c ks).share c h =
          if u.chartMap c = none then s.count ks h else u.share c h := by
    intro u hu
    cases he : u.chartMap c with
    | none =>
      refine ⟨hu, ?_⟩
      change (u.setEntry c ks).share c h = s.count ks h
      rw [share, chartMap_setEntry, count, count, ← hu]
      rfl
    | some hs' =>
      rw [if_pos (show (some hs').isSome = true from rfl),
        if_neg (show ¬some hs' = none from nofun)]
      exact ⟨hu, rfl⟩
  obtain ⟨hlock, hshare⟩ := hrun (s.setChart c DebugChart.startDebug) rfl
  unfold startQuickDebug
  rw [hq]
  dsimp only
  generalize (if ((s.setChart c DebugChart.startDebug).chartMap c).isSome then
    s.setChart c DebugChart.startDebug
    else (s.setChart c DebugChart.startDebug).setEntry c ks) = u at hlock hshare
  obtain ⟨hlock', hshare'⟩ := share_dropFailed u ks
  refine ⟨hlock'.trans hlock, ?_⟩
  have hfailed : u.failed fails ks h = s.failed fails ks h := by
    unfold failed
    rw [hlock]
  rw [hshare, hfailed] at hshare'
  exact hshare'

theorem debugs_iff (hr : Reachable t) : t.Debugs c h ↔ 0 < t.share c h := by
  constructor
  · rintro ⟨-, hs, he, hc⟩
    rw [share, he]
    exact containsHdl_iff.mp hc
  · intro hpos
    cases he : t.chartMap c with
    | none =>
      rw [share, he] at hpos
      exact absurd hpos (by simp [count])
    | some hs =>
      rw [share, he] at hpos
      have hsome : (t.chartMap c).isSome := by rw [he]; rfl
      obtain ⟨x, hx⟩ := Option.isSome_iff_exists.mp ((registered hr).2.2 c hsome)
      exact ⟨⟨x, hx, ((registered hr).1 c x hx).mp hsome⟩, hs, he, containsHdl_iff.mpr hpos⟩

/-- **When a quick debug is honoured.** -/
theorem honoured_iff (hr : Reachable s) (hx : s.charts c = some x)
    (ht : s.next (.startQuickDebug c fails) = some t) :
    Honoured s t c x.name fails ↔ Joined s c x.name fails := by
  have hrt : Reachable t := hr.tail trivial ht
  obtain ⟨y, hy, rfl⟩ := Option.map_eq_some_iff.mp ht
  obtain rfl := Option.some.inj (hx.symm.trans (Option.filter_eq_some_iff.mp hy).1)
  cases hq : s.quickDebugMap x.name with
  | none =>
    -- Nobody waits, and nothing happens.
    have hsame : s.startQuickDebug c x.name fails = s := by
      unfold startQuickDebug
      rw [hq]
    have hwait : s.waiting x.name = [] := by rw [waiting, hq]; rfl
    rw [hsame]
    refine iff_of_true ⟨?_, ?_⟩ (Or.inr ?_)
    · rw [hwait]
      exact nofun
    · intro hs he h hm _
      exact (debugs_iff hr).mpr (by rw [share, he]; exact count_pos_of_mem hm)
    · rw [hwait]
      exact nofun
  | some ks =>
    have hwait : s.waiting x.name = ks := by rw [waiting, hq]; rfl
    have hshare : ∀ h, (s.startQuickDebug c x.name fails).share c h =
        (if s.chartMap c = none then s.count ks h else s.share c h) - s.failed fails ks h :=
      fun h => (share_startQuickDebug hq).2
    constructor
    · rintro ⟨hw, -⟩
      refine or_iff_not_imp_left.mpr fun hne h hm hf => ?_
      have hpos := (debugs_iff hrt).mp (hw h hm hf)
      rw [hshare, if_neg hne] at hpos
      rw [hwait]
      omega
    · intro hj
      constructor
      · intro h hm hf
        rw [debugs_iff hrt, hshare]
        have hlt := failed_lt_count (s := s) (hwait ▸ hm) hf
        rcases hj with hnone | hall
        · rw [if_pos hnone]
          omega
        · have := hall h hm hf
          rw [hwait] at this
          split_ifs <;> omega
      · intro hs he h hm hk
        have hzero : s.failed fails ks h = 0 := by
          rw [failed, List.countP_eq_zero]
          intro k hkm hcon
          obtain ⟨hfk, hlk⟩ := (Bool.and_eq_true _ _).mp hcon
          rw [hk k (by rwa [hwait]) (of_decide_eq_true hlk)] at hfk
          cases hfk
        rw [debugs_iff hrt, hshare, if_neg (by rw [he]; nofun), hzero, share, he]
        exact count_pos_of_mem hm

/-- A connection waits for a chart, and the chart is created. -/
def waitOps : List DebugOp :=
  [.connections some, .quickDebugChart "chart" 1, .create 0 "chart" none 3, .attach 0]

/-- The connection debugs the chart when it is started. -/
theorem honoured_waiting : ∃ s t x, Reachable s ∧ s.charts 0 = some x ∧
    s.next (.startQuickDebug 0 fun _ => false) = some t ∧
    Honoured s t 0 x.name (fun _ => false) ∧ s.waiting x.name = [1] := by
  have hrun : ((Run.exec next {} waitOps).any fun s =>
      (s.next (.startQuickDebug 0 fun _ => false)).isSome && decide (s.chartMap 0 = none) &&
        decide (s.waiting "chart" = [1]) && decide ((s.charts 0).map (·.name) = some "chart")) =
      true := by decide +kernel
  obtain ⟨s, hs, h⟩ := (Option.any_eq_true _ _).mp hrun
  simp only [Bool.and_eq_true, decide_eq_true_eq] at h
  obtain ⟨⟨⟨hsome, hnone⟩, hwait⟩, hname⟩ := h
  obtain ⟨t, ht⟩ := Option.isSome_iff_exists.mp hsome
  obtain ⟨x, hx, hname⟩ := Option.map_eq_some_iff.mp hname
  have hr := Run.reaches_of_exec hs
  exact ⟨s, t, x, hr, hx, ht, (honoured_iff hr hx ht).mpr (Or.inl hnone), by rw [hname, hwait]⟩

/-- The waiting connection is forgotten if another one debugs the chart already. -/
theorem not_forall_honoured : ¬∀ (s t : WebsocketManager) (c : ChartId) (x : DebugChart)
    (fails : Hdl → Bool), Reachable s → s.charts c = some x →
    s.next (.startQuickDebug c fails) = some t → Honoured s t c x.name fails := by
  intro hall
  have hrun : ((Run.exec next {} (waitOps ++ [.startDebugChart 0 2 0])).any fun s =>
      decide (s.waiting "chart" = [1]) && decide ((s.charts 0).map (·.name) = some "chart") &&
        (s.next (.startQuickDebug 0 fun _ => false)).any fun t =>
          decide (t.chartMap 0 = some [2]) && !t.containsHdl [2] 1) = true := by decide +kernel
  obtain ⟨s, hs, h⟩ := (Option.any_eq_true _ _).mp hrun
  simp only [Bool.and_eq_true, decide_eq_true_eq] at h
  obtain ⟨⟨hwait, hname⟩, h⟩ := h
  obtain ⟨t, ht, h⟩ := (Option.any_eq_true _ _).mp h
  simp only [Bool.and_eq_true, decide_eq_true_eq] at h
  obtain ⟨x, hx, hname⟩ := Option.map_eq_some_iff.mp hname
  have hon := hall s t 0 x _ (Run.reaches_of_exec hs) hx ht
  obtain ⟨-, hs', he, hc⟩ := hon.waiting 1
    (by rw [hname, hwait]; exact List.mem_singleton_self 1) rfl
  obtain rfl := Option.some.inj (h.1.symm.trans he)
  rw [hc] at h
  exact Bool.noConfusion h.2

end WebsocketManager

end Asyncflow
