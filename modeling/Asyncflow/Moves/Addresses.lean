import Asyncflow.Moves.Born

/-!
# Addresses that are used again

A context, and an entry of `nodes_set_`, is the address of a node, and it outlives
the node: the memory of a chart that is gone may be that of a chart made later. Two
nodes have one address when they have one tenant (`Asyncflow.Heap.tenant`), the
node that was last made there.

`Asyncflow.Heap.Housed` says what this comes to: a node that is there is its own
tenant, and so is every tenant. Only the making of a chart changes the tenants
(`Asyncflow.Heap.stays_of_move`), and it never gives one address to two nodes
(`Asyncflow.Heap.rehouse_inj`).
-/

namespace Asyncflow

namespace Heap

variable {h h' : Heap} {n m : NodeRef} {flows : ℕ → Prop} {may : Permit → Prop} {D : NodeRef → Prop}

/-! ### The moves that make no chart -/

/-- No chart is made, and every address stays what it is. -/
structure Stays (h h' : Heap) : Prop where
  tenant : h'.tenant = h.tenant
  next : h'.nextChart = h.nextChart
  charts : ∀ c, (h'.charts c).isSome → (h.charts c).isSome

theorem stays_of_eq (ht : h'.tenant = h.tenant) (hn : h'.nextChart = h.nextChart)
    (hc : h'.charts = h.charts) : h.Stays h' := ⟨ht, hn, fun _ hs => hc ▸ hs⟩

theorem stays_forgetChart (h : Heap) (c : ChartId) : h.Stays (h.forgetChart c) := by
  have hcharts : (h.forgetChart c).charts = Function.update h.charts c none := rfl
  refine ⟨?_, nextChart_setOwner h c _, fun d hd => ?_⟩
  · change (h.setOwner c _).tenant = _
    unfold setOwner
    split <;> rfl
  · rw [hcharts] at hd
    rcases eq_or_ne d c with rfl | hdc
    · rw [Function.update_self] at hd
      cases hd
    · rwa [Function.update_of_ne hdc] at hd

/-- **Only the making of a chart changes what is at an address.** -/
theorem stays_of_move (hm : Move flows may D h h') :
    h.Stays h' ∨ ∃ d o, h' = h.initChart d o := by
  rcases outer_of_move hm with ho | ho
  · have htenant : h'.outer.tenant = h.outer.tenant := congrArg Heap.tenant ho
    have hnext : h'.outer.nextChart = h.outer.nextChart := congrArg Heap.nextChart ho
    have hcharts : h'.outer.charts = h.outer.charts := congrArg Heap.charts ho
    exact .inl (stays_of_eq htenant hnext hcharts)
  · cases ho with
    | alike ha =>
      refine .inl ⟨ha.tenant, ha.nextChart, fun c hc => ?_⟩
      obtain ⟨x', hx'⟩ := Option.isSome_iff_exists.mp hc
      obtain ⟨x, hx, -⟩ := ha.charts c x' hx'
      exact Option.isSome_iff_exists.mpr ⟨x, hx⟩
    | load | patch | manage => exact .inl (stays_of_eq rfl rfl rfl)
    | @started d x hx hne =>
      simp only [markStarted, hx, hne, ↓reduceIte]
      refine .inl ⟨rfl, rfl, fun c hc => ?_⟩
      change (Function.update h.charts d ((h.charts d).map _) c).isSome at hc
      rcases eq_or_ne c d with rfl | hcd
      · rwa [Function.update_self, Option.isSome_map] at hc
      · rwa [Function.update_of_ne hcd] at hc
    | create d o => exact .inr ⟨d, o, rfl⟩
    | forget c => exact .inl (stays_forgetChart h c)

/-- A chart goes with an entry that says so. -/
theorem alive_of_move (hm : Move flows may D h h') {c : ChartId} (hc : (h.charts c).isSome) :
    (h'.charts c).isSome ∨ ∃ o, h'.log = .destroyed c o :: h.log := by
  rcases outer_of_move hm with ho | ho
  · have hcharts : h'.outer.charts = h.outer.charts := congrArg Heap.charts ho
    exact .inl (by rwa [show h'.charts = h.charts from hcharts])
  · cases ho with
    | alike ha => exact .inl (ha.alive c hc)
    | load | patch | manage => exact .inl hc
    | @started d x hx hne =>
      simp only [markStarted, hx, hne, ↓reduceIte]
      refine .inl ?_
      change (Function.update h.charts d ((h.charts d).map _) c).isSome
      rcases eq_or_ne c d with rfl | hcd
      · rwa [Function.update_self, Option.isSome_map]
      · rwa [Function.update_of_ne hcd]
    | create d o =>
      refine .inl ?_
      change (Function.update h.charts h.nextChart _ c).isSome
      rcases eq_or_ne c h.nextChart with rfl | hne
      · rw [Function.update_self]
        rfl
      · rwa [Function.update_of_ne hne]
    | forget d =>
      rcases eq_or_ne c d with rfl | hcd
      · refine .inr ⟨h.ownerOf c, ?_⟩
        unfold forgetChart setOwner
        split <;> rfl
      · refine .inl ?_
        change (Function.update h.charts d none c).isSome
        rwa [Function.update_of_ne hcd]

/-! ### Nodes at new addresses -/

theorem rehouse_of_alive (h : Heap) (k : ℕ) (hn : (h.charts n.chart).isSome) :
    h.rehouse k n = n := by
  have hf : h.freed n = false := by simp [freed, Option.isNone_eq_false_iff.mpr hn]
  simp [rehouse, hf]

theorem rehouse_of_unmade (h : Heap) (k : ℕ) (hn : h.nextChart ≤ n.chart) : h.rehouse k n = n := by
  have hf : h.freed n = false := by simp [freed, Nat.not_lt.mpr hn]
  simp [rehouse, hf]

/-- **No two nodes are given one address.** -/
theorem rehouse_inj (h : Heap) (k : ℕ) (hn : n.chart < h.nextChart) (hm : m.chart < h.nextChart)
    (he : h.rehouse k n = h.rehouse k m) : n = m := by
  have hne : ∀ {p : NodeRef} {i : ℕ}, p.chart < h.nextChart → p ≠ ⟨h.nextChart, i⟩ := by
    rintro p i hp rfl
    exact Nat.lt_irrefl _ hp
  -- Two nodes that are given cells have different ones, and a cell was no node's address before.
  by_cases hpn : h.freed n ∧ n ∈ h.cells ∧ h.cells.idxOf n < k <;>
    by_cases hpm : h.freed m ∧ m ∈ h.cells ∧ h.cells.idxOf m < k
  · rw [rehouse, if_pos hpn, rehouse, if_pos hpm] at he
    exact (List.idxOf_inj hpn.2.1).mp (congrArg NodeRef.id he)
  · rw [rehouse, if_pos hpn, rehouse, if_neg hpm] at he
    exact absurd he.symm (hne hm)
  · rw [rehouse, if_neg hpn, rehouse, if_pos hpm] at he
    exact absurd he (hne hn)
  · rwa [rehouse, if_neg hpn, rehouse, if_neg hpm] at he

/-! ### Every node that is there is at its address -/

/-- What the tenants are. -/
structure Housed (h : Heap) : Prop where
  born : ∀ c, (h.charts c).isSome → c < h.nextChart
  alive : ∀ n, (h.charts n.chart).isSome → h.tenant n = n
  unmade : ∀ n, h.nextChart ≤ n.chart → h.tenant n = n
  made : ∀ n, n.chart < h.nextChart → (h.tenant n).chart < h.nextChart
  idem : ∀ n, h.tenant (h.tenant n) = h.tenant n

theorem Housed.of_stays (hh : h.Housed) (hs : h.Stays h') : h'.Housed where
  born c hc := by
    rw [hs.next]
    exact hh.born c (hs.charts c hc)
  alive n hn := by
    rw [hs.tenant]
    exact hh.alive n (hs.charts _ hn)
  unmade n hn := by
    rw [hs.tenant]
    exact hh.unmade n (hs.next ▸ hn)
  made n hn := by
    rw [hs.next] at hn ⊢
    rw [hs.tenant]
    exact hh.made n hn
  idem n := by
    rw [hs.tenant]
    exact hh.idem n

/-- A tenant that has to leave goes to a node of the new chart, and stays there. -/
theorem Housed.tenant_rehouse (hh : h.Housed) (k : ℕ) (hn : h.tenant n = n) :
    h.rehouse k (h.tenant (h.rehouse k n)) = h.rehouse k n := by
  rcases h.rehouse_eq k n with he | ⟨i, -, he⟩
  · rw [he, hn, he]
  · rw [he, hh.unmade _ (Nat.le_refl _), rehouse_of_unmade h k (Nat.le_refl _)]

theorem Housed.initChart (hh : h.Housed) (d : DataId) (o : Option NodeRef) :
    (h.initChart d o).Housed where
  born c hc := by
    change (Function.update h.charts h.nextChart _ c).isSome at hc
    rcases eq_or_ne c h.nextChart with rfl | hne
    · exact Nat.lt_succ_self _
    · rw [Function.update_of_ne hne] at hc
      exact Nat.lt_succ_of_lt (hh.born c hc)
  alive n hn := by
    change (Function.update h.charts h.nextChart _ n.chart).isSome at hn
    change h.rehouse _ (h.tenant n) = n
    by_cases hne : n.chart = h.nextChart
    · rw [hh.unmade n (Nat.le_of_eq hne.symm), rehouse_of_unmade h _ (Nat.le_of_eq hne.symm)]
    · rw [Function.update_of_ne hne] at hn
      rw [hh.alive n hn, rehouse_of_alive h _ hn]
  unmade n hn := by
    have hle : h.nextChart ≤ n.chart := Nat.le_of_succ_le hn
    change h.rehouse _ (h.tenant n) = n
    rw [hh.unmade n hle, rehouse_of_unmade h _ hle]
  made n hn := by
    change (h.rehouse _ (h.tenant n)).chart < h.nextChart + 1
    rcases h.rehouse_eq (h.nodeCount d) (h.tenant n) with he | ⟨i, -, he⟩ <;> rw [he]
    · rcases Nat.lt_or_ge n.chart h.nextChart with hlt | hge
      · exact Nat.lt_succ_of_lt (hh.made n hlt)
      · rwa [hh.unmade n hge]
    · exact Nat.lt_succ_self _
  idem n := hh.tenant_rehouse _ (hh.idem n)

theorem housed_init : ({} : Heap).Housed := ⟨nofun, fun _ _ => rfl, fun _ _ => rfl, fun _ => id,
  fun _ => rfl⟩

/-- Two nodes that have been made have one address after a chart has been made if they had one
before. -/
theorem Housed.tenant_initChart_inj (hh : h.Housed) (d : DataId) (o : Option NodeRef)
    (hn : n.chart < h.nextChart) (hm : m.chart < h.nextChart) :
    (h.initChart d o).tenant n = (h.initChart d o).tenant m ↔ h.tenant n = h.tenant m :=
  ⟨rehouse_inj h _ (hh.made n hn) (hh.made m hm), congrArg (h.rehouse _)⟩

end Heap

end Asyncflow
