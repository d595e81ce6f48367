import Asyncflow.Loading.Outcome

/-!
# Which uids a chart may list

`ChartData::FromYaml` keeps the uids of a chart as they are listed. Two places expect them to
have 36 characters with dashes: a parameter of a control node with 32 characters is given dashes
before it is looked up (`UuidUtil::NtoD`), and the name of a function that has none is made of
the characters of the uid at fixed positions (`UuidUtil::DtoN`), without a look at its length.

`Asyncflow.Loading.acceptsUids_iff` states for which uids this goes well.
-/

namespace Asyncflow

namespace Loading

open Program

/-! ### The positions that are read -/

/-- Where the characters of the 32-digit form are read, in the order of the form. -/
def dtoNPositions : List ℕ :=
  List.range' 0 8 ++ List.range' 9 4 ++ List.range' 14 4 ++ List.range' 19 4 ++ List.range' 24 12

section Positions

variable {d e : List Char}

theorem map_some_take_drop {a n : ℕ} (h : a + n ≤ d.length) :
    ((d.drop a).take n).map some = (List.range' a n).map (d[·]?) := by
  refine List.ext_getElem? fun i => ?_
  rw [List.getElem?_map, List.getElem?_map]
  rcases Nat.lt_or_ge i n with hi | hi
  · have hlt : a + i < d.length := by omega
    rw [List.getElem?_take_of_lt hi, List.getElem?_drop, List.getElem?_range' hi, Nat.one_mul,
      Option.map_some, List.getElem?_eq_getElem hlt, Option.map_some]
  · have htake : ((d.drop a).take n).length ≤ i := Nat.le_trans (List.length_take_le n _) hi
    have hrange : (List.range' a n).length ≤ i := by
      rw [List.length_range']
      exact hi
    rw [List.getElem?_eq_none htake, List.getElem?_eq_none hrange]
    rfl

/-- **What `DtoN` reads.** -/
theorem map_some_dtoN (h : 36 ≤ d.length) :
    (dtoN d).map some = dtoNPositions.map (d[·]?) := by
  unfold dtoN dtoNPositions
  simp only [List.map_append]
  rw [← map_some_take_drop (by omega), ← map_some_take_drop (by omega),
    ← map_some_take_drop (by omega), ← map_some_take_drop (by omega),
    ← map_some_take_drop (by omega), List.drop_zero]

/-- Two uids have one 32-digit form if they agree where they are read. -/
theorem dtoN_eq_iff (hd : 36 ≤ d.length) (he : 36 ≤ e.length) :
    dtoN d = dtoN e ↔ ∀ j ∈ dtoNPositions, d[j]? = e[j]? := by
  have hinj : Function.Injective (List.map (some : Char → Option Char)) :=
    List.map_injective_iff.mpr fun _ _ => Option.some.inj
  rw [← hinj.eq_iff, map_some_dtoN hd, map_some_dtoN he, List.map_inj_left]

theorem lt_of_mem_dtoNPositions : ∀ j ∈ dtoNPositions, j < 36 := by decide

end Positions

/-! ### The id map -/

/-- `id_map[uid] = id`, for a list of uids and their ids. -/
def putIds (ids : String → Option ℕ) (ps : List (String × ℕ)) : String → Option ℕ :=
  ps.foldl (fun ids p => Function.update ids p.1 (some p.2)) ids

/-- **The id map** when `k` nodes have been read in the second loop: both loops put the uid of a
node into it. -/
def idMap (us : List String) (k : ℕ) : String → Option ℕ :=
  putIds (putIds (fun _ => none) us.zipIdx) (us.take k).zipIdx

section IdMap

variable {us : List String} {ids : String → Option ℕ} {u : String} {i k : ℕ}
  {ps : List (String × ℕ)}

theorem putIds_cons (p : String × ℕ) :
    putIds ids (p :: ps) = putIds (Function.update ids p.1 (some p.2)) ps := rfl

/-- What the map says is what has been put into it. -/
theorem mem_of_putIds (h : putIds ids ps u = some i) : ids u = some i ∨ (u, i) ∈ ps := by
  induction ps generalizing ids with
  | nil => exact .inl h
  | cons p ps ih =>
    rw [putIds_cons] at h
    rcases ih h with h | h
    · rcases eq_or_ne u p.1 with rfl | hne
      · rw [Function.update_self] at h
        obtain rfl := Option.some.inj h
        exact .inr List.mem_cons_self
      · rw [Function.update_of_ne hne] at h
        exact .inl h
    · exact .inr (List.mem_cons_of_mem p h)

/-- What is in the map stays there. -/
theorem isSome_putIds (h : (ids u).isSome ∨ ∃ i, (u, i) ∈ ps) : (putIds ids ps u).isSome := by
  induction ps generalizing ids with
  | nil =>
    rcases h with h | ⟨i, h⟩
    · exact h
    · cases h
  | cons p ps ih =>
    rw [putIds_cons]
    refine ih ?_
    rcases eq_or_ne u p.1 with rfl | hne
    · rw [Function.update_self]
      exact .inl rfl
    · rw [Function.update_of_ne hne]
      rcases h with h | ⟨i, h⟩
      · exact .inl h
      · rcases List.mem_cons.mp h with rfl | h
        · exact absurd rfl hne
        · exact .inr ⟨i, h⟩

/-- The map has positions of the uids. -/
theorem getElem?_of_idMap (h : idMap us k u = some i) : us[i]? = some u := by
  rcases mem_of_putIds h with h | h
  · rcases mem_of_putIds h with h | h
    · cases h
    · exact List.mk_mem_zipIdx_iff_getElem?.mp h
  · have htake := List.mk_mem_zipIdx_iff_getElem?.mp h
    rw [List.getElem?_take] at htake
    split_ifs at htake with hlt
    exact htake

/-- If the uids are distinct, it has the position of every uid. -/
theorem indexes_idMap (hnd : us.Nodup) (k : ℕ) : Indexes (idMap us k) us := by
  intro u i
  refine ⟨getElem?_of_idMap, fun hi => ?_⟩
  have hsome : (idMap us k u).isSome :=
    isSome_putIds (.inl (isSome_putIds (.inr ⟨i, List.mk_mem_zipIdx_iff_getElem?.mpr hi⟩)))
  obtain ⟨j, hj⟩ := Option.isSome_iff_exists.mp hsome
  have hju := getElem?_of_idMap hj
  obtain ⟨hlt, -⟩ := List.getElem?_eq_some_iff.mp hi
  rw [hj, (List.getElem?_inj hlt hnd).mp (hi.trans hju.symm)]

/-- The next node. -/
theorem idMap_succ (hk : us[k]? = some u) :
    idMap us (k + 1) = Function.update (idMap us k) u (some k) := by
  obtain ⟨hlt, -⟩ := List.getElem?_eq_some_iff.mp hk
  have hlen : (us.take k).length = k := List.length_take_of_le (Nat.le_of_lt hlt)
  unfold idMap
  rw [List.take_add_one, hk, List.zipIdx_append, hlen, putIds, List.foldl_append]
  simp [putIds]

end IdMap

/-! ### The map of a load -/

section Load

variable {ns : List YamlTree} {us : List String} {s t v : Loader} {i k : ℕ}

/-- The first loop over the nodes. -/
theorem ids_of_addNodes (hus : ns.mapM (·.text? "uid") = some us)
    (h : (ns.forM addNode).Returns s ⟨⟩ t) :
    t.ids = putIds s.ids (us.zipIdx s.chart.nodes.length) ∧
      t.chart.nodes.length = s.chart.nodes.length + ns.length := by
  induction ns generalizing s us with
  | nil =>
    obtain rfl := Option.some.inj hus
    obtain ⟨-, rfl⟩ := returns_pure_iff.mp h
    exact ⟨rfl, rfl⟩
  | cons n ns ih =>
    simp only [List.mapM_cons, Option.bind_eq_bind, Option.bind_eq_some_iff] at hus
    obtain ⟨u, hu, us', hus', hcons⟩ := hus
    obtain rfl := Option.some.inj hcons
    obtain ⟨⟨⟩, w, hw, h⟩ := returns_bind_iff.mp h
    obtain ⟨-, rfl⟩ := hw.unique (returns_addNode hu)
    obtain ⟨hids, hlen⟩ := ih hus' h
    have hone : (s.chart.nodes ++ [({ id := s.chart.nodes.length, uid := u } : NodeData)]).length =
        s.chart.nodes.length + 1 := by rw [List.length_append, List.length_singleton]
    change t.ids = putIds (Function.update s.ids u (some s.chart.nodes.length))
      (us'.zipIdx (s.chart.nodes ++ [_]).length) at hids
    change t.chart.nodes.length = (s.chart.nodes ++ [_]).length + ns.length at hlen
    rw [hone] at hids hlen
    refine ⟨hids, ?_⟩
    rw [hlen, List.length_cons]
    omega

/-- A node of the second loop. -/
theorem ids_of_initFromYaml {n : YamlTree} {u : String} (hu : n.text? "uid" = some u)
    (hi : i < s.chart.nodes.length) (h : (initFromYaml i n).Returns s true t) :
    t.ids = Function.update s.ids u (some i) ∧
      t.chart.nodes.length = s.chart.nodes.length := by
  have hout := initFromYaml_outcome hu (fun _ => rfl) hi
  generalize n.bodyFault? _ (i = 0) u = o at hout
  match o, hout with
  | none, hout =>
    obtain ⟨-, rfl⟩ := hout.unique h
    refine ⟨rfl, ?_⟩
    simp [Loader.setNode, Loader.setId]
  | some .rejected, hout => cases (hout.unique h).1
  | some (.abort e), ⟨w, hw⟩ => exact absurd h hw.not_returns

/-- The second loop, as far as it has come. -/
theorem ids_of_initNodes (hus : ns.mapM (·.text? "uid") = some us)
    (hlen : i + ns.length ≤ s.chart.nodes.length) (h : (initNodes i ns).Returns s true t) :
    t.ids = putIds s.ids (us.zipIdx i) := by
  induction ns generalizing s us i with
  | nil =>
    obtain rfl := Option.some.inj hus
    obtain ⟨-, rfl⟩ := returns_pure_iff.mp h
    rfl
  | cons n ns ih =>
    simp only [List.mapM_cons, Option.bind_eq_bind, Option.bind_eq_some_iff] at hus
    obtain ⟨u, hu, us', hus', hcons⟩ := hus
    obtain rfl := Option.some.inj hcons
    rw [List.length_cons] at hlen
    obtain ⟨ok, w, hw, h⟩ := returns_bind_iff.mp h
    cases ok with
    | false => cases (returns_pure_iff.mp h).1
    | true =>
      obtain ⟨hids, hwlen⟩ := ids_of_initFromYaml hu (by omega) hw
      rw [ih hus' (by omega) h, hids]
      rfl

theorem mapM_take {us : List String} (hus : ns.mapM (·.text? "uid") = some us) (k : ℕ) :
    (ns.take k).mapM (·.text? "uid") = some (us.take k) := by
  induction ns generalizing us k with
  | nil =>
    obtain rfl : [] = us := Option.some.inj hus
    rw [List.take_nil, List.take_nil]
    rfl
  | cons n ns ih =>
    simp only [List.mapM_cons, Option.bind_eq_bind, Option.bind_eq_some_iff] at hus
    obtain ⟨u, hu, us', hus', hcons⟩ := hus
    obtain rfl := Option.some.inj hcons
    cases k with
    | zero => rfl
    | succ k => simp [hu, ih hus' k]

/-- **The id map of a load** that has come to node `k`. -/
theorem ids_of_load (hus : ns.mapM (·.text? "uid") = some us) (hnodes : s.chart.nodes = [])
    (hids : s.ids = fun _ => none) (hadd : (ns.forM addNode).Returns s ⟨⟩ t)
    (hinit : (initNodes 0 (ns.take k)).Returns t true v) : v.ids = idMap us k := by
  obtain ⟨htids, htlen⟩ := ids_of_addNodes hus hadd
  rw [hnodes, hids] at htids
  have hlen : 0 + (ns.take k).length ≤ t.chart.nodes.length := by
    have := List.length_take_le' k ns
    omega
  rw [ids_of_initNodes (mapM_take hus k) hlen hinit, htids]
  rfl

/-- The name of a function that has none. -/
def derivedName (name uid : String) : String :=
  name ++ "." ++ String.ofList (dtoN (uid.toList ++ ['\x00']))

theorem returns_scriptFuncOf_derived (h : 35 ≤ (s.node i).uid.length) :
    (scriptFuncOf i none none).Returns s (.script "" (derivedName s.chart.name (s.node i).uid))
      s := by
  refine (returns_get s).bind ?_
  rw [if_neg (by omega)]
  exact returns_pure _ s

end Load

/-! ### The uids of a document -/

/-- A node with the uid takes the name of its function from it. -/
def YamlTree.Derives (doc : YamlTree) (u : String) : Prop :=
  ∃ i n code, i ≠ 0 ∧ (doc.items "nodes")[i]? = some n ∧ n.text? "uid" = some u ∧
    n.child? "code" = some code ∧
    (code.kind? = some "FUNC".toList ∨ code.kind? = some "EVENT".toList) ∧
    code.child? "func_name" = none ∧ code.child? "content" = none

/-- **The uids are accepted as they are**: while the code of any node `k` is read, a parameter
that is a listed uid, or the 32 digits of one with dashes, is found as the node that lists it;
and the names that are made of uids are made of their characters, and distinct. -/
structure AcceptsUids (doc : YamlTree) : Prop where
  exact : ∀ k < doc.uids.length, ∀ i u, doc.uids[i]? = some u →
    idMap doc.uids (k + 1) (paramUid u) = some i
  digits : ∀ k < doc.uids.length, ∀ i u, doc.uids[i]? = some u → Dashed u →
    idMap doc.uids (k + 1) (paramUid (String.ofList (dtoN u.toList))) = some i
  inside : ∀ u, doc.Derives u → ∀ j ∈ dtoNPositions, j < u.toList.length
  names : ∀ name u v, doc.Derives u → doc.Derives v → derivedName name u = derivedName name v →
    u = v

/-- The uids are distinct and none has 32 characters; those that become names have at least 36,
and no two of them agree where they are read. -/
structure ProperUids (doc : YamlTree) : Prop where
  nodup : doc.uids.Nodup
  length : ∀ u ∈ doc.uids, u.length ≠ 32
  long : ∀ u, doc.Derives u → 36 ≤ u.length
  differ : ∀ u v, doc.Derives u → doc.Derives v → u ≠ v →
    ∃ j ∈ dtoNPositions, u.toList[j]? ≠ v.toList[j]?

section Uids

variable {doc : YamlTree} {name u v : String}

/-- With a parameter of 32 characters another uid is looked up. -/
theorem length_paramUid (h : u.length = 32) : (paramUid u).length = 36 := by
  have hlen : u.toList.length = 32 := String.length_toList.trans h
  rw [paramUid, if_pos h, ← String.length_toList, String.toList_ofList]
  simp [ntoD, hlen]

/-- The terminator is not read. -/
theorem derivedName_eq_iff (hu : 36 ≤ u.length) (hv : 36 ≤ v.length) :
    derivedName name u = derivedName name v ↔
      ∀ j ∈ dtoNPositions, u.toList[j]? = v.toList[j]? := by
  rw [← String.length_toList] at hu hv
  have hlen : ∀ {d : List Char}, 36 ≤ d.length → 36 ≤ (d ++ ['\x00']).length := by
    intro d hd
    rw [List.length_append]
    omega
  have hdto : derivedName name u = derivedName name v ↔
      dtoN (u.toList ++ ['\x00']) = dtoN (v.toList ++ ['\x00']) := by
    unfold derivedName
    rw [← String.toList_inj]
    simp only [String.toList_append, String.toList_ofList, List.append_cancel_left_eq]
  rw [hdto, dtoN_eq_iff (hlen hu) (hlen hv)]
  refine forall₂_congr fun j hj => ?_
  have hlt := lt_of_mem_dtoNPositions j hj
  rw [List.getElem?_append_left (by omega), List.getElem?_append_left (by omega)]

/-- **Which uids are accepted as they are.** -/
theorem acceptsUids_iff (doc : YamlTree) : AcceptsUids doc ↔ ProperUids doc := by
  constructor
  · intro h
    have hlong : ∀ u, doc.Derives u → 36 ≤ u.length := by
      intro u hu
      have := h.inside u hu 35 (by decide)
      rw [String.length_toList] at this
      omega
    refine ⟨?_, fun u hu hlen => ?_, hlong, fun u v hu hv hne => ?_⟩
    · refine List.nodup_iff_injective_get.mpr fun i j hij => ?_
      have hi : doc.uids[i.val]? = some (doc.uids.get i) := List.getElem?_eq_getElem i.isLt
      have hj : doc.uids[j.val]? = some (doc.uids.get i) := by
        rw [hij]
        exact List.getElem?_eq_getElem j.isLt
      have heq := (h.exact i i.isLt i _ hi).symm.trans (h.exact i i.isLt j _ hj)
      exact Fin.ext (Option.some.inj heq)
    · obtain ⟨i, hi⟩ := List.mem_iff_getElem?.mp hu
      obtain ⟨hlt, -⟩ := List.getElem?_eq_some_iff.mp hi
      -- What is found has 36 characters.
      have hfound := getElem?_of_idMap (h.exact i hlt i u hi)
      have heq := Option.some.inj (hi.symm.trans hfound)
      have h36 := length_paramUid hlen
      rw [← heq, hlen] at h36
      omega
    · by_contra hno
      refine hne (h.names "" u v hu hv ((derivedName_eq_iff (hlong u hu) (hlong v hv)).mpr ?_))
      intro j hj
      by_contra hj'
      exact hno ⟨j, hj, hj'⟩
  · intro h
    refine ⟨fun k _ i u hi => ?_, fun k _ i u hi hd => ?_, fun u hu j hj => ?_, ?_⟩
    · rw [paramUid, if_neg (h.length u (List.mem_of_getElem? hi))]
      exact (indexes_idMap h.nodup (k + 1) u i).mpr hi
    · rw [paramUid_of_names hd (.inr (String.toList_ofList ..))]
      exact (indexes_idMap h.nodup (k + 1) u i).mpr hi
    · have hlt := lt_of_mem_dtoNPositions j hj
      have hlen := h.long u hu
      rw [← String.length_toList] at hlen
      omega
    · intro name u v hu hv heq
      by_contra hne
      obtain ⟨j, hj, hdiff⟩ := h.differ u v hu hv hne
      exact hdiff ((derivedName_eq_iff (h.long u hu) (h.long v hv)).mp heq j hj)

/-- While the code of node `k` is read, the parameters are found. -/
theorem AcceptsUids.found {s t w : Loader} {k i : ℕ} (h : AcceptsUids doc)
    (hus : (doc.items "nodes").mapM (·.text? "uid") = some doc.uids) (hnodes : s.chart.nodes = [])
    (hids : s.ids = fun _ => none) (hadd : ((doc.items "nodes").forM addNode).Returns s ⟨⟩ t)
    (hinit : (initNodes 0 ((doc.items "nodes").take k)).Returns t true w)
    (hk : doc.uids[k]? = some v) (hi : doc.uids[i]? = some u) :
    (w.setId v k).ids (paramUid u) = some i ∧
      (Dashed u → (w.setId v k).ids (paramUid (String.ofList (dtoN u.toList))) = some i) := by
  obtain ⟨hlt, -⟩ := List.getElem?_eq_some_iff.mp hk
  have hmap : (w.setId v k).ids = idMap doc.uids (k + 1) := by
    change Function.update w.ids v (some k) = _
    rw [ids_of_load hus hnodes hids hadd hinit, idMap_succ hk]
  rw [hmap]
  exact ⟨h.exact k hlt i u hi, h.digits k hlt i u hi⟩

/-- Two nodes that take the names of their functions from their uids have two functions. -/
theorem AcceptsUids.uid_eq {s t s' t' : Loader} {i j : ℕ} {f : NodeFunc} (h : AcceptsUids doc)
    (hi : doc.Derives (s.node i).uid) (hj : doc.Derives (s'.node j).uid)
    (hname : s'.chart.name = s.chart.name) (hf : (scriptFuncOf i none none).Returns s f t)
    (hf' : (scriptFuncOf j none none).Returns s' f t') : (s.node i).uid = (s'.node j).uid := by
  have hlong : ∀ u, doc.Derives u → 35 ≤ u.length := by
    intro u hu
    have := h.inside u hu 35 (by decide)
    rw [String.length_toList] at this
    omega
  obtain ⟨rfl, -⟩ := hf.unique (returns_scriptFuncOf_derived (hlong _ hi))
  obtain ⟨heq, -⟩ := hf'.unique (returns_scriptFuncOf_derived (hlong _ hj))
  rw [hname] at heq
  exact h.names _ _ _ hi hj (NodeFunc.script.inj heq).2

/-- A chart with a start node and a control node whose uid has no dashes. -/
def plainUids : YamlTree :=
  .map [("path", .scalar "AI.plain"),
    ("nodes", .seq [
      .map [("uid", .scalar "start")],
      .map [("uid", .scalar "0123456789abcdef0123456789abcdef"),
        ("code", .map [("type", .scalar "CONTROL"),
          ("content", .seq [.scalar "stopnode",
            .scalar "0123456789abcdef0123456789abcdef"])])]])]

/-- The node stops itself by its uid, which is not found. -/
theorem not_acceptsUids_plain : ¬AcceptsUids plainUids ∧
    plainUids.fault? = some .rejected := by
  refine ⟨fun h => ?_, by decide +kernel⟩
  have hu : plainUids.uids[1]? = some "0123456789abcdef0123456789abcdef" := by decide +kernel
  have hfound := h.exact 1 (by decide +kernel) 1 _ hu
  exact absurd hfound (by decide +kernel)

end Uids

end Loading

end Asyncflow
