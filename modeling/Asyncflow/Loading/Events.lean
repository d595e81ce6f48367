import Asyncflow.Loading.Faithful
import Asyncflow.Loading.Json

/-!
# The event table

`EventManager` with its two importers, and `Manager::ImportEvent`, which chooses between them.
The file system and the two parsers are parameters: the content of the files that exist, the
document that a C string is for rapidjson, and what ryml makes of a text.

An entry goes to the end of the table, but the table is looked up by id: the entries are found
if the entry in the place of an id is as good as the entry with that id
(`Asyncflow.Loading.Placed`). The ids `START_EVENT` and `TICK_EVENT` are set by the JSON importer
alone. And `Manager::ImportEvent` asks whether the *name* of the file is a JSON text, so that a
JSON file goes to the YAML importer.
-/

namespace Asyncflow

namespace Loading

open Program

/-! ### The manager -/

/-- `EventInfo`. -/
@[ext]
structure EventInfo where
  /-- `id`. -/
  id : ℤ
  /-- `arg_count`. -/
  argCount : ℤ
  /-- `name`. -/
  name : String
deriving DecidableEq, Repr

/-- The entry in front of every list. -/
def noneEvent : EventInfo := ⟨0, 0, "None"⟩

/-- `EventManager`, with the ids that are static members of `AsyncEventBase`. -/
@[ext]
structure EventManager where
  /-- `event_info_list_`. -/
  infos : List EventInfo := [noneEvent, ⟨1, 0, "Start"⟩, ⟨2, 0, "Tick"⟩]
  /-- `START_EVENT`. -/
  startEvent : ℤ := 1
  /-- `TICK_EVENT`. -/
  tickEvent : ℤ := 2
deriving DecidableEq, Repr

namespace EventManager

/-- The entry in the place of an id. A negative id is a large `size_t`. -/
def info? (m : EventManager) (id : ℤ) : Option EventInfo :=
  if id < 0 then none else m.infos[id.toNat]?

/-- `GetEventArgsCount`. -/
def getEventArgsCount (m : EventManager) (id : ℤ) : ℤ :=
  match m.info? id with
  | some e => e.argCount
  | none => -1

/-- `GetEventName`. -/
def getEventName (m : EventManager) (id : ℤ) : String :=
  match m.info? id with
  | some e => e.name
  | none => ((m.infos[0]?).map (·.name)).getD ""

/-- `GetEventCount`. -/
def getEventCount (m : EventManager) : ℤ := m.infos.length

/-- The check of `Agent::GetWaitNodes`. -/
def accepts (m : EventManager) (id : ℤ) : Bool := ¬(id < 0 ∨ id ≥ m.getEventCount)

/-- What the JSON importer notes of an entry's name. -/
def announce (m : EventManager) (id : ℤ) (name : String) : EventManager :=
  if name = "Start" then { m with startEvent := id }
  else if name = "Tick" then { m with tickEvent := id }
  else m

/-- The entry is put to the end of the table. -/
def add (m : EventManager) (e : EventInfo) : EventManager := { m with infos := m.infos ++ [e] }

/-- The table is emptied. -/
def clear (m : EventManager) : EventManager := { m with infos := [noneEvent] }

end EventManager

/-! ### The importers -/

/-- The root of a YAML tree: a stream of documents, or a single one. -/
inductive YamlRoot
  | stream (docs : List YamlTree)
  | single

/-- Importing functions. -/
abbrev Import (α : Type) := Program Abort EventManager α

/-- The `arg_count` of an entry of a JSON list. -/
def readArgCount (it : JsonValue) : Import ℤ := do
  match ← it.findMember "arg_count" with
  | some v => v.getInt
  | none => pure 0

/-- An entry of a JSON list. -/
def initEventFromJson (it : JsonValue) : Import PUnit := do
  let id ← (← it.memberValue "id").getInt
  let name ← (← it.memberValue "name").getString
  modify (·.announce id name)
  let argc ← readArgCount it
  modify (·.add ⟨id, argc, name⟩)

/-- An entry of a YAML list. -/
def initEventFromYaml (node : YamlTree) : Import PUnit := do
  match stoi (← node.get "id") with
  | none => throw .stoi
  | some id => do
    let name ← node.get "name"
    let params ← node.findChild "parameters"
    modify (·.add ⟨id, ((params.map (·.children.length)).getD 0 : ℕ), name⟩)

/-- The entries of a document of the stream. -/
def initEventsFromYaml (doc : YamlTree) : Import PUnit := do
  modify (·.clear)
  doc.children.forM initEventFromYaml

section Importers

variable (files : String → Option String) (json : String → Option JsonValue)
  (yaml : String → Option YamlRoot)

/-- `JsonUtil::ParseJson`. -/
def parseJson (text : String) : Option JsonValue :=
  if text = "" then none else json (cString text)

/-- `EventManager::InitFromJson`. -/
def EventManager.initFromJson (text : String) : Import ℤ :=
  match parseJson json text with
  | none => pure 0
  | some doc => do
    modify (·.clear)
    let items ← doc.getArray
    items.forM initEventFromJson
    pure items.length

/-- `EventManager::InitFromYaml`. -/
def EventManager.initFromYaml (text : String) : Import ℤ :=
  match yaml text with
  | none => throw .assertion
  | some .single => pure (-1)
  | some (.stream docs) => do
    docs.forM initEventsFromYaml
    pure ((← get).infos.length - 1)

/-- `Manager::ImportEvent`. -/
def importEvent (fileName : String) : Import ℤ :=
  if files fileName = some "" then pure 0
  -- The text is read from the file, but it is the name that is parsed.
  else if (json (cString fileName)).isSome then
    EventManager.initFromJson json ((files fileName).getD fileName)
  else EventManager.initFromYaml yaml ((files fileName).getD fileName)

end Importers

/-! ### Event lists -/

/-- The count of arguments of an entry, which is zero if it is not given. -/
def JsonValue.argCount? (v : JsonValue) : Option ℤ :=
  ((v.member? "arg_count").map int?).getD (some 0)

/-- An entry of a JSON list. -/
def JsonValue.event? (v : JsonValue) : Option EventInfo := do
  let id ← (v.member? "id").bind int?
  let name ← (v.member? "name").bind string?
  let argc ← v.argCount?
  pure ⟨id, argc, name⟩

/-- A JSON event list. -/
def JsonValue.events? : JsonValue → Option (List EventInfo)
  | .array items => items.mapM event?
  | _ => none

/-- An entry of a YAML list. -/
def YamlTree.event? (t : YamlTree) : Option EventInfo := do
  let id ← (t.text? "id").bind stoi
  let name ← t.text? "name"
  pure ⟨id, (t.items "parameters").length, name⟩

/-- A YAML event list. -/
def YamlTree.events? (doc : YamlTree) : Option (List EventInfo) := doc.children.mapM event?

/-! ### Single entries -/

section Entries

variable {m m' : EventManager} {v : JsonValue} {t : YamlTree}

/-- An entry as the JSON importer stores it. -/
def EventInfo.stored (e : EventInfo) : EventInfo := { e with name := cString e.name }

/-- The entry is noted and put to the end of the table. -/
def EventManager.enter (m : EventManager) (e : EventInfo) : EventManager :=
  (m.announce e.id (cString e.name)).add e.stored

theorem returns_readArgCount_iff {n : ℤ} :
    (readArgCount v).Returns m n m' ↔ v.isObject ∧ v.argCount? = some n ∧ m = m' := by
  unfold readArgCount JsonValue.argCount?
  rw [returns_bind_iff]
  constructor
  · rintro ⟨o, _, ho, h⟩
    obtain ⟨hobj, hm, rfl⟩ := JsonValue.returns_findMember_iff.mp ho
    rw [hm]
    cases o with
    | none =>
      obtain ⟨rfl, rfl⟩ := returns_pure_iff.mp h
      exact ⟨hobj, rfl, rfl⟩
    | some w =>
      obtain ⟨hn, rfl⟩ := JsonValue.returns_getInt_iff.mp h
      exact ⟨hobj, hn, rfl⟩
  · rintro ⟨hobj, hn, rfl⟩
    refine ⟨_, m, JsonValue.returns_findMember_iff.mpr ⟨hobj, rfl, rfl⟩, ?_⟩
    cases hm : v.member? "arg_count" with
    | none =>
      rw [hm] at hn
      exact returns_pure_iff.mpr ⟨Option.some.inj hn, rfl⟩
    | some w =>
      rw [hm] at hn
      exact JsonValue.returns_getInt_iff.mpr ⟨hn, rfl⟩

/-- **What the JSON importer makes of an entry.** -/
theorem returns_initEventFromJson_iff :
    (initEventFromJson v).Returns m ⟨⟩ m' ↔ ∃ e, v.event? = some e ∧ m.enter e = m' := by
  unfold initEventFromJson JsonValue.event?
  simp only [returns_bind_iff, JsonValue.returns_memberValue_iff, JsonValue.returns_getInt_iff,
    JsonValue.returns_getString_iff, returns_readArgCount_iff]
  constructor
  · rintro ⟨idv, _, ⟨hidv, rfl⟩, id, _, ⟨hid, rfl⟩, namev, _, ⟨hnamev, rfl⟩, _, _, ⟨hmap, rfl⟩,
      ⟨⟩, _, hann, argc, _, ⟨-, hargc, rfl⟩, hadd⟩
    obtain rfl := returns_modify_iff.mp hann
    obtain rfl := returns_modify_iff.mp hadd
    obtain ⟨name, hname, rfl⟩ := Option.map_eq_some_iff.mp hmap
    refine ⟨⟨id, argc, name⟩, ?_, rfl⟩
    simp [hidv, hid, hnamev, hname, hargc]
  · rintro ⟨e, he, rfl⟩
    simp only [Option.bind_eq_bind, Option.bind_eq_some_iff] at he
    obtain ⟨id, ⟨idv, hidv, hid⟩, name, ⟨namev, hnamev, hname⟩, argc, hargc, he⟩ := he
    obtain rfl := Option.some.inj he
    exact ⟨idv, m, ⟨hidv, rfl⟩, id, m, ⟨hid, rfl⟩, namev, m, ⟨hnamev, rfl⟩, cString name, m,
      ⟨by rw [hname]; rfl, rfl⟩, ⟨⟩, _, returns_modify _ m, argc, _,
      ⟨JsonValue.isObject_of_member? hidv, hargc, rfl⟩, returns_modify _ _⟩

/-- **What the YAML importer makes of an entry.** -/
theorem returns_initEventFromYaml_iff :
    (initEventFromYaml t).Returns m ⟨⟩ m' ↔ ∃ e, t.event? = some e ∧ m.add e = m' := by
  unfold initEventFromYaml YamlTree.event?
  constructor
  · intro h
    obtain ⟨idv, _, hget, h⟩ := returns_bind_iff.mp h
    obtain ⟨hidv, rfl⟩ := YamlTree.returns_get_iff.mp hget
    split at h
    · exact absurd h not_returns_throw
    · rename_i id hid
      obtain ⟨name, _, hget', h⟩ := returns_bind_iff.mp h
      obtain ⟨hname, rfl⟩ := YamlTree.returns_get_iff.mp hget'
      obtain ⟨params, _, hfind, h⟩ := returns_bind_iff.mp h
      obtain ⟨-, hparams, rfl⟩ := YamlTree.returns_findChild_iff.mp hfind
      obtain rfl := returns_modify_iff.mp h
      refine ⟨⟨id, (t.items "parameters").length, name⟩, by simp [hidv, hid, hname], ?_⟩
      rw [← hparams, YamlTree.items]
      cases t.child? "parameters" <;> rfl
  · rintro ⟨e, he, rfl⟩
    simp only [Option.bind_eq_bind, Option.bind_eq_some_iff] at he
    obtain ⟨id, ⟨idv, hidv, hid⟩, name, hname, he⟩ := he
    obtain rfl := Option.some.inj he
    refine (YamlTree.returns_get hidv).bind ?_
    rw [hid]
    refine (YamlTree.returns_get hname).bind ?_
    refine (YamlTree.returns_findChild (YamlTree.isMap_of_text? hname) _).bind ?_
    refine returns_modify_iff.mpr ?_
    rw [YamlTree.items]
    cases t.child? "parameters" <;> rfl

end Entries

/-! ### Lists -/

section Lists

variable {m : EventManager} {es : List EventInfo}

/-- The last entry with the name. -/
def named? (name : String) (es : List EventInfo) : Option EventInfo :=
  es.reverse.find? fun e => e.name = name

theorem named?_concat (name : String) (es : List EventInfo) (e : EventInfo) :
    named? name (es ++ [e]) = if e.name = name then some e else named? name es := by
  unfold named?
  rw [List.reverse_append, List.reverse_singleton, List.singleton_append, List.find?_cons]
  by_cases h : e.name = name <;> simp [h]

/-- **What the JSON importer makes of a list.** -/
theorem foldl_enter (m : EventManager) (es : List EventInfo) : es.foldl EventManager.enter m =
    { infos := m.infos ++ es.map EventInfo.stored
      startEvent := ((named? "Start" (es.map EventInfo.stored)).map (·.id)).getD m.startEvent
      tickEvent := ((named? "Tick" (es.map EventInfo.stored)).map (·.id)).getD m.tickEvent } := by
  induction es using List.reverseRecOn with
  | nil => simp [named?]
  | append_singleton es e ih =>
    rw [List.foldl_append, List.foldl_cons, List.foldl_nil, ih, List.map_append, List.map_singleton,
      named?_concat, named?_concat]
    unfold EventManager.enter EventManager.announce EventManager.add
    split_ifs with hs ht
    all_goals simp_all [EventInfo.stored]

/-- What the YAML importer makes of a list. -/
theorem foldl_add (m : EventManager) (es : List EventInfo) :
    es.foldl EventManager.add m = { m with infos := m.infos ++ es } := by
  induction es generalizing m with
  | nil => simp
  | cons e es ih =>
    rw [List.foldl_cons, ih]
    simp [EventManager.add]

/-- The table is replaced by a list. -/
def EventManager.replace (m : EventManager) (es : List EventInfo) : EventManager :=
  { m with infos := noneEvent :: es }

theorem foldl_replace (m : EventManager) (ess : List (List EventInfo)) :
    ess.foldl EventManager.replace m =
      { m with infos := (ess.getLast?.map (noneEvent :: ·)).getD m.infos } := by
  induction ess using List.reverseRecOn with
  | nil => rfl
  | append_singleton ess es ih =>
    rw [List.foldl_append, List.foldl_cons, List.foldl_nil, ih, List.getLast?_concat]
    rfl

end Lists

section Texts

variable {json : String → Option JsonValue} {yaml : String → Option YamlRoot} {text : String}
  {jdoc : JsonValue} {ydoc : YamlTree} {docs : List YamlTree} {m m' : EventManager} {n : ℤ}

/-- **A JSON text is accepted if and only if it is an event list.** -/
theorem returns_initFromJson_iff (hdoc : parseJson json text = some jdoc) :
    (EventManager.initFromJson json text).Returns m n m' ↔
      ∃ es, jdoc.events? = some es ∧ n = es.length ∧ es.foldl EventManager.enter m.clear = m' := by
  unfold EventManager.initFromJson
  rw [hdoc]
  constructor
  · intro h
    obtain ⟨⟨⟩, _, hclear, h⟩ := returns_bind_iff.mp h
    obtain rfl := returns_modify_iff.mp hclear
    obtain ⟨items, _, hitems, h⟩ := returns_bind_iff.mp h
    obtain ⟨rfl, rfl⟩ := JsonValue.returns_getArray_iff.mp hitems
    obtain ⟨⟨⟩, _, hloop, h⟩ := returns_bind_iff.mp h
    obtain ⟨es, hes, rfl⟩ :=
      (returns_forM_iff (fun _ _ _ => returns_initEventFromJson_iff) items).mp hloop
    obtain ⟨rfl, rfl⟩ := returns_pure_iff.mp h
    exact ⟨es, hes, by rw [length_of_mapM hes], rfl⟩
  · rintro ⟨es, hes, rfl, rfl⟩
    cases jdoc with
    | array items =>
      refine (returns_modify _ m).bind ((JsonValue.returns_getArray_iff.mpr ⟨rfl, rfl⟩).bind ?_)
      refine Returns.bind ((returns_forM_iff (fun _ _ _ => returns_initEventFromJson_iff)
        items).mpr ⟨es, hes, rfl⟩) ?_
      rw [length_of_mapM hes]
      exact returns_pure _ _
    | null | bool | double | int | string | object => cases hes

theorem returns_initEventsFromYaml_iff : (initEventsFromYaml ydoc).Returns m ⟨⟩ m' ↔
    ∃ es, ydoc.events? = some es ∧ m.replace es = m' := by
  unfold initEventsFromYaml
  have hclear : ∀ es, es.foldl EventManager.add m.clear = m.replace es := by
    intro es
    rw [foldl_add]
    rfl
  constructor
  · intro h
    obtain ⟨⟨⟩, _, hm, h⟩ := returns_bind_iff.mp h
    obtain rfl := returns_modify_iff.mp hm
    obtain ⟨es, hes, rfl⟩ :=
      (returns_forM_iff (fun _ _ _ => returns_initEventFromYaml_iff) ydoc.children).mp h
    exact ⟨es, hes, (hclear es).symm⟩
  · rintro ⟨es, hes, rfl⟩
    refine (returns_modify _ m).bind ?_
    rw [← hclear]
    exact (returns_forM_iff (fun _ _ _ => returns_initEventFromYaml_iff) _).mpr ⟨es, hes, rfl⟩

/-- **A YAML stream is accepted if and only if its documents are event lists.** The last one
stays. -/
theorem returns_initFromYaml_iff (hdocs : yaml text = some (.stream docs)) :
    (EventManager.initFromYaml yaml text).Returns m n m' ↔
      ∃ ess, docs.mapM YamlTree.events? = some ess ∧ n = m'.infos.length - 1 ∧
        ess.foldl EventManager.replace m = m' := by
  unfold EventManager.initFromYaml
  rw [hdocs]
  constructor
  · intro h
    obtain ⟨⟨⟩, _, hloop, h⟩ := returns_bind_iff.mp h
    obtain ⟨ess, hess, rfl⟩ :=
      (returns_forM_iff (fun _ _ _ => returns_initEventsFromYaml_iff) docs).mp hloop
    obtain ⟨_, _, hget, h⟩ := returns_bind_iff.mp h
    obtain ⟨rfl, rfl⟩ := (returns_get _).unique hget
    obtain ⟨rfl, rfl⟩ := returns_pure_iff.mp h
    exact ⟨ess, hess, rfl, rfl⟩
  · rintro ⟨ess, hess, rfl, rfl⟩
    refine Returns.bind ((returns_forM_iff (fun _ _ _ => returns_initEventsFromYaml_iff)
      docs).mpr ⟨ess, hess, rfl⟩) ?_
    exact (returns_get _).bind (returns_pure _ _)

/-- A stream of one document. -/
theorem returns_initFromYaml_single_iff (hdoc : yaml text = some (.stream [ydoc])) :
    (EventManager.initFromYaml yaml text).Returns m n m' ↔
      ∃ es, ydoc.events? = some es ∧ n = es.length ∧ m.replace es = m' := by
  rw [returns_initFromYaml_iff hdoc]
  constructor
  · rintro ⟨ess, hess, rfl, rfl⟩
    simp only [List.mapM_cons, List.mapM_nil, Option.bind_eq_bind, Option.bind_eq_some_iff] at hess
    obtain ⟨es, hes, _, ⟨⟩, ⟨⟩⟩ := hess
    exact ⟨es, hes, by simp [EventManager.replace], rfl⟩
  · rintro ⟨es, hes, rfl, rfl⟩
    exact ⟨[es], by simp [hes], by simp [EventManager.replace], rfl⟩

end Texts

/-! ### The table -/

section Table

variable {es fs : List EventInfo} {m : EventManager}

/-- The number is the id of an entry with the name, if there is one. -/
def IsIdOf (es : List EventInfo) (name : String) (id : ℤ) : Prop :=
  (∃ e ∈ es, e.name = name) → ∃ e ∈ es, e.name = name ∧ id = e.id

instance (es : List EventInfo) (name : String) (id : ℤ) : Decidable (IsIdOf es name id) := by
  unfold IsIdOf
  infer_instance

/-- **The manager is keyed by the ids of the list.** -/
structure Keyed (es : List EventInfo) (m : EventManager) : Prop where
  argsCount : ∀ e ∈ es, m.getEventArgsCount e.id = e.argCount
  name : ∀ e ∈ es, m.getEventName e.id = e.name
  waits : ∀ e ∈ es, m.accepts e.id
  start : IsIdOf es "Start" m.startEvent
  tick : IsIdOf es "Tick" m.tickEvent

/-- In the place of every id there is an entry with the name and the count of the entry with
that id. -/
def Placed (es stored : List EventInfo) : Prop :=
  ∀ e ∈ es, ∃ f ∈ stored[e.id.toNat - 1]?, f.name = e.name ∧ f.argCount = e.argCount

instance (es stored : List EventInfo) : Decidable (Placed es stored) := by
  unfold Placed
  infer_instance

/-- **The lookups give the entries if and only if they are in their places.** -/
theorem lookups_iff (hpos : ∀ e ∈ es, 0 < e.id) (hm : m.infos = noneEvent :: fs) :
    (∀ e ∈ es, m.getEventArgsCount e.id = e.argCount ∧ m.getEventName e.id = e.name ∧
      m.accepts e.id) ↔ Placed es fs := by
  refine forall₂_congr fun e he => ?_
  have hinfo : m.info? e.id = fs[e.id.toNat - 1]? := by
    have := hpos e he
    obtain ⟨k, hk⟩ : ∃ k, e.id.toNat = k + 1 := ⟨e.id.toNat - 1, by omega⟩
    rw [EventManager.info?, if_neg (by omega), hm, hk, List.getElem?_cons_succ, Nat.add_sub_cancel]
  have haccepts : m.accepts e.id = true ↔ e.id.toNat - 1 < fs.length := by
    have := hpos e he
    unfold EventManager.accepts EventManager.getEventCount
    rw [decide_eq_true_eq, hm, List.length_cons]
    omega
  rw [haccepts, EventManager.getEventArgsCount, EventManager.getEventName, hinfo]
  constructor
  · rintro ⟨hargs, hname, hlt⟩
    rw [List.getElem?_eq_getElem hlt] at hargs hname ⊢
    exact ⟨_, rfl, hname, hargs⟩
  · rintro ⟨f, hf, hname, hargs⟩
    rw [Option.mem_def] at hf
    rw [hf]
    exact ⟨hargs, hname, (List.getElem?_eq_some_iff.mp hf).1⟩

theorem keyed_iff (hpos : ∀ e ∈ es, 0 < e.id) (hm : m.infos = noneEvent :: fs) :
    Keyed es m ↔ Placed es fs ∧ IsIdOf es "Start" m.startEvent ∧ IsIdOf es "Tick" m.tickEvent := by
  rw [← lookups_iff hpos hm]
  constructor
  · rintro ⟨hargs, hname, hwaits, hstart, htick⟩
    exact ⟨fun e he => ⟨hargs e he, hname e he, hwaits e he⟩, hstart, htick⟩
  · rintro ⟨h, hstart, htick⟩
    exact ⟨fun e he => (h e he).1, fun e he => (h e he).2.1, fun e he =>
      (h e he).2.2, hstart, htick⟩

/-- Where names are stored as they are, they have no zero character. -/
theorem stored_of_placed (h : Placed es (es.map EventInfo.stored)) :
    es.map EventInfo.stored = es := by
  refine List.map_congr_left (g := id) (fun e he => ?_) |>.trans (List.map_id es)
  obtain ⟨f, hf, hname, -⟩ := h e he
  obtain ⟨f, -, rfl⟩ := List.mem_map.mp (List.mem_of_getElem? hf)
  have : cString e.name = e.name := by
    rw [← hname]
    exact cString_cString f.name
  rw [EventInfo.stored, this]
  rfl

/-- The id of the last entry is one of them. -/
theorem isIdOf_named? (name : String) (old : ℤ) :
    IsIdOf es name (((named? name es).map (·.id)).getD old) := by
  rintro ⟨e, he, hname⟩
  cases hlast : named? name es with
  | none =>
    have := List.find?_eq_none.mp hlast e (List.mem_reverse.mpr he)
    exact absurd (decide_eq_true hname) this
  | some f =>
    unfold named? at hlast
    have hf := List.find?_some hlast
    exact ⟨f, List.mem_reverse.mp (List.mem_of_find?_eq_some hlast), of_decide_eq_true hf, rfl⟩

theorem map_stored_eq_self_iff :
    es.map EventInfo.stored = es ↔ ∀ e ∈ es, '\x00' ∉ e.name.toList := by
  have hid : es.map EventInfo.stored = es ↔ es.map EventInfo.stored = es.map id := by
    rw [List.map_id]
  rw [hid, List.map_inj_left]
  refine forall₂_congr fun e _ => ?_
  rw [← cString_eq_self_iff, EventInfo.stored, EventInfo.ext_iff]
  simp

/-- **When the two importers leave the same.** -/
theorem replaced_eq_foldl_enter_iff :
    { m with infos := fs } = es.foldl EventManager.enter m.clear ↔
    fs = noneEvent :: es.map EventInfo.stored ∧
      (∀ e ∈ named? "Start" (es.map EventInfo.stored), m.startEvent = e.id) ∧
        ∀ e ∈ named? "Tick" (es.map EventInfo.stored), m.tickEvent = e.id := by
  have hid : ∀ (o : Option EventInfo) (old : ℤ), old = (o.map (·.id)).getD old ↔
      ∀ e ∈ o, old = e.id := by
    rintro (_ | e) old <;> simp
  rw [foldl_enter, EventManager.ext_iff, ← hid, ← hid]
  simp [EventManager.clear]

variable {json : String → Option JsonValue} {yaml : String → Option YamlRoot}

/-- **When the table is keyed by id.** After the JSON importer it is, if and only if every
entry is in its place as it is stored; after the YAML importer, if `START_EVENT` and
`TICK_EVENT` had their ids before as well. The two importers leave the same if no name has a
zero character and both ids are those of the last entries with their names already. -/
theorem eventTable_keyed_iff (hpos : ∀ e ∈ es, 0 < e.id) (m : EventManager) :
    (∀ text doc, parseJson json text = some doc → doc.events? = some es →
      ((∃ m', (EventManager.initFromJson json text).Returns m es.length m' ∧ Keyed es m') ↔
        Placed es (es.map EventInfo.stored))) ∧
    (∀ text doc, yaml text = some (.stream [doc]) → doc.events? = some es →
      ((∃ m', (EventManager.initFromYaml yaml text).Returns m es.length m' ∧ Keyed es m') ↔
        Placed es es ∧ IsIdOf es "Start" m.startEvent ∧ IsIdOf es "Tick" m.tickEvent)) ∧
    (∀ text doc text' doc', parseJson json text = some doc → doc.events? = some es →
      yaml text' = some (.stream [doc']) → doc'.events? = some es →
      ((∃ m', (EventManager.initFromJson json text).Returns m es.length m' ∧
        (EventManager.initFromYaml yaml text').Returns m es.length m') ↔
        (∀ e ∈ es, '\x00' ∉ e.name.toList) ∧ (∀ e ∈ named? "Start" es, m.startEvent = e.id) ∧
          ∀ e ∈ named? "Tick" es, m.tickEvent = e.id)) := by
  refine ⟨?_, ?_, ?_⟩
  · intro text doc hdoc hes
    constructor
    · rintro ⟨m', hret, hkeyed⟩
      obtain ⟨es', hes', -, rfl⟩ := (returns_initFromJson_iff hdoc).mp hret
      obtain rfl := Option.some.inj (hes.symm.trans hes')
      rw [foldl_enter] at hkeyed
      exact ((keyed_iff hpos rfl).mp hkeyed).1
    · intro hplaced
      refine ⟨_, (returns_initFromJson_iff hdoc).mpr ⟨es, hes, rfl, rfl⟩, ?_⟩
      rw [foldl_enter]
      refine (keyed_iff hpos rfl).mpr ⟨hplaced, ?_, ?_⟩
      · rw [stored_of_placed hplaced]
        exact isIdOf_named? _ _
      · rw [stored_of_placed hplaced]
        exact isIdOf_named? _ _
  · intro text doc hdoc hes
    constructor
    · rintro ⟨m', hret, hkeyed⟩
      obtain ⟨es', hes', -, rfl⟩ := (returns_initFromYaml_single_iff hdoc).mp hret
      obtain rfl := Option.some.inj (hes.symm.trans hes')
      exact (keyed_iff (m := m.replace es) hpos rfl).mp hkeyed
    · intro h
      exact ⟨_, (returns_initFromYaml_single_iff hdoc).mpr ⟨es, hes, rfl, rfl⟩,
        (keyed_iff (m := m.replace es) hpos rfl).mpr h⟩
  · intro text doc text' doc' hdoc hes hdoc' hes'
    constructor
    · rintro ⟨m', hret, hret'⟩
      obtain ⟨es₁, hes₁, -, rfl⟩ := (returns_initFromJson_iff hdoc).mp hret
      obtain rfl := Option.some.inj (hes.symm.trans hes₁)
      obtain ⟨es₂, hes₂, -, heq⟩ := (returns_initFromYaml_single_iff hdoc').mp hret'
      obtain rfl := Option.some.inj (hes'.symm.trans hes₂)
      obtain ⟨hstored, hids⟩ := replaced_eq_foldl_enter_iff.mp heq
      have hstored := (List.cons.inj hstored).2
      rw [← hstored] at hids
      exact ⟨map_stored_eq_self_iff.mp hstored.symm, hids⟩
    · rintro ⟨hzero, hids⟩
      have hstored := map_stored_eq_self_iff.mpr hzero
      refine ⟨_, (returns_initFromJson_iff hdoc).mpr ⟨es, hes, rfl, rfl⟩,
        (returns_initFromYaml_single_iff hdoc').mpr ⟨es, hes', rfl, ?_⟩⟩
      rw [EventManager.replace, replaced_eq_foldl_enter_iff, hstored]
      exact ⟨rfl, hids⟩

end Table

/-- Three events in the order of their ids. -/
def sampleEvents : List EventInfo := [⟨1, 0, "Start"⟩, ⟨2, 0, "Tick"⟩, ⟨3, 1, "Hit"⟩]

/-- The events as a JSON text. -/
def sampleJsonText : String :=
  "[\x7b\"id\": 1, \"name\": \"Start\"\x7d, " ++
    "\x7b\"id\": 2, \"name\": \"Tick\", \"arg_count\": 0\x7d, " ++
    "\x7b\"id\": 3, \"name\": \"Hit\", \"arg_count\": 1\x7d]"

/-- The document of the JSON text. -/
def sampleEventsJson : JsonValue :=
  .array [.object [("id", .int 1), ("name", .string "Start")],
    .object [("id", .int 2), ("name", .string "Tick"), ("arg_count", .int 0)],
    .object [("id", .int 3), ("name", .string "Hit"), ("arg_count", .int 1)]]

/-- The events as a YAML text, a stream with one document. -/
def sampleYamlText : String :=
  "---\n- id: 1\n  name: Start\n- id: 2\n  name: Tick\n" ++
    "- id: 3\n  name: Hit\n  parameters:\n  - name: damage\n    type: int\n"

/-- The document of the YAML text. -/
def sampleEventsYaml : YamlTree :=
  .seq [.map [("id", .scalar "1"), ("name", .scalar "Start")],
    .map [("id", .scalar "2"), ("name", .scalar "Tick")],
    .map [("id", .scalar "3"), ("name", .scalar "Hit"),
      ("parameters", .seq [.map [("name", .scalar "damage"), ("type", .scalar "int")]])]]

/-- Two events in the other order. -/
def swappedEvents : List EventInfo := [⟨2, 1, "Hit"⟩, ⟨1, 0, "Start"⟩]

/-- The two events as a JSON text. -/
def swappedJsonText : String :=
  "[\x7b\"id\": 2, \"name\": \"Hit\", \"arg_count\": 1\x7d, \x7b\"id\": 1, \"name\": \"Start\"\x7d]"

/-- The document of that text. -/
def swappedEventsJson : JsonValue :=
  .array [.object [("id", .int 2), ("name", .string "Hit"), ("arg_count", .int 1)],
    .object [("id", .int 1), ("name", .string "Start")]]

/-- rapidjson on these texts. The YAML text and the name of a file are no JSON texts. -/
def sampleJson (text : String) : Option JsonValue :=
  if text = sampleJsonText then some sampleEventsJson
  else if text = swappedJsonText then some swappedEventsJson
  else none

/-- ryml on these texts. A JSON text is no stream of documents, but the list itself. -/
def sampleYaml (text : String) : Option YamlRoot :=
  if text = sampleYamlText then some (.stream [sampleEventsYaml]) else some .single

theorem sampleJson_sample : sampleJson (cString sampleJsonText) = some sampleEventsJson := by
  rw [cString_eq_self_iff.mpr (by decide +kernel)]
  exact if_pos rfl

theorem parseJson_sample : parseJson sampleJson sampleJsonText = some sampleEventsJson := by
  rw [parseJson, if_neg (by decide +kernel), sampleJson_sample]

theorem parseJson_swapped : parseJson sampleJson swappedJsonText = some swappedEventsJson := by
  rw [parseJson, if_neg (by decide +kernel), cString_eq_self_iff.mpr (by decide +kernel),
    sampleJson, if_neg (by decide +kernel)]
  exact if_pos rfl

/-- Both texts lead to a table that is keyed by id. -/
theorem eventTable_keyed_sample :
    (∃ m', (EventManager.initFromJson sampleJson sampleJsonText).Returns {} 3 m' ∧
      Keyed sampleEvents m') ∧
    ∃ m', (EventManager.initFromYaml sampleYaml sampleYamlText).Returns {} 3 m' ∧
      Keyed sampleEvents m' := by
  have h := @eventTable_keyed_iff sampleEvents sampleJson sampleYaml (by decide) {}
  exact ⟨(h.1 sampleJsonText sampleEventsJson parseJson_sample rfl).mpr (by decide),
    (h.2.1 sampleYamlText sampleEventsYaml (if_pos rfl) (by decide +kernel)).mpr (by decide)⟩

/-- The lookups of one event give the other one. -/
theorem not_forall_keyed : ¬∀ (json : String → Option JsonValue) (text : String) (doc : JsonValue)
    (es : List EventInfo) (m m' : EventManager), parseJson json text = some doc →
    doc.events? = some es → (es.map (·.id)).Nodup → (∀ e ∈ es, 0 < e.id) →
    (EventManager.initFromJson json text).Returns m es.length m' → Keyed es m' := by
  intro h
  have hret : (EventManager.initFromJson sampleJson swappedJsonText).Returns {} 2
      (swappedEvents.foldl EventManager.enter (EventManager.clear {})) :=
    (returns_initFromJson_iff parseJson_swapped).mpr ⟨swappedEvents, rfl, rfl, rfl⟩
  have hkeyed := h _ _ swappedEventsJson swappedEvents _ _ parseJson_swapped rfl (by decide)
    (by decide) hret
  exact absurd (hkeyed.argsCount ⟨2, 1, "Hit"⟩ (by decide)) (by decide)

/-! ### Importing by path -/

section Paths

variable {files : String → Option String} {json : String → Option JsonValue}
  {yaml : String → Option YamlRoot} {path text : String}

/-- The text is an event list, in one of the two formats. -/
def IsEventText (json : String → Option JsonValue) (yaml : String → Option YamlRoot)
    (text : String) : Prop :=
  text ≠ "" ∧ ((∃ doc es, json (cString text) = some doc ∧ doc.events? = some es) ∨
    ∃ doc es, yaml text = some (.stream [doc]) ∧ doc.events? = some es)

/-- Both importers make the same of the text: it is a stream of event lists of which the last
one has the entries of the JSON list, and that list announces the ids that are set already. -/
def Polyglot (json : String → Option JsonValue) (yaml : String → Option YamlRoot) (text : String)
    (m : EventManager) : Prop :=
  ∃ doc es docs ess, json (cString text) = some doc ∧ doc.events? = some es ∧
    yaml text = some (.stream docs) ∧ docs.mapM YamlTree.events? = some ess ∧
    (ess.getLast?.map (noneEvent :: ·)).getD m.infos = noneEvent :: es.map EventInfo.stored ∧
    (∀ e ∈ named? "Start" (es.map EventInfo.stored), m.startEvent = e.id) ∧
    ∀ e ∈ named? "Tick" (es.map EventInfo.stored), m.tickEvent = e.id

/-- A text is imported by the importer of its format. -/
theorem importEvent_text (hs : files text = none) :
    importEvent files json yaml text =
      if (json (cString text)).isSome then EventManager.initFromJson json text
      else EventManager.initFromYaml yaml text := by
  unfold importEvent
  rw [hs, if_neg nofun]
  rfl

/-- A file is imported as YAML. -/
theorem importEvent_path (hfile : files path = some text) (hpath : json (cString path) = none)
    (hne : text ≠ "") : importEvent files json yaml path = EventManager.initFromYaml yaml text := by
  unfold importEvent
  rw [hfile, hpath, if_neg fun h => hne (Option.some.inj h)]
  rfl

/-- When the YAML importer does what the JSON importer does. -/
theorem polyglot_iff {m : EventManager} {doc : JsonValue} (hs : IsEventText json yaml text)
    (hdoc : json (cString text) = some doc) :
    (EventManager.initFromYaml yaml text).run.run m =
      (EventManager.initFromJson json text).run.run m ↔ Polyglot json yaml text m := by
  have hparse : parseJson json text = some doc := by rw [parseJson, if_neg hs.1, hdoc]
  constructor
  · intro heq
    -- One of the two returns, so both do.
    have hret : ∃ n m', (EventManager.initFromJson json text).Returns m n m' ∧
        (EventManager.initFromYaml yaml text).Returns m n m' ∧ 0 ≤ n := by
      rcases hs.2 with ⟨doc', es, hdoc', hes⟩ | ⟨ydoc, es, hydoc, hes⟩
      · obtain rfl := Option.some.inj (hdoc.symm.trans hdoc')
        have hj := (returns_initFromJson_iff (m := m) hparse).mpr ⟨es, hes, rfl, rfl⟩
        exact ⟨_, _, hj, heq.trans hj, by omega⟩
      · have hy := (returns_initFromYaml_single_iff (m := m) hydoc).mpr ⟨es, hes, rfl, rfl⟩
        exact ⟨_, _, heq.symm.trans hy, hy, by omega⟩
    obtain ⟨n, m', hj, hy, hn⟩ := hret
    obtain ⟨es, hes, rfl, rfl⟩ := (returns_initFromJson_iff hparse).mp hj
    have hstream : ∃ docs, yaml text = some (.stream docs) := by
      unfold EventManager.initFromYaml at hy
      split at hy
      · exact absurd hy not_returns_throw
      · have := (returns_pure_iff.mp hy).1
        omega
      · exact ⟨_, ‹_›⟩
    obtain ⟨docs, hdocs⟩ := hstream
    obtain ⟨ess, hess, -, heq⟩ := (returns_initFromYaml_iff hdocs).mp hy
    rw [foldl_replace, replaced_eq_foldl_enter_iff] at heq
    exact ⟨doc, es, docs, ess, hdoc, hes, hdocs, hess, heq⟩
  · rintro ⟨doc', es, docs, ess, hdoc', hes, hdocs, hess, h⟩
    obtain rfl := Option.some.inj (hdoc.symm.trans hdoc')
    have heq : ess.foldl EventManager.replace m = es.foldl EventManager.enter m.clear := by
      rw [foldl_replace, replaced_eq_foldl_enter_iff]
      exact h
    have hj := (returns_initFromJson_iff (m := m) hparse).mpr ⟨es, hes, rfl, rfl⟩
    have hy := (returns_initFromYaml_iff (m := m) (n := es.length) hdocs).mpr
      ⟨ess, hess, ?_, heq⟩
    · exact hy.trans hj.symm
    · rw [foldl_enter]
      simp [EventManager.clear]

/-- **When importing by path imports the content.** -/
theorem importEvent_path_iff {m : EventManager} (hfile : files path = some text)
    (htext : files text = none) (hpath : json (cString path) = none)
    (hs : IsEventText json yaml text) :
    (importEvent files json yaml path).run.run m = (importEvent files json yaml text).run.run m ↔
      json (cString text) = none ∨ Polyglot json yaml text m := by
  rw [importEvent_path hfile hpath hs.1, importEvent_text htext]
  cases hdoc : json (cString text) with
  | none => exact iff_of_true rfl (Or.inl rfl)
  | some doc =>
    rw [or_iff_right nofun]
    exact polyglot_iff hs hdoc

/-- A directory with the two event files. -/
def sampleFiles (path : String) : Option String :=
  if path = "event_info.json" then some sampleJsonText
  else if path = "event_info.yaml" then some sampleYamlText
  else none

/-- The YAML file is imported by its path. -/
theorem importEvent_path_sample :
    (importEvent sampleFiles sampleJson sampleYaml "event_info.yaml").run.run {} =
    (importEvent sampleFiles sampleJson sampleYaml sampleYamlText).run.run {} := by
  have hfile : sampleFiles "event_info.yaml" = some sampleYamlText := by decide +kernel
  have htext : sampleFiles sampleYamlText = none := by decide +kernel
  have hnone : ∀ text, text ≠ sampleJsonText → text ≠ swappedJsonText → sampleJson text = none :=
    fun text h h' => by rw [sampleJson, if_neg h, if_neg h']
  have hpath : sampleJson (cString "event_info.yaml") = none :=
    hnone _ (by decide +kernel) (by decide +kernel)
  have hjson : sampleJson (cString sampleYamlText) = none :=
    hnone _ (by decide +kernel) (by decide +kernel)
  have hs : IsEventText sampleJson sampleYaml sampleYamlText :=
    ⟨by decide +kernel, Or.inr ⟨sampleEventsYaml, sampleEvents, if_pos rfl, by decide +kernel⟩⟩
  exact (importEvent_path_iff hfile htext hpath hs).mpr (Or.inl hjson)

/-- A JSON file is not: the parser of the YAML importer finds no stream. -/
theorem not_forall_importEvent_path : ¬∀ (files : String → Option String)
    (json : String → Option JsonValue) (yaml : String → Option YamlRoot) (path text : String)
    (m : EventManager), files path = some text → files text = none →
    json (cString path) = none → IsEventText json yaml text →
    (importEvent files json yaml path).run.run m =
      (importEvent files json yaml text).run.run m := by
  intro h
  have hfile : sampleFiles "event_info.json" = some sampleJsonText := by decide +kernel
  have htext : sampleFiles sampleJsonText = none := by decide +kernel
  have hpath : sampleJson (cString "event_info.json") = none := by
    rw [sampleJson, if_neg (by decide +kernel), if_neg (by decide +kernel)]
  have hs : IsEventText sampleJson sampleYaml sampleJsonText :=
    ⟨by decide +kernel, Or.inl ⟨sampleEventsJson, sampleEvents, sampleJson_sample, rfl⟩⟩
  have heq := h _ _ _ _ _ {} hfile htext hpath hs
  rw [importEvent_path hfile hpath hs.1, importEvent_text htext, sampleJson_sample,
    Option.isSome_some, if_pos rfl] at heq
  have hyaml : EventManager.initFromYaml sampleYaml sampleJsonText = pure (-1) := by
    have hsingle : sampleYaml sampleJsonText = some .single := if_neg (by decide +kernel)
    rw [EventManager.initFromYaml, hsingle]
  have hret : (EventManager.initFromJson sampleJson sampleJsonText).Returns {} 3
      (sampleEvents.foldl EventManager.enter (EventManager.clear {})) :=
    (returns_initFromJson_iff parseJson_sample).mpr ⟨sampleEvents, rfl, rfl, rfl⟩
  rw [hyaml] at heq
  have hneg := (returns_pure_iff.mp (heq.trans hret)).1
  exact absurd hneg (by decide)

end Paths

end Loading

end Asyncflow
