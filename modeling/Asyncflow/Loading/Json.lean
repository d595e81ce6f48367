import Asyncflow.Loading.Yaml
import Mathlib.Data.List.TakeWhile

/-!
# JSON documents

A `rapidjson::Value` with the operations that the code uses of it. A value of another type
than the operation asks for, and `operator[]` with a key that is not there, run into an
assertion of the library; `FindMember` gives the end of the members for such a key, which the
code dereferences in places (`Asyncflow.Loading.JsonValue.memberValue`). `GetString` gives a C
string, so that what follows a zero character is lost.
-/

namespace Asyncflow

namespace Loading

/-- `rapidjson::Value`. Of a number that is no integer only its type matters. -/
inductive JsonValue
  | null
  | bool (value : Bool)
  | int (value : ℤ)
  | double
  | string (value : String)
  | array (items : List JsonValue)
  | object (members : List (String × JsonValue))

/-- The part of a string before its first zero character. -/
def cString (s : String) : String := String.ofList (cStr s)

@[simp]
theorem cString_cString (s : String) : cString (cString s) = cString s := by
  unfold cString cStr
  rw [String.toList_ofList, List.takeWhile_idem]

/-- A string without a zero character is all there. -/
theorem cString_eq_self_iff {s : String} : cString s = s ↔ '\x00' ∉ s.toList := by
  rw [← String.toList_inj, cString, String.toList_ofList, cStr, List.takeWhile_eq_self_iff]
  constructor
  · intro h hmem
    exact of_decide_eq_true (h _ hmem) rfl
  · intro h c hc
    exact decide_eq_true fun hcon => h (hcon ▸ hc)

namespace JsonValue

variable {σ : Type}

/-! ### Types -/

/-- `IsInt`. -/
def isInt : JsonValue → Bool
  | .int n => -2 ^ 31 ≤ n ∧ n < 2 ^ 31
  | _ => false

/-- `IsInt64`. -/
def isInt64 : JsonValue → Bool
  | .int n => -2 ^ 63 ≤ n ∧ n < 2 ^ 63
  | _ => false

theorem isInt_int {n : ℤ} : (JsonValue.int n).isInt = true ↔ -2 ^ 31 ≤ n ∧ n < 2 ^ 31 :=
  decide_eq_true_iff

theorem isInt64_int {n : ℤ} : (JsonValue.int n).isInt64 = true ↔ -2 ^ 63 ≤ n ∧ n < 2 ^ 63 :=
  decide_eq_true_iff

/-- `IsString`. -/
def isString : JsonValue → Bool
  | .string _ => true
  | _ => false

/-- `IsObject`. -/
def isObject : JsonValue → Bool
  | .object _ => true
  | _ => false

/-- The first member with the key. -/
def member? (key : String) : JsonValue → Option JsonValue
  | .object members => (members.find? fun m => m.1 = key).map (·.2)
  | _ => none

/-- An `int`. -/
def int? : JsonValue → Option ℤ
  | .int n => if -2 ^ 31 ≤ n ∧ n < 2 ^ 31 then some n else none
  | _ => none

/-- A string. -/
def string? : JsonValue → Option String
  | .string s => some s
  | _ => none

/-! ### Reading -/

/-- `GetInt`. -/
def getInt : JsonValue → Program Abort σ ℤ
  | .int n => if -2 ^ 31 ≤ n ∧ n < 2 ^ 31 then pure n else throw .assertion
  | _ => throw .assertion

/-- `GetUint64`. -/
def getUint64 : JsonValue → Program Abort σ ℕ
  | .int n => if 0 ≤ n ∧ n < 2 ^ 64 then pure n.toNat else throw .assertion
  | _ => throw .assertion

/-- `GetString`. -/
def getString : JsonValue → Program Abort σ String
  | .string s => pure (cString s)
  | _ => throw .assertion

/-- `GetBool`. -/
def getBool : JsonValue → Program Abort σ Bool
  | .bool b => pure b
  | _ => throw .assertion

/-- `GetArray`. -/
def getArray : JsonValue → Program Abort σ (List JsonValue)
  | .array items => pure items
  | _ => throw .assertion

/-- `FindMember`. -/
def findMember (v : JsonValue) (key : String) : Program Abort σ (Option JsonValue) :=
  if v.isObject then pure (v.member? key) else throw .assertion

/-- `FindMember(key)->value`. -/
def memberValue (v : JsonValue) (key : String) : Program Abort σ JsonValue := do
  match ← v.findMember key with
  | some m => pure m
  | none => throw .undefined

/-- What is read of the member with the key, if it is there. -/
def readMember {α : Type} (v : JsonValue) (key : String) (read : JsonValue → Program Abort σ α) :
    Program Abort σ (Option α) := do
  match ← v.findMember key with
  | some m => some <$> read m
  | none => pure none

/-- The member with the key, if it is there and passes the test:
`HasMember(key) && v[key].test()`. -/
def memberIf (v : JsonValue) (key : String) (test : JsonValue → Bool) :
    Program Abort σ (Option JsonValue) := do
  pure ((← v.findMember key).filter test)

section Returns

open Program

variable {v w : JsonValue} {key : String} {s t : σ}

theorem isObject_of_member? (h : v.member? key = some w) : v.isObject := by
  cases v with
  | object members => rfl
  | null | bool | double | int | string | array => cases h

theorem returns_findMember_iff {o : Option JsonValue} :
    (v.findMember key : Program Abort σ _).Returns s o t ↔
      v.isObject ∧ v.member? key = o ∧ s = t := by
  unfold findMember
  split_ifs with h
  · rw [returns_pure_iff]
    exact (and_iff_right h).symm
  · exact iff_of_false not_returns_throw fun hv => h hv.1

theorem returns_memberValue_iff :
    (v.memberValue key : Program Abort σ _).Returns s w t ↔ v.member? key = some w ∧ s = t := by
  unfold memberValue
  rw [returns_bind_iff]
  constructor
  · rintro ⟨o, u, ho, hw⟩
    obtain ⟨-, hm, rfl⟩ := returns_findMember_iff.mp ho
    cases o with
    | none => exact absurd hw not_returns_throw
    | some w' =>
      obtain ⟨rfl, rfl⟩ := returns_pure_iff.mp hw
      exact ⟨hm, rfl⟩
  · rintro ⟨hm, rfl⟩
    exact ⟨some w, s, returns_findMember_iff.mpr ⟨isObject_of_member? hm, hm, rfl⟩,
      returns_pure w s⟩

theorem returns_getInt_iff {n : ℤ} :
    (v.getInt : Program Abort σ ℤ).Returns s n t ↔ v.int? = some n ∧ s = t := by
  cases v with
  | int k =>
    rw [getInt, int?]
    split_ifs
    · rw [returns_pure_iff, Option.some.injEq]
    · exact iff_of_false not_returns_throw nofun
  | null | bool | double | string | array | object => exact iff_of_false not_returns_throw nofun

theorem returns_getString_iff {name : String} :
    (v.getString : Program Abort σ String).Returns s name t ↔
      v.string?.map cString = some name ∧ s = t := by
  cases v with
  | string n =>
    rw [getString, string?, returns_pure_iff, Option.map_some, Option.some.injEq]
  | null | bool | double | int | array | object => exact iff_of_false not_returns_throw nofun

theorem returns_getArray_iff {items : List JsonValue} :
    (v.getArray : Program Abort σ _).Returns s items t ↔ v = .array items ∧ s = t := by
  cases v with
  | array is => rw [getArray, returns_pure_iff, array.injEq]
  | null | bool | double | int | string | object => exact iff_of_false not_returns_throw nofun

end Returns

end JsonValue

end Loading

end Asyncflow
