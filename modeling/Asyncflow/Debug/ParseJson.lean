import Asyncflow.Lib.Checked

/-!
# Reporting a JSON error

`JsonUtil::ParseJson` hands a text to the JSON parser of a library and, when that fails,
logs the line of the error, the line before it and a line with a caret under the error. The
debug server calls it with every message it receives.

The parser is a parameter: all that is used of it is the offset at which it gives up. The
report finds the lines by two scanning loops and cuts them out of the text with signed
offsets; `Asyncflow.JsonUtil.reported_iff` says for which offsets every access stays in
bounds.
-/

namespace Asyncflow

namespace JsonUtil

/-- A character. -/
abbrev Byte := UInt8

/-- The newline. -/
def newline : Byte := 10

/-- The conversion of a `size_t` to an `int`. -/
def toInt (n : ℕ) : ℤ := Int.bmod n (2 ^ 32)

/-- The memory at `json_str.c_str()`: the text and its terminator. -/
def cstr (text : List Byte) : List Byte := text ++ [0]

/-- What a function that reads up to the first terminator sees of a text. -/
def visible (text : List Byte) : List Byte := text.takeWhile (· ≠ 0)

/-- `strlen` as an `int`. -/
def length (text : List Byte) : ℤ := toInt (visible text).length

/-- `rapidjson::ParseResult` of a text that is not accepted. -/
structure ParseError where
  /-- `GetParseError_En(ok.Code())`. -/
  message : String
  /-- `ok.Offset()`. -/
  offset : ℕ
deriving DecidableEq, Repr

/-- The lines `ParseJson` logs. -/
inductive LogLine
  /-- “parse json error : json string is empty”. -/
  | emptyText
  /-- “JSON parse error: … at line …, position (…)”. -/
  | parseError (message : String) (line : ℤ) (offset : ℕ)
  /-- A line of the text, or the caret. -/
  | text (bytes : List Byte)
deriving DecidableEq, Repr

/-- The loop of `get_line_number`: the rest of the text, its position and the line so far.
The position of the error is compared as a `size_t`. -/
def lineNumberFrom (pos : ℤ) : List Byte → ℕ → ℤ → ℤ
  | [], _, _ => -1
  | c :: cs, p, ln =>
    if c = newline then
      if pos % 2 ^ 64 < p then ln else lineNumberFrom pos cs (p + 1) (ln + 1)
    else lineNumberFrom pos cs (p + 1) ln

/-- `get_line_number`. -/
def getLineNumber (text : List Byte) (pos : ℤ) : ℤ := lineNumberFrom pos text 0 1

/-- The loop of `find_last_newline`, from the value of `end_pos` down. -/
def lastNewlineBelow (text : List Byte) : ℕ → Except Fault ℤ
  | 0 => .ok (-1)
  | k + 1 =>
    if 0 < k then do
      let c ← Checked.read (cstr text) k
      if c = newline then .ok k else lastNewlineBelow text k
    else .ok (-1)

/-- `find_last_newline`. The character at position 0 is not looked at. -/
def findLastNewline (text : List Byte) (endPos : ℤ) : Except Fault ℤ :=
  lastNewlineBelow text endPos.toNat

/-- The loop of `find_next_newline`, for at most the given number of rounds. -/
def nextNewlineAbove (text : List Byte) : ℕ → ℤ → Except Fault ℤ
  | 0, _ => .ok (length text - 1)
  | k + 1, e =>
    if e + 1 < length text then do
      let c ← Checked.read (cstr text) (e + 1)
      if c = newline then .ok (e + 1) else nextNewlineAbove text k (e + 1)
    else .ok (length text - 1)

/-- `find_next_newline`. Every round comes one closer to the end of the text. -/
def findNextNewline (text : List Byte) (endPos : ℤ) : Except Fault ℤ :=
  nextNewlineAbove text (length text - endPos).toNat endPos

/-- The space and the caret. -/
def space : Byte := 32

/-- The caret. -/
def caret : Byte := 94

/-- The buffer with the caret, for a line from `startPos` to `endPos`. -/
def caretLine (startPos pos endPos : ℤ) : Except Fault (List Byte) := do
  let line ← Checked.alloc (endPos - startPos + 1) 0
  let line ← Checked.fill line (endPos - startPos) space
  let line ← Checked.write line (pos - startPos) caret
  Checked.write line (pos - startPos + 1) 0

/-- The line before that of the error, if there is one. -/
def lastLine (text : List Byte) (startPos startPos2 : ℤ) : Except Fault (List LogLine) :=
  if startPos2 ≠ -1 then do
    let line ← Checked.slice (cstr text) (startPos2 + 1) (startPos - startPos2 - 2)
    .ok [.text line]
  else .ok []

/-- `ParseJson` of a text that the parser does not accept. -/
def report (text : List Byte) (err : ParseError) : Except Fault (List LogLine) := do
  let pos := toInt err.offset
  let lineBreak ← findLastNewline text pos
  let startPos2 ← findLastNewline text lineBreak
  let endPos ← findNextNewline text pos
  let startPos := lineBreak + 1
  let currentLine ← Checked.slice (cstr text) startPos (endPos - startPos)
  let previous ← lastLine text startPos startPos2
  let line ← caretLine startPos pos endPos
  .ok (.parseError err.message (getLineNumber text pos) err.offset ::
    (previous ++ [.text currentLine, .text (visible line)]))

/-- `JsonUtil::ParseJson`: its result and what it logs. -/
def parseJson (parse : List Byte → Option ParseError) (text : List Byte) :
    Except Fault (Bool × List LogLine) :=
  if text = [] then .ok (false, [.emptyText])
  else match parse (visible text) with
    | none => .ok (true, [])
    | some err => do
      let log ← report text err
      .ok (false, log)

/-! ### The scanning loops -/

variable {text : List Byte} {k : ℕ} {e r : ℤ}

theorem toInt_le (n : ℕ) : toInt n ≤ n := by
  unfold toInt
  rw [Int.bmod_eq_emod]
  split <;> omega

theorem length_le (text : List Byte) : length text ≤ text.length := by
  have hle : (visible text).length ≤ text.length := (List.takeWhile_sublist _).length_le
  have hint : length text ≤ (visible text).length := toInt_le _
  omega

theorem length_cstr (text : List Byte) : ((cstr text).length : ℤ) = text.length + 1 := by
  rw [cstr, List.length_append, List.length_singleton]
  rfl

/-- A newline that has been found downwards is below the start and not at 0. -/
theorem lastNewlineBelow_eq (h : lastNewlineBelow text k = .ok r) : r = -1 ∨ 0 < r ∧ r < k := by
  induction k with
  | zero =>
    cases h
    exact .inl rfl
  | succ k ih =>
    unfold lastNewlineBelow at h
    split at h
    · obtain ⟨c, -, h⟩ := Checked.bind_eq_ok.mp h
      split at h
      · cases h
        exact .inr ⟨by omega, by omega⟩
      · rcases ih h with hr | hr
        · exact .inl hr
        · exact .inr ⟨hr.1, by omega⟩
    · cases h
      exact .inl rfl

/-- The loop downwards from a position of the text reads characters of the text only. -/
theorem lastNewlineBelow_ok (hk : k ≤ text.length + 1) : ∃ r, lastNewlineBelow text k = .ok r := by
  induction k with
  | zero => exact ⟨-1, rfl⟩
  | succ k ih =>
    unfold lastNewlineBelow
    split
    · have hlen := length_cstr text
      obtain ⟨c, hc⟩ := Checked.read_ok (cstr text) (i := k) (by omega) (by omega)
      obtain ⟨r, hr⟩ := ih (by omega)
      by_cases hnl : c = newline
      · exact ⟨k, Checked.bind_eq_ok.mpr ⟨c, hc, if_pos hnl⟩⟩
      · exact ⟨r, Checked.bind_eq_ok.mpr ⟨c, hc, (if_neg hnl).trans hr⟩⟩
    · exact ⟨-1, rfl⟩

theorem findLastNewline_eq (h : findLastNewline text e = .ok r) : r = -1 ∨ 0 < r ∧ r < e := by
  rcases lastNewlineBelow_eq h with hr | hr
  · exact .inl hr
  · exact .inr ⟨hr.1, by omega⟩

theorem findLastNewline_ok (text : List Byte) {e : ℤ} (he : e ≤ text.length) :
    ∃ r, findLastNewline text e = .ok r :=
  lastNewlineBelow_ok (by omega)

/-- The loop upwards ends at a newline of the text or at its last character. -/
theorem nextNewlineAbove_eq (h : nextNewlineAbove text k e = .ok r) :
    r = length text - 1 ∨ e < r ∧ r < length text := by
  induction k generalizing e with
  | zero => exact .inl (Except.ok.inj h).symm
  | succ k ih =>
    unfold nextNewlineAbove at h
    split at h
    · obtain ⟨c, -, h⟩ := Checked.bind_eq_ok.mp h
      split at h
      · cases h
        exact .inr ⟨by omega, by omega⟩
      · rcases ih h with hr | hr
        · exact .inl hr
        · exact .inr ⟨by omega, hr.2⟩
    · exact .inl (Except.ok.inj h).symm

/-- From a position of the text the loop upwards reads characters of the text only. -/
theorem nextNewlineAbove_ok (text : List Byte) (k : ℕ) {e : ℤ} (he : -1 ≤ e) :
    ∃ r, nextNewlineAbove text k e = .ok r := by
  induction k generalizing e with
  | zero => exact ⟨_, rfl⟩
  | succ k ih =>
    unfold nextNewlineAbove
    split
    · have hlen := length_cstr text
      have hle := length_le text
      obtain ⟨c, hc⟩ := Checked.read_ok (cstr text) (i := e + 1) (by omega) (by omega)
      obtain ⟨r, hr⟩ := ih (e := e + 1) (by omega)
      by_cases hnl : c = newline
      · exact ⟨e + 1, Checked.bind_eq_ok.mpr ⟨c, hc, if_pos hnl⟩⟩
      · exact ⟨r, Checked.bind_eq_ok.mpr ⟨c, hc, (if_neg hnl).trans hr⟩⟩
    · exact ⟨_, rfl⟩

/-! ### The report -/

variable {startPos startPos2 pos endPos : ℤ} {err : ParseError}
  {parse : List Byte → Option ParseError}

/-- **The caret is written inside its buffer** only if it stands before the last cell. -/
theorem bounds_of_caretLine {line : List Byte} (h : caretLine startPos pos endPos = .ok line) :
    startPos ≤ pos ∧ pos + 1 ≤ endPos := by
  obtain ⟨l0, h0, h⟩ := Checked.bind_eq_ok.mp h
  obtain ⟨l1, h1, h⟩ := Checked.bind_eq_ok.mp h
  obtain ⟨l2, h2, h⟩ := Checked.bind_eq_ok.mp h
  have hl0 := Checked.length_of_alloc h0
  have hl1 := Checked.length_of_fill h1
  have hl2 := Checked.bounds_of_write h2
  have hl3 := Checked.bounds_of_write h
  omega

theorem caretLine_ok (startPos pos endPos : ℤ) (hs : startPos ≤ pos) (he : pos + 1 ≤ endPos) :
    ∃ line, caretLine startPos pos endPos = .ok line := by
  obtain ⟨l0, h0, hl0⟩ := Checked.alloc_ok (n := endPos - startPos + 1) (x := (0 : Byte)) (by omega)
  obtain ⟨l1, h1, hl1, -⟩ := Checked.fill_ok l0 (n := endPos - startPos) (x := space) (by omega)
  obtain ⟨l2, h2⟩ := Checked.write_ok l1 (i := pos - startPos) (x := caret) (by omega)
    (by omega)
  have hl2 := (Checked.bounds_of_write h2).2
  obtain ⟨l3, h3⟩ := Checked.write_ok l2 (i := pos - startPos + 1) (x := 0) (by omega)
    (by omega)
  refine ⟨l3, Checked.bind_eq_ok.mpr ⟨l0, h0, Checked.bind_eq_ok.mpr ⟨l1, h1, ?_⟩⟩⟩
  exact Checked.bind_eq_ok.mpr ⟨l2, h2, h3⟩

theorem lastLine_ok (text : List Byte) (startPos startPos2 : ℤ)
    (h0 : startPos2 = -1 ∨ 0 < startPos2 ∧ startPos2 < startPos - 1)
    (hs : startPos ≤ text.length) : ∃ ls, lastLine text startPos startPos2 = .ok ls := by
  unfold lastLine
  split
  · have hlen := length_cstr text
    obtain ⟨line, hline⟩ := Checked.slice_ok (cstr text) (i := startPos2 + 1)
      (n := startPos - startPos2 - 2) (by omega) (by omega) (by omega)
    exact ⟨[.text line], Checked.bind_eq_ok.mpr ⟨line, hline, rfl⟩⟩
  · exact ⟨[], rfl⟩

/-- **The report stays in bounds** if the error is before the last character. -/
theorem report_ok (h0 : 0 ≤ toInt err.offset) (h1 : toInt err.offset + 1 < length text) :
    ∃ log, report text err = .ok log := by
  have hle := length_le text
  have hlen := length_cstr text
  obtain ⟨lineBreak, hb⟩ := findLastNewline_ok text (e := toInt err.offset) (by omega)
  have hb' := findLastNewline_eq hb
  obtain ⟨start2, hs⟩ := findLastNewline_ok text (e := lineBreak) (by omega)
  have hs' := findLastNewline_eq hs
  obtain ⟨endPos, he⟩ := nextNewlineAbove_ok text (length text - toInt err.offset).toNat
    (e := toInt err.offset) (by omega)
  have he' := nextNewlineAbove_eq he
  obtain ⟨current, hc⟩ := Checked.slice_ok (cstr text) (i := lineBreak + 1)
    (n := endPos - (lineBreak + 1)) (by omega) (by omega) (by omega)
  obtain ⟨previous, hp⟩ := lastLine_ok text (lineBreak + 1) start2 (by omega) (by omega)
  obtain ⟨line, hl⟩ := caretLine_ok (lineBreak + 1) (toInt err.offset) endPos (by omega)
    (by omega)
  refine ⟨.parseError err.message (getLineNumber text (toInt err.offset)) err.offset ::
    (previous ++ [.text current, .text (visible line)]), ?_⟩
  refine Checked.bind_eq_ok.mpr ⟨lineBreak, hb, Checked.bind_eq_ok.mpr ⟨start2, hs, ?_⟩⟩
  refine Checked.bind_eq_ok.mpr ⟨endPos, he, Checked.bind_eq_ok.mpr ⟨current, hc, ?_⟩⟩
  exact Checked.bind_eq_ok.mpr ⟨previous, hp, Checked.bind_eq_ok.mpr ⟨line, hl, rfl⟩⟩

theorem bounds_of_report {log : List LogLine} (h : report text err = .ok log) :
    0 ≤ toInt err.offset ∧ toInt err.offset + 1 < length text := by
  obtain ⟨lineBreak, hb, h⟩ := Checked.bind_eq_ok.mp h
  obtain ⟨start2, hs, h⟩ := Checked.bind_eq_ok.mp h
  obtain ⟨endPos, he, h⟩ := Checked.bind_eq_ok.mp h
  obtain ⟨current, hc, h⟩ := Checked.bind_eq_ok.mp h
  obtain ⟨previous, hp, h⟩ := Checked.bind_eq_ok.mp h
  obtain ⟨line, hl, -⟩ := Checked.bind_eq_ok.mp h
  have hb' := findLastNewline_eq hb
  have he' := nextNewlineAbove_eq he
  have hl' := bounds_of_caretLine hl
  omega

/-- **An error is reported in bounds**, and `ParseJson` returns `false`, exactly if the
offset as an `int` is not negative and stands before the last character of the text. -/
theorem reported_iff (parse : List Byte → Option ParseError) (text : List Byte) (err : ParseError)
    (hne : text ≠ []) (herr : parse (visible text) = some err) :
    (∃ log, parseJson parse text = .ok (false, log)) ↔
      0 ≤ toInt err.offset ∧ toInt err.offset + 1 < length text := by
  unfold parseJson
  rw [if_neg hne, herr]
  constructor
  · rintro ⟨log, h⟩
    obtain ⟨log', hr, -⟩ := Checked.bind_eq_ok.mp h
    exact bounds_of_report hr
  · rintro ⟨h0, h1⟩
    obtain ⟨log, hr⟩ := report_ok h0 h1
    exact ⟨log, Checked.bind_eq_ok.mpr ⟨log, hr, rfl⟩⟩

/-- The text `[1 2]`. -/
def arrayText : List Byte := [91, 49, 32, 50, 93]

/-- The text `[`, and a newline. -/
def openText : List Byte := [91, 10]

/-- What the parser of the library says about two texts. -/
def parseSample (text : List Byte) : Option ParseError :=
  if text = arrayText then some ⟨"Missing a comma or ] after an array element.", 3⟩
  else if text = openText then some ⟨"Invalid value.", 2⟩
  else none

/-- An error inside the text is reported. -/
theorem reported_array : ∃ log, parseJson parseSample arrayText = .ok (false, log) :=
  (reported_iff parseSample arrayText ⟨"Missing a comma or ] after an array element.", 3⟩
    (by decide) (by decide)).mpr (by decide)

/-- **An error at the end of a text that ends with a newline**: the current line starts after
its end, and `std::string` throws. -/
theorem not_reported_open : ∃ parse text err, text ≠ [] ∧ parse (visible text) = some err ∧
    err.offset ≤ (visible text).length ∧ ¬∃ log, parseJson parse text = .ok (false, log) := by
  refine ⟨parseSample, openText, ⟨"Invalid value.", 2⟩, by decide, by decide, by decide, ?_⟩
  rintro ⟨log, h⟩
  have hfault : parseJson parseSample openText = .error .badLength := by rfl
  rw [hfault] at h
  cases h

end JsonUtil

end Asyncflow
