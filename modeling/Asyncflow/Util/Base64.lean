import Mathlib.Algebra.Order.Ring.Nat
import Mathlib.Data.List.Basic
import Mathlib.Data.Nat.Bitwise

/-!
# Base 64

`Base64` of `file.cpp`, on byte strings. A group of three bytes is written as four characters;
one or two bytes at the end are filled up with padding. The reader is liberal: it takes both
alphabets and both padding characters, and padding that is left out, and it goes on after
padding, so that it reads several encoded strings in one.

Between the two stands `Asyncflow.Base64.encodeGroups`, which is by recursion on the bytes where
the source counts positions in 32 bits.
-/

namespace Asyncflow

namespace Base64

/-- The bytes of an ASCII text. -/
def bytes (s : String) : List UInt8 := s.toList.map fun c => .ofNat c.toNat

/-- `base64_chars`. -/
def base64Chars (url : Bool) : List UInt8 :=
  bytes ("ABCDEFGHIJKLMNOPQRSTUVWXYZ" ++ "abcdefghijklmnopqrstuvwxyz" ++ "0123456789" ++
    if url then "-_" else "+/")

/-- A character of `base64_chars_`. -/
def charAt (url : Bool) (i : ℕ) : UInt8 := (base64Chars url).getD i 0

/-- `trailing_char`. -/
def trailingChar (url : Bool) : UInt8 := if url then 46 else 61

/-- `pos_of_char`; `none` is the exception. -/
def posOfChar (chr : UInt8) : Option ℕ :=
  if 65 ≤ chr ∧ chr ≤ 90 then some (chr.toNat - 65)
  else if 97 ≤ chr ∧ chr ≤ 122 then some (chr.toNat - 97 + (90 - 65) + 1)
  else if 48 ≤ chr ∧ chr ≤ 57 then some (chr.toNat - 48 + (90 - 65) + (122 - 97) + 2)
  else if chr = 43 ∨ chr = 45 then some 62
  else if chr = 47 ∨ chr = 95 then some 63
  else none

/-- A round of the loop of `base64_encode`: the characters for the bytes at the position. -/
def encodeAt (url : Bool) (s : List UInt8) (pos : ℕ) : List UInt8 :=
  let byte (i : ℕ) : ℕ := (s.getD ((pos + i) % 2 ^ 32) 0).toNat
  charAt url ((byte 0 &&& 0xfc) >>> 2) ::
    if (pos + 1) % 2 ^ 32 < s.length then
      charAt url (((byte 0 &&& 0x03) <<< 4) + ((byte 1 &&& 0xf0) >>> 4)) ::
        if (pos + 2) % 2 ^ 32 < s.length then
          [charAt url (((byte 1 &&& 0x0f) <<< 2) + ((byte 2 &&& 0xc0) >>> 6)),
            charAt url (byte 2 &&& 0x3f)]
        else [charAt url ((byte 1 &&& 0x0f) <<< 2), trailingChar url]
    else [charAt url ((byte 0 &&& 0x03) <<< 4), trailingChar url, trailingChar url]

/-- The loop of `base64_encode`; the position is an `unsigned int`. -/
def encodeLoop (url : Bool) (s : List UInt8) : ℕ → ℕ → List UInt8 → Option (List UInt8)
  | 0, _, _ => none
  | rounds + 1, pos, ret =>
    if pos < s.length then encodeLoop url s rounds ((pos + 3) % 2 ^ 32) (ret ++ encodeAt url s pos)
    else some ret

/-- `Base64::base64_encode`; `none` is a loop that does not end. -/
def base64Encode (s : List UInt8) (url : Bool) : Option (List UInt8) :=
  encodeLoop url s ((s.length + 2) / 3 + 1) 0 []

/-- The loop of `insert_linebreaks`. -/
def insertLoop (distance : ℕ) : ℕ → ℕ → List UInt8 → List UInt8
  | 0, _, str => str
  | rounds + 1, pos, str =>
    if pos < str.length then
      insertLoop distance rounds (pos + (distance + 1)) (str.take pos ++ 10 :: str.drop pos)
    else str

/-- `insert_linebreaks`. The string gets longer by one in a round, and the position moves on by
more than that. -/
def insertLinebreaks (str : List UInt8) (distance : ℕ) : List UInt8 :=
  if str = [] then [] else insertLoop distance str.length distance str

/-- `Base64::base64_encode_pem`. -/
def base64EncodePem (s : List UInt8) : Option (List UInt8) :=
  (base64Encode s false).map (insertLinebreaks · 64)

/-- `Base64::base64_encode_mime`. -/
def base64EncodeMime (s : List UInt8) : Option (List UInt8) :=
  (base64Encode s false).map (insertLinebreaks · 76)

/-- The loop of `decode`, a chunk a round. At the end of the string a byte that is read is the
terminating zero. -/
def decodeLoop : List UInt8 → Option (List UInt8)
  | [] => some []
  | [c0] => do
    let p1 ← posOfChar 0
    let p0 ← posOfChar c0
    some [.ofNat ((p0 <<< 2) + ((p1 &&& 0x30) >>> 4))]
  | [c0, c1] => do
    let p1 ← posOfChar c1
    let p0 ← posOfChar c0
    some [.ofNat ((p0 <<< 2) + ((p1 &&& 0x30) >>> 4))]
  | [c0, c1, c2] => do
    let p1 ← posOfChar c1
    let p0 ← posOfChar c0
    let first : UInt8 := .ofNat ((p0 <<< 2) + ((p1 &&& 0x30) >>> 4))
    if c2 ≠ 61 ∧ c2 ≠ 46 then
      let p2 ← posOfChar c2
      some [first, .ofNat (((p1 &&& 0x0f) <<< 4) + ((p2 &&& 0x3c) >>> 2))]
    else some [first]
  | c0 :: c1 :: c2 :: c3 :: rest => do
    let p1 ← posOfChar c1
    let p0 ← posOfChar c0
    let first : UInt8 := .ofNat ((p0 <<< 2) + ((p1 &&& 0x30) >>> 4))
    let chunk ←
      if c2 ≠ 61 ∧ c2 ≠ 46 then do
        let p2 ← posOfChar c2
        let second : UInt8 := .ofNat (((p1 &&& 0x0f) <<< 4) + ((p2 &&& 0x3c) >>> 2))
        if c3 ≠ 61 ∧ c3 ≠ 46 then do
          let p3 ← posOfChar c3
          some [first, second, .ofNat (((p2 &&& 0x03) <<< 6) + p3)]
        else some [first, second]
      else some [first]
    return chunk ++ (← decodeLoop rest)

/-- `Base64::base64_decode`; `none` is the exception. -/
def base64Decode (s : List UInt8) (removeLinebreaks : Bool) : Option (List UInt8) :=
  decodeLoop (if removeLinebreaks then s.filter (· ≠ 10) else s)

/-! ### Characters -/

variable {url : Bool}

/-- The reader knows the characters of both alphabets, and none of them is padding or a line
break. -/
theorem posOfChar_charAt (url : Bool) : ∀ i < 64, posOfChar (charAt url i) = some i ∧
    charAt url i ≠ 61 ∧ charAt url i ≠ 46 ∧ charAt url i ≠ 10 := by
  revert url
  decide +kernel

theorem trailingChar_eq (url : Bool) : trailingChar url = 61 ∨ trailingChar url = 46 := by
  cases url
  · exact Or.inl rfl
  · exact Or.inr rfl

/-- The `k` bits that begin with the highest, brought down. -/
theorem bits_down (k j : ℕ) {a : ℕ} (h : a < 2 ^ (k + j)) :
    (a &&& (2 ^ k - 1) <<< j) >>> j = a / 2 ^ j := by
  rw [Nat.shiftRight_and_distrib, Nat.shiftLeft_shiftRight, Nat.and_two_pow_sub_one_eq_mod,
    Nat.shiftRight_eq_div_pow]
  exact Nat.mod_eq_of_lt (Nat.div_lt_of_lt_mul (by rwa [← Nat.pow_add, Nat.add_comm]))

/-- The `k` lowest bits, brought up. -/
theorem bits_up (k i a : ℕ) : (a &&& 2 ^ k - 1) <<< i = a % 2 ^ k * 2 ^ i := by
  rw [Nat.and_two_pow_sub_one_eq_mod, Nat.shiftLeft_eq]

theorem bits_fc : ∀ a < 256, (a &&& 0xfc) >>> 2 = a / 4 := fun _ h => bits_down 6 2 h

theorem bits_03 : ∀ a < 256, (a &&& 0x03) <<< 4 = a % 4 * 16 := fun a _ => bits_up 2 4 a

theorem bits_f0 : ∀ a < 256, (a &&& 0xf0) >>> 4 = a / 16 := fun _ h => bits_down 4 4 h

theorem bits_0f : ∀ a < 256, (a &&& 0x0f) <<< 2 = a % 16 * 4 := fun a _ => bits_up 4 2 a

theorem bits_c0 : ∀ a < 256, (a &&& 0xc0) >>> 6 = a / 64 := fun _ h => bits_down 2 6 h

theorem bits_3f : ∀ a < 256, a &&& 0x3f = a % 64 := fun a _ => Nat.and_two_pow_sub_one_eq_mod a 6

/-- The parts of a position. -/
theorem pos_bits : ∀ p < 64, p <<< 2 = p * 4 ∧ (p &&& 0x30) >>> 4 = p / 16 ∧
    (p &&& 0x0f) <<< 4 = p % 16 * 16 ∧ (p &&& 0x3c) >>> 2 = p / 4 ∧
    (p &&& 0x03) <<< 6 = p % 4 * 64 :=
  fun p h => ⟨Nat.shiftLeft_eq p 2, bits_down 2 4 h, bits_up 4 4 p, bits_down 4 2 h, bits_up 2 6 p⟩

theorem ofNat_toNat_eq {a : UInt8} {n : ℕ} (h : n = a.toNat) : UInt8.ofNat n = a := by
  rw [h, UInt8.ofNat_toNat]

/-! ### Groups -/

/-- The encoding by groups of three bytes. -/
def encodeGroups (url : Bool) : List UInt8 → List UInt8
  | [] => []
  | [a] => [charAt url (a.toNat / 4), charAt url (a.toNat % 4 * 16), trailingChar url,
      trailingChar url]
  | [a, b] => [charAt url (a.toNat / 4), charAt url (a.toNat % 4 * 16 + b.toNat / 16),
      charAt url (b.toNat % 16 * 4), trailingChar url]
  | a :: b :: c :: rest =>
    charAt url (a.toNat / 4) :: charAt url (a.toNat % 4 * 16 + b.toNat / 16) ::
      charAt url (b.toNat % 16 * 4 + c.toNat / 64) :: charAt url (c.toNat % 64) ::
        encodeGroups url rest

theorem getD_at (pre s : List UInt8) (i : ℕ) : (pre ++ s).getD (pre.length + i) 0 = s.getD i 0 := by
  rw [List.getD_append_right _ _ _ _ (Nat.le_add_right _ _), Nat.add_sub_cancel_left]

/-- A round of the loop writes a group. -/
theorem encodeAt_eq (pre s : List UInt8) (hs : s ≠ []) (hlen : (pre ++ s).length < 2 ^ 32) :
    encodeAt url (pre ++ s) pre.length = encodeGroups url (s.take 3) := by
  rw [List.length_append] at hlen
  have hbyte : ∀ i < s.length, ((pre ++ s).getD ((pre.length + i) % 2 ^ 32) 0) = s.getD i 0 := by
    intro i hi
    rw [Nat.mod_eq_of_lt (by omega), getD_at]
  have hmore : ∀ i ≤ s.length, (pre.length + i) % 2 ^ 32 < (pre ++ s).length ↔ i < s.length := by
    intro i hi
    rw [Nat.mod_eq_of_lt (by omega), List.length_append]
    omega
  have h256 : ∀ a : UInt8, a.toNat < 256 := fun a => a.toNat_lt
  match s, hs with
  | [a], _ =>
    have h0 := hbyte 0 (Nat.lt_succ_self 0)
    rw [encodeAt, if_neg fun h => Nat.lt_irrefl 1 ((hmore 1 (Nat.le_refl 1)).mp h)]
    simp only [h0, List.getD_cons_zero, bits_fc _ (h256 a), bits_03 _ (h256 a)]
    rfl
  | [a, b], _ =>
    have h0 := hbyte 0 (Nat.zero_lt_succ 1)
    have h1 := hbyte 1 (Nat.lt_succ_self 1)
    rw [encodeAt, if_pos ((hmore 1 (Nat.le_succ 1)).mpr (Nat.lt_succ_self 1)),
      if_neg fun h => Nat.lt_irrefl 2 ((hmore 2 (Nat.le_refl 2)).mp h)]
    simp only [h0, h1, List.getD_cons_zero, List.getD_cons_succ, bits_fc _ (h256 a),
      bits_03 _ (h256 a), bits_f0 _ (h256 b), bits_0f _ (h256 b)]
    rfl
  | a :: b :: c :: rest, _ =>
    have h0 := hbyte 0 (Nat.zero_lt_succ _)
    have h1 := hbyte 1 (Nat.succ_lt_succ (Nat.zero_lt_succ _))
    have h2 := hbyte 2 (Nat.succ_lt_succ (Nat.succ_lt_succ (Nat.zero_lt_succ _)))
    have hthree : 3 ≤ (a :: b :: c :: rest).length := Nat.le_add_left 3 rest.length
    rw [encodeAt, if_pos ((hmore 1 (by omega)).mpr (by omega)),
      if_pos ((hmore 2 (by omega)).mpr (by omega))]
    simp only [h0, h1, h2, List.getD_cons_zero, List.getD_cons_succ, bits_fc _ (h256 a),
      bits_03 _ (h256 a), bits_f0 _ (h256 b), bits_0f _ (h256 b), bits_c0 _ (h256 c),
      bits_3f _ (h256 c)]
    rfl

theorem encodeGroups_take_drop (s : List UInt8) :
    encodeGroups url (s.take 3) ++ encodeGroups url (s.drop 3) = encodeGroups url s := by
  match s with
  | [] | [_] | [_, _] => exact List.append_nil _
  | a :: b :: c :: rest => rfl

/-- **The loop of `base64_encode`** writes the groups that remain. -/
theorem encodeLoop_spec : ∀ rounds (pre s ret : List UInt8), 3 ∣ pre.length →
    (pre ++ s).length < 2 ^ 32 → (s.length + 2) / 3 < rounds →
    encodeLoop url (pre ++ s) rounds pre.length ret = some (ret ++ encodeGroups url s) := by
  intro rounds
  induction rounds with
  | zero => exact fun _ _ _ _ _ h => absurd h (Nat.not_lt_zero _)
  | succ rounds ih =>
    intro pre s ret hdvd hlen hr
    have hlen' := hlen
    rw [List.length_append] at hlen'
    rw [encodeLoop]
    rcases eq_or_ne s [] with rfl | hs
    · rw [if_neg (by rw [List.append_nil]; exact Nat.lt_irrefl _), encodeGroups, List.append_nil]
    · have hpos : 0 < s.length := List.length_pos_iff.mpr hs
      have hnext : (pre.length + 3) % 2 ^ 32 = pre.length + 3 := Nat.mod_eq_of_lt (by omega)
      rw [if_pos (by rw [List.length_append]; omega), encodeAt_eq pre s hs hlen, hnext]
      by_cases hthree : 3 ≤ s.length
      · -- a full group
        have hpre : pre.length + 3 = (pre ++ s.take 3).length := by
          rw [List.length_append, List.length_take, Nat.min_eq_left hthree]
        have hsplit : pre ++ s = pre ++ s.take 3 ++ s.drop 3 := by
          rw [List.append_assoc, List.take_append_drop]
        have hdrop : (s.drop 3).length = s.length - 3 := List.length_drop
        rw [hpre, hsplit]
        rw [ih (pre ++ s.take 3) (s.drop 3) _ (by omega) (hsplit ▸ hlen) (by omega),
          List.append_assoc, encodeGroups_take_drop]
      · -- the last one
        rw [List.take_of_length_le (by omega)]
        obtain ⟨r, rfl⟩ : ∃ r, rounds = r + 1 := ⟨rounds - 1, by omega⟩
        rw [encodeLoop, if_neg (by rw [List.length_append]; omega)]

/-- **`base64_encode`** writes the groups, if the bytes can be counted in 32 bits. -/
theorem base64Encode_eq {s : List UInt8} (h : s.length < 2 ^ 32) :
    base64Encode s url = some (encodeGroups url s) :=
  encodeLoop_spec ((s.length + 2) / 3 + 1) [] s [] (Nat.dvd_zero 3) h (Nat.lt_succ_self _)

/-! ### The round trip -/

section

variable {c0 c1 c2 c3 : UInt8} {p0 p1 p2 p3 : ℕ} {rest : List UInt8}

/-- A chunk that is padded with two characters. -/
theorem decodeLoop_one (h0 : posOfChar c0 = some p0) (h1 : posOfChar c1 = some p1) (hp0 : p0 < 64)
    (hp1 : p1 < 64) (h2 : c2 = 61 ∨ c2 = 46) :
    decodeLoop (c0 :: c1 :: c2 :: c3 :: rest) =
      (decodeLoop rest).map (.ofNat (p0 * 4 + p1 / 16) :: ·) := by
  have hpad : ¬ (c2 ≠ 61 ∧ c2 ≠ 46) := fun h => h2.elim h.1 h.2
  rw [decodeLoop, h1, h0]
  simp only [Option.bind_eq_bind, Option.bind_some, if_neg hpad, (pos_bits p0 hp0).1,
    (pos_bits p1 hp1).2.1]
  cases decodeLoop rest <;> rfl

/-- A chunk that is padded with one character. -/
theorem decodeLoop_two (h0 : posOfChar c0 = some p0) (h1 : posOfChar c1 = some p1)
    (h2 : posOfChar c2 = some p2) (hp0 : p0 < 64) (hp1 : p1 < 64) (hp2 : p2 < 64)
    (hc2 : c2 ≠ 61 ∧ c2 ≠ 46) (h3 : c3 = 61 ∨ c3 = 46) :
    decodeLoop (c0 :: c1 :: c2 :: c3 :: rest) =
      (decodeLoop rest).map
        ([.ofNat (p0 * 4 + p1 / 16), .ofNat (p1 % 16 * 16 + p2 / 4)] ++ ·) := by
  have hpad : ¬ (c3 ≠ 61 ∧ c3 ≠ 46) := fun h => h3.elim h.1 h.2
  rw [decodeLoop, h1, h0, h2]
  simp only [Option.bind_eq_bind, Option.bind_some, if_pos hc2, if_neg hpad, (pos_bits p0 hp0).1,
    (pos_bits p1 hp1).2.1, (pos_bits p1 hp1).2.2.1, (pos_bits p2 hp2).2.2.2.1]
  cases decodeLoop rest <;> rfl

/-- A full chunk. -/
theorem decodeLoop_three (h0 : posOfChar c0 = some p0) (h1 : posOfChar c1 = some p1)
    (h2 : posOfChar c2 = some p2) (h3 : posOfChar c3 = some p3) (hp0 : p0 < 64) (hp1 : p1 < 64)
    (hp2 : p2 < 64) (hc2 : c2 ≠ 61 ∧ c2 ≠ 46) (hc3 : c3 ≠ 61 ∧ c3 ≠ 46) :
    decodeLoop (c0 :: c1 :: c2 :: c3 :: rest) =
      (decodeLoop rest).map ([.ofNat (p0 * 4 + p1 / 16), .ofNat (p1 % 16 * 16 + p2 / 4),
        .ofNat (p2 % 4 * 64 + p3)] ++ ·) := by
  rw [decodeLoop, h1, h0, h2, h3]
  simp only [Option.bind_eq_bind, Option.bind_some, if_pos hc2, if_pos hc3, (pos_bits p0 hp0).1,
    (pos_bits p1 hp1).2.1, (pos_bits p1 hp1).2.2.1, (pos_bits p2 hp2).2.2.2.1,
    (pos_bits p2 hp2).2.2.2.2]
  cases decodeLoop rest <;> rfl

end

/-- **Groups are read back**, whatever follows them. -/
theorem decodeLoop_encodeGroups (url : Bool) (s rest : List UInt8) :
    decodeLoop (encodeGroups url s ++ rest) = (decodeLoop rest).map (s ++ ·) := by
  have h256 : ∀ a : UInt8, a.toNat < 256 := fun a => a.toNat_lt
  have hchar : ∀ i < 64, posOfChar (charAt url i) = some i := fun i hi =>
    (posOfChar_charAt url i hi).1
  have hnot : ∀ i < 64, charAt url i ≠ 61 ∧ charAt url i ≠ 46 := fun i hi =>
    ⟨(posOfChar_charAt url i hi).2.1, (posOfChar_charAt url i hi).2.2.1⟩
  induction s using encodeGroups.induct with
  | case1 =>
    rw [encodeGroups, List.nil_append]
    cases decodeLoop rest <;> rfl
  | case2 a =>
    have ha := h256 a
    have h0 : a.toNat / 4 < 64 := by omega
    have h1 : a.toNat % 4 * 16 < 64 := by omega
    have hfirst : UInt8.ofNat (a.toNat / 4 * 4 + a.toNat % 4 * 16 / 16) = a :=
      ofNat_toNat_eq (by omega)
    refine (decodeLoop_one (hchar _ h0) (hchar _ h1) h0 h1 (trailingChar_eq url)).trans ?_
    rw [hfirst]
    rfl
  | case3 a b =>
    have ha := h256 a
    have hb := h256 b
    have h0 : a.toNat / 4 < 64 := by omega
    have h1 : a.toNat % 4 * 16 + b.toNat / 16 < 64 := by omega
    have h2 : b.toNat % 16 * 4 < 64 := by omega
    have hfirst : UInt8.ofNat (a.toNat / 4 * 4 + (a.toNat % 4 * 16 + b.toNat / 16) / 16) = a :=
      ofNat_toNat_eq (by omega)
    have hsecond : UInt8.ofNat ((a.toNat % 4 * 16 + b.toNat / 16) % 16 * 16 +
        b.toNat % 16 * 4 / 4) = b := ofNat_toNat_eq (by omega)
    refine (decodeLoop_two (hchar _ h0) (hchar _ h1) (hchar _ h2) h0 h1 h2 (hnot _ h2)
      (trailingChar_eq url)).trans ?_
    rw [hfirst, hsecond]
    rfl
  | case4 a b c s ih =>
    have ha := h256 a
    have hb := h256 b
    have hc := h256 c
    have h0 : a.toNat / 4 < 64 := by omega
    have h1 : a.toNat % 4 * 16 + b.toNat / 16 < 64 := by omega
    have h2 : b.toNat % 16 * 4 + c.toNat / 64 < 64 := by omega
    have h3 : c.toNat % 64 < 64 := by omega
    have hfirst : UInt8.ofNat (a.toNat / 4 * 4 + (a.toNat % 4 * 16 + b.toNat / 16) / 16) = a :=
      ofNat_toNat_eq (by omega)
    have hsecond : UInt8.ofNat ((a.toNat % 4 * 16 + b.toNat / 16) % 16 * 16 +
        (b.toNat % 16 * 4 + c.toNat / 64) / 4) = b := ofNat_toNat_eq (by omega)
    have hthird : UInt8.ofNat ((b.toNat % 16 * 4 + c.toNat / 64) % 4 * 64 + c.toNat % 64) = c :=
      ofNat_toNat_eq (by omega)
    refine (decodeLoop_three (hchar _ h0) (hchar _ h1) (hchar _ h2) (hchar _ h3) h0 h1 h2
      (hnot _ h2) (hnot _ h3)).trans ?_
    show (decodeLoop (encodeGroups url s ++ rest)).map _ = _
    rw [hfirst, hsecond, hthird, ih, Option.map_map]
    rfl

theorem length_encodeGroups (url : Bool) (s : List UInt8) :
    (encodeGroups url s).length = (s.length + 2) / 3 * 4 := by
  induction s using encodeGroups.induct with
  | case1 => rfl
  | case2 a => simp [encodeGroups]
  | case3 a b => simp [encodeGroups]
  | case4 a b c s ih =>
    show (encodeGroups url s).length + 4 = (s.length + 3 + 2) / 3 * 4
    omega

theorem mapM_base64Encode {pieces : List (List UInt8 × Bool)}
    (h : ∀ p ∈ pieces, p.1.length < 2 ^ 32) :
    pieces.mapM (fun p => base64Encode p.1 p.2) =
      some (pieces.map fun p => encodeGroups p.2 p.1) := by
  induction pieces with
  | nil => rfl
  | cons p pieces ih =>
    rw [List.mapM_cons, base64Encode_eq (h p List.mem_cons_self),
      ih fun q hq => h q (List.mem_cons_of_mem p hq)]
    rfl

/-- **The round trip**: byte strings are encoded to four characters for every three bytes begun,
and several encodings, each with its alphabet, are read in one. -/
theorem base64Decode_base64Encode (pieces : List (List UInt8 × Bool))
    (h : ∀ p ∈ pieces, p.1.length < 2 ^ 32) :
    ∃ codes, pieces.mapM (fun p => base64Encode p.1 p.2) = some codes ∧
      codes.map List.length = pieces.map (fun p => (p.1.length + 2) / 3 * 4) ∧
      base64Decode codes.flatten false = some (pieces.map Prod.fst).flatten := by
  refine ⟨_, mapM_base64Encode h, ?_, ?_⟩
  · rw [List.map_map]
    exact List.map_congr_left fun p _ => length_encodeGroups p.2 p.1
  · rw [base64Decode, if_neg Bool.false_ne_true]
    clear h
    induction pieces with
    | nil => rfl
    | cons p pieces ih =>
      rw [List.map_cons, List.flatten_cons, decodeLoop_encodeGroups, ih]
      rfl

/-- Two strings, in two alphabets. -/
theorem base64Decode_base64Encode_two :
    ∃ codes, [([1, 2, 255, 254], true), ([3], false)].mapM
      (fun p => base64Encode p.1 p.2) = some codes ∧
      codes.map List.length = [8, 4] ∧
      base64Decode codes.flatten false = some [1, 2, 255, 254, 3] :=
  base64Decode_base64Encode [([1, 2, 255, 254], true), ([3], false)] (by decide)

/-! ### Line breaks -/

/-- **A text in lines**: all lines have as many characters as the distance says, but the last,
which may have fewer and is not empty unless there is nothing to write. -/
inductive InLines (distance : ℕ) : List UInt8 → List UInt8 → Prop
  | last {str} : str.length ≤ distance → InLines distance str str
  | line {line str text} : line.length = distance → str ≠ [] → InLines distance str text →
      InLines distance (line ++ str) (line ++ 10 :: text)

variable {distance : ℕ} {str text : List UInt8}

/-- Without the line breaks it is the string. -/
theorem InLines.filter (h : InLines distance str text) (hstr : ∀ c ∈ str, c ≠ 10) :
    text.filter (· ≠ 10) = str := by
  induction h with
  | last => exact List.filter_eq_self.mpr fun c hc => decide_eq_true (hstr c hc)
  | @line line str text _ _ _ ih =>
    have hline : line.filter (· ≠ 10) = line :=
      List.filter_eq_self.mpr fun c hc => decide_eq_true (hstr c (List.mem_append_left str hc))
    rw [List.filter_append, hline, List.filter_cons_of_neg (by decide),
      ih fun c hc => hstr c (List.mem_append_right line hc)]

/-- The loop breaks what comes after the last line break. -/
theorem insertLoop_spec (hd : 0 < distance) : ∀ rounds (pre str : List UInt8), str.length ≤ rounds →
    ∃ text, insertLoop distance rounds (pre.length + distance) (pre ++ str) = pre ++ text ∧
      InLines distance str text := by
  intro rounds
  induction rounds with
  | zero =>
    intro pre str hr
    exact ⟨str, rfl, .last (hr.trans (Nat.zero_le _))⟩
  | succ rounds ih =>
    intro pre str hr
    rw [insertLoop]
    by_cases hlt : distance < str.length
    · -- a line break after the line
      let line := str.take distance
      have hline : line.length = distance := List.length_take_of_le hlt.le
      have hrest : str.drop distance ≠ [] := fun h => by
        have := List.drop_eq_nil_iff.mp h
        omega
      have hpos : (pre ++ line ++ [10]).length = pre.length + distance + 1 := by
        rw [List.length_append, List.length_append, hline, List.length_singleton]
      have htake : (pre ++ str).take (pre.length + distance) = pre ++ line :=
        List.take_length_add_append _
      have hdrop : (pre ++ str).drop (pre.length + distance) = str.drop distance :=
        List.drop_length_add_append _
      obtain ⟨text, htext, hin⟩ := ih (pre ++ line ++ [10]) (str.drop distance) (by
        rw [List.length_drop]
        omega)
      have hnext : pre.length + distance + (distance + 1) =
          (pre ++ line ++ [10]).length + distance := by
        omega
      have hstr : pre ++ line ++ 10 :: str.drop distance =
          pre ++ line ++ [10] ++ str.drop distance := List.append_cons _ _ _
      refine ⟨line ++ 10 :: text, ?_, ?_⟩
      · rw [if_pos (by rw [List.length_append]; omega), htake, hdrop, hnext, hstr, htext]
        simp only [List.append_assoc, List.cons_append, List.nil_append]
      · rw [← List.take_append_drop distance str]
        exact .line hline hrest hin
    · rw [if_neg (by rw [List.length_append]; omega)]
      exact ⟨str, rfl, .last (Nat.not_lt.mp hlt)⟩

/-- **`insert_linebreaks`** breaks a string into lines. -/
theorem insertLinebreaks_spec (distance : ℕ) (hd : 0 < distance) (str : List UInt8) :
    InLines distance str (insertLinebreaks str distance) := by
  rw [insertLinebreaks]
  split
  · rename_i h
    rw [h]
    exact .last (Nat.zero_le _)
  · obtain ⟨text, htext, hin⟩ := insertLoop_spec hd str.length [] str (Nat.le_refl _)
    rw [List.length_nil, Nat.zero_add, List.nil_append, List.nil_append] at htext
    exact htext ▸ hin

/-- The characters of an encoding are no line breaks. -/
theorem ne_break_of_mem (url : Bool) (s : List UInt8) : ∀ c ∈ encodeGroups url s, c ≠ 10 := by
  have h256 : ∀ a : UInt8, a.toNat < 256 := fun a => a.toNat_lt
  have hchar : ∀ i < 64, charAt url i ≠ 10 := fun i hi => (posOfChar_charAt url i hi).2.2.2
  have htrail : trailingChar url ≠ 10 := by cases url <;> decide
  intro c hc
  induction s using encodeGroups.induct with
  | case1 => cases hc
  | case2 a =>
    have ha := h256 a
    simp only [encodeGroups, List.mem_cons, List.not_mem_nil, or_false] at hc
    rcases hc with rfl | rfl | rfl | rfl
    · exact hchar _ (by omega)
    · exact hchar _ (by omega)
    · exact htrail
    · exact htrail
  | case3 a b =>
    have ha := h256 a
    have hb := h256 b
    simp only [encodeGroups, List.mem_cons, List.not_mem_nil, or_false] at hc
    rcases hc with rfl | rfl | rfl | rfl
    · exact hchar _ (by omega)
    · exact hchar _ (by omega)
    · exact hchar _ (by omega)
    · exact htrail
  | case4 a b d s ih =>
    have ha := h256 a
    have hb := h256 b
    have hd := h256 d
    simp only [encodeGroups, List.mem_cons] at hc
    rcases hc with rfl | rfl | rfl | rfl | hc
    · exact hchar _ (by omega)
    · exact hchar _ (by omega)
    · exact hchar _ (by omega)
    · exact hchar _ (by omega)
    · exact ih hc

/-- **The round trip in lines**: `base64_encode_pem` writes lines of 64 characters and
`base64_encode_mime` lines of 76, and without the line breaks both are read back. -/
theorem base64Decode_lines (s : List UInt8) (h : s.length < 2 ^ 32) :
    ∃ code pem mime, base64Encode s false = some code ∧
      base64EncodePem s = some pem ∧ InLines 64 code pem ∧ base64Decode pem true = some s ∧
      base64EncodeMime s = some mime ∧ InLines 76 code mime ∧ base64Decode mime true = some s := by
  have henc : base64Encode s false = some (encodeGroups false s) := base64Encode_eq h
  have hread : ∀ text, (text.filter (· ≠ 10)) = encodeGroups false s →
      base64Decode text true = some s := by
    intro text htext
    rw [base64Decode, if_pos rfl, htext, ← List.append_nil (encodeGroups false s),
      decodeLoop_encodeGroups]
    show some (s ++ []) = _
    rw [List.append_nil]
  have hpem := insertLinebreaks_spec 64 (by decide) (encodeGroups false s)
  have hmime := insertLinebreaks_spec 76 (by decide) (encodeGroups false s)
  have hne := ne_break_of_mem false s
  refine ⟨_, _, _, henc, ?_, hpem, hread _ (hpem.filter hne), ?_, hmime, hread _ (hmime.filter hne)⟩
  · rw [base64EncodePem, henc]
    rfl
  · rw [base64EncodeMime, henc]
    rfl

/-- Fifty bytes. -/
theorem base64Decode_lines_fifty :
    ∃ code pem mime, base64Encode (List.replicate 50 7) false = some code ∧
      base64EncodePem (List.replicate 50 7) = some pem ∧ InLines 64 code pem ∧
      base64Decode pem true = some (List.replicate 50 7) ∧
      base64EncodeMime (List.replicate 50 7) = some mime ∧ InLines 76 code mime ∧
      base64Decode mime true = some (List.replicate 50 7) :=
  base64Decode_lines (List.replicate 50 7) (by decide)

/-! ### What is rejected -/

/-- A padding character. -/
def Pad (c : UInt8) : Prop := c = 61 ∨ c = 46

/-- **The character at the position is read and unknown.** The third and fourth characters of a
chunk are not read when they are padding, and the fourth is not read when the third is. -/
def Unreadable (s : List UInt8) (i : ℕ) : Prop :=
  ∃ c, s[i]? = some c ∧ posOfChar c = none ∧
    (i % 4 < 2 ∨ (i % 4 = 2 ∧ ¬ Pad c) ∨ (i % 4 = 3 ∧ ¬ Pad c ∧ ∀ d, s[i - 1]? = some d → ¬ Pad d))

theorem unreadable_add_four {c0 c1 c2 c3 : UInt8} {rest : List UInt8} {i : ℕ} :
    Unreadable (c0 :: c1 :: c2 :: c3 :: rest) (i + 4) ↔ Unreadable rest i := by
  have hmod : (i + 4) % 4 = i % 4 := Nat.add_mod_right i 4
  have hpred : i % 4 = 3 → (c0 :: c1 :: c2 :: c3 :: rest)[i + 4 - 1]? = rest[i - 1]? := by
    intro h
    obtain ⟨j, rfl⟩ : ∃ j, i = j + 1 := ⟨i - 1, by omega⟩
    rfl
  constructor
  · rintro ⟨c, hc, hp, h⟩
    refine ⟨c, hc, hp, ?_⟩
    rw [hmod] at h
    rcases h with h | h | ⟨h, hc', hd⟩
    · exact Or.inl h
    · exact Or.inr (Or.inl h)
    · exact Or.inr (Or.inr ⟨h, hc', hpred h ▸ hd⟩)
  · rintro ⟨c, hc, hp, h⟩
    refine ⟨c, hc, hp, ?_⟩
    rw [hmod]
    rcases h with h | h | ⟨h, hc', hd⟩
    · exact Or.inl h
    · exact Or.inr (Or.inl h)
    · exact Or.inr (Or.inr ⟨h, hc', (hpred h).symm ▸ hd⟩)

/-- The first chunk. -/
theorem exists_unreadable_iff {c0 c1 c2 c3 : UInt8} {rest : List UInt8} :
    (∃ i, Unreadable (c0 :: c1 :: c2 :: c3 :: rest) i) ↔
      (posOfChar c0 = none ∨ posOfChar c1 = none ∨ ¬ Pad c2 ∧
        (posOfChar c2 = none ∨ ¬ Pad c3 ∧ posOfChar c3 = none)) ∨ ∃ i, Unreadable rest i := by
  constructor
  · rintro ⟨i, hi⟩
    by_cases h4 : 4 ≤ i
    · obtain ⟨j, rfl⟩ : ∃ j, i = j + 4 := ⟨i - 4, by omega⟩
      exact Or.inr ⟨j, unreadable_add_four.mp hi⟩
    · obtain ⟨c, hc, hp, h⟩ := hi
      left
      have hcases : i = 0 ∨ i = 1 ∨ i = 2 ∨ i = 3 := by omega
      rcases hcases with rfl | rfl | rfl | rfl
      · obtain rfl := Option.some.inj hc
        exact Or.inl hp
      · obtain rfl := Option.some.inj hc
        exact Or.inr (Or.inl hp)
      · obtain rfl := Option.some.inj hc
        rcases h with h | ⟨-, h⟩ | ⟨h, -⟩
        · exact absurd h (by decide)
        · exact Or.inr (Or.inr ⟨h, Or.inl hp⟩)
        · exact absurd h (by decide)
      · obtain rfl := Option.some.inj hc
        rcases h with h | ⟨h, -⟩ | ⟨-, h, hd⟩
        · exact absurd h (by decide)
        · exact absurd h (by decide)
        · exact Or.inr (Or.inr ⟨hd c2 rfl, Or.inr ⟨h, hp⟩⟩)
  · rintro ((h | h | ⟨hpad, h | ⟨hpad', h⟩⟩) | ⟨i, hi⟩)
    · exact ⟨0, c0, rfl, h, Or.inl (by decide)⟩
    · exact ⟨1, c1, rfl, h, Or.inl (by decide)⟩
    · exact ⟨2, c2, rfl, h, Or.inr (Or.inl ⟨by decide, hpad⟩)⟩
    · refine ⟨3, c3, rfl, h, Or.inr (Or.inr ⟨by decide, hpad', fun d hd => ?_⟩)⟩
      obtain rfl := Option.some.inj hd
      exact hpad
    · exact ⟨i + 4, unreadable_add_four.mpr hi⟩

theorem decodeLoop_eq_none_iff {c0 c1 c2 c3 : UInt8} {rest : List UInt8} :
    decodeLoop (c0 :: c1 :: c2 :: c3 :: rest) = none ↔
      (posOfChar c0 = none ∨ posOfChar c1 = none ∨ ¬ Pad c2 ∧
        (posOfChar c2 = none ∨ ¬ Pad c3 ∧ posOfChar c3 = none)) ∨ decodeLoop rest = none := by
  have hpad : ∀ {c : UInt8}, (c ≠ 61 ∧ c ≠ 46) ↔ ¬ Pad c := not_or.symm
  have hrest : ∀ chunk : List UInt8,
      (some chunk >>= fun chunk => do return chunk ++ (← decodeLoop rest)) = none ↔
        decodeLoop rest = none := by
    intro chunk
    cases decodeLoop rest with
    | none => exact iff_of_true rfl rfl
    | some s => exact iff_of_false (Option.some_ne_none _) (Option.some_ne_none _)
  rw [decodeLoop]
  cases h1 : posOfChar c1 with
  | none => exact iff_of_true rfl (Or.inl (Or.inr (Or.inl rfl)))
  | some p1 =>
    cases h0 : posOfChar c0 with
    | none => exact iff_of_true rfl (Or.inl (Or.inl rfl))
    | some p0 =>
      have hsome : ∀ {p : ℕ}, ¬ (some p = none) := fun h => Option.some_ne_none _ h
      by_cases hc2 : c2 ≠ 61 ∧ c2 ≠ 46
      · cases h2 : posOfChar c2 with
        | none =>
          simp only [if_pos hc2]
          exact iff_of_true rfl (Or.inl (Or.inr (Or.inr ⟨hpad.mp hc2, Or.inl trivial⟩)))
        | some p2 =>
          by_cases hc3 : c3 ≠ 61 ∧ c3 ≠ 46
          · cases h3 : posOfChar c3 with
            | none =>
              simp only [if_pos hc2, if_pos hc3]
              exact iff_of_true rfl
                (Or.inl (Or.inr (Or.inr ⟨hpad.mp hc2, Or.inr ⟨hpad.mp hc3, trivial⟩⟩)))
            | some p3 =>
              simp only [if_pos hc2, if_pos hc3, hsome, false_or, and_false]
              exact hrest _
          · have hnot : Pad c3 := not_not.mp fun h => hc3 (hpad.mpr h)
            simp only [if_pos hc2, if_neg hc3, hsome, false_or, hnot, not_true, false_and,
              and_false]
            exact hrest _
      · have hnot : Pad c2 := not_not.mp fun h => hc2 (hpad.mpr h)
        simp only [if_neg hc2, hsome, false_or, hnot, not_true, false_and]
        exact hrest _

/-- Padding that is left out might as well be there. -/
theorem decodeLoop_pad_two (c0 c1 : UInt8) : decodeLoop [c0, c1] = decodeLoop [c0, c1, 61, 61] := by
  rw [decodeLoop, decodeLoop]
  cases posOfChar c1 <;> cases posOfChar c0 <;> rfl

theorem decodeLoop_pad_one (c0 c1 c2 : UInt8) :
    decodeLoop [c0, c1, c2] = decodeLoop [c0, c1, c2, 61] := by
  rw [decodeLoop, decodeLoop]
  by_cases hc2 : c2 ≠ 61 ∧ c2 ≠ 46
  · simp only [if_pos hc2]
    cases posOfChar c1 <;> cases posOfChar c0 <;> cases posOfChar c2 <;> rfl
  · simp only [if_neg hc2]
    cases posOfChar c1 <;> cases posOfChar c0 <;> rfl

theorem not_unreadable_nil {i : ℕ} : ¬ Unreadable [] i := by
  rintro ⟨c, hc, -⟩
  cases hc

theorem unreadable_append_pad {s : List UInt8} (h : 2 ≤ s.length % 4) {i : ℕ} :
    Unreadable (s ++ [61]) i ↔ Unreadable s i := by
  have hsame : ∀ j < s.length, (s ++ [61])[j]? = s[j]? := fun j hj => List.getElem?_append_left hj
  rcases lt_trichotomy i s.length with hi | rfl | hi
  · have hpred : i % 4 = 3 → (s ++ [61])[i - 1]? = s[i - 1]? := fun _ => hsame (i - 1) (by omega)
    constructor
    · rintro ⟨c, hc, hp, h | h | ⟨h, hc', hd⟩⟩
      · exact ⟨c, hsame i hi ▸ hc, hp, Or.inl h⟩
      · exact ⟨c, hsame i hi ▸ hc, hp, Or.inr (Or.inl h)⟩
      · exact ⟨c, hsame i hi ▸ hc, hp, Or.inr (Or.inr ⟨h, hc', hpred h ▸ hd⟩)⟩
    · rintro ⟨c, hc, hp, h | h | ⟨h, hc', hd⟩⟩
      · exact ⟨c, (hsame i hi).trans hc, hp, Or.inl h⟩
      · exact ⟨c, (hsame i hi).trans hc, hp, Or.inr (Or.inl h)⟩
      · exact ⟨c, (hsame i hi).trans hc, hp, Or.inr (Or.inr ⟨h, hc', (hpred h).symm ▸ hd⟩)⟩
  · -- the padding itself is not read
    refine iff_of_false ?_ ?_
    · rintro ⟨c, hc, -, h⟩
      rw [List.getElem?_concat_length] at hc
      obtain rfl := Option.some.inj hc
      have hpad : Pad 61 := Or.inl rfl
      rcases h with h | ⟨-, h⟩ | ⟨-, h, -⟩
      · omega
      · exact h hpad
      · exact h hpad
    · rintro ⟨c, hc, -⟩
      rw [List.getElem?_eq_none (Nat.le_refl _)] at hc
      cases hc
  · have hlen : (s ++ [61]).length = s.length + 1 := List.length_append
    refine iff_of_false ?_ ?_
    · rintro ⟨c, hc, -⟩
      rw [List.getElem?_eq_none (by omega)] at hc
      cases hc
    · rintro ⟨c, hc, -⟩
      rw [List.getElem?_eq_none hi.le] at hc
      cases hc

/-- **The exception**: `base64_decode` throws exactly when a character that it reads is unknown,
or when the last chunk is a single character, where it reads the zero after the string. -/
theorem base64Decode_eq_none_iff (s : List UInt8) :
    base64Decode s false = none ↔ s.length % 4 = 1 ∨ ∃ i, Unreadable s i := by
  rw [base64Decode, if_neg Bool.false_ne_true]
  induction s using decodeLoop.induct with
  | case1 =>
    refine iff_of_false (Option.some_ne_none _) ?_
    rintro (h | ⟨i, hi⟩)
    · exact absurd h (by decide)
    · exact not_unreadable_nil hi
  | case2 c0 => exact iff_of_true rfl (Or.inl rfl)
  | case3 c0 c1 =>
    have hsame : ∀ i, Unreadable [c0, c1, 61, 61] i ↔ Unreadable [c0, c1] i := fun i =>
      (unreadable_append_pad (s := [c0, c1, 61]) (Nat.le_succ 2)).trans
        (unreadable_append_pad (s := [c0, c1]) (Nat.le_refl 2))
    have hlen : ¬ [c0, c1].length % 4 = 1 := fun h => absurd h (by decide : ¬ 2 % 4 = 1)
    have hnone : ¬ decodeLoop [] = none := Option.some_ne_none _
    rw [decodeLoop_pad_two, decodeLoop_eq_none_iff, ← exists_congr hsame, exists_unreadable_iff,
      or_iff_left hnone, or_iff_right hlen]
    exact (or_iff_left fun ⟨i, hi⟩ => not_unreadable_nil hi).symm
  | case4 c0 c1 c2 =>
    have hsame : ∀ i, Unreadable [c0, c1, c2, 61] i ↔ Unreadable [c0, c1, c2] i := fun i =>
      unreadable_append_pad (s := [c0, c1, c2]) (Nat.le_succ 2)
    have hlen : ¬ [c0, c1, c2].length % 4 = 1 := fun h => absurd h (by decide : ¬ 3 % 4 = 1)
    have hnone : ¬ decodeLoop [] = none := Option.some_ne_none _
    rw [decodeLoop_pad_one, decodeLoop_eq_none_iff, ← exists_congr hsame, exists_unreadable_iff,
      or_iff_left hnone, or_iff_right hlen]
    exact (or_iff_left fun ⟨i, hi⟩ => not_unreadable_nil hi).symm
  | case5 c0 c1 c2 c3 rest ih =>
    have hmod : (c0 :: c1 :: c2 :: c3 :: rest).length % 4 = rest.length % 4 :=
      Nat.add_mod_right rest.length 4
    have ih' : decodeLoop rest = none ↔ _ := ih
    rw [decodeLoop_eq_none_iff, ih', exists_unreadable_iff, hmod]
    exact or_left_comm

end Base64

end Asyncflow
