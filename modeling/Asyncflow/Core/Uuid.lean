import Asyncflow.Lib.Hex

/-!
# The uid of a chart

`Chart::Chart` takes its uid from `Manager::uuid4_str`, which draws 64-bit words from
`dist(rd)`. The random source is the stream of the words that are still to come, and a draw
takes the first one.

The second loop of the function does not write the word that has been masked for it: it draws a
new word for every digit. So the last sixteen digits come from sixteen words, none of which is
masked (`Asyncflow.Manager.toList_uuid4Str`).
-/

namespace Asyncflow

namespace Manager

/-- What reads words of the random source. -/
abbrev Draw (α : Type) := StateM (ℕ → UInt64) α

/-- `dist(rd)`. -/
def draw : Draw UInt64 := fun words => (words 0, fun i => words (i + 1))

/-- The version goes into the first word. -/
def maskVersion (w : UInt64) : UInt64 := (w &&& 0xFFFFFFFFFFFF0FFF) ||| 0x0000000000004000

/-- The variant goes into the second word. -/
def maskVariant (w : UInt64) : UInt64 := (w &&& 0x3FFFFFFFFFFFFFFF) ||| 0x8000000000000000

/-- `encode[w >> 4 * bit & 0x0f]`. -/
def encodeDigit (w bit : UInt64) : Char := Hex.digit (w >>> (4 * bit) &&& 0x0f).toNat

/-- A loop over the digits, with the rounds that are left: `word` is what is evaluated in each
of them. -/
def writeDigits (word : Draw UInt64) : ℕ → ℕ → UInt64 → List Char → Draw (List Char)
  | 0, _, _, uustr => pure uustr
  | k + 1, i, bit, uustr => do
    let w ← word
    writeDigits word k (i + 1) (bit - 1) (uustr.set i (encodeDigit w bit))

/-- `Manager::uuid4_str`. -/
def uuid4Str : Draw String := do
  let tmp := maskVersion (← draw)
  let uustr ← writeDigits (pure tmp) 16 0 15 (List.replicate 32 '0')
  -- The second word is masked and not used.
  let _tmp := maskVariant (← draw)
  let uustr ← writeDigits draw 16 16 15 uustr
  pure (String.ofList uustr)

/-! ### The loops -/

variable {word : Draw UInt64} {words : ℕ → UInt64} {w bit : UInt64} {k i j : ℕ}

/-- A shift and a mask take out a nibble. -/
theorem encodeDigit_eq (hbit : bit.toNat < 16) :
    encodeDigit w bit = Hex.digit (Hex.nibble w.toNat bit.toNat) := by
  have hshift : (4 * bit).toNat % 64 = 4 * bit.toNat := by
    have hfour : (4 : UInt64).toNat = 4 := rfl
    rw [UInt64.toNat_mul, hfour]
    omega
  rw [encodeDigit, UInt64.toNat_and, UInt64.toNat_shiftRight, hshift, Hex.nibble]
  rfl

/-- The word of a later round. -/
def later (word : Draw UInt64) (j : ℕ) (words : ℕ → UInt64) : UInt64 :=
  (word ((fun s => (word s).2)^[j] words)).1

/-- **What a loop writes**: a digit of the word of each round, the digits before and behind
stay. -/
theorem writeDigits_eq (k : ℕ) : ∀ (i : ℕ) (bit : UInt64) (uustr : List Char)
    (words : ℕ → UInt64), (k ≠ 0 → bit.toNat + 1 = k) → k ≤ 16 → i + k ≤ uustr.length →
    writeDigits word k i bit uustr words =
      (uustr.take i ++ (List.range k).map (fun j =>
        Hex.digit (Hex.nibble (later word j words).toNat (k - 1 - j))) ++ uustr.drop (i + k),
        (fun s => (word s).2)^[k] words) := by
  induction k with
  | zero =>
    intro i bit uustr words _ _ _
    rw [List.range_zero, List.map_nil, List.append_nil, Nat.add_zero, List.take_append_drop]
    rfl
  | succ k ih =>
    intro i bit uustr words hbit hk hlen
    have hb : bit.toNat = k := by
      have := hbit (Nat.succ_ne_zero k)
      omega
    have hnext : k ≠ 0 → (bit - 1).toNat + 1 = k := by
      intro hne
      have hone : (1 : UInt64).toNat = 1 := rfl
      rw [UInt64.toNat_sub, hone, hb]
      omega
    have hi : i < uustr.length := by omega
    have hstep : writeDigits word (k + 1) i bit uustr words =
        writeDigits word k (i + 1) (bit - 1) (uustr.set i (encodeDigit (word words).1 bit))
          (word words).2 := rfl
    have htake : (uustr.set i (encodeDigit (word words).1 bit)).take (i + 1) =
        uustr.take i ++ [Hex.digit (Hex.nibble (word words).1.toNat k)] := by
      rw [List.take_add_one, List.take_set_of_le (Nat.le_refl i), List.getElem?_set_self hi,
        encodeDigit_eq (by omega), hb]
      rfl
    have hdrop : (uustr.set i (encodeDigit (word words).1 bit)).drop (i + 1 + k) =
        uustr.drop (i + (k + 1)) := by
      rw [List.drop_set_of_lt (by omega), Nat.add_assoc, Nat.add_comm 1]
    have hlen' : i + 1 + k ≤ (uustr.set i (encodeDigit (word words).1 bit)).length := by
      rw [List.length_set]
      omega
    rw [hstep, ih _ _ _ _ hnext (by omega) hlen', htake, hdrop, List.range_succ_eq_map,
      List.map_cons, List.map_map, List.append_assoc (uustr.take i), List.singleton_append]
    refine Prod.ext ?_ rfl
    have hrow : (fun j => Hex.digit (Hex.nibble (later word j (word words).2).toNat (k - 1 - j))) =
        (fun j => Hex.digit (Hex.nibble (later word j words).toNat (k + 1 - 1 - j))) ∘
          Nat.succ := by
      funext j
      have hsub : k - 1 - j = k + 1 - 1 - (j + 1) := by omega
      rw [Function.comp_apply, hsub]
      rfl
    rw [hrow]
    rfl

/-- The second loop draws. -/
theorem later_draw (j : ℕ) : later draw j words = words j := by
  have hiter : ∀ (j : ℕ) (words : ℕ → UInt64),
      (fun s => (draw s).2)^[j] words = fun i => words (i + j) := by
    intro j
    induction j with
    | zero => exact fun _ => rfl
    | succ j ih =>
      intro words
      rw [Function.iterate_succ_apply, ih]
      funext i
      exact congrArg words (Nat.add_assoc i j 1)
  rw [later, hiter]
  exact congrArg words (Nat.zero_add j)

/-- The two loops, one after the other. -/
theorem uuid4Str_eq {first second : List Char} {s t : ℕ → UInt64}
    (hfirst : writeDigits (pure (maskVersion (words 0))) 16 0 15 (List.replicate 32 '0')
      (fun i => words (i + 1)) = (first, s))
    (hsecond : writeDigits draw 16 16 15 first (fun i => s (i + 1)) = (second, t)) :
    uuid4Str words = (String.ofList second, t) := by
  have hdraw : ∀ s, draw s = (s 0, fun i => s (i + 1)) := fun _ => rfl
  simp only [uuid4Str, bind, StateT.bind, hdraw, hfirst, hsecond]
  rfl

/-- **The digits of an uid.** The second word of the stream is not among them. -/
theorem toList_uuid4Str (words : ℕ → UInt64) : (uuid4Str words).1.toList =
    Hex.image 16 (maskVersion (words 0)).toNat ++ (List.range 16).map fun j =>
      Hex.digit (Hex.nibble (words (j + 2)).toNat (15 - j)) := by
  have hfirst := @writeDigits_eq (pure (maskVersion (words 0))) 16 0 15
    (List.replicate 32 '0') (fun i => words (i + 1)) (fun _ => rfl) (Nat.le_refl 16) (by decide)
  generalize hrow : List.take 0 (List.replicate 32 '0') ++ _ ++ _ = first at hfirst
  have himage : first = Hex.image 16 (maskVersion (words 0)).toNat ++ List.replicate 16 '0' := by
    rw [← hrow]
    rfl
  have hlen : first.length = 32 := by
    rw [himage, List.length_append, Hex.length_image]
    rfl
  have hsecond := @writeDigits_eq draw 16 16 15 first (fun i => words (i + 2))
    (fun _ => rfl) (Nat.le_refl 16) (Nat.le_of_eq hlen.symm)
  have htake : first.take 16 = Hex.image 16 (maskVersion (words 0)).toNat := by
    rw [himage]
    exact List.take_left' (Hex.length_image ..)
  have hdrop : first.drop (16 + 16) = [] := List.drop_eq_nil_of_le (Nat.le_of_eq hlen)
  simp only [later_draw] at hsecond
  rw [uuid4Str_eq hfirst hsecond, String.toList_ofList, htake, hdrop, List.append_nil]

/-! ### The masks -/

/-- The version is digit 3 from the right. -/
theorem nibble_maskVersion (w : UInt64) : Hex.nibble (maskVersion w).toNat 3 = 4 := by
  have hmask : Hex.nibble (0xFFFFFFFFFFFF0FFF : UInt64).toNat 3 = 0 := by decide
  rw [maskVersion, UInt64.toNat_or, UInt64.toNat_and, Hex.nibble_or, Hex.nibble_and, hmask,
    Nat.and_zero]
  decide

/-- The variant is in the leftmost digit. -/
theorem nibble_maskVariant (w : UInt64) :
    Hex.nibble (maskVariant w).toNat 15 ∈ [8, 9, 10, 11] := by
  have hmask : Hex.nibble (0x3FFFFFFFFFFFFFFF : UInt64).toNat 15 = 3 := by decide
  have hbit : Hex.nibble (0x8000000000000000 : UInt64).toNat 15 = 8 := by decide
  have hcases : ∀ v < 16, v &&& 3 ||| 8 ∈ [8, 9, 10, 11] := by decide
  rw [maskVariant, UInt64.toNat_or, UInt64.toNat_and, Hex.nibble_or, Hex.nibble_and, hmask, hbit]
  exact hcases _ (Hex.nibble_lt ..)

/-! ### The uid -/

/-- **A version-4 uid of two words**: 32 lowercase digits, the version and the variant in their
places, and the images of the masked words. -/
structure IsUuid4 (first second : UInt64) (uid : String) : Prop where
  length : uid.toList.length = 32
  lowercase : ∀ c ∈ uid.toList, c ∈ Hex.digits
  version : uid.toList[12]? = some '4'
  variant : ∃ c ∈ ['8', '9', 'a', 'b'], uid.toList[16]? = some c
  first : uid.toList.take 16 = Hex.image 16 (maskVersion first).toNat
  second : uid.toList.drop 16 = Hex.image 16 (maskVariant second).toNat

/-- The images of the two masked words are an uid of version 4. -/
theorem isUuid4_of_images {first second : UInt64} {uid : String}
    (h : uid.toList = Hex.image 16 (maskVersion first).toNat ++
      Hex.image 16 (maskVariant second).toNat) : IsUuid4 first second uid where
  length := by rw [h, List.length_append, Hex.length_image, Hex.length_image]
  lowercase c hc := by
    rw [h, List.mem_append] at hc
    exact hc.elim Hex.mem_digits_of_mem_image Hex.mem_digits_of_mem_image
  version := by
    have hlt : 12 < (Hex.image 16 (maskVersion first).toNat).length := by
      rw [Hex.length_image]
      decide
    rw [h, List.getElem?_append_left hlt, Hex.getElem?_image (by decide), nibble_maskVersion]
    rfl
  variant := by
    have hle : (Hex.image 16 (maskVersion first).toNat).length ≤ 16 :=
      Nat.le_of_eq (Hex.length_image ..)
    have hdigit : ∀ v ∈ [8, 9, 10, 11], Hex.digit v ∈ ['8', '9', 'a', 'b'] := by decide
    refine ⟨_, hdigit _ (nibble_maskVariant second), ?_⟩
    rw [h, List.getElem?_append_right hle, Hex.length_image, Hex.getElem?_image (by decide)]
  first := by rw [h, List.take_left' (Hex.length_image ..)]
  second := by rw [h, List.drop_left' (Hex.length_image ..)]

/-- **When an uid is a version-4 uid**: each of the sixteen words that are drawn for the last
digits has in the place of its digit what the second masked word has there. -/
theorem isUuid4_uuid4Str_iff (words : ℕ → UInt64) :
    IsUuid4 (words 0) (words 1) (uuid4Str words).1 ↔
      ∀ j < 16, Hex.nibble (words (j + 2)).toNat (15 - j) =
        Hex.nibble (maskVariant (words 1)).toNat (15 - j) := by
  have hlist := toList_uuid4Str words
  have hiff := Hex.map_digit_eq_iff (k := 16)
    (f := fun j => Hex.nibble (words (j + 2)).toNat (15 - j))
    (g := fun j => Hex.nibble (maskVariant (words 1)).toNat (15 - j))
    (fun j => Hex.nibble_lt ..) fun j => Hex.nibble_lt ..
  rw [← hiff]
  constructor
  · intro h
    have hsecond := h.second
    rw [hlist, List.drop_left' (Hex.length_image ..)] at hsecond
    exact hsecond
  · intro h
    refine isUuid4_of_images ?_
    rw [hlist, h]
    rfl

/-- With nothing but zeros the last sixteen digits are zeros, also the one of the variant. -/
theorem not_isUuid4_zeros : ∃ words : ℕ → UInt64, words = (fun _ => 0) ∧
    (uuid4Str words).1 = "00000000000040000000000000000000" ∧
    ¬IsUuid4 (words 0) (words 1) (uuid4Str words).1 := by
  refine ⟨fun _ => 0, rfl, by decide +kernel, fun h => ?_⟩
  obtain ⟨c, hc, hget⟩ := h.variant
  have hzero : (uuid4Str fun _ => 0).1.toList[16]? = some '0' := by decide +kernel
  rw [hzero] at hget
  cases Option.some.inj hget
  exact absurd hc (by decide)

end Manager

end Asyncflow
