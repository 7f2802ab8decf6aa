import NMesh.Base.JsonTakes
import Mathlib.Tactic.IntervalCases

/-! # Reading piece by piece

What the reader makes of one piece that was written: a character of a string, a number, and an item in
front of anything a value may be followed by (`Follows`). -/

namespace NMesh.Base.JsonRound

open Base.Utf8 Base.Hex Base.JsonText Base.JsonTakes

/-! ### Strings -/

variable {n : ℕ}

theorem readHex4_hex4 (h : n < 0x10000) (rest : Text) : readHex4 (hex4 n ++ rest) = some (n, rest) := by
  have hsum : ((n / 4096 % 16 * 16 + n / 256 % 16) * 16 + n / 16 % 16) * 16 + n % 16 = n := by omega
  show readHex4 (digit _ :: digit _ :: digit _ :: digit _ :: rest) = _
  rw [readHex4, ofDigit_digit (Nat.mod_lt _ (by decide)), ofDigit_digit (Nat.mod_lt _ (by decide)),
    ofDigit_digit (Nat.mod_lt _ (by decide)), ofDigit_digit (Nat.mod_lt _ (by decide))]
  simp only [Option.bind_eq_bind, Option.bind_some, Option.pure_def, hsum]

theorem readEscape_hex {c : ℕ} (h : c < 0x10000) (hs : Scalar c) (rest : Text) :
    readEscape (0x75 :: (hex4 c ++ rest)) = some (c, rest) := by
  have hhigh : isHigh c = false := by
    unfold isHigh
    unfold Scalar at hs
    rw [decide_eq_false (by omega : ¬ (0xD800 ≤ c ∧ c < 0xDC00))]
  rw [readEscape, if_pos rfl, readHex4_hex4 h]
  simp only [Option.bind_eq_bind, Option.bind_some, hhigh, Option.pure_def]

theorem readEscape_pair {high low : ℕ} (hhigh : isHigh high = true) (hlow : isLow low = true)
    (rest : Text) : readEscape (0x75 :: (hex4 high ++ 0x5C :: 0x75 :: (hex4 low ++ rest))) =
      some (joined high low, rest) := by
  have hexpect : ∀ t : Text, expect [0x5C, 0x75] (0x5C :: 0x75 :: t) = some t := fun t => by
    simp [expect]
  have hh : high < 0x10000 := by
    have := of_decide_eq_true hhigh
    omega
  have hl : low < 0x10000 := by
    have := of_decide_eq_true hlow
    omega
  rw [readEscape, if_pos rfl, readHex4_hex4 hh]
  simp only [Option.bind_eq_bind, Option.bind_some, hhigh, hexpect]
  rw [readHex4_hex4 hl]
  simp only [Option.bind_some, hlow, if_true, Option.pure_def]

theorem joined_pair {c : ℕ} (h : 0x10000 ≤ c) (hs : Scalar c) :
    isHigh (0xD800 + (c - 0x10000) / 1024) = true ∧ isLow (0xDC00 + (c - 0x10000) % 1024) = true ∧
      joined (0xD800 + (c - 0x10000) / 1024) (0xDC00 + (c - 0x10000) % 1024) = c := by
  unfold Scalar at hs
  refine ⟨decide_eq_true ?_, decide_eq_true ?_, ?_⟩
  · omega
  · omega
  · unfold joined
    omega

theorem readString_escape {c : ℕ} (hs : Scalar c) (fuel : ℕ) (rest : Text) :
    readString (fuel + 1) (escape c ++ rest) =
      (readString fuel rest).map fun p => (c :: p.1, p.2) := by
  have hslash : ∀ (t : Text) (more : Text), readEscape t = some (c, more) →
      readString (fuel + 1) (0x5C :: t) = (readString fuel more).map fun p => (c :: p.1, p.2) := by
    intro t more ht
    rw [readString, if_neg (by decide), if_pos rfl, ht]
    cases h : readString fuel more <;> simp [h]
  have hshort : ∀ d : ℕ, d ≠ 0x75 → unescape d = some c →
      readString (fuel + 1) (0x5C :: d :: rest) =
        (readString fuel rest).map fun p => (c :: p.1, p.2) := by
    intro d hd hun
    refine hslash (d :: rest) rest ?_
    rw [readEscape, if_neg hd, hun]
    rfl
  unfold escape
  split_ifs with hmark hn hr ht hf hb hplain hsmall
  · exact hshort c (by omega) (by unfold unescape; rw [if_pos (by omega)])
  · exact hshort 0x6E (by decide) (by rw [hn]; rfl)
  · exact hshort 0x72 (by decide) (by rw [hr]; rfl)
  · exact hshort 0x74 (by decide) (by rw [ht]; rfl)
  · exact hshort 0x66 (by decide) (by rw [hf]; rfl)
  · exact hshort 0x62 (by decide) (by rw [hb]; rfl)
  · rw [List.cons_append, List.nil_append, readString, if_neg (by omega), if_neg (by omega),
      if_neg (by omega)]
    cases readString fuel rest <;> rfl
  · exact hslash _ rest (readEscape_hex hsmall hs rest)
  · obtain ⟨hhigh, hlow, hjoined⟩ := joined_pair (by omega) hs
    refine hslash _ rest ?_
    have hpair := readEscape_pair hhigh hlow rest
    rw [hjoined] at hpair
    simpa using hpair

theorem length_escape (c : ℕ) : 1 ≤ (escape c).length := by
  unfold escape
  split_ifs <;> simp

theorem length_le_escaped : ∀ s : Text, s.length ≤ (s.flatMap escape).length
  | [] => le_rfl
  | c :: s => by
    have := length_le_escaped s
    have := length_escape c
    rw [List.flatMap_cons, List.length_append, List.length_cons]
    omega

/-! ### Numbers -/

def Follows : Text → Prop
  | [] => True
  | c :: _ => c = 0x2C ∨ c = 0x5D ∨ c = 0x7D

theorem digits_small (h : n < 10) : digits n = [0x30 + n] := by
  unfold digits
  rw [Nat.toDigits_of_lt_base h]
  interval_cases n <;> rfl

theorem digits_step (h : 10 ≤ n) : digits n = digits (n / 10) ++ [0x30 + n % 10] := by
  have hlast := digits_small (Nat.mod_lt n (by decide : 0 < 10))
  unfold digits at hlast ⊢
  rw [Nat.toDigits_of_base_le (by decide) h, List.map_append]
  rw [Nat.toDigits_of_lt_base (Nat.mod_lt n (by decide))] at hlast
  rw [← hlast]

theorem ofDigits_digits (n : ℕ) : ofDigits (digits n) = n := by
  induction n using Nat.strongRecOn with
  | ind n ih =>
    by_cases hn : n < 10
    · rw [digits_small hn]
      show 0 * 10 + (0x30 + n - 0x30) = n
      omega
    · have hprefix := ih (n / 10) (by omega)
      unfold ofDigits at hprefix ⊢
      rw [digits_step (by omega), List.foldl_append, hprefix]
      show n / 10 * 10 + (0x30 + n % 10 - 0x30) = n
      omega

theorem digits_shape (n : ℕ) : ∃ c t, digits n = c :: t ∧ (c = 0x30 → t = []) ∧
    ∀ d ∈ digits n, isDigit d = true := by
  induction n using Nat.strongRecOn with
  | ind n ih =>
    by_cases hn : n < 10
    · refine ⟨0x30 + n, [], digits_small hn, fun _ => rfl, fun d hd => ?_⟩
      rw [digits_small hn, List.mem_singleton] at hd
      exact decide_eq_true (by omega)
    · obtain ⟨c, t, hct, hzero, hall⟩ := ih (n / 10) (by omega)
      refine ⟨c, t ++ [0x30 + n % 10], by rw [digits_step (by omega), hct, List.cons_append], fun hc => ?_,
        fun d hd => ?_⟩
      · -- the digits in front are those of zero, which has no more than one
        have hvalue := ofDigits_digits (n / 10)
        rw [hct, hc, hzero hc] at hvalue
        have : (0 : ℕ) * 10 + (0x30 - 0x30) = n / 10 := hvalue
        omega
      · rw [digits_step (by omega)] at hd
        rcases List.mem_append.mp hd with hd | hd
        · exact hall d hd
        · rw [List.mem_singleton.mp hd]
          exact decide_eq_true (by omega)

theorem isDigit_of_follows {c : ℕ} (h : c = 0x2C ∨ c = 0x5D ∨ c = 0x7D) : isDigit c = false :=
  decide_eq_false (by omega)

variable {rest : Text}

theorem digits_span (h : Follows rest) : ∀ {t : Text}, (∀ d ∈ t, isDigit d = true) →
    (t ++ rest).takeWhile isDigit = t ∧ (t ++ rest).dropWhile isDigit = rest
  | [], _ => by
    cases rest with
    | nil => exact ⟨rfl, rfl⟩
    | cons c rest =>
      have hc := isDigit_of_follows h
      rw [List.nil_append, List.takeWhile_cons, List.dropWhile_cons, hc]
      exact ⟨rfl, rfl⟩
  | d :: t, ht => by
    have hd := ht d List.mem_cons_self
    obtain ⟨htake, hdrop⟩ := digits_span h fun d' hd' => ht d' (List.mem_cons_of_mem d hd')
    rw [List.cons_append, List.takeWhile_cons, List.dropWhile_cons, hd]
    exact ⟨by rw [if_pos rfl, htake], by rw [if_pos rfl, hdrop]⟩

theorem readInteger_digits (n : ℕ) (h : Follows rest) :
    readInteger (digits n ++ rest) = some (digits n, rest) := by
  obtain ⟨c, t, hct, hzero, hall⟩ := digits_shape n
  rw [hct] at hall ⊢
  rw [List.cons_append, readInteger]
  split_ifs with hc hdigit
  · rw [hzero hc, List.nil_append]
  · obtain ⟨htake, hdrop⟩ := digits_span h fun d hd => hall d (List.mem_cons_of_mem c hd)
    rw [htake, hdrop]
  · exact absurd (hall c List.mem_cons_self) hdigit

theorem readFraction_follows (h : Follows rest) : readFraction rest = ([], rest) := by
  match rest with
  | [] => rfl
  | [_] => rfl
  | c :: d :: rest =>
    have hc : c ≠ 0x2E := by
      rcases h with h | h | h <;> omega
    rw [readFraction, if_neg fun hh => hc hh.1]

theorem readExponent_follows (h : Follows rest) : readExponent rest = ([], rest) := by
  match rest with
  | [] => rfl
  | [_] => rfl
  | c :: d :: rest =>
    have hc : ¬ (c = 0x65 ∨ c = 0x45) := by
      rcases h with h | h | h <;> omega
    unfold readExponent
    dsimp only
    rw [if_neg hc]

variable {floatRepr : Text → Text}

variable (floatRepr) in
theorem readMagnitude_digits (negative : Bool) (hn : (digits n).length ≤ maxDigits)
    (h : Follows rest) : readMagnitude floatRepr negative (digits n ++ rest) =
      some (.int (if negative then -(n : ℤ) else n), rest) := by
  unfold readMagnitude
  rw [readInteger_digits n h]
  simp only [Option.bind_eq_bind, Option.bind_some, readFraction_follows h, readExponent_follows h,
    and_self, if_true, hn, ofDigits_digits, Option.pure_def]

theorem dumpInt_head (n : ℤ) : ∃ c t, dumpInt n = c :: t ∧
    (isDigit c = true ∨ c = 0x2D ∧ ∃ d t', t = d :: t' ∧ isDigit d = true) := by
  obtain ⟨c, t, hct, -, hall⟩ := digits_shape n.natAbs
  have hc : isDigit c = true := hall c (by rw [hct]; exact List.mem_cons_self)
  unfold dumpInt
  split_ifs
  · exact ⟨0x2D, digits n.natAbs, rfl, Or.inr ⟨rfl, c, t, hct, hc⟩⟩
  · exact ⟨c, t, hct, Or.inl hc⟩

theorem ascii_words : words.map Prod.fst = [[0x6E, 0x75, 0x6C, 0x6C], [0x74, 0x72, 0x75, 0x65],
    [0x66, 0x61, 0x6C, 0x73, 0x65], [0x4E, 0x61, 0x4E], [0x49, 0x6E, 0x66, 0x69, 0x6E, 0x69, 0x74, 0x79],
    [0x2D, 0x49, 0x6E, 0x66, 0x69, 0x6E, 0x69, 0x74, 0x79]] := by decide

theorem words_int (n : ℤ) (rest : Text) :
    (words.findSome? fun e => (expect e.1 (dumpInt n ++ rest)).map (e.2, ·)) = none := by
  obtain ⟨c, t, hct, hhead⟩ := dumpInt_head n
  rw [List.findSome?_eq_none_iff]
  intro e he
  have hword := List.mem_map_of_mem (f := Prod.fst) he
  rw [ascii_words] at hword
  have hnone : expect e.1 (dumpInt n ++ rest) = none := by
    rw [hct, List.cons_append]
    rcases hhead with hdigit | ⟨rfl, d, t', rfl, hdigit⟩
    · have := of_decide_eq_true hdigit
      simp only [List.mem_cons, List.not_mem_nil, or_false] at hword
      rcases hword with h | h | h | h | h | h <;> rw [h] <;> exact expect_ne (by omega) _ _
    · have := of_decide_eq_true hdigit
      simp only [List.mem_cons, List.not_mem_nil, or_false] at hword
      rcases hword with h | h | h | h | h | h <;> rw [h]
      case inr.inr.inr.inr.inr =>
        have hd : (0x49 : ℕ) ≠ d := by omega
        unfold expect
        rw [if_neg]
        simp [List.isPrefixOf, hd]
      all_goals exact expect_ne (by decide) _ _
  rw [hnone]
  rfl

variable (floatRepr) in
theorem readPlain_int {n : ℤ} (hn : (digits n.natAbs).length ≤ maxDigits) (h : Follows rest) :
    readPlain floatRepr (dumpInt n ++ rest) = some (.int n, rest) := by
  unfold readPlain
  rw [words_int]
  show readNumber floatRepr (dumpInt n ++ rest) = _
  unfold dumpInt
  split_ifs with hneg
  · rw [List.cons_append, readNumber, if_pos rfl, readMagnitude_digits floatRepr true hn h, if_pos rfl]
    have hint : -(n.natAbs : ℤ) = n := by omega
    rw [hint]
  · obtain ⟨c, t, hct, -, hall⟩ := digits_shape n.natAbs
    have hc := of_decide_eq_true (hall c (by rw [hct]; exact List.mem_cons_self))
    have hread := readMagnitude_digits floatRepr false hn h
    rw [hct, List.cons_append] at hread ⊢
    rw [readNumber, if_neg (by omega), hread, if_neg (by decide)]
    have hint : (n.natAbs : ℤ) = n := by omega
    rw [hint]

/-! ### Values -/

mutual

/-- A value without floats, whose integers are not too long to read, whose strings are characters and
whose objects have no key twice. -/
def Clean : Json → Prop
  | .null => True
  | .bool _ => True
  | .int n => (digits n.natAbs).length ≤ maxDigits
  | .float _ => False
  | .str s => ∀ c ∈ s, Scalar c
  | .arr items => CleanItems items
  | .obj members => (members.map Prod.fst).Nodup ∧ CleanMembers members

def CleanItems : List Json → Prop
  | [] => True
  | item :: items => Clean item ∧ CleanItems items

def CleanMembers : List (Text × Json) → Prop
  | [] => True
  | (key, value) :: members => (∀ c ∈ key, Scalar c) ∧ Clean value ∧ CleanMembers members

end

mutual

/-- How deep a value's objects and arrays are nested. -/
def height : Json → ℕ
  | .arr items => heightItems items + 1
  | .obj members => heightMembers members + 1
  | _ => 0

def heightItems : List Json → ℕ
  | [] => 0
  | item :: items => max (height item) (heightItems items)

def heightMembers : List (Text × Json) → ℕ
  | [] => 0
  | (_, value) :: members => max (height value) (heightMembers members)

end

theorem readPlain_word {word : Text} {v : Json} (h : dumps v = word)
    (hfind : (words.findSome? fun e => (expect e.1 (word ++ rest)).map (e.2, ·)) = some (v, rest)) :
    readPlain floatRepr (dumps v ++ rest) = some (v, rest) := by
  unfold readPlain
  rw [h, hfind]

theorem readPlain_null (rest : Text) : readPlain floatRepr (dumps .null ++ rest) = some (.null, rest) :=
  readPlain_word (by rw [dumps]) rfl

theorem readPlain_bool (b : Bool) (rest : Text) :
    readPlain floatRepr (dumps (.bool b) ++ rest) = some (.bool b, rest) := by
  cases b
  · exact readPlain_word (by rw [dumps]) rfl
  · exact readPlain_word (by rw [dumps]) rfl

/-! ### Values made of parts -/

theorem cleanItems_iff : ∀ {items : List Json}, CleanItems items ↔ ∀ v ∈ items, Clean v
  | [] => by simp [CleanItems]
  | item :: items => by rw [CleanItems, cleanItems_iff, List.forall_mem_cons]

theorem cleanMembers_iff : ∀ {members : List (Text × Json)},
    CleanMembers members ↔ ∀ e ∈ members, (∀ c ∈ e.1, Scalar c) ∧ Clean e.2
  | [] => by simp [CleanMembers]
  | (key, value) :: members => by rw [CleanMembers, cleanMembers_iff, List.forall_mem_cons, and_assoc]

theorem heightItems_le : ∀ {items : List Json},
    heightItems items ≤ n ↔ ∀ v ∈ items, height v ≤ n
  | [] => by simp [heightItems]
  | item :: items => by rw [heightItems, max_le_iff, heightItems_le, List.forall_mem_cons]

theorem heightMembers_le : ∀ {members : List (Text × Json)},
    heightMembers members ≤ n ↔ ∀ e ∈ members, height e.2 ≤ n
  | [] => by simp [heightMembers]
  | (key, value) :: members => by
    rw [heightMembers, max_le_iff, heightMembers_le, List.forall_mem_cons]

theorem scalar_toHex (data : List UInt8) : ∀ c ∈ toHex data, Scalar c := by
  intro c hc
  obtain ⟨n, hn, rfl⟩ := mem_toHex hc
  unfold digit Scalar
  split_ifs <;> omega

theorem length_digits {k : ℕ} (hk : 0 < k) (h : n < 10 ^ k) : (digits n).length ≤ k := by
  unfold digits
  rw [List.length_map]
  exact (Nat.length_toDigits_le_iff (by decide) hk).mpr h

theorem clean_nat (h : n < 256 ^ 8) : Clean (.int n) := by
  show (digits (n : ℤ).natAbs).length ≤ maxDigits
  rw [Int.natAbs_natCast]
  exact (length_digits (k := 20) (by decide) (by omega)).trans (by decide)

end NMesh.Base.JsonRound
