import NMesh.Base.JsonRound

/-! # Writing JSON in any style, and reading it back

`write S` is `json.dumps` with the separators and the `ensure_ascii` of the style `S`. `loads` reads it back up to
two surrogates written one after the other, read as one character (`merge`, `settle`, `loads_write`); a value
without floats whose strings are sequences of characters (`Clean`) as it is (`loads_dumps`). -/

namespace NMesh.Base.JsonStyle

open Base.Utf8 Base.Hex Base.Ordered Base.JsonText Base.JsonTakes Base.JsonRound

/-- The blanks after a comma and after a colon, and `ensure_ascii`. -/
structure Style where
  itemBlanks : ℕ
  keyBlanks : ℕ
  ensureAscii : Bool

/-- `separators=(",", ":")` -/
def compact : Style := ⟨0, 0, true⟩

def standard : Style := ⟨1, 1, true⟩

def blanks (n : ℕ) : Text := List.replicate n 0x20

/-- One character inside a string, with `ensure_ascii=False`. -/
def escapeRaw (c : ℕ) : Text := if c < 0x7F then escape c else [c]

def Style.escape (S : Style) (c : ℕ) : Text := if S.ensureAscii then JsonText.escape c else escapeRaw c

variable (S : Style)

def writeString (s : Text) : Text := 0x22 :: (s.flatMap S.escape ++ [0x22])

mutual

/-- `json.dumps(value)` in a style. -/
def write : Json → Text
  | .null => ascii "null"
  | .bool b => if b then ascii "true" else ascii "false"
  | .int n => dumpInt n
  | .float repr => dumpFloat repr
  | .str s => writeString S s
  | .arr [] => [0x5B, 0x5D]
  | .arr (item :: items) => 0x5B :: (write item ++ writeItems items)
  | .obj [] => [0x7B, 0x7D]
  | .obj ((key, value) :: members) =>
    0x7B :: (writeString S key ++ (0x3A :: (blanks S.keyBlanks ++ (write value ++ writeMembers members))))

/-- The items after the first, and the bracket. -/
def writeItems : List Json → Text
  | [] => [0x5D]
  | item :: items => 0x2C :: (blanks S.itemBlanks ++ (write item ++ writeItems items))

/-- The members after the first, and the brace. -/
def writeMembers : List (Text × Json) → Text
  | [] => [0x7D]
  | (key, value) :: members => 0x2C :: (blanks S.itemBlanks ++ (writeString S key ++
      (0x3A :: (blanks S.keyBlanks ++ (write value ++ writeMembers members)))))

end

/-! ### Strings -/

/-- Two surrogates that make a pair are one character. -/
def merge : Text → Text
  | [] => []
  | [c] => [c]
  | c :: d :: text =>
    if isHigh c ∧ isLow d then joined c d :: merge text else c :: merge (d :: text)

/-- The code points a string may have. -/
def Points (s : Text) : Prop := ∀ c ∈ s, c < 0x110000

theorem merge_scalars : ∀ {s : Text}, (∀ c ∈ s, Scalar c) → merge s = s
  | [], _ => rfl
  | [_], _ => rfl
  | c :: d :: s, h => by
    have hc : ¬ (isHigh c = true ∧ isLow d = true) := by
      rintro ⟨hhigh, -⟩
      have := of_decide_eq_true hhigh
      have hs := h c List.mem_cons_self
      unfold Scalar at hs
      omega
    rw [merge, if_neg hc, merge_scalars fun x hx => h x (List.mem_cons_of_mem c hx)]

theorem points_of_scalars {s : Text} (h : ∀ c ∈ s, Scalar c) : Points s := by
  intro c hc
  have hs := h c hc
  unfold Scalar at hs
  omega

theorem readString_slash {c fuel : ℕ} {t more : Text} (h : readEscape t = some (c, more)) :
    readString (fuel + 1) (0x5C :: t) = (readString fuel more).map fun p => (c :: p.1, p.2) := by
  rw [readString, if_neg (by decide), if_pos rfl, h]
  cases hmore : readString fuel more <;> simp [hmore]

theorem escape_surrogate {c : ℕ} (h : 0xD800 ≤ c) (h' : c < 0x10000) :
    escape c = 0x5C :: 0x75 :: hex4 c := by
  unfold escape
  rw [if_neg (by omega), if_neg (by omega), if_neg (by omega), if_neg (by omega), if_neg (by omega),
    if_neg (by omega), if_neg (by omega), if_pos (by omega)]

theorem readString_low {c : ℕ} (hc : isLow c = true) (fuel : ℕ) (rest : Text) :
    readString (fuel + 1) (escape c ++ rest) =
      (readString fuel rest).map fun p => (c :: p.1, p.2) := by
  have hlow := of_decide_eq_true hc
  have hhigh : isHigh c = false := decide_eq_false (by omega)
  have hread : readEscape (0x75 :: (hex4 c ++ rest)) = some (c, rest) := by
    rw [readEscape, if_pos rfl, readHex4_hex4 (by omega)]
    simp only [Option.bind_eq_bind, Option.bind_some, hhigh, Option.pure_def]
  rw [escape_surrogate (by omega) (by omega)]
  exact readString_slash hread

theorem readString_single {c : ℕ} (hc : c < 0x110000) (hhigh : ¬ isHigh c = true) (fuel : ℕ) (rest : Text) :
    readString (fuel + 1) (escape c ++ rest) = (readString fuel rest).map fun p => (c :: p.1, p.2) := by
  by_cases hlow : isLow c = true
  · exact readString_low hlow _ _
  · refine readString_escape ?_ _ _
    unfold isHigh at hhigh
    unfold isLow at hlow
    simp only [decide_eq_true_eq] at hhigh hlow
    unfold Scalar
    omega

theorem expect_escape {d : ℕ} (hd : d < 0x110000) (hlow : isLow d = false) (rest : Text) :
    expect [0x5C, 0x75] (escape d ++ rest) = none ∨ ∃ more low last,
      expect [0x5C, 0x75] (escape d ++ rest) = some more ∧ readHex4 more = some (low, last) ∧
        isLow low = false := by
  have hfail : ∀ (a b : ℕ) (t : Text), b ≠ 0x75 → expect [0x5C, 0x75] (a :: b :: t) = none := by
    intro a b t hb
    unfold expect
    rw [if_neg]
    simp [List.isPrefixOf, hb.symm]
  have hfound : ∀ t : Text, expect [0x5C, 0x75] (0x5C :: 0x75 :: t) = some t := fun t => by
    simp [expect]
  unfold escape
  split_ifs with hmark hn hr ht hf hb hplain hsmall
  · exact Or.inl (hfail _ _ _ (by omega))
  · exact Or.inl (hfail _ _ _ (by decide))
  · exact Or.inl (hfail _ _ _ (by decide))
  · exact Or.inl (hfail _ _ _ (by decide))
  · exact Or.inl (hfail _ _ _ (by decide))
  · exact Or.inl (hfail _ _ _ (by decide))
  · refine Or.inl ?_
    rw [List.singleton_append]
    exact expect_ne (by omega) _ _
  · exact Or.inr ⟨_, d, rest, hfound _, readHex4_hex4 hsmall rest, hlow⟩
  · have hpair : isLow (0xD800 + (d - 0x10000) / 1024) = false := decide_eq_false (by omega)
    refine Or.inr ⟨_, _, 0x5C :: 0x75 :: (hex4 (0xDC00 + (d - 0x10000) % 1024) ++ rest),
      by rw [List.cons_append, List.cons_append, hfound], ?_, hpair⟩
    rw [List.append_assoc, readHex4_hex4 (by omega)]
    rfl

theorem readString_high {c : ℕ} (hc : isHigh c = true) (fuel : ℕ) {rest : Text}
    (h : expect [0x5C, 0x75] rest = none ∨ ∃ more low last, expect [0x5C, 0x75] rest = some more ∧
      readHex4 more = some (low, last) ∧ isLow low = false) :
    readString (fuel + 1) (escape c ++ rest) =
      (readString fuel rest).map fun p => (c :: p.1, p.2) := by
  have hhigh := of_decide_eq_true hc
  have hread : readEscape (0x75 :: (hex4 c ++ rest)) = some (c, rest) := by
    rw [readEscape, if_pos rfl, readHex4_hex4 (by omega)]
    simp only [Option.bind_eq_bind, Option.bind_some, hc]
    rcases h with h | ⟨more, low, last, h, hlow, hno⟩
    · rw [h]
      rfl
    · rw [h]
      simp only [hlow, Option.bind_some, hno, Bool.false_eq_true, if_false, Option.pure_def]
  rw [escape_surrogate (by omega) (by omega)]
  exact readString_slash hread

theorem readString_merge (rest : Text) : ∀ {s : Text} {fuel : ℕ}, Points s → s.length < fuel →
    readString fuel (s.flatMap escape ++ 0x22 :: rest) = some (merge s, rest)
  | _, 0, _, hfuel => by omega
  | [], fuel + 1, _, _ => by
    show readString (fuel + 1) (0x22 :: rest) = _
    rw [readString, if_pos rfl]
    rfl
  | [c], fuel + 1, hs, hfuel => by
    have hc := hs c List.mem_cons_self
    obtain ⟨fuel, rfl⟩ : ∃ k, fuel = k + 1 := ⟨fuel - 1, by simp at hfuel; omega⟩
    have hend : readString (fuel + 1) (0x22 :: rest) = some ([], rest) := by
      rw [readString, if_pos rfl]
    have hone : readString (fuel + 1 + 1) (escape c ++ 0x22 :: rest) =
        (readString (fuel + 1) (0x22 :: rest)).map fun p => (c :: p.1, p.2) := by
      by_cases hhigh : isHigh c = true
      · refine readString_high hhigh _ (Or.inl (expect_ne (by decide) _ _))
      · exact readString_single hc hhigh _ _
    rw [List.flatMap_cons, List.flatMap_nil, List.append_nil, hone, hend]
    rfl
  | c :: d :: s, fuel + 1, hs, hfuel => by
    have hc := hs c List.mem_cons_self
    have hd := hs d (List.mem_cons_of_mem c List.mem_cons_self)
    have hds : Points (d :: s) := fun x hx => hs x (List.mem_cons_of_mem c hx)
    simp only [List.length_cons] at hfuel
    have hnext := @readString_merge rest (d :: s) fuel hds (by simp only [List.length_cons]; omega)
    have hsplit : (c :: d :: s).flatMap escape ++ 0x22 :: rest =
        escape c ++ ((d :: s).flatMap escape ++ 0x22 :: rest) := by
      rw [List.flatMap_cons, List.append_assoc]
    by_cases hhigh : isHigh c = true
    · by_cases hlow : isLow d = true
      · have hpair := readEscape_pair hhigh hlow (s.flatMap escape ++ 0x22 :: rest)
        have hboth : (c :: d :: s).flatMap escape ++ 0x22 :: rest = 0x5C :: 0x75 ::
            (hex4 c ++ 0x5C :: 0x75 :: (hex4 d ++ (s.flatMap escape ++ 0x22 :: rest))) := by
          have hh := of_decide_eq_true hhigh
          have hl := of_decide_eq_true hlow
          rw [List.flatMap_cons, List.flatMap_cons, escape_surrogate (c := c) (by omega) (by omega),
            escape_surrogate (c := d) (by omega) (by omega)]
          simp
        have hlast := @readString_merge rest s fuel
          (fun x hx => hs x (List.mem_cons_of_mem c (List.mem_cons_of_mem d hx))) (by omega)
        rw [hboth, readString_slash hpair, hlast, merge, if_pos ⟨hhigh, hlow⟩]
        rfl
      · have hnone : expect [0x5C, 0x75] ((d :: s).flatMap escape ++ 0x22 :: rest) = none ∨
            ∃ more low last, expect [0x5C, 0x75] ((d :: s).flatMap escape ++ 0x22 :: rest) = some more ∧
              readHex4 more = some (low, last) ∧ isLow low = false := by
          rw [List.flatMap_cons, List.append_assoc]
          exact expect_escape hd (by simpa using hlow) _
        rw [hsplit, readString_high hhigh fuel hnone, hnext, merge, if_neg fun h => hlow h.2]
        rfl
    · rw [hsplit, readString_single hc hhigh, hnext, merge, if_neg fun h => hhigh h.1]
      rfl

/-! ### Values -/

variable (floatRepr : Text → Text)

/-- What `json` writes for a float, `json` reads back as that float. -/
structure FloatText (repr : Text) : Prop where
  head : ∃ c t, dumpFloat repr = c :: t ∧ isBlank c = false ∧
    c ≠ 0x22 ∧ c ≠ 0x7B ∧ c ≠ 0x5B ∧ c ≠ 0x5D
  read : ∀ rest, Follows rest →
    readPlain floatRepr (dumpFloat repr ++ rest) = some (.float repr, rest)

mutual

/-- A value that Python holds and `json` writes: an integer has at most 4300 digits, a float is one. -/
def Plain : Json → Prop
  | .null => True
  | .bool _ => True
  | .int n => (digits n.natAbs).length ≤ maxDigits
  | .float repr => FloatText floatRepr repr
  | .str s => Points s
  | .arr items => PlainItems items
  | .obj members => PlainMembers members

def PlainItems : List Json → Prop
  | [] => True
  | item :: items => Plain item ∧ PlainItems items

def PlainMembers : List (Text × Json) → Prop
  | [] => True
  | (key, value) :: members => Points key ∧ Plain value ∧ PlainMembers members

end

mutual

/-- **What comes back**: the value with the surrogates of its strings and keys merged. -/
def settle : Json → Json
  | .null => .null
  | .bool b => .bool b
  | .int n => .int n
  | .float repr => .float repr
  | .str s => .str (merge s)
  | .arr items => .arr (settleItems items)
  | .obj members => .obj (settleMembers [] members)

def settleItems : List Json → List Json
  | [] => []
  | item :: items => settle item :: settleItems items

/-- The members after those read before; of two keys that are one, the last value stays. -/
def settleMembers : List (Text × Json) → List (Text × Json) → List (Text × Json)
  | before, [] => before
  | before, (key, value) :: members => settleMembers (setL (merge key) (settle value) before) members

end

variable {floatRepr} {S}

theorem skip_blanks (n : ℕ) {text : Text} (h : skip text = text) : skip (blanks n ++ text) = text := by
  induction n with
  | zero => exact h
  | succ n ih =>
    rw [blanks, List.replicate_succ, List.cons_append, skip, List.dropWhile_cons_of_pos (by decide)]
    exact ih

theorem write_head : ∀ {v : Json}, Plain floatRepr v →
    ∃ c t, write S v = c :: t ∧ isBlank c = false ∧ c ≠ 0x5D
  | .null, _ => ⟨0x6E, ascii "ull", by rw [write]; decide, by decide, by decide⟩
  | .bool true, _ => ⟨0x74, ascii "rue", by rw [write]; decide, by decide, by decide⟩
  | .bool false, _ => ⟨0x66, ascii "alse", by rw [write]; decide, by decide, by decide⟩
  | .int n, _ => by
    obtain ⟨c, t, hct, hhead⟩ := dumpInt_head n
    refine ⟨c, t, by rw [write, hct], ?_⟩
    rcases hhead with hdigit | ⟨rfl, -⟩
    · have := of_decide_eq_true hdigit
      exact ⟨decide_eq_false (by omega), by omega⟩
    · exact ⟨by decide, by decide⟩
  | .float repr, hv => by
    obtain ⟨c, t, hct, hblank, -, -, -, hclose⟩ := FloatText.head hv
    exact ⟨c, t, by rw [write, hct], hblank, hclose⟩
  | .str s, _ => ⟨0x22, _, by rw [write]; rfl, by decide, by decide⟩
  | .arr [], _ => ⟨0x5B, [0x5D], by rw [write], by decide, by decide⟩
  | .arr (_ :: _), _ => ⟨0x5B, _, by rw [write], by decide, by decide⟩
  | .obj [], _ => ⟨0x7B, [0x7D], by rw [write], by decide, by decide⟩
  | .obj ((_, _) :: _), _ => ⟨0x7B, _, by rw [write], by decide, by decide⟩

theorem skip_write {v : Json} (hv : Plain floatRepr v) (rest : Text) :
    skip (write S v ++ rest) = write S v ++ rest := by
  obtain ⟨c, t, hct, hblank, -⟩ := write_head (S := S) hv
  rw [hct, List.cons_append, skip_mark hblank]

theorem skip_writeString (s rest : Text) : skip (writeString S s ++ rest) = writeString S s ++ rest := by
  rw [writeString, List.cons_append, skip_mark (by decide)]

theorem follows_writeItems (items : List Json) (rest : Text) : Follows (writeItems S items ++ rest) := by
  cases items <;> simp [writeItems, Follows]

theorem follows_writeMembers (members : List (Text × Json)) (rest : Text) :
    Follows (writeMembers S members ++ rest) := by
  rcases members with _ | ⟨⟨key, value⟩, members⟩ <;> simp [writeMembers, Follows]

theorem length_writeItems (items : List Json) : 1 ≤ (writeItems S items).length := by
  cases items <;> simp [writeItems]

theorem length_writeMembers (members : List (Text × Json)) : 1 ≤ (writeMembers S members).length := by
  rcases members with _ | ⟨⟨key, value⟩, members⟩ <;> simp [writeMembers]

variable (hS : S.ensureAscii = true)
include hS

theorem readString_write {s : Text} (hs : Points s) (rest : Text) :
    ∃ t, writeString S s ++ rest = 0x22 :: t ∧ readString t.length t = some (merge s, rest) := by
  have hescape : S.escape = JsonText.escape := funext fun c => by rw [Style.escape, if_pos hS]
  refine ⟨s.flatMap escape ++ 0x22 :: rest, by simp [writeString, hescape], readString_merge rest hs ?_⟩
  have := length_le_escaped s
  rw [List.length_append, List.length_cons]
  omega

set_option linter.unusedSectionVars false in
mutual

/-- **A value is read back**, whatever follows it; the text's length is fuel enough. -/
theorem takes_write : ∀ (n : ℕ) {v : Json} {depth : ℕ} {rest : Text}, Plain floatRepr v →
    height v ≤ depth → (write S v).length ≤ n → Follows rest →
    Takes floatRepr n depth .value (write S v ++ rest) (settle v) rest
  | 0, v, _, _, hv, _, hfuel, _ => by
    obtain ⟨c, t, hct, -⟩ := write_head (S := S) hv
    rw [hct] at hfuel
    cases hfuel
  | n + 1, .null, depth, rest, _, _, _, _ => by
    have hread : readPlain floatRepr (dumps .null ++ rest) = some (.null, rest) := readPlain_null rest
    rw [dumps] at hread
    rw [write, settle]
    exact .plain (by decide) hread
  | n + 1, .bool b, depth, rest, _, _, _, _ => by
    have hread : readPlain floatRepr (dumps (.bool b) ++ rest) = some (.bool b, rest) :=
      readPlain_bool b rest
    rw [dumps] at hread
    rw [write, settle]
    cases b <;> exact .plain (by decide) hread
  | n + 1, .int k, depth, rest, hv, _, _, hrest => by
    obtain ⟨c, t, hct, hhead⟩ := dumpInt_head k
    have hread := readPlain_int floatRepr hv hrest
    rw [hct, List.cons_append] at hread
    rw [write, settle, hct, List.cons_append]
    refine .plain ?_ hread
    rcases hhead with hdigit | ⟨rfl, -⟩
    · have := of_decide_eq_true hdigit
      omega
    · decide
  | n + 1, .float repr, depth, rest, hv, _, _, hrest => by
    obtain ⟨c, t, hct, -, hquote, hbrace, hbracket, -⟩ := FloatText.head hv
    have hread := FloatText.read hv rest hrest
    rw [hct, List.cons_append] at hread
    rw [write, settle, hct, List.cons_append]
    exact .plain ⟨hquote, hbrace, hbracket⟩ hread
  | n + 1, .str s, depth, rest, hv, _, _, _ => by
    obtain ⟨t, ht, hread⟩ := readString_write hS hv rest
    rw [write, settle, ht]
    exact .string hread
  | n + 1, .arr [], depth + 1, rest, _, _, _, _ => by
    rw [write]
    exact .noItems (skip_mark (by decide) rest)
  | n + 1, .arr (item :: items), depth + 1, rest, hv, hd, hfuel, _ => by
    obtain ⟨c, t, hct, -, hclose⟩ := write_head (S := S) hv.1
    rw [write, List.length_cons] at hfuel
    have hitems := @takes_writeItems n item items [] depth rest hv.1 hv.2
      (Nat.le_of_succ_le_succ hd) (Nat.le_of_succ_le_succ hfuel)
    have hskip := skip_write (S := S) hv.1 (writeItems S items ++ rest)
    rw [write, List.cons_append, List.append_assoc]
    refine .array (fun rest' hopen => ?_) (by rw [hskip]; exact hitems)
    rw [hskip, hct] at hopen
    exact hclose (List.cons.inj hopen).1
  | n + 1, .obj [], depth + 1, rest, _, _, _, _ => by
    rw [write]
    exact .noMembers (skip_mark (by decide) rest)
  | n + 1, .obj ((key, value) :: members), depth + 1, rest, hv, hd, hfuel, _ => by
    obtain ⟨hkey, hvalue, hmembers⟩ := hv
    rw [write, List.length_cons] at hfuel
    have hread := @takes_writeMembers n key value members [] depth rest hkey hvalue hmembers
      (Nat.le_of_succ_le_succ hd) (Nat.le_of_succ_le_succ hfuel)
    have htext : write S (.obj ((key, value) :: members)) ++ rest = 0x7B :: (writeString S key ++
        0x3A :: (blanks S.keyBlanks ++ (write S value ++ (writeMembers S members ++ rest)))) := by
      simp [write]
    rw [htext]
    exact .object (by rw [skip_writeString]; exact hread)

theorem takes_writeItems : ∀ (n : ℕ) {item : Json} {items before : List Json} {depth : ℕ} {rest : Text},
    Plain floatRepr item → PlainItems floatRepr items → heightItems (item :: items) ≤ depth →
    (write S item ++ writeItems S items).length ≤ n →
    Takes floatRepr n depth (.items before) (write S item ++ (writeItems S items ++ rest))
      (.arr (before ++ settleItems (item :: items))) rest
  | 0, item, items, _, _, _, _, _, _, hfuel => by
    have := length_writeItems (S := S) items
    rw [List.length_append] at hfuel
    omega
  | n + 1, item, items, before, depth, rest, hitem, hitems, hd, hfuel => by
    have hlen := length_writeItems (S := S) items
    rw [List.length_append] at hfuel
    have hread := @takes_write n item depth (writeItems S items ++ rest) hitem
      ((le_max_left _ _).trans hd) (by omega) (follows_writeItems items rest)
    cases items with
    | nil => exact .lastItem hread (skip_mark (by decide) rest)
    | cons item' items =>
      have hnext := @takes_writeItems n item' items (before ++ [settle item]) depth rest hitems.1
        hitems.2 ((le_max_right _ _).trans hd) (by
          simp only [writeItems, List.length_cons, List.length_append] at hfuel ⊢
          omega)
      have htext : writeItems S (item' :: items) ++ rest =
          0x2C :: (blanks S.itemBlanks ++ (write S item' ++ (writeItems S items ++ rest))) := by
        simp [writeItems]
      rw [List.append_assoc] at hnext
      rw [htext] at hread ⊢
      exact .item hread (skip_mark (by decide) _) (by rw [skip_blanks _ (skip_write hitems.1 _)]; exact hnext)

theorem takes_writeMembers : ∀ (n : ℕ) {key : Text} {value : Json} {members before : List (Text × Json)}
    {depth : ℕ} {rest : Text}, Points key → Plain floatRepr value → PlainMembers floatRepr members →
    heightMembers ((key, value) :: members) ≤ depth →
    (writeString S key ++
      0x3A :: (blanks S.keyBlanks ++ (write S value ++ writeMembers S members))).length ≤ n →
    Takes floatRepr n depth (.members before) (writeString S key ++
        0x3A :: (blanks S.keyBlanks ++ (write S value ++ (writeMembers S members ++ rest))))
      (.obj (settleMembers before ((key, value) :: members))) rest
  | 0, key, value, members, _, _, _, _, _, _, _, hfuel => by
    rw [List.length_append, List.length_cons] at hfuel
    omega
  | n + 1, key, value, members, before, depth, rest, hkey, hvalue, hmembers, hd, hfuel => by
    have hlen := length_writeMembers (S := S) members
    simp only [List.length_append, List.length_cons] at hfuel
    have hread := @takes_write n value depth (writeMembers S members ++ rest) hvalue
      ((le_max_left _ _).trans hd) (by omega) (follows_writeMembers members rest)
    rw [← skip_blanks S.keyBlanks (skip_write hvalue _)] at hread
    obtain ⟨t, ht, hstring⟩ := readString_write hS hkey
      (0x3A :: (blanks S.keyBlanks ++ (write S value ++ (writeMembers S members ++ rest))))
    rw [ht]
    cases members with
    | nil => exact .lastMember hstring (skip_mark (by decide) _) hread (skip_mark (by decide) rest)
    | cons member members =>
      obtain ⟨key', value'⟩ := member
      obtain ⟨hkey', hvalue', hmembers⟩ := hmembers
      have hnext := @takes_writeMembers n key' value' members
        (setL (merge key) (settle value) before) depth rest hkey' hvalue' hmembers
        ((le_max_right _ _).trans hd) (by
          simp only [writeMembers, List.length_cons, List.length_append] at hfuel ⊢
          omega)
      have hcomma : skip (writeMembers S ((key', value') :: members) ++ rest) = 0x2C :: (blanks S.itemBlanks ++
          (writeString S key' ++ 0x3A :: (blanks S.keyBlanks ++
            (write S value' ++ (writeMembers S members ++ rest))))) := by
        rw [writeMembers, List.cons_append, skip_mark (by decide)]
        simp
      rw [← skip_blanks S.itemBlanks (skip_writeString _ _)] at hnext
      exact .member hstring (skip_mark (by decide) _) hread hcomma hnext

end

/-- **What was written is read**, its surrogates merged, if the reader goes deep enough. -/
theorem loads_write {v : Json} {depth : ℕ} (hv : Plain floatRepr v) (hd : height v ≤ depth) :
    loads floatRepr depth (write S v) = some (settle v) := by
  have hskip := skip_write (S := S) hv []
  have htakes : Takes floatRepr (write S v).length depth .value (write S v ++ []) (settle v) [] :=
    takes_write hS _ hv hd le_rfl trivial
  have hread := htakes.readValue (Nat.le_succ _)
  rw [List.append_nil] at hskip hread
  rw [loads, hskip, hread]
  rfl

omit hS

/-! ### Lengths -/

theorem length_le_write_str (s : Text) : s.length ≤ (write S (.str s)).length := by
  have hone : ∀ c, 1 ≤ (S.escape c).length := by
    intro c
    have := length_escape c
    unfold Style.escape escapeRaw
    split_ifs <;> simp_all
  rw [write, writeString, List.length_cons, List.length_append]
  induction s with
  | nil => simp
  | cons c s ih =>
    have := hone c
    simp only [List.flatMap_cons, List.length_append, List.length_cons] at ih ⊢
    omega

theorem length_le_writeItems {v : Json} : ∀ {items : List Json}, v ∈ items →
    (write S v).length ≤ (writeItems S items).length
  | item :: items, h => by
    rw [writeItems, List.length_cons, List.length_append, List.length_append]
    rcases List.mem_cons.mp h with rfl | h
    · omega
    · have := length_le_writeItems h
      omega

theorem length_le_writeMembers {e : Text × Json} : ∀ {members : List (Text × Json)}, e ∈ members →
    (write S e.2).length ≤ (writeMembers S members).length
  | (key, value) :: members, h => by
    simp only [writeMembers, List.length_cons, List.length_append]
    rcases List.mem_cons.mp h with rfl | h
    · dsimp only
      omega
    · have := length_le_writeMembers h
      omega

theorem length_le_write_arr {v : Json} {items : List Json} (h : v ∈ items) :
    (write S v).length ≤ (write S (.arr items)).length := by
  match items, h with
  | item :: items, h =>
    rw [write, List.length_cons, List.length_append]
    rcases List.mem_cons.mp h with rfl | h
    · omega
    · have := length_le_writeItems (S := S) h
      omega

variable {members : List (Text × Json)}

theorem length_le_write_obj {e : Text × Json} {members : List (Text × Json)} (h : e ∈ members) :
    (write S e.2).length ≤ (write S (.obj members)).length := by
  match members, h with
  | (key, value) :: members, h =>
    simp only [write, List.length_cons, List.length_append]
    rcases List.mem_cons.mp h with rfl | h
    · dsimp only
      omega
    · have := length_le_writeMembers (S := S) h
      omega

/-! ### Values made of parts -/

theorem plainItems_iff : ∀ {items : List Json},
    PlainItems floatRepr items ↔ ∀ v ∈ items, Plain floatRepr v
  | [] => by simp [PlainItems]
  | item :: items => by rw [PlainItems, plainItems_iff, List.forall_mem_cons]

theorem plainMembers_iff : ∀ {members : List (Text × Json)},
    PlainMembers floatRepr members ↔ ∀ e ∈ members, Points e.1 ∧ Plain floatRepr e.2
  | [] => by simp [PlainMembers]
  | (key, value) :: members => by
    rw [PlainMembers, plainMembers_iff, List.forall_mem_cons, and_assoc]

theorem settleItems_eq : ∀ items : List Json, settleItems items = items.map settle
  | [] => rfl
  | item :: items => by rw [settleItems, settleItems_eq items, List.map_cons]

theorem settleMembers_eq : ∀ {members before : List (Text × Json)},
    (∀ e ∈ members, merge e.1 = e.1) → ((before ++ members).map Prod.fst).Nodup →
    settleMembers before members = before ++ members.map fun e => (e.1, settle e.2)
  | [], before, _, _ => by rw [settleMembers, List.map_nil, List.append_nil]
  | (key, value) :: members, before, hsame, hkeys => by
    have hmerge : merge key = key := hsame _ List.mem_cons_self
    have hnew : setL key (settle value) before = before ++ [(key, settle value)] := by
      refine setL_of_notMem fun hmem => ?_
      rw [List.map_append, List.nodup_append] at hkeys
      exact hkeys.2.2 key hmem key List.mem_cons_self rfl
    rw [settleMembers, hmerge, hnew, settleMembers_eq fun e he => hsame e (List.mem_cons_of_mem _ he)]
    · rw [List.map_cons, List.append_assoc, List.singleton_append]
    · simpa using hkeys

theorem settle_apart (hsame : ∀ e ∈ members, merge e.1 = e.1) (hkeys : (members.map Prod.fst).Nodup) :
    settle (.obj members) = .obj (members.map fun e => (e.1, settle e.2)) := by
  rw [settle, settleMembers_eq hsame (by simpa using hkeys), List.nil_append]

theorem settle_obj (hscalar : ∀ e ∈ members, ∀ c ∈ e.1, Scalar c) (hkeys : (members.map Prod.fst).Nodup) :
    settle (.obj members) = .obj (members.map fun e => (e.1, settle e.2)) :=
  settle_apart (fun e he => merge_scalars (hscalar e he)) hkeys

/-! ### The standard style -/

section Standard

mutual

theorem write_standard : ∀ v : Json, write standard v = dumps v
  | .null => by rw [write, dumps]
  | .bool _ => by rw [write, dumps]
  | .int _ => by rw [write, dumps]
  | .float _ => by rw [write, dumps]
  | .str _ => by
    rw [write, dumps]
    rfl
  | .arr [] => by decide
  | .arr (item :: items) => by rw [write, dumps, write_standard item, writeItems_standard items]
  | .obj [] => by rw [write, dumps]
  | .obj ((_, value) :: members) => by
    rw [write, dumps, write_standard value, writeMembers_standard members]
    rfl

theorem writeItems_standard : ∀ items : List Json, writeItems standard items = dumpItems items
  | [] => by rw [writeItems, dumpItems]
  | item :: items => by
    rw [writeItems, dumpItems, write_standard item, writeItems_standard items]
    rfl

theorem writeMembers_standard : ∀ members : List (Text × Json),
    writeMembers standard members = dumpMembers members
  | [] => by rw [writeMembers, dumpMembers]
  | (_, value) :: members => by
    rw [writeMembers, dumpMembers, write_standard value, writeMembers_standard members]
    rfl

end

mutual

theorem plain_of_clean : ∀ {v : Json}, Clean v → Plain floatRepr v
  | .null, _ => trivial
  | .bool _, _ => trivial
  | .int _, h => h
  | .float _, h => h.elim
  | .str _, h => points_of_scalars h
  | .arr _, h => plain_of_cleanItems h
  | .obj _, h => plain_of_cleanMembers h.2

theorem plain_of_cleanItems : ∀ {items : List Json}, CleanItems items → PlainItems floatRepr items
  | [], _ => trivial
  | _ :: _, h => ⟨plain_of_clean h.1, plain_of_cleanItems h.2⟩

theorem plain_of_cleanMembers : ∀ {members : List (Text × Json)}, CleanMembers members →
    PlainMembers floatRepr members
  | [], _ => trivial
  | (_, _) :: _, h => ⟨points_of_scalars h.1, plain_of_clean h.2.1, plain_of_cleanMembers h.2.2⟩

end

mutual

theorem settle_clean : ∀ {v : Json}, Clean v → settle v = v
  | .null, _ => rfl
  | .bool _, _ => rfl
  | .int _, _ => rfl
  | .float _, h => h.elim
  | .str _, h => by rw [settle, merge_scalars h]
  | .arr _, h => by rw [settle, settleItems_clean h]
  | .obj _, h => by
    rw [settle_obj (fun e he => (cleanMembers_iff.mp h.2 e he).1) h.1, settleMembers_clean h.2]

theorem settleItems_clean : ∀ {items : List Json}, CleanItems items → settleItems items = items
  | [], _ => rfl
  | _ :: _, h => by rw [settleItems, settle_clean h.1, settleItems_clean h.2]

theorem settleMembers_clean : ∀ {members : List (Text × Json)}, CleanMembers members →
    (members.map fun e => (e.1, settle e.2)) = members
  | [], _ => rfl
  | (_, _) :: _, h => by rw [List.map_cons, settle_clean h.2.1, settleMembers_clean h.2.2]

end

/-- **What was written of a clean value is read**, if the reader goes deep enough. -/
theorem loads_dumps {v : Json} {depth : ℕ} (hv : Clean v) (hd : height v ≤ depth) :
    loads floatRepr depth (dumps v) = some v := by
  rw [← write_standard, loads_write rfl (plain_of_clean hv) hd, settle_clean hv]

end Standard

/-! ### ASCII -/

/-- A text that is the same in ASCII and in UTF-8. -/
def Ascii (text : Text) : Prop := ∀ c ∈ text, c < 0x80

theorem ascii_append {s t : Text} : Ascii (s ++ t) ↔ Ascii s ∧ Ascii t := by
  unfold Ascii
  rw [List.forall_mem_append]

theorem ascii_cons {c : ℕ} {s : Text} : Ascii (c :: s) ↔ c < 0x80 ∧ Ascii s := by
  unfold Ascii
  rw [List.forall_mem_cons]

theorem ascii_blanks (n : ℕ) : Ascii (blanks n) := by
  intro c hc
  rw [(List.mem_replicate.mp hc).2]
  decide

theorem ascii_hex4 (n : ℕ) : Ascii (hex4 n) := by
  have hdigit : ∀ k < 16, digit k < 0x80 := by
    intro k hk
    unfold digit
    split_ifs <;> omega
  intro c hc
  simp only [hex4, List.mem_cons, List.not_mem_nil, or_false] at hc
  rcases hc with rfl | rfl | rfl | rfl <;> exact hdigit _ (Nat.mod_lt _ (by decide))

theorem ascii_escape {c : ℕ} (hc : c < 0x110000) : Ascii (JsonText.escape c) := by
  unfold JsonText.escape
  split_ifs with hmark hn hr ht hf hb hplain hsmall
  · rw [ascii_cons, ascii_cons]
    exact ⟨by decide, by omega, fun x hx => by cases hx⟩
  · unfold Ascii
    decide
  · unfold Ascii
    decide
  · unfold Ascii
    decide
  · unfold Ascii
    decide
  · unfold Ascii
    decide
  · rw [ascii_cons]
    exact ⟨by omega, fun x hx => by cases hx⟩
  · rw [ascii_cons, ascii_cons]
    exact ⟨by decide, by decide, ascii_hex4 _⟩
  · rw [ascii_cons, ascii_cons, ascii_append, ascii_cons, ascii_cons]
    exact ⟨by decide, by decide, ascii_hex4 _, by decide, by decide, ascii_hex4 _⟩

section Written

variable (hS : S.ensureAscii = true)
include hS

theorem ascii_writeString {s : Text} (hs : Points s) : Ascii (writeString S s) := by
  rw [writeString, ascii_cons, ascii_append, ascii_cons]
  refine ⟨by decide, fun c hc => ?_, by decide, fun c hc => by cases hc⟩
  obtain ⟨x, hx, hcx⟩ := List.mem_flatMap.mp hc
  rw [Style.escape, if_pos hS] at hcx
  exact ascii_escape (hs x hx) c hcx

theorem ascii_writeMembers : ∀ {members : List (Text × Json)},
    (∀ e ∈ members, Points e.1 ∧ Ascii (write S e.2)) → Ascii (writeMembers S members)
  | [], _ => by
    rw [writeMembers, ascii_cons]
    exact ⟨by decide, fun c hc => by cases hc⟩
  | (key, value) :: members, h => by
    obtain ⟨hkey, hvalue⟩ := h _ List.mem_cons_self
    simp only [writeMembers, ascii_cons, ascii_append]
    exact ⟨by decide, ascii_blanks _, ascii_writeString hS hkey, by decide, ascii_blanks _, hvalue,
      ascii_writeMembers fun e he => h e (List.mem_cons_of_mem _ he)⟩

theorem ascii_write_obj {members : List (Text × Json)}
    (h : ∀ e ∈ members, Points e.1 ∧ Ascii (write S e.2)) : Ascii (write S (.obj members)) := by
  match members, h with
  | [], _ =>
    rw [write, ascii_cons, ascii_cons]
    exact ⟨by decide, by decide, fun c hc => by cases hc⟩
  | (key, value) :: members, h =>
    obtain ⟨hkey, hvalue⟩ := h _ List.mem_cons_self
    simp only [write, ascii_cons, ascii_append]
    exact ⟨by decide, ascii_writeString hS hkey, by decide, ascii_blanks _, hvalue,
      ascii_writeMembers hS fun e he => h e (List.mem_cons_of_mem _ he)⟩

end Written

/-! ### Whole floats -/

theorem span_digits : ∀ {t rest : Text}, (∀ d ∈ t, isDigit d = true) →
    (∀ c r, rest = c :: r → isDigit c = false) →
    (t ++ rest).takeWhile isDigit = t ∧ (t ++ rest).dropWhile isDigit = rest
  | [], [], _, _ => ⟨rfl, rfl⟩
  | [], c :: r, _, h => by
    have hc := h c r rfl
    simp [hc]
  | d :: t, rest, hall, h => by
    obtain ⟨htake, hdrop⟩ := span_digits (fun x hx => hall x (List.mem_cons_of_mem d hx)) h
    have hd := hall d List.mem_cons_self
    simp [hd, htake, hdrop]

theorem dumpFloat_whole (n : ℕ) : dumpFloat (digits n ++ [0x2E, 0x30]) = digits n ++ [0x2E, 0x30] := by
  obtain ⟨c, t, hct, -, hall⟩ := digits_shape n
  have hrange := of_decide_eq_true (hall c (by rw [hct]; exact List.mem_cons_self))
  have hhead : ∀ w : Text, (∀ x r, w = x :: r → x ≠ c) → w ≠ [] → digits n ++ [0x2E, 0x30] ≠ w := by
    intro w hw hne heq
    rw [hct] at heq
    exact hw c _ heq.symm rfl
  unfold dumpFloat
  rw [if_neg, if_neg, if_neg] <;> refine hhead _ (fun x r h => ?_) (by decide)
  · have : (0x2D : ℕ) = x := (List.cons.inj h).1
    omega
  · have : (0x69 : ℕ) = x := (List.cons.inj h).1
    omega
  · have : (0x6E : ℕ) = x := (List.cons.inj h).1
    omega

theorem floatText_whole {n : ℕ} (hrepr : floatRepr (digits n ++ [0x2E, 0x30]) = digits n ++ [0x2E, 0x30]) :
    FloatText floatRepr (digits n ++ [0x2E, 0x30]) := by
  obtain ⟨c, t, hct, hzero, hall⟩ := digits_shape n
  have hc : isDigit c = true := hall c (by rw [hct]; exact List.mem_cons_self)
  have hrange := of_decide_eq_true hc
  have hdump := dumpFloat_whole n
  refine ⟨?_, fun rest hrest => ?_⟩
  · refine ⟨c, t ++ [0x2E, 0x30], by rw [hdump, hct]; rfl, decide_eq_false (by omega), ?_⟩
    omega
  · have hword : (words.findSome? fun e =>
        (expect e.1 (digits n ++ [0x2E, 0x30] ++ rest)).map (e.2, ·)) = none := by
      rw [List.findSome?_eq_none_iff]
      intro e he
      have hmem := List.mem_map_of_mem (f := Prod.fst) he
      rw [ascii_words] at hmem
      simp only [List.mem_cons, List.not_mem_nil, or_false] at hmem
      have hnone : expect e.1 (digits n ++ [0x2E, 0x30] ++ rest) = none := by
        rw [hct]
        rcases hmem with h | h | h | h | h | h <;> rw [h] <;> exact expect_ne (by omega) _ _
      rw [hnone]
      rfl
    have hspan := @span_digits _ (0x2E :: 0x30 :: rest)
      (fun d hd => hall d (by rw [hct]; exact List.mem_cons_of_mem c hd)) (fun c' r h => by
        rw [← (List.cons.inj h).1]
        decide)
    have hint : readInteger (digits n ++ 0x2E :: 0x30 :: rest) =
        some (digits n, 0x2E :: 0x30 :: rest) := by
      rw [hct, List.cons_append, readInteger]
      split_ifs with hz
      · rw [hz, hzero hz, List.nil_append]
      · rw [hspan.1, hspan.2]
    have hfraction : readFraction (0x2E :: 0x30 :: rest) = ([0x2E, 0x30], rest) := by
      obtain ⟨htake, hdrop⟩ := digits_span hrest (t := []) (fun _ hd => by cases hd)
      rw [List.nil_append] at htake hdrop
      rw [readFraction, if_pos (by decide), htake, hdrop]
    have happend : digits n ++ [0x2E, 0x30] ++ rest = digits n ++ 0x2E :: 0x30 :: rest := by simp
    rw [hdump]
    unfold readPlain
    rw [hword]
    show readNumber floatRepr (digits n ++ [0x2E, 0x30] ++ rest) = _
    have hnumber : readNumber floatRepr (digits n ++ 0x2E :: 0x30 :: rest) =
        readMagnitude floatRepr false (digits n ++ 0x2E :: 0x30 :: rest) := by
      rw [hct, List.cons_append, readNumber, if_neg (by omega)]
    rw [happend, hnumber]
    unfold readMagnitude
    rw [hint]
    simp only [Option.bind_eq_bind, Option.bind_some, hfraction, readExponent_follows hrest]
    rw [if_neg (by simp)]
    simp [hrepr]

/-- `repr` of the floats that are whole, and of no other. -/
def wholeRepr (text : Text) : Text :=
  let n := ofDigits (text.takeWhile isDigit)
  if text = digits n ++ [0x2E, 0x30] then text else [0x30, 0x2E, 0x30]

theorem wholeRepr_digits (n : ℕ) : wholeRepr (digits n ++ [0x2E, 0x30]) = digits n ++ [0x2E, 0x30] := by
  obtain ⟨c, t, -, -, hall⟩ := digits_shape n
  have htake : (digits n ++ [0x2E, 0x30]).takeWhile isDigit = digits n :=
    (span_digits hall fun c r h => by rw [← (List.cons.inj h).1]; decide).1
  unfold wholeRepr
  rw [htake, ofDigits_digits]
  exact if_pos rfl

theorem floatText_wholeRepr (n : ℕ) : FloatText wholeRepr (digits n ++ [0x2E, 0x30]) :=
  floatText_whole (wholeRepr_digits n)

end NMesh.Base.JsonStyle
