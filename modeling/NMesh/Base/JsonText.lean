import NMesh.Base.Hex
import NMesh.Base.Ordered
import Mathlib.Data.List.Lex
import Mathlib.Data.List.Sort

/-! # JSON

Values, the reader `loads` and the writer `dumps` of Python's `json` module with its default settings. An object
keeps its members in the order in which their keys first came, the last value of a key winning. A float is kept as
the text `repr` gives it, which `floatRepr` finds. The reader follows an object or an array only `depth` deep, and
reads no integer of more than 4300 digits. -/

namespace NMesh.Base.JsonText

open Base.Utf8 Base.Hex Base.Ordered

inductive Json
  | null
  | bool (b : Bool)
  | int (n : ℤ)
  | float (repr : Text)
  | str (s : Text)
  | arr (items : List Json)
  | obj (members : List (Text × Json))

namespace Json

/-- The value of a key, if this is an object that has it. -/
def get? : Json → Text → Option Json
  | obj members, key => getL key members
  | _, _ => none

def text? : Json → Option Text
  | str s => some s
  | _ => none

/-- The number, if this is an integer; a Boolean is none. -/
def int? : Json → Option ℤ
  | int n => some n
  | _ => none

end Json

open Json

/-! ### Reading -/

def maxDigits : ℕ := 4300

def isBlank (c : ℕ) : Bool := c = 0x20 ∨ c = 0x09 ∨ c = 0x0A ∨ c = 0x0D

def isDigit (c : ℕ) : Bool := 0x30 ≤ c ∧ c ≤ 0x39

def skip (text : Text) : Text := text.dropWhile isBlank

/-- What follows a word the text starts with. -/
def expect (word text : Text) : Option Text :=
  if word.isPrefixOf text then some (text.drop word.length) else none

def readHex4 : Text → Option (ℕ × Text)
  | a :: b :: c :: d :: rest => do
    let a ← ofDigit a
    let b ← ofDigit b
    let c ← ofDigit c
    let d ← ofDigit d
    return (((a * 16 + b) * 16 + c) * 16 + d, rest)
  | _ => none

def isHigh (c : ℕ) : Bool := 0xD800 ≤ c ∧ c < 0xDC00

def isLow (c : ℕ) : Bool := 0xDC00 ≤ c ∧ c < 0xE000

/-- The code point of a pair of surrogates. -/
def joined (high low : ℕ) : ℕ := 0x10000 + (high - 0xD800) * 1024 + (low - 0xDC00)

/-- The character of a one-letter escape. -/
def unescape (c : ℕ) : Option ℕ :=
  if c = 0x22 ∨ c = 0x5C ∨ c = 0x2F then some c
  else if c = 0x62 then some 0x08
  else if c = 0x66 then some 0x0C
  else if c = 0x6E then some 0x0A
  else if c = 0x72 then some 0x0D
  else if c = 0x74 then some 0x09
  else none

/-- One escape, after its backslash. Two escapes that make a pair of surrogates are one character. -/
def readEscape : Text → Option (ℕ × Text)
  | [] => none
  | c :: rest =>
    if c = 0x75 then do
      let (high, rest) ← readHex4 rest
      match isHigh high, expect [0x5C, 0x75] rest with
      | true, some more => do
        let (low, last) ← readHex4 more
        return if isLow low then (joined high low, last) else (high, rest)
      | _, _ => return (high, rest)
    else (unescape c).map (·, rest)

/-- A string, after its opening quote. -/
def readString : ℕ → Text → Option (Text × Text)
  | 0, _ => none
  | _ + 1, [] => none
  | fuel + 1, c :: rest =>
    if c = 0x22 then some ([], rest)
    else if c = 0x5C then do
      let (c, rest) ← readEscape rest
      let (s, rest) ← readString fuel rest
      return (c :: s, rest)
    else if c < 0x20 then none
    else do
      let (s, rest) ← readString fuel rest
      return (c :: s, rest)

def ofDigits (digits : Text) : ℕ := digits.foldl (fun n c => n * 10 + (c - 0x30)) 0

/-- The digits of an integer: a zero, or digits that start with none. -/
def readInteger : Text → Option (Text × Text)
  | [] => none
  | c :: rest =>
    if c = 0x30 then some ([c], rest)
    else if isDigit c then some (c :: rest.takeWhile isDigit, rest.dropWhile isDigit)
    else none

/-- The fraction of a number, if there is one. -/
def readFraction : Text → Text × Text
  | c :: d :: rest =>
    if c = 0x2E ∧ isDigit d then (c :: d :: rest.takeWhile isDigit, rest.dropWhile isDigit)
    else ([], c :: d :: rest)
  | text => ([], text)

/-- The exponent of a number, if there is one. -/
def readExponent : Text → Text × Text
  | c :: d :: rest =>
    if c = 0x65 ∨ c = 0x45 then
      if isDigit d then (c :: d :: rest.takeWhile isDigit, rest.dropWhile isDigit)
      else
        match (d = 0x2B ∨ d = 0x2D : Bool), rest with
        | true, e :: rest' =>
          if isDigit e then (c :: d :: e :: rest'.takeWhile isDigit, rest'.dropWhile isDigit)
          else ([], c :: d :: rest)
        | _, _ => ([], c :: d :: rest)
    else ([], c :: d :: rest)
  | text => ([], text)

variable (floatRepr : Text → Text)

def readMagnitude (negative : Bool) (text : Text) : Option (Json × Text) := do
  let (digits, rest) ← readInteger text
  let (fraction, rest) := readFraction rest
  let (exponent, rest) := readExponent rest
  if fraction = [] ∧ exponent = [] then
    if digits.length ≤ maxDigits then
      return (int (if negative then -(ofDigits digits : ℤ) else ofDigits digits), rest)
    else none
  else
    let sign : Text := if negative then [0x2D] else []
    return (float (floatRepr (sign ++ (digits ++ (fraction ++ exponent)))), rest)

def readNumber : Text → Option (Json × Text)
  | [] => none
  | c :: rest =>
    if c = 0x2D then readMagnitude floatRepr true rest else readMagnitude floatRepr false (c :: rest)

def words : List (Text × Json) :=
  [(ascii "null", null), (ascii "true", bool true), (ascii "false", bool false),
    (ascii "NaN", float (ascii "nan")), (ascii "Infinity", float (ascii "inf")),
    (ascii "-Infinity", float (ascii "-inf"))]

def readPlain (text : Text) : Option (Json × Text) :=
  match words.findSome? fun e => (expect e.1 text).map (e.2, ·) with
  | some found => some found
  | none => readNumber floatRepr text

mutual

def readValue : ℕ → ℕ → Text → Option (Json × Text)
  | 0, _, _ => none
  | _ + 1, _, [] => none
  | fuel + 1, depth, c :: rest =>
    if c = 0x22 then (readString rest.length rest).map fun p => (str p.1, p.2)
    else if c = 0x7B then
      match depth with
      | 0 => none
      | depth + 1 =>
        match expect [0x7D] (skip rest) with
        | some rest' => some (obj [], rest')
        | none => readMembers fuel depth [] (skip rest)
    else if c = 0x5B then
      match depth with
      | 0 => none
      | depth + 1 =>
        match expect [0x5D] (skip rest) with
        | some rest' => some (arr [], rest')
        | none => readItems fuel depth [] (skip rest)
    else readPlain floatRepr (c :: rest)

/-- The members of an object that has some, after those read before. -/
def readMembers : ℕ → ℕ → List (Text × Json) → Text → Option (Json × Text)
  | 0, _, _, _ => none
  | fuel + 1, depth, members, text =>
    match expect [0x22] text with
    | none => none
    | some rest =>
      match readString rest.length rest with
      | none => none
      | some (key, rest) =>
        match expect [0x3A] (skip rest) with
        | none => none
        | some rest =>
          match readValue fuel depth (skip rest) with
          | none => none
          | some (value, rest) =>
            match expect [0x2C] (skip rest), expect [0x7D] (skip rest) with
            | some rest, _ => readMembers fuel depth (setL key value members) (skip rest)
            | none, some rest => some (obj (setL key value members), rest)
            | none, none => none

/-- The items of an array that has some, after those read before. -/
def readItems : ℕ → ℕ → List Json → Text → Option (Json × Text)
  | 0, _, _, _ => none
  | fuel + 1, depth, items, text =>
    match readValue fuel depth text with
    | none => none
    | some (value, rest) =>
      match expect [0x2C] (skip rest), expect [0x5D] (skip rest) with
      | some rest, _ => readItems fuel depth (items ++ [value]) (skip rest)
      | none, some rest => some (arr (items ++ [value]), rest)
      | none, none => none

end

/-- `json.loads(text)`; `none` where it raises. -/
def loads (depth : ℕ) (text : Text) : Option Json :=
  match readValue floatRepr ((skip text).length + 1) depth (skip text) with
  | some (value, rest) => if skip rest = [] then some value else none
  | none => none

theorem loads_blank {c : ℕ} (h : isBlank c = true) (depth : ℕ) (text : Text) :
    loads floatRepr depth (c :: text) = loads floatRepr depth text := by
  have hskip : skip (c :: text) = skip text := by rw [skip, List.dropWhile_cons_of_pos h, skip]
  rw [loads, hskip, loads]

/-! ### Writing -/

/-- Four lower-case hexadecimal digits. -/
def hex4 (n : ℕ) : Text :=
  [digit (n / 4096 % 16), digit (n / 256 % 16), digit (n / 16 % 16), digit (n % 16)]

def escape (c : ℕ) : Text :=
  if c = 0x22 ∨ c = 0x5C then [0x5C, c]
  else if c = 0x0A then [0x5C, 0x6E]
  else if c = 0x0D then [0x5C, 0x72]
  else if c = 0x09 then [0x5C, 0x74]
  else if c = 0x0C then [0x5C, 0x66]
  else if c = 0x08 then [0x5C, 0x62]
  else if 0x20 ≤ c ∧ c ≤ 0x7E then [c]
  else if c < 0x10000 then 0x5C :: 0x75 :: hex4 c
  else 0x5C :: 0x75 :: (hex4 (0xD800 + (c - 0x10000) / 1024) ++
    0x5C :: 0x75 :: hex4 (0xDC00 + (c - 0x10000) % 1024))

def dumpString (s : Text) : Text := 0x22 :: (s.flatMap escape ++ [0x22])

def digits (n : ℕ) : Text := (Nat.toDigits 10 n).map Char.toNat

def dumpInt (n : ℤ) : Text := if n < 0 then 0x2D :: digits n.natAbs else digits n.natAbs

/-- How a float is written: as `repr` writes it, the special ones apart. -/
def dumpFloat (repr : Text) : Text :=
  if repr = ascii "nan" then ascii "NaN"
  else if repr = ascii "inf" then ascii "Infinity"
  else if repr = ascii "-inf" then ascii "-Infinity"
  else repr

mutual

/-- `json.dumps(value)` -/
def dumps : Json → Text
  | .null => ascii "null"
  | .bool b => if b then ascii "true" else ascii "false"
  | .int n => dumpInt n
  | .float repr => dumpFloat repr
  | .str s => dumpString s
  | .arr [] => ascii "[]"
  | .arr (item :: items) => 0x5B :: (dumps item ++ dumpItems items)
  | .obj [] => [0x7B, 0x7D]
  | .obj ((key, value) :: members) =>
    0x7B :: (dumpString key ++ (0x3A :: 0x20 :: (dumps value ++ dumpMembers members)))

/-- The items after the first, and the bracket. -/
def dumpItems : List Json → Text
  | [] => [0x5D]
  | item :: items => 0x2C :: 0x20 :: (dumps item ++ dumpItems items)

/-- The members after the first, and the brace. -/
def dumpMembers : List (Text × Json) → Text
  | [] => [0x7D]
  | (key, value) :: members =>
    0x2C :: 0x20 :: (dumpString key ++ (0x3A :: 0x20 :: (dumps value ++ dumpMembers members)))

end

/-- `json.dumps({…}, sort_keys=True)` for an object whose members hold no object. -/
def dumpsSorted (members : List (Text × Json)) : Text :=
  dumps (.obj (members.insertionSort fun a b => a.1 ≤ b.1))

/-! ### The end of a string -/

/-- What follows the quote that closes a string; is the first character escaped? -/
def closing : Bool → Text → Option Text
  | _, [] => none
  | true, _ :: rest => closing false rest
  | false, c :: rest => if c = 0x22 then some rest else closing (decide (c = 0x5C)) rest

theorem closing_plain {c : ℕ} (hquote : c ≠ 0x22) (hslash : c ≠ 0x5C) (rest : Text) :
    closing false (c :: rest) = closing false rest := by
  rw [closing, if_neg hquote, decide_eq_false hslash]

theorem closing_slash {b : ℕ} (hb : b = 0x5C) (c : ℕ) (rest : Text) :
    closing false (b :: c :: rest) = closing false rest := by
  rw [closing, if_neg (by omega), decide_eq_true hb, closing]

theorem closing_digit {n : ℕ} (h : n < 16) (rest : Text) :
    closing false (digit n :: rest) = closing false rest := by
  refine closing_plain ?_ ?_ rest <;> unfold digit <;> split_ifs <;> omega

theorem closing_hex4 (n : ℕ) (rest : Text) : closing false (hex4 n ++ rest) = closing false rest := by
  show closing false (digit _ :: digit _ :: digit _ :: digit _ :: rest) = _
  rw [closing_digit (Nat.mod_lt _ (by decide)), closing_digit (Nat.mod_lt _ (by decide)),
    closing_digit (Nat.mod_lt _ (by decide)), closing_digit (Nat.mod_lt _ (by decide))]

theorem closing_escape (c : ℕ) (rest : Text) :
    closing false (escape c ++ rest) = closing false rest := by
  unfold escape
  split_ifs with hmark _ _ _ _ _ hplain
  · exact closing_slash rfl c rest
  · exact closing_slash rfl _ rest
  · exact closing_slash rfl _ rest
  · exact closing_slash rfl _ rest
  · exact closing_slash rfl _ rest
  · exact closing_slash rfl _ rest
  · exact closing_plain (by omega) (by omega) rest
  · rw [List.cons_append, List.cons_append, closing_slash rfl, closing_hex4]
  · rw [List.cons_append, List.cons_append, List.append_assoc, closing_slash rfl, closing_hex4,
      List.cons_append, List.cons_append, closing_slash rfl, closing_hex4]

theorem closing_text (rest : Text) : ∀ s : Text, closing false (s.flatMap escape ++ 0x22 :: rest) = some rest
  | [] => rfl
  | c :: s => by
    rw [List.flatMap_cons, List.append_assoc, closing_escape]
    exact closing_text rest s

theorem dumpString_append_inj {s s' rest rest' : Text}
    (h : dumpString s ++ rest = dumpString s' ++ rest') : dumpString s = dumpString s' ∧ rest = rest' := by
  have hopen : s.flatMap escape ++ 0x22 :: rest = s'.flatMap escape ++ 0x22 :: rest' := by
    simpa [dumpString] using h
  have hrest : rest = rest' := by
    have := congrArg (closing false) hopen
    rw [closing_text, closing_text] at this
    exact Option.some.inj this
  rw [hrest] at h
  exact ⟨List.append_cancel_right h, hrest⟩

end NMesh.Base.JsonText
