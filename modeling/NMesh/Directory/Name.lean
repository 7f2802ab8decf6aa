import NMesh.Base.Utf8
import Mathlib.Data.List.DropRight

/-! # Names

The one accepted form of a name (`canonical`), the form a search compares (`fold`) and the terms a name
is filed under (`keyTerms`). The Unicode database is a parameter. -/

namespace NMesh.Directory.Name

open Base.Utf8

/-- The general categories that are asked for; `other` are the rest. -/
inductive Category
  | cc | cf | cs | co | cn
  | zl | zp | zs
  | mn
  | other
  deriving DecidableEq

/-- The Unicode database: the two normal forms, case folding, categories and white space. -/
structure Unicode where
  nfc : Text → Text
  nfd : Text → Text
  casefold : Text → Text
  category : ℕ → Category
  isSpace : ℕ → Bool

variable (U : Unicode)

def maxPseudo : ℕ := 50

def Category.forbidden : Category → Bool
  | cc | cf | cs | co | cn => true
  | _ => false

def Category.separator : Category → Bool
  | zl | zp | zs => true
  | _ => false

/-- The characters kept of a text, after those kept before; `none` if one is refused. -/
def squeeze : Text → Text → Option Text
  | out, [] => some out
  | out, ch :: rest =>
    if (U.category ch).forbidden then none
    else if (U.category ch).separator then
      if ch ≠ 0x20 then none
      else if out.getLast? = some 0x20 then squeeze out rest
      else squeeze (out ++ [ch]) rest
    else squeeze (out ++ [ch]) rest

/-- `text.strip(" ")` -/
def strip (text : Text) : Text := (text.dropWhile (· = 0x20)).rdropWhile (· = 0x20)

def canonical (text : Text) : Option Text := do
  let out ← squeeze U [] (U.nfc text)
  if strip out = [] ∨ maxPseudo < (strip out).length then none else some (strip out)

def isCanonical (text : Text) : Bool := canonical U text = some text

def fold (text : Text) : Text :=
  let pseudo := match canonical U text with
    | some pseudo => pseudo
    | none => (List.intercalate [0x20] (((U.nfc text).splitOnP U.isSpace).filter (· ≠ []))).take
        maxPseudo
  if pseudo = [] then []
  else U.nfc ((U.nfd (U.casefold pseudo)).filter fun ch => U.category ch ≠ .mn)

/-! ### The terms of a name -/

def maxIndexTerms : ℕ := 24

def maxTerm : ℕ := 12

def minTerm : ℕ := 2

def prefixes (word : Text) : List Text :=
  (List.range' (min minTerm word.length) (min word.length maxTerm + 1 - min minTerm word.length)).map
    word.take

/-- The terms a name is filed under: the whole, then the prefixes of its words. -/
def keyTerms (text : Text) : List Text :=
  let folded := fold U text
  if folded = [] then []
  else (((folded :: (folded.splitOn 0x20).flatMap prefixes).filter (· ≠ [])).eraseDups).take
    maxIndexTerms

end NMesh.Directory.Name
