import NMesh.Base.Utf8
import Mathlib.Data.List.DropRight

/-! # What Python's `str` says of characters

The Unicode tables are parameters. -/

namespace NMesh.Base.Chars

open Base.Utf8

/-- `str.isprintable` and `str.isspace`, character by character. -/
structure Characters where
  isPrintable : ℕ → Bool
  isSpace : ℕ → Bool

/-- The tables for ASCII; no other character is printable. -/
def asciiTables : Characters where
  isPrintable c := decide (0x20 ≤ c ∧ c < 0x7F)
  isSpace c := decide (c = 0x20 ∨ 0x09 ≤ c ∧ c ≤ 0x0D ∨ 0x1C ≤ c ∧ c ≤ 0x1F)

variable (C : Characters)

/-- `"".join(ch for ch in text if ch.isprintable())` -/
def printable (text : Text) : Text := text.filter C.isPrintable

/-- `text.strip()` -/
def strip (text : Text) : Text := (text.dropWhile C.isSpace).rdropWhile C.isSpace

end NMesh.Base.Chars
