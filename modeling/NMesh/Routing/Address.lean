import NMesh.Base.Utf8

/-! # Addresses

An address is a URI `scheme://opaque`. `validateUri` accepts at most 256 bytes of UTF-8, a short
lower-case scheme and no control character. -/

namespace NMesh.Routing.Address

open Base.Utf8

def maxUriLen : ℕ := 256

def maxAddresses : ℕ := 8

/-- `text.find(word)` -/
def find (word text : Text) : Option ℕ :=
  (List.range (text.length + 1)).find? fun i => word.isPrefixOf (text.drop i)

def isLower (c : ℕ) : Bool := 0x61 ≤ c ∧ c ≤ 0x7A

def isDigit (c : ℕ) : Bool := 0x30 ≤ c ∧ c ≤ 0x39

/-- Does `^[a-z][a-z0-9]{0,15}$` match? The dollar also matches before a final newline. -/
def isScheme : Text → Bool
  | [] => false
  | c :: rest =>
    let word := if rest.getLast? = some 0x0A then rest.dropLast else rest
    isLower c && word.all (fun c => isLower c || isDigit c) && decide (word.length ≤ 15)

def isControl (c : ℕ) : Bool := c < 0x20 ∨ c = 0x7F

/-- What a URI check comes to: it raises on a lone surrogate. -/
inductive Checked
  | raised
  | invalid
  | valid (scheme opaqueness : Text)
  deriving DecidableEq

def validateUri (s : Text) : Checked :=
  match encodeUtf8 s with
  | none => .raised
  | some data =>
    if maxUriLen < data.length then .invalid
    else
      match find (ascii "://") s with
      | none => .invalid
      | some sep =>
        if isScheme (s.take sep) && !s.any isControl then .valid (s.take sep) (s.drop (sep + 3))
        else .invalid

end NMesh.Routing.Address
