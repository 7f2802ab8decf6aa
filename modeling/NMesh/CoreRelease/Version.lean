import NMesh.Base.Ordered
import NMesh.Base.Utf8
import Mathlib.Data.List.DropRight

/-! # Version numbers

A version is up to three numbers and a suffix (`parse`); one without a suffix comes after those with one
(`isNewer`). What cannot be read is never newer. A tree says its version in `src/version.py`, and
`checkTree` compares it with the one announced. -/

namespace NMesh.CoreRelease.Version

open Base.BigEndian Base.Utf8 Base.Ordered

/-- What the Unicode database says of a character: is it white space, and which decimal digit is it? -/
structure Characters where
  isSpace : ℕ → Bool
  digit : ℕ → Option ℕ

def asciiOnly : Characters where
  isSpace := fun c => c = 0x20 ∨ 9 ≤ c ∧ c ≤ 13
  digit := fun c => if 0x30 ≤ c ∧ c ≤ 0x39 then some (c - 0x30) else none

/-- A version that was read. -/
structure Number where
  major : ℕ
  minor : ℕ
  patch : ℕ
  suffix : Text
  deriving DecidableEq

variable (C : Characters)

/-- The most digits `int` reads. -/
def maxDigits : ℕ := 4300

/-- `text.strip()` -/
def strip (text : Text) : Text := (text.dropWhile C.isSpace).rdropWhile C.isSpace

def digits (text : Text) : Text × Text := text.span fun c => (C.digit c).isSome

/-- `int(digits or 0)`; `none` where it raises. -/
def intOf (text : Text) : Option ℕ :=
  if text.length ≤ maxDigits then some (text.foldl (fun n c => 10 * n + (C.digit c).getD 0) 0) else none

def group (text : Text) : Text × Text :=
  match text with
  | 0x2E :: rest => if (digits C rest).1 = [] then ([], text) else digits C rest
  | _ => ([], text)

def parse (text : Text) : Option Number := do
  let body := match strip C text with
    | 0x76 :: rest => rest
    | rest => rest
  let (major, rest) := digits C body
  guard (major ≠ [])
  let (minor, rest) := group C rest
  let (patch, suffix) := group C rest
  guard (0x0A ∉ suffix)
  return ⟨← intOf C major, ← intOf C minor, ← intOf C patch, suffix⟩

/-- Does the first version come strictly after the second? -/
def Number.after (a b : Number) : Bool :=
  if (a.major, a.minor, a.patch) ≠ (b.major, b.minor, b.patch) then
    b.major < a.major ∨ b.major = a.major ∧
      (b.minor < a.minor ∨ b.minor = a.minor ∧ b.patch < a.patch)
  else if a.suffix = b.suffix then false
  else if a.suffix = [] then true
  else if b.suffix = [] then false
  else b.suffix < a.suffix

def isNewer (candidate current : Text) : Bool :=
  match parse C candidate, parse C current with
  | some left, some right => left.after right
  | _, _ => false

/-! ### The version of a tree -/

abbrev Files := Dict Text Bytes

def required : List Text := [ascii "src/version.py", ascii "start.sh"]

def maxVersionInTree : ℕ := 64

def isQuote (c : ℕ) : Bool := c = 0x22 ∨ c = 0x27

def declaredAt (line : Text) : Option Text := do
  let rest ← (ascii "__version__").isPrefixOf? line
  let rest ← [0x3D].isPrefixOf? (rest.dropWhile C.isSpace)
  let quoted := rest.dropWhile C.isSpace
  guard (quoted.head?.any isQuote)
  let (version, rest) := quoted.tail.span fun c => !isQuote c
  guard (0 < version.length ∧ version.length ≤ maxVersionInTree ∧ rest ≠ [])
  return version

/-- The first declaration from here on, given whether a line starts here. -/
def declared : Bool → Text → Option Text
  | _, [] => none
  | starts, c :: text =>
    ((if starts then declaredAt C (c :: text) else none)).or (declared (c = 0x0A) text)

/-- The version that `src/version.py` declares in a tree. -/
def versionOf (files : Files) : Option Text := do
  let raw ← files.get? (ascii "src/version.py")
  let text ← decodeUtf8 raw
  declared C true text

def checkTree (files : Files) (version : Text) : Bool :=
  required.all (· ∈ files.keys) && decide (versionOf C files = some version)

/-! ### The order of versions -/

theorem after_trans {a b c : Number} (h : a.after b = true) (h' : b.after c = true) : a.after c = true := by
  unfold Number.after at *
  grind [List.lt_trans]

theorem after_irrefl (a : Number) : a.after a = false := by
  simp [Number.after]

/-- **Versions only climb**: where each is newer than the one before it, each is newer than all before it, and none
comes back. -/
theorem newer_climbs (vs : List Text) :
    (vs.IsChain (fun a b => isNewer C b a = true) ↔ vs.Pairwise fun a b => isNewer C b a = true) ∧
      (vs.Pairwise (fun a b => isNewer C b a = true) → vs.Nodup) := by
  have htrans : ∀ {a b c : Text}, isNewer C b a = true → isNewer C c b = true → isNewer C c a = true := by
    intro a b c h h'
    unfold isNewer at *
    cases ha : parse C a <;> cases hb : parse C b <;> cases hc : parse C c <;>
      simp only [ha, hb, hc, reduceCtorEq] at h h' ⊢
    exact after_trans h' h
  have : IsTrans Text fun a b => isNewer C b a = true := ⟨fun _ _ _ => htrans⟩
  refine ⟨List.isChain_iff_pairwise, fun h => h.imp fun {a b} hab heq => ?_⟩
  subst heq
  unfold isNewer at hab
  cases ha : parse C a <;> simp [ha, after_irrefl] at hab

example : isNewer asciiOnly (ascii "v1.10") (ascii "1.9.5-rc1") = true := by decide +kernel

end NMesh.CoreRelease.Version
