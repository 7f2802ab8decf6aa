import NMesh.Base.JsonText
import NMesh.Directory.PseudoDir

/-! # Release descriptors

A descriptor is a JSON object that names a package, signed by its publisher over seven of its fields.
`readRelease` makes every check but that of the signature, `parseRelease` makes that one too, and
`encodeRelease` is what `build_release` writes. `none` stands for a descriptor that is refused.

How a float prints and how deep a reader goes are parameters (`Reader`). -/

namespace NMesh.CoreRelease.Descriptor

open Base.BigEndian Base.Utf8 Base.Hex Base.JsonText
open NMesh.Directory.PseudoDir (Primitives bytesOf)

/-- What the JSON reader rests on. -/
structure Reader where
  floatRepr : Text → Text
  depth : ℕ

def plainReader : Reader where
  floatRepr := id
  depth := 1000

def domain : Bytes := bytesOf "nmesh-core-release-v1"

def maxPackageBytes : ℕ := 32 * 1024 * 1024

def maxVersionLen : ℕ := 64

def maxNotesLen : ℕ := 4000

def maxPublisherLen : ℕ := 8192

def maxBlob : ℕ := 64 * 1024

/-- A descriptor that was read: the fields as they are written, and the two values in them. -/
structure Release where
  v : Json
  version : Text
  size : ℤ
  sha256 : Text
  publisherHex : Text
  ts : ℤ
  notes : Text
  publisher : Bytes
  digest : Bytes
  signature : Bytes

variable (J : Reader) (P : Primitives)

def isTwo : Json → Bool
  | .int n => n = 2
  | .float repr => repr = ascii "2.0"
  | _ => false

def readDoc (data : Bytes) : Option Json := do
  guard (data.length ≤ maxBlob)
  let text ← decodeUtf8 data
  loads J.floatRepr J.depth text

def readFields (doc : Json) : Option Release := do
  let v ← doc.get? (ascii "v")
  guard (isTwo v)
  let version ← (← doc.get? (ascii "version")).text?
  let sha256 ← (← doc.get? (ascii "sha256")).text?
  let publisherHex ← (← doc.get? (ascii "publisher")).text?
  let sig ← (← doc.get? (ascii "sig")).text?
  let size ← (← doc.get? (ascii "size")).int?
  guard (0 < size ∧ size ≤ maxPackageBytes)
  guard (0 < version.length ∧ version.length ≤ maxVersionLen)
  let notes ← ((doc.get? (ascii "notes")).getD (.str [])).text?
  guard (notes.length ≤ maxNotesLen)
  let ts ← (← doc.get? (ascii "ts")).int?
  guard (0 ≤ ts ∧ ts ≤ 2 ^ 62)
  let publisher ← fromHex publisherHex
  let signature ← fromHex sig
  let digest ← fromHex sha256
  guard (sha256.length = 64)
  guard (publisher ≠ [] ∧ publisher.length ≤ maxPublisherLen)
  return ⟨v, version, size, sha256, publisherHex, ts, notes, publisher, digest, signature⟩

def readRelease (data : Bytes) : Option Release := (readDoc J data).bind readFields

def members (r : Release) : List (Text × Json) :=
  [(ascii "v", r.v), (ascii "version", .str r.version), (ascii "size", .int r.size),
    (ascii "sha256", .str r.sha256), (ascii "publisher", .str r.publisherHex), (ascii "ts", .int r.ts),
    (ascii "notes", .str r.notes)]

def signingInput (r : Release) : Option Bytes :=
  (encodeUtf8 (dumpsSorted (members r))).map (domain ++ ·)

/-- What `build_release` writes for these fields. -/
def encodeRelease (r : Release) : Option Bytes :=
  encodeUtf8 (dumpsSorted (members r ++ [(ascii "sig", .str (toHex r.signature))]))

def parseRelease (data : Bytes) : Option Release := do
  let r ← readRelease J data
  let input ← signingInput r
  guard (P.verify input r.signature r.publisher)
  return r

variable {J P}

theorem parseRelease_eq_some {data : Bytes} {r : Release} : parseRelease J P data = some r ↔
    readRelease J data = some r ∧
      ∃ input, signingInput r = some input ∧ P.verify input r.signature r.publisher = true := by
  simp only [parseRelease, Option.bind_eq_bind, Option.bind_eq_some_iff, Option.guard_eq_some']
  constructor
  · rintro ⟨r', hread, input, hinput, -, hverify, hr⟩
    rw [← Option.some.inj hr]
    exact ⟨hread, input, hinput, hverify⟩
  · rintro ⟨hread, input, hinput, hverify⟩
    exact ⟨r, hread, input, hinput, (), hverify, rfl⟩

theorem readRelease_blank {data : Bytes} (hlen : data.length < maxBlob) :
    readRelease J (0x20 :: data) = readRelease J data := by
  have hdecode : decodeUtf8 (0x20 :: data) = (decodeUtf8 data).map (0x20 :: ·) :=
    decode_ascii (by decide) data
  have hguard : (guard (data.length + 1 ≤ maxBlob) : Option Unit) = guard (data.length ≤ maxBlob) := by
    unfold guard
    rw [if_pos (by omega), if_pos (by omega)]
  have hdoc : readDoc J (0x20 :: data) = readDoc J data := by
    unfold readDoc
    rw [hdecode, List.length_cons, hguard]
    cases decodeUtf8 data with
    | none => rfl
    | some text =>
      show Option.bind _ (fun _ => loads J.floatRepr J.depth (0x20 :: text)) = _
      rw [loads_blank J.floatRepr (by decide) J.depth text]
      rfl
  rw [readRelease, hdoc, readRelease]

end NMesh.CoreRelease.Descriptor
