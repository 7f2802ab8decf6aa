import NMesh.CoreRelease.Catalog

/-! # The signing keys an operator accepts

`TrustedPublishers` holds the pinned keys with three flags: `code` lets releases of a key replace the
program, `auto` lets them do so unasked, and `endorsed` makes the key count towards a quorum. What the
release book says of a release is read beside them: who signed the same content (`attesters`), whether
other content is known for the version (`contradicts`), and whether the key contradicts itself
(`equivocated`). -/

namespace NMesh.CoreRelease.Publishers

open Base.BigEndian Base.Utf8 Base.Ordered NMesh.Cert.Identity
open NMesh.CoreRelease.Catalog
open NMesh.Directory.PseudoDir (Primitives)

def maxPublishers : ℕ := 32

def maxNameLen : ℕ := 64

/-- A pinned key. -/
structure PinEntry where
  key : Bytes
  name : Text
  code : Bool
  auto : Bool
  endorsed : Bool
  added : ℤ
  deriving DecidableEq

structure TrustedPublishers where
  max : ℕ
  entries : Dict NodeID PinEntry

/-- What a pin is refused for. -/
inductive PinError
  | keyInvalid
  | tooMany
  deriving DecidableEq

namespace TrustedPublishers

variable (P : Primitives)

def new : TrustedPublishers := ⟨maxPublishers, Dict.empty⟩

def add (t : TrustedPublishers) (publicKey : Bytes) (name : Text) (auto endorsed code : Bool) (now : ℤ) :
    Except PinError TrustedPublishers :=
  if publicKey = [] then .error .keyInvalid
  else
    let keyId := P.fromPublicKey publicKey
    if keyId ∉ t.entries.keys ∧ t.max ≤ t.entries.size then .error .tooMany
    else
      let existing := t.entries.get? keyId
      let code := code || (existing.any PinEntry.code)
      let label := if name ≠ [] then name else (existing.map PinEntry.name).getD []
      let added := (existing.map PinEntry.added).getD 0
      let entry : PinEntry :=
        { key := publicKey, name := label.take maxNameLen, code := code, auto := auto && code,
          endorsed := endorsed, added := if added = 0 then now else added }
      .ok { t with entries := t.entries.set keyId entry }

def remove (t : TrustedPublishers) (keyId : NodeID) : Bool × TrustedPublishers :=
  if keyId ∈ t.entries.keys then (true, { t with entries := t.entries.pop keyId }) else (false, t)

def setAuto (t : TrustedPublishers) (keyId : NodeID) (auto : Bool) : Bool × TrustedPublishers :=
  match t.entries.get? keyId with
  | none => (false, t)
  | some entry =>
    if auto ∧ entry.code = false then (false, t)
    else (true, { t with entries := t.entries.set keyId { entry with auto := auto } })

def setEndorse (t : TrustedPublishers) (keyId : NodeID) (endorsed : Bool) : Bool × TrustedPublishers :=
  match t.entries.get? keyId with
  | none => (false, t)
  | some entry => (true, { t with entries := t.entries.set keyId { entry with endorsed := endorsed } })

/-- The ids of those of the keys that are endorsed, each once. -/
def endorsedAmong (t : TrustedPublishers) (publicKeys : List Bytes) : List NodeID :=
  publicKeys.foldl (fun found key =>
    let keyId := P.fromPublicKey key
    if (t.entries.get? keyId).any PinEntry.endorsed ∧ keyId ∉ found then found ++ [keyId] else found) []

def mayInstallCode (t : TrustedPublishers) (publicKey : Bytes) : Bool :=
  (t.entries.get? (P.fromPublicKey publicKey)).any PinEntry.code

def autoFor (t : TrustedPublishers) (publicKey : Bytes) : Bool :=
  (t.entries.get? (P.fromPublicKey publicKey)).any fun entry => entry.auto && entry.code

variable {P}

end TrustedPublishers

/-! ### What the book says of a release -/

variable (P : Primitives)

def attesters (b : ReleaseBook) (version sha256 : Text) : List Bytes :=
  b.entries.values.foldl (fun found entry =>
    if entry.version = version ∧ entry.sha256 = sha256 ∧ entry.publisher ∉ found then
      found ++ [entry.publisher] else found) []

def contradicts (b : ReleaseBook) (version sha256 : Text) : Bool :=
  b.entries.values.any fun entry => decide (entry.version = version ∧ entry.sha256 ≠ sha256)

/-- The proof that a key contradicted itself, asked by its id or the key. -/
def equivocated (b : ReleaseBook) (key : Bytes) : Option Bytes :=
  if h : key.length = publisherIdLen then b.equivocations.get? ⟨key, h⟩
  else b.equivocations.get? (P.fromPublicKey key)

def listed (b : ReleaseBook) : List CatalogueEntry :=
  b.entries.values.mergeSort fun left right => right.ts ≤ left.ts

end NMesh.CoreRelease.Publishers
