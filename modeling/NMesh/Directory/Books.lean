import NMesh.Base.Ordered
import NMesh.Directory.Equivocation
import NMesh.Directory.PkgDir

/-! # The two books

A book holds the newest record of each node (`PseudoBook`) or of each package of a node
(`PackageBook`), oldest-touched first, with an index by directory key and the proofs of nodes that
contradicted themselves. The two classes differ in what `Rules` lists; the rest is one definition.

An index bucket keeps the last `maxPerKey` pointers filed in it (`link`), and an entry that leaves takes
its own pointers along (`unindex`). -/

namespace NMesh.Directory.Books

open Base.BigEndian Base.Ordered NMesh.Cert.Identity NMesh.Directory
open NMesh.Directory.Name
open NMesh.Directory.PseudoDir (Primitives Claim parseClaim)
open NMesh.Directory.PkgDir (Record parseRecord entryKey)

def maxEquivocations : ℕ := 8

/-- What tells the books apart: the longest record, the kind of their proofs, the node a proof is about,
and whether two records of one instant contradict each other. -/
structure Rules (ι α : Type) where
  maxRecord : ℕ
  kind : Equivocation.Kind
  owner : ι → α → NodeID
  contradicts : α → α → Bool

structure Entry (α : Type) where
  ts : ℕ
  keys : List Bytes
  raw : Bytes
  body : α
  deriving DecidableEq

structure Book (ι α : Type) where
  maxEntries : ℤ
  maxBytes : ℤ
  maxPerKey : ℤ
  entries : Dict ι (Entry α)
  byKey : Dict Bytes (List ι)
  bytes : ℤ
  equivocations : Dict NodeID Bytes

variable {ι α : Type} [DecidableEq ι]

/-! ### The index -/

/-- `del bucket[:-maxPerKey]` -/
def trim (maxPerKey : ℤ) (bucket : List ι) : List ι :=
  bucket.drop (if 0 < maxPerKey then bucket.length - maxPerKey.toNat else (-maxPerKey).toNat)

/-- File a pointer under a key, dropping the oldest that are too many. -/
def link (maxPerKey : ℤ) (ident : ι) (byKey : Dict Bytes (List ι)) (key : Bytes) :
    Dict Bytes (List ι) :=
  byKey.set key (trim maxPerKey ((byKey.get? key).getD [] ++ [ident]))

/-- Take a pointer from under a key, and the bucket with it if it was the last. -/
def unlink (ident : ι) (byKey : Dict Bytes (List ι)) (key : Bytes) : Dict Bytes (List ι) :=
  match byKey.get? key with
  | none => byKey
  | some bucket =>
    if bucket.erase ident = [] then byKey.pop key else byKey.set key (bucket.erase ident)

namespace Book

def new (maxEntries maxBytes maxPerKey : ℤ) : Book ι α where
  maxEntries := maxEntries
  maxBytes := maxBytes
  maxPerKey := maxPerKey
  entries := Dict.empty
  byKey := Dict.empty
  bytes := 0
  equivocations := Dict.empty

def unindex (b : Book ι α) (ident : ι) (entry : Entry α) : Book ι α :=
  { b with
    bytes := b.bytes - entry.raw.length
    byKey := entry.keys.foldl (unlink ident) b.byKey }

def overfull (b : Book ι α) : Prop := b.maxEntries < b.entries.size ∨ b.maxBytes < b.bytes

instance (b : Book ι α) : Decidable b.overfull := inferInstanceAs (Decidable (_ ∨ _))

/-- Drop the oldest entries while the book is over its bounds. -/
def enforceBounds : ℕ → Book ι α → Book ι α
  | 0, b => b
  | n + 1, b =>
    match b.entries.entries.head? with
    | none => b
    | some (oldest, entry) =>
      if b.overfull then enforceBounds n (({ b with entries := b.entries.pop oldest }).unindex oldest entry)
      else b

variable (R : Rules ι α)

/-- Keep the pair when one node contradicts itself: the first one seen, and while there is room. -/
def noteEquivocation (b : Book ι α) (nodeId : NodeID) (held incoming : Bytes) : Book ι α :=
  if nodeId ∈ b.equivocations.keys ∨ maxEquivocations ≤ b.equivocations.size then b
  else
    match Equivocation.build R.kind held incoming with
    | .error _ => b
    | .ok proof => { b with equivocations := b.equivocations.set nodeId proof }

def accept (b : Book ι α) (ident : ι) (entry : Entry α) : Book ι α :=
  let filed := { b with
    entries := (b.entries.set ident entry).moveToEnd ident
    bytes := b.bytes + entry.raw.length
    byKey := entry.keys.foldl (link b.maxPerKey ident) b.byKey }
  filed.enforceBounds filed.entries.size

def offer (b : Book ι α) (ident : ι) (entry : Entry α) : Bool × Book ι α :=
  if R.maxRecord < entry.raw.length then (false, b)
  else
    match b.entries.get? ident with
    | none => (decide (ident ∈ (b.accept ident entry).entries.keys), b.accept ident entry)
    | some current =>
      let noted := if entry.ts = current.ts ∧ R.contradicts current.body entry.body then
        b.noteEquivocation R (R.owner ident entry.body) current.raw entry.raw else b
      if entry.ts ≤ current.ts then (false, noted)
      else
        let b' := (noted.unindex ident current).accept ident entry
        (decide (ident ∈ b'.entries.keys), b')

/-- What arrives is offered if it passes its parser, which `read` is: the id and the entry. -/
def receive (read : Bytes → Option (ι × Entry α)) (b : Book ι α) (raw : Bytes) : Bool × Book ι α :=
  match read raw with
  | none => (false, b)
  | some (ident, entry) => b.offer R ident entry

def forget (b : Book ι α) (ident : ι) : Book ι α :=
  match b.entries.get? ident with
  | none => b
  | some entry => ({ b with entries := b.entries.pop ident }).unindex ident entry

def get (b : Book ι α) (key : Bytes) : List Bytes :=
  ((b.byKey.get? key).getD []).filterMap fun ident => (b.entries.get? ident).map (·.raw)

/-- The proofs after the held record and one that arrives were compared. -/
def notes (b : Book ι α) (ident : ι) (current entry : Entry α) : Dict NodeID Bytes :=
  if entry.ts = current.ts ∧ R.contradicts current.body entry.body then
    (b.noteEquivocation R (R.owner ident entry.body) current.raw entry.raw).equivocations
  else b.equivocations

omit [DecidableEq ι] in
theorem noteEquivocation_eq (b : Book ι α) (nodeId : NodeID) (held incoming : Bytes) :
    b.noteEquivocation R nodeId held incoming =
      { b with equivocations := (b.noteEquivocation R nodeId held incoming).equivocations } := by
  unfold noteEquivocation
  split_ifs
  · rfl
  · split <;> rfl

/-- **What an offer does**: nothing, as the record is too long; file an entry that is new; no more than
keep a proof, as what is held is no older; or file the entry in the place of the one held. -/
theorem offer_cases (b : Book ι α) (ident : ι) (entry : Entry α) :
    R.maxRecord < entry.raw.length ∧ b.offer R ident entry = (false, b) ∨
    entry.raw.length ≤ R.maxRecord ∧ b.entries.get? ident = none ∧
      b.offer R ident entry =
        (decide (ident ∈ (b.accept ident entry).entries.keys), b.accept ident entry) ∨
    ∃ current noted, noted = { b with equivocations := b.notes R ident current entry } ∧
      entry.raw.length ≤ R.maxRecord ∧ b.entries.get? ident = some current ∧
      (entry.ts ≤ current.ts ∧ b.offer R ident entry = (false, noted) ∨
      current.ts < entry.ts ∧ ∃ b', b' = (noted.unindex ident current).accept ident entry ∧
        b.offer R ident entry = (decide (ident ∈ b'.entries.keys), b')) := by
  unfold offer
  by_cases hlen : R.maxRecord < entry.raw.length
  · exact Or.inl ⟨hlen, if_pos hlen⟩
  · rw [if_neg hlen]
    cases hget : b.entries.get? ident with
    | none => exact Or.inr (Or.inl ⟨not_lt.mp hlen, rfl, rfl⟩)
    | some current =>
      have hnoted : (if entry.ts = current.ts ∧ R.contradicts current.body entry.body = true then
          b.noteEquivocation R (R.owner ident entry.body) current.raw entry.raw else b) =
          { b with equivocations := b.notes R ident current entry } := by
        unfold notes
        split_ifs
        · exact noteEquivocation_eq R b _ _ _
        · rfl
      refine Or.inr (Or.inr ⟨current, _, rfl, not_lt.mp hlen, rfl, ?_⟩)
      dsimp only
      rw [hnoted]
      by_cases hts : entry.ts ≤ current.ts
      · exact Or.inl ⟨hts, if_pos hts⟩
      · exact Or.inr ⟨not_le.mp hts, _, rfl, if_neg hts⟩

theorem enforceBounds_keeps : ∀ (n : ℕ) (b : Book ι α),
    (b.enforceBounds n).equivocations = b.equivocations ∧
      (b.enforceBounds n).maxEntries = b.maxEntries ∧ (b.enforceBounds n).maxBytes = b.maxBytes ∧
      ∀ k e, (b.enforceBounds n).entries.get? k = some e → b.entries.get? k = some e
  | 0, _ => ⟨rfl, rfl, rfl, fun _ _ he => he⟩
  | n + 1, b => by
    rw [enforceBounds]
    split
    · exact ⟨rfl, rfl, rfl, fun _ _ he => he⟩
    · rename_i oldest e _
      split_ifs
      · obtain ⟨h1, h2, h3, h4⟩ :=
          enforceBounds_keeps n (({ b with entries := b.entries.pop oldest }).unindex oldest e)
        refine ⟨h1, h2, h3, fun k e' he => ?_⟩
        have hpop : (b.entries.pop oldest).get? k = some e' := h4 k e' he
        exact (Dict.get?_of_pop hpop).2
      · exact ⟨rfl, rfl, rfl, fun _ _ he => he⟩

theorem accept_keeps (b : Book ι α) (ident : ι) (entry : Entry α) :
    (b.accept ident entry).equivocations = b.equivocations ∧
      (b.accept ident entry).maxEntries = b.maxEntries ∧
      (b.accept ident entry).maxBytes = b.maxBytes ∧
      ∀ k e, (b.accept ident entry).entries.get? k = some e →
        k = ident ∧ e = entry ∨ k ≠ ident ∧ b.entries.get? k = some e := by
  unfold accept
  obtain ⟨h1, h2, h3, h4⟩ := enforceBounds_keeps
    ((b.entries.set ident entry).moveToEnd ident).size { b with
      entries := (b.entries.set ident entry).moveToEnd ident
      bytes := b.bytes + entry.raw.length
      byKey := entry.keys.foldl (link b.maxPerKey ident) b.byKey }
  refine ⟨h1, h2, h3, fun k e he => ?_⟩
  have hget : ((b.entries.set ident entry).moveToEnd ident).get? k = some e := h4 k e he
  rw [Dict.get?_moveToEnd] at hget
  exact Dict.get?_of_set hget

end Book

/-! ### Names -/

variable (U : Unicode) (P : Primitives)

def pseudoRules : Rules NodeID Claim where
  maxRecord := PseudoDir.maxClaim
  kind := .pseudo
  owner := fun nodeId _ => nodeId
  contradicts := fun current claim => decide (claim.pseudo ≠ current.pseudo)

abbrev PseudoBook := Book NodeID Claim

def claimEntry (claim : Claim) (raw : Bytes) : Entry Claim where
  ts := claim.ts
  keys := if claim.keys = [] then [claim.key] else claim.keys
  raw := raw
  body := claim

def PseudoBook.offer (b : PseudoBook) (claim : Claim) (raw : Bytes) : Bool × PseudoBook :=
  Book.offer pseudoRules b claim.nodeId (claimEntry claim raw)

/-- The node and the entry of a claim that passes its parser. -/
def readClaim (raw : Bytes) : Option (NodeID × Entry Claim) :=
  (parseClaim U P raw).map fun claim => (claim.nodeId, claimEntry claim raw)

/-! ### Packages -/

/-- Two releases, or versions, of one package for one instant contradict each other. -/
def packageRules : Rules Bytes Record where
  maxRecord := PkgDir.maxRecord
  kind := .release
  owner := fun _ record => record.nodeId
  contradicts := fun current record =>
    decide (record.release ≠ current.release ∨ record.version ≠ current.version)

abbrev PackageBook := Book Bytes Record

def recordEntry (record : Record) (raw : Bytes) : Entry Record where
  ts := record.ts
  keys := record.keys
  raw := raw
  body := record

/-- `none` where the entry's key cannot be computed. -/
def PackageBook.offer (b : PackageBook) (record : Record) (raw : Bytes) : Option (Bool × PackageBook) :=
  (entryKey U P record).map fun ident => Book.offer packageRules b ident (recordEntry record raw)

/-- The key and the entry of a record that passes its parser. -/
def readRecord (raw : Bytes) : Option (Bytes × Entry Record) := do
  let record ← parseRecord U P raw
  let ident ← entryKey U P record
  return (ident, recordEntry record raw)

end NMesh.Directory.Books
