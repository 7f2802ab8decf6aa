import NMesh.CoreRelease.Catalog
import NMesh.Directory.Index

/-! # Checking a proof

`verify` takes a proof of equivocation apart, reads both records with their own parsers and asks whether
they contradict each other. `Backed` and `Founded` say what the books keep proofs of: two records they
read, of one node and one instant, or of one key and one version.

The proofs of `PseudoBook` and `ReleaseBook` check. Those of `PackageBook` are framed as a pair of release
descriptors and hold two package records, which are no descriptors (`verify_package`). -/

namespace NMesh.Directory.Verdict

open Base.BigEndian Base.Utf8 Base.JsonText Base.Ordered Base.Runs
open NMesh.Cert.Identity NMesh.CoreRelease.Descriptor NMesh.CoreRelease.Catalog
open NMesh.Directory NMesh.Directory.Name NMesh.Directory.Books
open NMesh.Directory.PseudoDir (Primitives Claim parseClaim parseClaim_spec plain turning claimOf bytesOf)
open NMesh.Directory.PkgDir (Record parseRecord parseRecord_spec entryKey recordOf)
open NMesh.Directory.Index (Op)

/-- What a proof shows. -/
structure Finding where
  kind : Equivocation.Kind
  subjectId : NodeID
  subjectPub : Bytes
  about : Text
  deriving DecidableEq

variable (U : Unicode) (J : Reader) (P : Primitives)

def releasePair (first second : Bytes) : Option Finding := do
  let one ← parseRelease J P first
  let two ← parseRelease J P second
  guard (one.publisher = two.publisher)
  guard (one.version = two.version)
  guard (one.sha256 ≠ two.sha256)
  return ⟨.release, P.fromPublicKey one.publisher, one.publisher,
    ascii "signed two different programs as version " ++ one.version⟩

def pseudoPair (first second : Bytes) : Option Finding := do
  let one ← parseClaim U P first
  let two ← parseClaim U P second
  guard (one.pubkey = two.pubkey)
  guard (one.ts = two.ts)
  guard (one.pseudo ≠ two.pseudo)
  return ⟨.pseudo, one.nodeId, one.pubkey, ascii "signed two different names for one instant"⟩

def pair : Equivocation.Kind → Bytes → Bytes → Option Finding
  | .release => releasePair J P
  | .pseudo => pseudoPair U P

def verify (data : Bytes) : Option Finding :=
  match Equivocation.split data with
  | none => none
  | some (kind, first, second) => if first = second then none else pair U J P kind first second

variable {U J P}

variable {first second proof : Bytes}

theorem verify_build {kind : Equivocation.Kind}
    (h : Equivocation.build kind first second = .ok proof) (hne : first ≠ second) :
    verify U J P proof = pair U J P kind first second := by
  unfold verify
  rw [Equivocation.split_build h]
  exact if_neg hne

theorem verify_pseudo {one two : Claim}
    (h : Equivocation.build .pseudo first second = .ok proof) (hone : parseClaim U P first = some one)
    (htwo : parseClaim U P second = some two) (hpub : one.pubkey = two.pubkey) (hts : one.ts = two.ts)
    (hname : one.pseudo ≠ two.pseudo) :
    ∃ found, verify U J P proof = some found ∧ found.subjectId = one.nodeId := by
  have hne : first ≠ second := by
    rintro rfl
    rw [hone] at htwo
    exact hname (by rw [Option.some.inj htwo])
  rw [verify_build h hne, pair]
  unfold pseudoPair
  rw [hone, htwo]
  simp only [Option.bind_eq_bind, Option.bind_some, Option.bind_eq_some_iff, Option.guard_eq_some']
  exact ⟨_, ⟨(), hpub, (), hts, (), hname, rfl⟩, rfl⟩

theorem verify_release {one two : Release} (h : Equivocation.build .release first second = .ok proof)
    (hone : parseRelease J P first = some one) (htwo : parseRelease J P second = some two)
    (hpub : one.publisher = two.publisher) (hversion : one.version = two.version)
    (hsha : one.sha256 ≠ two.sha256) :
    ∃ found, verify U J P proof = some found ∧ found.subjectId = P.fromPublicKey one.publisher := by
  have hne : first ≠ second := by
    rintro rfl
    rw [hone] at htwo
    exact hsha (by rw [Option.some.inj htwo])
  rw [verify_build h hne, pair]
  unfold releasePair
  rw [hone, htwo]
  simp only [Option.bind_eq_bind, Option.bind_some, Option.bind_eq_some_iff, Option.guard_eq_some']
  exact ⟨_, ⟨(), hpub, (), hversion, (), hsha, rfl⟩, rfl⟩

/-! ### A package record is no descriptor -/

theorem loads_control (depth : ℕ) (text : Text) : loads J.floatRepr depth (2 :: text) = none := by
  have hskip : skip (2 :: text) = 2 :: text := List.dropWhile_cons_of_neg (by decide)
  have hplain : readPlain J.floatRepr (2 :: text) = none := rfl
  have hvalue : readValue J.floatRepr ((2 :: text).length + 1) depth (2 :: text) =
    readPlain J.floatRepr (2 :: text) := rfl
  rw [← hvalue] at hplain
  rw [loads, hskip, hplain]

theorem parseRelease_record {data : Bytes} {record : Record} (h : parseRecord U P data = some record) :
    parseRelease J P data = none := by
  obtain ⟨hversion, hlen, -⟩ := parseRecord_spec h
  have hread : readRelease J data = none := by
    cases data with
    | nil => exact absurd hlen (by decide)
    | cons b rest =>
      have hb : b.toNat = 2 := by
        have hfield : field (b :: rest) 0 1 = b.toNat := by simp [field, slice, ofBE]
        rw [← hfield]
        exact hversion
      have hb' : b = UInt8.ofNat 2 := by
        rw [← hb, UInt8.ofNat_toNat]
      have hdoc : readDoc J (b :: rest) = none := by
        unfold readDoc
        rw [hb', decode_ascii (by decide)]
        cases decodeUtf8 rest with
        | none => simp
        | some text => simp [loads_control]
      rw [readRelease, hdoc]
      rfl
  rw [parseRelease, hread]
  rfl

theorem verify_package {record : Record} (h : Equivocation.build .release first second = .ok proof)
    (hrecord : parseRecord U P first = some record) : verify U J P proof = none := by
  unfold verify
  rw [Equivocation.split_build h]
  dsimp only
  split_ifs
  · rfl
  · rw [pair, releasePair, parseRelease_record hrecord]
    rfl

/-! ### The proofs of a book -/

section Book

variable {ι α : Type} [DecidableEq ι] {R : Rules ι α} {Q : ι → Entry α → Prop} {b : Book ι α} {ident : ι}
  {entry : Entry α}

/-- A proof of two records that contradict each other, filed under the node they are about. -/
def Proves (R : Rules ι α) (Q : ι → Entry α → Prop) (owner : NodeID) (proof : Bytes) : Prop :=
  ∃ ident held incoming, Q ident held ∧ Q ident incoming ∧ incoming.ts = held.ts ∧
    R.contradicts held.body incoming.body = true ∧ owner = R.owner ident incoming.body ∧
    Equivocation.build R.kind held.raw incoming.raw = .ok proof

/-- **What a book holds was offered**, and what it proves too. -/
structure Backed (R : Rules ι α) (Q : ι → Entry α → Prop) (b : Book ι α) : Prop where
  entries : ∀ ident e, b.entries.get? ident = some e → Q ident e
  proofs : ∀ owner proof, b.equivocations.get? owner = some proof → Proves R Q owner proof

theorem Backed.notes (h : Backed R Q b) {current : Entry α} (hget : b.entries.get? ident = some current)
    (hq : Q ident entry) : ∀ owner proof,
      (b.notes R ident current entry).get? owner = some proof → Proves R Q owner proof := by
  intro owner proof hproof
  unfold Book.notes Book.noteEquivocation at hproof
  split_ifs at hproof with hclash
  · exact h.proofs owner proof hproof
  · cases hbuild : Equivocation.build R.kind current.raw entry.raw with
    | error e => rw [hbuild] at hproof; exact h.proofs owner proof hproof
    | ok new =>
      rw [hbuild] at hproof
      dsimp only at hproof
      rcases Dict.get?_of_set hproof with ⟨howner, rfl⟩ | ⟨-, hproof⟩
      · exact ⟨ident, current, entry, h.entries ident current hget, hq, hclash.1, hclash.2, howner, hbuild⟩
      · exact h.proofs owner proof hproof
  · exact h.proofs owner proof hproof

theorem offer_clash (hempty : b.equivocations = Dict.empty) {current : Entry α}
    (hget : b.entries.get? ident = some current) (hlen : entry.raw.length ≤ R.maxRecord)
    (hts : entry.ts = current.ts) (hclash : R.contradicts current.body entry.body = true) {proof : Bytes}
    (hbuild : Equivocation.build R.kind current.raw entry.raw = .ok proof) :
    (b.offer R ident entry).2.equivocations.get? (R.owner ident entry.body) = some proof := by
  have hnotes : b.notes R ident current entry = b.equivocations.set (R.owner ident entry.body) proof := by
    unfold Book.notes Book.noteEquivocation
    have hroom : ¬ (R.owner ident entry.body ∈ b.equivocations.keys ∨
        Books.maxEquivocations ≤ b.equivocations.size) := by
      rw [hempty]
      rintro (hmem | hfull)
      · cases hmem
      · exact absurd hfull (by decide)
    rw [if_pos ⟨hts, hclash⟩, if_neg hroom, hbuild]
  rcases b.offer_cases R ident entry with ⟨hlong, -⟩ | ⟨-, hnone, -⟩ |
    ⟨held, _, rfl, -, hheld, ⟨-, heq⟩ | ⟨hnewer, -⟩⟩
  · exact absurd hlong (not_lt.mpr hlen)
  · rw [hget] at hnone
    cases hnone
  · rw [hget] at hheld
    cases hheld
    rw [heq]
    show (b.notes R ident current entry).get? _ = some proof
    rw [hnotes, Dict.get?_set_self]
  · rw [hget] at hheld
    rw [hts, ← Option.some.inj hheld] at hnewer
    exact absurd hnewer (lt_irrefl _)

theorem Backed.accept (h : Backed R Q b) (hq : Q ident entry) : Backed R Q (b.accept ident entry) := by
  obtain ⟨hproofs, -, -, hentries⟩ := b.accept_keeps ident entry
  refine ⟨fun k e he => ?_, fun owner proof hproof => ?_⟩
  · rcases hentries k e he with ⟨rfl, rfl⟩ | ⟨-, hold⟩
    · exact hq
    · exact h.entries k e hold
  · rw [hproofs] at hproof
    exact h.proofs owner proof hproof

theorem Backed.offer (h : Backed R Q b) (hq : Q ident entry) : Backed R Q (b.offer R ident entry).2 := by
  rcases b.offer_cases R ident entry with ⟨-, heq⟩ | ⟨-, -, heq⟩ |
    ⟨current, _, rfl, -, hget, ⟨-, heq⟩ | ⟨-, b', rfl, heq⟩⟩
  · rw [heq]; exact h
  · rw [heq]; exact h.accept hq
  · rw [heq]; exact ⟨h.entries, h.notes hget hq⟩
  · rw [heq]
    exact Backed.accept ⟨h.entries, h.notes hget hq⟩ hq

theorem Backed.forget (h : Backed R Q b) : Backed R Q (b.forget ident) := by
  unfold Book.forget
  cases hget : b.entries.get? ident with
  | none => exact h
  | some current =>
    exact ⟨fun k e he => h.entries k e (Dict.get?_of_pop he).2, h.proofs⟩

variable {read : Bytes → Option (ι × Entry α)}

def Fine (read : Bytes → Option (ι × Entry α)) (Q : ι → Entry α → Prop) : Op ι → Prop
  | .offer raw => ∀ filing ∈ read raw, Q filing.1 filing.2
  | .forget _ => True

/-- **One operation.** -/
theorem Backed.apply (h : Backed R Q b) {op : Op ι} (hop : Fine read Q op) :
    Backed R Q (Index.apply R read b op) := by
  cases op with
  | offer raw =>
    show Backed R Q (b.receive R read raw).2
    unfold Book.receive
    cases hread : read raw with
    | none => exact h
    | some filing => exact h.offer (hop filing hread)
  | forget ident => exact h.forget

theorem backed_new (maxEntries maxBytes maxPerKey : ℤ) :
    Backed R Q (.new maxEntries maxBytes maxPerKey) where
  entries := fun _ _ he => by cases he
  proofs := fun _ _ he => by cases he

theorem Backed.after : ∀ {ops : List (Op ι)} {b : Book ι α}, Backed R Q b → (∀ op ∈ ops, Fine read Q op) →
    Backed R Q (run (Index.apply R read) b ops)
  | [], _, h, _ => h
  | op :: ops, _, h, hops => by
    rw [run_cons]
    exact Backed.after (h.apply (hops op List.mem_cons_self)) fun op hop =>
      hops op (List.mem_cons_of_mem _ hop)

end Book

/-- Every stored proof checks, and is about the one it is stored under. -/
def Checks (U : Unicode) (J : Reader) (P : Primitives) (proofs : Dict NodeID Bytes) : Prop :=
  ∀ owner proof, proofs.get? owner = some proof →
    ∃ found, verify U J P proof = some found ∧ found.subjectId = owner

/-! ### Names -/

/-- A claim that passes its parser, of a key among `keys`. -/
def ClaimOf (U : Unicode) (P : Primitives) (keys : Set Bytes) (nodeId : NodeID) (e : Entry Claim) : Prop :=
  ∃ claim, parseClaim U P e.raw = some claim ∧ claim.nodeId = nodeId ∧ e.ts = claim.ts ∧
    e.body = claim ∧ claim.pubkey ∈ keys

/-- Every claim that arrives is of a key among `keys`. -/
def ClaimKeys (U : Unicode) (P : Primitives) (keys : Set Bytes) : Op NodeID → Prop
  | .offer raw => ∀ claim, parseClaim U P raw = some claim → claim.pubkey ∈ keys
  | .forget _ => True

theorem ClaimKeys.fine {keys : Set Bytes} {op : Op NodeID} (h : ClaimKeys U P keys op) :
    Fine (readClaim U P) (ClaimOf U P keys) op := by
  cases op with
  | offer raw =>
    intro filing hread
    obtain ⟨claim, hclaim, rfl⟩ := Option.map_eq_some_iff.mp hread
    exact ⟨claim, hclaim, rfl, rfl, rfl, h claim hclaim⟩
  | forget nodeId => trivial

theorem Proves.checks_pseudo {keys : Set Bytes} (hkeys : Set.InjOn P.fromPublicKey keys)
    {owner : NodeID} (h : Proves pseudoRules (ClaimOf U P keys) owner proof) :
    ∃ found, verify U J P proof = some found ∧ found.subjectId = owner := by
  obtain ⟨nodeId, held, incoming, ⟨one, hone, hnode, hts, hbody, hpub⟩,
    ⟨two, htwo, hnode', hts', hbody', hpub'⟩, hsame, hclash, rfl, hbuild⟩ := h
  have hkey : one.pubkey = two.pubkey := by
    refine hkeys hpub hpub' ?_
    rw [← (parseClaim_spec hone).1, ← (parseClaim_spec htwo).1, hnode, hnode']
  have hname : two.pseudo ≠ one.pseudo := by
    rw [hbody, hbody'] at hclash
    exact of_decide_eq_true hclash
  obtain ⟨found, hfound, hsubject⟩ := verify_pseudo (J := J) hbuild hone htwo hkey
    (by rw [← hts, ← hts', hsame]) (Ne.symm hname)
  exact ⟨found, hfound, hsubject.trans hnode⟩

/-! ### Releases -/

/-- Every release that arrives is of a key among `keys`. -/
def ReleaseKeys (J : Reader) (P : Primitives) (keys : Set Bytes) : ReleaseOp → Prop
  | .offer releaseBytes _ =>
    ∀ doc, parseRelease J P releaseBytes = some doc → doc.publisher ∈ keys
  | .retrust _ => True

/-- A release that passes its parser, as the catalogue has it. -/
def ReleaseOf (J : Reader) (P : Primitives) (keys : Set Bytes) (e : CatalogueEntry) : Prop :=
  ∃ doc, parseRelease J P e.release = some doc ∧ e.publisherId = P.fromPublicKey doc.publisher ∧
    e.version = doc.version ∧ e.sha256 = doc.sha256 ∧ doc.publisher ∈ keys

/-- **What the release book holds was offered**, and its proofs check. -/
structure Founded (U : Unicode) (J : Reader) (P : Primitives) (keys : Set Bytes) (b : ReleaseBook) :
    Prop where
  entries : ∀ key e, b.entries.get? key = some e → ReleaseOf J P keys e
  proofs : Checks U J P b.equivocations

variable {keys : Set Bytes} {b : ReleaseBook}

theorem Checks.set {proofs : Dict NodeID Bytes} (h : Checks U J P proofs) {signer : NodeID}
 (hnew : ∃ found, verify U J P proof = some found ∧ found.subjectId = signer) :
    Checks U J P (proofs.set signer proof) := Dict.all_set h hnew

theorem Checks.pop {proofs : Dict NodeID Bytes} (h : Checks U J P proofs) (signer : NodeID) :
    Checks U J P (proofs.pop signer) := fun owner p hget => h owner p (Dict.get?_of_pop hget).2

theorem Founded.note (hkeys : Set.InjOn P.fromPublicKey keys) (h : Founded U J P keys b) {doc : Release}
    {incoming : Bytes} (hdoc : parseRelease J P incoming = some doc) (hpub : doc.publisher ∈ keys)
    (isTrusted : Bool) : Founded U J P keys (b.noteEquivocation P doc incoming isTrusted) := by
  unfold ReleaseBook.noteEquivocation
  dsimp only
  by_cases hknown : P.fromPublicKey doc.publisher ∈ b.equivocations.keys
  · rw [if_pos hknown]
    exact h
  · rw [if_neg hknown]
    split
    · exact h
    · rename_i existing hfind
      split
      · exact h
      · rename_i proof hbuild
        have hfound := List.find?_some hfind
        simp only [decide_eq_true_eq] at hfound
        obtain ⟨hid, hversion, hsha⟩ := hfound
        obtain ⟨key, hkey⟩ := Dict.mem_values.mp (List.mem_of_find?_eq_some hfind)
        obtain ⟨one, hone, hid', hversion', hsha', hpub'⟩ := h.entries key existing hkey
        have hsame : one.publisher = doc.publisher := hkeys hpub' hpub (hid'.symm.trans hid)
        have hnew : ∃ found, verify U J P proof = some found ∧
            found.subjectId = P.fromPublicKey doc.publisher := by
          obtain ⟨found, hfound, hsubject⟩ := verify_release (U := U) hbuild hone hdoc hsame
            (hversion'.symm.trans hversion) (by rw [← hsha']; exact hsha)
          exact ⟨found, hfound, hsubject.trans (by rw [hsame])⟩
        split_ifs
        · exact ⟨h.entries, h.proofs.set hnew⟩
        · split
          · exact ⟨h.entries, (h.proofs.pop _).set hnew⟩
          · exact h

theorem Founded.file (h : Founded U J P keys b) {key : Bytes} {entry : CatalogueEntry}
    (hentry : ReleaseOf J P keys entry) :
    Founded U J P keys { b with entries := b.entries.set key entry } := by
  exact ⟨Dict.all_set h.entries hentry, h.proofs⟩

/-- **One call.** -/
theorem Founded.apply (hkeys : Set.InjOn P.fromPublicKey keys) (h : Founded U J P keys b)
    {op : ReleaseOp} (hop : ReleaseKeys J P keys op) : Founded U J P keys (op.apply J P b) := by
  cases op with
  | offer releaseBytes trusted =>
    show Founded U J P keys (b.offer J P releaseBytes trusted).2
    rcases ReleaseBook.offer_cases (J := J) (P := P) b releaseBytes trusted with ⟨-, heq⟩ |
      ⟨doc, noted, hparse, hnoted, ⟨-, heq⟩ | ⟨-, ⟨-, -, heq⟩ | ⟨room, hroom, heq⟩⟩⟩
    · rw [heq]
      exact h
    · rw [heq]
      refine ⟨fun k e he => h.entries k e ?_, h.proofs⟩
      rw [← Dict.get?_moveToEnd]
      exact he
    · rw [heq, hnoted]
      exact h.note hkeys hparse (hop doc hparse) _
    · have hnote := h.note hkeys hparse (hop doc hparse) (trusted doc.publisher)
      rw [← hnoted] at hnote
      have hroom' : Founded U J P keys room := by
        rcases hroom with ⟨rfl, -⟩ | hroom
        · exact hnote
        · refine ⟨fun k e he => hnote.entries k e (ReleaseBook.get?_of_makeRoom hroom he), ?_⟩
          rw [(ReleaseBook.makeRoom_keeps hroom).1]
          exact hnote.proofs
      rw [heq]
      exact hroom'.file ⟨doc, hparse, rfl, rfl, rfl, hop doc hparse⟩
  | retrust trusted =>
    refine ⟨fun k e he => ?_, h.proofs⟩
    obtain ⟨old, hold, rfl⟩ := Dict.get?_of_mapVal he
    exact h.entries k old hold

theorem Founded.after (hkeys : Set.InjOn P.fromPublicKey keys) : ∀ {ops : List ReleaseOp}
    {b : ReleaseBook}, Founded U J P keys b → (∀ op ∈ ops, ReleaseKeys J P keys op) →
      Founded U J P keys (run (ReleaseOp.apply J P) b ops)
  | [], _, h, _ => h
  | op :: ops, _, h, hops => by
    rw [run_cons]
    exact Founded.after hkeys (h.apply hkeys (hops op List.mem_cons_self)) fun op hop =>
      hops op (List.mem_cons_of_mem _ hop)

theorem founded_new (maxEntries : ℤ) : Founded U J P keys (.new maxEntries) where
  entries := fun _ _ he => by cases he
  proofs := fun _ _ he => by cases he

/-! ### Packages -/

def RecordOf (U : Unicode) (P : Primitives) (ident : Bytes) (e : Entry Record) : Prop :=
  ∃ record, parseRecord U P e.raw = some record ∧ entryKey U P record = some ident ∧
    e = recordEntry record e.raw

/-- No record of the instant of the one held has another release or version. -/
def NoClash (U : Unicode) (P : Primitives) (b : PackageBook) : Op Bytes → Prop
  | .offer raw => ∀ filing ∈ readRecord U P raw, ∀ current ∈ b.entries.get? filing.1,
      ¬ (filing.2.ts = current.ts ∧ packageRules.contradicts current.body filing.2.body = true)
  | .forget _ => True

instance (b : PackageBook) (op : Op Bytes) : Decidable (NoClash U P b op) := by
  cases op <;> unfold NoClash <;> infer_instance

theorem fine_record (op : Op Bytes) : Fine (readRecord U P) (RecordOf U P) op := by
  cases op with
  | offer raw =>
    intro filing hread
    simp only [readRecord, Option.mem_def, Option.bind_eq_bind, Option.bind_eq_some_iff] at hread
    obtain ⟨record, hrecord, ident, hident, hfiling⟩ := hread
    rw [← Option.some.inj hfiling]
    exact ⟨record, hrecord, hident, rfl⟩
  | forget ident => trivial

theorem RecordOf.frames {ident : Bytes} {e : Entry Record} (h : RecordOf U P ident e) :
    e.raw ≠ [] ∧ e.raw.length < 2 ^ 16 ∧ e.raw.length ≤ PkgDir.maxRecord := by
  obtain ⟨record, hrecord, -⟩ := h
  obtain ⟨-, hlow, hhigh⟩ := parseRecord_spec hrecord
  have hmax : PkgDir.maxRecord < 2 ^ 16 := by decide
  refine ⟨?_, hhigh.trans_lt hmax, hhigh⟩
  rintro hnil
  rw [hnil] at hlow
  exact absurd hlow (by decide)

theorem Proves.fails_package {owner : NodeID}
    (h : Proves packageRules (RecordOf U P) owner proof) : verify U J P proof = none := by
  obtain ⟨ident, held, incoming, ⟨record, hrecord, -⟩, -, -, -, -, hbuild⟩ := h
  exact verify_package hbuild hrecord

variable {book : PackageBook} {op : Op Bytes}

theorem NoClash.equivocations (h : NoClash U P book op) :
    (Index.apply packageRules (readRecord U P) book op).equivocations = book.equivocations := by
  cases op with
  | offer raw =>
    show (book.receive packageRules (readRecord U P) raw).2.equivocations = book.equivocations
    unfold Book.receive
    cases hread : readRecord U P raw with
    | none => rfl
    | some filing =>
      obtain ⟨ident, entry⟩ := filing
      have hnotes : ∀ current, book.entries.get? ident = some current →
          book.notes packageRules ident current entry = book.equivocations := fun current hget =>
        if_neg (h (ident, entry) hread current hget)
      show (Book.offer packageRules book ident entry).2.equivocations = book.equivocations
      rcases Book.offer_cases packageRules book ident entry with ⟨-, heq⟩ | ⟨-, -, heq⟩ |
        ⟨current, _, rfl, -, hget, ⟨-, heq⟩ | ⟨-, b', rfl, heq⟩⟩
      · rw [heq]
      · rw [heq]
        exact (Book.accept_keeps book ident entry).1
      · rw [heq]
        exact hnotes current hget
      · rw [heq, hnotes current hget]
        exact (Book.accept_keeps _ ident entry).1
  | forget ident =>
    show (book.forget ident).equivocations = book.equivocations
    unfold Book.forget
    cases book.entries.get? ident <;> rfl

theorem clash_kept (hb : Backed packageRules (RecordOf U P) book)
    (hempty : book.equivocations = Dict.empty) (h : ¬ NoClash U P book op) : ∃ owner proof,
      (Index.apply packageRules (readRecord U P) book op).equivocations.get? owner = some proof := by
  cases op with
  | forget ident => exact absurd trivial h
  | offer raw =>
    simp only [NoClash, not_forall, not_not] at h
    obtain ⟨⟨ident, entry⟩, hread, current, hget, hts, hclash⟩ := h
    obtain ⟨hne, hlen, hmax⟩ := (fine_record (U := U) (P := P) (.offer raw) (ident, entry) hread).frames
    obtain ⟨hne', hlen', -⟩ := (hb.entries ident current hget).frames
    have hbuild := (@Equivocation.build_eq_ok .release _ _ _).mpr ⟨⟨hne', hlen'⟩, ⟨hne, hlen⟩, rfl⟩
    have hoffer : Index.apply packageRules (readRecord U P) book (.offer raw) =
        (Book.offer packageRules book ident entry).2 := by
      show (Book.receive packageRules (readRecord U P) book raw).2 = _
      unfold Book.receive
      rw [hread]
    rw [hoffer]
    exact ⟨_, _, offer_clash hempty hget hmax hts hclash hbuild⟩

/-- **The package book's proofs check exactly if it keeps none**: if no record clashes. -/
theorem package_checks : ∀ {ops : List (Op Bytes)} {book : PackageBook},
    Backed packageRules (RecordOf U P) book → book.equivocations = Dict.empty →
    (Guarded (Index.apply packageRules (readRecord U P)) (NoClash U P) book ops ↔
      ∀ before, before <+: ops →
        Checks U J P (run (Index.apply packageRules (readRecord U P)) book before).equivocations)
  | [], book, _, hempty => by
    refine ⟨fun _ before hb => ?_, fun _ => trivial⟩
    rw [List.prefix_nil.mp hb, run_nil, hempty]
    exact fun _ _ he => by cases he
  | op :: ops, book, hbacked, hempty => by
    have hnext := hbacked.apply (fine_record op)
    constructor
    · rintro ⟨hno, hrest⟩ before hb
      cases before with
      | nil =>
        rw [run_nil, hempty]
        exact fun _ _ he => by cases he
      | cons op' before =>
        obtain ⟨rfl, hb'⟩ := List.cons_prefix_cons.mp hb
        exact (package_checks hnext (hno.equivocations.trans hempty)).mp hrest before hb'
    · intro hall
      by_cases hno : NoClash U P book op
      · refine ⟨hno, (package_checks hnext (hno.equivocations.trans hempty)).mpr fun before hb => ?_⟩
        exact hall (op :: before) (List.cons_prefix_cons.mpr ⟨rfl, hb⟩)
      · obtain ⟨owner, proof, hproof⟩ := clash_kept hbacked hempty hno
        have hcheck := hall [op] (List.cons_prefix_cons.mpr ⟨rfl, List.nil_prefix⟩)
        obtain ⟨found, hfound, -⟩ := hcheck owner proof hproof
        rw [(hnext.proofs owner proof hproof).fails_package] at hfound
        cases hfound

/-! ### The law -/

/-- **Which proofs check.** Over keys that their ids tell apart, in every run of the name book and of the
release book every stored proof checks, and is about the node or the signing key it is stored under. In a
run of the package book this is so at every moment exactly if no record clashes with the one held. -/
theorem proofs_check (U : Unicode) (J : Reader) (P : Primitives) (keys : Set Bytes)
    (hkeys : Set.InjOn P.fromPublicKey keys) (maxEntries maxBytes maxPerKey : ℤ) :
    (∀ ops : List (Op NodeID), (∀ op ∈ ops, ClaimKeys U P keys op) →
      Checks U J P (run (Index.apply pseudoRules (readClaim U P))
        (.new maxEntries maxBytes maxPerKey) ops).equivocations) ∧
    (∀ ops : List ReleaseOp, (∀ op ∈ ops, ReleaseKeys J P keys op) →
      Checks U J P (run (ReleaseOp.apply J P) (.new maxEntries) ops).equivocations) ∧
    ∀ ops : List (Op Bytes),
      Guarded (Index.apply packageRules (readRecord U P)) (NoClash U P)
        (.new maxEntries maxBytes maxPerKey) ops ↔
      ∀ before, before <+: ops → Checks U J P (run (Index.apply packageRules (readRecord U P))
        (.new maxEntries maxBytes maxPerKey) before).equivocations := by
  refine ⟨fun ops hops => ?_, fun ops hops => ?_, fun ops => ?_⟩
  · have h := Backed.after (backed_new (R := pseudoRules) (Q := ClaimOf U P keys) maxEntries maxBytes
      maxPerKey) fun op hop => (hops op hop).fine
    exact fun owner proof hget => (h.proofs owner proof hget).checks_pseudo hkeys
  · exact (Founded.after hkeys (founded_new maxEntries) hops).proofs
  · exact package_checks (backed_new maxEntries maxBytes maxPerKey) rfl

def twoRecords : List (Op Bytes) :=
  [.offer (recordOf 7 "al" "1" 5), .offer (recordOf 7 "al" "2" 5)]

/-- The proof that is kept then does not check. -/
theorem record_proof_fails :
    (∀ op ∈ twoRecords, ∃ raw record, op = .offer raw ∧ parseRecord plain turning raw = some record) ∧
    ¬ Checks plain plainReader turning (run (Index.apply packageRules (readRecord plain turning))
      (.new 16 100000 4) twoRecords).equivocations := by
  refine ⟨fun op hop => ?_, fun h => ?_⟩
  · rcases List.mem_pair.mp hop with rfl | rfl
    · obtain ⟨record, hrecord⟩ := Option.isSome_iff_exists.mp (show
        (parseRecord plain turning (recordOf 7 "al" "1" 5)).isSome = true by decide +kernel)
      exact ⟨_, record, rfl, hrecord⟩
    · obtain ⟨record, hrecord⟩ := Option.isSome_iff_exists.mp (show
        (parseRecord plain turning (recordOf 7 "al" "2" 5)).isSome = true by decide +kernel)
      exact ⟨_, record, rfl, hrecord⟩
  · have hkept : ((run (Index.apply packageRules (readRecord plain turning)) (.new 16 100000 4)
        twoRecords).equivocations.get? (turning.fromPublicKey [7])).map (verify plain plainReader turning) =
          some none := by decide +kernel
    obtain ⟨proof, hproof, hnone⟩ := Option.map_eq_some_iff.mp hkept
    obtain ⟨found, hfound, -⟩ := h _ proof hproof
    rw [hnone] at hfound
    cases hfound

theorem proofs_check_two :
    Checks plain plainReader turning (run (Index.apply pseudoRules (readClaim plain turning))
      (.new 16 100000 4) [.offer (claimOf 7 "al" 5), .offer (claimOf 7 "bo" 5)]).equivocations ∧
    ¬ ∀ before, before <+: twoRecords → Checks plain plainReader turning
      (run (Index.apply packageRules (readRecord plain turning)) (.new 16 100000 4) before).equivocations := by
  have hkeys : Set.InjOn turning.fromPublicKey {[7]} := Set.injOn_singleton _ _
  have hlaw := proofs_check plain plainReader turning {[7]} hkeys 16 100000 4
  refine ⟨hlaw.1 _ fun op hop => ?_, fun h => ?_⟩
  · have hpub : ∀ name ∈ ["al", "bo"], ((parseClaim plain turning (claimOf 7 name 5)).map (·.pubkey)) =
        some [7] := by decide +kernel
    have hall : ∀ name ∈ ["al", "bo"], ClaimKeys plain turning {[7]} (.offer (claimOf 7 name 5)) := by
      intro name hname claim hclaim
      have h := hpub name hname
      rw [hclaim] at h
      exact Option.some.inj h
    rcases List.mem_pair.mp hop with rfl | rfl
    · exact hall "al" (by simp)
    · exact hall "bo" (by simp)
  · exact absurd ((hlaw.2.2 twoRecords).mpr h) (by decide +kernel)

end NMesh.Directory.Verdict
