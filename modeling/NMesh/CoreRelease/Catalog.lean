import NMesh.CoreRelease.Descriptor
import NMesh.Directory.Equivocation

/-! # The release book

`ReleaseBook` holds the signed releases heard of, under the hash of the descriptor's own bytes, and a
proof for each signing key that signed one version twice. A full book refuses an untrusted newcomer, and
makes room for a trusted one by dropping the oldest untrusted release. -/

namespace NMesh.CoreRelease.Catalog

open Base.BigEndian Base.Utf8 Base.Ordered NMesh.Cert.Identity
open NMesh.CoreRelease.Descriptor NMesh.Directory
open NMesh.Directory.PseudoDir (Primitives)

def maxEquivocations : ℕ := 8

def publisherIdLen : ℕ := 20

/-- A release as everything downstream reads it. -/
structure CatalogueEntry where
  key : Bytes
  publisherId : NodeID
  publisher : Bytes
  release : Bytes
  releaseId : Bytes
  version : Text
  sha256 : Text
  size : ℤ
  notes : Text
  ts : ℤ
  trusted : Bool
  deriving DecidableEq

structure ReleaseBook where
  max : ℤ
  entries : Dict Bytes CatalogueEntry
  equivocations : Dict NodeID Bytes

variable (J : Reader) (P : Primitives)

def descriptorKey (releaseBytes : Bytes) : Bytes := P.digest releaseBytes

def catalogueEntry (doc : Release) (releaseBytes : Bytes) (isTrusted : Bool) : CatalogueEntry where
  key := descriptorKey P releaseBytes
  publisherId := P.fromPublicKey doc.publisher
  publisher := doc.publisher
  release := releaseBytes
  releaseId := doc.digest.take publisherIdLen
  version := doc.version
  sha256 := doc.sha256
  size := doc.size
  notes := doc.notes
  ts := doc.ts
  trusted := isTrusted

namespace ReleaseBook

def new (maxEntries : ℤ) : ReleaseBook := ⟨maxEntries, Dict.empty, Dict.empty⟩

/-- The signing key whose proof may go: the first of no release that is trusted. -/
def idle (b : ReleaseBook) : Option NodeID :=
  b.equivocations.keys.find? fun signer =>
    !b.entries.values.any fun entry => decide (entry.publisherId = signer) && entry.trusted

/-- Keep the pair when one key signs one version twice, differently. -/
def noteEquivocation (b : ReleaseBook) (doc : Release) (incoming : Bytes) (isTrusted : Bool) :
    ReleaseBook :=
  let signer := P.fromPublicKey doc.publisher
  if signer ∈ b.equivocations.keys then b
  else
    match b.entries.values.find? fun entry => decide (entry.publisherId = signer ∧
        entry.version = doc.version ∧ entry.sha256 ≠ doc.sha256) with
    | none => b
    | some existing =>
      match Equivocation.build .release existing.release incoming with
      | .error _ => b
      | .ok proof =>
        if b.equivocations.size < maxEquivocations then
          { b with equivocations := b.equivocations.set signer proof }
        else
          match isTrusted, b.idle with
          | true, some old => { b with equivocations := (b.equivocations.pop old).set signer proof }
          | _, _ => b

/-- Does this release come before that one, by time and then by key? -/
def sooner (a b : ℤ × Bytes) : Bool := a.1 < b.1 ∨ a.1 = b.1 ∧ a.2 ≤ b.2

def oldestUntrusted (b : ReleaseBook) : Option (ℤ × Bytes) :=
  (b.entries.entries.filter fun e => !e.2.trusted).foldl (fun best e =>
    match best with
    | none => some (e.2.ts, e.1)
    | some found => if sooner found (e.2.ts, e.1) then some found else some (e.2.ts, e.1)) none

/-- Make room for a trusted release; was there any to make? -/
def makeRoom (b : ReleaseBook) (forTrusted : Bool) : Option ReleaseBook :=
  if forTrusted then b.oldestUntrusted.map fun old => { b with entries := b.entries.pop old.2 }
  else none

/-- Consider a signed release, given the keys trusted; is it news? -/
def offer (b : ReleaseBook) (releaseBytes : Bytes) (trusted : Bytes → Bool) : Bool × ReleaseBook :=
  match parseRelease J P releaseBytes with
  | none => (false, b)
  | some doc =>
    let key := descriptorKey P releaseBytes
    if key ∈ b.entries.keys then (false, { b with entries := b.entries.moveToEnd key })
    else
      let isTrusted := trusted doc.publisher
      let noted := b.noteEquivocation P doc releaseBytes isTrusted
      let entry := catalogueEntry P doc releaseBytes isTrusted
      if b.max ≤ noted.entries.size then
        match noted.makeRoom isTrusted with
        | none => (false, noted)
        | some room => (true, { room with entries := room.entries.set key entry })
      else (true, { noted with entries := noted.entries.set key entry })

def retrust (b : ReleaseBook) (trusted : Bytes → Bool) : ReleaseBook :=
  { b with entries := b.entries.mapVal fun _ entry => { entry with trusted := trusted entry.publisher } }

variable {J P} {b : ReleaseBook}

theorem noteEquivocation_keeps (b : ReleaseBook) (doc : Release) (incoming : Bytes) (isTrusted : Bool) :
    (b.noteEquivocation P doc incoming isTrusted).entries = b.entries ∧
      (b.noteEquivocation P doc incoming isTrusted).max = b.max := by
  unfold noteEquivocation
  dsimp only
  split
  · exact ⟨rfl, rfl⟩
  · split
    · exact ⟨rfl, rfl⟩
    · split
      · exact ⟨rfl, rfl⟩
      · split
        · exact ⟨rfl, rfl⟩
        · split <;> exact ⟨rfl, rfl⟩

/-- **What an offer does**: nothing, as the descriptor is refused; move the release up, as it is held; no
more than keep a proof, as there is no room; or file the release, in a room that may have been made. -/
theorem offer_cases (b : ReleaseBook) (releaseBytes : Bytes) (trusted : Bytes → Bool) :
    parseRelease J P releaseBytes = none ∧ b.offer J P releaseBytes trusted = (false, b) ∨
    ∃ doc noted, parseRelease J P releaseBytes = some doc ∧
      noted = b.noteEquivocation P doc releaseBytes (trusted doc.publisher) ∧
      (descriptorKey P releaseBytes ∈ b.entries.keys ∧ b.offer J P releaseBytes trusted =
        (false, { b with entries := b.entries.moveToEnd (descriptorKey P releaseBytes) }) ∨
      descriptorKey P releaseBytes ∉ b.entries.keys ∧
        (b.max ≤ b.entries.size ∧ noted.makeRoom (trusted doc.publisher) = none ∧
          b.offer J P releaseBytes trusted = (false, noted) ∨
        ∃ room, (room = noted ∧ b.entries.size < b.max ∨
            noted.makeRoom (trusted doc.publisher) = some room) ∧
          b.offer J P releaseBytes trusted = (true, { room with
            entries := room.entries.set (descriptorKey P releaseBytes)
              (catalogueEntry P doc releaseBytes (trusted doc.publisher)) }))) := by
  unfold offer
  cases hparse : parseRelease J P releaseBytes with
  | none => exact Or.inl ⟨rfl, rfl⟩
  | some doc =>
    refine Or.inr ⟨doc, _, rfl, rfl, ?_⟩
    dsimp only
    rw [(noteEquivocation_keeps b doc releaseBytes _).1]
    by_cases hheld : descriptorKey P releaseBytes ∈ b.entries.keys
    · exact Or.inl ⟨hheld, if_pos hheld⟩
    · rw [if_neg hheld]
      refine Or.inr ⟨hheld, ?_⟩
      by_cases hfull : b.max ≤ b.entries.size
      · rw [if_pos hfull]
        cases hroom : (b.noteEquivocation P doc releaseBytes (trusted doc.publisher)).makeRoom
            (trusted doc.publisher) with
        | none => exact Or.inl ⟨hfull, rfl, rfl⟩
        | some room => exact Or.inr ⟨room, Or.inr rfl, rfl⟩
      · rw [if_neg hfull]
        exact Or.inr ⟨_, Or.inl ⟨rfl, not_le.mp hfull⟩,
          by rw [(noteEquivocation_keeps b doc releaseBytes _).1]⟩

/-- **What a note does to the proofs**: nothing; or file one under the signer, in a room that may have been
made, as a release of that signer is held. -/
theorem noteEquivocation_cases (b : ReleaseBook) (doc : Release) (incoming : Bytes) (isTrusted : Bool) :
    (b.noteEquivocation P doc incoming isTrusted).equivocations = b.equivocations ∨
    P.fromPublicKey doc.publisher ∉ b.equivocations.keys ∧
      (∃ existing ∈ b.entries.values, existing.publisherId = P.fromPublicKey doc.publisher ∧
        existing.version = doc.version ∧ existing.sha256 ≠ doc.sha256) ∧
      ∃ proof, (b.noteEquivocation P doc incoming isTrusted).equivocations =
          b.equivocations.set (P.fromPublicKey doc.publisher) proof ∨
        maxEquivocations ≤ b.equivocations.size ∧ isTrusted = true ∧ ∃ old, b.idle = some old ∧
          (b.noteEquivocation P doc incoming isTrusted).equivocations =
            (b.equivocations.pop old).set (P.fromPublicKey doc.publisher) proof := by
  unfold noteEquivocation
  dsimp only
  by_cases hknown : P.fromPublicKey doc.publisher ∈ b.equivocations.keys
  · rw [if_pos hknown]
    exact Or.inl rfl
  · rw [if_neg hknown]
    split
    · exact Or.inl rfl
    · rename_i existing hfind
      have hsigner := List.find?_some hfind
      simp only [decide_eq_true_eq] at hsigner
      have hheld : ∃ existing ∈ b.entries.values, existing.publisherId = P.fromPublicKey doc.publisher ∧
          existing.version = doc.version ∧ existing.sha256 ≠ doc.sha256 :=
        ⟨existing, List.mem_of_find?_eq_some hfind, hsigner⟩
      split
      · exact Or.inl rfl
      · rename_i proof hbuild
        by_cases hroom : b.equivocations.size < maxEquivocations
        · rw [if_pos hroom]
          exact Or.inr ⟨hknown, hheld, proof, Or.inl rfl⟩
        · rw [if_neg hroom]
          split
          · rename_i old hidle
            exact Or.inr ⟨hknown, hheld, proof, Or.inr ⟨not_lt.mp hroom, rfl, old, hidle, rfl⟩⟩
          · exact Or.inl rfl

theorem untrusted_of_idle {old : NodeID} (h : b.idle = some old) {e : CatalogueEntry}
    (he : e ∈ b.entries.values) (hid : e.publisherId = old) : e.trusted = false := by
  have hnone := List.find?_some h
  simp only [Bool.not_eq_true', List.any_eq_false] at hnone
  have := hnone e he
  simpa [hid] using this

theorem get?_of_makeRoom {forTrusted : Bool} {room : ReleaseBook} (h : b.makeRoom forTrusted = some room)
    {key : Bytes} {e : CatalogueEntry} (he : room.entries.get? key = some e) :
    b.entries.get? key = some e := by
  unfold makeRoom at h
  split_ifs at h
  obtain ⟨old, -, rfl⟩ := Option.map_eq_some_iff.mp h
  exact (Dict.get?_of_pop he).2

theorem makeRoom_keeps {forTrusted : Bool} {room : ReleaseBook} (h : b.makeRoom forTrusted = some room) :
    room.equivocations = b.equivocations ∧ room.max = b.max := by
  unfold makeRoom at h
  split_ifs at h
  obtain ⟨old, -, rfl⟩ := Option.map_eq_some_iff.mp h
  exact ⟨rfl, rfl⟩

theorem oldestUntrusted_spec {old : ℤ × Bytes} (h : b.oldestUntrusted = some old) :
    ∃ e, b.entries.get? old.2 = some e ∧ e.trusted = false := by
  have hfold : ∀ (l : List (Bytes × CatalogueEntry)) (best : Option (ℤ × Bytes)),
      l.foldl (fun best e => match best with
        | none => some (e.2.ts, e.1)
        | some found => if sooner found (e.2.ts, e.1) then some found else some (e.2.ts, e.1)) best =
          some old → best = some old ∨ ∃ e ∈ l, e.1 = old.2 := by
    intro l
    induction l with
    | nil => exact fun best h => Or.inl h
    | cons e l ih =>
      intro best h
      rcases ih _ h with hbest | ⟨e', he', hkey⟩
      · cases best with
        | none =>
          refine Or.inr ⟨e, List.mem_cons_self, ?_⟩
          rw [← Option.some.inj hbest]
        | some found =>
          dsimp only at hbest
          split_ifs at hbest
          · exact Or.inl hbest
          · refine Or.inr ⟨e, List.mem_cons_self, ?_⟩
            rw [← Option.some.inj hbest]
      · exact Or.inr ⟨e', List.mem_cons_of_mem _ he', hkey⟩
  rcases hfold _ none h with hnone | ⟨e, he, hkey⟩
  · cases hnone
  · obtain ⟨hmem, huntrusted⟩ := List.mem_filter.mp he
    refine ⟨e.2, ?_, by simpa using huntrusted⟩
    rw [← hkey]
    exact Dict.get?_eq_some.mpr hmem

theorem makeRoom_spec {forTrusted : Bool} {room : ReleaseBook} (h : b.makeRoom forTrusted = some room) :
    room.entries.size + 1 = b.entries.size ∧
      ∀ key e, b.entries.get? key = some e → e.trusted = true → room.entries.get? key = some e := by
  unfold makeRoom at h
  split_ifs at h
  obtain ⟨old, hold, rfl⟩ := Option.map_eq_some_iff.mp h
  obtain ⟨gone, hgone, huntrusted⟩ := oldestUntrusted_spec hold
  refine ⟨Dict.size_pop (Dict.mem_keys_of_get? hgone), fun key e he htrusted => ?_⟩
  have hne : key ≠ old.2 := by
    rintro rfl
    rw [hgone] at he
    cases he
    rw [huntrusted] at htrusted
    cases htrusted
  show (b.entries.pop old.2).get? key = some e
  rw [Dict.get?_pop_of_ne _ hne]
  exact he

theorem foldl_isSome {α β : Type} (f : Option β → α → Option β) (hf : ∀ best a, (f best a).isSome = true) :
    ∀ (l : List α) (best : Option β), l ≠ [] ∨ best.isSome = true → (l.foldl f best).isSome = true
  | [], _, h => h.resolve_left fun hne => hne rfl
  | a :: l, best, _ => foldl_isSome f hf l (f best a) (Or.inr (hf best a))

theorem trusted_of_makeRoom (h : b.makeRoom true = none) {key : Bytes} {e : CatalogueEntry}
    (he : b.entries.get? key = some e) : e.trusted = true := by
  by_contra huntrusted
  have hmem : (key, e) ∈ b.entries.entries.filter fun e => !e.2.trusted :=
    List.mem_filter.mpr ⟨Dict.get?_eq_some.mp he, by simp [huntrusted]⟩
  have hsome : b.oldestUntrusted.isSome = true := by
    refine foldl_isSome _ (fun best a => ?_) _ _ (Or.inl (List.ne_nil_of_mem hmem))
    cases best with
    | none => rfl
    | some found =>
      dsimp only
      split_ifs <;> rfl
  obtain ⟨old, hold⟩ := Option.isSome_iff_exists.mp hsome
  rw [makeRoom, if_pos rfl, hold] at h
  cases h

end ReleaseBook

/-- A descriptor that arrives, with the keys trusted then, or another look at these. -/
inductive ReleaseOp
  | offer (releaseBytes : Bytes) (trusted : Bytes → Bool)
  | retrust (trusted : Bytes → Bool)

def ReleaseOp.apply (b : ReleaseBook) : ReleaseOp → ReleaseBook
  | offer releaseBytes trusted => (b.offer J P releaseBytes trusted).2
  | retrust trusted => b.retrust trusted

variable {J P}

theorem max_apply (b : ReleaseBook) (op : ReleaseOp) : (op.apply J P b).max = b.max := by
  cases op with
  | offer releaseBytes trusted =>
    show (b.offer J P releaseBytes trusted).2.max = b.max
    rcases ReleaseBook.offer_cases (J := J) (P := P) b releaseBytes trusted with ⟨-, heq⟩ |
      ⟨doc, noted, -, hnoted, ⟨-, heq⟩ | ⟨-, ⟨-, -, heq⟩ | ⟨room, hroom, heq⟩⟩⟩
    · rw [heq]
    · rw [heq]
    · rw [heq, hnoted]
      exact (ReleaseBook.noteEquivocation_keeps b doc releaseBytes _).2
    · have hmax : noted.max = b.max := by
        rw [hnoted]
        exact (ReleaseBook.noteEquivocation_keeps b doc releaseBytes _).2
      rw [heq]
      rcases hroom with ⟨rfl, -⟩ | hroom
      · exact hmax
      · exact (ReleaseBook.makeRoom_keeps hroom).2.trans hmax
  | retrust trusted => rfl

end NMesh.CoreRelease.Catalog
