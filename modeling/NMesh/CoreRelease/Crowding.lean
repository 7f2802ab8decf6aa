import NMesh.Base.Runs
import NMesh.CoreRelease.Catalog

/-! # Making room in the release book

The book never holds more than it may, a trusted release is never dropped, and a release of a trusted key
is refused only where every release held is trusted. Of the proofs kept, the first of a key with no trusted
release in the book makes room for another. A key whose releases were all dropped before it was trusted is
such a key too, so its proof stays only if no proof has to go while the book holds none of its releases. -/

namespace NMesh.CoreRelease.Crowding

open Base.BigEndian Base.Utf8 Base.Hex Base.Ordered
open Base.Runs NMesh.Cert.Identity NMesh.CoreRelease.Descriptor NMesh.CoreRelease.Catalog ReleaseBook
open NMesh.Directory.PseudoDir (Primitives turning)

variable {J : Reader} {P : Primitives} {b : ReleaseBook} {op : ReleaseOp} {signer : NodeID}

/-! ### Entries -/

def trusts : ReleaseOp → Bytes → Bool
  | .offer _ trusted => trusted
  | .retrust trusted => trusted

/-- **A book within its bound**, whose entries name their signers. -/
structure Tidy (P : Primitives) (b : ReleaseBook) : Prop where
  size : b.entries.size ≤ b.max
  signers : ∀ key e, b.entries.get? key = some e → e.publisherId = P.fromPublicKey e.publisher

theorem tidy_new {maxEntries : ℤ} (hmax : 1 ≤ maxEntries) : Tidy P (.new maxEntries) where
  size := by
    show ((0 : ℕ) : ℤ) ≤ maxEntries
    omega
  signers := fun _ _ he => by cases he

theorem Tidy.note (h : Tidy P b) (doc : Release) (incoming : Bytes) (isTrusted : Bool) :
    Tidy P (b.noteEquivocation P doc incoming isTrusted) := by
  obtain ⟨hentries, hmax⟩ := noteEquivocation_keeps (P := P) b doc incoming isTrusted
  refine ⟨?_, fun key e he => h.signers key e ?_⟩
  · rw [hentries, hmax]
    exact h.size
  · rw [← hentries]
    exact he

theorem Tidy.file (h : Tidy P b) (hroom : b.entries.size < b.max) {key : Bytes}
    (hnew : key ∉ b.entries.keys) {entry : CatalogueEntry}
    (hentry : entry.publisherId = P.fromPublicKey entry.publisher) :
    Tidy P { b with entries := b.entries.set key entry } := by
  refine ⟨?_, fun k e he => ?_⟩
  · show ((b.entries.set key entry).size : ℤ) ≤ b.max
    rw [Dict.size_set_of_notMem hnew]
    omega
  · exact Dict.all_set h.signers hentry k e he

theorem Tidy.apply (h : Tidy P b) (op : ReleaseOp) : Tidy P (op.apply J P b) := by
  cases op with
  | offer releaseBytes trusted =>
    show Tidy P (b.offer J P releaseBytes trusted).2
    rcases offer_cases (J := J) (P := P) b releaseBytes trusted with ⟨-, heq⟩ |
      ⟨doc, noted, -, hnoted, ⟨-, heq⟩ | ⟨hnew, ⟨-, -, heq⟩ | ⟨room, hroom, heq⟩⟩⟩
    · rw [heq]
      exact h
    · rw [heq]
      refine ⟨?_, fun key e he => h.signers key e ?_⟩
      · show ((b.entries.moveToEnd _).size : ℤ) ≤ b.max
        rw [Dict.size_moveToEnd]
        exact h.size
      · rw [← Dict.get?_moveToEnd]
        exact he
    · rw [heq, hnoted]
      exact h.note doc releaseBytes _
    · have hnote := h.note doc releaseBytes (trusted doc.publisher)
      obtain ⟨hentries, hmax⟩ :=
        noteEquivocation_keeps (P := P) b doc releaseBytes (trusted doc.publisher)
      rw [← hnoted] at hnote hentries hmax
      rw [← hentries] at hnew
      rw [heq]
      rcases hroom with ⟨rfl, hsize⟩ | hroom
      · refine hnote.file ?_ hnew rfl
        rw [hentries, hmax]
        exact hsize
      · obtain ⟨hsize, -⟩ := makeRoom_spec hroom
        have hfits := hnote.size
        have hroomMax := (makeRoom_keeps hroom).2
        refine Tidy.file ⟨?_, fun key e he => hnote.signers key e (ReleaseBook.get?_of_makeRoom hroom he)⟩
          ?_ (fun hmem => ?_) rfl
        · rw [hroomMax]
          omega
        · rw [hroomMax]
          omega
        · obtain ⟨e, he⟩ := Dict.mem_keys.mp hmem
          exact hnew (Dict.mem_keys_of_get? (ReleaseBook.get?_of_makeRoom hroom he))
  | retrust trusted =>
    refine ⟨?_, fun key e he => ?_⟩
    · show ((b.entries.mapVal _).size : ℤ) ≤ b.max
      rw [Dict.size_mapVal]
      exact h.size
    · obtain ⟨old, hold, rfl⟩ := Dict.get?_of_mapVal he
      exact h.signers key old hold

theorem kept_apply {key : Bytes} {e : CatalogueEntry} (he : b.entries.get? key = some e)
    (htrusted : e.trusted = true) (op : ReleaseOp) :
    ∃ t, (op.apply J P b).entries.get? key = some { e with trusted := t } ∧
      (t = true ∨ t = trusts op e.publisher) := by
  cases op with
  | offer releaseBytes trusted =>
    refine ⟨true, ?_, Or.inl rfl⟩
    have hsame : { e with trusted := true } = e := by rw [← htrusted]
    rw [hsame]
    show (b.offer J P releaseBytes trusted).2.entries.get? key = some e
    rcases offer_cases (J := J) (P := P) b releaseBytes trusted with ⟨-, heq⟩ |
      ⟨doc, noted, -, hnoted, ⟨-, heq⟩ | ⟨hnew, ⟨-, -, heq⟩ | ⟨room, hroom, heq⟩⟩⟩
    · rw [heq]
      exact he
    · rw [heq]
      show (b.entries.moveToEnd _).get? key = some e
      rw [Dict.get?_moveToEnd]
      exact he
    · rw [heq, hnoted, (noteEquivocation_keeps b doc releaseBytes _).1]
      exact he
    · rw [← (noteEquivocation_keeps (P := P) b doc releaseBytes (trusted doc.publisher)).1,
        ← hnoted] at he hnew
      have hroom' : room.entries.get? key = some e := by
        rcases hroom with ⟨rfl, -⟩ | hroom
        · exact he
        · exact (makeRoom_spec hroom).2 key e he htrusted
      rw [heq]
      show (room.entries.set _ _).get? key = some e
      rw [Dict.get?_set_of_ne]
      · exact hroom'
      · rintro rfl
        exact hnew (Dict.mem_keys_of_get? he)
  | retrust trusted =>
    refine ⟨trusted e.publisher, ?_, Or.inr rfl⟩
    show (b.entries.mapVal _).get? key = _
    rw [Dict.get?_mapVal, he]
    rfl

/-- **A release of a trusted key is refused only where all are trusted.** -/
theorem trusted_of_refused {releaseBytes : Bytes} {trusted : Bytes → Bool} {doc : Release}
    (hparse : parseRelease J P releaseBytes = some doc)
    (hnew : descriptorKey P releaseBytes ∉ b.entries.keys) (htrusted : trusted doc.publisher = true)
    (hrefused : (b.offer J P releaseBytes trusted).1 = false) {key : Bytes} {e : CatalogueEntry}
    (he : b.entries.get? key = some e) : e.trusted = true := by
  rcases offer_cases (J := J) (P := P) b releaseBytes trusted with ⟨hnone, -⟩ |
    ⟨doc', noted, hparse', hnoted, ⟨hheld, -⟩ | ⟨-, ⟨-, hroom, -⟩ | ⟨room, -, heq⟩⟩⟩
  · rw [hparse] at hnone
    cases hnone
  · exact absurd hheld hnew
  · rw [hparse] at hparse'
    cases hparse'
    rw [htrusted] at hroom hnoted
    refine @trusted_of_makeRoom _ hroom key _ ?_
    rw [hnoted, (noteEquivocation_keeps b doc releaseBytes _).1]
    exact he
  · rw [heq] at hrefused
    cases hrefused

/-! ### Proofs -/

def Trusts (P : Primitives) (signer : NodeID) (op : ReleaseOp) : Prop :=
  ∀ pub, P.fromPublicKey pub = signer → trusts op pub = true

/-- A release of a trusted key that has no proof yet says other than one held of that version. -/
def Brings (P : Primitives) (b : ReleaseBook) (trusted : Bytes → Bool) (doc : Release) : Prop :=
  trusted doc.publisher = true ∧ P.fromPublicKey doc.publisher ∉ b.equivocations.keys ∧
    ∃ e ∈ b.entries.values, e.publisherId = P.fromPublicKey doc.publisher ∧ e.version = doc.version ∧
      e.sha256 ≠ doc.sha256

/-- **When a proof about a trusted key comes while the proofs are full**, a release is held of each key that
has one and is trusted. -/
def Shown (J : Reader) (P : Primitives) (b : ReleaseBook) : ReleaseOp → Prop
  | .offer releaseBytes trusted => maxEquivocations ≤ b.equivocations.size →
      ∀ doc, parseRelease J P releaseBytes = some doc → Brings P b trusted doc →
        ∀ signer ∈ b.equivocations.keys, Trusts P signer (.offer releaseBytes trusted) →
          ∃ e ∈ b.entries.values, e.publisherId = signer
  | .retrust _ => True

def Marked (b : ReleaseBook) (signer : NodeID) : Prop :=
  ∀ key e, b.entries.get? key = some e → e.publisherId = signer → e.trusted = true

def Flagged (b : ReleaseBook) (signer : NodeID) : Prop :=
  ∃ key e, b.entries.get? key = some e ∧ e.publisherId = signer ∧ e.trusted = true

/-- **The proof about a trusted key**, with what keeps it. -/
structure Safe (P : Primitives) (b : ReleaseBook) (signer : NodeID) (proof : Bytes) : Prop where
  held : b.equivocations.get? signer = some proof
  marks : Marked b signer ∨ Flagged b signer

variable {proof : Bytes}

theorem Safe.ne_idle (h : Safe P b signer proof)
    (hshown : ∃ e ∈ b.entries.values, e.publisherId = signer) {old : NodeID} (hold : b.idle = some old) :
    signer ≠ old := by
  rintro rfl
  have huntrusted : ∀ key e, b.entries.get? key = some e → e.publisherId = signer → e.trusted = false :=
    fun key e he hid => untrusted_of_idle hold (Dict.mem_values.mpr ⟨key, he⟩) hid
  have hflagged : Flagged b signer := by
    rcases h.marks with hmarked | hflagged
    · obtain ⟨e, he, hid⟩ := hshown
      obtain ⟨key, hget⟩ := Dict.mem_values.mp he
      exact ⟨key, e, hget, hid, hmarked key e hget hid⟩
    · exact hflagged
  obtain ⟨key, e, hget, hid, htrusted⟩ := hflagged
  rw [huntrusted key e hget hid] at htrusted
  cases htrusted

theorem Safe.note (h : Safe P b signer proof) {doc : Release} {incoming : Bytes} {trusted : Bytes → Bool}
    (hshown : maxEquivocations ≤ b.equivocations.size → Brings P b trusted doc →
      ∃ e ∈ b.entries.values, e.publisherId = signer) :
    (b.noteEquivocation P doc incoming (trusted doc.publisher)).equivocations.get? signer =
      some proof := by
  rcases noteEquivocation_cases (P := P) b doc incoming (trusted doc.publisher) with heq |
    ⟨hunknown, hexisting, new, heq | ⟨hfull, htrusted, old, hold, heq⟩⟩
  · rw [heq]
    exact h.held
  · have hne : P.fromPublicKey doc.publisher ≠ signer := by
      rintro rfl
      exact hunknown (Dict.mem_keys_of_get? h.held)
    rw [heq, Dict.get?_set_of_ne _ hne]
    exact h.held
  · have hne : P.fromPublicKey doc.publisher ≠ signer := by
      rintro rfl
      exact hunknown (Dict.mem_keys_of_get? h.held)
    have hne' : signer ≠ old := h.ne_idle (hshown hfull ⟨htrusted, hunknown, hexisting⟩) hold
    rw [heq, Dict.get?_set_of_ne _ hne, Dict.get?_pop_of_ne _ hne']
    exact h.held

theorem marks_file {room : ReleaseBook} {key : Bytes} {entry : CatalogueEntry}
    (hmarks : Marked b signer ∨ Flagged b signer)
    (hsub : ∀ k e, room.entries.get? k = some e → b.entries.get? k = some e)
    (hkept : ∀ k e, b.entries.get? k = some e → e.trusted = true → room.entries.get? k = some e)
    (hnew : key ∉ b.entries.keys) (hentry : entry.publisherId = signer → entry.trusted = true) :
    Marked { room with entries := room.entries.set key entry } signer ∨
      Flagged { room with entries := room.entries.set key entry } signer := by
  rcases hmarks with hmarked | ⟨k, e, hget, hid, htrusted⟩
  · refine Or.inl fun k e he hid => ?_
    rcases Dict.get?_of_set he with ⟨-, rfl⟩ | ⟨-, he⟩
    · exact hentry hid
    · exact hmarked k e (hsub k e he) hid
  · refine Or.inr ⟨k, e, ?_, hid, htrusted⟩
    show (room.entries.set key entry).get? k = some e
    rw [Dict.get?_set_of_ne]
    · exact hkept k e hget htrusted
    · rintro rfl
      exact hnew (Dict.mem_keys_of_get? hget)

theorem marked_retrust (htidy : Tidy P b) {trusted : Bytes → Bool}
    (htrusts : Trusts P signer (.retrust trusted)) : Marked (b.retrust trusted) signer := by
  intro key e he hid
  obtain ⟨old, hold, rfl⟩ := Dict.get?_of_mapVal he
  exact htrusts old.publisher ((htidy.signers key old hold).symm.trans hid)

theorem Safe.apply (htidy : Tidy P b) (h : Safe P b signer proof) (htrusts : Trusts P signer op)
    (hshown : Shown J P b op) : Safe P (op.apply J P b) signer proof := by
  cases op with
  | offer releaseBytes trusted =>
    have hheld : ∀ doc, parseRelease J P releaseBytes = some doc →
        maxEquivocations ≤ b.equivocations.size → Brings P b trusted doc →
          ∃ e ∈ b.entries.values, e.publisherId = signer := fun doc hparse hfull hbrings =>
      hshown hfull doc hparse hbrings signer (Dict.mem_keys_of_get? h.held) htrusts
    show Safe P (b.offer J P releaseBytes trusted).2 signer proof
    rcases offer_cases (J := J) (P := P) b releaseBytes trusted with ⟨-, heq⟩ |
      ⟨doc, noted, hparse, hnoted, ⟨-, heq⟩ | ⟨hnew, ⟨-, -, heq⟩ | ⟨room, hroom, heq⟩⟩⟩
    · rw [heq]
      exact h
    · rw [heq]
      refine ⟨h.held, ?_⟩
      unfold Marked Flagged
      dsimp only
      simp only [Dict.get?_moveToEnd]
      exact h.marks
    · have hentries := (noteEquivocation_keeps (P := P) b doc releaseBytes
        (trusted doc.publisher)).1
      rw [heq, hnoted]
      refine ⟨h.note (hheld doc hparse), ?_⟩
      unfold Marked Flagged
      rw [hentries]
      exact h.marks
    · have hentries := (noteEquivocation_keeps (P := P) b doc releaseBytes
        (trusted doc.publisher)).1
      have hnote : noted.equivocations.get? signer = some proof := by
        rw [hnoted]
        exact h.note (hheld doc hparse)
      rw [← hnoted] at hentries
      rw [heq]
      have hentry : (catalogueEntry P doc releaseBytes (trusted doc.publisher)).publisherId = signer →
          (catalogueEntry P doc releaseBytes (trusted doc.publisher)).trusted = true := fun hid =>
        htrusts doc.publisher hid
      rcases hroom with ⟨rfl, -⟩ | hroom
      · refine ⟨hnote, marks_file h.marks ?_ ?_ hnew hentry⟩
        · rw [hentries]
          exact fun _ _ he => he
        · rw [hentries]
          exact fun _ _ he _ => he
      · refine ⟨?_, marks_file h.marks (fun k e he => ?_) (fun k e he htrusted => ?_) hnew hentry⟩
        · show room.equivocations.get? signer = some proof
          rw [(makeRoom_keeps hroom).1]
          exact hnote
        · rw [← hentries]
          exact ReleaseBook.get?_of_makeRoom hroom he
        · refine (makeRoom_spec hroom).2 k e ?_ htrusted
          rw [hentries]
          exact he
  | retrust trusted => exact ⟨h.held, Or.inl (marked_retrust htidy htrusts)⟩

/-- The call at which a key with a proof is trusted: it says so of the releases, or brings the proof. -/
def Tells (b : ReleaseBook) (signer : NodeID) : ReleaseOp → Prop
  | .offer _ _ => signer ∉ b.equivocations.keys
  | .retrust _ => True

theorem of_note {doc : Release} {incoming : Bytes} {isTrusted : Bool}
    (hnone : b.equivocations.get? signer = none)
    (hheld : (b.noteEquivocation P doc incoming isTrusted).equivocations.get? signer = some proof) :
    P.fromPublicKey doc.publisher = signer ∧ ∃ e ∈ b.entries.values, e.publisherId = signer ∧
      e.version = doc.version ∧ e.sha256 ≠ doc.sha256 := by
  rcases noteEquivocation_cases (P := P) b doc incoming isTrusted with heq |
    ⟨-, hexisting, new, hset⟩
  · rw [heq, hnone] at hheld
    cases hheld
  · have hid : P.fromPublicKey doc.publisher = signer := by
      by_contra hne
      rcases hset with heq | ⟨-, -, old, -, heq⟩
      · rw [heq, Dict.get?_set_of_ne _ hne, hnone] at hheld
        cases hheld
      · rw [heq, Dict.get?_set_of_ne _ hne, Dict.get?_pop, hnone] at hheld
        split_ifs at hheld
    exact ⟨hid, hid ▸ hexisting⟩

theorem Tells.safe (htidy : Tidy P b) (h : Tells b signer op) (htrusts : Trusts P signer op)
    (hheld : (op.apply J P b).equivocations.get? signer = some proof) :
    Safe P (op.apply J P b) signer proof := by
  refine ⟨hheld, ?_⟩
  cases op with
  | offer releaseBytes trusted =>
    have hnone : b.equivocations.get? signer = none := Dict.get?_eq_none.mpr h
    refine Or.inr ?_
    show Flagged (b.offer J P releaseBytes trusted).2 signer
    replace hheld : (b.offer J P releaseBytes trusted).2.equivocations.get? signer = some proof := hheld
    rcases offer_cases (J := J) (P := P) b releaseBytes trusted with ⟨-, heq⟩ |
      ⟨doc, noted, -, hnoted, ⟨-, heq⟩ | ⟨hnew, hcases⟩⟩
    · rw [heq, hnone] at hheld
      cases hheld
    · rw [heq] at hheld
      replace hheld : b.equivocations.get? signer = some proof := hheld
      rw [hnone] at hheld
      cases hheld
    · have hsigner : noted.equivocations.get? signer = some proof := by
        rcases hcases with ⟨-, -, heq⟩ | ⟨room, hroom, heq⟩
        · rw [heq] at hheld
          exact hheld
        · rw [heq] at hheld
          replace hheld : room.equivocations.get? signer = some proof := hheld
          rcases hroom with ⟨rfl, -⟩ | hroom
          · exact hheld
          · rw [(makeRoom_keeps hroom).1] at hheld
            exact hheld
      rw [hnoted] at hsigner
      obtain ⟨rfl, existing, hexisting, hid, -⟩ := of_note hnone hsigner
      have htrusted : trusted doc.publisher = true := htrusts doc.publisher rfl
      rcases hcases with ⟨-, hroom, heq⟩ | ⟨room, -, heq⟩
      · have hentries := (noteEquivocation_keeps (P := P) b doc releaseBytes
          (trusted doc.publisher)).1
        rw [← hnoted] at hentries
        rw [htrusted] at hroom
        obtain ⟨key, hget⟩ := Dict.mem_values.mp hexisting
        rw [← hentries] at hget
        rw [heq]
        exact ⟨key, existing, hget, hid, trusted_of_makeRoom hroom hget⟩
      · rw [heq]
        exact ⟨descriptorKey P releaseBytes, _, Dict.get?_set_self _ _ _, rfl, htrusted⟩
  | retrust trusted => exact Or.inl (marked_retrust htidy htrusts)

/-! ### Runs -/

def after (J : Reader) (P : Primitives) (maxEntries : ℤ) (ops : List ReleaseOp) : ReleaseBook :=
  run (ReleaseOp.apply J P) (.new maxEntries) ops

/-- **No pinned publisher is crowded out** by these calls. -/
structure Uncrowded (J : Reader) (P : Primitives) (maxEntries : ℤ) (ops : List ReleaseOp) : Prop where
  /-- The book does not exceed its bound. -/
  size : (after J P maxEntries ops).entries.size ≤ maxEntries
  /-- A trusted entry is never removed. -/
  kept : ∀ pre op post, ops = pre ++ op :: post → ∀ key e,
    (after J P maxEntries pre).entries.get? key = some e → e.trusted = true →
      ∃ t, (after J P maxEntries (pre ++ [op])).entries.get? key = some { e with trusted := t } ∧
        (t = true ∨ t = trusts op e.publisher)
  /-- A new release of a trusted key is refused only where every release held is trusted. -/
  refused : ∀ pre releaseBytes trusted post, ops = pre ++ .offer releaseBytes trusted :: post →
    ∀ doc, parseRelease J P releaseBytes = some doc →
      descriptorKey P releaseBytes ∉ (after J P maxEntries pre).entries.keys →
      trusted doc.publisher = true →
      ((after J P maxEntries pre).offer J P releaseBytes trusted).1 = false →
      ∀ e ∈ (after J P maxEntries pre).entries.values, e.trusted = true
  /-- The proof about a key that is trusted, or is from `told` on, stays while the key is trusted. -/
  proofs : ∀ pre told since, ops = pre ++ told :: since → ∀ signer proof,
    Tells (after J P maxEntries pre) signer told →
    (after J P maxEntries (pre ++ [told])).equivocations.get? signer = some proof →
    (∀ op ∈ told :: since, Trusts P signer op) →
    (after J P maxEntries ops).equivocations.get? signer = some proof

theorem tidy_after {maxEntries : ℤ} (hmax : 1 ≤ maxEntries) (ops : List ReleaseOp) :
    Tidy P (after J P maxEntries ops) :=
  run_induct (fun _ op h => h.apply op) ops (tidy_new hmax)

theorem max_after (maxEntries : ℤ) (ops : List ReleaseOp) :
    (after J P maxEntries ops).max = maxEntries :=
  run_induct (P := fun b => b.max = maxEntries) (fun b op h => (max_apply b op).trans h) ops rfl

theorem Safe.after : ∀ {ops : List ReleaseOp} {b : ReleaseBook}, Tidy P b → Safe P b signer proof →
    (∀ op ∈ ops, Trusts P signer op) → Guarded (ReleaseOp.apply J P) (Shown J P) b ops →
      Safe P (run (ReleaseOp.apply J P) b ops) signer proof
  | [], _, _, h, _, _ => h
  | op :: _, _, htidy, h, htrusts, hshown => by
    rw [run_cons]
    exact Safe.after (htidy.apply op) (h.apply htidy (htrusts op List.mem_cons_self) hshown.1)
      (fun op hop => htrusts op (List.mem_cons_of_mem _ hop)) hshown.2

/-- **The release book never crowds out a pinned publisher** in any run in which no new proof about a trusted
key finds the proofs full and one of them about a trusted key that has no release in the book. -/
theorem never_crowded (maxEntries : ℤ) (hmax : 1 ≤ maxEntries) (ops : List ReleaseOp)
    (hshown : Guarded (ReleaseOp.apply J P) (Shown J P) (.new maxEntries) ops) :
    Uncrowded J P maxEntries ops where
  size := by
    have hsize := (tidy_after (J := J) (P := P) hmax ops).size
    rwa [max_after] at hsize
  kept := by
    intro pre op post _ key e he htrusted
    rw [after, run_concat]
    exact kept_apply he htrusted op
  refused := by
    intro pre releaseBytes trusted post _ doc hparse hnew htrusted hrefused e he
    obtain ⟨key, hget⟩ := Dict.mem_values.mp he
    exact trusted_of_refused hparse hnew htrusted hrefused hget
  proofs := by
    rintro pre told since rfl signer proof htells hheld htrusts
    obtain ⟨-, hshown⟩ := guarded_append.mp hshown
    have htidy := tidy_after (J := J) (P := P) hmax pre
    rw [after, run_concat] at hheld
    have hsafe := htells.safe htidy (htrusts told List.mem_cons_self) hheld
    rw [after, run_append, run_cons]
    exact (Safe.after (htidy.apply told) hsafe (fun op hop => htrusts op (List.mem_cons_of_mem _ hop))
      hshown.2).held

/-! ### A proof that goes -/

def mixing : Primitives where
  sha256 := fun data => toBE 20 (data.foldl (fun n x => 257 * n + x.toNat) 0) ++ List.replicate 12 0
  len := fun data => by simp [length_toBE]
  verify := fun _ _ _ => true

def releaseOf (pub content : UInt8) : Release where
  v := .int 2
  version := ascii "1"
  size := 1
  sha256 := toHex (List.replicate 32 content)
  publisherHex := toHex [pub]
  ts := 0
  notes := []
  publisher := [pub]
  digest := List.replicate 32 content
  signature := [9]

/-- What `build_release` writes for it. -/
def writtenOf (pub content : UInt8) : Bytes := (encodeRelease (releaseOf pub content)).getD []

def pinned (pubs : List UInt8) (pub : Bytes) : Bool :=
  decide (mixing.fromPublicKey pub ∈ pubs.map fun pub => mixing.fromPublicKey [pub])

def twice (pub : UInt8) (pubs : List UInt8) : List ReleaseOp :=
  [.offer (writtenOf pub 0) (pinned pubs), .offer (writtenOf pub 1) (pinned pubs)]

/-- A book for one release, in which eight keys leave a proof and no release. -/
def eightProofs : List ReleaseOp :=
  [1, 2, 3, 4, 5, 6, 7, 8].flatMap fun pub => twice pub [pub] ++ [.retrust (pinned [])]

/-- One of these keys is pinned next, and a ninth key that is trusted signs one version twice. -/
def pinnedLate : List ReleaseOp := eightProofs ++ .retrust (pinned [1]) :: twice 9 [1, 9]

def late : NodeID := mixing.fromPublicKey [1]

/-- **A pinned key loses its proof**: its releases were dropped before it was trusted. -/
theorem late_crowded : ¬ Uncrowded plainReader mixing 1 pinnedLate := by
  intro h
  have hproof : (after plainReader mixing 1 (eightProofs ++ [.retrust (pinned [1])])).equivocations.get?
        late ≠ none ∧
      (after plainReader mixing 1 pinnedLate).equivocations.get? late = none := by decide +kernel
  obtain ⟨hheld, hgone⟩ := hproof
  obtain ⟨proof, hheld⟩ := Option.ne_none_iff_exists'.mp hheld
  have hstays := h.proofs eightProofs (.retrust (pinned [1])) (twice 9 [1, 9]) rfl late proof True.intro
    hheld ?_
  · rw [hgone] at hstays
    cases hstays
  · intro op hop pub hpub
    have hlate : pinned [1] pub = true ∧ pinned [1, 9] pub = true := by
      unfold pinned
      rw [hpub]
      exact ⟨by decide, by decide⟩
    simp only [twice, List.mem_cons, List.not_mem_nil, or_false] at hop
    rcases hop with rfl | rfl | rfl
    · simp only [trusts, hlate.1]
    · simp only [trusts, hlate.2]
    · simp only [trusts, hlate.2]

theorem never_crowded_twice : Uncrowded plainReader mixing 1 (twice 1 [1]) := by
  have hroom : ∀ {b : ReleaseBook} {op : ReleaseOp}, b.equivocations.size < maxEquivocations →
      Shown plainReader mixing b op := by
    intro b op hsize
    cases op with
    | offer releaseBytes trusted => exact fun hfull => absurd hsize (not_lt.mpr hfull)
    | retrust trusted => trivial
  exact never_crowded 1 (by decide) (twice 1 [1])
    ⟨hroom (by decide +kernel), hroom (by decide +kernel), trivial⟩

end NMesh.CoreRelease.Crowding
