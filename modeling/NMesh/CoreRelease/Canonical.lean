import NMesh.Base.Runs
import NMesh.CoreRelease.Catalog
import Mathlib.Data.Finset.Card

/-! # One signed release, one entry

The book files a release under the hash of its bytes, and a publisher signs a text made of seven of its
fields. `build_release` writes one text for each signature (`encodeRelease_inj`), but a descriptor may be spelled
in many ways: `parse_release` takes them all (`readRelease_blank`).

Where every descriptor is spelled as `build_release` does (`Plain`), the releases of a book are as many as
the texts that were signed. -/

namespace NMesh.CoreRelease.Canonical

open Base.BigEndian Base.Utf8 Base.Hex Base.JsonText Base.Ordered
open Base.Runs NMesh.Cert.Identity NMesh.CoreRelease.Descriptor NMesh.CoreRelease.Catalog
open NMesh.Directory.PseudoDir (Primitives turning)

/-! ### The text that is written -/

def following (r : Release) : Text :=
  dumpMembers [(ascii "size", .int r.size), (ascii "ts", .int r.ts), (ascii "v", r.v),
    (ascii "version", .str r.version)]

def leading (r : Release) (rest : Text) : Text :=
  ascii "\x7b\"notes\": " ++ (dumpString r.notes ++ (ascii ", \"publisher\": " ++
    (dumpString r.publisherHex ++ (ascii ", \"sha256\": " ++ (dumpString r.sha256 ++ rest)))))

theorem signed_text (r : Release) : dumpsSorted (members r) = leading r (following r) := by
  unfold dumpsSorted
  rfl

theorem written_text (r : Release) :
    dumpsSorted (members r ++ [(ascii "sig", .str (toHex r.signature))]) =
      leading r (ascii ", \"sig\": " ++ (dumpString (toHex r.signature) ++ following r)) := by
  unfold dumpsSorted
  rfl

theorem leading_inj {r r' : Release} {rest rest' : Text} (h : leading r rest = leading r' rest') :
    (∀ more, leading r more = leading r' more) ∧ rest = rest' := by
  obtain ⟨hnotes, h⟩ := dumpString_append_inj (List.append_cancel_left h)
  obtain ⟨hpublisher, h⟩ := dumpString_append_inj (List.append_cancel_left h)
  obtain ⟨hsha, h⟩ := dumpString_append_inj (List.append_cancel_left h)
  exact ⟨fun more => by unfold leading; rw [hnotes, hpublisher, hsha], h⟩

variable {input : Bytes}

/-- **One text for each signature**: what is signed and the signature make the descriptor. -/
theorem encodeRelease_inj {r r' : Release} (h : signingInput r = some input)
    (h' : signingInput r' = some input) (hsig : r.signature = r'.signature) :
    encodeRelease r = encodeRelease r' := by
  obtain ⟨data, hdata, rfl⟩ := Option.map_eq_some_iff.mp h
  obtain ⟨data', hdata', heq⟩ := Option.map_eq_some_iff.mp h'
  have hbytes : domain ++ data' = domain ++ data := heq
  rw [List.append_cancel_left hbytes] at hdata'
  have htext : leading r (following r) = leading r' (following r') := by
    rw [← signed_text, ← signed_text]
    exact encode_inj hdata hdata'
  obtain ⟨hleading, hfollowing⟩ := leading_inj htext
  rw [encodeRelease, encodeRelease, written_text, written_text, hleading, hsig, hfollowing]

/-! ### Plain descriptors -/

variable (J : Reader) (P : Primitives)

/-- What the publisher of a descriptor signed, if it is accepted. -/
def stated (data : Bytes) : Option Bytes := (parseRelease J P data).bind signingInput

/-- Descriptors that are spelled as `build_release` does, under one signature for each text. -/
structure Plain (D : Set Bytes) : Prop where
  written : ∀ data ∈ D, ∀ r, parseRelease J P data = some r → encodeRelease r = some data
  once : ∀ data ∈ D, ∀ data' ∈ D, ∀ r r', parseRelease J P data = some r →
    parseRelease J P data' = some r' → signingInput r = signingInput r' → r.signature = r'.signature

variable {J P} {D : Set Bytes}

variable {data : Bytes}

theorem Plain.stated_inj (h : Plain J P D) {data' : Bytes} (hdata : data ∈ D)
    (hdata' : data' ∈ D) (hs : stated J P data = some input) (hs' : stated J P data' = some input) :
    data = data' := by
  obtain ⟨r, hr, hinput⟩ := Option.bind_eq_some_iff.mp hs
  obtain ⟨r', hr', hinput'⟩ := Option.bind_eq_some_iff.mp hs'
  have hsig := h.once data hdata data' hdata' r r' hr hr' (hinput.trans hinput'.symm)
  have hsame := encodeRelease_inj hinput hinput' hsig
  rw [h.written data hdata r hr, h.written data' hdata' r' hr'] at hsame
  exact Option.some.inj hsame

theorem stated_of_parse {r : Release} (h : parseRelease J P data = some r) :
    ∃ input, stated J P data = some input ∧ P.verify input r.signature r.publisher = true := by
  obtain ⟨-, input, hinput, hverify⟩ := parseRelease_eq_some.mp h
  exact ⟨input, by rw [stated, h]; exact hinput, hverify⟩

/-! ### The book -/

def trusted (b : ReleaseBook) : List (Bytes × CatalogueEntry) := b.entries.entries.filter (·.2.trusted)

/-- What is offered is in `D`, and the keys that are trusted are in `T`. -/
def Within (D T : Set Bytes) : ReleaseOp → Prop
  | .offer releaseBytes trusted => releaseBytes ∈ D ∧ ∀ pub, trusted pub = true → pub ∈ T
  | .retrust trusted => ∀ pub, trusted pub = true → pub ∈ T

/-- A release as it is filed. -/
structure Filed (J : Reader) (P : Primitives) (D T : Set Bytes) (key : Bytes) (e : CatalogueEntry) :
    Prop where
  key : key = descriptorKey P e.release
  release : e.release ∈ D
  parsed : ∃ doc, parseRelease J P e.release = some doc ∧ e.publisher = doc.publisher
  trusted : e.trusted = true → e.publisher ∈ T

def Held (J : Reader) (P : Primitives) (D T : Set Bytes) (b : ReleaseBook) : Prop :=
  ∀ key e, b.entries.get? key = some e → Filed J P D T key e

variable {T : Set Bytes} {b : ReleaseBook}

theorem Held.file (h : Held J P D T b) {key : Bytes} {entry : CatalogueEntry}
    (hentry : Filed J P D T key entry) : Held J P D T { b with entries := b.entries.set key entry } := by
  exact Dict.all_set h hentry

/-- **One call.** -/
theorem Held.apply (h : Held J P D T b) {op : ReleaseOp} (hop : Within D T op) :
    Held J P D T (op.apply J P b) := by
  cases op with
  | offer releaseBytes trusted =>
    obtain ⟨hD, hT⟩ := hop
    show Held J P D T (b.offer J P releaseBytes trusted).2
    rcases ReleaseBook.offer_cases (J := J) (P := P) b releaseBytes trusted with ⟨-, heq⟩ |
      ⟨doc, noted, hdoc, hnoted, ⟨-, heq⟩ | ⟨-, ⟨-, -, heq⟩ | ⟨room, hroom, heq⟩⟩⟩
    · rw [heq]
      exact h
    · rw [heq]
      intro key e he
      have hget : (b.entries.moveToEnd _).get? key = some e := he
      rw [Dict.get?_moveToEnd] at hget
      exact h key e hget
    · rw [heq]
      intro key e he
      rw [hnoted, (ReleaseBook.noteEquivocation_keeps b doc releaseBytes _).1] at he
      exact h key e he
    · have hnote : Held J P D T noted := by
        intro key e he
        rw [hnoted, (ReleaseBook.noteEquivocation_keeps b doc releaseBytes _).1] at he
        exact h key e he
      have hroom' : Held J P D T room := by
        rcases hroom with ⟨rfl, -⟩ | hroom
        · exact hnote
        · exact fun key e he => hnote key e (ReleaseBook.get?_of_makeRoom hroom he)
      rw [heq]
      exact hroom'.file ⟨rfl, hD, ⟨doc, hdoc, rfl⟩, hT doc.publisher⟩
  | retrust trusted =>
    intro key e he
    obtain ⟨old, hold, rfl⟩ := Dict.get?_of_mapVal he
    obtain ⟨hkey, hD, hparsed, -⟩ := h key old hold
    exact ⟨hkey, hD, hparsed, hop old.publisher⟩

theorem Held.after (ops : List ReleaseOp) (h : Held J P D T b) (hops : ∀ op ∈ ops, Within D T op) :
    Held J P D T (run (ReleaseOp.apply J P) b ops) ∧ (run (ReleaseOp.apply J P) b ops).max = b.max := by
  induction ops generalizing b with
  | nil => exact ⟨h, rfl⟩
  | cons op ops ih =>
    have hnext := ih (h.apply (hops op List.mem_cons_self)) fun op' hop =>
      hops op' (List.mem_cons_of_mem _ hop)
    rw [run_cons]
    exact ⟨hnext.1, hnext.2.trans (max_apply b op)⟩

/-! ### How many are trusted -/

def said (J : Reader) (P : Primitives) (e : CatalogueEntry) : Bytes := (stated J P e.release).getD []

variable {Signed : Finset Bytes} {key : Bytes} {e : CatalogueEntry}

theorem Filed.stated (h : Filed J P D T key e) : stated J P e.release = some (said J P e) := by
  obtain ⟨doc, hdoc, -⟩ := h.parsed
  obtain ⟨input, hinput, -⟩ := stated_of_parse hdoc
  rw [said, hinput]
  rfl

theorem Filed.said_mem (h : Filed J P D T key e) (htrusted : e.trusted = true)
    (hSigned : ∀ pub ∈ T, ∀ input sig, P.verify input sig pub = true → input ∈ Signed) :
    said J P e ∈ Signed := by
  obtain ⟨doc, hdoc, hpublisher⟩ := h.parsed
  obtain ⟨input, hinput, hverify⟩ := stated_of_parse hdoc
  rw [said, hinput]
  exact hSigned _ (hpublisher ▸ h.trusted htrusted) input _ hverify

theorem Held.filed (h : Held J P D T b) (he : (key, e) ∈ trusted b) :
    b.entries.get? key = some e ∧ Filed J P D T key e ∧ e.trusted = true := by
  obtain ⟨hmem, htrusted⟩ := List.mem_filter.mp he
  have hget := Dict.get?_eq_some.mpr hmem
  exact ⟨hget, h key e hget, htrusted⟩

theorem Held.said_mem (h : Held J P D T b)
    (hSigned : ∀ pub ∈ T, ∀ input sig, P.verify input sig pub = true → input ∈ Signed) :
    ∀ text ∈ (trusted b).map fun e => said J P e.2, text ∈ Signed := by
  intro text htext
  obtain ⟨⟨key, e⟩, he, rfl⟩ := List.mem_map.mp htext
  obtain ⟨-, hfiled, htrusted⟩ := h.filed he
  exact hfiled.said_mem htrusted hSigned

theorem Held.said_nodup (h : Held J P D T b) (hplain : Plain J P D) :
    ((trusted b).map fun e => said J P e.2).Nodup := by
  refine List.Nodup.map_on ?_ (b.entries.nodup.of_map.filter _)
  rintro ⟨key, e⟩ he ⟨key', e'⟩ he' hsame
  obtain ⟨hget, hfiled, -⟩ := h.filed he
  obtain ⟨hget', hfiled', -⟩ := h.filed he'
  have hsaid : said J P e = said J P e' := hsame
  have hrelease := hplain.stated_inj hfiled.release hfiled'.release hfiled.stated
    (hsaid ▸ hfiled'.stated)
  have hkeys : key = key' := by rw [hfiled.key, hfiled'.key, hrelease]
  rw [← hkeys, hget] at hget'
  rw [hkeys, Option.some.inj hget']

theorem Held.trusted_le (h : Held J P D T b) (hplain : Plain J P D)
    (hSigned : ∀ pub ∈ T, ∀ input sig, P.verify input sig pub = true → input ∈ Signed) :
    (trusted b).length ≤ Signed.card := by
  have hcard := Finset.card_le_card fun text htext =>
    h.said_mem hSigned text (List.mem_toFinset.mp htext)
  rwa [List.toFinset_card_of_nodup (h.said_nodup hplain), List.length_map] at hcard

theorem Held.said_fresh (h : Held J P D T b) (hplain : Plain J P D)
    (hdata : data ∈ D) (hinput : stated J P data = some input) (hnew : descriptorKey P data ∉ b.entries.keys) :
    input ∉ (trusted b).map fun e => said J P e.2 := by
  rintro hmem
  obtain ⟨⟨key, e⟩, he, rfl⟩ := List.mem_map.mp hmem
  obtain ⟨hget, hfiled, -⟩ := h.filed he
  have hsame := hplain.stated_inj hfiled.release hdata hfiled.stated hinput
  rw [← hsame, ← hfiled.key] at hnew
  exact hnew (Dict.mem_keys_of_get? hget)

/-- **Nothing keeps a trusted release out** that is signed while there is room for all that are. -/
theorem Held.offer_new (h : Held J P D T b) (hplain : Plain J P D)
    (hSigned : ∀ pub ∈ T, ∀ input sig, P.verify input sig pub = true → input ∈ Signed)
    (hroom : (Signed.card : ℤ) ≤ b.max) (hdata : data ∈ D) {doc : Release}
    (hdoc : parseRelease J P data = some doc) {trusts : Bytes → Bool} (htrusts : trusts doc.publisher = true)
    (hpub : doc.publisher ∈ T) (hnew : descriptorKey P data ∉ b.entries.keys) :
    (b.offer J P data trusts).1 = true := by
  rcases ReleaseBook.offer_cases (J := J) (P := P) b data trusts with ⟨hnone, -⟩ |
    ⟨doc', noted, hdoc', hnoted, ⟨hheld, -⟩ | ⟨-, ⟨hfull, hno, -⟩ | ⟨room, -, heq⟩⟩⟩
  · rw [hdoc] at hnone
    cases hnone
  · exact absurd hheld hnew
  · exfalso
    rw [hdoc] at hdoc'
    cases hdoc'
    rw [htrusts, hnoted] at hno
    have hall : ∀ e ∈ b.entries.entries, e.2.trusted = true := fun e he =>
      ReleaseBook.trusted_of_makeRoom hno (by
        rw [(ReleaseBook.noteEquivocation_keeps b doc data _).1]
        exact Dict.get?_eq_some.mpr he)
    have hlen : (trusted b).length = b.entries.size := by
      rw [trusted, List.filter_eq_self.mpr hall, Dict.size]
    obtain ⟨input, hinput, hverify⟩ := stated_of_parse hdoc
    -- the text of the newcomer is one more
    have hsub : ∀ text ∈ input :: (trusted b).map fun e => said J P e.2, text ∈ Signed := by
      intro text htext
      rcases List.mem_cons.mp htext with rfl | hmem
      · exact hSigned _ hpub text _ hverify
      · exact h.said_mem hSigned text hmem
    have hcard := Finset.card_le_card fun text htext => hsub text (List.mem_toFinset.mp htext)
    rw [List.toFinset_card_of_nodup (List.nodup_cons.mpr
      ⟨h.said_fresh hplain hdata hinput hnew, h.said_nodup hplain⟩), List.length_cons, List.length_map,
      hlen] at hcard
    omega
  · rw [heq]

/-! ### The law -/

/-- **One signed release is one release where descriptors are plain.** Then two descriptors that are
accepted say two things, in every run the trusted releases of the book are no more than the texts that
trusted keys signed, and while these fit the book no trusted release is kept out. But every descriptor
that is accepted and is not of full length is accepted, and says the same, behind a space. -/
theorem one_release (J : Reader) (P : Primitives) (D : Set Bytes) (hplain : Plain J P D) :
    (∀ data ∈ D, ∀ data' ∈ D, ∀ r r', parseRelease J P data = some r → parseRelease J P data' = some r' →
      data ≠ data' → signingInput r ≠ signingInput r') ∧
    (∀ (maxEntries : ℤ) (ops : List ReleaseOp) (T : Set Bytes) (Signed : Finset Bytes),
      (∀ op ∈ ops, Within D T op) →
      (∀ pub ∈ T, ∀ input sig, P.verify input sig pub = true → input ∈ Signed) →
      (trusted (run (ReleaseOp.apply J P) (.new maxEntries) ops)).length ≤ Signed.card ∧
      ((Signed.card : ℤ) ≤ maxEntries → ∀ data ∈ D, ∀ r, parseRelease J P data = some r → r.publisher ∈ T →
        ∀ trusts : Bytes → Bool, trusts r.publisher = true →
        descriptorKey P data ∉ (run (ReleaseOp.apply J P) (.new maxEntries) ops).entries.keys →
        ((run (ReleaseOp.apply J P) (.new maxEntries) ops).offer J P data trusts).1 = true)) ∧
    ∀ data r, data.length < maxBlob → parseRelease J P data = some r →
      parseRelease J P (0x20 :: data) = some r := by
  refine ⟨fun data hD data' hD' r r' hr hr' hne hsame => hne ?_,
    fun maxEntries ops T Signed hops hSigned => ?_, fun data r hlen hr => ?_⟩
  · obtain ⟨input, hinput, -⟩ := stated_of_parse hr
    refine hplain.stated_inj hD hD' hinput ?_
    rw [stated, hr] at hinput
    rw [stated, hr']
    exact hsame.symm.trans hinput
  · have hnew : Held J P D T (.new maxEntries) := fun key e he => by cases he
    obtain ⟨hheld, hmax⟩ := hnew.after ops hops
    refine ⟨hheld.trusted_le hplain hSigned, fun hroom data hdata r hr hpub trusts htrusts hfresh => ?_⟩
    exact hheld.offer_new hplain hSigned (by rw [hmax]; exact hroom) hdata hr htrusts hpub hfresh
  · rw [parseRelease, readRelease_blank hlen, ← parseRelease]
    exact hr

/-! ### Two releases -/

def releaseOf (version : String) : Release where
  v := .int 2
  version := ascii version
  size := 1
  sha256 := List.replicate 64 0x30
  publisherHex := ascii "07"
  ts := 0
  notes := []
  publisher := [7]
  digest := List.replicate 32 0
  signature := [9]

def signedOf (version : String) : Bytes := (signingInput (releaseOf version)).getD []

/-- What `build_release` writes for it. -/
def writtenOf (version : String) : Bytes := (encodeRelease (releaseOf version)).getD []

/-- Signatures of the two releases `1` and `2`, by the key of one byte. -/
def signing : Primitives where
  sha256 := turning.sha256
  len := turning.len
  verify := fun input sig pub => decide (input ∈ [signedOf "1", signedOf "2"] ∧ sig = [9] ∧ pub = [7])

def trustsSeven (pub : Bytes) : Bool := decide (pub = [7])

def signedBoth : Finset Bytes := {signedOf "1", signedOf "2"}

theorem mem_signedBoth {pub sig : Bytes} (h : signing.verify input sig pub = true) : input ∈ signedBoth := by
  have hmem := (of_decide_eq_true h).1
  simpa [signedBoth] using hmem

def spelledThrice : ReleaseBook :=
  run (ReleaseOp.apply plainReader signing) (.new 3)
    [.offer (writtenOf "1") trustsSeven, .offer (writtenOf "1" ++ [0x20]) trustsSeven,
      .offer (writtenOf "1" ++ [0x20, 0x20]) trustsSeven]

/-- Three releases are trusted where two were signed, and the second of these is kept out. -/
theorem spelled_thrice :
    (writtenOf "1" ≠ writtenOf "1" ++ [0x20] ∧
      stated plainReader signing (writtenOf "1") = some (signedOf "1") ∧
      stated plainReader signing (writtenOf "1" ++ [0x20]) = some (signedOf "1")) ∧
    (∀ pub input sig, signing.verify input sig pub = true → input ∈ signedBoth) ∧
    signedBoth.card < (trusted spelledThrice).length ∧
    (parseRelease plainReader signing (writtenOf "2")).isSome = true ∧
    descriptorKey signing (writtenOf "2") ∉ spelledThrice.entries.keys ∧
    (spelledThrice.offer plainReader signing (writtenOf "2") trustsSeven).1 = false := by
  refine ⟨⟨by decide +kernel, by decide +kernel, by decide +kernel⟩, fun pub input sig h => ?_,
    by decide +kernel, by decide +kernel, by decide +kernel, by decide +kernel⟩
  exact mem_signedBoth h

theorem plain_written : Plain plainReader signing {writtenOf "1", writtenOf "2"} := by
  have hread : ∀ version ∈ ["1", "2"], ((parseRelease plainReader signing (writtenOf version)).map
      fun r => (encodeRelease r, r.signature)) = some (some (writtenOf version), [9]) := by decide +kernel
  have hall : ∀ data ∈ ({writtenOf "1", writtenOf "2"} : Set Bytes), ∀ r,
      parseRelease plainReader signing data = some r → encodeRelease r = some data ∧ r.signature = [9] := by
    intro data hdata r hr
    obtain ⟨version, hversion, hwritten⟩ : ∃ version ∈ ["1", "2"], data = writtenOf version := by
      rcases hdata with hdata | hdata
      · exact ⟨"1", List.mem_cons_self, hdata⟩
      · exact ⟨"2", List.mem_cons_of_mem _ List.mem_cons_self, hdata⟩
    have h := hread version hversion
    rw [← hwritten, hr] at h
    exact Prod.mk.inj (Option.some.inj h)
  refine ⟨fun data hdata r hr => (hall data hdata r hr).1, fun data hdata data' hdata' r r' hr hr' _ => ?_⟩
  rw [(hall data hdata r hr).2, (hall data' hdata' r' hr').2]

theorem one_release_two :
    (trusted (run (ReleaseOp.apply plainReader signing) (.new 2)
      [.offer (writtenOf "1") trustsSeven])).length ≤ signedBoth.card ∧
    ((run (ReleaseOp.apply plainReader signing) (.new 2)
      [.offer (writtenOf "1") trustsSeven]).offer plainReader signing (writtenOf "2") trustsSeven).1 =
        true := by
  have hlaw := (one_release plainReader signing _ plain_written).2.1 2 [.offer (writtenOf "1") trustsSeven]
    {[7]} signedBoth (fun op hop => by
      obtain rfl := List.mem_singleton.mp hop
      exact ⟨Or.inl rfl, fun pub hpub => of_decide_eq_true hpub⟩)
    fun pub _ input sig h => mem_signedBoth h
  obtain ⟨r, hr⟩ := Option.isSome_iff_exists.mp (show
    (parseRelease plainReader signing (writtenOf "2")).isSome = true by decide +kernel)
  have hpub : r.publisher = [7] := by
    have h : (parseRelease plainReader signing (writtenOf "2")).map (·.publisher) = some [7] := by
      decide +kernel
    rw [hr] at h
    exact Option.some.inj h
  exact ⟨hlaw.1, hlaw.2 (by decide +kernel) _ (Or.inr rfl) r hr hpub trustsSeven
    (by rw [hpub]; decide) (by decide +kernel)⟩

end NMesh.CoreRelease.Canonical
