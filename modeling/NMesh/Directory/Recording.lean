import NMesh.Directory.PkgDir

/-! # A package record is read as it was built

`buildRecord` signs a record, with the proof of publication if the release's key and its signer are given. What
it builds is read back field by field (`record_reads`), if the version fits: the builder counts its characters
and the parser its bytes (`record_long`). A proof has a key and a signature that are not empty.

The Unicode database is assumed to make scalar values of scalar values (`Scalars`). -/

namespace NMesh.Directory.Recording

open Base.BigEndian Base.Utf8 NMesh.Cert.Identity NMesh.Directory.Name NMesh.Directory.PkgDir
open NMesh.Directory.PseudoDir (Primitives bytesOf plain turning)

variable (U : Unicode) (P : Primitives)

/-! ### Building -/

def recordFrame (kind flags ts : ℕ) (node name version notes release src nodeSig signer signerSig : Bytes) :
    Bytes :=
  toBE 1 recordVersion ++ (toBE 1 kind ++ (toBE 1 flags ++ (toBE 8 ts ++ (toBE 2 node.length ++
    (toBE 2 name.length ++ (toBE 2 version.length ++ (toBE 2 notes.length ++ (toBE 2 nodeSig.length ++
      (toBE 2 signer.length ++ (toBE 2 signerSig.length ++ (node ++ (name ++ (version ++ (notes ++
        (release ++ (src ++ (nodeSig ++ (signer ++ signerSig))))))))))))))))))

/-- The proof of publication, if it is asked for: the key and its signature. -/
def proofOf (nodeId : NodeID) (release : Bytes) (signerPub : Option Bytes)
    (signerSign : Option (Bytes → Option Bytes)) : Option (Bytes × Bytes) :=
  match signerPub, signerSign with
  | some pub, some sign =>
    (sign (publisherInput nodeId (P.fromPublicKey pub) release)).map fun sig => (pub, sig)
  | _, _ => some ([], [])

/-- Sign a record saying that this node holds and serves a release; `none` where an error is raised. -/
def buildRecord (kind : ℕ) (name version : Text) (release src nodePub : Bytes) (sign : Bytes → Option Bytes)
    (notes : Text) (ts : ℤ) (signerPub : Option Bytes) (signerSign : Option (Bytes → Option Bytes)) :
    Option Bytes := do
  guard (kind = kindCore ∨ kind = kindApp)
  guard (isCanonical U name)
  guard (0 < version.length ∧ version.length ≤ maxVersion)
  guard (release.length = releaseKeyLen ∧ src.length = srcLen)
  guard (signerPub.isSome = signerSign.isSome)
  let notes := notes.take maxNotes
  guard (0 ≤ ts ∧ ts < 256 ^ 8)
  let flags := if signerPub.isSome then flagPublished else 0
  let nodeId := P.fromPublicKey nodePub
  let input ← holdInput nodeId kind flags ts.toNat name version notes release src
  let nodeSig ← sign input
  let (signer, signerSig) ← proofOf P nodeId release signerPub signerSign
  let encodedName ← encodeUtf8 name
  let encodedVersion ← encodeUtf8 version
  let encodedNotes ← encodeUtf8 notes
  guard (nodePub.length ≤ maxPubkey ∧ nodeSig.length ≤ maxSig ∧ signer.length ≤ maxPubkey ∧
    signerSig.length ≤ maxSig ∧ encodedName.length ≤ maxNameBytes ∧ encodedNotes.length ≤ maxNotes * 4)
  return recordFrame kind flags ts.toNat nodePub encodedName encodedVersion encodedNotes release src nodeSig
    signer signerSig

/-! ### Scalar values -/

theorem isSome_encode : ∀ {text : Text}, (encodeUtf8 text).isSome = true ↔ ∀ c ∈ text, Scalar c
  | [] => by simp [encodeUtf8]
  | c :: text => by
    rw [encodeUtf8, List.forall_mem_cons, ← isSome_encode]
    split_ifs with hc
    · rw [Option.isSome_map]
      exact (and_iff_right hc).symm
    · exact iff_of_false Bool.false_ne_true fun h => hc h.1

theorem length_encode_le : ∀ {text : Text} {data : Bytes}, encodeUtf8 text = some data →
    data.length ≤ text.length * 4
  | [], data, h => by
    rw [encodeUtf8] at h
    rw [← Option.some.inj h]
    rfl
  | c :: text, data, h => by
    rw [encodeUtf8] at h
    split_ifs at h
    obtain ⟨rest, hrest, rfl⟩ := Option.map_eq_some_iff.mp h
    have hchar : (encodeChar c).length ≤ 4 := by
      unfold encodeChar
      split_ifs <;> simp
    have := length_encode_le hrest
    rw [List.length_append, List.length_cons]
    omega

/-- **The forms of a text of scalar values are such texts.** -/
structure Scalars (U : Unicode) : Prop where
  nfc : ∀ text : Text, (∀ c ∈ text, Scalar c) → ∀ c ∈ U.nfc text, Scalar c
  nfd : ∀ text : Text, (∀ c ∈ text, Scalar c) → ∀ c ∈ U.nfd text, Scalar c
  casefold : ∀ text : Text, (∀ c ∈ text, Scalar c) → ∀ c ∈ U.casefold text, Scalar c

variable {U P}

theorem Scalars.fold (h : Scalars U) {name : Text} (hname : isCanonical U name = true)
    (hscalar : ∀ c ∈ name, Scalar c) : ∀ c ∈ Name.fold U name, Scalar c := by
  have hcanonical : canonical U name = some name := by simpa [isCanonical] using hname
  unfold Name.fold
  rw [hcanonical]
  dsimp only
  split_ifs
  · simp
  · refine h.nfc _ fun c hc => ?_
    exact h.nfd _ (h.casefold name hscalar) c (List.mem_of_mem_filter hc)

theorem mem_of_mem_splitOn {a : ℕ} : ∀ {text w : List ℕ}, w ∈ text.splitOn a → ∀ c ∈ w, c ∈ text
  | [], word, hword, c, hc => by
    rw [List.splitOn_nil, List.mem_singleton] at hword
    rwa [hword] at hc
  | x :: text, word, hword, c, hc => by
    rw [List.splitOn_cons_eq_if_modifyHead] at hword
    split_ifs at hword with hx
    · rcases List.mem_cons.mp hword with rfl | hword
      · cases hc
      · exact List.mem_cons_of_mem x (mem_of_mem_splitOn hword c hc)
    · cases hsplit : text.splitOn a with
      | nil => exact absurd hsplit (List.splitOn_ne_nil a text)
      | cons first words =>
        rw [hsplit, List.modifyHead_cons] at hword
        rcases List.mem_cons.mp hword with rfl | hword
        · rcases List.mem_cons.mp hc with rfl | hc
          · exact List.mem_cons_self
          · refine List.mem_cons_of_mem x (mem_of_mem_splitOn (a := a) (w := first) ?_ c hc)
            rw [hsplit]
            exact List.mem_cons_self
        · refine List.mem_cons_of_mem x (mem_of_mem_splitOn (a := a) (w := word) ?_ c hc)
          rw [hsplit]
          exact List.mem_cons_of_mem first hword

theorem mem_of_mem_keyTerms {name term : Text} (hterm : term ∈ keyTerms U name) :
    ∀ c ∈ term, c ∈ Name.fold U name := by
  intro c hc
  unfold keyTerms at hterm
  dsimp only at hterm
  split_ifs at hterm with hnil
  · cases hterm
  · have hterm := List.mem_of_mem_filter (List.mem_eraseDups.mp (List.mem_of_mem_take hterm))
    rcases List.mem_cons.mp hterm with rfl | hterm
    · exact hc
    · obtain ⟨word, hword, hprefix⟩ := List.mem_flatMap.mp hterm
      obtain ⟨n, -, rfl⟩ := List.mem_map.mp hprefix
      exact mem_of_mem_splitOn hword c (List.mem_of_mem_take hc)

theorem isSome_nameKeys (h : Scalars U) {name : Text} (hname : isCanonical U name = true)
    (hscalar : ∀ c ∈ name, Scalar c) : (nameKeys U P name).isSome = true := by
  have hall : ∀ terms : List Text, (∀ term ∈ terms, (encodeUtf8 term).isSome = true) →
      (terms.mapM fun term => (encodeUtf8 term).map (dirKeyOf P ":name:")).isSome = true := by
    intro terms
    induction terms with
    | nil => exact fun _ => rfl
    | cons term terms ih =>
      intro hterms
      obtain ⟨data, hdata⟩ := Option.isSome_iff_exists.mp (hterms term List.mem_cons_self)
      obtain ⟨keys, hkeys⟩ := Option.isSome_iff_exists.mp
        (ih fun term' hin => hterms term' (List.mem_cons_of_mem term hin))
      rw [List.mapM_cons, hdata, hkeys]
      rfl
  refine hall _ fun term hterm => isSome_encode.mpr fun c hc => ?_
  exact h.fold hname hscalar c (mem_of_mem_keyTerms hterm c hc)

/-! ### Reading -/

section Read

variable {kind ts : ℕ} {node name version notes release src nodeSig signer signerSig : Bytes}
  {nameText versionText notesText : Text} {published : Bool}

def flagsOf (published : Bool) : ℕ := if published then flagPublished else 0

def recordSaid (P : Primitives) (published : Bool) (kind ts : ℕ) (node : Bytes) (name version notes : Text)
    (release src signer : Bytes) (keys : List Bytes) : Record where
  nodeId := P.fromPublicKey node
  node := node
  kind := kind
  flags := flagsOf published
  published := published
  signerId := if published then some (P.fromPublicKey signer) else none
  signer := if published then some signer else none
  name := name
  version := version
  notes := notes
  release := release
  src := src
  ts := ts
  keys := nodeKey P (P.fromPublicKey node) :: releaseKey P release :: keys

theorem length_recordFrame (kind flags ts : ℕ) (node name version notes nodeSig signer signerSig : Bytes)
    (hrelease : release.length = releaseKeyLen) (hsrc : src.length = srcLen) :
    (recordFrame kind flags ts node name version notes release src nodeSig signer signerSig).length =
      hdrSize + node.length + name.length + version.length + notes.length + releaseKeyLen + srcLen +
        nodeSig.length + signer.length + signerSig.length := by
  rw [recordFrame]
  simp only [List.length_append, length_toBE, hrelease, hsrc, hdrSize]
  ring

theorem frame_fits {a b c d e f g : ℕ} (ha : a ≤ maxPubkey) (hb : b ≤ maxNameBytes) (hc : c ≤ maxVersion)
    (hd : d ≤ maxNotes * 4) (he : e ≤ maxSig) (hf : f ≤ maxPubkey) (hg : g ≤ maxSig) :
    hdrSize ≤ hdrSize + a + b + c + d + releaseKeyLen + srcLen + e + f + g ∧
      hdrSize + a + b + c + d + releaseKeyLen + srcLen + e + f + g ≤ maxRecord := by
  unfold maxRecord
  omega

variable (U P published) in
theorem parseRecord_frame (hkind : kind = kindCore ∨ kind = kindApp) (hts : ts < 256 ^ 8)
    (hnode : node.length ≤ maxPubkey) (hnodeSig : nodeSig.length ≤ maxSig) (hsigner : signer.length ≤ maxPubkey)
    (hsignerSig : signerSig.length ≤ maxSig) (hname : name.length ≤ maxNameBytes)
    (hversion : version.length < 256 ^ 2) (hnotes : notes.length ≤ maxNotes * 4)
    (hrelease : release.length = releaseKeyLen) (hsrc : src.length = srcLen)
    (ename : encodeUtf8 nameText = some name) (eversion : encodeUtf8 versionText = some version)
    (enotes : encodeUtf8 notesText = some notes) (hcanonical : isCanonical U nameText = true)
    (hversionText : versionText ≠ []) (hnotesText : notesText.length ≤ maxNotes) (record : Record) :
    parseRecord U P (recordFrame kind (flagsOf published) ts node name version notes release src nodeSig signer
        signerSig) = some record ↔
      version.length ≤ maxVersion ∧ published ≠ decide (signer = [] ∨ signerSig = []) ∧
        ∃ input, holdInput (P.fromPublicKey node) kind (flagsOf published) ts nameText versionText notesText
            release src = some input ∧
          P.verify input nodeSig node = true ∧
          (published = true → P.verify (publisherInput (P.fromPublicKey node) (P.fromPublicKey signer) release)
            signerSig signer = true) ∧
          ∃ keys, nameKeys U P nameText = some keys ∧
            recordSaid P published kind ts node nameText versionText notesText release src signer keys =
              record := by
  set data := recordFrame kind (flagsOf published) ts node name version notes release src nodeSig signer
    signerSig with hdata
  have hlength := length_recordFrame kind (flagsOf published) ts node name version notes nodeSig signer signerSig
    hrelease hsrc
  rw [← hdata] at hlength
  simp only [maxPubkey, maxSig] at hnode hnodeSig hsigner hsignerSig
  simp only [maxNameBytes, maxName, maxPseudo, maxNotes] at hname hnotes
  -- what follows each offset
  have d0 : data.drop 0 = toBE 1 recordVersion ++ _ := rfl
  have d1 := drop_of_drop d0 (length_toBE 1 _)
  have d2 := drop_of_drop d1 (length_toBE 1 _)
  have d3 := drop_of_drop d2 (length_toBE 1 _)
  have d11 := drop_of_drop d3 (length_toBE 8 _)
  have d13 := drop_of_drop d11 (length_toBE 2 _)
  have d15 := drop_of_drop d13 (length_toBE 2 _)
  have d17 := drop_of_drop d15 (length_toBE 2 _)
  have d19 := drop_of_drop d17 (length_toBE 2 _)
  have d21 := drop_of_drop d19 (length_toBE 2 _)
  have d23 := drop_of_drop d21 (length_toBE 2 _)
  have dnode : data.drop hdrSize = _ := drop_of_drop d23 (length_toBE 2 _)
  have dname := drop_of_drop dnode rfl
  have dversion := drop_of_drop dname rfl
  have dnotes := drop_of_drop dversion rfl
  have drelease := drop_of_drop dnotes rfl
  have dsrc := drop_of_drop drelease hrelease
  have dnodeSig := drop_of_drop dsrc hsrc
  have dsigner := drop_of_drop dnodeSig rfl
  have dsignerSig := drop_of_drop dsigner rfl
  rw [← List.append_nil signerSig] at dsignerSig
  simp only [Nat.reduceAdd] at d1 d2 d3 d11 d13 d15 d17 d19 d21 d23
  -- the numbers and the parts read there
  have ever : field data 0 1 = recordVersion := field_of_drop d0 (by decide)
  have ekind : field data 1 1 = kind := field_of_drop d1 (by rcases hkind with rfl | rfl <;> decide)
  have eflags : field data 2 1 = flagsOf published := field_of_drop d2 (by cases published <;> decide)
  have ets : field data 3 8 = ts := field_of_drop d3 hts
  have enodeLen : field data 11 2 = node.length := field_of_drop d11 (by omega)
  have enameLen : field data 13 2 = name.length := field_of_drop d13 (by omega)
  have everLen : field data 15 2 = version.length := field_of_drop d15 hversion
  have enotesLen : field data 17 2 = notes.length := field_of_drop d17 (by omega)
  have ensigLen : field data 19 2 = nodeSig.length := field_of_drop d19 (by omega)
  have esignerLen : field data 21 2 = signer.length := field_of_drop d21 (by omega)
  have essigLen : field data 23 2 = signerSig.length := field_of_drop d23 (by omega)
  have enode := slice_of_drop dnode rfl
  have enameRaw := slice_of_drop dname rfl
  have eversionRaw := slice_of_drop dversion rfl
  have enotesRaw := slice_of_drop dnotes rfl
  have erelease := slice_of_drop drelease hrelease
  have esrc := slice_of_drop dsrc hsrc
  have enodeSig := slice_of_drop dnodeSig rfl
  have esigner := slice_of_drop dsigner rfl
  have esignerSig := slice_of_drop dsignerSig rfl
  have hflags : flagsOf published &&& 0xFE = 0 := by cases published <;> rfl
  have hpublished : decide (flagsOf published &&& flagPublished ≠ 0) = published := by cases published <;> rfl
  simp only [parseRecord, ever, ekind, eflags, ets, enodeLen, enameLen, everLen, enotesLen, ensigLen, esignerLen,
    essigLen, enode, enameRaw, eversionRaw, enotesRaw, erelease, esrc, enodeSig, esigner, esignerSig, hflags,
    hpublished, decode_encode ename, decode_encode eversion, decode_encode enotes, hcanonical, hkind,
    Option.bind_eq_bind, Option.bind_eq_some_iff, Option.guard_eq_some', Option.pure_def, Option.some.injEq,
    exists_eq_left', exists_const, true_and, ne_eq, hversionText, not_false_eq_true, and_true, hnotesText,
    List.length_eq_zero_iff]
  constructor
  · rintro ⟨-, hproof, ⟨-, -, -, -, -, hver, -⟩, -, hrest⟩
    exact ⟨hver, hproof, hrest⟩
  · rintro ⟨hver, hproof, hrest⟩
    have hfits := frame_fits hnode hname hver hnotes hnodeSig hsigner hsignerSig
    rw [← hlength] at hfits
    exact ⟨hfits, hproof, ⟨hnode, hnodeSig, hsigner, hsignerSig, hname, hver, hnotes⟩, hlength, hrest⟩

end Read

/-! ### The round trip -/

section RoundTrip

variable {kind : ℕ} {name version notes : Text} {release src nodePub data : Bytes} {ts : ℤ}
  {sign : Bytes → Option Bytes} {signerPub : Option Bytes} {signerSign : Option (Bytes → Option Bytes)}

theorem proofOf_cases {nodeId : NodeID} {signerKey signerSig : Bytes}
    (hboth : signerPub.isSome = signerSign.isSome)
    (h : proofOf P nodeId release signerPub signerSign = some (signerKey, signerSig)) :
    (signerPub = none ∧ signerSign = none ∧ signerKey = [] ∧ signerSig = []) ∨
      ∃ signer, signerPub = some signerKey ∧ signerSign = some signer ∧
        signer (publisherInput nodeId (P.fromPublicKey signerKey) release) = some signerSig := by
  cases signerPub with
  | none =>
    cases signerSign with
    | none =>
      cases h
      exact Or.inl ⟨rfl, rfl, rfl, rfl⟩
    | some signer => cases hboth
  | some pub =>
    cases signerSign with
    | none => cases hboth
    | some signer =>
      obtain ⟨sig, hsig, heq⟩ := Option.map_eq_some_iff.mp h
      cases heq
      exact Or.inr ⟨signer, rfl, rfl, hsig⟩

/-- **A record gives back what it was built from**, the notes as they were cut. -/
structure Gives (P : Primitives) (record : Record) (k : ℕ) (n v : Text) (r s pub : Bytes) (notes : Text)
    (t : ℤ) (signer : Option Bytes) : Prop where
  kind : record.kind = k
  name : record.name = n
  version : record.version = v
  release : record.release = r
  src : record.src = s
  node : record.node = pub
  nodeId : record.nodeId = P.fromPublicKey pub
  notes : record.notes = notes.take maxNotes
  ts : (record.ts : ℤ) = t
  published : record.published = signer.isSome
  signerId : record.signerId = signer.map P.fromPublicKey
  signer : record.signer = signer

/-- **A record is read as it was built** exactly if its version has at most 64 bytes and the proof of
publication, where it was asked for, has a key and a signature that are not empty. -/
theorem record_reads (hU : Scalars U) (P : Primitives)
    (hbuild : buildRecord U P kind name version release src nodePub sign notes ts signerPub signerSign =
      some data)
    (hsign : ∀ message signature, sign message = some signature → P.verify message signature nodePub = true)
    (hproof : ∀ pub signer, signerPub = some pub → signerSign = some signer → ∀ message signature,
      signer message = some signature → P.verify message signature pub = true) :
    (∃ record, parseRecord U P data = some record ∧
      Gives P record kind name version release src nodePub notes ts signerPub) ↔
    (∀ encoded, encodeUtf8 version = some encoded → encoded.length ≤ maxVersion) ∧
      ∀ pub signer, signerPub = some pub → signerSign = some signer → pub ≠ [] ∧
        signer (publisherInput (P.fromPublicKey nodePub) (P.fromPublicKey pub) release) ≠ some [] := by
  simp only [buildRecord, Option.bind_eq_bind, Option.bind_eq_some_iff, Option.guard_eq_some'] at hbuild
  obtain ⟨-, hkind, -, hname, -, ⟨hversion, hversionLen⟩, -, ⟨hrelease, hsrc⟩, -, hboth, -, ⟨hts, htsLt⟩,
    input, hinput, nodeSig, hnodeSig, ⟨signerKey, signerSig⟩, hasked, en, hen, ev, hev, eo, heo, -,
    ⟨hnode, hnsig, hsk, hssig, henLen, heoLen⟩, hdata⟩ := hbuild
  cases hdata
  have hscalar : ∀ c ∈ name, Scalar c := isSome_encode.mp (by rw [hen]; rfl)
  obtain ⟨keys, hkeys⟩ := Option.isSome_iff_exists.mp (isSome_nameKeys (P := P) hU hname hscalar)
  have hevLen : ev.length < 256 ^ 2 := by
    have := length_encode_le hev
    unfold maxVersion at hversionLen
    omega
  have htsNat : ts.toNat < 256 ^ 8 := by omega
  have hread := parseRecord_frame U P signerPub.isSome hkind htsNat hnode hnsig hsk
    hssig henLen hevLen heoLen hrelease hsrc hen hev heo hname (List.length_pos_iff.mp hversion)
    (List.length_take_le _ _)
  have hverify := hsign input nodeSig hnodeSig
  -- the proof of publication
  obtain ⟨hpub, hchecks, hkey⟩ : (signerPub.isSome ≠ decide (signerKey = [] ∨ signerSig = []) ↔
      ∀ pub signer, signerPub = some pub → signerSign = some signer → pub ≠ [] ∧
        signer (publisherInput (P.fromPublicKey nodePub) (P.fromPublicKey pub) release) ≠ some []) ∧
      (signerPub.isSome = true → P.verify (publisherInput (P.fromPublicKey nodePub)
        (P.fromPublicKey signerKey) release) signerSig signerKey = true) ∧
      (if signerPub.isSome then some signerKey else none) = signerPub := by
    rcases proofOf_cases hboth hasked with ⟨rfl, rfl, rfl, rfl⟩ | ⟨signer, rfl, rfl, hsig⟩
    · exact ⟨iff_of_true (by decide) (fun _ _ h => by cases h), (fun h => by cases h), rfl⟩
    · refine ⟨?_, fun _ => hproof signerKey signer rfl rfl _ _ hsig, rfl⟩
      constructor
      · intro hne pub signer' hpub hsigner
        cases hpub
        cases hsigner
        rw [hsig]
        have hno : ¬ (signerKey = [] ∨ signerSig = []) := by simpa using hne
        exact ⟨fun h => hno (Or.inl h), fun h => hno (Or.inr (Option.some.inj h))⟩
      · intro h
        obtain ⟨hk, hs⟩ := h signerKey signer rfl rfl
        rw [hsig] at hs
        have hno : ¬ (signerKey = [] ∨ signerSig = []) :=
          fun hor => hor.elim hk fun hempty => hs (by rw [hempty])
        simpa using hno
  constructor
  · rintro ⟨record, hparse, -⟩
    obtain ⟨hlen, hne, -⟩ := (hread record).mp hparse
    refine ⟨fun encoded hencoded => ?_, hpub.mp hne⟩
    rw [hev] at hencoded
    rw [← Option.some.inj hencoded]
    exact hlen
  · rintro ⟨hlen, hne⟩
    refine ⟨_, (hread _).mpr ⟨hlen ev hev, hpub.mpr hne, input, hinput, hverify, hchecks, keys, hkeys, rfl⟩, ?_⟩
    refine ⟨rfl, rfl, rfl, rfl, rfl, rfl, rfl, rfl, Int.toNat_of_nonneg hts, rfl, ?_, hkey⟩
    rw [← hkey, recordSaid]
    cases signerPub <;> rfl

end RoundTrip

/-! ### Two versions -/

theorem scalars_plain : Scalars plain := ⟨fun _ h => h, fun _ h => h, fun _ h => h⟩

def published (version : Text) : Option Bytes :=
  buildRecord plain turning kindCore (ascii "al") version (List.replicate 20 1) (List.replicate 32 1) [7]
    (fun _ => some [9]) [] 5 (some [8]) (some fun _ => some [6])

theorem record_reads_short :
    (∃ record, parseRecord plain turning ((published (ascii "1.0")).getD []) = some record ∧
      Gives turning record kindCore (ascii "al") (ascii "1.0") (List.replicate 20 1) (List.replicate 32 1) [7]
        [] 5 (some [8])) ↔
    (∀ encoded, encodeUtf8 (ascii "1.0") = some encoded → encoded.length ≤ maxVersion) ∧
      ∀ (pub : Bytes) (signer : Bytes → Option Bytes), some [8] = some pub →
        some (fun _ => some [6]) = some signer → pub ≠ [] ∧
        signer (publisherInput (turning.fromPublicKey [7]) (turning.fromPublicKey pub)
          (List.replicate 20 1)) ≠ some [] :=
  record_reads scalars_plain turning (show published (ascii "1.0") = some _ by decide +kernel)
    (fun _ _ _ => rfl) (fun _ _ _ _ _ _ _ => rfl)

/-- **A version of forty characters, each of two bytes**, is built into a record under signatures that check, and
the record is refused. -/
theorem record_long :
    let version := List.replicate 40 0xE9
    version.length ≤ maxVersion ∧ (published version).isSome = true ∧
      (∀ message signature pub, turning.verify message signature pub = true) ∧
      (published version).bind (parseRecord plain turning) = none :=
  ⟨by decide, by decide +kernel, fun _ _ _ => rfl, by decide +kernel⟩

end NMesh.Directory.Recording
