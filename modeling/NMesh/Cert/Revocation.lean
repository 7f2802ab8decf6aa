import NMesh.Base.Reading
import NMesh.Cert.Identity

/-! # Revocations

A revocation is one signed sentence: the issuer no longer vouches for the subject, as of a moment. Its
record is a header `version, issued_at, subject_id, reason, pub_len, sig_len`, the issuer's public key and
the signature. `build` makes a record, and `parse` returns nothing for one that does not check out. -/

namespace NMesh.Cert.Revocation

open Base.BigEndian Base.Reading NMesh.Cert.Identity

/-- `nmesh-revocation-v1`. -/
def domain : Bytes :=
  [0x6E, 0x6D, 0x65, 0x73, 0x68, 0x2D, 0x72, 0x65, 0x76, 0x6F, 0x63, 0x61, 0x74, 0x69, 0x6F, 0x6E, 0x2D,
    0x76, 0x31]

def version : ℕ := 1
def headerSize : ℕ := 34
def maxPubkey : ℕ := 4096
def maxSig : ℕ := 5000
def maxRecord : ℕ := headerSize + maxPubkey + maxSig

/-- What a record says. -/
structure Parsed where
  issuerId : NodeID
  issuerPub : Bytes
  subjectId : NodeID
  issuedAt : ℕ
  reason : ℕ
  deriving DecidableEq

def signingInput (issuedAt : ℕ) (subjectRaw : Bytes) (reason : ℕ) : Bytes :=
  domain ++ toBE 1 version ++ toBE 8 issuedAt ++ subjectRaw ++ toBE 1 reason

/-- The reasons a revocation may give. They are advisory. -/
def reasonNames : List ℕ := [0, 1, 2, 3]

def pack (stamp : ℕ) (subjectId : NodeID) (reason : ℕ) (issuerPub signature : Bytes) : Bytes :=
  toBE 1 version ++ (toBE 8 stamp ++ (subjectId.raw ++ (toBE 1 reason ++
    (toBE 2 issuerPub.length ++ (toBE 2 signature.length ++ (issuerPub ++ signature))))))

/-- Sign a revocation of every certificate issued for `subjectId`; none if a field does not fit. -/
def build (subjectId : NodeID) (issuerPub : Bytes) (sign : Bytes → Bytes) (reason stamp : ℕ) :
    Option Bytes :=
  if 256 ^ 8 ≤ stamp then none
  else
    let reason := if reason ∈ reasonNames then reason else 0
    let signature := sign (signingInput stamp subjectId.raw reason)
    if maxPubkey < issuerPub.length ∨ maxSig < signature.length then none
    else some (pack stamp subjectId reason issuerPub signature)

/-- The field of `w` bytes at `offset`. -/
def field (data : Bytes) (offset w : ℕ) : Bytes := (data.drop offset).take w

def parse (K : Crypto) (data : Bytes) : Option Parsed :=
  if data.length < headerSize ∨ maxRecord < data.length then none
  else
    let issuedAt := ofBE (field data 1 8)
    let subjectRaw := field data 9 20
    let reason := ofBE (field data 29 1)
    let pubLen := ofBE (field data 30 2)
    let sigLen := ofBE (field data 32 2)
    if ofBE (field data 0 1) ≠ version then none
    else if maxPubkey < pubLen ∨ maxSig < sigLen ∨ pubLen = 0 ∨ sigLen = 0 then none
    else if data.length ≠ headerSize + pubLen + sigLen then none
    else
      let issuerPub := field data headerSize pubLen
      let signature := data.drop (headerSize + pubLen)
      if !K.verify (signingInput issuedAt subjectRaw reason) signature issuerPub then none
      else
        let issuerId := K.fromPublicKey issuerPub
        match NodeID.ofRaw subjectRaw with
        | none => none
        | some subjectId =>
          -- an issuer revoking itself is nothing to store
          if issuerId = subjectId then none
          else some ⟨issuerId, issuerPub, subjectId, issuedAt, reason⟩

/-! ### A record that is built is read back -/

section Pack

variable {stamp reason : ℕ} {subjectId : NodeID} {issuerPub signature : Bytes}

theorem length_pack : (pack stamp subjectId reason issuerPub signature).length =
    headerSize + issuerPub.length + signature.length := by
  simp only [pack, List.length_append, length_toBE, subjectId.len, headerSize]
  omega

theorem fields_pack : let data := pack stamp subjectId reason issuerPub signature
    field data 0 1 = toBE 1 version ∧ field data 1 8 = toBE 8 stamp ∧
      field data 9 20 = subjectId.raw ∧ field data 29 1 = toBE 1 reason ∧
      field data 30 2 = toBE 2 issuerPub.length ∧ field data 32 2 = toBE 2 signature.length ∧
      field data 34 issuerPub.length = issuerPub ∧
      data.drop (34 + issuerPub.length) = signature := by
  have h0 : From (pack stamp subjectId reason issuerPub signature) 0 (toBE 1 version ++ _) := From.start _
  have h1 := h0.next (length_toBE ..)
  have h9 := h1.next (length_toBE ..)
  have h29 := h9.next subjectId.len
  have h30 := h29.next (length_toBE ..)
  have h32 := h30.next (length_toBE ..)
  have h34 := h32.next (length_toBE ..)
  exact ⟨h0.slice (length_toBE ..), h1.slice (length_toBE ..), h9.slice subjectId.len, h29.slice (length_toBE ..),
    h30.slice (length_toBE ..), h32.slice (length_toBE ..), h34.slice rfl, (h34.next rfl).drop⟩

theorem parse_pack {K : Crypto} (hstamp : stamp < 256 ^ 8) (hreason : reason < 256)
    (hpub : 0 < issuerPub.length ∧ issuerPub.length ≤ maxPubkey)
    (hsig : 0 < signature.length ∧ signature.length ≤ maxSig)
    (hverify : K.verify (signingInput stamp subjectId.raw reason) signature issuerPub = true)
    (hne : K.fromPublicKey issuerPub ≠ subjectId) :
    parse K (pack stamp subjectId reason issuerPub signature) =
      some ⟨K.fromPublicKey issuerPub, issuerPub, subjectId, stamp, reason⟩ := by
  obtain ⟨f0, f1, f9, f29, f30, f32, f34, frest⟩ :=
    @fields_pack stamp reason subjectId issuerPub signature
  have hlen := @length_pack stamp reason subjectId issuerPub signature
  unfold maxPubkey at hpub
  unfold maxSig at hsig
  have hp16 : issuerPub.length < 256 ^ 2 := by omega
  have hs16 : signature.length < 256 ^ 2 := by omega
  unfold parse
  rw [if_neg (by rw [hlen]; unfold maxRecord headerSize maxPubkey maxSig; omega)]
  dsimp only
  rw [f0, f1, f9, f29, f30, f32, ofBE_toBE hstamp, ofBE_toBE (by omega : reason < 256 ^ 1),
    ofBE_toBE hp16, ofBE_toBE hs16, ofBE_toBE (by decide : version < 256 ^ 1), if_neg (by simp),
    if_neg (by unfold maxPubkey maxSig; omega), if_neg (by rw [hlen]; simp),
    show headerSize = 34 from rfl, f34, frest, if_neg (by rw [hverify]; simp)]
  unfold NodeID.ofRaw
  rw [dif_pos subjectId.len]
  exact if_neg hne

end Pack

section Build

variable {subjectId : NodeID} {issuerPub : Bytes} {sign : Bytes → Bytes} {reason stamp : ℕ}

theorem build_eq_some (hstamp : stamp < 256 ^ 8) (hpub : issuerPub.length ≤ maxPubkey)
    (hsig : ∀ reason, (sign (signingInput stamp subjectId.raw reason)).length ≤ maxSig) :
    ∃ record, build subjectId issuerPub sign reason stamp = some record := by
  unfold build
  rw [if_neg (Nat.not_le.mpr hstamp)]
  dsimp only
  rw [if_neg (not_or.mpr ⟨Nat.not_lt.mpr hpub, Nat.not_lt.mpr (hsig _)⟩)]
  exact ⟨_, rfl⟩

/-- **A revocation that is built is read back**: it names its issuer, its subject and its moment. -/
theorem parse_build {K : Crypto} {record : Bytes}
    (h : build subjectId issuerPub sign reason stamp = some record)
    (hverifies : ∀ message, K.verify message (sign message) issuerPub = true)
    (hpub : 0 < issuerPub.length)
    (hsig : ∀ reason, 0 < (sign (signingInput stamp subjectId.raw reason)).length)
    (hne : K.fromPublicKey issuerPub ≠ subjectId) :
    ∃ reason', parse K record =
      some ⟨K.fromPublicKey issuerPub, issuerPub, subjectId, stamp, reason'⟩ := by
  unfold build at h
  by_cases hstamp : 256 ^ 8 ≤ stamp
  · rw [if_pos hstamp] at h
    cases h
  · rw [if_neg hstamp] at h
    dsimp only at h
    set reason' := if reason ∈ reasonNames then reason else 0 with hreason'
    have hsmall : reason' < 256 := by
      rw [hreason']
      unfold reasonNames
      split_ifs with hmem
      · simp only [List.mem_cons, List.not_mem_nil, or_false] at hmem
        omega
      · omega
    by_cases hlong : maxPubkey < issuerPub.length ∨
        maxSig < (sign (signingInput stamp subjectId.raw reason')).length
    · rw [if_pos hlong] at h
      cases h
    · rw [if_neg hlong] at h
      cases h
      rw [not_or, Nat.not_lt, Nat.not_lt] at hlong
      exact ⟨reason', parse_pack (Nat.not_le.mp hstamp) hsmall ⟨hpub, hlong.1⟩ ⟨hsig _, hlong.2⟩
        (hverifies _) hne⟩

end Build

end NMesh.Cert.Revocation
