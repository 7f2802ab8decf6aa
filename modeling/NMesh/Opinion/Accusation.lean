import NMesh.Cert.Revocation
import NMesh.Directory.PseudoDir

/-! # Accusations

An accusation is one node's opinion of another, signed: a header `version, issued_at, subject_id, severity,
kind, pub_len, sig_len`, the accuser's public key and the signature. `build` makes a record, and `parse`
returns nothing for one that does not check out, is stale, or comes from the future. -/

namespace NMesh.Opinion.Accusation

open Base.BigEndian hiding field
open Base.Reading
open NMesh.Cert.Identity
open NMesh.Cert.Revocation (field)
open NMesh.Directory.PseudoDir (Primitives bytesOf)

def domain : Bytes := bytesOf "nmesh-accusation-v1"

def version : ℕ := 1
def headerSize : ℕ := 35
def maxPubkey : ℕ := 4096
def maxSig : ℕ := 5000
def maxRecord : ℕ := headerSize + maxPubkey + maxSig

def maxAge : ℕ := 3600

def maxSkew : ℕ := 300

def maxSeverity : ℕ := 8

def kindName : ℕ → Option String
  | 0 => some "unspecified"
  | 1 => some "flooding"
  | 2 => some "malformed input"
  | 3 => some "unauthorised requests"
  | _ => none

/-- An accusation that was read. -/
structure Parsed where
  accuserId : NodeID
  accuserPub : Bytes
  subjectId : NodeID
  issuedAt : ℕ
  severity : ℕ
  kind : ℕ
  deriving DecidableEq

/-- What an accusation says: who, of whom, and when. -/
structure Statement where
  accuser : NodeID
  subject : NodeID
  moment : ℕ
  deriving DecidableEq

def Parsed.statement (a : Parsed) : Statement := ⟨a.accuserId, a.subjectId, a.issuedAt⟩

def Statement.Expired (st : Statement) (stamp : ℕ) : Prop := st.moment + maxAge < stamp

def signingInput (issuedAt : ℕ) (subjectRaw : Bytes) (severity kind : ℕ) : Bytes :=
  domain ++ toBE 1 version ++ toBE 8 issuedAt ++ subjectRaw ++ toBE 1 severity ++ toBE 1 kind

def pack (stamp : ℕ) (subjectId : NodeID) (severity kind : ℕ) (accuserPub signature : Bytes) : Bytes :=
  toBE 1 version ++ (toBE 8 stamp ++ (subjectId.raw ++ (toBE 1 severity ++ (toBE 1 kind ++
    (toBE 2 accuserPub.length ++ (toBE 2 signature.length ++ (accuserPub ++ signature)))))))

def build (subjectId : NodeID) (accuserPub : Bytes) (sign : Bytes → Bytes) (severity : ℤ)
    (kind stamp : ℕ) : Option Bytes :=
  if 256 ^ 8 ≤ stamp then none
  else
    let severity := (max 1 (min severity maxSeverity)).toNat
    let kind := if (kindName kind).isSome then kind else 0
    let signature := sign (signingInput stamp subjectId.raw severity kind)
    if maxPubkey < accuserPub.length ∨ maxSig < signature.length then none
    else some (pack stamp subjectId severity kind accuserPub signature)

variable (P : Primitives)

def parse (data : Bytes) (stamp : ℕ) : Option Parsed :=
  if data.length < headerSize ∨ maxRecord < data.length then none
  else
    let issuedAt := ofBE (field data 1 8)
    let subjectRaw := field data 9 20
    let severity := ofBE (field data 29 1)
    let kind := ofBE (field data 30 1)
    let pubLen := ofBE (field data 31 2)
    let sigLen := ofBE (field data 33 2)
    if ofBE (field data 0 1) ≠ version then none
    else if severity < 1 ∨ maxSeverity < severity then none
    else if maxPubkey < pubLen ∨ maxSig < sigLen ∨ pubLen = 0 ∨ sigLen = 0 then none
    else if data.length ≠ headerSize + pubLen + sigLen then none
    -- not evidence yet, or not evidence any more
    else if stamp + maxSkew < issuedAt ∨ issuedAt + maxAge < stamp then none
    else
      let accuserPub := field data headerSize pubLen
      let signature := data.drop (headerSize + pubLen)
      if !P.verify (signingInput issuedAt subjectRaw severity kind) signature accuserPub then none
      else
        let accuserId := P.fromPublicKey accuserPub
        match NodeID.ofRaw subjectRaw with
        | none => none
        | some subjectId =>
          -- an identity accusing itself is noise
          if accuserId = subjectId then none
          else some ⟨accuserId, accuserPub, subjectId, issuedAt, severity, kind⟩

variable {P} {data : Bytes} {stamp : ℕ} {a : Parsed}

theorem not_expired_of_parse (h : parse P data stamp = some a) : ¬ a.statement.Expired stamp := by
  unfold parse at h
  dsimp only at h
  split_ifs at h with h1 h2 h3 h4 h5 h6 h7
  cases hraw : NodeID.ofRaw (field data 9 20) with
  | none =>
    rw [hraw] at h
    cases h
  | some subjectId =>
    rw [hraw] at h
    dsimp only at h
    split_ifs at h
    cases h
    exact (not_or.mp h6).2

theorem length_of_parse (h : parse P data stamp = some a) : data ≠ [] ∧ data.length ≤ maxRecord := by
  unfold parse at h
  split_ifs at h with hlen
  rw [not_or, not_lt, not_lt] at hlen
  refine ⟨?_, hlen.2⟩
  rintro rfl
  exact absurd hlen.1 (by decide)

/-! ### A record that is built is read back -/

section Pack

variable {moment severity kind : ℕ} {subjectId : NodeID} {accuserPub signature : Bytes}

theorem length_pack : (pack moment subjectId severity kind accuserPub signature).length =
    headerSize + accuserPub.length + signature.length := by
  simp only [pack, List.length_append, length_toBE, subjectId.len, headerSize]
  omega

theorem fields_pack : let data := pack moment subjectId severity kind accuserPub signature
    field data 0 1 = toBE 1 version ∧ field data 1 8 = toBE 8 moment ∧
      field data 9 20 = subjectId.raw ∧ field data 29 1 = toBE 1 severity ∧
      field data 30 1 = toBE 1 kind ∧ field data 31 2 = toBE 2 accuserPub.length ∧
      field data 33 2 = toBE 2 signature.length ∧ field data 35 accuserPub.length = accuserPub ∧
      data.drop (35 + accuserPub.length) = signature := by
  have h0 : From (pack moment subjectId severity kind accuserPub signature) 0 (toBE 1 version ++ _) := From.start _
  have h1 := h0.next (length_toBE ..)
  have h9 := h1.next (length_toBE ..)
  have h29 := h9.next subjectId.len
  have h30 := h29.next (length_toBE ..)
  have h31 := h30.next (length_toBE ..)
  have h33 := h31.next (length_toBE ..)
  have h35 := h33.next (length_toBE ..)
  exact ⟨h0.slice (length_toBE ..), h1.slice (length_toBE ..), h9.slice subjectId.len, h29.slice (length_toBE ..),
    h30.slice (length_toBE ..), h31.slice (length_toBE ..), h33.slice (length_toBE ..), h35.slice rfl,
    (h35.next rfl).drop⟩

theorem parse_pack (hmoment : moment < 256 ^ 8) (hseverity : 1 ≤ severity ∧ severity ≤ maxSeverity)
    (hkind : kind < 256) (hpub : 0 < accuserPub.length ∧ accuserPub.length ≤ maxPubkey)
    (hsig : 0 < signature.length ∧ signature.length ≤ maxSig)
    (hnow : moment ≤ stamp + maxSkew ∧ stamp ≤ moment + maxAge)
    (hverify : P.verify (signingInput moment subjectId.raw severity kind) signature accuserPub = true)
    (hne : P.fromPublicKey accuserPub ≠ subjectId) :
    parse P (pack moment subjectId severity kind accuserPub signature) stamp =
      some ⟨P.fromPublicKey accuserPub, accuserPub, subjectId, moment, severity, kind⟩ := by
  obtain ⟨f0, f1, f9, f29, f30, f31, f33, f35, frest⟩ :=
    @fields_pack moment severity kind subjectId accuserPub signature
  have hlen := @length_pack moment severity kind subjectId accuserPub signature
  unfold maxPubkey at hpub
  unfold maxSig at hsig
  unfold maxSeverity at hseverity
  have hp16 : accuserPub.length < 256 ^ 2 := by omega
  have hs16 : signature.length < 256 ^ 2 := by omega
  unfold parse
  rw [if_neg (by rw [hlen]; unfold maxRecord headerSize maxPubkey maxSig; omega)]
  dsimp only
  rw [f0, f1, f9, f29, f30, f31, f33, ofBE_toBE hmoment, ofBE_toBE (by omega : severity < 256 ^ 1),
    ofBE_toBE (by omega : kind < 256 ^ 1), ofBE_toBE hp16, ofBE_toBE hs16,
    ofBE_toBE (by decide : version < 256 ^ 1), if_neg (by simp),
    if_neg (by unfold maxSeverity; omega), if_neg (by unfold maxPubkey maxSig; omega),
    if_neg (by rw [hlen]; simp), if_neg (by omega), show headerSize = 35 from rfl, f35, frest,
    if_neg (by rw [hverify]; simp)]
  unfold NodeID.ofRaw
  rw [dif_pos subjectId.len]
  exact if_neg hne

end Pack

end NMesh.Opinion.Accusation
