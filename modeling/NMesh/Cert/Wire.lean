import NMesh.Base.Reading
import NMesh.Cert.Identity

/-! # Certificates on the wire

`serialize` writes a header of ids, lengths and times, then the two keys and the signature;
`deserialize` reads them back through the checks of `Certificate.build`. A certificate is known by its
fingerprint, sixteen bytes of a hash over its signature. The hash is a parameter. -/

namespace NMesh.Cert.Wire

open Base.BigEndian Base.Reading NMesh.Cert.Identity

variable {K : Crypto}

def fingerprintLen : ℕ := 16

def headerLen : ℕ := 62

def fingerprint (sha256 : Bytes → Bytes) (c : Certificate K) : Bytes :=
  (sha256 c.signature).take fingerprintLen

/-- `_CERT_HEADER.pack` -/
def header (c : Certificate K) : Bytes :=
  c.subjectId.raw ++ (toBE 2 c.subjectPub.length ++ (c.issuerId.raw ++ (toBE 2 c.issuerPub.length ++
    (toBE 8 c.issuedAt ++ (toBE 8 c.expiresAt ++ toBE 2 c.signature.length)))))

/-- The certificate's bytes; a signature whose length does not pack raises. -/
def serialize (c : Certificate K) : Option Bytes :=
  if c.signature.length < 256 ^ 2 then
    some (header c ++ (c.subjectPub ++ (c.issuerPub ++ c.signature)))
  else none

/-- Read a certificate; bytes behind its signature are not looked at. -/
def deserialize (K : Crypto) (data : Bytes) : Except String (Certificate K) :=
  if data.length < headerLen then .error "cert too short"
  else
    let spubLen := field data 20 2
    let ipubLen := field data 42 2
    let sigLen := field data 60 2
    if data.length < headerLen + spubLen + ipubLen + sigLen then .error "cert data truncated"
    else
      match NodeID.ofRaw (slice data 0 20), NodeID.ofRaw (slice data 22 20) with
      | some subjectId, some issuerId =>
        Certificate.build K subjectId (slice data headerLen spubLen) issuerId
          (slice data (headerLen + spubLen) ipubLen) (field data 44 8) (field data 52 8)
          (slice data (headerLen + spubLen + ipubLen) sigLen)
      | _, _ => .error "NodeID must be 20 bytes"

theorem length_header (c : Certificate K) : (header c).length = headerLen := by
  unfold header headerLen
  simp only [List.length_append, length_toBE, c.subjectId.len, c.issuerId.len]

theorem build_self (c : Certificate K) : Certificate.build K c.subjectId c.subjectPub c.issuerId
    c.issuerPub c.issuedAt c.expiresAt c.signature = .ok c := by
  unfold Certificate.build
  rw [dif_pos c.subject_ok, dif_pos c.issuer_ok, dif_pos c.packs, dif_pos c.verified]

theorem deserialize_serialize {c : Certificate K} {raw : Bytes} (h : serialize c = some raw) :
    deserialize K raw = .ok c ∧ headerLen ≤ raw.length := by
  unfold serialize at h
  split_ifs at h with hsig
  have h0 : From raw 0 (header c ++ (c.subjectPub ++ (c.issuerPub ++ c.signature))) := by
    rw [Option.some.inj h]
    exact From.start raw
  obtain ⟨hspub, hipub, hissued, hexpires⟩ := c.packs
  -- the three strings behind the header
  have h62 := h0.next (length_header c)
  rw [Nat.zero_add] at h62
  have hipubAt := h62.next rfl
  have hsigAt := hipubAt.next rfl
  rw [← List.append_nil c.signature] at hsigAt
  have hend := hsigAt.fits rfl
  -- the fields of the header
  unfold header at h0
  simp only [List.append_assoc] at h0
  have h20 := h0.next c.subjectId.len
  have h22 := h20.next (length_toBE 2 _)
  have h42 := h22.next c.issuerId.len
  have h44 := h42.next (length_toBE 2 _)
  have h52 := h44.next (length_toBE 8 _)
  have h60 := h52.next (length_toBE 8 _)
  have hfields : field raw 20 2 = c.subjectPub.length ∧ field raw 42 2 = c.issuerPub.length ∧
      field raw 44 8 = c.issuedAt ∧ field raw 52 8 = c.expiresAt ∧ field raw 60 2 = c.signature.length :=
    ⟨h20.field hspub, h42.field hipub, h44.field hissued, h52.field hexpires, h60.field hsig⟩
  obtain ⟨e20, e42, e44, e52, e60⟩ := hfields
  have hshort : ¬ raw.length < headerLen := by omega
  have hcut : ¬ raw.length < headerLen + c.subjectPub.length + c.issuerPub.length + c.signature.length := by
    omega
  refine ⟨?_, by omega⟩
  unfold deserialize
  rw [if_neg hshort]
  dsimp only
  rw [e20, e42, e44, e52, e60, if_neg hcut, h0.slice c.subjectId.len, h22.slice c.issuerId.len,
    NodeID.ofRaw_raw, NodeID.ofRaw_raw, h62.slice rfl, hipubAt.slice rfl, hsigAt.slice rfl]
  exact build_self c

end NMesh.Cert.Wire
