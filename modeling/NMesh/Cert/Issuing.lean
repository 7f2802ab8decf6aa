import NMesh.Cert.Identity

/-! # Issuing

A node's identity signs with one key. `issueCert` is the certificate it makes of a subject: valid from
now, for a year unless said otherwise. -/

namespace NMesh.Cert.Issuing

open Base.BigEndian NMesh.Cert.Identity

/-- A key pair: the public half, and what the private one makes of a message. -/
structure Identity (K : Crypto) where
  dsaPublicKey : Bytes
  sign : Bytes → Bytes

variable {K : Crypto}

namespace Identity

def id (me : Identity K) : NodeID := K.fromPublicKey me.dsaPublicKey

def certTtl : ℕ := 365 * 86400

/-- A certificate for a subject, signed by this identity; none if its parts do not pack. -/
def issueCert (me : Identity K) (subjectId : NodeID) (subjectPub : Bytes) (now : ℕ) :
    Option (Certificate K) :=
  (Certificate.build K subjectId subjectPub me.id me.dsaPublicKey now (now + certTtl)
    (me.sign (signedBody subjectId subjectPub me.id me.dsaPublicKey now (now + certTtl)))).toOption

variable {me : Identity K} {subjectId : NodeID} {subjectPub : Bytes}

theorem of_issueCert {now : ℕ} {cert : Certificate K} (h : me.issueCert subjectId subjectPub now = some cert) :
    cert.subjectId = subjectId ∧ cert.subjectPub = subjectPub ∧ cert.issuerId = me.id ∧
      cert.issuerPub = me.dsaPublicKey ∧ cert.issuedAt = now ∧ cert.expiresAt = now + certTtl := by
  unfold issueCert Certificate.build at h
  split_ifs at h <;> simp only [Except.toOption, reduceCtorEq, Option.some.injEq] at h
  subst h
  exact ⟨rfl, rfl, rfl, rfl, rfl, rfl⟩

theorem issueCert_eq_some {now : ℕ}
    (hverifies : ∀ message, K.verify message (me.sign message) me.dsaPublicKey = true)
    (hsubject : K.fromPublicKey subjectPub = subjectId)
    (hpacks : Packs subjectPub me.dsaPublicKey now (now + certTtl)) :
    ∃ cert, me.issueCert subjectId subjectPub now = some cert := by
  have hissuer : K.fromPublicKey me.dsaPublicKey = me.id := rfl
  unfold issueCert Certificate.build
  rw [dif_pos hsubject, dif_pos hissuer, dif_pos hpacks, dif_pos (hverifies _)]
  exact ⟨_, rfl⟩

theorem signature_issueCert {now : ℕ}
    {cert : Certificate K} (h : me.issueCert subjectId subjectPub now = some cert) :
    cert.signature = me.sign cert.body := by
  unfold issueCert Certificate.build at h
  split_ifs at h <;> simp only [Except.toOption, reduceCtorEq, Option.some.injEq] at h
  subst h
  rfl

end Identity

end NMesh.Cert.Issuing
