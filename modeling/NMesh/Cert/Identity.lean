import NMesh.Base.BigEndian
import Mathlib.Order.WithBot

/-! # Certificates

A certificate is a signed sentence of an issuer about a subject. It is built only from parts that
check out (`Certificate.build`): the two node ids are the ids of the two public keys, and the signature
is the issuer's, over the certificate's body. These checks are fields of the structure, so that no other
certificate exists.

The signature scheme and the hash behind a node id are parameters (`Crypto`). -/

namespace NMesh.Cert.Identity

open Base.BigEndian

/-- A node id: 20 bytes. -/
structure NodeID where
  raw : Bytes
  len : raw.length = 20
  deriving DecidableEq

instance lawfulPair : LawfulBEq (NodeID × NodeID) := inferInstance

def NodeID.ofRaw (raw : Bytes) : Option NodeID :=
  if h : raw.length = 20 then some ⟨raw, h⟩ else none

theorem NodeID.ext {a b : NodeID} (h : a.raw = b.raw) : a = b := by
  cases a; cases b; simpa using h

theorem NodeID.ofRaw_raw (a : NodeID) : NodeID.ofRaw a.raw = some a := by
  unfold NodeID.ofRaw
  rw [dif_pos a.len]

/-- What the certificates rest on: the check of a signature, given the message, the signature and the
public key, and the node id of a public key. -/
structure Crypto where
  verify : Bytes → Bytes → Bytes → Bool
  fromPublicKey : Bytes → NodeID

def signedBody (subjectId : NodeID) (subjectPub : Bytes) (issuerId : NodeID) (issuerPub : Bytes)
    (issuedAt expiresAt : ℕ) : Bytes :=
  subjectId.raw ++ (toBE 2 subjectPub.length ++ (subjectPub ++
    (issuerId.raw ++ (toBE 2 issuerPub.length ++ (issuerPub ++
      (toBE 8 issuedAt ++ toBE 8 expiresAt))))))

def Packs (subjectPub issuerPub : Bytes) (issuedAt expiresAt : ℕ) : Prop :=
  subjectPub.length < 256 ^ 2 ∧ issuerPub.length < 256 ^ 2 ∧ issuedAt < 256 ^ 8 ∧ expiresAt < 256 ^ 8

instance (subjectPub issuerPub : Bytes) (issuedAt expiresAt : ℕ) :
    Decidable (Packs subjectPub issuerPub issuedAt expiresAt) := by unfold Packs; infer_instance

/-- **A certificate**, with the checks it passed. -/
structure Certificate (K : Crypto) where
  subjectId : NodeID
  subjectPub : Bytes
  issuerId : NodeID
  issuerPub : Bytes
  issuedAt : ℕ
  expiresAt : ℕ
  signature : Bytes
  subject_ok : K.fromPublicKey subjectPub = subjectId
  issuer_ok : K.fromPublicKey issuerPub = issuerId
  packs : Packs subjectPub issuerPub issuedAt expiresAt
  verified : K.verify (signedBody subjectId subjectPub issuerId issuerPub issuedAt expiresAt)
    signature issuerPub = true
  deriving DecidableEq

variable {K : Crypto}

namespace Certificate

def build (K : Crypto) (subjectId : NodeID) (subjectPub : Bytes) (issuerId : NodeID)
    (issuerPub : Bytes) (issuedAt expiresAt : ℕ) (signature : Bytes) :
    Except String (Certificate K) :=
  if hs : K.fromPublicKey subjectPub = subjectId then
    if hi : K.fromPublicKey issuerPub = issuerId then
      if hp : Packs subjectPub issuerPub issuedAt expiresAt then
        if hv : K.verify (signedBody subjectId subjectPub issuerId issuerPub issuedAt expiresAt)
            signature issuerPub = true then
          .ok ⟨subjectId, subjectPub, issuerId, issuerPub, issuedAt, expiresAt, signature, hs, hi, hp,
            hv⟩
        else .error "invalid certificate signature"
      else .error "argument out of range"
    else .error "issuer_id does not match issuer_pub"
  else .error "subject_id does not match subject_pub"

def body (c : Certificate K) : Bytes :=
  signedBody c.subjectId c.subjectPub c.issuerId c.issuerPub c.issuedAt c.expiresAt

def isSelfSigned (c : Certificate K) : Bool := decide (c.subjectId = c.issuerId)

/-- A certificate with `expiresAt = 0` never expires. -/
def isExpired (c : Certificate K) (now : ℕ) : Bool :=
  if c.expiresAt = 0 then false else decide (c.expiresAt < now)

def life (c : Certificate K) : WithTop ℕ := if c.expiresAt = 0 then ⊤ else (c.expiresAt : ℕ)

theorem isExpired_mono {c : Certificate K} {now now' : ℕ} (h : now ≤ now')
    (hn : c.isExpired now' = false) : c.isExpired now = false := by
  unfold isExpired at *
  split_ifs at * with h0
  · rfl
  · simp only [decide_eq_false_iff_not] at *; omega

theorem isSelfSigned_iff {c : Certificate K} : c.isSelfSigned = true ↔ c.subjectId = c.issuerId :=
  decide_eq_true_iff

end Certificate

/-- When the first certificate of a chain dies; `0` when none of them does. -/
def earliestExpiry (chain : Option (List (Certificate K))) : ℕ :=
  (((chain.getD []).map Certificate.expiresAt).filter (· ≠ 0)).min?.getD 0

theorem not_isExpired_of_earliestExpiry {chain : List (Certificate K)} {now : ℕ}
    (h : earliestExpiry (some chain) = 0 ∨ now ≤ earliestExpiry (some chain)) :
    ∀ c ∈ chain, c.isExpired now = false := by
  intro c hc
  unfold Certificate.isExpired
  split_ifs with h0
  · rfl
  · have hmem : c.expiresAt ∈ (chain.map Certificate.expiresAt).filter (· ≠ 0) :=
      List.mem_filter.mpr ⟨List.mem_map_of_mem hc, decide_eq_true h0⟩
    unfold earliestExpiry at h
    rw [Option.getD_some] at h
    cases hmin : ((chain.map Certificate.expiresAt).filter (· ≠ 0)).min? with
    | none => rw [List.min?_eq_none_iff.mp hmin] at hmem; cases hmem
    | some m =>
      rw [hmin, Option.getD_some] at h
      obtain ⟨hm, hle⟩ := List.min?_eq_some_iff.mp hmin
      have hm0 := of_decide_eq_true (List.mem_filter.mp hm).2
      have := hle _ hmem
      exact decide_eq_false (by omega)

theorem earliestExpiry_spec {chain : List (Certificate K)} {now : ℕ}
    (h : ∀ c ∈ chain, c.isExpired now = false) :
    earliestExpiry (some chain) = 0 ∨ now ≤ earliestExpiry (some chain) := by
  unfold earliestExpiry
  rw [Option.getD_some]
  cases hmin : ((chain.map Certificate.expiresAt).filter (· ≠ 0)).min? with
  | none => exact Or.inl rfl
  | some m =>
    obtain ⟨hm, -⟩ := List.min?_eq_some_iff.mp hmin
    obtain ⟨hm, hm0⟩ := List.mem_filter.mp hm
    obtain ⟨c, hc, rfl⟩ := List.mem_map.mp hm
    have hexp := h c hc
    unfold Certificate.isExpired at hexp
    rw [if_neg (of_decide_eq_true hm0)] at hexp
    exact Or.inr (Nat.not_lt.mp (of_decide_eq_false hexp))

/-! ### The body names the certificate -/

theorem eq_of_body {c c' : Certificate K} (hs : c.signature = c'.signature) (hb : c.body = c'.body) :
    c = c' := by
  unfold Certificate.body signedBody at hb
  obtain ⟨h1, hb⟩ := List.append_inj hb (by rw [c.subjectId.len, c'.subjectId.len])
  obtain ⟨h2, hb⟩ := List.append_inj hb (by rw [length_toBE, length_toBE])
  obtain ⟨h3, hb⟩ := List.append_inj hb (toBE_inj c.packs.1 c'.packs.1 h2)
  obtain ⟨h4, hb⟩ := List.append_inj hb (by rw [c.issuerId.len, c'.issuerId.len])
  obtain ⟨h5, hb⟩ := List.append_inj hb (by rw [length_toBE, length_toBE])
  obtain ⟨h6, hb⟩ := List.append_inj hb (toBE_inj c.packs.2.1 c'.packs.2.1 h5)
  obtain ⟨h7, h8⟩ := List.append_inj hb (by rw [length_toBE, length_toBE])
  have h1 := NodeID.ext h1
  have h4 := NodeID.ext h4
  have h7 := toBE_inj c.packs.2.2.1 c'.packs.2.2.1 h7
  have h8 := toBE_inj c.packs.2.2.2 c'.packs.2.2.2 h8
  cases c; cases c'
  simp_all

/-! ### A scheme for examples -/

def plain : Crypto where
  verify message signature _ := decide (signature = message)
  fromPublicKey pub := ⟨(pub ++ List.replicate 20 0).take 20, by simp⟩

/-- What the node with key `[issuer]` says of the node with key `[subject]`, for ever. -/
def plainCert (subject issuer : UInt8) : Certificate plain where
  subjectId := plain.fromPublicKey [subject]
  subjectPub := [subject]
  issuerId := plain.fromPublicKey [issuer]
  issuerPub := [issuer]
  issuedAt := 0
  expiresAt := 0
  signature := signedBody (plain.fromPublicKey [subject]) [subject] (plain.fromPublicKey [issuer])
    [issuer] 0 0
  subject_ok := rfl
  issuer_ok := rfl
  packs := by unfold Packs; simp
  verified := decide_eq_true rfl

end NMesh.Cert.Identity
