import NMesh.Base.Utf8

/-! # Assertions on the wire

A signed statement of one node for another: fields of fixed width around the public key and the purpose, each
after its length. `parseAssertion` reads one from any bytes.

* `parse_serialize`: what is written is read back;
* `fits_of_parse`: what is read keeps every bound;
* `signedBody_inj`: the signed bytes determine every field but the signature. -/

namespace NMesh.AppAuth.Format

open Base.BigEndian Base.Utf8

def appIdLen : ℕ := 8
def nodeIdLen : ℕ := 20
def nonceLen : ℕ := 16
def ctxLen : ℕ := 32
def maxPubLen : ℕ := 8192
def maxSigLen : ℕ := 8192
def maxPurposeLen : ℕ := 64
def maxAssertionLen : ℕ := 32 * 1024
def defaultTtl : ℕ := 120
def maxTtl : ℕ := 86400
def maxSkew : ℕ := 60

def domain : Bytes := (ascii "nmesh-app-auth-v1").map UInt8.ofNat

/-- The audience of an assertion that is for no node in particular. -/
def anyAudience : Bytes := List.replicate 20 0

/-- An assertion; `purpose` is the UTF-8 of the string it stands for. -/
structure Assertion where
  appId : Bytes
  subjectPub : Bytes
  audience : Bytes
  purpose : Bytes
  nonce : Bytes
  issuedAt : ℕ
  ttl : ℕ
  ctx : Bytes
  signature : Bytes
  deriving DecidableEq, Repr

namespace Assertion

def expiresAt (a : Assertion) : ℕ := a.issuedAt + a.ttl

/-- The fields both the signed body and the wire form start with. -/
def core (a : Assertion) (rest : Bytes) : Bytes :=
  [1, 0] ++ (a.appId ++ (toBE 2 a.subjectPub.length ++ (a.subjectPub ++ (a.audience ++
    (toBE 1 a.purpose.length ++ (a.purpose ++ (a.nonce ++ (toBE 8 a.issuedAt ++ (toBE 4 a.ttl ++
      (a.ctx ++ rest))))))))))

def signedBody (a : Assertion) : Bytes := domain ++ a.core []

def serialize (a : Assertion) : Bytes := a.core (toBE 2 a.signature.length ++ a.signature)

def unsigned (a : Assertion) : Assertion := { a with signature := [] }

/-- Every field but the signature is within its bounds. -/
structure Fits (a : Assertion) : Prop where
  appId : a.appId.length = appIdLen
  subjectPub : 0 < a.subjectPub.length ∧ a.subjectPub.length ≤ maxPubLen
  audience : a.audience.length = nodeIdLen
  purpose : a.purpose.length ≤ maxPurposeLen
  utf8 : (decodeUtf8 a.purpose).isSome
  nonce : a.nonce.length = nonceLen
  issuedAt : a.issuedAt < 256 ^ 8
  ttl : 0 < a.ttl ∧ a.ttl ≤ maxTtl
  ctx : a.ctx.length = ctxLen

end Assertion

open Assertion

/-! ### Reading -/

/-- Read an assertion; `none` for anything malformed, truncated or out of bounds. -/
def parseAssertion (blob : Bytes) : Option Assertion :=
  if maxAssertionLen < blob.length then none
  else if blob.length < 12 then none
  else
    let pubLen := field blob 10 2
    if field blob 0 1 ≠ 1 ∨ ¬ (0 < pubLen ∧ pubLen ≤ maxPubLen) then none
    else if blob.length < 12 + pubLen + 21 then none
    else
      let purposeLen := field blob (12 + pubLen + 20) 1
      let off := 12 + pubLen + 21 + purposeLen
      if maxPurposeLen < purposeLen ∨ blob.length < off + 62 then none
      else
        let purpose := slice blob (12 + pubLen + 21) purposeLen
        if (decodeUtf8 purpose).isNone then none
        else
          let sigLen := field blob (off + 60) 2
          let ttl := field blob (off + 24) 4
          if ¬ (0 < sigLen ∧ sigLen ≤ maxSigLen) ∨ blob.length ≠ off + 62 + sigLen then none
          else if ttl = 0 ∨ maxTtl < ttl then none
          else some
            { appId := slice blob 2 8
              subjectPub := slice blob 12 pubLen
              audience := slice blob (12 + pubLen) 20
              purpose := purpose
              nonce := slice blob off 16
              issuedAt := field blob (off + 16) 8
              ttl := ttl
              ctx := slice blob (off + 28) 32
              signature := slice blob (off + 62) sigLen }

/-! ### Round trip -/

theorem length_core (a : Assertion) (h : a.Fits) (rest : Bytes) :
    (a.core rest).length = 12 + a.subjectPub.length + 21 + a.purpose.length + 60 + rest.length := by
  have happ := h.appId
  have haud := h.audience
  have hnonce := h.nonce
  have hctx := h.ctx
  simp only [appIdLen, nodeIdLen, nonceLen, ctxLen] at happ haud hnonce hctx
  simp only [core, List.length_append, length_toBE, List.length_cons, List.length_nil, happ, haud,
    hnonce, hctx]
  omega

variable {a : Assertion}

theorem parse_serialize (h : a.Fits) (hsig : 0 < a.signature.length ∧ a.signature.length ≤ maxSigLen) :
    parseAssertion a.serialize = some a := by
  have hlen : a.serialize.length =
      12 + a.subjectPub.length + 21 + a.purpose.length + 62 + a.signature.length := by
    rw [serialize, length_core a h, List.length_append, length_toBE]
    omega
  obtain ⟨hpub0, hpub⟩ := h.subjectPub
  have hpurpose := h.purpose
  obtain ⟨httl0, httl⟩ := h.ttl
  obtain ⟨hsig0, hsig⟩ := hsig
  simp only [maxPubLen, maxPurposeLen, maxTtl, maxSigLen] at hpub hpurpose httl hsig
  -- what follows each offset
  have d0 : a.serialize.drop 0 = toBE 1 1 ++ ([0] ++ _) := rfl
  have d2 : a.serialize.drop 2 = a.appId ++ _ := rfl
  have d10 := drop_of_drop d2 h.appId
  have d12 := drop_of_drop d10 (length_toBE 2 _)
  have daud := drop_of_drop d12 rfl
  have dlen := drop_of_drop daud h.audience
  have dpurpose := drop_of_drop dlen (length_toBE 1 _)
  have dnonce := drop_of_drop dpurpose rfl
  have dissued := drop_of_drop dnonce h.nonce
  have dttl := drop_of_drop dissued (length_toBE 8 _)
  have dctx := drop_of_drop dttl (length_toBE 4 _)
  have dsigLen := drop_of_drop dctx h.ctx
  have dsig := drop_of_drop dsigLen (length_toBE 2 _)
  rw [← List.append_nil a.signature] at dsig
  simp only [appIdLen, nodeIdLen, nonceLen, ctxLen, Nat.add_assoc, Nat.reduceAdd] at *
  -- the numbers and the parts read there
  have eversion := field_of_drop d0 (by norm_num)
  have epub := field_of_drop d10 (by omega)
  have elen := field_of_drop dlen (by omega)
  have eissued := field_of_drop dissued h.issuedAt
  have ettl := field_of_drop dttl (by omega)
  have esigLen := field_of_drop dsigLen (by omega)
  have eappId := slice_of_drop d2 h.appId
  have esubject := slice_of_drop d12 rfl
  have eaudience := slice_of_drop daud h.audience
  have epurpose := slice_of_drop dpurpose rfl
  have enonce := slice_of_drop dnonce h.nonce
  have ectx := slice_of_drop dctx h.ctx
  have esig := slice_of_drop dsig rfl
  have eutf8 : (decodeUtf8 a.purpose).isNone = false := by
    rw [Option.isNone_eq_false_iff]
    exact h.utf8
  simp only [appIdLen, nodeIdLen, nonceLen, ctxLen] at eappId eaudience enonce ectx
  simp only [parseAssertion, maxAssertionLen, maxPubLen, maxPurposeLen, maxSigLen, maxTtl, Nat.add_assoc,
    Nat.reduceMul, eversion, epub, elen, eissued, ettl, esigLen, eappId, esubject,
    eaudience, epurpose, enonce, ectx, esig, eutf8, Bool.false_eq_true, if_false]
  rw [if_neg, if_neg, if_neg, if_neg, if_neg, if_neg, if_neg]
  all_goals omega

theorem fits_of_parse {blob : Bytes} (h : parseAssertion blob = some a) :
    a.Fits ∧ 0 < a.signature.length ∧ a.signature.length ≤ maxSigLen := by
  unfold parseAssertion at h
  simp only at h
  split_ifs at h with _ hshort hhead hmid hpurpose hutf8 hsig httl
  cases h
  rw [not_or, not_not, not_not] at hhead
  rw [not_or, not_lt, not_lt] at hpurpose
  rw [not_or, not_not, not_not] at hsig
  rw [not_or, not_lt] at httl
  have hfield : ∀ off w : ℕ, off + w ≤ blob.length → field blob off w < 256 ^ w := by
    intro off w hle
    have hlt := ofBE_lt (slice blob off w)
    rwa [length_slice hle] at hlt
  refine ⟨⟨length_slice (by omega), ?_, length_slice (by omega), ?_, ?_, length_slice (by omega),
    hfield _ 8 (by omega), ⟨Nat.pos_of_ne_zero httl.1, httl.2⟩, length_slice (by omega)⟩, ?_⟩
  · show 0 < (slice _ _ _).length ∧ (slice _ _ _).length ≤ maxPubLen
    rw [length_slice (by omega)]
    exact hhead.2
  · show (slice _ _ _).length ≤ maxPurposeLen
    rw [length_slice (by omega)]
    exact hpurpose.1
  · show (decodeUtf8 (slice _ _ _)).isSome = true
    rw [← Option.not_isNone, Bool.eq_false_iff.mpr hutf8]
    rfl
  · show 0 < (slice _ _ _).length ∧ (slice _ _ _).length ≤ maxSigLen
    rw [length_slice (by omega)]
    exact hsig.1

theorem signedBody_inj {b : Assertion} (ha : a.Fits) (hb : b.Fits)
    (h : a.signedBody = b.signedBody) : a.unsigned = b.unsigned := by
  have hcore : ∀ (x : Assertion) (rest : Bytes), x.core rest = x.core [] ++ rest := by
    intro x rest
    simp only [core, List.append_assoc, List.nil_append]
  have heq : a.core [] = b.core [] := List.append_cancel_left h
  -- the two with one signature are written alike
  have hsame : ({ a with signature := [0] } : Assertion).serialize =
      ({ b with signature := [0] } : Assertion).serialize := by
    show a.core _ = b.core _
    rw [hcore a, hcore b, heq]
  have hbounds : 0 < ([0] : Bytes).length ∧ ([0] : Bytes).length ≤ maxSigLen := by decide
  have hread := parse_serialize (a := { a with signature := [0] }) ⟨ha.1, ha.2, ha.3, ha.4, ha.5, ha.6,
    ha.7, ha.8, ha.9⟩ hbounds
  rw [hsame, parse_serialize (a := { b with signature := [0] }) ⟨hb.1, hb.2, hb.3, hb.4, hb.5, hb.6, hb.7,
    hb.8, hb.9⟩ hbounds] at hread
  have hfields := congrArg unsigned (Option.some.inj hread)
  exact hfields.symm

theorem fields_of_unsigned {b : Assertion} (h : a.unsigned = b.unsigned) :
    a.appId = b.appId ∧ a.audience = b.audience ∧ a.purpose = b.purpose ∧ a.nonce = b.nonce ∧
      a.ctx = b.ctx := by
  simp only [unsigned, Assertion.mk.injEq] at h
  obtain ⟨happ, -, haud, hpurpose, hnonce, -, -, hctx, -⟩ := h
  exact ⟨happ, haud, hpurpose, hnonce, hctx⟩

end NMesh.AppAuth.Format
