import NMesh.Cert.Revocation
import NMesh.Directory.PseudoDir

/-! # "Stop relaying that node's traffic to me"

A request is signed by the destination that it speaks for: a header `version, issued_at, expires_at,
blocked, pub_len, sig_len`, the destination's public key and the signature. `build` makes one, and `parse`
returns nothing for one that does not check out or does not hold now. -/

namespace NMesh.StopRelay.Record

open Base.BigEndian hiding field
open Base.Reading
open NMesh.Cert.Identity
open NMesh.Cert.Revocation (field)
open NMesh.Directory.PseudoDir (Primitives bytesOf)

def domain : Bytes := bytesOf "nmesh-stop-relay-v1"

def version : ℕ := 1
def headerSize : ℕ := 41
def maxPubkey : ℕ := 4096
def maxSig : ℕ := 5000
def maxRecord : ℕ := headerSize + maxPubkey + maxSig

def maxTtl : ℕ := 3600

def clockSkew : ℕ := 300

def signedInput (issuedAt expiresAt : ℕ) (blocked requester : NodeID) : Bytes :=
  domain ++ toBE 1 version ++ toBE 8 issuedAt ++ toBE 8 expiresAt ++ blocked.raw ++ requester.raw

def pack (issuedAt expiresAt : ℕ) (blocked : NodeID) (requesterPub signature : Bytes) : Bytes :=
  toBE 1 version ++ (toBE 8 issuedAt ++ (toBE 8 expiresAt ++ (blocked.raw ++
    (toBE 2 requesterPub.length ++ (toBE 2 signature.length ++ (requesterPub ++ signature))))))

/-- A request that was read. -/
structure Request where
  requester : NodeID
  blocked : NodeID
  issuedAt : ℕ
  expiresAt : ℕ
  deriving DecidableEq

variable (P : Primitives)

/-- Sign a request that relays stop forwarding what `blocked` sends to the key's owner; none if it cannot
be made. -/
def build (blocked : NodeID) (requesterPub : Bytes) (sign : Bytes → Bytes) (ttl stamp : ℕ) :
    Option Bytes :=
  let ttl := max 1 (min ttl maxTtl)
  let requester := P.fromPublicKey requesterPub
  let signature := sign (signedInput stamp (stamp + ttl) blocked requester)
  -- a node does not block itself
  if requester = blocked then none
  else if 256 ^ 8 ≤ stamp + ttl then none
  else if 256 ^ 2 ≤ requesterPub.length ∨ 256 ^ 2 ≤ signature.length then none
  else some (pack stamp (stamp + ttl) blocked requesterPub signature)

def parse (data : Bytes) (stamp : ℕ) : Option Request :=
  if data.length < headerSize ∨ maxRecord < data.length then none
  else
    let issuedAt := ofBE (field data 1 8)
    let expiresAt := ofBE (field data 9 8)
    let blockedRaw := field data 17 20
    let pubLen := ofBE (field data 37 2)
    let sigLen := ofBE (field data 39 2)
    if ofBE (field data 0 1) ≠ version ∨ maxPubkey < pubLen ∨ maxSig < sigLen then none
    else if headerSize + pubLen + sigLen ≠ data.length then none
    else if expiresAt ≤ stamp ∨ expiresAt ≤ issuedAt ∨ maxTtl < expiresAt - issuedAt then none
    else if stamp + clockSkew < issuedAt then none
    else
      let pub := field data headerSize pubLen
      let signature := data.drop (headerSize + pubLen)
      let requester := P.fromPublicKey pub
      match NodeID.ofRaw blockedRaw with
      | none => none
      | some blocked =>
        if requester = blocked then none
        else if !P.verify (signedInput issuedAt expiresAt blocked requester) signature pub then none
        else some ⟨requester, blocked, issuedAt, expiresAt⟩

theorem build_eq_some {P : Primitives} {blocked : NodeID} {requesterPub record : Bytes}
    {sign : Bytes → Bytes} {ttl stamp : ℕ} (h : build P blocked requesterPub sign ttl stamp = some record) :
    P.fromPublicKey requesterPub ≠ blocked ∧ stamp + max 1 (min ttl maxTtl) < 256 ^ 8 ∧
      record = pack stamp (stamp + max 1 (min ttl maxTtl)) blocked requesterPub
        (sign (signedInput stamp (stamp + max 1 (min ttl maxTtl)) blocked
          (P.fromPublicKey requesterPub))) := by
  unfold build at h
  dsimp only at h
  split_ifs at h with hself hfits hlen
  exact ⟨hself, Nat.lt_of_not_le hfits, (Option.some.inj h).symm⟩

theorem expiresAt_of_parse {P : Primitives} {data : Bytes} {stamp : ℕ} {request : Request}
    (h : parse P data stamp = some request) :
    request.expiresAt = ofBE (field data 9 8) ∧ stamp < request.expiresAt := by
  unfold parse at h
  dsimp only at h
  split_ifs at h with h1 h2 h3 h4 h5
  split at h
  · cases h
  · split_ifs at h
    cases h
    exact ⟨rfl, Nat.lt_of_not_le fun hle => h4 (.inl hle)⟩

/-! ### A record that is built is read back -/

section Pack

variable {P} {issuedAt expiresAt stamp : ℕ} {blocked : NodeID} {requesterPub signature : Bytes}

theorem length_pack : (pack issuedAt expiresAt blocked requesterPub signature).length =
    headerSize + requesterPub.length + signature.length := by
  simp only [pack, List.length_append, length_toBE, blocked.len, headerSize]
  omega

theorem fields_pack : let data := pack issuedAt expiresAt blocked requesterPub signature
    field data 0 1 = toBE 1 version ∧ field data 1 8 = toBE 8 issuedAt ∧
      field data 9 8 = toBE 8 expiresAt ∧ field data 17 20 = blocked.raw ∧
      field data 37 2 = toBE 2 requesterPub.length ∧ field data 39 2 = toBE 2 signature.length ∧
      field data 41 requesterPub.length = requesterPub ∧
      data.drop (41 + requesterPub.length) = signature := by
  have h0 : From (pack issuedAt expiresAt blocked requesterPub signature) 0 (toBE 1 version ++ _) := From.start _
  have h1 := h0.next (length_toBE ..)
  have h9 := h1.next (length_toBE ..)
  have h17 := h9.next (length_toBE ..)
  have h37 := h17.next blocked.len
  have h39 := h37.next (length_toBE ..)
  have h41 := h39.next (length_toBE ..)
  exact ⟨h0.slice (length_toBE ..), h1.slice (length_toBE ..), h9.slice (length_toBE ..), h17.slice blocked.len,
    h37.slice (length_toBE ..), h39.slice (length_toBE ..), h41.slice rfl, (h41.next rfl).drop⟩

/-- **A packed record is read back** while it holds, if its signature verifies. -/
theorem parse_pack (hfits : expiresAt < 256 ^ 8) (hlife : issuedAt < expiresAt ∧ expiresAt - issuedAt ≤ maxTtl)
    (hpub : requesterPub.length ≤ maxPubkey) (hsig : signature.length ≤ maxSig)
    (hnow : issuedAt ≤ stamp + clockSkew ∧ stamp < expiresAt)
    (hverify : P.verify (signedInput issuedAt expiresAt blocked (P.fromPublicKey requesterPub)) signature
      requesterPub = true)
    (hne : P.fromPublicKey requesterPub ≠ blocked) :
    parse P (pack issuedAt expiresAt blocked requesterPub signature) stamp =
      some ⟨P.fromPublicKey requesterPub, blocked, issuedAt, expiresAt⟩ := by
  obtain ⟨f0, f1, f9, f17, f37, f39, f41, frest⟩ :=
    @fields_pack issuedAt expiresAt blocked requesterPub signature
  have hlen := @length_pack issuedAt expiresAt blocked requesterPub signature
  unfold maxPubkey at hpub
  unfold maxSig at hsig
  have hp16 : requesterPub.length < 256 ^ 2 := by omega
  have hs16 : signature.length < 256 ^ 2 := by omega
  unfold parse
  rw [if_neg (by rw [hlen]; unfold maxRecord headerSize maxPubkey maxSig; omega)]
  dsimp only
  rw [f0, f1, f9, f17, f37, f39, ofBE_toBE (hlife.1.trans hfits), ofBE_toBE hfits, ofBE_toBE hp16,
    ofBE_toBE hs16, ofBE_toBE (by decide : version < 256 ^ 1),
    if_neg (by unfold maxPubkey maxSig; omega), if_neg (by rw [hlen]; simp), if_neg (by omega),
    if_neg (by omega), show headerSize = 41 from rfl, f41, frest]
  unfold NodeID.ofRaw
  rw [dif_pos blocked.len]
  dsimp only
  rw [if_neg hne, if_neg (by rw [hverify]; simp)]

end Pack

end NMesh.StopRelay.Record
