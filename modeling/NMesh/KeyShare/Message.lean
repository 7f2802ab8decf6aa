import NMesh.Directory.PseudoDir

/-! # The messages of a key handover

A publisher key is offered (`OFFER`, signed by the key itself), accepted (`ACCEPT`, signed by the node that
was named, over the ML-KEM key to answer to) and handed over (`GRANT`, sealed to that ML-KEM key). A result
`none` stands for a message that is refused, and for a function that raises. -/

namespace NMesh.KeyShare.Message

open Base.BigEndian Base.Utf8 NMesh.Cert.Identity
open NMesh.Directory.PseudoDir (Primitives bytesOf)

/-- The primitives: also signing with a secret key, HKDF, AES-GCM, and which characters are printable. -/
structure Suite extends Primitives where
  signWith : Bytes → Bytes → Option Bytes
  derive : Bytes → Bytes → Bytes
  encrypt : Bytes → Bytes → Bytes → Bytes → Bytes
  decrypt : Bytes → Bytes → Bytes → Bytes → Option Bytes
  printable : ℕ → Bool

variable (P : Suite)

def domain : Bytes := bytesOf "nmesh-publisher-share-v1"

def version : ℕ := 1
def offerIdLen : ℕ := 16
def offerTtl : ℕ := 300
def maxLabel : ℕ := 64
def maxPubkey : ℕ := 4096
def maxSecret : ℕ := 8192
def maxKemPublic : ℕ := 4096
def maxKemCiphertext : ℕ := 4096
def maxSig : ℕ := 5000
def nonceLen : ℕ := 12
def tagLen : ℕ := 16

def offerHdrSize : ℕ := 31
def maxOffer : ℕ := offerHdrSize + maxPubkey + maxLabel * 4 + maxSig
def acceptHdrSize : ℕ := 31
def maxAccept : ℕ := acceptHdrSize + maxKemPublic + maxPubkey + maxSig
def grantHdrSize : ℕ := 31
def maxGrant : ℕ := grantHdrSize + maxKemCiphertext + maxSecret + tagLen

/-- Does a secret key belong to a public key? It signs a test, and the signature has to check. -/
def fromPair (publicKey secretKey : Bytes) : Bool :=
  match P.signWith secretKey (bytesOf "nmesh-publisher-self-test") with
  | none => false
  | some probe => P.verify (bytesOf "nmesh-publisher-self-test") probe publicKey

/-! ### The offer -/

def offerInput (offerId : Bytes) (fromId toId : NodeID) (ts : ℕ) (publisherPub encoded : Bytes) : Bytes :=
  domain ++ (bytesOf ":offer:" ++ (offerId ++ (fromId.raw ++ (toId.raw ++ (toBE 8 ts ++
    (publisherPub ++ encoded))))))

/-- Offer a publisher key to one node, signed with that key. -/
def buildOffer (offerId : Bytes) (fromId toId : NodeID) (publisherPub : Bytes)
    (sign : Bytes → Option Bytes) (label : Text) (ts : ℕ) : Option Bytes := do
  guard (publisherPub ≠ [] ∧ publisherPub.length ≤ maxPubkey ∧ offerId.length = offerIdLen)
  guard (ts < 256 ^ 8)
  let encoded ← encodeUtf8 (label.take maxLabel)
  let signature ← sign (offerInput offerId fromId toId ts publisherPub encoded)
  guard (signature.length ≤ maxSig ∧ encoded.length ≤ maxLabel * 4)
  return toBE 1 version ++ (toBE 8 ts ++ (offerId ++ (toBE 2 publisherPub.length ++
    (toBE 2 encoded.length ++ (toBE 2 signature.length ++ (publisherPub ++ (encoded ++ signature)))))))

/-- An offer that was read. -/
structure Offer where
  offerId : Bytes
  publisher : Bytes
  label : Text
  ts : ℕ
  deriving DecidableEq

/-- Parse and verify an offer addressed to `toId`. -/
def parseOffer (data : Bytes) (fromId toId : NodeID) : Option Offer := do
  guard (offerHdrSize ≤ data.length ∧ data.length ≤ maxOffer)
  let ts := field data 1 8
  let offerId := slice data 9 offerIdLen
  let pubLen := field data 25 2
  let labelLen := field data 27 2
  let sigLen := field data 29 2
  guard (field data 0 1 = version)
  guard (pubLen ≤ maxPubkey ∧ labelLen ≤ maxLabel * 4 ∧ sigLen ≤ maxSig ∧ pubLen ≠ 0 ∧ sigLen ≠ 0)
  guard (data.length = offerHdrSize + pubLen + labelLen + sigLen)
  let publisherPub := slice data offerHdrSize pubLen
  let rawLabel := slice data (offerHdrSize + pubLen) labelLen
  let signature := data.drop (offerHdrSize + pubLen + labelLen)
  let label ← decodeUtf8 rawLabel
  guard (label.length ≤ maxLabel ∧ label.all P.printable)
  let encoded ← encodeUtf8 label
  guard (P.verify (offerInput offerId fromId toId ts publisherPub encoded) signature publisherPub)
  return ⟨offerId, publisherPub, label, ts⟩

/-! ### The acceptance -/

def acceptInput (offerId : Bytes) (fromId toId : NodeID) (ts : ℕ) (kemPublic : Bytes) : Bytes :=
  domain ++ (bytesOf ":accept:" ++ (offerId ++ (fromId.raw ++ (toId.raw ++ (toBE 8 ts ++ kemPublic)))))

/-- Accept an offer, naming the key the grant must be sealed to. -/
def buildAccept (offerId : Bytes) (fromId toId : NodeID) (kemPublic nodePub : Bytes)
    (sign : Bytes → Bytes) (ts : ℕ) : Option Bytes := do
  guard (offerId.length = offerIdLen)
  guard (kemPublic ≠ [] ∧ kemPublic.length ≤ maxKemPublic)
  guard (nodePub ≠ [] ∧ nodePub.length ≤ maxPubkey)
  guard (ts < 256 ^ 8)
  let signature := sign (acceptInput offerId fromId toId ts kemPublic)
  guard (signature.length ≤ maxSig)
  return toBE 1 version ++ (toBE 8 ts ++ (offerId ++ (toBE 2 kemPublic.length ++
    (toBE 2 nodePub.length ++ (toBE 2 signature.length ++ (kemPublic ++ (nodePub ++ signature)))))))

/-- An acceptance that was read. -/
structure Accept where
  offerId : Bytes
  kemPublic : Bytes
  nodePublic : Bytes
  ts : ℕ
  deriving DecidableEq

/-- Parse and verify an acceptance said to come from `fromId`. -/
def parseAccept (data : Bytes) (fromId toId : NodeID) : Option Accept := do
  guard (acceptHdrSize ≤ data.length ∧ data.length ≤ maxAccept)
  let ts := field data 1 8
  let offerId := slice data 9 offerIdLen
  let kemLen := field data 25 2
  let pubLen := field data 27 2
  let sigLen := field data 29 2
  guard (field data 0 1 = version)
  guard (kemLen ≤ maxKemPublic ∧ pubLen ≤ maxPubkey ∧ sigLen ≤ maxSig ∧ kemLen ≠ 0 ∧ pubLen ≠ 0 ∧
    sigLen ≠ 0)
  guard (data.length = acceptHdrSize + kemLen + pubLen + sigLen)
  let kemPublic := slice data acceptHdrSize kemLen
  let nodePub := slice data (acceptHdrSize + kemLen) pubLen
  let signature := data.drop (acceptHdrSize + kemLen + pubLen)
  -- not the node the offer named
  guard (P.fromPublicKey nodePub = fromId)
  guard (P.verify (acceptInput offerId fromId toId ts kemPublic) signature nodePub)
  return ⟨offerId, kemPublic, nodePub, ts⟩

def acceptOfferId (data : Bytes) : Option Bytes := do
  guard (acceptHdrSize ≤ data.length ∧ data.length ≤ maxAccept)
  guard (field data 0 1 = version)
  return slice data 9 offerIdLen

/-! ### The grant -/

def grantKey (sharedSecret offerId : Bytes) : Bytes :=
  P.derive sharedSecret (domain ++ (bytesOf ":grant:" ++ offerId))

def grantAad (offerId : Bytes) (fromId toId : NodeID) (publisherPub : Bytes) : Bytes :=
  domain ++ (bytesOf ":grant:" ++ (offerId ++ (fromId.raw ++ (toId.raw ++ publisherPub))))

/-- Seal the secret to the ML-KEM key that the recipient signed for. -/
def sealGrant (offerId : Bytes) (fromId toId : NodeID) (publisherPub secretKey kemPublic : Bytes)
    (encapsulate : Bytes → Option (Bytes × Bytes)) (nonce : Bytes) : Option Bytes := do
  guard (secretKey ≠ [] ∧ secretKey.length ≤ maxSecret)
  let (ciphertext, shared) ← encapsulate kemPublic
  guard (ciphertext.length ≤ maxKemCiphertext)
  let sealedSecret := P.encrypt (grantKey P shared offerId) nonce secretKey
    (grantAad offerId fromId toId publisherPub)
  return toBE 1 version ++ (offerId ++ (toBE 2 ciphertext.length ++ (nonce ++
    (ciphertext ++ sealedSecret))))

/-- Recover the secret key from a grant, if it is for us. -/
def openGrant (data : Bytes) (fromId toId : NodeID) (publisherPub kemSecret : Bytes)
    (decapsulate : Bytes → Bytes → Option Bytes) : Option Bytes := do
  guard (grantHdrSize ≤ data.length ∧ data.length ≤ maxGrant)
  let offerId := slice data 1 offerIdLen
  let ctLen := field data 17 2
  let nonce := slice data 19 nonceLen
  guard (field data 0 1 = version ∧ ctLen ≠ 0 ∧ ctLen ≤ maxKemCiphertext)
  guard (grantHdrSize + ctLen + tagLen ≤ data.length)
  let ciphertext := slice data grantHdrSize ctLen
  let sealedSecret := data.drop (grantHdrSize + ctLen)
  guard (sealedSecret.length ≤ maxSecret + tagLen)
  let shared ← decapsulate ciphertext kemSecret
  P.decrypt (grantKey P shared offerId) nonce sealedSecret (grantAad offerId fromId toId publisherPub)

def grantOfferId (data : Bytes) : Option Bytes := do
  guard (grantHdrSize ≤ data.length ∧ data.length ≤ maxGrant)
  guard (field data 0 1 = version)
  return slice data 1 offerIdLen

/-! ### What is read -/

variable {P} {data : Bytes} {fromId toId : NodeID}

theorem parseOffer_spec {offer : Offer} (h : parseOffer P data fromId toId = some offer) :
    ∃ encoded signature, encodeUtf8 offer.label = some encoded ∧
      P.verify (offerInput offer.offerId fromId toId offer.ts offer.publisher encoded) signature
        offer.publisher = true := by
  simp only [parseOffer, Option.bind_eq_bind, Option.bind_eq_some_iff, Option.guard_eq_some'] at h
  obtain ⟨-, -, -, -, -, -, -, -, label, -, -, -, encoded, hencoded, -, hverify, hoffer⟩ := h
  cases hoffer
  exact ⟨encoded, _, hencoded, hverify⟩

/-- **An acceptance is signed by the node it comes from, over its ML-KEM key.** -/
theorem parseAccept_spec {accept : Accept} (h : parseAccept P data fromId toId = some accept) :
    acceptOfferId data = some accept.offerId ∧ P.fromPublicKey accept.nodePublic = fromId ∧
      ∃ signature, signature <:+ data ∧
        P.verify (acceptInput accept.offerId fromId toId accept.ts accept.kemPublic) signature
          accept.nodePublic = true := by
  simp only [parseAccept, Option.bind_eq_bind, Option.bind_eq_some_iff, Option.guard_eq_some'] at h
  obtain ⟨-, hsize, -, hversion, -, -, -, -, -, hid, -, hverify, haccept⟩ := h
  cases haccept
  refine ⟨?_, hid, _, List.drop_suffix _ _, hverify⟩
  simp only [acceptOfferId, Option.bind_eq_bind, Option.bind_eq_some_iff, Option.guard_eq_some']
  exact ⟨(), hsize, (), hversion, rfl⟩

end NMesh.KeyShare.Message
