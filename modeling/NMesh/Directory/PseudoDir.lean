import NMesh.Base.Reading
import NMesh.Cert.Identity
import NMesh.Directory.Name

/-! # Name claims

A claim binds a name to the node whose key signed it. `buildClaim` signs one, and `parseClaim` reads one
and accepts it only in its one form, under a signature that checks. `none` stands for a claim that is
refused, and for a function that raises. -/

namespace NMesh.Directory.PseudoDir

open Base.BigEndian Base.Reading Base.Utf8 NMesh.Cert.Identity NMesh.Directory.Name

/-- The hash and the check of a signature, given the message, the signature and the public key. -/
structure Primitives where
  sha256 : Bytes → Bytes
  len : ∀ data, (sha256 data).length = 32
  verify : Bytes → Bytes → Bytes → Bool

def Primitives.digest (P : Primitives) (data : Bytes) : Bytes := (P.sha256 data).take 20

def Primitives.fromPublicKey (P : Primitives) (pubkey : Bytes) : NodeID :=
  ⟨P.digest pubkey, by rw [Primitives.digest, List.length_take, P.len]; rfl⟩

def bytesOf (s : String) : Bytes := s.toList.map fun c => UInt8.ofNat c.toNat

variable (U : Unicode) (P : Primitives)

def domain : Bytes := bytesOf "nmesh-pseudo-v2"

def claimVersion : ℕ := 2

def hdrSize : ℕ := 15

def maxPseudoBytes : ℕ := maxPseudo * 4

def maxPubkey : ℕ := 4096

def maxSig : ℕ := 5000

def maxClaim : ℕ := hdrSize + maxPubkey + maxPseudoBytes + maxSig

/-- A claim that was read. -/
structure Claim where
  nodeId : NodeID
  pubkey : Bytes
  pseudo : Text
  ts : ℕ
  key : Bytes
  keys : List Bytes
  deriving DecidableEq

def termKey (term : Text) : Option Bytes :=
  (encodeUtf8 term).map fun data => P.digest (domain ++ (bytesOf ":" ++ data))

def dirKey (pseudo : Text) : Option Bytes := termKey P (fold U pseudo)

def dirKeys (pseudo : Text) : Option (List Bytes) := (keyTerms U pseudo).mapM (termKey P)

def signingInput (nodeId : NodeID) (pseudo : Text) (ts : ℕ) : Option Bytes :=
  (encodeUtf8 pseudo).map fun data => domain ++ (nodeId.raw ++ (toBE 8 ts ++ data))

/-- Sign a claim that a name is the node's of this public key. -/
def buildClaim (pseudo : Text) (pubkey : Bytes) (sign : Bytes → Bytes) (ts : ℤ) : Option Bytes := do
  guard (isCanonical U pseudo)
  guard (0 ≤ ts ∧ ts < 256 ^ 8)
  let encoded ← encodeUtf8 pseudo
  let input ← signingInput (P.fromPublicKey pubkey) pseudo ts.toNat
  let sig := sign input
  guard (pubkey.length ≤ maxPubkey ∧ sig.length ≤ maxSig)
  return toBE 1 claimVersion ++ (toBE 8 ts.toNat ++ (toBE 2 pubkey.length ++
    (toBE 2 encoded.length ++ (toBE 2 sig.length ++ (pubkey ++ (encoded ++ sig))))))

def parseClaim (data : Bytes) : Option Claim := do
  guard (hdrSize ≤ data.length ∧ data.length ≤ maxClaim)
  let ts := field data 1 8
  let pkLen := field data 9 2
  let psLen := field data 11 2
  let sigLen := field data 13 2
  guard (field data 0 1 = claimVersion)
  guard (pkLen ≤ maxPubkey ∧ psLen ≤ maxPseudoBytes ∧ sigLen ≤ maxSig)
  guard (data.length = hdrSize + pkLen + psLen + sigLen)
  let pubkey := slice data hdrSize pkLen
  let sig := data.drop (hdrSize + pkLen + psLen)
  let pseudo ← decodeUtf8 (slice data (hdrSize + pkLen) psLen)
  guard (isCanonical U pseudo)
  let input ← signingInput (P.fromPublicKey pubkey) pseudo ts
  guard (P.verify input sig pubkey)
  let key ← dirKey U P pseudo
  let keys ← dirKeys U P pseudo
  return ⟨P.fromPublicKey pubkey, pubkey, pseudo, ts, key, keys⟩

variable {U P}

theorem parseClaim_spec {data : Bytes} {claim : Claim} (h : parseClaim U P data = some claim) :
    claim.nodeId = P.fromPublicKey claim.pubkey ∧ hdrSize ≤ data.length ∧ data.length ≤ maxClaim := by
  simp only [parseClaim, Option.bind_eq_bind, Option.bind_eq_some_iff, Option.guard_eq_some'] at h
  obtain ⟨-, ⟨hlow, hhigh⟩, -, -, -, -, -, -, pseudo, -, -, -, input, -, -, -, key, -, keys, -,
    hclaim⟩ := h
  rw [← Option.some.inj hclaim]
  exact ⟨rfl, hlow, hhigh⟩

theorem parseClaim_buildClaim {pseudo : Text} {pubkey : Bytes} {sign : Bytes → Bytes} {ts : ℤ}
    {raw : Bytes} {claim : Claim} (hbuild : buildClaim U P pseudo pubkey sign ts = some raw)
    (hparse : parseClaim U P raw = some claim) :
    claim.nodeId = P.fromPublicKey pubkey ∧ (claim.ts : ℤ) = ts := by
  simp only [buildClaim, Option.bind_eq_bind, Option.bind_eq_some_iff, Option.guard_eq_some'] at hbuild
  obtain ⟨-, -, -, ⟨hpos, hfits⟩, encoded, -, input, -, -, ⟨hpub, -⟩, hraw⟩ := hbuild
  simp only [parseClaim, Option.bind_eq_bind, Option.bind_eq_some_iff, Option.guard_eq_some'] at hparse
  obtain ⟨-, -, -, -, -, -, -, -, name, -, -, -, input', -, -, -, key, -, keys, -, hclaim⟩ := hparse
  have hts : ts.toNat < 256 ^ 8 := by omega
  have hlen : pubkey.length < 256 ^ 2 := by unfold maxPubkey at hpub; omega
  have h1 : From raw 1 _ := Option.some.inj hraw ▸ (From.start (toBE 1 claimVersion ++ _)).next (length_toBE ..)
  have h9 := h1.next (length_toBE ..)
  have h11 := h9.next (length_toBE ..)
  have h13 := h11.next (length_toBE ..)
  have h15 := h13.next (length_toBE ..)
  have hkey : slice raw hdrSize (field raw 9 2) = pubkey := by
    rw [show field raw 9 2 = pubkey.length from h9.field hlen]
    exact h15.slice rfl
  rw [show field raw 1 8 = ts.toNat from h1.field hts, hkey] at hclaim
  cases hclaim
  exact ⟨rfl, Int.toNat_of_nonneg hpos⟩

/-! ### Plain names

A database in which every character is its own form, a hash that turns its input round, and signatures
that all check. -/

def plain : Unicode where
  nfc := id
  nfd := id
  casefold := id
  category := fun c => if c = 0x20 then .zs else .other
  isSpace := fun c => c = 0x20

def turning : Primitives where
  sha256 := fun data => (data.reverse ++ List.replicate 32 0).take 32
  len := fun data => by simp
  verify := fun _ _ _ => true

def claimOf (pubkey : UInt8) (name : String) (ts : ℕ) : Bytes :=
  toBE 1 claimVersion ++ (toBE 8 ts ++ (toBE 2 1 ++ (toBE 2 name.length ++ (toBE 2 0 ++
    (pubkey :: bytesOf name)))))

example : (parseClaim plain turning (claimOf 7 "al" 5)).map (·.pseudo) = some (ascii "al") := by
  decide +kernel

end NMesh.Directory.PseudoDir
