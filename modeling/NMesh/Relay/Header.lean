import NMesh.Base.BigEndian
import Mathlib.Tactic.SplitIfs

/-! # Mesh packets

A packet is a content (`Content`: what its id is computed over), a hop budget `ttl` and the header id
`msgId` as one link carries it. The id of the content under each of the two hashes is computed at most
once and kept in the packet (`sha256Id`, `blake2bId`); that a kept id is the content's id is a field of
the structure. The hashes are parameters (`Hashes`).

Reading an id fills the packet in place, so every reader returns the packet it leaves behind. -/

namespace NMesh.Relay.Header

open Base.BigEndian

/-- The length of the header `!BBB20s20sQ12s16s`. -/
def headerSize : ℕ := 79

def maxPayload : ℕ := 60000

/-- The two hashes a `msg_id` may be computed with. -/
inductive Algorithm
  | sha256
  | blake2b
  deriving DecidableEq

/-- The first 64 bits of either hash, over a prefix and the payload. -/
structure Hashes where
  sha256Id : Bytes → Bytes → UInt64
  blake2bId : Bytes → Bytes → UInt64

/-- What a packet's id commits to. -/
structure Content where
  version : UInt8
  type : UInt8
  srcId : Bytes
  dstId : Bytes
  nonce : Bytes
  gcmTag : Bytes
  payload : Bytes
  src_len : srcId.length = 20
  dst_len : dstId.length = 20
  nonce_len : nonce.length = 12
  tag_len : gcmTag.length = 16
  payload_le : payload.length ≤ maxPayload

instance : DecidableEq Content := fun c c' =>
  decidable_of_iff (c.version = c'.version ∧ c.type = c'.type ∧ c.srcId = c'.srcId ∧ c.dstId = c'.dstId ∧
      c.nonce = c'.nonce ∧ c.gcmTag = c'.gcmTag ∧ c.payload = c'.payload)
    (by cases c; cases c'; simp)

namespace Content

/-- The fixed fields under an id, `!BB20s20s12s16s`. -/
def idPrefix (c : Content) : Bytes :=
  [c.version, c.type] ++ (c.srcId ++ (c.dstId ++ (c.nonce ++ c.gcmTag)))

def msgIdOver (H : Hashes) (c : Content) : Algorithm → UInt64
  | .blake2b => H.blake2bId c.idPrefix c.payload
  | .sha256 => H.sha256Id c.idPrefix c.payload

/-- The additional authenticated data, `!BB20s20s12s`. -/
def aad (c : Content) : Bytes := [c.version, c.type] ++ (c.srcId ++ (c.dstId ++ c.nonce))

end Content

/-- **A packet**, with ids it has computed. -/
structure Packet (H : Hashes) extends Content where
  ttl : ℤ
  msgId : Option UInt64
  sha256Id : Option UInt64
  blake2bId : Option UInt64
  sha256_ok : ∀ id, sha256Id = some id → id = toContent.msgIdOver H .sha256
  blake2b_ok : ∀ id, blake2bId = some id → id = toContent.msgIdOver H .blake2b

variable {H : Hashes}

namespace Packet

/-- The constructor's checks; a new packet has computed no id. -/
def init (H : Hashes) (version type : UInt8) (ttl : ℤ) (srcId dstId : Bytes) (msgId : Option UInt64)
    (nonce gcmTag payload : Bytes) : Except String (Packet H) :=
  if hs : srcId.length = 20 then
    if hd : dstId.length = 20 then
      if hn : nonce.length = 12 then
        if ht : gcmTag.length = 16 then
          if hp : payload.length ≤ maxPayload then
            .ok ⟨⟨version, type, srcId, dstId, nonce, gcmTag, payload, hs, hd, hn, ht, hp⟩, ttl,
              msgId, none, none, fun _ h => (by cases h), fun _ h => (by cases h)⟩
          else .error "payload too big"
        else .error "gcm_tag must be 16 bytes"
      else .error "nonce must be 12 bytes"
    else .error "dst_id must be 20 bytes"
  else .error "src_id must be 20 bytes"

def idUnder (p : Packet H) : Algorithm → UInt64 × Packet H
  | .blake2b =>
    match p.blake2bId with
    | some id => (id, p)
    | none =>
      let id := p.msgIdOver H .blake2b
      (id, { p with blake2bId := some id, blake2b_ok := fun _ h => (Option.some.inj h).symm })
  | .sha256 =>
    match p.sha256Id with
    | some id => (id, p)
    | none =>
      let id := p.msgIdOver H .sha256
      (id, { p with sha256Id := some id, sha256_ok := fun _ h => (Option.some.inj h).symm })

/-- The header id; a packet no link has carried yet reads its SHA-256 id. -/
def readMsgId (p : Packet H) : UInt64 × Packet H :=
  match p.msgId with
  | some id => (id, p)
  | none =>
    let (id, p) := p.idUnder .sha256
    (id, { p with msgId := some id })

/-- What a replay window files the packet under; `none` if the header does not commit to the
content. -/
def replayKey (p : Packet H) : Option UInt64 × Packet H :=
  let (key, p) := p.idUnder .blake2b
  let (header, p) := p.readMsgId
  if header = key then (some key, p)
  else
    let (other, p) := p.idUnder .sha256
    (if header = other then some key else none, p)

/-- The same packet with another budget and header. The ids it has computed travel with it. -/
def twin (p : Packet H) (ttl : ℤ) (msgId : Option UInt64) : Packet H :=
  { p with ttl := ttl, msgId := msgId }

/-- The packet as a link carrying `algorithm` sends it, and this packet. -/
def forLink (p : Packet H) (algorithm : Algorithm) : Packet H × Packet H :=
  let (msgId, p) := p.idUnder algorithm
  let p := if p.msgId = none ∧ algorithm = .sha256 then { p with msgId := some msgId } else p
  if p.msgId = some msgId then (p, p) else (p.twin p.ttl (some msgId), p)

def withTtl (p : Packet H) (ttl : ℤ) : Packet H := p.twin ttl p.msgId

def withDecrementedTtl (p : Packet H) : Packet H := p.withTtl (p.ttl - 1)

/-- The datagram, and this packet. `struct` refuses a budget outside a byte. -/
def pack (p : Packet H) : Except String (Bytes × Packet H) :=
  let (msgId, p) := p.readMsgId
  if 0 ≤ p.ttl ∧ p.ttl < 256 then
    .ok ([p.version, p.type, UInt8.ofNat p.ttl.toNat] ++ (p.srcId ++ (p.dstId ++
      (toBE 8 msgId.toNat ++ (p.nonce ++ (p.gcmTag ++ p.payload))))), p)
  else .error "ubyte format requires 0 <= number <= 255"

def unpack (H : Hashes) (data : Bytes) : Except String (Packet H) :=
  if data.length < headerSize then .error "data too short"
  else
    match data with
    | version :: type :: ttl :: rest =>
      init H version type ttl.toNat (rest.take 20) ((rest.drop 20).take 20)
        (some (UInt64.ofNat (ofBE ((rest.drop 40).take 8)))) ((rest.drop 48).take 12)
        ((rest.drop 60).take 16) (rest.drop 76)
    | _ => .error "data too short"

/-! ### What the readers leave behind -/

theorem idUnder_spec (p : Packet H) (a : Algorithm) :
    (p.idUnder a).1 = p.msgIdOver H a ∧ (p.idUnder a).2.toContent = p.toContent ∧
      (p.idUnder a).2.ttl = p.ttl ∧ (p.idUnder a).2.msgId = p.msgId := by
  cases a with
  | sha256 =>
    cases h : p.sha256Id with
    | none => simp only [idUnder, h]; trivial
    | some id => simp only [idUnder, h, p.sha256_ok id h]; trivial
  | blake2b =>
    cases h : p.blake2bId with
    | none => simp only [idUnder, h]; trivial
    | some id => simp only [idUnder, h, p.blake2b_ok id h]; trivial

def header (p : Packet H) : UInt64 := p.msgId.getD (p.msgIdOver H .sha256)

theorem readMsgId_spec (p : Packet H) :
    p.readMsgId.1 = p.header ∧ p.readMsgId.2.toContent = p.toContent ∧
      p.readMsgId.2.ttl = p.ttl ∧ p.readMsgId.2.msgId = some p.header := by
  obtain ⟨h1, h2, h3, -⟩ := idUnder_spec p .sha256
  cases h : p.msgId with
  | none => simp only [readMsgId, header, h]; exact ⟨h1, h2, h3, congrArg some h1⟩
  | some id => simp only [readMsgId, header, h]; trivial

def Sealed (p : Packet H) : Prop := ∃ a, p.header = p.msgIdOver H a

theorem replayKey_spec (p : Packet H) :
    (p.replayKey.1 = some (p.msgIdOver H .blake2b) ↔ p.Sealed) ∧
      (p.replayKey.1 = none ↔ ¬ p.Sealed) ∧ p.replayKey.2.toContent = p.toContent ∧
      p.replayKey.2.ttl = p.ttl ∧ p.replayKey.2.header = p.header := by
  obtain ⟨h1, h2, h3, h4⟩ := idUnder_spec p .blake2b
  obtain ⟨r1, r2, r3, r4⟩ := readMsgId_spec (p.idUnder .blake2b).2
  obtain ⟨s1, s2, s3, s4⟩ := idUnder_spec (p.idUnder .blake2b).2.readMsgId.2 .sha256
  have hheader : (p.idUnder .blake2b).2.header = p.header := by unfold header; rw [h4, h2]
  have hseal : p.Sealed ↔ p.header = p.msgIdOver H .blake2b ∨ p.header = p.msgIdOver H .sha256 := by
    constructor
    · rintro ⟨_ | _, h⟩
      · exact Or.inr h
      · exact Or.inl h
    · rintro (h | h)
      · exact ⟨_, h⟩
      · exact ⟨_, h⟩
  rw [r2, h2] at s1
  rw [hheader] at r1 r4
  have hleft : ∀ q : Packet H, q.msgId = some p.header → q.header = p.header := fun q hq => by
    unfold header; rw [hq]; rfl
  unfold replayKey
  dsimp only
  rw [r1, h1, s1, hseal]
  split_ifs with hb hs
  · exact ⟨by simp [hb], by simp [hb], r2.trans h2, r3.trans h3, hleft _ r4⟩
  · exact ⟨by simp [hs], by simp [hs], s2.trans (r2.trans h2), s3.trans (r3.trans h3),
      hleft _ (s4.trans r4)⟩
  · exact ⟨by simp [hb, hs], by simp [hb, hs], s2.trans (r2.trans h2), s3.trans (r3.trans h3),
      hleft _ (s4.trans r4)⟩

end Packet

end NMesh.Relay.Header
