import NMesh.Base.Reading
import NMesh.Relay.Header

/-! # One packet, one replay key

A packet travels: each hop packs and unpacks it, gives it another hop budget, or stamps it for a link
of either hash. `one_key` shows that its replay key is the same everywhere on any such path. -/

namespace NMesh.Relay.Hops

open Base.BigEndian Base.Reading NMesh.Relay.Header NMesh.Relay.Header.Packet

variable {H : Hashes}

/-! ### The wire -/

theorem unpack_pack (p : Packet H) (h0 : 0 ≤ p.ttl) (h : p.ttl < 256) :
    ∃ data p' q, p.pack = .ok (data, p') ∧ unpack H data = .ok q ∧ q.toContent = p.toContent ∧
      q.ttl = p.ttl ∧ q.msgId = some p.header := by
  obtain ⟨r1, r2, r3, -⟩ := readMsgId_spec p
  have hid : UInt64.ofNat (ofBE (toBE 8 p.header.toNat)) = p.header := by
    rw [ofBE_toBE (by have := p.header.toNat_lt; omega), UInt64.ofNat_toNat]
  have httl : ((UInt8.ofNat p.ttl.toNat).toNat : ℤ) = p.ttl := by
    rw [UInt8.toNat_ofNat']; omega
  set rest := p.srcId ++ (p.dstId ++
    (toBE 8 p.header.toNat ++ (p.nonce ++ (p.gcmTag ++ p.payload)))) with hrest
  have hpack : p.pack = .ok ([p.version, p.type, UInt8.ofNat p.ttl.toNat] ++ rest,
      p.readMsgId.2) := by
    unfold pack
    simp only [r1, r2, r3]
    rw [if_pos ⟨h0, h⟩]
  have h0 : From rest 0 (p.srcId ++ _) := From.start _
  have h20 := h0.next p.src_len
  have h40 := h20.next p.dst_len
  have h48 := h40.next (length_toBE ..)
  have h60 := h48.next p.nonce_len
  have h76 := h60.next p.tag_len
  have hlong : ¬ ([p.version, p.type, UInt8.ofNat p.ttl.toNat] ++ rest).length < headerSize := by
    have hle : 76 ≤ rest.length := h76.le
    rw [List.length_append]
    exact not_lt.mpr (Nat.add_le_add_left hle 3)
  refine ⟨_, _, ⟨p.toContent, p.ttl, some p.header, none, none, fun _ h => (by cases h),
    fun _ h => (by cases h)⟩, hpack, ?_, rfl, rfl, rfl⟩
  unfold unpack
  rw [if_neg hlong]
  simp only [List.cons_append, List.nil_append]
  rw [show rest.take 20 = _ from h0.slice p.src_len, show (rest.drop 20).take 20 = _ from h20.slice p.dst_len,
    show (rest.drop 40).take 8 = _ from h40.slice (length_toBE ..),
    show (rest.drop 48).take 12 = _ from h48.slice p.nonce_len,
    show (rest.drop 60).take 16 = _ from h60.slice p.tag_len, show rest.drop 76 = _ from h76.drop, hid, httl]
  unfold init
  rw [dif_pos p.src_len, dif_pos p.dst_len, dif_pos p.nonce_len, dif_pos p.tag_len, dif_pos p.payload_le]

/-! ### Paths -/

/-- What may happen to a packet on its way. `offer` stamps it for a link and keeps it; the other
readers leave it where it is. -/
inductive Hop
  | wire
  | withTtl (ttl : ℤ)
  | withDecrementedTtl
  | forLink (algorithm : Algorithm)
  | offer (algorithm : Algorithm)
  | idUnder (algorithm : Algorithm)
  | readMsgId
  | replayKey

def step (p : Packet H) : Hop → Except String (Packet H)
  | .wire =>
    match p.pack with
    | .ok (data, _) => unpack H data
    | .error e => .error e
  | .withTtl ttl => .ok (p.withTtl ttl)
  | .withDecrementedTtl => .ok p.withDecrementedTtl
  | .forLink algorithm => .ok (p.forLink algorithm).1
  | .offer algorithm => .ok (p.forLink algorithm).2
  | .idUnder algorithm => .ok (p.idUnder algorithm).2
  | .readMsgId => .ok p.readMsgId.2
  | .replayKey => .ok p.replayKey.2

def travel (p : Packet H) (path : List Hop) : Except String (Packet H) := path.foldlM step p

/-- Every budget of the path, from `ttl` on, fits its byte. -/
def Fits : ℤ → List Hop → Prop
  | ttl, [] => 0 ≤ ttl ∧ ttl < 256
  | ttl, hop :: path => (0 ≤ ttl ∧ ttl < 256) ∧
    match hop with
    | .withTtl ttl' => Fits ttl' path
    | .withDecrementedTtl => Fits (ttl - 1) path
    | _ => Fits ttl path

/-- The same content, under a header that commits to it. -/
structure Same (p q : Packet H) : Prop where
  content : q.toContent = p.toContent
  isSealed : q.Sealed

theorem forLink_spec (p : Packet H) (a : Algorithm) :
    (p.forLink a).1.toContent = p.toContent ∧ (p.forLink a).1.ttl = p.ttl ∧
      (p.forLink a).1.header = p.msgIdOver H a ∧ (p.forLink a).2.toContent = p.toContent ∧
      (p.forLink a).2.ttl = p.ttl ∧ (p.forLink a).2.header = p.header := by
  obtain ⟨h1, h2, h3, h4⟩ := idUnder_spec p a
  unfold forLink
  dsimp only
  rw [h1, h4]
  split_ifs with hn hs hs
  · refine ⟨h2, h3, rfl, h2, h3, ?_⟩
    unfold header; rw [hn.1, hn.2]; rfl
  · exact absurd rfl hs
  · rw [h4] at hs
    refine ⟨h2, h3, ?_, h2, h3, ?_⟩ <;> unfold header <;> rw [h4, hs] <;> rfl
  · refine ⟨h2, h3, rfl, h2, h3, ?_⟩
    unfold header; rw [h4, h2]

theorem Same.step {p q : Packet H} (h : Same p q) {hop : Hop} {path : List Hop}
    (hf : Fits q.ttl (hop :: path)) :
    ∃ q', step q hop = .ok q' ∧ Same p q' ∧ Fits q'.ttl path := by
  have hsame : ∀ {q' : Packet H}, q'.toContent = q.toContent → q'.header = q.header →
      Same p q' := fun {q'} hc hh => by
    obtain ⟨a, ha⟩ := h.isSealed
    exact ⟨hc.trans h.content, a, by rw [hh, ha, hc]⟩
  obtain ⟨hrange, hf⟩ := hf
  cases hop with
  | wire =>
    obtain ⟨data, p', q', h1, h2, h3, h4, h5⟩ := unpack_pack q hrange.1 hrange.2
    refine ⟨q', by simp only [Hops.step, h1, h2], hsame h3 ?_, by rw [h4]; exact hf⟩
    rw [header, h5]; rfl
  | withTtl ttl | withDecrementedTtl => exact ⟨_, rfl, hsame rfl rfl, hf⟩
  | forLink a =>
    obtain ⟨h1, h2, h3, -⟩ := forLink_spec q a
    exact ⟨_, rfl, ⟨h1.trans h.content, a, by rw [h3, h1]⟩, by rw [h2]; exact hf⟩
  | offer a =>
    obtain ⟨-, -, -, h1, h2, h3⟩ := forLink_spec q a
    exact ⟨_, rfl, hsame h1 h3, by rw [h2]; exact hf⟩
  | idUnder a =>
    obtain ⟨-, h1, h2, h3⟩ := idUnder_spec q a
    exact ⟨_, rfl, hsame h1 (by unfold header; rw [h3, h1]), by rw [h2]; exact hf⟩
  | readMsgId =>
    obtain ⟨-, h1, h2, h3⟩ := readMsgId_spec q
    exact ⟨_, rfl, hsame h1 (by rw [header, h3]; rfl), by rw [h2]; exact hf⟩
  | replayKey =>
    obtain ⟨-, -, h1, h2, h3⟩ := replayKey_spec q
    exact ⟨_, rfl, hsame h1 h3, by rw [h2]; exact hf⟩

theorem Same.travel {p : Packet H} : ∀ {path : List Hop} {q : Packet H}, Same p q →
    Fits q.ttl path → ∃ q', travel q path = .ok q' ∧ Same p q'
  | [], q, h, _ => ⟨q, rfl, h⟩
  | hop :: path, q, h, hf => by
    obtain ⟨q', hstep, h', hf'⟩ := h.step hf
    obtain ⟨q'', hrest, h''⟩ := h'.travel hf'
    refine ⟨q'', ?_, h''⟩
    unfold Hops.travel at hrest ⊢
    rw [List.foldlM_cons, hstep]
    exact hrest

theorem Same.replayKey {p q : Packet H} (h : Same p q) :
    q.replayKey.1 = some (p.msgIdOver H .blake2b) := by
  have := (replayKey_spec q).1.mpr h.isSealed
  rwa [h.content] at this

/-- **One packet, one replay key.** A packet whose header commits to its content has, wherever it
goes, the replay key and the content it started with; a packet whose header is neither hash of its
content has none. -/
theorem one_key (p : Packet H) :
    ((p.msgId = none ∨ ∃ a, p.msgId = some (p.msgIdOver H a)) →
      ∃ key, p.replayKey.1 = some key ∧ ∀ path, Fits p.ttl path →
        ∃ q, travel p path = .ok q ∧ q.replayKey.1 = some key ∧ q.payload = p.payload ∧
          q.srcId = p.srcId ∧ q.dstId = p.dstId ∧ q.type = p.type ∧ q.aad = p.aad) ∧
      ∀ id, p.msgId = some id → (∀ a, id ≠ p.msgIdOver H a) → p.replayKey.1 = none := by
  constructor
  · intro hhead
    have hseal : p.Sealed := by
      rcases hhead with h | ⟨a, h⟩
      · exact ⟨.sha256, by rw [header, h]; rfl⟩
      · exact ⟨a, by rw [header, h]; rfl⟩
    have hself : Same p p := ⟨rfl, hseal⟩
    refine ⟨_, hself.replayKey, fun path hfit => ?_⟩
    obtain ⟨q, hq, hsame⟩ := hself.travel hfit
    have hc := hsame.content
    refine ⟨q, hq, hsame.replayKey, ?_⟩
    rw [hc]
    exact ⟨rfl, rfl, rfl, rfl, rfl⟩
  · intro id hid hne
    refine (replayKey_spec p).2.1.mpr ?_
    rintro ⟨a, ha⟩
    refine hne a ?_
    rw [← ha, header, hid]; rfl

end NMesh.Relay.Hops
