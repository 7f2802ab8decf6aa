import Mathlib.Data.List.Infix
import NMesh.Base.Reading

/-! # Bundles of packets

A bundle carries packets on a medium that is moved by hand: a header with their number, each packet under its
length, and a digest of it all. What `unpack` takes is the header, the records of some packets and the digest of
both (`unpack_ok`); records are not the beginning of other records of the same number (`recs_prefix`), so a bundle
that is cut or goes on is no bundle (`bundle_round_trip`). -/

namespace NMesh.Spool.Bundle

open Base.BigEndian Base.Reading

/-- `_MAGIC`: `NMSHBNDL`. -/
def magic : Bytes := [0x4E, 0x4D, 0x53, 0x48, 0x42, 0x4E, 0x44, 0x4C]

def version : UInt8 := 1
def headerSize : ℕ := 16
def digestLen : ℕ := 32
def maxPacket : ℕ := 65535
def maxPackets : ℕ := 1000000
def maxBundle : ℕ := 256 * 1024 * 1024

/-- What `BundleError` is raised for. -/
inductive BundleError
  | tooManyPackets | packetTooLarge | overCeiling | tooShort | badMagic | unsupportedVersion
  | countTooLarge | checksum | truncatedLength | recordTooLong | truncatedBody | trailing

/-! ### Packing and unpacking -/

def header (count : ℕ) : Bytes := magic ++ version :: 0 :: 0 :: 0 :: toBE 4 count

def record (p : Bytes) : Bytes := toBE 4 p.length ++ p

def recs (packets : List Bytes) : Bytes := packets.flatMap record

variable (sha256 : Bytes → Bytes)

def pack (packets : List Bytes) : Except BundleError Bytes :=
  if maxPackets < packets.length then .error .tooManyPackets
  else if packets.any fun p => maxPacket < p.length then .error .packetTooLarge
  else
    let body := header packets.length ++ recs packets
    .ok (body ++ sha256 body)

/-- The loop of `unpack`: so many records at the front, and what is left after them. -/
def takeRecords : ℕ → Bytes → Except BundleError (List Bytes × Bytes)
  | 0, rest => .ok ([], rest)
  | n + 1, rest =>
    if rest.length < 4 then .error .truncatedLength
    else
      let plen := field rest 0 4
      if maxPacket < plen then .error .recordTooLong
      else if rest.length < 4 + plen then .error .truncatedBody
      else do
        let (packets, left) ← takeRecords n (rest.drop (4 + plen))
        .ok (slice rest 4 plen :: packets, left)

def bodyOf (data : Bytes) : Bytes := data.take (data.length - digestLen)

def unpack (data : Bytes) : Except BundleError (List Bytes) :=
  if maxBundle < data.length then .error .overCeiling
  else if data.length < headerSize + digestLen then .error .tooShort
  else if slice data 0 8 ≠ magic then .error .badMagic
  else if slice data 8 1 ≠ [version] then .error .unsupportedVersion
  else if maxPackets < field data 12 4 then .error .countTooLarge
  else if sha256 (bodyOf data) ≠ data.drop (data.length - digestLen) then .error .checksum
  else do
    let (packets, left) ← takeRecords (field data 12 4) ((bodyOf data).drop headerSize)
    if left = [] then .ok packets else .error .trailing

/-! ### Records -/

theorem length_record (p : Bytes) : (record p).length = 4 + p.length := by
  rw [record, List.length_append, length_toBE]

theorem field_record {p : Bytes} (hp : p.length ≤ maxPacket) (rest : Bytes) :
    field (record p ++ rest) 0 4 = p.length := by
  rw [record, List.append_assoc]
  exact (From.start _).field (Nat.lt_of_le_of_lt hp (by decide))

theorem takeRecords_ok {n : ℕ} {rest left : Bytes} {packets : List Bytes} :
    takeRecords n rest = .ok (packets, left) ↔
      packets.length = n ∧ (∀ p ∈ packets, p.length ≤ maxPacket) ∧ rest = recs packets ++ left := by
  induction n generalizing rest packets with
  | zero =>
    constructor
    · rintro ⟨⟩
      exact ⟨rfl, fun p hp => (nomatch hp), rfl⟩
    · rintro ⟨hn, -, rfl⟩
      rw [List.eq_nil_of_length_eq_zero hn]
      rfl
  | succ n ih =>
    unfold takeRecords
    constructor
    · intro h
      dsimp only at h
      split_ifs at h with hshort hlong hbody
      cases hmore : takeRecords n (rest.drop (4 + field rest 0 4)) with
      | error e =>
        rw [hmore] at h
        cases h
      | ok r =>
        rw [hmore] at h
        obtain ⟨more, left'⟩ := r
        cases h
        obtain ⟨hn, hsmall, hrest⟩ := ih.mp hmore
        have hlen : (slice rest 4 (field rest 0 4)).length = field rest 0 4 := length_slice (by omega)
        have hfront : toBE 4 (field rest 0 4) = rest.take 4 := by
          have hfour : (slice rest 0 4).length = 4 := length_slice (by omega)
          have hback := toBE_ofBE (slice rest 0 4)
          rwa [hfour] at hback
        refine ⟨by rw [List.length_cons, hn], fun p hp => ?_, ?_⟩
        · rcases List.mem_cons.mp hp with rfl | hp
          · omega
          · exact hsmall p hp
        · show rest = (record _ ++ recs more) ++ _
          rw [List.append_assoc, ← hrest, record, hlen, hfront, List.append_assoc, slice, ← List.drop_drop,
            List.take_append_drop, List.take_append_drop]
    · rintro ⟨hn, hsmall, rfl⟩
      obtain _ | ⟨p, more⟩ := packets
      · cases hn
      have hp := hsmall p List.mem_cons_self
      have hrest : recs (p :: more) ++ left = record p ++ (recs more ++ left) := List.append_assoc _ _ _
      have hfield := field_record hp (recs more ++ left)
      have hlen := length_record p
      have hdrop : (record p ++ (recs more ++ left)).drop (4 + p.length) = recs more ++ left :=
        List.drop_left' hlen
      have hslice : slice (record p ++ (recs more ++ left)) 4 p.length = p := by
        rw [slice, record, List.append_assoc, List.drop_left' (length_toBE 4 _), List.take_left' rfl]
      have hmore := ih.mpr ⟨Nat.succ.inj hn, fun q hq => hsmall q (List.mem_cons_of_mem _ hq),
        rfl (a := recs more ++ left)⟩
      dsimp only
      rw [hrest, hfield, hdrop, hslice, hmore, if_neg, if_neg, if_neg]
      · rfl
      · rw [List.length_append]
        omega
      · omega
      · rw [List.length_append]
        omega

/-- **Records are not the beginning of as many others.** -/
theorem recs_prefix : ∀ {ps qs : List Bytes}, ps.length = qs.length → (∀ p ∈ ps, p.length ≤ maxPacket) →
    (∀ q ∈ qs, q.length ≤ maxPacket) → recs ps <+: recs qs → ps = qs
  | [], [], _, _, _, _ => rfl
  | p :: ps, q :: qs, hlen, hps, hqs, ⟨more, hmore⟩ => by
    replace hmore : record p ++ (recs ps ++ more) = record q ++ recs qs := by
      rw [← List.append_assoc]
      exact hmore
    have hsame : p.length = q.length := by
      rw [← field_record (hps p List.mem_cons_self) (recs ps ++ more), hmore,
        field_record (hqs q List.mem_cons_self)]
    obtain ⟨hrecord, hrest⟩ := List.append_inj hmore (by rw [length_record, length_record, hsame])
    rw [(List.append_inj hrecord (by rw [length_toBE, length_toBE])).2,
      recs_prefix (Nat.succ.inj hlen) (fun x hx => hps x (List.mem_cons_of_mem _ hx))
        (fun x hx => hqs x (List.mem_cons_of_mem _ hx)) ⟨more, hrest⟩]

/-! ### What is taken for a bundle -/

/-- The body of a bundle, with what stands in the three bytes that are reserved. -/
def bodyWith (reserved : Bytes) (packets : List Bytes) : Bytes :=
  magic ++ ([version] ++ (reserved ++ (toBE 4 packets.length ++ recs packets)))

/-- As many packets, as large, as a bundle may have. -/
def Fits (packets : List Bytes) : Prop := packets.length ≤ maxPackets ∧ ∀ p ∈ packets, p.length ≤ maxPacket

variable {sha256} {packets : List Bytes} {data reserved : Bytes}

theorem length_bodyWith (h : reserved.length = 3) :
    (bodyWith reserved packets).length = headerSize + (recs packets).length := by
  simp only [bodyWith, List.length_append, length_toBE, h, magic, headerSize, List.length_cons, List.length_nil]
  omega

theorem pack_ok : pack sha256 packets = .ok data ↔
    Fits packets ∧ data = bodyWith [0, 0, 0] packets ++ sha256 (bodyWith [0, 0, 0] packets) := by
  have hbody : header packets.length ++ recs packets = bodyWith [0, 0, 0] packets := List.append_assoc _ _ _
  unfold pack
  rw [hbody]
  split_ifs with hmany hlarge
  · exact ⟨fun h => (nomatch h), fun h => absurd h.1.1 (not_le.mpr hmany)⟩
  · obtain ⟨p, hp, hlong⟩ := List.any_eq_true.mp hlarge
    exact ⟨fun h => (nomatch h), fun h => absurd (h.1.2 p hp) (not_le.mpr (of_decide_eq_true hlong))⟩
  · have hfits : Fits packets := ⟨not_lt.mp hmany, fun p hp => by
      by_contra hlong
      exact hlarge (List.any_eq_true.mpr ⟨p, hp, decide_eq_true (not_le.mp hlong)⟩)⟩
    exact ⟨fun h => ⟨hfits, (Except.ok.inj h).symm⟩, fun h => congrArg Except.ok h.2.symm⟩

theorem drop_bodyWith (h : reserved.length = 3) :
    (bodyWith reserved packets).drop 12 = toBE 4 packets.length ++ recs packets := by
  have hwhole : From (bodyWith reserved packets) 0 (bodyWith reserved packets) := From.start _
  exact (((hwhole.next (n := 8) rfl).next (n := 1) rfl).next h).drop

theorem body_front {r : Bytes} {ps qs : List Bytes} (hr : r.length = 3) (hr' : reserved.length = 3)
    (hps : Fits ps) (hqs : Fits qs) (h : bodyWith r ps <+: bodyWith reserved qs) : ps = qs := by
  obtain ⟨more, hmore⟩ := h.drop 12
  rw [drop_bodyWith hr, drop_bodyWith hr', List.append_assoc] at hmore
  obtain ⟨hcount, hrecs⟩ := List.append_inj hmore (by rw [length_toBE, length_toBE])
  have hlt : ∀ {n}, n ≤ maxPackets → n < 256 ^ 4 := fun h => Nat.lt_of_le_of_lt h (by decide)
  exact recs_prefix (toBE_inj (hlt hps.1) (hlt hqs.1) hcount) hps.2 hqs.2 ⟨more, hrecs⟩

/-- The parts of a header, and what follows it. -/
theorem parts (d : Bytes) :
    d = slice d 0 8 ++ (slice d 8 1 ++ (slice d 9 3 ++ (slice d 12 4 ++ d.drop headerSize))) := by
  have hdrop : ∀ off n, slice d off n ++ d.drop (off + n) = d.drop off := by
    intro off n
    rw [slice, ← List.drop_drop, List.take_append_drop]
  rw [headerSize, hdrop 12 4, hdrop 9 3, hdrop 8 1, hdrop 0 8, List.drop_zero]

/-- **What `unpack` takes**: a body, with anything in the reserved bytes, and its digest. -/
theorem unpack_ok (hsha : ∀ b, (sha256 b).length = digestLen) : unpack sha256 data = .ok packets ↔
    data.length ≤ maxBundle ∧ Fits packets ∧ ∃ reserved : Bytes, reserved.length = 3 ∧
      data = bodyWith reserved packets ++ sha256 (bodyWith reserved packets) := by
  constructor
  · intro h
    unfold unpack at h
    split_ifs at h with hlong hshort hmagic hversion hcount hsum
    cases hmore : takeRecords (field data 12 4) ((bodyOf data).drop headerSize) with
    | error e =>
      rw [hmore] at h
      cases h
    | ok r =>
      rw [hmore] at h
      obtain ⟨more, left⟩ := r
      replace h : (if left = [] then Except.ok more else .error BundleError.trailing) = .ok packets := h
      split_ifs at h with hleft
      subst hleft
      cases h
      obtain ⟨hn, hsmall, hrecs⟩ := takeRecords_ok.mp hmore
      unfold headerSize digestLen at hshort
      have hcut : ∀ off n, off + n ≤ 16 → slice (bodyOf data) off n = slice data off n := by
        intro off n hle
        rw [slice, slice, bodyOf, List.drop_take, List.take_take, Nat.min_eq_left]
        unfold digestLen
        omega
      have hfield : slice data 12 4 = toBE 4 packets.length := by
        have hback := toBE_ofBE (slice data 12 4)
        rw [length_slice (by omega)] at hback
        rw [← hback, hn, field]
      have hbody : bodyOf data = bodyWith (slice data 9 3) packets := by
        have hparts := parts (bodyOf data)
        rwa [hcut 0 8 (by decide), hcut 8 1 (by decide), hcut 9 3 (by decide), hcut 12 4 (by decide),
          not_not.mp hmagic, not_not.mp hversion, hfield, hrecs, List.append_nil] at hparts
      have hdata : data = bodyOf data ++ sha256 (bodyOf data) := by
        rw [not_not.mp hsum]
        exact (List.take_append_drop _ _).symm
      rw [hbody] at hdata
      exact ⟨not_lt.mp hlong, ⟨hn ▸ not_lt.mp hcount, hsmall⟩, _, length_slice (by omega), hdata⟩
  · rintro ⟨hlong, ⟨hmany, hsmall⟩, reserved, hreserved, hdata⟩
    have hlen : data.length = (bodyWith reserved packets).length + digestLen := by
      rw [hdata, List.length_append, hsha]
    have hbody : bodyOf data = bodyWith reserved packets := by
      rw [bodyOf, hlen, Nat.add_sub_cancel, hdata, List.take_left' rfl]
    have hdigest : data.drop (data.length - digestLen) = sha256 (bodyOf data) := by
      rw [hbody, hlen, Nat.add_sub_cancel, hdata, List.drop_left' rfl]
    have h0 : From data 0 (magic ++ ([version] ++ (reserved ++ (toBE 4 packets.length ++
        (recs packets ++ sha256 (bodyWith reserved packets)))))) := by
      refine ⟨Nat.zero_le _, ?_⟩
      rw [List.drop_zero, hdata, bodyWith]
      simp only [List.append_assoc]
    have hmagic : slice data 0 8 = magic := h0.slice rfl
    have h8 : From data 8 _ := h0.next rfl
    have hversion : slice data 8 1 = [version] := h8.slice rfl
    have h12 : From data 12 _ := (h8.next (n := 1) rfl).next hreserved
    have hrest : (bodyOf data).drop headerSize = recs packets ++ [] := by
      rw [hbody, List.append_nil]
      exact drop_of_drop (drop_bodyWith hreserved) (length_toBE 4 _)
    unfold unpack
    rw [if_neg (not_lt.mpr hlong),
      if_neg (by rw [hlen, length_bodyWith hreserved]; omega), if_neg (not_not.mpr hmagic),
      if_neg (not_not.mpr hversion), h12.field (Nat.lt_of_le_of_lt hmany (by decide)),
      if_neg (not_lt.mpr hmany), if_neg (not_not.mpr hdigest.symm), takeRecords_ok.mpr ⟨rfl, hsmall, hrest⟩]
    rfl

/-! ### Round trips -/

/-- **Bundles read back.** What is packed within the ceiling is unpacked to the same packets; what is unpacked, with
its reserved bytes zero, packs to the same bytes; and a bundle that is cut, or that goes on, is refused. -/
theorem bundle_round_trip (hsha : ∀ b, (sha256 b).length = digestLen) :
    (∀ packets data, pack sha256 packets = .ok data → data.length ≤ maxBundle → unpack sha256 data = .ok packets) ∧
    (∀ packets data, unpack sha256 data = .ok packets → slice data 9 3 = [0, 0, 0] → pack sha256 packets = .ok data) ∧
    ∀ packets data d, pack sha256 packets = .ok data → d <+: data ∨ data <+: d → d ≠ data →
      ∃ e, unpack sha256 d = .error e := by
  refine ⟨fun packets data h hlong => ?_, fun packets data h hzero => ?_, fun packets data d h hd hne => ?_⟩
  · obtain ⟨hfits, hdata⟩ := pack_ok.mp h
    exact (unpack_ok hsha).mpr ⟨hlong, hfits, _, rfl, hdata⟩
  · obtain ⟨-, hfits, reserved, hreserved, hdata⟩ := (unpack_ok hsha).mp h
    obtain rfl : reserved = [0, 0, 0] := by
      rw [← hzero, hdata]
      show reserved = ((reserved ++ (toBE 4 packets.length ++ recs packets)) ++ _).take 3
      rw [List.append_assoc, List.take_left' hreserved]
    exact pack_ok.mpr ⟨hfits, hdata⟩
  · obtain ⟨⟨hmany, hsmall⟩, hdata⟩ := pack_ok.mp h
    cases hun : unpack sha256 d with
    | error e => exact ⟨e, rfl⟩
    | ok ps =>
      obtain ⟨-, ⟨hmany', hsmall'⟩, reserved, hreserved, hdata'⟩ := (unpack_ok hsha).mp hun
      have hlen : ∀ {b : Bytes}, b.length = headerSize + (recs packets).length →
          (b ++ sha256 b).length = headerSize + (recs packets).length + digestLen := by
        intro b hb
        rw [List.length_append, hb, hsha]
      have hsame : ps = packets := by
        have hbodies : bodyWith reserved ps <+: bodyWith [0, 0, 0] packets ∨
            bodyWith [0, 0, 0] packets <+: bodyWith reserved ps := by
          have hleft := List.prefix_append (bodyWith reserved ps) (sha256 (bodyWith reserved ps))
          have hright := List.prefix_append (bodyWith [0, 0, 0] packets) (sha256 (bodyWith [0, 0, 0] packets))
          rw [← hdata'] at hleft
          rw [← hdata] at hright
          rcases hd with hd | hd
          · exact List.prefix_or_prefix_of_prefix (hleft.trans hd) hright
          · exact List.prefix_or_prefix_of_prefix hleft (hright.trans hd)
        rcases hbodies with hbodies | hbodies
        · exact body_front hreserved rfl ⟨hmany', hsmall'⟩ ⟨hmany, hsmall⟩ hbodies
        · exact (body_front rfl hreserved ⟨hmany, hsmall⟩ ⟨hmany', hsmall'⟩ hbodies).symm
      subst hsame
      have heq : d.length = data.length := by
        rw [hdata, hdata', hlen (length_bodyWith hreserved), hlen (length_bodyWith rfl)]
      rcases hd with hd | hd
      · exact absurd (hd.eq_of_length heq) hne
      · exact absurd (hd.eq_of_length heq.symm).symm hne

/-- The digest of a sample: the length of what it is of. -/
def lengthDigest (b : Bytes) : Bytes := toBE 32 b.length

/-- A bundle of no packets with a reserved byte that is not zero is taken, and packs to something else. -/
theorem reserved_not_read :
    unpack lengthDigest (bodyWith [0, 0, 1] [] ++ lengthDigest (bodyWith [0, 0, 1] [])) = .ok [] ∧
      pack lengthDigest [] ≠ .ok (bodyWith [0, 0, 1] [] ++ lengthDigest (bodyWith [0, 0, 1] [])) := by
  refine ⟨(unpack_ok fun b => length_toBE 32 b.length).mpr ⟨by decide, ?_, [0, 0, 1], rfl, rfl⟩, fun h => ?_⟩
  · exact ⟨Nat.zero_le _, fun p hp => (nomatch hp)⟩
  · obtain ⟨hbody, -⟩ := List.append_inj (pack_ok.mp h).2 rfl
    exact absurd hbody (by decide)

theorem bundle_round_trip_sample : unpack lengthDigest (bodyWith [0, 0, 0] [[7]] ++ lengthDigest (bodyWith [0, 0, 0] [[7]])) =
    .ok [[7]] :=
  (bundle_round_trip fun b => length_toBE 32 b.length).1 [[7]] _
    (pack_ok.mpr ⟨⟨by decide, by decide⟩, rfl⟩) (by decide)

end NMesh.Spool.Bundle
