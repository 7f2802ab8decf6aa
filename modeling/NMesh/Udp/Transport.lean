import NMesh.Base.Reading
import NMesh.Relay.Header
import NMesh.Udp.Accounting
import NMesh.Udp.Closing

/-! # From datagrams to packets

`UDPTransport` is one end of a UDP link above its reliable link: the packets decoded and not yet received,
and how many bytes they were. `processFrame` takes a datagram: its acknowledgment goes to the send side,
a FIN closes the transport, a data frame the queue has no room for is refused before it is acknowledged,
and any other goes to the receive side, whose packets are queued. `receive` takes one packet off.

`Stored` bounds the two buffers of the receive side, and `released_le` the bytes one frame can release:
the packet being rebuilt with the frame itself, unless it is dropped for its size, and the whole
out-of-order buffer. -/

namespace NMesh.Udp.Transport

open Base.BigEndian Base.Ordered Base.Reading Base.Weights
open NMesh.Udp.Wire NMesh.Udp.Link NMesh.Udp.Closing
open NMesh.Relay.Header (Hashes Packet)

def maxDecodedBytes : ℕ := 2 * 1024 * 1024

/-- What the queue may hold when a frame has released the out-of-order buffer. -/
def queueBound : ℕ := maxDecodedBytes + maxReorderBytes + maxPayload

/-- One end of a link, as far as arriving datagrams concern it. -/
structure UDPTransport (H : Hashes) where
  link : ReliableLink
  peerReassembles : Bool
  decoded : List (Packet H)
  decodedBytes : ℤ
  undecodable : ℕ
  closed : Bool

variable {H : Hashes}

def packedLength (p : Packet H) : ℕ := headerSize + p.payload.length

/-! ### Datagrams -/

/-- Read a datagram: the magic number, the header `!IIIBH` and a payload of the length it gives. -/
def readFrame (data : Bytes) : Option Frame :=
  if data.length < magic.length + frameSize ∨ data.take magic.length ≠ magic then none
  else
    let header := slice data magic.length frameSize
    let payload := data.drop (magic.length + frameSize)
    if payload.length ≠ field header 13 2 then none
    else some ⟨field header 0 4, field header 4 4, field header 8 4, field header 12 1, payload⟩

def writeFrame (f : Frame) : Bytes :=
  magic ++ (toBE 4 f.seq ++ (toBE 4 f.ack ++ (toBE 4 f.sack ++
    (toBE 1 f.flags ++ (toBE 2 f.payload.length ++ f.payload)))))

/-- The fields fit the header. -/
structure Fits (f : Frame) : Prop where
  seq : f.seq < 4294967296
  ack : f.ack < 4294967296
  sack : f.sack < 4294967296
  flags : f.flags < 256
  payload : f.payload.length < 65536

theorem readFrame_writeFrame {f : Frame} (h : Fits f) : readFrame (writeFrame f) = some f := by
  obtain ⟨header, hheader⟩ : ∃ header, header = toBE 4 f.seq ++ (toBE 4 f.ack ++ (toBE 4 f.sack ++
      (toBE 1 f.flags ++ (toBE 2 f.payload.length ++ [])))) := ⟨_, rfl⟩
  have hsize : header.length = frameSize := by
    rw [hheader]
    simp only [List.length_append, length_toBE, frameSize, List.length_nil]
  have hwhole : From (writeFrame f) 0 (magic ++ (header ++ f.payload)) := by
    refine ⟨Nat.zero_le _, ?_⟩
    rw [hheader, List.drop_zero, writeFrame]
    simp only [List.append_assoc, List.nil_append]
  have hafter : From (writeFrame f) magic.length (header ++ f.payload) := hwhole.next rfl
  have hlong : ¬ ((writeFrame f).length < magic.length + frameSize ∨
      (writeFrame f).take magic.length ≠ magic) :=
    not_or.mpr ⟨not_lt.mpr (hafter.fits hsize), not_not.mpr (hwhole.slice rfl)⟩
  have h0 := From.start header
  nth_rewrite 2 [hheader] at h0
  have h4 := h0.next (length_toBE ..)
  have h8 := h4.next (length_toBE ..)
  have h12 := h8.next (length_toBE ..)
  have h13 : From header 13 (toBE 2 f.payload.length ++ []) := h12.next (length_toBE ..)
  unfold readFrame
  rw [if_neg hlong]
  dsimp only
  rw [hafter.slice hsize, (hafter.next hsize).drop, h13.field h.payload, if_neg (not_not.mpr rfl), h0.field h.seq,
    show field header 4 4 = _ from h4.field h.ack, show field header 8 4 = _ from h8.field h.sack,
    show field header 12 1 = _ from h12.field h.flags]

/-- **What is read as a frame is what is written as one.** -/
theorem readFrame_iff {data : Bytes} {f : Frame} :
    readFrame data = some f ↔ Fits f ∧ data = writeFrame f := by
  refine ⟨fun h => ?_, fun h => h.2 ▸ readFrame_writeFrame h.1⟩
  unfold readFrame at h
  split_ifs at h with hbegin
  obtain ⟨hlong, hmagic⟩ := not_or.mp hbegin
  obtain ⟨header, hheader⟩ : ∃ header, header = slice data magic.length frameSize := ⟨_, rfl⟩
  have hsize : header.length = 15 := hheader ▸ length_slice (not_lt.mp hlong)
  rw [← hheader] at h
  dsimp only at h
  split_ifs at h with hlength
  obtain rfl := Option.some.inj h
  have hpayload := not_not.mp hlength
  refine ⟨⟨field_lt (by omega), field_lt (by omega), field_lt (by omega), field_lt (by omega),
    hpayload ▸ field_lt (by omega)⟩, ?_⟩
  -- the header is its five numbers
  have hfields : header = toBE 4 (field header 0 4) ++ (toBE 4 (field header 4 4) ++
      (toBE 4 (field header 8 4) ++ (toBE 1 (field header 12 1) ++ toBE 2 (field header 13 2)))) := by
    rw [← List.append_nil (toBE 2 _), ← List.drop_of_length_le hsize.le, ← drop_field (by omega),
      ← drop_field (by omega), ← drop_field (by omega), ← drop_field (by omega),
      ← drop_field (by omega), List.drop_zero]
  calc data = data.take magic.length ++ data.drop magic.length := (List.take_append_drop ..).symm
    _ = magic ++ (header ++ data.drop (magic.length + frameSize)) := by
      rw [not_not.mp hmagic, hheader, slice, ← List.drop_drop, List.take_append_drop]
    _ = _ := by
      nth_rewrite 1 [hfields]
      simp only [writeFrame, hpayload, List.append_assoc]

/-! ### Arrivals -/

namespace UDPTransport

/-- The transport of a new link, whatever its send side has done. -/
def new (H : Hashes) (snd : SendSide) : UDPTransport H := ⟨⟨snd, RecvSide.new⟩, false, [], 0, 0, false⟩

/-- Learn that the far end reassembles, from a frame it could have sent. -/
def noteSegments (t : UDPTransport H) (frame : Frame) : UDPTransport H :=
  if frame.has flagSegments ∧ t.peerReassembles = false ∧
      (t.link.rcv.recvStarted = false ∨ mask32 (frame.seq - t.link.rcv.recvNext) < maxUnacked) then
    { t with peerReassembles := true }
  else t

def peerFinished (t : UDPTransport H) : UDPTransport H := { t with closed := true }

def noteArrival (t : UDPTransport H) (now : ℚ) : UDPTransport H :=
  { t with link.rcv := { t.link.rcv with lastRecvTime := now, keepaliveMisses := 0 } }

def queue (t : UDPTransport H) (raw : Bytes) : UDPTransport H :=
  match Packet.unpack H raw with
  | .error _ => { t with undecodable := t.undecodable + 1 }
  | .ok packet =>
    if (queueBound : ℤ) < t.decodedBytes + raw.length then t
    else { t with decoded := t.decoded ++ [packet], decodedBytes := t.decodedBytes + raw.length }

/-- What the receive side releases for a frame that is not refused. A data frame without payload is
dropped. -/
def release (maxReorder : ℕ) (t : UDPTransport H) (frame : Frame) (now : ℚ) : RecvSide × List Bytes :=
  if frame.payload ≠ [] ∨ ¬ frame.has flagData then t.link.rcv.processIncoming maxReorder frame now
  else (t.link.rcv, [])

/-- Is the frame refused, since the queue has no room for it? -/
def refuses (t : UDPTransport H) (frame : Frame) : Prop :=
  frame.payload ≠ [] ∧ frame.has flagData ∧ (maxDecodedBytes : ℤ) < t.decodedBytes + frame.payload.length

instance (t : UDPTransport H) (frame : Frame) : Decidable (t.refuses frame) := by
  unfold refuses; infer_instance

def take (maxReorder : ℕ) (t : UDPTransport H) (frame : Frame) (now : ℚ) : UDPTransport H × List Frame :=
  let (snd, resent) := t.link.snd.processAck frame.ack frame.sack now
  let t := { t with link.snd := snd }.noteSegments frame
  if frame.has flagFin then
    if RecvSide.acceptsFin t.link.rcv frame.seq then (t.peerFinished, resent) else (t, resent)
  else if t.refuses frame then (t.noteArrival now, resent)
  else
    let (rcv, delivered) := t.release maxReorder frame now
    let t := delivered.foldl queue { t with link.rcv := rcv }
    if t.link.rcv.ackPending then
      let t := { t with link.rcv := { t.link.rcv with ackPending := false } }
      (t, resent ++ [t.link.buildAckOnly])
    else (t, resent)

def processFrame (maxReorder : ℕ) (t : UDPTransport H) (data : Bytes) (now : ℚ) :
    UDPTransport H × List Frame :=
  match readFrame data with
  | none => (t, [])
  | some frame => t.take maxReorder frame now

def receive (t : UDPTransport H) : UDPTransport H × Option (Packet H) :=
  match t.decoded with
  | [] => (t, none)
  | packet :: rest =>
    ({ t with decoded := rest, decodedBytes := t.decodedBytes - packedLength packet }, some packet)

end UDPTransport

/-! ### Runs -/

/-- What happens to a transport: a datagram arrives, the reader takes a packet, or the send side frames,
resends or reads an acknowledgment. -/
inductive Op
  | datagram (data : Bytes) (now : ℚ)
  | receive
  | send (op : Accounting.Op)

def step (maxReorder : ℕ) (t : UDPTransport H) : Op → UDPTransport H
  | .datagram data now => (t.processFrame maxReorder data now).1
  | .receive => t.receive.1
  | .send op => { t with link := Accounting.step t.link op }

/-! ### What unpacks -/

theorem init_spec (version type : UInt8) (ttl : ℤ) (srcId dstId nonce gcmTag : Bytes)
    (msgId : Option UInt64) (payload : Bytes) (hs : srcId.length = 20) (hd : dstId.length = 20)
    (hn : nonce.length = 12) (ht : gcmTag.length = 16) :
    (∀ p, Packet.init H version type ttl srcId dstId msgId nonce gcmTag payload = .ok p →
      p.payload = payload) ∧
    (payload.length ≤ maxPayload →
      ∃ p, Packet.init H version type ttl srcId dstId msgId nonce gcmTag payload = .ok p) := by
  unfold Packet.init
  rw [dif_pos hs, dif_pos hd, dif_pos hn, dif_pos ht]
  by_cases hp : payload.length ≤ NMesh.Relay.Header.maxPayload
  · rw [dif_pos hp]
    exact ⟨fun p h => by rw [← Except.ok.inj h], fun _ => ⟨_, rfl⟩⟩
  · rw [dif_neg hp]
    exact ⟨fun p h => (by cases h), fun h => absurd h hp⟩

/-- **A string unpacks if it is of a packet's length**, and the packet has that length. -/
theorem unpack_spec (raw : Bytes) :
    (∀ p, Packet.unpack H raw = .ok p → packedLength p = raw.length) ∧
      (headerSize ≤ raw.length → raw.length ≤ headerSize + maxPayload →
        ∃ p, Packet.unpack H raw = .ok p) := by
  unfold Packet.unpack
  by_cases hshort : raw.length < NMesh.Relay.Header.headerSize
  · rw [if_pos hshort]
    exact ⟨fun p h => (by cases h), fun h => absurd h (not_le.mpr hshort)⟩
  · rw [if_neg hshort]
    have hlong : 79 ≤ raw.length := not_lt.mp hshort
    match raw, hlong with
    | version :: type :: ttl :: rest, hlong =>
      have hrest : 76 ≤ rest.length := by
        simp only [List.length_cons] at hlong
        omega
      obtain ⟨h1, h2⟩ := init_spec (H := H) version type ttl.toNat (rest.take 20)
        ((rest.drop 20).take 20) ((rest.drop 48).take 12) ((rest.drop 60).take 16)
        (some (UInt64.ofNat (ofBE ((rest.drop 40).take 8)))) (rest.drop 76)
        (by rw [List.length_take]; omega)
        (by rw [List.length_take, List.length_drop]; omega)
        (by rw [List.length_take, List.length_drop]; omega)
        (by rw [List.length_take, List.length_drop]; omega)
      refine ⟨fun p h => ?_, fun _ hle => h2 ?_⟩
      · rw [packedLength, h1 p h, List.length_drop, headerSize, List.length_cons, List.length_cons,
          List.length_cons]
        omega
      · simp only [List.length_cons, headerSize] at hle
        rw [List.length_drop]
        omega

/-! ### What the receive side stores -/

def total (raws : List Bytes) : ℕ := (raws.map List.length).sum

abbrev pieceLength (piece : Bytes × Bool) : ℕ := piece.1.length

/-- **The two buffers of the receive side**: their counters are right and within their bounds. -/
structure Stored (maxReorder : ℕ) (r : RecvSide) : Prop where
  size : r.reorder.size ≤ maxReorder
  bytes : r.reorderBytes = weight pieceLength r.reorder
  bytes_le : r.reorderBytes ≤ maxReorderBytes
  parts : r.partialBytes = total r.parts
  parts_le : r.partialBytes ≤ headerSize + maxPayload

variable {maxReorder : ℕ} {r : RecvSide}

theorem stored_new (maxReorder : ℕ) : Stored maxReorder RecvSide.new :=
  ⟨Nat.zero_le _, rfl, by decide, rfl, Nat.zero_le _⟩

theorem total_concat (raws : List Bytes) (raw : Bytes) : total (raws ++ [raw]) = total raws + raw.length := by
  simp [total]

/-- The weight of a packet's last frames, or nothing if the packet is dropped. -/
def share (r : RecvSide) (payload : Bytes) : ℕ :=
  if r.partialSpoilt || decide (headerSize + maxPayload < r.partialBytes + payload.length) then 0
  else r.partialBytes + payload.length

theorem share_le (r : RecvSide) (payload : Bytes) : share r payload ≤ r.partialBytes + payload.length := by
  unfold share
  split_ifs
  · exact Nat.zero_le _
  · exact le_rfl

theorem reassemble_stored (h : Stored maxReorder r) (payload : Bytes) (more : Bool)
    (delivered : List Bytes) :
    Stored maxReorder (r.reassemble payload more delivered).1 ∧
      total (r.reassemble payload more delivered).2 + (r.reassemble payload more delivered).1.partialBytes ≤
        total delivered + share r payload := by
  unfold RecvSide.reassemble share
  dsimp only
  by_cases hdrop : (r.partialSpoilt || decide (headerSize + maxPayload < r.partialBytes + payload.length)) = true
  · rw [if_pos hdrop, if_pos hdrop]
    exact ⟨⟨h.size, h.bytes, h.bytes_le, rfl, Nat.zero_le _⟩, le_rfl⟩
  · have hle : r.partialBytes + payload.length ≤ headerSize + maxPayload := by
      rw [Bool.or_eq_true, decide_eq_true_eq, not_or] at hdrop
      exact not_lt.mp hdrop.2
    have hparts := total_concat r.parts payload
    rw [if_neg hdrop, if_neg hdrop]
    by_cases hwhole : (!more && r.parts.isEmpty) = true
    · rw [if_pos hwhole]
      refine ⟨⟨h.size, h.bytes, h.bytes_le, h.parts, h.parts_le⟩, ?_⟩
      rw [total_concat]
      change _ + r.partialBytes ≤ _
      omega
    · rw [if_neg hwhole]
      by_cases hlast : (!more) = true
      · rw [if_pos hlast]
        refine ⟨⟨h.size, h.bytes, h.bytes_le, rfl, Nat.zero_le _⟩, ?_⟩
        have hjoin : (r.parts ++ [payload]).flatten.length = total (r.parts ++ [payload]) :=
          List.length_flatten
        rw [total_concat, hjoin, hparts, h.parts]
        exact le_rfl
      · rw [if_neg hlast]
        exact ⟨⟨h.size, h.bytes, h.bytes_le, by rw [hparts, h.parts], hle⟩, le_rfl⟩

theorem Stored.pop (h : Stored maxReorder r) {k : ℕ} {piece : Bytes × Bool}
    (hget : r.reorder.get? k = some piece) :
    Stored maxReorder { r with
      reorder := r.reorder.pop k
      reorderBytes := r.reorderBytes - piece.1.length } := by
  have hw : weight pieceLength (r.reorder.pop k) + piece.1.length = weight pieceLength r.reorder :=
    weight_pop pieceLength hget
  have hb := h.bytes
  have hle := h.bytes_le
  refine ⟨(Dict.size_pop_le _ _).trans h.size, ?_, ?_, h.parts, h.parts_le⟩
  · change r.reorderBytes - (piece.1.length : ℤ) = (weight pieceLength (r.reorder.pop k) : ℕ)
    omega
  · change r.reorderBytes - (piece.1.length : ℤ) ≤ _
    omega

theorem flush_stored : ∀ (n : ℕ) {r : RecvSide} (delivered : List Bytes), Stored maxReorder r →
    Stored maxReorder (r.flush n delivered).1 ∧
      total (r.flush n delivered).2 + (r.flush n delivered).1.partialBytes +
          weight pieceLength (r.flush n delivered).1.reorder ≤
        total delivered + r.partialBytes + weight pieceLength r.reorder
  | 0, _, _, h => ⟨h, le_rfl⟩
  | n + 1, r, delivered, h => by
    cases hget : r.reorder.get? r.recvNext with
    | none =>
      simp only [RecvSide.flush, hget]
      exact ⟨h, le_rfl⟩
    | some piece =>
      obtain ⟨buffered, more⟩ := piece
      simp only [RecvSide.flush, hget]
      have hw : weight pieceLength (r.reorder.pop r.recvNext) + buffered.length =
          weight pieceLength r.reorder := weight_pop pieceLength hget
      have hpop : Stored maxReorder { r with
          reorder := r.reorder.pop r.recvNext
          reorderBytes := r.reorderBytes - buffered.length } := h.pop hget
      obtain ⟨h1, h2⟩ := reassemble_stored hpop buffered more delivered
      have hshare := h2.trans (Nat.add_le_add_left (share_le _ buffered) (total delivered))
      have hsame := (Receive.reassemble_spec { r with
        reorder := r.reorder.pop r.recvNext
        reorderBytes := r.reorderBytes - buffered.length } buffered more delivered).2.2.1
      set q := RecvSide.reassemble { r with
        reorder := r.reorder.pop r.recvNext
        reorderBytes := r.reorderBytes - buffered.length } buffered more delivered
      have hmoved : Stored maxReorder { q.1 with recvNext := mask32 (q.1.recvNext + 1) } :=
        ⟨h1.size, h1.bytes, h1.bytes_le, h1.parts, h1.parts_le⟩
      obtain ⟨ih1, ih2⟩ := flush_stored n q.2 hmoved
      refine ⟨ih1, ih2.trans ?_⟩
      change total q.2 + q.1.partialBytes + weight pieceLength q.1.reorder ≤ _
      change total q.2 + q.1.partialBytes ≤ total delivered + (r.partialBytes + buffered.length) at hshare
      rw [hsame]
      change _ + weight pieceLength (r.reorder.pop r.recvNext) ≤ _
      omega

theorem acceptNext_stored (h : Stored maxReorder r) (payload : Bytes) (more : Bool) :
    Stored maxReorder (r.acceptNext payload more).1 ∧
      total (r.acceptNext payload more).2 ≤ share r payload + weight pieceLength r.reorder := by
  have hmoved : Stored maxReorder { r with recvNext := mask32 (r.recvNext + 1) } :=
    ⟨h.size, h.bytes, h.bytes_le, h.parts, h.parts_le⟩
  obtain ⟨h1, h2⟩ := reassemble_stored hmoved payload more []
  have hsame := (Receive.reassemble_spec { r with recvNext := mask32 (r.recvNext + 1) } payload more []).2.2.1
  set q := RecvSide.reassemble { r with recvNext := mask32 (r.recvNext + 1) } payload more []
  obtain ⟨h3, h4⟩ := flush_stored q.1.reorder.size q.2 h1
  refine ⟨⟨h3.size, h3.bytes, h3.bytes_le, h3.parts, h3.parts_le⟩, ?_⟩
  change total (q.1.flush q.1.reorder.size q.2).2 ≤ _
  change total q.2 + q.1.partialBytes ≤ 0 + share r payload at h2
  have hw : weight pieceLength q.1.reorder = weight pieceLength r.reorder := by rw [hsame]
  omega

theorem bufferAhead_stored (h : Stored maxReorder r) (seq : ℕ) (payload : Bytes) (more : Bool) :
    Stored maxReorder (r.bufferAhead maxReorder seq payload more) := by
  unfold RecvSide.bufferAhead
  dsimp only
  by_cases hroom : r.reorder.get? seq = none ∧ r.reorder.size < maxReorder ∧
      r.reorderBytes + payload.length ≤ maxReorderBytes
  · rw [if_pos hroom]
    obtain ⟨hnone, hsize, hle⟩ := hroom
    have hnot := Dict.get?_eq_none.mp hnone
    have hw : weight pieceLength (r.reorder.set seq (payload, more)) =
        weight pieceLength r.reorder + payload.length := weight_set_of_notMem pieceLength hnot _
    have hb := h.bytes
    refine ⟨?_, ?_, hle, h.parts, h.parts_le⟩
    · change (r.reorder.set seq (payload, more)).size ≤ maxReorder
      rw [Dict.size_set_of_notMem hnot]
      exact hsize
    · change r.reorderBytes + (payload.length : ℤ) = (weight pieceLength (r.reorder.set seq _) : ℕ)
      omega
  · rw [if_neg hroom]
    exact ⟨h.size, h.bytes, h.bytes_le, h.parts, h.parts_le⟩

/-- Does the frame stand at the cursor? The first one always does. -/
def AtCursor (r : RecvSide) (frame : Frame) : Prop :=
  r.recvStarted = true → mask32 (frame.seq - r.recvNext) = 0

instance (r : RecvSide) (frame : Frame) : Decidable (AtCursor r frame) := by
  unfold AtCursor; infer_instance

/-- **What a frame releases**: nothing, or, at the cursor, its share and the out-of-order buffer. -/
theorem processIncoming_stored (h : Stored maxReorder r) (frame : Frame) (now : ℚ) :
    Stored maxReorder (r.processIncoming maxReorder frame now).1 ∧
      ((r.processIncoming maxReorder frame now).2 = [] ∨ AtCursor r frame ∧
        total (r.processIncoming maxReorder frame now).2 ≤
          share r frame.payload + weight pieceLength r.reorder) := by
  set q := RecvSide.learn { r with lastRecvTime := now, keepaliveMisses := 0 } frame.seq with hq
  have hkeep : Stored maxReorder q ∧ share q frame.payload = share r frame.payload ∧
      q.reorder = r.reorder ∧ (mask32 (frame.seq - q.recvNext) = 0 → AtCursor r frame) := by
    rw [hq]
    unfold RecvSide.learn
    split_ifs with hst
    · exact ⟨⟨h.size, h.bytes, h.bytes_le, h.parts, h.parts_le⟩, rfl, rfl, fun h0 _ => h0⟩
    · exact ⟨⟨h.size, h.bytes, h.bytes_le, h.parts, h.parts_le⟩, rfl, rfl, fun _ hst' => absurd hst' hst⟩
  obtain ⟨hs, hshare, hsame, hat⟩ := hkeep
  rw [RecvSide.processIncoming_eq maxReorder hq]
  by_cases hctl : frame.has (flagAckOnly ||| flagKeepalive ||| flagFin) = true
  · rw [if_pos hctl]
    exact ⟨hs, Or.inl rfl⟩
  · rw [if_neg hctl]
    by_cases hzero : mask32 (frame.seq - q.recvNext) = 0
    · rw [if_pos hzero]
      obtain ⟨h1, h2⟩ := acceptNext_stored hs frame.payload (frame.has flagMore)
      rw [hshare, hsame] at h2
      exact ⟨h1, Or.inr ⟨hat hzero, h2⟩⟩
    · rw [if_neg hzero]
      by_cases hahead : mask32 (frame.seq - q.recvNext) < 0x80000000
      · rw [if_pos hahead]
        exact ⟨bufferAhead_stored hs frame.seq frame.payload (frame.has flagMore), Or.inl rfl⟩
      · rw [if_neg hahead]
        exact ⟨⟨hs.size, hs.bytes, hs.bytes_le, hs.parts, hs.parts_le⟩, Or.inl rfl⟩

end NMesh.Udp.Transport
