import NMesh.Udp.Transport

/-! # What a transport holds

The receive side of a transport is bounded in bytes: the out-of-order buffer, the packet being rebuilt and
the queue of decoded packets (`Held`), whatever arrives. The pieces of the packet being rebuilt are counted
by nobody, and a frame that carries nothing, says that its packet goes on and is marked neither as data nor
as control adds a piece without bytes (`pieces_unbounded`); without such frames their number is bounded by
their bytes (`memory_bounded`).

What the receive side releases has been acknowledged. It is queued whole exactly if it fits the queue
(`queued_iff`), and it does if the frame went through the admission test and the packet being rebuilt was
not too near its own bound. Frames not marked as data do not go through the test (`unmarked_dropped`). -/

namespace NMesh.Udp.Memory

open Base.BigEndian Base.Ordered Base.Runs Base.Weights
open NMesh.Udp.Wire NMesh.Udp.Link NMesh.Udp.Closing NMesh.Udp.Transport UDPTransport RecvSide
open NMesh.Relay.Header (Hashes Packet)

variable {H : Hashes} {maxReorder : ℕ}

def packed (packets : List (Packet H)) : ℕ := (packets.map packedLength).sum

def unpacked (H : Hashes) (raws : List Bytes) : List (Packet H) :=
  raws.filterMap fun raw => (Packet.unpack H raw).toOption

/-- What the receive side releases for a frame: nothing for a FIN or a refused one. -/
def releasedFor (maxReorder : ℕ) (t : UDPTransport H) (frame : Frame) (now : ℚ) : List Bytes :=
  if frame.has flagFin ∨ t.refuses frame then [] else (t.release maxReorder frame now).2

/-- What the receive side releases while a datagram is processed. -/
def releasedBy (maxReorder : ℕ) (t : UDPTransport H) (data : Bytes) (now : ℚ) : List Bytes :=
  match readFrame data with
  | none => []
  | some frame => releasedFor maxReorder t frame now

/-- **What is held is counted, and within the bounds.** -/
structure Held (maxReorder : ℕ) (t : UDPTransport H) : Prop where
  stored : Stored maxReorder t.link.rcv
  bytes : t.decodedBytes = packed t.decoded
  bytes_le : t.decodedBytes ≤ queueBound

theorem held_new (maxReorder : ℕ) (H : Hashes) (snd : SendSide) : Held maxReorder (UDPTransport.new H snd) :=
  ⟨stored_new maxReorder, rfl, Int.natCast_nonneg queueBound⟩

theorem packed_append (ps qs : List (Packet H)) : packed (ps ++ qs) = packed ps + packed qs := by
  simp [packed]

theorem unpacked_error {raw : Bytes} {e : String} (h : Packet.unpack H raw = .error e) (raws : List Bytes) :
    unpacked H (raw :: raws) = unpacked H raws := by simp [unpacked, h, Except.toOption]

theorem unpacked_ok {raw : Bytes} {p : Packet H} (h : Packet.unpack H raw = .ok p) (raws : List Bytes) :
    unpacked H (raw :: raws) = p :: unpacked H raws := by simp [unpacked, h, Except.toOption]

theorem packed_cons (p : Packet H) (ps : List (Packet H)) : packed (p :: ps) = packedLength p + packed ps := rfl

theorem total_cons (raw : Bytes) (raws : List Bytes) : total (raw :: raws) = raw.length + total raws := rfl

theorem packed_unpacked_le : ∀ raws : List Bytes, packed (unpacked H raws) ≤ total raws
  | [] => le_rfl
  | raw :: raws => by
    have ih := packed_unpacked_le raws
    rw [total_cons]
    cases hu : Packet.unpack H raw with
    | error e =>
      rw [unpacked_error hu]
      omega
    | ok p =>
      have hp := (unpack_spec raw).1 p hu
      rw [unpacked_ok hu, packed_cons]
      omega

/-! ### Queueing -/

theorem queue_link (t : UDPTransport H) (raw : Bytes) : (t.queue raw).link = t.link := by
  unfold queue
  cases Packet.unpack H raw with
  | error e => rfl
  | ok p => dsimp only; split_ifs <;> rfl

theorem foldl_queue_link : ∀ (raws : List Bytes) (t : UDPTransport H),
    (raws.foldl queue t).link = t.link
  | [], _ => rfl
  | raw :: raws, t => (foldl_queue_link raws (t.queue raw)).trans (queue_link t raw)

/-- **Queueing keeps the count and the bound**, and appends all there is if it fits. -/
theorem foldl_queue_spec : ∀ (raws : List Bytes) {t : UDPTransport H},
    t.decodedBytes = packed t.decoded → t.decodedBytes ≤ queueBound →
    (raws.foldl queue t).decodedBytes = packed (raws.foldl queue t).decoded ∧
      (raws.foldl queue t).decodedBytes ≤ queueBound ∧
      (t.decodedBytes + packed (unpacked H raws) ≤ queueBound →
        (raws.foldl queue t).decoded = t.decoded ++ unpacked H raws)
  | [], t, hb, hle => ⟨hb, hle, fun _ => (List.append_nil t.decoded).symm⟩
  | raw :: raws, t, hb, hle => by
    rw [List.foldl_cons]
    cases hu : Packet.unpack H raw with
    | error e =>
      have hq : t.queue raw = { t with undecodable := t.undecodable + 1 } := by
        unfold queue; rw [hu]
      rw [hq, unpacked_error hu]
      exact foldl_queue_spec raws (t := { t with undecodable := t.undecodable + 1 }) hb hle
    | ok p =>
      have hp := (unpack_spec raw).1 p hu
      by_cases hfull : (queueBound : ℤ) < t.decodedBytes + raw.length
      · have hq : t.queue raw = t := by
          unfold queue; rw [hu]; exact if_pos hfull
        obtain ⟨h1, h2, -⟩ := foldl_queue_spec raws hb hle
        rw [hq, unpacked_ok hu, packed_cons]
        refine ⟨h1, h2, fun hfit => ?_⟩
        omega
      · have hq : t.queue raw = { t with
            decoded := t.decoded ++ [p]
            decodedBytes := t.decodedBytes + raw.length } := by
          unfold queue; rw [hu]; exact if_neg hfull
        have hnew : t.decodedBytes + raw.length = packed (t.decoded ++ [p]) := by
          rw [packed_append, hb]
          rw [packed_cons, hp]
          rfl
        obtain ⟨h1, h2, h3⟩ := foldl_queue_spec raws (t := { t with
          decoded := t.decoded ++ [p]
          decodedBytes := t.decodedBytes + raw.length }) hnew (not_lt.mp hfull)
        rw [hq, unpacked_ok hu, packed_cons]
        refine ⟨h1, h2, fun hfit => ?_⟩
        rw [h3 (by change t.decodedBytes + (raw.length : ℤ) + _ ≤ _; omega)]
        exact List.append_assoc t.decoded [p] _

/-! ### One datagram -/

theorem noteSegments_same (t : UDPTransport H) (frame : Frame) :
    (t.noteSegments frame).link = t.link ∧ (t.noteSegments frame).decoded = t.decoded ∧
      (t.noteSegments frame).decodedBytes = t.decodedBytes := by
  unfold noteSegments
  split_ifs <;> exact ⟨rfl, rfl, rfl⟩

variable {t : UDPTransport H}

theorem release_stored (h : Stored maxReorder t.link.rcv) (frame : Frame) (now : ℚ) :
    Stored maxReorder (t.release maxReorder frame now).1 := by
  unfold release
  split_ifs
  · exact (processIncoming_stored h frame now).1
  · exact h

/-- **One frame keeps what is held within its bounds**, and what it releases is queued whole if it fits. -/
theorem take_held (h : Held maxReorder t) (frame : Frame) (now : ℚ) :
    Held maxReorder (t.take maxReorder frame now).1 ∧
      (t.decodedBytes + packed (unpacked H (releasedFor maxReorder t frame now)) ≤ queueBound →
        (t.take maxReorder frame now).1.decoded =
          t.decoded ++ unpacked H (releasedFor maxReorder t frame now)) := by
  have hst := h.stored
  unfold take releasedFor
  dsimp only
  obtain ⟨h1, h2, h3⟩ := noteSegments_same
    { t with link := { t.link with snd := (t.link.snd.processAck frame.ack frame.sack now).1 } } frame
  set s := noteSegments
    { t with link := { t.link with snd := (t.link.snd.processAck frame.ack frame.sack now).1 } } frame
  have hrcv : s.link.rcv = t.link.rcv := by rw [h1]
  have hs : Held maxReorder s := ⟨by rw [hrcv]; exact hst, by rw [h2, h3]; exact h.bytes, by
    rw [h3]; exact h.bytes_le⟩
  by_cases hfin : frame.has flagFin = true
  · rw [if_pos hfin, if_pos (Or.inl hfin)]
    refine ⟨?_, fun _ => ?_⟩
    · split_ifs
      · exact ⟨hs.stored, hs.bytes, hs.bytes_le⟩
      · exact hs
    · rw [show unpacked H ([] : List Bytes) = [] from rfl, List.append_nil, ← h2]
      split_ifs <;> rfl
  · have hrefuse : s.refuses frame ↔ t.refuses frame := by
      unfold refuses
      rw [h3]
    rw [if_neg hfin]
    by_cases hfull : t.refuses frame
    · rw [if_pos (hrefuse.mpr hfull), if_pos (Or.inr hfull)]
      refine ⟨⟨?_, hs.bytes, hs.bytes_le⟩, fun _ => ?_⟩
      · exact ⟨hs.stored.size, hs.stored.bytes, hs.stored.bytes_le, hs.stored.parts, hs.stored.parts_le⟩
      · rw [show unpacked H ([] : List Bytes) = [] from rfl, List.append_nil, ← h2]
        rfl
    · have hrelease : s.release maxReorder frame now = t.release maxReorder frame now := by
        unfold release
        rw [hrcv]
      have hnone : ¬ (frame.has flagFin = true ∨ t.refuses frame) := fun hor => hor.elim hfin hfull
      rw [if_neg (fun hn => hfull (hrefuse.mp hn)), if_neg hnone, hrelease]
      obtain ⟨q1, q2, q3⟩ := foldl_queue_spec (t.release maxReorder frame now).2 (t := { s with
        link := { s.link with rcv := (t.release maxReorder frame now).1 } }) hs.bytes hs.bytes_le
      have hlink := foldl_queue_link (t.release maxReorder frame now).2 { s with
        link := { s.link with rcv := (t.release maxReorder frame now).1 } }
      have hstore := release_stored hst frame now
      set u := (t.release maxReorder frame now).2.foldl queue { s with
        link := { s.link with rcv := (t.release maxReorder frame now).1 } }
      have hustore : Stored maxReorder u.link.rcv := by rw [hlink]; exact hstore
      have hdecoded : ∀ hfit : t.decodedBytes + packed (unpacked H (t.release maxReorder frame now).2) ≤
          (queueBound : ℤ), u.decoded = t.decoded ++ unpacked H (t.release maxReorder frame now).2 :=
        fun hfit => by
          rw [q3 (by change s.decodedBytes + _ ≤ _; rw [h3]; exact hfit)]
          change s.decoded ++ _ = _
          rw [h2]
      by_cases hack : u.link.rcv.ackPending = true
      · rw [if_pos hack]
        refine ⟨⟨?_, q1, q2⟩, hdecoded⟩
        exact ⟨hustore.size, hustore.bytes, hustore.bytes_le, hustore.parts, hustore.parts_le⟩
      · rw [if_neg hack]
        exact ⟨⟨hustore, q1, q2⟩, hdecoded⟩

/-! ### Runs -/

theorem send_rcv (l : ReliableLink) (op : Accounting.Op) : (Accounting.step l op).rcv = l.rcv := by
  cases op <;> rfl

theorem receive_held (h : Held maxReorder t) : Held maxReorder t.receive.1 := by
  have hb := h.bytes
  have hle := h.bytes_le
  unfold receive
  cases hd : t.decoded with
  | nil => exact h
  | cons p ps =>
    rw [hd, packed_cons] at hb
    push_cast at hb
    refine ⟨h.stored, ?_, ?_⟩
    · change t.decodedBytes - (packedLength p : ℤ) = (packed ps : ℕ)
      omega
    · change t.decodedBytes - (packedLength p : ℤ) ≤ _
      omega

theorem processFrame_held (h : Held maxReorder t) (data : Bytes) (now : ℚ) :
    Held maxReorder (t.processFrame maxReorder data now).1 ∧
      (t.decodedBytes + packed (unpacked H (releasedBy maxReorder t data now)) ≤ queueBound →
        (t.processFrame maxReorder data now).1.decoded =
          t.decoded ++ unpacked H (releasedBy maxReorder t data now)) := by
  unfold processFrame releasedBy
  cases readFrame data with
  | none => exact ⟨h, fun _ => (List.append_nil t.decoded).symm⟩
  | some frame => exact take_held h frame now

theorem held_step (h : Held maxReorder t) : ∀ op : Op, Held maxReorder (step maxReorder t op)
  | .datagram data now => (processFrame_held h data now).1
  | .receive => receive_held h
  | .send op => ⟨by
      change Stored maxReorder (Accounting.step t.link op).rcv
      rw [send_rcv]
      exact h.stored, h.bytes, h.bytes_le⟩

theorem held_run (H : Hashes) (maxReorder : ℕ) (snd : SendSide) (ops : List Op) :
    Held maxReorder (run (step maxReorder) (UDPTransport.new H snd) ops) :=
  run_induct (P := Held maxReorder) (fun _ op h => held_step h op) ops (held_new maxReorder H snd)

/-! ### What is acknowledged is queued -/

/-- The datagram's frame is marked as data and no shorter than a header, or does not stand at the cursor,
or leaves the queue below its bound with all that is stored. -/
def Fitting (t : UDPTransport H) (data : Bytes) : Prop :=
  ∀ frame, readFrame data = some frame →
    frame.has flagData = true ∧ headerSize ≤ frame.payload.length ∨
    ¬ AtCursor t.link.rcv frame ∨
    t.decodedBytes + t.link.rcv.partialBytes + frame.payload.length + t.link.rcv.reorderBytes ≤ queueBound

theorem share_bound (r : RecvSide) (payload : Bytes) :
    share r payload = 0 ∨ share r payload = r.partialBytes + payload.length ∧
      r.partialBytes + payload.length ≤ headerSize + maxPayload := by
  unfold share
  by_cases hdrop : (r.partialSpoilt || decide (headerSize + maxPayload < r.partialBytes + payload.length)) = true
  · rw [if_pos hdrop]
    exact Or.inl rfl
  · rw [if_neg hdrop]
    rw [Bool.or_eq_true, decide_eq_true_eq, not_or] at hdrop
    exact Or.inr ⟨rfl, not_lt.mp hdrop.2⟩

variable {frame : Frame}

theorem released_fits (h : Held maxReorder t) (now : ℚ)
    (hfit : frame.has flagData = true ∧ headerSize ≤ frame.payload.length ∨
      ¬ AtCursor t.link.rcv frame ∨
      t.decodedBytes + t.link.rcv.partialBytes + frame.payload.length + t.link.rcv.reorderBytes ≤ queueBound) :
    t.decodedBytes + total (releasedFor maxReorder t frame now) ≤ queueBound := by
  have hle := h.bytes_le
  have hbuffer := h.stored.bytes
  have hbuffer_le := h.stored.bytes_le
  unfold releasedFor
  by_cases hnone : frame.has flagFin = true ∨ t.refuses frame
  · rw [if_pos hnone]
    change t.decodedBytes + 0 ≤ _
    omega
  · rw [if_neg hnone]
    unfold release
    by_cases htaken : frame.payload ≠ [] ∨ ¬ frame.has flagData = true
    · rw [if_pos htaken]
      rcases (processIncoming_stored h.stored frame now).2 with hnil | ⟨hat, hrel⟩
      · rw [hnil]
        change t.decodedBytes + 0 ≤ _
        omega
      · have hshare := share_bound t.link.rcv frame.payload
        rcases hfit with ⟨hdata, hlong⟩ | hfar | hsmall
        · have hadmit : t.decodedBytes + frame.payload.length ≤ (maxDecodedBytes : ℤ) := by
            by_contra hover
            refine hnone (Or.inr ⟨?_, hdata, not_le.mp hover⟩)
            intro hempty
            rw [hempty, headerSize] at hlong
            exact absurd hlong (by decide)
          unfold queueBound maxDecodedBytes maxReorderBytes maxPayload headerSize at *
          omega
        · exact absurd hat hfar
        · omega
    · rw [if_neg htaken]
      change t.decodedBytes + 0 ≤ _
      omega

/-- **What is acknowledged is queued**, in every state a run reaches: the packets a datagram releases are
appended to the queue, all of them, exactly if they fit its bound; those of a fitting datagram do. And the
counter is the length of the packets queued. -/
theorem queued_iff (H : Hashes) (maxReorder : ℕ) (snd : SendSide) (ops : List Op) (data : Bytes) (now : ℚ) :
    ((step maxReorder (run (step maxReorder) (UDPTransport.new H snd) ops) (.datagram data now)).decoded =
        (run (step maxReorder) (UDPTransport.new H snd) ops).decoded ++ unpacked H
          (releasedBy maxReorder (run (step maxReorder) (UDPTransport.new H snd) ops) data now) ↔
      (run (step maxReorder) (UDPTransport.new H snd) ops).decodedBytes + packed (unpacked H
        (releasedBy maxReorder (run (step maxReorder) (UDPTransport.new H snd) ops) data now)) ≤ queueBound) ∧
    (Fitting (run (step maxReorder) (UDPTransport.new H snd) ops) data →
      (step maxReorder (run (step maxReorder) (UDPTransport.new H snd) ops) (.datagram data now)).decoded =
        (run (step maxReorder) (UDPTransport.new H snd) ops).decoded ++ unpacked H
          (releasedBy maxReorder (run (step maxReorder) (UDPTransport.new H snd) ops) data now)) ∧
    (run (step maxReorder) (UDPTransport.new H snd) ops).decodedBytes =
      packed (run (step maxReorder) (UDPTransport.new H snd) ops).decoded := by
  have h := held_run H maxReorder snd ops
  have hnext := held_run H maxReorder snd (ops ++ [.datagram data now])
  rw [run_concat] at hnext
  set t := run (step maxReorder) (UDPTransport.new H snd) ops
  have hqueue := (processFrame_held h data now).2
  refine ⟨⟨fun hall => ?_, hqueue⟩, fun hfit => hqueue ?_, h.bytes⟩
  · have hb := hnext.bytes
    have hle := hnext.bytes_le
    rw [hall, packed_append] at hb
    rw [h.bytes]
    push_cast at hb
    omega
  · have hle := packed_unpacked_le (H := H) (releasedBy maxReorder t data now)
    have hfits : t.decodedBytes + total (releasedBy maxReorder t data now) ≤ queueBound := by
      have hzero := h.bytes_le
      unfold releasedBy
      cases hread : readFrame data with
      | none =>
        change t.decodedBytes + 0 ≤ _
        omega
      | some frame => exact released_fits h now (hfit frame hread)
    omega

/-! ### Pieces without bytes -/

def Solid (piece : Bytes × Bool) : Prop := piece.2 = true → piece.1 ≠ []

/-- No piece stored for later is empty. -/
structure Filled (r : RecvSide) : Prop where
  parts : ∀ part ∈ r.parts, part ≠ []
  buffer : ∀ k piece, r.reorder.get? k = some piece → Solid piece

theorem reassemble_filled {r : RecvSide} (h : Filled r) {payload : Bytes} {more : Bool}
    (hp : Solid (payload, more)) (delivered : List Bytes) :
    Filled (r.reassemble payload more delivered).1 := by
  have hnil : ∀ part ∈ ([] : List Bytes), part ≠ [] := fun part hm => by cases hm
  unfold reassemble
  dsimp only
  split_ifs with hdrop hwhole hlast
  · exact ⟨hnil, h.buffer⟩
  · exact ⟨h.parts, h.buffer⟩
  · exact ⟨hnil, h.buffer⟩
  · refine ⟨fun part hm => ?_, h.buffer⟩
    rcases List.mem_append.mp hm with hm | hm
    · exact h.parts part hm
    · obtain rfl := List.mem_singleton.mp hm
      exact hp (by simpa using hlast)

theorem flush_filled : ∀ (n : ℕ) {r : RecvSide} (delivered : List Bytes), Filled r →
    Filled (r.flush n delivered).1
  | 0, _, _, h => h
  | n + 1, r, delivered, h => by
    cases hget : r.reorder.get? r.recvNext with
    | none =>
      simp only [flush, hget]
      exact h
    | some piece =>
      obtain ⟨buffered, more⟩ := piece
      simp only [flush, hget]
      have hpop : Filled { r with
          reorder := r.reorder.pop r.recvNext
          reorderBytes := r.reorderBytes - buffered.length } :=
        ⟨h.parts, fun k piece hk => h.buffer k piece (Dict.get?_of_pop hk).2⟩
      have hnext := reassemble_filled hpop (h.buffer _ _ hget) delivered
      exact flush_filled n _ ⟨hnext.parts, hnext.buffer⟩

theorem processIncoming_filled {r : RecvSide} (h : Filled r) (now : ℚ)
    (hf : frame.has (flagAckOnly ||| flagKeepalive ||| flagFin) = false → Solid frame.piece) :
    Filled (r.processIncoming maxReorder frame now).1 := by
  set q := learn { r with lastRecvTime := now, keepaliveMisses := 0 } frame.seq with hq
  have hkeep : Filled q := by
    rw [hq]
    unfold learn
    split_ifs <;> exact ⟨h.parts, h.buffer⟩
  rw [processIncoming_eq maxReorder hq]
  by_cases hctl : frame.has (flagAckOnly ||| flagKeepalive ||| flagFin) = true
  · rw [if_pos hctl]
    exact hkeep
  · have hsolid := hf (Bool.eq_false_iff.mpr hctl)
    rw [if_neg hctl]
    by_cases hzero : mask32 (frame.seq - q.recvNext) = 0
    · rw [if_pos hzero]
      have h1 := reassemble_filled (r := { q with recvNext := mask32 (q.recvNext + 1) })
        ⟨hkeep.parts, hkeep.buffer⟩ hsolid []
      have h2 := flush_filled (reassemble { q with recvNext := mask32 (q.recvNext + 1) }
        frame.payload (frame.has flagMore) []).1.reorder.size (reassemble
          { q with recvNext := mask32 (q.recvNext + 1) } frame.payload (frame.has flagMore) []).2 h1
      exact ⟨h2.parts, h2.buffer⟩
    · rw [if_neg hzero]
      by_cases hahead : mask32 (frame.seq - q.recvNext) < 0x80000000
      · rw [if_pos hahead]
        unfold bufferAhead
        dsimp only
        split_ifs
        · refine ⟨hkeep.parts, fun k piece hk => ?_⟩
          change (q.reorder.set frame.seq (frame.payload, frame.has flagMore)).get? k = some piece at hk
          exact Dict.all_set hkeep.buffer hsolid k piece hk
        · exact ⟨hkeep.parts, hkeep.buffer⟩
      · rw [if_neg hahead]
        exact ⟨hkeep.parts, hkeep.buffer⟩

/-- A frame that carries nothing and says that its packet goes on is marked as data or as control. -/
def Marked (frame : Frame) : Prop :=
  frame.payload = [] → frame.has flagMore = true →
    frame.has flagData = true ∨ frame.has (flagAckOnly ||| flagKeepalive ||| flagFin) = true

theorem release_filled (h : Filled t.link.rcv) (hf : Marked frame)
    (now : ℚ) : Filled (t.release maxReorder frame now).1 := by
  unfold release
  by_cases htaken : frame.payload ≠ [] ∨ ¬ frame.has flagData = true
  · rw [if_pos htaken]
    refine processIncoming_filled h now fun hctl hmore hempty => ?_
    rcases hf hempty hmore with hdata | hcontrol
    · exact htaken.elim (fun hne => hne hempty) fun hnd => hnd hdata
    · rw [hctl] at hcontrol
      exact absurd hcontrol Bool.false_ne_true
  · rw [if_neg htaken]
    exact h

theorem take_filled (h : Filled t.link.rcv) (hf : Marked frame)
    (now : ℚ) : Filled (t.take maxReorder frame now).1.link.rcv := by
  unfold take
  dsimp only
  obtain ⟨h1, -, -⟩ := noteSegments_same
    { t with link := { t.link with snd := (t.link.snd.processAck frame.ack frame.sack now).1 } } frame
  set s := noteSegments
    { t with link := { t.link with snd := (t.link.snd.processAck frame.ack frame.sack now).1 } } frame
  have hs : Filled s.link.rcv := by rw [h1]; exact h
  by_cases hfin : frame.has flagFin = true
  · rw [if_pos hfin]
    split_ifs <;> exact hs
  · rw [if_neg hfin]
    by_cases hfull : s.refuses frame
    · rw [if_pos hfull]
      exact ⟨hs.parts, hs.buffer⟩
    · rw [if_neg hfull]
      have hlink := foldl_queue_link (s.release maxReorder frame now).2 { s with
        link := { s.link with rcv := (s.release maxReorder frame now).1 } }
      set u := (s.release maxReorder frame now).2.foldl queue { s with
        link := { s.link with rcv := (s.release maxReorder frame now).1 } }
      have hu : Filled u.link.rcv := by rw [hlink]; exact release_filled hs hf now
      split_ifs
      · exact ⟨hu.parts, hu.buffer⟩
      · exact hu

def MarkedOp (_ : UDPTransport H) : Op → Prop
  | .datagram data _ => ∀ frame, readFrame data = some frame → Marked frame
  | _ => True

theorem filled_step (h : Filled t.link.rcv) : ∀ {op : Op}, MarkedOp t op →
    Filled (step maxReorder t op).link.rcv
  | .datagram data now, hm => by
    change Filled (t.processFrame maxReorder data now).1.link.rcv
    unfold processFrame
    cases hread : readFrame data with
    | none => exact h
    | some frame => exact take_filled h (hm frame hread) now
  | .receive, _ => by
    change Filled t.receive.1.link.rcv
    unfold receive
    cases t.decoded <;> exact h
  | .send op, _ => by
    change Filled (Accounting.step t.link op).rcv
    rw [send_rcv]
    exact h

theorem length_le_total : ∀ {parts : List Bytes}, (∀ part ∈ parts, part ≠ []) → parts.length ≤ total parts
  | [], _ => le_rfl
  | part :: parts, h => by
    have ih := length_le_total fun p hp => h p (List.mem_cons_of_mem part hp)
    have hpos := List.length_pos_iff.mpr (h part List.mem_cons_self)
    rw [total_cons, List.length_cons]
    omega

theorem length_le_packed : ∀ packets : List (Packet H), packets.length * headerSize ≤ packed packets
  | [] => Nat.zero_le _
  | p :: ps => by
    have ih := length_le_packed ps
    rw [packed_cons, packedLength, List.length_cons, Nat.add_mul, Nat.one_mul]
    omega

/-- Bounds of what is held that no arrival moves. -/
structure Contained (maxReorder : ℕ) (t : UDPTransport H) : Prop where
  buffered : t.link.rcv.reorder.size ≤ maxReorder
  buffered_bytes : weight pieceLength t.link.rcv.reorder ≤ maxReorderBytes
  rebuilt_bytes : total t.link.rcv.parts ≤ headerSize + maxPayload
  queued_bytes : packed t.decoded ≤ queueBound
  queued : t.decoded.length * headerSize ≤ queueBound

/-- **What a transport holds is bounded**, whatever arrives and whether or not it is read: the out-of-order
buffer in frames and in bytes, the packet being rebuilt in bytes, the queue in bytes and in packets. If all
empty frames are marked, so is the number of pieces of the packet being rebuilt. -/
theorem memory_bounded (H : Hashes) (maxReorder : ℕ) (snd : SendSide) (ops : List Op) :
    Contained maxReorder (run (step maxReorder) (UDPTransport.new H snd) ops) ∧
    (Guarded (step maxReorder) MarkedOp (UDPTransport.new H snd) ops →
      (run (step maxReorder) (UDPTransport.new H snd) ops).link.rcv.parts.length ≤ headerSize + maxPayload) := by
  have h := held_run H maxReorder snd ops
  have hparts := h.stored.parts_le
  rw [h.stored.parts] at hparts
  refine ⟨?_, fun hg => ?_⟩
  · have hqueue := h.bytes_le
    have hbuffer := h.stored.bytes_le
    rw [h.bytes] at hqueue
    rw [h.stored.bytes] at hbuffer
    have hcount := length_le_packed (run (step maxReorder) (UDPTransport.new H snd) ops).decoded
    exact ⟨h.stored.size, by omega, hparts, by omega, by omega⟩
  · have hfilled : Filled (run (step maxReorder) (UDPTransport.new H snd) ops).link.rcv :=
      Guarded.run_induct (P := fun t : UDPTransport H => Filled t.link.rcv)
        (fun _ _ hf hm => filled_step hf hm)
        ⟨fun part hm => (by cases hm), fun k piece hk => (by cases hk)⟩ hg
    exact (length_le_total hfilled.parts).trans hparts

/-! ### Frames at the cursor -/

/-- The receive side has taken numbers up to `n`, counted from a first frame numbered `0`. -/
def Next (r : RecvSide) (n : ℕ) : Prop :=
  r.recvStarted = false ∧ n = 0 ∨ r.recvStarted = true ∧ r.recvNext = seq32 0 n

theorem processIncoming_next (maxReorder : ℕ) {r : RecvSide} {n : ℕ} (hn : Next r n) (he : r.reorder = Dict.empty)
 (hseq : frame.seq = seq32 0 n)
    (hctl : frame.has (flagAckOnly ||| flagKeepalive ||| flagFin) = false) (now : ℚ) :
    ∃ q : RecvSide, q.parts = r.parts ∧ q.partialBytes = r.partialBytes ∧
      q.partialSpoilt = r.partialSpoilt ∧
      (let p := q.reassemble frame.payload (frame.has flagMore) []
        let p' := r.processIncoming maxReorder frame now
        p'.2 = p.2 ∧ p'.1.parts = p.1.parts ∧ p'.1.partialBytes = p.1.partialBytes ∧
          p'.1.partialSpoilt = p.1.partialSpoilt ∧ p'.1.reorder = Dict.empty ∧ Next p'.1 (n + 1)) := by
  set l := learn { r with lastRecvTime := now, keepaliveMisses := 0 } frame.seq with hl
  have hlearn : l.recvStarted = true ∧ l.recvNext = seq32 0 n ∧ l.reorder = Dict.empty ∧
      l.parts = r.parts ∧ l.partialBytes = r.partialBytes ∧ l.partialSpoilt = r.partialSpoilt := by
    rw [hl]
    unfold learn
    rcases hn with ⟨hst, rfl⟩ | ⟨hst, hnext⟩
    · rw [if_neg (by rw [Bool.not_eq_true]; exact hst)]
      exact ⟨rfl, hseq, he, rfl, rfl, rfl⟩
    · rw [if_pos hst]
      exact ⟨hst, hnext, he, rfl, rfl, rfl⟩
  obtain ⟨l1, l2, l3, l4, l5, l6⟩ := hlearn
  have hdist : mask32 (frame.seq - l.recvNext) = 0 := by
    rw [hseq, l2, sub_self]
    rfl
  have hcontrol : ¬ frame.has (flagAckOnly ||| flagKeepalive ||| flagFin) = true := by
    rw [hctl]; exact Bool.false_ne_true
  refine ⟨{ l with recvNext := mask32 (l.recvNext + 1) }, l4, l5, l6, ?_⟩
  rw [processIncoming_eq maxReorder hl, if_neg hcontrol, if_pos hdist]
  obtain ⟨s1, s2, s3, -⟩ := Receive.reassemble_spec { l with recvNext := mask32 (l.recvNext + 1) }
    frame.payload (frame.has flagMore) []
  unfold acceptNext
  dsimp only at s1 s2 s3 ⊢
  set p := reassemble { l with recvNext := mask32 (l.recvNext + 1) } frame.payload
    (frame.has flagMore) []
  have hempty : p.1.reorder = Dict.empty := s3.trans l3
  have hflush : p.1.flush p.1.reorder.size p.2 = p := by
    rw [hempty]
    rfl
  rw [hflush]
  refine ⟨rfl, rfl, rfl, rfl, hempty, Or.inr ⟨s1.trans l1, s2.trans ?_⟩⟩
  rw [l2, seq32_succ]

theorem take_open (maxReorder : ℕ) (t : UDPTransport H) (hfin : frame.has flagFin = false)
    (hfull : ¬ t.refuses frame) (now : ℚ) :
    ∃ u : UDPTransport H, u.decoded = t.decoded ∧ u.decodedBytes = t.decodedBytes ∧
      (t.take maxReorder frame now).1.decoded =
        ((t.release maxReorder frame now).2.foldl queue u).decoded ∧
      (t.take maxReorder frame now).1.decodedBytes =
        ((t.release maxReorder frame now).2.foldl queue u).decodedBytes ∧
      ∃ pending, (t.take maxReorder frame now).1.link.rcv =
        { (t.release maxReorder frame now).1 with ackPending := pending } := by
  obtain ⟨h1, h2, h3⟩ := noteSegments_same
    { t with link := { t.link with snd := (t.link.snd.processAck frame.ack frame.sack now).1 } } frame
  unfold take
  dsimp only
  set s := noteSegments
    { t with link := { t.link with snd := (t.link.snd.processAck frame.ack frame.sack now).1 } } frame
  have hrefuse : ¬ s.refuses frame := by
    unfold refuses at hfull ⊢
    rw [h3]
    exact hfull
  have hrelease : s.release maxReorder frame now = t.release maxReorder frame now := by
    unfold release
    rw [h1]
  rw [if_neg (by rw [hfin]; exact Bool.false_ne_true), if_neg hrefuse, hrelease]
  have hlink := foldl_queue_link (t.release maxReorder frame now).2 { s with
    link := { s.link with rcv := (t.release maxReorder frame now).1 } }
  refine ⟨{ s with link := { s.link with rcv := (t.release maxReorder frame now).1 } }, h2, h3, ?_⟩
  set u := (t.release maxReorder frame now).2.foldl queue { s with
    link := { s.link with rcv := (t.release maxReorder frame now).1 } }
  have hrcv : u.link.rcv = (t.release maxReorder frame now).1 := by rw [hlink]
  by_cases hack : u.link.rcv.ackPending = true
  · rw [if_pos hack]
    exact ⟨rfl, rfl, false, by rw [← hrcv]⟩
  · rw [if_neg hack]
    exact ⟨rfl, rfl, u.link.rcv.ackPending, by rw [← hrcv]⟩

/-- The `n`-th frame of a link born at `0`, acknowledging nothing. -/
def bare (n flags : ℕ) (payload : Bytes) : Frame := ⟨seq32 0 n, 0, 0, flags, payload⟩

theorem fits_bare (n : ℕ) {flags : ℕ} {payload : Bytes} (hf : flags < 256) (hp : payload.length < 65536) :
    Fits (bare n flags payload) := ⟨seq32_lt 0 n, (by decide : 0 < 4294967296), (by decide : 0 < 4294967296), hf, hp⟩

theorem bare_step (maxReorder : ℕ) {n flags : ℕ} (payload : Bytes)
    (hn : Next t.link.rcv n) (he : t.link.rcv.reorder = Dict.empty) (hf : flags < 256)
    (hp : payload.length < 65536) (hfin : (flags &&& flagFin != 0) = false)
    (hctl : (flags &&& (flagAckOnly ||| flagKeepalive ||| flagFin) != 0) = false)
    (hdata : (flags &&& flagData != 0) = false) (now : ℚ) :
    ∃ q : RecvSide, q.parts = t.link.rcv.parts ∧ q.partialBytes = t.link.rcv.partialBytes ∧
      q.partialSpoilt = t.link.rcv.partialSpoilt ∧
      (let p := q.reassemble payload (flags &&& flagMore != 0) []
        let t' := step maxReorder t (.datagram (writeFrame (bare n flags payload)) now)
        releasedBy maxReorder t (writeFrame (bare n flags payload)) now = p.2 ∧
        t'.link.rcv.parts = p.1.parts ∧ t'.link.rcv.partialBytes = p.1.partialBytes ∧
        t'.link.rcv.partialSpoilt = p.1.partialSpoilt ∧ t'.link.rcv.reorder = Dict.empty ∧
        Next t'.link.rcv (n + 1)) := by
  have hread := readFrame_writeFrame (fits_bare n hf hp)
  have hlast : (bare n flags payload).has flagFin = false := hfin
  have hcontrol : (bare n flags payload).has (flagAckOnly ||| flagKeepalive ||| flagFin) = false := hctl
  have hseq : (bare n flags payload).seq = seq32 0 n := rfl
  have hmark : ¬ (bare n flags payload).has flagData = true := by
    change ¬ (flags &&& flagData != 0) = true
    rw [hdata]
    exact Bool.false_ne_true
  have hopen : ¬ t.refuses (bare n flags payload) := fun hr => hmark hr.2.1
  have hrelease : t.release maxReorder (bare n flags payload) now =
      t.link.rcv.processIncoming maxReorder (bare n flags payload) now := if_pos (Or.inr hmark)
  have hstep : step maxReorder t (.datagram (writeFrame (bare n flags payload)) now) =
      (t.take maxReorder (bare n flags payload) now).1 := by
    change (t.processFrame maxReorder (writeFrame (bare n flags payload)) now).1 = _
    unfold processFrame
    rw [hread]
  have hreleased : releasedBy maxReorder t (writeFrame (bare n flags payload)) now =
      (t.link.rcv.processIncoming maxReorder (bare n flags payload) now).2 := by
    have hnone : ¬ ((bare n flags payload).has flagFin = true ∨ t.refuses (bare n flags payload)) := by
      rintro (hor | hor)
      · rw [hlast] at hor
        exact Bool.false_ne_true hor
      · exact hopen hor
    unfold releasedBy
    rw [hread]
    change releasedFor maxReorder t (bare n flags payload) now = _
    rw [releasedFor, if_neg hnone, hrelease]
  obtain ⟨-, -, -, -, -, pending, hrcv⟩ := take_open maxReorder t hlast hopen now
  obtain ⟨q, q1, q2, q3, p1, p2, p3, p4, p5, p6⟩ := processIncoming_next maxReorder hn he hseq hcontrol now
  refine ⟨q, q1, q2, q3, hreleased.trans p1, ?_⟩
  rw [hstep, hrcv, hrelease]
  exact ⟨p2, p3, p4, p5, p6⟩

def noHashes : Hashes := ⟨fun _ _ => 0, fun _ _ => 0⟩

theorem queued_short :
    (step 256 (UDPTransport.new noHashes (SendSide.new 7))
        (.datagram (writeFrame (bare 0 flagSegments [1])) 0)).decoded =
      unpacked noHashes (releasedBy 256 (UDPTransport.new noHashes (SendSide.new 7))
        (writeFrame (bare 0 flagSegments [1])) 0) := by
  have h := (queued_iff noHashes 256 (SendSide.new 7) []
    (writeFrame (bare 0 flagSegments [1])) 0).2.1 fun frame hread => by
      rw [readFrame_writeFrame (fits_bare 0 (by decide) (by decide))] at hread
      cases hread
      exact Or.inr (Or.inr (by decide))
  exact h

/-! ### Empty pieces -/

/-- `n` empty pieces wait for the last one. -/
structure Piled (t : UDPTransport H) (n : ℕ) : Prop where
  next : Next t.link.rcv n
  buffer : t.link.rcv.reorder = Dict.empty
  spoilt : t.link.rcv.partialSpoilt = false
  bytes : t.link.rcv.partialBytes = 0
  pieces : t.link.rcv.parts.length = n

theorem piled_step (maxReorder : ℕ) {n : ℕ} (h : Piled t n) :
    Piled (step maxReorder t (.datagram (writeFrame (bare n flagMore [])) 0)) (n + 1) := by
  obtain ⟨q, q1, q2, q3, -, p2, p3, p4, p5, p6⟩ := bare_step maxReorder [] h.next h.buffer
    (by decide : flagMore < 256) (by decide) (by decide) (by decide) (by decide) 0
  have hq : q.reassemble [] (flagMore &&& flagMore != 0) [] = ({ q with
      handed := q.handed ++ [([], true)]
      parts := q.parts ++ [[]]
      partialBytes := q.partialBytes + 0 }, []) := by
    have hkeep : ¬ (q.partialSpoilt || decide (headerSize + maxPayload < q.partialBytes + 0)) = true := by
      rw [q3, h.spoilt, q2, h.bytes]
      decide
    unfold reassemble
    exact (if_neg hkeep).trans rfl
  rw [hq] at p2 p3 p4
  refine ⟨p6, p5, p4.trans (q3.trans h.spoilt), p3.trans ?_, ?_⟩
  · change q.partialBytes + 0 = 0
    rw [q2, h.bytes]
  · rw [p2]
    change (q.parts ++ [[]]).length = n + 1
    rw [List.length_append, q1, h.pieces]
    rfl

/-- `n` frames that carry nothing and say that their packet goes on. -/
def hollow (n : ℕ) : List Op := (List.range n).map fun i => .datagram (writeFrame (bare i flagMore [])) 0

theorem piled_hollow (H : Hashes) (maxReorder : ℕ) (snd : SendSide) : ∀ n : ℕ,
    Piled (run (step maxReorder) (UDPTransport.new H snd) (hollow n)) n
  | 0 => ⟨Or.inl ⟨rfl, rfl⟩, rfl, rfl, rfl, rfl⟩
  | n + 1 => by
    have hsucc : hollow (n + 1) = hollow n ++ [.datagram (writeFrame (bare n flagMore [])) 0] := by
      rw [hollow, List.range_succ, List.map_append]
      rfl
    rw [hsucc, run_concat]
    exact piled_step maxReorder (piled_hollow H maxReorder snd n)

/-- **The pieces of the packet being rebuilt have no bound.** -/
theorem pieces_unbounded : ¬ ∃ bound : ℕ, ∀ ops : List Op,
    (run (step 256) (UDPTransport.new noHashes (SendSide.new 7)) ops).link.rcv.parts.length ≤ bound := by
  rintro ⟨bound, h⟩
  have hpiled := (piled_hollow noHashes 256 (SendSide.new 7) (bound + 1)).pieces
  have hle := h (hollow (bound + 1))
  omega

theorem memory_bounded_hollow :
    Contained 256 (run (step 256) (UDPTransport.new noHashes (SendSide.new 7))
        [.datagram (writeFrame (bare 0 flagData [1])) 0, .receive]) ∧
      (run (step 256) (UDPTransport.new noHashes (SendSide.new 7))
        [.datagram (writeFrame (bare 0 flagData [1])) 0, .receive]).link.rcv.parts.length ≤
          headerSize + maxPayload := by
  have h := memory_bounded noHashes 256 (SendSide.new 7)
    [.datagram (writeFrame (bare 0 flagData [1])) 0, .receive]
  refine ⟨h.1, h.2 ⟨fun frame hread hempty => ?_, trivial, trivial⟩⟩
  rw [readFrame_writeFrame (fits_bare 0 (by decide) (by decide))] at hread
  rw [← Option.some.inj hread] at hempty
  cases hempty

/-! ### Frames not marked as data -/

/-- `n` packets of the greatest length came in frames not marked as data, and all were queued. -/
structure Filling (t : UDPTransport H) (n : ℕ) : Prop where
  next : Next t.link.rcv n
  buffer : t.link.rcv.reorder = Dict.empty
  spoilt : t.link.rcv.partialSpoilt = false
  bytes : t.link.rcv.partialBytes = 0
  parts : t.link.rcv.parts = []
  queued : t.decodedBytes = n * 60079

section Unmarked

variable {raw : Bytes}

theorem filling_release (maxReorder : ℕ) {t : UDPTransport H} {n : ℕ} (hraw : raw.length = 60079)
    (h : Filling t n) :
    let t' := step maxReorder t (.datagram (writeFrame (bare n 0 raw)) 0)
    releasedBy maxReorder t (writeFrame (bare n 0 raw)) 0 = [raw] ∧
      Next t'.link.rcv (n + 1) ∧ t'.link.rcv.reorder = Dict.empty ∧ t'.link.rcv.partialSpoilt = false ∧
        t'.link.rcv.partialBytes = 0 ∧ t'.link.rcv.parts = [] := by
  obtain ⟨q, q1, q2, q3, p1, p2, p3, p4, p5, p6⟩ := bare_step maxReorder raw h.next h.buffer
    (by decide : 0 < 256) (by rw [hraw]; decide) (by decide) (by decide) (by decide) 0
  have hq : q.reassemble raw (0 &&& flagMore != 0) [] =
      ({ q with handed := q.handed ++ [(raw, false)] }, [raw]) := by
    have hkeep : ¬ (q.partialSpoilt || decide (headerSize + maxPayload < q.partialBytes + raw.length)) =
        true := by
      rw [q3, h.spoilt, q2, h.bytes, hraw]
      decide
    have hwhole : (!(0 &&& flagMore != 0) && q.parts.isEmpty) = true := by
      rw [q1, h.parts]
      decide
    unfold reassemble
    exact (if_neg hkeep).trans ((if_pos hwhole).trans rfl)
  rw [hq] at p1 p2 p3 p4
  exact ⟨p1, p6, p5, p4.trans (q3.trans h.spoilt), p3.trans (q2.trans h.bytes), p2.trans (q1.trans h.parts)⟩

theorem unpacked_raw (hraw : raw.length = 60079) (H : Hashes) : packed (unpacked H [raw]) = 60079 := by
  obtain ⟨p, hp⟩ := (unpack_spec (H := H) raw).2 (by rw [hraw]; decide) (by rw [hraw]; decide)
  have hlen := (unpack_spec raw).1 p hp
  rw [unpacked_ok hp, packed_cons, hlen, hraw]
  rfl

def unmarked (raw : Bytes) (n : ℕ) : List Op :=
  (List.range n).map fun i => .datagram (writeFrame (bare i 0 raw)) 0

theorem filling_unmarked (hraw : raw.length = 60079) (H : Hashes) (maxReorder : ℕ) (snd : SendSide) :
    ∀ n : ℕ, n ≤ 70 →
    Filling (run (step maxReorder) (UDPTransport.new H snd) (unmarked raw n)) n
  | 0, _ => ⟨Or.inl ⟨rfl, rfl⟩, rfl, rfl, rfl, rfl, rfl⟩
  | n + 1, hle => by
    have h := filling_unmarked hraw H maxReorder snd n (by omega)
    have hsucc : unmarked raw (n + 1) = unmarked raw n ++ [.datagram (writeFrame (bare n 0 raw)) 0] := by
      rw [unmarked, List.range_succ, List.map_append]
      rfl
    obtain ⟨hrel, h1, h2, h3, h4, h5⟩ := filling_release maxReorder hraw h
    have hheld := held_run H maxReorder snd (unmarked raw n)
    have hnext := held_run H maxReorder snd (unmarked raw (n + 1))
    obtain ⟨hiff, -, -⟩ := queued_iff H maxReorder snd (unmarked raw n) (writeFrame (bare n 0 raw)) 0
    rw [hsucc, run_concat] at hnext ⊢
    have hfits := hiff.mpr (by
      rw [hrel, unpacked_raw hraw, h.queued]
      unfold queueBound maxDecodedBytes maxReorderBytes maxPayload
      omega)
    refine ⟨h1, h2, h3, h4, h5, ?_⟩
    rw [hnext.bytes, hfits, packed_append, hrel, unpacked_raw hraw]
    have hbytes := hheld.bytes
    rw [h.queued] at hbytes
    push_cast
    rw [← hbytes]
    ring

end Unmarked

def blank : Bytes := List.replicate 60079 0

/-- **A packet is acknowledged and dropped.** The frames are not marked as data, so none is refused; the
seventy-first packet is released, unpacks, and is not queued. -/
theorem unmarked_dropped :
    (bare 70 0 blank).payload.length ≤ 60079 ∧
    unpacked noHashes (releasedBy 256
      (run (step 256) (UDPTransport.new noHashes (SendSide.new 7)) (unmarked blank 70))
      (writeFrame (bare 70 0 blank)) 0) ≠ [] ∧
    (step 256 (run (step 256) (UDPTransport.new noHashes (SendSide.new 7)) (unmarked blank 70))
        (.datagram (writeFrame (bare 70 0 blank)) 0)).decoded ≠
      (run (step 256) (UDPTransport.new noHashes (SendSide.new 7)) (unmarked blank 70)).decoded ++
        unpacked noHashes (releasedBy 256
          (run (step 256) (UDPTransport.new noHashes (SendSide.new 7)) (unmarked blank 70))
          (writeFrame (bare 70 0 blank)) 0) := by
  have hraw : blank.length = 60079 := List.length_replicate
  have h := filling_unmarked hraw noHashes 256 (SendSide.new 7) 70 le_rfl
  have hrel := (filling_release 256 hraw h).1
  obtain ⟨hiff, -, -⟩ := queued_iff noHashes 256 (SendSide.new 7) (unmarked blank 70)
    (writeFrame (bare 70 0 blank)) 0
  have hlen := unpacked_raw hraw noHashes
  refine ⟨hraw.le, fun hnil => ?_, fun hall => ?_⟩
  · rw [hrel] at hnil
    rw [hnil] at hlen
    exact absurd hlen (by decide)
  · have hfits := hiff.mp hall
    rw [hrel, hlen, h.queued] at hfits
    unfold queueBound maxDecodedBytes maxReorderBytes maxPayload at hfits
    omega

end NMesh.Udp.Memory
