import NMesh.Udp.Link

/-! # Cutting packets and putting them together

A packet goes on the wire whole, or cut in pieces of `_SEGMENT_PAYLOAD` bytes to a far end that reassembles
(`segments`); every frame but its last says that the packet goes on. `groups` is what a stream of frames stands
for: the concatenation of each maximal group that ends with a frame that has no more. `reassemble` keeps pieces, a
count of bytes and a flag, and gives the groups that are not too long (`reassembles`). -/

namespace NMesh.Udp.Segments

open Base.BigEndian NMesh.Udp.Wire NMesh.Udp.Link

/-- The payload of a frame that is no larger than a datagram should be. -/
def segmentPayload : ℕ := 1200 - magic.length - frameSize

def packetMax : ℕ := headerSize + maxPayload

/-! ### Groups -/

/-- The groups of a stream, the first of them after `opened`. -/
def groupsFrom : Bytes → List (Bytes × Bool) → List Bytes
  | _, [] => []
  | opened, (payload, true) :: frames => groupsFrom (opened ++ payload) frames
  | opened, (payload, false) :: frames => (opened ++ payload) :: groupsFrom [] frames

/-- **The groups of a stream**: the concatenation of each, in order. -/
def groups (frames : List (Bytes × Bool)) : List Bytes := groupsFrom [] frames

def openFrom : Bytes → List (Bytes × Bool) → Bytes
  | opened, [] => opened
  | opened, (payload, true) :: frames => openFrom (opened ++ payload) frames
  | _, (_, false) :: frames => openFrom [] frames

def legal (gs : List Bytes) : List Bytes := gs.filter fun g => decide (g.length ≤ packetMax)

/-! ### Reassembly -/

def reassembleAll (r : RecvSide) (frames : List (Bytes × Bool)) (delivered : List Bytes) :
    RecvSide × List Bytes :=
  frames.foldl (fun p frame => p.1.reassemble frame.1 frame.2 p.2) (r, delivered)

/-- **What is kept of the group that is open**: its pieces, or that it is too long. -/
structure Opened (r : RecvSide) (opened : Bytes) : Prop where
  spoilt : r.partialSpoilt = true → packetMax < opened.length ∧ r.parts = [] ∧ r.partialBytes = 0
  pieces : r.partialSpoilt = false →
    r.parts.flatten = opened ∧ r.partialBytes = opened.length ∧ opened.length ≤ packetMax

/-- Nothing is open. -/
structure Fresh (r : RecvSide) : Prop where
  parts : r.parts = []
  partialBytes : r.partialBytes = 0
  partialSpoilt : r.partialSpoilt = false

theorem Fresh.opened {r : RecvSide} (h : Fresh r) : Opened r [] where
  spoilt hs := by rw [h.partialSpoilt] at hs; cases hs
  pieces _ := by
    rw [h.parts, h.partialBytes]
    exact ⟨rfl, rfl, Nat.zero_le _⟩

variable {r : RecvSide} {opened : Bytes}

theorem Opened.more (h : Opened r opened) (payload : Bytes) (delivered : List Bytes) :
    Opened (r.reassemble payload true delivered).1 (opened ++ payload) ∧
      (r.reassemble payload true delivered).2 = delivered := by
  unfold RecvSide.reassemble
  dsimp only
  cases hspoilt : r.partialSpoilt with
  | true =>
    obtain ⟨hlong, -, -⟩ := h.spoilt hspoilt
    rw [Bool.true_or, if_pos rfl]
    refine ⟨⟨fun _ => ⟨?_, rfl, rfl⟩, fun hs => by cases hs⟩, rfl⟩
    rw [List.length_append]
    omega
  | false =>
    obtain ⟨hpieces, hbytes, -⟩ := h.pieces hspoilt
    rw [Bool.false_or]
    by_cases hlong : headerSize + maxPayload < r.partialBytes + payload.length
    · -- the piece makes the group too long
      rw [if_pos (decide_eq_true hlong)]
      refine ⟨⟨fun _ => ⟨?_, rfl, rfl⟩, fun hs => by cases hs⟩, rfl⟩
      rw [List.length_append, packetMax, ← hbytes]
      exact hlong
    · rw [if_neg (by simpa using hlong)]
      refine ⟨⟨fun hs => ?_, fun _ => ⟨?_, ?_, ?_⟩⟩, rfl⟩
      · exact absurd hs Bool.false_ne_true
      · change (r.parts ++ [payload]).flatten = opened ++ payload
        rw [List.flatten_append, hpieces, List.flatten_singleton]
      · change r.partialBytes + payload.length = (opened ++ payload).length
        rw [hbytes, List.length_append]
      · rw [List.length_append, packetMax, ← hbytes]
        exact not_lt.mp hlong

theorem Opened.last (h : Opened r opened) (payload : Bytes) (delivered : List Bytes) :
    Fresh (r.reassemble payload false delivered).1 ∧
      (r.reassemble payload false delivered).2 = delivered ++ legal [opened ++ payload] := by
  have hkept : (opened ++ payload).length ≤ packetMax → legal [opened ++ payload] = [opened ++ payload] :=
    fun hle => List.filter_cons_of_pos (decide_eq_true hle)
  have hdropped : packetMax < (opened ++ payload).length → legal [opened ++ payload] = [] :=
    fun hlt => List.filter_cons_of_neg (by simpa using hlt)
  unfold RecvSide.reassemble
  dsimp only
  cases hspoilt : r.partialSpoilt with
  | true =>
    obtain ⟨hlong, -, -⟩ := h.spoilt hspoilt
    rw [Bool.true_or, if_pos rfl, hdropped (by rw [List.length_append]; omega), List.append_nil]
    exact ⟨⟨rfl, rfl, rfl⟩, rfl⟩
  | false =>
    obtain ⟨hpieces, hbytes, hle⟩ := h.pieces hspoilt
    rw [Bool.false_or]
    by_cases hlong : headerSize + maxPayload < r.partialBytes + payload.length
    · rw [if_pos (decide_eq_true hlong), hdropped, List.append_nil]
      · exact ⟨⟨rfl, rfl, rfl⟩, rfl⟩
      · rw [List.length_append, packetMax, ← hbytes]
        exact hlong
    · have hshort : (opened ++ payload).length ≤ packetMax := by
        rw [List.length_append, packetMax, ← hbytes]
        exact not_lt.mp hlong
      rw [if_neg (by simpa using hlong), hkept hshort, Bool.not_false, Bool.true_and]
      by_cases hempty : r.parts.isEmpty = true
      · -- the group is this one frame
        have hnil : r.parts = [] := List.isEmpty_iff.mp hempty
        rw [hnil, List.flatten_nil] at hpieces
        rw [if_pos hempty, ← hpieces, List.nil_append]
        refine ⟨⟨hnil, ?_, rfl⟩, rfl⟩
        change r.partialBytes = 0
        rw [hbytes, ← hpieces]
        rfl
      · rw [if_neg hempty, if_pos rfl]
        refine ⟨⟨rfl, rfl, rfl⟩, ?_⟩
        change delivered ++ [(r.parts ++ [payload]).flatten] = delivered ++ [opened ++ payload]
        rw [List.flatten_append, hpieces, List.flatten_singleton]

/-- **Every stream of frames gives its groups that are not too long.** -/
theorem reassembleAll_spec : ∀ (frames : List (Bytes × Bool)) {r : RecvSide} {opened : Bytes}
    (delivered : List Bytes), Opened r opened →
    Opened (reassembleAll r frames delivered).1 (openFrom opened frames) ∧
      (reassembleAll r frames delivered).2 = delivered ++ legal (groupsFrom opened frames)
  | [], _, _, delivered, h => ⟨h, (List.append_nil delivered).symm⟩
  | (payload, true) :: frames, r, opened, delivered, h => by
    obtain ⟨hopened, hsame⟩ := h.more payload delivered
    obtain ⟨hrest, hgroups⟩ := reassembleAll_spec frames (r.reassemble payload true delivered).2 hopened
    refine ⟨hrest, hgroups.trans ?_⟩
    rw [hsame, groupsFrom]
  | (payload, false) :: frames, r, opened, delivered, h => by
    obtain ⟨hfresh, hgives⟩ := h.last payload delivered
    obtain ⟨hrest, hgroups⟩ :=
      reassembleAll_spec frames (r.reassemble payload false delivered).2 hfresh.opened
    refine ⟨hrest, hgroups.trans ?_⟩
    rw [hgives, groupsFrom, List.append_assoc]
    unfold legal
    rw [← List.filter_append, List.singleton_append]

theorem openFrom_concat (payload : Bytes) : ∀ (frames : List (Bytes × Bool)) (opened : Bytes),
    openFrom opened (frames ++ [(payload, false)]) = []
  | [], _ => rfl
  | (piece, true) :: frames, opened => openFrom_concat payload frames (opened ++ piece)
  | (_, false) :: frames, _ => openFrom_concat payload frames []

theorem groupsFrom_append (frames' : List (Bytes × Bool)) : ∀ (frames : List (Bytes × Bool)) (opened : Bytes),
    groupsFrom opened (frames ++ frames') =
      groupsFrom opened frames ++ groupsFrom (openFrom opened frames) frames'
  | [], _ => rfl
  | (payload, true) :: frames, opened => groupsFrom_append frames' frames (opened ++ payload)
  | (payload, false) :: frames, opened => by
    rw [List.cons_append, groupsFrom, groupsFrom, groupsFrom_append frames' frames [], openFrom,
      List.cons_append]

/-! ### Cutting -/

def segments (peerReassembles : Bool) (payload : Bytes) : List Bytes :=
  if !peerReassembles || decide (payload.length ≤ segmentPayload) then [payload]
  else (List.range ((payload.length + segmentPayload - 1) / segmentPayload)).map fun i =>
    (payload.drop (i * segmentPayload)).take segmentPayload

def marked (pieces : List Bytes) : List (Bytes × Bool) :=
  pieces.mapIdx fun index piece => (piece, decide (index < pieces.length - 1))

/-- The frames of a packet, as they are handed to reassembly. -/
def pieces (packet : Bool × Bytes) : List (Bytes × Bool) := marked (segments packet.1 packet.2)

def sendPacket (now : ℕ → ℚ) (l : ReliableLink) (packet : Bool × Bytes) : ReliableLink × List Frame :=
  (pieces packet).foldl (fun p piece =>
    let (l, frame) := p.1.buildSegment piece.1 piece.2 (now p.1.snd.sendSeq)
    (l, p.2 ++ [frame])) (l, [])

def sendAll (now : ℕ → ℚ) (l : ReliableLink) (packets : List (Bool × Bytes)) : ReliableLink × List Frame :=
  packets.foldl (fun p packet =>
    let (l, frames) := sendPacket now p.1 packet
    (l, p.2 ++ frames)) (l, [])

theorem take_pieces (payload : Bytes) : ∀ n : ℕ,
    ((List.range n).map fun i => (payload.drop (i * segmentPayload)).take segmentPayload).flatten =
      payload.take (n * segmentPayload)
  | 0 => by rw [Nat.zero_mul, List.take_zero]; rfl
  | n + 1 => by
    rw [List.range_succ, List.map_append, List.flatten_append, take_pieces payload n, List.map_singleton,
      List.flatten_singleton, ← List.take_add, Nat.succ_mul]

theorem flatten_segments (peerReassembles : Bool) (payload : Bytes) :
    (segments peerReassembles payload).flatten = payload := by
  unfold segments
  split_ifs
  · exact List.flatten_singleton
  · rw [take_pieces]
    refine List.take_of_length_le ?_
    have hdiv := Nat.div_add_mod (payload.length + segmentPayload - 1) segmentPayload
    have hmod := Nat.mod_lt (payload.length + segmentPayload - 1) (show 0 < segmentPayload by decide)
    rw [Nat.mul_comm] at hdiv
    omega

theorem segments_ne_nil (peerReassembles : Bool) (payload : Bytes) : segments peerReassembles payload ≠ [] := by
  unfold segments
  split_ifs with h
  · exact List.cons_ne_nil payload []
  · obtain ⟨-, hlong⟩ : peerReassembles = true ∧ segmentPayload < payload.length := by simpa using h
    have hpos : 0 < (payload.length + segmentPayload - 1) / segmentPayload :=
      Nat.div_pos (by omega) (by decide)
    rw [ne_eq, List.map_eq_nil_iff, List.range_eq_nil]
    omega

theorem marked_cons (piece next : Bytes) (rest : List Bytes) :
    marked (piece :: next :: rest) = (piece, true) :: marked (next :: rest) := by
  unfold marked
  rw [List.mapIdx_cons]
  congr 1
  refine congrArg (fun f => List.mapIdx f (next :: rest)) (funext fun index => funext fun p => ?_)
  rw [List.length_cons (a := piece)]
  congr 2
  simp only [List.length_cons, eq_iff_iff]
  omega

theorem groupsFrom_marked (frames : List (Bytes × Bool)) : ∀ {ps : List Bytes} {opened : Bytes}, ps ≠ [] →
    groupsFrom opened (marked ps ++ frames) = (opened ++ ps.flatten) :: groupsFrom [] frames
  | [], _, h => absurd rfl h
  | [piece], opened, _ => by
    rw [List.flatten_singleton]
    rfl
  | piece :: next :: rest, opened, _ => by
    rw [marked_cons, List.cons_append, groupsFrom, groupsFrom_marked frames (List.cons_ne_nil next rest),
      List.flatten_cons (l := piece), List.append_assoc]

theorem groups_pieces : ∀ packets : List (Bool × Bytes),
    groups (packets.flatMap pieces) = packets.map Prod.snd
  | [] => rfl
  | packet :: packets => by
    rw [groups, List.flatMap_cons, pieces, groupsFrom_marked _ (segments_ne_nil packet.1 packet.2),
      flatten_segments, List.nil_append, List.map_cons]
    exact congrArg _ (groups_pieces packets)

theorem piece_buildSegment (l : ReliableLink) (payload : Bytes) (more : Bool) (now : ℚ) :
    (l.buildSegment payload more now).2.piece = (payload, more) := by
  have hflags : ((flagData ||| flagSegments ||| if more then flagMore else 0) &&& flagMore != 0) = more := by
    cases more <;> decide
  exact congrArg (Prod.mk payload) hflags

theorem piece_sendPacket (now : ℕ → ℚ) (l : ReliableLink) (packet : Bool × Bytes) :
    (sendPacket now l packet).2.map Frame.piece = pieces packet := by
  have hall : ∀ (ps : List (Bytes × Bool)) (l : ReliableLink) (frames : List Frame),
      (ps.foldl (fun p piece =>
        let (l, frame) := p.1.buildSegment piece.1 piece.2 (now p.1.snd.sendSeq)
        (l, p.2 ++ [frame])) (l, frames)).2.map Frame.piece = frames.map Frame.piece ++ ps := by
    intro ps
    induction ps with
    | nil => exact fun _ frames => (List.append_nil _).symm
    | cons piece ps ih =>
      intro l frames
      rw [List.foldl_cons, ih, List.map_append, List.map_singleton, piece_buildSegment, List.append_assoc,
        List.singleton_append]
  exact hall (pieces packet) l []

theorem piece_sendAll (now : ℕ → ℚ) (l : ReliableLink) (packets : List (Bool × Bytes)) :
    (sendAll now l packets).2.map Frame.piece = packets.flatMap pieces := by
  have hall : ∀ (packets : List (Bool × Bytes)) (l : ReliableLink) (frames : List Frame),
      (packets.foldl (fun p packet =>
        let (l, frames) := sendPacket now p.1 packet
        (l, p.2 ++ frames)) (l, frames)).2.map Frame.piece =
        frames.map Frame.piece ++ packets.flatMap pieces := by
    intro packets
    induction packets with
    | nil => exact fun _ frames => (List.append_nil _).symm
    | cons packet packets ih =>
      intro l frames
      rw [List.foldl_cons, ih, List.map_append, piece_sendPacket, List.append_assoc, List.flatMap_cons]
  exact hall packets l []

/-- **Segmentation and reassembly.** Whatever frames are handed over in order, what comes out are the groups that
are no longer than a packet can be, and after a frame that has no more nothing is open. So packets come out
unchanged and in order, each of them cut or not as the far end was then known to reassemble. -/
theorem reassembles :
    (∀ frames : List (Bytes × Bool), (reassembleAll RecvSide.new frames []).2 = legal (groups frames)) ∧
    (∀ (frames : List (Bytes × Bool)) (payload : Bytes),
      Fresh (reassembleAll RecvSide.new (frames ++ [(payload, false)]) []).1) ∧
    (∀ frames frames' : List (Bytes × Bool), ∀ payload : Bytes,
      legal (groups (frames ++ [(payload, false)] ++ frames')) =
        legal (groups (frames ++ [(payload, false)])) ++ legal (groups frames')) ∧
    ∀ (now : ℕ → ℚ) (l : ReliableLink) (packets : List (Bool × Bytes)),
      (∀ packet ∈ packets, packet.2.length ≤ packetMax) →
      (reassembleAll RecvSide.new ((sendAll now l packets).2.map Frame.piece) []).2 =
        packets.map Prod.snd := by
  have hfresh : Fresh RecvSide.new := ⟨rfl, rfl, rfl⟩
  have hgroups : ∀ frames, (reassembleAll RecvSide.new frames []).2 = legal (groups frames) :=
    fun frames => (reassembleAll_spec frames [] hfresh.opened).2
  refine ⟨hgroups, fun frames payload => ?_, fun frames frames' payload => ?_, fun now l packets hlegal => ?_⟩
  · obtain ⟨hopened, -⟩ := reassembleAll_spec frames [] hfresh.opened
    unfold reassembleAll at hopened ⊢
    rw [List.foldl_append]
    exact (hopened.last payload _).1
  · unfold legal groups
    rw [groupsFrom_append frames', openFrom_concat, List.filter_append]
  · rw [hgroups, piece_sendAll, groups_pieces]
    refine List.filter_eq_self.mpr fun payload hmem => decide_eq_true ?_
    obtain ⟨packet, hpacket, rfl⟩ := List.mem_map.mp hmem
    exact hlegal packet hpacket

end NMesh.Udp.Segments
