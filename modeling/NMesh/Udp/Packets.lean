import NMesh.Udp.Delivery
import NMesh.Udp.Segments

/-! # Packets over the channel

The frames are handed over in order (`Delivery`), and a stream of frames stands for packets (`Segments`). Over
a run the receive side releases the groups of what it was handed (`Built`), frame by frame and out of the
buffer alike. So the far end takes the packets that were sent, in order and each once, whatever the channel did
to the frames they were cut into (`packets_delivered`). -/

namespace NMesh.Udp.Packets

open Base.BigEndian Base.Runs NMesh.Udp.Wire NMesh.Udp.Link RecvSide
open NMesh.Udp.Channel NMesh.Udp.Receive NMesh.Udp.Stream NMesh.Udp.Invariant NMesh.Udp.Delivery NMesh.Udp.Segments

/-- The packets that `b` releases at an operation. -/
def released (maxReorder : ℕ) (net : Net) : Bool × Op → List Bytes
  | (true, .frameIn i now) => match net.a.flights[i]? with
    | none => []
    | some fl => (net.b.link.rcv.processIncoming maxReorder fl.frame now).2
  | _ => []

def releasedAll (maxReorder : ℕ) : Net → List (Bool × Op) → List Bytes
  | _, [] => []
  | net, act :: acts => released maxReorder net act ++ releasedAll maxReorder (net.step maxReorder act) acts

/-- `out` is what the frames handed over stand for, and the group they leave open is kept. -/
structure Built (r : RecvSide) (out : List Bytes) : Prop where
  opened : Opened r (openFrom [] r.handed)
  out : out = legal (groups r.handed)

variable {r : RecvSide} {out delivered : List Bytes}

theorem openFrom_append (frames' : List (Bytes × Bool)) : ∀ (frames : List (Bytes × Bool)) (opened : Bytes),
    openFrom opened (frames ++ frames') = openFrom (openFrom opened frames) frames'
  | [], _ => rfl
  | (payload, true) :: frames, opened => openFrom_append frames' frames (opened ++ payload)
  | (_, false) :: frames, _ => openFrom_append frames' frames []

theorem Built.reassemble (h : Built r (out ++ delivered)) (payload : Bytes) (more : Bool) :
    Built (r.reassemble payload more delivered).1 (out ++ (r.reassemble payload more delivered).2) := by
  obtain ⟨-, -, -, -, hhanded⟩ := reassemble_spec r payload more delivered
  have hgroups := groupsFrom_append [(payload, more)] r.handed []
  cases more with
  | true =>
    obtain ⟨hopened, hsame⟩ := h.opened.more payload delivered
    refine ⟨?_, ?_⟩ <;> rw [hhanded]
    · rw [openFrom_append]
      exact hopened
    · rw [hsame, h.out, groups, groups, hgroups]
      exact congrArg legal (List.append_nil _).symm
  | false =>
    obtain ⟨hfresh, hgives⟩ := h.opened.last payload delivered
    refine ⟨?_, ?_⟩ <;> rw [hhanded]
    · rw [openFrom_concat]
      exact hfresh.opened
    · rw [hgives, ← List.append_assoc, h.out, groups, groups, hgroups]
      exact (List.filter_append _ _).symm

theorem Built.flush : ∀ (n : ℕ) {r : RecvSide} {delivered : List Bytes}, Built r (out ++ delivered) →
    Built (r.flush n delivered).1 (out ++ (r.flush n delivered).2)
  | 0, _, _, h => h
  | n + 1, r, delivered, h => by
    unfold RecvSide.flush
    cases hget : r.reorder.get? r.recvNext with
    | none => exact h
    | some piece =>
      have hpopped : Built { r with
          reorder := r.reorder.pop r.recvNext
          reorderBytes := r.reorderBytes - piece.1.length } (out ++ delivered) :=
        ⟨⟨h.opened.spoilt, h.opened.pieces⟩, h.out⟩
      have hnext := hpopped.reassemble piece.1 piece.2
      exact flush n ⟨⟨hnext.opened.spoilt, hnext.opened.pieces⟩, hnext.out⟩

theorem Built.acceptNext (h : Built r out) (payload : Bytes) (more : Bool) :
    Built (r.acceptNext payload more).1 (out ++ (r.acceptNext payload more).2) := by
  have hnext : Built { r with recvNext := mask32 (r.recvNext + 1) } (out ++ []) := by
    rw [List.append_nil]
    exact ⟨⟨h.opened.spoilt, h.opened.pieces⟩, h.out⟩
  have hflush := fun n => (hnext.reassemble payload more).flush n
  exact ⟨⟨(hflush _).opened.spoilt, (hflush _).opened.pieces⟩, (hflush _).out⟩

theorem Built.processIncoming (h : Built r out) (maxReorder : ℕ) (frame : Frame) (now : ℚ) :
    Built (r.processIncoming maxReorder frame now).1 (out ++ (r.processIncoming maxReorder frame now).2) := by
  have hlearn : Built (learn { r with lastRecvTime := now, keepaliveMisses := 0 } frame.seq) out := by
    unfold learn
    split_ifs <;> exact ⟨⟨h.opened.spoilt, h.opened.pieces⟩, h.out⟩
  unfold RecvSide.processIncoming
  dsimp only
  split_ifs
  · rwa [List.append_nil]
  · exact hlearn.acceptNext _ _
  · rw [List.append_nil]
    unfold bufferAhead
    dsimp only
    split_ifs <;> exact ⟨⟨hlearn.opened.spoilt, hlearn.opened.pieces⟩, hlearn.out⟩
  · rw [List.append_nil]
    exact ⟨⟨hlearn.opened.spoilt, hlearn.opened.pieces⟩, hlearn.out⟩

theorem Built.step {maxReorder : ℕ} {net : Net} (h : Built net.b.link.rcv out) (act : Bool × Op) :
    Built (net.step maxReorder act).b.link.rcv (out ++ released maxReorder net act) := by
  have hquiet : Built net.b.link.rcv (out ++ []) := by rwa [List.append_nil]
  obtain ⟨_ | _, op⟩ := act
  · exact hquiet
  · change Built (net.b.act maxReorder net.a op).link.rcv _
    cases op with
    | frameIn i now =>
      unfold Side.act released
      dsimp only
      cases net.a.flights[i]? with
      | none => exact hquiet
      | some fl => exact h.processIncoming maxReorder fl.frame now
    | ackIn i now =>
      unfold Side.act
      dsimp only
      cases net.a.flights[i]? <;> exact hquiet
    | _ => exact hquiet

theorem Built.run (maxReorder : ℕ) : ∀ (acts : List (Bool × Op)) {net : Net} {out : List Bytes},
    Built net.b.link.rcv out →
    Built (Base.Runs.run (Net.step maxReorder) net acts).b.link.rcv (out ++ releasedAll maxReorder net acts)
  | [], _, _, h => by rwa [releasedAll, List.append_nil]
  | act :: acts, _, _, h => by
    rw [releasedAll, ← List.append_assoc]
    exact (h.step act).run maxReorder acts

theorem groups_prefix {frames all : List (Bytes × Bool)} (h : frames <+: all) :
    legal (groups frames) <+: legal (groups all) := by
  obtain ⟨rest, rfl⟩ := h
  rw [groups, groups, groupsFrom_append rest frames, legal, legal, List.filter_append]
  exact List.prefix_append _ _

/-- **Packets arrive in order, each once and unchanged.** -/
theorem packets_delivered (maxReorder seqA seqB : ℕ) (hA : seqA < 4294967296) (acts : List (Bool × Op))
    (h : Guarded (Net.step maxReorder) (Along Near false) (start seqA seqB) acts)
    (packets : List (Bool × Bytes)) (hlegal : ∀ packet ∈ packets, packet.2.length ≤ packetMax)
    (hsent : (run (Net.step maxReorder) (start seqA seqB) acts).a.log.map Frame.piece <+: packets.flatMap pieces) :
    releasedAll maxReorder (start seqA seqB) acts <+: packets.map Prod.snd ∧
      ((run (Net.step maxReorder) (start seqA seqB) acts).b.link.rcv.handed = packets.flatMap pieces →
        releasedAll maxReorder (start seqA seqB) acts = packets.map Prod.snd) := by
  have hbirth : Built (start seqA seqB).b.link.rcv [] := ⟨Fresh.opened ⟨rfl, rfl, rfl⟩, rfl⟩
  have hout := (hbirth.run maxReorder acts).out
  rw [List.nil_append] at hout
  have hall : legal (groups (packets.flatMap pieces)) = packets.map Prod.snd := by
    rw [groups_pieces]
    refine List.filter_eq_self.mpr fun payload hmem => decide_eq_true ?_
    obtain ⟨packet, hpacket, rfl⟩ := List.mem_map.mp hmem
    exact hlegal packet hpacket
  refine ⟨?_, fun hhanded => by rw [hout, hhanded, hall]⟩
  rw [hout, ← hall]
  exact groups_prefix ((delivery maxReorder seqA seqB hA acts h).1.trans hsent)

theorem packets_delivered_swapped : releasedAll 256 (start 4294967295 9) swapped = [[1], [2]] :=
  (packets_delivered 256 4294967295 9 (by decide) swapped (by decide +kernel) [(false, [1]), (false, [2])]
    (by decide) (by decide +kernel)).2 (by decide +kernel)

end NMesh.Udp.Packets
