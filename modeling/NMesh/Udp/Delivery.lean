import NMesh.Udp.Invariant

/-! # Ordered delivery

When the receiver's cursor starts at the sender's first number and no frame is taken more than
`2 ^ 31` numbers behind the cursor or `2 ^ 32` ahead of it, the frames handed over are at every moment
a prefix of the frames framed, and the bitmap tells the buffer (`delivery`). The second bound is
needed: `2 ^ 32` frames later a sequence number comes back, and without an acknowledgment nothing in
the two operations tells the new frame from the old one (`delivery_wraps`). -/

namespace NMesh.Udp.Delivery

open Base.BigEndian Base.Ordered Base.Runs NMesh.Udp.Wire NMesh.Udp.Link
open NMesh.Udp.Channel NMesh.Udp.Receive NMesh.Udp.Stream NMesh.Udp.Invariant

/-- The sender `a` at its birth, the cursor of `b` at the number `a` was born with. -/
def start (seqA seqB : ℕ) : Net := ⟨Side.birth seqA, Side.opened seqB seqA⟩

/-- What is promised of the receiver `b`: a prefix is handed over, and the bitmap tells the buffer. -/
def Delivers (net : Net) : Prop :=
  net.b.link.rcv.handed <+: net.a.log.map Frame.piece ∧
    ∀ i : ℕ, 0 < i → i < 32 → (net.b.link.rcv.sack.testBit i ↔
      mask32 (net.b.link.rcv.recvNext + i) ∈ net.b.link.rcv.reorder.keys)

theorem received_opened (seqA seqB : ℕ) (h : seqA < 4294967296) :
    Received seqA [] 0 (Side.opened seqB seqA).link.rcv := by
  refine Or.inr ⟨⟨rfl, (seq32_zero h).symm, le_rfl, List.nil_prefix, fun k v hk => by cases hk⟩,
    Nat.zero_testBit 0, fun i hi h32 => ?_⟩
  simp [Side.opened, RecvSide.new]

/-- A started receiver that follows the sender from its first number. -/
structure Opened (d : Direction) : Prop where
  sound : Sound d
  started : d.rcv.recvStarted = true
  first : d.first = 0

theorem Opened.step {d d' : Direction} {e : Event} {maxReorder : ℕ} (h : Opened d) (hn : Near d e)
    (hs : Step maxReorder d e d') : Opened d' := by
  refine ⟨h.sound.step hs hn, ?_, ?_⟩
  · cases hs with
    | @frameIn fl now hfl =>
      have hr := (processIncoming_spec maxReorder now h.sound.rcv
        (h.sound.down fl hfl) hn).1
      exact hr.started
    | _ => exact h.started
  · cases hs with
    | frameIn hfl => exact (if_pos h.started).trans h.first
    | _ => exact h.first

/-- **Ordered, exactly-once delivery.** -/
theorem delivery (maxReorder seqA seqB : ℕ) (hA : seqA < 4294967296) (acts : List (Bool × Op))
    (h : Guarded (Net.step maxReorder) (Along Near false) (start seqA seqB) acts) :
    Delivers (run (Net.step maxReorder) (start seqA seqB) acts) := by
  have h0 : Opened ((start seqA seqB).stream false) :=
    ⟨sound_start hA (received_opened seqA seqB hA), rfl, rfl⟩
  have hd := along_run (fun d e d' hp hg hs => Opened.step hp hg hs) h0 h
  obtain ⟨hf, hb⟩ := hd.sound.rcv.follows hd.started
  refine ⟨?_, hb.2⟩
  have hh := hf.handed
  rw [hd.first] at hh
  exact hh

def swapped : List (Bool × Op) :=
  [(false, .segment [1] false 0), (false, .segment [2] false 0), (true, .frameIn 1 0),
    (true, .frameIn 0 0)]

theorem delivery_swapped : Guarded (Net.step 256) (Along Near false) (start 4294967295 9) swapped ∧
    Delivers (run (Net.step 256) (start 4294967295 9) swapped) := by
  have h : Guarded (Net.step 256) (Along Near false) (start 4294967295 9) swapped := by
    decide +kernel
  exact ⟨h, delivery 256 4294967295 9 (by decide) swapped h⟩

/-! ### A sequence number that comes back -/

/-- The frame is taken no more than `2 ^ 31` numbers behind the cursor. -/
def Recent (d : Direction) : Event → Prop
  | .frameIn fl _ => d.rcv.recvStarted = true → d.cur ≤ fl.number + 2147483648
  | _ => True

/-- `n` frames with payload `0` are lost, and the next, with payload `1`, arrives. -/
def lost (n : ℕ) : List (Bool × Op) :=
  List.replicate n (false, .segment [0] false 0) ++
    [(false, .segment [1] false 0), (true, .frameIn n 0)]

/-- The ends after `n` frames were framed and lost. -/
structure Lost (n : ℕ) (net : Net) : Prop where
  seq : net.a.link.snd.sendSeq = seq32 0 n
  log : net.a.log.map Frame.piece = List.replicate n ([0], false)
  flights : net.a.flights.length = n
  rcv : net.b = Side.opened 9 0

theorem Lost.segment {n : ℕ} {net : Net} (h : Lost n net) (maxReorder : ℕ) :
    Lost (n + 1) (net.step maxReorder (false, .segment [0] false 0)) where
  seq := by
    change mask32 (net.a.link.snd.sendSeq + 1) = _
    rw [h.seq, seq32_succ]
  log := by
    change (net.a.log ++ [(net.a.link.buildSegment [0] false 0).2]).map Frame.piece = _
    rw [List.map_append, h.log, List.replicate_succ', List.map_singleton, Net.segment_piece]
  flights := by
    change (net.a.flights ++ [_]).length = _
    rw [List.length_append, h.flights]; rfl
  rcv := h.rcv

theorem lost_run (maxReorder : ℕ) : ∀ n : ℕ, Lost n
    (run (Net.step maxReorder) (start 0 9) (List.replicate n (false, .segment [0] false 0)))
  | 0 => ⟨(seq32_zero (by decide : 0 < 4294967296)).symm, rfl, rfl, rfl⟩
  | n + 1 => by
    rw [List.replicate_succ', run_concat]
    exact (lost_run maxReorder n).segment maxReorder

theorem guarded_replicate (maxReorder : ℕ) : ∀ (n : ℕ) (net : Net),
    Guarded (Net.step maxReorder) (Along Recent false) net
      (List.replicate n (false, .segment [0] false 0))
  | 0, _ => trivial
  | n + 1, _ => ⟨trivial, guarded_replicate maxReorder n _⟩

theorem handed_acceptNext {r : RecvSide} (hr : r.reorder = Dict.empty) (payload : Bytes) (more : Bool) :
    (r.acceptNext payload more).1.handed = r.handed ++ [(payload, more)] := by
  unfold RecvSide.acceptNext
  dsimp only
  set q := RecvSide.reassemble { r with recvNext := mask32 (r.recvNext + 1) } payload more [] with hq
  obtain ⟨-, -, h3, -, h5⟩ :=
    reassemble_spec { r with recvNext := mask32 (r.recvNext + 1) } payload more []
  rw [← hq] at h3 h5
  rw [h3, hr]
  exact h5

theorem opened_takes (maxReorder : ℕ) {f : Frame} (hseq : f.seq = 0)
    (hd : f.has flagsControl = false) :
    ((Side.opened 9 0).link.rcv.processIncoming maxReorder f 0).1.handed = [f.piece] := by
  unfold RecvSide.processIncoming
  dsimp only
  have h0 : mask32 ((0 : ℕ) - (0 : ℕ)) = 0 := by decide
  rw [hseq, if_neg (by rw [hd]; decide)]
  exact (congrArg (fun p : RecvSide × List Bytes => p.1.handed) (if_pos h0)).trans
    (handed_acceptNext rfl f.payload _)

theorem eventUp_frameIn {x y : Side} {i : ℕ} {now : ℚ} {fl : Flight} (h : x.flights[i]? = some fl) :
    Net.eventUp x y (.frameIn i now) = .frameIn fl now := by
  simp only [Net.eventUp, h]

theorem act_frameIn {maxReorder : ℕ} {x y : Side} {i : ℕ} {now : ℚ} {fl : Flight} (h : y.flights[i]? = some fl) :
    x.act maxReorder y (.frameIn i now) = x.frameIn maxReorder fl now := by
  simp only [Side.act, h]

theorem lost_delivered (maxReorder n : ℕ) (hn : seq32 0 n = 0) :
    Guarded (Net.step maxReorder) (Along Recent false) (start 0 9) (lost n) ∧
      (run (Net.step maxReorder) (start 0 9) (lost n)).b.link.rcv.handed = [([1], false)] := by
  have hl := lost_run maxReorder n
  unfold lost
  rw [guarded_append, run_append]
  set net := run (Net.step maxReorder) (start 0 9) (List.replicate n (false, .segment [0] false 0))
  set fl := net.a.flight net.b (net.a.link.buildSegment [1] false 0).2
  set net' := Net.step maxReorder net (false, .segment [1] false 0)
  have hget : (net'.side false).flights[n]? = some fl := by
    change (net.a.flights ++ [fl])[n]? = some fl
    rw [← hl.flights]; exact List.getElem?_concat_length
  refine ⟨⟨guarded_replicate maxReorder n _, trivial, ?_, trivial⟩, ?_⟩
  · change Recent _ (Net.eventUp (net'.side false) (net'.side true) (.frameIn n 0))
    rw [eventUp_frameIn hget]
    intro _
    change net.b.first + net.b.link.rcv.handed.length ≤ _
    rw [hl.rcv]
    exact Nat.zero_le _
  · change ((net'.side true).act maxReorder (net'.side false) (.frameIn n 0)).link.rcv.handed = _
    rw [act_frameIn hget]
    change (net.b.link.rcv.processIncoming maxReorder fl.frame 0).1.handed = _
    rw [hl.rcv]
    refine (opened_takes maxReorder (hl.seq.trans hn) (Net.segment_has _ [1] false 0)).trans ?_
    rw [Net.segment_piece]

theorem lost_log (maxReorder n : ℕ) :
    (run (Net.step maxReorder) (start 0 9) (lost n)).a.log.map Frame.piece =
      List.replicate n ([0], false) ++ [([1], false)] := by
  unfold lost
  rw [run_append, ← (lost_run maxReorder n).log]
  set net := run (Net.step maxReorder) (start 0 9) (List.replicate n (false, .segment [0] false 0))
  change (net.a.log ++ [(net.a.link.buildSegment [1] false 0).2]).map Frame.piece = _
  rw [List.map_append, List.map_singleton, Net.segment_piece]

/-- **Without a bound ahead of the cursor, what is handed over need not be what was framed.** -/
theorem delivery_wraps :
    Guarded (Net.step 256) (Along Recent false) (start 0 9) (lost 4294967296) ∧
      ¬ Delivers (run (Net.step 256) (start 0 9) (lost 4294967296)) := by
  obtain ⟨hg, hh⟩ := lost_delivered 256 4294967296 (by decide)
  refine ⟨hg, fun hd => ?_⟩
  have hp := hd.1
  rw [hh, lost_log] at hp
  have h0 := List.prefix_iff_getElem?.mp hp 0 (by decide)
  rw [List.getElem?_append_left (by rw [List.length_replicate]; decide), List.getElem?_replicate,
    if_pos (by decide)] at h0
  cases h0

end NMesh.Udp.Delivery
