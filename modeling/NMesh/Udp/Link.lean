import NMesh.Base.Ordered
import NMesh.Udp.Wire
import Mathlib.Algebra.Order.Ring.Rat

/-! # The reliable link

`ReliableLink` is one end of a UDP link: a send side (the frames in flight, the timer and the congestion
window) and a receive side (the cursor, the out-of-order buffer and the packet being rebuilt).
Acknowledgments are read by the send side (`processAck`), frames by the receive side
(`processIncoming`), and every frame built carries the receive side's acknowledgment (`buildAck`).

Times and window sizes are floats in the source and rationals here; `now` is the clock's reading. -/

namespace NMesh.Udp.Link

open Base.BigEndian Base.Ordered NMesh.Udp.Wire

/-- One frame in flight. -/
structure Sent where
  frame : Frame
  deadline : ℚ
  sentAt : ℚ
  resent : Bool
  fast : Bool
  resentAt : ℚ
  deriving DecidableEq

structure SendSide where
  sendSeq : ℕ
  unacked : Dict ℕ Sent
  inflight : ℤ
  srtt : Option ℚ
  rttvar : ℚ
  minRtt : Option ℚ
  lateOriginal : Bool
  rtoBase : ℚ
  rtoFloor : ℚ
  backoff : ℕ
  rto : ℚ
  cwnd : ℚ
  ssthresh : ℚ
  recover : ℕ
  frto : ℕ
  undo : Option (ℚ × ℚ × Bool)
  retransmits : ℕ
  timeouts : ℕ
  spurious : ℕ
  spuriousFast : ℕ

structure RecvSide where
  recvNext : ℕ
  recvStarted : Bool
  reorder : Dict ℕ (Bytes × Bool)
  reorderBytes : ℤ
  sack : ℕ
  parts : List Bytes
  partialBytes : ℕ
  partialSpoilt : Bool
  ackPending : Bool
  lastRecvTime : ℚ
  keepaliveMisses : ℕ
  reordered : ℕ
  /-- History, read by no operation: the frames handed to `reassemble` so far. -/
  handed : List (Bytes × Bool)

structure ReliableLink where
  snd : SendSide
  rcv : RecvSide

/-- The send side of a new link whose first sequence number is `seq`. -/
def SendSide.new (seq : ℕ) : SendSide where
  sendSeq := seq
  unacked := Dict.empty
  inflight := 0
  srtt := none
  rttvar := 0
  minRtt := none
  lateOriginal := false
  rtoBase := rtoInitial
  rtoFloor := rtoFloorDefault
  backoff := 1
  rto := rtoInitial
  cwnd := cwndInitial
  ssthresh := cwndMax
  recover := seq
  frto := 0
  undo := none
  retransmits := 0
  timeouts := 0
  spurious := 0
  spuriousFast := 0

def RecvSide.new : RecvSide where
  recvNext := 0
  recvStarted := false
  reorder := Dict.empty
  reorderBytes := 0
  sack := 0
  parts := []
  partialBytes := 0
  partialSpoilt := false
  ackPending := false
  lastRecvTime := 0
  keepaliveMisses := 0
  reordered := 0
  handed := []

def ReliableLink.new (seq : ℕ) : ReliableLink := ⟨SendSide.new seq, RecvSide.new⟩

/-! ### Building frames -/

namespace RecvSide

def buildAck (r : RecvSide) : ℕ × ℕ := (mask32 (r.recvNext - 1), r.sack)

end RecvSide

namespace SendSide

/-- Is there room in the window for a frame of `size` bytes? -/
def canSend (s : SendSide) (size : ℕ) : Bool :=
  if s.unacked.size = 0 then true
  else decide (s.unacked.size < maxUnacked) && decide ((s.inflight + size : ℚ) ≤ s.cwnd)

end SendSide

namespace ReliableLink

def buildSegment (l : ReliableLink) (payload : Bytes) (more : Bool) (now : ℚ) : ReliableLink × Frame :=
  let (ack, sack) := l.rcv.buildAck
  let flags := flagData ||| flagSegments ||| (if more then flagMore else 0)
  let frame : Frame := ⟨l.snd.sendSeq, ack, sack, flags, payload⟩
  let snd := { l.snd with
    sendSeq := mask32 (l.snd.sendSeq + 1)
    unacked := l.snd.unacked.set l.snd.sendSeq ⟨frame, now + l.snd.rto, now, false, false, 0⟩
    inflight := l.snd.inflight + frame.len }
  ({ l with snd := snd }, frame)

/-- The frames without payload: they carry the next unsent number and are not tracked. -/
def buildControl (l : ReliableLink) (flag : ℕ) : Frame :=
  let (ack, sack) := l.rcv.buildAck
  ⟨l.snd.sendSeq, ack, sack, flag ||| flagSegments, []⟩

def buildKeepalive (l : ReliableLink) : Frame := l.buildControl flagKeepalive

def buildAckOnly (l : ReliableLink) : Frame := l.buildControl flagAckOnly

def buildFin (l : ReliableLink) : Frame := l.buildControl flagFin

end ReliableLink

/-! ### Reading acknowledgments -/

namespace SendSide

/-- Was `seq` sent before the last reduction of the window? -/
def beforeRecover (s : SendSide) (seq : ℕ) : Bool := decide (0x80000000 ≤ mask32 (seq - s.recover))

def outstandingBeforeRecover (s : SendSide) : Bool := s.unacked.keys.any s.beforeRecover

def setTimer (s : SendSide) : SendSide :=
  let base := min rtoMax (max s.rtoFloor (s.srtt.getD 0 + max rtxCheck (4 * s.rttvar)))
  { s with rtoBase := base, rto := min rtoMax (base * s.backoff) }

def sample (s : SendSide) (rtt : ℚ) : SendSide :=
  let rtt := max 0 rtt
  let minRtt := match s.minRtt with
    | none => rtt
    | some m => if rtt < m then rtt else m
  let (srtt, rttvar) := match s.srtt with
    | none => (rtt, rtt / 2)
    | some srtt => (7 / 8 * srtt + 1 / 8 * rtt, 3 / 4 * s.rttvar + 1 / 4 * |srtt - rtt|)
  setTimer { s with minRtt := some minRtt, srtt := some srtt, rttvar := rttvar, backoff := 1 }

/-- Retire one frame; time it if its round trip means anything. -/
def acknowledge (s : SendSide) (entry : Sent) (now : ℚ) : SendSide :=
  let s := { s with inflight := s.inflight - entry.frame.len }
  if !entry.resent then s.sample (now - entry.sentAt)
  else match s.minRtt with
    | none => s
    | some m =>
      if now - entry.resentAt < m / 2 then
        { s.sample (now - entry.sentAt) with lateOriginal := true }
      else s

/-- Take `seq` out of the frames in flight, if it is there, and count its bytes. -/
def popSeq (now : ℚ) (p : SendSide × ℕ) (seq : ℕ) : SendSide × ℕ :=
  match p.1.unacked.get? seq with
  | none => p
  | some entry =>
    (acknowledge { p.1 with unacked := p.1.unacked.pop seq } entry now, p.2 + entry.frame.len)

/-- The prefix of the frames in flight that `ack` acknowledges. -/
def cleared (ack : ℕ) (keys : List ℕ) : List ℕ :=
  keys.takeWhile fun s => decide (mask32 (ack - s) < maxUnacked)

/-- The numbers the bits of `sack` stand for, counted from `base`. -/
def sackedSeqs (base sack : ℕ) : List ℕ :=
  ((List.range 32).filter fun i => sack.testBit i).map fun i : ℕ => mask32 (base + i)

/-- The originals were only late: undo the cut of the window, once. -/
def needlessCut (s : SendSide) : SendSide :=
  let s := match s.undo with
    | some (_, _, timeout) =>
      if s.frto ≠ 0 || timeout then { s with spurious := s.spurious + 1 }
      else { s with spuriousFast := s.spuriousFast + 1 }
    | none => if s.frto ≠ 0 then { s with spurious := s.spurious + 1 } else s
  let s := match s.undo with
    | some (cwnd, ssthresh, _) =>
      { s with cwnd := max s.cwnd cwnd, ssthresh := max s.ssthresh ssthresh }
    | none => s
  { s with frto := 0, undo := none }

/-- A real loss after all: what the timeout held back goes now. -/
def frtoLost (s : SendSide) (now : ℚ) : SendSide :=
  { s with
    frto := 0
    undo := none
    unacked := s.unacked.mapVal fun seq entry =>
      if !entry.resent && s.beforeRecover seq then { entry with deadline := now } else entry }

/-- Decide a timeout from the acknowledgments that follow it. -/
def frtoStep (s : SendSide) (advanced sack : ℕ) (now : ℚ) : SendSide :=
  if advanced = 0 then (if sack ≠ 0 then s.frtoLost now else s)
  else if s.frto = 1 ∧ s.outstandingBeforeRecover then { s with frto := 2 }
  else if s.frto = 2 then s.needlessCut
  else { s with frto := 0, undo := none }

def grow (s : SendSide) (acked : ℕ) : SendSide :=
  let cwnd := if s.cwnd < s.ssthresh then s.cwnd + acked else s.cwnd + acked * cwndStep / s.cwnd
  { s with cwnd := min cwnd cwndMax }

/-- One congestion event: halve the window, once per window of frames. -/
def loss (s : SendSide) (seq : ℕ) (timeout : Bool) : SendSide :=
  if s.beforeRecover seq then s
  else
    let ssthresh := max (s.cwnd / 2) cwndMin
    { s with
      undo := some (s.cwnd, s.ssthresh, timeout)
      ssthresh := ssthresh
      cwnd := if timeout then cwndMin else ssthresh
      recover := s.sendSeq }

/-- The walk over the holes below `above` selectively acknowledged frames. -/
def fastWalk (base sack : ℕ) (now : ℚ) :
    List ℕ → ℕ → SendSide × List Frame → SendSide × List Frame
  | [], _, p => p
  | i :: is, above, p =>
    if above < dupThreshold then p
    else if sack.testBit i then fastWalk base sack now is (above - 1) p
    else
      let seq := mask32 (base + i)
      match p.1.unacked.get? seq with
      | none => fastWalk base sack now is above p
      | some entry =>
        if entry.fast then fastWalk base sack now is above p
        else
          let entry' := { entry with
            fast := true, resent := true, resentAt := now, deadline := now + p.1.rto }
          let s := { p.1 with unacked := p.1.unacked.set seq entry' }
          fastWalk base sack now is above (s.loss seq false, p.2 ++ [entry.frame])

def fastRetransmit (s : SendSide) (base sack : ℕ) (now : ℚ) : SendSide × List Frame :=
  let above := (List.range 32).countP fun i => sack.testBit i
  let (s, frames) := fastWalk base sack now (List.range 32) above (s, [])
  ({ s with retransmits := s.retransmits + frames.length }, frames)

/-- What follows the retirements: the timeout's verdict and the growth of the window. -/
def settle (s : SendSide) (advanced sack acked : ℕ) (now : ℚ) : SendSide :=
  let s :=
    if s.lateOriginal then needlessCut { s with lateOriginal := false }
    else if s.frto ≠ 0 then s.frtoStep advanced sack now
    else s
  if acked ≠ 0 then s.grow acked else s

/-- Process an acknowledgment pair; the frames to resend now. -/
def processAck (s : SendSide) (ack sack : ℕ) (now : ℚ) : SendSide × List Frame :=
  let gone := cleared ack s.unacked.keys
  let p := gone.foldl (popSeq now) (s, 0)
  let base := mask32 (ack + 1)
  let p := (sackedSeqs base sack).foldl (popSeq now) p
  let s := p.1.settle gone.length sack p.2 now
  if sack ≠ 0 then s.fastRetransmit base sack now else (s, [])

/-! ### The retransmission timer -/

def expired (s : SendSide) (now : ℚ) : List (ℕ × Sent) :=
  s.unacked.entries.filter fun e => decide (e.2.deadline ≤ now)

def postpone (s : SendSide) (now : ℚ) : SendSide :=
  { s with unacked := s.unacked.mapVal fun _ entry =>
      if entry.deadline ≤ now then { entry with deadline := now + s.rto } else entry }

def markResent (s : SendSide) (seq : ℕ) (entry : Sent) (now : ℚ) : SendSide :=
  let entry := { entry with deadline := now + s.rto, resent := true, resentAt := now }
  { s with unacked := s.unacked.set seq entry }

/-- Resend the expired frames the budget allows; the rest waits for the next round. -/
def resendWalk (now : ℚ) : List (ℕ × Sent) → ℚ → SendSide × List Frame → SendSide × List Frame
  | [], _, p => p
  | (seq, entry) :: es, budget, p =>
    if budget < entry.frame.len ∧ p.2 ≠ [] then resendWalk now es budget p
    else resendWalk now es (budget - entry.frame.len)
      (p.1.markResent seq entry now, p.2 ++ [entry.frame])

def resendRound (s : SendSide) (due : List (ℕ × Sent)) (first : Sent) (now : ℚ) :
    SendSide × List Frame :=
  let (s, frames) := resendWalk now due (max s.cwnd first.frame.len) (s.postpone now, [])
  ({ s with retransmits := s.retransmits + frames.length }, frames)

def getRetransmitFrames (s : SendSide) (now : ℚ) : SendSide × List Frame :=
  match s.unacked.entries, s.expired now with
  | [], _ => (s, [])
  | _, [] => (s, [])
  | (oldest, first) :: _, (seq, due) :: rest =>
    if seq = oldest then
      if first.resent || !s.beforeRecover oldest then
        let backoff := min (s.backoff * 2) 64
        let s := { s with
          timeouts := s.timeouts + 1
          backoff := backoff
          rto := min rtoMax (s.rtoBase * backoff) }
        if !first.resent then
          let s := postpone { s.loss oldest true with frto := 1 } now
          ({ s.markResent oldest first now with retransmits := s.retransmits + 1 }, [first.frame])
        else resendRound { s with frto := 0, undo := none } ((seq, due) :: rest) due now
      else resendRound { s with frto := 0, undo := none } ((seq, due) :: rest) due now
    else resendRound s ((seq, due) :: rest) due now

end SendSide

/-! ### Reading frames -/

namespace RecvSide

/-- Set the bit of `seq` in a bitmap counted from `next`, if it has one. -/
def withBit (next sack seq : ℕ) : ℕ :=
  let offset := mask32 (seq - next)
  if 0 < offset ∧ offset < 32 then sack ||| (1 <<< offset) else sack

def recomputeSack (r : RecvSide) : RecvSide :=
  { r with sack := r.reorder.keys.foldl (withBit r.recvNext) 0 }

def reassemble (r : RecvSide) (payload : Bytes) (more : Bool) (delivered : List Bytes) :
    RecvSide × List Bytes :=
  let r := { r with handed := r.handed ++ [(payload, more)] }
  if r.partialSpoilt || decide (headerSize + maxPayload < r.partialBytes + payload.length) then
    ({ r with partialSpoilt := more, parts := [], partialBytes := 0 }, delivered)
  else if !more && r.parts.isEmpty then (r, delivered ++ [payload])
  else
    let r := { r with parts := r.parts ++ [payload], partialBytes := r.partialBytes + payload.length }
    if !more then ({ r with parts := [], partialBytes := 0 }, delivered ++ [r.parts.flatten])
    else (r, delivered)

/-- Hand over the consecutive buffered frames, at most `n` of them. -/
def flush : ℕ → RecvSide → List Bytes → RecvSide × List Bytes
  | 0, r, delivered => (r, delivered)
  | n + 1, r, delivered =>
    match r.reorder.get? r.recvNext with
    | none => (r, delivered)
    | some (buffered, more) =>
      let r := { r with
        reorder := r.reorder.pop r.recvNext
        reorderBytes := r.reorderBytes - buffered.length }
      let (r, delivered) := r.reassemble buffered more delivered
      flush n { r with recvNext := mask32 (r.recvNext + 1) } delivered

def learn (r : RecvSide) (seq : ℕ) : RecvSide :=
  if r.recvStarted then r else { r with recvStarted := true, recvNext := seq }

/-- A frame at the cursor: deliver it and what it releases. The buffer holds no more frames than it
has entries, which bounds the flush. -/
def acceptNext (r : RecvSide) (payload : Bytes) (more : Bool) : RecvSide × List Bytes :=
  let r := { r with recvNext := mask32 (r.recvNext + 1) }
  let (r, delivered) := r.reassemble payload more []
  let (r, delivered) := r.flush r.reorder.size delivered
  ({ r.recomputeSack with ackPending := true }, delivered)

/-- A frame ahead of the cursor: buffer it, unless it is there or there is no room. -/
def bufferAhead (maxReorder : ℕ) (r : RecvSide) (seq : ℕ) (payload : Bytes) (more : Bool) :
    RecvSide :=
  let r :=
    if r.reorder.get? seq = none ∧ r.reorder.size < maxReorder ∧
        r.reorderBytes + payload.length ≤ maxReorderBytes then
      { r with
        reorder := r.reorder.set seq (payload, more)
        reorderBytes := r.reorderBytes + payload.length
        reordered := r.reordered + 1
        sack := withBit r.recvNext r.sack seq }
    else r
  { r with ackPending := true }

/-- Process an incoming frame; the packets it completes. `maxReorder` is the setting
`max_reorder`. -/
def processIncoming (maxReorder : ℕ) (r : RecvSide) (frame : Frame) (now : ℚ) :
    RecvSide × List Bytes :=
  let r := learn { r with lastRecvTime := now, keepaliveMisses := 0 } frame.seq
  if frame.has (flagAckOnly ||| flagKeepalive ||| flagFin) then (r, [])
  else
    let dist := mask32 (frame.seq - r.recvNext)
    if dist = 0 then r.acceptNext frame.payload (frame.has flagMore)
    else if dist < 0x80000000 then
      (r.bufferAhead maxReorder frame.seq frame.payload (frame.has flagMore), [])
    else ({ r with ackPending := true }, [])

theorem processIncoming_eq (maxReorder : ℕ) {r q : RecvSide} {frame : Frame} {now : ℚ}
    (hq : q = learn { r with lastRecvTime := now, keepaliveMisses := 0 } frame.seq) :
    r.processIncoming maxReorder frame now =
      if frame.has (flagAckOnly ||| flagKeepalive ||| flagFin) then (q, [])
      else if mask32 (frame.seq - q.recvNext) = 0 then q.acceptNext frame.payload (frame.has flagMore)
      else if mask32 (frame.seq - q.recvNext) < 0x80000000 then
        (q.bufferAhead maxReorder frame.seq frame.payload (frame.has flagMore), [])
      else ({ q with ackPending := true }, []) := by
  rw [hq]
  rfl

end RecvSide

end NMesh.Udp.Link
