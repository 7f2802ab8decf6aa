import NMesh.Base.Runs
import NMesh.Udp.Link

/-! # Two links and the channel between them

Every frame a link builds stays in its list of `flights` and may reach the other end any number of
times, in any order, or never: the channel loses, duplicates, delays and reorders. A run is a list
of operations of either end. Reading a frame's acknowledgment (`ackIn`) and reading the frame itself
(`frameIn`) are two operations, which the transport does one after the other, or the first only.

A side keeps a history beside its link, which no operation reads: the sequence number it was born
with, the data frames it framed (`log`: the `n`-th has number `n`), and the number of the frame its
cursor was learned from (`first`). So the cursor, counted from the other link's birth, is
`first + handed.length`. -/

namespace NMesh.Udp.Channel

open Base.BigEndian NMesh.Udp.Wire NMesh.Udp.Link

/-- A frame on its way. -/
structure Flight where
  frame : Frame
  /-- How many data frames its link had framed before it. -/
  number : ℕ
  /-- The cursor of its link when it was built, `none` before the first arrival. -/
  cursor : Option ℕ
  /-- How many data frames the other link had framed when it was built. -/
  seen : ℕ
  deriving DecidableEq

structure Side where
  link : ReliableLink
  init : ℕ
  first : ℕ
  log : List Frame
  flights : List Flight

namespace Side

def birth (seq : ℕ) : Side := ⟨ReliableLink.new seq, seq, 0, [], []⟩

/-- A side whose cursor stands at the sequence number the other link was born with. -/
def opened (seq peer : ℕ) : Side :=
  { birth seq with link.rcv := { RecvSide.new with recvStarted := true, recvNext := peer } }

def cursor (x : Side) : Option ℕ :=
  if x.link.rcv.recvStarted then some (x.first + x.link.rcv.handed.length) else none

def flight (x y : Side) (frame : Frame) : Flight := ⟨frame, x.log.length, x.cursor, y.log.length⟩

def post (x y : Side) (frame : Frame) : Side := { x with flights := x.flights ++ [x.flight y frame] }

end Side

/-- What a link can do. -/
inductive Op
  | segment (payload : Bytes) (more : Bool) (now : ℚ)
  | keepalive
  | ackOnly
  | fin
  | timer (now : ℚ)
  | ackIn (i : ℕ) (now : ℚ)
  | frameIn (i : ℕ) (now : ℚ)

namespace Side

def segment (x y : Side) (payload : Bytes) (more : Bool) (now : ℚ) : Side :=
  let (l, frame) := x.link.buildSegment payload more now
  { x.post y frame with link := l, log := x.log ++ [frame] }

/-- The retransmission timer. What it resends are frames already on the wire. -/
def timer (x : Side) (now : ℚ) : Side :=
  { x with link.snd := (x.link.snd.getRetransmitFrames now).1 }

def ackIn (x : Side) (fl : Flight) (now : ℚ) : Side :=
  { x with link.snd := (x.link.snd.processAck fl.frame.ack fl.frame.sack now).1 }

def frameIn (maxReorder : ℕ) (x : Side) (fl : Flight) (now : ℚ) : Side :=
  { x with
    link.rcv := (x.link.rcv.processIncoming maxReorder fl.frame now).1
    first := if x.link.rcv.recvStarted then x.first else fl.number }

/-- One operation of `x`, whose other end is `y`. -/
def act (maxReorder : ℕ) (x y : Side) : Op → Side
  | .segment payload more now => x.segment y payload more now
  | .keepalive => x.post y x.link.buildKeepalive
  | .ackOnly => x.post y x.link.buildAckOnly
  | .fin => x.post y x.link.buildFin
  | .timer now => x.timer now
  | .ackIn i now => match y.flights[i]? with
    | none => x
    | some fl => x.ackIn fl now
  | .frameIn i now => match y.flights[i]? with
    | none => x
    | some fl => x.frameIn maxReorder fl now

end Side

/-- The two ends. -/
structure Net where
  a : Side
  b : Side

namespace Net

/-- One end: `a` is `false`, `b` is `true`. -/
def side (net : Net) : Bool → Side
  | false => net.a
  | true => net.b

def put (net : Net) : Bool → Side → Net
  | false, x => { net with a := x }
  | true, x => { net with b := x }

@[simp] theorem side_put_self (net : Net) (p : Bool) (x : Side) : (net.put p x).side p = x := by
  cases p <;> rfl

@[simp] theorem side_put_not (net : Net) (p : Bool) (x : Side) :
    (net.put p x).side (!p) = net.side (!p) := by
  cases p <;> rfl

@[simp] theorem side_put_of_not (net : Net) (p : Bool) (x : Side) :
    (net.put (!p) x).side p = net.side p := by
  cases p <;> rfl

/-- Both links at their birth, with the sequence numbers they drew. -/
def birth (seqA seqB : ℕ) : Net := ⟨Side.birth seqA, Side.birth seqB⟩

def step (maxReorder : ℕ) (net : Net) (act : Bool × Op) : Net :=
  net.put act.1 ((net.side act.1).act maxReorder (net.side !act.1) act.2)

end Net

end NMesh.Udp.Channel
