import NMesh.Udp.Book
import NMesh.Udp.Channel
import NMesh.Udp.Receive

/-! # One direction of the link

A `Stream` is what matters to the frames of one end and the acknowledgments of the other: the book of
frames in flight and the next sequence number of the one, the receive side of the other, and what is
on the wire both ways. Timers, the window and the other direction are left out. `step_stream` shows
that every operation of the two ends is, for the stream, the event that `Net.event` names.

`Sound` is what holds of a stream in every run whose frames are taken near the cursor (`Near`):
every frame on the wire says what was true when it was built, and frames that have arrived stay. -/

namespace NMesh.Udp.Stream

open Base.BigEndian Base.Ordered NMesh.Udp.Wire NMesh.Udp.Link NMesh.Udp.Channel
open NMesh.Udp.Book NMesh.Udp.Receive

abbrev flagsControl : ℕ := flagAckOnly ||| flagKeepalive ||| flagFin

structure Direction where
  book : Dict ℕ Frame
  nextSeq : ℕ
  init : ℕ
  log : List Frame
  down : List Flight
  rcv : RecvSide
  first : ℕ
  up : List Flight

namespace Direction

def sent (d : Direction) : ℕ := d.log.length

def cur (d : Direction) : ℕ := d.first + d.rcv.handed.length

/-- Number `n` has arrived. -/
def Arrived (d : Direction) (n : ℕ) : Prop := Has d.init d.first d.rcv n

end Direction

inductive Event
  | idle
  | segment (fl : Flight) (now : ℚ)
  | control (fl : Flight)
  | timer (now : ℚ)
  | ackIn (fl : Flight) (now : ℚ)
  | answer (fl : Flight)
  | frameIn (fl : Flight) (now : ℚ)

/-- One event of a direction. -/
inductive Step (maxReorder : ℕ) (d : Direction) : Event → Direction → Prop
  | idle : Step maxReorder d .idle d
  | segment {fl : Flight} {now : ℚ} (hseq : fl.frame.seq = d.nextSeq)
      (hdata : fl.frame.has flagsControl = false) (hn : fl.number = d.log.length) :
      Step maxReorder d (.segment fl now) { d with
        book := d.book.set d.nextSeq fl.frame
        nextSeq := mask32 (d.nextSeq + 1)
        log := d.log ++ [fl.frame]
        down := d.down ++ [fl] }
  | control {fl : Flight} (hseq : fl.frame.seq = d.nextSeq)
      (hctl : fl.frame.has flagsControl = true) (hn : fl.number = d.log.length) :
      Step maxReorder d (.control fl) { d with down := d.down ++ [fl] }
  | timer {now : ℚ} : Step maxReorder d (.timer now) d
  | ackIn {fl : Flight} {now : ℚ} (hfl : fl ∈ d.up) : Step maxReorder d (.ackIn fl now) { d with
      book := d.book.filterKeys fun k =>
        decide (¬ Strikes fl.frame.ack fl.frame.sack d.book.keys k) }
  | answer {fl : Flight} (hack : (fl.frame.ack, fl.frame.sack) = d.rcv.buildAck)
      (hcur : fl.cursor = if d.rcv.recvStarted then some d.cur else none)
      (hseen : fl.seen = d.log.length) :
      Step maxReorder d (.answer fl) { d with up := d.up ++ [fl] }
  | frameIn {fl : Flight} {now : ℚ} (hfl : fl ∈ d.down) : Step maxReorder d (.frameIn fl now) { d with
      rcv := (d.rcv.processIncoming maxReorder fl.frame now).1
      first := firstAfter d.rcv d.first fl.number }

end NMesh.Udp.Stream

namespace NMesh.Udp.Channel.Net

open Base.BigEndian NMesh.Udp.Wire NMesh.Udp.Link NMesh.Udp.Channel NMesh.Udp.Book
open NMesh.Udp.Receive
open NMesh.Udp.Stream

/-- The direction whose sender is `p`. -/
def stream (net : Net) (p : Bool) : Direction where
  book := book (net.side p).link.snd
  nextSeq := (net.side p).link.snd.sendSeq
  init := (net.side p).init
  log := (net.side p).log
  down := (net.side p).flights
  rcv := (net.side !p).link.rcv
  first := (net.side !p).first
  up := (net.side !p).flights

/-- What an operation of the sender is for its direction. -/
def eventDown (x y : Side) : Op → Event
  | .segment payload more now =>
    .segment (x.flight y (x.link.buildSegment payload more now).2) now
  | .keepalive => .control (x.flight y x.link.buildKeepalive)
  | .ackOnly => .control (x.flight y x.link.buildAckOnly)
  | .fin => .control (x.flight y x.link.buildFin)
  | .timer now => .timer now
  | .ackIn i now => match y.flights[i]? with
    | none => .idle
    | some fl => .ackIn fl now
  | .frameIn _ _ => .idle

/-- What an operation of the receiver is for the direction. -/
def eventUp (x y : Side) : Op → Event
  | .segment payload more now => .answer (y.flight x (y.link.buildSegment payload more now).2)
  | .keepalive => .answer (y.flight x y.link.buildKeepalive)
  | .ackOnly => .answer (y.flight x y.link.buildAckOnly)
  | .fin => .answer (y.flight x y.link.buildFin)
  | .timer _ => .idle
  | .ackIn _ _ => .idle
  | .frameIn i now => match x.flights[i]? with
    | none => .idle
    | some fl => .frameIn fl now

/-- **What an operation is for the direction whose sender is `p`.** -/
def event (net : Net) (p : Bool) (act : Bool × Op) : Event :=
  if act.1 = p then eventDown (net.side p) (net.side !p) act.2
  else eventUp (net.side p) (net.side !p) act.2

theorem control_has (l : ReliableLink) {flag : ℕ} (h : (flag ||| flagSegments) &&& flagsControl ≠ 0) :
    (l.buildControl flag).has flagsControl = true := by
  simpa [ReliableLink.buildControl, Frame.has] using h

theorem segment_has (l : ReliableLink) (payload : Bytes) (more : Bool) (now : ℚ) :
    (l.buildSegment payload more now).2.has flagsControl = false := by
  have h : (flagData ||| flagSegments ||| (if more then flagMore else 0)) &&& flagsControl = 0 := by
    cases more <;> decide
  simpa [ReliableLink.buildSegment, Frame.has] using h

theorem segment_piece (l : ReliableLink) (payload : Bytes) (more : Bool) (now : ℚ) :
    (l.buildSegment payload more now).2.piece = (payload, more) := by
  have h : ((flagData ||| flagSegments ||| (if more then flagMore else 0)) &&& flagMore != 0) =
      more := by cases more <;> decide
  simpa [ReliableLink.buildSegment, Frame.piece, Frame.has] using h

theorem step_down (maxReorder : ℕ) (net : Net) (p : Bool) (op : Op) :
    Step maxReorder (net.stream p) (eventDown (net.side p) (net.side !p) op)
      ((net.put p ((net.side p).act maxReorder (net.side !p) op)).stream p) := by
  have hput : ∀ x : Side, (net.put p x).stream p = { net.stream p with
      book := book x.link.snd
      nextSeq := x.link.snd.sendSeq
      init := x.init
      log := x.log
      down := x.flights } := fun x => by simp only [stream, side_put_self, side_put_not]
  rw [hput]
  cases op with
  | segment payload more now =>
    have h : Step maxReorder (net.stream p) (.segment ((net.side p).flight (net.side !p)
        ((net.side p).link.buildSegment payload more now).2) now) _ :=
      .segment rfl (segment_has _ payload more now) rfl
    have hb := buildSegment_book (net.side p).link payload more now
    simp only [eventDown, Side.act, Side.segment]
    rw [hb]
    exact h
  | keepalive | ackOnly | fin => exact Step.control rfl (control_has _ (by decide)) rfl
  | timer now =>
    obtain ⟨hb, hs⟩ := getRetransmitFrames_sameBook (net.side p).link.snd now
    simp only [eventDown, Side.act, Side.timer]
    rw [hb, hs]
    exact Step.timer
  | ackIn i now =>
    simp only [eventDown, Side.act]
    cases hi : (net.side !p).flights[i]? with
    | none => exact Step.idle
    | some fl =>
      obtain ⟨hb, hs⟩ := processAck_book (net.side p).link.snd fl.frame.ack fl.frame.sack now
      have h : Step maxReorder (net.stream p) (.ackIn fl now) _ :=
        .ackIn (List.mem_of_getElem? hi)
      simp only [Side.ackIn]
      rw [hb, hs]
      simpa only [stream, keys_book] using h
  | frameIn i now =>
    simp only [eventDown, Side.act]
    cases (net.side !p).flights[i]? <;> exact Step.idle

theorem step_up (maxReorder : ℕ) (net : Net) (p : Bool) (op : Op) :
    Step maxReorder (net.stream p) (eventUp (net.side p) (net.side !p) op)
      ((net.put (!p) ((net.side !p).act maxReorder (net.side p) op)).stream p) := by
  have hput : ∀ y : Side, (net.put (!p) y).stream p = { net.stream p with
      rcv := y.link.rcv
      first := y.first
      up := y.flights } := fun y => by
    simp only [stream, side_put_of_not, side_put_self]
  rw [hput]
  cases op with
  | segment payload more now | keepalive | ackOnly | fin => exact Step.answer rfl rfl rfl
  | timer now => exact Step.idle
  | ackIn i now =>
    simp only [eventUp, Side.act]
    cases (net.side p).flights[i]? <;> exact Step.idle
  | frameIn i now =>
    simp only [eventUp, Side.act]
    cases hi : (net.side p).flights[i]? with
    | none => exact Step.idle
    | some fl => exact Step.frameIn (List.mem_of_getElem? hi)

theorem step_stream (maxReorder : ℕ) (net : Net) (p : Bool) (act : Bool × Op) :
    Step maxReorder (net.stream p) (net.event p act) ((net.step maxReorder act).stream p) := by
  unfold event Net.step
  split_ifs with h
  · rw [h]; exact step_down maxReorder net p act.2
  · rw [Bool.eq_not_of_ne h, Bool.not_not]; exact step_up maxReorder net p act.2

end NMesh.Udp.Channel.Net
