import NMesh.Udp.Spread

/-! # A frame that closes the link

A FIN carries the next number of its sender, and the receiver believes it if that number lies less than
256 past its cursor (`RecvSide.acceptsFin`), as a guard against forged ones. The window lets 256 frames
be in flight, and more numbers than that lie past the cursor if the bitmap has struck frames out of the
middle of the book. So a genuine FIN is believed exactly if fewer than 256 numbers lie between the cursor
and the sender's next number (`accepts_fin_iff`), and a sender whose full window was lost closes a link
that stays open at the far end (`fin_refused`). -/

namespace NMesh.Udp.Closing

open Base.Runs NMesh.Udp.Wire
open NMesh.Udp.Link NMesh.Udp.Channel NMesh.Udp.Stream NMesh.Udp.Retirement
open NMesh.Udp.Spread

/-- Is a FIN carrying `seq` one the peer could have sent? Never before the first frame. -/
def RecvSide.acceptsFin (r : RecvSide) (seq : ℕ) : Bool :=
  if !r.recvStarted then false else decide (mask32 (seq - r.recvNext) < maxUnacked)

/-- How many numbers lie between the receiver's cursor and the sender's next number. -/
def behind (d : Direction) : ℕ := d.sent - d.cur

variable {d : Direction} {hs : List ℕ}

theorem fin_distance (h : Window d hs) (hst : d.rcv.recvStarted = true) :
    mask32 (d.nextSeq - d.rcv.recvNext) = behind d := by
  have hf := (h.sound.rcv.follows hst).1
  have hlag := h.lag hst
  have hle : d.cur ≤ d.sent := hf.le
  rw [h.sound.next, hf.next]
  exact dist32_of_le d.init hle (by change d.sent < d.cur + _; omega)

theorem acceptsFin_iff (h : Window d hs) (hst : d.rcv.recvStarted = true) :
    RecvSide.acceptsFin d.rcv d.nextSeq = true ↔ behind d < 256 := by
  have hnot : (!d.rcv.recvStarted) = false := by rw [hst]; rfl
  unfold RecvSide.acceptsFin
  rw [hnot, if_neg Bool.false_ne_true, decide_eq_true_iff, fin_distance h hst]
  rfl

/-- **A genuine FIN is believed exactly if it lies less than 256 past the cursor**, from which it may be
543 away: for every run in which the sender asks `canSend`, whatever the channel loses, once the receiver
has a cursor. -/
theorem accepts_fin_iff (maxReorder seqA seqB : ℕ) (hA : seqA < 4294967296) (hB : seqB < 4294967296)
    (p : Bool) (acts : List (Bool × Op))
    (h : Guarded (Net.step maxReorder) (Polite p) (Net.birth seqA seqB) acts)
    (hst : ((run (Net.step maxReorder) (Net.birth seqA seqB) acts).side !p).link.rcv.recvStarted = true) :
    (RecvSide.acceptsFin ((run (Net.step maxReorder) (Net.birth seqA seqB) acts).side !p).link.rcv
        ((run (Net.step maxReorder) (Net.birth seqA seqB) acts).side p).link.buildFin.seq = true ↔
      behind ((run (Net.step maxReorder) (Net.birth seqA seqB) acts).stream p) < 256) ∧
    behind ((run (Net.step maxReorder) (Net.birth seqA seqB) acts).stream p) ≤ 543 := by
  obtain ⟨hs, hw⟩ := window_run hA hB h
  have hlag := hw.lag hst
  refine ⟨acceptsFin_iff hw hst, ?_⟩
  unfold behind
  omega

theorem accepts_fin_answered :
    (RecvSide.acceptsFin (run (Net.step 256) (Net.birth 7 9) answered).b.link.rcv
        (run (Net.step 256) (Net.birth 7 9) answered).a.link.buildFin.seq = true ↔
      behind ((run (Net.step 256) (Net.birth 7 9) answered).stream false) < 256) ∧
    behind ((run (Net.step 256) (Net.birth 7 9) answered).stream false) ≤ 543 :=
  accepts_fin_iff 256 7 9 (by decide) (by decide) false answered (by decide +kernel) (by decide +kernel)

/-- A keepalive teaches the receiver its cursor, then a full window of frames is lost. -/
def silenced : List (Bool × Op) :=
  [(false, .keepalive), (true, .frameIn 0 0)] ++ List.replicate 256 (false, .segment [0] false 0)

/-- **A sender that asks `canSend` builds a FIN that is refused.** -/
theorem fin_refused :
    Guarded (Net.step 256) (Polite false) (Net.birth 7 9) silenced ∧
      (run (Net.step 256) (Net.birth 7 9) silenced).b.link.rcv.recvStarted = true ∧
      RecvSide.acceptsFin (run (Net.step 256) (Net.birth 7 9) silenced).b.link.rcv
        (run (Net.step 256) (Net.birth 7 9) silenced).a.link.buildFin.seq = false := by
  have hrun : GuardedTo (Net.step 256) (Polite false)
      (fun net => net.b.link.rcv.recvStarted = true ∧
        RecvSide.acceptsFin net.b.link.rcv net.a.link.buildFin.seq = false)
      (Net.birth 7 9) silenced := by decide +kernel
  exact guardedTo_iff.mp hrun

end NMesh.Udp.Closing
