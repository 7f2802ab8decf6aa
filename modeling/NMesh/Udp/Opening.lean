import NMesh.Udp.Retirement

/-! # The opening frames

The receiver takes its cursor from whatever frame arrives first. If that frame was built before any
data frame, or is the first data frame, the cursor starts at the sender's first number and what is
acknowledged was delivered (`opening_delivers`). Any other frame makes the data frames before it count
as delivered (`opening_skips`). -/

namespace NMesh.Udp.Opening

open Base.Serial Base.Runs NMesh.Udp.Wire NMesh.Udp.Link
open NMesh.Udp.Channel NMesh.Udp.Receive NMesh.Udp.Stream NMesh.Udp.Invariant NMesh.Udp.Retirement

/-- The data frames that the receiver's acknowledgment covers, as the sender reads it, have been
delivered. -/
def AcksDelivered (d : Direction) : Prop :=
  ∀ n f, d.log[n]? = some f → mask32 (d.rcv.buildAck.1 - f.seq) < maxUnacked →
    d.first ≤ n ∧ d.rcv.handed[n - d.first]? = some f.piece

/-- A data frame is framed while the numbers in use stay apart from those the receiver's
acknowledgment covers: before the first arrival, none of the last 256 sequence numbers; later, less
than `2 ^ 32 - 256` numbers ahead of the cursor. -/
def Paced (d : Direction) : Event → Prop
  | .segment _ _ =>
    if d.rcv.recvStarted then d.sent + 256 < d.cur + 4294967296 else d.nextSeq < 4294967040
  | _ => True

instance (d : Direction) : ∀ e : Event, Decidable (Paced d e)
  | .segment _ _ => inferInstanceAs (Decidable (if d.rcv.recvStarted then
      d.sent + 256 < d.cur + 4294967296 else d.nextSeq < 4294967040))
  | .idle => isTrue trivial
  | .control _ => isTrue trivial
  | .timer _ => isTrue trivial
  | .ackIn _ _ => isTrue trivial
  | .answer _ => isTrue trivial
  | .frameIn _ _ => isTrue trivial

def OpensWell (d : Direction) (e : Event) : Prop := Near d e ∧ FirstIsZero d e ∧ Paced d e

instance (d : Direction) (e : Event) : Decidable (OpensWell d e) := by
  unfold OpensWell; infer_instance

/-- The numbers in use stay apart from those the acknowledgment covers. -/
structure Apart (d : Direction) : Prop where
  rooted : Rooted d
  idle : d.rcv.recvStarted = false → d.sent = 0 ∨ d.init + d.sent ≤ 4294967040
  started : d.rcv.recvStarted = true → d.sent + 256 ≤ d.cur + 4294967296

variable {d d' : Direction} {e : Event} {maxReorder : ℕ}

theorem Apart.step (h : Apart d) (hg : OpensWell d e) (hs : Step maxReorder d e d') : Apart d' := by
  obtain ⟨hn, h0, hp⟩ := hg
  refine ⟨h.rooted.step hn h0 hs, ?_, ?_⟩
  · cases hs with
    | @segment fl now hseq hdata hnum =>
      intro hst
      have hlow : d.nextSeq < 4294967040 := by
        simp only [Paced] at hp
        rwa [if_neg (by rw [hst]; decide)] at hp
      right
      change d.init + (d.log ++ [fl.frame]).length ≤ _
      have hlen : (d.log ++ [fl.frame]).length = d.sent + 1 := by simp [Direction.sent]
      rw [h.rooted.sound.next] at hlow
      have hinit := h.rooted.sound.init_lt
      rcases h.idle hst with hz | hle
      · rw [hz, seq32_zero hinit] at hlow
        omega
      · rw [seq32, seqOf, mask_of_lt (by omega) (by push_cast; omega)] at hlow
        omega
    | @frameIn fl now hfl =>
      intro hst
      have hr := (processIncoming_spec maxReorder now h.rooted.sound.rcv
        (h.rooted.sound.down fl hfl) hn).1
      rw [hr.started] at hst
      cases hst
    | _ => exact h.idle
  · cases hs with
    | @segment fl now hseq hdata hnum =>
      intro hst
      simp only [Paced] at hp
      rw [if_pos hst] at hp
      change (d.log ++ [fl.frame]).length + 256 ≤ d.cur + 4294967296
      have hlen : (d.log ++ [fl.frame]).length = d.sent + 1 := by simp [Direction.sent]
      omega
    | @frameIn fl now hfl =>
      intro _
      obtain ⟨-, -, hmono, -⟩ := processIncoming_spec maxReorder now
        h.rooted.sound.rcv (h.rooted.sound.down fl hfl) hn
      change d.sent + 256 ≤ firstAfter d.rcv d.first fl.number +
        (d.rcv.processIncoming maxReorder fl.frame now).1.handed.length + 4294967296
      by_cases hst : d.rcv.recvStarted = true
      · rw [firstAfter, if_pos hst]
        have := h.started hst
        have := hmono hst
        unfold Direction.cur at *
        omega
      · have := h.idle (Bool.eq_false_iff.mpr hst)
        omega
    | _ => exact h.started

theorem Apart.acksDelivered (h : Apart d) : AcksDelivered d := by
  intro n f hn hlt
  have hlen := (List.getElem?_eq_some_iff.mp hn).1
  have hsent : d.sent = d.log.length := rfl
  have hseq := h.rooted.sound.logged n f hn
  by_cases hst : d.rcv.recvStarted = true
  · obtain ⟨hf, hb⟩ := h.rooted.sound.rcv.follows hst
    have ha := answer_now hf hb ⟨0, d.rcv.buildAck.1, d.rcv.buildAck.2, 0, []⟩ rfl
    have hapart := h.started hst
    have h0 := h.rooted.first hst
    have hcur : n < d.cur := by
      by_contra hge
      have hent : Entry d.init d.sent f.seq n := ⟨hlen, by omega, hseq⟩
      exact hge ((cleared_iff ha hent hf.le hapart).mp hlt).1
    exact ⟨by omega, handed_of_lt h.rooted.sound hst hn (by omega) hcur⟩
  · -- before the first arrival the acknowledgment is `2 ^ 32 - 1`
    have hi := h.rooted.sound.rcv.idle (Bool.eq_false_iff.mpr hst)
    have hlow := h.idle (Bool.eq_false_iff.mpr hst)
    have hack : d.rcv.buildAck.1 = 4294967295 := by rw [RecvSide.buildAck, hi.next]; rfl
    have hval : seq32 d.init n = d.init + n := by
      rw [seq32, seqOf, mask_of_lt (by omega) (by push_cast; omega)]; omega
    rw [hack, hseq, hval, mask32, mask_of_lt (by push_cast; omega) (by push_cast; omega)] at hlt
    unfold maxUnacked at hlt
    omega

/-- **Nothing is lost at the start of a run that opens well.** -/
theorem opening_delivers (maxReorder seqA seqB : ℕ) (hA : seqA < 4294967296)
    (hB : seqB < 4294967296) (p : Bool) (acts : List (Bool × Op))
    (h : Guarded (Net.step maxReorder) (Along OpensWell p) (Net.birth seqA seqB) acts) :
    AcksDelivered ((run (Net.step maxReorder) (Net.birth seqA seqB) acts).stream p) := by
  have h0 : Apart ((Net.birth seqA seqB).stream p) :=
    ⟨rooted_birth hA hB p, fun _ => Or.inl (by cases p <;> rfl),
      by cases p <;> exact fun hst => by cases hst⟩
  exact (along_run (fun d e d' hp hg hs => Apart.step hp hg hs) h0 h).acksDelivered

/-- A keepalive, two data frames and an acknowledgment, in the wrong order but for the first. -/
def greeted : List (Bool × Op) :=
  [(false, .keepalive), (false, .segment [1] false 0), (false, .segment [2] false 0),
    (true, .frameIn 0 0), (true, .frameIn 2 0), (true, .frameIn 1 0)]

theorem opening_greeted : Guarded (Net.step 256) (Along OpensWell false) (Net.birth 7 9) greeted ∧
    AcksDelivered ((run (Net.step 256) (Net.birth 7 9) greeted).stream false) := by
  have h : Guarded (Net.step 256) (Along OpensWell false) (Net.birth 7 9) greeted := by
    decide +kernel
  exact ⟨h, opening_delivers 256 7 9 (by decide) (by decide) false greeted h⟩

def overtaken : List (Bool × Op) :=
  [(false, .segment [1] false 0), (false, .segment [2] false 0), (true, .frameIn 1 0),
    (true, .frameIn 0 0)]

/-- **The first frame is acknowledged and dropped.** -/
theorem opening_skips :
    ¬ AcksDelivered ((run (Net.step 256) (Net.birth 5 9) overtaken).stream false) := by
  intro h
  obtain ⟨hle, -⟩ := h 0 ⟨5, 4294967295, 0, 36, [1]⟩ (by decide +kernel) (by decide +kernel)
  have hfirst : ((run (Net.step 256) (Net.birth 5 9) overtaken).stream false).first = 1 := by
    decide +kernel
  omega

end NMesh.Udp.Opening
