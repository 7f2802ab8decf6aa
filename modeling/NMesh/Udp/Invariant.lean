import NMesh.Udp.Stream

/-! # What the frames on the wire say

`Sound d` holds of a direction at its birth and after every run in which frames are taken near the
cursor (`Near`): each frame on the wire has the number it was built with, each frame in the book is
a data frame of the log, and each acknowledgment on the wire says what had arrived when it was built,
which has arrived for good. An acknowledgment built before the first arrival is the pair
`(2 ^ 32 - 1, 0)`. -/

namespace NMesh.Udp.Invariant

open Base.Ordered Base.Runs NMesh.Udp.Wire NMesh.Udp.Link
open NMesh.Udp.Channel NMesh.Udp.Book NMesh.Udp.Receive NMesh.Udp.Stream

/-- The frame is taken no more than `2 ^ 31` numbers behind the cursor, and less than `2 ^ 32` ahead
of it. -/
def Near (d : Direction) : Event → Prop
  | .frameIn fl _ => d.rcv.recvStarted = true →
    d.cur ≤ fl.number + 2147483648 ∧ fl.number < d.cur + 4294967296
  | _ => True

instance (d : Direction) (e : Event) : Decidable (Near d e) := by
  cases e <;> unfold Near <;> infer_instance

/-- Of the `sent` data frames framed, the one in the book under `k` has number `n`. -/
structure Entry (init sent k n : ℕ) : Prop where
  lt : n < sent
  recent : sent ≤ n + 4294967296
  key : k = seq32 init n

/-- What an acknowledgment built with the cursor at `c` says of the receive side. -/
structure Answer (init first : ℕ) (r : RecvSide) (c : ℕ) (frame : Frame) : Prop where
  started : r.recvStarted = true
  ack : frame.ack = mask32 (seq32 init c - 1)
  first_le : first ≤ c
  le_cur : c ≤ first + r.handed.length
  hole : frame.sack.testBit 0 = false
  arrived : ∀ i : ℕ, 0 < i → i < 32 → frame.sack.testBit i → Has init first r (c + i)

/-- **The invariant of a direction.** -/
structure Sound (d : Direction) : Prop where
  init_lt : d.init < 4294967296
  next : d.nextSeq = seq32 d.init d.sent
  book : ∀ k f, d.book.get? k = some f → ∃ n, Entry d.init d.sent k n ∧ d.log[n]? = some f
  logged : ∀ n f, d.log[n]? = some f → f.seq = seq32 d.init n
  down : ∀ fl ∈ d.down, Numbered d.init d.log fl.frame fl.number
  rcv : Received d.init d.log d.first d.rcv
  idle : ∀ fl ∈ d.up, fl.cursor = none → fl.frame.ack = 4294967295 ∧ fl.frame.sack = 0
  answer : ∀ fl ∈ d.up, ∀ c, fl.cursor = some c →
    Answer d.init d.first d.rcv c fl.frame

variable {d d' : Direction} {e : Event} {maxReorder : ℕ}

theorem Answer.mono {init first first' c : ℕ} {r r' : RecvSide} {frame : Frame}
    (h : Answer init first r c frame)
    (hs : r.recvStarted = true → r'.recvStarted = true ∧ first' = first ∧
      first + r.handed.length ≤ first + r'.handed.length)
    (ha : ∀ n, Has init first r n → Has init first' r' n) : Answer init first' r' c frame := by
  obtain ⟨h1, h2, h3⟩ := hs h.started
  exact ⟨h1, h.ack, by rw [h2]; exact h.first_le, by rw [h2]; exact h.le_cur.trans h3, h.hole,
    fun i hi h32 hb => ha _ (h.arrived i hi h32 hb)⟩

theorem answer_now {init first : ℕ} {log : List Frame} {r : RecvSide}
    (h : Follows init log first 1 r) (hb : Bitmap r) (frame : Frame)
    (hf : (frame.ack, frame.sack) = r.buildAck) :
    Answer init first r (first + r.handed.length) frame := by
  obtain ⟨hack, hsack⟩ := Prod.mk.inj hf
  refine ⟨h.started, ?_, Nat.le_add_right _ _, le_rfl, by rw [hsack]; exact hb.1,
    fun i hi h32 ht => ?_⟩
  · rw [hack, h.next]
  · rw [hsack, hb.2 i hi h32, h.next, seq32_add] at ht
    exact ⟨h.started, by omega, Or.inr ⟨Nat.le_add_right _ _, by omega, ht⟩⟩

theorem book_segment (h : Sound d) {f g : Frame} {k : ℕ}
    (hk : (d.book.set d.nextSeq f).get? k = some g) :
    ∃ n, Entry d.init (d.sent + 1) k n ∧ (d.log ++ [f])[n]? = some g := by
  rcases Dict.get?_of_set hk with ⟨rfl, rfl⟩ | ⟨he, hk⟩
  · exact ⟨d.sent, ⟨by omega, by omega, h.next⟩, List.getElem?_concat_length⟩
  · obtain ⟨n, ⟨h1, h2, rfl⟩, hn⟩ := h.book k g hk
    refine ⟨n, ⟨by omega, ?_, rfl⟩, by rw [List.getElem?_append_left h1]; exact hn⟩
    have : d.sent ≠ n + 4294967296 := fun hs => he (by rw [h.next, hs, seq32_add_word])
    omega

theorem Sound.step (h : Sound d) (hs : Step maxReorder d e d') (hn : Near d e) : Sound d' := by
  cases hs with
  | idle | timer => exact h
  | @segment fl now hseq hdata hnum =>
    refine ⟨h.init_lt, ?_, fun k g hk => ?_, fun n g hg => ?_, fun fl' hfl' => ?_,
      h.rcv.concat fl.frame, h.idle, h.answer⟩
    · change mask32 (d.nextSeq + 1) = seq32 d.init (d.log ++ [fl.frame]).length
      rw [h.next, seq32_succ, List.length_append]; rfl
    · obtain ⟨n, hent, hn⟩ := book_segment h hk
      have hlen : (d.log ++ [fl.frame]).length = d.sent + 1 := by simp [Direction.sent]
      exact ⟨n, by unfold Direction.sent; rw [hlen]; exact hent, hn⟩
    · rcases Nat.lt_or_ge n d.log.length with hlt | hge
      · rw [List.getElem?_append_left hlt] at hg
        exact h.logged n g hg
      · rw [List.getElem?_append_right hge, List.getElem?_singleton] at hg
        split_ifs at hg with h0
        cases hg
        rw [hseq, h.next, Direction.sent, show n = d.log.length by omega]
    · rcases List.mem_append.mp hfl' with hfl' | hfl'
      · exact (h.down fl' hfl').concat
      · obtain rfl := List.mem_singleton.mp hfl'
        exact ⟨by rw [hseq, hnum, h.next]; rfl, by rw [hnum]; simp,
          fun _ => by rw [hnum]; exact List.getElem?_concat_length⟩
  | @control fl hseq hctl hnum =>
    refine ⟨h.init_lt, h.next, h.book, h.logged, fun fl' hfl' => ?_, h.rcv, h.idle, h.answer⟩
    rcases List.mem_append.mp hfl' with hfl' | hfl'
    · exact h.down fl' hfl'
    · obtain rfl := List.mem_singleton.mp hfl'
      exact ⟨by rw [hseq, hnum, h.next]; rfl, hnum.le, fun hd => by rw [hctl] at hd; cases hd⟩
  | @ackIn fl now hfl =>
    refine ⟨h.init_lt, h.next, fun k f hk => ?_, h.logged, h.down, h.rcv, h.idle, h.answer⟩
    rw [Dict.get?_filterKeys] at hk
    split_ifs at hk
    exact h.book k f hk
  | @answer fl hack hcur hseen =>
    refine ⟨h.init_lt, h.next, h.book, h.logged, h.down, h.rcv, fun fl' hfl' hc => ?_,
      fun fl' hfl' c hc => ?_⟩
    · rcases List.mem_append.mp hfl' with hfl' | hfl'
      · exact h.idle fl' hfl' hc
      · obtain rfl := List.mem_singleton.mp hfl'
        rw [hcur] at hc
        split_ifs at hc with hst
        have hi := h.rcv.idle (Bool.eq_false_iff.mpr hst)
        obtain ⟨h1, h2⟩ := Prod.mk.inj hack
        exact ⟨by rw [h1, hi.next]; rfl, h2.trans hi.sack⟩
    · rcases List.mem_append.mp hfl' with hfl' | hfl'
      · exact h.answer fl' hfl' c hc
      · obtain rfl := List.mem_singleton.mp hfl'
        rw [hcur] at hc
        split_ifs at hc with hst
        cases hc
        obtain ⟨hf, hb⟩ := h.rcv.follows hst
        exact answer_now hf hb _ hack
  | @frameIn fl now hfl =>
    obtain ⟨s1, s2, s3, s4⟩ := processIncoming_spec maxReorder now h.rcv
      (h.down fl hfl) hn
    refine ⟨h.init_lt, h.next, h.book, h.logged, h.down, Or.inr ⟨s1, s2⟩, h.idle, fun fl' hfl' c hc => ?_⟩
    exact (h.answer fl' hfl' c hc).mono (fun hst => ⟨s1.started, if_pos hst, s3 hst⟩) s4

theorem sound_start {init first : ℕ} {r : RecvSide} (h : init < 4294967296)
    (hr : Received init [] first r) : Sound ⟨Dict.empty, init, init, [], [], r, first, []⟩ where
  init_lt := h
  next := (seq32_zero h).symm
  book k f hk := by cases hk
  logged n f hn := by cases hn
  down fl hfl := by cases hfl
  rcv := hr
  idle fl hfl := by cases hfl
  answer fl hfl := by cases hfl

theorem sound_birth {seqA seqB : ℕ} (hA : seqA < 4294967296) (hB : seqB < 4294967296) :
    ∀ p : Bool, Sound ((Net.birth seqA seqB).stream p)
  | false => sound_start hA (Or.inl idle_new)
  | true => sound_start hB (Or.inl idle_new)

/-! ### Receivers that know the first number -/

theorem handed_of_lt (h : Sound d) (hst : d.rcv.recvStarted = true) {n : ℕ} {f : Frame}
    (hn : d.log[n]? = some f) (h1 : d.first ≤ n) (h2 : n < d.cur) :
    d.rcv.handed[n - d.first]? = some f.piece := by
  have hf := (h.rcv.follows hst).1
  have hlt : n - d.first < d.rcv.handed.length := by unfold Direction.cur at h2; omega
  have hp := List.prefix_iff_getElem?.mp hf.handed (n - d.first) hlt
  rw [List.getElem?_map, List.getElem?_drop, Nat.add_sub_cancel' h1, hn] at hp
  rw [List.getElem?_eq_getElem hlt, ← hp]
  rfl

/-- The first frame taken was built before any data frame, or is the first one. -/
def FirstIsZero (d : Direction) : Event → Prop
  | .frameIn fl _ => d.rcv.recvStarted = false → fl.number = 0
  | _ => True

instance (d : Direction) (e : Event) : Decidable (FirstIsZero d e) := by
  cases e <;> unfold FirstIsZero <;> infer_instance

/-- A direction whose receiver, once started, counts from the first number. -/
structure Rooted (d : Direction) : Prop where
  sound : Sound d
  first : d.rcv.recvStarted = true → d.first = 0

theorem Rooted.step (h : Rooted d) (hn : Near d e) (h0 : FirstIsZero d e)
    (hs : Step maxReorder d e d') : Rooted d' := by
  refine ⟨h.sound.step hs hn, ?_⟩
  cases hs with
  | @frameIn fl now hfl =>
    intro _
    change (if d.rcv.recvStarted then d.first else fl.number) = 0
    by_cases hst : d.rcv.recvStarted = true
    · rw [if_pos hst]; exact h.first hst
    · rw [if_neg hst]; exact h0 (Bool.eq_false_iff.mpr hst)
  | _ => exact h.first

theorem rooted_birth {seqA seqB : ℕ} (hA : seqA < 4294967296) (hB : seqB < 4294967296) (p : Bool) :
    Rooted ((Net.birth seqA seqB).stream p) :=
  ⟨sound_birth hA hB p, by cases p <;> exact fun h => by cases h⟩

/-! ### Guarded runs -/

/-- What is asked of every operation, as the events of the direction whose sender is `p`. -/
def Along (G : Direction → Event → Prop) (p : Bool) (net : Net) (act : Bool × Op) : Prop :=
  G (net.stream p) (net.event p act)

instance (G : Direction → Event → Prop) [∀ d e, Decidable (G d e)] (p : Bool) (net : Net)
    (act : Bool × Op) : Decidable (Along G p net act) := by unfold Along; infer_instance

/-- **What every allowed event keeps holds after every guarded run.** -/
theorem along_run {G : Direction → Event → Prop} {P : Direction → Prop} {maxReorder : ℕ} {p : Bool}
    (hstep : ∀ d e d', P d → G d e → Step maxReorder d e d' → P d') {net : Net}
    {acts : List (Bool × Op)} (h0 : P (net.stream p))
    (h : Guarded (Net.step maxReorder) (Along G p) net acts) :
    P ((run (Net.step maxReorder) net acts).stream p) :=
  Guarded.run_induct (P := fun net : Net => P (net.stream p))
    (fun net act hp hg => hstep _ _ _ hp hg (Net.step_stream maxReorder net p act)) h0 h

end NMesh.Udp.Invariant
