import NMesh.Udp.Invariant

/-! # What an acknowledgment retires

`cleared_iff` and `sacked_iff` say in numbers what a pair built with the cursor at `c`
strikes out: by the test of the prefix the numbers `c - 256, …, c - 1`, by the bitmap numbers that
had arrived. So a pair built after the first arrival retires only frames the receiver has
(`retired_got`), and one built before retires nothing unless the oldest frame in flight has one of the
last 256 sequence numbers; there it retires frames that never arrived (`retired_unsent`). -/

namespace NMesh.Udp.Retirement

open Base.Ordered Base.Serial Base.Runs NMesh.Udp.Wire NMesh.Udp.Link
open NMesh.Udp.Channel NMesh.Udp.Book NMesh.Udp.Receive NMesh.Udp.Stream NMesh.Udp.Invariant

variable {init first sent c k n : ℕ} {r : RecvSide} {frame : Frame}

/-! ### A pair in numbers -/

theorem mask32_pred_sub (init c n : ℕ) :
    mask32 (mask32 (seq32 init c - 1) - seq32 init n) = mask32 ((c : ℤ) - 1 - n) := by
  have hw : 0 < word := by decide
  calc mask word (mask word (seq32 init c - 1) - seq32 init n)
      = mask word (seq32 init c - (1 + seq32 init n)) := by rw [mask_mask_sub hw, sub_sub]
    _ = mask word ((init + c : ℤ) - 1 - seq32 init n) := by
      rw [seq32, seqOf, mask_mask_sub hw, sub_sub]
    _ = mask word (c - 1 - n) := by rw [seq32, seqOf, mask_sub_mask hw]; congr 1; ring

theorem cleared_iff (h : Answer init first r c frame) (he : Entry init sent k n)
    (hc : c ≤ sent) (hs : sent + 256 ≤ c + 4294967296) :
    mask32 (frame.ack - k) < maxUnacked ↔ n < c ∧ c ≤ n + 256 := by
  obtain ⟨h1, h2, rfl⟩ := he
  rw [h.ack, mask32_pred_sub]
  rcases Nat.lt_or_ge n c with hlt | hge
  · rw [mask32, mask_of_lt (by omega) (by change _ < ((4294967296 : ℕ) : ℤ); omega)]
    unfold maxUnacked
    omega
  · rw [mask32, ← mask_add_self, mask_of_lt (by change _ ≤ _ + ((4294967296 : ℕ) : ℤ); omega)
      (by change _ + ((4294967296 : ℕ) : ℤ) < ((4294967296 : ℕ) : ℤ); omega)]
    unfold maxUnacked
    change (_ + ((4294967296 : ℕ) : ℤ)).toNat < _ ↔ _
    omega

theorem ack_succ (h : Answer init first r c frame) : mask32 (frame.ack + 1) = seq32 init c := by
  rw [h.ack, mask32, mask_mask_add (by decide), sub_add_cancel,
    mask_of_lt (Int.natCast_nonneg _) (by exact_mod_cast seq32_lt init c)]
  rfl

theorem sacked_iff {log : List Frame} (h : Answer init first r c frame)
    (hr : Follows init log first 1 r) (he : Entry init log.length k n)
    (hs : log.length ≤ c + 4294967296) :
    k ∈ SendSide.sackedSeqs (mask32 (frame.ack + 1)) frame.sack ↔
      ∃ i : ℕ, 0 < i ∧ i < 32 ∧ frame.sack.testBit i ∧ n = c + i := by
  obtain ⟨h1, h2, rfl⟩ := he
  rw [mem_sackedSeqs, ack_succ h]
  constructor
  · rintro ⟨i, hi, hb, hk⟩
    have h0 : 0 < i := by
      rcases Nat.eq_zero_or_pos i with rfl | h0
      · rw [h.hole] at hb; cases hb
      · exact h0
    have hlt := (h.arrived i h0 hi hb).lt_length hr
    rw [seq32_add] at hk
    exact ⟨i, h0, hi, hb, seq32_inj hk (by omega) (by omega)⟩
  · rintro ⟨i, h0, hi, hb, rfl⟩
    exact ⟨i, hi, hb, (seq32_add init c i).symm⟩

theorem not_sacked_zero (base : ℕ) : k ∉ SendSide.sackedSeqs base 0 := by
  rw [mem_sackedSeqs]
  rintro ⟨i, -, hb, -⟩
  rw [Nat.zero_testBit] at hb
  cases hb

/-! ### Frames retired -/

/-- The receiver has the data frame `f`, number `n`: delivered in order, or in the buffer. -/
def Got (d : Direction) (n : ℕ) (f : Frame) : Prop :=
  d.first ≤ n ∧ d.rcv.handed[n - d.first]? = some f.piece ∨
    d.rcv.reorder.get? f.seq = some f.piece

/-- The data frames that leave the book between `d` and `d'` are frames the receiver has. -/
def RetiresGot (d d' : Direction) : Prop :=
  ∀ k f, d.book.get? k = some f → k ∉ d'.book.keys → ∃ n, d.log[n]? = some f ∧ Got d n f

/-- The acknowledgment read means what it said: one built before the first arrival is read while the
oldest frame in flight has none of the last 256 sequence numbers, and one built after it before the
numbers 256 short of `2 ^ 32` ahead of its cursor are framed. -/
def Meaningful (d : Direction) : Event → Prop
  | .ackIn fl _ => match fl.cursor with
    | none => ∀ k ∈ d.book.keys.head?, k < 4294967040
    | some c => d.sent + 256 ≤ c + 4294967296
  | _ => True

instance (d : Direction) : ∀ e : Event, Decidable (Meaningful d e)
  | .ackIn fl _ =>
    match hc : fl.cursor with
    | none => decidable_of_iff (∀ k ∈ d.book.keys.head?, k < 4294967040) (by rw [Meaningful, hc])
    | some c => decidable_of_iff (d.sent + 256 ≤ c + 4294967296) (by rw [Meaningful, hc])
  | .idle => isTrue trivial
  | .segment _ _ => isTrue trivial
  | .control _ => isTrue trivial
  | .timer _ => isTrue trivial
  | .answer _ => isTrue trivial
  | .frameIn _ _ => isTrue trivial

def Fair (d : Direction) (e : Event) : Prop := Near d e ∧ FirstIsZero d e ∧ Meaningful d e

instance (d : Direction) (e : Event) : Decidable (Fair d e) := by unfold Fair; infer_instance

variable {d d' : Direction} {e : Event} {maxReorder : ℕ}

theorem cleared_idle {keys : List ℕ} (h : ∀ k ∈ keys.head?, k < 4294967040) :
    SendSide.cleared 4294967295 keys = [] := by
  cases keys with
  | nil => rfl
  | cons k keys =>
    have hk := h k rfl
    refine List.takeWhile_cons_of_neg fun hd => ?_
    have hlt := of_decide_eq_true hd
    rw [mask32, mask_of_lt (by push_cast; omega) (by push_cast; omega)] at hlt
    unfold maxUnacked at hlt
    omega

theorem retiresGot_step (h : Rooted d) (hm : Meaningful d e) (hs : Step maxReorder d e d') :
    RetiresGot d d' := by
  intro k f hk hgone
  have hmem := Dict.mem_keys_of_get? hk
  cases hs with
  | idle | timer | control | answer | frameIn => exact absurd hmem hgone
  | segment => exact absurd (Dict.mem_keys_set.mpr (Or.inr hmem)) hgone
  | @ackIn fl now hfl =>
    have hstrikes : Strikes fl.frame.ack fl.frame.sack d.book.keys k := by
      by_contra hno
      refine hgone ?_
      rw [Dict.keys_filterKeys, List.mem_filter]
      exact ⟨hmem, decide_eq_true hno⟩
    obtain ⟨n, hent, hn⟩ := h.sound.book k f hk
    cases hcur : fl.cursor with
    | none =>
      -- the pair is `(2 ^ 32 - 1, 0)`
      obtain ⟨hack, hsack⟩ := h.sound.idle fl hfl hcur
      simp only [Meaningful, hcur] at hm
      rcases hstrikes with hc | hc
      · rw [hack, cleared_idle hm] at hc; cases hc
      · rw [hsack] at hc; exact absurd hc (not_sacked_zero _)
    | some c =>
      have ha := h.sound.answer fl hfl c hcur
      have hf := (h.sound.rcv.follows ha.started).1
      have hle : d.cur ≤ d.sent := hf.le
      have hc : c ≤ d.cur := ha.le_cur
      simp only [Meaningful, hcur] at hm
      have h0 := h.first ha.started
      have hgot : n < d.cur → Got d n f := fun hlt =>
        Or.inl ⟨by omega, handed_of_lt h.sound ha.started hn (by omega) hlt⟩
      refine ⟨n, hn, ?_⟩
      rcases hstrikes with hk' | hk'
      · have := (cleared_iff ha hent (hc.trans hle) hm).mp (mem_cleared hk').2
        exact hgot (by omega)
      · obtain ⟨i, hi, h32, hb, rfl⟩ := (sacked_iff ha hf hent (by
          change d.sent ≤ _; omega)).mp hk'
        rcases (ha.arrived i hi h32 hb).2.2 with hlt | ⟨h1, h2, hbuf⟩
        · exact hgot hlt
        · obtain ⟨-, g, hg, hget⟩ := hf.mem_buffer hbuf (by omega) (by omega)
          obtain rfl := Option.mem_unique hn hg
          rw [← h.sound.logged _ f hn] at hget
          exact Or.inr hget

/-- What is promised of one operation: the frames of `p` it retires, the other end has. -/
def Retires (maxReorder : ℕ) (p : Bool) (net : Net) (act : Bool × Op) : Prop :=
  RetiresGot (net.stream p) ((net.step maxReorder act).stream p)

/-- **In a fair run, every frame retired is one the other end has.** -/
theorem fair_retires (maxReorder seqA seqB : ℕ) (hA : seqA < 4294967296) (hB : seqB < 4294967296)
    (p : Bool) (acts : List (Bool × Op))
    (h : Guarded (Net.step maxReorder) (Along Fair p) (Net.birth seqA seqB) acts) :
    Guarded (Net.step maxReorder) (Retires maxReorder p) (Net.birth seqA seqB) acts :=
  Guarded.of_invariant (P := fun net : Net => Rooted (net.stream p))
    (fun net act hr hg => hr.step hg.1 hg.2.1 (Net.step_stream maxReorder net p act))
    (fun net act hr hg => retiresGot_step hr hg.2.2 (Net.step_stream maxReorder net p act))
    (rooted_birth hA hB p) h

def answered : List (Bool × Op) :=
  [(false, .segment [1] false 0), (true, .frameIn 0 0), (true, .ackOnly), (false, .ackIn 0 1)]

theorem fair_answered :
    Guarded (Net.step 256) (Along Fair false) (Net.birth 7 9) answered ∧
      Guarded (Net.step 256) (Retires 256 false) (Net.birth 7 9) answered := by
  have h : Guarded (Net.step 256) (Along Fair false) (Net.birth 7 9) answered := by decide +kernel
  exact ⟨h, fair_retires 256 7 9 (by decide) (by decide) false answered h⟩

/-- A frame numbered `2 ^ 32 - 1` is sent and lost, and the other end sends its first keepalive. -/
def unheard : List (Bool × Op) :=
  [(false, .segment [1] false 0), (true, .keepalive), (false, .ackIn 0 1)]

/-- **The first keepalive retires a frame that never arrived.** -/
theorem unheard_retires :
    ¬ Guarded (Net.step 256) (Retires 256 false) (Net.birth 4294967295 9) unheard := by
  rintro ⟨-, -, h, -⟩
  obtain ⟨n, -, hgot⟩ := h 4294967295 ⟨4294967295, 4294967295, 0, 36, [1]⟩ (by decide +kernel)
    (by decide +kernel)
  rcases hgot with ⟨-, hgot⟩ | hgot
  · cases hgot
  · cases hgot

end NMesh.Udp.Retirement
