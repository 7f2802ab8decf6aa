import NMesh.Base.Runs
import NMesh.Base.Weights
import NMesh.Udp.Book
import Mathlib.Tactic.Linarith
import Mathlib.Tactic.NormNum
import Mathlib.Tactic.Positivity

/-! # The accounts of the send side

Three things hold beside the book of frames in flight. The counter of bytes in flight is what these frames
weigh (`Balanced`). The window stays between its floor and its ceiling and the timer under its own
ceiling (`Bounded`). And the window is reduced only by `loss`, which moves the recovery point to the next
number to be sent (`Cut`): a frame sent before it, found lost later, reduces nothing.

Whatever an operation does before and after a loss, it keeps the accounts and does not narrow the window
(`Keeps`). The bounds hold of every run. The rest needs that the numbers in flight lie within one half of
the 32-bit circle when a frame is built (`Roomy`): a build asks nobody whether its number is still in use. -/

namespace NMesh.Udp.Accounting

open Base.BigEndian Base.Ordered Base.Serial Base.Runs Base.Weights
open NMesh.Udp.Wire NMesh.Udp.Link NMesh.Udp.Link.SendSide NMesh.Udp.Book SendSide

def load (s : SendSide) : ℕ := weight (fun e => e.frame.len) s.unacked

def Balanced (s : SendSide) : Prop := s.inflight = load s

/-- The window and the timer are within their bounds, and an undone cut leaves the window there. -/
structure Bounded (s : SendSide) : Prop where
  cwnd_min : cwndMin ≤ s.cwnd
  cwnd_max : s.cwnd ≤ cwndMax
  rto_max : s.rto ≤ rtoMax
  undo_max : ∀ u, s.undo = some u → u.1 ≤ cwndMax

/-- A reduction of the window moves the recovery point to the next number to be sent. -/
def Cut (s s' : SendSide) : Prop := s'.cwnd < s.cwnd → s'.recover = s'.sendSeq ∧ s'.recover ≠ s.recover

/-- Every number in flight lies behind the next one, by half the circle at most. -/
def Spaced (s : SendSide) : Prop :=
  ∀ k ∈ s.unacked.keys, 0 < mask32 (s.sendSeq - k) ∧ mask32 (s.sendSeq - k) ≤ 2147483648

/-- Keep the accounts and the recovery point, and do not narrow the window. -/
structure Keeps (s s' : SendSide) : Prop where
  next : s'.sendSeq = s.sendSeq
  spaced : Spaced s → Spaced s'
  recover : s'.recover = s.recover
  balanced : Balanced s → Balanced s'
  bounded : Bounded s → Bounded s'
  cwnd : Bounded s → s.cwnd ≤ s'.cwnd

/-- Keep the accounts, and cut the window at most as a loss does. -/
structure Moves (s s' : SendSide) : Prop where
  spaced : Spaced s → Spaced s'
  balanced : Balanced s → Balanced s'
  bounded : Bounded s → Bounded s'
  cut : Spaced s → Bounded s → Cut s s'

theorem Keeps.refl (s : SendSide) : Keeps s s := ⟨rfl, id, rfl, id, id, fun _ => le_rfl⟩

variable {s s' : SendSide}

theorem Keeps.trans {s'' : SendSide} (h : Keeps s s') (h' : Keeps s' s'') : Keeps s s'' :=
  ⟨h'.next.trans h.next, fun hs => h'.spaced (h.spaced hs), h'.recover.trans h.recover,
    fun hb => h'.balanced (h.balanced hb), fun hb => h'.bounded (h.bounded hb),
    fun hb => (h.cwnd hb).trans (h'.cwnd (h.bounded hb))⟩

theorem Keeps.moves (h : Keeps s s') : Moves s s' :=
  ⟨h.spaced, h.balanced, h.bounded, fun _ hb hlt => absurd (h.cwnd hb) (not_le.mpr hlt)⟩

theorem Keeps.between {s₁ s₂ : SendSide} (h : Keeps s s₁) (hm : Moves s₁ s₂) (h' : Keeps s₂ s') :
    Moves s s' := by
  refine ⟨fun hs => h'.spaced (hm.spaced (h.spaced hs)),
    fun hb => h'.balanced (hm.balanced (h.balanced hb)),
    fun hb => h'.bounded (hm.bounded (h.bounded hb)), fun hs hb hlt => ?_⟩
  have hb₁ := h.bounded hb
  have hlow : s₂.cwnd < s₁.cwnd :=
    lt_of_le_of_lt (h'.cwnd (hm.bounded hb₁)) (lt_of_lt_of_le hlt (h.cwnd hb))
  obtain ⟨hr, hne⟩ := hm.cut (h.spaced hs) hb₁ hlow
  exact ⟨by rw [h'.recover, hr, h'.next], by rw [h'.recover, ← h.recover]; exact hne⟩

theorem Keeps.then_moves {s₁ : SendSide} (h : Keeps s s₁) (hm : Moves s₁ s') : Moves s s' :=
  h.between hm (.refl s')

theorem Spaced.mono (hs : Spaced s) (hk : ∀ k ∈ s'.unacked.keys, k ∈ s.unacked.keys)
    (hn : s'.sendSeq = s.sendSeq) : Spaced s' := fun k hmem => by
  rw [hn]
  exact hs k (hk k hmem)

theorem Spaced.of_sameBook (hs : Spaced s) (h : SameBook s s') : Spaced s' :=
  hs.mono (fun k hk => by rw [← keys_book, ← h.1, keys_book]; exact hk) h.2

theorem load_book (s : SendSide) : load s = weight Frame.len (book s) := by
  rw [load, book]
  exact (weight_mapVal Frame.len (fun _ e => Sent.frame e) _ (fun _ _ => rfl) s.unacked).symm

theorem Keeps.of_same (h : SameBook s s') (hi : s'.inflight = s.inflight)
    (hc : s'.cwnd = s.cwnd) (hr : s'.recover = s.recover) (ht : s'.rto ≤ rtoMax ∨ s'.rto = s.rto)
    (hu : s'.undo = none ∨ s'.undo = s.undo) : Keeps s s' := by
  refine ⟨h.2, fun hs => hs.of_sameBook h, hr, fun hb => ?_, fun hb => ⟨hc ▸ hb.cwnd_min, hc ▸ hb.cwnd_max, ?_, fun u he => ?_⟩,
    fun _ => hc.ge⟩
  · unfold Balanced at hb ⊢
    rw [hi, hb, load_book, load_book, h.1]
  · rcases ht with ht | ht
    · exact ht
    · rw [ht]; exact hb.rto_max
  · rcases hu with hu | hu
    · rw [hu] at he; cases he
    · exact hb.undo_max u (hu ▸ he)

/-! ### Acknowledgments -/

theorem sample_keeps (s : SendSide) (rtt : ℚ) : Keeps s (s.sample rtt) :=
  .of_same (.of_unacked (sample_unacked s rtt)) rfl rfl rfl (Or.inl (min_le_left _ _)) (Or.inr rfl)

theorem acknowledge_keeps (s : SendSide) (e : Sent) (now : ℚ) :
    Keeps { s with inflight := s.inflight - e.frame.len } (s.acknowledge e now) := by
  unfold acknowledge
  by_cases hr : (!e.resent) = true
  · simp only [if_pos hr]
    exact sample_keeps _ _
  · simp only [if_neg hr]
    cases s.minRtt with
    | none => exact .refl _
    | some m =>
      dsimp only
      by_cases hm : now - e.resentAt < m / 2
      · rw [if_pos hm]
        exact (sample_keeps _ _).trans (.of_same ⟨rfl, rfl⟩ rfl rfl rfl (Or.inr rfl) (Or.inr rfl))
      · rw [if_neg hm]
        exact .refl _

theorem popSeq_keeps (now : ℚ) (p : SendSide × ℕ) (seq : ℕ) :
    Keeps p.1 (popSeq now p seq).1 := by
  unfold popSeq
  cases hget : p.1.unacked.get? seq with
  | none => exact .refl _
  | some e =>
    have hpop : Keeps p.1 { p.1 with
        unacked := p.1.unacked.pop seq
        inflight := p.1.inflight - e.frame.len } := by
      refine ⟨rfl, fun hs => hs.mono (fun k hk => (Dict.mem_keys_pop.mp hk).1) rfl, rfl, fun hb => ?_,
        fun hb => ⟨hb.1, hb.2, hb.3, hb.4⟩, fun _ => le_rfl⟩
      have hw := weight_pop (fun e : Sent => e.frame.len) hget
      unfold Balanced load at hb ⊢
      rw [hb, ← hw]
      push_cast
      ring
    have hack := acknowledge_keeps { p.1 with unacked := p.1.unacked.pop seq } e now
    exact hpop.trans hack

theorem foldl_popSeq_keeps (now : ℚ) : ∀ (seqs : List ℕ) (p : SendSide × ℕ),
    Keeps p.1 (seqs.foldl (popSeq now) p).1
  | [], _ => .refl _
  | seq :: seqs, p => (popSeq_keeps now p seq).trans (foldl_popSeq_keeps now seqs _)

theorem needlessCut_keeps (s : SendSide) : Keeps s s.needlessCut := by
  have hsame := needlessCut_sameBook s
  have hnone : s.needlessCut.undo = none := rfl
  have hrest : s.needlessCut.inflight = s.inflight ∧ s.needlessCut.recover = s.recover ∧
      s.needlessCut.rto = s.rto := by
    unfold needlessCut
    rcases hu : s.undo with _ | ⟨cwnd, ssthresh, timeout⟩
    · by_cases hf : s.frto ≠ 0
      · simp only [if_pos hf, and_self]
      · simp only [if_neg hf, hu, and_self]
    · by_cases hf : (s.frto ≠ 0 || timeout) = true
      · simp only [if_pos hf, and_self]
      · simp only [if_neg hf, and_self]
  have hwindow : s.needlessCut.cwnd = s.cwnd ∨
      ∃ u, s.undo = some u ∧ s.needlessCut.cwnd = max s.cwnd u.1 := by
    unfold needlessCut
    rcases hu : s.undo with _ | ⟨cwnd, ssthresh, timeout⟩
    · by_cases hf : s.frto ≠ 0
      · simp only [if_pos hf, true_or]
      · simp only [if_neg hf, hu, true_or]
    · by_cases hf : (s.frto ≠ 0 || timeout) = true
      · simp only [if_pos hf]; exact Or.inr ⟨_, rfl, rfl⟩
      · simp only [if_neg hf]; exact Or.inr ⟨_, rfl, rfl⟩
  obtain ⟨hi, hr, ht⟩ := hrest
  have hle : s.cwnd ≤ s.needlessCut.cwnd := by
    rcases hwindow with h | ⟨u, -, h⟩ <;> rw [h]
    exact le_max_left _ _
  refine ⟨hsame.2, fun hs => hs.of_sameBook hsame, hr, fun hb => ?_,
    fun hb => ⟨hb.cwnd_min.trans hle, ?_, ht ▸ hb.rto_max, ?_⟩, fun _ => hle⟩
  · unfold Balanced at hb ⊢
    rw [hi, hb, load_book, load_book, hsame.1]
  · rcases hwindow with h | ⟨u, hu, h⟩ <;> rw [h]
    · exact hb.cwnd_max
    · exact max_le hb.cwnd_max (hb.undo_max u hu)
  · intro u he
    rw [hnone] at he
    cases he

theorem frtoStep_keeps (s : SendSide) (advanced sack : ℕ) (now : ℚ) :
    Keeps s (s.frtoStep advanced sack now) := by
  unfold frtoStep
  split_ifs
  · exact .of_same (frtoLost_sameBook s now) rfl rfl rfl (Or.inr rfl) (Or.inl rfl)
  · exact .refl s
  · exact .of_same ⟨rfl, rfl⟩ rfl rfl rfl (Or.inr rfl) (Or.inr rfl)
  · exact needlessCut_keeps s
  · exact .of_same ⟨rfl, rfl⟩ rfl rfl rfl (Or.inr rfl) (Or.inl rfl)

theorem grow_keeps (s : SendSide) (acked : ℕ) : Keeps s (s.grow acked) := by
  have hacked : (0 : ℚ) ≤ acked := Nat.cast_nonneg acked
  have hle : Bounded s → s.cwnd ≤ (s.grow acked).cwnd := fun hb => by
    have hpos : 0 < s.cwnd := lt_of_lt_of_le (by unfold cwndMin; norm_num) hb.cwnd_min
    refine le_min ?_ hb.cwnd_max
    split_ifs
    · linarith
    · have : 0 ≤ acked * cwndStep / s.cwnd := by unfold cwndStep; positivity
      linarith
  exact ⟨rfl, id, rfl, id,
    fun hb => ⟨hb.cwnd_min.trans (hle hb), min_le_right _ _, hb.rto_max, hb.undo_max⟩, hle⟩

theorem settle_keeps (s : SendSide) (advanced sack acked : ℕ) (now : ℚ) :
    Keeps s (s.settle advanced sack acked now) := by
  have h : Keeps s (if s.lateOriginal then needlessCut { s with lateOriginal := false }
      else if s.frto ≠ 0 then s.frtoStep advanced sack now else s) := by
    split_ifs
    · have hlate : Keeps s { s with lateOriginal := false } :=
        .of_same ⟨rfl, rfl⟩ rfl rfl rfl (Or.inr rfl) (Or.inr rfl)
      exact hlate.trans (needlessCut_keeps _)
    · exact frtoStep_keeps s advanced sack now
    · exact .refl s
  unfold settle
  dsimp only
  by_cases hz : acked ≠ 0
  · rw [if_pos hz]
    exact h.trans (grow_keeps _ acked)
  · rw [if_neg hz]
    exact h

/-! ### Losses -/

theorem ne_of_not_before (hs : Spaced s) {k : ℕ} (hk : k ∈ s.unacked.keys)
    (hb : ¬ s.beforeRecover k = true) : s.sendSeq ≠ s.recover := by
  intro heq
  obtain ⟨hpos, hle⟩ := hs k hk
  refine hb (decide_eq_true ?_)
  rw [← heq]
  have hself : mask32 ((k : ℤ) - s.sendSeq) = 4294967296 - mask32 (s.sendSeq - k) := by
    unfold mask32 mask word at hpos hle ⊢
    push_cast at hpos hle ⊢
    omega
  omega

/-- **A loss cuts the window once**: it moves the recovery point, or it does nothing. -/
theorem loss_moves {k : ℕ} (hk : k ∈ s.unacked.keys) (timeout : Bool) : Moves s (s.loss k timeout) := by
  unfold loss
  by_cases hb : s.beforeRecover k = true
  · rw [if_pos hb]
    exact (Keeps.refl s).moves
  · rw [if_neg hb]
    refine ⟨id, id, fun h => ⟨?_, ?_, h.rto_max, fun u he => ?_⟩,
      fun hs _ _ => ⟨rfl, ne_of_not_before hs hk hb⟩⟩
    · dsimp only
      split_ifs
      · exact le_rfl
      · exact le_max_right _ _
    · have hfloor : cwndMin ≤ cwndMax := by unfold cwndMin cwndMax; norm_num
      have hpos : 0 < cwndMin := by unfold cwndMin; norm_num
      have := h.cwnd_min
      have := h.cwnd_max
      dsimp only
      split_ifs
      · exact hfloor
      · exact max_le (by linarith) hfloor
    · cases he
      exact h.cwnd_max

/-! ### Fast retransmission -/

section Walk

variable (base sack : ℕ) (now : ℚ)

theorem fastWalk_stop {above : ℕ} (h : above < dupThreshold) (is : List ℕ) (p : SendSide × List Frame) :
    fastWalk base sack now is above p = p := by
  cases is with
  | nil => rfl
  | cons i is => unfold fastWalk; rw [if_pos h]

theorem fastWalk_cons (i above : ℕ) (p : SendSide × List Frame) : ∃ above', ∀ is,
    fastWalk base sack now (i :: is) above p =
      fastWalk base sack now is above' (fastWalk base sack now [i] above p) := by
  by_cases hstop : above < dupThreshold
  · exact ⟨above, fun is => by simp only [fastWalk_stop _ _ _ hstop]⟩
  · by_cases hbit : sack.testBit i = true
    · exact ⟨above - 1, fun is => by simp only [fastWalk, if_neg hstop, if_pos hbit]⟩
    · refine ⟨above, fun is => ?_⟩
      simp only [fastWalk, if_neg hstop, if_neg hbit]
      cases p.1.unacked.get? (mask32 (base + i)) with
      | none => rfl
      | some entry =>
        dsimp only
        by_cases hfast : entry.fast = true
        · simp only [if_pos hfast]
        · simp only [if_neg hfast]

theorem fastWalk_append (js : List ℕ) : ∀ (is : List ℕ) (above : ℕ) (p : SendSide × List Frame),
    ∃ above', fastWalk base sack now (is ++ js) above p =
      fastWalk base sack now js above' (fastWalk base sack now is above p)
  | [], above, p => ⟨above, rfl⟩
  | i :: is, above, p => by
    obtain ⟨next, hnext⟩ := fastWalk_cons base sack now i above p
    obtain ⟨above', ih⟩ := fastWalk_append js is next (fastWalk base sack now [i] above p)
    exact ⟨above', by rw [List.cons_append, hnext, ih, hnext is]⟩

theorem mark_keeps {s : SendSide} {k : ℕ} {e : Sent} (h : s.unacked.get? k = some e) (e' : Sent)
    (hf : e'.frame = e.frame) : Keeps s { s with unacked := s.unacked.set k e' } :=
  .of_same (sameBook_set s h e' hf) rfl rfl rfl (Or.inr rfl) (Or.inr rfl)

theorem fastWalk_hole (i above : ℕ) (p : SendSide × List Frame) :
    Moves p.1 (fastWalk base sack now [i] above p).1 := by
  have hidle : Moves p.1 p.1 := (Keeps.refl p.1).moves
  by_cases hstop : above < dupThreshold
  · rw [fastWalk_stop _ _ _ hstop]; exact hidle
  · by_cases hbit : sack.testBit i = true
    · simp only [fastWalk, if_neg hstop, if_pos hbit]; exact hidle
    · cases hget : p.1.unacked.get? (mask32 (base + i)) with
      | none => simp only [fastWalk, if_neg hstop, if_neg hbit, hget]; exact hidle
      | some entry =>
        by_cases hfast : entry.fast = true
        · simp only [fastWalk, if_neg hstop, if_neg hbit, hget, if_pos hfast]; exact hidle
        · simp only [fastWalk, if_neg hstop, if_neg hbit, hget, if_neg hfast]
          have hmark := mark_keeps hget { entry with
            fast := true, resent := true, resentAt := now, deadline := now + p.1.rto } rfl
          exact hmark.then_moves (loss_moves (Dict.mem_keys_set.mpr (Or.inl rfl)) false)

/-- The states the walk passes through: what it leaves after the first `n` bits. -/
def walked (s : SendSide) (n : ℕ) : SendSide :=
  (fastWalk base sack now (List.range n) ((List.range 32).countP fun i => sack.testBit i) (s, [])).1

theorem walked_moves (s : SendSide) (n : ℕ) :
    Moves (walked base sack now s n) (walked base sack now s (n + 1)) := by
  have hrange : List.range (n + 1) = List.range n ++ [n] := List.range_succ
  unfold walked
  rw [hrange]
  obtain ⟨above', h⟩ := fastWalk_append base sack now [n] (List.range n)
    ((List.range 32).countP fun i => sack.testBit i) (s, [])
  rw [h]
  exact fastWalk_hole base sack now n above' _

theorem walked_keeps (s : SendSide) : ∀ n : ℕ,
    (Spaced s → Spaced (walked base sack now s n)) ∧ (Balanced s → Balanced (walked base sack now s n)) ∧
      (Bounded s → Bounded (walked base sack now s n))
  | 0 => ⟨id, id, id⟩
  | n + 1 => by
    obtain ⟨h1, h2, h3⟩ := walked_keeps s n
    have hm := walked_moves base sack now s n
    exact ⟨fun h => hm.spaced (h1 h), fun h => hm.balanced (h2 h), fun h => hm.bounded (h3 h)⟩

theorem fastRetransmit_keeps (s : SendSide) :
    Keeps (walked base sack now s 32) (s.fastRetransmit base sack now).1 :=
  .of_same ⟨rfl, rfl⟩ rfl rfl rfl (Or.inr rfl) (Or.inr rfl)

end Walk

/-! ### The timer -/

theorem resendWalk_same (now : ℚ) : ∀ (es : List (ℕ × Sent)) (budget : ℚ) (p : SendSide × List Frame),
    (resendWalk now es budget p).1.inflight = p.1.inflight ∧
      (resendWalk now es budget p).1.cwnd = p.1.cwnd ∧
      (resendWalk now es budget p).1.recover = p.1.recover ∧
      (resendWalk now es budget p).1.rto = p.1.rto ∧
      (resendWalk now es budget p).1.undo = p.1.undo
  | [], _, _ => ⟨rfl, rfl, rfl, rfl, rfl⟩
  | (k, e) :: es, budget, p => by
    unfold resendWalk
    by_cases hd : budget < e.frame.len ∧ p.2 ≠ []
    · rw [if_pos hd]
      exact resendWalk_same now es budget p
    · rw [if_neg hd]
      exact resendWalk_same now es _ (p.1.markResent k e now, p.2 ++ [e.frame])

theorem resendRound_keeps (s : SendSide) {due : List (ℕ × Sent)} (first : Sent) (now : ℚ)
    (h : Names s due) : Keeps s (s.resendRound due first now).1 := by
  obtain ⟨h1, h2, h3, h4, h5⟩ := resendWalk_same now due (max s.cwnd first.frame.len) (s.postpone now, [])
  exact .of_same (resendRound_sameBook s first now h) h1 h2 h3 (Or.inr h4) (Or.inr h5)

theorem timeout_moves {oldest : ℕ} {first : Sent} (now : ℚ) (h : s.unacked.get? oldest = some first) :
    Moves s { (postpone { s.loss oldest true with frto := 1 } now).markResent oldest first now with
      retransmits := (s.loss oldest true).retransmits + 1 } := by
  have hpost := postpone_sameBook { s.loss oldest true with frto := 1 } now
  have hget : (book (postpone { s.loss oldest true with frto := 1 } now)).get? oldest =
      some first.frame := by
    rw [hpost.1, get?_book]
    change ((s.loss oldest true).unacked.get? oldest).map Sent.frame = _
    rw [(loss_unacked s oldest true).1, h]
    rfl
  have hafter : Keeps (s.loss oldest true)
      { (postpone { s.loss oldest true with frto := 1 } now).markResent oldest first now with
        retransmits := (s.loss oldest true).retransmits + 1 } :=
    .of_same (hpost.trans (markResent_sameBook _ now hget)) rfl rfl rfl (Or.inr rfl) (Or.inr rfl)
  exact (Keeps.refl s).between (loss_moves (Dict.mem_keys_of_get? h) true) hafter

theorem getRetransmitFrames_moves (s : SendSide) (now : ℚ) : Moves s (s.getRetransmitFrames now).1 := by
  have hidle : Moves s s := (Keeps.refl s).moves
  have hnames := names_expired s now
  unfold getRetransmitFrames
  cases hentries : s.unacked.entries with
  | nil => exact hidle
  | cons head tl =>
    obtain ⟨oldest, first⟩ := head
    cases hdue : s.expired now with
    | nil => exact hidle
    | cons head' rest =>
      obtain ⟨seq, due⟩ := head'
      rw [hdue] at hnames
      have hget : s.unacked.get? oldest = some first :=
        Dict.get?_eq_some.mpr (by rw [hentries]; exact List.mem_cons_self)
      -- what precedes the loss: the timeout is counted and the timer backs off
      have hback : Keeps s { s with
          timeouts := s.timeouts + 1
          backoff := min (s.backoff * 2) 64
          rto := min rtoMax (s.rtoBase * (min (s.backoff * 2) 64 : ℕ)) } :=
        .of_same ⟨rfl, rfl⟩ rfl rfl rfl (Or.inl (min_le_left _ _)) (Or.inr rfl)
      have hclear : ∀ s' : SendSide, Keeps s' { s' with frto := 0, undo := none } := fun _ =>
        .of_same ⟨rfl, rfl⟩ rfl rfl rfl (Or.inr rfl) (Or.inl rfl)
      dsimp only
      by_cases hold : seq = oldest
      · rw [if_pos hold]
        by_cases htimeout : (first.resent || !s.beforeRecover oldest) = true
        · rw [if_pos htimeout]
          by_cases hfirst : (!first.resent) = true
          · rw [if_pos hfirst]
            exact hback.then_moves (timeout_moves now hget)
          · rw [if_neg hfirst]
            exact ((hback.trans (hclear _)).trans (resendRound_keeps _ due now hnames)).moves
        · rw [if_neg htimeout]
          exact ((hclear s).trans (resendRound_keeps _ due now hnames)).moves
      · rw [if_neg hold]
        exact (resendRound_keeps s due now hnames).moves

/-! ### Runs -/

inductive Op
  | build (payload : Bytes) (more : Bool) (now : ℚ)
  | ack (ack sack : ℕ) (now : ℚ)
  | timer (now : ℚ)

def step (l : ReliableLink) : Op → ReliableLink
  | .build payload more now => (l.buildSegment payload more now).1
  | .ack ack sack now => { l with snd := (l.snd.processAck ack sack now).1 }
  | .timer now => { l with snd := (l.snd.getRetransmitFrames now).1 }

/-- What an acknowledgment pair leaves before the holes of its bitmap are looked at. -/
def settled (s : SendSide) (ack sack : ℕ) (now : ℚ) : SendSide :=
  let gone := cleared ack s.unacked.keys
  let p := gone.foldl (popSeq now) (s, 0)
  let p := (sackedSeqs (mask32 (ack + 1)) sack).foldl (popSeq now) p
  p.1.settle gone.length sack p.2 now

/-- The states an operation passes through on the way: only the walk over the holes may cut more than
once. -/
def amid (l : ReliableLink) : Op → List SendSide
  | .ack ack sack now =>
    (List.range 33).map (walked (mask32 (ack + 1)) sack now (settled l.snd ack sack now))
  | _ => []

def trace : ReliableLink → List Op → List SendSide
  | l, [] => [l.snd]
  | l, op :: ops => l.snd :: (amid l op ++ trace (step l op) ops)

/-- A frame is built while the numbers in flight lie less than half the circle behind the next one. -/
def Roomy (l : ReliableLink) : Op → Prop
  | .build _ _ _ => ∀ k ∈ l.snd.unacked.keys, mask32 (l.snd.sendSeq - k) < 2147483648
  | _ => True

instance (l : ReliableLink) (op : Op) : Decidable (Roomy l op) := by
  cases op <;> unfold Roomy <;> infer_instance

theorem settled_keeps (s : SendSide) (ack sack : ℕ) (now : ℚ) : Keeps s (settled s ack sack now) :=
  (foldl_popSeq_keeps now (cleared ack s.unacked.keys) (s, 0)).trans
    ((foldl_popSeq_keeps now (sackedSeqs (mask32 (ack + 1)) sack) _).trans (settle_keeps _ _ _ _ _))

theorem processAck_keeps (s : SendSide) (ack sack : ℕ) (now : ℚ) :
    Keeps (walked (mask32 (ack + 1)) sack now (settled s ack sack now) 32)
      (s.processAck ack sack now).1 := by
  have hdef : s.processAck ack sack now = if sack ≠ 0
      then (settled s ack sack now).fastRetransmit (mask32 (ack + 1)) sack now
      else (settled s ack sack now, []) := rfl
  rw [hdef]
  by_cases hz : sack ≠ 0
  · rw [if_pos hz]
    exact fastRetransmit_keeps _ _ _ _
  · have hzero : sack = 0 := not_not.mp hz
    have hcount : ((List.range 32).countP fun i => sack.testBit i) < dupThreshold := by
      rw [hzero]; decide
    rw [if_neg hz, walked, fastWalk_stop _ _ _ hcount]
    exact .refl _

theorem isChain_walk {α : Type} {R : α → α → Prop} {a b : α} {f : ℕ → α} {n : ℕ} (hfirst : R a (f 0))
    (hstep : ∀ m, R (f m) (f (m + 1))) (hlast : R (f n) b) :
    (a :: ((List.range (n + 1)).map f ++ [b])).IsChain R := by
  have hmid : ((List.range (n + 1)).map f).IsChain R :=
    (List.isChain_map f).mpr ((List.isChain_range_succ _ n).mpr fun m _ => hstep m)
  have hwhole : ((List.range (n + 1)).map f ++ [b]).IsChain R := by
    refine List.isChain_append.mpr ⟨hmid, List.isChain_singleton b, fun x hx y hy => ?_⟩
    rw [List.range_succ, List.map_append, List.map_singleton, List.getLast?_concat] at hx
    cases hx
    cases hy
    exact hlast
  refine List.isChain_cons.mpr ⟨fun y hy => ?_, hwhole⟩
  rw [List.range_succ_eq_map] at hy
  cases hy
  exact hfirst

variable {l : ReliableLink}

theorem amid_cuts (hs : Spaced l.snd) (hb : Bounded l.snd) (op : Op) :
    (l.snd :: (amid l op ++ [(step l op).snd])).IsChain Cut := by
  cases op with
  | build payload more now =>
    exact List.isChain_pair.mpr fun hlt => absurd hlt (lt_irrefl _)
  | timer now =>
    exact List.isChain_pair.mpr ((getRetransmitFrames_moves l.snd now).cut hs hb)
  | ack ack sack now =>
    have hset := settled_keeps l.snd ack sack now
    have hwalk := walked_keeps (mask32 (ack + 1)) sack now (settled l.snd ack sack now)
    have hcut : ∀ n, Cut (walked (mask32 (ack + 1)) sack now (settled l.snd ack sack now) n)
        (walked (mask32 (ack + 1)) sack now (settled l.snd ack sack now) (n + 1)) := fun n =>
      (walked_moves _ _ _ _ n).cut ((hwalk n).1 (hset.spaced hs)) ((hwalk n).2.2 (hset.bounded hb))
    have hfirst : Cut l.snd (walked (mask32 (ack + 1)) sack now (settled l.snd ack sack now) 0) :=
      hset.moves.cut hs hb
    have hlast := (processAck_keeps l.snd ack sack now).moves.cut ((hwalk 32).1 (hset.spaced hs))
      ((hwalk 32).2.2 (hset.bounded hb))
    exact isChain_walk hfirst hcut hlast

theorem bounded_new (seq : ℕ) : Bounded (SendSide.new seq) where
  cwnd_min := by unfold SendSide.new cwndMin cwndInitial; norm_num
  cwnd_max := by unfold SendSide.new cwndMax cwndInitial; norm_num
  rto_max := by unfold SendSide.new rtoMax rtoInitial; norm_num
  undo_max u hu := by cases hu

theorem bounded_step (h : Bounded l.snd) (op : Op) : Bounded (step l op).snd := by
  cases op with
  | build payload more now => exact ⟨h.cwnd_min, h.cwnd_max, h.rto_max, h.undo_max⟩
  | timer now => exact (getRetransmitFrames_moves l.snd now).bounded h
  | ack ack sack now =>
    have hset := (settled_keeps l.snd ack sack now).bounded h
    exact (processAck_keeps l.snd ack sack now).bounded ((walked_keeps _ _ _ _ 32).2.2 hset)

def Sound (l : ReliableLink) : Prop := Spaced l.snd ∧ Balanced l.snd ∧ Bounded l.snd

theorem mask32_succ_sub {a k : ℕ} (h : mask32 ((a : ℤ) - k) < 4294967295) :
    mask32 (((mask32 ((a : ℤ) + 1) : ℕ) : ℤ) - k) = mask32 ((a : ℤ) - k) + 1 := by
  unfold mask32 mask word at h ⊢
  push_cast at h ⊢
  omega

theorem sound_build (h : Sound l) (payload : Bytes) (more : Bool) (now : ℚ)
    (hroom : Roomy l (.build payload more now)) : Sound (step l (.build payload more now)) := by
  obtain ⟨hs, hbal, hb⟩ := h
  have hnot : l.snd.sendSeq ∉ l.snd.unacked.keys := fun hmem => by
    have hpos := (hs _ hmem).1
    rw [sub_self] at hpos
    exact absurd hpos (by decide)
  refine ⟨fun k hk => ?_, ?_, bounded_step hb (.build payload more now)⟩
  · have hold : mask32 (l.snd.sendSeq - k) < 2147483648 ∧
        (k = l.snd.sendSeq ∨ 0 < mask32 (l.snd.sendSeq - k)) := by
      rcases Dict.mem_keys_set.mp hk with rfl | hk
      · rw [sub_self]
        exact ⟨by decide, Or.inl rfl⟩
      · exact ⟨hroom k hk, Or.inr (hs k hk).1⟩
    have hnext := mask32_succ_sub (a := l.snd.sendSeq) (k := k) (by omega)
    change 0 < mask32 ((mask32 ((l.snd.sendSeq : ℤ) + 1) : ℕ) - (k : ℤ)) ∧
      mask32 ((mask32 ((l.snd.sendSeq : ℤ) + 1) : ℕ) - (k : ℤ)) ≤ 2147483648
    rw [hnext]
    omega
  · unfold Balanced load at hbal ⊢
    change l.snd.inflight + _ = ((weight _ (l.snd.unacked.set l.snd.sendSeq _) : ℕ) : ℤ)
    rw [weight_set_of_notMem _ hnot, hbal]
    push_cast
    rfl

/-- **Every operation keeps the accounts, with room on the circle.** -/
theorem sound_step (h : Sound l) {op : Op} (hroom : Roomy l op) : Sound (step l op) := by
  cases op with
  | build payload more now => exact sound_build h payload more now hroom
  | timer now =>
    have hm := getRetransmitFrames_moves l.snd now
    exact ⟨hm.spaced h.1, hm.balanced h.2.1, hm.bounded h.2.2⟩
  | ack ack sack now =>
    have hset := settled_keeps l.snd ack sack now
    obtain ⟨h1, h2, h3⟩ := walked_keeps (mask32 (ack + 1)) sack now (settled l.snd ack sack now) 32
    have hlast := processAck_keeps l.snd ack sack now
    exact ⟨hlast.spaced (h1 (hset.spaced h.1)), hlast.balanced (h2 (hset.balanced h.2.1)),
      hlast.bounded (h3 (hset.bounded h.2.2))⟩

theorem trace_cuts : ∀ (ops : List Op) {l : ReliableLink}, Sound l → Guarded step Roomy l ops →
    (trace l ops).IsChain Cut
  | [], l, _, _ => List.isChain_singleton l.snd
  | op :: ops, l, h, hg => by
    have ih := trace_cuts ops (sound_step h hg.1) hg.2
    have hamid := amid_cuts h.1 h.2.2 op
    unfold trace
    cases ops with
    | nil => exact hamid
    | cons op' ops => exact List.isChain_cons_split.mpr ⟨hamid, ih⟩

/-- **The accounts of the send side.** After every run from a new link the window and the timer are within
their bounds. In every run that builds each frame with room on the circle, the counter of bytes in flight
is what the frames in flight weigh, and the window is reduced only where the recovery point moves up to
the next number to be sent, so once between two of its moves. -/
theorem accounting (seq : ℕ) (rcv : RecvSide) (ops : List Op) :
    (cwndMin ≤ (run step ⟨SendSide.new seq, rcv⟩ ops).snd.cwnd ∧
      (run step ⟨SendSide.new seq, rcv⟩ ops).snd.cwnd ≤ cwndMax ∧
      (run step ⟨SendSide.new seq, rcv⟩ ops).snd.rto ≤ rtoMax) ∧
    (Guarded step Roomy ⟨SendSide.new seq, rcv⟩ ops →
      Balanced (run step ⟨SendSide.new seq, rcv⟩ ops).snd ∧
      (trace ⟨SendSide.new seq, rcv⟩ ops).IsChain Cut) := by
  have hnew : Sound ⟨SendSide.new seq, rcv⟩ := ⟨fun k hk => (by cases hk), rfl, bounded_new seq⟩
  have hb : Bounded (run step ⟨SendSide.new seq, rcv⟩ ops).snd :=
    run_induct (P := fun l : ReliableLink => Bounded l.snd) (fun _ op h => bounded_step h op) ops
      (bounded_new seq)
  refine ⟨⟨hb.cwnd_min, hb.cwnd_max, hb.rto_max⟩, fun hg => ⟨?_, trace_cuts ops hnew hg⟩⟩
  exact (Guarded.run_induct (P := Sound) (fun _ _ h hr => sound_step h hr) hnew hg).2.1

/-- Four frames, of which the first is lost: the bitmap says so, and the window is halved. -/
def halved : List Op :=
  [.build [1] false 0, .build [2] false 0, .build [3] false 0, .build [4] false 0, .ack 6 14 1]

theorem accounting_halved :
    (cwndMin ≤ (run step (ReliableLink.new 7) halved).snd.cwnd ∧
      (run step (ReliableLink.new 7) halved).snd.cwnd ≤ cwndMax ∧
      (run step (ReliableLink.new 7) halved).snd.rto ≤ rtoMax) ∧
    Balanced (run step (ReliableLink.new 7) halved).snd ∧ (trace (ReliableLink.new 7) halved).IsChain Cut := by
  have h := accounting 7 RecvSide.new halved
  exact ⟨h.1, h.2 (by decide +kernel)⟩

/-! ### Without room on the circle -/

def builds (payload : Bytes) (n : ℕ) : List Op := List.replicate n (.build payload false 0)

theorem builds_counted (seq : ℕ) (hseq : seq < 4294967296) (payload : Bytes) : ∀ n : ℕ,
    (run step (ReliableLink.new seq) (builds payload n)).snd.inflight =
        n * ((magic.length + frameSize + payload.length : ℕ) : ℤ) ∧
      (run step (ReliableLink.new seq) (builds payload n)).snd.sendSeq < 4294967296 ∧
      (∀ k ∈ (run step (ReliableLink.new seq) (builds payload n)).snd.unacked.keys, k < 4294967296) ∧
      ∀ e ∈ (run step (ReliableLink.new seq) (builds payload n)).snd.unacked.entries,
        e.2.frame.payload = payload
  | 0 => ⟨by rw [builds, List.replicate_zero, run_nil]; simp [ReliableLink.new, SendSide.new], hseq,
      fun k hk => (by cases hk), fun e he => (by cases he)⟩
  | n + 1 => by
    obtain ⟨h1, h2, h3, h4⟩ := builds_counted seq hseq payload n
    rw [builds, List.replicate_succ', run_concat, ← builds]
    set l := run step (ReliableLink.new seq) (builds payload n)
    have hnext : (step l (.build payload false 0)).snd.sendSeq = mask32 (l.snd.sendSeq + 1) := rfl
    refine ⟨?_, by rw [hnext]; exact mask32_lt _, fun k hk => ?_, fun e he => ?_⟩
    · change l.snd.inflight + ((magic.length + frameSize + payload.length : ℕ) : ℤ) = _
      rw [h1]
      push_cast
      ring
    · rcases Dict.mem_keys_set.mp hk with rfl | hk
      · exact h2
      · exact h3 k hk
    · have hget : (step l (.build payload false 0)).snd.unacked.get? e.1 = some e.2 :=
        Dict.get?_eq_some.mpr he
      change (l.snd.unacked.set _ _).get? e.1 = _ at hget
      rcases Dict.get?_of_set hget with ⟨-, hv⟩ | ⟨-, hget⟩
      · rw [hv]
      · exact h4 e (Dict.get?_eq_some.mp hget)

/-- **A frame built when its number is in flight is counted for good**: one more frame than there are
numbers, of any size, and none acknowledged. -/
theorem overrun_unbalanced :
    ¬ Balanced (run step (ReliableLink.new 0) (builds [1] 4294967297)).snd := by
  intro hbal
  obtain ⟨h1, -, h3, h4⟩ := builds_counted 0 (by decide) [1] 4294967297
  generalize (run step (ReliableLink.new 0) (builds [1] 4294967297)).snd = s at h1 h3 h4 hbal
  have hsize : s.unacked.size ≤ 4294967296 := size_le_of_keys_lt h3
  have hload : load s ≤ s.unacked.size * 20 := weight_le _ fun e he => by
    have := h4 e he
    unfold Frame.len
    rw [this]
    decide
  have hc : (magic.length + frameSize + ([1] : Bytes).length : ℕ) = 20 := by decide
  unfold Balanced at hbal
  rw [hbal, hc] at h1
  omega

end NMesh.Udp.Accounting
