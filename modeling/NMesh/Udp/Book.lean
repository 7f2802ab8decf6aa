import NMesh.Udp.Link
import Mathlib.Data.List.TakeWhile

/-! # The book of frames in flight

What the operations of the send side do to the frames it keeps for retransmission, timers and
window left aside: `book` is the dictionary of these frames. Framing a segment writes one entry
(`buildSegment_book`); an acknowledgment pair strikes out the prefix it acknowledges and the
numbers of its bitmap (`processAck_book`); the timer strikes out nothing
(`getRetransmitFrames_book`). -/

namespace NMesh.Udp.Book

open Base.BigEndian Base.Ordered NMesh.Udp.Wire NMesh.Udp.Link SendSide

/-! ### Dictionaries seen through a function of their values -/

section Dict

variable {κ ν μ : Type}

theorem mapVal_filterKeys (d : Dict κ ν) (f : κ → ν → μ) (p : κ → Bool) :
    (d.filterKeys p).mapVal f = (d.mapVal f).filterKeys p :=
  Dict.ext (by simp [Dict.filterKeys, Dict.mapVal, List.filter_map, Function.comp_def])

theorem filterKeys_filterKeys (d : Dict κ ν) (p q : κ → Bool) :
    (d.filterKeys p).filterKeys q = d.filterKeys fun k => p k && q k :=
  Dict.ext (by simp [Dict.filterKeys, List.filter_filter, Bool.and_comm])

variable [DecidableEq κ]

theorem map_setL_of_eq (f : κ → ν → μ) {k : κ} {v v' : ν} (hf : f k v' = f k v) :
    ∀ {l : List (κ × ν)}, getL k l = some v →
      (setL k v' l).map (fun e => (e.1, f e.1 e.2)) = l.map fun e => (e.1, f e.1 e.2)
  | [], h => by simp [getL] at h
  | e :: l, h => by
    unfold getL at h
    unfold setL
    split_ifs at h ⊢ with he
    · cases h; simp [he, hf]
    · simp [map_setL_of_eq f hf h]

theorem mapVal_set_of_eq (d : Dict κ ν) (f : κ → ν → μ) {k : κ} {v v' : ν}
    (h : d.get? k = some v) (hf : f k v' = f k v) : (d.set k v').mapVal f = d.mapVal f :=
  Dict.ext (map_setL_of_eq f hf h)

theorem map_setL (f : κ → ν → μ) (k : κ) (v : ν) : ∀ l : List (κ × ν),
    (setL k v l).map (fun e => (e.1, f e.1 e.2)) = setL k (f k v) (l.map fun e => (e.1, f e.1 e.2))
  | [] => rfl
  | e :: l => by
    rw [List.map_cons]
    unfold setL
    split_ifs with he
    · rfl
    · rw [List.map_cons, map_setL f k v l]

theorem mapVal_set (d : Dict κ ν) (f : κ → ν → μ) (k : κ) (v : ν) :
    (d.set k v).mapVal f = (d.mapVal f).set k (f k v) := Dict.ext (map_setL f k v d.entries)

end Dict

/-- **The book**: the frames in flight by their sequence numbers. -/
def book (s : SendSide) : Dict ℕ Frame := s.unacked.mapVal fun _ e => e.frame

@[simp] theorem keys_book (s : SendSide) : (book s).keys = s.unacked.keys := Dict.keys_mapVal _ _

theorem get?_book (s : SendSide) (k : ℕ) : (book s).get? k = (s.unacked.get? k).map Sent.frame :=
  Dict.get?_mapVal _ _ k

/-- An operation that leaves the book and the next sequence number as they are. -/
def SameBook (s s' : SendSide) : Prop := book s' = book s ∧ s'.sendSeq = s.sendSeq

theorem SameBook.refl (s : SendSide) : SameBook s s := ⟨rfl, rfl⟩

theorem SameBook.trans {s s' s'' : SendSide} (h : SameBook s s') (h' : SameBook s' s'') :
    SameBook s s'' := ⟨h'.1.trans h.1, h'.2.trans h.2⟩

theorem sameBook_set (s : SendSide) {k : ℕ} {e : Sent} (h : s.unacked.get? k = some e)
    (e' : Sent) (hf : e'.frame = e.frame) : SameBook s { s with unacked := s.unacked.set k e' } :=
  ⟨mapVal_set_of_eq _ _ h hf, rfl⟩

theorem sameBook_mapVal (s : SendSide) (f : ℕ → Sent → Sent) (hf : ∀ k e, (f k e).frame = e.frame) :
    SameBook s { s with unacked := s.unacked.mapVal f } :=
  ⟨Dict.ext (by simp [book, Dict.mapVal, List.map_map, Function.comp_def, hf]), rfl⟩

/-! ### Timers and window -/

theorem sample_unacked (s : SendSide) (rtt : ℚ) :
    (s.sample rtt).unacked = s.unacked ∧ (s.sample rtt).sendSeq = s.sendSeq := by
  unfold sample setTimer
  exact ⟨rfl, rfl⟩

theorem acknowledge_unacked (s : SendSide) (e : Sent) (now : ℚ) :
    (s.acknowledge e now).unacked = s.unacked ∧ (s.acknowledge e now).sendSeq = s.sendSeq := by
  unfold acknowledge
  by_cases hr : (!e.resent) = true
  · simp only [if_pos hr]
    exact sample_unacked _ _
  · simp only [if_neg hr]
    cases s.minRtt with
    | none => exact ⟨rfl, rfl⟩
    | some m =>
      dsimp only
      split_ifs
      · exact sample_unacked _ (now - e.sentAt)
      · exact ⟨rfl, rfl⟩

theorem needlessCut_sameBook (s : SendSide) : SameBook s s.needlessCut := by
  unfold needlessCut
  rcases hu : s.undo with _ | ⟨cwnd, ssthresh, timeout⟩
  · by_cases hf : s.frto ≠ 0
    · simp only [if_pos hf]; exact ⟨rfl, rfl⟩
    · simp only [if_neg hf, hu]; exact ⟨rfl, rfl⟩
  · by_cases hf : (s.frto ≠ 0 || timeout) = true
    · simp only [if_pos hf]; exact ⟨rfl, rfl⟩
    · simp only [if_neg hf]; exact ⟨rfl, rfl⟩

theorem frtoLost_sameBook (s : SendSide) (now : ℚ) : SameBook s (s.frtoLost now) := by
  have h := sameBook_mapVal { s with frto := 0, undo := none }
    (fun seq entry => if !entry.resent && s.beforeRecover seq then { entry with deadline := now }
      else entry) (fun k e => by split_ifs <;> rfl)
  exact h

theorem frtoStep_sameBook (s : SendSide) (advanced sack : ℕ) (now : ℚ) :
    SameBook s (s.frtoStep advanced sack now) := by
  unfold frtoStep
  split_ifs
  · exact frtoLost_sameBook s now
  · exact .refl s
  · exact ⟨rfl, rfl⟩
  · exact needlessCut_sameBook s
  · exact ⟨rfl, rfl⟩

theorem settle_sameBook (s : SendSide) (advanced sack acked : ℕ) (now : ℚ) :
    SameBook s (s.settle advanced sack acked now) := by
  have h : SameBook s (if s.lateOriginal then needlessCut { s with lateOriginal := false }
      else if s.frto ≠ 0 then s.frtoStep advanced sack now else s) := by
    split_ifs
    · exact needlessCut_sameBook { s with lateOriginal := false }
    · exact frtoStep_sameBook s advanced sack now
    · exact .refl s
  unfold settle
  dsimp only
  split_ifs at h ⊢ <;> exact h

theorem loss_unacked (s : SendSide) (seq : ℕ) (timeout : Bool) :
    (s.loss seq timeout).unacked = s.unacked ∧ (s.loss seq timeout).sendSeq = s.sendSeq := by
  unfold loss
  split_ifs <;> exact ⟨rfl, rfl⟩

theorem SameBook.of_unacked {s s' : SendSide} (h : s'.unacked = s.unacked ∧ s'.sendSeq = s.sendSeq) :
    SameBook s s' := ⟨by rw [book, h.1, book], h.2⟩

theorem fastWalk_sameBook (base sack : ℕ) (now : ℚ) : ∀ (is : List ℕ) (above : ℕ)
    (p : SendSide × List Frame), SameBook p.1 (fastWalk base sack now is above p).1
  | [], _, p => .refl p.1
  | i :: is, above, p => by
    unfold fastWalk
    split_ifs
    · exact .refl p.1
    · exact fastWalk_sameBook base sack now is _ p
    · dsimp only
      split
      · exact fastWalk_sameBook base sack now is above p
      · next entry he =>
        split_ifs
        · exact fastWalk_sameBook base sack now is above p
        · have hset := sameBook_set p.1 he { entry with
            fast := true, resent := true, resentAt := now, deadline := now + p.1.rto } rfl
          have hloss := hset.trans (.of_unacked (loss_unacked _ (mask32 (base + i)) false))
          exact hloss.trans (fastWalk_sameBook base sack now is above (_, p.2 ++ [entry.frame]))

theorem fastRetransmit_sameBook (s : SendSide) (base sack : ℕ) (now : ℚ) :
    SameBook s (s.fastRetransmit base sack now).1 :=
  fastWalk_sameBook base sack now (List.range 32) _ (s, [])

/-! ### Framing -/

theorem buildSegment_book (l : ReliableLink) (payload : Bytes) (more : Bool) (now : ℚ) :
    book (l.buildSegment payload more now).1.snd =
      (book l.snd).set l.snd.sendSeq (l.buildSegment payload more now).2 :=
  mapVal_set _ _ _ _

/-! ### Acknowledgments -/

theorem popSeq_unacked (now : ℚ) (p : SendSide × ℕ) (seq : ℕ) :
    (popSeq now p seq).1.unacked = p.1.unacked.pop seq ∧
      (popSeq now p seq).1.sendSeq = p.1.sendSeq := by
  unfold popSeq
  split
  · next h => exact ⟨(Dict.pop_of_notMem (Dict.get?_eq_none.mp h)).symm, rfl⟩
  · exact acknowledge_unacked _ _ _

theorem foldl_popSeq (now : ℚ) : ∀ (seqs : List ℕ) (p : SendSide × ℕ),
    book (seqs.foldl (popSeq now) p).1 = (book p.1).filterKeys (fun k => decide (k ∉ seqs)) ∧
      (seqs.foldl (popSeq now) p).1.sendSeq = p.1.sendSeq
  | [], p => ⟨Dict.ext (by simp [Dict.filterKeys]), rfl⟩
  | seq :: seqs, p => by
    obtain ⟨h1, h2⟩ := popSeq_unacked now p seq
    obtain ⟨ih1, ih2⟩ := foldl_popSeq now seqs (popSeq now p seq)
    have hb : book (popSeq now p seq).1 =
        (book p.1).filterKeys fun k => decide (k ≠ seq) := by
      rw [book, h1, Dict.pop, mapVal_filterKeys, book]
    rw [List.foldl_cons]
    refine ⟨?_, ih2.trans h2⟩
    rw [ih1, hb, filterKeys_filterKeys]
    congr 1
    funext k
    simp [not_or]

/-- Does the pair `(ack, sack)` strike out `k` from a window listing `keys`? -/
def Strikes (ack sack : ℕ) (keys : List ℕ) (k : ℕ) : Prop :=
  k ∈ cleared ack keys ∨ k ∈ sackedSeqs (mask32 (ack + 1)) sack

instance (ack sack : ℕ) (keys : List ℕ) (k : ℕ) : Decidable (Strikes ack sack keys k) := by
  unfold Strikes; infer_instance

theorem processAck_book (s : SendSide) (ack sack : ℕ) (now : ℚ) :
    book (s.processAck ack sack now).1 =
        (book s).filterKeys (fun k => decide (¬ Strikes ack sack s.unacked.keys k)) ∧
      (s.processAck ack sack now).1.sendSeq = s.sendSeq := by
  set gone := cleared ack s.unacked.keys with hgone
  set p := gone.foldl (popSeq now) (s, 0) with hp
  set base := mask32 (ack + 1) with hbase
  set q := (sackedSeqs base sack).foldl (popSeq now) p with hq
  have hsame : SameBook q.1 (s.processAck ack sack now).1 := by
    have hdef : s.processAck ack sack now = if sack ≠ 0
        then (q.1.settle gone.length sack q.2 now).fastRetransmit base sack now
        else (q.1.settle gone.length sack q.2 now, []) := rfl
    rw [hdef]
    split_ifs
    · exact (settle_sameBook _ _ _ _ _).trans (fastRetransmit_sameBook _ _ _ _)
    · exact settle_sameBook _ _ _ _ _
  obtain ⟨h1, h2⟩ := foldl_popSeq now gone (s, 0)
  obtain ⟨h3, h4⟩ := foldl_popSeq now (sackedSeqs base sack) p
  refine ⟨?_, hsame.2.trans (h4.trans h2)⟩
  rw [hsame.1, h3, hp, h1, filterKeys_filterKeys]
  congr 1
  funext k
  simp [Strikes, ← hgone, ← hbase, not_or]

theorem mem_cleared {ack k : ℕ} {keys : List ℕ} (h : k ∈ cleared ack keys) :
    k ∈ keys ∧ mask32 (ack - k) < maxUnacked := by
  refine ⟨(List.takeWhile_prefix _).subset h, ?_⟩
  simpa using List.mem_takeWhile_imp h

theorem mem_sackedSeqs {base sack k : ℕ} :
    k ∈ sackedSeqs base sack ↔ ∃ i < 32, sack.testBit i ∧ k = mask32 (base + i) := by
  simp only [sackedSeqs, List.mem_map, List.mem_filter, List.mem_range]
  exact ⟨fun ⟨i, ⟨h1, h2⟩, h3⟩ => ⟨i, h1, h2, h3.symm⟩, fun ⟨i, h1, h2, h3⟩ => ⟨i, ⟨h1, h2⟩, h3.symm⟩⟩

/-! ### The timer -/

theorem postpone_sameBook (s : SendSide) (now : ℚ) : SameBook s (s.postpone now) :=
  sameBook_mapVal s _ fun k e => by split_ifs <;> rfl

def Names (s : SendSide) (es : List (ℕ × Sent)) : Prop :=
  ∀ e ∈ es, (book s).get? e.1 = some e.2.frame

theorem markResent_sameBook (s : SendSide) {k : ℕ} {e : Sent} (now : ℚ)
    (h : (book s).get? k = some e.frame) : SameBook s (s.markResent k e now) := by
  rw [get?_book, Option.map_eq_some_iff] at h
  obtain ⟨e', he', hf⟩ := h
  exact sameBook_set s he' _ hf.symm

theorem Names.of_sameBook {s s' : SendSide} {es : List (ℕ × Sent)} (h : Names s es)
    (hs : SameBook s s') : Names s' es := fun e he => by rw [hs.1]; exact h e he

theorem resendWalk_sameBook (now : ℚ) : ∀ (es : List (ℕ × Sent)) (budget : ℚ)
    (p : SendSide × List Frame), Names p.1 es →
      SameBook p.1 (resendWalk now es budget p).1
  | [], _, p, _ => .refl p.1
  | (k, e) :: es, budget, p, h => by
    unfold resendWalk
    split_ifs
    · exact resendWalk_sameBook now es budget p fun e he => h e (List.mem_cons_of_mem _ he)
    · have hm := markResent_sameBook p.1 now (h (k, e) List.mem_cons_self)
      refine hm.trans (resendWalk_sameBook now es _ _ ?_)
      exact Names.of_sameBook (fun e he => h e (List.mem_cons_of_mem _ he)) hm

theorem names_expired (s : SendSide) (now : ℚ) : Names s (s.expired now) := by
  intro e he
  have h : s.unacked.get? e.1 = some e.2 := Dict.get?_eq_some.mpr (List.mem_of_mem_filter he)
  rw [get?_book, h]; rfl

theorem resendRound_sameBook (s : SendSide) {due : List (ℕ × Sent)} (first : Sent) (now : ℚ)
    (h : Names s due) : SameBook s (s.resendRound due first now).1 := by
  have h1 := postpone_sameBook s now
  exact h1.trans (resendWalk_sameBook now due _ (s.postpone now, []) (h.of_sameBook h1))

theorem getRetransmitFrames_sameBook (s : SendSide) (now : ℚ) :
    SameBook s (s.getRetransmitFrames now).1 := by
  have hn := names_expired s now
  unfold getRetransmitFrames
  split
  · exact .refl s
  · exact .refl s
  · next oldest first tl seq due rest he hx =>
    rw [hx] at hn
    have hround : ∀ s' : SendSide, s'.unacked = s.unacked ∧ s'.sendSeq = s.sendSeq →
        SameBook s (s'.resendRound ((seq, due) :: rest) due now).1 := fun s' hs' =>
      (SameBook.of_unacked hs').trans
        (resendRound_sameBook s' due now (hn.of_sameBook (.of_unacked hs')))
    split_ifs with h1 h2 h3
    · -- the first timeout of the oldest frame: it alone is resent
      have hfirst : (book s).get? oldest = some first.frame := by
        have : s.unacked.get? oldest = some first := Dict.get?_eq_some.mpr (by rw [he]; simp)
        rw [get?_book, this]; rfl
      have hb : SameBook s (postpone { loss { s with
          timeouts := s.timeouts + 1
          backoff := min (s.backoff * 2) 64
          rto := min rtoMax (s.rtoBase * (min (s.backoff * 2) 64 : ℕ)) } oldest true with
          frto := 1 } now) :=
        (SameBook.of_unacked (loss_unacked { s with
          timeouts := s.timeouts + 1
          backoff := min (s.backoff * 2) 64
          rto := min rtoMax (s.rtoBase * (min (s.backoff * 2) 64 : ℕ)) } oldest true)).trans
          (postpone_sameBook _ now)
      exact hb.trans (markResent_sameBook _ now (by rw [hb.1]; exact hfirst))
    · exact hround _ ⟨rfl, rfl⟩
    · exact hround _ ⟨rfl, rfl⟩
    · exact hround s ⟨rfl, rfl⟩

end NMesh.Udp.Book
