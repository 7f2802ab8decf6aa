import NMesh.Udp.Link
import Mathlib.Data.Nat.Bitwise

/-! # What the receive side knows

`Follows init log first gap r` says what a started receive side knows of the frames `log` that a link
born at `init` framed, its cursor having been learned from number `first`: the cursor is the number
after the frames handed over, these are a run of `log` from `first` on, and each buffered frame is a
frame of `log` at least `gap` numbers ahead of the cursor. Between operations `gap` is `1`; while the
buffer is flushed it is `0`. `Bitmap r` says that the bitmap tells the buffer.

`processIncoming` keeps both (`processIncoming_received`), as long as the frame it reads is no more
than `2 ^ 31` numbers behind the cursor and less than `2 ^ 32` ahead of it, and forgets no frame it
has (`Has`). -/

namespace NMesh.Udp.Receive

open Base.BigEndian Base.Ordered Base.Serial NMesh.Udp.Wire NMesh.Udp.Link RecvSide

/-- A started receive side, its cursor learned from number `first` of `log`. -/
structure Follows (init : ℕ) (log : List Frame) (first gap : ℕ) (r : RecvSide) : Prop where
  started : r.recvStarted = true
  next : r.recvNext = seq32 init (first + r.handed.length)
  le : first + r.handed.length ≤ log.length
  handed : r.handed <+: (log.drop first).map Frame.piece
  buffered : ∀ k v, r.reorder.get? k = some v → ∃ n f, first + r.handed.length + gap ≤ n ∧
    n < first + r.handed.length + 2147483648 ∧ k = seq32 init n ∧ log[n]? = some f ∧ v = f.piece

/-- Bit `i` of the bitmap says whether the frame `i` past the cursor is buffered. -/
def Bitmap (r : RecvSide) : Prop :=
  r.sack.testBit 0 = false ∧
    ∀ i : ℕ, 0 < i → i < 32 → (r.sack.testBit i ↔ mask32 (r.recvNext + i) ∈ r.reorder.keys)

/-- A receive side before its first arrival. -/
structure Idle (r : RecvSide) : Prop where
  started : r.recvStarted = false
  next : r.recvNext = 0
  reorder : r.reorder = Dict.empty
  sack : r.sack = 0
  handed : r.handed = []

def Received (init : ℕ) (log : List Frame) (first : ℕ) (r : RecvSide) : Prop :=
  Idle r ∨ Follows init log first 1 r ∧ Bitmap r

/-- Number `n` has arrived: it has been handed over, or it waits in the buffer. -/
def Has (init first : ℕ) (r : RecvSide) (n : ℕ) : Prop :=
  r.recvStarted = true ∧ first ≤ n ∧ (n < first + r.handed.length ∨
    first + r.handed.length ≤ n ∧ n < first + r.handed.length + 2147483648 ∧
      seq32 init n ∈ r.reorder.keys)

variable {init first gap : ℕ} {log : List Frame} {r : RecvSide}

theorem idle_new : Idle RecvSide.new := ⟨rfl, rfl, rfl, rfl, rfl⟩

theorem Received.follows (h : Received init log first r) (hs : r.recvStarted = true) :
    Follows init log first 1 r ∧ Bitmap r :=
  h.resolve_left fun hi => by rw [hi.started] at hs; cases hs

theorem Received.idle (h : Received init log first r) (hs : r.recvStarted = false) : Idle r :=
  h.resolve_right fun hf => by rw [hf.1.started] at hs; cases hs

theorem Follows.concat (h : Follows init log first gap r) (f : Frame) :
    Follows init (log ++ [f]) first gap r where
  started := h.started
  next := h.next
  le := h.le.trans (by simp)
  handed := h.handed.trans (by
    rw [List.drop_append_of_le_length (by have := h.le; omega), List.map_append]
    exact List.prefix_append _ _)
  buffered k v hk := by
    obtain ⟨n, g, h1, h2, h3, h4, h5⟩ := h.buffered k v hk
    exact ⟨n, g, h1, h2, h3, by
      rw [List.getElem?_append_left (List.getElem?_eq_some_iff.mp h4).1]; exact h4, h5⟩

theorem Received.concat (h : Received init log first r) (f : Frame) :
    Received init (log ++ [f]) first r := h.imp_right fun h => ⟨h.1.concat f, h.2⟩

/-! ### The buffer -/

theorem Follows.mem_buffer (h : Follows init log first gap r) {n : ℕ}
    (hk : seq32 init n ∈ r.reorder.keys) (h1 : first + r.handed.length ≤ n + 2147483648)
    (h2 : n ≤ first + r.handed.length + 2147483648) :
    first + r.handed.length + gap ≤ n ∧ ∃ f, log[n]? = some f ∧
      r.reorder.get? (seq32 init n) = some f.piece := by
  obtain ⟨v, hv⟩ := Dict.mem_keys.mp hk
  obtain ⟨m, f, hm, hlt, hk', hf, rfl⟩ := h.buffered _ v hv
  obtain rfl := seq32_inj hk' (by omega) (by omega)
  exact ⟨hm, f, hf, hv⟩

theorem Has.lt_length (h : Follows init log first gap r) {n : ℕ} (hn : Has init first r n) :
    n < log.length := by
  rcases hn.2.2 with hn | ⟨h1, h2, hk⟩
  · exact lt_of_lt_of_le hn h.le
  · obtain ⟨-, f, hf, -⟩ := h.mem_buffer hk (by omega) (by omega)
    exact (List.getElem?_eq_some_iff.mp hf).1

theorem Follows.not_has_cursor (h : Follows init log first 1 r) :
    ¬ Has init first r (first + r.handed.length) := by
  rintro ⟨-, -, hn | ⟨-, -, hk⟩⟩
  · omega
  · have := (h.mem_buffer hk (by omega) (by omega)).1
    omega

/-! ### The bitmap -/

theorem testBit_withBit (next sack k i : ℕ) : (withBit next sack k).testBit i = true ↔
    sack.testBit i = true ∨ (0 < i ∧ i < 32) ∧ mask32 (k - next) = i := by
  have hor : ∀ j, (sack ||| 1 <<< j).testBit i = true ↔ sack.testBit i = true ∨ j = i := fun j => by
    rw [Nat.testBit_or, Nat.one_shiftLeft, Nat.testBit_two_pow, Bool.or_eq_true, decide_eq_true_eq]
  unfold withBit
  dsimp only
  split_ifs with h
  · rw [hor]
    exact or_congr_right ⟨fun he => ⟨he ▸ h, he⟩, fun he => he.2⟩
  · exact ⟨Or.inl, fun h' => h'.resolve_right fun h' => h (h'.2 ▸ h'.1)⟩

theorem testBit_foldl_withBit (next i : ℕ) : ∀ (keys : List ℕ) (s : ℕ),
    (keys.foldl (withBit next) s).testBit i = true ↔
      s.testBit i = true ∨ (0 < i ∧ i < 32) ∧ ∃ k ∈ keys, mask32 (k - next) = i
  | [], s => by simp
  | k :: keys, s => by
    rw [List.foldl_cons, testBit_foldl_withBit next i keys, testBit_withBit, or_assoc, ← and_or_left]
    simp only [List.mem_cons, exists_eq_or_imp]

theorem Follows.key_lt (h : Follows init log first gap r) {k : ℕ} (hk : k ∈ r.reorder.keys) :
    k < 4294967296 := by
  obtain ⟨v, hv⟩ := Dict.mem_keys.mp hk
  obtain ⟨n, -, -, -, rfl, -⟩ := h.buffered k v hv
  exact seq32_lt init n

theorem recomputeSack_bitmap (h : ∀ k ∈ r.reorder.keys, k < 4294967296) :
    Bitmap r.recomputeSack := by
  have hiff : ∀ i : ℕ, r.recomputeSack.sack.testBit i = true ↔
      (0 < i ∧ i < 32) ∧ ∃ k ∈ r.reorder.keys, mask32 (k - r.recvNext) = i := fun i => by
    have hfold := testBit_foldl_withBit r.recvNext i r.reorder.keys 0
    rw [Nat.zero_testBit] at hfold
    exact hfold.trans (or_iff_right (by decide))
  refine ⟨Bool.eq_false_iff.mpr fun h0 => ?_, fun i hi h32 => (hiff i).trans ?_⟩
  · exact absurd ((hiff 0).mp h0).1.1 (by omega)
  · constructor
    · rintro ⟨-, k, hk, hd⟩
      have he : k = mask32 (r.recvNext + i) :=
        (mask_sub_eq_iff (by decide) (h k hk) (by omega)).mp hd
      rw [he] at hk
      exact hk
    · intro hk
      exact ⟨⟨hi, h32⟩, _, hk, (mask_sub_eq_iff (by decide) (mask32_lt _) (by omega)).mpr rfl⟩

/-! ### Handing over -/

theorem reassemble_spec (r : RecvSide) (payload : Bytes) (more : Bool) (delivered : List Bytes) :
    let r' := (r.reassemble payload more delivered).1
    r'.recvStarted = r.recvStarted ∧ r'.recvNext = r.recvNext ∧ r'.reorder = r.reorder ∧
      r'.sack = r.sack ∧ r'.handed = r.handed ++ [(payload, more)] := by
  unfold reassemble
  dsimp only
  split_ifs <;> exact ⟨rfl, rfl, rfl, rfl, rfl⟩

variable {f : Frame}

theorem Follows.handOver {r' : RecvSide} (h : Follows init log first 0 r)
    (hf : log[first + r.handed.length]? = some f) (hs : r'.recvStarted = r.recvStarted)
    (hn : r'.recvNext = mask32 (r.recvNext + 1)) (ho : r'.handed = r.handed ++ [f.piece])
    (hb : ∀ k v, r'.reorder.get? k = some v → r.reorder.get? k = some v ∧ k ≠ r.recvNext) :
    Follows init log first 0 r' := by
  have hlen : r'.handed.length = r.handed.length + 1 := by rw [ho]; simp
  have hlt := (List.getElem?_eq_some_iff.mp hf).1
  refine ⟨hs.trans h.started, ?_, by omega, ?_, fun k v hk => ?_⟩
  · rw [hn, h.next, seq32_succ, hlen, Nat.add_assoc]
  · rw [ho, List.prefix_iff_getElem?]
    intro i hi
    rw [List.length_append, List.length_singleton] at hi
    rcases Nat.lt_or_ge i r.handed.length with hlt' | hge
    · rw [List.getElem_append_left hlt']
      exact List.prefix_iff_getElem?.mp h.handed i hlt'
    · obtain rfl : i = r.handed.length := by omega
      rw [List.getElem_concat_length rfl, List.getElem?_map, List.getElem?_drop, hf]
      rfl
  · obtain ⟨hk, hne⟩ := hb k v hk
    obtain ⟨n, g, h1, h2, rfl, h4, h5⟩ := h.buffered k v hk
    refine ⟨n, g, ?_, by omega, rfl, h4, h5⟩
    have : n ≠ first + r.handed.length := by
      rintro rfl; exact hne h.next.symm
    omega

theorem has_handOver {x : Bytes × Bool} {r' : RecvSide} {n : ℕ} (hs : r'.recvStarted = r.recvStarted)
    (ho : r'.handed = r.handed ++ [x]) (hn : Has init first r n)
    (hb : first + r.handed.length < n → n < first + r.handed.length + 2147483648 →
      seq32 init n ∈ r.reorder.keys → seq32 init n ∈ r'.reorder.keys) : Has init first r' n := by
  have hlen : r'.handed.length = r.handed.length + 1 := by rw [ho]; simp
  obtain ⟨h1, h2, h3⟩ := hn
  refine ⟨hs.trans h1, h2, ?_⟩
  rcases h3 with h3 | ⟨h3, h4, hk⟩
  · exact Or.inl (by omega)
  · by_cases hc : n = first + r.handed.length
    · exact Or.inl (by omega)
    · exact Or.inr ⟨by omega, by omega, hb (by omega) h4 hk⟩

/-- **The flush.** It hands over what follows the cursor in the buffer, up to the first gap. -/
theorem flush_spec : ∀ (n : ℕ) (r : RecvSide) (delivered : List Bytes), r.reorder.size ≤ n →
    Follows init log first 0 r →
    Follows init log first 1 (r.flush n delivered).1 ∧
      r.handed.length ≤ (r.flush n delivered).1.handed.length ∧
      ∀ m, Has init first r m → Has init first (r.flush n delivered).1 m
  | 0, r, delivered, hn, h => by
    have hempty : r.reorder.entries = [] := List.length_eq_zero_iff.mp (Nat.le_zero.mp hn)
    refine ⟨{ h with buffered := fun k v hk => ?_ }, le_rfl, fun m hm => hm⟩
    rw [flush, Dict.get?_eq_some, hempty] at hk
    cases hk
  | n + 1, r, delivered, hn, h => by
    unfold flush
    cases hg : r.reorder.get? r.recvNext with
    | none =>
      dsimp only
      refine ⟨{ h with buffered := fun k v hk => ?_ }, le_rfl, fun m hm => hm⟩
      obtain ⟨m, f, h1, h2, rfl, h4, h5⟩ := h.buffered k v hk
      refine ⟨m, f, ?_, h2, rfl, h4, h5⟩
      have : m ≠ first + r.handed.length := by
        rintro rfl; rw [← h.next, hg] at hk; cases hk
      omega
    | some p =>
      obtain ⟨buffered, more⟩ := p
      have hmem := Dict.mem_keys_of_get? hg
      obtain ⟨-, f, hf, hv⟩ := h.mem_buffer (n := first + r.handed.length)
        (by rw [← h.next]; exact hmem) (by omega) (by omega)
      have hp : (buffered, more) = f.piece := by
        rw [← h.next, hg] at hv; exact Option.some.inj hv
      dsimp only
      set q := reassemble { r with
        reorder := r.reorder.pop r.recvNext
        reorderBytes := r.reorderBytes - buffered.length } buffered more delivered with hq
      obtain ⟨s1, s2, s3, -, s5⟩ := reassemble_spec { r with
        reorder := r.reorder.pop r.recvNext
        reorderBytes := r.reorderBytes - buffered.length } buffered more delivered
      rw [← hq] at s1 s2 s3 s5
      set r' : RecvSide := { q.1 with recvNext := mask32 (q.1.recvNext + 1) }
      have e1 : r'.recvStarted = r.recvStarted := s1
      have e2 : r'.recvNext = mask32 (r.recvNext + 1) := congrArg (fun k : ℕ => mask32 (k + 1)) s2
      have e3 : r'.reorder = r.reorder.pop r.recvNext := s3
      have e5 : r'.handed = r.handed ++ [(buffered, more)] := s5
      have hkeys : ∀ k v, r'.reorder.get? k = some v → r.reorder.get? k = some v ∧ k ≠ r.recvNext := by
        intro k v hk
        rw [e3] at hk
        exact (Dict.get?_of_pop hk).symm
      have hsize : r'.reorder.size ≤ n := by
        have := Dict.size_pop hmem
        rw [e3]
        omega
      obtain ⟨ih1, ih2, ih3⟩ := flush_spec n r' q.2 hsize
        (h.handOver hf e1 e2 (e5.trans (by rw [hp])) hkeys)
      refine ⟨ih1, ?_, fun m hm => ih3 m (has_handOver e1 e5 hm fun h1 h2 hk => ?_)⟩
      · refine le_trans ?_ ih2
        simp [e5]
      · rw [e3, Dict.mem_keys_pop]
        refine ⟨hk, fun he => ?_⟩
        rw [h.next] at he
        have := seq32_inj he (by omega) (by omega)
        omega

/-! ### Reading one frame -/

theorem acceptNext_spec (h : Follows init log first 1 r) (hf : log[first + r.handed.length]? = some f) :
    Follows init log first 1 (r.acceptNext f.payload (f.has flagMore)).1 ∧
      Bitmap (r.acceptNext f.payload (f.has flagMore)).1 ∧
      first + r.handed.length < first + (r.acceptNext f.payload (f.has flagMore)).1.handed.length ∧
      ∀ n, Has init first r n → Has init first (r.acceptNext f.payload (f.has flagMore)).1 n := by
  unfold acceptNext
  dsimp only
  set q := reassemble { r with recvNext := mask32 (r.recvNext + 1) } f.payload
    (f.has flagMore) [] with hq
  obtain ⟨e1, e2, e3, -, e5⟩ :=
    reassemble_spec { r with recvNext := mask32 (r.recvNext + 1) } f.payload (f.has flagMore) []
  rw [← hq] at e1 e2 e3 e5
  have h0 : Follows init log first 0 r := { h with
    buffered := fun k v hk => by
      obtain ⟨n, g, h1, h2⟩ := h.buffered k v hk
      exact ⟨n, g, by omega, h2⟩ }
  have hkeys : ∀ k v, q.1.reorder.get? k = some v → r.reorder.get? k = some v ∧ k ≠ r.recvNext := by
    intro k v hk
    rw [e3] at hk
    refine ⟨hk, ?_⟩
    rintro rfl
    have hm : seq32 init (first + r.handed.length) ∈ r.reorder.keys := by
      rw [← h.next]; exact Dict.mem_keys_of_get? hk
    have := (h.mem_buffer hm (by omega) (by omega)).1
    omega
  obtain ⟨f1, f2, f3⟩ := flush_spec q.1.reorder.size q.1 q.2 le_rfl
    (h0.handOver hf e1 e2 e5 hkeys)
  set p := q.1.flush q.1.reorder.size q.2
  have hlen : q.1.handed.length = r.handed.length + 1 := by rw [e5]; simp
  refine ⟨⟨f1.started, f1.next, f1.le, f1.handed, f1.buffered⟩,
    recomputeSack_bitmap fun k hk => f1.key_lt hk, ?_, fun n hn => ?_⟩
  · change _ < first + p.1.handed.length
    omega
  · exact f3 n (has_handOver e1 e5 hn fun _ _ hk => by rw [e3]; exact hk)

theorem bufferAhead_spec {m : ℕ} (maxReorder : ℕ)
    (h : Follows init log first 1 r) (hb : Bitmap r) (hf : log[m]? = some f) (h1 : first + r.handed.length < m)
    (h2 : m < first + r.handed.length + 2147483648) :
    let r' := r.bufferAhead maxReorder (seq32 init m) f.payload (f.has flagMore)
    Follows init log first 1 r' ∧ Bitmap r' ∧ r'.handed = r.handed ∧
      ∀ n, Has init first r n → Has init first r' n := by
  unfold bufferAhead
  dsimp only
  split_ifs
  · refine ⟨⟨h.started, h.next, h.le, h.handed, fun k v hk => ?_⟩, ?_, rfl, fun n hn => ?_⟩
    · change (r.reorder.set _ _).get? k = some v at hk
      rcases Dict.get?_of_set hk with ⟨rfl, rfl⟩ | ⟨-, hk⟩
      · exact ⟨m, f, h1, h2, rfl, hf, rfl⟩
      · exact h.buffered k v hk
    · refine ⟨Bool.eq_false_iff.mpr fun h0 => ?_, fun i hi h32 => (testBit_withBit _ _ _ _).trans ?_⟩
      · rcases (testBit_withBit _ _ _ _).mp h0 with h0 | h0
        · rw [hb.1] at h0; cases h0
        · omega
      · rw [hb.2 i hi h32, mask_sub_eq_iff (by decide) (seq32_lt init m) (by omega)]
        change _ ↔ _ ∈ (r.reorder.set _ _).keys
        rw [Dict.mem_keys_set]
        constructor
        · rintro (hk | ⟨-, he⟩)
          · exact Or.inr hk
          · exact Or.inl he.symm
        · rintro (he | hk)
          · exact Or.inr ⟨⟨hi, h32⟩, he.symm⟩
          · exact Or.inl hk
    · obtain ⟨h1, h2, h3⟩ := hn
      exact ⟨h1, h2, h3.imp_right fun h3 => ⟨h3.1, h3.2.1, Dict.mem_keys_set.mpr (Or.inr h3.2.2)⟩⟩
  · exact ⟨⟨h.started, h.next, h.le, h.handed, h.buffered⟩, hb, rfl, fun n hn => hn⟩

/-- `f` was built as number `m`: it is the `m`-th data frame, or a control frame built before it. -/
structure Numbered (init : ℕ) (log : List Frame) (f : Frame) (m : ℕ) : Prop where
  seq : f.seq = seq32 init m
  le : m ≤ log.length
  data : f.has (flagAckOnly ||| flagKeepalive ||| flagFin) = false → log[m]? = some f

theorem Numbered.concat {g : Frame} {m : ℕ} (h : Numbered init log f m) : Numbered init (log ++ [g]) f m where
  seq := h.seq
  le := h.le.trans (by simp)
  data hd := by
    rw [List.getElem?_append_left (List.getElem?_eq_some_iff.mp (h.data hd)).1]; exact h.data hd

/-- The number the cursor was learned from, after a frame numbered `m` is read. -/
def firstAfter (r : RecvSide) (first m : ℕ) : ℕ := if r.recvStarted then first else m

theorem learn_spec {m : ℕ} (h : Received init log first r) (hf : Numbered init log f m) :
    Follows init log (firstAfter r first m) 1 (r.learn f.seq) ∧ Bitmap (r.learn f.seq) ∧
      (r.learn f.seq).handed = r.handed ∧
      ∀ n, Has init first r n → Has init (firstAfter r first m) (r.learn f.seq) n := by
  unfold learn firstAfter
  by_cases hs : r.recvStarted = true
  · obtain ⟨h1, h2⟩ := h.follows hs
    simp only [if_pos hs]
    exact ⟨h1, h2, trivial, fun n hn => hn⟩
  · have hi := h.idle (Bool.eq_false_iff.mpr hs)
    simp only [if_neg hs]
    refine ⟨⟨rfl, ?_, ?_, ?_, fun k v hk => ?_⟩, ⟨?_, fun i hi' h32 => ?_⟩, trivial,
      fun n hn => absurd hn.1 hs⟩
    · rw [hi.handed]; exact hf.seq
    · rw [hi.handed]; exact hf.le
    · rw [hi.handed]; exact List.nil_prefix
    · rw [hi.reorder] at hk; cases hk
    · rw [hi.sack]; exact Nat.zero_testBit 0
    · rw [hi.sack, hi.reorder]; simp

theorem processIncoming_spec {m : ℕ} (maxReorder : ℕ) (now : ℚ) (h : Received init log first r)
    (hf : Numbered init log f m) (hw : r.recvStarted = true →
      first + r.handed.length ≤ m + 2147483648 ∧ m < first + r.handed.length + 4294967296) :
    let r' := (r.processIncoming maxReorder f now).1
    Follows init log (firstAfter r first m) 1 r' ∧ Bitmap r' ∧
      (r.recvStarted = true → first + r.handed.length ≤ first + r'.handed.length) ∧
      ∀ n, Has init first r n → Has init (firstAfter r first m) r' n := by
  have h' : Received init log first { r with lastRecvTime := now, keepaliveMisses := 0 } :=
    h.imp (fun h => ⟨h.1, h.2, h.3, h.4, h.5⟩) fun h => ⟨⟨h.1.1, h.1.2, h.1.3, h.1.4, h.1.5⟩, h.2⟩
  obtain ⟨l1, l2, l3, l4⟩ := learn_spec h' hf
  have hlen : firstAfter r first m + r.handed.length ≤ m + 2147483648 ∧
      m < firstAfter r first m + r.handed.length + 4294967296 := by
    unfold firstAfter
    by_cases hs : r.recvStarted = true
    · rw [if_pos hs]; exact hw hs
    · rw [if_neg hs]; exact ⟨by rw [(h.idle (Bool.eq_false_iff.mpr hs)).handed]; simp, by omega⟩
  unfold processIncoming
  dsimp only
  change Follows init log (firstAfter r first m) 1 _ at l1
  change _ = r.handed at l3
  change ∀ n, Has init first r n → Has init (firstAfter r first m) _ n at l4
  set r0 := learn { r with lastRecvTime := now, keepaliveMisses := 0 } f.seq
  set first' := firstAfter r first m
  rw [← l3] at hlen ⊢
  have hdist := l1.next
  split_ifs with hctl hd hd'
  · exact ⟨l1, l2, fun _ => le_rfl, l4⟩
  · have hm : m = first' + r0.handed.length := by
      rw [hf.seq, hdist] at hd
      rcases Nat.lt_or_ge m (first' + r0.handed.length) with hlt | hge
      · rw [dist32_of_lt init hlt (by omega)] at hd; omega
      · rw [dist32_of_le init hge (by omega)] at hd; omega
    obtain ⟨a1, a2, a3, a4⟩ :=
      acceptNext_spec l1 (by rw [← hm]; exact hf.data (Bool.eq_false_iff.mpr hctl))
    exact ⟨a1, a2, fun _ => by omega, fun n hn => a4 n (l4 n hn)⟩
  · have hm : first' + r0.handed.length < m ∧ m < first' + r0.handed.length + 2147483648 := by
      rw [hf.seq, hdist] at hd hd'
      rcases Nat.lt_or_ge m (first' + r0.handed.length) with hlt | hge
      · rw [dist32_of_lt init hlt (by omega)] at hd'; omega
      · rw [dist32_of_le init hge (by omega)] at hd hd'; omega
    rw [hf.seq]
    obtain ⟨a1, a2, a3, a4⟩ := bufferAhead_spec maxReorder l1 l2
      (hf.data (Bool.eq_false_iff.mpr hctl)) hm.1 hm.2
    exact ⟨a1, a2, fun _ => by rw [a3], fun n hn => a4 n (l4 n hn)⟩
  · exact ⟨⟨l1.1, l1.2, l1.3, l1.4, l1.5⟩, l2, fun _ => le_rfl, l4⟩

end NMesh.Udp.Receive
