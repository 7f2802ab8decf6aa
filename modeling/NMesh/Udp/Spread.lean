import NMesh.Udp.Retirement
import Mathlib.Algebra.Order.BigOperators.Group.Finset
import Mathlib.Order.Interval.Finset.Nat

/-! # How far the window spreads

The book holds at most 256 frames, but the bitmap strikes frames out of its middle, so the numbers
held may lie further apart than that. `Window d hs` says how far: `hs` lists the numbers held; a
number missing above a held one was struck out by a bitmap (`Sacked`); no bitmap strikes out a number
that a cursor ever rested on (`rests`), so each missing number is less than 32 past a held one, and the
window spreads over at most `32 * 256` numbers (`Window.span`).

An acknowledgment pair frees what it acknowledges exactly if no frame held is more than 256 numbers
behind its cursor (`retires_iff`). -/

namespace NMesh.Udp.Spread

open Base.Ordered Base.Serial Base.Runs NMesh.Udp.Wire NMesh.Udp.Link
open NMesh.Udp.Channel NMesh.Udp.Book NMesh.Udp.Receive NMesh.Udp.Stream NMesh.Udp.Invariant
open NMesh.Udp.Retirement

/-! ### Lists of numbers -/

theorem le_of_cover {a b w : ℕ} {hs : List ℕ}
    (h : ∀ n, a ≤ n → n < b → ∃ u ∈ hs, u ≤ n ∧ n < u + w) : b ≤ a + hs.length * w := by
  have hsub : Finset.Ico a b ⊆ hs.toFinset.biUnion fun u => Finset.Ico u (u + w) := fun n hn => by
    obtain ⟨h1, h2⟩ := Finset.mem_Ico.mp hn
    obtain ⟨u, hu, hlo, hhi⟩ := h n h1 h2
    exact Finset.mem_biUnion.mpr ⟨u, List.mem_toFinset.mpr hu, Finset.mem_Ico.mpr ⟨hlo, hhi⟩⟩
  have hcard := Finset.card_le_card hsub
  have hle : (hs.toFinset.biUnion fun u => Finset.Ico u (u + w)).card ≤ hs.toFinset.card * w :=
    Finset.card_biUnion_le_card_mul _ _ _ fun u _ => by simp
  have := Nat.mul_le_mul_right w hs.toFinset_card_le
  rw [Nat.card_Ico] at hcard
  omega

theorem le_of_cases {a b t : ℕ} {hs : List ℕ}
    (h : ∀ n, a ≤ n → n < b → n ∈ hs ∨ a < n ∧ n < a + 32 ∨ t ≤ n ∧ n < t + 256) :
    b ≤ a + hs.length + 287 := by
  have hsub : Finset.Ico a b ⊆
      hs.toFinset ∪ (Finset.Ico (a + 1) (a + 32) ∪ Finset.Ico t (t + 256)) := fun n hn => by
    obtain ⟨h1, h2⟩ := Finset.mem_Ico.mp hn
    simp only [Finset.mem_union, List.mem_toFinset, Finset.mem_Ico]
    rcases h n h1 h2 with h | ⟨h3, h4⟩ | h
    · exact Or.inl h
    · exact Or.inr (Or.inl ⟨h3, h4⟩)
    · exact Or.inr (Or.inr h)
  have hcard := Finset.card_le_card hsub
  have h1 := Finset.card_union_le hs.toFinset (Finset.Ico (a + 1) (a + 32) ∪ Finset.Ico t (t + 256))
  have h2 := Finset.card_union_le (Finset.Ico (a + 1) (a + 32)) (Finset.Ico t (t + 256))
  have h3 := hs.toFinset_card_le
  simp only [Nat.card_Ico] at hcard h2
  omega

theorem lt_of_takeWhile {p : ℕ → Bool} {hs : List ℕ} (hp : hs.Pairwise (· < ·)) {n u : ℕ}
    (hn : n ∈ hs.takeWhile p) (hu : u ∈ hs) (hu' : u ∉ hs.takeWhile p) : n < u := by
  rw [← List.takeWhile_append_dropWhile (p := p) (l := hs)] at hp hu
  have hd : u ∈ hs.dropWhile p := (List.mem_append.mp hu).resolve_left hu'
  exact (List.pairwise_append.mp hp).2.2 n hn u hd

theorem mem_takeWhile {p : ℕ → Bool} {n : ℕ} : ∀ {hs : List ℕ}, hs.Pairwise (· < ·) → n ∈ hs →
    (∀ u ∈ hs, u ≤ n → p u = true) → n ∈ hs.takeWhile p
  | [], _, hn, _ => hn
  | u :: hs, hp, hn, h => by
    rw [List.pairwise_cons] at hp
    rcases List.mem_cons.mp hn with rfl | hn'
    · rw [List.takeWhile_cons_of_pos (h n List.mem_cons_self le_rfl)]
      exact List.mem_cons_self
    · rw [List.takeWhile_cons_of_pos (h u List.mem_cons_self (hp.1 n hn').le)]
      exact List.mem_cons_of_mem _
        (mem_takeWhile hp.2 hn' fun v hv => h v (List.mem_cons_of_mem _ hv))

/-! ### The invariant -/

/-- A bitmap on the wire strikes out number `n`. -/
def Sacked (d : Direction) (n : ℕ) : Prop :=
  ∃ fl ∈ d.up, ∃ c, fl.cursor = some c ∧
    ∃ i : ℕ, 0 < i ∧ i < 32 ∧ fl.frame.sack.testBit i ∧ n = c + i

/-- Number `n` is written with one of the last 256 sequence numbers, for the first time. -/
def Top (d : Direction) (n : ℕ) : Prop := 4294967040 ≤ d.init + n ∧ d.init + n < 4294967296

/-- **The invariant of the window.** -/
structure Window (d : Direction) (hs : List ℕ) : Prop where
  sound : Sound d
  keys : d.book.keys = hs.map (seq32 d.init)
  sorted : hs.Pairwise (· < ·)
  lt : ∀ n ∈ hs, n < d.sent
  few : hs.length ≤ 256
  sacked : ∀ u ∈ hs, ∀ n, u < n → n < d.sent → n ∈ hs ∨ Sacked d n
  rests : ∀ fl ∈ d.up, ∀ c, fl.cursor = some c → ¬ Sacked d c
  ahead : d.rcv.recvStarted = true → ∀ n, d.cur ≤ n → n < d.sent → n ∈ hs ∨ Sacked d n ∨ Top d n
  early : d.rcv.recvStarted = false → ∀ n < d.sent, n ∈ hs ∨ Top d n
  seen_idle : ∀ fl ∈ d.up, fl.cursor = none → fl.seen ≤ 543
  seen : ∀ fl ∈ d.up, ∀ c, fl.cursor = some c → fl.seen ≤ c + 543
  opening : ∀ u ∈ hs, (d.rcv.recvStarted = true → u < d.first) →
    ∀ n, u ≤ n → n < d.sent → n ∈ hs

variable {d d' : Direction} {hs : List ℕ} {e : Event} {maxReorder : ℕ}

theorem Sacked.arrived (h : Sound d) {n : ℕ} (hn : Sacked d n) :
    d.rcv.recvStarted = true ∧ d.Arrived n ∧ n < d.cur + 32 := by
  obtain ⟨fl, hfl, c, hc, i, hi, h32, hb, rfl⟩ := hn
  have ha := h.answer fl hfl c hc
  have hle := ha.le_cur
  exact ⟨ha.started, ha.arrived i hi h32 hb, by unfold Direction.cur; omega⟩

theorem not_sacked_cur (h : Sound d) : ¬ Sacked d d.cur := fun hn => by
  obtain ⟨hst, ha, -⟩ := hn.arrived h
  exact (h.rcv.follows hst).1.not_has_cursor ha

namespace Window

theorem span (h : Window d hs) {u : ℕ} (hu : u ∈ hs) : d.sent ≤ u + 8192 := by
  have hcover : d.sent ≤ u + hs.length * 32 := le_of_cover fun n hle hlt => by
    rcases Nat.lt_or_ge u n with hlt' | hge
    · rcases h.sacked u hu n hlt' hlt with hn | ⟨fl, hfl, c, hc, i, hi, h32, hb, rfl⟩
      · exact ⟨n, hn, le_rfl, by omega⟩
      · rcases Nat.lt_or_ge u c with hc' | hc'
        · -- the cursor of the bitmap is itself held
          have hheld := (h.sacked u hu c hc' (by omega)).resolve_right (h.rests fl hfl c hc)
          exact ⟨c, hheld, by omega, by omega⟩
        · exact ⟨u, hu, hle, by omega⟩
    · exact ⟨u, hu, hle, by omega⟩
  have := h.few
  omega

theorem lag (h : Window d hs) (hst : d.rcv.recvStarted = true) : d.sent ≤ d.cur + 543 := by
  have hcases : d.sent ≤ d.cur + hs.length + 287 :=
    le_of_cases (t := 4294967040 - d.init) fun n hle hlt => by
      rcases h.ahead hst n hle hlt with hn | hn | hn
      · exact Or.inl hn
      · have hne : n ≠ d.cur := by rintro rfl; exact not_sacked_cur h.sound hn
        have := (hn.arrived h.sound).2.2
        exact Or.inr (Or.inl ⟨by omega, by omega⟩)
      · obtain ⟨h1, h2⟩ := hn
        have := h.sound.init_lt
        exact Or.inr (Or.inr ⟨by omega, by omega⟩)
  have := h.few
  omega

theorem lag_idle (h : Window d hs) (hst : d.rcv.recvStarted = false) : d.sent ≤ 543 := by
  have hcases : d.sent ≤ 0 + hs.length + 287 :=
    le_of_cases (t := 4294967040 - d.init) fun n _ hlt => by
      rcases h.early hst n hlt with hn | ⟨h1, h2⟩
      · exact Or.inl hn
      · have := h.sound.init_lt
        exact Or.inr (Or.inr ⟨by omega, by omega⟩)
  have := h.few
  omega

variable {n : ℕ}

theorem mem_of_key (h : Window d hs) (hlt : n < d.sent) (hle : d.sent ≤ n + 4294967296)
    (hk : seq32 d.init n ∈ d.book.keys) : n ∈ hs := by
  rw [h.keys, List.mem_map] at hk
  obtain ⟨u, hu, he⟩ := hk
  have := h.span hu
  have := h.lt u hu
  obtain rfl := seq32_inj he (by omega) (by omega)
  exact hu

theorem entry (h : Window d hs) (hn : n ∈ hs) : Entry d.init d.sent (seq32 d.init n) n :=
  ⟨h.lt n hn, by have := h.span hn; omega, rfl⟩

/-! ### Framing -/

variable {fl : Flight}

theorem segment (h : Window d hs) (hroom : d.book.size < 256) (hs' : Sound { d with
      book := d.book.set d.nextSeq fl.frame
      nextSeq := mask32 (d.nextSeq + 1)
      log := d.log ++ [fl.frame]
      down := d.down ++ [fl] }) :
    Window { d with
      book := d.book.set d.nextSeq fl.frame
      nextSeq := mask32 (d.nextSeq + 1)
      log := d.log ++ [fl.frame]
      down := d.down ++ [fl] } (hs ++ [d.sent]) := by
  have hlen : (d.log ++ [fl.frame]).length = d.sent + 1 := by simp [Direction.sent]
  have hsent : ∀ n, n < (d.log ++ [fl.frame]).length → n = d.sent ∨ n < d.sent := by
    intro n hn; omega
  have hfresh : d.nextSeq ∉ d.book.keys := by
    rw [h.keys, h.sound.next, List.mem_map]
    rintro ⟨u, hu, he⟩
    have := h.span hu
    have := h.lt u hu
    have := seq32_inj he (by omega) (by omega)
    omega
  have hmem : ∀ {n}, n ∈ hs ++ [d.sent] → n ∈ hs ∨ n = d.sent := fun hn =>
    (List.mem_append.mp hn).imp_right List.mem_singleton.mp
  have hnew : d.sent ∈ hs ++ [d.sent] := List.mem_append.mpr (Or.inr (List.mem_singleton.mpr rfl))
  have hold : ∀ {n}, n ∈ hs → n ∈ hs ++ [d.sent] := fun hn => List.mem_append.mpr (Or.inl hn)
  refine ⟨hs', ?_, ?_, fun n hn => ?_, ?_, fun u hu n hlt hn => ?_, h.rests, fun hst n hle hn => ?_,
    fun hst n hn => ?_, h.seen_idle, h.seen, fun u hu ho n hle hn => ?_⟩
  · change (d.book.set _ _).keys = _
    rw [Dict.keys_set_of_notMem hfresh, h.keys, h.sound.next, List.map_append]; rfl
  · exact List.pairwise_append.mpr ⟨h.sorted, List.pairwise_singleton _ _, fun a ha b hb => by
      rw [List.mem_singleton.mp hb]; exact h.lt a ha⟩
  · change n < (d.log ++ [fl.frame]).length
    rcases hmem hn with hn | rfl
    · have := h.lt n hn; omega
    · omega
  · rw [Dict.size_eq, h.keys, List.length_map] at hroom
    rw [List.length_append, List.length_singleton]
    omega
  · rcases hsent n hn with rfl | hn'
    · exact Or.inl hnew
    · rcases hmem hu with hu | rfl
      · exact (h.sacked u hu n hlt hn').imp_left hold
      · omega
  · rcases hsent n hn with rfl | hn'
    · exact Or.inl hnew
    · exact (h.ahead hst n hle hn').imp_left hold
  · rcases hsent n hn with rfl | hn'
    · exact Or.inl hnew
    · exact (h.early hst n hn').imp_left hold
  · rcases hsent n hn with rfl | hn'
    · exact hnew
    · rcases hmem hu with hu | rfl
      · exact hold (h.opening u hu ho n hle hn')
      · omega

/-! ### Answering -/

theorem answer (h : Window d hs) (hack : (fl.frame.ack, fl.frame.sack) = d.rcv.buildAck)
    (hcur : fl.cursor = if d.rcv.recvStarted then some d.cur else none)
    (hseen : fl.seen = d.log.length) (hs' : Sound { d with up := d.up ++ [fl] }) :
    Window { d with up := d.up ++ [fl] } hs := by
  have hsack : ∀ {n}, Sacked d n → Sacked { d with up := d.up ++ [fl] } n :=
    fun ⟨fl', hfl', hrest⟩ => ⟨fl', List.mem_append.mpr (Or.inl hfl'), hrest⟩
  refine ⟨hs', h.keys, h.sorted, h.lt, h.few, fun u hu n hlt hn => ?_, fun fl' hfl' c hc hn => ?_,
    fun hst n hle hn => ?_, h.early, fun fl' hfl' hc => ?_, fun fl' hfl' c hc => ?_, h.opening⟩
  · exact (h.sacked u hu n hlt hn).imp_right hsack
  · have hle : c ≤ d.cur := (hs'.answer fl' hfl' c hc).le_cur
    obtain ⟨fl2, hfl2, c2, hc2, i, hi, h32, hb, he⟩ := hn
    rcases List.mem_append.mp hfl2 with hold2 | hnew2
    · rcases List.mem_append.mp hfl' with hold | hnew
      · exact h.rests fl' hold c hc ⟨fl2, hold2, c2, hc2, i, hi, h32, hb, he⟩
      · -- the new flight rests on the cursor, which no bitmap strikes out
        obtain rfl := List.mem_singleton.mp hnew
        rw [hcur] at hc
        split_ifs at hc with hst
        cases hc
        exact not_sacked_cur h.sound ⟨fl2, hold2, c2, hc2, i, hi, h32, hb, he⟩
    · -- the new bitmap speaks of numbers past the cursor
      obtain rfl := List.mem_singleton.mp hnew2
      rw [hcur] at hc2
      split_ifs at hc2 with hst
      cases hc2
      omega
  · exact (h.ahead hst n hle hn).imp_right fun h => h.imp_left hsack
  · rcases List.mem_append.mp hfl' with hfl' | hfl'
    · exact h.seen_idle fl' hfl' hc
    · obtain rfl := List.mem_singleton.mp hfl'
      rw [hcur] at hc
      split_ifs at hc with hst
      rw [hseen]
      exact h.lag_idle (Bool.eq_false_iff.mpr hst)
  · rcases List.mem_append.mp hfl' with hfl' | hfl'
    · exact h.seen fl' hfl' c hc
    · obtain rfl := List.mem_singleton.mp hfl'
      rw [hcur] at hc
      split_ifs at hc with hst
      cases hc
      rw [hseen]
      exact h.lag hst

/-! ### Reading a frame -/

theorem frameIn (h : Window d hs) {now : ℚ} (hfl : fl ∈ d.down)
    (hn : Near d (.frameIn fl now)) (hs' : Sound { d with
      rcv := (d.rcv.processIncoming maxReorder fl.frame now).1
      first := firstAfter d.rcv d.first fl.number }) :
    Window { d with
      rcv := (d.rcv.processIncoming maxReorder fl.frame now).1
      first := firstAfter d.rcv d.first fl.number } hs := by
  obtain ⟨s1, -, s3, -⟩ := processIncoming_spec maxReorder now h.sound.rcv
    (h.sound.down fl hfl) hn
  refine ⟨hs', h.keys, h.sorted, h.lt, h.few, h.sacked, h.rests, fun _ n hle hlt => ?_,
    fun hst => ?_, h.seen_idle, h.seen, fun u hu ho => h.opening u hu fun hst => ?_⟩
  · by_cases hst : d.rcv.recvStarted = true
    · refine h.ahead hst n (le_trans ?_ hle) hlt
      change _ ≤ firstAfter d.rcv d.first fl.number + _
      rw [firstAfter, if_pos hst]
      exact s3 hst
    · exact (h.early (Bool.eq_false_iff.mpr hst) n hlt).imp_right Or.inr
  · rw [s1.started] at hst
    cases hst
  · have := ho s1.started
    change u < firstAfter d.rcv d.first fl.number at this
    rwa [firstAfter, if_pos hst] at this

/-! ### Reading an acknowledgment -/

def left (d : Direction) (frame : Frame) (hs : List ℕ) : List ℕ :=
  hs.filter fun n => decide (¬ Strikes frame.ack frame.sack d.book.keys (seq32 d.init n))

theorem mem_left {frame : Frame} : n ∈ left d frame hs ↔
    n ∈ hs ∧ ¬ Strikes frame.ack frame.sack d.book.keys (seq32 d.init n) := by
  rw [left, List.mem_filter, decide_eq_true_eq]

theorem mem_cleared_iff (h : Window d hs) (ack : ℕ) (hn : n ∈ hs) :
    seq32 d.init n ∈ SendSide.cleared ack d.book.keys ↔
      n ∈ hs.takeWhile fun n => decide (mask32 (ack - seq32 d.init n) < maxUnacked) := by
  rw [SendSide.cleared, h.keys, List.takeWhile_map, List.mem_map]
  constructor
  · rintro ⟨m, hm, he⟩
    have hm' := (List.takeWhile_prefix _).subset hm
    have := h.span hm'
    have := h.span hn
    have := h.lt m hm'
    have := h.lt n hn
    obtain rfl := seq32_inj he (by omega) (by omega)
    exact hm
  · intro hm
    exact ⟨n, hm, rfl⟩

theorem lt_of_cleared (h : Window d hs) {frame : Frame} {u : ℕ} (hn : n ∈ hs)
    (hc : seq32 d.init n ∈ SendSide.cleared frame.ack d.book.keys) (hu : u ∈ left d frame hs) : n < u := by
  obtain ⟨hu, hno⟩ := mem_left.mp hu
  exact lt_of_takeWhile h.sorted ((h.mem_cleared_iff _ hn).mp hc) hu fun hm =>
    hno (Or.inl ((h.mem_cleared_iff _ hu).mpr hm))

theorem cursor_near (h : Window d hs) (hfl : fl ∈ d.up)
    (hage : d.sent ≤ fl.seen + 2147483648) {c : ℕ} (hc : fl.cursor = some c) :
    c ≤ d.sent ∧ d.sent + 256 ≤ c + 4294967296 := by
  have ha := h.sound.answer fl hfl c hc
  have hle : d.cur ≤ d.sent := (h.sound.rcv.follows ha.started).1.le
  have hc' : c ≤ d.cur := ha.le_cur
  have := h.seen fl hfl c hc
  omega

theorem struck (h : Window d hs) (hfl : fl ∈ d.up) (hage : d.sent ≤ fl.seen + 2147483648) (hn : n ∈ hs)
    (hst : Strikes fl.frame.ack fl.frame.sack d.book.keys (seq32 d.init n)) :
    seq32 d.init n ∈ SendSide.cleared fl.frame.ack d.book.keys ∧
        (∀ c, fl.cursor = some c → n < c) ∧ (fl.cursor = none → Top d n) ∨
      ∃ c, fl.cursor = some c ∧ Sacked d n := by
  cases hcur : fl.cursor with
  | none =>
    obtain ⟨hack, hsack⟩ := h.sound.idle fl hfl hcur
    rcases hst with hst | hst
    · refine Or.inl ⟨hst, fun c hc => (by cases hc), fun _ => ?_⟩
      have hlt := (mem_cleared hst).2
      have hk := seq32_lt d.init n
      rw [hack, mask32, mask_of_lt (by push_cast; omega) (by push_cast; omega)] at hlt
      unfold maxUnacked at hlt
      have hinit := h.sound.init_lt
      have hseen := h.seen_idle fl hfl hcur
      have hsent := h.lt n hn
      rcases Nat.lt_or_ge (d.init + n) 4294967296 with hlow | hhigh
      · rw [seq32, seqOf, mask_of_lt (by omega) (by push_cast; omega)] at hlt hk
        exact ⟨by omega, hlow⟩
      · -- a number after the wrap is small
        have hval : seq32 d.init n = d.init + n - 4294967296 := by
          obtain ⟨m, hm⟩ := Nat.exists_eq_add_of_le hhigh
          rw [seq32, seqOf, show ((d.init : ℤ) + n) = (m : ℤ) + (word : ℕ) by push_cast; omega,
            mask_add_self, mask_of_lt (by omega) (by push_cast; omega)]
          omega
        rw [hval] at hlt
        omega
    · rw [hsack] at hst
      exact absurd hst (not_sacked_zero _)
  | some c =>
    have ha := h.sound.answer fl hfl c hcur
    obtain ⟨hle, hnear⟩ := h.cursor_near hfl hage hcur
    rcases hst with hst | hst
    · have hlt := ((cleared_iff ha (h.entry hn) hle hnear).mp (mem_cleared hst).2).1
      exact Or.inl ⟨hst, fun c' hc' => (by cases hc'; exact hlt), fun hc' => by cases hc'⟩
    · obtain ⟨i, hi, h32, hb, he⟩ := (sacked_iff ha (h.sound.rcv.follows ha.started).1 (h.entry hn)
        (by change d.sent ≤ _; omega)).mp hst
      exact Or.inr ⟨c, rfl, fl, hfl, c, hcur, i, hi, h32, hb, he⟩

theorem recent_of_opening (h : Window d hs) {u : ℕ} (hu : u ∈ hs)
    (ho : d.rcv.recvStarted = true → u < d.first) : d.sent ≤ u + 256 := by
  have hcover : d.sent ≤ u + hs.length * 1 := le_of_cover fun n hle hlt =>
    ⟨n, h.opening u hu ho n hle hlt, le_rfl, by omega⟩
  have := h.few
  omega

/-- A pair built with the cursor at `c` walks as far as a number below `c`, if every number up to it
is within 256 of `c`. -/
theorem cleared_of_near (h : Window d hs) (hfl : fl ∈ d.up)
    (hage : d.sent ≤ fl.seen + 2147483648) {c : ℕ} (hc : fl.cursor = some c) {u : ℕ} (hu : u ∈ hs)
    (huc : u < c) (hnear : ∀ v ∈ hs, v ≤ u → c ≤ v + 256) :
    seq32 d.init u ∈ SendSide.cleared fl.frame.ack d.book.keys := by
  obtain ⟨hle, hfar⟩ := h.cursor_near hfl hage hc
  refine (h.mem_cleared_iff _ hu).mpr (mem_takeWhile h.sorted hu fun v hv hvu => ?_)
  exact decide_eq_true ((cleared_iff (h.sound.answer fl hfl c hc) (h.entry hv) hle hfar).mpr
    ⟨by omega, hnear v hv hvu⟩)

/-- While a number from before the cursor's first is held, everything after it is: the pair that
would strike out more walks over that number too. -/
theorem opening_left (h : Window d hs) (hfl : fl ∈ d.up)
    (hage : d.sent ≤ fl.seen + 2147483648) {u : ℕ} (hu : u ∈ left d fl.frame hs)
    (ho : d.rcv.recvStarted = true → u < d.first) (hle : u ≤ n) (hn : n < d.sent) : n ∈ left d fl.frame hs := by
  have hu' := mem_left.mp hu
  have hheld := h.opening u hu'.1 ho n hle hn
  refine mem_left.mpr ⟨hheld, fun hst => ?_⟩
  rcases h.struck hfl hage hheld hst with ⟨hc, -, -⟩ | ⟨c, hc, -⟩
  · have := h.lt_of_cleared hheld hc hu
    omega
  · have ha := h.sound.answer fl hfl c hc
    have hfirst := ha.first_le
    have hlt := ho ha.started
    have hle' := (h.cursor_near hfl hage hc).1
    refine hu'.2 (Or.inl (h.cleared_of_near hfl hage hc hu'.1 (by omega) fun v hv hvu => ?_))
    have := h.recent_of_opening hv fun _ => by omega
    omega

theorem ackIn (h : Window d hs) (hfl : fl ∈ d.up) (hage : d.sent ≤ fl.seen + 2147483648) (hs' : Sound { d with
      book := d.book.filterKeys fun k =>
        decide (¬ Strikes fl.frame.ack fl.frame.sack d.book.keys k) }) :
    Window { d with
      book := d.book.filterKeys fun k =>
        decide (¬ Strikes fl.frame.ack fl.frame.sack d.book.keys k) } (left d fl.frame hs) := by
  have hsub : ∀ {n}, n ∈ left d fl.frame hs → n ∈ hs := fun hn => (mem_left.mp hn).1
  have hgone : ∀ {n}, n ∈ hs → n ∉ left d fl.frame hs →
      Strikes fl.frame.ack fl.frame.sack d.book.keys (seq32 d.init n) := fun hn hno => by
    by_contra hst
    exact hno (mem_left.mpr ⟨hn, hst⟩)
  have hnot : d.rcv.recvStarted = false → ¬ d.rcv.recvStarted = true := Bool.eq_false_iff.mp
  refine ⟨hs', ?_, h.sorted.filter _, fun n hn => h.lt n (hsub hn),
    (List.length_filter_le _ _).trans h.few, fun u hu n hlt hn => ?_, h.rests,
    fun hst n hle hn => ?_, fun hst n hn => ?_, h.seen_idle, h.seen,
    fun u hu ho n hle hn => h.opening_left hfl hage hu ho hle hn⟩
  · change (d.book.filterKeys _).keys = _
    rw [Dict.keys_filterKeys, h.keys, List.filter_map, ← h.keys]; rfl
  · rcases h.sacked u (hsub hu) n hlt hn with hheld | hsack
    · by_cases hl : n ∈ left d fl.frame hs
      · exact Or.inl hl
      · rcases h.struck hfl hage hheld (hgone hheld hl) with ⟨hc, -, -⟩ | ⟨-, -, hsack⟩
        · have := h.lt_of_cleared hheld hc hu
          omega
        · exact Or.inr hsack
    · exact Or.inr hsack
  · rcases h.ahead hst n hle hn with hheld | hrest
    · by_cases hl : n ∈ left d fl.frame hs
      · exact Or.inl hl
      · rcases h.struck hfl hage hheld (hgone hheld hl) with ⟨-, hc, ht⟩ | ⟨-, -, hsack⟩
        · cases hcur : fl.cursor with
          | none => exact Or.inr (Or.inr (ht hcur))
          | some c =>
            have hlt := hc c hcur
            have hcle : c ≤ d.cur := (h.sound.answer fl hfl c hcur).le_cur
            change d.cur ≤ n at hle
            omega
        · exact Or.inr (Or.inl hsack)
    · exact Or.inr hrest
  · rcases h.early hst n hn with hheld | hrest
    · by_cases hl : n ∈ left d fl.frame hs
      · exact Or.inl hl
      · rcases h.struck hfl hage hheld (hgone hheld hl) with ⟨-, -, ht⟩ | ⟨c, hcur, -⟩
        · cases hcur : fl.cursor with
          | none => exact Or.inr (ht hcur)
          | some c => exact absurd (h.sound.answer fl hfl c hcur).started (hnot hst)
        · exact absurd (h.sound.answer fl hfl c hcur).started (hnot hst)
    · exact Or.inr hrest

end Window

/-! ### Runs -/

/-- A frame is framed with room in the book, and none is read more than `2 ^ 31` numbers late: a data
frame by its own number, an acknowledgment by the numbers it acknowledges. -/
def Ready (d : Direction) : Event → Prop
  | .segment _ _ => d.book.size < 256
  | .ackIn fl _ => d.sent ≤ fl.seen + 2147483648
  | .frameIn fl _ => d.sent ≤ fl.number + 2147483648
  | _ => True

theorem Window.near (h : Window d hs) (hr : Ready d e) (hs' : Step maxReorder d e d') : Near d e := by
  cases hs' with
  | @frameIn fl now hfl =>
    intro hst
    have hle : d.cur ≤ d.sent := (h.sound.rcv.follows hst).1.le
    have hn : fl.number ≤ d.sent := (h.sound.down fl hfl).le
    have := h.lag hst
    simp only [Ready] at hr
    exact ⟨by omega, by omega⟩
  | _ => trivial

theorem Window.step (h : Window d hs) (hr : Ready d e) (hs' : Step maxReorder d e d') :
    ∃ hs', Window d' hs' := by
  have hn := h.near hr hs'
  have hsound := h.sound.step hs' hn
  cases hs' with
  | idle | timer => exact ⟨hs, h⟩
  | segment => exact ⟨_, h.segment hr hsound⟩
  | control => exact ⟨hs, hsound, h.2, h.3, h.4, h.5, h.6, h.7, h.8, h.9, h.10, h.11, h.12⟩
  | ackIn hfl => exact ⟨_, h.ackIn hfl hr hsound⟩
  | answer hack hcur hseen => exact ⟨hs, h.answer hack hcur hseen hsound⟩
  | frameIn hfl => exact ⟨hs, h.frameIn hfl hn hsound⟩

theorem window_birth {seqA seqB : ℕ} (hA : seqA < 4294967296) (hB : seqB < 4294967296) (p : Bool) :
    Window ((Net.birth seqA seqB).stream p) [] where
  sound := sound_birth hA hB p
  keys := by cases p <;> rfl
  sorted := List.Pairwise.nil
  lt n hn := by cases hn
  few := Nat.zero_le _
  sacked u hu := by cases hu
  rests fl hfl := by cases p <;> cases hfl
  ahead hst := by cases p <;> cases hst
  early _ n hn := by cases p <;> exact absurd hn (Nat.not_lt_zero n)
  seen_idle fl hfl := by cases p <;> cases hfl
  seen fl hfl := by cases p <;> cases hfl
  opening u hu := by cases hu

/-- The sender `p` frames when `canSend` says yes. -/
def Sends (p : Bool) (net : Net) : Bool × Op → Prop
  | (q, .segment payload _ _) => q = p →
    (net.side p).link.snd.canSend (magic.length + frameSize + payload.length) = true
  | _ => True

instance (p : Bool) (net : Net) : ∀ act : Bool × Op, Decidable (Sends p net act)
  | (_, .segment ..) => by unfold Sends; infer_instance
  | (_, .keepalive) => isTrue trivial
  | (_, .ackOnly) => isTrue trivial
  | (_, .fin) => isTrue trivial
  | (_, .timer _) => isTrue trivial
  | (_, .ackIn ..) => isTrue trivial
  | (_, .frameIn ..) => isTrue trivial

/-- No frame is read more than `2 ^ 31` numbers late. -/
def InTime (d : Direction) : Event → Prop
  | .ackIn fl _ => d.sent ≤ fl.seen + 2147483648
  | .frameIn fl _ => d.sent ≤ fl.number + 2147483648
  | _ => True

instance (d : Direction) : ∀ e : Event, Decidable (InTime d e)
  | .ackIn fl _ => inferInstanceAs (Decidable (d.sent ≤ fl.seen + 2147483648))
  | .frameIn fl _ => inferInstanceAs (Decidable (d.sent ≤ fl.number + 2147483648))
  | .idle => isTrue trivial
  | .segment _ _ => isTrue trivial
  | .control _ => isTrue trivial
  | .timer _ => isTrue trivial
  | .answer _ => isTrue trivial

/-- The sender `p` asks `canSend`, and the channel does not hold a frame back too long. -/
def Polite (p : Bool) (net : Net) (act : Bool × Op) : Prop :=
  Sends p net act ∧ Along InTime p net act

instance (p : Bool) (net : Net) (act : Bool × Op) : Decidable (Polite p net act) := by
  unfold Polite; infer_instance

theorem size_lt_of_canSend {s : SendSide} {size : ℕ} (h : s.canSend size = true) :
    (book s).size < 256 := by
  rw [Dict.size_eq, keys_book, ← Dict.size_eq]
  unfold SendSide.canSend at h
  split_ifs at h with h0
  · omega
  · exact of_decide_eq_true (Bool.and_eq_true_iff.mp h).1

theorem Polite.ready {p : Bool} {net : Net} {act : Bool × Op} (h : Polite p net act) :
    Along Ready p net act := by
  obtain ⟨q, op⟩ := act
  obtain ⟨h1, h2⟩ := h
  by_cases hq : q = p
  · subst hq
    have he : net.event q (q, op) = Net.eventDown (net.side q) (net.side !q) op := if_pos rfl
    unfold Along at h2 ⊢
    rw [he] at h2 ⊢
    cases op with
    | segment payload more now => exact size_lt_of_canSend (h1 rfl)
    | ackIn i now =>
      simp only [Net.eventDown] at h2 ⊢
      cases hi : (net.side !q).flights[i]? with
      | none => trivial
      | some fl => rw [hi] at h2; exact h2
    | _ => trivial
  · have he : net.event p (q, op) = Net.eventUp (net.side p) (net.side !p) op := if_neg hq
    unfold Along at h2 ⊢
    rw [he] at h2 ⊢
    cases op with
    | frameIn i now =>
      simp only [Net.eventUp] at h2 ⊢
      cases hi : (net.side p).flights[i]? with
      | none => trivial
      | some fl => rw [hi] at h2; exact h2
    | _ => trivial

theorem window_run {maxReorder seqA seqB : ℕ} (hA : seqA < 4294967296) (hB : seqB < 4294967296)
    {p : Bool} {acts : List (Bool × Op)}
    (h : Guarded (Net.step maxReorder) (Polite p) (Net.birth seqA seqB) acts) :
    ∃ hs, Window ((run (Net.step maxReorder) (Net.birth seqA seqB) acts).stream p) hs :=
  along_run (G := Ready) (P := fun d => ∃ hs, Window d hs)
    (fun _ _ _ ⟨_, hw⟩ hr hs' => hw.step hr hs') ⟨[], window_birth hA hB p⟩
    (h.mono fun _ _ ha => ha.ready)

/-! ### What a pair frees -/

/-- The book still holds number `n`, framed less than `2 ^ 32` numbers ago. -/
def Held (d : Direction) (n : ℕ) : Prop :=
  n < d.sent ∧ d.sent ≤ n + 4294967296 ∧ seq32 d.init n ∈ d.book.keys

instance (d : Direction) (n : ℕ) : Decidable (Held d n) := by unfold Held; infer_instance

theorem Window.held_iff (h : Window d hs) {n : ℕ} : Held d n ↔ n ∈ hs :=
  ⟨fun hn => h.mem_of_key hn.1 hn.2.1 hn.2.2, fun hn => ⟨h.lt n hn, (h.entry hn).recent, by
    rw [h.keys]; exact List.mem_map_of_mem hn⟩⟩

/-- What the receiver had delivered when its cursor stood at `c` is not held. -/
def Freed (d : Direction) (c : ℕ) : Prop := ∀ n, d.first ≤ n → n < c → ¬ Held d n

theorem Window.freed_iff (h : Window d hs) {fl : Flight} (hfl : fl ∈ d.up)
    (hage : d.sent ≤ fl.seen + 2147483648) {c : ℕ} (hc : fl.cursor = some c)
    (hw : Window { d with
      book := d.book.filterKeys fun k =>
        decide (¬ Strikes fl.frame.ack fl.frame.sack d.book.keys k) } (left d fl.frame hs)) :
    Freed { d with
      book := d.book.filterKeys fun k =>
        decide (¬ Strikes fl.frame.ack fl.frame.sack d.book.keys k) } c ↔
      ∀ n, Held d n → c ≤ n + 256 := by
  have ha := h.sound.answer fl hfl c hc
  obtain ⟨hle, hfar⟩ := h.cursor_near hfl hage hc
  unfold Freed
  simp only [hw.held_iff, h.held_iff]
  constructor
  · intro hfree n hn
    by_contra hgap
    refine hfree n ?_ (by omega) (Window.mem_left.mpr ⟨hn, ?_⟩)
    · by_contra hlt
      have := h.recent_of_opening hn fun _ => by
        change ¬ d.first ≤ n at hlt
        omega
      omega
    · rintro (hst | hst)
      · have := ((cleared_iff ha (h.entry hn) hle hfar).mp (mem_cleared hst).2).2
        omega
      · obtain ⟨i, hi, -, -, rfl⟩ := (sacked_iff ha (h.sound.rcv.follows ha.started).1 (h.entry hn)
          (by change d.sent ≤ _; omega)).mp hst
        omega
  · intro hnear n _ hlt hn
    obtain ⟨hn, hno⟩ := Window.mem_left.mp hn
    exact hno (Or.inl (h.cleared_of_near hfl hage hc hn hlt fun v hv _ => hnear v hv))

/-- **Reading a pair frees what it acknowledges exactly if no frame held is more than 256 numbers
behind the cursor it was built with.** -/
theorem retires_iff (maxReorder seqA seqB : ℕ) (hA : seqA < 4294967296) (hB : seqB < 4294967296)
    (p : Bool) (acts : List (Bool × Op))
    (h : Guarded (Net.step maxReorder) (Polite p) (Net.birth seqA seqB) acts) (i : ℕ) (now : ℚ)
    (fl : Flight) (c : ℕ)
    (hfl : ((run (Net.step maxReorder) (Net.birth seqA seqB) acts).side !p).flights[i]? = some fl)
    (hc : fl.cursor = some c)
    (hage : Polite p (run (Net.step maxReorder) (Net.birth seqA seqB) acts) (p, .ackIn i now)) :
    Freed ((run (Net.step maxReorder) (Net.birth seqA seqB) (acts ++ [(p, .ackIn i now)])).stream p) c ↔
      ∀ n, Held ((run (Net.step maxReorder) (Net.birth seqA seqB) acts).stream p) n → c ≤ n + 256 := by
  obtain ⟨hs, hw⟩ := window_run hA hB h
  rw [run_concat]
  set net := run (Net.step maxReorder) (Net.birth seqA seqB) acts
  have he : net.event p (p, .ackIn i now) = .ackIn fl now := by
    rw [Net.event, if_pos rfl, Net.eventDown, hfl]
  have hready := hage.ready
  have hstep := Net.step_stream maxReorder net p (p, .ackIn i now)
  unfold Along at hready
  rw [he] at hready hstep
  generalize (net.step maxReorder (p, .ackIn i now)).stream p = d' at hstep ⊢
  cases hstep with
  | ackIn hfl' =>
    have hback : Step maxReorder (net.stream p) (.ackIn fl now) _ := .ackIn hfl'
    exact hw.freed_iff hfl' hready hc (hw.ackIn hfl' hready (hw.sound.step hback trivial))

theorem retires_answered :
    (Freed ((run (Net.step 256) (Net.birth 7 9) answered).stream false) 1 ↔
      ∀ n, Held ((run (Net.step 256) (Net.birth 7 9) (answered.take 3)).stream false) n →
        1 ≤ n + 256) ∧
      Freed ((run (Net.step 256) (Net.birth 7 9) answered).stream false) 1 := by
  have h := retires_iff 256 7 9 (by decide) (by decide) false (answered.take 3) (by decide +kernel) 0 1
    ⟨⟨9, 7, 0, 33, []⟩, 0, some 1, 1⟩ 1 (by decide +kernel) rfl (by decide +kernel)
  exact ⟨h, h.mpr fun n _ => by omega⟩

/-- The second of 256 frames overtakes the first, and its selective acknowledgment is all the sender
reads while the others arrive; the room it makes takes one frame more. -/
def stretched : List (Bool × Op) :=
  [(false, .keepalive), (true, .frameIn 0 0)] ++ List.replicate 256 (false, .segment [0] false 0) ++
    [(true, .frameIn 2 0), (true, .ackOnly), (true, .frameIn 1 0)] ++
    (List.range 254).map (fun i => (true, .frameIn (i + 3) 0)) ++
    [(false, .ackIn 0 0), (false, .segment [0] false 0), (true, .frameIn 257 0), (true, .ackOnly)]

/-- **The acknowledgment of 257 frames frees none of them.** -/
theorem stretched_stuck :
    Guarded (Net.step 256) (Polite false) (Net.birth 7 9) (stretched ++ [(false, .ackIn 1 0)]) ∧
      ∃ fl, (run (Net.step 256) (Net.birth 7 9) (stretched ++ [(false, .ackIn 1 0)])).b.flights[1]? =
        some fl ∧ fl.cursor = some 257 ∧
      ¬ Freed ((run (Net.step 256) (Net.birth 7 9) (stretched ++ [(false, .ackIn 1 0)])).stream false)
        257 := by
  have hrun : GuardedTo (Net.step 256) (Polite false)
      (fun net => net.b.flights[1]?.bind Flight.cursor = some 257 ∧
        (net.stream false).first = 0 ∧ Held (net.stream false) 0)
      (Net.birth 7 9) (stretched ++ [(false, .ackIn 1 0)]) := by decide +kernel
  obtain ⟨hg, hcur, hfirst, hheld⟩ := guardedTo_iff.mp hrun
  obtain ⟨fl, hfl, hc⟩ := Option.bind_eq_some_iff.mp hcur
  exact ⟨hg, fl, hfl, hc, fun hfree => hfree 0 hfirst.le (by omega) hheld⟩

end NMesh.Udp.Spread
