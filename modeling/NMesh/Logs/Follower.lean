import NMesh.Base.Runs
import NMesh.Logs.Book

/-! # A follower of the log

A follower asks for what came since its cursor, and takes the cursor of the answer for its next question. Every
line it passes was given to it, did not match, or was counted as lost, as long as it never asks from 0 after
lines were dropped, or while the ring holds nothing that was recorded (`told`). Where all a ring kept is dropped,
it passes lines that nobody tells it about (`silent_clear`). -/

namespace NMesh.Logs.Follower

open Base.Utf8 Base.Runs NMesh.Logs.Book

/-- One question: where it started, what the filters let through, the answer, and what the ring held. -/
structure Question where
  after : ℕ
  keep : Line → Bool
  answer : Answer
  held : List Line

/-- A ring, all that it recorded, and a follower: its cursor, the run of the cursor, and what it asked. -/
structure World where
  book : LogBook
  all : List Line
  cursor : ℕ
  run : Text
  asked : List Question

inductive Event
  | op (o : Op)
  | ask (limit : Option ℤ) (keep : Line → Bool)

variable (P : Book.World)

def step (w : World) : Event → World
  | .op o => { w with book := w.book.apply P o, all := w.all ++ recorded P w.book o }
  | .ask limit keep =>
    let answer := w.book.since w.cursor w.run limit keep
    { w with cursor := answer.seq, run := answer.run,
             asked := w.asked ++ [⟨w.book.startAt w.cursor w.run, keep, answer, held w.book⟩] }

def World.position (w : World) : ℕ := w.book.startAt w.cursor w.run

/-- A follower comes to a ring with a number and the run of it. -/
def begin (w : World) (cursor : ℕ) (run : Text) : World := { w with cursor := cursor, run := run, asked := [] }

def fresh (run : Text) : World := ⟨new run, [], 0, [], []⟩

def World.given (w : World) : List Line := w.asked.flatMap fun q => q.answer.lines

/-- **The condition**: no line above the position was dropped, or the position is not 0 and the ring holds
something. -/
def Heard (b : LogBook) (position : ℕ) : Prop :=
  b.seq ≤ position ∨ (∃ line ∈ held b, line.seq ≤ position + 1) ∨ position ≠ 0 ∧ held b ≠ []

def Safe (w : World) : Event → Prop
  | .op _ => True
  | .ask _ _ => Heard w.book w.position

/-- A line was given in this answer, did not match, or was counted as lost. -/
def Question.Tells (q : Question) (line : Line) : Prop :=
  q.after < line.seq ∧ line.seq ≤ q.answer.seq ∧
    (line ∈ q.answer.lines ∨ q.keep line = false ∨ line.seq ≤ q.after + q.answer.lost)

/-- The ring held all that was recorded of the lines an answer speaks of. -/
def Question.Whole (all : List Line) (q : Question) : Prop :=
  ∀ line ∈ all, q.after < line.seq → line.seq ≤ q.answer.seq → line ∈ q.held

/-- **What a follower that started from a number was told.** -/
structure Told (start : ℕ) (w : World) : Prop where
  rising : Upwards w.given ∧ ∀ line ∈ w.given, start < line.seq ∧ line.seq ≤ w.position
  passed : ∀ line ∈ w.all, start < line.seq → line.seq ≤ w.position → ∃ q ∈ w.asked, q.Tells line
  whole : ∀ keep : Line → Bool, (∀ q ∈ w.asked, q.keep = keep ∧ q.Whole w.all) →
    w.given = (within start w.position w.all).filter keep

/-- **The invariant.** -/
structure Inv (start : ℕ) (w : World) : Prop extends Told start w where
  kept : Kept w.all w.book
  above : start ≤ w.position
  below : w.position ≤ max start w.book.seq

variable {P}

/-! ### Lines -/

theorem within_cons_pos {a b : ℕ} {line : Line} (h : a < line.seq ∧ line.seq ≤ b) (rows : List Line) :
    within a b (line :: rows) = line :: within a b rows :=
  List.filter_cons_of_pos (decide_eq_true h)

theorem within_cons_neg {a b : ℕ} {line : Line} (h : ¬ (a < line.seq ∧ line.seq ≤ b)) (rows : List Line) :
    within a b (line :: rows) = within a b rows :=
  List.filter_cons_of_neg fun hin => h (of_decide_eq_true hin)

theorem within_none {a b : ℕ} {rows : List Line} (h : ∀ line ∈ rows, ¬ (a < line.seq ∧ line.seq ≤ b)) :
    within a b rows = [] :=
  List.filter_eq_nil_iff.mpr fun line hl hin => h line hl (of_decide_eq_true hin)

theorem within_append {a b c : ℕ} (hab : a ≤ b) (hbc : b ≤ c) : ∀ {rows : List Line}, Upwards rows →
    within a b rows ++ within b c rows = within a c rows
  | [], _ => rfl
  | line :: rows, h => by
    obtain ⟨hline, hrows⟩ := List.pairwise_cons.mp h
    have ih := within_append hab hbc hrows
    by_cases hlow : line.seq ≤ b
    · rw [@within_cons_neg b c line (by omega)]
      by_cases ha : a < line.seq
      · rw [within_cons_pos ⟨ha, hlow⟩, @within_cons_pos a c line ⟨ha, by omega⟩, List.cons_append, ih]
      · rw [@within_cons_neg a b line (by omega), @within_cons_neg a c line (by omega), ih]
    · have hnone : within a b rows = [] := by
        refine within_none fun x hx => ?_
        have := hline x hx
        omega
      rw [hnone, List.nil_append] at ih
      rw [@within_cons_neg a b line (by omega), hnone, List.nil_append]
      by_cases hc : line.seq ≤ c
      · rw [within_cons_pos ⟨by omega, hc⟩, @within_cons_pos a c line ⟨by omega, hc⟩, ih]
      · rw [@within_cons_neg b c line (by omega), @within_cons_neg a c line (by omega), ih]

theorem within_held {all : List Line} {b : LogBook} (h : Kept all b) {lo hi : ℕ}
    (hwhole : ∀ line ∈ all, lo < line.seq → line.seq ≤ hi → line ∈ held b) :
    within lo hi (held b) = within lo hi all := by
  obtain ⟨pre, hpre⟩ := h.held
  have hup := upwards_all h
  rw [← hpre] at hup
  have hnone : within lo hi pre = [] := by
    refine within_none fun line hl => ?_
    rintro ⟨hlo, hhi⟩
    have hmem := hwhole line (by rw [← hpre]; exact List.mem_append_left _ hl) hlo hhi
    exact Nat.lt_irrefl _ ((List.pairwise_append.mp hup).2.2 line hl line hmem)
  rw [← hpre, within, within, List.filter_append]
  unfold within at hnone
  rw [hnone, List.nil_append]

/-! ### Steps -/

theorem run_apply (b : LogBook) (op : Op) : (b.apply P op).run = b.run := by
  cases op with
  | record s => exact (record_frame P b s).1
  | hold holder size =>
    have hsized : (b.sized size).run = b.run := by
      cases size with
      | none => rfl
      | some asked => exact (same_resizeTo b asked).run
    show (b.hold holder size).run = b.run
    unfold LogBook.hold
    simp only
    split_ifs <;> exact hsized
  | release holder =>
    show (b.release holder).run = b.run
    unfold LogBook.release
    simp only
    split_ifs <;> rfl
  | resize asked => exact (same_resizeTo b asked).run
  | clear | stop => rfl

theorem startAt_apply (b : LogBook) (op : Op) (seq : ℕ) (run : Text) :
    (b.apply P op).startAt seq run = b.startAt seq run := by
  unfold LogBook.startAt
  rw [run_apply]

theorem recorded_seq {b : LogBook} {op : Op} {line : Line} (h : line ∈ recorded P b op) :
    line.seq = b.seq + 1 := by
  cases op with
  | record s =>
    have h : line ∈ if b.enabled then (lineOf P (b.seq + 1) s).toList else [] := h
    split_ifs at h
    · exact lineOf_seq (Option.mem_toList.mp h)
    · cases h
  | hold | release | resize | clear | stop => cases h

theorem inv_op {start : ℕ} {w : World} (h : Inv start w) (o : Op) : Inv start (step P w (.op o)) := by
  have hposition : (step P w (.op o)).position = w.position := startAt_apply w.book o w.cursor w.run
  have hkept := kept_apply (W := P) h.kept o
  have hnew : ∀ line ∈ recorded P w.book o, ¬ (start < line.seq ∧ line.seq ≤ w.position) := by
    rintro line hl ⟨hlo, hhi⟩
    have hseq := recorded_seq hl
    have := h.below
    omega
  have hwithin : within start w.position (w.all ++ recorded P w.book o) = within start w.position w.all := by
    have hnone := within_none hnew
    unfold within at hnone ⊢
    rw [List.filter_append, hnone, List.append_nil]
  have hgrow : w.book.seq ≤ (w.book.apply P o).seq := by
    have h1 := congrArg List.length h.kept.numbered
    have h2 := congrArg List.length hkept.numbered
    rw [List.length_map, List.length_range'] at h1 h2
    rw [List.length_append] at h2
    omega
  refine ⟨⟨?_, fun line hl hlo hhi => ?_, fun keep hall => ?_⟩, hkept, ?_, ?_⟩
  · rw [hposition]
    exact h.rising
  · rw [hposition] at hhi
    rcases List.mem_append.mp hl with hl | hl
    · exact h.passed line hl hlo hhi
    · exact absurd ⟨hlo, hhi⟩ (hnew line hl)
  · rw [hposition]
    show w.given = (within start w.position (w.all ++ recorded P w.book o)).filter keep
    rw [hwithin]
    refine h.whole keep fun q hq => ⟨(hall q hq).1, fun line hl => ?_⟩
    exact (hall q hq).2 line (List.mem_append_left _ hl)
  · rw [hposition]
    exact h.above
  · rw [hposition]
    have := h.below
    show w.position ≤ max start (w.book.apply P o).seq
    omega

/-- **What one answer tells**, where the condition holds: of every line it passes, what became of it. -/
theorem tells_of_heard {all : List Line} {b : LogBook} (h : Kept all b) {cursor : ℕ} {run : Text}
    (hheard : Heard b (b.startAt cursor run)) {limit : Option ℤ} {keep : Line → Bool} {line : Line}
    (hl : line ∈ all) (hlo : b.startAt cursor run < line.seq)
    (hhi : line.seq ≤ (b.since cursor run limit keep).seq) :
    Question.Tells ⟨b.startAt cursor run, keep, b.since cursor run limit keep, held b⟩ line := by
  obtain ⟨hlines, -, hmax⟩ := since_spec h cursor run limit keep
  refine ⟨hlo, hhi, ?_⟩
  by_cases hk : keep line = true
  · rcases held_or_older h hl with hheld | hempty | hold
    · refine Or.inl ?_
      show line ∈ (b.since cursor run limit keep).lines
      rw [hlines]
      exact List.mem_filter.mpr ⟨List.mem_filter.mpr ⟨hheld, decide_eq_true ⟨hlo, hhi⟩⟩, hk⟩
    · exfalso
      rcases hheard with hseq | ⟨x, hx, -⟩ | ⟨-, hne⟩
      · have := (seq_mem h hl).2
        omega
      · rw [hempty] at hx
        cases hx
      · exact hne hempty
    · refine Or.inr (Or.inr ?_)
      have hfirst : ∀ x ∈ held b, b.oldest ≤ x.seq := by
        intro x hx
        have hup := upwards_held h
        rw [oldest_eq h]
        cases hheld : held b with
        | nil => exact Nat.zero_le _
        | cons y rest =>
          rw [hheld] at hx hup
          rcases List.mem_cons.mp hx with rfl | hx
          · exact Nat.le_refl _
          · exact Nat.le_of_lt (List.rel_of_pairwise_cons hup hx)
      show line.seq ≤ b.startAt cursor run + (b.since cursor run limit keep).lost
      have hpos : b.startAt cursor run ≠ 0 := by
        rcases hheard with hseq | ⟨x, hx, hle⟩ | ⟨hpos, -⟩
        · have := (seq_mem h hl).2
          omega
        · have := hfirst x hx
          omega
        · exact hpos
      rw [since_lost, if_pos ⟨hpos, by omega⟩]
      omega
  · rw [Bool.not_eq_true] at hk
    exact Or.inr (Or.inl hk)

theorem inv_ask {start : ℕ} {w : World} (h : Inv start w) {limit : Option ℤ} {keep : Line → Bool}
    (hheard : Heard w.book w.position) : Inv start (step P w (.ask limit keep)) := by
  obtain ⟨hlines, hge, hmax⟩ := since_spec h.kept w.cursor w.run limit keep
  generalize hanswer : w.book.since w.cursor w.run limit keep = answer at hlines hge hmax
  have hrun : answer.run = w.book.run := by
    rw [← hanswer]
    rfl
  have hstep : step P w (.ask limit keep) =
      { w with cursor := answer.seq, run := answer.run,
               asked := w.asked ++ [⟨w.position, keep, answer, held w.book⟩] } := by
    rw [step, hanswer]
    rfl
  have hposition : (step P w (.ask limit keep)).position = answer.seq := by
    rw [hstep]
    show w.book.startAt answer.seq answer.run = answer.seq
    unfold LogBook.startAt
    rw [hrun, if_neg fun hno => hno.2 rfl]
  have hgiven : (step P w (.ask limit keep)).given = w.given ++ answer.lines := by
    rw [hstep, World.given, List.flatMap_append, List.flatMap_singleton]
    rfl
  have hin : ∀ line ∈ answer.lines, line ∈ held w.book ∧ w.position < line.seq ∧ line.seq ≤ answer.seq := by
    intro line hl
    rw [hlines] at hl
    obtain ⟨hheld, hbetween⟩ := List.mem_filter.mp (List.mem_filter.mp hl).1
    exact ⟨hheld, of_decide_eq_true hbetween⟩
  have habove := h.above
  have hbelow := h.below
  have hge : w.position ≤ answer.seq := hge
  refine ⟨⟨⟨?_, fun line hl => ?_⟩, fun line hl hlo hhi => ?_, fun keep' hall => ?_⟩, ?_, ?_, ?_⟩
  · rw [hgiven]
    refine List.pairwise_append.mpr ⟨h.rising.1, ?_, fun x hx y hy => ?_⟩
    · rw [hlines]
      exact ((upwards_held h.kept).filter _).filter _
    · have := (h.rising.2 x hx).2
      have := (hin y hy).2.1
      omega
  · rw [hgiven] at hl
    rw [hposition]
    rcases List.mem_append.mp hl with hl | hl
    · have := h.rising.2 line hl
      omega
    · have := (hin line hl).2
      omega
  · rw [hposition] at hhi
    have hl : line ∈ w.all := by
      rw [hstep] at hl
      exact hl
    rw [hstep]
    by_cases hold : line.seq ≤ w.position
    · obtain ⟨q, hq, htells⟩ := h.passed line hl hlo hold
      exact ⟨q, List.mem_append_left _ hq, htells⟩
    · refine ⟨_, List.mem_append_right _ List.mem_cons_self, ?_⟩
      rw [← hanswer] at hhi ⊢
      exact tells_of_heard h.kept hheard hl (Nat.lt_of_not_le hold) hhi
  · rw [hgiven, hposition]
    rw [hstep] at hall ⊢
    obtain ⟨hkeep, hwhole⟩ := hall _ (List.mem_append_right _ List.mem_cons_self)
    have hbefore := h.whole keep' fun q hq => hall q (List.mem_append_left _ hq)
    rw [hbefore, hlines, show keep = keep' from hkeep, ← List.filter_append]
    show ((within start w.position w.all ++ within w.position answer.seq (held w.book)).filter keep') =
      (within start answer.seq w.all).filter keep'
    rw [within_held h.kept hwhole, within_append habove hge (upwards_all h.kept)]
  · rw [hstep]
    exact h.kept
  · rw [hposition]
    omega
  · rw [hposition, hstep]
    show answer.seq ≤ max start w.book.seq
    have hmax : answer.seq ≤ max w.position w.book.seq := hmax
    omega

theorem inv_begin {w : World} (h : Kept w.all w.book) (cursor : ℕ) (run : Text) :
    Inv (w.book.startAt cursor run) (begin w cursor run) := by
  refine ⟨⟨⟨List.Pairwise.nil, fun _ hl => (by cases hl)⟩, fun line _ hlo hhi => ?_, fun keep _ => ?_⟩, h, ?_, ?_⟩
  · have hhi : line.seq ≤ w.book.startAt cursor run := hhi
    omega
  · have hnone : within (w.book.startAt cursor run) (w.book.startAt cursor run) w.all = [] :=
      within_none fun line _ => by omega
    show [] = (within (w.book.startAt cursor run) (w.book.startAt cursor run) w.all).filter keep
    rw [hnone]
    rfl
  · exact Nat.le_refl _
  · exact Nat.le_max_left _ _

theorem kept_run (ops : List Op) : ∀ {w : World}, Kept w.all w.book →
    Kept (run (step P) w (ops.map Event.op)).all (run (step P) w (ops.map Event.op)).book := by
  induction ops with
  | nil => exact fun h => h
  | cons o ops ih => exact fun h => ih (kept_apply h o)

/-- **A follower misses nothing it is not told about**, from any ring and any number of it. -/
theorem told (r : Text) (before : List Op) (cursor : ℕ) (named : Text) {events : List Event}
    (h : Guarded (step P) Safe (begin (run (step P) (fresh r) (before.map Event.op)) cursor named) events) :
    Told ((run (step P) (fresh r) (before.map Event.op)).book.startAt cursor named)
      (run (step P) (begin (run (step P) (fresh r) (before.map Event.op)) cursor named) events) := by
  have hkept := @kept_run P before (fresh r) (kept_new r)
  refine (Guarded.run_induct (P := Inv _) (fun w e hw hsafe => ?_) (inv_begin hkept cursor named) h).toTold
  cases e with
  | op o => exact inv_op hw o
  | ask limit keep => exact inv_ask hw hsafe

/-! ### Two followers -/

def plainWorld : Book.World := ⟨fun _ => none, id, id, fun _ => none⟩

def hello : Said := ⟨ascii "1.0", .str (ascii "node"), .str (ascii "hello"), .str (ascii "info"), .null, .null⟩

def everything : Line → Bool := fun _ => true

theorem told_line : Told 0 (run (step plainWorld)
    (begin (run (step plainWorld) (fresh (ascii "run")) [.op (.hold [] none)]) 0 [])
    [.ask none everything, .op (.record hello), .ask none everything]) := by
  refine @told plainWorld (ascii "run") [.hold [] none] 0 [] _ ⟨Or.inl (Nat.le_refl 0), trivial, ?_, trivial⟩
  exact Or.inr (Or.inl ⟨_, List.mem_singleton_self _, Nat.le_refl 1⟩)

/-- **A line that is recorded and dropped between two questions is passed without a word.** -/
theorem silent_clear : ¬ Told 0 (run (step plainWorld)
    (begin (run (step plainWorld) (fresh (ascii "run")) [.op (.hold [] none)]) 0 [])
    [.op (.record hello), .ask none everything, .op (.record hello), .op .clear, .ask none everything]) := by
  intro h
  have hmem : (⟨2, ascii "1.0", ascii "info", ascii "node", [], ascii "hello", []⟩ : Line) ∈
      (run (step plainWorld)
        (begin (run (step plainWorld) (fresh (ascii "run")) [.op (.hold [] none)]) 0 [])
        [.op (.record hello), .ask none everything, .op (.record hello), .op .clear,
          .ask none everything]).all := by
    exact List.mem_cons_of_mem _ List.mem_cons_self
  obtain ⟨q, hq, hlo, hhi, htold⟩ := h.passed _ hmem (by decide) (by decide)
  rcases List.mem_cons.mp hq with rfl | hq
  · exact absurd hhi (by decide)
  · rcases List.mem_singleton.mp hq with rfl
    rcases htold with hgiven | hkeep | hlost
    · cases hgiven
    · cases hkeep
    · exact absurd hlost (by decide)

end NMesh.Logs.Follower
