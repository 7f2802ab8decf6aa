import NMesh.Base.Runs
import NMesh.Logs.Book

/-! # The size of the ring

Every operation keeps the counters of the ring equal to what they count, and what it holds within its size
(`ring_kept`), while no field is a number too long to write and a new size has room for the open lines. The lines
that were recorded are held, counted as dropped, or were let go with the ring. -/

namespace NMesh.Logs.Ring

open Base.Runs Base.Utf8 Base.JsonText NMesh.Logs.Book

/-- A ring, how many lines it was told while it was held, and how many of them it held when it was let go, both since
it was last cleared. -/
structure Account where
  book : LogBook
  told : ℕ
  letGo : ℕ

variable (W : World)

def records (b : LogBook) : ℕ := (held b).length

def Account.step (r : Account) (op : Op) : Account :=
  match op with
  | .record _ => ⟨r.book.apply W op, if r.book.enabled then r.told + 1 else r.told, r.letGo⟩
  | .clear => ⟨r.book.apply W op, 0, 0⟩
  | .release _ | .stop => ⟨r.book.apply W op, r.told, r.letGo + (records r.book - records (r.book.apply W op))⟩
  | _ => ⟨r.book.apply W op, r.told, r.letGo⟩

def start (run : Text) : Account := ⟨new run, 0, 0⟩

/-- The counters are those of the blocks and of the open lines. -/
structure Tallied (b : LogBook) : Prop where
  packed : b.packed = (b.blocks.map Block.packed).sum
  raw : b.raw = (b.blocks.map Block.raw).sum
  openBytes : (b.opened.mapM (weight W)).map List.sum = some b.openBytes

/-- **What the ring keeps to.** -/
structure Kept (r : Account) : Prop extends Tallied W r.book where
  size : r.book.packed + r.book.openBytes ≤ r.book.limit
  lines : records r.book + r.book.dropped + r.letGo = r.told

def sizeOf (asked : ℤ) : ℕ := max minBytes (min asked.toNat maxBytes)

/-- A line can be weighed and packed; a new size has room for the open lines. -/
def Fit (r : Account) : Op → Prop
  | .record s => ∀ line, lineOf W (r.book.seq + 1) s = some line →
      weight W line ≠ none ∧ W.pack (r.book.opened ++ [line]) ≠ none
  | .hold _ (some (some asked)) | .resize (some asked) => r.book.openBytes < max minOpen (sizeOf asked / 8)
  | _ => True

/-! ### Making room -/

variable {W} {b b' : LogBook} {r : Account}

/-- What `_evict` makes of a ring. -/
structure Evicted (W : World) (b b' : LogBook) : Prop extends Tallied W b' where
  small : b'.packed ≤ b'.limit - b'.openCap
  limit : b'.limit = b.limit
  opened : b'.openBytes = b.openBytes
  lines : records b' + b'.dropped = records b + b.dropped

theorem evicted_from : ∀ {blocks : List Block} {b : LogBook}, b.blocks = blocks → Tallied W b →
    Evicted W b (LogBook.evictFrom blocks b)
  | [], b, hb, h => ⟨h, by rw [LogBook.evictFrom, h.packed, hb]; exact Nat.zero_le _, rfl, rfl, rfl⟩
  | block :: blocks, b, hb, h => by
    rw [LogBook.evictFrom]
    split_ifs with hfull
    · have hpacked := h.packed
      have hraw := h.raw
      rw [hb, List.map_cons, List.sum_cons] at hpacked hraw
      have hpop : Tallied W (b.popBlock block blocks) :=
        ⟨by rw [LogBook.popBlock, hpacked, Nat.add_sub_cancel_left],
          by rw [LogBook.popBlock, hraw, Nat.add_sub_cancel_left], h.openBytes⟩
      obtain ⟨htallied, hsmall, hlimit, hopened, hlines⟩ := evicted_from rfl hpop
      refine ⟨htallied, hsmall, hlimit, hopened, hlines.trans ?_⟩
      simp only [records, held, LogBook.popBlock, hb, List.flatMap_cons, List.length_append]
      omega
    · exact ⟨h, not_lt.mp hfull, rfl, rfl, rfl⟩

theorem evicted_pack (h : Tallied W b) (hpack : b.pack W = some b') :
    Evicted W { b with openBytes := 0 } b' := by
  unfold LogBook.pack at hpack
  split at hpack
  · next raw packed line rest _ hopened =>
    cases hpack
    obtain ⟨htallied, hsmall, hlimit, hzero, hlines⟩ := @evicted_from W _ { b with
      blocks := b.blocks ++ [⟨line.seq, ((line :: rest).getLast (List.cons_ne_nil _ _)).seq, line :: rest, packed, raw⟩]
      packed := b.packed + packed, raw := b.raw + raw, opened := [], openBytes := 0 } rfl
      ⟨by simp [h.packed], by simp [h.raw], rfl⟩
    refine ⟨htallied, hsmall, hlimit, hzero, hlines.trans ?_⟩
    simp [records, held, hopened]
  · cases hpack

/-! ### The operations -/

/-- What holds between two calls. -/
structure Sound (W : World) (r : Account) : Prop extends Tallied W r.book where
  floor : minBytes ≤ r.book.limit
  opened : r.book.openBytes < r.book.openCap
  small : r.book.packed ≤ r.book.limit - r.book.openCap
  lines : records r.book + r.book.dropped + r.letGo = r.told

theorem Sound.kept (h : Sound W r) : Kept W r := by
  have hfloor := h.floor
  have hopened := h.opened
  have hsmall := h.small
  unfold LogBook.openCap minOpen at hopened hsmall
  unfold minBytes at hfloor
  exact ⟨h.toTallied, by omega, h.lines⟩

theorem open_pos (n : ℕ) : 0 < max minOpen n := lt_of_lt_of_le (by decide : 0 < minOpen) (Nat.le_max_left _ _)

theorem sound_empty {told letGo : ℕ} (hfloor : minBytes ≤ b.limit) (htold : b.dropped + letGo = told) :
    Sound W ⟨{ b with opened := [], openBytes := 0, blocks := [], packed := 0, raw := 0 }, told, letGo⟩ where
  packed := rfl
  raw := rfl
  openBytes := rfl
  floor := hfloor
  opened := open_pos _
  small := Nat.zero_le _
  lines := (congrArg (· + letGo) (Nat.zero_add b.dropped)).trans htold

/-- The ring is let go, with what it holds. -/
theorem sound_drop (h : Sound W r) (b : LogBook) (hlimit : b.limit = r.book.limit)
    (hdropped : b.dropped = r.book.dropped) :
    Sound W ⟨b.drop, r.told, r.letGo + (records r.book - records b.drop)⟩ := by
  refine sound_empty (b := { b with enabled := false }) (hlimit ▸ h.floor) ?_
  have hlines := h.lines
  show b.dropped + (r.letGo + (records r.book - 0)) = r.told
  omega

theorem sound_append {line : Line} (h : Sound W r) (hweight : weight W line ≠ none)
    (hpack : W.pack (r.book.opened ++ [line]) ≠ none) :
    Sound W ⟨r.book.append W line, r.told + 1, r.letGo⟩ := by
  obtain ⟨n, hn⟩ := Option.ne_none_iff_exists'.mp hweight
  obtain ⟨⟨raw, packed⟩, hp⟩ := Option.ne_none_iff_exists'.mp hpack
  have hlines := h.lines
  have htally : Tallied W { r.book with
      seq := line.seq, opened := r.book.opened ++ [line], openBytes := r.book.openBytes + n } := by
    obtain ⟨ws, hws, hsum⟩ := Option.map_eq_some_iff.mp h.openBytes
    exact ⟨h.packed, h.raw, by simp [hws, hn, hsum]⟩
  unfold LogBook.append
  rw [hn]
  dsimp only
  split_ifs with hfull
  · cases hpacked : LogBook.pack W { r.book with
      seq := line.seq, opened := r.book.opened ++ [line], openBytes := r.book.openBytes + n } with
    | none =>
      unfold LogBook.pack at hpacked
      split at hpacked
      · cases hpacked
      · next hno =>
        obtain ⟨x, rest, hx⟩ : ∃ x rest, r.book.opened ++ [line] = x :: rest := List.exists_cons_of_ne_nil (by simp)
        exact absurd hx (hno raw packed x rest hp)
    | some b' =>
      obtain ⟨htallied, hsmall, hlimit, hopened, hcount⟩ := evicted_pack htally hpacked
      refine ⟨htallied, hlimit ▸ h.floor, ?_, hsmall, ?_⟩
      · rw [Option.getD_some, hopened]
        exact open_pos _
      · simp [records, held] at hcount hlines ⊢
        omega
  · refine ⟨htally, h.floor, not_le.mp (not_or.mp hfull).2, h.small, ?_⟩
    simp [records, held] at hlines ⊢
    omega

theorem sound_resizeTo {told letGo : ℕ} (h : Sound W ⟨b, told, letGo⟩) {asked : ℤ}
    (hroom : b.openBytes < max minOpen (sizeOf asked / 8)) : Sound W ⟨b.resizeTo (some asked), told, letGo⟩ := by
  obtain ⟨htallied, hsmall, hlimit, hopened, hlines⟩ :=
    @evicted_from W _ { b with limit := sizeOf asked } rfl ⟨h.packed, h.raw, h.openBytes⟩
  have hsize : (b.resizeTo (some asked)).limit = sizeOf asked := hlimit
  refine ⟨htallied, (Nat.le_max_left minBytes _).trans_eq hlimit.symm, hopened.trans_lt ?_, hsmall,
    (congrArg (· + letGo) hlines).trans h.lines⟩
  rw [LogBook.openCap, hsize]
  exact hroom

theorem sound_step (h : Sound W r) {op : Op} (hfit : Fit W r op) : Sound W (r.step W op) := by
  cases op with
  | record s =>
    show Sound W ⟨r.book.record W s, if r.book.enabled then r.told + 1 else r.told, r.letGo⟩
    unfold LogBook.record
    by_cases hon : r.book.enabled
    · rw [if_pos hon, if_neg (not_not.mpr hon)]
      cases hline : lineOf W (r.book.seq + 1) s with
      | none =>
        refine ⟨⟨h.packed, h.raw, h.openBytes⟩, h.floor, h.opened, h.small, ?_⟩
        have hlines := h.lines
        show records r.book + (r.book.dropped + 1) + r.letGo = r.told + 1
        omega
      | some line => exact sound_append h (hfit line hline).1 (hfit line hline).2
    · rw [if_neg hon, if_pos hon]
      exact h
  | hold holder size =>
    have hsized : Sound W ⟨r.book.sized size, r.told, r.letGo⟩ := by
      cases size with
      | none => exact h
      | some asked =>
        cases asked with
        | none => exact h
        | some asked => exact sound_resizeTo h hfit
    show Sound W ⟨r.book.hold holder size, r.told, r.letGo⟩
    unfold LogBook.hold
    dsimp only
    split_ifs
    · exact hsized
    · exact ⟨⟨hsized.packed, hsized.raw, hsized.openBytes⟩, hsized.floor, hsized.opened, hsized.small,
        hsized.lines⟩
  | release holder =>
    show Sound W ⟨r.book.release holder, r.told, r.letGo + (records r.book - records (r.book.release holder))⟩
    unfold LogBook.release
    dsimp only
    split_ifs
    · exact sound_drop h { r.book with holders := _ } rfl rfl
    · refine ⟨⟨h.packed, h.raw, h.openBytes⟩, h.floor, h.opened, h.small, ?_⟩
      have hlines := h.lines
      show records r.book + r.book.dropped + (r.letGo + (records r.book - records r.book)) = r.told
      omega
  | stop => exact sound_drop h { r.book with holders := [] } rfl rfl
  | resize asked =>
    cases asked with
    | none => exact h
    | some asked => exact sound_resizeTo h hfit
  | clear => exact sound_empty (b := { r.book with dropped := 0 }) h.floor rfl

theorem sound_start (run : Text) : Sound W (start run) :=
  sound_empty (b := new run) (le_of_lt (by decide : minBytes < defaultBytes)) rfl

/-- **The ring keeps to its size**, and its counters to what they count, after every call of every run. -/
theorem ring_kept {name : Text} {ops : List Op} (h : Guarded (Account.step W) (Fit W) (start name) ops) :
    Kept W (run (Account.step W) (start name) ops) := by
  have hstep : ∀ r op, Sound W r → Fit W r op → Sound W (r.step W op) := fun _ _ hs => sound_step hs
  exact (Guarded.run_induct hstep (sound_start name) h).kept

/-- Nothing has a text, and a line takes a byte. -/
def bare : World := ⟨fun _ => some [], id, id, fun rows => some (rows.length, rows.length)⟩

def nothing : Said := ⟨[], .null, .null, .null, .null, .null⟩

theorem ring_kept_one : Kept bare (run (Account.step bare) (start []) [.hold [] none, .record nothing]) := by
  refine ring_kept ⟨trivial, fun line h => ⟨?_, nofun⟩, trivial⟩
  have hline : lineOf bare 1 nothing = some ⟨1, [], ascii "info", ascii "unknown", [], [], []⟩ := rfl
  obtain rfl := Option.mem_unique hline h
  exact nofun

/-- The lines that are let go with the ring are neither held nor counted as dropped. -/
theorem let_go_uncounted : ¬ ∀ ops : List Op, let r := run (Account.step bare) (start []) ops
    records r.book + r.book.dropped = r.told :=
  fun h => absurd (h [.hold [] none, .record nothing, .release []]) (by decide)

end NMesh.Logs.Ring
