import NMesh.Base.JsonRead
import NMesh.Base.JsonSize
import NMesh.Logs.Follower
import Mathlib.Algebra.Order.BigOperators.Group.List

/-! # A log client of the connector

The connector answers a question about the log with one frame: a page of the ring as JSON, cut once more if it is
too long for a frame. Every frame fits and is one object (`frames`). A client that keeps asking is told of every
line it passes, as long as no page is cut and the ring tells its followers (`served`). A page that is cut leaves
out lines below the cursor it hands out (`cut_page`). -/

namespace NMesh.Logs.Client

open Base.BigEndian Base.Utf8 Base.Ordered Base.JsonText Base.JsonRound
open Base.JsonStyle Base.JsonRead Base.JsonSize Base.Runs NMesh.Logs.Book NMesh.Logs.Follower

/-- What Python brings in: what the ring needs, `int` of the float of what JSON holds (`none` where it raises),
and what the filters of a question let through. -/
structure World where
  rings : Book.World
  float : Json → Option ℕ
  keep : List (Text × Json) → Line → Bool

def maxFrame : ℕ := 70000

def maxList : ℕ := 60000

def logLines : UInt8 := 0x8F

/-! ### Answering -/

section Answering

variable (W : World)

/-- `int(_number(raw))`: floats hold whole numbers below 2 ^ 53. -/
def number : Json → Option ℕ
  | .null => some 0
  | .bool b => some (if b then 1 else 0)
  | .int n => if n < 2 ^ 53 then some n.toNat else W.float (.int n)
  | raw => W.float raw

def field (asked : List (Text × Json)) (key : String) : Json := (getL (ascii key) asked).getD .null

/-- `_handle_log_read`, of a question for what came since a number: the page, and what its filters let
through. -/
def logRead (b : LogBook) (asked : List (Text × Json)) : Option (Answer × (Line → Bool)) := do
  let run ← textOr W.rings (field asked "run")
  let _ ← number W (field asked "before_seq")
  let seq ← number W (field asked "seq")
  let limit ← number W (field asked "limit")
  let keep := W.keep asked
  some (b.since seq (run.take 32) (some (if limit = 0 then (maxQuery : ℤ) else limit)) keep, keep)

def asLine (line : Line) : Json := .obj
  [(ascii "seq", .int line.seq), (ascii "at", .float line.time), (ascii "level", .str line.level),
    (ascii "source", .str line.source), (ascii "topic", .str line.topic), (ascii "message", .str line.message),
    (ascii "fields", .obj line.fields)]

/-- A page as it is sent; `matched` is how many lines it had before it was cut. -/
def asObject (matched : ℕ) (a : Answer) : List (Text × Json) :=
  [(ascii "lines", .arr (a.lines.map asLine)), (ascii "matched", .int matched),
    (ascii "returned", .int a.lines.length), (ascii "seq", .int a.seq), (ascii "more", .bool a.more),
    (ascii "run", .str a.run), (ascii "restarted", .bool a.restarted), (ascii "lost", .int a.lost)]

/-- `json.dumps(answer).encode("utf-8")` -/
def dumped (matched : ℕ) (a : Answer) : Bytes := blob standard (.obj (asObject matched a))

/-- `_fit`: the lines are halved until the page fits; each time there are fewer. -/
def fit (matched : ℕ) : ℕ → Answer → Answer
  | 0, a => a
  | n + 1, a =>
    if maxList < (dumped matched a).length ∧ a.lines ≠ [] then
      fit matched n { a with lines := a.lines.take (a.lines.length / 2) }
    else a

def sent (a : Answer) : Answer := fit a.lines.length a.lines.length a

def frameOf (a : Answer) : Bytes := logLines :: dumped a.lines.length (sent a)

/-! ### A client -/

/-- The ring, the client at it, and the frames it was sent. -/
structure Session where
  world : Follower.World
  frames : List Bytes

inductive Event
  | op (o : Op)
  | ask (asked : List (Text × Json))

/-- A question, with the number and the run of the answer before. -/
def question (w : Follower.World) (asked : List (Text × Json)) : List (Text × Json) :=
  setL (ascii "run") (.str w.run) (setL (ascii "seq") (.int w.cursor) asked)

def step (s : Session) : Event → Session
  | .op o => { s with world := Follower.step W.rings s.world (.op o) }
  | .ask asked =>
    match logRead W s.world.book (question s.world asked) with
    | none => s
    | some (a, keep) =>
      { world := { s.world with
          cursor := (sent a).seq, run := (sent a).run
          asked := s.world.asked ++ [⟨s.world.position, keep, sent a, held s.world.book⟩] }
        frames := s.frames ++ [frameOf a] }

def enter (w : Follower.World) (cursor : ℕ) (run : Text) : Session := ⟨Follower.begin w cursor run, []⟩

end Answering

/-! ### Cutting a page -/

/-- **What is left of a page**: its first lines, and all but the lines as it was. -/
theorem fit_lines (matched : ℕ) : ∀ (n : ℕ) (a : Answer),
    ∃ k, fit matched n a = { a with lines := a.lines.take k }
  | 0, a => ⟨a.lines.length, by rw [List.take_length]; rfl⟩
  | n + 1, a => by
    rw [fit]
    split_ifs
    · obtain ⟨k, hk⟩ := fit_lines matched n { a with lines := a.lines.take (a.lines.length / 2) }
      refine ⟨min k (a.lines.length / 2), ?_⟩
      rw [hk, List.take_take]
    · exact ⟨a.lines.length, by rw [List.take_length]⟩

variable {a : Answer}

theorem fit_of_le {matched : ℕ} (h : (dumped matched a).length ≤ maxList) (n : ℕ) :
    fit matched n a = a := by
  cases n with
  | zero => rfl
  | succ n => rw [fit, if_neg fun hno => Nat.not_lt.mpr h hno.1]

theorem fit_fits (matched : ℕ) : ∀ (n : ℕ) (a : Answer), a.lines.length ≤ n →
    (dumped matched (fit matched n a)).length ≤ maxList ∨ (fit matched n a).lines = []
  | 0, a, h => Or.inr (List.eq_nil_of_length_eq_zero (Nat.le_zero.mp h))
  | n + 1, a, h => by
    rw [fit]
    by_cases hlong : maxList < (dumped matched a).length ∧ a.lines ≠ []
    · rw [if_pos hlong]
      refine fit_fits matched n _ ?_
      have hpos : a.lines.length ≠ 0 := fun hzero => hlong.2 (List.eq_nil_of_length_eq_zero hzero)
      show (a.lines.take (a.lines.length / 2)).length ≤ n
      rw [List.length_take]
      omega
    · rw [if_neg hlong]
      by_cases hfits : (dumped matched a).length ≤ maxList
      · exact Or.inl hfits
      · refine Or.inr ?_
        by_contra hne
        exact hlong ⟨Nat.lt_of_not_le hfits, hne⟩

theorem fit_short {matched n : ℕ} (hlong : maxList < (dumped matched a).length)
    (hne : a.lines ≠ []) (hn : a.lines.length ≤ n) : ∃ k < a.lines.length,
      fit matched n a = { a with lines := a.lines.take k } := by
  have hpos : a.lines.length ≠ 0 := fun hzero => hne (List.eq_nil_of_length_eq_zero hzero)
  obtain ⟨n, rfl⟩ : ∃ m, n = m + 1 := ⟨n - 1, by omega⟩
  rw [fit, if_pos ⟨hlong, hne⟩]
  obtain ⟨k, hk⟩ := fit_lines matched n { a with lines := a.lines.take (a.lines.length / 2) }
  refine ⟨min k (a.lines.length / 2), by omega, ?_⟩
  rw [hk, List.take_take]

/-! ### Lines that can be written -/

variable (floatRepr : Text → Text)

/-- A float that `json` reads back, in ASCII. -/
def Float (repr : Text) : Prop := FloatText floatRepr repr ∧ Ascii (dumpFloat repr)

def Leaf : Json → Prop
  | .null => True
  | .bool _ => True
  | .int n => (digits n.natAbs).length ≤ maxDigits
  | .float repr => Float floatRepr repr
  | .str s => Points s
  | _ => False

/-- What may be said: numbers that Python writes, and strings. -/
def Sayable : Json → Prop
  | .int n => (digits n.natAbs).length ≤ maxDigits
  | .float repr => Float floatRepr repr
  | .str s => Points s
  | _ => True

structure SaidWell (s : Said) : Prop where
  time : Float floatRepr s.time
  source : Sayable floatRepr s.source
  message : Sayable floatRepr s.message
  level : Sayable floatRepr s.level
  topic : Sayable floatRepr s.topic
  fields : ∀ members, s.fields = .obj members → ∀ e ∈ members, Points e.1 ∧ Sayable floatRepr e.2

structure WrittenWell (line : Line) : Prop where
  time : Float floatRepr line.time
  level : Points line.level
  source : Points line.source
  topic : Points line.topic
  message : Points line.message
  fields : ∀ e ∈ line.fields, Points e.1 ∧ Leaf floatRepr e.2

/-- Python's strings are code points. -/
structure Strings (P : Book.World) : Prop where
  str : ∀ v t, P.str v = some t → Points t
  strip : ∀ t, Points t → Points (P.strip t)
  lower : ∀ t, Points t → Points (P.lower t)

variable {floatRepr}

theorem points_ascii {s : String} (h : Ascii (ascii s)) : Points (ascii s) := fun c hc => by
  have := h c hc
  omega

theorem points_take {s : Text} (h : Points s) (n : ℕ) : Points (s.take n) :=
  fun c hc => h c (List.mem_of_mem_take hc)

section Lines

variable {P : Book.World} (hP : Strings P)
include hP

theorem points_textOf {v : Json} {t : Text} (hv : Sayable floatRepr v) (h : textOf P v = some t) : Points t := by
  cases v with
  | str s =>
    rw [← Option.some.inj h]
    exact hv
  | null | bool _ | int _ | float _ | arr _ | obj _ => exact hP.str _ _ h

theorem points_textOr {v : Json} {t : Text} (hv : Sayable floatRepr v) (h : textOr P v = some t) : Points t := by
  unfold textOr at h
  split_ifs at h
  · exact points_textOf hP hv h
  · rw [← Option.some.inj h]
    exact fun c hc => by cases hc

theorem leaf_cleanValue {v v' : Json} (hv : Sayable floatRepr v) (h : cleanValue P v = some v') :
    Leaf floatRepr v' := by
  cases v with
  | null | bool _ | int _ =>
    rw [← Option.some.inj h]
    exact hv
  | float repr =>
    rw [← Option.some.inj h]
    split_ifs
    · exact trivial
    · exact hv
  | str s =>
    have h : some (Json.str (s.take maxFieldText)) = some v' := h
    rw [← Option.some.inj h]
    exact points_take hv _
  | arr items | obj members =>
    obtain ⟨t, ht, rfl⟩ := Option.map_eq_some_iff.mp h
    exact points_take (hP.str _ _ ht) _

omit hP in
theorem mem_mapM {α β : Type} {f : α → Option β} {y : β} : ∀ {xs : List α} {ys : List β},
    xs.mapM f = some ys → y ∈ ys → ∃ x ∈ xs, f x = some y
  | [], ys, h, hy => by
    rw [List.mapM_nil] at h
    rw [← Option.some.inj h] at hy
    cases hy
  | x :: xs, ys, h, hy => by
    simp only [List.mapM_cons, Option.bind_eq_bind, Option.bind_eq_some_iff, Option.pure_def] at h
    obtain ⟨z, hz, zs, hzs, h⟩ := h
    rw [← Option.some.inj h] at hy
    rcases List.mem_cons.mp hy with rfl | hy
    · exact ⟨x, List.mem_cons_self, hz⟩
    · obtain ⟨x', hx', hfx'⟩ := mem_mapM hzs hy
      exact ⟨x', List.mem_cons_of_mem x hx', hfx'⟩

omit hP in
theorem mem_foldl_setL {e : Text × Json} : ∀ {pairs out : List (Text × Json)},
    e ∈ pairs.foldl (fun out e => setL e.1 e.2 out) out → e ∈ pairs ∨ e ∈ out
  | [], _, h => Or.inr h
  | x :: pairs, out, h => by
    have h : e ∈ pairs.foldl (fun out e => setL e.1 e.2 out) (setL x.1 x.2 out) := h
    rcases mem_foldl_setL h with h | h
    · exact Or.inl (List.mem_cons_of_mem x h)
    · rcases mem_setL h with rfl | h
      · exact Or.inl List.mem_cons_self
      · exact Or.inr h

theorem leaf_cleanFields {raw : Json} {fields : List (Text × Json)}
    (hraw : ∀ members, raw = .obj members → ∀ e ∈ members, Points e.1 ∧ Sayable floatRepr e.2)
    (h : cleanFields P raw = some fields) : ∀ e ∈ fields, Points e.1 ∧ Leaf floatRepr e.2 := by
  cases raw with
  | obj members =>
    simp only [cleanFields, Option.bind_eq_bind, Option.bind_eq_some_iff] at h
    obtain ⟨pairs, hpairs, h⟩ := h
    rw [← Option.some.inj h]
    intro e he
    rcases mem_foldl_setL he with he | he
    · obtain ⟨x, hx, hxe⟩ := mem_mapM hpairs he
      obtain ⟨v, hv, rfl⟩ := Option.map_eq_some_iff.mp hxe
      obtain ⟨hkey, hvalue⟩ := hraw members rfl x (List.mem_of_mem_take hx)
      exact ⟨points_take hkey _, leaf_cleanValue hP hvalue hv⟩
    · cases he
  | null | bool _ | int _ | float _ | str _ | arr _ =>
    rw [← Option.some.inj h]
    exact fun e he => by cases he

theorem written_lineOf {seq : ℕ} {s : Said} {line : Line} (hs : SaidWell floatRepr s)
    (h : lineOf P seq s = some line) : WrittenWell floatRepr line := by
  unfold lineOf cleanLevel cleanSource at h
  simp only [Option.bind_eq_bind, Option.bind_eq_some_iff, Option.some.injEq] at h
  obtain ⟨_, ⟨level, hlevel, rfl⟩, _, ⟨source, hsource, rfl⟩, topic, htopic, message, hmessage, fields, hfields,
    rfl⟩ := h
  have hlevel := hP.lower _ (hP.strip _ (points_textOr hP hs.level hlevel))
  have hsource := hP.strip _ (points_textOr hP hs.source hsource)
  refine ⟨hs.time, ?_, ?_, points_take (points_textOr hP hs.topic htopic) _,
    points_take (points_textOr hP hs.message hmessage) _, leaf_cleanFields hP hs.fields hfields⟩
  · show Points (if _ then _ else _)
    split_ifs
    · exact hlevel
    · exact points_ascii (by decide)
  · show Points (if _ then _ else _)
    split_ifs
    · exact hsource
    · exact points_ascii (by decide)

end Lines

/-! ### What is written of a page -/

theorem plain_leaf {v : Json} (h : Leaf floatRepr v) :
    Plain floatRepr v ∧ height v = 0 ∧ Ascii (write standard v) := by
  cases v with
  | null => exact ⟨trivial, rfl, (by decide : Ascii (ascii "null"))⟩
  | bool b => exact ⟨trivial, rfl, ascii_write_bool b⟩
  | int n => exact ⟨h, rfl, ascii_dumpInt n⟩
  | float repr => exact ⟨h.1, rfl, h.2⟩
  | str s => exact ⟨h, rfl, ascii_writeString rfl h⟩
  | arr _ | obj _ => exact h.elim

/-- A value that can be written, no deeper than that, and in ASCII. -/
def Writes (floatRepr : Text → Text) (depth : ℕ) (v : Json) : Prop :=
  Plain floatRepr v ∧ height v ≤ depth ∧ Ascii (write standard v)

theorem writes_int {n depth : ℕ} (h : n < 2 ^ 53) : Writes floatRepr depth (.int n) :=
  ⟨clean_nat (by omega), Nat.zero_le _, ascii_dumpInt n⟩

theorem writes_str {s : Text} (h : Points s) (depth : ℕ) : Writes floatRepr depth (.str s) :=
  ⟨h, Nat.zero_le _, ascii_writeString rfl h⟩

theorem writes_bool (b : Bool) (depth : ℕ) : Writes floatRepr depth (.bool b) :=
  ⟨trivial, Nat.zero_le _, ascii_write_bool b⟩

theorem writes_obj {members : List (Text × Json)} {depth : ℕ}
    (h : ∀ e ∈ members, Points e.1 ∧ Writes floatRepr depth e.2) : Writes floatRepr (depth + 1) (.obj members) := by
  refine ⟨plainMembers_iff.mpr fun e he => ⟨(h e he).1, (h e he).2.1⟩, ?_, ?_⟩
  · exact Nat.succ_le_succ (heightMembers_le.mpr fun e he => (h e he).2.2.1)
  · exact ascii_write_obj rfl fun e he => ⟨(h e he).1, (h e he).2.2.2⟩

theorem writes_arr {items : List Json} {depth : ℕ} (h : ∀ v ∈ items, Writes floatRepr depth v) :
    Writes floatRepr (depth + 1) (.arr items) :=
  ⟨plainItems_iff.mpr fun v hv => (h v hv).1,
    Nat.succ_le_succ (heightItems_le.mpr fun v hv => (h v hv).2.1),
    ascii_write_arr fun v hv => (h v hv).2.2⟩

theorem writes_asLine {line : Line} (h : WrittenWell floatRepr line) (hseq : line.seq < 2 ^ 53) :
    Writes floatRepr 2 (asLine line) := by
  refine writes_obj ?_
  have hfields : Writes floatRepr 1 (.obj line.fields) := writes_obj fun e he => by
    obtain ⟨hkey, hleaf⟩ := h.fields e he
    obtain ⟨hplain, hheight, hascii⟩ := plain_leaf hleaf
    exact ⟨hkey, hplain, hheight.le, hascii⟩
  simp only [List.forall_mem_cons]
  refine ⟨⟨points_ascii (by decide), writes_int hseq⟩,
    ⟨points_ascii (by decide), h.time.1, Nat.zero_le _, h.time.2⟩,
    ⟨points_ascii (by decide), writes_str h.level _⟩, ⟨points_ascii (by decide), writes_str h.source _⟩,
    ⟨points_ascii (by decide), writes_str h.topic _⟩, ⟨points_ascii (by decide), writes_str h.message _⟩,
    ⟨points_ascii (by decide), hfields⟩, fun _ he => by cases he⟩

/-- A page of lines that can be written, with numbers a float holds and a short name of the run. -/
structure PageWell (floatRepr : Text → Text) (a : Answer) : Prop where
  lines : ∀ line ∈ a.lines, WrittenWell floatRepr line ∧ line.seq < 2 ^ 53
  seq : a.seq < 2 ^ 53
  lost : a.lost < 2 ^ 53
  run : Points a.run ∧ a.run.length ≤ 32

theorem writes_asObject {matched : ℕ} (h : PageWell floatRepr a) (hm : matched < 2 ^ 53)
    (hlen : a.lines.length < 2 ^ 53) : Writes floatRepr 4 (.obj (asObject matched a)) := by
  refine writes_obj ?_
  have hlines : Writes floatRepr 3 (.arr (a.lines.map asLine)) := writes_arr fun v hv => by
    obtain ⟨line, hl, rfl⟩ := List.mem_map.mp hv
    exact writes_asLine (h.lines line hl).1 (h.lines line hl).2
  unfold asObject
  simp only [List.forall_mem_cons]
  exact ⟨⟨points_ascii (by decide), hlines⟩, ⟨points_ascii (by decide), writes_int hm⟩,
    ⟨points_ascii (by decide), writes_int hlen⟩, ⟨points_ascii (by decide), writes_int h.seq⟩,
    ⟨points_ascii (by decide), writes_bool _ _⟩, ⟨points_ascii (by decide), writes_str h.run.1 _⟩,
    ⟨points_ascii (by decide), writes_bool _ _⟩, ⟨points_ascii (by decide), writes_int h.lost⟩,
    fun _ he => by cases he⟩

theorem blob_page {matched : ℕ} (h : PageWell floatRepr a) (hm : matched < 2 ^ 53)
    (hlen : a.lines.length < 2 ^ 53) :
    (dumped matched a).length = (write standard (.obj (asObject matched a))).length :=
  length_blob (writes_asObject h hm hlen).2.2

theorem short_empty {matched : ℕ} (h : PageWell floatRepr a) (hm : matched < 2 ^ 53)
    (hnone : a.lines = []) : (dumped matched a).length ≤ maxList := by
  rw [blob_page h hm (by rw [hnone]; exact Nat.pow_pos (by decide))]
  have hmatched := length_dumpInt (k := 16) (by decide) (show matched < 10 ^ 16 by omega)
  have hseq := length_dumpInt (k := 16) (by decide) (show a.seq < 10 ^ 16 by have := h.seq; omega)
  have hlost := length_dumpInt (k := 16) (by decide) (show a.lost < 10 ^ 16 by have := h.lost; omega)
  have hrun := length_writeString_le (S := standard) rfl a.run
  have hshort := h.run.2
  have hbool : ∀ b, (write standard (.bool b)).length ≤ 5 := by decide
  have hmore := hbool a.more
  have hrestarted := hbool a.restarted
  have hkeys : (writeString standard (ascii "lines")).length = 7 ∧
      (writeString standard (ascii "matched")).length = 9 ∧
      (writeString standard (ascii "returned")).length = 10 ∧
      (writeString standard (ascii "seq")).length = 5 ∧ (writeString standard (ascii "more")).length = 6 ∧
      (writeString standard (ascii "run")).length = 5 ∧
      (writeString standard (ascii "restarted")).length = 11 ∧
      (writeString standard (ascii "lost")).length = 6 := by decide
  obtain ⟨h1, h2, h3, h4, h5, h6, h7, h8⟩ := hkeys
  have hblank : (blanks standard.itemBlanks).length = 1 ∧ (blanks standard.keyBlanks).length = 1 := by decide
  have hzero : (dumpInt ((0 : ℕ) : ℤ)).length = 1 := by decide
  rw [asObject, hnone, List.map_nil, List.length_nil]
  simp only [write, writeMembers, List.length_cons, List.length_append, List.length_nil, h1, h2, h3, h4, h5, h6,
    h7, h8, hblank.1, hblank.2, hzero] at hmore hrestarted ⊢
  unfold maxList
  omega

theorem frame_well (h : PageWell floatRepr a) (hlen : a.lines.length < 2 ^ 53) {depth : ℕ}
    (hdepth : 4 ≤ depth) :
    (frameOf a).length ≤ maxFrame ∧ ∃ members,
      (decodeUtf8 (frameOf a).tail).bind (loads floatRepr depth) = some (.obj members) := by
  obtain ⟨k, hk⟩ := fit_lines a.lines.length a.lines.length a
  have hsent : PageWell floatRepr (sent a) := by
    rw [sent, hk]
    exact ⟨fun line hl => h.lines line (List.mem_of_mem_take hl), h.seq, h.lost, h.run⟩
  have hcount : (sent a).lines.length < 2 ^ 53 := by
    rw [sent, hk]
    exact Nat.lt_of_le_of_lt (by rw [List.length_take]; exact Nat.min_le_right _ _) hlen
  have hwrites := writes_asObject hsent hlen hcount
  constructor
  · have hfits : (dumped a.lines.length (sent a)).length ≤ maxList := by
      rcases fit_fits a.lines.length a.lines.length a (Nat.le_refl _) with hfits | hnone
      · exact hfits
      · exact short_empty hsent hlen hnone
    show (dumped a.lines.length (sent a)).length + 1 ≤ maxFrame
    unfold maxList at hfits
    unfold maxFrame
    omega
  · refine ⟨settleMembers [] (asObject a.lines.length (sent a)), ?_⟩
    show (decodeUtf8 (blob standard (.obj (asObject a.lines.length (sent a))))).bind _ = _
    rw [decode_encode (encode_blob hwrites.2.2)]
    exact loads_write rfl hwrites.1 (hwrites.2.1.trans hdepth)

/-! ### Runs -/

section Runs

variable {W : World}

theorem getL_question (w : Follower.World) (asked : List (Text × Json)) :
    field (question w asked) "run" = .str w.run ∧ field (question w asked) "seq" = .int w.cursor := by
  constructor
  · unfold field question
    rw [getL_setL, if_pos rfl]
    rfl
  · unfold field question
    rw [getL_setL, if_neg (by decide), getL_setL, if_pos rfl]
    rfl

variable {s : Session} {asked : List (Text × Json)} {keep : Line → Bool}

theorem logRead_question {w : Follower.World} (hcursor : w.cursor < 2 ^ 53) (hrun : w.run.length ≤ 32)
   
    (h : logRead W w.book (question w asked) = some (a, keep)) :
    ∃ limit, a = w.book.since w.cursor w.run limit keep := by
  obtain ⟨hfrun, hfseq⟩ := getL_question w asked
  have htext : textOr W.rings (.str w.run) = some w.run := by
    unfold textOr
    by_cases hnone : w.run = []
    · rw [if_neg (by simp [truthy, hnone]), hnone]
    · rw [if_pos (by simp [truthy, hnone])]
      rfl
  have hnumber : number W (.int w.cursor) = some w.cursor := by
    rw [number, if_pos (by omega), Int.toNat_natCast]
  unfold logRead at h
  rw [hfrun, hfseq, htext, hnumber] at h
  simp only [Option.bind_eq_bind, Option.bind_some, Option.bind_eq_some_iff, Option.some.injEq,
    Prod.mk.injEq] at h
  obtain ⟨_, _, limit, _, ha, hkeep⟩ := h
  rw [List.take_of_length_le hrun, hkeep] at ha
  exact ⟨_, ha.symm⟩

variable (floatRepr) in
def OpWell (o : Op) : Prop := ∀ s, o = .record s → SaidWell floatRepr s

variable (floatRepr) in
/-- What happens to a session: what is said can be written, and the ring's numbers are those that a float
holds. -/
def Proper (s : Session) : Event → Prop
  | .op o => OpWell floatRepr o
  | .ask _ => s.world.book.seq < 2 ^ 53

variable (W) in
/-- **The condition**: the ring tells of what it dropped, and the page needs no cutting. -/
def Safe (s : Session) : Event → Prop
  | .op _ => True
  | .ask asked => Heard s.world.book s.world.position ∧
      ∀ a keep, logRead W s.world.book (question s.world asked) = some (a, keep) →
        (dumped a.lines.length a).length ≤ maxList

variable (floatRepr) in
/-- A frame fits, and is one object for a reader that goes four values deep. -/
def FrameWell (f : Bytes) : Prop :=
  f.length ≤ maxFrame ∧ ∀ depth, 4 ≤ depth → ∃ members,
    (decodeUtf8 f.tail).bind (loads floatRepr depth) = some (.obj members)

/-- A ring that holds what can be written. -/
structure RingWell (floatRepr : Text → Text) (w : Follower.World) : Prop where
  kept : Kept w.all w.book
  lines : ∀ line ∈ w.all, WrittenWell floatRepr line
  name : Points w.book.run ∧ w.book.run.length ≤ 32

/-- **The invariant of a session.** -/
structure Well (floatRepr : Text → Text) (s : Session) : Prop extends RingWell floatRepr s.world where
  cursor : s.world.cursor < 2 ^ 53
  run : s.world.run.length ≤ 32
  frames : ∀ f ∈ s.frames, FrameWell floatRepr f

theorem ringWell_op (hP : Strings W.rings) {w : Follower.World} (h : RingWell floatRepr w) {o : Op}
    (ho : OpWell floatRepr o) : RingWell floatRepr (Follower.step W.rings w (.op o)) := by
  refine ⟨kept_apply h.kept o, fun line hl => ?_, ?_⟩
  · rcases List.mem_append.mp hl with hl | hl
    · exact h.lines line hl
    · cases o with
      | record s =>
        have hl : line ∈ if w.book.enabled then (lineOf W.rings (w.book.seq + 1) s).toList else [] := hl
        split_ifs at hl
        · exact written_lineOf hP (ho s rfl) (Option.mem_toList.mp hl)
        · cases hl
      | hold | release | resize | clear | stop => cases hl
  · show Points (w.book.apply W.rings o).run ∧ (w.book.apply W.rings o).run.length ≤ 32
    rw [run_apply]
    exact h.name

theorem pageWell_since {w : Follower.World} (h : RingWell floatRepr w) (hfew : w.book.seq < 2 ^ 53) {cursor : ℕ}
    (hcursor : cursor < 2 ^ 53) (run : Text) (limit : Option ℤ) (keep : Line → Bool) :
    PageWell floatRepr (w.book.since cursor run limit keep) ∧
      (w.book.since cursor run limit keep).lines.length < 2 ^ 53 := by
  obtain ⟨hlines, -, hmax⟩ := since_spec h.kept cursor run limit keep
  have hstart : w.book.startAt cursor run < 2 ^ 53 := by
    unfold LogBook.startAt
    split_ifs
    · exact Nat.pow_pos (by decide)
    · exact hcursor
  have hsub : ∀ line ∈ held w.book, line ∈ w.all := fun line hl => h.kept.held.subset hl
  refine ⟨⟨fun line hl => ?_, by omega, ?_, h.name⟩, ?_⟩
  · rw [hlines] at hl
    have hl := hsub line (List.mem_filter.mp (List.mem_filter.mp hl).1).1
    have := (seq_mem h.kept hl).2
    exact ⟨h.lines line hl, by omega⟩
  · have holdest : w.book.oldest ≤ w.book.seq := by
      rw [oldest_eq h.kept]
      cases hheld : held w.book with
      | nil => exact Nat.zero_le _
      | cons line rest => exact (seq_mem h.kept (hsub line (by rw [hheld]; exact List.mem_cons_self))).2
    rw [since_lost]
    split_ifs
    · omega
    · exact Nat.pow_pos (by decide)
  · have hall : w.all.length = w.book.seq := by
      have hnumbered := congrArg List.length h.kept.numbered
      rwa [List.length_map, List.length_range'] at hnumbered
    have hheld := h.kept.held.length_le
    have hfilter := List.length_filter_le keep (within (w.book.startAt cursor run)
      (w.book.since cursor run limit keep).seq (held w.book))
    have hwithin : (within (w.book.startAt cursor run) (w.book.since cursor run limit keep).seq
        (held w.book)).length ≤ (held w.book).length := List.length_filter_le _ _
    rw [hlines]
    omega

theorem step_ask
    (h : logRead W s.world.book (question s.world asked) = some (a, keep)) :
    step W s (.ask asked) =
      { world := { s.world with
          cursor := (sent a).seq, run := (sent a).run
          asked := s.world.asked ++ [⟨s.world.position, keep, sent a, held s.world.book⟩] }
        frames := s.frames ++ [frameOf a] } := by
  rw [step, h]

theorem sent_seq (a : Answer) : (sent a).seq = a.seq ∧ (sent a).run = a.run := by
  obtain ⟨k, hk⟩ := fit_lines a.lines.length a.lines.length a
  rw [sent, hk]
  exact ⟨rfl, rfl⟩

theorem well_step (hP : Strings W.rings) (h : Well floatRepr s) {e : Event}
    (he : Proper floatRepr s e) : Well floatRepr (step W s e) := by
  cases e with
  | op o => exact ⟨ringWell_op hP h.toRingWell he, h.cursor, h.run, h.frames⟩
  | ask asked =>
    cases hread : logRead W s.world.book (question s.world asked) with
    | none =>
      rw [step, hread]
      exact h
    | some answered =>
      obtain ⟨a, keep⟩ := answered
      obtain ⟨limit, ha⟩ := logRead_question h.cursor h.run hread
      obtain ⟨hpage, hlen⟩ := pageWell_since h.toRingWell he h.cursor s.world.run limit keep
      rw [← ha] at hpage hlen
      rw [step_ask hread]
      refine ⟨⟨h.kept, h.lines, h.name⟩, ?_, ?_, fun f hf => ?_⟩
      · show (sent a).seq < 2 ^ 53
        rw [(sent_seq a).1]
        exact hpage.seq
      · show (sent a).run.length ≤ 32
        rw [(sent_seq a).2]
        exact hpage.run.2
      · rcases List.mem_append.mp hf with hf | hf
        · exact h.frames f hf
        · rw [List.mem_singleton.mp hf]
          exact ⟨(@frame_well a floatRepr hpage hlen 4 (Nat.le_refl 4)).1,
            fun depth hdepth => (frame_well hpage hlen hdepth).2⟩

theorem step_safe (hcursor : s.world.cursor < 2 ^ 53) (hrun : s.world.run.length ≤ 32) {e : Event}
    (hsafe : Safe W s e) : (step W s e).world = s.world ∨
      ∃ e', Follower.Safe s.world e' ∧ (step W s e).world = Follower.step W.rings s.world e' := by
  cases e with
  | op o => exact Or.inr ⟨.op o, trivial, rfl⟩
  | ask asked =>
    cases hread : logRead W s.world.book (question s.world asked) with
    | none =>
      refine Or.inl ?_
      rw [step, hread]
    | some answered =>
      obtain ⟨a, keep⟩ := answered
      obtain ⟨limit, ha⟩ := logRead_question hcursor hrun hread
      have hsent : sent a = a := fit_of_le (hsafe.2 a keep hread) _
      refine Or.inr ⟨.ask limit keep, hsafe.1, ?_⟩
      rw [step_ask hread, hsent, ha]
      rfl

theorem inv_step {start : ℕ} (h : Follower.Inv start s.world) (hcursor : s.world.cursor < 2 ^ 53)
    (hrun : s.world.run.length ≤ 32) {e : Event} (hsafe : Safe W s e) :
    Follower.Inv start (step W s e).world := by
  rcases step_safe hcursor hrun hsafe with hsame | ⟨e', hsafe', hstep⟩
  · rw [hsame]
    exact h
  · rw [hstep]
    cases e' with
    | op o => exact inv_op h o
    | ask limit keep => exact inv_ask h hsafe'

theorem cut_page (h : RingWell floatRepr s.world) (hcursor : s.world.cursor < 2 ^ 53)
    (hrun : s.world.run.length ≤ 32)
    (hread : logRead W s.world.book (question s.world asked) = some (a, keep))
    (hlong : maxList < (dumped a.lines.length a).length) (hne : a.lines ≠ []) :
    ∃ line ∈ a.lines, keep line = true ∧ s.world.position < line.seq ∧ line.seq ≤ (sent a).seq ∧
      line ∉ (sent a).lines := by
  obtain ⟨limit, ha⟩ := logRead_question hcursor hrun hread
  obtain ⟨hlines, -, -⟩ := since_spec h.kept s.world.cursor s.world.run limit keep
  rw [← ha] at hlines
  obtain ⟨k, hk, hsent⟩ := fit_short hlong hne (Nat.le_refl a.lines.length)
  have hup : Upwards a.lines := by
    rw [hlines]
    exact ((upwards_held h.kept).filter _).filter _
  have hget : a.lines.get ⟨k, hk⟩ ∈ a.lines := List.get_mem _ _
  generalize hlast : a.lines.get ⟨k, hk⟩ = line at hget
  obtain ⟨hwithin, hkeep⟩ := List.mem_filter.mp (hlines ▸ hget)
  obtain ⟨-, hbetween⟩ := List.mem_filter.mp hwithin
  have hbetween := of_decide_eq_true hbetween
  refine ⟨line, hget, hkeep, hbetween.1, ?_, fun hmem => ?_⟩
  · rw [(sent_seq a).1]
    exact hbetween.2
  · -- the lines that are sent are those before it, which have lower numbers
    rw [sent, hsent] at hmem
    obtain ⟨i, hi, hline⟩ := List.mem_take_iff_getElem.mp hmem
    have hlt := List.pairwise_iff_getElem.mp hup i k (by omega) hk (by omega)
    rw [hline, ← hlast] at hlt
    exact Nat.lt_irrefl _ hlt

theorem cut_untold (h : RingWell floatRepr s.world) (hcursor : s.world.cursor < 2 ^ 53)
    (hrun : s.world.run.length ≤ 32)
    (hread : logRead W s.world.book (question s.world asked) = some (a, keep))
    (hlong : maxList < (dumped a.lines.length a).length) (hne : a.lines ≠ [])
    (hasked : s.world.asked = []) (hposition : s.world.position = 0) :
    ¬ Told 0 (step W s (.ask asked)).world := by
  intro htold
  obtain ⟨limit, ha⟩ := logRead_question hcursor hrun hread
  obtain ⟨line, hl, hkeep, hlow, hhigh, hmissing⟩ := cut_page h hcursor hrun hread hlong hne
  obtain ⟨hlines, -, -⟩ := since_spec h.kept s.world.cursor s.world.run limit keep
  rw [← ha] at hlines
  have hall : line ∈ s.world.all := by
    rw [hlines] at hl
    exact h.kept.held.subset (List.mem_filter.mp (List.mem_filter.mp hl).1).1
  have hlost : (sent a).lost = 0 := by
    obtain ⟨k, hk⟩ := fit_lines a.lines.length a.lines.length a
    rw [sent, hk, ha]
    show (s.world.book.since s.world.cursor s.world.run limit keep).lost = 0
    rw [since_lost, if_neg fun hno => hno.1 hposition]
  have hafter : line.seq ≤ s.world.book.startAt (sent a).seq (sent a).run := by
    have hrun : (sent a).run = s.world.book.run := by
      rw [(sent_seq a).2, ha]
      rfl
    rw [LogBook.startAt, if_neg fun hno => hno.2 hrun]
    exact hhigh
  rw [step_ask hread, hasked] at htold
  obtain ⟨q, hq, htells⟩ := htold.passed line hall (by omega) hafter
  rw [List.mem_singleton.mp hq] at htells
  rcases htells.2.2 with hgiven | hdropped | hcounted
  · exact hmissing hgiven
  · rw [show keep line = false from hdropped] at hkeep
    cases hkeep
  · have hcounted : line.seq ≤ s.world.position + (sent a).lost := hcounted
    omega

theorem ringWell_run (hP : Strings W.rings) : ∀ (ops : List Op) {w : Follower.World}, RingWell floatRepr w →
    (∀ o ∈ ops, OpWell floatRepr o) →
    RingWell floatRepr (run (Follower.step W.rings) w (ops.map Follower.Event.op))
  | [], _, h, _ => h
  | o :: ops, _, h, hops => ringWell_run hP ops (ringWell_op hP h (hops o List.mem_cons_self))
      fun o' ho' => hops o' (List.mem_cons_of_mem o ho')

end Runs

/-! ### Two clients -/

/-- Strings as they are, nothing is packed, and every filter lets everything through. -/
def plainClient : World := ⟨plainWorld, fun _ => none, fun _ => everything⟩

theorem strings_plain : Strings plainWorld :=
  ⟨fun _ _ h => (by cases h), fun _ h => h, fun _ h => h⟩

def saying (length : ℕ) : Said :=
  ⟨ascii "1.0", .str (ascii "node"), .str (List.replicate length 0xE9), .str (ascii "info"), .null, .null⟩

theorem saidWell_saying (length : ℕ) : SaidWell wholeRepr (saying length) := by
  refine ⟨⟨floatText_wholeRepr 1, (by decide : Ascii (dumpFloat (ascii "1.0")))⟩, points_ascii (by decide), fun c hc => ?_, points_ascii (by decide),
    trivial, fun members h => by cases h⟩
  rw [(List.mem_replicate.mp hc).2]
  decide

def heldRing : Follower.World :=
  run (Follower.step plainWorld) (fresh (ascii "run")) ([Op.hold [] none].map Follower.Event.op)

theorem opWell_hold : ∀ o ∈ [Op.hold [] none], OpWell wholeRepr o := fun o ho s hs => by
  rw [List.mem_singleton.mp ho] at hs
  cases hs

def longRing : Session :=
  run (step plainClient) (enter heldRing 0 []) (List.replicate 20 (.op (.record (saying 512))))

theorem longRing_start : longRing.world.position = 0 ∧ longRing.world.asked = [] ∧
    longRing.world.cursor = 0 ∧ longRing.world.run = [] := by
  decide +kernel

theorem longRing_page : ((logRead plainClient longRing.world.book (question longRing.world [])).map fun p =>
    decide (p.1.lines.length = 20 ∧ ∀ line ∈ p.1.lines, line.message = List.replicate 512 0xE9)) = some true := by
  decide +kernel

theorem proper_records (n : ℕ) : ∀ (s : Session), Guarded (step plainClient) (Proper wholeRepr) s
    (List.replicate n (.op (.record (saying 512)))) := by
  induction n with
  | zero => exact fun _ => trivial
  | succ n ih =>
    refine fun s => ⟨fun said h => ?_, ih _⟩
    cases h
    exact saidWell_saying 512

theorem well_longRing : Well wholeRepr longRing := by
  have hheld : RingWell wholeRepr heldRing := ringWell_run (W := plainClient) strings_plain [.hold [] none]
    ⟨kept_new _, fun _ hl => (by cases hl), points_ascii (by decide), by decide⟩ opWell_hold
  refine Guarded.run_induct (P := Well wholeRepr) (fun s e hs he => well_step strings_plain hs he) ?_
    (proper_records 20 _)
  exact ⟨⟨hheld.kept, hheld.lines, hheld.name⟩, Nat.pow_pos (by decide), Nat.zero_le 32, fun _ hf => by cases hf⟩

theorem long_dumped (h : PageWell wholeRepr a) (hlen : a.lines.length = 20)
    (hlong : ∀ line ∈ a.lines, line.message = List.replicate 512 0xE9) :
    maxList < (dumped a.lines.length a).length := by
  have hmessage : (write standard (.str (List.replicate 512 0xE9))).length = 3074 := by decide +kernel
  have hline : ∀ line ∈ a.lines, 3074 ≤ (write standard (asLine line)).length := fun line hl => by
    have hle : (write standard (.str line.message)).length ≤ (write standard (asLine line)).length :=
      @length_le_write_obj standard (ascii "message", .str line.message) _ (by simp)
    rwa [hlong line hl, hmessage] at hle
  have hsum : a.lines.length * 3074 ≤ ((a.lines.map asLine).map fun v => (write standard v).length).sum := by
    have hle := List.card_nsmul_le_sum ((a.lines.map asLine).map fun v => (write standard v).length) 3074
      fun n hn => by
        obtain ⟨v, hv, rfl⟩ := List.mem_map.mp hn
        obtain ⟨line, hl, rfl⟩ := List.mem_map.mp hv
        exact hline line hl
    rwa [List.length_map, List.length_map, Nat.nsmul_eq_mul] at hle
  have harr := sum_le_write_arr (S := standard) (a.lines.map asLine)
  have hobj : (write standard (.arr (a.lines.map asLine))).length ≤ _ :=
    @length_le_write_obj standard (ascii "lines", .arr (a.lines.map asLine)) (asObject a.lines.length a)
      List.mem_cons_self
  rw [blob_page h (by omega) (by omega)]
  unfold maxList
  omega

end NMesh.Logs.Client
