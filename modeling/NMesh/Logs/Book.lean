import NMesh.Base.JsonText
import Mathlib.Data.List.Range

/-! # The log of a node

A ring of numbered lines: the newest are open, the older ones lie in packed blocks, and the oldest blocks go
when the ring is too large. It records while somebody holds it, and drops what it kept when the last one
lets go. A reader asks for what came `since` a number.

* `LogBook`, `Op`, `LogBook.apply`: the ring and what happens to it,
* `LogBook.since`: what a reader is answered,
* `Kept`, `kept_apply`: the lines it holds are the last ones it recorded,
* `since_lines`, `since_seq`: what an answer holds. -/

namespace NMesh.Logs.Book

open Base.Utf8 Base.Ordered Base.JsonText

/-- One line of a log. -/
structure Line where
  seq : ℕ
  time : Text
  level : Text
  source : Text
  topic : Text
  message : Text
  fields : List (Text × Json)

/-- Lines packed together: the first and the last number, the lines, and the bytes they take packed and
unpacked. -/
structure Block where
  first : ℕ
  last : ℕ
  rows : List Line
  packed : ℕ
  raw : ℕ

/-- What Python brings in: `str` of what is no string (`none` where it raises), two string methods, and the
bytes some lines take unpacked and packed (`none` where `json.dumps` raises). -/
structure World where
  str : Json → Option Text
  strip : Text → Text
  lower : Text → Text
  pack : List Line → Option (ℕ × ℕ)

def defaultBytes : ℕ := 8 * 1024 * 1024

def maxBytes : ℕ := 512 * 1024 * 1024

def minBytes : ℕ := 64 * 1024

def blockRecords : ℕ := 512

def maxMessage : ℕ := 512

def maxTopic : ℕ := 48

def maxSource : ℕ := 64

def maxFields : ℕ := 8

def maxFieldKey : ℕ := 32

def maxFieldText : ℕ := 128

def maxQuery : ℕ := 500

def maxHolder : ℕ := 16

def maxHolders : ℕ := 8

def minOpen : ℕ := 16 * 1024

def levels : List Text := [ascii "debug", ascii "info", ascii "warn", ascii "error"]

structure LogBook where
  enabled : Bool
  run : Text
  limit : ℕ
  seq : ℕ
  opened : List Line
  openBytes : ℕ
  blocks : List Block
  packed : ℕ
  raw : ℕ
  dropped : ℕ
  holders : List Text

def new (run : Text) : LogBook := ⟨false, run, defaultBytes, 0, [], 0, [], 0, 0, 0, []⟩

/-! ### Cleaning -/

section Cleaning

variable (W : World)

def truthy : Json → Bool
  | .null => false
  | .bool b => b
  | .int n => n ≠ 0
  | .float repr => repr ≠ ascii "0.0" ∧ repr ≠ ascii "-0.0"
  | .str s => s ≠ []
  | .arr items => ¬ items.isEmpty
  | .obj members => ¬ members.isEmpty

/-- `str(value)` -/
def textOf : Json → Option Text
  | .str s => some s
  | value => W.str value

/-- `str(raw or "")` -/
def textOr (raw : Json) : Option Text := if truthy raw then textOf W raw else some []

def cleanLevel (raw : Json) : Option Text := do
  let text := W.lower (W.strip (← textOr W raw))
  some (if text ∈ levels then text else ascii "info")

def isSourceChar (c : ℕ) : Bool :=
  0x41 ≤ c ∧ c ≤ 0x5A ∨ 0x61 ≤ c ∧ c ≤ 0x7A ∨ 0x30 ≤ c ∧ c ≤ 0x39 ∨ c ∈ ascii "_.:@-"

def cleanSource (raw : Json) : Option Text := do
  let text := W.strip (← textOr W raw)
  some (if text ≠ [] ∧ text.length ≤ maxSource ∧ text.all isSourceChar then text else ascii "unknown")

/-- One value of `clean_fields`. -/
def cleanValue : Json → Option Json
  | .bool b => some (.bool b)
  | .null => some .null
  | .int n => some (.int n)
  | .float repr => some (if repr = ascii "nan" then .null else .float repr)
  | value => (textOf W value).map fun text => .str (text.take maxFieldText)

def cleanFields : Json → Option (List (Text × Json))
  | .obj members => do
    let pairs ← (members.take maxFields).mapM fun e => (cleanValue W e.2).map (e.1.take maxFieldKey, ·)
    some (pairs.foldl (fun out e => setL e.1 e.2 out) [])
  | _ => some []

/-- What is said, before it is cleaned. -/
structure Said where
  time : Text
  source : Json
  message : Json
  level : Json
  topic : Json
  fields : Json

/-- The line of a number; `none` where cleaning raises. -/
def lineOf (seq : ℕ) (s : Said) : Option Line := do
  let level ← cleanLevel W s.level
  let source ← cleanSource W s.source
  let topic ← textOr W s.topic
  let message ← textOr W s.message
  let fields ← cleanFields W s.fields
  some ⟨seq, s.time, level, source, topic.take maxTopic, message.take maxMessage, fields⟩

/-- `_weight`; `none` where it raises. -/
def weight (line : Line) : Option ℕ := do
  let extra ← line.fields.mapM fun e => (textOf W e.2).map fun text => e.1.length + text.length + 8
  some (64 + line.level.length + line.source.length + line.topic.length + line.message.length + extra.sum)

end Cleaning

/-! ### The ring -/

/-- `str(holder or OPERATOR)[:MAX_HOLDER]` -/
def nameOf (holder : Text) : Text := (if holder = [] then ascii "operator" else holder).take maxHolder

def addHolder (name : Text) (holders : List Text) : List Text :=
  if name ∈ holders then holders else name :: holders

namespace LogBook

variable (W : World)

def openCap (b : LogBook) : ℕ := max minOpen (b.limit / 8)

def popBlock (b : LogBook) (block : Block) (blocks : List Block) : LogBook :=
  { b with blocks := blocks, packed := b.packed - block.packed, raw := b.raw - block.raw,
           dropped := b.dropped + block.rows.length }

/-- `_evict`, by the blocks there are. -/
def evictFrom : List Block → LogBook → LogBook
  | [], b => b
  | block :: blocks, b =>
    if b.limit - b.openCap < b.packed then evictFrom blocks (b.popBlock block blocks) else b

def evict (b : LogBook) : LogBook := evictFrom b.blocks b

/-- `_resize`, to so many bytes; what is no number is no size. -/
def resizeTo (b : LogBook) : Option ℤ → LogBook
  | none => b
  | some asked => evict { b with limit := max minBytes (min asked.toNat maxBytes) }

/-- `_drop`: stop, and keep nothing. -/
def drop (b : LogBook) : LogBook :=
  { b with enabled := false, opened := [], openBytes := 0, blocks := [], packed := 0, raw := 0 }

/-- `_pack`; `none` where `json.dumps` raises. -/
def pack (b : LogBook) : Option LogBook :=
  match W.pack b.opened, b.opened with
  | some (raw, packed), line :: rest =>
    some (evict { b with
      blocks := b.blocks ++ [⟨line.seq, ((line :: rest).getLast (List.cons_ne_nil _ _)).seq, line :: rest,
        packed, raw⟩]
      packed := b.packed + packed, raw := b.raw + raw, opened := [], openBytes := 0 })
  | _, _ => none

def append (b : LogBook) (line : Line) : LogBook :=
  let b := { b with seq := line.seq, opened := b.opened ++ [line] }
  match weight W line with
  | none => { b with dropped := b.dropped + 1 }
  | some n =>
    let b := { b with openBytes := b.openBytes + n }
    if blockRecords ≤ b.opened.length ∨ b.openCap ≤ b.openBytes then
      (pack W b).getD { b with dropped := b.dropped + 1 }
    else b

def record (b : LogBook) (s : Said) : LogBook :=
  if ¬ b.enabled then b
  else
    match lineOf W (b.seq + 1) s with
    | none => { b with dropped := b.dropped + 1 }
    | some line => append W b line

def sized (b : LogBook) : Option (Option ℤ) → LogBook
  | none => b
  | some asked => b.resizeTo asked

def hold (b : LogBook) (holder : Text) (size : Option (Option ℤ)) : LogBook :=
  let name := nameOf holder
  let b := b.sized size
  if name ∉ b.holders ∧ maxHolders ≤ b.holders.length then b
  else { b with holders := addHolder name b.holders, enabled := true }

def release (b : LogBook) (holder : Text) : LogBook :=
  let b := { b with holders := b.holders.filter (· ≠ nameOf holder) }
  if b.holders = [] then b.drop else b

def stop (b : LogBook) : LogBook := drop { b with holders := [] }

def clear (b : LogBook) : LogBook :=
  { b with opened := [], openBytes := 0, blocks := [], packed := 0, raw := 0, dropped := 0 }

end LogBook

/-- What happens to a ring. -/
inductive Op
  | record (s : Said)
  | hold (holder : Text) (size : Option (Option ℤ))
  | release (holder : Text)
  | resize (asked : Option ℤ)
  | clear
  | stop

namespace LogBook

variable (W : World)

def apply (b : LogBook) : Op → LogBook
  | .record s => b.record W s
  | .hold holder size => b.hold holder size
  | .release holder => b.release holder
  | .resize asked => b.resizeTo asked
  | .clear => b.clear
  | .stop => b.stop

/-! ### Reading -/

def oldest (b : LogBook) : ℕ :=
  match b.blocks, b.opened with
  | block :: _, _ => block.first
  | [], line :: _ => line.seq
  | [], [] => 0

end LogBook

/-- `_bound(limit)`; `none` is no number. -/
def boundOf : Option ℤ → ℕ
  | none => maxQuery
  | some n => if n = 0 then maxQuery else max 1 (min n.toNat maxQuery)

/-- Look at lines in turn: those that are given, where the cursor stands, and whether the page was cut. -/
def scan (after bound : ℕ) (keep : Line → Bool) : List Line → List Line → ℕ → List Line × ℕ × Bool
  | [], out, cursor => (out, cursor, false)
  | line :: rest, out, cursor =>
    if line.seq ≤ after then scan after bound keep rest out cursor
    else if bound ≤ out.length then (out, cursor, true)
    else scan after bound keep rest (if keep line then out ++ [line] else out) line.seq

/-- What a reader is answered. -/
structure Answer where
  lines : List Line
  seq : ℕ
  more : Bool
  run : Text
  restarted : Bool
  lost : ℕ

namespace LogBook

/-- Where an answer starts: a number of another run is none. -/
def startAt (b : LogBook) (seq : ℕ) (run : Text) : ℕ := if run ≠ [] ∧ run ≠ b.run then 0 else seq

/-- `since(…)`: what came after a number. `keep` is what the filters let through. -/
def since (b : LogBook) (seq : ℕ) (run : Text) (limit : Option ℤ) (keep : Line → Bool) : Answer :=
  let after := b.startAt seq run
  let rows := (b.blocks.filter fun block => decide (after < block.last)).flatMap Block.rows ++
    b.opened.filter fun line => decide (after < line.seq)
  let (out, cursor, more) := scan after (boundOf limit) keep rows [] (max after b.seq)
  { lines := out
    seq := if more then (out.getLast?.map Line.seq).getD after else cursor
    more := more
    run := b.run
    restarted := decide (run ≠ [] ∧ run ≠ b.run)
    lost := if after ≠ 0 ∧ b.oldest ≠ 0 then b.oldest - after - 1 else 0 }

end LogBook

/-! ### What a ring holds -/

def held (b : LogBook) : List Line := b.blocks.flatMap Block.rows ++ b.opened

/-- The first and the last number of a block are those of its lines. -/
def Sound (block : Block) : Prop :=
  block.rows.head?.map Line.seq = some block.first ∧ block.rows.getLast?.map Line.seq = some block.last

/-- **The invariant**, of all the lines that were recorded: they are numbered from one, and what is held is the
end of them. -/
structure Kept (all : List Line) (b : LogBook) : Prop where
  numbered : all.map Line.seq = List.range' 1 b.seq
  held : held b <:+ all
  sound : ∀ block ∈ b.blocks, Sound block

def recorded (W : World) (b : LogBook) : Op → List Line
  | .record s => if b.enabled then (lineOf W (b.seq + 1) s).toList else []
  | _ => []

/-- Two rings that differ in what no reader is told. -/
structure Same (b b' : LogBook) : Prop where
  seq : b'.seq = b.seq
  run : b'.run = b.run
  opened : b'.opened = b.opened
  enabled : b'.enabled = b.enabled
  holders : b'.holders = b.holders

theorem evictFrom_spec : ∀ {blocks : List Block} {b : LogBook}, b.blocks = blocks →
    Same b (LogBook.evictFrom blocks b) ∧ (LogBook.evictFrom blocks b).blocks <:+ blocks
  | [], b, h => ⟨⟨rfl, rfl, rfl, rfl, rfl⟩, by simp [LogBook.evictFrom, h]⟩
  | block :: blocks, b, h => by
    rw [LogBook.evictFrom]
    split_ifs with hfull
    · obtain ⟨⟨hseq, hrun, hopened, hon, hholders⟩, hsuffix⟩ :=
        @evictFrom_spec blocks (b.popBlock block blocks) rfl
      exact ⟨⟨hseq, hrun, hopened, hon, hholders⟩, hsuffix.trans (List.suffix_cons block blocks)⟩
    · exact ⟨⟨rfl, rfl, rfl, rfl, rfl⟩, by simp [h]⟩

theorem held_evict (b : LogBook) : held b.evict <:+ held b := by
  obtain ⟨⟨-, -, hopened, -, -⟩, pre, hblocks⟩ := @evictFrom_spec b.blocks b rfl
  refine ⟨pre.flatMap Block.rows, ?_⟩
  unfold held LogBook.evict
  rw [hopened, ← List.append_assoc, ← List.flatMap_append, hblocks]

theorem same_resizeTo (b : LogBook) (asked : Option ℤ) : Same b (b.resizeTo asked) := by
  cases asked with
  | none => exact ⟨rfl, rfl, rfl, rfl, rfl⟩
  | some asked =>
    obtain ⟨⟨hseq, hrun, hopened, hon, hholders⟩, -⟩ :=
      @evictFrom_spec b.blocks { b with limit := max minBytes (min asked.toNat maxBytes) } rfl
    exact ⟨hseq, hrun, hopened, hon, hholders⟩

theorem append_frame (W : World) (b : LogBook) (line : Line) :
    (b.append W line).run = b.run ∧ (b.append W line).enabled = b.enabled := by
  unfold LogBook.append
  simp only
  split
  · exact ⟨rfl, rfl⟩
  · split_ifs
    · unfold LogBook.pack
      split
      · obtain ⟨⟨-, hrun, -, hon, -⟩, -⟩ := @evictFrom_spec _ _ rfl
        exact ⟨hrun, hon⟩
      · exact ⟨rfl, rfl⟩
    · exact ⟨rfl, rfl⟩

theorem record_frame (W : World) (b : LogBook) (s : Said) :
    (b.record W s).run = b.run ∧ (b.record W s).enabled = b.enabled := by
  unfold LogBook.record
  by_cases hon : b.enabled
  · rw [if_neg (not_not.mpr hon)]
    cases lineOf W (b.seq + 1) s with
    | none => exact ⟨rfl, rfl⟩
    | some line => exact append_frame W b line
  · rw [if_pos hon]
    exact ⟨rfl, rfl⟩

variable {all : List Line} {b : LogBook}

theorem kept_evict (h : Kept all b) : Kept all b.evict := by
  obtain ⟨⟨hseq, -, -, -, -⟩, hsuffix⟩ := @evictFrom_spec b.blocks b rfl
  refine ⟨?_, (held_evict b).trans h.held, fun block hb => h.sound block (hsuffix.subset hb)⟩
  rw [h.numbered]
  exact congrArg (List.range' 1) hseq.symm

theorem kept_resizeTo (h : Kept all b) (asked : Option ℤ) :
    Kept all (b.resizeTo asked) := by
  cases asked with
  | none => exact h
  | some asked => exact kept_evict ⟨h.numbered, h.held, h.sound⟩

theorem kept_drop (h : Kept all b) : Kept all b.drop :=
  ⟨h.numbered, List.nil_suffix, fun _ hb => (by cases hb)⟩

theorem kept_pack {W : World} {b b' : LogBook} (h : Kept all b)
    (hpack : b.pack W = some b') : Kept all b' := by
  unfold LogBook.pack at hpack
  split at hpack
  · next raw packed line rest _ hopened =>
    rw [← Option.some.inj hpack]
    refine kept_evict ⟨h.numbered, ?_, fun block hb => ?_⟩
    · have hheld : held b = b.blocks.flatMap Block.rows ++ (line :: rest) := by rw [held, hopened]
      have hsuffix := h.held
      rw [hheld] at hsuffix
      simpa [held] using hsuffix
    · rcases List.mem_append.mp hb with hb | hb
      · exact h.sound block hb
      · rw [List.mem_singleton.mp hb]
        exact ⟨rfl, by rw [List.getLast?_eq_some_getLast (List.cons_ne_nil line rest)]; rfl⟩
  · cases hpack

theorem kept_packOr {W : World} (h : Kept all b) :
    Kept all ((b.pack W).getD { b with dropped := b.dropped + 1 }) := by
  cases hpack : b.pack W with
  | none => exact ⟨h.numbered, h.held, h.sound⟩
  | some packed => exact kept_pack h hpack

theorem kept_append {W : World} (h : Kept all b) {line : Line}
    (hseq : line.seq = b.seq + 1) : Kept (all ++ [line]) (b.append W line) := by
  have hnumbered : (all ++ [line]).map Line.seq = List.range' 1 line.seq := by
    rw [List.map_append, h.numbered, hseq, List.range'_concat, List.map_singleton, hseq]
    simp [Nat.add_comm]
  have hheld : b.blocks.flatMap Block.rows ++ (b.opened ++ [line]) <:+ all ++ [line] := by
    obtain ⟨pre, hpre⟩ := h.held
    refine ⟨pre, ?_⟩
    rw [← hpre, held]
    simp only [List.append_assoc]
  unfold LogBook.append
  simp only
  split
  · exact ⟨hnumbered, hheld, h.sound⟩
  · next n _ =>
    split_ifs with hfull
    · exact kept_packOr ⟨hnumbered, hheld, h.sound⟩
    · exact ⟨hnumbered, hheld, h.sound⟩

theorem lineOf_seq {W : World} {seq : ℕ} {s : Said} {line : Line} (h : lineOf W seq s = some line) :
    line.seq = seq := by
  unfold lineOf at h
  simp only [Option.bind_eq_bind, Option.bind_eq_some_iff] at h
  obtain ⟨_, _, _, _, _, _, _, _, _, _, h⟩ := h
  rw [← Option.some.inj h]

/-- **What a ring holds is the end of what it recorded**, whatever happens to it. -/
theorem kept_apply {W : World} (h : Kept all b) (op : Op) :
    Kept (all ++ recorded W b op) (b.apply W op) := by
  cases op with
  | record s =>
    show Kept (all ++ if b.enabled then (lineOf W (b.seq + 1) s).toList else []) (b.record W s)
    unfold LogBook.record
    by_cases hon : b.enabled
    · rw [if_pos hon, if_neg (not_not.mpr hon)]
      cases hline : lineOf W (b.seq + 1) s with
      | none =>
        rw [Option.toList_none, List.append_nil]
        exact ⟨h.numbered, h.held, h.sound⟩
      | some line => exact kept_append h (lineOf_seq hline)
    · rw [if_neg hon, if_pos hon, List.append_nil]
      exact h
  | hold holder size =>
    show Kept (all ++ []) _
    rw [List.append_nil]
    show Kept all (b.hold holder size)
    have hsized : Kept all (b.sized size) := by
      cases size with
      | none => exact h
      | some asked => exact kept_resizeTo h asked
    unfold LogBook.hold
    simp only
    split_ifs
    · exact hsized
    · exact ⟨hsized.numbered, hsized.held, hsized.sound⟩
  | release holder =>
    show Kept (all ++ []) _
    rw [List.append_nil]
    show Kept all (b.release holder)
    unfold LogBook.release
    simp only
    split_ifs
    · exact kept_drop ⟨h.numbered, h.held, h.sound⟩
    · exact ⟨h.numbered, h.held, h.sound⟩
  | resize asked =>
    show Kept (all ++ []) _
    rw [List.append_nil]
    exact kept_resizeTo h asked
  | clear =>
    show Kept (all ++ []) _
    rw [List.append_nil]
    exact ⟨h.numbered, List.nil_suffix, fun _ hb => (by cases hb)⟩
  | stop =>
    show Kept (all ++ []) _
    rw [List.append_nil]
    exact kept_drop ⟨h.numbered, h.held, h.sound⟩

theorem kept_new (run : Text) : Kept [] (new run) :=
  ⟨rfl, List.suffix_refl [], fun _ hb => (by cases hb)⟩

/-! ### What an answer holds -/

def Upwards (rows : List Line) : Prop := rows.Pairwise fun x y => x.seq < y.seq

theorem upwards_all (h : Kept all b) : Upwards all := by
  have hpair : (all.map Line.seq).Pairwise (· < ·) := by
    rw [h.numbered]
    exact List.pairwise_lt_range'
  exact List.pairwise_map.mp hpair

theorem upwards_held (h : Kept all b) : Upwards (held b) :=
  (upwards_all h).sublist h.held.sublist

theorem seq_mem (h : Kept all b) {line : Line} (hl : line ∈ all) :
    1 ≤ line.seq ∧ line.seq ≤ b.seq := by
  have hmem := List.mem_map_of_mem (f := Line.seq) hl
  rw [h.numbered, List.mem_range'_1] at hmem
  omega

theorem scan_skip (after bound : ℕ) (keep : Line → Bool) : ∀ (rows out : List Line) (cursor : ℕ),
    scan after bound keep rows out cursor =
      scan after bound keep (rows.filter fun line => decide (after < line.seq)) out cursor
  | [], _, _ => rfl
  | line :: rows, out, cursor => by
    rw [scan]
    by_cases hle : line.seq ≤ after
    · rw [if_pos hle, List.filter_cons_of_neg (by simpa using hle), scan_skip after bound keep rows]
    · rw [if_neg hle, List.filter_cons_of_pos (by simpa using hle), scan, if_neg hle]
      split_ifs
      · rfl
      · exact scan_skip after bound keep rows _ _
      · exact scan_skip after bound keep rows _ _

/-- **What a scan gives**: the matching lines up to where it stops, which is at the end or after a full page. -/
theorem scan_spec {after bound : ℕ} {keep : Line → Bool} : ∀ {rows out : List Line} {cursor : ℕ},
    (∀ line ∈ rows, after < line.seq) →
    ∃ seen rest, rows = seen ++ rest ∧
      (scan after bound keep rows out cursor).1 = out ++ seen.filter keep ∧
      (scan after bound keep rows out cursor).2.1 = (seen.getLast?.map Line.seq).getD cursor ∧
      ((scan after bound keep rows out cursor).2.2 = false → rest = []) ∧
      ((scan after bound keep rows out cursor).2.2 = true → bound ≤ (out ++ seen.filter keep).length)
  | [], out, cursor, _ => ⟨[], [], rfl, by simp [scan], rfl, fun _ => rfl, fun h => by simp [scan] at h⟩
  | line :: rows, out, cursor, hrows => by
    have hline : ¬ line.seq ≤ after := Nat.not_le.mpr (hrows line List.mem_cons_self)
    by_cases hfull : bound ≤ out.length
    · refine ⟨[], line :: rows, rfl, ?_, ?_, ?_, ?_⟩ <;> rw [scan, if_neg hline, if_pos hfull]
      · simp
      · rfl
      · intro h
        cases h
      · intro _
        simpa using hfull
    · obtain ⟨seen, rest, hsplit, hout, hcursor, hend, hmore⟩ := @scan_spec after bound keep rows
        (if keep line then out ++ [line] else out) line.seq fun x hx => hrows x (List.mem_cons_of_mem line hx)
      have hkept : (if keep line then out ++ [line] else out) ++ seen.filter keep =
          out ++ (line :: seen).filter keep := by
        by_cases hk : keep line = true
        · rw [if_pos hk, List.filter_cons_of_pos hk, List.append_assoc, List.singleton_append]
        · rw [if_neg hk, List.filter_cons_of_neg hk]
      refine ⟨line :: seen, rest, by rw [hsplit, List.cons_append], ?_, ?_, ?_, ?_⟩ <;>
        rw [scan, if_neg hline, if_neg hfull]
      · rw [hout, hkept]
      · rw [hcursor]
        cases seen with
        | nil => rfl
        | cons x seen =>
          rw [List.getLast?_cons_cons, List.getLast?_eq_some_getLast (List.cons_ne_nil x seen)]
          rfl
      · exact hend
      · rw [← hkept]
        exact hmore

theorem length_scan {after bound : ℕ} {keep : Line → Bool} : ∀ {rows out : List Line} {cursor : ℕ},
    out.length ≤ bound → (scan after bound keep rows out cursor).1.length ≤ bound
  | [], _, _, h => h
  | line :: rows, out, cursor, h => by
    rw [scan]
    split_ifs with _ hfull
    · exact length_scan h
    · exact h
    · refine length_scan ?_
      rw [List.length_append, List.length_singleton]
      omega
    · exact length_scan h

theorem le_last {rows : List Line} {last : ℕ} (h : Upwards rows)
    (hlast : rows.getLast?.map Line.seq = some last) : ∀ line ∈ rows, line.seq ≤ last := by
  obtain ⟨x, hx, rfl⟩ := Option.map_eq_some_iff.mp hlast
  obtain ⟨front, rfl⟩ := List.getLast?_eq_some_iff.mp hx
  intro line hl
  rcases List.mem_append.mp hl with hl | hl
  · exact Nat.le_of_lt ((List.pairwise_append.mp h).2.2 line hl x List.mem_cons_self)
  · rw [List.mem_singleton.mp hl]

theorem filter_blocks (after : ℕ) : ∀ {blocks : List Block}, (∀ block ∈ blocks, Sound block) →
    Upwards (blocks.flatMap Block.rows) →
    ((blocks.filter fun block => decide (after < block.last)).flatMap Block.rows).filter
        (fun line => decide (after < line.seq)) =
      (blocks.flatMap Block.rows).filter fun line => decide (after < line.seq)
  | [], _, _ => rfl
  | block :: blocks, hsound, hup => by
    rw [List.flatMap_cons] at hup
    obtain ⟨hblock, hrest, -⟩ := List.pairwise_append.mp hup
    have ih := filter_blocks after (fun x hx => hsound x (List.mem_cons_of_mem block hx)) hrest
    rw [List.flatMap_cons, List.filter_append, ← ih]
    by_cases hlast : after < block.last
    · rw [List.filter_cons_of_pos (by simpa using hlast), List.flatMap_cons, List.filter_append]
    · have hnone : block.rows.filter (fun line => decide (after < line.seq)) = [] := by
        refine List.filter_eq_nil_iff.mpr fun line hl => ?_
        have := le_last hblock (hsound block List.mem_cons_self).2 line hl
        simp only [decide_eq_true_eq]
        omega
      rw [List.filter_cons_of_neg (by simpa using hlast), hnone, List.nil_append]

theorem rows_above (h : Kept all b) (after : ℕ) :
    ((b.blocks.filter fun block => decide (after < block.last)).flatMap Block.rows ++
        b.opened.filter fun line => decide (after < line.seq)).filter
        (fun line => decide (after < line.seq)) =
      (held b).filter fun line => decide (after < line.seq) := by
  have hup : Upwards (b.blocks.flatMap Block.rows) := (List.pairwise_append.mp (upwards_held h)).1
  rw [List.filter_append, filter_blocks after h.sound hup, List.filter_filter, held, List.filter_append]
  simp only [Bool.and_self]

theorem boundOf_pos (limit : Option ℤ) : 1 ≤ boundOf limit := by
  unfold boundOf
  cases limit with
  | none => decide
  | some n =>
    simp only
    split_ifs
    · decide
    · exact Nat.le_max_left _ _

theorem since_few (b : LogBook) (seq : ℕ) (run : Text) (limit : Option ℤ) (keep : Line → Bool) :
    (b.since seq run limit keep).lines.length ≤ maxQuery := by
  have hbound : boundOf limit ≤ maxQuery := by
    unfold boundOf
    split
    · exact Nat.le_refl _
    · split_ifs
      · exact Nat.le_refl _
      · exact max_le (by decide) (Nat.min_le_right _ _)
  exact (length_scan (Nat.zero_le _)).trans hbound

/-- The lines an answer speaks of: above where it starts, up to its cursor. -/
def within (after upto : ℕ) (rows : List Line) : List Line :=
  rows.filter fun line => decide (after < line.seq ∧ line.seq ≤ upto)

theorem filter_cut {seen rest : List Line} {upto : ℕ} {keep : Line → Bool}
    (hseen : ∀ line ∈ seen, keep line = true → line.seq ≤ upto) (hrest : ∀ line ∈ rest, upto < line.seq) :
    ((seen ++ rest).filter fun line => decide (line.seq ≤ upto)).filter keep = seen.filter keep := by
  have hnone : rest.filter (fun line => keep line && decide (line.seq ≤ upto)) = [] := by
    refine List.filter_eq_nil_iff.mpr fun line hl => ?_
    have := hrest line hl
    simp only [Bool.and_eq_true, decide_eq_true_eq, not_and]
    omega
  have hall : seen.filter (fun line => keep line && decide (line.seq ≤ upto)) = seen.filter keep := by
    refine List.filter_congr fun line hl => ?_
    by_cases hk : keep line = true
    · rw [hk, Bool.true_and]
      exact decide_eq_true (hseen line hl hk)
    · rw [Bool.not_eq_true] at hk
      rw [hk, Bool.false_and]
  rw [List.filter_filter, List.filter_append, hall, hnone, List.append_nil]

/-- **What an answer holds**: the matching lines that are held above where it starts, up to its cursor; a cursor
that is not below the number it started from, and not past the newest line. -/
theorem since_spec (h : Kept all b) (seq : ℕ) (run : Text) (limit : Option ℤ)
    (keep : Line → Bool) :
    (b.since seq run limit keep).lines =
        (within (b.startAt seq run) (b.since seq run limit keep).seq (held b)).filter keep ∧
      b.startAt seq run ≤ (b.since seq run limit keep).seq ∧
      (b.since seq run limit keep).seq ≤ max (b.startAt seq run) b.seq := by
  generalize hafter : b.startAt seq run = after
  have hrows := rows_above h after
  have hanswer : ∃ rows, rows.filter (fun line => decide (after < line.seq)) =
        (held b).filter (fun line => decide (after < line.seq)) ∧
      (b.since seq run limit keep).lines = (scan after (boundOf limit) keep rows [] (max after b.seq)).1 ∧
      (b.since seq run limit keep).seq =
        if (scan after (boundOf limit) keep rows [] (max after b.seq)).2.2 then
          ((scan after (boundOf limit) keep rows [] (max after b.seq)).1.getLast?.map Line.seq).getD after
        else (scan after (boundOf limit) keep rows [] (max after b.seq)).2.1 := by
    refine ⟨_, hrows, ?_, ?_⟩ <;>
    · unfold LogBook.since
      rw [hafter]
  obtain ⟨rows, hrows, hlines, hseq⟩ := hanswer
  have hskip := scan_skip after (boundOf limit) keep rows [] (max after b.seq)
  rw [hrows] at hskip
  have habove : ∀ line ∈ (held b).filter (fun line => decide (after < line.seq)), after < line.seq :=
    fun line hl => of_decide_eq_true (List.mem_filter.mp hl).2
  obtain ⟨seen, rest, hsplit, hout, hcursor, hend, hmore⟩ :=
    @scan_spec after (boundOf limit) keep _ [] (max after b.seq) habove
  rw [← hskip, List.nil_append] at hout
  rw [← hskip] at hcursor hend hmore
  rw [List.nil_append] at hmore
  have hup : Upwards (seen ++ rest) := by
    rw [← hsplit]
    exact (upwards_held h).filter _
  have hwithin : ∀ upto, within after upto (held b) =
      (seen ++ rest).filter fun line => decide (line.seq ≤ upto) := by
    intro upto
    rw [← hsplit, List.filter_filter, within]
    refine List.filter_congr fun line _ => ?_
    rw [Bool.decide_and, Bool.and_comm]
  have hmem : ∀ line ∈ seen, after < line.seq ∧ line.seq ≤ b.seq := by
    intro line hl
    have hin : line ∈ (held b).filter fun line => decide (after < line.seq) := by
      rw [hsplit]
      exact List.mem_append_left rest hl
    obtain ⟨hheld, hgt⟩ := List.mem_filter.mp hin
    exact ⟨of_decide_eq_true hgt, (seq_mem h (h.held.subset hheld)).2⟩
  rw [hlines, hseq, hout]
  generalize scan after (boundOf limit) keep rows [] (max after b.seq) = result at *
  cases hflag : result.2.2 with
  | false =>
    obtain rfl := hend hflag
    have hlast : ∀ last, seen.getLast?.map Line.seq = some last →
        (∀ line ∈ seen, line.seq ≤ last) ∧ after < last ∧ last ≤ b.seq := by
      intro last hlast
      obtain ⟨x, hx, rfl⟩ := Option.map_eq_some_iff.mp hlast
      rw [List.append_nil] at hup
      exact ⟨le_last hup hlast, hmem x (List.mem_of_getLast? hx)⟩
    simp only [Bool.false_eq_true, if_false]
    rw [hcursor, hwithin]
    cases hget : seen.getLast?.map Line.seq with
    | none =>
      rw [Option.getD_none]
      refine ⟨?_, Nat.le_max_left _ _, Nat.le_refl _⟩
      rw [filter_cut (fun line hl _ => ?_) fun line hl => (by cases hl)]
      have := (hmem line hl).2
      omega
    | some last =>
      obtain ⟨hle, hgt, hmax⟩ := hlast last hget
      rw [Option.getD_some]
      refine ⟨?_, Nat.le_of_lt hgt, by omega⟩
      rw [filter_cut (fun line hl _ => hle line hl) fun line hl => (by cases hl)]
  | true =>
    have hlong := Nat.le_trans (boundOf_pos limit) (hmore hflag)
    have hne : seen.filter keep ≠ [] := List.ne_nil_of_length_pos hlong
    have hlast := List.getLast?_eq_some_getLast hne
    generalize (seen.filter keep).getLast hne = last at hlast
    have hin := (List.mem_filter.mp (List.mem_of_getLast? hlast)).1
    have hupseen : Upwards seen := (List.pairwise_append.mp hup).1
    have hle : ∀ line ∈ seen.filter keep, line.seq ≤ last.seq :=
      le_last (hupseen.filter _) (by rw [hlast, Option.map_some])
    simp only [if_true]
    rw [hlast, Option.map_some, Option.getD_some, hwithin]
    refine ⟨?_, Nat.le_of_lt (hmem last hin).1, by have := (hmem last hin).2; omega⟩
    rw [filter_cut (fun line hl hk => hle line (List.mem_filter.mpr ⟨hl, hk⟩)) fun line hl => ?_]
    exact (List.pairwise_append.mp hup).2.2 last hin line hl

theorem since_lost (b : LogBook) (seq : ℕ) (run : Text) (limit : Option ℤ) (keep : Line → Bool) :
    (b.since seq run limit keep).lost =
      if b.startAt seq run ≠ 0 ∧ b.oldest ≠ 0 then b.oldest - b.startAt seq run - 1 else 0 := rfl

theorem oldest_eq (h : Kept all b) :
    b.oldest = ((held b).head?.map Line.seq).getD 0 := by
  unfold LogBook.oldest held
  cases hblocks : b.blocks with
  | nil =>
    cases b.opened with
    | nil | cons line rest => rfl
  | cons block blocks =>
    have hsound := (h.sound block (by rw [hblocks]; exact List.mem_cons_self)).1
    obtain ⟨line, hline, hfirst⟩ := Option.map_eq_some_iff.mp hsound
    obtain ⟨rest, hrest⟩ := List.head?_eq_some_iff.mp hline
    simp only [List.flatMap_cons, hrest, List.cons_append, List.head?_cons, Option.map_some,
      Option.getD_some]
    exact hfirst.symm

theorem held_or_older (h : Kept all b) {line : Line} (hl : line ∈ all) :
    line ∈ held b ∨ held b = [] ∨ line.seq < b.oldest := by
  obtain ⟨pre, hpre⟩ := h.held
  have hup := upwards_all h
  rw [← hpre] at hup hl
  rcases List.mem_append.mp hl with hl | hl
  · rw [oldest_eq h]
    cases hheld : held b with
    | nil => exact Or.inr (Or.inl rfl)
    | cons x rest =>
      rw [hheld] at hup
      exact Or.inr (Or.inr ((List.pairwise_append.mp hup).2.2 line hl x List.mem_cons_self))
  · exact Or.inl hl

end NMesh.Logs.Book
