import NMesh.Base.Runs
import NMesh.Logs.Book

/-! # The fleet's copy of the logs it reads

An archive keeps a ring for each node it hears from, the highest number it took of it and the run that number
belongs to. As long as a page is of the run the archive knows or of a new one, with its lines in order and none
that was skipped before, every line is kept once and none is dropped, and the rings of the other nodes stay
(`kept_once`). A page of an earlier run is taken a second time (`kept_twice`). -/

namespace NMesh.Logs.Archive

open Base.Utf8 Base.Ordered Base.JsonText Base.Runs NMesh.Logs.Book

/-- What Python brings in: what the rings need, and `int(value or 0)` of what JSON holds (0 where it
raises). -/
structure World where
  rings : Book.World
  int : Json → ℤ

def maxNodes : ℕ := 128

/-- The rings, the highest number and the run of each, when each was heard, and the sizes. -/
structure LogArchive where
  books : Dict Text LogBook
  seen : Dict Text ℤ
  runs : Dict Text Text
  touched : Dict Text ℕ
  sizes : Dict Text ℤ
  default : ℤ

def empty (default : ℤ) : LogArchive := ⟨.empty, .empty, .empty, .empty, .empty, default⟩

/-- One page of a node, and when it comes: by the monotonic clock, by the wall clock as text, and the name a
new ring would have. -/
structure Page where
  node : Text
  lines : List Json
  lost : ℤ
  run : Text
  now : ℕ
  time : Text
  token : Text

/-! ### The rings -/

namespace LogArchive

def forget (a : LogArchive) (node : Text) : LogArchive :=
  { a with books := a.books.pop node, touched := a.touched.pop node, seen := a.seen.pop node,
           runs := a.runs.pop node }

/-- The node heard longest ago; of two, the one that came first. -/
def quietest : List (Text × ℕ) → Option (Text × ℕ)
  | [] => none
  | e :: rest =>
    match quietest rest with
    | none => some e
    | some other => if other.2 < e.2 then some other else some e

def dropQuietest (a : LogArchive) : LogArchive :=
  match quietest a.touched.entries with
  | none => { a with books := .empty }
  | some e => a.forget e.1

/-- Drop nodes while there are too many; each takes one away. -/
def makeRoom : ℕ → LogArchive → LogArchive
  | 0, a => a
  | n + 1, a => if maxNodes ≤ a.books.size then makeRoom n a.dropQuietest else a

def newBook (a : LogArchive) (node token : Text) : LogBook :=
  (Book.new token).hold (ascii "operator") (some (some ((a.sizes.get? node).getD a.default)))

def book (a : LogArchive) (p : Page) : LogArchive × LogBook :=
  match a.books.get? p.node with
  | some b => ({ a with touched := a.touched.set p.node p.now }, b)
  | none =>
    let a := makeRoom a.books.size a
    let b := a.newBook p.node p.token
    ({ a with books := a.books.set p.node b, touched := a.touched.set p.node p.now }, b)

/-- The ring a page goes into; a held node's time is set at the end. -/
def found (a : LogArchive) (p : Page) : LogArchive × LogBook :=
  match a.books.get? p.node with
  | some b => (a, b)
  | none => a.book p

end LogArchive

/-! ### Taking a page in -/

section Absorb

variable (W : World)

def field (members : List (Text × Json)) (key : String) : Json := (getL (ascii key) members).getD .null

def numberOf (members : List (Text × Json)) : ℤ := W.int (field members "seq")

/-- A line as it is recorded here: the node's number and time go into its fields. -/
def saidOf (time : Text) (members : List (Text × Json)) : Said where
  time := time
  source := field members "source"
  message := field members "message"
  level := field members "level"
  topic := field members "topic"
  fields := .obj (setL (ascii "said_at") (field members "at") (setL (ascii "seq") (.int (numberOf W members))
    (match field members "fields" with
      | .obj fields => fields
      | _ => [])))

/-- What the archive itself says, about a restart or a gap. -/
def remark (time : Text) (message : Text) (topic : String) : Said :=
  ⟨time, .str (ascii "fleet"), .str message, .str (ascii "warn"), .str (ascii topic), .null⟩

/-- The ring, the highest number so far, the lines that were recorded, each with its number if it came with the
page, and how many lines were taken. -/
structure Taken where
  book : LogBook
  highest : ℤ
  log : List (Line × Option ℤ)
  kept : ℕ

/-- Record a line, said by the archive itself or with the number of a node. -/
def Taken.put (t : Taken) (s : Said) (number : Option ℤ) : Taken :=
  { t with book := t.book.record W.rings s
           log := t.log ++ (recorded W.rings t.book (.record s)).map (·, number) }

/-- One line of a page; one that is not above the highest number is held already. -/
def takeLine (time : Text) (t : Taken) : Json → Taken
  | .obj members =>
    let seq := numberOf W members
    if seq ≠ 0 ∧ seq ≤ t.highest then t
    else { t.put W (saidOf W time members) (some seq) with highest := max t.highest seq, kept := t.kept + 1 }
  | _ => t

/-- A page of another run than the one known of its node. -/
def changed (a : LogArchive) (p : Page) : Bool := p.run ≠ [] ∧ p.run ≠ (a.runs.get? p.node).getD []

/-- Where a page starts: numbers that are seen are those of the run it is of. -/
def start (a : LogArchive) (b : LogBook) (p : Page) : Taken :=
  ⟨b, if changed a p then 0 else (a.seen.get? p.node).getD 0, [], 0⟩

def restarted (a : LogArchive) (b : LogBook) (p : Page) : Taken :=
  if changed a p ∧ (a.runs.get? p.node).getD [] ≠ [] then
    (start a b p).put W (remark p.time (ascii "this machine restarted; its log starts again here") "restart") none
  else start a b p

def opening (a : LogArchive) (b : LogBook) (p : Page) : Taken :=
  if p.lost ≠ 0 then
    (restarted W a b p).put W (remark p.time (dumpInt p.lost ++ ascii " lines were lost before this one") "gap") none
  else restarted W a b p

/-- `absorb(…)`: the archive afterwards, and what was taken. -/
def absorb (a : LogArchive) (p : Page) : LogArchive × Taken :=
  let (a, b) := a.found p
  let t := (p.lines.take maxQuery).foldl (takeLine W p.time) (opening W a b p)
  ({ a with
      books := a.books.set p.node t.book
      runs := let runs := if p.run = [] then a.runs else a.runs.set p.node p.run
        Dict.makeRoom (maxNodes + 1) runs.size runs
      seen := a.seen.set p.node t.highest
      touched := a.touched.set p.node p.now }, t)

end Absorb

/-! ### The tables -/

/-- **The invariant of the tables**: a ring for each node that was heard, and not too many. -/
structure Tables (a : LogArchive) : Prop where
  heard : ∀ node, node ∈ a.books.keys ↔ node ∈ a.touched.keys
  seen : ∀ node ∈ a.seen.keys, node ∈ a.books.keys
  runs : ∀ node ∈ a.runs.keys, node ∈ a.books.keys
  few : a.books.size ≤ maxNodes
  on : ∀ node b, a.books.get? node = some b → b.enabled = true

theorem tables_empty (default : ℤ) : Tables (empty default) := by
  refine ⟨fun _ => Iff.rfl, fun _ h => ?_, fun _ h => ?_, Nat.zero_le _, fun _ _ h => ?_⟩ <;> cases h

theorem quietest_spec : ∀ {l : List (Text × ℕ)} {e : Text × ℕ}, LogArchive.quietest l = some e →
    e ∈ l ∧ ∀ x ∈ l, e.2 ≤ x.2
  | [], _, h => by cases h
  | e :: rest, e', h => by
    rw [LogArchive.quietest] at h
    cases hrest : LogArchive.quietest rest with
    | none =>
      rw [hrest] at h
      cases h
      cases rest with
      | nil => exact ⟨List.mem_cons_self, fun x hx => by rw [List.mem_singleton.mp hx]⟩
      | cons x rest =>
        exfalso
        rw [LogArchive.quietest] at hrest
        split at hrest
        · cases hrest
        · split_ifs at hrest
    | some other =>
      obtain ⟨hmem, hle⟩ := quietest_spec hrest
      rw [hrest] at h
      simp only at h
      split_ifs at h with hlt
      · cases h
        refine ⟨List.mem_cons_of_mem e hmem, fun x hx => ?_⟩
        rcases List.mem_cons.mp hx with rfl | hx
        · exact Nat.le_of_lt hlt
        · exact hle x hx
      · cases h
        refine ⟨List.mem_cons_self, fun x hx => ?_⟩
        rcases List.mem_cons.mp hx with rfl | hx
        · exact Nat.le_refl _
        · have := hle x hx
          omega

variable {a : LogArchive}

theorem tables_forget (h : Tables a) (node : Text) : Tables (a.forget node) := by
  refine ⟨fun x => ?_, fun x hx => ?_, fun x hx => ?_, ?_, fun x b hb => ?_⟩
  · show x ∈ (a.books.pop node).keys ↔ x ∈ (a.touched.pop node).keys
    rw [Dict.mem_keys_pop, Dict.mem_keys_pop, h.heard x]
  · obtain ⟨hx, hne⟩ := Dict.mem_keys_pop.mp hx
    exact Dict.mem_keys_pop.mpr ⟨h.seen x hx, hne⟩
  · obtain ⟨hx, hne⟩ := Dict.mem_keys_pop.mp hx
    exact Dict.mem_keys_pop.mpr ⟨h.runs x hx, hne⟩
  · exact Nat.le_trans (Dict.size_pop_le _ _) h.few
  · exact h.on x b (Dict.get?_of_pop hb).2

theorem size_touched (h : Tables a) : a.touched.size = a.books.size := by
  rw [Dict.size_eq, Dict.size_eq]
  refine List.Perm.length_eq ?_
  exact (List.perm_ext_iff_of_nodup a.touched.nodup_keys a.books.nodup_keys).mpr fun x => (h.heard x).symm

/-- **Making room**: nothing goes while there is room, else the node heard longest ago. -/
theorem makeRoom_spec (h : Tables a) {n : ℕ} (hn : 1 ≤ n) :
    a.books.size < maxNodes ∧ LogArchive.makeRoom n a = a ∨
      ∃ e ∈ a.touched.entries, (∀ x ∈ a.touched.entries, e.2 ≤ x.2) ∧ a.books.size = maxNodes ∧
        LogArchive.makeRoom n a = a.forget e.1 := by
  obtain ⟨n, rfl⟩ : ∃ k, n = k + 1 := ⟨n - 1, by omega⟩
  rw [LogArchive.makeRoom]
  by_cases hfull : maxNodes ≤ a.books.size
  · have hsize : a.books.size = maxNodes := Nat.le_antisymm h.few hfull
    rw [if_pos hfull]
    cases hq : LogArchive.quietest a.touched.entries with
    | none =>
      exfalso
      have hlen : a.touched.entries.length = maxNodes := by
        rw [← hsize, ← size_touched h]
        rfl
      cases hentries : a.touched.entries with
      | nil =>
        rw [hentries] at hlen
        exact absurd hlen (by decide)
      | cons e rest =>
        rw [hentries, LogArchive.quietest] at hq
        split at hq
        · cases hq
        · split_ifs at hq
    | some e =>
      obtain ⟨hmem, hle⟩ := quietest_spec hq
      refine Or.inr ⟨e, hmem, hle, hsize, ?_⟩
      have hdrop : a.dropQuietest = a.forget e.1 := by
        unfold LogArchive.dropQuietest
        rw [hq]
      have hkey : e.1 ∈ a.books.keys := (h.heard e.1).mpr (List.mem_map_of_mem hmem)
      have hless : (a.forget e.1).books.size + 1 = a.books.size := Dict.size_pop hkey
      rw [hdrop]
      cases n with
      | zero => rfl
      | succ n =>
        rw [LogArchive.makeRoom, if_neg (by omega)]
  · rw [if_neg hfull]
    exact Or.inl ⟨Nat.lt_of_not_le hfull, rfl⟩

theorem enabled_newBook (a : LogArchive) (node token : Text) : (a.newBook node token).enabled = true := by
  unfold LogArchive.newBook LogBook.hold LogBook.sized
  simp only
  have hholders := (same_resizeTo (Book.new token) (some ((a.sizes.get? node).getD a.default))).holders
  have hfree : ¬ maxHolders ≤ (Book.new token).holders.length := Nat.not_le.mpr (Nat.zero_lt_succ 7)
  rw [hholders, if_neg fun hfull => hfree hfull.2]

theorem kept_newBook (W : Book.World) (a : LogArchive) (node token : Text) : Kept [] (a.newBook node token) :=
  @kept_apply _ _ W (kept_new token) (.hold (ascii "operator") (some (some ((a.sizes.get? node).getD a.default))))

/-- What went to make room: nothing, or the node heard longest ago, of as many as there may be. -/
def Gone (a a' : LogArchive) : Prop :=
  a' = a ∨ ∃ e ∈ a.touched.entries, (∀ x ∈ a.touched.entries, e.2 ≤ x.2) ∧ a.books.size = maxNodes ∧
    a' = a.forget e.1

/-- **Where a page goes**: into the ring of its node, which is new if there was none. -/
theorem found_spec (W : Book.World) (h : Tables a) (p : Page) :
    (∃ b, a.books.get? p.node = some b ∧ a.found p = (a, b)) ∨
      p.node ∉ a.books.keys ∧ ∃ a' b, Tables a' ∧ Gone a a' ∧ a'.books.size < maxNodes ∧
        p.node ∉ a'.books.keys ∧ b.enabled = true ∧ Kept [] b ∧
        a.found p = ({ a' with books := a'.books.set p.node b, touched := a'.touched.set p.node p.now }, b) := by
  cases hget : a.books.get? p.node with
  | some b =>
    refine Or.inl ⟨b, rfl, ?_⟩
    unfold LogArchive.found
    rw [hget]
  | none =>
    have hnew : p.node ∉ a.books.keys := Dict.get?_eq_none.mp hget
    have hfound : a.found p = ({ LogArchive.makeRoom a.books.size a with
        books := (LogArchive.makeRoom a.books.size a).books.set p.node
          ((LogArchive.makeRoom a.books.size a).newBook p.node p.token)
        touched := (LogArchive.makeRoom a.books.size a).touched.set p.node p.now },
        (LogArchive.makeRoom a.books.size a).newBook p.node p.token) := by
      unfold LogArchive.found LogArchive.book
      rw [hget]
    refine Or.inr ⟨hnew, LogArchive.makeRoom a.books.size a,
      (LogArchive.makeRoom a.books.size a).newBook p.node p.token, ?_⟩
    have hroom : Tables (LogArchive.makeRoom a.books.size a) ∧ Gone a (LogArchive.makeRoom a.books.size a) ∧
        (LogArchive.makeRoom a.books.size a).books.size < maxNodes ∧
        p.node ∉ (LogArchive.makeRoom a.books.size a).books.keys := by
      by_cases hempty : a.books.size = 0
      · have hsame : LogArchive.makeRoom a.books.size a = a := by
          rw [hempty]
          rfl
        rw [hsame]
        exact ⟨h, Or.inl rfl, by rw [hempty]; decide, hnew⟩
      · rcases makeRoom_spec h (Nat.pos_of_ne_zero hempty) with ⟨hlt, hsame⟩ | ⟨e, hmem, hle, hsize, hforget⟩
        · rw [hsame]
          exact ⟨h, Or.inl rfl, hlt, hnew⟩
        · rw [hforget]
          have hkey : e.1 ∈ a.books.keys := (h.heard e.1).mpr (List.mem_map_of_mem hmem)
          have hless : (a.forget e.1).books.size + 1 = a.books.size := Dict.size_pop hkey
          exact ⟨tables_forget h e.1, Or.inr ⟨e, hmem, hle, hsize, rfl⟩, by omega,
            fun hin => hnew (Dict.mem_keys_pop.mp hin).1⟩
    exact ⟨hroom.1, hroom.2.1, hroom.2.2.1, hroom.2.2.2, enabled_newBook _ _ _, kept_newBook W _ _ _, hfound⟩

theorem tables_set (h : Tables a) (hsize : a.books.size < maxNodes) {node : Text}
    {b : LogBook} (hon : b.enabled = true) (now : ℕ) :
    Tables { a with books := a.books.set node b, touched := a.touched.set node now } := by
  refine ⟨fun x => ?_, fun x hx => ?_, fun x hx => ?_, ?_, fun x b' hb => ?_⟩
  · rw [Dict.mem_keys_set, Dict.mem_keys_set, h.heard x]
  · exact Dict.mem_keys_set.mpr (Or.inr (h.seen x hx))
  · exact Dict.mem_keys_set.mpr (Or.inr (h.runs x hx))
  · show (a.books.set node b).size ≤ maxNodes
    exact Dict.size_set_le h.few fun hk => by omega
  · exact Dict.all_set h.on hon x b' hb

theorem tables_found (W : Book.World) (h : Tables a) (p : Page) :
    Tables (a.found p).1 ∧ (a.found p).1.books.get? p.node = some (a.found p).2 ∧
      (a.found p).2.enabled = true := by
  rcases found_spec W h p with ⟨b, hget, hfound⟩ | ⟨-, a', b, htables, -, hsize, -, hon, -, hfound⟩
  · rw [hfound]
    exact ⟨h, hget, h.on _ _ hget⟩
  · rw [hfound]
    exact ⟨tables_set htables hsize hon p.now, Dict.get?_set_self _ _ _, hon⟩

/-! ### One page -/

section Page

variable {W : World}

theorem enabled_takeLine (time : Text) (t : Taken) (line : Json) :
    (takeLine W time t line).book.enabled = t.book.enabled := by
  unfold takeLine
  split
  · simp only
    split_ifs
    · rfl
    · exact (record_frame _ _ _).2
  · rfl

theorem enabled_lines (time : Text) : ∀ (lines : List Json) (t : Taken),
    (lines.foldl (takeLine W time) t).book.enabled = t.book.enabled
  | [], _ => rfl
  | line :: lines, t => by
    rw [List.foldl_cons, enabled_lines time lines, enabled_takeLine]

theorem enabled_opening (a : LogArchive) (b : LogBook) (p : Page) :
    (opening W a b p).book.enabled = b.enabled := by
  have hrestarted : (restarted W a b p).book.enabled = b.enabled := by
    unfold restarted
    split_ifs
    · exact (record_frame _ _ _).2
    · rfl
  unfold opening
  split_ifs
  · exact (record_frame _ _ _).2.trans hrestarted
  · exact hrestarted

/-- **What a ring holds is the end of what was said into it**, before the page and by it. -/
def Grows (all : List Line) (t : Taken) : Prop := Kept (all ++ t.log.map Prod.fst) t.book

variable {all : List Line} {t : Taken}

theorem grows_put (h : Grows all t) (s : Said) (number : Option ℤ) : Grows all (t.put W s number) := by
  show Kept (all ++ (t.log ++ (recorded W.rings t.book (.record s)).map (·, number)).map Prod.fst) _
  have hfst : ((recorded W.rings t.book (.record s)).map (·, number)).map Prod.fst =
      recorded W.rings t.book (.record s) := by
    rw [List.map_map]
    exact List.map_id' _
  rw [List.map_append, hfst, ← List.append_assoc]
  exact kept_apply h (.record s)

theorem grows_takeLine (h : Grows all t) (time : Text) (line : Json) : Grows all (takeLine W time t line) := by
  unfold takeLine
  split
  · next members =>
    simp only
    by_cases hseen : numberOf W members ≠ 0 ∧ numberOf W members ≤ t.highest
    · rw [if_pos hseen]
      exact h
    · rw [if_neg hseen]
      exact grows_put (W := W) h (saidOf W time members) (some (numberOf W members))
  · exact h

variable {time : Text}

theorem grows_lines : ∀ {lines : List Json} {t : Taken}, Grows all t →
    Grows all (lines.foldl (takeLine W time) t)
  | [], _, h => h
  | line :: lines, t, h => by
    rw [List.foldl_cons]
    exact grows_lines (grows_takeLine h time line)

theorem grows_opening {b : LogBook} (h : Kept all b) (a : LogArchive) (p : Page) :
    Grows all (opening W a b p) := by
  have hstart : Grows all (start a b p) := by
    show Kept (all ++ []) b
    rw [List.append_nil]
    exact h
  have hrestarted : Grows all (restarted W a b p) := by
    unfold restarted
    split_ifs
    · exact grows_put hstart _ _
    · exact hstart
  unfold opening
  split_ifs
  · exact grows_put hrestarted _ _
  · exact hrestarted

/-- The numbers of the lines of a page that were recorded. -/
def Taken.numbers (t : Taken) : List ℤ := t.log.filterMap Prod.snd

theorem numbers_put (t : Taken) (s : Said) (number : Option ℤ) :
    (t.put W s number).numbers =
      t.numbers ++ if (recorded W.rings t.book (.record s)).isEmpty then [] else number.toList := by
  show (t.log ++ (recorded W.rings t.book (.record s)).map (·, number)).filterMap Prod.snd = _
  rw [List.filterMap_append]
  congr 1
  have hrecorded : recorded W.rings t.book (.record s) =
      if t.book.enabled then (lineOf W.rings (t.book.seq + 1) s).toList else [] := rfl
  rw [hrecorded]
  by_cases hon : t.book.enabled
  · rw [if_pos hon]
    cases lineOf W.rings (t.book.seq + 1) s with
    | none => rfl
    | some line => cases number <;> rfl
  · rw [if_neg hon]
    rfl

theorem numbers_opening (a : LogArchive) (b : LogBook) (p : Page) :
    (opening W a b p).numbers = [] ∧
      (opening W a b p).highest = if changed a p then 0 else (a.seen.get? p.node).getD 0 := by
  have hnone : ∀ (t : Taken) (s : Said), t.numbers = [] → (t.put W s none).numbers = [] := by
    intro t s ht
    rw [numbers_put, ht]
    split_ifs <;> rfl
  have hrestarted : (restarted W a b p).numbers = [] ∧
      (restarted W a b p).highest = if changed a p then 0 else (a.seen.get? p.node).getD 0 := by
    unfold restarted
    by_cases hsaid : changed a p ∧ (a.runs.get? p.node).getD [] ≠ []
    · rw [if_pos hsaid]
      exact ⟨hnone _ _ rfl, rfl⟩
    · rw [if_neg hsaid]
      exact ⟨rfl, rfl⟩
  unfold opening
  by_cases hlost : p.lost ≠ 0
  · rw [if_pos hlost]
    exact ⟨hnone _ _ hrestarted.1, hrestarted.2⟩
  · rw [if_neg hlost]
    exact hrestarted

variable (W) in
/-- A line of a managed node: it has a number, from one on. -/
def Numbered (line : Json) : Prop := ∃ members, line = .obj members ∧ 1 ≤ numberOf W members

/-- The numbers taken so far rise from where the page started. -/
structure Rising (low : ℤ) (t : Taken) : Prop where
  rising : t.numbers.Pairwise (· < ·)
  between : ∀ n ∈ t.numbers, low < n ∧ n ≤ t.highest
  low : low ≤ t.highest

theorem takeLine_eq (time : Text) {members : List (Text × Json)} (hpos : 1 ≤ numberOf W members) :
    takeLine W time t (.obj members) =
      if numberOf W members ≤ t.highest then t
      else { t.put W (saidOf W time members) (some (numberOf W members)) with
        highest := numberOf W members, kept := t.kept + 1 } := by
  unfold takeLine
  simp only
  by_cases hle : numberOf W members ≤ t.highest
  · rw [if_pos ⟨by omega, hle⟩, if_pos hle]
  · rw [if_neg fun hno => hle hno.2, if_neg hle, max_eq_right (by omega)]

theorem rising_takeLine {low : ℤ} (h : Rising low t) {line : Json}
    (hline : Numbered W line) : Rising low (takeLine W time t line) := by
  obtain ⟨members, rfl, hpos⟩ := hline
  have hlow := h.low
  rw [takeLine_eq time hpos]
  by_cases hle : numberOf W members ≤ t.highest
  · rw [if_pos hle]
    exact h
  · rw [if_neg hle]
    have hnumbers := numbers_put (W := W) t (saidOf W time members) (some (numberOf W members))
    refine ⟨?_, fun n hn => ?_, ?_⟩
    · show (t.put W (saidOf W time members) (some (numberOf W members))).numbers.Pairwise (· < ·)
      rw [hnumbers]
      split_ifs
      · rw [List.append_nil]
        exact h.rising
      · refine List.pairwise_append.mpr ⟨h.rising, List.pairwise_singleton _ _, fun x hx y hy => ?_⟩
        have := (h.between x hx).2
        rw [List.mem_singleton.mp hy]
        omega
    · have hn : n ∈ (t.put W (saidOf W time members) (some (numberOf W members))).numbers := hn
      have hn : n ∈ t.numbers ∨ n = numberOf W members := by
        rw [hnumbers] at hn
        rcases List.mem_append.mp hn with hn | hn
        · exact Or.inl hn
        · split_ifs at hn
          · cases hn
          · exact Or.inr (List.mem_singleton.mp hn)
      show low < n ∧ n ≤ numberOf W members
      rcases hn with hn | rfl
      · have := h.between n hn
        omega
      · omega
    · show low ≤ numberOf W members
      omega

theorem rising_lines {low : ℤ} : ∀ {lines : List Json} {t : Taken}, Rising low t →
    (∀ line ∈ lines, Numbered W line) → Rising low (lines.foldl (takeLine W time) t)
  | [], _, h, _ => h
  | line :: lines, t, h, hlines => by
    rw [List.foldl_cons]
    exact rising_lines (rising_takeLine h (hlines line List.mem_cons_self))
      fun x hx => hlines x (List.mem_cons_of_mem line hx)

variable (W) in
def Cleanable (time : Text) (line : Json) : Prop :=
  ∀ members, line = .obj members → ∀ seq, (lineOf W.rings seq (saidOf W time members)).isSome = true

variable (W) in
def lineNumber : Json → ℤ
  | .obj members => numberOf W members
  | _ => 0

theorem mem_lines {n : ℤ} : ∀ {lines : List Json} {t : Taken}, n ∈ t.numbers →
    n ∈ (lines.foldl (takeLine W time) t).numbers
  | [], _, h => h
  | line :: lines, t, h => by
    rw [List.foldl_cons]
    refine mem_lines ?_
    unfold takeLine
    split
    · simp only
      split_ifs
      · exact h
      · show n ∈ (t.put W _ _).numbers
        rw [numbers_put]
        exact List.mem_append_left _ h
    · exact h

/-- **Lines in order are all taken**: each that is above where the page started is recorded. -/
theorem taken_lines {low : ℤ} : ∀ {lines : List Json} {t : Taken}, t.book.enabled = true →
    (∀ line ∈ lines, Numbered W line ∧ Cleanable W time line) →
    (lines.map (lineNumber W)).Pairwise (· ≤ ·) →
    (t.highest = low ∨ t.highest ∈ t.numbers ∧ ∀ line ∈ lines, t.highest ≤ lineNumber W line) →
    ∀ line ∈ lines, low < lineNumber W line →
      lineNumber W line ∈ (lines.foldl (takeLine W time) t).numbers
  | [], _, _, _, _, _, _, hl, _ => by cases hl
  | first :: lines, t, hon, hlines, hsorted, htop, line, hl, hlow => by
    obtain ⟨⟨members, rfl, hpos⟩, hclean⟩ := hlines first List.mem_cons_self
    rw [List.map_cons, List.pairwise_cons] at hsorted
    have hrest : ∀ x ∈ lines, Numbered W x ∧ Cleanable W time x := fun x hx =>
      hlines x (List.mem_cons_of_mem _ hx)
    have hafter : ∀ x ∈ lines, numberOf W members ≤ lineNumber W x := fun x hx =>
      hsorted.1 _ (List.mem_map_of_mem hx)
    rw [List.foldl_cons, takeLine_eq time hpos]
    by_cases hle : numberOf W members ≤ t.highest
    · rw [if_pos hle]
      have htop' : t.highest = low ∨ t.highest ∈ t.numbers ∧ ∀ x ∈ lines, t.highest ≤ lineNumber W x := by
        rcases htop with htop | ⟨hmem, hall⟩
        · exact Or.inl htop
        · exact Or.inr ⟨hmem, fun x hx => hall x (List.mem_cons_of_mem _ hx)⟩
      rcases List.mem_cons.mp hl with rfl | hl
      · rcases htop with htop | ⟨hmem, hall⟩
        · have hlow : low < numberOf W members := hlow
          omega
        · have hge : t.highest ≤ numberOf W members := hall _ List.mem_cons_self
          refine mem_lines ?_
          show numberOf W members ∈ t.numbers
          rw [le_antisymm hle hge]
          exact hmem
      · exact taken_lines hon hrest hsorted.2 htop' line hl hlow
    · have hrecorded : (recorded W.rings t.book (.record (saidOf W time members))).isEmpty = false := by
        show (if t.book.enabled then (lineOf _ _ _).toList else []).isEmpty = false
        rw [if_pos hon]
        obtain ⟨x, hx⟩ := Option.isSome_iff_exists.mp (hclean members rfl (t.book.seq + 1))
        rw [hx]
        rfl
      have hnumbers := numbers_put (W := W) t (saidOf W time members) (some (numberOf W members))
      rw [hrecorded, if_neg Bool.false_ne_true] at hnumbers
      have hmem : numberOf W members ∈
          (t.put W (saidOf W time members) (some (numberOf W members))).numbers := by
        rw [hnumbers]
        exact List.mem_append_right _ List.mem_cons_self
      rw [if_neg hle]
      rcases List.mem_cons.mp hl with rfl | hl
      · exact mem_lines hmem
      · refine taken_lines ?_ hrest hsorted.2 (Or.inr ⟨hmem, hafter⟩) line hl hlow
        show (t.book.record W.rings _).enabled = true
        rw [(record_frame _ _ _).2]
        exact hon

end Page

/-! ### Where a page goes -/

def LogArchive.runOf (a : LogArchive) (node : Text) : Text := (a.runs.get? node).getD []

def LogArchive.seenOf (a : LogArchive) (node : Text) : ℤ := (a.seen.get? node).getD 0

/-- The archive once a page has its ring: the nodes that are still there are as they were. -/
structure Found (a : LogArchive) (p : Page) (a' : LogArchive) (b : LogBook) : Prop where
  tables : Tables a'
  ring : a'.books.get? p.node = some b
  others : ∀ m ≠ p.node, m ∈ a'.books.keys → m ∈ a.books.keys ∧ a'.books.get? m = a.books.get? m ∧
    a'.runs.get? m = a.runs.get? m ∧ a'.seen.get? m = a.seen.get? m
  own : p.node ∈ a.books.keys ∧ a' = a ∨
    p.node ∉ a.books.keys ∧ Kept [] b ∧ a'.runOf p.node = [] ∧ a'.seenOf p.node = 0

theorem found_found (W : Book.World) (h : Tables a) (p : Page) : Found a p (a.found p).1 (a.found p).2 := by
  obtain ⟨htables, hring, -⟩ := tables_found W h p
  refine ⟨htables, hring, fun m hne hm => ?_, ?_⟩
  · rcases found_spec W h p with ⟨b, hget, hfound⟩ | ⟨-, a', b, -, hgone, -, -, -, -, hfound⟩
    · rw [hfound] at hm ⊢
      exact ⟨hm, rfl, rfl, rfl⟩
    · rw [hfound] at hm ⊢
      have hm : m ∈ a'.books.keys := (Dict.mem_keys_set.mp hm).resolve_left hne
      show m ∈ a.books.keys ∧ (a'.books.set p.node b).get? m = a.books.get? m ∧
        a'.runs.get? m = a.runs.get? m ∧ a'.seen.get? m = a.seen.get? m
      rw [Dict.get?_set_of_ne _ hne.symm]
      rcases hgone with rfl | ⟨e, -, -, -, rfl⟩
      · exact ⟨hm, rfl, rfl, rfl⟩
      · obtain ⟨hm, hother⟩ := Dict.mem_keys_pop.mp hm
        exact ⟨hm, Dict.get?_pop_of_ne _ hother, Dict.get?_pop_of_ne _ hother, Dict.get?_pop_of_ne _ hother⟩
  · rcases found_spec W h p with ⟨b, hget, hfound⟩ | ⟨hnew, a', b, htab, -, -, hnot, -, hkept, hfound⟩
    · rw [hfound]
      exact Or.inl ⟨Dict.mem_keys_of_get? hget, rfl⟩
    · rw [hfound]
      refine Or.inr ⟨hnew, hkept, ?_, ?_⟩
      · show (a'.runs.get? p.node).getD [] = []
        rw [Dict.get?_eq_none.mpr fun hin => hnot (htab.runs _ hin)]
        rfl
      · show (a'.seen.get? p.node).getD 0 = 0
        rw [Dict.get?_eq_none.mpr fun hin => hnot (htab.seen _ hin)]
        rfl

section Absorbed

variable (W : World)

/-- What a page leads to, in the archive that has its ring. -/
def taken (a : LogArchive) (p : Page) : Taken :=
  (p.lines.take maxQuery).foldl (takeLine W p.time) (opening W (a.found p).1 (a.found p).2 p)

variable {W}

variable {a : LogArchive}

theorem size_runs (h : Tables a) : a.runs.size ≤ a.books.size := by
  rw [Dict.size_eq, Dict.size_eq]
  exact (List.subperm_of_subset a.runs.nodup_keys h.runs).length_le

theorem absorb_eq (h : Tables a) (p : Page) : absorb W a p = ({ (a.found p).1 with
      books := (a.found p).1.books.set p.node (taken W a p).book
      runs := if p.run = [] then (a.found p).1.runs else (a.found p).1.runs.set p.node p.run
      seen := (a.found p).1.seen.set p.node (taken W a p).highest
      touched := (a.found p).1.touched.set p.node p.now }, taken W a p) := by
  obtain ⟨htables, hring, -⟩ := tables_found W.rings h p
  have hsize := size_runs htables
  have hfew := htables.few
  have hroom : (if p.run = [] then (a.found p).1.runs else (a.found p).1.runs.set p.node p.run).size <
      maxNodes + 1 := by
    split_ifs
    · omega
    · by_cases hin : p.node ∈ (a.found p).1.runs.keys
      · rw [Dict.size_set_of_mem hin]
        omega
      · -- a node without a run has a ring, so there are fewer runs than rings
        rw [Dict.size_set_of_notMem hin]
        have hsub : (p.node :: (a.found p).1.runs.keys) ⊆ (a.found p).1.books.keys := by
          intro x hx
          rcases List.mem_cons.mp hx with rfl | hx
          · exact Dict.mem_keys_of_get? hring
          · exact htables.runs x hx
        have hlen := (List.subperm_of_subset
          (List.nodup_cons.mpr ⟨hin, (a.found p).1.runs.nodup_keys⟩) hsub).length_le
        rw [List.length_cons, ← Dict.size_eq, ← Dict.size_eq] at hlen
        omega
  show (_, _) = _
  refine Prod.ext ?_ rfl
  show LogArchive.mk _ _ _ _ _ _ = LogArchive.mk _ _ _ _ _ _
  congr 1
  exact Dict.makeRoom_of_lt hroom

theorem tables_absorb (h : Tables a) (p : Page) : Tables (absorb W a p).1 := by
  obtain ⟨htables, hring, hon⟩ := tables_found W.rings h p
  have hkey : p.node ∈ (a.found p).1.books.keys := Dict.mem_keys_of_get? hring
  have hmem : ∀ {x}, x ∈ ((a.found p).1.books.set p.node (taken W a p).book).keys ↔
      x ∈ (a.found p).1.books.keys := by
    intro x
    rw [Dict.keys_set_of_mem hkey]
  rw [absorb_eq h]
  refine ⟨fun x => ?_, fun x hx => ?_, fun x hx => ?_, ?_, fun x b hb => ?_⟩
  · show x ∈ (Dict.set _ _ _).keys ↔ x ∈ (Dict.set _ _ _).keys
    rw [Dict.mem_keys_set, Dict.mem_keys_set, htables.heard x]
  · refine hmem.mpr ?_
    rcases Dict.mem_keys_set.mp hx with rfl | hx
    · exact hkey
    · exact htables.seen x hx
  · refine hmem.mpr ?_
    simp only at hx
    split_ifs at hx
    · exact htables.runs x hx
    · rcases Dict.mem_keys_set.mp hx with rfl | hx
      · exact hkey
      · exact htables.runs x hx
  · show (Dict.set _ _ _).size ≤ maxNodes
    rw [Dict.size_set_of_mem hkey]
    exact htables.few
  · refine Dict.all_set htables.on ?_ x b hb
    show (taken W a p).book.enabled = true
    rw [taken, enabled_lines, enabled_opening]
    exact hon

end Absorbed

/-! ### What is kept of every run -/

/-- The archive, and what was said into the ring it has of each node: each line with its run and its number, or
the archive's own remarks. -/
structure State where
  archive : LogArchive
  log : Text → List (Line × Option (Text × ℤ))

def fresh (default : ℤ) : State := ⟨empty default, fun _ => []⟩

def State.pairs (s : State) (node : Text) : List (Text × ℤ) := (s.log node).filterMap Prod.snd

def State.left (s : State) (a : LogArchive) (node : Text) : List (Line × Option (Text × ℤ)) :=
  if node ∈ s.archive.books.keys ∧ node ∈ a.books.keys then s.log node else []

section Step

variable (W : World)

def step (s : State) (p : Page) : State :=
  let r := absorb W s.archive p
  ⟨r.1, Function.update (s.left r.1) p.node
    (s.left r.1 p.node ++ r.2.log.map fun e => (e.1, e.2.map (r.1.runOf p.node, ·)))⟩

/-- What was said is there as long as the ring is. -/
structure Rooted (s : State) : Prop where
  tables : Tables s.archive
  gone : ∀ node ∉ s.archive.books.keys, s.log node = []

/-- **The invariant**: no run and number is kept twice, and those of the known run are not above the highest
number seen. -/
structure Inv (s : State) : Prop extends Rooted s where
  rings : ∀ node b, s.archive.books.get? node = some b → Kept ((s.log node).map Prod.fst) b
  once : ∀ node, (s.pairs node).Nodup
  below : ∀ node n, (s.archive.runOf node, n) ∈ s.pairs node → n ≤ s.archive.seenOf node

/-- A page of a managed node: it names its run, and numbers its lines from one. -/
structure Proper (p : Page) : Prop where
  named : p.run ≠ []
  numbered : ∀ line ∈ p.lines, Numbered W line

/-- The run of a page is the one known, or none of its lines is kept. -/
def Fresh (s : State) (p : Page) : Prop :=
  p.run = s.archive.runOf p.node ∨ ∀ n, (p.run, n) ∉ s.pairs p.node

variable {W}

theorem inv_fresh (default : ℤ) : Inv (fresh default) :=
  ⟨⟨tables_empty default, fun _ _ => rfl⟩, fun _ _ h => (by cases h), fun _ => List.nodup_nil,
    fun _ _ h => (by cases h)⟩

variable {a : LogArchive}

theorem mem_books_absorb (h : Tables a) (p : Page) (m : Text) :
    m ∈ (absorb W a p).1.books.keys ↔ m ∈ (a.found p).1.books.keys := by
  rw [absorb_eq h]
  show m ∈ (Dict.set _ _ _).keys ↔ _
  rw [Dict.keys_set_of_mem (Dict.mem_keys_of_get? (found_found W.rings h p).ring)]

variable {m : Text}

theorem others_absorb (h : Tables a) (p : Page) (hne : m ≠ p.node)
    (hm : m ∈ (absorb W a p).1.books.keys) : m ∈ a.books.keys ∧
      (absorb W a p).1.books.get? m = a.books.get? m ∧ (absorb W a p).1.runOf m = a.runOf m ∧
      (absorb W a p).1.seenOf m = a.seenOf m := by
  rw [mem_books_absorb h] at hm
  obtain ⟨hin, hbook, hrun, hseen⟩ := (found_found W.rings h p).others m hne hm
  rw [absorb_eq h]
  refine ⟨hin, ?_, ?_, ?_⟩
  · show (Dict.set _ _ _).get? m = _
    rw [Dict.get?_set_of_ne _ hne.symm, hbook]
  · show ((if p.run = [] then _ else _ : Dict Text Text).get? m).getD [] = (a.runs.get? m).getD []
    split_ifs
    · rw [hrun]
    · rw [Dict.get?_set_of_ne _ hne.symm, hrun]
  · show ((Dict.set _ _ _).get? m).getD 0 = (a.seen.get? m).getD 0
    rw [Dict.get?_set_of_ne _ hne.symm, hseen]

variable {p : Page}

theorem runOf_absorb (h : Tables a) (hp : Proper W p) : (absorb W a p).1.runOf p.node = p.run := by
  rw [absorb_eq h]
  show ((if p.run = [] then _ else _ : Dict Text Text).get? p.node).getD [] = p.run
  rw [if_neg hp.named, Dict.get?_set_self]
  rfl

theorem seenOf_absorb (h : Tables a) (p : Page) : (absorb W a p).1.seenOf p.node = (taken W a p).highest := by
  rw [absorb_eq h]
  show ((Dict.set _ _ _).get? p.node).getD 0 = _
  rw [Dict.get?_set_self]
  rfl

theorem own_found (V : Book.World) (h : Tables a) (p : Page) :
    (a.found p).1.runOf p.node = a.runOf p.node ∧ (a.found p).1.seenOf p.node = a.seenOf p.node := by
  rcases (found_found V h p).own with ⟨-, hsame⟩ | ⟨hnew, -, hrun, hseen⟩
  · rw [hsame]
    exact ⟨rfl, rfl⟩
  · have hnorun : a.runOf p.node = [] := by
      rw [LogArchive.runOf, Dict.get?_eq_none.mpr fun hin => hnew (h.runs _ hin)]
      rfl
    have hnoseen : a.seenOf p.node = 0 := by
      rw [LogArchive.seenOf, Dict.get?_eq_none.mpr fun hin => hnew (h.seen _ hin)]
      rfl
    rw [hrun, hseen, hnorun, hnoseen]
    exact ⟨rfl, rfl⟩

def low (a : LogArchive) (p : Page) : ℤ := if p.run = a.runOf p.node then a.seenOf p.node else 0

theorem opening_found (h : Tables a) (hp : Proper W p) :
    (opening W (a.found p).1 (a.found p).2 p).numbers = [] ∧
      (opening W (a.found p).1 (a.found p).2 p).highest = low a p := by
  obtain ⟨hrun, hseen⟩ := own_found W.rings h p
  obtain ⟨hnone, hhigh⟩ := numbers_opening (W := W) (a.found p).1 (a.found p).2 p
  refine ⟨hnone, ?_⟩
  rw [hhigh, low, ← hrun, ← hseen]
  by_cases hsame : p.run = (a.found p).1.runOf p.node
  · have hch : changed (a.found p).1 p = false := decide_eq_false fun hch => hch.2 hsame
    rw [if_pos hsame, hch]
    rfl
  · have hch : changed (a.found p).1 p = true := decide_eq_true ⟨hp.named, hsame⟩
    rw [if_neg hsame, if_pos hch]

theorem rising_taken (h : Tables a) (hp : Proper W p) : Rising (low a p) (taken W a p) := by
  obtain ⟨hnone, hhigh⟩ := opening_found h hp
  refine rising_lines ⟨?_, fun n hn => ?_, hhigh.ge⟩ fun line hl => hp.numbered line (List.mem_of_mem_take hl)
  · rw [hnone]
    exact List.Pairwise.nil
  · rw [hnone] at hn
    cases hn

variable {s : State}

theorem left_own (h : Rooted s) (p : Page) : s.left (absorb W s.archive p).1 p.node = s.log p.node := by
  unfold State.left
  by_cases hin : p.node ∈ s.archive.books.keys
  · have hring := (found_found W.rings h.tables p).ring
    rw [if_pos ⟨hin, (mem_books_absorb h.tables p p.node).mpr (Dict.mem_keys_of_get? hring)⟩]
  · rw [if_neg fun hno => hin hno.1, h.gone _ hin]

theorem log_step_own (h : Rooted s) (hp : Proper W p) : (step W s p).log p.node =
      s.log p.node ++ (taken W s.archive p).log.map fun e => (e.1, e.2.map (p.run, ·)) := by
  show Function.update _ p.node _ p.node = _
  rw [Function.update_self, left_own h, runOf_absorb h.tables hp, absorb_eq h.tables]

theorem pairs_step_own (h : Rooted s) (hp : Proper W p) :
    (step W s p).pairs p.node = s.pairs p.node ++ (taken W s.archive p).numbers.map (p.run, ·) := by
  rw [State.pairs, log_step_own h hp, List.filterMap_append]
  congr 1
  rw [List.filterMap_map, Taken.numbers, List.map_filterMap]
  rfl

theorem log_step_other (p : Page) (hne : m ≠ p.node) :
    (step W s p).log m = s.left (absorb W s.archive p).1 m := by
  show Function.update _ p.node _ m = _
  rw [Function.update_of_ne hne]

theorem log_step_mem (h : Rooted s) (p : Page) (hne : m ≠ p.node)
    (hm : m ∈ (absorb W s.archive p).1.books.keys) : (step W s p).log m = s.log m := by
  rw [log_step_other p hne, State.left, if_pos ⟨(others_absorb h.tables p hne hm).1, hm⟩]

theorem log_step_gone (p : Page) (hne : m ≠ p.node)
    (hm : m ∉ (absorb W s.archive p).1.books.keys) : (step W s p).log m = [] := by
  rw [log_step_other p hne, State.left, if_neg fun hno => hm hno.2]

theorem kept_taken (h : Inv s) (p : Page) :
    Kept ((s.log p.node).map Prod.fst ++ (taken W s.archive p).log.map Prod.fst)
      (taken W s.archive p).book := by
  have hfound := found_found W.rings h.tables p
  refine grows_lines (grows_opening ?_ _ _)
  rcases hfound.own with ⟨-, hsame⟩ | ⟨hnew, hkept, -, -⟩
  · refine h.rings p.node _ ?_
    rw [← hfound.ring, hsame]
  · rw [h.gone _ hnew]
    exact hkept

theorem once_own (h : Inv s) (hp : Proper W p) (hfresh : Fresh s p) :
    (s.pairs p.node ++ (taken W s.archive p).numbers.map (p.run, ·)).Nodup := by
  have hrising := rising_taken h.tables hp
  refine List.nodup_append.mpr ⟨h.once _, ?_, fun x hx y hy heq => ?_⟩
  · have hnodup : (taken W s.archive p).numbers.Nodup := hrising.rising.imp fun hlt => ne_of_lt hlt
    exact hnodup.map fun _ _ he => congrArg Prod.snd he
  · obtain ⟨n, hn, rfl⟩ := List.mem_map.mp hy
    subst heq
    rcases hfresh with hrun | hnone
    · have hle := h.below p.node n (hrun ▸ hx)
      have hlt := (hrising.between n hn).1
      rw [low, if_pos hrun] at hlt
      omega
    · exact hnone n hx

/-- **A page of any kind leaves what was said where the rings are.** -/
theorem rooted_step (h : Rooted s) (p : Page) : Rooted (step W s p) := by
  refine ⟨tables_absorb h.tables p, fun m hm => ?_⟩
  have hkey := (mem_books_absorb (W := W) h.tables p p.node).mpr
    (Dict.mem_keys_of_get? (found_found W.rings h.tables p).ring)
  have hne : m ≠ p.node := fun heq => hm (heq ▸ hkey)
  exact log_step_gone p hne hm

/-- **A page keeps the invariant**, if it is of the known run or of one that nothing is kept of. -/
theorem inv_step (h : Inv s) (hp : Proper W p) (hfresh : Fresh s p) : Inv (step W s p) := by
  refine ⟨rooted_step h.toRooted p, fun m b hb => ?_, fun m => ?_, fun m n hn => ?_⟩
  · by_cases hne : m = p.node
    · subst hne
      rw [log_step_own h.toRooted hp, List.map_append, List.map_map]
      have hbook : b = (taken W s.archive p).book := by
        have hb : (absorb W s.archive p).1.books.get? p.node = some b := hb
        rw [absorb_eq h.tables] at hb
        have hb : (Dict.set _ p.node _).get? p.node = some b := hb
        rw [Dict.get?_set_self] at hb
        exact (Option.some.inj hb).symm
      rw [hbook]
      exact kept_taken h p
    · have hm : m ∈ (absorb W s.archive p).1.books.keys := Dict.mem_keys_of_get? hb
      rw [log_step_mem h.toRooted p hne hm]
      refine h.rings m b ?_
      rw [← (others_absorb h.tables p hne hm).2.1]
      exact hb
  · by_cases hne : m = p.node
    · subst hne
      rw [pairs_step_own h.toRooted hp]
      exact once_own h hp hfresh
    · by_cases hm : m ∈ (absorb W s.archive p).1.books.keys
      · rw [State.pairs, log_step_mem h.toRooted p hne hm]
        exact h.once m
      · rw [State.pairs, log_step_gone p hne hm]
        exact List.nodup_nil
  · by_cases hne : m = p.node
    · subst hne
      have hrun : (step W s p).archive.runOf p.node = p.run := runOf_absorb h.tables hp
      have hseen : (step W s p).archive.seenOf p.node = (taken W s.archive p).highest :=
        seenOf_absorb h.tables p
      have hrising := rising_taken h.tables hp
      rw [hrun, pairs_step_own h.toRooted hp] at hn
      rw [hseen]
      rcases List.mem_append.mp hn with hn | hn
      · rcases hfresh with hsame | hnone
        · have hle := h.below p.node n (hsame ▸ hn)
          have hlow := hrising.low
          rw [low, if_pos hsame] at hlow
          omega
        · exact absurd hn (hnone n)
      · obtain ⟨k, hk, he⟩ := List.mem_map.mp hn
        obtain rfl : k = n := congrArg Prod.snd he
        exact (hrising.between k hk).2
    · by_cases hm : m ∈ (absorb W s.archive p).1.books.keys
      · obtain ⟨-, -, hrun, hseen⟩ := others_absorb h.tables p hne hm
        rw [State.pairs, log_step_mem h.toRooted p hne hm] at hn
        have hrun : (step W s p).archive.runOf m = s.archive.runOf m := hrun
        have hseen : (step W s p).archive.seenOf m = s.archive.seenOf m := hseen
        rw [hseen]
        rw [hrun] at hn
        exact h.below m n hn
      · rw [State.pairs, log_step_gone p hne hm] at hn
        cases hn

variable (W) in
/-- A page that has all that is to come: every line can be recorded, they are in order and not too many, and
none at or below the highest number seen is missing. -/
structure Whole (s : State) (p : Page) : Prop where
  few : p.lines.length ≤ maxQuery
  clean : ∀ line ∈ p.lines, Cleanable W p.time line
  order : (p.lines.map (lineNumber W)).Pairwise (· ≤ ·)
  joined : p.run = s.archive.runOf p.node → ∀ line ∈ p.lines,
    lineNumber W line ≤ s.archive.seenOf p.node → (p.run, lineNumber W line) ∈ s.pairs p.node

theorem enabled_taken (h : Tables a) (p : Page) :
    (opening W (a.found p).1 (a.found p).2 p).book.enabled = true := by
  rw [enabled_opening]
  exact (tables_found W.rings h p).2.2

/-- **A page drops nothing that is not held**, if it has all that is to come. -/
theorem whole_taken (h : Inv s) (hp : Proper W p) (hwhole : Whole W s p) :
    ∀ line ∈ p.lines, (p.run, lineNumber W line) ∈ (step W s p).pairs p.node := by
  intro line hline
  obtain ⟨-, hhigh⟩ := opening_found h.tables hp
  have htake : p.lines.take maxQuery = p.lines := List.take_of_length_le hwhole.few
  rw [pairs_step_own h.toRooted hp]
  by_cases hlow : low s.archive p < lineNumber W line
  · refine List.mem_append_right _ (List.mem_map_of_mem ?_)
    rw [taken, htake]
    exact taken_lines (enabled_taken h.tables p)
      (fun x hx => ⟨hp.numbered x hx, hwhole.clean x hx⟩) hwhole.order (Or.inl hhigh) line hline hlow
  · refine List.mem_append_left _ ?_
    by_cases hrun : p.run = s.archive.runOf p.node
    · rw [low, if_pos hrun] at hlow
      exact hwhole.joined hrun line hline (not_lt.mp hlow)
    · obtain ⟨members, rfl, hpos⟩ := hp.numbered line hline
      rw [low, if_neg hrun] at hlow
      exact absurd hpos hlow

/-- A node is among those heard last, once a page of another has come: fewer others than there may be were heard
when it was, or later. -/
def Recent (a : LogArchive) (p : Page) (m : Text) : Prop :=
  ∀ since, a.touched.get? m = some since →
    (a.touched.entries.filter fun e => e.1 ≠ m ∧ e.1 ≠ p.node ∧ since ≤ e.2).length + 1 < maxNodes

theorem undisturbed (h : Tables a) {b : LogBook}
    (hget : a.books.get? m = some b) (hne : m ≠ p.node) (hrecent : Recent a p m) :
    (absorb W a p).1.books.get? m = some b := by
  have hbooks : m ∈ (absorb W a p).1.books.keys → (absorb W a p).1.books.get? m = some b := fun hm => by
    rw [(others_absorb h p hne hm).2.1, hget]
  refine hbooks ((mem_books_absorb h p m).mpr ?_)
  have hm : m ∈ a.books.keys := Dict.mem_keys_of_get? hget
  rcases found_spec W.rings h p with ⟨_, -, hfound⟩ | ⟨hnew, a', b', -, hgone, -, -, -, -, hfound⟩
  · rw [hfound]
    exact hm
  · rw [hfound]
    refine Dict.mem_keys_set.mpr (Or.inr ?_)
    rcases hgone with rfl | ⟨e, hmem, hle, hfull, rfl⟩
    · exact hm
    · refine Dict.mem_keys_pop.mpr ⟨hm, fun heq => ?_⟩
      subst heq
      -- were it the one heard longest ago, all others would have been heard since
      have hfew := hrecent e.2 (Dict.get?_eq_some.mpr hmem)
      have hall : (a.touched.entries.filter fun x => x.1 ≠ e.1 ∧ x.1 ≠ p.node ∧ e.2 ≤ x.2) =
          a.touched.entries.filter fun x => x.1 ≠ e.1 := by
        refine List.filter_congr fun x hx => ?_
        have hother : x.1 ≠ p.node := fun heq =>
          hnew ((h.heard p.node).mpr (heq ▸ List.mem_map_of_mem hx))
        have hlater := hle x hx
        rw [decide_eq_decide]
        exact ⟨fun hx => hx.1, fun hx => ⟨hx, hother, hlater⟩⟩
      have hpop : (a.touched.pop e.1).size + 1 = a.touched.size :=
        Dict.size_pop (List.mem_map_of_mem hmem)
      have hlen : (a.touched.pop e.1).size = (a.touched.entries.filter fun x => x.1 ≠ e.1).length := rfl
      rw [hall, ← hlen] at hfew
      rw [size_touched h, hfull] at hpop
      omega

variable (W) in
/-- What holds of an archive: its rings end what was said into them, no run and number is kept twice, and a page
drops nothing that is not held, if it has all that is to come. -/
structure Holds (s : State) : Prop where
  rings : ∀ node b, s.archive.books.get? node = some b → held b <:+ (s.log node).map Prod.fst
  once : ∀ node, (s.pairs node).Nodup
  continues : ∀ p, Proper W p → Whole W s p →
    ∀ line ∈ p.lines, (p.run, lineNumber W line) ∈ (step W s p).pairs p.node

theorem tables_run (default : ℤ) (pages : List Page) :
    Tables (run (step W) (fresh default) pages).archive :=
  run_induct (P := fun s : State => Tables s.archive) (fun _ p h => tables_absorb (W := W) h p) pages
    (tables_empty default)

/-- **Each line is kept once**, as long as each page is of the run known of its node or of one that nothing is
kept of; and no page, of whatever run, removes what is kept of another node that was heard lately. -/
theorem kept_once (default : ℤ) (pages : List Page) :
    (Guarded (step W) (fun s p => Proper W p ∧ Fresh s p) (fresh default) pages →
      Holds W (run (step W) (fresh default) pages)) ∧
    ∀ (p : Page) (m : Text) (b : LogBook),
      (run (step W) (fresh default) pages).archive.books.get? m = some b → m ≠ p.node →
      Recent (run (step W) (fresh default) pages).archive p m →
      (step W (run (step W) (fresh default) pages) p).archive.books.get? m = some b := by
  refine ⟨fun hpages => ?_, fun p m b hget hne hrecent => ?_⟩
  · have hinv := Guarded.run_induct (P := Inv) (fun s p h hp => inv_step h hp.1 hp.2) (inv_fresh default) hpages
    exact ⟨fun node b hb => (hinv.rings node b hb).held, hinv.once,
      fun p hp hwhole => whole_taken hinv hp hwhole⟩
  · exact undisturbed (tables_run default pages) hget hne hrecent

end Step

/-! ### Two runs of one machine -/

def plain : World where
  rings := ⟨fun _ => none, id, id, fun _ => none⟩
  int
    | .int n => n
    | _ => 0

def first (run : String) : Page where
  node := ascii "node"
  lines := [.obj [(ascii "seq", .int 1)]]
  lost := 0
  run := ascii run
  now := 1
  time := ascii "1.0"
  token := []

theorem proper_first (run : String) (h : ascii run ≠ []) : Proper plain (first run) :=
  ⟨h, fun _ hl => ⟨_, List.mem_singleton.mp hl, by decide⟩⟩

theorem kept_first : Holds plain (run (step plain) (fresh 1) [first "a"]) :=
  (@kept_once plain 1 [first "a"]).1 ⟨⟨proper_first "a" (by decide), Or.inr fun _ h => by cases h⟩, trivial⟩

/-- **A page of an earlier run is taken a second time.** -/
theorem kept_twice : (∀ p ∈ [first "a", first "b", first "a"], Proper plain p) ∧
    ¬ ((run (step plain) (fresh 1) [first "a", first "b", first "a"]).pairs (ascii "node")).Nodup := by
  refine ⟨fun p hp => ?_, by decide⟩
  rcases List.mem_cons.mp hp with rfl | hp
  · exact proper_first "a" (by decide)
  · rcases List.mem_cons.mp hp with rfl | hp
    · exact proper_first "b" (by decide)
    · rw [List.mem_singleton.mp hp]
      exact proper_first "a" (by decide)

end NMesh.Logs.Archive
