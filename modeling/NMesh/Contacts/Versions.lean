import NMesh.Base.Chars
import NMesh.Base.JsonText
import Mathlib.Data.Rat.Floor

/-! # Versions of contacts

A contact is kept under a counter and the id of the node that wrote it, and the higher pair wins. A person's edit
takes the counter of what it replaces plus one, but the counter is capped: at the cap the edit is no newer, unless its
writer's id is higher (`edit_wins`, `remove_wins`). Any member may write a contact at the cap (`beyond_the_owner`). -/

namespace NMesh.Contacts.Versions

open Base.Utf8 Base.Ordered Base.Chars Base.JsonText

def maxEntries : ℕ := 1000

def maxNodes : ℕ := 8

def maxName : ℕ := 64

def maxLabel : ℕ := 32

def maxNote : ℕ := 512

def maxCounter : ℕ := 2 ^ 40

def tombstoneTtl : ℚ := ((90 * 24 * 3600 : ℕ) : ℚ)

def isHex (c : ℕ) : Bool := 0x30 ≤ c ∧ c ≤ 0x39 ∨ 0x61 ≤ c ∧ c ≤ 0x66

/-- `^[0-9a-f]{n}$` matches; a line feed may follow. -/
def hexes (n : ℕ) (text : Text) : Bool :=
  (text.take n).length = n ∧ (text.take n).all isHex ∧ (text.drop n = [] ∨ text.drop n = [0x0A])

def isNode (text : Text) : Bool := hexes 40 text

def isCid (text : Text) : Bool := hexes 32 text

/-- `v`: a counter within the cap, and who wrote it; nobody is an empty text. -/
structure Version where
  counter : ℕ
  bound : counter ≤ maxCounter
  writer : Text

structure Entry where
  id : Text
  name : Text
  nodes : List (Text × Text)
  note : Text
  fav : Bool
  del : Bool
  t : ℚ
  seq : ℕ
  v : Version

inductive Role
  | owner
  | write
  | read
deriving DecidableEq

structure Book where
  role : Role
  seq : ℕ
  dirty : List Text
  entries : Dict Text Entry

/-- The tables of Python's `str`, the value of a float and its text. -/
structure World where
  chars : Characters
  value : Text → Option ℚ
  repr : ℚ → Text

/-- The books, and the id of the node: empty, or one. -/
structure State where
  me : Text
  named : me = [] ∨ isNode me = true
  books : Dict Text Book

/-! ### Cleaning -/

section Code

variable (W : World)

/-- `_line(value, limit)` -/
def line (value : Option Json) (limit : ℕ) : Text :=
  match value with
  | some (.str s) =>
    (List.intercalate [0x20] (((printable W.chars s).splitOnP W.chars.isSpace).filter (· ≠ []))).take limit
  | _ => []

/-- `_text(value, limit)` -/
def noteOf (value : Option Json) (limit : ℕ) : Text :=
  match value with
  | some (.str s) => (strip W.chars (s.filter fun c => W.chars.isPrintable c || c = 0x0A)).take limit
  | _ => []

/-- `value is True` -/
def isTrue : Option Json → Bool
  | some (.bool b) => b
  | _ => false

/-- `_count(value)` -/
def count : Option Json → ℕ
  | some (.int n) => if 0 ≤ n ∧ n ≤ maxCounter then n.toNat else 0
  | _ => 0

def timeOf : Option Json → ℚ
  | some (.int n) => if 0 ≤ n ∧ n < 10 ^ 11 then n else 0
  | some (.bool b) => if b then 1 else 0
  | some (.float repr) =>
    match W.value repr with
    | some q => if 0 ≤ q ∧ q < 10 ^ 11 then q else 0
    | none => 0
  | _ => 0

/-- The node that an item of `nodes` names. -/
def nodeId : Json → Option Text
  | .str s => if isNode s then some s else none
  | item =>
    match item.get? (ascii "id") with
    | some (.str s) => if isNode s then some s else none
    | _ => none

/-- The nodes that are listed, each once, with their labels. -/
def cleanNodes : List Text → List Json → List (Text × Text)
  | _, [] => []
  | seen, item :: items =>
    match nodeId item with
    | none => cleanNodes seen items
    | some id =>
      if id ∈ seen then cleanNodes seen items
      else (id, line W (item.get? (ascii "label")) maxLabel) :: cleanNodes (id :: seen) items

def itemsOf : Option Json → List Json
  | some (.arr items) => items
  | _ => []

def versionOf : Option Json → Option Version
  | some (.arr [.int n, .str writer]) =>
    if h : 0 ≤ n ∧ n ≤ maxCounter ∧ (writer = [] ∨ isNode writer = true) then
      some ⟨n.toNat, Int.toNat_le.mpr h.2.1, writer⟩
    else none
  | _ => none

/-- `clean_entry(raw, keep_version=…)` -/
def cleanEntry (keepVersion : Bool) (raw : Json) : Option Entry :=
  match raw.get? (ascii "id") with
  | some (.str id) =>
    let name := line W (raw.get? (ascii "name")) maxName
    let nodes := cleanNodes W [] ((itemsOf (raw.get? (ascii "nodes"))).take maxNodes)
    let del := isTrue (raw.get? (ascii "del"))
    if isCid id = true ∧ (del = true ∨ name ≠ [] ∨ nodes ≠ []) then
      (if keepVersion then versionOf (raw.get? (ascii "v")) else some ⟨0, Nat.zero_le _, []⟩).map fun v =>
        ⟨id, if del then [] else name, if del then [] else nodes,
          if del then [] else noteOf W (raw.get? (ascii "note")) maxNote, !del && isTrue (raw.get? (ascii "fav")), del,
          timeOf W (raw.get? (ascii "t")), count (raw.get? (ascii "seq")), v⟩
    else none
  | _ => none

/-- `newer(candidate, current)` -/
def newer (candidate : Version) : Option Version → Bool
  | none => true
  | some current => current.counter < candidate.counter ∨
      candidate.counter = current.counter ∧ current.writer < candidate.writer

def nodeDocument (node : Text × Text) : Json := .obj [(ascii "id", .str node.1), (ascii "label", .str node.2)]

def Entry.members (e : Entry) : List (Text × Json) :=
  [(ascii "id", .str e.id), (ascii "name", .str e.name), (ascii "nodes", .arr (e.nodes.map nodeDocument)),
    (ascii "note", .str e.note), (ascii "fav", .bool e.fav), (ascii "del", .bool e.del),
    (ascii "t", .float (W.repr e.t)), (ascii "seq", .int e.seq), (ascii "v", .arr [.int e.v.counter, .str e.v.writer])]

/-! ### Changes -/

def prune (now : ℚ) (b : Book) : Book :=
  { b with entries := b.entries.filterVal fun e => !(e.del && decide (e.t < now - tombstoneTtl)) }

variable (persists : Book → Bool)

/-- `_store_entry`: is it stored? `persists` says whether the drawer takes a book. -/
def storeEntry (now : ℚ) (b : Book) (e : Entry) : Bool × Book :=
  let crowded (b : Book) : Bool := (b.entries.get? e.id).isNone && decide (maxEntries ≤ b.entries.size)
  let b := if crowded b then prune now b else b
  if crowded b then (false, b)
  else
    let stored := { b with entries := b.entries.set e.id e }
    if persists stored then (true, stored) else (false, b)

/-- `_stamp` -/
def stamp (me : Text) (now : ℚ) (b : Book) (e : Entry) (previous : Option Entry) : Book × Entry :=
  let counter := (previous.elim 0 fun p => p.v.counter) + 1
  let e := { e with v := ⟨min counter maxCounter, min_le_right _ _, me⟩, t := now }
  if b.role = .owner then ({ b with seq := b.seq + 1 }, { e with seq := b.seq + 1 })
  else
    ({ b with dirty := if e.id ∈ b.dirty then b.dirty else b.dirty ++ [e.id] },
      { e with seq := previous.elim 0 Entry.seq })

inductive Why
  | noBook
  | readOnly
  | noContact
  | empty
  | full

/-- An entry that was cleaned is stamped and stored; if it does not fit, the numbers are put back. -/
def put (now : ℚ) (s : State) (bookId : Text) (b : Book) (e : Entry) (previous : Option Entry) :
    Except Why Entry × State :=
  let stamped := stamp s.me now b e previous
  let stored := storeEntry persists now stamped.1 stamped.2
  if stored.1 then (.ok stamped.2, { s with books := s.books.set bookId stored.2 })
  else (.error .full, { s with books := s.books.set bookId { stored.2 with seq := b.seq, dirty := b.dirty } })

/-- `raw.update(…)`: those of the four fields that were given. -/
def update (fields : List (Text × Json)) (raw : List (Text × Json)) : List (Text × Json) :=
  [ascii "name", ascii "nodes", ascii "note", ascii "fav"].foldl (fun raw k =>
    match getL k fields with
    | some v => setL k v raw
    | none => raw) raw

/-- `save(book_id, fields, cid)`, no id as an empty text; `token` is the id that is drawn. -/
def save (now : ℚ) (token : Text) (s : State) (bookId : Text) (fields : List (Text × Json)) (cid : Text) :
    Except Why Entry × State :=
  match s.books.get? bookId with
  | none => (.error .noBook, s)
  | some b =>
    let previous := if cid = [] then none else b.entries.get? cid
    if b.role = .read then (.error .readOnly, s)
    else if cid ≠ [] ∧ previous.all Entry.del = true then (.error .noContact, s)
    else
      let raw := update fields (previous.elim [] (Entry.members W))
      let raw := setL (ascii "id") (.str (if cid = [] then token else cid)) raw
      match cleanEntry W false (.obj (setL (ascii "del") (.bool false) raw)) with
      | none => (.error .empty, s)
      | some e => put persists now s bookId b e previous

/-- `remove(book_id, cid)`; an id that is none raises, and changes nothing. -/
def remove (now : ℚ) (s : State) (bookId cid : Text) : Except Why Entry × State :=
  match s.books.get? bookId with
  | none => (.error .noBook, s)
  | some b =>
    let previous := b.entries.get? cid
    if b.role = .read then (.error .readOnly, s)
    else if previous.all Entry.del = true then (.error .noContact, s)
    else
      match cleanEntry W false (.obj [(ascii "id", .str cid), (ascii "del", .bool true)]) with
      | none => (.error .empty, s)
      | some e => put persists now s bookId b e previous

/-- One entry that a peer sent, after the ids taken before. -/
def mergeEntry (now : ℚ) (fromOwner : Bool) (writer : Text) (at' : Book × List Text) (raw : Json) :
    Book × List Text :=
  match cleanEntry W true raw with
  | none => at'
  | some e =>
    if isNode e.v.writer = false ∨ fromOwner = false ∧ e.v.writer ≠ writer ∨
        newer e.v ((at'.1.entries.get? e.id).map Entry.v) = false then at'
    else
      let mine : Bool := at'.1.role = .owner
      let e := if mine then { e with seq := at'.1.seq + 1 } else e
      let stored := storeEntry persists now { at'.1 with seq := if mine then at'.1.seq + 1 else at'.1.seq } e
      let b := stored.2
      if stored.1 then ({ b with dirty := if !mine && fromOwner then b.dirty.erase e.id else b.dirty }, at'.2 ++ [e.id])
      else ({ b with seq := at'.1.seq }, at'.2)

/-- `merge(book_id, entries, from_owner=…, writer=…)`, and the ids it took. -/
def merge (now : ℚ) (fromOwner : Bool) (writer : Text) (b : Book) (entries : Option Json) : Book × List Text :=
  ((itemsOf entries).take maxEntries).foldl (mergeEntry W persists now fromOwner writer) (b, [])

end Code

/-- The two ways to change a contact. -/
inductive Edit
  | save (token : Text) (fields : List (Text × Json)) (cid : Text)
  | remove (cid : Text)

namespace Edit

/-- The contact that is named: an empty text for a new one. -/
def named : Edit → Text
  | save _ _ cid => cid
  | remove cid => cid

def replaced (c : Edit) (b : Book) : Option Entry := if c.named = [] then none else b.entries.get? c.named

end Edit

section Edits

variable (W : World) (persists : Book → Bool)

def edit (now : ℚ) (s : State) (bookId : Text) : Edit → Except Why Entry × State
  | .save token fields cid => save W persists now token s bookId fields cid
  | .remove cid => remove W persists now s bookId cid

/-- **Taken everywhere**: each copy of the book that holds a version takes the entry in its place, from the owner or
from who wrote it, if its drawer does. -/
def Spreads (v : Version) (e : Entry) : Prop :=
  ∀ (now : ℚ) (fromOwner : Bool) (writer : Text) (b : Book) (held : Entry), b.entries.get? e.id = some held →
    held.v = v → (fromOwner = true ∨ writer = e.v.writer) →
    e.id ∈ (merge W (fun _ => true) now fromOwner writer b
      (some (.arr [.obj (e.members W)]))).2

/-- A writer's next version is above this one: it is below the cap, or by a lower writer. -/
def Below (me : Text) (v : Version) : Prop := v.counter < maxCounter ∨ v.writer < me

end Edits

/-! ### What is sent is accepted -/

section Sent

variable {W : World}

theorem mem_splitOnP {p : ℕ → Bool} : ∀ {s w : Text}, w ∈ s.splitOnP p → ∀ c ∈ w, c ∈ s ∧ p c = false
  | [], w, hw, c, hc => by
    rw [List.splitOnP_nil, List.mem_singleton] at hw
    rw [hw] at hc
    cases hc
  | x :: s, w, hw, c, hc => by
    rw [List.splitOnP_cons_eq_if_modifyHead] at hw
    split_ifs at hw with hx
    · rcases List.mem_cons.mp hw with rfl | hw
      · cases hc
      · exact (mem_splitOnP hw c hc).imp_left (List.mem_cons_of_mem x)
    · obtain ⟨first, words, hsplit⟩ := List.exists_cons_of_ne_nil (List.splitOnP_ne_nil p s)
      have ih : ∀ {w : Text}, w ∈ first :: words → ∀ c ∈ w, c ∈ s ∧ p c = false := fun hw =>
        mem_splitOnP (hsplit ▸ hw)
      rw [hsplit, List.modifyHead_cons] at hw
      rcases List.mem_cons.mp hw with rfl | hw
      · rcases List.mem_cons.mp hc with rfl | hc
        · exact ⟨List.mem_cons_self, by simpa using hx⟩
        · exact (ih List.mem_cons_self c hc).imp_left (List.mem_cons_of_mem x)
      · exact (ih (List.mem_cons_of_mem first hw) c hc).imp_left (List.mem_cons_of_mem x)

/-- A line that says something begins with a character that prints and is no blank. -/
theorem line_head {v : Option Json} {limit : ℕ} (h : line W v limit ≠ []) : ∃ c t,
    line W v limit = c :: t ∧ W.chars.isPrintable c = true ∧ W.chars.isSpace c = false := by
  match v, h with
  | some (.str s), h =>
    unfold line at h ⊢
    dsimp only at h ⊢
    cases hwords : ((printable W.chars s).splitOnP W.chars.isSpace).filter (· ≠ []) with
    | nil =>
      rw [hwords] at h
      exact absurd (List.take_nil) h
    | cons w words =>
      rw [hwords] at h
      obtain ⟨hw, hne⟩ := List.mem_filter.mp (hwords ▸ List.mem_cons_self : w ∈ _)
      obtain ⟨c, w', rfl⟩ := List.exists_cons_of_ne_nil (of_decide_eq_true hne)
      obtain ⟨hc, hspace⟩ := mem_splitOnP hw c List.mem_cons_self
      obtain ⟨t, ht⟩ : ∃ t, List.intercalate [0x20] ((c :: w') :: words) = c :: t := by
        cases words with
        | nil => exact ⟨w', by simp⟩
        | cons w₂ words => exact ⟨_, rfl⟩
      rw [ht] at h ⊢
      cases limit with
      | zero => exact absurd rfl h
      | succ n => exact ⟨c, t.take n, rfl, (List.mem_filter.mp hc).2, hspace⟩

theorem line_again {v : Option Json} {n : ℕ} (h : line W v (n + 1) ≠ []) :
    line W (some (.str (line W v (n + 1)))) (n + 1) ≠ [] := by
  obtain ⟨c, t, hline, hprint, hspace⟩ := line_head h
  rw [hline]
  unfold line
  dsimp only
  rw [printable, List.filter_cons_of_pos hprint, List.splitOnP_cons_eq_if_modifyHead, hspace, if_neg (by decide)]
  obtain ⟨first, words, hsplit⟩ := List.exists_cons_of_ne_nil
    (List.splitOnP_ne_nil W.chars.isSpace (t.filter W.chars.isPrintable))
  rw [hsplit, List.modifyHead_cons,
    List.filter_cons_of_pos (p := (decide <| · ≠ [])) (decide_eq_true (List.cons_ne_nil c first))]
  cases words.filter (· ≠ []) with
  | nil => simp
  | cons w words =>
    show List.take (n + 1) (c :: _) ≠ []
    simp

theorem nodeId_isNode {item : Json} {id : Text} (h : nodeId item = some id) : isNode id = true := by
  unfold nodeId at h
  split at h
  · split_ifs at h with hnode
    exact Option.some.inj h ▸ hnode
  · split at h
    · split_ifs at h with hnode
      exact Option.some.inj h ▸ hnode
    · cases h

theorem cleanNodes_isNode : ∀ {items : List Json} {seen : List Text}, ∀ node ∈ cleanNodes W seen items,
    isNode node.1 = true
  | [], _, _, h => by cases h
  | item :: items, seen, node, h => by
    rw [cleanNodes] at h
    split at h
    · exact cleanNodes_isNode node h
    next id hid =>
      split_ifs at h
      · exact cleanNodes_isNode node h
      · rcases List.mem_cons.mp h with rfl | h
        · exact nodeId_isNode hid
        · exact cleanNodes_isNode node h

theorem cleanNodes_again {nodes : List (Text × Text)} (hne : nodes ≠ []) (h : ∀ node ∈ nodes, isNode node.1 = true) :
    cleanNodes W [] ((nodes.map nodeDocument).take maxNodes) ≠ [] := by
  match nodes, hne with
  | node :: nodes, _ =>
    have hid : nodeId (nodeDocument node) = some node.1 := if_pos (h node List.mem_cons_self)
    rw [List.map_cons, maxNodes, List.take_succ_cons, cleanNodes, hid]
    exact List.cons_ne_nil _ _

/-- An entry with an id that says something: it was removed, or has a name or a node. -/
structure Proper (W : World) (e : Entry) : Prop where
  id : isCid e.id = true
  real : e.del = true ∨ line W (some (.str e.name)) maxName ≠ [] ∨
    cleanNodes W [] ((e.nodes.map nodeDocument).take maxNodes) ≠ []

theorem cleanEntry_spec {keepVersion : Bool} {raw : Json} {e : Entry} (h : cleanEntry W keepVersion raw = some e) :
    raw.get? (ascii "id") = some (.str e.id) ∧ Proper W e := by
  unfold cleanEntry at h
  split at h
  next id hid =>
    dsimp only at h
    by_cases hreal : isCid id = true ∧ (isTrue (raw.get? (ascii "del")) = true ∨
        line W (raw.get? (ascii "name")) maxName ≠ [] ∨
        cleanNodes W [] ((itemsOf (raw.get? (ascii "nodes"))).take maxNodes) ≠ [])
    · rw [if_pos hreal] at h
      obtain ⟨v, -, rfl⟩ := Option.map_eq_some_iff.mp h
      refine ⟨hid, hreal.1, ?_⟩
      dsimp only
      cases hdel : isTrue (raw.get? (ascii "del")) with
      | true => exact Or.inl rfl
      | false =>
        rw [hdel] at hreal
        rcases hreal.2 with hdel | hname | hnodes
        · cases hdel
        · exact Or.inr (Or.inl (line_again hname))
        · exact Or.inr (Or.inr (cleanNodes_again hnodes fun node => cleanNodes_isNode node))
    · rw [if_neg hreal] at h
      cases h
  next => cases h

theorem cleanEntry_members {e : Entry} (h : Proper W e) (hwriter : e.v.writer = [] ∨ isNode e.v.writer = true) :
    ∃ e', cleanEntry W true (.obj (e.members W)) = some e' ∧ e'.id = e.id ∧ e'.v = e.v := by
  have hversion : versionOf ((Json.obj (e.members W)).get? (ascii "v")) = some e.v := by
    show versionOf (some (.arr [.int e.v.counter, .str e.v.writer])) = _
    have hbound : 0 ≤ (e.v.counter : ℤ) ∧ (e.v.counter : ℤ) ≤ maxCounter ∧
        (e.v.writer = [] ∨ isNode e.v.writer = true) :=
      ⟨Int.natCast_nonneg _, Int.ofNat_le.mpr e.v.bound, hwriter⟩
    unfold versionOf
    dsimp only
    rw [dif_pos hbound]
    rfl
  unfold cleanEntry
  rw [show (Json.obj (e.members W)).get? (ascii "id") = some (.str e.id) from rfl]
  dsimp only
  rw [if_pos ⟨h.id, h.real⟩, if_pos rfl, hversion]
  exact ⟨_, rfl, rfl, rfl⟩

end Sent

/-! ### What wins -/

section Wins

variable {W : World} {persists : Book → Bool}

theorem newer_some {v w : Version} : newer w (some v) = true ↔
    v.counter < w.counter ∨ w.counter = v.counter ∧ v.writer < w.writer := decide_eq_true_iff

/-- **A stamped version is newer exactly if the old one is below the cap, or by a lower writer.** -/
theorem newer_stamp (me : Text) (now : ℚ) (b : Book) (e p : Entry) :
    newer (stamp me now b e (some p)).2.v (some p.v) = true ↔ Below me p.v := by
  have hv : ∀ hbound, (stamp me now b e (some p)).2.v = ⟨min (p.v.counter + 1) maxCounter, hbound, me⟩ := by
    intro hbound
    unfold stamp
    dsimp only
    split_ifs <;> rfl
  rw [hv (min_le_right _ _), newer_some, Below]
  have hbound := p.v.bound
  dsimp only
  constructor
  · rintro (h | ⟨-, h⟩)
    · exact Or.inl (by omega)
    · exact Or.inr h
  · intro h
    by_cases hlow : p.v.counter < maxCounter
    · exact Or.inl (by omega)
    · exact Or.inr ⟨by omega, h.resolve_left hlow⟩

theorem proper_stamp {me : Text} {now : ℚ} {b : Book} {e : Entry} {previous : Option Entry} (h : Proper W e) :
    Proper W (stamp me now b e previous).2 ∧ (stamp me now b e previous).2.id = e.id ∧
      (stamp me now b e previous).2.v.writer = me := by
  unfold stamp
  dsimp only
  by_cases howner : b.role = .owner
  · rw [if_pos howner]
    exact ⟨⟨h.id, h.real⟩, rfl, rfl⟩
  · rw [if_neg howner]
    exact ⟨⟨h.id, h.real⟩, rfl, rfl⟩

variable {now : ℚ}

theorem storeEntry_held {b : Book} {e held : Entry} (hheld : b.entries.get? e.id = some held) :
    (storeEntry (fun _ => true) now b e).1 = true := by
  unfold storeEntry
  simp [hheld]

/-- **A copy takes what is newer than what it holds**, if a node wrote it. -/
theorem mem_merge_iff {fromOwner : Bool} {writer : Text} {b : Book} {e held : Entry} (h : Proper W e)
    (hwriter : e.v.writer = [] ∨ isNode e.v.writer = true) (hheld : b.entries.get? e.id = some held)
    (hfrom : fromOwner = true ∨ writer = e.v.writer) :
    e.id ∈ (merge W (fun _ => true) now fromOwner writer b
      (some (.arr [.obj (e.members W)]))).2 ↔ isNode e.v.writer = true ∧ newer e.v (some held.v) = true := by
  obtain ⟨e', hclean, hid, hv⟩ := cleanEntry_members h hwriter
  have hget : ((b.entries.get? e'.id).map Entry.v) = some held.v := by rw [hid, hheld]; rfl
  show e.id ∈ (mergeEntry W (fun _ => true) now fromOwner writer (b, []) (.obj (e.members W))).2 ↔ _
  unfold mergeEntry
  rw [hclean]
  dsimp only
  rw [hget, hv]
  by_cases hnew : isNode e.v.writer = true ∧ newer e.v (some held.v) = true
  · rw [if_neg (by
      rintro (hno | ⟨howner, hno⟩ | hno)
      · rw [hnew.1] at hno
        cases hno
      · rcases hfrom with hfrom | hfrom
        · rw [hfrom] at howner
          cases howner
        · exact hno hfrom.symm
      · rw [hnew.2] at hno
        cases hno)]
    refine ⟨fun _ => hnew, fun _ => ?_⟩
    cases decide (b.role = .owner) with
    | true | false =>
      rw [if_pos (storeEntry_held (by exact hid ▸ hheld))]
      exact List.mem_singleton.mpr hid.symm
  · rw [if_pos (by
      by_contra hno
      simp only [not_or, Bool.not_eq_false] at hno
      exact hnew ⟨hno.1, hno.2.2⟩)]
    exact ⟨fun hmem => (by cases hmem), fun hboth => absurd hboth hnew⟩

/-- **An edit that is stored**: what it put in the place of what was there. -/
theorem put_ok {s s' : State} {bookId : Text} {b : Book} {e e' : Entry} {previous : Option Entry}
    (h : put persists now s bookId b e previous = (.ok e', s')) : e' = (stamp s.me now b e previous).2 := by
  unfold put at h
  dsimp only at h
  split_ifs at h
  · exact (Except.ok.inj (Prod.mk.inj h).1).symm
  · cases (Prod.mk.inj h).1

theorem edit_ok {s s' : State} {bookId : Text} {c : Edit} {e : Entry}
    (h : edit W persists now s bookId c = (.ok e, s')) : ∃ b e₀, s.books.get? bookId = some b ∧ Proper W e₀ ∧
      (c.named ≠ [] → e₀.id = c.named) ∧ e = (stamp s.me now b e₀ (c.replaced b)).2 := by
  cases c with
  | save token fields cid =>
    unfold edit save at h
    cases hbook : s.books.get? bookId with
    | none =>
      rw [hbook] at h
      cases (Prod.mk.inj h).1
    | some b =>
      rw [hbook] at h
      dsimp only at h
      by_cases hread : b.role = .read
      · rw [if_pos hread] at h
        cases (Prod.mk.inj h).1
      rw [if_neg hread] at h
      by_cases hgone : cid ≠ [] ∧ (if cid = [] then none else b.entries.get? cid).all Entry.del = true
      · rw [if_pos hgone] at h
        cases (Prod.mk.inj h).1
      rw [if_neg hgone] at h
      split at h
      · cases (Prod.mk.inj h).1
      next e₀ hclean =>
        obtain ⟨hid, hproper⟩ := cleanEntry_spec hclean
        refine ⟨b, e₀, rfl, hproper, fun hne => ?_, put_ok h⟩
        have hne : cid ≠ [] := hne
        rw [Json.get?, getL_setL, if_neg (by decide), getL_setL, if_pos rfl, if_neg hne] at hid
        exact (Json.str.inj (Option.some.inj hid)).symm
  | remove cid =>
    unfold edit remove at h
    cases hbook : s.books.get? bookId with
    | none =>
      rw [hbook] at h
      cases (Prod.mk.inj h).1
    | some b =>
      rw [hbook] at h
      dsimp only at h
      split_ifs at h
      · cases (Prod.mk.inj h).1
      · cases (Prod.mk.inj h).1
      split at h
      · cases (Prod.mk.inj h).1
      next e₀ hclean =>
        obtain ⟨hid, hproper⟩ := cleanEntry_spec hclean
        have hid : cid = e₀.id := Json.str.inj (Option.some.inj hid)
        refine ⟨b, e₀, rfl, hproper, fun _ => hid.symm, ?_⟩
        have hne : cid ≠ [] := by
          rintro rfl
          have hcid := hproper.id
          rw [← hid] at hcid
          exact absurd hcid (by decide)
        rw [Edit.replaced, Edit.named, if_neg hne]
        exact put_ok h

end Wins

/-- **An edit wins over what it replaces exactly if that can be changed**: the node has an id, and the replaced
version is below the cap or by a lower writer. A new contact replaces none. -/
theorem edit_wins {W : World} {persists : Book → Bool} {now : ℚ} {s s' : State} {bookId : Text} {c : Edit}
    {e : Entry} (h : edit W persists now s bookId c = (.ok e, s')) : ∃ b, s.books.get? bookId = some b ∧
      (c.named ≠ [] → e.id = c.named) ∧
      ∀ p, c.replaced b = some p → ((newer e.v (some p.v) = true ∧ Spreads W p.v e) ↔
        isNode s.me = true ∧ Below s.me p.v) := by
  obtain ⟨b, e₀, hbook, hproper, hid, rfl⟩ := edit_ok h
  obtain ⟨hproper', hsame, hwriter⟩ := @proper_stamp W s.me now b _ (c.replaced b) hproper
  refine ⟨b, hbook, fun hne => hsame.trans (hid hne), fun p hp => ?_⟩
  rw [hp] at hproper' hsame hwriter ⊢
  have hnew := newer_stamp s.me now b e₀ p
  have hnamed := s.named
  rw [← hwriter] at hnamed
  constructor
  · rintro ⟨hnewer, hspread⟩
    -- a copy that holds the contact that was replaced, and nothing else
    have htaken := hspread 0 true [] ⟨.owner, 0, [], Dict.empty.set (stamp s.me now b e₀ (some p)).2.id p⟩ p
      (Dict.get?_set_self _ _ _) rfl (Or.inl rfl)
    have hnode := ((mem_merge_iff hproper' hnamed (Dict.get?_set_self _ _ _) (Or.inl rfl)).mp htaken).1
    exact ⟨hwriter ▸ hnode, hnew.mp hnewer⟩
  · rintro ⟨hnode, hbelow⟩
    refine ⟨hnew.mpr hbelow, fun now' fromOwner writer b' held hheld hv hfrom => ?_⟩
    exact (mem_merge_iff hproper' hnamed hheld hfrom).mpr ⟨hwriter.symm ▸ hnode, by rw [hv]; exact hnew.mpr hbelow⟩

/-! ### At the cap -/

def plainWorld : World := ⟨asciiTables, fun _ => none, fun _ => []⟩

def nodeOf (c : ℕ) : Text := List.replicate 40 c

def cidOf (c : ℕ) : Text := List.replicate 32 c

/-- The node `11…1` with a book of its own, of what a member `ff…f` wrote under a counter. -/
def pushed (counter : ℤ) : State where
  me := nodeOf 0x31
  named := Or.inr (by decide +kernel)
  books := Dict.empty.set (cidOf 0x62) (merge plainWorld (fun _ => true) 0 false (nodeOf 0x66) ⟨.owner, 0, [], .empty⟩
    (some (.arr [.obj [(ascii "id", .str (cidOf 0x63)), (ascii "name", .str (ascii "Ann")),
      (ascii "v", .arr [.int counter, .str (nodeOf 0x66)])]]))).1

def renamed : Edit := .save [] [(ascii "name", .str (ascii "Bob"))] (cidOf 0x63)

/-- What the owner writes, and is it newer than what it replaces? -/
def changed (counter : ℤ) : Option (Entry × Bool) :=
  (edit plainWorld (fun _ => true) 0 (pushed counter) (cidOf 0x62) renamed).1.toOption.bind fun e =>
    ((pushed counter).books.get? (cidOf 0x62)).bind fun b =>
      (renamed.replaced b).map fun p => (e, newer e.v (some p.v))

theorem changed_spec {counter : ℤ} {b : Bool} (h : (changed counter).map Prod.snd = some b) : ∃ e s' book p,
    edit plainWorld (fun _ => true) 0 (pushed counter) (cidOf 0x62) renamed = (.ok e, s') ∧
      (pushed counter).books.get? (cidOf 0x62) = some book ∧ renamed.replaced book = some p ∧
      newer e.v (some p.v) = b := by
  obtain ⟨⟨e, b'⟩, hpair, rfl⟩ := Option.map_eq_some_iff.mp h
  obtain ⟨e', he, hrest⟩ := Option.bind_eq_some_iff.mp hpair
  obtain ⟨book, hbook, hrest⟩ := Option.bind_eq_some_iff.mp hrest
  obtain ⟨p, hp, heq⟩ := Option.map_eq_some_iff.mp hrest
  cases heq
  rcases hedit : edit plainWorld (fun _ => true) 0 (pushed counter) (cidOf 0x62) renamed with ⟨answer, s'⟩
  rw [hedit] at he
  cases answer with
  | error why => cases he
  | ok e'' =>
    cases he
    exact ⟨_, s', book, p, rfl, hbook, hp, rfl⟩

theorem edit_wins_below : ∃ e s', edit plainWorld (fun _ => true) 0 (pushed 7) (cidOf 0x62) renamed = (.ok e, s') ∧
    ∃ b, (pushed 7).books.get? (cidOf 0x62) = some b ∧ (renamed.named ≠ [] → e.id = renamed.named) ∧
      ∀ p, renamed.replaced b = some p → ((newer e.v (some p.v) = true ∧ Spreads plainWorld p.v e) ↔
        isNode (pushed 7).me = true ∧ Below (pushed 7).me p.v) := by
  obtain ⟨e, s', -, -, hedit, -⟩ := @changed_spec 7 true (by decide +kernel)
  exact ⟨e, s', hedit, edit_wins hedit⟩

/-- **A member has the last word**: what it wrote at the cap is in its owner's book, and what the owner writes over it
is stored, but is no newer. -/
theorem beyond_the_owner : ∃ e s' b p,
    edit plainWorld (fun _ => true) 0 (pushed (2 ^ 40)) (cidOf 0x62) renamed = (.ok e, s') ∧
      (pushed (2 ^ 40)).books.get? (cidOf 0x62) = some b ∧ renamed.replaced b = some p ∧
      newer e.v (some p.v) = false :=
  changed_spec (by decide +kernel)

end NMesh.Contacts.Versions
