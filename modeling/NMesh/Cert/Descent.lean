import NMesh.Base.JsonText

/-! # Lineage

A root that signs a member directly remembers the issuers the member's chain ran through before, nearest
first. What the book takes in is a lineage (`Lineal`), and a full book refuses: both are fields of the
structure. -/

namespace NMesh.Cert.Descent

open Base.BigEndian Base.Utf8 Base.Hex Base.Ordered Base.JsonText

def maxEntries : ℕ := 65536

def maxAncestors : ℕ := 8

def idLen : ℕ := 20

def Lineal (subject : Bytes) (ancestors : List Bytes) : Prop :=
  subject.length = idLen ∧ ancestors ≠ [] ∧ ancestors.length ≤ maxAncestors ∧
    (∀ a ∈ ancestors, a.length = idLen) ∧ subject ∉ ancestors

instance (subject : Bytes) (ancestors : List Bytes) : Decidable (Lineal subject ancestors) := by
  unfold Lineal; infer_instance

/-- **The book**: for each subject the issuers its chain ran through. -/
structure Lineage where
  bySubject : Dict Bytes (List Bytes)
  max : ℕ
  lineal : ∀ subject chain, bySubject.get? subject = some chain → Lineal subject chain
  bounded : bySubject.size ≤ max

namespace Lineage

def new (maxEntries : ℕ) : Lineage :=
  ⟨Dict.empty, maxEntries, fun _ _ h => (by cases h), Nat.zero_le _⟩

/-- Remember that a subject's chain ran through `ancestors`. Refused: no lineage, or the book is full. -/
def record (book : Lineage) (subject : Bytes) (ancestors : List Bytes) : Bool × Lineage :=
  if hl : Lineal subject ancestors then
    if hfull : subject ∉ book.bySubject.keys ∧ book.max ≤ book.bySubject.size then (false, book)
    else (true,
      { book with
        bySubject := book.bySubject.set subject ancestors
        lineal := fun subject' chain hget => by
          rw [Dict.get?_set] at hget
          split_ifs at hget with hs
          · obtain rfl := Option.some.inj hget
            rwa [← hs]
          · exact book.lineal subject' chain hget
        bounded := by
          have hbound := book.bounded
          by_cases hmem : subject ∈ book.bySubject.keys
          · rwa [Dict.size_set_of_mem hmem]
          · rw [Dict.size_set_of_notMem hmem]
            exact Nat.succ_le_of_lt (Nat.lt_of_not_le fun h => hfull ⟨hmem, h⟩) })
  else (false, book)

def ancestors (book : Lineage) (subject : Bytes) : List Bytes :=
  (book.bySubject.get? subject).getD []

/-- Every member whose original chain ran through `ancestor`. -/
def descendants (book : Lineage) (ancestor : Bytes) : List Bytes :=
  (book.bySubject.entries.filter fun e => decide (ancestor ∈ e.2)).map Prod.fst

def forget (book : Lineage) (subject : Bytes) : Lineage where
  bySubject := book.bySubject.pop subject
  max := book.max
  lineal subject' chain hget := by
    rw [Dict.get?_pop] at hget
    split_ifs at hget
    exact book.lineal subject' chain hget
  bounded := (List.length_filter_le _ _).trans book.bounded

def toJson (book : Lineage) : Json :=
  .obj (book.bySubject.entries.map fun e => (toHex e.1, .arr (e.2.map fun a => .str (toHex a))))

/-- One member of a saved book, if it has the shape of a lineage. -/
def readEntry (subjectHex : Text) (chain : Json) : Option (Bytes × List Bytes) :=
  match chain with
  | .arr chain => do
    let subject ← fromHex subjectHex
    let ancestors ← (chain.filterMap Json.text?).mapM fromHex
    guard (ancestors.length = chain.length)
    return (subject, ancestors)
  | _ => none

def readMember (book : Lineage) (e : Text × Json) : Lineage :=
  match readEntry e.1 e.2 with
  | none => book
  | some (subject, ancestors) => (book.record subject ancestors).2

/-- Read back defensively: anything that is not a lineage is skipped. -/
def fromJson (data : Json) (maxEntries : ℕ) : Lineage :=
  match data with
  | .obj members => members.foldl readMember (new maxEntries)
  | _ => new maxEntries

variable {book : Lineage} {subject : Bytes}

theorem mem_descendants {ancestor : Bytes} :
    subject ∈ book.descendants ancestor ↔ ancestor ∈ book.ancestors subject := by
  unfold descendants ancestors
  simp only [List.mem_map, List.mem_filter, decide_eq_true_eq, Prod.exists, exists_and_right,
    exists_eq_right]
  constructor
  · rintro ⟨chain, hmem, ha⟩
    rw [Dict.get?_eq_some.mpr hmem]
    exact ha
  · intro ha
    cases hget : book.bySubject.get? subject with
    | none =>
      rw [hget] at ha
      cases ha
    | some chain =>
      rw [hget] at ha
      exact ⟨chain, Dict.get?_eq_some.mp hget, ha⟩

theorem record_granted {chain : List Bytes} (h : (book.record subject chain).1 = true) : Lineal subject chain ∧
      (book.record subject chain).2.bySubject = book.bySubject.set subject chain := by
  unfold record at h ⊢
  split_ifs at h ⊢ with hl hfull
  exact ⟨hl, rfl⟩

/-! ### A saved book is read back -/

theorem mapM_fromHex : ∀ chain : List Bytes, (chain.map toHex).mapM fromHex = some chain
  | [] => rfl
  | a :: chain => by
    rw [List.map_cons, List.mapM_cons, fromHex_toHex, mapM_fromHex chain]
    rfl

theorem readEntry_toJson (subject : Bytes) (chain : List Bytes) :
    readEntry (toHex subject) (.arr (chain.map fun a => .str (toHex a))) = some (subject, chain) := by
  have htexts : (chain.map fun a => Json.str (toHex a)).filterMap Json.text? = chain.map toHex := by
    rw [List.filterMap_map]
    exact List.filterMap_eq_map_iff_forall_eq_some.mpr fun a _ => rfl
  unfold readEntry
  dsimp only
  rw [htexts, mapM_fromHex, fromHex_toHex]
  simp

theorem record_room {chain : List Bytes} (hl : Lineal subject chain) (hroom : book.bySubject.size < book.max) :
    (book.record subject chain).2.bySubject = book.bySubject.set subject chain ∧
      (book.record subject chain).2.max = book.max := by
  unfold record
  rw [dif_pos hl, dif_neg fun h => absurd h.2 (Nat.not_le.mpr hroom)]
  exact ⟨rfl, rfl⟩

theorem foldl_readMember : ∀ (es : List (Bytes × List Bytes)) (book : Lineage),
    (∀ e ∈ es, Lineal e.1 e.2) → ((book.bySubject.entries ++ es).map Prod.fst).Nodup →
    book.bySubject.size + es.length ≤ book.max →
    ((es.map fun e => (toHex e.1, Json.arr (e.2.map fun a => .str (toHex a)))).foldl readMember
      book).bySubject.entries = book.bySubject.entries ++ es
  | [], book, _, _, _ => (List.append_nil _).symm
  | (subject, chain) :: es, book, hes, hkeys, hroom => by
    rw [List.length_cons] at hroom
    have hfits : book.bySubject.size < book.max := by omega
    obtain ⟨hset, hmax⟩ := record_room (hes _ List.mem_cons_self) hfits
    have hnew : subject ∉ book.bySubject.keys := fun hmem => by
      rw [List.map_append, List.nodup_append] at hkeys
      exact hkeys.2.2 subject hmem subject List.mem_cons_self rfl
    have hentries := Dict.entries_set_of_notMem hnew chain
    rw [← hset] at hentries
    have hread : readMember book (toHex subject, .arr (chain.map fun a => .str (toHex a))) =
        (book.record subject chain).2 := by
      unfold readMember
      dsimp only
      rw [readEntry_toJson]
    rw [List.map_cons, List.foldl_cons, hread, foldl_readMember es, hentries, List.append_assoc]
    · rfl
    · exact fun e he => hes e (List.mem_cons_of_mem _ he)
    · rwa [hentries, List.append_assoc]
    · rw [hset, hmax, Dict.size_set_of_notMem hnew]
      omega

theorem fromJson_toJson {max : ℕ} (hroom : book.bySubject.size ≤ max) :
    (fromJson book.toJson max).bySubject = book.bySubject := by
  refine Dict.ext ?_
  show ((book.bySubject.entries.map _).foldl readMember (new max)).bySubject.entries = _
  rw [foldl_readMember book.bySubject.entries (new max) (fun e he => book.lineal e.1 e.2 ?_)]
  · rfl
  · exact book.bySubject.nodup
  · rwa [show (new max).bySubject.size = 0 from rfl, Nat.zero_add]
  · exact Dict.get?_eq_some.mpr he

end Lineage

end NMesh.Cert.Descent
