import NMesh.Base.Latest
import NMesh.Base.Runs
import NMesh.Directory.Books

/-! # What the index knows

`filed` are the ids held under a key, in the order they were filed, and `newest` what a lookup should
give: the raw records of the last `maxPerKey` of them. `Indexed` says that every bucket of the index holds
exactly these ids.

Filing, re-filing and dropping the oldest entry keep a book indexed (`Indexed.accept`). An entry that
leaves a key otherwise does so only if it is not one of the newest of more than `maxPerKey`: its place in
the bucket is not given back to the one that was trimmed for it (`Hides`). -/

namespace NMesh.Directory.Index

open Base.BigEndian Base.Latest Base.Ordered Base.Runs Base.Utf8
open NMesh.Cert.Identity NMesh.Directory NMesh.Directory.Name NMesh.Directory.Books
open NMesh.Directory.PseudoDir (Primitives plain turning claimOf)

variable {ι α : Type}

/-! ### Buckets -/

def bucket (byKey : Dict Bytes (List ι)) (key : Bytes) : List ι := (byKey.get? key).getD []

theorem bucket_links (m : ℤ) (ident : ι) (k : Bytes) :
    ∀ {keys : List Bytes} {byKey : Dict Bytes (List ι)}, keys.Nodup →
      bucket (keys.foldl (link m ident) byKey) k =
        if k ∈ keys then trim m (bucket byKey k ++ [ident]) else bucket byKey k
  | [], _, _ => by simp
  | key :: keys, byKey, h => by
    obtain ⟨hkey, hn⟩ := List.nodup_cons.mp h
    have hlink : bucket (link m ident byKey key) k =
        if k = key then trim m (bucket byKey k ++ [ident]) else bucket byKey k := by
      unfold bucket link
      split_ifs with hk
      · rw [hk, Dict.get?_set_self]; rfl
      · rw [Dict.get?_set_of_ne _ (Ne.symm hk)]
    rw [List.foldl_cons, bucket_links m ident k hn, hlink]
    by_cases hk : k = key
    · subst hk
      rw [if_neg hkey, if_pos rfl, if_pos List.mem_cons_self]
    · simp only [hk, if_false, List.mem_cons, false_or]

theorem trim_eq {m : ℤ} (h : 1 ≤ m) (l : List ι) : trim m l = l.rtake m.toNat := by
  unfold trim
  rw [if_pos (by omega)]
  rfl

def under (key : Bytes) (l : List (ι × Entry α)) : List ι :=
  (l.filter fun e => decide (key ∈ e.2.keys)).map Prod.fst

variable {key : Bytes}

theorem under_nodup {l : List (ι × Entry α)} (h : (l.map Prod.fst).Nodup) :
    (under key l).Nodup := h.sublist (List.Sublist.map _ List.filter_sublist)

theorem under_cons (key : Bytes) (l : List (ι × Entry α)) (ident : ι) (entry : Entry α) :
    under key ((ident, entry) :: l) =
      if key ∈ entry.keys then ident :: under key l else under key l := by
  unfold under
  rw [List.filter_cons]
  by_cases hk : key ∈ entry.keys <;> simp [hk]

theorem under_append (key : Bytes) (l : List (ι × Entry α)) (ident : ι) (entry : Entry α) :
    under key (l ++ [(ident, entry)]) = under key l ++ if key ∈ entry.keys then [ident] else [] := by
  unfold under
  rw [List.filter_append, List.map_append]
  split_ifs with hk <;> simp [hk]

variable [DecidableEq ι]

theorem bucket_unlink (ident : ι) (byKey : Dict Bytes (List ι)) (key k : Bytes) :
    bucket (unlink ident byKey key) k =
      if k = key then (bucket byKey k).erase ident else bucket byKey k := by
  unfold bucket unlink
  cases hget : byKey.get? key with
  | none =>
    dsimp only
    split_ifs with hk
    · rw [hk, hget]; rfl
    · rfl
  | some l =>
    dsimp only
    split_ifs with hnil hk hk
    · rw [hk, Dict.get?_pop_self, hget, Option.getD_some, hnil]; rfl
    · rw [Dict.get?_pop_of_ne _ hk]
    · rw [hk, Dict.get?_set_self, hget]; rfl
    · rw [Dict.get?_set_of_ne _ (Ne.symm hk)]

theorem bucket_unlinks (ident : ι) (k : Bytes) : ∀ {keys : List Bytes} {byKey : Dict Bytes (List ι)},
    keys.Nodup → bucket (keys.foldl (unlink ident) byKey) k =
      if k ∈ keys then (bucket byKey k).erase ident else bucket byKey k
  | [], _, _ => by simp
  | key :: keys, byKey, h => by
    obtain ⟨hkey, hn⟩ := List.nodup_cons.mp h
    rw [List.foldl_cons, bucket_unlinks ident k hn, bucket_unlink]
    by_cases hk : k = key
    · subst hk
      rw [if_neg hkey, if_pos rfl, if_pos List.mem_cons_self]
    · simp only [hk, if_false, List.mem_cons, false_or]

/-! ### Indexed books -/

/-- **What a lookup should give**: the raw records of the newest `maxPerKey` entries held under a key. -/
def newest (b : Book ι α) (key : Bytes) : List Bytes :=
  ((b.entries.entries.filter fun e => decide (key ∈ e.2.keys)).map fun e => e.2.raw).rtake
    b.maxPerKey.toNat

/-- The ids held under a key, in the order they were filed. -/
def filed (b : Book ι α) (key : Bytes) : List ι := under key b.entries.entries

/-- **Every bucket holds the newest ids under its key.** -/
structure Indexed (b : Book ι α) : Prop where
  pos : 1 ≤ b.maxPerKey
  distinct : ∀ e ∈ b.entries.entries, e.2.keys.Nodup
  newest : ∀ key, bucket b.byKey key = (filed b key).rtake b.maxPerKey.toNat

theorem under_pop (key : Bytes) (d : Dict ι (Entry α)) (ident : ι) :
    under key (d.pop ident).entries = (under key d.entries).erase ident := by
  rw [(under_nodup d.nodup).erase_eq_filter]
  show ((d.entries.filter _).filter _).map _ = ((d.entries.filter _).map _).filter _
  rw [List.filter_map, List.filter_filter, List.filter_filter]
  refine congrArg _ (List.filter_congr fun e _ => ?_)
  by_cases hk : e.1 = ident <;> simp [hk]

variable {b : Book ι α} {ident : ι} {entry : Entry α}

theorem Indexed.get (h : Indexed b) (key : Bytes) : b.get key = Index.newest b key := by
  have hall : ∀ l : List (ι × Entry α), (∀ e ∈ l, e ∈ b.entries.entries) →
      (l.map Prod.fst).filterMap (fun k => (b.entries.get? k).map (·.raw)) = l.map (·.2.raw) := by
    intro l hl
    rw [List.filterMap_map]
    have hsome : ∀ e ∈ l, ((fun k => (b.entries.get? k).map (·.raw)) ∘ Prod.fst) e =
        some e.2.raw := fun e he => by
      show (b.entries.get? e.1).map (·.raw) = some e.2.raw
      rw [Dict.get?_eq_some.mpr (hl e he)]
      rfl
    rw [List.filterMap_congr hsome]
    exact congrFun List.filterMap_eq_map' l
  have hbucket := h.newest key
  unfold bucket filed under at hbucket
  unfold Book.get Index.newest
  rw [hbucket, List.rtake, List.length_map, ← List.map_drop, hall, List.map_drop, List.rtake,
    List.length_map]
  exact fun e he => (List.mem_filter.mp (List.mem_of_mem_drop he)).1

theorem Indexed.evict (h : Indexed b) {l : List (ι × Entry α)}
    (hl : b.entries.entries = (ident, entry) :: l) :
    Indexed (({ b with entries := b.entries.pop ident }).unindex ident entry) := by
  have hrest : (b.entries.pop ident).entries = l := Dict.entries_pop_first hl
  have hn := b.entries.nodup
  rw [hl, List.map_cons, List.nodup_cons] at hn
  refine ⟨h.pos, fun e he => ?_, fun key => ?_⟩
  · refine h.distinct e ?_
    have hin : e ∈ (b.entries.pop ident).entries := he
    rw [hrest] at hin
    rw [hl]
    exact List.mem_cons_of_mem _ hin
  · show bucket (entry.keys.foldl (unlink ident) b.byKey) key =
      (under key (b.entries.pop ident).entries).rtake b.maxPerKey.toNat
    have hentry : entry.keys.Nodup := h.distinct (ident, entry) (by rw [hl]; exact List.mem_cons_self)
    have hfiled : filed b key = under key ((ident, entry) :: l) := by unfold filed; rw [hl]
    rw [bucket_unlinks ident key hentry, h.newest key, hrest, hfiled, under_cons]
    split_ifs
    · refine erase_rtake_cons fun hin => hn.1 ?_
      exact (List.Sublist.map _ List.filter_sublist).subset hin
    · rfl

theorem Indexed.enforceBounds : ∀ {n : ℕ} {b : Book ι α}, Indexed b → Indexed (b.enforceBounds n)
  | 0, _, h => h
  | n + 1, b, h => by
    rw [Book.enforceBounds]
    cases hl : b.entries.entries with
    | nil => exact h
    | cons e l =>
      show Indexed (if b.overfull then _ else b)
      split_ifs
      · exact Indexed.enforceBounds (h.evict hl)
      · exact h

/-- Taking `ident` from under `key` uncovers an entry that was trimmed. -/
def Hides (b : Book ι α) (key : Bytes) (ident : ι) : Prop :=
  ident ∈ (filed b key).rtake b.maxPerKey.toNat ∧ b.maxPerKey.toNat < (filed b key).length

instance (b : Book ι α) (key : Bytes) (ident : ι) : Decidable (Hides b key ident) :=
  inferInstanceAs (Decidable (_ ∧ _))

theorem erase_newest (h : ¬ Hides b key ident) : ((filed b key).rtake b.maxPerKey.toNat).erase ident =
      ((filed b key).erase ident).rtake b.maxPerKey.toNat := by
  refine erase_rtake ?_
  by_contra hno
  rw [not_or, not_le, not_not] at hno
  exact h ⟨hno.2, hno.1⟩

theorem mem_filed : ident ∈ filed b key ↔ ∃ entry, b.entries.get? ident = some entry ∧ key ∈ entry.keys := by
  unfold filed under
  simp only [List.mem_map, List.mem_filter, decide_eq_true_eq, Prod.exists, Dict.get?_eq_some]
  constructor
  · rintro ⟨k, entry, ⟨hin, hkey⟩, rfl⟩
    exact ⟨entry, hin, hkey⟩
  · rintro ⟨entry, hin, hkey⟩
    exact ⟨ident, entry, ⟨hin, hkey⟩, rfl⟩

omit [DecidableEq ι] in
theorem not_hides (h : ident ∉ filed b key) : ¬ Hides b key ident :=
  fun hno => h (List.mem_of_mem_drop hno.1)

/-- **Filing an entry**: the pointers of the id were taken away, and that uncovers nothing under the keys
the entry does not have. -/
theorem indexed_accept (hpos : 1 ≤ b.maxPerKey) (hdistinct : ∀ e ∈ b.entries.entries, e.2.keys.Nodup)
    (hbucket : ∀ key, bucket b.byKey key = ((filed b key).rtake b.maxPerKey.toNat).erase ident)
    (hkeys : entry.keys.Nodup) (hhides : ∀ key, key ∉ entry.keys → ¬ Hides b key ident) :
    Indexed (b.accept ident entry) := by
  unfold Book.accept
  refine Indexed.enforceBounds ⟨hpos, fun e he => ?_, fun key => ?_⟩
  · have hin : e ∈ ((b.entries.set ident entry).moveToEnd ident).entries := he
    rw [Dict.entries_refile, List.mem_append, List.mem_singleton] at hin
    rcases hin with hin | rfl
    · exact hdistinct e (List.mem_of_mem_filter hin)
    · exact hkeys
  · show bucket (entry.keys.foldl (link b.maxPerKey ident) b.byKey) key =
      (under key ((b.entries.set ident entry).moveToEnd ident).entries).rtake b.maxPerKey.toNat
    have hn : (filed b key).Nodup := under_nodup b.entries.nodup
    rw [bucket_links _ _ _ hkeys, hbucket key, Dict.entries_refile, under_append, under_pop]
    split_ifs with hk
    · rw [trim_eq hpos]
      exact rtake_refile hn
    · rw [List.append_nil]
      exact erase_newest (hhides key hk)

def Taken (b : Book ι α) (ident : ι) (entry : Entry α) : Prop :=
  ∀ current ∈ b.entries.get? ident, current.ts < entry.ts

instance (b : Book ι α) (ident : ι) (entry : Entry α) : Decidable (Taken b ident entry) := by
  unfold Taken; infer_instance

/-- **What an offer must not do**: come with a key twice, or take the held entry from a key where that
uncovers a trimmed one. -/
def OfferKeeps (b : Book ι α) (ident : ι) (entry : Entry α) : Prop :=
  Taken b ident entry → entry.keys.Nodup ∧ ∀ current ∈ b.entries.get? ident,
    ∀ key ∈ current.keys, key ∉ entry.keys → ¬ Hides b key ident

/-- What `forget` must not do. -/
def ForgetKeeps (b : Book ι α) (ident : ι) : Prop :=
  ∀ current ∈ b.entries.get? ident, ∀ key ∈ current.keys, ¬ Hides b key ident

instance (b : Book ι α) (ident : ι) (entry : Entry α) : Decidable (OfferKeeps b ident entry) := by
  unfold OfferKeeps; infer_instance

instance (b : Book ι α) (ident : ι) : Decidable (ForgetKeeps b ident) := by
  unfold ForgetKeeps; infer_instance

variable {R : Rules ι α}

theorem erase_bucket (h : ident ∉ filed b key) (m : ℕ) :
    ((filed b key).rtake m).erase ident = (filed b key).rtake m :=
  List.erase_of_not_mem fun hin => h (List.mem_of_mem_drop hin)

/-- **An offer.** -/
theorem Indexed.offer (h : Indexed b) (hk : OfferKeeps b ident entry) :
    Indexed (b.offer R ident entry).2 := by
  rcases b.offer_cases R ident entry with ⟨-, heq⟩ | ⟨-, hnone, heq⟩ |
    ⟨current, _, rfl, -, hget, ⟨-, heq⟩ | ⟨hts, b', rfl, heq⟩⟩
  · rw [heq]
    exact h
  · -- a new entry
    have hnot : ∀ key, ident ∉ filed b key := fun key hin => by
      obtain ⟨e, he, -⟩ := mem_filed.mp hin
      rw [hnone] at he
      cases he
    obtain ⟨hkeys, -⟩ := hk fun current hc => by rw [hnone] at hc; cases hc
    rw [heq]
    refine indexed_accept h.pos h.distinct (fun key => ?_) hkeys fun key _ => not_hides (hnot key)
    rw [h.newest key, erase_bucket (hnot key)]
  · rw [heq]
    exact ⟨h.pos, h.distinct, h.newest⟩
  · -- in the place of the one held
    have hcurrent : ∀ e ∈ b.entries.get? ident, e = current := fun e he => by
      rw [hget] at he
      exact (Option.some.inj he).symm
    obtain ⟨hkeys, hhides⟩ := hk fun e he => by rw [hcurrent e he]; exact hts
    have hold : ∀ key, key ∉ current.keys → ident ∉ filed b key := fun key hno hin => by
      obtain ⟨e, he, hkey⟩ := mem_filed.mp hin
      rw [hcurrent e he] at hkey
      exact hno hkey
    rw [heq]
    refine indexed_accept h.pos h.distinct (fun key => ?_) hkeys fun key hno => ?_
    · show bucket (current.keys.foldl (unlink ident) b.byKey) key =
        ((filed b key).rtake b.maxPerKey.toNat).erase ident
      rw [bucket_unlinks ident key (h.distinct (ident, current) (Dict.get?_eq_some.mp hget)),
        h.newest key]
      split_ifs with hkey
      · rfl
      · exact (erase_bucket (hold key hkey) _).symm
    · by_cases hkey : key ∈ current.keys
      · exact hhides current hget key hkey hno
      · exact not_hides (hold key hkey)

/-- **Forgetting.** -/
theorem Indexed.forget (h : Indexed b) (hk : ForgetKeeps b ident) : Indexed (b.forget ident) := by
  unfold Book.forget
  cases hget : b.entries.get? ident with
  | none => exact h
  | some current =>
    refine ⟨h.pos, fun e he => h.distinct e (List.mem_of_mem_filter he), fun key => ?_⟩
    show bucket (current.keys.foldl (unlink ident) b.byKey) key =
      (under key (b.entries.pop ident).entries).rtake b.maxPerKey.toNat
    rw [bucket_unlinks ident key (h.distinct (ident, current) (Dict.get?_eq_some.mp hget)),
      h.newest key, under_pop]
    split_ifs with hkey
    · exact erase_newest (hk current hget key hkey)
    · have hnot : ident ∉ filed b key := fun hin => by
        obtain ⟨e, he, hin⟩ := mem_filed.mp hin
        rw [hget] at he
        rw [← Option.some.inj he] at hin
        exact hkey hin
      rw [← erase_bucket hnot]
      exact erase_newest (not_hides hnot)

omit [DecidableEq ι] in
theorem indexed_new {maxEntries maxBytes maxPerKey : ℤ} (h : 1 ≤ maxPerKey) :
    Indexed (Book.new maxEntries maxBytes maxPerKey : Book ι α) where
  pos := h
  distinct := fun e he => by cases he
  newest := fun _ => (List.rtake_nil _).symm

/-! ### Runs -/

/-- Something that arrives, or an id to forget. -/
inductive Op (ι : Type)
  | offer (raw : Bytes)
  | forget (ident : ι)

variable (R) in
def apply (read : Bytes → Option (ι × Entry α)) (b : Book ι α) : Op ι → Book ι α
  | .offer raw => (b.receive R read raw).2
  | .forget ident => b.forget ident

/-- An operation takes no entry from a key where that uncovers a trimmed one. -/
def Keeps (read : Bytes → Option (ι × Entry α)) (b : Book ι α) : Op ι → Prop
  | .offer raw => ∀ filing ∈ read raw, OfferKeeps b filing.1 filing.2
  | .forget ident => ForgetKeeps b ident

instance (read : Bytes → Option (ι × Entry α)) (b : Book ι α) (op : Op ι) :
    Decidable (Keeps read b op) := by
  cases op <;> unfold Keeps <;> infer_instance

/-- **One operation.** -/
theorem Indexed.apply {read : Bytes → Option (ι × Entry α)} (h : Indexed b) {op : Op ι}
    (hk : Keeps read b op) : Indexed (apply R read b op) := by
  cases op with
  | offer raw =>
    show Indexed (b.receive R read raw).2
    unfold Book.receive
    cases hread : read raw with
    | none => exact h
    | some filing => exact h.offer (hk filing hread)
  | forget ident => exact h.forget hk

theorem newest_ne_nil (hpos : 1 ≤ b.maxPerKey) (hget : b.entries.get? ident = some entry)
    (hkey : key ∈ entry.keys) : newest b key ≠ [] := by
  have hin : entry.raw ∈ (b.entries.entries.filter fun e => decide (key ∈ e.2.keys)).map
      fun e => e.2.raw :=
    List.mem_map.mpr ⟨(ident, entry), List.mem_filter.mpr ⟨Dict.get?_eq_some.mp hget,
      decide_eq_true hkey⟩, rfl⟩
  have hlen := List.length_pos_of_mem hin
  refine List.ne_nil_of_length_pos ?_
  unfold newest
  rw [length_rtake]
  omega

/-- Every lookup gives the newest of what is held, and something if anything is held. -/
def Complete (b : Book ι α) : Prop := ∀ key, b.get key = newest b key ∧
  ∀ ident entry, b.entries.get? ident = some entry → key ∈ entry.keys → b.get key ≠ []

theorem Indexed.complete (h : Indexed b) : Complete b := by
  refine fun key => ⟨h.get key, fun ident entry hget hkey => ?_⟩
  rw [h.get key]
  exact newest_ne_nil h.pos hget hkey

theorem run_complete {read : Bytes → Option (ι × Entry α)} {maxEntries maxBytes maxPerKey : ℤ}
    (hpos : 1 ≤ maxPerKey) {ops : List (Op ι)}
    (h : Guarded (apply R read) (Keeps read) (.new maxEntries maxBytes maxPerKey) ops) :
    Complete (run (apply R read) (.new maxEntries maxBytes maxPerKey) ops) :=
  (Guarded.run_induct (P := Indexed) (fun _ _ hb hk => hb.apply hk) (indexed_new hpos) h).complete

/-- **A lookup finds the newest of what is held.** In every run of either book whose steps take no entry
from a key where that uncovers one trimmed before, every lookup gives the raw records of the newest
`maxPerKey` entries held under the key, and something if any is held. -/
theorem lookup_complete (U : Unicode) (P : Primitives) (maxEntries maxBytes maxPerKey : ℤ)
    (hpos : 1 ≤ maxPerKey) :
    (∀ ops : List (Op NodeID), Guarded (apply pseudoRules (readClaim U P)) (Keeps (readClaim U P))
      (.new maxEntries maxBytes maxPerKey) ops →
      Complete (run (apply pseudoRules (readClaim U P)) (.new maxEntries maxBytes maxPerKey) ops)) ∧
    ∀ ops : List (Op Bytes), Guarded (apply packageRules (readRecord U P)) (Keeps (readRecord U P))
      (.new maxEntries maxBytes maxPerKey) ops →
      Complete (run (apply packageRules (readRecord U P)) (.new maxEntries maxBytes maxPerKey) ops) :=
  ⟨fun _ h => run_complete hpos h, fun _ h => run_complete hpos h⟩

theorem lookup_complete_renamed : Complete (run (apply pseudoRules (readClaim plain turning))
    (.new 10 100000 2) [.offer (claimOf 1 "al" 1), .offer (claimOf 2 "al" 1), .offer (claimOf 3 "al" 1),
      .offer (claimOf 1 "bo" 2)]) :=
  (lookup_complete plain turning 10 100000 2 (by decide)).1 _ (by decide +kernel)

/-- Two nodes are called `al`, and the second is forgotten. -/
def forgotten : PseudoBook :=
  run (apply pseudoRules (readClaim plain turning)) (.new 10 100000 1)
    [.offer (claimOf 1 "al" 1), .offer (claimOf 2 "al" 1), .forget (turning.fromPublicKey [2])]

/-- The first is still held, and no lookup finds it. -/
theorem lookup_misses : (PseudoDir.dirKey plain turning (ascii "al")).map (newest forgotten) =
    some [claimOf 1 "al" 1] ∧ (PseudoDir.dirKey plain turning (ascii "al")).map forgotten.get = some [] ∧
    ¬ Complete forgotten := by
  have hkey : PseudoDir.dirKey plain turning (ascii "al") =
      some (turning.digest (PseudoDir.domain ++ PseudoDir.bytesOf ":al")) := by decide +kernel
  have hnewest : newest forgotten (turning.digest (PseudoDir.domain ++ PseudoDir.bytesOf ":al")) =
      [claimOf 1 "al" 1] := by decide +kernel
  have hget : forgotten.get (turning.digest (PseudoDir.domain ++ PseudoDir.bytesOf ":al")) = [] := by
    decide +kernel
  refine ⟨by rw [hkey, Option.map_some, hnewest], by rw [hkey, Option.map_some, hget], fun h => ?_⟩
  have hsame := (h (turning.digest (PseudoDir.domain ++ PseudoDir.bytesOf ":al"))).1
  rw [hget, hnewest] at hsame
  cases hsame

end NMesh.Directory.Index
