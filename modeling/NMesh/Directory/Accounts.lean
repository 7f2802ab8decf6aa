import NMesh.Directory.Gossip
import NMesh.Directory.Index

/-! # The accounts of a book

After every offer and every `forget` the count of bytes is right and both bounds hold (`Sound`), and every
pointer of the index names a held entry filed under its key, once, in a bucket that is neither empty nor
too long (`Pointed`). An offer answers that it changed our view exactly if its record is held now and
nothing as new was held before (`exact_answer`).

A bucket is cut to its last `maxPerKey` pointers by a slice that cuts nothing where `maxPerKey` is zero
(`uncut`). -/

namespace NMesh.Directory.Accounts

open Base.BigEndian Base.Latest Base.Ordered Base.Runs Base.Utf8
open NMesh.Cert.Identity NMesh.Directory NMesh.Directory.Name NMesh.Directory.Books
open NMesh.Directory.Index NMesh.Directory.Gossip
open NMesh.Directory.PseudoDir (Primitives Claim plain turning claimOf parseClaim)
open NMesh.Directory.PkgDir (Record entryKey)

variable {ι α : Type} [DecidableEq ι]

/-! ### Pointers -/

/-- **Every pointer names a held entry under its key, once**, and no bucket is empty or too long. -/
structure Pointed (b : Book ι α) : Prop where
  pos : 1 ≤ b.maxPerKey
  distinct : ∀ e ∈ b.entries.entries, e.2.keys.Nodup
  solid : ∀ key, b.byKey.get? key ≠ some []
  short : ∀ key, ((bucket b.byKey key).length : ℤ) ≤ b.maxPerKey
  once : ∀ key, (bucket b.byKey key).Nodup
  named : ∀ key, ∀ k ∈ bucket b.byKey key, k ∈ filed b key

theorem unlinks_solid (ident : ι) : ∀ (keys : List Bytes) {byKey : Dict Bytes (List ι)},
    (∀ k, byKey.get? k ≠ some []) → ∀ k, (keys.foldl (unlink ident) byKey).get? k ≠ some []
  | [], _, h => h
  | key :: keys, byKey, h => by
    refine unlinks_solid ident keys fun k => ?_
    unfold unlink
    cases hget : byKey.get? key with
    | none => exact h k
    | some l =>
      dsimp only
      split_ifs with hnil
      · rw [Dict.get?_pop]
        split_ifs
        · exact fun hno => by cases hno
        · exact h k
      · rw [Dict.get?_set]
        split_ifs
        · exact fun hno => hnil (Option.some.inj hno)
        · exact h k

omit [DecidableEq ι] in
theorem links_solid {m : ℤ} (hm : 1 ≤ m) (ident : ι) : ∀ (keys : List Bytes) {byKey : Dict Bytes (List ι)},
    (∀ k, byKey.get? k ≠ some []) → ∀ k, (keys.foldl (link m ident) byKey).get? k ≠ some []
  | [], _, h => h
  | key :: keys, byKey, h => by
    refine links_solid hm ident keys fun k => ?_
    unfold link
    rw [Dict.get?_set]
    split_ifs
    · intro hno
      have hlen : (trim m ((byKey.get? key).getD [] ++ [ident])).length = 0 := by
        rw [Option.some.inj hno]
        rfl
      rw [trim_eq hm, length_rtake, List.length_append, List.length_singleton] at hlen
      omega
    · exact h k

variable {b : Book ι α} {ident : ι} {entry : Entry α}

theorem Pointed.without (h : Pointed b) (hget : b.entries.get? ident = some entry) :
    Pointed (Gossip.without b ident entry) := by
  have hentry : entry.keys.Nodup := h.distinct (ident, entry) (Dict.get?_eq_some.mp hget)
  have hbucket : ∀ key, bucket (Gossip.without b ident entry).byKey key =
      if key ∈ entry.keys then (bucket b.byKey key).erase ident else bucket b.byKey key :=
    fun key => bucket_unlinks ident key hentry
  have hle : ∀ key, (bucket (Gossip.without b ident entry).byKey key).Sublist (bucket b.byKey key) :=
    fun key => by
      rw [hbucket key]
      split_ifs
      · exact List.erase_sublist
      · exact List.Sublist.refl _
  refine ⟨h.pos, fun e he => h.distinct e (List.mem_of_mem_filter he), unlinks_solid ident _ h.solid,
    fun key => ?_, fun key => (h.once key).sublist (hle key), fun key k hk => ?_⟩
  · have hshort := h.short key
    have hlen := (hle key).length_le
    exact le_trans (by exact_mod_cast hlen) hshort
  · have hold := h.named key k ((hle key).subset hk)
    have hne : k ≠ ident := by
      rintro rfl
      obtain ⟨e, he, hkey⟩ := mem_filed.mp hold
      rw [hget] at he
      rw [← Option.some.inj he] at hkey
      rw [hbucket key, if_pos hkey] at hk
      exact (h.once key).not_mem_erase hk
    change k ∈ under key (b.entries.pop ident).entries
    rw [under_pop]
    exact (List.mem_erase_of_ne hne).mpr hold

theorem pointed_enforceBounds : ∀ {n : ℕ} {b : Book ι α}, Pointed b → Pointed (b.enforceBounds n)
  | 0, _, h => h
  | n + 1, b, h => by
    cases hl : b.entries.entries with
    | nil =>
      rw [Book.enforceBounds, hl]
      exact h
    | cons first l =>
      obtain ⟨oldest, e⟩ := first
      have hget : b.entries.get? oldest = some e :=
        Dict.get?_eq_some.mpr (by rw [hl]; exact List.mem_cons_self)
      rw [enforceBounds_cons hl]
      split_ifs
      · exact pointed_enforceBounds (h.without hget)
      · exact h

/-- **Filing an entry**, where the pointers are right but for the id. -/
theorem pointed_accept (h : Pointed { b with entries := b.entries.pop ident }) (hkeys : entry.keys.Nodup) :
    Pointed (b.accept ident entry) := by
  have hpos : 1 ≤ b.maxPerKey := h.pos
  have hnot : ∀ key, ident ∉ bucket b.byKey key := fun key hin => by
    obtain ⟨e, he, -⟩ := mem_filed.mp (h.named key ident hin)
    change (b.entries.pop ident).get? ident = some e at he
    rw [Dict.get?_pop_self] at he
    cases he
  have hlist := Dict.entries_refile b.entries ident entry
  have hbucket : ∀ key, bucket (entry.keys.foldl (link b.maxPerKey ident) b.byKey) key =
      if key ∈ entry.keys then (bucket b.byKey key ++ [ident]).rtake b.maxPerKey.toNat
      else bucket b.byKey key := fun key => by
    rw [bucket_links _ _ _ hkeys, trim_eq hpos]
  unfold Book.accept
  refine pointed_enforceBounds ⟨hpos, fun e he => ?_, links_solid hpos ident _ h.solid, fun key => ?_,
    fun key => ?_, fun key k hk => ?_⟩
  · have hin : e ∈ ((b.entries.set ident entry).moveToEnd ident).entries := he
    rw [hlist, List.mem_append, List.mem_singleton] at hin
    rcases hin with hin | rfl
    · exact h.distinct e hin
    · exact hkeys
  · change ((bucket (entry.keys.foldl (link b.maxPerKey ident) b.byKey) key).length : ℤ) ≤ b.maxPerKey
    rw [hbucket key]
    split_ifs
    · rw [length_rtake]
      omega
    · exact h.short key
  · change (bucket (entry.keys.foldl (link b.maxPerKey ident) b.byKey) key).Nodup
    have hnodup : (bucket b.byKey key ++ [ident]).Nodup :=
      List.nodup_append.mpr ⟨h.once key, List.nodup_singleton ident, fun a ha c hc => by
        rw [List.mem_singleton.mp hc]
        rintro rfl
        exact hnot key ha⟩
    rw [hbucket key]
    split_ifs
    · exact hnodup.sublist (List.drop_sublist _ _)
    · exact h.once key
  · change k ∈ under key ((b.entries.set ident entry).moveToEnd ident).entries
    change k ∈ bucket (entry.keys.foldl (link b.maxPerKey ident) b.byKey) key at hk
    rw [hlist, under_append, List.mem_append]
    rw [hbucket key] at hk
    split_ifs at hk ⊢
    · rcases List.mem_append.mp (List.mem_of_mem_drop hk) with hk | hk
      · exact Or.inl (h.named key k hk)
      · exact Or.inr hk
    · exact Or.inl (h.named key k hk)

/-! ### Bounds -/

omit [DecidableEq ι] in
def limits (b : Book ι α) : ℤ × ℤ × ℤ := (b.maxEntries, b.maxBytes, b.maxPerKey)

theorem enforceBounds_nil (hl : b.entries.entries = []) : ∀ n : ℕ, b.enforceBounds n = b
  | 0 => rfl
  | n + 1 => by rw [Book.enforceBounds, hl]; rfl

theorem limits_enforceBounds : ∀ (n : ℕ) (b : Book ι α), limits (b.enforceBounds n) = limits b
  | 0, _ => rfl
  | n + 1, b => by
    cases hl : b.entries.entries with
    | nil => rw [enforceBounds_nil hl]
    | cons first l =>
      rw [enforceBounds_cons hl]
      split_ifs
      · exact limits_enforceBounds n _
      · rfl

theorem within_enforceBounds : ∀ {n : ℕ} {b : Book ι α}, Counted b → b.entries.size ≤ n →
    0 ≤ b.maxEntries → 0 ≤ b.maxBytes → ¬ (b.enforceBounds n).overfull
  | n, b, h, hn, hentries, hbytes => by
    cases hl : b.entries.entries with
    | nil =>
      have hzero : b.bytes = 0 := by rw [h, hl]; rfl
      have hsize : b.entries.size = 0 := by rw [Dict.size, hl]; rfl
      rw [enforceBounds_nil hl, Book.overfull, hzero, hsize]
      push_cast
      omega
    | cons first l =>
      obtain ⟨oldest, e⟩ := first
      have hsize : b.entries.size = l.length + 1 := by rw [Dict.size, hl, List.length_cons]
      have hget : b.entries.get? oldest = some e :=
        Dict.get?_eq_some.mpr (by rw [hl]; exact List.mem_cons_self)
      cases n with
      | zero => omega
      | succ n =>
        rw [enforceBounds_cons hl]
        split_ifs with hover
        · refine within_enforceBounds (h.without hget) ?_ hentries hbytes
          change (b.entries.pop oldest).size ≤ n
          rw [Dict.size, Dict.entries_pop_first hl]
          omega
        · exact hover

/-- **The state of a book between calls.** -/
structure Sound (b : Book ι α) : Prop where
  counted : Counted b
  pointed : Pointed b
  entries_nonneg : 0 ≤ b.maxEntries
  bytes_nonneg : 0 ≤ b.maxBytes
  within : ¬ b.overfull

/-- **Filing an entry** in a book whose accounts are right but for the id. -/
theorem sound_accept (hcount : b.bytes = Gossip.sizeOf (b.entries.pop ident).entries)
    (hpointed : Pointed { b with entries := b.entries.pop ident }) (hentries : 0 ≤ b.maxEntries)
    (hbytes : 0 ≤ b.maxBytes) (hkeys : entry.keys.Nodup) :
    Sound (b.accept ident entry) ∧ limits (b.accept ident entry) = limits b := by
  obtain ⟨-, h2, h3, -⟩ := b.accept_keeps ident entry
  have hlimits : limits (b.accept ident entry) = limits b := limits_enforceBounds _ _
  refine ⟨⟨(mem_accept hcount).1, pointed_accept hpointed hkeys, by rw [h2]; exact hentries,
    by rw [h3]; exact hbytes, ?_⟩, hlimits⟩
  have hcounted : Counted { b with
      entries := (b.entries.set ident entry).moveToEnd ident
      bytes := b.bytes + entry.raw.length
      byKey := entry.keys.foldl (link b.maxPerKey ident) b.byKey } := by
    change b.bytes + entry.raw.length = Gossip.sizeOf ((b.entries.set ident entry).moveToEnd ident).entries
    rw [Dict.entries_refile, sizeOf_append, hcount]
  exact within_enforceBounds hcounted le_rfl hentries hbytes

variable {R : Rules ι α}

/-- **An offer keeps the accounts**, unless it is taken with a key that repeats. -/
theorem Sound.offer (h : Sound b) (hkeys : Taken b ident entry → entry.keys.Nodup) :
    Sound (b.offer R ident entry).2 ∧ limits (b.offer R ident entry).2 = limits b := by
  rcases b.offer_cases R ident entry with ⟨-, heq⟩ | ⟨-, hnone, heq⟩ |
    ⟨current, _, rfl, -, hget, ⟨-, heq⟩ | ⟨hts, b', rfl, heq⟩⟩
  · rw [heq]
    exact ⟨h, rfl⟩
  · have hpop : b.entries.pop ident = b.entries := Dict.pop_of_notMem (Dict.get?_eq_none.mp hnone)
    rw [heq]
    refine sound_accept (sizeOf_pop_none h.counted hnone) ?_ h.entries_nonneg h.bytes_nonneg
      (hkeys fun current hc => by rw [hnone] at hc; cases hc)
    rw [hpop]
    exact h.pointed
  · rw [heq]
    exact ⟨⟨h.counted, ⟨h.pointed.pos, h.pointed.distinct, h.pointed.solid, h.pointed.short,
      h.pointed.once, h.pointed.named⟩, h.entries_nonneg, h.bytes_nonneg, h.within⟩, rfl⟩
  · have hrest := h.pointed.without hget
    have hnodup : entry.keys.Nodup := hkeys fun e he => by
      rw [hget] at he
      rw [← Option.some.inj he]
      exact hts
    rw [heq]
    refine sound_accept ?_ ⟨hrest.pos, hrest.distinct, hrest.solid, hrest.short, hrest.once, hrest.named⟩
      h.entries_nonneg h.bytes_nonneg hnodup
    change b.bytes - current.raw.length = Gossip.sizeOf (b.entries.pop ident).entries
    rw [sizeOf_pop hget, h.counted]

theorem Sound.forget (h : Sound b) (ident : ι) : Sound (b.forget ident) ∧ limits (b.forget ident) = limits b := by
  unfold Book.forget
  cases hget : b.entries.get? ident with
  | none => exact ⟨h, rfl⟩
  | some entry =>
    refine ⟨⟨h.counted.without hget, h.pointed.without hget, h.entries_nonneg, h.bytes_nonneg, ?_⟩, rfl⟩
    have hwithin := h.within
    have hsize := Dict.size_pop_le b.entries ident
    unfold Book.overfull at hwithin ⊢
    change ¬ (b.maxEntries < ((b.entries.pop ident).size : ℤ) ∨ b.maxBytes < b.bytes - entry.raw.length)
    omega

/-! ### Answers -/

/-- **An offer answers that it changed our view exactly if its record is held now**, and none as new was
held of its id before. -/
theorem exact_answer (h : Counted b) (ident : ι) (entry : Entry α) :
    (b.offer R ident entry).1 = true ↔ (b.offer R ident entry).2.entries.get? ident = some entry ∧
      ∀ current, b.entries.get? ident = some current → current.ts < entry.ts := by
  have ho := offered (R := R) h ident entry
  constructor
  · exact fun ha => ⟨ho.held ha, ho.newer ha⟩
  · rintro ⟨hheld, hnewer⟩
    rcases ho.old ident entry hheld with hold | ⟨-, -, ha⟩
    · exact absurd (hnewer entry hold) (lt_irrefl _)
    · exact ha

/-! ### Runs -/

/-- A call: something is offered, or an id forgotten. -/
inductive Call (ω ι : Type)
  | offer (offered : ω)
  | forget (ident : ι)

variable {ω : Type} {filing : ω → Option (ι × Entry α)}

variable (R filing) in
/-- The book after a call; `filing` says what an offer is filed as, where it can be filed. -/
def call (b : Book ι α) : Call ω ι → Book ι α
  | .offer offered =>
    match filing offered with
    | none => b
    | some (ident, entry) => (b.offer R ident entry).2
  | .forget ident => b.forget ident

/-- A record that is taken in has its directory keys once each. -/
def Distinct (filing : ω → Option (ι × Entry α)) (b : Book ι α) : Call ω ι → Prop
  | .offer offered => ∀ filed ∈ filing offered, Taken b filed.1 filed.2 → filed.2.keys.Nodup
  | .forget _ => True

instance (filing : ω → Option (ι × Entry α)) (b : Book ι α) (c : Call ω ι) :
    Decidable (Distinct filing b c) := by
  cases c <;> unfold Distinct <;> infer_instance

theorem call_some (b : Book ι α) {offered : ω} (h : filing offered = some (ident, entry)) :
    call R filing b (.offer offered) = (b.offer R ident entry).2 := by
  simp only [call, h]

theorem Sound.call (h : Sound b) {c : Call ω ι} (hc : Distinct filing b c) :
    Sound (call R filing b c) ∧ limits (call R filing b c) = limits b := by
  cases c with
  | offer offered =>
    cases hf : filing offered with
    | none =>
      have hsame : Accounts.call R filing b (.offer offered) = b := by simp only [Accounts.call, hf]
      rw [hsame]
      exact ⟨h, rfl⟩
    | some filed =>
      rw [call_some b hf]
      exact h.offer (hc filed hf)
  | forget ident => exact h.forget ident

/-- **What holds of a book after every call**, and of the answer to any offer it may get. -/
structure Accounted (R : Rules ι α) (limit : ℤ × ℤ × ℤ) (b : Book ι α) : Prop where
  bytes : b.bytes = Gossip.sizeOf b.entries.entries
  entries_le : (b.entries.size : ℤ) ≤ limit.1
  bytes_le : b.bytes ≤ limit.2.1
  buckets : ∀ key pointers, b.byKey.get? key = some pointers → pointers ≠ [] ∧
    (pointers.length : ℤ) ≤ limit.2.2 ∧ pointers.Nodup ∧
    ∀ ident ∈ pointers, ∃ entry, b.entries.get? ident = some entry ∧ key ∈ entry.keys
  answer : ∀ ident entry, (b.offer R ident entry).1 = true ↔
    (b.offer R ident entry).2.entries.get? ident = some entry ∧
      ∀ current, b.entries.get? ident = some current → current.ts < entry.ts

theorem Sound.accounted (h : Sound b) : Accounted R (limits b) b := by
  have hwithin := h.within
  unfold Book.overfull at hwithin
  refine ⟨h.counted, ?_, ?_, fun key pointers hget => ?_, exact_answer h.counted⟩
  · change (b.entries.size : ℤ) ≤ b.maxEntries
    omega
  · change b.bytes ≤ b.maxBytes
    omega
  · have hbucket : bucket b.byKey key = pointers := by rw [bucket, hget]; rfl
    refine ⟨?_, ?_, ?_, fun ident hin => ?_⟩
    · rintro rfl
      exact h.pointed.solid key hget
    · rw [← hbucket]
      exact h.pointed.short key
    · rw [← hbucket]
      exact h.pointed.once key
    · rw [← hbucket] at hin
      exact mem_filed.mp (h.pointed.named key ident hin)

omit [DecidableEq ι] in
theorem pointed_new {maxEntries maxBytes maxPerKey : ℤ} (h : 1 ≤ maxPerKey) :
    Pointed (Book.new maxEntries maxBytes maxPerKey : Book ι α) where
  pos := h
  distinct := fun e he => by cases he
  solid := fun key hno => by cases hno
  short := fun _ => by change (0 : ℤ) ≤ maxPerKey; omega
  once := fun _ => List.nodup_nil
  named := fun key k hk => by cases hk

theorem run_accounted {maxEntries maxBytes maxPerKey : ℤ} (hentries : 0 ≤ maxEntries)
    (hbytes : 0 ≤ maxBytes) (hpos : 1 ≤ maxPerKey) {calls : List (Call ω ι)}
    (h : Guarded (call R filing) (Distinct filing) (.new maxEntries maxBytes maxPerKey) calls) :
    Accounted R (maxEntries, maxBytes, maxPerKey)
      (run (call R filing) (.new maxEntries maxBytes maxPerKey) calls) := by
  have hnew : Sound (Book.new maxEntries maxBytes maxPerKey : Book ι α) := by
    refine ⟨counted_new _ _ _, pointed_new hpos, hentries, hbytes, ?_⟩
    change ¬ (maxEntries < ((0 : ℕ) : ℤ) ∨ maxBytes < 0)
    omega
  have hrun := Guarded.run_induct
    (P := fun b : Book ι α => Sound b ∧ limits b = (maxEntries, maxBytes, maxPerKey))
    (fun b c hb hc => ⟨(hb.1.call hc).1, (hb.1.call hc).2.trans hb.2⟩) ⟨hnew, rfl⟩ h
  rw [← hrun.2]
  exact hrun.1.accounted

def fileClaim (offered : Claim × Bytes) : Option (NodeID × Entry Claim) :=
  some (offered.1.nodeId, claimEntry offered.1 offered.2)

def fileRecord (U : Unicode) (P : Primitives) (offered : Record × Bytes) : Option (Bytes × Entry Record) :=
  (entryKey U P offered.1).map fun ident => (ident, recordEntry offered.1 offered.2)

/-- **The accounts of both books.** After every run of offers and `forget` in which no record taken in
repeats a directory key, in a book that may hold at least one pointer a key. -/
theorem books_accounted (U : Unicode) (P : Primitives) (maxEntries maxBytes maxPerKey : ℤ)
    (hentries : 0 ≤ maxEntries) (hbytes : 0 ≤ maxBytes) (hpos : 1 ≤ maxPerKey) :
    (∀ calls : List (Call (Claim × Bytes) NodeID), Guarded (call pseudoRules fileClaim)
        (Distinct fileClaim) (.new maxEntries maxBytes maxPerKey) calls →
      Accounted pseudoRules (maxEntries, maxBytes, maxPerKey)
        (run (call pseudoRules fileClaim) (.new maxEntries maxBytes maxPerKey) calls)) ∧
    ∀ calls : List (Call (Record × Bytes) Bytes), Guarded (call packageRules (fileRecord U P))
        (Distinct (fileRecord U P)) (.new maxEntries maxBytes maxPerKey) calls →
      Accounted packageRules (maxEntries, maxBytes, maxPerKey)
        (run (call packageRules (fileRecord U P)) (.new maxEntries maxBytes maxPerKey) calls) :=
  ⟨fun _ h => run_accounted hentries hbytes hpos h, fun _ h => run_accounted hentries hbytes hpos h⟩

def claiming (pubkey : UInt8) (name : String) (ts : ℕ) : List (Call (Claim × Bytes) NodeID) :=
  (parseClaim plain turning (claimOf pubkey name ts)).toList.map fun claim =>
    .offer (claim, claimOf pubkey name ts)

theorem books_accounted_renamed : Accounted pseudoRules (10, 100000, 2)
    (run (call pseudoRules fileClaim) (.new 10 100000 2)
      (claiming 1 "al" 1 ++ claiming 2 "al" 1 ++ claiming 3 "al" 1 ++ claiming 1 "bo" 2 ++
        [.forget (turning.fromPublicKey [2])])) :=
  (books_accounted plain turning 10 100000 2 (by decide) (by decide) (by decide)).1 _ (by decide +kernel)

def unlinked : PseudoBook :=
  run (call pseudoRules fileClaim) (.new 10 100000 0) (claiming 1 "al" 1)

/-- It holds one all the same. -/
theorem uncut : (PseudoDir.dirKey plain turning (ascii "al")).bind unlinked.byKey.get? =
      some [turning.fromPublicKey [1]] ∧
    ¬ Accounted pseudoRules (10, 100000, 0) unlinked := by
  have hkey : PseudoDir.dirKey plain turning (ascii "al") =
      some (turning.digest (PseudoDir.domain ++ PseudoDir.bytesOf ":al")) := by decide +kernel
  have hget : unlinked.byKey.get? (turning.digest (PseudoDir.domain ++ PseudoDir.bytesOf ":al")) =
      some [turning.fromPublicKey [1]] := by decide +kernel
  refine ⟨by rw [hkey, Option.bind_some, hget], fun h => ?_⟩
  have hle := (h.buckets _ _ hget).2.1
  change (1 : ℤ) ≤ 0 at hle
  omega

end NMesh.Directory.Accounts
