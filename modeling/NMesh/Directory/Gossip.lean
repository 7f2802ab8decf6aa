import NMesh.Directory.Books
import Mathlib.Algebra.Order.BigOperators.Group.List
import Mathlib.Data.Set.Finite.Basic

/-! # What stops the gossip

An offer answers that it changed our view if it was new, or newer than what was held, and survived the
bounds. It survives exactly if it fits them alone (`mem_accept`), as the oldest entries go first, which
rests on the count of bytes (`Counted`).

An entry that was evicted leaves no memory of its time. `settles_iff` says that the answers are those that
end an epidemic, finitely many and at rising times, exactly if no evicted record comes back. -/

namespace NMesh.Directory.Gossip

open Base.BigEndian Base.Ordered
open NMesh.Cert.Identity NMesh.Directory.Name NMesh.Directory.Books
open NMesh.Directory.PseudoDir (Primitives plain turning claimOf)

variable {ι α : Type} [DecidableEq ι]

/-! ### The count of bytes -/

def sizeOf (l : List (ι × Entry α)) : ℤ := (l.map fun e => (e.2.raw.length : ℤ)).sum

def Counted (b : Book ι α) : Prop := b.bytes = sizeOf b.entries.entries

def Fits (R : Rules ι α) (b : Book ι α) (entry : Entry α) : Prop :=
  entry.raw.length ≤ R.maxRecord ∧ 1 ≤ b.maxEntries ∧ (entry.raw.length : ℤ) ≤ b.maxBytes

variable {R : Rules ι α} {b : Book ι α} {ident : ι} {entry : Entry α}

omit [DecidableEq ι] in
theorem sizeOf_append (l : List (ι × Entry α)) (ident : ι) (entry : Entry α) :
    sizeOf (l ++ [(ident, entry)]) = sizeOf l + entry.raw.length := by
  simp [sizeOf]

omit [DecidableEq ι] in
theorem sizeOf_nonneg (l : List (ι × Entry α)) : 0 ≤ sizeOf l := by
  refine List.sum_nonneg fun n hn => ?_
  obtain ⟨e, -, rfl⟩ := List.mem_map.mp hn
  exact Int.natCast_nonneg _

theorem sizeOf_filter : ∀ {l : List (ι × Entry α)}, (l.map Prod.fst).Nodup → (ident, entry) ∈ l →
    sizeOf (l.filter fun e => decide (e.1 ≠ ident)) = sizeOf l - entry.raw.length
  | e :: l, hn, h => by
    rw [List.map_cons, List.nodup_cons] at hn
    rcases List.mem_cons.mp h with rfl | hin
    · have hall : ∀ e ∈ l, decide (e.1 ≠ ident) = true := fun e he =>
        decide_eq_true fun hk => hn.1 (List.mem_map.mpr ⟨e, he, hk⟩)
      rw [List.filter_cons_of_neg (by simp), List.filter_eq_self.mpr hall]
      simp [sizeOf]
    · have hne : e.1 ≠ ident := fun hk => hn.1 (List.mem_map.mpr ⟨_, hin, hk.symm⟩)
      have ih := sizeOf_filter hn.2 hin
      rw [List.filter_cons_of_pos (p := fun e : ι × Entry α => decide (e.1 ≠ ident))
        (decide_eq_true hne)]
      unfold sizeOf at ih ⊢
      rw [List.map_cons, List.sum_cons, ih, List.map_cons, List.sum_cons]
      omega

theorem sizeOf_pop {d : Dict ι (Entry α)} (h : d.get? ident = some entry) :
    sizeOf (d.pop ident).entries = sizeOf d.entries - entry.raw.length :=
  sizeOf_filter d.nodup (Dict.get?_eq_some.mp h)

/-! ### The bounds -/

/-- The book without an entry, and without what it brought. -/
def without (b : Book ι α) (ident : ι) (entry : Entry α) : Book ι α :=
  ({ b with entries := b.entries.pop ident }).unindex ident entry

theorem Counted.without (h : Counted b) (hget : b.entries.get? ident = some entry) :
    Counted (without b ident entry) := by
  show b.bytes - entry.raw.length = sizeOf (b.entries.pop ident).entries
  rw [sizeOf_pop hget, h]

theorem enforceBounds_cons {n : ℕ} {l : List (ι × Entry α)}
    (hl : b.entries.entries = (ident, entry) :: l) :
    b.enforceBounds (n + 1) = if b.overfull then (without b ident entry).enforceBounds n else b := by
  rw [Book.enforceBounds, hl]
  rfl

theorem counted_enforceBounds : ∀ {n : ℕ} {b : Book ι α}, Counted b → Counted (b.enforceBounds n)
  | 0, _, h => h
  | n + 1, b, h => by
    cases hl : b.entries.entries with
    | nil =>
      rw [Book.enforceBounds, hl]
      exact h
    | cons first l =>
      obtain ⟨oldest, e⟩ := first
      rw [enforceBounds_cons hl]
      split_ifs
      · have hget : b.entries.get? oldest = some e :=
          Dict.get?_eq_some.mpr (by rw [hl]; exact List.mem_cons_self)
        exact counted_enforceBounds (h.without hget)
      · exact h

/-- **The newest entry survives the bounds exactly if it fits them alone.** -/
theorem mem_enforceBounds : ∀ {n : ℕ} {b : Book ι α} {l : List (ι × Entry α)}, Counted b →
    b.entries.entries = l ++ [(ident, entry)] → l.length < n →
    (ident ∈ (b.enforceBounds n).entries.keys ↔
      1 ≤ b.maxEntries ∧ (entry.raw.length : ℤ) ≤ b.maxBytes)
  | n + 1, b, l, h, hl, hn => by
    have hbytes : b.bytes = sizeOf l + entry.raw.length := by rw [h, hl, sizeOf_append]
    have hsize : b.entries.size = l.length + 1 := by simp [Dict.size, hl]
    have hpos := sizeOf_nonneg l
    cases l with
    | nil =>
      rw [enforceBounds_cons hl]
      have hzero : sizeOf ([] : List (ι × Entry α)) = 0 := rfl
      have hover : b.overfull ↔ ¬ (1 ≤ b.maxEntries ∧ (entry.raw.length : ℤ) ≤ b.maxBytes) := by
        unfold Book.overfull
        rw [hsize, hbytes, hzero]
        simp only [List.length_nil]
        omega
      split_ifs with hb
      · have hrest : (without b ident entry).entries.entries = [] := Dict.entries_pop_first hl
        have hempty : (without b ident entry).enforceBounds n = without b ident entry := by
          cases n with
          | zero => rfl
          | succ n => rw [Book.enforceBounds, hrest]; rfl
        rw [hempty, Dict.keys, hrest]
        exact iff_of_false (List.not_mem_nil) (hover.mp hb)
      · rw [Dict.keys, hl]
        exact iff_of_true (by simp) (not_not.mp (mt hover.mpr hb))
    | cons first l =>
      obtain ⟨oldest, e⟩ := first
      have hget : b.entries.get? oldest = some e :=
        Dict.get?_eq_some.mpr (by rw [hl]; exact List.mem_cons_self)
      rw [enforceBounds_cons hl]
      split_ifs with hb
      · refine mem_enforceBounds (h.without hget) (Dict.entries_pop_first hl) ?_
        rw [List.length_cons] at hn
        omega
      · unfold Book.overfull at hb
        refine iff_of_true (by simp [Dict.keys, hl]) ?_
        omega

/-! ### Offers -/

/-- What filing an entry leaves: the entry, if it fits. The count of the bytes must be right but for what
was held of the id. -/
theorem mem_accept (h : b.bytes = sizeOf (b.entries.pop ident).entries) :
    Counted (b.accept ident entry) ∧ (ident ∈ (b.accept ident entry).entries.keys ↔
      1 ≤ b.maxEntries ∧ (entry.raw.length : ℤ) ≤ b.maxBytes) := by
  have hentries := Dict.entries_refile b.entries ident entry
  obtain ⟨filed, hfiled⟩ : ∃ filed : Book ι α, filed = { b with
    entries := (b.entries.set ident entry).moveToEnd ident
    bytes := b.bytes + entry.raw.length
    byKey := entry.keys.foldl (link b.maxPerKey ident) b.byKey } := ⟨_, rfl⟩
  have haccept : b.accept ident entry = filed.enforceBounds filed.entries.size := by rw [hfiled]; rfl
  have hlist : filed.entries.entries = (b.entries.pop ident).entries ++ [(ident, entry)] := by
    rw [hfiled]; exact hentries
  have hcounted : Counted filed := by
    unfold Counted
    rw [hlist, sizeOf_append, ← h, hfiled]
  have hsize : (b.entries.pop ident).entries.length < filed.entries.size := by
    rw [Dict.size, hlist, List.length_append, List.length_singleton]
    exact Nat.lt_succ_self _
  have hmem := mem_enforceBounds hcounted hlist hsize
  have hmax : filed.maxEntries = b.maxEntries ∧ filed.maxBytes = b.maxBytes := by
    rw [hfiled]; exact ⟨rfl, rfl⟩
  rw [hmax.1, hmax.2] at hmem
  rw [haccept]
  exact ⟨counted_enforceBounds hcounted, hmem⟩

theorem sizeOf_pop_none (h : Counted b) (hnone : b.entries.get? ident = none) :
    b.bytes = sizeOf (b.entries.pop ident).entries := by
  rw [Dict.pop_of_notMem (Dict.get?_eq_none.mp hnone), h]

/-- **What an offer comes to.** -/
structure Offered (R : Rules ι α) (b : Book ι α) (ident : ι) (entry : Entry α) (answer : Bool)
    (b' : Book ι α) : Prop where
  counted : Counted b'
  maxEntries : b'.maxEntries = b.maxEntries
  maxBytes : b'.maxBytes = b.maxBytes
  fits : answer = true → Fits R b entry
  held : answer = true → b'.entries.get? ident = some entry
  newer : answer = true → ∀ current, b.entries.get? ident = some current → current.ts < entry.ts
  new : b.entries.get? ident = none → Fits R b entry → answer = true
  old : ∀ k e, b'.entries.get? k = some e →
    b.entries.get? k = some e ∨ k = ident ∧ e = entry ∧ answer = true

theorem offered_accept {b₀ b : Book ι α} (h : b.bytes = sizeOf (b.entries.pop ident).entries)
    (hlen : entry.raw.length ≤ R.maxRecord) (hsame : b.entries = b₀.entries)
    (hmax : b.maxEntries = b₀.maxEntries ∧ b.maxBytes = b₀.maxBytes)
    (hnewer : ∀ current, b₀.entries.get? ident = some current → current.ts < entry.ts) :
    Offered R b₀ ident entry (decide (ident ∈ (b.accept ident entry).entries.keys))
      (b.accept ident entry) := by
  obtain ⟨h1, h4⟩ := mem_accept (b := b) h
  obtain ⟨-, h2, h3, h5⟩ := b.accept_keeps ident entry
  rw [hmax.1, hmax.2] at h4
  refine ⟨h1, h2.trans hmax.1, h3.trans hmax.2, fun ha => ?_, fun ha => ?_, fun _ => hnewer,
    fun _ hfits => decide_eq_true (h4.mpr hfits.2), fun k e he => ?_⟩
  · exact ⟨hlen, h4.mp (of_decide_eq_true ha)⟩
  · obtain ⟨e, he⟩ := Dict.mem_keys.mp (of_decide_eq_true ha)
    rcases h5 ident e he with ⟨-, rfl⟩ | ⟨hne, -⟩
    · exact he
    · exact absurd rfl hne
  · rcases h5 k e he with ⟨rfl, rfl⟩ | ⟨-, hold⟩
    · exact Or.inr ⟨rfl, rfl, decide_eq_true (Dict.mem_keys_of_get? he)⟩
    · rw [hsame] at hold
      exact Or.inl hold

/-- **One offer.** -/
theorem offered (h : Counted b) (ident : ι) (entry : Entry α) :
    Offered R b ident entry (b.offer R ident entry).1 (b.offer R ident entry).2 := by
  have hfalse : ∀ {p : Prop}, false = true → p := fun hno => absurd hno Bool.false_ne_true
  rcases b.offer_cases R ident entry with ⟨hlong, heq⟩ | ⟨hlen, hnone, heq⟩ |
    ⟨current, _, rfl, hlen, hget, ⟨hts, heq⟩ | ⟨hts, b', rfl, heq⟩⟩
  · rw [heq]
    exact ⟨h, rfl, rfl, hfalse, hfalse, hfalse, fun _ hfits => absurd hlong (not_lt.mpr hfits.1),
      fun _ _ he => Or.inl he⟩
  · rw [heq]
    refine offered_accept (sizeOf_pop_none h hnone) hlen rfl ⟨rfl, rfl⟩ fun current hc => ?_
    rw [hnone] at hc
    cases hc
  · rw [heq]
    refine ⟨h, rfl, rfl, hfalse, hfalse, hfalse, fun hnone => ?_, fun _ _ he => Or.inl he⟩
    rw [hget] at hnone
    cases hnone
  · rw [heq]
    refine offered_accept ?_ hlen rfl ⟨rfl, rfl⟩ fun e he => ?_
    · show b.bytes - current.raw.length = sizeOf (b.entries.pop ident).entries
      rw [sizeOf_pop hget, h]
    · rw [hget] at he
      rw [← Option.some.inj he]
      exact hts

/-! ### Endless replays -/

variable (R) (read : Bytes → Option (ι × Entry α)) (start : Book ι α) (offers : ℕ → Bytes)

/-- The book before the `n`-th offer. -/
def before : ℕ → Book ι α
  | 0 => start
  | n + 1 => ((before n).receive R read (offers n)).2

/-- What the `n`-th offer answers. -/
def answer (n : ℕ) : Bool := ((before R read start offers n).receive R read (offers n)).1

/-- **The gossip ends**: finitely many offers change our view, and those about one id at rising times. -/
def Settles : Prop :=
  {n | answer R read start offers n = true}.Finite ∧
    ∀ m n ident early late, m < n → answer R read start offers m = true →
      answer R read start offers n = true → read (offers m) = some (ident, early) →
      read (offers n) = some (ident, late) → early.ts < late.ts

/-- No evicted record comes back: an offer that fits the bounds, about an id that is not held, is newer
than whatever was held of the id before. -/
def NoReturn : Prop :=
  ∀ n ident entry, read (offers n) = some (ident, entry) →
    Fits R (before R read start offers n) entry →
    (before R read start offers n).entries.get? ident = none →
    ∀ m ≤ n, ∀ e, (before R read start offers m).entries.get? ident = some e → e.ts < entry.ts

variable {R} {read} {start} {offers}

theorem receive_some (b : Book ι α) {raw : Bytes} (h : read raw = some (ident, entry)) :
    b.receive R read raw = b.offer R ident entry := by
  unfold Book.receive
  rw [h]

theorem offered_before (hcount : Counted start) : ∀ n, Counted (before R read start offers n) ∧
    ∀ ident entry, read (offers n) = some (ident, entry) →
      Offered R (before R read start offers n) ident entry (answer R read start offers n)
        (before R read start offers (n + 1)) := by
  have hstep : ∀ n, Counted (before R read start offers n) → ∀ ident entry,
      read (offers n) = some (ident, entry) → Offered R (before R read start offers n) ident entry
        (answer R read start offers n) (before R read start offers (n + 1)) := by
    intro n hc ident entry hread
    unfold answer
    rw [before, receive_some _ hread]
    exact offered hc ident entry
  intro n
  induction n with
  | zero => exact ⟨hcount, hstep 0 hcount⟩
  | succ n ih =>
    have hc : Counted (before R read start offers (n + 1)) := by
      cases hread : read (offers n) with
      | none =>
        rw [before, Book.receive, hread]
        exact ih.1
      | some filing => exact (ih.2 filing.1 filing.2 hread).counted
    exact ⟨hc, hstep (n + 1) hc⟩

theorem held_succ (hcount : Counted start) {n : ℕ} {k : ι} {e : Entry α}
    (h : (before R read start offers (n + 1)).entries.get? k = some e) :
    (before R read start offers n).entries.get? k = some e ∨
      read (offers n) = some (k, e) ∧ answer R read start offers n = true := by
  cases hread : read (offers n) with
  | none =>
    rw [before, Book.receive, hread] at h
    exact Or.inl h
  | some filing =>
    obtain ⟨ident, entry⟩ := filing
    rcases ((offered_before (R := R) hcount n).2 ident entry hread).old k e h with hold | ⟨rfl, rfl, ha⟩
    · exact Or.inl hold
    · exact Or.inr ⟨rfl, ha⟩

theorem answer_read {n : ℕ} (h : answer R read start offers n = true) :
    ∃ ident entry, read (offers n) = some (ident, entry) := by
  unfold answer Book.receive at h
  cases hread : read (offers n) with
  | none => rw [hread] at h; cases h
  | some filing => exact ⟨filing.1, filing.2, rfl⟩

theorem held_origin (hcount : Counted start) (hempty : ∀ k, start.entries.get? k = none) {k : ι}
    {e : Entry α} : ∀ {n : ℕ}, (before R read start offers n).entries.get? k = some e →
      ∃ m < n, read (offers m) = some (k, e) ∧ answer R read start offers m = true
  | 0, h => by rw [before, hempty] at h; cases h
  | n + 1, h => by
    rcases held_succ hcount h with hold | hnew
    · obtain ⟨m, hm, hread⟩ := held_origin hcount hempty hold
      exact ⟨m, hm.trans (Nat.lt_succ_self n), hread⟩
    · exact ⟨n, Nat.lt_succ_self n, hnew⟩

/-- **What is held of an id only gets newer**, if no evicted record comes back. -/
theorem held_mono (hcount : Counted start) (hno : NoReturn R read start offers) {k : ι} :
    ∀ {n m : ℕ} {early late : Entry α}, m ≤ n →
      (before R read start offers m).entries.get? k = some early →
      (before R read start offers n).entries.get? k = some late → early.ts ≤ late.ts
  | 0, m, early, late, hm, hearly, hlate => by
    rw [Nat.le_zero.mp hm, hlate] at hearly
    rw [Option.some.inj hearly]
  | n + 1, m, early, late, hm, hearly, hlate => by
    rcases Nat.lt_or_eq_of_le hm with hlt | rfl
    · rcases held_succ hcount hlate with hold | ⟨hread, ha⟩
      · exact held_mono hcount hno (Nat.lt_succ_iff.mp hlt) hearly hold
      · have hoffer := (offered_before (R := R) hcount n).2 k late hread
        cases hget : (before R read start offers n).entries.get? k with
        | none =>
          exact (hno n k late hread (hoffer.fits ha) hget m (Nat.lt_succ_iff.mp hlt) early hearly).le
        | some current =>
          have hle := held_mono hcount hno (Nat.lt_succ_iff.mp hlt) hearly hget
          exact hle.trans (hoffer.newer ha current hget).le
    · rw [hlate] at hearly
      rw [Option.some.inj hearly]

theorem finite_of_rising {S : Finset Bytes} (hS : ∀ n, offers n ∈ S)
    (h : ∀ m n ident early late, m < n → answer R read start offers m = true →
      answer R read start offers n = true → read (offers m) = some (ident, early) →
      read (offers n) = some (ident, late) → early.ts < late.ts) :
    {n | answer R read start offers n = true}.Finite := by
  have hne : ∀ m n, m < n → answer R read start offers m = true →
      answer R read start offers n = true → offers m ≠ offers n := by
    intro m n hlt hm hn heq
    obtain ⟨ident, entry, hread⟩ := answer_read hm
    exact absurd (h m n ident entry entry hlt hm hn hread (heq ▸ hread)) (lt_irrefl _)
  refine Set.Finite.of_injOn (f := offers) (fun n _ => Finset.mem_coe.mpr (hS n)) ?_ S.finite_toSet
  intro m hm n hn heq
  rcases Nat.lt_trichotomy m n with hlt | rfl | hlt
  · exact absurd heq (hne m n hlt hm hn)
  · rfl
  · exact absurd heq.symm (hne n m hlt hn hm)

theorem settles_iff (hcount : Counted start) (hempty : ∀ k, start.entries.get? k = none)
    {S : Finset Bytes} (hS : ∀ n, offers n ∈ S) :
    Settles R read start offers ↔ NoReturn R read start offers := by
  constructor
  · rintro ⟨-, hrise⟩ n ident entry hread hfits hget m hm e he
    have ha := ((offered_before (R := R) hcount n).2 ident entry hread).new hget hfits
    obtain ⟨m', hm', hread', ha'⟩ := held_origin hcount hempty he
    exact hrise m' n ident e entry (hm'.trans_le hm) ha' ha hread' hread
  · intro hno
    have hrise : ∀ m n ident early late, m < n → answer R read start offers m = true →
        answer R read start offers n = true → read (offers m) = some (ident, early) →
        read (offers n) = some (ident, late) → early.ts < late.ts := by
      intro m n ident early late hlt hm hn hearly hlate
      have hheld := ((offered_before (R := R) hcount m).2 ident early hearly).held hm
      have hoffer := (offered_before (R := R) hcount n).2 ident late hlate
      cases hget : (before R read start offers n).entries.get? ident with
      | none => exact hno n ident late hlate (hoffer.fits hn) hget (m + 1) hlt early hheld
      | some current =>
        exact (held_mono hcount hno hlt hheld hget).trans_lt (hoffer.newer hn current hget)
    exact ⟨finite_of_rising hS hrise, hrise⟩

omit [DecidableEq ι] in
theorem counted_new (maxEntries maxBytes maxPerKey : ℤ) :
    Counted (Book.new maxEntries maxBytes maxPerKey : Book ι α) := rfl

/-- **Names and packages**: for every finite set of records and every endless sequence of offers drawn from
it, to a new book of any bounds, the gossip ends exactly if no evicted record comes back. -/
theorem gossip_ends (U : Unicode) (P : Primitives) (maxEntries maxBytes maxPerKey : ℤ)
    (S : Finset Bytes) (offers : ℕ → Bytes) (hS : ∀ n, offers n ∈ S) :
    (Settles pseudoRules (readClaim U P) (.new maxEntries maxBytes maxPerKey) offers ↔
      NoReturn pseudoRules (readClaim U P) (.new maxEntries maxBytes maxPerKey) offers) ∧
    (Settles packageRules (readRecord U P) (.new maxEntries maxBytes maxPerKey) offers ↔
      NoReturn packageRules (readRecord U P) (.new maxEntries maxBytes maxPerKey) offers) :=
  ⟨settles_iff (counted_new _ _ _) (fun _ => rfl) hS, settles_iff (counted_new _ _ _) (fun _ => rfl) hS⟩

theorem gossip_ends_once :
    (Settles pseudoRules (readClaim plain turning) (.new 1 100000 8) (fun _ => claimOf 1 "al" 1) ↔
      NoReturn pseudoRules (readClaim plain turning) (.new 1 100000 8) fun _ => claimOf 1 "al" 1) ∧
    (Settles packageRules (readRecord plain turning) (.new 1 100000 8) (fun _ => claimOf 1 "al" 1) ↔
      NoReturn packageRules (readRecord plain turning) (.new 1 100000 8) fun _ => claimOf 1 "al" 1) :=
  gossip_ends plain turning 1 100000 8 {claimOf 1 "al" 1} _ fun _ => Finset.mem_singleton_self _

/-! ### Two names in a book for one -/

def turns (n : ℕ) : Bytes := if n % 2 = 0 then claimOf 1 "al" 1 else claimOf 2 "bo" 1

/-- Each evicts the other: the same claim changes our view twice. -/
theorem gossip_returns : (∀ n, turns n ∈ ({claimOf 1 "al" 1, claimOf 2 "bo" 1} : Finset Bytes)) ∧
    answer pseudoRules (readClaim plain turning) (.new 1 100000 8) turns 0 = true ∧
    answer pseudoRules (readClaim plain turning) (.new 1 100000 8) turns 2 = true ∧
    ¬ Settles pseudoRules (readClaim plain turning) (.new 1 100000 8) turns := by
  have h0 : answer pseudoRules (readClaim plain turning) (.new 1 100000 8) turns 0 = true := by
    decide +kernel
  have h2 : answer pseudoRules (readClaim plain turning) (.new 1 100000 8) turns 2 = true := by
    decide +kernel
  refine ⟨fun n => ?_, h0, h2, fun h => ?_⟩
  · unfold turns
    split_ifs <;> simp
  · obtain ⟨ident, entry, hread⟩ := answer_read h0
    exact absurd (h.2 0 2 ident entry entry (by decide) h0 h2 hread hread) (lt_irrefl _)

end NMesh.Directory.Gossip
