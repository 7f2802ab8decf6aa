import NMesh.Base.JsonText
import Mathlib.Data.Set.Finite.Basic
import Mathlib.Data.Finset.Card

/-! # The catalogue of the app store

Apps are published as signed releases, and a node files the newest it has heard of each app. The table is
bounded, and an entry that makes room for another is forgotten with its time. Where the releases name no more apps
than the table holds, each is accepted at most once and the times of an app only rise; where they name more, some
order of offers is accepted for ever (`offers_end`). No author drives out more entries of others than its share
(`offers_end`, the second part). -/

namespace NMesh.Store.Catalogue

open Base.BigEndian Base.Utf8 Base.Hex Base.Ordered Base.JsonText

/-! ### Releases -/

/-- What Python brings in: how a float prints and how deep JSON is read, SHA-256, and the check of a signature. -/
structure World where
  floatRepr : Text → Text
  depth : ℕ
  sha256 : Bytes → Bytes
  verify : Bytes → Bytes → Bytes → Bool

def keyLen : ℕ := 20

def appIdLen : ℕ := 8

def bytesOf (s : String) : Bytes := s.toList.map fun c => UInt8.ofNat c.toNat

/-- A release that was read: the fields as they are written, and what stands in them. -/
structure Release where
  v : Json
  name : Text
  version : Text
  rootKeyHex : Text
  rootSha256 : Text
  authorHex : Text
  appIdHex : Text
  ts : ℤ
  rootKey : Bytes
  author : Bytes
  appId : Bytes
  sig : Bytes

def isOne : Json → Bool
  | .bool b => b
  | .int n => n = 1
  | .float repr => repr = ascii "1.0"
  | _ => false

def readFields (doc : Json) : Option Release := do
  let v ← doc.get? (ascii "v")
  guard (isOne v)
  let name ← (← doc.get? (ascii "name")).text?
  let version ← (← doc.get? (ascii "version")).text?
  let rootKeyHex ← (← doc.get? (ascii "root_key")).text?
  let rootSha256 ← (← doc.get? (ascii "root_sha256")).text?
  let authorHex ← (← doc.get? (ascii "author")).text?
  let appIdHex ← (← doc.get? (ascii "app_id")).text?
  let sigHex ← (← doc.get? (ascii "sig")).text?
  guard (name.length ≤ 512 ∧ version.length ≤ 64)
  let ts ← (← doc.get? (ascii "ts")).int?
  guard (0 ≤ ts ∧ ts ≤ 2 ^ 62)
  let rootKey ← fromHex rootKeyHex
  let author ← fromHex authorHex
  let appId ← fromHex appIdHex
  let sig ← fromHex sigHex
  guard (rootKey.length = keyLen ∧ rootSha256.length = 64)
  return ⟨v, name, version, rootKeyHex, rootSha256, authorHex, appIdHex, ts, rootKey, author, appId, sig⟩

def signingInput (r : Release) : Option Bytes :=
  (encodeUtf8 (dumpsSorted [(ascii "v", r.v), (ascii "name", .str r.name), (ascii "version", .str r.version),
    (ascii "root_key", .str r.rootKeyHex), (ascii "root_sha256", .str r.rootSha256),
    (ascii "author", .str r.authorHex), (ascii "app_id", .str r.appIdHex), (ascii "ts", .int r.ts)])).map
      (bytesOf "nmesh-app-release-v1" ++ ·)

section Parsing

variable (W : World)

def contentKey (data : Bytes) : Bytes := (W.sha256 data).take keyLen

/-- `deployed_id`: the app an author publishes under a name. -/
def deployedId (author : Bytes) (name : Text) : Option Bytes :=
  (encodeUtf8 name).map fun data =>
    (W.sha256 (bytesOf "nmesh.deployed." ++ (toBE 4 author.length ++ (author ++ data)))).take appIdLen

/-- `parse_release`; `none` is a release that is refused. -/
def parseRelease (data : Bytes) : Option Release := do
  let text ← decodeUtf8 data
  let doc ← loads W.floatRepr W.depth text
  let r ← readFields doc
  let appId ← deployedId W r.author r.name
  guard (r.appId.length = appIdLen ∧ r.appId = appId)
  let input ← signingInput r
  guard (W.verify input r.sig r.author)
  return r

end Parsing

/-! ### The table -/

def minAuthors : ℤ := 16

structure Entry where
  release : Bytes
  releaseId : Bytes
  name : Text
  version : Text
  author : Bytes
  rootKey : Bytes
  ts : ℤ

structure AppCatalog where
  max : ℤ
  apps : Dict Bytes Entry

inductive Outcome
  | new
  | updated

def new (max : ℤ) : AppCatalog := ⟨max, .empty⟩

namespace AppCatalog

def count (c : AppCatalog) (author : Bytes) : ℕ := c.apps.entries.countP fun e => e.2.author = author

def authorShare (c : AppCatalog) : ℤ := Max.max 1 (c.max / minAuthors)

def victim (c : AppCatalog) (author : Bytes) : Option (Bytes × Entry) :=
  if c.authorShare ≤ c.count author then c.apps.entries.find? fun e => e.2.author = author
  else
    match c.apps.entries.find? fun e => decide (c.authorShare < c.count e.2.author) with
    | some e => some e
    | none => c.apps.entries.head?

def makeRoom (c : AppCatalog) (author : Bytes) : Option AppCatalog :=
  (c.victim author).map fun e => { c with apps := c.apps.pop e.1 }

def file (c : AppCatalog) (appId : Bytes) (e : Entry) : AppCatalog :=
  { c with apps := (c.apps.set appId e).moveToEnd appId }

end AppCatalog

section Offering

variable (W : World)

def entryOf (data : Bytes) (r : Release) : Entry :=
  ⟨data, contentKey W data, r.name, r.version, r.author, r.rootKey, r.ts⟩

/-- `offer(release)`: what came of it, and the catalogue afterwards. -/
def AppCatalog.offer (c : AppCatalog) (data : Bytes) : Option Outcome × AppCatalog :=
  match parseRelease W data with
  | none => (none, c)
  | some r =>
    match c.apps.get? r.appId with
    | some existing =>
      if r.ts ≤ existing.ts then (none, c) else (some .updated, c.file r.appId (entryOf W data r))
    | none =>
      if c.max ≤ c.apps.size then
        match c.makeRoom r.author with
        | none => (none, c)
        | some c => (some .new, c.file r.appId (entryOf W data r))
      else (some .new, c.file r.appId (entryOf W data r))

def AppCatalog.evicted (c : AppCatalog) (data : Bytes) : Option Entry :=
  match parseRelease W data with
  | none => none
  | some r =>
    match c.apps.get? r.appId with
    | some _ => none
    | none => if c.max ≤ c.apps.size then (c.victim r.author).map Prod.snd else none

def after (max : ℤ) (seq : ℕ → Bytes) : ℕ → AppCatalog
  | 0 => new max
  | n + 1 => ((after max seq n).offer W (seq n)).2

def Accepted (max : ℤ) (seq : ℕ → Bytes) (n : ℕ) : Prop :=
  ((after W max seq n).offer W (seq n)).1.isSome = true

/-- **It ends, and never goes back**: finitely many offers are accepted, and those of one app at rising times. -/
structure Settles (max : ℤ) (seq : ℕ → Bytes) : Prop where
  ends : {n | Accepted W max seq n}.Finite
  rises : ∀ m n r r', m < n → Accepted W max seq m → Accepted W max seq n →
    parseRelease W (seq m) = some r → parseRelease W (seq n) = some r' → r.appId = r'.appId → r.ts < r'.ts

def appOf (data : Bytes) : Bytes := ((parseRelease W data).map Release.appId).getD []

/-- The entries of other authors that some offers drive out. -/
def drivenOut (author : Bytes) : AppCatalog → List Bytes → ℕ
  | _, [] => 0
  | c, data :: rest =>
    (match c.evicted W data with
      | some e => if e.author = author then 0 else 1
      | none => 0) + drivenOut author (c.offer W data).2 rest

end Offering

/-! ### One offer -/

section Offers

variable {W : World} {c : AppCatalog} {seq : ℕ → Bytes}

namespace AppCatalog

/-- How an accepted offer finds its place: its app is held, there is room, or another entry goes. -/
inductive Place (c : AppCatalog) (r : Release) : AppCatalog → Option Entry → Prop
  | held (e : Entry) (hget : c.apps.get? r.appId = some e) (hlt : e.ts < r.ts) : Place c r c none
  | room (hnew : r.appId ∉ c.apps.keys) (hroom : (c.apps.size : ℤ) < c.max) : Place c r c none
  | evict (e : Bytes × Entry) (hnew : r.appId ∉ c.apps.keys) (hfull : c.max ≤ c.apps.size)
      (hvictim : c.victim r.author = some e) : Place c r { c with apps := c.apps.pop e.1 } (some e.2)

/-- **What an offer does**: nothing, or it files a release in its place. -/
theorem offer_spec (c : AppCatalog) (data : Bytes) :
    ((c.offer W data).1 = none ∧ (c.offer W data).2 = c ∧ c.evicted W data = none) ∨
      ∃ r base gone, parseRelease W data = some r ∧ (c.offer W data).1.isSome = true ∧ Place c r base gone ∧
        (c.offer W data).2 = base.file r.appId (entryOf W data r) ∧ c.evicted W data = gone := by
  unfold offer evicted
  cases hparse : parseRelease W data with
  | none => exact Or.inl ⟨rfl, rfl, rfl⟩
  | some r =>
    dsimp only
    cases hget : c.apps.get? r.appId with
    | some e =>
      dsimp only
      by_cases hle : r.ts ≤ e.ts
      · rw [if_pos hle]
        exact Or.inl ⟨rfl, rfl, rfl⟩
      · rw [if_neg hle]
        exact Or.inr ⟨r, c, none, rfl, rfl, .held e hget (not_le.mp hle), rfl, rfl⟩
    | none =>
      have hnew := Dict.get?_eq_none.mp hget
      dsimp only
      by_cases hfull : c.max ≤ c.apps.size
      · rw [if_pos hfull, if_pos hfull]
        unfold makeRoom
        cases hvictim : c.victim r.author with
        | none => exact Or.inl ⟨rfl, rfl, rfl⟩
        | some e => exact Or.inr ⟨r, _, _, rfl, rfl, .evict e hnew hfull hvictim, rfl, rfl⟩
      · rw [if_neg hfull, if_neg hfull]
        exact Or.inr ⟨r, c, none, rfl, rfl, .room hnew (not_le.mp hfull), rfl, rfl⟩

theorem get?_file (c : AppCatalog) (appId k : Bytes) (e : Entry) :
    (c.file appId e).apps.get? k = if appId = k then some e else c.apps.get? k := by
  show ((c.apps.set appId e).moveToEnd appId).get? k = _
  rw [Dict.get?_moveToEnd, Dict.get?_set]

theorem mem_keys_file {appId k : Bytes} {e : Entry} :
    k ∈ (c.file appId e).apps.keys ↔ k = appId ∨ k ∈ c.apps.keys := by
  rw [Dict.mem_keys, Dict.mem_keys]
  simp only [get?_file]
  by_cases hk : appId = k
  · simp [hk]
  · simp [hk, Ne.symm hk]

theorem size_file {appId : Bytes} (hnew : appId ∉ c.apps.keys) (e : Entry) :
    (c.file appId e).apps.size = c.apps.size + 1 := by
  show ((c.apps.set appId e).moveToEnd appId).size = _
  rw [Dict.size_moveToEnd, Dict.size_set_of_notMem hnew]

theorem max_place {c base : AppCatalog} {r : Release} {gone : Option Entry} (h : Place c r base gone) :
    base.max = c.max := by
  cases h <;> rfl

/-! ### Making room -/

theorem one_le_share (c : AppCatalog) : 1 ≤ c.authorShare := le_max_left _ _

theorem exists_victim (h : c.apps.entries ≠ []) (author : Bytes) :
    ∃ e, c.victim author = some e := by
  unfold victim
  split_ifs with hshare
  · have hcount : 0 < c.count author := by
      have := c.one_le_share
      omega
    obtain ⟨e, he, hauthor⟩ := List.countP_pos_iff.mp hcount
    refine Option.isSome_iff_exists.mp (List.find?_isSome.mpr ⟨e, he, hauthor⟩)
  · split
    · next e _ => exact ⟨e, rfl⟩
    · cases hentries : c.apps.entries with
      | nil => exact absurd hentries h
      | cons e rest => exact ⟨e, rfl⟩

theorem mem_victim {author : Bytes} {e : Bytes × Entry} (h : c.victim author = some e) :
    e ∈ c.apps.entries := by
  unfold victim at h
  split_ifs at h
  · exact List.mem_of_find?_eq_some h
  · split at h
    · next e' hfind =>
      rw [← Option.some.inj h]
      exact List.mem_of_find?_eq_some hfind
    · exact List.mem_of_head? h

theorem own_victim {author : Bytes} {e : Bytes × Entry} (h : c.victim author = some e)
    (hshare : c.authorShare ≤ c.count author) : e.2.author = author := by
  unfold victim at h
  rw [if_pos hshare] at h
  have hfound := List.find?_some h
  exact of_decide_eq_true hfound

end AppCatalog

/-! ### Few apps -/

variable {S : Finset Bytes}

def Valid (W : World) (S : Finset Bytes) : Prop := ∀ data ∈ S, (parseRelease W data).isSome = true

theorem appOf_eq {data : Bytes} {r : Release} (h : parseRelease W data = some r) : appOf W data = r.appId := by
  rw [appOf, h]
  rfl

/-- A catalogue that holds apps of a set, and not too many of them. -/
structure Within (W : World) (S : Finset Bytes) (max : ℤ) (c : AppCatalog) : Prop where
  max_eq : c.max = max
  apps : ∀ k ∈ c.apps.keys, k ∈ S.image (appOf W)

theorem within_offer {max : ℤ} (h : Within W S max c) {data : Bytes} (hdata : data ∈ S) :
    Within W S max (c.offer W data).2 := by
  rcases c.offer_spec (W := W) data with ⟨-, hsame, -⟩ | ⟨r, base, gone, hparse, -, hplace, hafter, -⟩
  · rw [hsame]
    exact h
  · rw [hafter]
    refine ⟨(AppCatalog.max_place hplace).trans h.max_eq, fun k hk => ?_⟩
    rcases AppCatalog.mem_keys_file.mp hk with rfl | hk
    · rw [← appOf_eq hparse]
      exact Finset.mem_image_of_mem _ hdata
    · cases hplace with
      | held | room => exact h.apps k hk
      | evict e hnew hfull hvictim => exact h.apps k (Dict.mem_keys_pop.mp hk).1

theorem within_after {max : ℤ} (hseq : ∀ n, seq n ∈ S) : ∀ n, Within W S max (after W max seq n)
  | 0 => ⟨rfl, fun _ h => by cases h⟩
  | n + 1 => within_offer (within_after hseq n) (hseq n)

theorem size_lt {max : ℤ} (h : Within W S max c) (hfew : ((S.image (appOf W)).card : ℤ) ≤ max)
    {k : Bytes} (hk : k ∈ S.image (appOf W)) (hnew : k ∉ c.apps.keys) : (c.apps.size : ℤ) < max := by
  have hsub : insert k c.apps.keys.toFinset ⊆ S.image (appOf W) := by
    intro x hx
    rcases Finset.mem_insert.mp hx with rfl | hx
    · exact hk
    · exact h.apps x (List.mem_toFinset.mp hx)
  have hcard := Finset.card_le_card hsub
  rw [Finset.card_insert_of_notMem fun hin => hnew (List.mem_toFinset.mp hin),
    List.toFinset_card_of_nodup c.apps.nodup_keys, ← Dict.size_eq] at hcard
  omega

/-- What was accepted is held, in that release or a later one. -/
def Remembers (W : World) (max : ℤ) (seq : ℕ → Bytes) (n : ℕ) : Prop :=
  ∀ m < n, ∀ r, parseRelease W (seq m) = some r → Accepted W max seq m →
    ∃ e, (after W max seq n).apps.get? r.appId = some e ∧ r.ts ≤ e.ts

theorem remembers_after {max : ℤ} (hseq : ∀ n, seq n ∈ S)
    (hfew : ((S.image (appOf W)).card : ℤ) ≤ max) (n : ℕ) : Remembers W max seq n := by
  induction n with
  | zero => exact fun m hm => absurd hm (Nat.not_lt_zero m)
  | succ n ih =>
    intro m hm r hr hacc
    have hwithin : Within W S max (after W max seq n) := within_after hseq n
    show ∃ e, ((after W max seq n).offer W (seq n)).2.apps.get? r.appId = some e ∧ r.ts ≤ e.ts
    rcases (after W max seq n).offer_spec (W := W) (seq n) with
      ⟨hnone, hsame, -⟩ | ⟨r', base, gone, hparse, -, hplace, hafter, -⟩
    · rw [hsame]
      rcases Nat.lt_succ_iff_lt_or_eq.mp hm with hm | rfl
      · exact ih m hm r hr hacc
      · rw [Accepted, hnone] at hacc
        cases hacc
    · have hbase : base = after W max seq n := by
        cases hplace with
        | held | room => rfl
        | evict e hnew hfull hvictim =>
          have hmem : r'.appId ∈ S.image (appOf W) := by
            rw [← appOf_eq hparse]
            exact Finset.mem_image_of_mem _ (hseq n)
          have hlt := size_lt hwithin hfew hmem hnew
          have hmax := hwithin.max_eq
          omega
      rw [hafter, AppCatalog.get?_file, hbase]
      by_cases happ : r'.appId = r.appId
      · rw [if_pos happ]
        refine ⟨_, rfl, ?_⟩
        show r.ts ≤ r'.ts
        rcases Nat.lt_succ_iff_lt_or_eq.mp hm with hm | rfl
        · obtain ⟨e, hget, hle⟩ := ih m hm r hr hacc
          cases hplace with
          | held e' hget' hlt =>
            rw [happ, hget] at hget'
            rw [Option.some.inj hget'] at hle
            omega
          | room hnew | evict e' hnew => exact absurd (Dict.mem_keys_of_get? hget) (happ ▸ hnew)
        · rw [Option.mem_unique hr hparse]
      · rw [if_neg happ]
        rcases Nat.lt_succ_iff_lt_or_eq.mp hm with hm | rfl
        · exact ih m hm r hr hacc
        · exact absurd (congrArg Release.appId (Option.mem_unique hr hparse)).symm happ

theorem newer_of_accepted {max : ℤ} {n : ℕ} (hacc : Accepted W max seq n) {r : Release}
    (hr : parseRelease W (seq n) = some r) {e : Entry} (hget : (after W max seq n).apps.get? r.appId = some e) :
    e.ts < r.ts := by
  rcases (after W max seq n).offer_spec (W := W) (seq n) with
    ⟨hnone, -, -⟩ | ⟨r', base, gone, hparse, -, hplace, -, -⟩
  · rw [Accepted, hnone] at hacc
    cases hacc
  · obtain rfl := Option.mem_unique hr hparse
    cases hplace with
    | held e' hget' hlt =>
      rw [Option.mem_unique hget hget']
      exact hlt
    | room hnew | evict e' hnew => exact absurd (Dict.mem_keys_of_get? hget) hnew

theorem settles_of_rises {max : ℤ} (hvalid : Valid W S) (hseq : ∀ n, seq n ∈ S)
    (h : ∀ m n r r', m < n → Accepted W max seq m → Accepted W max seq n → parseRelease W (seq m) = some r →
      parseRelease W (seq n) = some r' → r.appId = r'.appId → r.ts < r'.ts) : Settles W max seq := by
  refine ⟨Set.Finite.of_injOn (f := seq) (t := S) (fun n _ => hseq n) (fun m hm n hn heq => ?_) S.finite_toSet, h⟩
  obtain ⟨r, hr⟩ := Option.isSome_iff_exists.mp (hvalid _ (hseq m))
  rcases Nat.lt_trichotomy m n with hlt | rfl | hlt
  · exact absurd (h m n r r hlt hm hn hr (heq ▸ hr) rfl) (lt_irrefl _)
  · rfl
  · exact absurd (h n m r r hlt hn hm (heq ▸ hr) hr rfl) (lt_irrefl _)

/-- **Where the releases name no more apps than there is room for, it settles.** -/
theorem settles_few {max : ℤ} (hvalid : Valid W S) (hfew : ((S.image (appOf W)).card : ℤ) ≤ max)
    (hseq : ∀ n, seq n ∈ S) : Settles W max seq := by
  refine settles_of_rises hvalid hseq fun m n r r' hlt hm hn hr hr' happ => ?_
  obtain ⟨e, hget, hle⟩ := remembers_after hseq hfew n m hlt r hr hm
  have := newer_of_accepted hn hr' (happ ▸ hget)
  omega

theorem settles_none {max : ℤ} (hvalid : Valid W S) (hmax : max ≤ 0)
    (hseq : ∀ n, seq n ∈ S) : Settles W max seq := by
  have hoffer : ∀ data, ((new max).offer W data).1 = none ∧ ((new max).offer W data).2 = new max := by
    intro data
    rcases (new max).offer_spec (W := W) data with ⟨hnone, hsame, -⟩ | ⟨r, base, gone, -, -, hplace, -, -⟩
    · exact ⟨hnone, hsame⟩
    · exfalso
      cases hplace with
      | held e hget => cases hget
      | room hnew hroom =>
        have hroom : (0 : ℤ) < max := hroom
        omega
      | evict e hnew hfull hvictim => cases AppCatalog.mem_victim hvictim
  have hafter : ∀ n, after W max seq n = new max := by
    intro n
    induction n with
    | zero => rfl
    | succ n ih =>
      show ((after W max seq n).offer W (seq n)).2 = new max
      rw [ih]
      exact (hoffer _).2
  refine settles_of_rises hvalid hseq fun m n r r' _ hm => ?_
  rw [Accepted, hafter, (hoffer _).1] at hm
  cases hm

/-! ### Many apps -/

theorem exists_missing {max : ℤ} (hsize : (c.apps.size : ℤ) ≤ max)
    (hmany : max < (S.image (appOf W)).card) : ∃ data ∈ S, appOf W data ∉ c.apps.keys := by
  by_contra hno
  have hsub : S.image (appOf W) ⊆ c.apps.keys.toFinset := by
    intro k hk
    obtain ⟨data, hdata, rfl⟩ := Finset.mem_image.mp hk
    by_contra hin
    exact hno ⟨data, hdata, fun hkeys => hin (List.mem_toFinset.mpr hkeys)⟩
  have hcard := Finset.card_le_card hsub
  rw [List.toFinset_card_of_nodup c.apps.nodup_keys, ← Dict.size_eq] at hcard
  omega

theorem accepted_missing (hmax : 1 ≤ c.max) (hsize : (c.apps.size : ℤ) ≤ c.max) {data : Bytes}
    {r : Release} (hparse : parseRelease W data = some r) (hnew : r.appId ∉ c.apps.keys) :
    (c.offer W data).1.isSome = true ∧ ((c.offer W data).2.apps.size : ℤ) ≤ (c.offer W data).2.max ∧
      (c.offer W data).2.max = c.max ∧ r.appId ∈ (c.offer W data).2.apps.keys := by
  rcases c.offer_spec (W := W) data with ⟨hnone, -, -⟩ | ⟨r', base, gone, hparse', hacc, hplace, hafter, -⟩
  · exfalso
    unfold AppCatalog.offer at hnone
    rw [hparse] at hnone
    dsimp only at hnone
    rw [Dict.get?_eq_none.mpr hnew] at hnone
    dsimp only at hnone
    split_ifs at hnone with hfull
    have hne : c.apps.entries ≠ [] := fun hempty => by
      have : c.apps.size = 0 := by rw [Dict.size, hempty]; rfl
      omega
    obtain ⟨e, he⟩ := AppCatalog.exists_victim hne r.author
    rw [AppCatalog.makeRoom, he] at hnone
    cases hnone
  · obtain rfl := Option.mem_unique hparse hparse'
    have hmaxafter : (c.offer W data).2.max = c.max := by
      rw [hafter]
      show base.max = c.max
      exact AppCatalog.max_place hplace
    have hheld : r.appId ∈ (c.offer W data).2.apps.keys := by
      rw [hafter]
      exact AppCatalog.mem_keys_file.mpr (Or.inl rfl)
    refine ⟨hacc, ?_, hmaxafter, hheld⟩
    rw [hafter]
    show ((base.file r.appId _).apps.size : ℤ) ≤ base.max
    rw [AppCatalog.max_place hplace]
    cases hplace with
    | held e hget => exact absurd (Dict.mem_keys_of_get? hget) hnew
    | room _ hroom =>
      rw [AppCatalog.size_file hnew]
      omega
    | evict e _ hfull hvictim =>
      have hpop : (c.apps.pop e.1).size + 1 = c.apps.size :=
        Dict.size_pop (List.mem_map_of_mem (AppCatalog.mem_victim hvictim))
      rw [AppCatalog.size_file fun hin => hnew (Dict.mem_keys_pop.mp hin).1]
      show (((c.apps.pop e.1).size + 1 : ℕ) : ℤ) ≤ c.max
      omega

/-- The catalogues an order of offers leads through that always offers an app that is not held. -/
def states (W : World) (pick : AppCatalog → Bytes) (max : ℤ) : ℕ → AppCatalog
  | 0 => new max
  | n + 1 => ((states W pick max n).offer W (pick (states W pick max n))).2

theorem unsettled_many {max : ℤ} (hvalid : Valid W S) (hmax : 1 ≤ max) (hmany : max < (S.image (appOf W)).card) :
    ∃ seq : ℕ → Bytes, (∀ n, seq n ∈ S) ∧ ¬ Settles W max seq := by
  have hpick : ∀ c : AppCatalog, ∃ data ∈ S, (c.apps.size : ℤ) ≤ max → appOf W data ∉ c.apps.keys := by
    intro c
    by_cases hsize : (c.apps.size : ℤ) ≤ max
    · obtain ⟨data, hdata, hnew⟩ := exists_missing hsize hmany
      exact ⟨data, hdata, fun _ => hnew⟩
    · have hne : S.Nonempty := by
        rw [Finset.nonempty_iff_ne_empty]
        rintro rfl
        rw [Finset.image_empty, Finset.card_empty] at hmany
        omega
      obtain ⟨data, hdata⟩ := hne
      exact ⟨data, hdata, fun h => absurd h hsize⟩
  choose pick hpickS hpickNew using hpick
  have hafter : ∀ n, after W max (fun n => pick (states W pick max n)) n = states W pick max n := by
    intro n
    induction n with
    | zero => rfl
    | succ n ih =>
      show ((after W max _ n).offer W _).2 = _
      rw [ih]
      rfl
  have hall : ∀ n, ((states W pick max n).apps.size : ℤ) ≤ max ∧ (states W pick max n).max = max ∧
      ((states W pick max n).offer W (pick (states W pick max n))).1.isSome = true := by
    intro n
    have hoffer : ∀ c : AppCatalog, (c.apps.size : ℤ) ≤ max → c.max = max →
        (c.offer W (pick c)).1.isSome = true ∧ ((c.offer W (pick c)).2.apps.size : ℤ) ≤ max ∧
          (c.offer W (pick c)).2.max = max := by
      intro c hsize hc
      obtain ⟨r, hr⟩ := Option.isSome_iff_exists.mp (hvalid _ (hpickS c))
      have hnew := hpickNew c hsize
      rw [appOf_eq hr] at hnew
      obtain ⟨hacc, hsize', hmax', -⟩ := accepted_missing (by omega) (by omega) hr hnew
      exact ⟨hacc, by omega, by omega⟩
    induction n with
    | zero =>
      have hzero : ((new max).apps.size : ℤ) ≤ max := by
        show (0 : ℤ) ≤ max
        omega
      exact ⟨hzero, rfl, (hoffer (new max) hzero rfl).1⟩
    | succ n ih =>
      obtain ⟨-, hsize, hc⟩ := hoffer _ ih.1 ih.2.1
      exact ⟨hsize, hc, (hoffer _ hsize hc).1⟩
  refine ⟨fun n => pick (states W pick max n), fun n => hpickS _, fun hsettles => ?_⟩
  refine Set.infinite_univ (hsettles.ends.subset fun n _ => ?_)
  show ((after W max _ n).offer W _).1.isSome = true
  rw [hafter]
  exact (hall n).2.2

/-! ### An author's share -/

namespace AppCatalog

theorem countP_pop (p : Bytes × Entry → Bool) {d : Dict Bytes Entry} {k : Bytes} {v : Entry}
    (h : (k, v) ∈ d.entries) :
    d.entries.countP p = (d.pop k).entries.countP p + if p (k, v) then 1 else 0 := by
  obtain ⟨before, rest, hsplit⟩ := List.append_of_mem h
  have hnodup := d.nodup
  rw [hsplit, List.map_append, List.map_cons, List.nodup_append] at hnodup
  obtain ⟨-, hrest, hapart⟩ := hnodup
  have hkeep : ∀ l : List (Bytes × Entry), (∀ e ∈ l, e.1 ≠ k) → l.filter (fun e => decide (e.1 ≠ k)) = l :=
    fun l hl => List.filter_eq_self.mpr fun e he => decide_eq_true (hl e he)
  have hpop : (d.pop k).entries = before ++ rest := by
    show d.entries.filter (fun e => decide (e.1 ≠ k)) = before ++ rest
    rw [hsplit, List.filter_append, List.filter_cons_of_neg (by simp), hkeep before, hkeep rest]
    · intro e he heq
      have hmem : e.1 ∈ rest.map Prod.fst := List.mem_map_of_mem he
      rw [heq] at hmem
      exact (List.nodup_cons.mp hrest).1 hmem
    · intro e he heq
      exact hapart e.1 (List.mem_map_of_mem he) k List.mem_cons_self heq
  rw [hpop, hsplit, List.countP_append, List.countP_append, List.countP_cons]
  omega

theorem count_file (c : AppCatalog) (appId : Bytes) (e : Entry) (author : Bytes) :
    (c.file appId e).count author =
      (c.apps.pop appId).entries.countP (fun x => x.2.author = author) + if e.author = author then 1 else 0 := by
  show (((c.apps.set appId e).moveToEnd appId).entries).countP _ = _
  rw [Dict.entries_refile, List.countP_append, List.countP_singleton]
  simp only [decide_eq_true_eq]

end AppCatalog

/-- **One offer of an author**: it drives out no entry of another, or has one more of its own and had fewer than
its share. -/
theorem count_offer (c : AppCatalog) {data : Bytes} {author : Bytes}
    (hauthor : ∀ r, parseRelease W data = some r → r.author = author) :
    (c.offer W data).2.authorShare = c.authorShare ∧
      (c.count author ≤ (c.offer W data).2.count author ∧
          (∀ e, c.evicted W data = some e → e.author = author) ∨
        (c.count author : ℤ) < c.authorShare ∧ c.count author + 1 ≤ (c.offer W data).2.count author) := by
  rcases c.offer_spec (W := W) data with ⟨-, hsame, hgone⟩ | ⟨r, base, gone, hparse, -, hplace, hafter, hgone⟩
  · rw [hsame, hgone]
    exact ⟨rfl, Or.inl ⟨Nat.le_refl _, fun e he => by cases he⟩⟩
  · have hmine : (entryOf W data r).author = author := hauthor r hparse
    have hshare : (base.file r.appId (entryOf W data r)).authorShare = c.authorShare := by
      show max 1 (base.max / minAuthors) = max 1 (c.max / minAuthors)
      rw [AppCatalog.max_place hplace]
    rw [hafter, hgone]
    refine ⟨hshare, ?_⟩
    rw [AppCatalog.count_file, if_pos hmine]
    cases hplace with
    | held e hget =>
      refine Or.inl ⟨?_, fun e he => by cases he⟩
      have hpop := AppCatalog.countP_pop (fun x => x.2.author = author) (Dict.get?_eq_some.mp hget)
      show c.apps.entries.countP _ ≤ _
      rw [hpop]
      split_ifs <;> omega
    | room hnew =>
      refine Or.inl ⟨?_, fun e he => by cases he⟩
      rw [Dict.pop_of_notMem hnew]
      exact Nat.le_succ _
    | evict e hnew hfull hvictim =>
      have hpop := AppCatalog.countP_pop (fun x => x.2.author = author) (AppCatalog.mem_victim hvictim)
      have hgoneKey : r.appId ∉ (c.apps.pop e.1).keys := fun hin => hnew (Dict.mem_keys_pop.mp hin).1
      rw [Dict.pop_of_notMem hgoneKey]
      have hcount : c.count author = c.apps.entries.countP fun x => x.2.author = author := rfl
      by_cases hown : e.2.author = author
      · refine Or.inl ⟨?_, fun e' he' => by rw [← Option.some.inj he']; exact hown⟩
        rw [hcount, hpop]
        split_ifs <;> omega
      · refine Or.inr ⟨?_, ?_⟩
        · by_contra hshare
          exact hown ((AppCatalog.own_victim hvictim (hauthor r hparse ▸ not_lt.mp hshare)).trans (hauthor r hparse))
        · rw [hcount, hpop, if_neg (by simpa using hown)]

/-- **An author drives out no more than its share of the others' entries**, less what it has. -/
theorem drivenOut_le (author : Bytes) : ∀ (offers : List Bytes) (c : AppCatalog),
    (∀ data ∈ offers, ∀ r, parseRelease W data = some r → r.author = author) →
    (drivenOut W author c offers : ℤ) ≤ max 0 (c.authorShare - c.count author)
  | [], c, _ => le_max_left _ _
  | data :: rest, c, h => by
    obtain ⟨hshare, hcount⟩ := count_offer c (h data List.mem_cons_self)
    have ih := drivenOut_le author rest (c.offer W data).2 fun d hd => h d (List.mem_cons_of_mem data hd)
    rw [hshare] at ih
    rw [drivenOut]
    rcases hcount with ⟨hgrow, hown⟩ | ⟨hless, hgrow⟩
    · cases hgone : c.evicted W data with
      | none =>
        dsimp only
        omega
      | some e =>
        dsimp only
        rw [if_pos (hown e hgone)]
        omega
    · have hone : (match c.evicted W data with
          | some e => if e.author = author then 0 else 1
          | none => 0) ≤ 1 := by
        split
        · split_ifs <;> decide
        · decide
      omega

/-- **When the catalogue settles**, for every finite set of valid releases and every size of the table: where the
releases name no more apps than it holds, or it holds none. And whatever is offered, an author drives out at most
its share of the entries of others. -/
theorem offers_end (hvalid : Valid W S) (max : ℤ) :
    ((∀ seq : ℕ → Bytes, (∀ n, seq n ∈ S) → Settles W max seq) ↔
      ((S.image (appOf W)).card : ℤ) ≤ max ∨ max ≤ 0) ∧
    ∀ (c : AppCatalog) (author : Bytes) (offers : List Bytes),
      (∀ data ∈ offers, ∀ r, parseRelease W data = some r → r.author = author) →
      (drivenOut W author c offers : ℤ) ≤ c.authorShare := by
  refine ⟨⟨fun h => ?_, fun h seq hseq => ?_⟩, fun c author offers hoffers => ?_⟩
  · by_contra hno
    obtain ⟨hmany, hpos⟩ := not_or.mp hno
    obtain ⟨seq, hseq, hunsettled⟩ := unsettled_many (W := W) hvalid (by omega) (not_le.mp hmany)
    exact hunsettled (h seq hseq)
  · rcases h with hfew | hnone
    · exact settles_few hvalid hfew hseq
    · exact settles_none hvalid hnone hseq
  · have hle := drivenOut_le (W := W) author offers c hoffers
    have hone := c.one_le_share
    omega

/-! ### Two apps -/

def plainWorld : World := ⟨id, 10, fun data => List.replicate 32 (data.getLast?.getD 0), fun _ _ _ => true⟩

/-- A release of an app with a name of one letter, with the code of the letter. -/
def releaseOf (letter code : String) : Bytes :=
  bytesOf "\x7b\"v\": 1, \"ts\": 7, \"version\": \"1\", \"author\": \"\", \"sig\": \"\", \"name\": \"" ++
    (bytesOf letter ++ (bytesOf "\", \"app_id\": \"" ++ ((List.replicate 8 (bytesOf code)).flatten ++
      (bytesOf "\", \"root_key\": \"" ++ (List.replicate 40 0x30 ++
        (bytesOf "\", \"root_sha256\": \"" ++ (List.replicate 64 0x30 ++ bytesOf "\"\x7d")))))))

def releaseA : Bytes := releaseOf "a" "61"

def releaseB : Bytes := releaseOf "b" "62"

def inTurn (n : ℕ) : Bytes := if n % 2 = 0 then releaseA else releaseB

theorem inTurn_mem (n : ℕ) : inTurn n ∈ ({releaseA, releaseB} : Finset Bytes) := by
  rw [inTurn]
  split_ifs <;> simp

theorem valid_pair : Valid plainWorld {releaseA, releaseB} := by
  intro data hdata
  rcases Finset.mem_insert.mp hdata with rfl | hdata
  · decide +kernel
  · rw [Finset.mem_singleton.mp hdata]
    decide +kernel

theorem appOf_inTurn (n : ℕ) : appOf plainWorld (inTurn n) ≠ appOf plainWorld (inTurn (n + 1)) := by
  have happs : appOf plainWorld releaseA ≠ appOf plainWorld releaseB := by decide +kernel
  rcases Nat.mod_two_eq_zero_or_one n with heven | hodd
  · rw [inTurn, inTurn, if_pos heven, if_neg (by omega)]
    exact happs
  · rw [inTurn, inTurn, if_neg (by omega), if_pos (by omega)]
    exact happs.symm

theorem ends_pair :
    ((∀ seq : ℕ → Bytes, (∀ n, seq n ∈ ({releaseA, releaseB} : Finset Bytes)) → Settles plainWorld 2 seq) ↔
      ((({releaseA, releaseB} : Finset Bytes).image (appOf plainWorld)).card : ℤ) ≤ 2 ∨ (2 : ℤ) ≤ 0) ∧
    ∀ (c : AppCatalog) (author : Bytes) (offers : List Bytes),
      (∀ data ∈ offers, ∀ r, parseRelease plainWorld data = some r → r.author = author) →
      (drivenOut plainWorld author c offers : ℤ) ≤ c.authorShare :=
  offers_end valid_pair 2

/-- In a table of one, each of the two drives the other out, is forgotten and accepted again: for ever. -/
theorem in_turn_forever : Valid plainWorld {releaseA, releaseB} ∧
    (∀ n, inTurn n ∈ ({releaseA, releaseB} : Finset Bytes)) ∧ (∀ n, Accepted plainWorld 1 inTurn n) ∧
    ¬ Settles plainWorld 1 inTurn := by
  have hall : ∀ n, ((after plainWorld 1 inTurn n).apps.size : ℤ) ≤ 1 ∧ (after plainWorld 1 inTurn n).max = 1 ∧
      appOf plainWorld (inTurn n) ∉ (after plainWorld 1 inTurn n).apps.keys ∧ Accepted plainWorld 1 inTurn n := by
    intro n
    induction n with
    | zero =>
      have hnew : appOf plainWorld (inTurn 0) ∉ (after plainWorld 1 inTurn 0).apps.keys := fun h => by cases h
      obtain ⟨r, hr⟩ := Option.isSome_iff_exists.mp (valid_pair _ (inTurn_mem 0))
      refine ⟨by decide, rfl, hnew, ?_⟩
      exact (accepted_missing (by decide) (by decide) hr (appOf_eq hr ▸ hnew)).1
    | succ n ih =>
      obtain ⟨hsize, hmax, hnew, -⟩ := ih
      obtain ⟨r, hr⟩ := Option.isSome_iff_exists.mp (valid_pair _ (inTurn_mem n))
      rw [appOf_eq hr] at hnew
      obtain ⟨-, hsize', hmax', hheld⟩ := accepted_missing (by omega) (by omega) hr hnew
      have hmax1 : (after plainWorld 1 inTurn (n + 1)).max = 1 := hmax'.trans hmax
      have hsize1 : ((after plainWorld 1 inTurn (n + 1)).apps.size : ℤ) ≤ 1 := hsize'.trans_eq hmax1
      have hnew' : appOf plainWorld (inTurn (n + 1)) ∉ (after plainWorld 1 inTurn (n + 1)).apps.keys := by
        intro hin
        have hcard := List.toFinset_card_of_nodup (after plainWorld 1 inTurn (n + 1)).apps.nodup_keys
        rw [← Dict.size_eq] at hcard
        refine appOf_inTurn n (Finset.card_le_one.mp (by omega) _ (List.mem_toFinset.mpr ?_) _
          (List.mem_toFinset.mpr hin))
        rw [appOf_eq hr]
        exact hheld
      obtain ⟨r', hr'⟩ := Option.isSome_iff_exists.mp (valid_pair _ (inTurn_mem (n + 1)))
      exact ⟨hsize1, hmax1, hnew', (accepted_missing (by omega) (by omega) hr' (appOf_eq hr' ▸ hnew')).1⟩
  refine ⟨valid_pair, inTurn_mem, fun n => (hall n).2.2.2, fun hsettles => ?_⟩
  exact Set.infinite_univ (hsettles.ends.subset fun n _ => (hall n).2.2.2)

end Offers

end NMesh.Store.Catalogue
