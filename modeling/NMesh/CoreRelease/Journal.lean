import NMesh.Base.JsonDeep
import NMesh.Base.JsonSettled
import NMesh.Base.Runs
import NMesh.CoreRelease.Catalog

/-! # What the unattended installer has already tried

The journal keeps, by release, the version an automatic install was for and how often it was attempted,
and writes its entries to a file, so that a node that restarts knows them. A sound table is loaded as it
was saved (`load_saved`), and whatever is loaded is sound (`sound_of_load`).

`settle` drops the entries of the running version, but saves only when a release did not take or when
nothing is left: if all that is left was refused, what it dropped is still on disk
(`load_settle_iff`). In every run without such a step the file holds the journal
(`journal_on_disk`). -/

namespace NMesh.CoreRelease.Journal

open Base.BigEndian Base.Utf8 Base.Ordered Base.JsonText
open Base.JsonRound Base.JsonStyle Base.JsonSize Base.JsonSteady Base.JsonRead
open Base.JsonDeep Base.JsonSettled Base.Runs
open NMesh.CoreRelease.Catalog (publisherIdLen)
open NMesh.CoreRelease.Descriptor (maxVersionLen)

def maxAutoAttempts : ℤ := 2

def maxAutoJournal : ℕ := 8

/-- `_HEX_ID.fullmatch` -/
def isHexId (key : Text) : Bool :=
  decide (key.length = publisherIdLen * 2) &&
    key.all fun c => decide ((0x30 ≤ c ∧ c ≤ 0x39) ∨ (0x61 ≤ c ∧ c ≤ 0x66))

/-- An entry: what was attempted, how often, whether the new tree refused, and when. -/
structure Entry where
  version : Text
  attempts : ℤ
  refused : Bool
  time : ℤ
  deriving DecidableEq

def entryJson (e : Entry) : Json :=
  .obj [(ascii "version", .str e.version), (ascii "attempts", .int e.attempts),
    (ascii "refused", .bool e.refused), (ascii "at", .int e.time)]

def document (entries : Dict Text Entry) : Json := .obj (entries.entries.map fun e => (e.1, entryJson e.2))

/-- Is this `True`? -/
def isTrue : Option Json → Bool
  | some (.bool b) => b
  | _ => false

def clean (key : Text) (value : Json) : Option Entry := do
  guard (isHexId key)
  let version ← (value.get? (ascii "version")).bind Json.text?
  guard (version.length ≤ maxVersionLen)
  let attempts ← (value.get? (ascii "attempts")).bind Json.int?
  return { version := version, attempts := max 0 (min attempts maxAutoAttempts),
           refused := isTrue (value.get? (ascii "refused")),
           time := ((value.get? (ascii "at")).bind Json.int?).getD 0 }

def loadEntry (limit : ℕ) (out : Dict Text Entry) (e : Text × Json) : Dict Text Entry :=
  if limit ≤ out.size then out
  else
    match clean e.1 e.2 with
    | some entry => out.set e.1 entry
    | none => out

section

variable (floatRepr : Text → Text) (depth : ℕ)

/-- **`_load`**; `none` where it raises, the parser having gone too deep. -/
def load (limit : ℕ) (file : Option Bytes) : Option (Dict Text Entry) :=
  match file.bind decodeUtf8 with
  | none => some .empty
  | some text =>
    if tooDeep floatRepr depth text then none
    else
      match loads floatRepr depth text with
      | some (.obj members) => some (members.foldl (loadEntry limit) .empty)
      | _ => some .empty

end

/-- **`AutoInstallJournal`**, and the file at its path. -/
structure AutoInstallJournal where
  limit : ℕ
  entries : Dict Text Entry
  file : Option Bytes

/-- What `int(time.time())` can be: the whole part of a float. -/
def Reading : Type := { n : ℤ // n.natAbs < 2 ^ 1024 }

namespace AutoInstallJournal

def save (j : AutoInstallJournal) : AutoInstallJournal :=
  { j with file := some (blob standard (document j.entries)) }

/-- **`settle`**: the versions that did not take, and the journal after it. -/
def settle (j : AutoInstallJournal) (running : Text) : List Text × AutoInstallJournal :=
  let entries := j.entries.filterVal fun e => decide (e.version ≠ running)
  let stale := (entries.values.filter fun e => !e.refused).map Entry.version
  if stale ≠ [] ∨ entries.size = 0 then (stale, ({ j with entries := entries } : AutoInstallJournal).save)
  else (stale, { j with entries := entries })

def attempts (j : AutoInstallJournal) (id : Text) : ℤ := ((j.entries.get? id).map Entry.attempts).getD 0

def exhausted (j : AutoInstallJournal) (id : Text) : Bool := decide (maxAutoAttempts ≤ j.attempts id)

/-- **`record`**: how many attempts there have been, and the journal after it. -/
def record (j : AutoInstallJournal) (id version : Text) (refused : Bool) (clock : Reading) :
    ℤ × AutoInstallJournal :=
  if isHexId id = false then (0, j)
  else
    let entry : Entry :=
      { version := version.take maxVersionLen, attempts := min (j.attempts id + 1) maxAutoAttempts,
        refused := refused, time := clock.1 }
    let entries := j.entries.set id entry
    (j.attempts id + 1,
      ({ j with entries := Dict.makeRoom (j.limit + 1) entries.size entries } : AutoInstallJournal).save)

def forget (j : AutoInstallJournal) (id : Text) : AutoInstallJournal :=
  if (j.entries.get? id).isSome then ({ j with entries := j.entries.pop id } : AutoInstallJournal).save else j

/-- The entries that `abandon` closes. -/
def open? (version : Text) (e : Entry) : Bool := decide (e.version = version ∧ e.attempts < maxAutoAttempts)

/-- **`abandon`**: how many entries it closed, and the journal after it. -/
def abandon (j : AutoInstallJournal) (version : Text) : ℕ × AutoInstallJournal :=
  let closed := (j.entries.values.filter (open? version)).length
  let entries := j.entries.mapVal fun _ e => if open? version e then { e with attempts := maxAutoAttempts } else e
  if closed ≠ 0 then (closed, ({ j with entries := entries } : AutoInstallJournal).save)
  else (closed, { j with entries := entries })

end AutoInstallJournal

/-- What is done to a journal. -/
inductive Op where
  | settle (running : Text)
  | record (id version : Text) (refused : Bool) (clock : Reading)
  | forget (id : Text)
  | abandon (version : Text)

def apply (j : AutoInstallJournal) : Op → AutoInstallJournal
  | .settle running => (j.settle running).2
  | .record id version refused clock => (j.record id version refused clock).2
  | .forget id => j.forget id
  | .abandon version => (j.abandon version).2

/-- **Settling drops entries and says nothing**: some are of the running version, some are left, and all
that are left were refused. -/
def Silent (entries : Dict Text Entry) (running : Text) : Prop :=
  (∃ e ∈ entries.values, e.version = running) ∧ (∃ e ∈ entries.values, e.version ≠ running) ∧
    ∀ e ∈ entries.values, e.version ≠ running → e.refused = true

/-- No silent settling, and no version with a surrogate pair in it. -/
def Allowed (j : AutoInstallJournal) : Op → Prop
  | .settle running => ¬ Silent j.entries running
  | .record _ version _ _ => Steady version
  | _ => True

/-! ### Sound entries -/

/-- An entry that `_clean` gives back. -/
structure SoundEntry (key : Text) (e : Entry) : Prop where
  id : isHexId key = true
  version : Steady e.version
  short : e.version.length ≤ maxVersionLen
  attempts : 0 ≤ e.attempts ∧ e.attempts ≤ maxAutoAttempts
  time : (digits e.time.natAbs).length ≤ maxDigits

/-- A table that fits and whose entries are sound. -/
structure Sound (limit : ℕ) (d : Dict Text Entry) : Prop where
  size : d.size ≤ limit
  entry : ∀ key e, d.get? key = some e → SoundEntry key e

variable {key : Text}

theorem steady_hexId (h : isHexId key = true) : Steady key := by
  unfold isHexId at h
  rw [Bool.and_eq_true, List.all_eq_true] at h
  refine steady_of_ascii fun c hc => ?_
  have := of_decide_eq_true (h.2 c hc)
  omega

variable {floatRepr : Text → Text}

theorem steady_int {n : ℤ} (h : (digits n.natAbs).length ≤ maxDigits) :
    SteadyValue floatRepr standard (.int n) := ⟨h, rfl, ascii_dumpInt n⟩

theorem digits_attempts {n : ℤ} (h : 0 ≤ n ∧ n ≤ maxAutoAttempts) : (digits n.natAbs).length ≤ maxDigits := by
  have hmax : maxAutoAttempts = 2 := rfl
  refine (length_digits (k := 1) (by decide) ?_).trans (by decide)
  omega

theorem steady_entry {e : Entry} (h : SoundEntry key e) : SteadyValue floatRepr standard (entryJson e) := by
  have hnodup : [ascii "version", ascii "attempts", ascii "refused", ascii "at"].Nodup := by decide
  refine steady_obj (d := ⟨[(ascii "version", .str e.version), (ascii "attempts", .int e.attempts),
    (ascii "refused", .bool e.refused), (ascii "at", .int e.time)], hnodup⟩) rfl ?_
  simp only [List.forall_mem_cons]
  exact ⟨⟨steady_of_ascii (by decide), steady_str rfl h.version⟩,
    ⟨steady_of_ascii (by decide), steady_int (digits_attempts h.attempts)⟩,
    ⟨steady_of_ascii (by decide), steady_bool e.refused⟩,
    ⟨steady_of_ascii (by decide), steady_int h.time⟩, List.forall_mem_nil _⟩

variable {limit : ℕ} {d : Dict Text Entry}

theorem steady_document (h : Sound limit d) : SteadyValue floatRepr standard (document d) := by
  refine steady_obj (d := d.mapVal fun _ e => entryJson e) rfl fun m hm => ?_
  obtain ⟨e, he, rfl⟩ := List.mem_map.mp hm
  have hentry := h.entry e.1 e.2 (Dict.get?_eq_some.mpr he)
  exact ⟨steady_hexId hentry.id, steady_entry hentry⟩

theorem height_document (d : Dict Text Entry) : height (document d) ≤ 2 := by
  have hmembers : heightMembers (d.entries.map fun e => (e.1, entryJson e.2)) ≤ 1 :=
    heightMembers_le.mpr fun m hm => by
      obtain ⟨e, -, rfl⟩ := List.mem_map.mp hm
      exact le_rfl
  exact Nat.succ_le_succ hmembers

/-! ### Loading what was saved -/

theorem clean_entryJson {e : Entry} (h : SoundEntry key e) : clean key (entryJson e) = some e := by
  have hversion : (entryJson e).get? (ascii "version") = some (.str e.version) := rfl
  have hattempts : (entryJson e).get? (ascii "attempts") = some (.int e.attempts) := rfl
  have hrefused : (entryJson e).get? (ascii "refused") = some (.bool e.refused) := rfl
  have htime : (entryJson e).get? (ascii "at") = some (.int e.time) := rfl
  have hclamp : max 0 (min e.attempts maxAutoAttempts) = e.attempts := by
    rw [min_eq_left h.attempts.2, max_eq_right h.attempts.1]
  unfold clean
  rw [hversion, hattempts, hrefused, htime]
  simp [h.id, h.short, Json.text?, Json.int?, isTrue, hclamp]

variable {depth : ℕ}

theorem load_saved (hdepth : 2 ≤ depth) (h : Sound limit d) :
    load floatRepr depth limit (some (blob standard (document d))) = some d := by
  obtain ⟨text, htext, hread⟩ := Option.bind_eq_some_iff.mp
    (loads_blob rfl (@steady_document floatRepr _ _ h) ((height_document d).trans hdepth))
  have hfill : (d.entries.map fun e => (e.1, entryJson e.2)).foldl (loadEntry limit) .empty = d := by
    refine Dict.foldl_refill d (fun e => (e.1, entryJson e.2)) fun e he d' hsize => ?_
    have hentry := h.entry e.1 e.2 (Dict.get?_eq_some.mpr he)
    have hlimit := h.size
    rw [loadEntry, if_neg (by omega)]
    dsimp only
    rw [clean_entryJson hentry]
  unfold load
  rw [Option.bind_some, htext]
  dsimp only
  rw [not_tooDeep hread, if_neg Bool.false_ne_true, hread]
  exact congrArg some hfill

/-! ### What is loaded is sound -/

theorem sound_clean {value : Json} {e : Entry} (hplain : Plain floatRepr value)
    (hsettled : Settled value) (h : clean key value = some e) : SoundEntry key e := by
  unfold clean at h
  simp only [Option.bind_eq_bind, Option.bind_eq_some_iff, Option.pure_def, Option.some.injEq] at h
  obtain ⟨_, hid, version, ⟨vjson, hv, hvtext⟩, _, hshort, attempts, -, rfl⟩ := h
  have hin : ∀ {k : Text} {v : Json}, value.get? k = some v → Plain floatRepr v ∧ Settled v := by
    intro k v hget
    match value, hget, hplain, hsettled with
    | .obj members, hget, hplain, hsettled =>
      exact ⟨plain_getL hplain hget, (hsettled.of_obj _ (mem_of_getL hget)).2⟩
  have hsteady : Steady version := by
    match vjson, hv, hvtext with
    | .str s, hv, hvtext =>
      cases hvtext
      obtain ⟨hpoints, hchain⟩ := hin hv
      exact ⟨hpoints, hchain.of_str⟩
  have hdigits : (digits ((((value.get? (ascii "at")).bind Json.int?).getD 0).natAbs)).length ≤ maxDigits := by
    rcases hget : (value.get? (ascii "at")).bind Json.int? with _ | n
    · decide
    · obtain ⟨njson, hn, hnint⟩ := Option.bind_eq_some_iff.mp hget
      match njson, hn, hnint with
      | .int m, hn, hnint =>
        cases hnint
        exact (hin hn).1
  have hmax : maxAutoAttempts = 2 := rfl
  exact ⟨by simpa [guard] using hid, hsteady, by simpa [guard] using hshort,
    ⟨le_max_left _ _, max_le (by omega) (min_le_right _ _)⟩, hdigits⟩

theorem sound_of_load (hfloats : Floats floatRepr) {file : Option Bytes}
    (h : load floatRepr depth limit file = some d) : Sound limit d := by
  have hempty : Sound limit .empty := ⟨Nat.zero_le _, fun key e hget => by
    rw [Dict.get?_eq_some] at hget
    exact absurd hget List.not_mem_nil⟩
  unfold load at h
  split at h
  · rw [← Option.some.inj h]
    exact hempty
  next text htext =>
    obtain ⟨data, -, hdata⟩ := Option.bind_eq_some_iff.mp htext
    split_ifs at h with hdeep
    split at h
    next members hread =>
      have hplain := (loads_plain hfloats (points_decode hdata) hread).1
      have hsettled := (settled_of_loads hdata hread).of_obj
      have hfold : ∀ (ms : List (Text × Json)) (d' : Dict Text Entry), (∀ m ∈ ms, m ∈ members) → Sound limit d' →
          Sound limit (ms.foldl (loadEntry limit) d') := by
        intro ms
        induction ms with
        | nil => exact fun _ _ h => h
        | cons m ms ih =>
          intro d' hms hd'
          have hm := hms m List.mem_cons_self
          refine ih _ (fun m' hm' => hms m' (List.mem_cons_of_mem _ hm')) ?_
          unfold loadEntry
          by_cases hfull : limit ≤ d'.size
          · rw [if_pos hfull]
            exact hd'
          · rw [if_neg hfull]
            cases hclean : clean m.1 m.2 with
            | none => exact hd'
            | some e =>
              have hentry := sound_clean (plainMembers_iff.mp hplain m hm).2 (hsettled m hm).2 hclean
              refine ⟨?_, fun key e' hget => ?_⟩
              · exact Dict.size_set_le (by omega) fun _ => by omega
              · exact Dict.all_set hd'.entry hentry key e' hget
      rw [← Option.some.inj h]
      exact hfold members .empty (fun m hm => hm) hempty
    next =>
      rw [← Option.some.inj h]
      exact hempty

/-! ### One operation -/

theorem Sound.sub {d' : Dict Text Entry} (h : Sound limit d) (hsize : d'.size ≤ d.size)
    (hget : ∀ key e, d'.get? key = some e → d.get? key = some e) : Sound limit d' :=
  ⟨hsize.trans h.size, fun key e he => h.entry key e (hget key e he)⟩

theorem digits_reading (clock : Reading) : (digits clock.1.natAbs).length ≤ maxDigits := by
  have hpow : ∀ k : ℕ, 2 ^ k ≤ 10 ^ k := Nat.pow_le_pow_left (by decide)
  exact (length_digits (k := 1024) (by decide) (lt_of_lt_of_le clock.2 (hpow 1024))).trans (by decide)

theorem sound_record (h : Sound limit d) {id version : Text}
    (hid : isHexId id = true) (hversion : Steady version) {attempts : ℤ} (hattempts : 0 ≤ attempts)
    (refused : Bool) (clock : Reading) {n : ℕ}
    (hn : (d.set id ⟨version.take maxVersionLen, min attempts maxAutoAttempts, refused, clock.1⟩).size ≤ n) :
    Sound limit (Dict.makeRoom (limit + 1) n
      (d.set id ⟨version.take maxVersionLen, min attempts maxAutoAttempts, refused, clock.1⟩)) := by
  have hmax : maxAutoAttempts = 2 := rfl
  refine ⟨Nat.le_of_lt_succ (Dict.size_makeRoom_lt (Nat.succ_pos _) hn), fun key e hget => ?_⟩
  refine Dict.all_set h.entry ?_ key e (Dict.get?_of_makeRoom hget)
  exact ⟨hid, hversion.take _, List.length_take_le _ _, ⟨le_min hattempts (by omega), min_le_right _ _⟩,
    digits_reading clock⟩

theorem sound_abandon (h : Sound limit d) (version : Text) : Sound limit (d.mapVal fun _ e =>
      if AutoInstallJournal.open? version e then { e with attempts := maxAutoAttempts } else e) := by
  refine ⟨by rw [Dict.size_mapVal]; exact h.size, fun key e hget => ?_⟩
  obtain ⟨e', he', rfl⟩ := Dict.get?_of_mapVal hget
  have hentry := h.entry key e' he'
  by_cases hopen : AutoInstallJournal.open? version e' = true
  · rw [if_pos hopen]
    exact ⟨hentry.id, hentry.version, hentry.short, ⟨(by decide : (0 : ℤ) ≤ maxAutoAttempts), le_rfl⟩, hentry.time⟩
  · rw [if_neg hopen]
    exact hentry

/-- The journal on disk is the journal in memory. -/
structure OnDisk (floatRepr : Text → Text) (depth : ℕ) (j : AutoInstallJournal) : Prop where
  sound : Sound j.limit j.entries
  same : load floatRepr depth j.limit j.file = some j.entries

theorem onDisk_save (hdepth : 2 ≤ depth) {j : AutoInstallJournal} (h : Sound j.limit j.entries) :
    OnDisk floatRepr depth j.save := ⟨h, load_saved hdepth h⟩

theorem filterVal_all {κ ν : Type} [DecidableEq κ] {d : Dict κ ν} {p : ν → Bool}
    (h : ∀ v ∈ d.values, p v = true) : d.filterVal p = d :=
  Dict.ext (List.filter_eq_self.mpr fun e he => h e.2 (List.mem_map_of_mem he))

theorem mem_values_filterVal {κ ν : Type} {d : Dict κ ν} {p : ν → Bool} {v : ν} :
    v ∈ (d.filterVal p).values ↔ v ∈ d.values ∧ p v = true := by
  unfold Dict.values Dict.filterVal
  simp only [List.mem_map, List.mem_filter]
  constructor
  · rintro ⟨e, ⟨he, hp⟩, rfl⟩
    exact ⟨⟨e, he, rfl⟩, hp⟩
  · rintro ⟨⟨e, he, rfl⟩, hp⟩
    exact ⟨e, ⟨he, hp⟩, rfl⟩

/-- **One settling**: the file holds the journal after it exactly if it was not silent. -/
theorem load_settle_iff (hdepth : 2 ≤ depth) {j : AutoInstallJournal}
    (h : OnDisk floatRepr depth j) (running : Text) :
    load floatRepr depth j.limit (j.settle running).2.file = some (j.settle running).2.entries ↔
      ¬ Silent j.entries running := by
  obtain ⟨left, hleft⟩ : ∃ left, left = j.entries.filterVal fun e => decide (e.version ≠ running) := ⟨_, rfl⟩
  obtain ⟨stale, hstale⟩ : ∃ stale, stale = (left.values.filter fun e => !e.refused).map Entry.version :=
    ⟨_, rfl⟩
  have hmem : ∀ e, e ∈ left.values ↔ e ∈ j.entries.values ∧ e.version ≠ running := fun e => by
    rw [hleft, mem_values_filterVal, decide_eq_true_eq]
  have hsound : Sound j.limit left := by
    rw [hleft]
    exact h.sound.sub (Dict.size_filterVal_le _ _) fun key e he => Dict.get?_of_filterVal he
  by_cases hwrite : stale ≠ [] ∨ left.size = 0
  · have hsettle : (j.settle running).2 = ({ j with entries := left } : AutoInstallJournal).save := by
      simp only [AutoInstallJournal.settle, ← hleft, ← hstale, if_pos hwrite]
    rw [hsettle]
    refine iff_of_true (load_saved hdepth hsound) ?_
    rintro ⟨-, ⟨e, he, hne⟩, hall⟩
    rcases hwrite with hwrite | hwrite
    · obtain ⟨v, hv⟩ := List.exists_mem_of_ne_nil _ hwrite
      rw [hstale] at hv
      obtain ⟨e', he', -⟩ := List.mem_map.mp hv
      obtain ⟨hin, hnot⟩ := List.mem_filter.mp he'
      have hr := hall e' ((hmem e').mp hin).1 ((hmem e').mp hin).2
      rw [hr] at hnot
      cases hnot
    · have hnil : left.values = [] := by
        unfold Dict.values
        rw [List.length_eq_zero_iff.mp hwrite]
        rfl
      exact absurd ((hmem e).mpr ⟨he, hne⟩) (by rw [hnil]; exact List.not_mem_nil)
  · have hsettle : (j.settle running).2 = { j with entries := left } := by
      simp only [AutoInstallJournal.settle, ← hleft, ← hstale, if_neg hwrite]
    obtain ⟨hnone, hsome⟩ := not_or.mp hwrite
    rw [hsettle]
    show load floatRepr depth j.limit j.file = some left ↔ _
    rw [h.same]
    have hquiet : ∀ e ∈ left.values, e.refused = true := by
      intro e he
      by_contra hr
      rw [hstale, not_not, List.map_eq_nil_iff] at hnone
      exact List.not_mem_nil (hnone ▸ List.mem_filter.mpr ⟨he, by simp [hr]⟩)
    have hrest : ∃ e ∈ j.entries.values, e.version ≠ running := by
      obtain ⟨e, he⟩ := List.exists_mem_of_length_pos (Nat.pos_of_ne_zero hsome)
      have hin : e.2 ∈ left.values := List.mem_map_of_mem he
      exact ⟨e.2, ((hmem e.2).mp hin).1, ((hmem e.2).mp hin).2⟩
    constructor
    · rintro heq ⟨⟨e, he, hv⟩, -⟩
      rw [Option.some.inj heq] at he
      exact ((hmem e).mp he).2 hv
    · intro hnot
      have hall : ∀ e ∈ j.entries.values, e.version ≠ running := fun e he hv =>
        hnot ⟨⟨e, he, hv⟩, hrest, fun e' he' hne => hquiet e' ((hmem e').mpr ⟨he', hne⟩)⟩
      rw [hleft, filterVal_all fun e he => decide_eq_true (hall e he)]

theorem limit_apply (j : AutoInstallJournal) (op : Op) : (apply j op).limit = j.limit := by
  cases op with
  | settle running =>
    show (j.settle running).2.limit = j.limit
    unfold AutoInstallJournal.settle
    dsimp only
    split_ifs <;> rfl
  | record id version refused clock =>
    show (j.record id version refused clock).2.limit = j.limit
    unfold AutoInstallJournal.record
    split_ifs <;> rfl
  | forget id =>
    show (j.forget id).limit = j.limit
    unfold AutoInstallJournal.forget
    split_ifs <;> rfl
  | abandon version =>
    show (j.abandon version).2.limit = j.limit
    unfold AutoInstallJournal.abandon
    dsimp only
    split_ifs <;> rfl

theorem onDisk_apply (hdepth : 2 ≤ depth) (j : AutoInstallJournal) (op : Op)
    (h : OnDisk floatRepr depth j) (hop : Allowed j op) : OnDisk floatRepr depth (apply j op) := by
  cases op with
  | settle running =>
    have hlimit := limit_apply j (.settle running)
    have hentries : (apply j (.settle running)).entries =
        j.entries.filterVal fun e => decide (e.version ≠ running) := by
      show (j.settle running).2.entries = _
      unfold AutoInstallJournal.settle
      dsimp only
      split_ifs <;> rfl
    refine ⟨?_, ?_⟩
    · rw [hlimit, hentries]
      exact h.sound.sub (Dict.size_filterVal_le _ _) fun key e he => Dict.get?_of_filterVal he
    · rw [hlimit]
      exact (load_settle_iff hdepth h running).mpr hop
  | record id version refused clock =>
    show OnDisk floatRepr depth (j.record id version refused clock).2
    unfold AutoInstallJournal.record
    by_cases hid : isHexId id = false
    · rw [if_pos hid]
      exact h
    · rw [if_neg hid]
      have hattempts : 0 ≤ j.attempts id + 1 := by
        have hnonneg : 0 ≤ j.attempts id := by
          unfold AutoInstallJournal.attempts
          rcases hget : j.entries.get? id with _ | e
          · exact le_rfl
          · exact (h.sound.entry id e hget).attempts.1
        omega
      exact onDisk_save hdepth
        (sound_record h.sound (Bool.not_eq_false _ |>.mp hid) hop hattempts refused clock le_rfl)
  | forget id =>
    show OnDisk floatRepr depth (j.forget id)
    unfold AutoInstallJournal.forget
    by_cases hin : (j.entries.get? id).isSome = true
    · rw [if_pos hin]
      exact onDisk_save hdepth
        (h.sound.sub (Dict.size_pop_le _ _) fun key e he => (Dict.get?_of_pop he).2)
    · rw [if_neg hin]
      exact h
  | abandon version =>
    show OnDisk floatRepr depth (j.abandon version).2
    unfold AutoInstallJournal.abandon
    dsimp only
    by_cases hclosed : (j.entries.values.filter (AutoInstallJournal.open? version)).length ≠ 0
    · rw [if_pos hclosed]
      exact onDisk_save hdepth (sound_abandon h.sound version)
    · rw [if_neg hclosed]
      have hnone : ∀ e ∈ j.entries.entries, AutoInstallJournal.open? version e.2 = false := by
        intro e he
        rw [not_not, List.length_eq_zero_iff, List.filter_eq_nil_iff] at hclosed
        exact Bool.not_eq_true _ |>.mp (hclosed e.2 (List.mem_map_of_mem he))
      have hsame : (j.entries.mapVal fun _ e =>
          if AutoInstallJournal.open? version e then { e with attempts := maxAutoAttempts } else e) =
            j.entries := by
        refine Dict.ext ((List.map_congr_left fun e he => ?_).trans (List.map_id _))
        dsimp only
        rw [hnone e he, if_neg Bool.false_ne_true]
        rfl
      rw [hsame]
      exact h

/-! ### Every run -/

/-- **The journal on disk.** From a journal that was loaded from its file, whatever is settled, recorded,
forgotten and abandoned without a silent settling: a new journal loads the entries of the live one; and
after any such run a settling keeps it so exactly if it is not silent. -/
theorem journal_on_disk (hfloats : Floats floatRepr) {depth : ℕ} (hdepth : 2 ≤ depth) {limit : ℕ}
    {file : Option Bytes} {entries : Dict Text Entry} (hload : load floatRepr depth limit file = some entries)
    (ops : List Op) (h : Guarded apply Allowed ⟨limit, entries, file⟩ ops) :
    load floatRepr depth limit (run apply ⟨limit, entries, file⟩ ops).file =
      some (run apply ⟨limit, entries, file⟩ ops).entries ∧
    ∀ running, (load floatRepr depth limit
        ((run apply ⟨limit, entries, file⟩ ops).settle running).2.file =
          some ((run apply ⟨limit, entries, file⟩ ops).settle running).2.entries ↔
      ¬ Silent (run apply ⟨limit, entries, file⟩ ops).entries running) := by
  have hinv : OnDisk floatRepr depth (run apply ⟨limit, entries, file⟩ ops) ∧
      (run apply ⟨limit, entries, file⟩ ops).limit = limit := by
    refine Guarded.run_induct (G := Allowed) (P := fun j => OnDisk floatRepr depth j ∧ j.limit = limit)
      (fun j op hj hop => ?_) ⟨⟨sound_of_load hfloats hload, hload⟩, rfl⟩ h
    exact ⟨onDisk_apply hdepth j op hj.1 hop, (limit_apply j op).trans hj.2⟩
  obtain ⟨hdisk, hlimit⟩ := hinv
  have hsame := hdisk.same
  rw [hlimit] at hsame
  refine ⟨hsame, fun running => ?_⟩
  have hiff := load_settle_iff hdepth hdisk running
  rwa [hlimit] at hiff

/-! ### A run that loses a settling -/

def epoch : Reading := ⟨0, by rw [Int.natAbs_zero]; exact Nat.pow_pos Nat.two_pos⟩

/-- The release of version 1 was installed; that of version 2 was refused by its own tree. -/
def twoAttempts : List Op :=
  [.record (List.replicate 40 0x61) (ascii "1") false epoch,
    .record (List.replicate 40 0x62) (ascii "2") true epoch]

def freshJournal : AutoInstallJournal := ⟨maxAutoJournal, .empty, none⟩

theorem load_none (depth limit : ℕ) : load floatRepr depth limit none = some .empty := rfl

theorem silent_twoAttempts : Silent (run apply freshJournal twoAttempts).entries (ascii "1") := by
  have hvalues : (run apply freshJournal twoAttempts).entries.values =
      [⟨ascii "1", 1, false, 0⟩, ⟨ascii "2", 1, true, 0⟩] := by decide +kernel
  unfold Silent
  rw [hvalues]
  decide

theorem allowed_twoAttempts : Guarded apply Allowed freshJournal twoAttempts := by
  simp only [twoAttempts, Guarded]
  exact ⟨steady_of_ascii (by decide), steady_of_ascii (by decide), trivial⟩

/-- **What settling dropped is back after a restart**: the node runs version 1, the entry of version 2
was refused, and nothing is saved. -/
theorem dropped_comes_back :
    load wholeRepr 1000 maxAutoJournal (apply (run apply freshJournal twoAttempts) (.settle (ascii "1"))).file ≠
      some (apply (run apply freshJournal twoAttempts) (.settle (ascii "1"))).entries := by
  have hdisk : OnDisk wholeRepr 1000 (run apply freshJournal twoAttempts) :=
    Guarded.run_induct (G := Allowed) (P := OnDisk wholeRepr 1000)
      (fun j op hj hop => onDisk_apply (by decide) j op hj hop)
      ⟨sound_of_load floats_wholeRepr (load_none 1000 maxAutoJournal), load_none _ _⟩ allowed_twoAttempts
  intro hsame
  exact (load_settle_iff (by decide) hdisk (ascii "1")).mp hsame silent_twoAttempts

theorem journal_on_disk_twoAttempts :
    load wholeRepr 1000 maxAutoJournal (run apply freshJournal twoAttempts).file =
      some (run apply freshJournal twoAttempts).entries :=
  (journal_on_disk floats_wholeRepr (by decide) (load_none 1000 maxAutoJournal) twoAttempts
    allowed_twoAttempts).1

end NMesh.CoreRelease.Journal
