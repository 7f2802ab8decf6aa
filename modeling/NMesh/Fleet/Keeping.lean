import NMesh.Base.JsonSteady
import NMesh.Fleet.Stored

/-! # What the operations on a ledger keep

Tables are sound if they keep to their bounds and every value in them comes back from JSON as it went and is left alone
by the cleaning of the loader. The tables of a new ledger are sound, and every operation leaves them so
(`sound_operate`), if its texts and statuses come back from JSON themselves. -/

namespace NMesh.Fleet.Keeping

open Base.BigEndian Base.Utf8 Base.Hex Base.Ordered Base.JsonText Base.JsonRound
open Base.JsonStyle Base.JsonSteady NMesh.Fleet.Ledger NMesh.Fleet.Stored
open NMesh.Fleet.Agent (cleanStackNames isStackName)
open NMesh.Logs.Book (truthy)

/-- What Python is relied on for: JSON goes a few levels deep; a policy is itself when it is stripped and lowered; a
float is itself as a float; and the megabytes stay in their bounds. -/
structure Lawful (W : World) : Prop where
  deep : 4 ≤ W.depth
  dumpDeep : 4 ≤ W.dumpDepth
  normal : ∀ p ∈ policies, W.normal (some (.str p)) = p
  float : ∀ v, W.float (some (.float v)) = some v
  default : W.positive (ascii "2.0") = true ∧ W.bounded (ascii "2.0") = ascii "2.0"
  defaultText : FloatText W.floatRepr (ascii "2.0")
  again : ∀ v, W.positive v = true → W.positive (W.bounded v) = true ∧ W.bounded (W.bounded v) = W.bounded v
  text : ∀ v, W.positive v = true → FloatText W.floatRepr (W.bounded v) ∧ Ascii (dumpFloat (W.bounded v))

variable (W : World)

/-- A time that Python tells. -/
structure Time (now : Text) : Prop where
  text : FloatText W.floatRepr now
  ascii : Ascii (dumpFloat now)
  set : truthy (.float now) = true

def level : ℕ := min W.depth W.dumpDepth

def Savable (v : Json) : Prop := SteadyValue W.floatRepr compact v ∧ height v + 3 ≤ level W

def SoundLogs (d : Entry) : Prop :=
  ∀ key v, d.get? key = some v → Steady key ∧ SteadyValue W.floatRepr compact v ∧ height v = 0

/-- **A member of an entry that is kept as it is.** -/
structure Kept (key : Text) (v : Json) : Prop where
  steady : Steady key
  savable : Savable W v
  tidy : tidy key v = v
  logs : key = ascii "logs" → ∃ d : Entry, v = .obj d.entries ∧ SoundLogs W d

def SoundEntry (e : Entry) : Prop := ∀ key v, e.get? key = some v → Kept W key v

structure SoundTable (limit : ℕ) (d : Dict Text Entry) : Prop where
  size : d.size ≤ limit
  sound : ∀ key e, d.get? key = some e → Steady key ∧ key.length ≤ 64 ∧ SoundEntry W e

/-- A name that `clean_group` left. -/
structure GroupName (name : Text) : Prop where
  steady : Steady name
  short : name.length ≤ 64
  clean : cleanGroup W name ≠ []

structure SoundGroup (name : Text) (g : Group) : Prop where
  name : GroupName W name
  nodes : ∀ node ∈ g.nodes, isNodeHex node = true
  few : g.nodes.length ≤ maxGroupNodes
  since : Savable W g.since
  set : truthy g.since = true

structure SoundGroups (d : Dict Text Group) : Prop where
  size : d.size ≤ maxGroups
  sound : ∀ name g, d.get? name = some g → SoundGroup W name g

/-- **Tables within their bounds, of values that come back.** -/
structure Sound (t : Tables) : Prop where
  operators : SoundTable W maxOperators t.operators
  managed : SoundTable W maxManaged t.managed
  pendingIn : SoundTable W maxPending t.pendingIn
  pendingOut : SoundTable W maxPending t.pendingOut
  provisioned : SoundTable W maxProvisionRecords t.provisioned
  sshKeys : SoundTable W maxSshKeys t.sshKeys
  groups : SoundGroups W t.groups
  logDefaults : ∃ e, t.logDefaults = cleanLogEntry W e

variable {W}

/-! ### Values -/

section Values

variable (hW : Lawful W)
include hW

theorem Lawful.level : 4 ≤ level W := le_min hW.deep hW.dumpDeep

theorem savable_str {s : Text} (h : Steady s) : Savable W (.str s) := by
  have hflat : height (.str s) = 0 := rfl
  have := hW.level
  exact ⟨steady_str rfl h, by omega⟩

theorem savable_now {now : Text} (h : Time W now) : Savable W (.float now) := by
  have hflat : height (.float now) = 0 := rfl
  have := hW.level
  exact ⟨steady_float h.text h.ascii, by omega⟩

theorem savable_strs {l : List Text} (h : ∀ s ∈ l, Steady s) : Savable W (.arr (l.map .str)) := by
  have hlevel := hW.level
  refine ⟨steady_arr fun v hv => ?_, ?_⟩
  · obtain ⟨s, hs, rfl⟩ := List.mem_map.mp hv
    exact steady_str rfl (h s hs)
  · have hheight : heightItems (l.map .str) ≤ 0 := heightItems_le.mpr fun v hv => by
      obtain ⟨s, -, rfl⟩ := List.mem_map.mp hv
      exact le_rfl
    rw [height]
    omega

theorem savable_logs {d : Entry} (h : SoundLogs W d) : Savable W (.obj d.entries) := by
  have hlevel := hW.level
  refine ⟨steady_obj rfl fun e he => ?_, ?_⟩
  · obtain ⟨hkey, hv, -⟩ := h e.1 e.2 (Dict.get?_eq_some.mpr he)
    exact ⟨hkey, hv⟩
  · have hheight : heightMembers d.entries ≤ 0 := heightMembers_le.mpr fun e he =>
      (h e.1 e.2 (Dict.get?_eq_some.mpr he)).2.2.le
    rw [height]
    omega

end Values

theorem steady_name (cap : Cap) : Steady cap.name := by
  have : Ascii cap.name := by cases cap <;> decide
  exact steady_of_ascii this

theorem steady_toHex (data : Bytes) : Steady (toHex data) := steady_of_scalars (scalar_toHex data)

theorem steady_base64 (data : Bytes) : Steady (NMesh.Base.Base64.encode data) :=
  steady_of_ascii fun _ hc => NMesh.Base.Base64.encode_ascii hc

theorem ascii_fromHex : ∀ {text : Text} {data : Bytes}, fromHex text = some data → Ascii text
  | [], _, _ => fun c hc => by cases hc
  | [c], _, h => by
    rw [fromHex] at h
    split_ifs at h with hspace
    have := of_decide_eq_true hspace
    intro d hd
    rw [List.mem_singleton.mp hd]
    omega
  | c :: d :: text, data, h => by
    rw [fromHex] at h
    split_ifs at h with hspace
    · have := of_decide_eq_true hspace
      exact ascii_cons.mpr ⟨by omega, ascii_fromHex h⟩
    · obtain ⟨x, hx, h⟩ := Option.bind_eq_some_iff.mp h
      obtain ⟨y, hy, h⟩ := Option.bind_eq_some_iff.mp h
      obtain ⟨rest, hrest, -⟩ := Option.map_eq_some_iff.mp h
      have hdigit : ∀ {c n : ℕ}, ofDigit c = some n → c < 0x80 := by
        intro c n hc
        unfold ofDigit at hc
        split_ifs at hc <;> omega
      exact ascii_cons.mpr ⟨hdigit hx, ascii_cons.mpr ⟨hdigit hy, ascii_fromHex hrest⟩⟩

variable {key : Text}

theorem steady_nodeHex (h : isNodeHex key = true) : Steady key ∧ key.length ≤ 64 := by
  obtain ⟨hlen, hhex⟩ := of_decide_eq_true h
  obtain ⟨data, hdata⟩ := Option.isSome_iff_exists.mp hhex
  exact ⟨steady_of_ascii (ascii_fromHex hdata), by omega⟩

variable {name : Text}

theorem steady_stackName (h : isStackName name = true) : Steady name := by
  match name, h with
  | c :: rest, h =>
    simp only [isStackName, Bool.and_eq_true, Bool.or_eq_true, decide_eq_true_iff, List.all_eq_true] at h
    obtain ⟨⟨hc, -⟩, hrest⟩ := h
    refine steady_of_ascii (ascii_cons.mpr ⟨by omega, fun d hd => ?_⟩)
    have := hrest d hd
    omega

theorem steady_stackNames (raw : Option Json) : ∀ name ∈ cleanStackNames raw, Steady name := by
  have hfold : ∀ names out : List Text, (∀ name ∈ out, Steady name) →
      ∀ name ∈ names.foldl (fun out name => if isStackName name ∧ name ∉ out then out ++ [name] else out) out,
        Steady name := by
    intro names
    induction names with
    | nil => exact fun out h => h
    | cons name names ih =>
      intro out h
      refine ih _ ?_
      beta_reduce
      split_ifs with hname
      · intro x hx
        rcases List.mem_append.mp hx with hx | hx
        · exact h x hx
        · rw [List.mem_singleton.mp hx]
          exact steady_stackName hname.1
      · exact h
  have hnil : ∀ name ∈ ([] : List Text), Steady name := fun name h => by cases h
  unfold cleanStackNames
  split
  · exact hfold _ _ hnil
  · exact hnil


/-! ### Entries -/

/-- A key that neither the loader nor a log policy cares for. -/
def PlainKey (key : Text) : Prop :=
  Ascii key ∧ key ≠ ascii "caps" ∧ key ≠ ascii "label" ∧ key ≠ ascii "logs"

instance decidablePlainKey (key : Text) : Decidable (PlainKey key) :=
  inferInstanceAs (Decidable (Ascii key ∧ key ≠ ascii "caps" ∧ key ≠ ascii "label" ∧ key ≠ ascii "logs"))

theorem kept_plain {v : Json} (hkey : PlainKey key) (hv : Savable W v) : Kept W key v := by
  obtain ⟨hascii, hcaps, hlabel, hlogs⟩ := hkey
  refine ⟨steady_of_ascii hascii, hv, ?_, fun h => absurd h hlogs⟩
  rw [tidy, if_neg hcaps, if_neg hlabel]

theorem cap_name_inj {cap cap' : Cap} (h : cap.name = cap'.name) : cap = cap' := by
  revert h
  cases cap <;> cases cap' <;> decide

theorem cleanCaps_capsJson (caps : List Cap) : cleanCaps (some (capsJson caps)) = some (clean caps) := by
  have hall : (caps.map fun cap => Json.str cap.name).all hashable = true := by
    rw [List.all_map, List.all_eq_true]
    exact fun cap _ => rfl
  have hnames : (caps.map fun cap => Json.str cap.name).filterMap Json.text? = caps.map Cap.name := by
    rw [List.filterMap_map, ← List.filterMap_eq_map]
    rfl
  have hsame : cleanNames (caps.map Cap.name) = clean caps := by
    refine List.filter_congr fun cap _ => decide_eq_decide.mpr ?_
    rw [List.mem_map]
    constructor
    · rintro ⟨cap', h, he⟩
      exact cap_name_inj he ▸ h
    · exact fun h => ⟨cap, h, rfl⟩
  rw [capsJson, cleanCaps, if_pos hall, hnames, hsame]

theorem savable_caps (hW : Lawful W) (caps : List Cap) : Savable W (capsJson caps) := by
  have hmap : caps.map (fun cap => Json.str cap.name) = (caps.map Cap.name).map .str := by rw [List.map_map]; rfl
  rw [capsJson, hmap]
  refine savable_strs hW fun s hs => ?_
  obtain ⟨cap, -, rfl⟩ := List.mem_map.mp hs
  exact steady_name cap

theorem kept_caps (hW : Lawful W) {caps : List Cap} (h : clean caps = caps) : Kept W (ascii "caps") (capsJson caps) := by
  refine ⟨steady_of_ascii (by decide), savable_caps hW caps, ?_, fun h => absurd h (by decide)⟩
  rw [tidy, if_pos rfl, cleanCaps_capsJson, h, Option.getD_some]

theorem clean_clean (caps : List Cap) : clean (clean caps) = clean caps :=
  List.filter_congr fun _ _ => decide_eq_decide.mpr mem_clean

theorem clean_filter (caps : List Cap) (p : Cap → Bool) : clean ((clean caps).filter p) = (clean caps).filter p := by
  have hsame : (clean caps).filter p = capabilities.filter fun cap => decide (cap ∈ caps) && p cap := by
    rw [clean, List.filter_filter]
    exact List.filter_congr fun cap _ => Bool.and_comm _ _
  rw [hsame]
  refine List.filter_congr fun cap _ => ?_
  simp only [List.mem_filter, mem_capabilities, true_and, Bool.decide_eq_true]

theorem kept_label (hW : Lawful W) {label : Text} (h : Steady label) :
    Kept W (ascii "label") (.str (label.take maxLabel)) := by
  refine ⟨steady_of_ascii (by decide), savable_str hW (h.take _), ?_, fun h => absurd h (by decide)⟩
  rw [tidy, if_neg (by decide), if_pos rfl, cleanLabel, List.take_take, min_self]

theorem kept_logs (hW : Lawful W) {d : Entry} (h : SoundLogs W d) : Kept W (ascii "logs") (.obj d.entries) := by
  refine ⟨steady_of_ascii (by decide), savable_logs hW h, ?_, fun _ => ⟨d, rfl, h⟩⟩
  rw [tidy, if_neg (by decide), if_neg (by decide)]

variable {e : Entry}

theorem SoundEntry.set (he : SoundEntry W e) {v : Json} (hv : Kept W key v) : SoundEntry W (e.set key v) :=
  Dict.all_set he hv

theorem SoundEntry.pop (he : SoundEntry W e) (key : Text) : SoundEntry W (e.pop key) :=
  fun key' v' h => he key' v' (Dict.get?_of_pop h).2

theorem soundEntry_empty : SoundEntry W .empty := fun _ _ h => by cases h

theorem soundEntry_entryOf {members : List (Text × Json)} (h : ∀ m ∈ members, Kept W m.1 m.2) :
    SoundEntry W (entryOf members) := by
  have hfold : ∀ (members : List (Text × Json)) (e : Entry), (∀ m ∈ members, Kept W m.1 m.2) → SoundEntry W e →
      SoundEntry W (members.foldl (fun d m => d.set m.1 m.2) e) := by
    intro members
    induction members with
    | nil => exact fun e _ he => he
    | cons m members ih =>
      intro e h he
      exact ih _ (fun m hm => h m (List.mem_cons_of_mem _ hm)) (he.set (h m List.mem_cons_self))
  exact hfold members .empty h soundEntry_empty

theorem entryOf_entries (e : Entry) : entryOf e.entries = e := by
  have hrefill := Dict.foldl_refill e id (f := fun d m => d.set m.1 m.2) fun _ _ _ _ => rfl
  rw [List.map_id] at hrefill
  exact hrefill

/-! ### Tables -/

variable {limit : ℕ} {d : Dict Text Entry}

theorem SoundTable.set (hd : SoundTable W limit d)
    (hkey : Steady key ∧ key.length ≤ 64) (he : SoundEntry W e) (hroom : ¬ (key ∉ d.keys ∧ limit ≤ d.size)) :
    SoundTable W limit (d.set key e) := by
  refine ⟨?_, fun key' e' h => ?_⟩
  · exact Dict.size_set_le hd.size fun hmem => not_le.mp fun hfull => hroom ⟨hmem, hfull⟩
  · exact Dict.all_set hd.sound ⟨hkey.1, hkey.2, he⟩ key' e' h

theorem SoundTable.change (hd : SoundTable W limit d) {e' : Entry}
    (hget : d.get? key = some e) (he : SoundEntry W e') : SoundTable W limit (d.set key e') :=
  have h := hd.sound key e hget
  hd.set ⟨h.1, h.2.1⟩ he fun h => h.1 (Dict.mem_keys_of_get? hget)

theorem SoundTable.pop (hd : SoundTable W limit d) (key : Text) : SoundTable W limit (d.pop key) :=
  ⟨(Dict.size_pop_le d key).trans hd.size, fun key' e h => hd.sound key' e (Dict.get?_of_pop h).2⟩

theorem SoundTable.filterVal (hd : SoundTable W limit d) (p : Entry → Bool) :
    SoundTable W limit (d.filterVal p) :=
  ⟨(Dict.size_filterVal_le d p).trans hd.size, fun key e h => hd.sound key e (Dict.get?_of_filterVal h)⟩

theorem SoundTable.mapVal (hd : SoundTable W limit d) {f : Text → Entry → Entry}
    (hf : ∀ key e, SoundEntry W e → SoundEntry W (f key e)) : SoundTable W limit (d.mapVal f) := by
  refine ⟨by rw [Dict.size_mapVal]; exact hd.size, fun key e h => ?_⟩
  obtain ⟨e₀, he₀, rfl⟩ := Dict.get?_of_mapVal h
  obtain ⟨hkey, hlen, he⟩ := hd.sound key e₀ he₀
  exact ⟨hkey, hlen, hf key e₀ he⟩

theorem soundTable_empty (limit : ℕ) : SoundTable W limit .empty :=
  ⟨Nat.zero_le _, fun _ _ h => by cases h⟩

theorem SoundTable.expire (hd : SoundTable W limit d) (now : Text) :
    SoundTable W limit (expire W now d) := hd.filterVal _

variable {t : Tables}

theorem Sound.expirePending (ht : Sound W t) (now : Text) : Sound W (expirePending W now t) :=
  { ht with pendingIn := ht.pendingIn.expire now, pendingOut := ht.pendingOut.expire now }

theorem Sound.trimmed (ht : Sound W t) : Sound W (trimmed t) :=
  { ht with managed := ht.managed.mapVal fun _ _ he => he.pop _ }

theorem Sound.shed (ht : Sound W t) : Sound W (shed t) := by
  unfold Stored.shed
  split_ifs
  · exact ht.trimmed
  · exact ht

theorem sound_noTables : Sound W (noTables W) :=
  ⟨soundTable_empty _, soundTable_empty _, soundTable_empty _, soundTable_empty _, soundTable_empty _,
    soundTable_empty _, ⟨Nat.zero_le _, fun _ _ h => by cases h⟩, .empty, rfl⟩

/-! ### Groups -/

theorem squeeze_space {c : ℕ} (hc : W.chars.isSpace c = true) (blank : Bool) (text : Text) :
    squeeze W blank (c :: text) = squeeze W true text := by rw [squeeze, if_pos hc]

theorem squeeze_true {c : ℕ} (hc : ¬ W.chars.isSpace c = true) (text : Text) :
    squeeze W true (c :: text) = 0x20 :: c :: squeeze W false text := by rw [squeeze, if_neg hc, if_pos rfl]

theorem squeeze_false {c : ℕ} (hc : ¬ W.chars.isSpace c = true) (text : Text) :
    squeeze W false (c :: text) = c :: squeeze W false text := by
  rw [squeeze, if_neg hc, if_neg Bool.false_ne_true]

theorem mem_squeeze {c : ℕ} : ∀ {blank : Bool} {text : Text}, c ∈ squeeze W blank text → c = 0x20 ∨ c ∈ text
  | _, [], h => by cases h
  | blank, d :: text, h => by
    rw [squeeze] at h
    split_ifs at h with hspace hblank
    · exact (mem_squeeze h).imp_right (List.mem_cons_of_mem d)
    · rcases List.mem_cons.mp h with rfl | h
      · exact Or.inl rfl
      · rcases List.mem_cons.mp h with rfl | h
        · exact Or.inr List.mem_cons_self
        · exact (mem_squeeze h).imp_right (List.mem_cons_of_mem d)
    · rcases List.mem_cons.mp h with rfl | h
      · exact Or.inr List.mem_cons_self
      · exact (mem_squeeze h).imp_right (List.mem_cons_of_mem d)

theorem apart_blank (c : ℕ) : Apart c 0x20 := fun h => absurd h.2 (by decide)

theorem chain_squeeze : ∀ {text : Text}, text.IsChain Apart →
    (∀ c, (c :: squeeze W true text).IsChain Apart) ∧
      ∀ c, (c :: text).IsChain Apart → (c :: squeeze W false text).IsChain Apart
  | [], _ => ⟨fun c => List.isChain_singleton c, fun c _ => List.isChain_singleton c⟩
  | d :: text, h => by
    obtain ⟨hblank, hsame⟩ := chain_squeeze h.tail
    by_cases hd : W.chars.isSpace d = true
    · rw [squeeze_space hd, squeeze_space hd]
      exact ⟨hblank, fun c _ => hblank c⟩
    · rw [squeeze_true hd, squeeze_false hd]
      constructor
      · intro c
        exact List.isChain_cons_cons.mpr ⟨apart_blank c,
          List.isChain_cons_cons.mpr ⟨apart_of_scalar (Or.inl (by decide)) d, hsame d h⟩⟩
      · intro c hc
        exact List.isChain_cons_cons.mpr ⟨(List.isChain_cons_cons.mp hc).1, hsame d h⟩

theorem steady_squeeze {text : Text} (h : Steady text) : Steady (squeeze W false text) := by
  refine ⟨fun c hc => ?_, (chain_squeeze h.apart).2 0x20 ?_ |>.tail⟩
  · rcases mem_squeeze hc with rfl | hc
    · decide
    · exact h.points c hc
  · rw [List.isChain_cons]
    exact ⟨fun d _ => apart_of_scalar (Or.inl (by decide)) d, h.apart⟩

theorem cleanGroup_eq (name : Text) : cleanGroup W name =
    if ((squeeze W false (name.dropWhile W.chars.isSpace)).take 48).all (fun c => 0x20 ≤ c) then
      (squeeze W false (name.dropWhile W.chars.isSpace)).take 48
    else [] := rfl

theorem Steady.dropWhile {text : Text} (h : Steady text) (p : ℕ → Bool) : Steady (text.dropWhile p) :=
  ⟨fun c hc => h.points c (List.dropWhile_subset p hc), h.apart.suffix (List.dropWhile_suffix p)⟩

theorem groupName_cleanGroup (h : Steady name) (hne : cleanGroup W name ≠ []) :
    GroupName W (cleanGroup W name) := by
  have hclean : (squeeze W false (name.dropWhile W.chars.isSpace)).take 48 = cleanGroup W name ∧
      ((squeeze W false (name.dropWhile W.chars.isSpace)).take 48).all (fun c => 0x20 ≤ c) = true := by
    rw [cleanGroup_eq] at hne ⊢
    split_ifs at hne ⊢ with hall
    · exact ⟨rfl, hall⟩
    · exact absurd rfl hne
  obtain ⟨htext, hall⟩ := hclean
  rw [htext] at hall
  refine ⟨htext ▸ (steady_squeeze (Steady.dropWhile h _)).take 48, ?_, ?_⟩
  · have : (cleanGroup W name).length ≤ 48 := htext ▸ List.length_take_le _ _
    omega
  · cases hrest : name.dropWhile W.chars.isSpace with
    | nil =>
      rw [hrest, squeeze, List.take_nil] at htext
      exact absurd htext.symm hne
    | cons c rest =>
      have hc : ¬ W.chars.isSpace c = true := by
        have := List.head?_dropWhile_not W.chars.isSpace name
        rw [hrest] at this
        simpa using this
      have hcons : ∃ t, cleanGroup W name = c :: t := by
        rw [← htext, hrest, squeeze_false hc, List.take_succ_cons]
        exact ⟨_, rfl⟩
      obtain ⟨t, ht⟩ := hcons
      rw [ht] at hall ⊢
      have hagain : squeeze W false ((c :: t).dropWhile W.chars.isSpace) = c :: squeeze W false t := by
        rw [List.dropWhile_cons_of_neg hc, squeeze_false hc]
      have hgood : ((c :: squeeze W false t).take 48).all (fun c => 0x20 ≤ c) = true := by
        rw [List.all_eq_true] at hall ⊢
        intro d hd
        rcases List.mem_cons.mp (List.mem_of_mem_take hd) with rfl | hd
        · exact hall d List.mem_cons_self
        · rcases mem_squeeze hd with rfl | hd
          · decide
          · exact hall d (List.mem_cons_of_mem c hd)
      rw [cleanGroup_eq, hagain, if_pos hgood]
      exact List.cons_ne_nil _ _

theorem SoundGroups.set {d : Dict Text Group} (hd : SoundGroups W d) {g : Group}
    (hg : SoundGroup W name g) (hroom : ¬ (name ∉ d.keys ∧ maxGroups ≤ d.size)) : SoundGroups W (d.set name g) := by
  refine ⟨?_, fun name' g' h => ?_⟩
  · exact Dict.size_set_le hd.size fun hmem => not_le.mp fun hfull => hroom ⟨hmem, hfull⟩
  · exact Dict.all_set hd.sound hg name' g' h

theorem SoundGroups.pop {d : Dict Text Group} (hd : SoundGroups W d) (name : Text) : SoundGroups W (d.pop name) :=
  ⟨(Dict.size_pop_le d name).trans hd.size, fun name' g h => hd.sound name' g (Dict.get?_of_pop h).2⟩

theorem SoundGroup.erase {g : Group} (h : SoundGroup W name g) (node : Text) :
    SoundGroup W name { g with nodes := g.nodes.erase node } :=
  { h with
    nodes := fun x hx => h.nodes x (List.mem_of_mem_erase hx)
    few := List.length_erase_le.trans h.few }

theorem SoundGroups.mapVal {d : Dict Text Group} (hd : SoundGroups W d) {f : Text → Group → Group}
    (hf : ∀ name g, SoundGroup W name g → SoundGroup W name (f name g)) : SoundGroups W (d.mapVal f) := by
  refine ⟨by rw [Dict.size_mapVal]; exact hd.size, fun name g h => ?_⟩
  obtain ⟨g₀, hg₀, rfl⟩ := Dict.get?_of_mapVal h
  exact hf name g₀ (hd.sound name g₀ hg₀)

theorem mem_distinct {l : List Text} {x : Text} (h : x ∈ distinct l) : x ∈ l := by
  have hfold : ∀ l out : List Text, x ∈ l.foldl (fun out x => if x ∈ out then out else out ++ [x]) out →
      x ∈ out ∨ x ∈ l := by
    intro l
    induction l with
    | nil => exact fun out h => Or.inl h
    | cons y l ih =>
      intro out h
      rcases ih _ h with h | h
      · beta_reduce at h
        split_ifs at h
        · exact Or.inl h
        · rcases List.mem_append.mp h with h | h
          · exact Or.inl h
          · exact Or.inr (List.mem_cons.mpr (Or.inl (List.mem_singleton.mp h)))
      · exact Or.inr (List.mem_cons_of_mem y h)
  rcases hfold l [] h with h | h
  · cases h
  · exact h

theorem length_distinct (l : List Text) : (distinct l).length ≤ l.length := by
  have hfold : ∀ l out : List Text,
      (l.foldl (fun out x => if x ∈ out then out else out ++ [x]) out).length ≤ out.length + l.length := by
    intro l
    induction l with
    | nil => exact fun out => le_rfl
    | cons y l ih =>
      intro out
      have hone : (if y ∈ out then out else out ++ [y]).length ≤ out.length + 1 := by
        split_ifs
        · omega
        · rw [List.length_append, List.length_singleton]
      have := ih (if y ∈ out then out else out ++ [y])
      rw [List.foldl_cons, List.length_cons]
      omega
  have := hfold l []
  rw [List.length_nil, Nat.zero_add] at this
  exact this

theorem SoundGroups.join (hW : Lawful W) {now node : Text} (hnow : Time W now) (hnode : isNodeHex node = true)
    {d : Dict Text Group} (hd : SoundGroups W d) (hname : GroupName W name) :
    SoundGroups W (joinGroup now node d name) := by
  unfold joinGroup
  split_ifs with hfull
  · exact hd
  · have hg : SoundGroup W name ((d.get? name).getD ⟨[], .float now⟩) := by
      cases hget : d.get? name with
      | none => exact ⟨hname, fun x hx => absurd hx List.not_mem_nil, Nat.zero_le _, savable_now hW hnow, hnow.set⟩
      | some g => exact hd.sound name g hget
    refine hd.set ?_ hfull
    split_ifs with hin
    · exact hg
    · refine { hg with nodes := fun x hx => ?_, few := ?_ }
      · rcases List.mem_append.mp hx with hx | hx
        · exact hg.nodes x hx
        · rw [List.mem_singleton.mp hx]
          exact hnode
      · rw [List.length_append, List.length_singleton]
        have := fun h => hin (Or.inr h)
        omega

/-! ### Log policies -/

theorem cleanPolicy_mem (raw : Option Json) : cleanPolicy W raw ∈ policies := by
  unfold cleanPolicy
  split_ifs with h
  · exact h
  · decide

theorem steady_policy {p : Text} (h : p ∈ policies) : Steady p := by
  simp only [policies, List.mem_cons, List.not_mem_nil, or_false] at h
  rcases h with rfl | rfl | rfl <;> exact steady_of_ascii (by decide)

theorem SoundLogs.set {d : Entry} (hd : SoundLogs W d) {v : Json} (hkey : Steady key)
    (hv : SteadyValue W.floatRepr compact v) (hflat : height v = 0) : SoundLogs W (d.set key v) :=
  Dict.all_set hd ⟨hkey, hv, hflat⟩

theorem soundLogs_empty : SoundLogs W .empty := fun _ _ h => by cases h

theorem SoundLogs.policy {d : Entry} (hd : SoundLogs W d) (raw : Option Json) :
    SoundLogs W (d.set (ascii "policy") (.str (cleanPolicy W raw))) :=
  have hkey : Steady (ascii "policy") := steady_of_ascii (by decide)
  hd.set hkey (steady_str rfl (steady_policy (cleanPolicy_mem raw))) rfl

section Policies

variable (hW : Lawful W)
include hW

theorem steady_megabytes (raw : Option Json) : SteadyValue W.floatRepr compact (.float (cleanMegabytes W raw)) := by
  have hdefault : SteadyValue W.floatRepr compact (.float (ascii "2.0")) := steady_float hW.defaultText (by decide)
  unfold cleanMegabytes
  split
  · exact hdefault
  · split_ifs with hpos
    · exact steady_float (hW.text _ hpos).1 (hW.text _ hpos).2
    · exact hdefault

theorem SoundLogs.megabytes {d : Entry} (hd : SoundLogs W d) (raw : Option Json) :
    SoundLogs W (d.set (ascii "megabytes") (.float (cleanMegabytes W raw))) :=
  have hkey : Steady (ascii "megabytes") := steady_of_ascii (by decide)
  hd.set hkey (steady_megabytes hW raw) rfl

theorem SoundLogs.fields {d : Entry} (hd : SoundLogs W d) (policy megabytes : Option Json) :
    SoundLogs W (setLogFields W policy megabytes d) := by
  have hpolicy : SoundLogs W (if policy.isSome then d.set (ascii "policy") (.str (cleanPolicy W policy)) else d) := by
    split_ifs
    · exact hd.policy policy
    · exact hd
  unfold setLogFields
  by_cases hmegabytes : megabytes.isSome = true
  · dsimp only
    rw [if_pos hmegabytes]
    exact SoundLogs.megabytes hW hpolicy megabytes
  · dsimp only
    rw [if_neg hmegabytes]
    exact hpolicy

theorem soundLogs_cleanLogEntry (e : Entry) : SoundLogs W (cleanLogEntry W e) :=
  SoundLogs.megabytes hW (soundLogs_empty.policy _) _

theorem cleanPolicy_again (raw : Option Json) : cleanPolicy W (some (.str (cleanPolicy W raw))) = cleanPolicy W raw := by
  have hmem := cleanPolicy_mem (W := W) raw
  have hnormal := hW.normal _ hmem
  rw [cleanPolicy, hnormal, if_pos hmem]

theorem cleanMegabytes_again (raw : Option Json) :
    cleanMegabytes W (some (.float (cleanMegabytes W raw))) = cleanMegabytes W raw := by
  have hagain : ∀ v, W.positive v = true → W.bounded v = v → cleanMegabytes W (some (.float v)) = v := by
    intro v hpos hv
    simp only [cleanMegabytes, hW.float, hpos, if_true, hv]
  have hdefault := hagain _ hW.default.1 hW.default.2
  unfold cleanMegabytes at hdefault ⊢
  cases hraw : W.float raw with
  | none => exact hdefault
  | some v =>
    by_cases hpos : W.positive v = true
    · dsimp only
      rw [if_pos hpos]
      exact hagain _ (hW.again v hpos).1 (hW.again v hpos).2
    · dsimp only
      rw [if_neg hpos]
      exact hdefault

theorem cleanLogEntry_again (e : Entry) : cleanLogEntry W (cleanLogEntry W e) = cleanLogEntry W e := by
  have hpolicy : (cleanLogEntry W e).get? (ascii "policy") = some (.str (cleanPolicy W (e.get? (ascii "policy")))) := rfl
  have hmegabytes : (cleanLogEntry W e).get? (ascii "megabytes") =
      some (.float (cleanMegabytes W (e.get? (ascii "megabytes")))) := rfl
  have hunfold : cleanLogEntry W (cleanLogEntry W e) =
      entryOf [(ascii "policy", .str (cleanPolicy W ((cleanLogEntry W e).get? (ascii "policy")))),
        (ascii "megabytes", .float (cleanMegabytes W ((cleanLogEntry W e).get? (ascii "megabytes"))))] := rfl
  rw [hunfold, hpolicy, hmegabytes, cleanPolicy_again hW, cleanMegabytes_again hW]
  rfl

end Policies

theorem SoundEntry.logs (he : SoundEntry W e) : SoundLogs W (entryIn (e.get? (ascii "logs"))) := by
  cases hget : e.get? (ascii "logs") with
  | none => exact soundLogs_empty
  | some v =>
    obtain ⟨d, rfl, hd⟩ := (he _ v hget).logs rfl
    rw [entryIn, entryOf_entries]
    exact hd

/-! ### Operations -/

/-- **What the callers bring**: texts and statuses that come back from JSON as they went. -/
def Proper (W : World) : Operation → Prop
  | .addOperator _ _ _ label _ => Steady label
  | .addManaged _ _ label _ => Steady label
  | .recordStatus _ status => Savable W status
  | .setGroup name _ => Steady name
  | .setNodeGroups _ names => ∀ name ∈ names, Steady name
  | .addPendingIn _ _ _ label _ _ => Steady label
  | .addPendingOut _ _ label => Steady label
  | .addProvisioned digest host _ label => Steady digest ∧ Steady host ∧ Steady label
  | .addSshKey _ name _ => Steady name
  | _ => True

section Operations

variable (hW : Lawful W) {now : Text} (hnow : Time W now) {t : Tables} (ht : Sound W t)
include hW hnow ht

variable {key : Text} {caps : List Cap} {label : Text}

theorem sound_addOperator {pub : Bytes} {proof : Bytes}
    (hlabel : Steady label) : Sound W (addOperator now t key pub caps label proof).1 := by
  unfold addOperator
  split_ifs with hbad hfull
  · exact ht
  · exact ht
  · have hhex : isNodeHex key = true := by
      have := fun h => hbad (Or.inr (Or.inl h))
      simpa using this
    refine { ht with operators := ht.operators.set (steady_nodeHex hhex) (soundEntry_entryOf ?_) hfull
                     pendingIn := ht.pendingIn.pop key }
    simp only [List.forall_mem_cons]
    exact ⟨kept_plain (by decide) (savable_str hW (steady_toHex pub)), kept_caps hW (clean_clean caps),
      kept_label hW hlabel, kept_plain (by decide) (savable_now hW hnow),
      kept_plain (by decide) (savable_str hW (steady_base64 proof)), List.forall_mem_nil _⟩

theorem sound_setOperatorCaps {narrowOnly : Bool} : Sound W (setOperatorCaps now t key caps narrowOnly).1 := by
  unfold setOperatorCaps
  split
  · exact ht
  · rename_i e hget
    obtain ⟨hkey, hlen, he⟩ := ht.operators.sound key e hget
    have hclean : clean (if narrowOnly then (clean caps).filter (· ∈ capsIn e) else clean caps) =
        if narrowOnly then (clean caps).filter (· ∈ capsIn e) else clean caps := by
      split_ifs
      · exact clean_filter caps _
      · exact clean_clean caps
    dsimp only
    generalize (if narrowOnly then (clean caps).filter (· ∈ capsIn e) else clean caps) = new at hclean ⊢
    split_ifs
    · exact { ht with operators := ht.operators.pop key }
    · refine { ht with operators := ht.operators.change hget ?_ }
      exact (he.set (kept_caps hW hclean)).set (kept_plain (by decide) (savable_now hW hnow))

theorem sound_addManaged {grant : Bytes} (hlabel : Steady label) :
    Sound W (addManaged now t key caps label grant).1 := by
  unfold addManaged
  by_cases hbad : clean caps = [] ∨ isNodeHex key = false
  · rw [if_pos hbad]
    exact ht
  rw [if_neg hbad]
  by_cases hfull : key ∉ t.managed.keys ∧ maxManaged ≤ t.managed.size
  · rw [if_pos hfull]
    exact ht
  · rw [if_neg hfull]
    have hhex : isNodeHex key = true := by
      have := fun h => hbad (Or.inr h)
      simpa using this
    have hold : SoundEntry W ((t.managed.get? key).getD .empty) := by
      cases hget : t.managed.get? key with
      | none => exact soundEntry_empty
      | some e => exact (ht.managed.sound key e hget).2.2
    dsimp only
    generalize (t.managed.get? key).getD .empty = existing at hold ⊢
    -- what the old entry has under a key is kept under that key
    have hgetD : ∀ {name : Text} {v : Json}, Kept W name v → Kept W name ((existing.get? name).getD v) := by
      intro name v hv
      cases hget : existing.get? name with
      | none => exact hv
      | some old => exact hold name old hget
    have horElse : ∀ {name : Text} {v : Json}, Kept W name v → Kept W name (orElse (existing.get? name) v) := by
      intro name v hv
      cases hget : existing.get? name with
      | none => exact hv
      | some old =>
        unfold orElse
        dsimp only
        split_ifs
        · exact hold name old hget
        · exact hv
    have hnew : Kept W (ascii "label") (if label.take maxLabel = [] then
        (existing.get? (ascii "label")).getD (.str []) else .str (label.take maxLabel)) := by
      split_ifs
      · have hsteady : Steady ([] : Text) := steady_of_ascii fun c hc => absurd hc List.not_mem_nil
        exact hgetD (kept_label hW hsteady)
      · exact kept_label hW hlabel
    refine { ht with managed := ht.managed.set (steady_nodeHex hhex) (soundEntry_entryOf ?_) hfull
                     pendingOut := ht.pendingOut.pop key }
    simp only [List.forall_mem_cons]
    have hnull : Savable W .null := ⟨steady_null, by have hflat : height .null = 0 := rfl; have := hW.level; omega⟩
    have hempty : Savable W (.arr []) := savable_strs hW (l := []) fun s hs => absurd hs List.not_mem_nil
    exact ⟨kept_caps hW (clean_clean caps), hnew, horElse (kept_plain (by decide) (savable_now hW hnow)),
      kept_plain (by decide) (savable_str hW (steady_base64 grant)), hgetD (kept_plain (by decide) hnull),
      kept_plain (by decide) (savable_now hW hnow), horElse (kept_plain (by decide) hempty), List.forall_mem_nil _⟩

omit hW hnow in
theorem sound_removeManaged : Sound W (removeManaged t key).1 := by
  unfold removeManaged
  split_ifs
  · exact { ht with managed := ht.managed.pop key
                    groups := ht.groups.mapVal fun _ _ hg => hg.erase key }
  · exact ht

omit hW hnow in
theorem sound_onManaged {f : Entry → Entry} (hf : ∀ e, SoundEntry W e → SoundEntry W (f e)) :
    Sound W (onManaged t key f).1 := by
  unfold onManaged
  split
  · exact ht
  · rename_i e hget
    exact { ht with managed := ht.managed.change hget (hf e (ht.managed.sound key e hget).2.2) }

theorem sound_recordStatus {status : Json} (hstatus : Savable W status) :
    Sound W (recordStatus now t key status).1 :=
  sound_onManaged ht fun _ he => (he.set (kept_plain (by decide) hstatus)).set
    (kept_plain (by decide) (savable_now hW hnow))

omit hnow in
theorem sound_setUpdateStacks {raw : Option Json} : Sound W (setUpdateStacks t key raw).1 :=
  sound_onManaged ht fun _ he => he.set (kept_plain (by decide) (savable_strs hW (steady_stackNames raw)))

omit hnow in
theorem sound_setLogPolicy {policy megabytes : Option Json} {inherit : Bool} :
    Sound W (setLogPolicy W t key policy megabytes inherit).1 := by
  refine sound_onManaged ht fun e he => ?_
  split_ifs
  · exact he.pop _
  · exact he.set (kept_logs hW (SoundLogs.fields hW he.logs policy megabytes))

theorem sound_setGroup {name : Text} {nodes : List Text} (hname : Steady name) :
    Sound W (setGroup W now t name nodes).1 := by
  unfold setGroup
  split_ifs with hbad hfull
  · exact ht
  · exact ht
  · have hsince : Savable W (((t.groups.get? (cleanGroup W name)).map Group.since).getD (.float now)) ∧
        truthy (((t.groups.get? (cleanGroup W name)).map Group.since).getD (.float now)) = true := by
      cases hget : t.groups.get? (cleanGroup W name) with
      | none => exact ⟨savable_now hW hnow, hnow.set⟩
      | some g => exact ⟨(ht.groups.sound _ g hget).since, (ht.groups.sound _ g hget).set⟩
    refine { ht with groups := ht.groups.set ⟨groupName_cleanGroup hname hbad, fun node h => ?_, ?_, hsince.1,
                                 hsince.2⟩ hfull }
    · exact (List.mem_filter.mp (mem_distinct h)).2
    · exact (length_distinct _).trans ((List.length_filter_le _ _).trans (List.length_take_le _ _))

omit hW hnow in
theorem sound_removeGroup {name : Text} : Sound W (removeGroup W t name).1 := by
  unfold removeGroup
  split_ifs
  · exact { ht with groups := ht.groups.pop _ }
  · exact ht

theorem sound_setNodeGroups {node : Text} {names : List Text} (hnames : ∀ name ∈ names, Steady name) :
    Sound W (setNodeGroups W now t node names).1 := by
  unfold setNodeGroups
  split_ifs with hbad
  · exact ht
  · have hhex : isNodeHex node = true := by simpa using hbad
    dsimp only
    generalize hwanted : distinct (((names.take maxGroups).map (cleanGroup W)).filter (· ≠ [])) = wanted
    have hwant : ∀ name ∈ wanted, GroupName W name := by
      intro name h
      rw [← hwanted] at h
      obtain ⟨h, hne⟩ := List.mem_filter.mp (mem_distinct h)
      obtain ⟨raw, hraw, rfl⟩ := List.mem_map.mp h
      exact groupName_cleanGroup (hnames raw (List.mem_of_mem_take hraw)) (of_decide_eq_true hne)
    have hjoin : ∀ (wanted : List Text) (d : Dict Text Group), (∀ name ∈ wanted, GroupName W name) →
        SoundGroups W d → SoundGroups W (wanted.foldl (joinGroup now node) d) := by
      intro wanted
      induction wanted with
      | nil => exact fun d _ hd => hd
      | cons name wanted ih =>
        intro d h hd
        exact ih _ (fun x hx => h x (List.mem_cons_of_mem _ hx)) (hd.join hW hnow hhex (h name List.mem_cons_self))
    have hleave : ∀ name g, SoundGroup W name g →
        SoundGroup W name (if name ∈ wanted then g else { g with nodes := g.nodes.erase node }) := by
      intro name g hg
      split_ifs
      · exact hg
      · exact hg.erase node
    exact { ht with groups := (hjoin wanted t.groups hwant ht.groups).mapVal hleave }

theorem sound_addPendingIn {pub : Bytes} {proof : Bytes}
    {held : List Cap} (hlabel : Steady label) : Sound W (addPendingIn W now t key pub caps label proof held).1 := by
  unfold addPendingIn
  dsimp only
  split_ifs with hbad hfull
  · exact ht
  · exact ht.expirePending now
  · have hhex : isNodeHex key = true := by
      have := fun h => hbad (Or.inr h)
      simpa using this
    have hexpired := ht.expirePending now
    refine { hexpired with
      pendingIn := hexpired.pendingIn.set (steady_nodeHex hhex) (soundEntry_entryOf ?_) hfull }
    simp only [List.forall_mem_cons]
    exact ⟨kept_plain (by decide) (savable_str hW (steady_toHex pub)), kept_caps hW (clean_clean caps),
      kept_plain (by decide) (savable_caps hW _), kept_label hW hlabel,
      kept_plain (by decide) (savable_now hW hnow),
      kept_plain (by decide) (savable_str hW (steady_base64 proof)), List.forall_mem_nil _⟩

theorem sound_addPendingOut (hlabel : Steady label) : Sound W (addPendingOut W now t key caps label).1 := by
  unfold addPendingOut
  dsimp only
  split_ifs with hbad hfull
  · exact ht
  · exact ht.expirePending now
  · have hhex : isNodeHex key = true := by
      have := fun h => hbad (Or.inr h)
      simpa using this
    have hexpired := ht.expirePending now
    refine { hexpired with
      pendingOut := hexpired.pendingOut.set (steady_nodeHex hhex) (soundEntry_entryOf ?_) hfull }
    simp only [List.forall_mem_cons]
    exact ⟨kept_caps hW (clean_clean caps), kept_label hW hlabel, kept_plain (by decide) (savable_now hW hnow),
      List.forall_mem_nil _⟩

theorem sound_addProvisioned {digest host : Text} (hdigest : Steady digest)
    (hhost : Steady host) (hlabel : Steady label) : Sound W (addProvisioned now t digest host caps label).1 := by
  have hroom : SoundTable W maxProvisionRecords
      (Dict.makeRoom maxProvisionRecords t.provisioned.size t.provisioned) :=
    ⟨(Dict.size_makeRoom_lt (by decide) le_rfl).le, fun key e h => ht.provisioned.sound key e (Dict.get?_of_makeRoom h)⟩
  have hfree : (Dict.makeRoom maxProvisionRecords t.provisioned.size t.provisioned).size < maxProvisionRecords :=
    Dict.size_makeRoom_lt (by decide) le_rfl
  have hkey : (digest.take 64).length ≤ 64 := List.length_take_le _ _
  unfold addProvisioned
  refine { ht with
    provisioned := hroom.set ⟨hdigest.take 64, hkey⟩ (soundEntry_entryOf ?_) fun h => absurd h.2 (by omega) }
  simp only [List.forall_mem_cons]
  exact ⟨kept_plain (by decide) (savable_str hW (hhost.take 128)), kept_caps hW (clean_clean caps),
    kept_label hW hlabel, kept_plain (by decide) (savable_now hW hnow), List.forall_mem_nil _⟩

theorem sound_addSshKey {digest : Bytes} {name : Text} {encrypted : Bool} (hname : Steady name) :
    Sound W (addSshKey now t digest name encrypted).1 := by
  unfold addSshKey
  dsimp only
  split_ifs with hfull
  · exact ht
  all_goals
    have hkey : (toHex (digest.take 8)).length ≤ 64 := by
      have : (digest.take 8).length ≤ 8 := List.length_take_le _ _
      rw [length_toHex]
      omega
    refine { ht with sshKeys := ht.sshKeys.set ⟨steady_toHex _, hkey⟩ (soundEntry_entryOf ?_) hfull }
    have hflag : Savable W (.bool encrypted) :=
      ⟨steady_bool encrypted, by have hflat : height (.bool encrypted) = 0 := rfl; have := hW.level; omega⟩
    have hcut : Steady (ascii "key-" ++ (toHex (digest.take 8)).take 8) := by
      refine steady_of_scalars fun c hc => ?_
      rcases List.mem_append.mp hc with hc | hc
      · have : Ascii (ascii "key-") := by decide
        exact Or.inl (by have := this c hc; omega)
      · exact scalar_toHex _ c (List.mem_of_mem_take hc)
    simp only [List.forall_mem_cons]
  · exact ⟨kept_plain (by decide) (savable_str hW hcut), kept_plain (by decide) hflag,
      kept_plain (by decide) (savable_now hW hnow), List.forall_mem_nil _⟩
  · exact ⟨kept_plain (by decide) (savable_str hW (hname.take _)), kept_plain (by decide) hflag,
      kept_plain (by decide) (savable_now hW hnow), List.forall_mem_nil _⟩

theorem sound_operate {op : Operation} (hop : Proper W op) : Sound W (operate W now t op).1 := by
  cases op with
  | addOperator => exact sound_addOperator hW hnow ht hop
  | setOperatorCaps => exact sound_setOperatorCaps hW hnow ht
  | removeOperator key =>
    unfold operate removeOperator
    dsimp only
    split_ifs
    · exact { ht with operators := ht.operators.pop key }
    · exact ht
  | addManaged => exact sound_addManaged hW hnow ht hop
  | removeManaged => exact sound_removeManaged ht
  | recordStatus => exact sound_recordStatus hW hnow ht hop
  | setUpdateStacks => exact sound_setUpdateStacks hW ht
  | setLogDefaults => exact { ht with logDefaults := ⟨_, rfl⟩ }
  | setLogPolicy => exact sound_setLogPolicy hW ht
  | setGroup => exact sound_setGroup hW hnow ht hop
  | removeGroup => exact sound_removeGroup ht
  | setNodeGroups => exact sound_setNodeGroups hW hnow ht hop
  | views => exact ht.expirePending now
  | addPendingIn => exact sound_addPendingIn hW hnow ht hop
  | takePendingIn key =>
    unfold operate takePendingIn
    dsimp only
    split_ifs
    · exact { ht with pendingIn := ht.pendingIn.pop key }
    · exact ht
  | addPendingOut => exact sound_addPendingOut hW hnow ht hop
  | dropPendingOut key =>
    unfold operate dropPendingOut
    dsimp only
    split_ifs
    · exact { ht with pendingOut := ht.pendingOut.pop key }
    · exact ht
  | addProvisioned => exact sound_addProvisioned hW hnow ht hop.1 hop.2.1 hop.2.2
  | takeProvisioned digest =>
    unfold operate takeProvisioned
    dsimp only
    split_ifs
    · exact { ht with provisioned := ht.provisioned.pop (digest.take 64) }
    · exact ht
  | addSshKey => exact sound_addSshKey hW hnow ht hop
  | removeSshKey key =>
    unfold operate removeSshKey
    dsimp only
    split_ifs
    · exact { ht with sshKeys := ht.sshKeys.pop key }
    · exact ht
  | writeSecret | restart => exact ht

end Operations

/-- **What is not saved** is no change, but for requests that went stale. -/
theorem operate_unsaved {now : Text} {op : Operation} (h : (operate W now t op).2 = false) :
    (operate W now t op).1 = t ∨ (operate W now t op).1 = expirePending W now t := by
  cases op with
  | setOperatorCaps =>
    unfold operate setOperatorCaps at h ⊢
    dsimp only at h ⊢
    split at h
    · exact Or.inl rfl
    · split_ifs at h
  | recordStatus | setUpdateStacks | setLogPolicy =>
    unfold operate at h ⊢
    simp only [recordStatus, setUpdateStacks, setLogPolicy, onManaged] at h ⊢
    split at h
    · exact Or.inl rfl
    · cases h
  | views => exact Or.inr rfl
  | writeSecret => exact Or.inl rfl
  | restart => exact Or.inl rfl
  | setLogDefaults | addProvisioned =>
    unfold operate setLogDefaults addProvisioned at h
    cases h
  | addOperator | removeOperator | addManaged | removeManaged | setGroup | removeGroup | setNodeGroups | addPendingIn |
    takePendingIn | addPendingOut | dropPendingOut | takeProvisioned | addSshKey | removeSshKey =>
    unfold operate at h ⊢
    simp only [addOperator, removeOperator, addManaged, removeManaged, setGroup, removeGroup, setNodeGroups,
      addPendingIn, takePendingIn, addPendingOut, dropPendingOut, takeProvisioned, addSshKey, removeSshKey] at h ⊢
    split_ifs at h ⊢ <;> simp

end NMesh.Fleet.Keeping
