import NMesh.Base.Base64
import NMesh.Base.JsonStyle
import Mathlib.Logic.Function.Basic

/-! # The drawers of the apps

Every app has a drawer of keys and values, kept in memory once it was opened, and in a file of its own:
base 64 in JSON, encrypted under a key derived for the app. What cannot be read of a file is an empty
drawer.

* `Drawer`, `save`, `load`: a drawer, its file, and how it is read back,
* `get`, `put`, `delete`, `listKeys`: what an app may do,
* `read_sealed`: what was written of a drawer within its bounds is read. -/

namespace NMesh.Storage.Drawers

open Base.BigEndian Base.Utf8 Base.Ordered Base.JsonText Base.JsonRound
open Base.JsonStyle NMesh.Base

abbrev AppId := Bytes

abbrev Drawer := Dict Text Bytes

def info : Bytes := (ascii "nmesh-app-store-v1").map UInt8.ofNat ++ [0]

def appIdLen : ℕ := 8

def nonceLen : ℕ := 12

def tagLen : ℕ := 16

def maxKeyLen : ℕ := 256

def maxValue : ℕ := 256 * 1024

def maxKeys : ℕ := 4096

def maxDrawerBytes : ℕ := 8 * 1024 * 1024

def maxDrawers : ℕ := 256

def maxFile : ℕ := maxDrawerBytes + 4 * 1024 * 1024

/-- What the node and the libraries bring in: the identity's secrets, AES-GCM (key, nonce, text, associated
data), `float.__repr__` and how deep `json` reads. -/
structure World where
  deriveSecret : Bytes → ℕ → Bytes
  encrypt : Bytes → Bytes → Bytes → Bytes → Bytes
  decrypt : Bytes → Bytes → Bytes → Bytes → Option Bytes
  floatRepr : Text → Text
  depth : ℕ

/-- What the libraries do: a text comes back under its key, nonce and data, its tag is 16 bytes long, and an
object of strings can be read. -/
structure Ideal (W : World) : Prop where
  decrypts : ∀ key nonce text aad, W.decrypt key nonce (W.encrypt key nonce text aad) aad = some text
  tagged : ∀ key nonce text aad, (W.encrypt key nonce text aad).length = text.length + tagLen
  reads : 1 ≤ W.depth

abbrev Nonce := {nonce : Bytes // nonce.length = nonceLen}

/-- How much of a file `os.write` takes, and whether writing raises. -/
inductive Write
  | all
  | short (n : ℕ)
  | raises

/-- What a call meets: whether the drawer's file can be read, the nonce, and how writing goes. -/
structure Env where
  reads : Bool
  nonce : Nonce
  write : Write

/-- The files of the directory, and the drawers that were opened. -/
structure AppStorage where
  files : AppId → Option Bytes
  drawers : Dict AppId Drawer
  loaded : List AppId

def fresh (files : AppId → Option Bytes) : AppStorage := ⟨files, .empty, []⟩

def validId (app : AppId) : Bool := app.length = appIdLen

def validKey (key : Text) : Bool := 0 < key.length ∧ key.length ≤ maxKeyLen

/-! ### The file of a drawer -/

variable (W : World)

def drawerKey (app : AppId) : Bytes := W.deriveSecret (info ++ app) 32

def decodeItem (out : Drawer) (e : Text × Json) : Drawer :=
  if validKey e.1 = true ∧ out.size < maxKeys then
    match e.2.text?.bind Base64.decode with
    | some raw => if raw.length ≤ maxValue then out.set e.1 raw else out
    | none => out
  else out

def decodeMap (doc : List (Text × Json)) : Drawer := doc.foldl decodeItem .empty

/-- `_read_file`, of the bytes read. -/
def readBlob (app : AppId) (blob : Bytes) : Drawer :=
  if maxFile < blob.length then .empty
  else if blob.length < nonceLen + tagLen then .empty
  else
    match ((W.decrypt (drawerKey W app) (blob.take nonceLen) (blob.drop nonceLen) app).bind decodeUtf8).bind
        (loads W.floatRepr W.depth) with
    | some (.obj doc) => decodeMap doc
    | _ => .empty

/-- What the file of an app holds; a file that is not there holds nothing. -/
def readFile (reads : Bool) (files : AppId → Option Bytes) (app : AppId) : Drawer :=
  match files app with
  | some blob => if reads then readBlob W app blob else .empty
  | none => .empty

/-- `_load`: the drawer of an app, read once. -/
def load (reads : Bool) (st : AppStorage) (app : AppId) : AppStorage × Drawer :=
  if app ∈ st.loaded then
    match st.drawers.get? app with
    | some drawer => (st, drawer)
    | none => ({ st with drawers := st.drawers.set app .empty }, .empty)
  else
    ({ st with loaded := app :: st.loaded,
               drawers := st.drawers.set app (readFile W reads st.files app) },
      readFile W reads st.files app)

def document (drawer : Drawer) : Json := .obj (drawer.entries.map fun e => (e.1, .str (Base64.encode e.2)))

/-- `json.dumps(doc)` -/
def plaintext (drawer : Drawer) : Text := write standard (document drawer)

/-- What is written of a drawer; `none` where encoding raises. -/
def blobOf (nonce : Nonce) (app : AppId) (drawer : Drawer) : Option Bytes :=
  (encodeUtf8 (plaintext drawer)).map fun text =>
    nonce.1 ++ W.encrypt (drawerKey W app) nonce.1 text app

/-- What a call that writes answers. -/
inductive Outcome
  | answered (ok : Bool)
  | raised
  deriving DecidableEq

/-- `_save`: the file is replaced when all of it was handed over. -/
def save (env : Env) (st : AppStorage) (app : AppId) (drawer : Drawer) : AppStorage × Outcome :=
  match blobOf W env.nonce app drawer, env.write with
  | some blob, .all => ({ st with files := Function.update st.files app (some blob) }, .answered true)
  | some blob, .short n =>
    ({ st with files := Function.update st.files app (some (blob.take n)) }, .answered true)
  | _, _ => (st, .raised)

/-! ### What an app may do -/

def total (drawer : Drawer) : ℕ := (drawer.values.map List.length).sum

def newBytes (drawer : Drawer) (key : Text) (value : Bytes) : ℕ :=
  ((drawer.entries.filter fun e => decide (e.1 ≠ key)).map fun e => e.2.length).sum + value.length

def get (reads : Bool) (st : AppStorage) (app : AppId) (key : Text) : AppStorage × Option Bytes :=
  if validId app = true ∧ validKey key = true then
    ((load W reads st app).1, (load W reads st app).2.get? key)
  else (st, none)

def keep (env : Env) (st : AppStorage) (app : AppId) (drawer : Drawer) : AppStorage × Outcome :=
  save W env { st with drawers := st.drawers.set app drawer } app drawer

def put (env : Env) (st : AppStorage) (app : AppId) (key : Text) (value : Bytes) : AppStorage × Outcome :=
  if ¬ (validId app = true ∧ validKey key = true) then (st, .answered false)
  else if maxValue < value.length then (st, .answered false)
  else if app ∉ st.loaded ∧ app ∉ st.drawers.keys ∧ maxDrawers ≤ st.drawers.size then
    (st, .answered false)
  else
    let (st, drawer) := load W env.reads st app
    if key ∉ drawer.keys ∧ maxKeys ≤ drawer.size then (st, .answered false)
    else if maxDrawerBytes < newBytes drawer key value then (st, .answered false)
    else keep W env st app (drawer.set key value)

def delete (env : Env) (st : AppStorage) (app : AppId) (key : Text) : AppStorage × Outcome :=
  if ¬ (validId app = true ∧ validKey key = true) then (st, .answered false)
  else
    let (st, drawer) := load W env.reads st app
    if key ∉ drawer.keys then (st, .answered false)
    else keep W env st app (drawer.pop key)

/-- The keys of a drawer, in the order of their code points. -/
def listKeys (reads : Bool) (st : AppStorage) (app : AppId) : AppStorage × List Text :=
  if validId app = true then
    ((load W reads st app).1, (load W reads st app).2.keys.mergeSort fun a b => decide (a ≤ b))
  else (st, [])

variable {drawer : Drawer}

variable {W} in
theorem load_open {st : AppStorage} {app : AppId} (hl : app ∈ st.loaded)
    (hget : st.drawers.get? app = some drawer) (reads : Bool) : load W reads st app = (st, drawer) := by
  unfold load
  rw [if_pos hl, hget]

theorem mem_loaded (reads : Bool) (st : AppStorage) (app : AppId) : app ∈ (load W reads st app).1.loaded := by
  unfold load
  split_ifs with hl
  · split <;> exact hl
  · exact List.mem_cons_self

/-- A `put` keeps a drawer within its bounds. -/
def Fits (drawer : Drawer) (key : Text) (value : Bytes) : Prop :=
  (key ∈ drawer.keys ∨ drawer.size < maxKeys) ∧ newBytes drawer key value ≤ maxDrawerBytes

section Put

variable {env : Env} {st : AppStorage} {app : AppId} {key : Text} {value : Bytes}
  (hvalid : validId app = true ∧ validKey key = true) (hvalue : value.length ≤ maxValue)
  (hroom : app ∈ st.loaded ∨ st.drawers.size < maxDrawers)
include hvalid hvalue hroom

theorem put_eq (hfits : Fits (load W env.reads st app).2 key value) :
    put W env st app key value =
      keep W env (load W env.reads st app).1 app ((load W env.reads st app).2.set key value) := by
  unfold put
  rw [if_neg (not_not.mpr hvalid), if_neg (by omega),
    if_neg fun hno => by rcases hroom with hl | hlt; exacts [hno.1 hl, by omega]]
  simp only
  rw [if_neg fun hno => by rcases hfits.1 with hk | hlt; exacts [hno.1 hk, by omega],
    if_neg (Nat.not_lt.mpr hfits.2)]

theorem put_full (hfull : ¬ Fits (load W env.reads st app).2 key value) :
    put W env st app key value = ((load W env.reads st app).1, .answered false) := by
  unfold put
  rw [if_neg (not_not.mpr hvalid), if_neg (by omega),
    if_neg fun hno => by rcases hroom with hl | hlt; exacts [hno.1 hl, by omega]]
  simp only
  by_cases hcount : key ∈ (load W env.reads st app).2.keys ∨ (load W env.reads st app).2.size < maxKeys
  · rw [if_neg fun hno => by rcases hcount with hk | hlt; exacts [hno.1 hk, by omega],
      if_pos (Nat.lt_of_not_le fun hbytes => hfull ⟨hcount, hbytes⟩)]
  · rw [if_pos ⟨fun hk => hcount (Or.inl hk), by omega⟩]

end Put

/-! ### Bounds -/

/-- What a file can hold: keys and values within their bounds, and not too many. -/
structure Shaped (drawer : Drawer) : Prop where
  key : ∀ e ∈ drawer.entries, validKey e.1 = true
  value : ∀ e ∈ drawer.entries, e.2.length ≤ maxValue
  count : drawer.size ≤ maxKeys

/-- **A drawer within its bounds.** -/
structure Within (drawer : Drawer) : Prop extends Shaped drawer where
  bytes : total drawer ≤ maxDrawerBytes

theorem shaped_empty : Shaped .empty := by
  refine ⟨fun e he => (by cases he), fun e he => (by cases he), (by decide)⟩

theorem mem_set {key : Text} {value : Bytes} {e : Text × Bytes}
    (h : e ∈ (drawer.set key value).entries) : e = (key, value) ∨ e ∈ drawer.entries := by
  rcases Dict.get?_of_set (Dict.get?_eq_some.mpr h) with ⟨hk, hv⟩ | ⟨-, hget⟩
  · exact Or.inl (Prod.ext hk hv)
  · exact Or.inr (Dict.get?_eq_some.mp hget)

theorem size_set_le (drawer : Drawer) (key : Text) (value : Bytes) :
    (drawer.set key value).size ≤ drawer.size + 1 :=
  Dict.size_set_le (Nat.le_succ _) fun _ => Nat.lt_succ_self _

theorem shaped_set (h : Shaped drawer) {key : Text} {value : Bytes}
    (hkey : validKey key = true) (hvalue : value.length ≤ maxValue)
    (hcount : key ∈ drawer.keys ∨ drawer.size < maxKeys) : Shaped (drawer.set key value) := by
  refine ⟨fun e he => ?_, fun e he => ?_, ?_⟩
  · rcases mem_set he with rfl | he
    · exact hkey
    · exact h.key e he
  · rcases mem_set he with rfl | he
    · exact hvalue
    · exact h.value e he
  · rcases hcount with hk | hlt
    · rw [Dict.size_set_of_mem hk]
      exact h.count
    · have := size_set_le drawer key value
      omega

theorem shaped_pop (h : Shaped drawer) (key : Text) : Shaped (drawer.pop key) := by
  have hsub : ∀ e ∈ (drawer.pop key).entries, e ∈ drawer.entries := fun e he => List.mem_of_mem_filter he
  refine ⟨fun e he => h.key e (hsub e he), fun e he => h.value e (hsub e he), ?_⟩
  have := Dict.size_pop_le drawer key
  have := h.count
  omega

theorem shaped_decodeItem {out : Drawer} (h : Shaped out) (e : Text × Json) : Shaped (decodeItem out e) := by
  unfold decodeItem
  split_ifs with hok
  · split
    · next raw _ =>
      split_ifs with hraw
      · exact shaped_set h hok.1 hraw (Or.inr hok.2)
      · exact h
    · exact h
  · exact h

theorem shaped_decodeMap (doc : List (Text × Json)) : Shaped (decodeMap doc) := by
  have hfold : ∀ (doc : List (Text × Json)) {out : Drawer}, Shaped out →
      Shaped (doc.foldl decodeItem out) := by
    intro doc
    induction doc with
    | nil => exact fun h => h
    | cons e doc ih => exact fun h => ih (shaped_decodeItem h e)
  exact hfold doc shaped_empty

/-- **What is read of a file is within the bounds of keys and values**, whatever the file. -/
theorem shaped_readFile (reads : Bool) (files : AppId → Option Bytes) (app : AppId) :
    Shaped (readFile W reads files app) := by
  unfold readFile
  split
  · split_ifs
    · unfold readBlob
      split_ifs
      · exact shaped_empty
      · exact shaped_empty
      · split
        · exact shaped_decodeMap _
        · exact shaped_empty
    · exact shaped_empty
  · exact shaped_empty

/-! ### Bytes -/

def bytes (entries : List (Text × Bytes)) : ℕ := (entries.map fun e => e.2.length).sum

theorem total_eq (drawer : Drawer) : total drawer = bytes drawer.entries := by
  rw [total, Dict.values, List.map_map]
  rfl

theorem bytes_setL (key : Text) (value : Bytes) : ∀ {entries : List (Text × Bytes)},
    (entries.map Prod.fst).Nodup →
    bytes (setL key value entries) = bytes (entries.filter fun e => decide (e.1 ≠ key)) + value.length
  | [], _ => by simp [setL, bytes]
  | (k, v) :: entries, h => by
    rw [List.map_cons, List.nodup_cons] at h
    by_cases hk : k = key
    · have hrest : entries.filter (fun e => decide (e.1 ≠ key)) = entries := by
        refine List.filter_eq_self.mpr fun e he => decide_eq_true fun heq => ?_
        exact h.1 (List.mem_map.mpr ⟨e, he, heq.trans hk.symm⟩)
      rw [List.filter_cons_of_neg (by simp [hk]), hrest, setL, if_pos hk]
      simp only [bytes, List.map_cons, List.sum_cons]
      omega
    · have ih := bytes_setL key value h.2
      rw [List.filter_cons_of_pos (by simp [hk]), setL, if_neg hk]
      simp only [bytes, List.map_cons, List.sum_cons] at ih ⊢
      omega

theorem total_set (drawer : Drawer) (key : Text) (value : Bytes) :
    total (drawer.set key value) = newBytes drawer key value := by
  rw [total_eq]
  exact bytes_setL key value drawer.nodup

theorem bytes_filter (p : Text × Bytes → Bool) : ∀ entries : List (Text × Bytes),
    bytes (entries.filter p) ≤ bytes entries
  | [] => Nat.le_refl _
  | e :: entries => by
    have ih := bytes_filter p entries
    rw [List.filter_cons]
    split_ifs <;> simp only [bytes, List.map_cons, List.sum_cons] at ih ⊢ <;> omega

theorem total_pop (drawer : Drawer) (key : Text) : total (drawer.pop key) ≤ total drawer := by
  rw [total_eq, total_eq]
  exact bytes_filter _ drawer.entries

/-! ### What is written is read -/

/-- A key that `json` gives back: code points, of which no two are a pair of surrogates. -/
def Whole (key : Text) : Prop := Points key ∧ merge key = key

def fileLength (drawer : Drawer) : ℕ := nonceLen + (plaintext drawer).length + tagLen

/-- **A drawer whose file can be read**: every key comes back, and the file is not too long. -/
structure Writable (drawer : Drawer) : Prop where
  whole : ∀ k ∈ drawer.keys, Whole k
  short : fileLength drawer ≤ maxFile

def member (e : Text × Bytes) : Text × Json := (e.1, .str (Base64.encode e.2))

theorem points_base64 (data : Bytes) : Points (Base64.encode data) := by
  intro c hc
  have := Base64.encode_ascii hc
  omega

theorem merge_base64 (data : Bytes) : merge (Base64.encode data) = Base64.encode data := by
  refine merge_scalars fun c hc => Or.inl ?_
  have := Base64.encode_ascii hc
  omega

theorem ascii_plaintext (hkeys : ∀ k ∈ drawer.keys, Points k) :
    Ascii (plaintext drawer) := by
  refine ascii_write_obj rfl fun e he => ?_
  obtain ⟨x, hx, rfl⟩ := List.mem_map.mp he
  refine ⟨hkeys _ (List.mem_map_of_mem hx), ?_⟩
  rw [write]
  exact ascii_writeString rfl (points_base64 x.2)

variable {W}

theorem blobOf_eq (hkeys : ∀ k ∈ drawer.keys, Points k) (nonce : Nonce) (app : AppId) :
    blobOf W nonce app drawer = some (nonce.1 ++
      W.encrypt (drawerKey W app) nonce.1 ((plaintext drawer).map UInt8.ofNat) app) := by
  rw [blobOf, encode_ascii (ascii_plaintext hkeys), Option.map_some]

theorem length_blobOf (hW : Ideal W) (hkeys : ∀ k ∈ drawer.keys, Points k) {nonce : Nonce}
    {app : AppId} {blob : Bytes} (h : blobOf W nonce app drawer = some blob) :
    blob.length = fileLength drawer := by
  rw [blobOf_eq hkeys] at h
  rw [← Option.some.inj h, List.length_append, hW.tagged, List.length_map, nonce.2, fileLength]
  omega

theorem decode_members : ∀ {rest : List (Text × Bytes)} {out : Drawer},
    ((out.entries ++ rest).map Prod.fst).Nodup →
    (∀ e ∈ rest, validKey e.1 = true ∧ e.2.length ≤ maxValue) → out.size + rest.length ≤ maxKeys →
    ((rest.map member).foldl decodeItem out).entries = out.entries ++ rest
  | [], out, _, _, _ => by rw [List.map_nil, List.foldl_nil, List.append_nil]
  | e :: rest, out, hnodup, hrest, hcount => by
    obtain ⟨hkey, hvalue⟩ := hrest e List.mem_cons_self
    rw [List.length_cons] at hcount
    have hnew : e.1 ∉ out.keys := by
      intro hmem
      rw [List.map_append, List.nodup_append] at hnodup
      exact hnodup.2.2 e.1 hmem e.1 List.mem_cons_self rfl
    have hitem : decodeItem out (member e) = out.set e.1 e.2 := by
      have hraw : (member e).2.text?.bind Base64.decode = some e.2 := Base64.decode_encode e.2
      have hok : validKey (member e).1 = true ∧ out.size < maxKeys := ⟨hkey, by omega⟩
      unfold decodeItem
      rw [if_pos hok, hraw]
      simp only
      rw [if_pos hvalue]
      rfl
    have hentries : (out.set e.1 e.2).entries = out.entries ++ [e] := Dict.entries_set_of_notMem hnew e.2
    have hsize : (out.set e.1 e.2).size = out.size + 1 := Dict.size_set_of_notMem hnew e.2
    rw [List.map_cons, List.foldl_cons, hitem, decode_members]
    · rw [hentries, List.append_assoc, List.singleton_append]
    · rw [hentries, List.append_assoc, List.singleton_append]
      exact hnodup
    · exact fun x hx => hrest x (List.mem_cons_of_mem e hx)
    · omega

theorem decodeMap_document (h : Shaped drawer) :
    decodeMap (drawer.entries.map member) = drawer := by
  refine Dict.ext ?_
  rw [decodeMap, decode_members]
  · rfl
  · exact drawer.nodup
  · exact fun e he => ⟨h.key e he, h.value e he⟩
  · have := h.count
    rw [Dict.size_empty, Nat.zero_add]
    exact this

theorem loads_plaintext (hW : Ideal W) (hkeys : ∀ k ∈ drawer.keys, Whole k) :
    loads W.floatRepr W.depth (plaintext drawer) = some (.obj (drawer.entries.map member)) := by
  have hplain : Plain W.floatRepr (document drawer) := by
    rw [document, Plain, plainMembers_iff]
    intro e he
    obtain ⟨x, hx, rfl⟩ := List.mem_map.mp he
    refine ⟨(hkeys _ (List.mem_map_of_mem hx)).1, ?_⟩
    rw [Plain]
    exact points_base64 x.2
  have hheight : height (document drawer) ≤ W.depth := by
    have hmembers : heightMembers (drawer.entries.map member) ≤ 0 := by
      refine heightMembers_le.mpr fun e he => ?_
      obtain ⟨x, -, rfl⟩ := List.mem_map.mp he
      exact Nat.le_refl 0
    have := hW.reads
    show heightMembers (drawer.entries.map member) + 1 ≤ W.depth
    omega
  rw [plaintext, loads_write (by decide) hplain hheight]
  have hsettle : settle (document drawer) =
      .obj ((drawer.entries.map member).map fun e => (e.1, settle e.2)) := by
    refine settle_apart (fun e he => ?_) ?_
    · obtain ⟨x, hx, rfl⟩ := List.mem_map.mp he
      exact (hkeys _ (List.mem_map_of_mem hx)).2
    · rw [List.map_map]
      exact drawer.nodup
  rw [hsettle, List.map_map]
  congr 2
  refine List.map_congr_left fun x _ => ?_
  show (x.1, settle (.str (Base64.encode x.2))) = member x
  rw [settle, merge_base64]
  rfl

/-- **What was written of a drawer is read**, if its file is not too long and its keys come back. -/
theorem read_sealed (hW : Ideal W) (hshaped : Shaped drawer) (h : Writable drawer)
    {nonce : Nonce} {app : AppId} {blob : Bytes} (hblob : blobOf W nonce app drawer = some blob) :
    readBlob W app blob = drawer := by
  have hpoints : ∀ k ∈ drawer.keys, Points k := fun k hk => (h.whole k hk).1
  have hlength := length_blobOf hW hpoints hblob
  have hshort := h.short
  rw [blobOf_eq hpoints] at hblob
  have hblob := Option.some.inj hblob
  have htake : blob.take nonceLen = nonce.1 := by rw [← hblob, List.take_left' nonce.2]
  have hdrop : blob.drop nonceLen =
      W.encrypt (drawerKey W app) nonce.1 ((plaintext drawer).map UInt8.ofNat) app := by
    rw [← hblob, List.drop_left' nonce.2]
  have htext : decodeUtf8 ((plaintext drawer).map UInt8.ofNat) = some (plaintext drawer) :=
    decode_encode (encode_ascii (ascii_plaintext hpoints))
  unfold readBlob
  rw [if_neg (by omega), if_neg (by unfold fileLength at hlength; omega), htake, hdrop, hW.decrypts,
    Option.bind_some, htext, Option.bind_some, loads_plaintext hW h.whole]
  exact decodeMap_document hshaped

end NMesh.Storage.Drawers
