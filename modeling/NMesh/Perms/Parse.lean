import NMesh.Base.Chars
import NMesh.Base.JsonRead
import NMesh.Perms.Tree

/-! # Manifests

`parse_manifest`: what an app asks for, brought inside what is kept. It takes bytes, text or a value that
was already parsed, and answers the manifest or the text of its error.

* `kept_of_parse`: what is kept asks for known permissions, none of them twice.
* `parse_document`: parsing what was kept asks for the same permissions, whatever became of the texts. -/

namespace NMesh.Perms.Parse

open Base.BigEndian Base.Utf8 Base.Ordered Base.JsonText Base.Chars
open Base.JsonStyle Base.JsonRead NMesh.Perms.Tree

/-! ### Bounds and names -/

def maxManifest : ℕ := 32 * 1024

def maxRequests : ℕ := 32

def maxWhy : ℕ := 200

def maxTitle : ℕ := 60

def maxDescription : ℕ := 400

def maxApi : ℕ := 32

def isLower (c : ℕ) : Bool := 0x61 ≤ c ∧ c ≤ 0x7A

/-- `[a-z0-9_]` -/
def isWord (c : ℕ) : Bool := isLower c ∨ isDigit c ∨ c = 0x5F

/-- `$`: the end, or a line feed before it. -/
def atEnd (text : Text) : Bool := text = [] ∨ text = [0x0A]

/-- `[a-z][a-z0-9_]{0,31}`: what follows it, where it is not followed by more of the same. -/
def afterName : Text → Option Text
  | [] => none
  | c :: rest =>
    if isLower c ∧ (rest.takeWhile isWord).length ≤ 31 then some (rest.dropWhile isWord) else none

/-- `_NAME_RE.match(text)` -/
def isName (text : Text) : Bool := (afterName text).any atEnd

/-- `_PERM_RE.match(text)` -/
def isPerm (text : Text) : Bool :=
  match afterName text with
  | none => false
  | some (0x2E :: rest) => (afterName rest).any atEnd
  | some rest => atEnd rest

/-- `_HEX_RE.match(text)` -/
def isHexId (text : Text) : Bool :=
  (text.take 16).length = 16 ∧ (text.take 16).all (fun c => isDigit c ∨ 0x61 ≤ c ∧ c ≤ 0x66) ∧
    atEnd (text.drop 16)

/-- `[0-9A-Za-z.+_-]` -/
def isVersionChar (c : ℕ) : Bool :=
  isWord c ∨ 0x41 ≤ c ∧ c ≤ 0x5A ∨ c = 0x2E ∨ c = 0x2B ∨ c = 0x2D

/-- `_VERSION_RE.match(text)` -/
def isVersion (text : Text) : Bool :=
  let body := text.takeWhile isVersionChar
  1 ≤ body.length ∧ body.length ≤ 32 ∧ atEnd (text.dropWhile isVersionChar)

/-! ### Parsing -/

/-- One permission asked for, with its reason. -/
structure Request where
  name : Text
  why : Text
  deriving DecidableEq

structure Manifest where
  name : Text
  title : Text
  version : Text
  description : Text
  permissions : List Request
  api : List Json

/-- A manifest as it comes: bytes, or a value; a value that is a string is text. -/
inductive Raw
  | bytes (data : Bytes)
  | value (v : Json)

/-- What parsing rests on: the reader of JSON, the tables of characters, and the `==` of lists of parsed
values. -/
structure World where
  floatRepr : Text → Text
  depth : ℕ
  chars : Characters
  sameValues : List Json → List Json → Bool

variable (W : World)

/-- `_text(value, limit)` -/
def cleanText (value : Option Json) (limit : ℕ) : Text :=
  match value with
  | some (.str s) => (strip W.chars (printable W.chars s)).take limit
  | _ => []

/-- `json.loads` of text that is not too long. -/
def loadManifest (length : ℕ) (text : Option Text) : Except Text Json :=
  if maxManifest < length then .error (ascii "manifest too large")
  else match text.bind (loads W.floatRepr W.depth) with
    | some v => .ok v
    | none => .error (ascii "manifest is not JSON")

/-- Bytes and text are read; another value stays what it is. -/
def Raw.document : Raw → Except Text Json
  | .bytes data => loadManifest W data.length (decodeUtf8 data)
  | .value (.str text) => loadManifest W text.length (some text)
  | .value v => .ok v

/-- `{"name": item}` for a string, the members of an object. -/
def requestOf : Json → Except Text (List (Text × Json))
  | .str s => .ok [(ascii "name", .str s)]
  | .obj members => .ok members
  | _ => .error (ascii "permissions: each is a name or \x7bname, why\x7d")

/-- The loop over the requests, with the permissions and the unknown names found before. -/
def readRequests : List Json → List Request → List Text → Except Text (List Request × List Text)
  | [], permissions, unknown => .ok (permissions, unknown)
  | item :: items, permissions, unknown =>
    match requestOf item with
    | .error e => .error e
    | .ok members =>
      match getL (ascii "name") members with
      | some (.str name) =>
        if ¬ isPerm name then .error (ascii "permissions: not a permission name")
        else if ¬ known name then readRequests items permissions (unknown ++ [name])
        else if name ∈ permissions.map Request.name then readRequests items permissions unknown
        else readRequests items
          (permissions ++ [⟨name, cleanText W (getL (ascii "why") members) maxWhy⟩]) unknown
      | _ => .error (ascii "permissions: not a permission name")

/-- `", ".join(names)` -/
def joinNames : List Text → Text
  | [] => []
  | [name] => name
  | name :: names => name ++ ascii ", " ++ joinNames names

def sortNames (names : List Text) : List Text := names.insertionSort fun a b => ¬ b < a

def isObject : Json → Bool
  | .obj _ => true
  | _ => false

def parsePermissions (members : List (Text × Json)) : Except Text (List Request) :=
  match (getL (ascii "permissions") members).getD (.arr []) with
  | .arr requested =>
    if maxRequests < requested.length then .error (ascii "permissions: at most 32")
    else match readRequests W requested [] [] with
      | .error e => .error e
      | .ok (permissions, []) => .ok permissions
      | .ok (_, unknown) =>
        .error (ascii "unknown permission: " ++ (joinNames (sortNames unknown)).take 200)
  | _ => .error (ascii "permissions: a list")

def parseApi (members : List (Text × Json)) : Except Text (List Json) :=
  match (getL (ascii "api") members).getD (.arr []) with
  | .arr api =>
    if maxApi < api.length then .error (ascii "api: a list of at most 32") else .ok (api.filter isObject)
  | _ => .error (ascii "api: a list of at most 32")

def parseVersion (members : List (Text × Json)) : Text :=
  match getL (ascii "version") members with
  | some (.str version) => if isVersion version then version else []
  | _ => []

def orElse (text other : Text) : Text := if text = [] then other else text

/-- The members of a manifest, checked in the order of the source. -/
def parseMembers (members : List (Text × Json)) : Except Text Manifest :=
  match getL (ascii "name") members with
  | some (.str name) =>
    if ¬ isName name then .error (ascii "name: lowercase letters, digits and _, at most 32")
    else do
      let permissions ← parsePermissions W members
      let api ← parseApi members
      return {
        name := name
        title := orElse (cleanText W (getL (ascii "title") members) maxTitle) name
        version := parseVersion members
        description := cleanText W (getL (ascii "description") members) maxDescription
        permissions := permissions
        api := api }
  | _ => .error (ascii "name: lowercase letters, digits and _, at most 32")

/-- `parse_manifest(raw)`; the error is the text of the `ManifestError`. -/
def parseManifest (raw : Raw) : Except Text Manifest :=
  match raw.document W with
  | .error e => .error e
  | .ok (.obj members) => parseMembers W members
  | .ok _ => .error (ascii "a manifest is an object")

def Manifest.asked (m : Manifest) : List Text := m.permissions.map Request.name

def Manifest.wanted (m : Manifest) : List Text := closure m.asked

def Manifest.document (m : Manifest) : List (Text × Json) :=
  [(ascii "name", .str m.name), (ascii "title", .str m.title), (ascii "version", .str m.version),
    (ascii "description", .str m.description),
    (ascii "permissions", .arr (m.permissions.map fun r =>
      .obj [(ascii "name", .str r.name), (ascii "why", .str r.why)])),
    (ascii "api", .arr m.api)]

/-! ### What is kept -/

/-- **What parsing keeps**: a name, known permissions without a repetition, and objects. -/
structure Kept (m : Manifest) : Prop where
  name : isName m.name = true
  known : ∀ r ∈ m.permissions, isPerm r.name = true ∧ known r.name = true
  nodup : m.asked.Nodup
  few : m.permissions.length ≤ maxRequests
  api : m.api.length ≤ maxApi
  objects : ∀ v ∈ m.api, isObject v = true

variable {W}

theorem readRequests_kept : ∀ {items : List Json} {permissions rs : List Request} {unknown us : List Text},
    readRequests W items permissions unknown = .ok (rs, us) →
    (∀ r ∈ permissions, isPerm r.name = true ∧ known r.name = true) →
    (permissions.map Request.name).Nodup →
    (∀ r ∈ rs, isPerm r.name = true ∧ known r.name = true) ∧ (rs.map Request.name).Nodup ∧
      rs.length ≤ permissions.length + items.length
  | [], permissions, rs, unknown, us, h, hknown, hnodup => by
    obtain ⟨rfl, rfl⟩ := Prod.mk.inj (Except.ok.inj h)
    exact ⟨hknown, hnodup, Nat.le_add_right _ _⟩
  | item :: items, permissions, rs, unknown, us, h, hknown, hnodup => by
    rw [readRequests] at h
    split at h
    · cases h
    next members _ =>
      split at h
      next name _ =>
        split_ifs at h with hperm hunknown hseen
        · obtain ⟨h₁, h₂, h₃⟩ := readRequests_kept h hknown hnodup
          exact ⟨h₁, h₂, by rw [List.length_cons]; omega⟩
        · obtain ⟨h₁, h₂, h₃⟩ := readRequests_kept h (by
            intro r hr
            rcases List.mem_append.mp hr with hr | hr
            · exact hknown r hr
            · rw [List.mem_singleton.mp hr]
              exact ⟨hperm, hunknown⟩) (by
            rw [List.map_append, List.nodup_append]
            refine ⟨hnodup, List.nodup_singleton _, ?_⟩
            intro a ha b hb hab
            rw [List.map_singleton, List.mem_singleton] at hb
            exact hseen (by rw [hab, hb] at ha; exact ha))
          refine ⟨h₁, h₂, ?_⟩
          rw [List.length_append, List.length_singleton] at h₃
          rw [List.length_cons]
          omega
        · obtain ⟨h₁, h₂, h₃⟩ := readRequests_kept h hknown hnodup
          exact ⟨h₁, h₂, by rw [List.length_cons]; omega⟩
      next => cases h

variable {members : List (Text × Json)}

theorem parsePermissions_kept {rs : List Request} (h : parsePermissions W members = .ok rs) :
    (∀ r ∈ rs, isPerm r.name = true ∧ known r.name = true) ∧ (rs.map Request.name).Nodup ∧
      rs.length ≤ maxRequests := by
  unfold parsePermissions at h
  split at h
  next requested _ =>
    split_ifs at h with hlen
    split at h
    · cases h
    next permissions hread =>
      obtain rfl := Except.ok.inj h
      obtain ⟨h₁, h₂, h₃⟩ := readRequests_kept hread (fun r hr => by cases hr) List.nodup_nil
      rw [List.length_nil] at h₃
      exact ⟨h₁, h₂, by omega⟩
    · cases h
  next => cases h

theorem parseApi_kept {api : List Json} (h : parseApi members = .ok api) :
    api.length ≤ maxApi ∧ ∀ v ∈ api, isObject v = true := by
  unfold parseApi at h
  split at h
  next requested _ =>
    split_ifs at h with hlen
    obtain rfl := Except.ok.inj h
    refine ⟨(List.length_filter_le _ _).trans (by omega), fun v hv => (List.mem_filter.mp hv).2⟩
  next => cases h

variable {m : Manifest}

theorem parseMembers_eq (h : parseMembers W members = .ok m) :
    ∃ name, getL (ascii "name") members = some (.str name) ∧ isName name = true ∧ m.name = name ∧
      parsePermissions W members = .ok m.permissions ∧ parseApi members = .ok m.api ∧
      m.title = orElse (cleanText W (getL (ascii "title") members) maxTitle) name ∧
      m.version = parseVersion members ∧
      m.description = cleanText W (getL (ascii "description") members) maxDescription := by
  unfold parseMembers at h
  split at h
  next name hname =>
    split_ifs at h with hn
    rcases hp : parsePermissions W members with e | permissions
    · rw [hp] at h
      cases h
    · rcases ha : parseApi members with e | api
      · rw [hp, ha] at h
        cases h
      · rw [hp, ha] at h
        obtain rfl := Except.ok.inj h
        exact ⟨name, hname, by simpa using hn, rfl, rfl, rfl, rfl, rfl, rfl⟩
  next => cases h

theorem kept_of_parse {raw : Raw} (h : parseManifest W raw = .ok m) : Kept m := by
  unfold parseManifest at h
  split at h
  · cases h
  next members _ =>
    obtain ⟨name, -, hn, hname, hp, ha, -⟩ := parseMembers_eq h
    obtain ⟨hknown, hnodup, hfew⟩ := parsePermissions_kept hp
    obtain ⟨hapi, hobjects⟩ := parseApi_kept ha
    exact ⟨by rw [hname]; exact hn, hknown, hnodup, hfew, hapi, hobjects⟩
  · cases h

/-! ### What is kept can be written -/

/-- A manifest of a Python value: any bytes, or a value that Python holds. -/
def Raw.Held (W : World) : Raw → Prop
  | .bytes _ => True
  | .value v => Plain W.floatRepr v

theorem points_cleanText {value : Option Json} {limit : ℕ} (h : ∀ v ∈ value, Plain W.floatRepr v) :
    Points (cleanText W value limit) := by
  unfold cleanText
  split
  next s =>
    have hs : Points s := h _ rfl
    intro c hc
    have hstrip := List.mem_of_mem_take hc
    have hdrop := (List.rdropWhile_prefix W.chars.isSpace _).subset hstrip
    have hprint := (List.dropWhile_suffix W.chars.isSpace).subset hdrop
    exact hs c (List.mem_filter.mp hprint).1
  next => exact fun c hc => by cases hc

theorem readRequests_points : ∀ {items : List Json} {permissions rs : List Request} {unknown us : List Text},
    PlainItems W.floatRepr items → (∀ r ∈ permissions, Points r.why) →
    readRequests W items permissions unknown = .ok (rs, us) → ∀ r ∈ rs, Points r.why
  | [], permissions, rs, unknown, us, _, hwhy, h => by
    obtain ⟨rfl, rfl⟩ := Prod.mk.inj (Except.ok.inj h)
    exact hwhy
  | item :: items, permissions, rs, unknown, us, hitems, hwhy, h => by
    rw [readRequests] at h
    split at h
    · cases h
    next members hmembers =>
      split at h
      next name _ =>
        split_ifs at h
        · exact readRequests_points hitems.2 hwhy h
        · refine readRequests_points hitems.2 (fun r hr => ?_) h
          rcases List.mem_append.mp hr with hr | hr
          · exact hwhy r hr
          · rw [List.mem_singleton.mp hr]
            refine points_cleanText fun v hv => ?_
            match item, hitems.1, hmembers with
            | .str s, hs, hmembers =>
              obtain rfl := Except.ok.inj hmembers
              have hnone : getL (ascii "why") [(ascii "name", Json.str s)] = none := by
                rw [getL, if_neg (show ascii "name" ≠ ascii "why" by decide), getL]
              rw [hnone] at hv
              cases hv
            | .obj ms, hs, hmembers =>
              obtain rfl := Except.ok.inj hmembers
              exact plain_getL hs hv
        · exact readRequests_points hitems.2 hwhy h
      next => cases h

theorem scalar_isName {name : Text} (h : isName name = true) : ∀ c ∈ name, Scalar c := by
  have hword : ∀ c, isWord c = true → Scalar c := by
    intro c hc
    unfold isWord isLower isDigit at hc
    simp only [decide_eq_true_eq] at hc
    exact Or.inl (by omega)
  match name, h with
  | d :: rest, h =>
    simp only [isName, afterName] at h
    split_ifs at h with hc
    · have hend : atEnd (rest.dropWhile isWord) = true := h
      have hend' := of_decide_eq_true hend
      intro c hmem
      rcases List.mem_cons.mp hmem with rfl | hmem
      · exact hword _ (by unfold isWord; simp [hc.1])
      · rw [← List.takeWhile_append_dropWhile (p := isWord) (l := rest)] at hmem
        rcases List.mem_append.mp hmem with hmem | hmem
        · exact hword c (List.all_eq_true.mp List.all_takeWhile c hmem)
        · rcases hend' with hnil | hlf
          · rw [hnil] at hmem
            cases hmem
          · rw [hlf] at hmem
            rw [List.mem_singleton.mp hmem]
            exact Or.inl (by decide)
    · cases h

theorem scalar_version (members : List (Text × Json)) : ∀ c ∈ parseVersion members, Scalar c := by
  have hchar : ∀ c, isVersionChar c = true → Scalar c := by
    intro c hc
    unfold isVersionChar isWord isLower isDigit at hc
    simp only [decide_eq_true_eq] at hc
    exact Or.inl (by omega)
  unfold parseVersion
  split
  next version _ =>
    split_ifs with h
    · unfold isVersion at h
      have hend := of_decide_eq_true (of_decide_eq_true h).2.2
      intro c hmem
      rw [← List.takeWhile_append_dropWhile (p := isVersionChar) (l := version)] at hmem
      rcases List.mem_append.mp hmem with hmem | hmem
      · exact hchar c (List.all_eq_true.mp List.all_takeWhile c hmem)
      · rcases hend with hnil | hlf
        · rw [hnil] at hmem
          cases hmem
        · rw [hlf] at hmem
          rw [List.mem_singleton.mp hmem]
          exact Or.inl (by decide)
    · exact fun c hc => by cases hc
  next => exact fun c hc => by cases hc

theorem plain_items {key : Text} {items : List Json}
    (hmembers : PlainMembers W.floatRepr members) (h : (getL key members).getD (.arr []) = .arr items) :
    PlainItems W.floatRepr items := by
  rcases hget : getL key members with _ | v
  · rw [hget] at h
    obtain rfl := Json.arr.inj h
    trivial
  · rw [hget] at h
    have hv := plain_getL hmembers hget
    rw [show v = .arr items from h] at hv
    exact hv

theorem plain_document (hfloats : Floats W.floatRepr) {raw : Raw} (hraw : raw.Held W)
    (h : parseManifest W raw = .ok m) : Plain W.floatRepr (.obj m.document) := by
  have hkept := kept_of_parse h
  have hload : ∀ {length : ℕ} {text : Option Text} {v : Json}, (∀ t ∈ text, Points t) →
      loadManifest W length text = .ok v → Plain W.floatRepr v := by
    intro length text v htext hl
    unfold loadManifest at hl
    split_ifs at hl
    split at hl
    next v' hv' =>
      obtain rfl := Except.ok.inj hl
      obtain ⟨t, ht, hloads⟩ := Option.bind_eq_some_iff.mp hv'
      exact (loads_plain hfloats (htext t ht) hloads).1
    next => cases hl
  have hdoc : ∀ v, raw.document W = .ok v → Plain W.floatRepr v := by
    intro v hv
    match raw, hraw, hv with
    | .bytes data, _, hv => exact hload (fun t ht => points_decode ht) hv
    | .value (.str text), hheld, hv =>
      exact hload (fun t ht => by rw [← Option.some.inj ht]; exact hheld) hv
    | .value .null, _, hv => rw [← Except.ok.inj hv]; trivial
    | .value (.bool _), _, hv => rw [← Except.ok.inj hv]; trivial
    | .value (.int _), hheld, hv => rw [← Except.ok.inj hv]; exact hheld
    | .value (.float _), hheld, hv => rw [← Except.ok.inj hv]; exact hheld
    | .value (.arr _), hheld, hv => rw [← Except.ok.inj hv]; exact hheld
    | .value (.obj _), hheld, hv => rw [← Except.ok.inj hv]; exact hheld
  unfold parseManifest at h
  split at h
  · cases h
  next members hmembers =>
    have hplain : PlainMembers W.floatRepr members := hdoc _ hmembers
    obtain ⟨name, -, hisName, hname, hp, ha, htitle, hversion, hdescription⟩ := parseMembers_eq h
    have hnamePoints : Points m.name := points_of_scalars (by rw [hname]; exact scalar_isName hisName)
    have hclean : ∀ key limit, Points (cleanText W (getL key members) limit) :=
      fun key limit => points_cleanText fun v hv => plain_getL hplain hv
    have hwhy : ∀ r ∈ m.permissions, Points r.why := by
      unfold parsePermissions at hp
      split at hp
      next requested hrequested =>
        split_ifs at hp
        split at hp
        · cases hp
        next permissions hread =>
          rw [← Except.ok.inj hp]
          exact readRequests_points (plain_items hplain hrequested) (fun r hr => by cases hr) hread
        · cases hp
      next => cases hp
    have happ : ∀ v ∈ m.api, Plain W.floatRepr v := by
      unfold parseApi at ha
      split at ha
      next api hapi =>
        split_ifs at ha
        intro v hv
        rw [← Except.ok.inj ha] at hv
        exact plainItems_iff.mp (plain_items hplain hapi) v (List.mem_filter.mp hv).1
      next => cases ha
    have hkey : ∀ key ∈ [ascii "name", ascii "title", ascii "version", ascii "description",
        ascii "permissions", ascii "api", ascii "why"], Points key := by
      have htable : ∀ key ∈ [ascii "name", ascii "title", ascii "version", ascii "description",
        ascii "permissions", ascii "api", ascii "why"], ∀ c ∈ key, c < 0x110000 := by decide
      exact htable
    have htitlePoints : Points m.title := by
      rw [htitle]
      unfold orElse
      split_ifs
      · rw [← hname]
        exact hnamePoints
      · exact hclean _ _
    refine ⟨hkey _ (by simp), hnamePoints, hkey _ (by simp), htitlePoints, hkey _ (by simp),
      by rw [hversion]; exact points_of_scalars (scalar_version members), hkey _ (by simp),
      by rw [hdescription]; exact hclean _ _, hkey _ (by simp), ?_, hkey _ (by simp),
      plainItems_iff.mpr happ, trivial⟩
    refine plainItems_iff.mpr fun v hv => ?_
    obtain ⟨r, hr, rfl⟩ := List.mem_map.mp hv
    exact ⟨hkey _ (by simp), points_of_scalars (scalar_known (hkept.known r hr).2), hkey _ (by simp),
      hwhy r hr, trivial⟩
  · cases h

/-! ### What is read back asks for the same -/

theorem settle_requests (rs : List Request) : settleItems (rs.map fun r =>
    .obj [(ascii "name", .str r.name), (ascii "why", .str r.why)]) = rs.map fun r =>
      .obj [(ascii "name", .str (merge r.name)), (ascii "why", .str (merge r.why))] := by
  rw [settleItems_eq, List.map_map]
  refine List.map_congr_left fun r _ => ?_
  have hscalar : ∀ key ∈ [ascii "name", ascii "why"], ∀ c ∈ key, Scalar c := by decide
  have hkeys : [ascii "name", ascii "why"].Nodup := by decide
  have hobj := @settle_obj [(ascii "name", .str r.name), (ascii "why", .str r.why)] (by
    intro e he
    simp only [List.mem_cons, List.not_mem_nil, or_false] at he
    rcases he with rfl | rfl
    · exact hscalar _ (by simp)
    · exact hscalar _ (by simp)) hkeys
  exact hobj

theorem readRequests_settled : ∀ {rs permissions : List Request} {unknown : List Text},
    (∀ r ∈ rs, isPerm r.name = true ∧ known r.name = true) →
    ((permissions ++ rs).map Request.name).Nodup → ∃ ps,
      readRequests W (rs.map fun r =>
          .obj [(ascii "name", .str (merge r.name)), (ascii "why", .str (merge r.why))])
        permissions unknown = .ok (permissions ++ ps, unknown) ∧
      ps.map Request.name = rs.map Request.name
  | [], permissions, unknown, _, _ => ⟨[], by rw [List.append_nil]; rfl, rfl⟩
  | r :: rs, permissions, unknown, hknown, hnodup => by
    obtain ⟨hperm, hk⟩ := hknown r List.mem_cons_self
    have hmerge : merge r.name = r.name := merge_scalars (scalar_known hk)
    have hnew : r.name ∉ permissions.map Request.name := by
      intro hmem
      rw [List.map_append, List.nodup_append] at hnodup
      exact hnodup.2.2 _ hmem _ List.mem_cons_self rfl
    let kept : Request := ⟨r.name, cleanText W (some (.str (merge r.why))) maxWhy⟩
    obtain ⟨ps, hps, hnames⟩ := @readRequests_settled rs (permissions ++ [kept]) unknown
      (fun r' hr' => hknown r' (List.mem_cons_of_mem r hr')) (by simpa using hnodup)
    refine ⟨kept :: ps, ?_, by rw [List.map_cons, hnames, List.map_cons]⟩
    rw [List.map_cons, readRequests]
    have hname : getL (ascii "name")
        [(ascii "name", Json.str (merge r.name)), (ascii "why", .str (merge r.why))] =
          some (.str r.name) := by rw [getL, if_pos rfl, hmerge]
    have hwhy : getL (ascii "why")
        [(ascii "name", Json.str (merge r.name)), (ascii "why", .str (merge r.why))] =
          some (.str (merge r.why)) := by
      rw [getL, if_neg (show ascii "name" ≠ ascii "why" by decide), getL, if_pos rfl]
    simp only [requestOf, hname, hwhy]
    rw [if_neg (not_not.mpr hperm), if_neg (not_not.mpr hk), if_neg hnew, hps, List.append_assoc]
    rfl

def Manifest.settled (m : Manifest) : List (Text × Json) :=
  [(ascii "name", .str (merge m.name)), (ascii "title", .str (merge m.title)),
    (ascii "version", .str (merge m.version)), (ascii "description", .str (merge m.description)),
    (ascii "permissions", .arr (m.permissions.map fun r =>
      .obj [(ascii "name", .str (merge r.name)), (ascii "why", .str (merge r.why))])),
    (ascii "api", .arr (m.api.map settle))]

theorem settle_document (m : Manifest) : settle (.obj m.document) = .obj m.settled := by
  have hscalar : ∀ key ∈ m.document.map Prod.fst, ∀ c ∈ key, Scalar c := by
    have htable : ∀ key ∈ [ascii "name", ascii "title", ascii "version", ascii "description",
      ascii "permissions", ascii "api"], ∀ c ∈ key, Scalar c := by decide
    exact htable
  have hkeys : (m.document.map Prod.fst).Nodup := by
    have htable : [ascii "name", ascii "title", ascii "version", ascii "description",
      ascii "permissions", ascii "api"].Nodup := by decide
    exact htable
  have hrequests := settle_requests m.permissions
  rw [settleItems_eq] at hrequests
  rw [settle_obj (fun e he => hscalar _ (List.mem_map_of_mem he)) hkeys]
  simp only [Manifest.document, Manifest.settled, List.map_cons, List.map_nil, settle, settleItems_eq,
    hrequests]

theorem settled_permissions (m : Manifest) : getL (ascii "permissions") m.settled =
    some (.arr (m.permissions.map fun r =>
      .obj [(ascii "name", .str (merge r.name)), (ascii "why", .str (merge r.why))])) := by
  simp only [Manifest.settled, getL, show ascii "name" ≠ ascii "permissions" by decide,
    show ascii "title" ≠ ascii "permissions" by decide,
    show ascii "version" ≠ ascii "permissions" by decide,
    show ascii "description" ≠ ascii "permissions" by decide, if_false, if_true]

theorem settled_api (m : Manifest) : getL (ascii "api") m.settled = some (.arr (m.api.map settle)) := by
  simp only [Manifest.settled, getL, show ascii "name" ≠ ascii "api" by decide,
    show ascii "title" ≠ ascii "api" by decide, show ascii "version" ≠ ascii "api" by decide,
    show ascii "description" ≠ ascii "api" by decide,
    show ascii "permissions" ≠ ascii "api" by decide, if_false, if_true]

/-- **What was written and read back parses, and asks for the same permissions.** -/
theorem asked_reparse (h : Kept m) :
    ∃ m', parseManifest W (.value (settle (.obj m.document))) = .ok m' ∧ m'.asked = m.asked := by
  have hname : merge m.name = m.name := merge_scalars (scalar_isName h.name)
  obtain ⟨ps, hps, hnames⟩ := @readRequests_settled W m.permissions [] [] h.known h.nodup
  have hobjects : ∀ v ∈ m.api.map settle, isObject v = true := by
    intro v hv
    obtain ⟨u, hu, rfl⟩ := List.mem_map.mp hv
    have hobj := h.objects u hu
    match u, hobj with
    | .obj members, _ => rw [settle]; rfl
  have hpermissions : parsePermissions W m.settled = .ok ps := by
    unfold parsePermissions
    rw [settled_permissions]
    dsimp only [Option.getD_some]
    rw [if_neg (by rw [List.length_map]; exact Nat.not_lt.mpr h.few), hps]
    rfl
  have hapi : parseApi m.settled = .ok (m.api.map settle) := by
    unfold parseApi
    rw [settled_api]
    dsimp only [Option.getD_some]
    rw [if_neg (by rw [List.length_map]; exact Nat.not_lt.mpr h.api),
      List.filter_eq_self.mpr hobjects]
  have hget : getL (ascii "name") m.settled = some (.str m.name) := by
    rw [Manifest.settled, getL, if_pos rfl, hname]
  have hparse : ∃ m', parseMembers W m.settled = .ok m' ∧ m'.permissions = ps := by
    unfold parseMembers
    rw [hget]
    dsimp only
    rw [if_neg (not_not.mpr h.name), hpermissions, hapi]
    exact ⟨_, rfl, rfl⟩
  obtain ⟨m', hm', hperms⟩ := hparse
  refine ⟨m', ?_, by rw [Manifest.asked, hperms, hnames]; rfl⟩
  rw [settle_document]
  exact hm'

end NMesh.Perms.Parse
