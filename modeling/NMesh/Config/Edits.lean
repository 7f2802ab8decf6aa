import NMesh.Base.Chars
import NMesh.Base.JsonText
import NMesh.Directory.PseudoDir

/-! # Edits of the configuration

The console hands over a form of settings, and each is checked by the parser of its setting. An edit that is refused
leaves the others alone, but a parser may also raise a `ValueError`, and then none of the form is applied: `apply_edits`
returns, and returns what it should, exactly if no edit is such a one (`form_stands`). -/

namespace NMesh.Config.Edits

open Base.Utf8 Base.Ordered Base.Chars Base.JsonText

/-- What Python says of a text: `str.lower`, the decimal digits, `int`, and the Unicode database; why a name can be
none, and `str` of a list or an object, none where it raises. -/
structure World where
  chars : Characters
  lower : Text → Text
  decimal : ℕ → Bool
  toInt : Text → Option ℤ
  unicode : Directory.Name.Unicode
  pseudoError : Text → Text
  str : Json → Option Text

/-- A few digits are a number. -/
structure Lawful (W : World) : Prop where
  digits : ∀ text, text ≠ [] → text.length ≤ 5 → text.all W.decimal = true → (W.toInt text).isSome = true

/-- A setting's value; `other` is one that no edit writes. -/
inductive Value (α : Type)
  | none
  | bool (b : Bool)
  | int (n : ℤ)
  | text (s : Text)
  | other (a : α)

/-- A value, the text of a `ConfigError`, or another error. -/
inductive Parsed (α : Type)
  | ok (v : Value α)
  | refused (why : Text)
  | raises

def maxValue : ℕ := 1024

/-! ### The parsers -/

section Code

variable {α : Type} (W : World)

/-- A whole number within bounds, or a `ConfigError`. -/
def number (low high : ℤ) (unread outside : String) (raw : Text) : Parsed α :=
  match W.toInt (strip W.chars raw) with
  | none => .refused (ascii unread)
  | some n => if low ≤ n ∧ n ≤ high then .ok (.int n) else .refused (ascii outside)

/-- A whole number within bounds, or a `ValueError`. -/
def looseNumber (low high : ℤ) (raw : Text) : Parsed α :=
  match W.toInt (strip W.chars raw) with
  | none => .raises
  | some n => if low ≤ n ∧ n ≤ high then .ok (.int n) else .raises

def asBool (raw : Text) : Parsed α :=
  let lowered := W.lower (strip W.chars raw)
  if lowered ∈ [ascii "1", ascii "true", ascii "yes", ascii "on"] then .ok (.bool true)
  else if lowered ∈ [ascii "0", ascii "false", ascii "no", ascii "off"] then .ok (.bool false)
  else .refused (ascii "expected true or false")

def asPort : Text → Parsed α :=
  number W 1 65535 "expected a port number" "port must be between 1 and 65535"

def asBalance : Text → Parsed α :=
  number W 0 100 "expected a whole number between 0 and 100" "balance must be between 0 and 100"

def asPercent : Text → Parsed α :=
  number W 1 100 "expected a whole number between 1 and 100" "must be between 1 and 100"

def asSkew : Text → Parsed α :=
  number W 1 10000 "expected a number of milliseconds" "must be between 1 and 10000 milliseconds"

def asKeepaliveMs : Text → Parsed α :=
  number W 50 600000 "expected a number of milliseconds" "must be between 50 and 600000 milliseconds"

def asOptionalPort (raw : Text) : Parsed α := if strip W.chars raw = [] then .ok .none else asPort W raw

/-- `[A-Za-z0-9._:\[\]-]` -/
def isHostChar (c : ℕ) : Bool :=
  isDigit c ∨ 0x41 ≤ c ∧ c ≤ 0x5A ∨ 0x61 ≤ c ∧ c ≤ 0x7A ∨ c ∈ ascii "._:[]-"

def splitPort (value : Text) : Text × Text :=
  ((value.rdropWhile (· ≠ 0x3A)).dropLast, value.rtakeWhile (· ≠ 0x3A))

def isHost (value : Text) : Bool := 1 ≤ value.length ∧ value.length ≤ 255 ∧ value.all isHostChar

/-- `_ADDR_RE.match(value)` -/
def isAddr (value : Text) : Bool :=
  0x3A ∈ value ∧ isHost (splitPort value).1 ∧ (splitPort value).2 ≠ [] ∧ (splitPort value).2.length ≤ 5 ∧
    (splitPort value).2.all W.decimal

def dropScheme (scheme : String) (value : Text) : Text :=
  if (ascii scheme).isPrefixOf value then value.drop (ascii scheme).length else value

def asListen (raw : Text) : Parsed α :=
  let value := dropScheme "tcp://" (strip W.chars raw)
  if isAddr W value then
    match W.toInt (splitPort value).2 with
    | none => .raises
    | some n =>
      if 1 ≤ n ∧ n ≤ 65535 then .ok (.text value) else .refused (ascii "port must be between 1 and 65535")
  else .refused (ascii "expected host:port")

def asVeilListen (raw : Text) : Parsed α := asListen W (dropScheme "veil://" (strip W.chars raw))

def asHost (raw : Text) : Parsed α :=
  if isHost (strip W.chars raw) then .ok (.text (strip W.chars raw))
  else .refused (ascii "not a valid host name or address")

def asPseudo (raw : Text) : Parsed α :=
  if strip W.chars raw = [] then .ok (.text [])
  else
    match Directory.Name.canonical W.unicode (strip W.chars raw) with
    | some name => .ok (.text name)
    | none => .refused (W.pseudoError (strip W.chars raw))

def asQuorum : Text → Parsed α := looseNumber W 0 32

def asCheckMinutes : Text → Parsed α := looseNumber W 0 10080

def asRouteHold : Text → Parsed α := looseNumber W 0 1440

def asLeafSize : Text → Parsed α := looseNumber W 2 32

def asFingerLinks : Text → Parsed α := looseNumber W 1 4

def asLinkIdle : Text → Parsed α := looseNumber W 0 1440

def languages : List Text := [ascii "en", ascii "fr", ascii "de", ascii "ru", ascii "zh", ascii "pl", ascii "sk"]

def asLanguage (raw : Text) : Parsed α :=
  let value := W.lower (strip W.chars raw)
  if value ≠ [] ∧ value ∉ languages then
    .refused (ascii "not a shipped language (" ++ List.intercalate (ascii ", ") languages ++ ascii ")")
  else .ok (.text value)

/-- `_BRANCH_RE.match(value)` -/
def isBranch : Text → Bool
  | [] => false
  | c :: rest =>
    let isAlnum (c : ℕ) : Bool := isDigit c ∨ 0x41 ≤ c ∧ c ≤ 0x5A ∨ 0x61 ≤ c ∧ c ≤ 0x7A
    isAlnum c ∧ rest.length ≤ 99 ∧ rest.all fun c => isAlnum c ∨ c ∈ ascii "._/-"

def asBranch (raw : Text) : Parsed α :=
  let value := strip W.chars raw
  if value = [] then .ok (.text [])
  else if isBranch value = false ∨ value.tails.any (ascii "..").isPrefixOf ∨ (ascii "/").isSuffixOf value ∨
      (ascii ".lock").isSuffixOf value then .refused (ascii "not a usable branch name")
  else .ok (.text value)

def asPath (raw : Text) : Parsed α :=
  let value := strip W.chars raw
  if value = [] then .ok .none
  else if 0 ∈ value ∨ maxValue < value.length then .refused (ascii "not a usable path")
  else .ok (.text value)

inductive Parser
  | bool
  | port
  | balance
  | percent
  | skew
  | keepaliveMs
  | optionalPort
  | listen
  | veilListen
  | host
  | pseudo
  | quorum
  | checkMinutes
  | routeHold
  | leafSize
  | fingerLinks
  | linkIdle
  | language
  | branch
  | path
deriving DecidableEq

def Parser.parse : Parser → Text → Parsed α
  | bool => asBool W
  | port => asPort W
  | balance => asBalance W
  | percent => asPercent W
  | skew => asSkew W
  | keepaliveMs => asKeepaliveMs W
  | optionalPort => asOptionalPort W
  | listen => asListen W
  | veilListen => asVeilListen W
  | host => asHost W
  | pseudo => asPseudo W
  | quorum => asQuorum W
  | checkMinutes => asCheckMinutes W
  | routeHold => asRouteHold W
  | leafSize => asLeafSize W
  | fingerLinks => asFingerLinks W
  | linkIdle => asLinkIdle W
  | language => asLanguage W
  | branch => asBranch W
  | path => asPath W

/-- `SETTINGS`: each setting's parser, and none where the console may not write it. -/
def settings : List (Text × Option Parser) :=
  [(ascii "listen", some .listen), (ascii "udp", some .port), (ascii "no_udp", some .bool),
    (ascii "stun", some .bool), (ascii "punch_keepalive", some .bool), (ascii "lan_discovery", some .bool),
    (ascii "transport_balance", some .balance), (ascii "dynamic_address", some .bool),
    (ascii "route_hold_minutes", some .routeHold), (ascii "leaf_size", some .leafSize),
    (ascii "finger_links", some .fingerLinks), (ascii "link_idle_minutes", some .linkIdle),
    (ascii "mlo_always", some .bool), (ascii "mlo_skew_ms", some .skew), (ascii "mlo_drop_percent", some .percent),
    (ascii "keepalive_fast_min_ms", some .keepaliveMs), (ascii "keepalive_fast_max_ms", some .keepaliveMs),
    (ascii "keepalive_slow_min_ms", some .keepaliveMs), (ascii "keepalive_slow_max_ms", some .keepaliveMs),
    (ascii "veil", some .veilListen), (ascii "spool", some .path), (ascii "console_host", some .host),
    (ascii "console_port", some .port), (ascii "connector_port", some .optionalPort), (ascii "pseudo", some .pseudo),
    (ascii "dht_max_mb", none), (ascii "abuse_suspect", none), (ascii "abuse_hostile", none),
    (ascii "abuse_halflife", none), (ascii "no_abuse_gossip", some .bool), (ascii "release_quorum", some .quorum),
    (ascii "release_auto_publish", some .bool), (ascii "update_check_minutes", some .checkMinutes),
    (ascii "update_when_active", some .bool), (ascii "recommend_version", some .bool),
    (ascii "update_branch", some .branch), (ascii "language", some .language), (ascii "no_chat", some .bool),
    (ascii "fleet", some .bool), (ascii "no_tls", some .bool), (ascii "data", none), (ascii "launch", none)]

/-! ### Edits -/

/-- A value as text: `str` of an integer of more than 4300 digits raises. -/
def textOf : Json → Option Text
  | .null => some []
  | .bool b => some (ascii (if b then "true" else "false"))
  | .int n => if (digits n.natAbs).length ≤ maxDigits then some (dumpInt n) else none
  | .float repr => some repr
  | .str s => some s
  | raw => W.str raw

/-- `validate(name, raw)` -/
def validate (name : Text) (raw : Json) : Parsed α :=
  match getL name settings with
  | none => .refused (ascii "unknown setting")
  | some none => .refused (ascii "this setting is not editable from the console")
  | some (some parser) =>
    match textOf W raw with
    | none => .raises
    | some text =>
      if maxValue < text.length then .refused (ascii "value too long")
      else if 0x0A ∈ text ∨ 0x0D ∈ text then .refused (ascii "a value cannot span two lines")
      else parser.parse W text

/-- An edit: a name, none if it is not text, and a value. -/
abbrev Edit := Option Text × Json

def keyOf (name : Text) : Text := (W.lower (strip W.chars name)).map fun c => if c = 0x2D then 0x5F else c

/-- What an edit comes to, and the message if it is refused. -/
def applyEdit (at' : Dict Text (Value α) × List Text) (e : Edit) : Option (Dict Text (Value α) × List Text) :=
  match e.1 with
  | none => some (at'.1, at'.2 ++ [ascii "a setting name that is not text"])
  | some name =>
    match validate W (keyOf W name) e.2 with
    | .ok v => some (at'.1.set (keyOf W name) v, at'.2)
    | .refused why => some (at'.1, at'.2 ++ [(keyOf W name).take 40 ++ (ascii ": " ++ why)])
    | .raises => none

/-- `apply_edits(current, edits)`, no edits where they are no object; `none` where it raises. -/
def applyEdits (current : Dict Text (Value α)) :
    Option (List Edit) → Option (Dict Text (Value α) × List Text)
  | none => some (current, [ascii "the request carried no settings"])
  | some edits => (edits.take settings.length).foldlM (applyEdit W) (current, [])

/-! ### What should come of them -/

/-- The value that an edit has for a setting, if it is accepted. -/
def accepted (key : Text) (e : Edit) : Option (Value α) :=
  e.1.bind fun name =>
    if keyOf W name = key then
      match validate W key e.2 with
      | .ok v => some v
      | _ => none
    else none

/-- The message about an edit, if it is refused: it begins with its setting's name. -/
def refusal (α : Type) (e : Edit) : Option Text :=
  match e.1 with
  | none => some (ascii "a setting name that is not text")
  | some name =>
    match (validate W (keyOf W name) e.2 : Parsed α) with
    | .refused why => some ((keyOf W name).take 40 ++ (ascii ": " ++ why))
    | _ => none

/-- **What the edits should leave**: the last value that was accepted for a setting, or the current one; and a message
about each edit that was refused. -/
structure Right (current : Dict Text (Value α)) (edits : List Edit) (merged : Dict Text (Value α))
    (rejected : List Text) : Prop where
  values : ∀ key, merged.get? key = (edits.reverse.findSome? (accepted W key)).or (current.get? key)
  messages : rejected = edits.filterMap (refusal W α)

/-- The settings whose parser lets a `ValueError` out, and the numbers it takes. -/
def loose : List (Text × ℤ × ℤ) :=
  [(ascii "route_hold_minutes", 0, 1440), (ascii "leaf_size", 2, 32), (ascii "finger_links", 1, 4),
    (ascii "link_idle_minutes", 0, 1440), (ascii "release_quorum", 0, 32), (ascii "update_check_minutes", 0, 10080)]

/-- **An edit that breaks the form**: of a setting that may be edited, with an integer too long to write; or of one of
these six, with a short text on one line that is no whole number within the bounds. -/
def Breaks (e : Edit) : Prop :=
  ∃ name, e.1 = some name ∧
    ((∃ parser, getL (keyOf W name) settings = some (some parser)) ∧ textOf W e.2 = none ∨
      ∃ low high text, getL (keyOf W name) loose = some (low, high) ∧ textOf W e.2 = some text ∧
        text.length ≤ maxValue ∧ 0x0A ∉ text ∧ 0x0D ∉ text ∧
        ∀ n, W.toInt (strip W.chars text) = some n → ¬ (low ≤ n ∧ n ≤ high))

/-! ### Which parsers raise -/

/-- The bounds of a parser that lets a `ValueError` out. -/
def Parser.span : Parser → Option (ℤ × ℤ)
  | quorum => some (0, 32)
  | checkMinutes => some (0, 10080)
  | routeHold => some (0, 1440)
  | leafSize => some (2, 32)
  | fingerLinks => some (1, 4)
  | linkIdle => some (0, 1440)
  | _ => none

theorem parse_of_span {p : Parser} {low high : ℤ} (h : p.span = some (low, high)) :
    (p.parse W : Text → Parsed α) = looseNumber W low high := by
  cases p <;> simp only [Parser.span, reduceCtorEq, Option.some.injEq, Prod.mk.injEq] at h <;>
    obtain ⟨rfl, rfl⟩ := h <;> rfl

theorem looseNumber_raises {low high : ℤ} {text : Text} :
    (looseNumber W low high text : Parsed α) = .raises ↔
      ∀ n, W.toInt (strip W.chars text) = some n → ¬ (low ≤ n ∧ n ≤ high) := by
  unfold looseNumber
  cases hn : W.toInt (strip W.chars text) with
  | none => simp
  | some n =>
    simp only [Option.some.injEq, forall_eq']
    split_ifs with hin
    · exact ⟨fun h => (by cases h), fun h => absurd hin h⟩
    · exact ⟨fun _ => hin, fun _ => rfl⟩

theorem number_ne_raises (low high : ℤ) (unread outside : String) (text : Text) :
    (number W low high unread outside text : Parsed α) ≠ .raises := by
  unfold number
  cases W.toInt (strip W.chars text) with
  | none => simp
  | some n => dsimp only; split_ifs <;> simp

theorem asListen_ne_raises (hW : Lawful W) (text : Text) : (asListen W text : Parsed α) ≠ .raises := by
  unfold asListen
  dsimp only
  split_ifs with haddr
  · -- an address ends in a few digits, and those are a number
    simp only [isAddr, decide_eq_true_eq] at haddr
    obtain ⟨n, hn⟩ := Option.isSome_iff_exists.mp (hW.digits _ haddr.2.2.1 haddr.2.2.2.1 haddr.2.2.2.2)
    rw [hn]
    dsimp only
    split_ifs <;> simp
  · simp

theorem parse_ne_raises (hW : Lawful W) {p : Parser} (h : p.span = none) (text : Text) :
    (p.parse W text : Parsed α) ≠ .raises := by
  cases p with
  | bool =>
    change asBool W text ≠ .raises
    unfold asBool
    dsimp only
    split_ifs <;> simp
  | port | balance | percent | skew | keepaliveMs => exact number_ne_raises W _ _ _ _ text
  | optionalPort =>
    change asOptionalPort W text ≠ .raises
    unfold asOptionalPort
    split_ifs
    · simp
    · exact number_ne_raises W _ _ _ _ text
  | listen => exact asListen_ne_raises W hW text
  | veilListen => exact asListen_ne_raises W hW _
  | host =>
    change asHost W text ≠ .raises
    unfold asHost
    split_ifs <;> simp
  | pseudo =>
    change asPseudo W text ≠ .raises
    unfold asPseudo
    split_ifs
    · simp
    · cases Directory.Name.canonical W.unicode (strip W.chars text) <;> simp
  | language =>
    change asLanguage W text ≠ .raises
    unfold asLanguage
    dsimp only
    split_ifs <;> simp
  | branch =>
    change asBranch W text ≠ .raises
    unfold asBranch
    dsimp only
    split_ifs <;> simp
  | path =>
    change asPath W text ≠ .raises
    unfold asPath
    dsimp only
    split_ifs <;> simp
  | quorum | checkMinutes | routeHold | leafSize | fingerLinks | linkIdle =>
    simp [Parser.span] at h

/-! ### Which edits break the form -/

theorem settings_nodup : (settings.map Prod.fst).Nodup := by decide

theorem loose_rows : ∀ row ∈ settings, getL row.1 loose = row.2.bind Parser.span := by decide

theorem loose_keys : ∀ key ∈ loose.map Prod.fst, key ∈ settings.map Prod.fst := by decide

theorem getL_loose (key : Text) : getL key loose = (getL key settings).bind fun p => p.bind Parser.span := by
  cases hrow : getL key settings with
  | none => exact getL_eq_none.mpr fun hk => getL_eq_none.mp hrow (loose_keys key hk)
  | some row => exact loose_rows _ ((getL_eq_some settings_nodup).mp hrow)

theorem validate_raises {key : Text} {raw : Json} :
    (validate W key raw : Parsed α) = .raises ↔ ∃ parser, getL key settings = some (some parser) ∧
      (textOf W raw = none ∨ ∃ text, textOf W raw = some text ∧ text.length ≤ maxValue ∧ 0x0A ∉ text ∧
        0x0D ∉ text ∧ (parser.parse W text : Parsed α) = .raises) := by
  unfold validate
  rcases hrow : getL key settings with _ | _ | parser
  · simp
  · simp
  · dsimp only
    cases htext : textOf W raw with
    | none => simp
    | some text =>
      dsimp only
      split_ifs with hlong hlines
      · simp [Nat.not_le.mpr hlong]
      · rcases hlines with h | h <;> simp [h]
      · rw [not_or] at hlines
        simp [Nat.not_lt.mp hlong, hlines]

/-- An edit breaks the form if its setting's value makes the parser raise. -/
theorem breaks_iff (hW : Lawful W) (e : Edit) :
    Breaks W e ↔ ∃ name, e.1 = some name ∧ (validate W (keyOf W name) e.2 : Parsed α) = .raises := by
  unfold Breaks
  refine exists_congr fun name => and_congr_right fun _ => ?_
  rw [validate_raises, getL_loose]
  constructor
  · rintro (⟨⟨parser, hrow⟩, htext⟩ | ⟨low, high, text, hspan, htext, hlen, hlf, hcr, hout⟩)
    · exact ⟨parser, hrow, .inl htext⟩
    · obtain ⟨_ | parser, hrow, hp⟩ := Option.bind_eq_some_iff.mp hspan
      · cases hp
      · have hp' : parser.span = some (low, high) := hp
        exact ⟨parser, hrow, .inr ⟨text, htext, hlen, hlf, hcr,
          by rw [parse_of_span W hp']; exact (looseNumber_raises W).mpr hout⟩⟩
  · rintro ⟨parser, hrow, htext | ⟨text, htext, hlen, hlf, hcr, hraises⟩⟩
    · exact .inl ⟨⟨parser, hrow⟩, htext⟩
    · cases hp : parser.span with
      | none => exact absurd hraises (parse_ne_raises W hW hp text)
      | some span =>
        rw [parse_of_span W hp] at hraises
        exact .inr ⟨span.1, span.2, text, by rw [hrow]; exact hp, htext, hlen, hlf, hcr,
          (looseNumber_raises W).mp hraises⟩

/-! ### One edit, and all of them -/

theorem applyEdit_eq_none {at' : Dict Text (Value α) × List Text} {e : Edit} :
    applyEdit W at' e = none ↔ ∃ name, e.1 = some name ∧
      (validate W (keyOf W name) e.2 : Parsed α) = .raises := by
  obtain ⟨_ | name, raw⟩ := e
  · simp [applyEdit]
  · unfold applyEdit
    dsimp only
    cases hv : (validate W (keyOf W name) raw : Parsed α) <;> simp [hv]

/-- **One edit**: it adds its value, or its message, and leaves the rest. -/
theorem applyEdit_spec {at' next : Dict Text (Value α) × List Text} {e : Edit}
    (h : applyEdit W at' e = some next) :
    (∀ key, next.1.get? key = (accepted W key e).or (at'.1.get? key)) ∧
      next.2 = at'.2 ++ (refusal W α e).toList := by
  obtain ⟨_ | name, raw⟩ := e
  · cases h
    exact ⟨fun key => rfl, rfl⟩
  · unfold applyEdit at h
    unfold accepted refusal
    dsimp only [Option.bind_some] at h ⊢
    cases hv : (validate W (keyOf W name) raw : Parsed α) with
    | raises => rw [hv] at h; cases h
    | refused why =>
      rw [hv] at h
      cases h
      refine ⟨fun key => ?_, rfl⟩
      split_ifs with hk
      · rw [← hk, hv]; rfl
      · rfl
    | ok v =>
      rw [hv] at h
      cases h
      refine ⟨fun key => ?_, by simp⟩
      rw [Dict.get?_set]
      split_ifs with hk
      · rw [← hk, hv]; rfl
      · rfl

theorem foldlM_applyEdit : ∀ (edits : List Edit) (at' : Dict Text (Value α) × List Text),
    (∀ e ∈ edits, ∀ at' : Dict Text (Value α) × List Text, applyEdit W at' e ≠ none) →
    ∃ next, edits.foldlM (applyEdit W) at' = some next ∧
      (∀ key, next.1.get? key = (edits.reverse.findSome? (accepted W key)).or (at'.1.get? key)) ∧
      next.2 = at'.2 ++ edits.filterMap (refusal W α)
  | [], at', _ => ⟨at', rfl, fun _ => rfl, by simp⟩
  | e :: edits, at', h => by
    obtain ⟨mid, hmid⟩ := Option.ne_none_iff_exists'.mp (h e List.mem_cons_self at')
    obtain ⟨next, hnext, hvals, hmsgs⟩ :=
      foldlM_applyEdit edits mid fun e' he' => h e' (List.mem_cons_of_mem _ he')
    obtain ⟨hval, hmsg⟩ := applyEdit_spec W hmid
    refine ⟨next, by rw [List.foldlM_cons, hmid]; exact hnext, fun key => ?_, ?_⟩
    · rw [hvals, hval, List.reverse_cons, List.findSome?_append, ← Option.or_assoc]
      cases haccepted : accepted (α := α) W key e <;> simp [haccepted]
    · rw [hmsgs, hmsg, List.append_assoc, List.filterMap_cons]
      cases refusal W α e <;> rfl

theorem foldlM_eq_none {edits : List Edit} {e : Edit} (he : e ∈ edits)
    (h : ∀ at' : Dict Text (Value α) × List Text, applyEdit W at' e = none) :
    ∀ at' : Dict Text (Value α) × List Text, edits.foldlM (applyEdit W) at' = none := by
  induction edits with
  | nil => cases he
  | cons first edits ih =>
    intro at'
    rw [List.foldlM_cons]
    rcases List.mem_cons.mp he with rfl | he
    · rw [h at']; rfl
    · cases applyEdit W at' first with
      | none => rfl
      | some mid => exact ih he mid

/-- **The form stands exactly if no edit breaks it**: then each setting has its last accepted value, or the one it
had, and every refused edit has its message. -/
theorem form_stands (hW : Lawful W) (current : Dict Text (Value α)) (edits : List Edit) :
    (∃ merged rejected, applyEdits W current (some edits) = some (merged, rejected) ∧
        Right W current (edits.take settings.length) merged rejected) ↔
      ∀ e ∈ edits.take settings.length, ¬ Breaks W e := by
  constructor
  · rintro ⟨merged, rejected, happly, -⟩ e he hbreaks
    have hnone : ∀ at' : Dict Text (Value α) × List Text, applyEdit W at' e = none := fun _ =>
      (applyEdit_eq_none W).mpr ((breaks_iff W hW e).mp hbreaks)
    have hraised : applyEdits W current (some edits) = none := foldlM_eq_none W he hnone (current, [])
    rw [hraised] at happly
    cases happly
  · intro h
    obtain ⟨next, hnext, hvals, hmsgs⟩ := foldlM_applyEdit W (edits.take settings.length) (current, [])
      fun e he at' hnone => h e he ((breaks_iff W hW e).mpr ((applyEdit_eq_none W).mp hnone))
    exact ⟨next.1, next.2, hnext, hvals, hmsgs⟩

/-- **Sending a form twice is sending it once**: the same edits raise again, or leave every setting as it is and
refuse what they refused. -/
theorem applied_twice (current : Dict Text (Value α)) (edits : Option (List Edit)) (key : Text) :
    ((applyEdits W current edits).bind fun first => applyEdits W first.1 edits).map (fun r => (r.1.get? key, r.2)) =
      (applyEdits W current edits).map fun r => (r.1.get? key, r.2) := by
  cases edits with
  | none => rfl
  | some edits =>
    show (((edits.take settings.length).foldlM (applyEdit W) (current, [])).bind fun first =>
      (edits.take settings.length).foldlM (applyEdit W) (first.1, [])).map _ =
        ((edits.take settings.length).foldlM (applyEdit W) (current, [])).map _
    by_cases h : ∀ e ∈ edits.take settings.length, ∀ at' : Dict Text (Value α) × List Text, applyEdit W at' e ≠ none
    · obtain ⟨first, hfirst, hvals, hmsgs⟩ := foldlM_applyEdit W _ (current, []) h
      obtain ⟨second, hsecond, hvals', hmsgs'⟩ := foldlM_applyEdit W _ (first.1, []) h
      rw [hfirst, Option.bind_some, hsecond, Option.map_some, Option.map_some, hmsgs, hmsgs', hvals', hvals,
        ← Option.or_assoc, Option.or_self]
    · push Not at h
      obtain ⟨e, he, at', hraises⟩ := h
      have hnone : ∀ at' : Dict Text (Value α) × List Text, applyEdit W at' e = none := fun _ =>
        (applyEdit_eq_none W).mpr ((applyEdit_eq_none W).mp hraises)
      rw [foldlM_eq_none W he hnone]
      rfl

end Code

/-- Python over ASCII, with no signs or underscores in a number. -/
def plainWorld : World where
  chars := asciiTables
  lower text := text.map fun c => if 0x41 ≤ c ∧ c ≤ 0x5A then c + 0x20 else c
  decimal := isDigit
  toInt text := if text ≠ [] ∧ text.all isDigit then some (ofDigits text) else none
  unicode := Directory.PseudoDir.plain
  pseudoError _ := ascii "not a valid name"
  str _ := none

theorem plainWorld_lawful : Lawful plainWorld :=
  ⟨fun text hne _ hall => by simp only [plainWorld] at hall ⊢; rw [if_pos ⟨hne, hall⟩]; rfl⟩

/-- A form with a value that is taken, and two that are refused. -/
def sampleEdits : List Edit :=
  [(some (ascii "No-UDP"), .str (ascii "yes")), (some (ascii "udp"), .int 70000), (some (ascii "launch"), .null)]

theorem form_stands_sample : ∃ merged rejected,
    applyEdits plainWorld (Dict.empty : Dict Text (Value Empty)) (some sampleEdits) = some (merged, rejected) ∧
      Right plainWorld Dict.empty (sampleEdits.take settings.length) merged rejected :=
  (form_stands plainWorld plainWorld_lawful Dict.empty sampleEdits).mpr fun e he hbreaks => by
    obtain ⟨name, hname, hraises⟩ := (breaks_iff (α := Empty) plainWorld plainWorld_lawful e).mp hbreaks
    have hstands : applyEdit plainWorld ((Dict.empty : Dict Text (Value Empty)), []) e ≠ none := by
      rcases List.mem_cons.mp he with rfl | he
      · exact Option.some_ne_none _
      · rcases List.mem_cons.mp he with rfl | he
        · exact Option.some_ne_none _
        · obtain rfl := List.mem_singleton.mp he
          exact Option.some_ne_none _
    exact hstands ((applyEdit_eq_none plainWorld).mpr ⟨name, hname, hraises⟩)

/-- A leaf size that is no number takes the other setting of the form down with it. -/
theorem one_field_takes_the_form_down :
    applyEdits plainWorld (Dict.empty : Dict Text (Value Empty))
      (some [(some (ascii "leaf_size"), .str (ascii "many")), (some (ascii "no_udp"), .str (ascii "true"))]) =
        none := rfl

end NMesh.Config.Edits
