import NMesh.Base.JsonNesting

/-! # Frames of the control channel

A request and a reply are JSON documents. Before a frame is parsed, its brackets are counted over the
bytes (`shallowEnough`), so that the parser is never led deeper than `MAX_NESTING`; both sides check
the size, count, decode and only then parse (`readable`).

`shallowEnough_iff`: the loop accepts exactly the bytes whose count stays within the limit. With what the
count says of the reader and of the grammar, `never_deep`. -/

namespace NMesh.Control.Frame

open Base.BigEndian Base.Utf8 Base.JsonText Base.JsonDeep Base.JsonNesting
open Base.JsonNesting.Count Base.Ordered

def maxFrame : ℕ := 24 * 1024

def maxReply : ℕ := 512 * 1024

def maxOp : ℕ := 64

def maxId : ℕ := 64

def maxParams : ℕ := 24

def maxNesting : ℕ := 24

/-! ### The count -/

/-- The loop of `_shallow_enough` over the bytes that are left. -/
def shallowFrom : ℤ → Bool → Bool → Bytes → Bool
  | _, _, _, [] => true
  | depth, inString, escaped, byte :: raw =>
    if inString then
      if escaped then shallowFrom depth inString false raw
      else if byte.toNat = 0x5C then shallowFrom depth inString true raw
      else if byte.toNat = 0x22 then shallowFrom depth false escaped raw
      else shallowFrom depth inString escaped raw
    else if byte.toNat = 0x22 then shallowFrom depth true escaped raw
    else if byte.toNat = 0x7B ∨ byte.toNat = 0x5B then
      if depth + 1 > maxNesting then false else shallowFrom (depth + 1) inString escaped raw
    else if byte.toNat = 0x7D ∨ byte.toNat = 0x5D then shallowFrom (depth - 1) inString escaped raw
    else shallowFrom depth inString escaped raw

def shallowEnough (raw : Bytes) : Bool := shallowFrom 0 false false raw

theorem shallowFrom_iff : ∀ (raw : Bytes) {depth : ℤ} {inString escaped : Bool}, depth ≤ maxNesting →
    (shallowFrom depth inString escaped raw = true ↔
      (⟨depth, inString, escaped⟩ : Count).peak (raw.map UInt8.toNat) ≤ maxNesting)
  | [], depth, inString, escaped, h => ⟨fun _ => h, fun _ => rfl⟩
  | byte :: raw, depth, inString, escaped, h => by
    have hpeak : ∀ s' : Count, (⟨depth, inString, escaped⟩ : Count).step byte.toNat = s' →
        ((⟨depth, inString, escaped⟩ : Count).peak ((byte :: raw).map UInt8.toNat) ≤ maxNesting ↔
          s'.peak (raw.map UInt8.toNat) ≤ maxNesting) := by
      rintro s' rfl
      show max depth _ ≤ _ ↔ _
      rw [max_le_iff]
      exact and_iff_right h
    unfold shallowFrom
    by_cases hin : inString = true
    · rw [if_pos hin]
      by_cases hesc : escaped = true
      · rw [if_pos hesc, hpeak ⟨depth, inString, false⟩ (by simp [step, hin, hesc])]
        exact shallowFrom_iff raw h
      · rw [if_neg hesc]
        by_cases hslash : byte.toNat = 0x5C
        · rw [if_pos hslash, hpeak ⟨depth, inString, true⟩ (by simp [step, hin, hesc, hslash])]
          exact shallowFrom_iff raw h
        · rw [if_neg hslash]
          by_cases hquote : byte.toNat = 0x22
          · rw [if_pos hquote, hpeak ⟨depth, false, escaped⟩ (by simp [step, hin, hesc, hquote])]
            exact shallowFrom_iff raw h
          · rw [if_neg hquote,
              hpeak ⟨depth, inString, escaped⟩ (by simp [step, hin, hesc, hslash, hquote])]
            exact shallowFrom_iff raw h
    · rw [if_neg hin]
      by_cases hquote : byte.toNat = 0x22
      · rw [if_pos hquote, hpeak ⟨depth, true, escaped⟩ (by simp [step, hin, hquote])]
        exact shallowFrom_iff raw h
      · rw [if_neg hquote]
        by_cases hopen : byte.toNat = 0x7B ∨ byte.toNat = 0x5B
        · rw [if_pos hopen,
            hpeak ⟨depth + 1, inString, escaped⟩ (by simp [step, hin, hquote, hopen])]
          by_cases hmax : depth + 1 > maxNesting
          · rw [if_pos hmax]
            have hrise := depth_le_peak (⟨depth + 1, inString, escaped⟩ : Count) (raw.map UInt8.toNat)
            constructor
            · intro hfalse
              cases hfalse
            · intro hle
              exact absurd (hrise.trans hle) (not_le.mpr hmax)
          · rw [if_neg hmax]
            exact shallowFrom_iff raw (not_lt.mp hmax)
        · rw [if_neg hopen]
          by_cases hclose : byte.toNat = 0x7D ∨ byte.toNat = 0x5D
          · rw [if_pos hclose,
              hpeak ⟨depth - 1, inString, escaped⟩ (by simp [step, hin, hquote, hopen, hclose])]
            exact shallowFrom_iff raw (by omega)
          · rw [if_neg hclose,
              hpeak ⟨depth, inString, escaped⟩ (by simp [step, hin, hquote, hopen, hclose])]
            exact shallowFrom_iff raw h

/-- **The loop accepts exactly the bytes whose count stays within the limit.** -/
theorem shallowEnough_iff (raw : Bytes) :
    shallowEnough raw = true ↔ (out 0).peak (raw.map UInt8.toNat) ≤ maxNesting :=
  shallowFrom_iff raw (by decide)

/-! ### Decoding -/

/-- What a channel hands over. -/
inductive Raw where
  | text (t : Text)
  | bytes (b : Bytes)
  | other

/-- `text.encode("utf-8", "replace")`: a surrogate becomes a question mark. -/
def encodeReplace (t : Text) : Bytes := t.flatMap fun c => if Scalar c then encodeChar c else [0x3F]

/-- The bytes of a frame, `none` for what is neither text nor bytes. -/
def Raw.data : Raw → Option Bytes
  | .text t => some (encodeReplace t)
  | .bytes b => some b
  | .other => none

/-- The messages of the checks before the parser. -/
structure Messages where
  no : String
  empty : String
  large : String
  bad : String

def readable (m : Messages) (limit : ℕ) (raw : Raw) : Except String Text :=
  match raw.data with
  | none => .error m.no
  | some data =>
    if data = [] then .error m.empty
    else if limit < data.length then .error m.large
    else if shallowEnough data = false then .error m.bad
    else
      match decodeUtf8 data with
      | none => .error m.bad
      | some text => .ok text

/-- What `json.loads` makes of the text, the interpreter following it `depth` deep; only an object is a
document. -/
def document (floatRepr : Text → Text) (depth : ℕ) (bad : String) (text : Text) :
    Except String (List (Text × Json)) :=
  match loads floatRepr depth text with
  | some (.obj members) => .ok members
  | _ => .error bad

def requestMessages : Messages := ⟨"no frame", "empty frame", "frame too large", "not a frame"⟩

def replyMessages : Messages := ⟨"no reply", "no reply", "reply too large", "not a reply"⟩

/-- `Request` -/
structure Request where
  op : Text
  params : List (Text × Json)
  id : Text

/-- `Reply` -/
structure Reply where
  ok : Bool
  result : List (Text × Json)
  code : Text
  error : Text
  detail : List (Text × Json)
  id : Text

/-- `_text` -/
def checkedText (value : Option Json) (limit : ℕ) (what : String) : Except String Text :=
  match value with
  | some (.str s) => if limit < s.length then .error (what ++ " is too long") else .ok s
  | _ => .error (what ++ " must be text")

/-- `version != VERSION`: a version is one as Python compares it. -/
def isVersion : Json → Bool
  | .int n => n = 1
  | .bool b => b
  | .float repr => repr = ascii "1.0"
  | _ => false

/-- The params of a request: absent and `null` are none at all. -/
def readParams (value : Option Json) : Except String (List (Text × Json)) :=
  match value.getD (.obj []) with
  | .null => .ok []
  | .obj params =>
    if maxParams < params.length then .error "too many params"
    else if params.any fun e => decide (maxOp < e.1.length) then .error "a param name that is not text"
    else .ok params
  | _ => .error "params must be a mapping"

def decodeRequest (floatRepr : Text → Text) (depth : ℕ) (raw : Raw) : Except String Request := do
  let text ← readable requestMessages maxFrame raw
  let members ← document floatRepr depth requestMessages.bad text
  if isVersion ((getL (ascii "v") members).getD (.int 1)) then
    let op ← checkedText (getL (ascii "op") members) maxOp "the operation"
    let id ← checkedText (some ((getL (ascii "id") members).getD (.str []))) maxId "the request id"
    let params ← readParams (getL (ascii "params") members)
    return { op := op, params := params, id := id }
  else .error "unsupported frame version"

def objectOr (value : Option Json) : List (Text × Json) :=
  match value with
  | some (.obj members) => members
  | _ => []

def decodeReply (floatRepr : Text → Text) (depth : ℕ) (raw : Raw) : Except String Reply := do
  let text ← readable replyMessages maxReply raw
  let members ← document floatRepr depth replyMessages.bad text
  let id := (((getL (ascii "id") members).bind Json.text?).filter fun s => s.length ≤ maxId).getD []
  match getL (ascii "ok") members with
  | some (.bool true) =>
    return { ok := true, result := objectOr (getL (ascii "result") members), code := [], error := [],
             detail := [], id := id }
  | _ =>
    let detail := objectOr (getL (ascii "detail") members)
    return { ok := false, result := [],
             code := ((getL (ascii "code") members).bind Json.text?).getD (ascii "failed"),
             error := (((getL (ascii "error") members).bind Json.text?).getD []).take 200,
             detail := if detail.length ≤ 8 then detail else [], id := id }

theorem readable_ok {m : Messages} {limit : ℕ} {raw : Raw} {text : Text}
    (h : readable m limit raw = .ok text) :
    ∃ data, raw.data = some data ∧ shallowEnough data = true ∧ decodeUtf8 data = some text := by
  unfold readable at h
  rcases hdata : raw.data with _ | data
  · rw [hdata] at h
    cases h
  · rw [hdata] at h
    dsimp only at h
    split_ifs at h with hempty hlarge hbad
    rcases htext : decodeUtf8 data with _ | text'
    · rw [htext] at h
      cases h
    · rw [htext] at h
      refine ⟨data, rfl, Bool.not_eq_false _ |>.mp hbad, ?_⟩
      rw [← Except.ok.inj h]
      exact htext

theorem readable_shallow (floatRepr : Text → Text) {m : Messages} {limit : ℕ} {raw : Raw} {text : Text}
    (h : readable m limit raw = .ok text) : tooDeep floatRepr maxNesting text = false := by
  obtain ⟨data, -, hshallow, htext⟩ := readable_ok h
  rw [shallowEnough_iff, peak_of_decode htext] at hshallow
  exact not_tooDeep_of_peak hshallow

theorem document_readable (floatRepr : Text → Text) {m : Messages} {limit depth : ℕ} {raw : Raw} {text : Text}
    (hdepth : maxNesting ≤ depth) (bad : String) (h : readable m limit raw = .ok text) :
    document floatRepr depth bad text = document floatRepr maxNesting bad text := by
  unfold document
  rw [(loads_deeper hdepth (readable_shallow floatRepr h)).1]

/-- **No frame leads the parser deep.** What the count accepts, a parser that reads the bytes, or the
text they encode, follows no deeper than the limit before it ends or fails, and one that could go deeper
does the same; so does what either side hands to its parser. A document of the grammar that is nested
within the limit, and a text that is read within it, are accepted. -/
theorem never_deep (floatRepr : Text → Text) (raw : Bytes) :
    (shallowEnough raw = true →
      tooDeep floatRepr maxNesting (raw.map UInt8.toNat) = false ∧
      ∀ text, decodeUtf8 raw = some text → ∀ depth, maxNesting ≤ depth →
        tooDeep floatRepr depth text = false ∧
        loads floatRepr depth text = loads floatRepr maxNesting text) ∧
    (∀ text, decodeUtf8 raw = some text → Document maxNesting text → shallowEnough raw = true) ∧
    (∀ text, decodeUtf8 raw = some text → (loads floatRepr maxNesting text).isSome = true →
      shallowEnough raw = true) ∧
    (∀ frame depth, maxNesting ≤ depth →
      decodeRequest floatRepr depth frame = decodeRequest floatRepr maxNesting frame ∧
      decodeReply floatRepr depth frame = decodeReply floatRepr maxNesting frame) ∧
    ∀ m limit frame text, readable m limit frame = .ok text → tooDeep floatRepr maxNesting text = false := by
  refine ⟨fun h => ⟨?_, fun text htext depth hdepth => ?_⟩, fun text htext hdoc => ?_, fun text htext hread => ?_,
    fun frame depth hdepth => ⟨?_, ?_⟩, fun m limit frame text h => readable_shallow floatRepr h⟩
  · exact not_tooDeep_of_peak ((shallowEnough_iff raw).mp h)
  · rw [shallowEnough_iff, peak_of_decode htext] at h
    obtain ⟨hread, hdeep⟩ := loads_deeper hdepth (@not_tooDeep_of_peak _ floatRepr _ h)
    exact ⟨hdeep, hread⟩
  · rw [shallowEnough_iff, peak_of_decode htext]
    exact peak_document hdoc
  · obtain ⟨v, hv⟩ := Option.isSome_iff_exists.mp hread
    rw [shallowEnough_iff, peak_of_decode htext]
    exact peak_of_loads hv
  · unfold decodeRequest
    rcases h : readable requestMessages maxFrame frame with e | text
    · rfl
    · simp only [bind, Except.bind]
      rw [document_readable floatRepr hdepth _ h]
  · unfold decodeReply
    rcases h : readable replyMessages maxReply frame with e | text
    · rfl
    · simp only [bind, Except.bind]
      rw [document_readable floatRepr hdepth _ h]

theorem never_deep_stray :
    tooDeep id maxNesting (([0x5D, 0x7D, 0x22, 0x5B, 0x5C, 0x22, 0x22, 0x5B] : Bytes).map UInt8.toNat) = false :=
  ((never_deep id [0x5D, 0x7D, 0x22, 0x5B, 0x5C, 0x22, 0x22, 0x5B]).1 (by decide)).1

end NMesh.Control.Frame
