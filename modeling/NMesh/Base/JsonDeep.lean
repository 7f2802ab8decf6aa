import NMesh.Base.JsonTakes

/-! # Where the reader gives up

Python's reader follows an object or an array only so deep: one bracket further it raises an error of its own,
whatever the rest of the text is. `tooDeep` says that it comes to such a bracket; a text that is read
has none (`not_tooDeep`). -/

namespace NMesh.Base.JsonDeep

open Base.Utf8 Base.JsonText Base.JsonTakes

variable (floatRepr : Text → Text)

mutual

/-- Does a value that starts here come to a bracket that is too deep? -/
def deepValue : ℕ → ℕ → Text → Bool
  | 0, _, _ => false
  | _ + 1, _, [] => false
  | fuel + 1, depth, c :: rest =>
    if c = 0x7B then
      match depth with
      | 0 => true
      | depth + 1 =>
        match expect [0x7D] (skip rest) with
        | some _ => false
        | none => deepMembers fuel depth (skip rest)
    else if c = 0x5B then
      match depth with
      | 0 => true
      | depth + 1 =>
        match expect [0x5D] (skip rest) with
        | some _ => false
        | none => deepItems fuel depth (skip rest)
    else false

/-- The same of the members of an object. -/
def deepMembers : ℕ → ℕ → Text → Bool
  | 0, _, _ => false
  | fuel + 1, depth, text =>
    match expect [0x22] text with
    | none => false
    | some rest =>
      match readString rest.length rest with
      | none => false
      | some (_, rest) =>
        match expect [0x3A] (skip rest) with
        | none => false
        | some rest =>
          deepValue fuel depth (skip rest) ||
            match readValue floatRepr fuel depth (skip rest) with
            | none => false
            | some (_, rest) =>
              match expect [0x2C] (skip rest) with
              | some rest => deepMembers fuel depth (skip rest)
              | none => false

/-- The same of the items of an array. -/
def deepItems : ℕ → ℕ → Text → Bool
  | 0, _, _ => false
  | fuel + 1, depth, text =>
    deepValue fuel depth text ||
      match readValue floatRepr fuel depth text with
      | none => false
      | some (_, rest) =>
        match expect [0x2C] (skip rest) with
        | some rest => deepItems fuel depth (skip rest)
        | none => false

end

/-- `json.loads(text)` raises a RecursionError. -/
def tooDeep (depth : ℕ) (text : Text) : Bool :=
  deepValue floatRepr ((skip text).length + 1) depth (skip text)

variable {floatRepr}

variable (floatRepr) in
/-- Does the reader of a part come to a bracket that is too deep? -/
def deepPart (fuel depth : ℕ) : Part → Text → Bool
  | .value => deepValue floatRepr fuel depth
  | .members _ => deepMembers floatRepr fuel depth
  | .items _ => deepItems floatRepr fuel depth

theorem not_deep {n depth : ℕ} {part : Part} {text rest : Text} {v : Json}
    (h : Takes floatRepr n depth part text v rest) : deepPart floatRepr n depth part text = false := by
  induction h with
  | string _ => rfl
  | noMembers hclose =>
    rw [deepPart]
    unfold deepValue
    rw [if_pos rfl]
    dsimp only
    rw [hclose, expect_mark]
  | object h ih =>
    obtain ⟨tail, htail⟩ := h.members_head
    rw [deepPart]
    unfold deepValue
    rw [if_pos rfl]
    dsimp only
    rw [htail, expect_ne (by decide), ← htail]
    exact ih
  | noItems hclose =>
    rw [deepPart]
    unfold deepValue
    rw [if_neg (by decide), if_pos rfl]
    dsimp only
    rw [hclose, expect_mark]
  | array hopen _ ih =>
    rw [deepPart]
    unfold deepValue
    rw [if_neg (by decide), if_pos rfl]
    dsimp only
    rw [expect_none hopen]
    exact ih
  | plain hc _ =>
    rw [deepPart]
    unfold deepValue
    rw [if_neg hc.2.1, if_neg hc.2.2]
  | member hkey hcolon hvalue hcomma _ ihv ih =>
    rw [deepPart] at ihv
    rw [deepPart, deepMembers, expect_mark]
    dsimp only
    rw [hkey]
    dsimp only
    rw [hcolon, expect_mark]
    dsimp only
    rw [ihv, Bool.false_or, hvalue.readValue le_rfl]
    dsimp only
    rw [hcomma, expect_mark]
    exact ih
  | lastMember hkey hcolon hvalue hclose ihv =>
    rw [deepPart] at ihv
    rw [deepPart, deepMembers, expect_mark]
    dsimp only
    rw [hkey]
    dsimp only
    rw [hcolon, expect_mark]
    dsimp only
    rw [ihv, Bool.false_or, hvalue.readValue le_rfl]
    dsimp only
    rw [hclose, expect_ne (by decide)]
  | item hvalue hcomma _ ihv ih =>
    rw [deepPart] at ihv
    rw [deepPart, deepItems, ihv, Bool.false_or, hvalue.readValue le_rfl]
    dsimp only
    rw [hcomma, expect_mark]
    exact ih
  | lastItem hvalue hclose ihv =>
    rw [deepPart] at ihv
    rw [deepPart, deepItems, ihv, Bool.false_or, hvalue.readValue le_rfl]
    dsimp only
    rw [hclose, expect_ne (by decide)]

theorem not_tooDeep {depth : ℕ} {text : Text} {v : Json} (h : loads floatRepr depth text = some v) :
    tooDeep floatRepr depth text = false := by
  unfold loads at h
  split at h
  next value rest hread => exact not_deep (takes_of_readValue hread)
  next => cases h

/-! ### A reader that could go deeper -/

variable (floatRepr) in
/-- Two limits are one to a value that comes to no bracket too deep. -/
def Alike (fuel d d' : ℕ) (text : Text) : Prop :=
  readValue floatRepr fuel d' text = readValue floatRepr fuel d text ∧ deepValue floatRepr fuel d' text = false

mutual

theorem alike_value : ∀ (fuel : ℕ) {d d' : ℕ} {text : Text}, d ≤ d' →
    deepValue floatRepr fuel d text = false → Alike floatRepr fuel d d' text
  | 0, _, _, _, _, _ => ⟨rfl, rfl⟩
  | _ + 1, _, _, [], _, _ => ⟨rfl, rfl⟩
  | fuel + 1, d, d', c :: text, hle, h => by
    unfold Alike readValue
    unfold deepValue at h ⊢
    by_cases hquote : c = 0x22
    · rw [if_pos hquote, if_pos hquote]
      refine ⟨rfl, ?_⟩
      rw [if_neg (by omega), if_neg (by omega)]
    · rw [if_neg hquote, if_neg hquote]
      by_cases hbrace : c = 0x7B
      · rw [if_pos hbrace] at h ⊢
        rw [if_pos hbrace, if_pos hbrace]
        match d, d', hle, h with
        | d + 1, d' + 1, hle, h =>
          dsimp only at h ⊢
          cases hexpect : expect [0x7D] (skip text) with
          | some rest' => exact ⟨rfl, rfl⟩
          | none =>
            rw [hexpect] at h
            obtain ⟨hread, hdeep⟩ := alike_members fuel (Nat.le_of_succ_le_succ hle) h
            exact ⟨hread [], hdeep⟩
      · rw [if_neg hbrace] at h ⊢
        rw [if_neg hbrace, if_neg hbrace]
        by_cases hbracket : c = 0x5B
        · rw [if_pos hbracket] at h ⊢
          rw [if_pos hbracket, if_pos hbracket]
          match d, d', hle, h with
          | d + 1, d' + 1, hle, h =>
            dsimp only at h ⊢
            cases hexpect : expect [0x5D] (skip text) with
            | some rest' => exact ⟨rfl, rfl⟩
            | none =>
              rw [hexpect] at h
              obtain ⟨hread, hdeep⟩ := alike_items fuel (Nat.le_of_succ_le_succ hle) h
              exact ⟨hread [], hdeep⟩
        · rw [if_neg hbracket, if_neg hbracket, if_neg hbracket]
          exact ⟨rfl, rfl⟩

theorem alike_members : ∀ (fuel : ℕ) {d d' : ℕ} {text : Text}, d ≤ d' →
    deepMembers floatRepr fuel d text = false →
    (∀ before, readMembers floatRepr fuel d' before text = readMembers floatRepr fuel d before text) ∧
      deepMembers floatRepr fuel d' text = false
  | 0, _, _, _, _, _ => ⟨fun _ => rfl, rfl⟩
  | fuel + 1, d, d', text, hle, h => by
    unfold readMembers
    rw [deepMembers] at h ⊢
    cases hquote : expect [0x22] text with
    | none => exact ⟨fun _ => rfl, rfl⟩
    | some rest₁ =>
      rw [hquote] at h
      dsimp only at h ⊢
      cases hkey : readString rest₁.length rest₁ with
      | none => exact ⟨fun _ => rfl, rfl⟩
      | some read =>
        obtain ⟨key, rest₂⟩ := read
        rw [hkey] at h
        dsimp only at h ⊢
        cases hcolon : expect [0x3A] (skip rest₂) with
        | none => exact ⟨fun _ => rfl, rfl⟩
        | some rest₃ =>
          rw [hcolon] at h
          dsimp only at h ⊢
          rw [Bool.or_eq_false_iff] at h
          obtain ⟨hread, hdeep⟩ := alike_value fuel hle h.1
          rw [hread, hdeep, Bool.false_or]
          have hnext := h.2
          cases hvalue : readValue floatRepr fuel d (skip rest₃) with
          | none => exact ⟨fun _ => rfl, rfl⟩
          | some read =>
            obtain ⟨value, rest₄⟩ := read
            rw [hvalue] at hnext
            dsimp only at hnext ⊢
            cases hcomma : expect [0x2C] (skip rest₄) with
            | none => exact ⟨fun _ => by cases expect [0x7D] (skip rest₄) <;> rfl, rfl⟩
            | some rest₅ =>
              rw [hcomma] at hnext
              obtain ⟨hmembers, hdeep'⟩ := alike_members fuel hle hnext
              exact ⟨fun _ => hmembers _, hdeep'⟩

theorem alike_items : ∀ (fuel : ℕ) {d d' : ℕ} {text : Text}, d ≤ d' →
    deepItems floatRepr fuel d text = false →
    (∀ before, readItems floatRepr fuel d' before text = readItems floatRepr fuel d before text) ∧
      deepItems floatRepr fuel d' text = false
  | 0, _, _, _, _, _ => ⟨fun _ => rfl, rfl⟩
  | fuel + 1, d, d', text, hle, h => by
    unfold readItems
    rw [deepItems, Bool.or_eq_false_iff] at h
    rw [deepItems]
    obtain ⟨hread, hdeep⟩ := alike_value fuel hle h.1
    rw [hread, hdeep, Bool.false_or]
    have hnext := h.2
    cases hvalue : readValue floatRepr fuel d text with
    | none => exact ⟨fun _ => rfl, rfl⟩
    | some read =>
      obtain ⟨value, rest₄⟩ := read
      rw [hvalue] at hnext
      dsimp only at hnext ⊢
      cases hcomma : expect [0x2C] (skip rest₄) with
      | none => exact ⟨fun _ => by cases expect [0x5D] (skip rest₄) <;> rfl, rfl⟩
      | some rest₅ =>
        rw [hcomma] at hnext
        obtain ⟨hitems, hdeep'⟩ := alike_items fuel hle hnext
        exact ⟨fun _ => hitems _, hdeep'⟩

end

/-- **A text with no bracket too deep** is read alike by a reader that could go deeper, and has none for
it. -/
theorem loads_deeper {depth depth' : ℕ} {text : Text} (hle : depth ≤ depth')
    (h : tooDeep floatRepr depth text = false) :
    loads floatRepr depth' text = loads floatRepr depth text ∧ tooDeep floatRepr depth' text = false := by
  obtain ⟨hread, hdeep⟩ := alike_value _ hle h
  refine ⟨?_, hdeep⟩
  unfold loads
  rw [hread]

end NMesh.Base.JsonDeep
