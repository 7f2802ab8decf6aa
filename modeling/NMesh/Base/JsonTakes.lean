import NMesh.Base.JsonText

/-! # What the reader takes

The reader of `JsonText` as rules: one for each way through it, with the fuel it has. What it reads is exactly what the
rules take (`Takes.of_read`, `Takes.read`), so that what holds of all it reads is shown by induction on them. -/

namespace NMesh.Base.JsonTakes

open Base.Utf8 Base.Ordered Base.JsonText JsonText.Json

theorem skip_mark {c : ℕ} (hc : isBlank c = false) (rest : Text) : skip (c :: rest) = c :: rest := by
  rw [skip, List.dropWhile_cons_of_neg (by rw [hc]; decide)]

theorem expect_mark (c : ℕ) (rest : Text) : expect [c] (c :: rest) = some rest := by
  simp [expect]

theorem expect_ne {a b : ℕ} (h : a ≠ b) (word text : Text) : expect (a :: word) (b :: text) = none := by
  unfold expect
  rw [if_neg]
  simp [List.isPrefixOf, h]

theorem append_of_expect {word text rest : Text} (h : expect word text = some rest) : text = word ++ rest := by
  unfold expect at h
  split_ifs at h with hp
  obtain ⟨t, ht⟩ := List.isPrefixOf_iff_prefix.mp hp
  rw [← ht, List.drop_left' rfl] at h
  rw [← Option.some.inj h, ht]

theorem expect_none {c : ℕ} {text : Text} (h : ∀ rest, text ≠ c :: rest) : expect [c] text = none :=
  Option.eq_none_iff_forall_ne_some.mpr fun rest hrest => h rest (append_of_expect hrest)

/-! ### Strings -/

/-- **One escape that is read**, after its backslash: one character, one code, or a pair of surrogates. -/
inductive Escapes : Text → ℕ → Text → Prop
  | char {c d : ℕ} {rest : Text} (h : unescape c = some d) : Escapes (c :: rest) d rest
  | code {text rest : Text} {c : ℕ} (hcode : readHex4 text = some (c, rest))
      (hlast : isHigh c = true → ∀ more, expect [0x5C, 0x75] rest = some more →
        ∃ low last, readHex4 more = some (low, last) ∧ isLow low = false) : Escapes (0x75 :: text) c rest
  | pair {text more rest : Text} {high low : ℕ} (hcode : readHex4 text = some (high, 0x5C :: 0x75 :: more))
      (hhigh : isHigh high = true) (hlow : readHex4 more = some (low, rest)) (hpair : isLow low = true) :
      Escapes (0x75 :: text) (joined high low) rest

theorem Escapes.of_read {text rest : Text} {c : ℕ} (h : readEscape text = some (c, rest)) : Escapes text c rest := by
  cases text with
  | nil => cases h
  | cons d text =>
    rw [readEscape] at h
    split_ifs at h with hu
    · rw [hu]
      simp only [Option.bind_eq_bind, Option.bind_eq_some_iff, Prod.exists] at h
      obtain ⟨high, rest', hcode, h⟩ := h
      split at h
      next more hhigh hmore =>
        simp only [Option.bind_eq_some_iff, Prod.exists, Option.pure_def, Option.some.injEq] at h
        obtain ⟨low, last, hlow, h⟩ := h
        split_ifs at h with hpair
        · obtain ⟨rfl, rfl⟩ := Prod.mk.inj h
          rw [append_of_expect hmore] at hcode
          exact .pair hcode hhigh hlow hpair
        · obtain ⟨rfl, rfl⟩ := Prod.mk.inj h
          refine .code hcode fun _ more' hmore' => ⟨low, last, ?_, Bool.not_eq_true _ |>.mp hpair⟩
          rw [← Option.some.inj (hmore.symm.trans hmore'), hlow]
      next hno =>
        obtain ⟨rfl, rfl⟩ := Prod.mk.inj (Option.some.inj h)
        exact .code hcode fun hhigh more hmore => absurd hmore (hno more hhigh)
    · obtain ⟨c', hc', heq⟩ := Option.map_eq_some_iff.mp h
      obtain ⟨rfl, rfl⟩ := Prod.mk.inj heq
      exact .char hc'

/-- **A string that is read**, after its opening quote, with its text and what is left. -/
inductive Spells : Text → Text → Text → Prop
  | close {rest : Text} : Spells (0x22 :: rest) [] rest
  | escape {text rest' s rest : Text} {c : ℕ} (hc : Escapes text c rest') (h : Spells rest' s rest) :
      Spells (0x5C :: text) (c :: s) rest
  | char {text s rest : Text} {c : ℕ} (hquote : c ≠ 0x22) (hslash : c ≠ 0x5C) (h : Spells text s rest) :
      Spells (c :: text) (c :: s) rest

theorem Spells.of_read : ∀ {fuel : ℕ} {text s rest : Text}, readString fuel text = some (s, rest) → Spells text s rest
  | 0, _, _, _, h => by cases h
  | _ + 1, [], _, _, h => by cases h
  | fuel + 1, c :: text, s, rest, h => by
    rw [readString] at h
    split_ifs at h with hquote hslash hcontrol
    · cases h
      exact hquote ▸ .close
    · simp only [Option.bind_eq_bind, Option.bind_eq_some_iff, Prod.exists, Option.pure_def,
        Option.some.injEq, Prod.mk.injEq] at h
      obtain ⟨c', rest', hescape, s', rest'', hread, rfl, rfl⟩ := h
      exact hslash ▸ .escape (.of_read hescape) (.of_read hread)
    · simp only [Option.bind_eq_bind, Option.bind_eq_some_iff, Prod.exists, Option.pure_def,
        Option.some.injEq, Prod.mk.injEq] at h
      obtain ⟨s', rest', hread, rfl, rfl⟩ := h
      exact .char hquote hslash (.of_read hread)

/-! ### Numbers and words -/

variable {floatRepr : Text → Text}

theorem readMagnitude_cases {negative : Bool} {text rest : Text} {v : Json}
    (h : readMagnitude floatRepr negative text = some (v, rest)) : ∃ ds rest', readInteger text = some (ds, rest') ∧
      rest = (readExponent (readFraction rest').2).2 ∧
      ((v = int (if negative then -(ofDigits ds : ℤ) else ofDigits ds) ∧ ds.length ≤ maxDigits) ∨
        ∃ literal, v = float (floatRepr literal)) := by
  unfold readMagnitude at h
  simp only [Option.bind_eq_bind, Option.bind_eq_some_iff, Prod.exists, Option.pure_def] at h
  obtain ⟨ds, rest', hds, h⟩ := h
  by_cases hint : (readFraction rest').1 = [] ∧ (readExponent (readFraction rest').2).1 = []
  · rw [if_pos hint] at h
    by_cases hlen : ds.length ≤ maxDigits
    · rw [if_pos hlen] at h
      cases h
      exact ⟨ds, rest', hds, rfl, .inl ⟨rfl, hlen⟩⟩
    · rw [if_neg hlen] at h
      cases h
  · rw [if_neg hint] at h
    cases h
    exact ⟨ds, rest', hds, rfl, .inr ⟨_, rfl⟩⟩

theorem readPlain_cases {text rest : Text} {v : Json} (h : readPlain floatRepr text = some (v, rest)) :
    (∃ e ∈ words, text = e.1 ++ rest ∧ v = e.2) ∨ ∃ negative text', (text = text' ∨ text = 0x2D :: text') ∧
      readMagnitude floatRepr negative text' = some (v, rest) := by
  unfold readPlain at h
  split at h
  next found hfound =>
    cases h
    obtain ⟨e, he, hmap⟩ := List.exists_of_findSome?_eq_some hfound
    obtain ⟨rest', hexpect, heq⟩ := Option.map_eq_some_iff.mp hmap
    cases heq
    exact .inl ⟨e, he, append_of_expect hexpect, rfl⟩
  next =>
    cases text with
    | nil => cases h
    | cons c text =>
      rw [readNumber] at h
      split_ifs at h with hminus
      · exact .inr ⟨true, text, .inr (by rw [hminus]), h⟩
      · exact .inr ⟨false, c :: text, .inl rfl, h⟩

/-! ### Values -/

variable (floatRepr)

/-- What is read: a value, or the members or items that are left. -/
inductive Part
  | value
  | members (before : List (Text × Json))
  | items (before : List Json)

def Part.read (fuel depth : ℕ) : Part → Text → Option (Json × Text)
  | value => readValue floatRepr fuel depth
  | members before => readMembers floatRepr fuel depth before
  | items before => readItems floatRepr fuel depth before

/-- **What the reader takes for a value**, with the text that is left; one rule for each way through it. -/
inductive Takes : ℕ → ℕ → Part → Text → Json → Text → Prop
  | string {n d : ℕ} {text s rest : Text} (hs : readString text.length text = some (s, rest)) :
      Takes (n + 1) d .value (0x22 :: text) (str s) rest
  | noMembers {n d : ℕ} {text rest : Text} (hclose : skip text = 0x7D :: rest) :
      Takes (n + 1) (d + 1) .value (0x7B :: text) (obj []) rest
  | object {n d : ℕ} {text rest : Text} {v : Json} (h : Takes n d (.members []) (skip text) v rest) :
      Takes (n + 1) (d + 1) .value (0x7B :: text) v rest
  | noItems {n d : ℕ} {text rest : Text} (hclose : skip text = 0x5D :: rest) :
      Takes (n + 1) (d + 1) .value (0x5B :: text) (arr []) rest
  | array {n d : ℕ} {text rest : Text} {v : Json} (hopen : ∀ rest, skip text ≠ 0x5D :: rest)
      (h : Takes n d (.items []) (skip text) v rest) : Takes (n + 1) (d + 1) .value (0x5B :: text) v rest
  | plain {n d c : ℕ} {text rest : Text} {v : Json} (hc : c ≠ 0x22 ∧ c ≠ 0x7B ∧ c ≠ 0x5B)
      (h : readPlain floatRepr (c :: text) = some (v, rest)) : Takes (n + 1) d .value (c :: text) v rest
  | member {n d : ℕ} {before : List (Text × Json)} {text key rest₁ rest₂ rest₃ rest₄ rest : Text} {value v : Json}
      (hkey : readString text.length text = some (key, rest₁)) (hcolon : skip rest₁ = 0x3A :: rest₂)
      (hvalue : Takes n d .value (skip rest₂) value rest₃) (hcomma : skip rest₃ = 0x2C :: rest₄)
      (h : Takes n d (.members (setL key value before)) (skip rest₄) v rest) :
      Takes (n + 1) d (.members before) (0x22 :: text) v rest
  | lastMember {n d : ℕ} {before : List (Text × Json)} {text key rest₁ rest₂ rest₃ rest : Text} {value : Json}
      (hkey : readString text.length text = some (key, rest₁)) (hcolon : skip rest₁ = 0x3A :: rest₂)
      (hvalue : Takes n d .value (skip rest₂) value rest₃) (hclose : skip rest₃ = 0x7D :: rest) :
      Takes (n + 1) d (.members before) (0x22 :: text) (obj (setL key value before)) rest
  | item {n d : ℕ} {before : List Json} {text rest₁ rest₂ rest : Text} {value v : Json}
      (hvalue : Takes n d .value text value rest₁) (hcomma : skip rest₁ = 0x2C :: rest₂)
      (h : Takes n d (.items (before ++ [value])) (skip rest₂) v rest) : Takes (n + 1) d (.items before) text v rest
  | lastItem {n d : ℕ} {before : List Json} {text rest₁ rest : Text} {value : Json}
      (hvalue : Takes n d .value text value rest₁) (hclose : skip rest₁ = 0x5D :: rest) :
      Takes (n + 1) d (.items before) text (arr (before ++ [value])) rest

variable {floatRepr} {n d : ℕ} {part : Part} {text rest : Text} {v : Json}

theorem Takes.of_read : part.read floatRepr n d text = some (v, rest) → Takes floatRepr n d part text v rest := by
  induction n generalizing d part text v rest with
  | zero => cases part <;> intro h <;> cases h
  | succ n ih =>
    have hend : ∀ {mark : ℕ} {rest₁ rest₂ : Text}, expect [mark] rest₁ = some rest₂ → rest₁ = mark :: rest₂ :=
      append_of_expect
    cases part with
    | value =>
      cases text with
      | nil => intro h; cases h
      | cons c text =>
        rw [Part.read]
        unfold readValue
        split_ifs with hquote hbrace hbracket
        · intro h
          obtain ⟨⟨s, rest'⟩, hs, heq⟩ := Option.map_eq_some_iff.mp h
          cases heq
          rw [hquote]
          exact .string hs
        · rw [hbrace]
          cases d with
          | zero => intro h; cases h
          | succ d =>
            dsimp only
            cases hempty : expect [0x7D] (skip text) with
            | some after =>
              intro h
              cases h
              exact .noMembers (hend hempty)
            | none => exact fun h => .object (ih h)
        · rw [hbracket]
          cases d with
          | zero => intro h; cases h
          | succ d =>
            dsimp only
            cases hempty : expect [0x5D] (skip text) with
            | some after =>
              intro h
              cases h
              exact .noItems (hend hempty)
            | none =>
              refine fun h => .array (fun rest' hclose => ?_) (ih h)
              rw [hclose, expect_mark] at hempty
              cases hempty
        · exact .plain ⟨hquote, hbrace, hbracket⟩
    | members before =>
      rw [Part.read, readMembers]
      intro h
      split at h
      · cases h
      next rest₁ hquote =>
        rw [hend hquote]
        split at h
        · cases h
        next key rest₂ hkey =>
          split at h
          · cases h
          next rest₃ hcolon =>
            split at h
            · cases h
            next value rest₄ hvalue =>
              split at h
              next _ _ rest₅ hcomma => exact .member hkey (hend hcolon) (ih hvalue) (hend hcomma) (ih h)
              next _ _ rest₅ _ hclose =>
                cases h
                exact .lastMember hkey (hend hcolon) (ih hvalue) (hend hclose)
              next => cases h
    | items before =>
      rw [Part.read, readItems]
      intro h
      split at h
      · cases h
      next value rest₁ hvalue =>
        split at h
        next _ _ rest₂ hcomma => exact .item (ih hvalue) (hend hcomma) (ih h)
        next _ _ rest₂ _ hclose =>
          cases h
          exact .lastItem (ih hvalue) (hend hclose)
        next => cases h

theorem Takes.members_head {before : List (Text × Json)} (h : Takes floatRepr n d (.members before) text v rest) :
    ∃ tail, text = 0x22 :: tail := by
  cases h <;> exact ⟨_, rfl⟩

/-- More fuel does no harm. -/
theorem Takes.read (h : Takes floatRepr n d part text v rest) :
    ∀ {fuel : ℕ}, n ≤ fuel → part.read floatRepr fuel d text = some (v, rest) := by
  induction h with
  | string hs =>
    rintro (_ | fuel) hf
    · cases hf
    rw [Part.read]
    unfold readValue
    rw [if_pos rfl, hs]
    rfl
  | noMembers hclose =>
    rintro (_ | fuel) hf
    · cases hf
    rw [Part.read]
    unfold readValue
    rw [if_neg (by decide), if_pos rfl]
    dsimp only
    rw [hclose, expect_mark]
  | object h ih =>
    rintro (_ | fuel) hf
    · cases hf
    obtain ⟨tail, htail⟩ := h.members_head
    have hread := ih (Nat.le_of_succ_le_succ hf)
    rw [Part.read]
    unfold readValue
    rw [if_neg (by decide), if_pos rfl]
    dsimp only
    rw [htail, expect_ne (by decide), ← htail]
    exact hread
  | noItems hclose =>
    rintro (_ | fuel) hf
    · cases hf
    rw [Part.read]
    unfold readValue
    rw [if_neg (by decide), if_neg (by decide), if_pos rfl]
    dsimp only
    rw [hclose, expect_mark]
  | array hopen _ ih =>
    rintro (_ | fuel) hf
    · cases hf
    rw [Part.read]
    unfold readValue
    rw [if_neg (by decide), if_neg (by decide), if_pos rfl]
    dsimp only
    rw [expect_none hopen]
    exact ih (Nat.le_of_succ_le_succ hf)
  | plain hc h =>
    rintro (_ | fuel) hf
    · cases hf
    rw [Part.read]
    unfold readValue
    rw [if_neg hc.1, if_neg hc.2.1, if_neg hc.2.2, h]
  | member hkey hcolon _ hcomma _ ihv ih =>
    rintro (_ | fuel) hf
    · cases hf
    have hvalue := ihv (Nat.le_of_succ_le_succ hf)
    rw [Part.read] at hvalue
    rw [Part.read, readMembers]
    rw [expect_mark]
    dsimp only
    rw [hkey]
    dsimp only
    rw [hcolon, expect_mark]
    dsimp only
    rw [hvalue]
    dsimp only
    rw [hcomma, expect_mark]
    exact ih (Nat.le_of_succ_le_succ hf)
  | lastMember hkey hcolon _ hclose ihv =>
    rintro (_ | fuel) hf
    · cases hf
    have hvalue := ihv (Nat.le_of_succ_le_succ hf)
    rw [Part.read] at hvalue
    rw [Part.read, readMembers]
    rw [expect_mark]
    dsimp only
    rw [hkey]
    dsimp only
    rw [hcolon, expect_mark]
    dsimp only
    rw [hvalue]
    dsimp only
    rw [hclose, expect_ne (by decide), expect_mark]
  | item _ hcomma _ ihv ih =>
    rintro (_ | fuel) hf
    · cases hf
    have hvalue := ihv (Nat.le_of_succ_le_succ hf)
    rw [Part.read] at hvalue
    rw [Part.read, readItems]
    rw [hvalue]
    dsimp only
    rw [hcomma, expect_mark]
    exact ih (Nat.le_of_succ_le_succ hf)
  | lastItem _ hclose ihv =>
    rintro (_ | fuel) hf
    · cases hf
    have hvalue := ihv (Nat.le_of_succ_le_succ hf)
    rw [Part.read] at hvalue
    rw [Part.read, readItems]
    rw [hvalue]
    dsimp only
    rw [hclose, expect_ne (by decide), expect_mark]

theorem Takes.readValue (h : Takes floatRepr n d .value text v rest) {fuel : ℕ} (hle : n ≤ fuel) :
    JsonText.readValue floatRepr fuel d text = some (v, rest) := h.read hle

theorem takes_of_readValue (h : readValue floatRepr n d text = some (v, rest)) : Takes floatRepr n d .value text v rest :=
  .of_read h

end NMesh.Base.JsonTakes
