import NMesh.Base.JsonRead

/-! # A text that is cut is not read

What the reader makes of the start of a text, it makes of the whole: where a value ends at a mark or a blank, or is
closed by a mark of its own, what follows changes nothing (`takes_append`). So no text of an object that is cut
short is read at all (`loads_cut`). -/

namespace NMesh.Base.JsonCut

open Base.Utf8 Base.JsonText Base.JsonTakes Base.JsonRound Base.JsonStyle
open Base.JsonRead

/-! ### Marks and blanks -/

def Ends (c : ℕ) : Prop := isBlank c = true ∨ c = 0x2C ∨ c = 0x5D ∨ c = 0x7D

def Marked : Text → Prop
  | [] => False
  | c :: _ => Ends c

variable {text rest : Text}

theorem expect_append {word : Text} (more : Text) (h : expect word text = some rest) :
    expect word (text ++ more) = some (rest ++ more) := by
  unfold expect at h ⊢
  split_ifs at h with hprefix
  obtain ⟨tail, rfl⟩ := List.isPrefixOf_iff_prefix.mp hprefix
  rw [List.append_assoc, if_pos (List.isPrefixOf_iff_prefix.mpr (List.prefix_append _ _)), List.drop_left]
  rw [List.drop_left] at h
  rw [Option.some.inj h]

variable {c : ℕ}

theorem skip_append (more : Text) (h : skip text = c :: rest) : skip (text ++ more) = c :: rest ++ more := by
  unfold skip at h ⊢
  rw [List.dropWhile_append, h]
  rfl

theorem marked_of_skip (hc : Ends c) (h : skip text = c :: rest) : Marked text := by
  cases text with
  | nil => cases h
  | cons d text =>
    by_cases hd : isBlank d = true
    · exact Or.inl hd
    · rw [skip, List.dropWhile_cons_of_neg hd] at h
      rw [(List.cons.inj h).1]
      exact hc

/-! ### Strings -/

theorem readHex4_append {n : ℕ} (more : Text) (h : readHex4 text = some (n, rest)) :
    readHex4 (text ++ more) = some (n, rest ++ more) := by
  match text, h with
  | a :: b :: c :: d :: rest', h =>
    simp only [readHex4, Option.bind_eq_bind, Option.bind_eq_some_iff, Option.pure_def, Option.some.injEq,
      Prod.mk.injEq] at h
    obtain ⟨a', ha, b', hb, c', hc, d', hd, rfl, rfl⟩ := h
    simp only [List.cons_append, readHex4, ha, hb, hc, hd, Option.bind_eq_bind, Option.bind_some, Option.pure_def]

theorem expect_escape_append (more : Text) (h : expect [0x5C, 0x75] rest = none) (hne : rest ≠ [])
    (hslash : rest ≠ [0x5C]) : expect [0x5C, 0x75] (rest ++ more) = none := by
  match rest, h, hne, hslash with
  | [], _, hne, _ => exact absurd rfl hne
  | [c], h, _, hslash =>
    refine expect_ne (fun hc => hslash ?_) _ _
    rw [hc]
  | c :: d :: rest, h, _, _ =>
    by_cases hc : c = 0x5C
    · by_cases hd : d = 0x75
      · subst hc hd
        cases h
      · subst hc
        unfold expect
        rw [if_neg fun hprefix => hd ?_]
        obtain ⟨tail, htail⟩ := List.isPrefixOf_iff_prefix.mp hprefix
        exact (List.cons.inj (List.cons.inj htail).2).1.symm
    · exact expect_ne (fun h => hc h.symm) _ _

theorem readEscape_append (more : Text) (h : readEscape text = some (c, rest))
    (hne : rest ≠ []) (hslash : rest ≠ [0x5C]) : readEscape (text ++ more) = some (c, rest ++ more) := by
  match text, h with
  | d :: text, h =>
    rw [readEscape] at h
    rw [List.cons_append, readEscape]
    split_ifs at h ⊢ with hu
    · simp only [Option.bind_eq_bind, Option.bind_eq_some_iff, Prod.exists] at h
      obtain ⟨high, rest', hhigh, h⟩ := h
      rw [readHex4_append more hhigh]
      simp only [Option.bind_eq_bind, Option.bind_some]
      cases hsurrogate : isHigh high with
      | false =>
        rw [hsurrogate] at h
        obtain ⟨rfl, rfl⟩ := Prod.mk.inj (Option.some.inj h)
        rfl
      | true =>
        rw [hsurrogate] at h
        cases hexpect : expect [0x5C, 0x75] rest' with
        | none =>
          rw [hexpect] at h
          obtain ⟨rfl, rfl⟩ := Prod.mk.inj (Option.some.inj h)
          rw [expect_escape_append more hexpect hne hslash]
          rfl
        | some after =>
          rw [hexpect] at h
          rw [expect_append more hexpect]
          simp only [Option.bind_eq_some_iff, Prod.exists, Option.pure_def, Option.some.injEq] at h ⊢
          obtain ⟨low, last, hlow, h⟩ := h
          refine ⟨low, last ++ more, readHex4_append more hlow, ?_⟩
          split_ifs at h ⊢
          · obtain ⟨rfl, rfl⟩ := Prod.mk.inj h
            rfl
          · obtain ⟨rfl, rfl⟩ := Prod.mk.inj h
            rfl
    · obtain ⟨c', hc', heq⟩ := Option.map_eq_some_iff.mp h
      obtain ⟨rfl, rfl⟩ := Prod.mk.inj heq
      rw [hc']
      rfl

theorem readString_append (more : Text) : ∀ {fuel fuel' : ℕ} {text s rest : Text},
    readString fuel text = some (s, rest) → fuel ≤ fuel' →
      readString fuel' (text ++ more) = some (s, rest ++ more)
  | 0, _, _, _, _, h, _ => by cases h
  | _ + 1, _, [], _, _, h, _ => by cases h
  | fuel + 1, 0, _ :: _, _, _, _, hf => by omega
  | fuel + 1, fuel' + 1, c :: text, s, rest, h, hf => by
    have hf : fuel ≤ fuel' := by omega
    rw [readString] at h
    rw [List.cons_append, readString]
    split_ifs at h ⊢ with hquote hslash hctrl
    · cases h
      rfl
    · simp only [Option.bind_eq_bind, Option.bind_eq_some_iff, Prod.exists, Option.pure_def, Option.some.injEq,
        Prod.mk.injEq] at h ⊢
      obtain ⟨d, after, hescape, s', rest', hread, rfl, rfl⟩ := h
      -- the rest was read, so that it is neither empty nor a backslash alone
      have hne : after ≠ [] := by
        rintro rfl
        cases fuel <;> cases hread
      have hslash' : after ≠ [0x5C] := by
        rintro rfl
        cases fuel <;> cases hread
      exact ⟨d, after ++ more, readEscape_append more hescape hne hslash', s', rest' ++ more,
        readString_append more hread hf, rfl, rfl⟩
    · simp only [Option.bind_eq_bind, Option.bind_eq_some_iff, Prod.exists, Option.pure_def, Option.some.injEq,
        Prod.mk.injEq] at h ⊢
      obtain ⟨s', rest', hread, rfl, rfl⟩ := h
      exact ⟨s', rest' ++ more, readString_append more hread hf, rfl, rfl⟩

/-! ### Numbers -/

theorem digits_append (more : Text) : ∀ {text : Text}, text.dropWhile isDigit = c :: rest →
    (text ++ more).takeWhile isDigit = text.takeWhile isDigit ∧
      (text ++ more).dropWhile isDigit = c :: rest ++ more
  | [], h => by cases h
  | d :: text, h => by
    by_cases hd : isDigit d = true
    · rw [List.dropWhile_cons_of_pos hd] at h
      obtain ⟨htake, hdrop⟩ := digits_append more h
      rw [List.cons_append, List.takeWhile_cons_of_pos hd, List.takeWhile_cons_of_pos hd,
        List.dropWhile_cons_of_pos hd, htake, hdrop]
      exact ⟨rfl, rfl⟩
    · rw [List.dropWhile_cons_of_neg hd] at h
      rw [List.cons_append, List.takeWhile_cons_of_neg hd, List.takeWhile_cons_of_neg hd,
        List.dropWhile_cons_of_neg hd, ← List.cons_append, h]
      exact ⟨rfl, rfl⟩

theorem readInteger_append {ds : Text} (more : Text)
    (h : readInteger text = some (ds, c :: rest)) : readInteger (text ++ more) = some (ds, c :: rest ++ more) := by
  match text, h with
  | d :: text, h =>
    rw [readInteger] at h
    rw [List.cons_append, readInteger]
    split_ifs at h ⊢ with hzero hdigit
    · cases h
      rfl
    · obtain ⟨rfl, hdrop⟩ := Prod.mk.inj (Option.some.inj h)
      obtain ⟨htake, hdrop'⟩ := digits_append more hdrop
      rw [htake, hdrop']

theorem readFraction_append {f : Text} (more : Text) (h : readFraction text = (f, c :: rest))
    (hc : c ≠ 0x2E) : readFraction (text ++ more) = (f, c :: rest ++ more) := by
  match text, h with
  | [], h => cases h
  | [d], h =>
    obtain ⟨rfl, htext⟩ := Prod.mk.inj h
    obtain ⟨rfl, rfl⟩ := List.cons.inj htext
    cases more with
    | nil => rfl
    | cons e more =>
      rw [List.singleton_append, readFraction, if_neg fun hdot => hc hdot.1]
  | d :: e :: text, h =>
    rw [readFraction] at h
    rw [List.cons_append, List.cons_append, readFraction]
    split_ifs at h ⊢ with hdot
    · obtain ⟨rfl, hdrop⟩ := Prod.mk.inj h
      obtain ⟨htake, hdrop'⟩ := digits_append more hdrop
      rw [htake, hdrop']
    · obtain ⟨rfl, htext⟩ := Prod.mk.inj h
      rw [← htext]
      rfl

theorem not_exponent (hc : Ends c) : ¬ (c = 0x65 ∨ c = 0x45) := by
  rintro (rfl | rfl)
  · exact absurd hc (by unfold Ends; decide)
  · exact absurd hc (by unfold Ends; decide)

theorem readExponent_append {e : Text} (more : Text) (h : readExponent text = (e, c :: rest))
    (hc : Ends c) : readExponent (text ++ more) = (e, c :: rest ++ more) := by
  match text, h with
  | [], h => cases h
  | [d], h =>
    obtain ⟨rfl, htext⟩ := Prod.mk.inj h
    obtain ⟨rfl, rfl⟩ := List.cons.inj htext
    cases more with
    | nil => rfl
    | cons e more =>
      rw [List.singleton_append]
      simp only [readExponent]
      rw [if_neg (not_exponent hc)]
  | d :: x :: text, h =>
    simp only [readExponent] at h
    rw [List.cons_append, List.cons_append]
    simp only [readExponent]
    by_cases hd : d = 0x65 ∨ d = 0x45
    · have hother : ∀ {f : Text}, (([] : Text), d :: x :: text) ≠ (f, c :: rest) := by
        intro f heq
        rw [(List.cons.inj (Prod.mk.inj heq).2).1] at hd
        exact not_exponent hc hd
      rw [if_pos hd] at h ⊢
      by_cases hx : isDigit x = true
      · rw [if_pos hx] at h ⊢
        obtain ⟨rfl, hdrop⟩ := Prod.mk.inj h
        obtain ⟨htake, hdrop'⟩ := digits_append more hdrop
        rw [htake, hdrop']
      · rw [if_neg hx] at h ⊢
        cases hsign : (decide (x = 0x2B ∨ x = 0x2D)) with
        | false =>
          rw [hsign] at h
          exact absurd h hother
        | true =>
          rw [hsign] at h
          cases text with
          | nil => exact absurd h hother
          | cons y text =>
            dsimp only [List.cons_append] at h ⊢
            by_cases hy : isDigit y = true
            · rw [if_pos hy] at h ⊢
              obtain ⟨rfl, hdrop⟩ := Prod.mk.inj h
              obtain ⟨htake, hdrop'⟩ := digits_append more hdrop
              rw [htake, hdrop']
              rfl
            · rw [if_neg hy] at h
              exact absurd h hother
    · rw [if_neg hd] at h ⊢
      obtain ⟨rfl, htext⟩ := Prod.mk.inj h
      rw [← htext]
      rfl

theorem head_of_exponent {e : Text} (h : readExponent text = (e, c :: rest)) (hc : Ends c) :
    ∃ d tail, text = d :: tail ∧ d ≠ 0x2E := by
  cases text with
  | nil => cases h
  | cons d tail =>
    refine ⟨d, tail, rfl, ?_⟩
    rintro rfl
    have hsame : readExponent (0x2E :: tail) = ([], 0x2E :: tail) := by
      cases tail with
      | nil | cons x tail => rfl
    rw [hsame] at h
    obtain rfl := (List.cons.inj (Prod.mk.inj h).2).1
    exact absurd hc (by unfold Ends; decide)

variable {floatRepr : Text → Text}

theorem readMagnitude_append {negative : Bool} {v : Json} (more : Text)
    (h : readMagnitude floatRepr negative text = some (v, c :: rest)) (hc : Ends c) :
    readMagnitude floatRepr negative (text ++ more) = some (v, c :: rest ++ more) := by
  unfold readMagnitude at h ⊢
  simp only [Option.bind_eq_bind, Option.bind_eq_some_iff, Prod.exists] at h ⊢
  obtain ⟨ds, after, hds, h⟩ := h
  have hrest : (readExponent (readFraction after).2).2 = c :: rest := by
    by_cases hint : (readFraction after).1 = [] ∧ (readExponent (readFraction after).2).1 = []
    · rw [if_pos hint] at h
      by_cases hlen : ds.length ≤ maxDigits
      · rw [if_pos hlen] at h
        exact (Prod.mk.inj (Option.some.inj h)).2
      · rw [if_neg hlen] at h
        cases h
    · rw [if_neg hint] at h
      exact (Prod.mk.inj (Option.some.inj h)).2
  have hexponent := readExponent_append more (Prod.ext rfl hrest) hc
  -- what follows the fraction: the exponent, or what ends the number
  obtain ⟨d, middle, hmiddle, hdot⟩ := head_of_exponent (Prod.ext rfl hrest) hc
  have hfraction := readFraction_append more (Prod.ext rfl hmiddle) hdot
  obtain ⟨x, tail, rfl⟩ : ∃ x tail, after = x :: tail := by
    cases after with
    | nil => cases hmiddle
    | cons x tail => exact ⟨x, tail, rfl⟩
  refine ⟨ds, x :: tail ++ more, readInteger_append more hds, ?_⟩
  rw [hfraction]
  dsimp only
  rw [← hmiddle, hexponent]
  dsimp only
  by_cases hint : (readFraction (x :: tail)).1 = [] ∧ (readExponent (readFraction (x :: tail)).2).1 = []
  · rw [if_pos hint] at h ⊢
    by_cases hlen : ds.length ≤ maxDigits
    · rw [if_pos hlen] at h ⊢
      rw [(Prod.mk.inj (Option.some.inj h)).1]
      rfl
    · rw [if_neg hlen] at h
      cases h
  · rw [if_neg hint] at h ⊢
    rw [(Prod.mk.inj (Option.some.inj h)).1]
    rfl

/-! ### Words -/

theorem findSome_append {more : Text} : ∀ {l : List (Text × Json)},
    (∀ e ∈ l, expect e.1 (text ++ more) = (expect e.1 text).map (· ++ more)) →
      (l.findSome? fun e => (expect e.1 (text ++ more)).map (e.2, ·)) =
        (l.findSome? fun e => (expect e.1 text).map (e.2, ·)).map fun p => (p.1, p.2 ++ more)
  | [], _ => rfl
  | e :: l, h => by
    rw [List.findSome?_cons, List.findSome?_cons, h e List.mem_cons_self]
    cases expect e.1 text with
    | none => exact findSome_append fun e' he' => h e' (List.mem_cons_of_mem e he')
    | some rest => rfl

theorem readPlain_start : ∀ e ∈ words, ∀ n < e.1.length, readPlain floatRepr (e.1.take n) = none := by
  intro e he n hn
  simp only [words, List.mem_cons, List.not_mem_nil, or_false] at he
  rcases he with rfl | rfl | rfl | rfl | rfl | rfl
  all_goals
    have hlen : n < 9 := Nat.lt_of_lt_of_le hn (by decide)
    interval_cases n
    all_goals first
      | rfl
      | exact absurd hn (by decide)

theorem readPlain_append {v : Json} (more : Text)
    (h : readPlain floatRepr text = some (v, c :: rest)) (hc : Ends c) :
    readPlain floatRepr (text ++ more) = some (v, c :: rest ++ more) := by
  have hwords : ∀ e ∈ words, expect e.1 (text ++ more) = (expect e.1 text).map (· ++ more) := by
    intro e he
    cases hexpect : expect e.1 text with
    | some after => exact expect_append more hexpect
    | none =>
      rw [Option.map_none]
      unfold expect at hexpect ⊢
      by_cases hprefix : e.1.isPrefixOf (text ++ more) = true
      · -- the text would be the start of a word
        exfalso
        have hprefix := List.isPrefixOf_iff_prefix.mp hprefix
        have hno : ¬ e.1 <+: text := by
          intro hyes
          rw [if_pos (List.isPrefixOf_iff_prefix.mpr hyes)] at hexpect
          cases hexpect
        rcases Nat.lt_or_ge text.length e.1.length with hlt | hge
        · have hstart : text <+: e.1 := List.prefix_of_prefix_length_le (List.prefix_append _ _) hprefix hlt.le
          rw [List.prefix_iff_eq_take.mp hstart, readPlain_start e he _ hlt] at h
          cases h
        · exact hno (List.prefix_of_prefix_length_le hprefix (List.prefix_append _ _) hge)
      · rw [if_neg hprefix]
  unfold readPlain at h ⊢
  rw [findSome_append hwords]
  cases hfound : words.findSome? fun e => (expect e.1 text).map (e.2, ·) with
  | some found =>
    rw [hfound] at h
    cases h
    rfl
  | none =>
    rw [hfound] at h
    dsimp only [Option.map_none] at h ⊢
    match text, h with
    | d :: text, h =>
      rw [readNumber] at h
      rw [List.cons_append, readNumber]
      split_ifs at h ⊢ with hminus
      · exact readMagnitude_append more h hc
      · rw [← List.cons_append]
        exact readMagnitude_append more h hc

/-! ### Values -/

def Opens (c : ℕ) : Prop := c = 0x22 ∨ c = 0x7B ∨ c = 0x5B

/-- Where a value is done: it was opened by a mark, and closed by another, or it ends at a mark or a blank. -/
def Done (text rest : Text) : Prop := (∃ c tail, text = c :: tail ∧ Opens c) ∨ Marked rest

/-- What a part needs to be done: the rest of an object or an array is closed by its mark. -/
def DonePart : Part → Text → Text → Prop
  | .value, text, rest => Done text rest
  | _, _, _ => True

theorem exists_cons_of_takes {n d : ℕ} {part : Part} {v : Json}
    (h : Takes floatRepr n d part text v rest) : ∃ c tail, text = c :: tail := by
  induction h with
  | string | noMembers | object | noItems | array | plain | member | lastMember => exact ⟨_, _, rfl⟩
  | item _ _ _ ih | lastItem _ _ ih => exact ih

theorem length_le_append (text more : Text) : text.length ≤ (text ++ more).length := by
  rw [List.length_append]
  exact Nat.le_add_right _ _

/-- **What is taken of a text is taken of any that starts with it.** -/
theorem takes_append (more : Text) {n d : ℕ} {part : Part} {v : Json}
    (h : Takes floatRepr n d part text v rest) :
    DonePart part text rest → Takes floatRepr n d part (text ++ more) v (rest ++ more) := by
  -- what follows a blank or a mark is the start of a part, and so not empty
  have hstart : ∀ {n d : ℕ} {part : Part} {text rest : Text} {v : Json}, Takes floatRepr n d part (skip text) v rest →
      Takes floatRepr n d part (skip text ++ more) v (rest ++ more) →
      Takes floatRepr n d part (skip (text ++ more)) v (rest ++ more) := by
    intro n d part text rest v h hmore
    obtain ⟨c, tail, htext⟩ := exists_cons_of_takes h
    rw [skip_append more htext, ← htext]
    exact hmore
  have hmark : ∀ {c : ℕ} {text rest : Text}, skip text = c :: rest → skip (text ++ more) = c :: (rest ++ more) :=
    fun h => skip_append more h
  have hkeyed : ∀ {text key rest : Text}, readString text.length text = some (key, rest) →
      readString (text ++ more).length (text ++ more) = some (key, rest ++ more) :=
    fun h => readString_append more h (length_le_append _ _)
  induction h with
  | string hs => exact fun _ => .string (hkeyed hs)
  | noMembers hclose => exact fun _ => .noMembers (hmark hclose)
  | object h ih => exact fun _ => .object (hstart h (ih trivial))
  | noItems hclose => exact fun _ => .noItems (hmark hclose)
  | @array n d text rest v hopen h ih =>
    obtain ⟨c, tail, htext⟩ := exists_cons_of_takes h
    refine fun _ => .array (fun rest' hclose => hopen tail ?_) (hstart h (ih trivial))
    have hclose : c :: tail ++ more = 0x5D :: rest' := (skip_append more htext).symm.trans hclose
    rw [htext, (List.cons.inj hclose).1]
  | @plain n d c text rest v hc h =>
    rintro (⟨c', tail, heq, hopens⟩ | hmarked)
    · obtain rfl := (List.cons.inj heq).1
      rcases hopens with rfl | rfl | rfl
      · exact absurd rfl hc.1
      · exact absurd rfl hc.2.1
      · exact absurd rfl hc.2.2
    · cases rest with
      | nil => exact absurd hmarked id
      | cons e rest => exact .plain hc (readPlain_append more h hmarked)
  | member hkey hcolon hvalue hcomma h ihv ih =>
    have hdone : Ends 0x2C := Or.inr (Or.inl rfl)
    exact fun _ => .member (hkeyed hkey) (hmark hcolon) (hstart hvalue (ihv (Or.inr (marked_of_skip hdone hcomma))))
      (hmark hcomma) (hstart h (ih trivial))
  | lastMember hkey hcolon hvalue hclose ihv =>
    have hdone : Ends 0x7D := Or.inr (Or.inr (Or.inr rfl))
    exact fun _ => .lastMember (hkeyed hkey) (hmark hcolon)
      (hstart hvalue (ihv (Or.inr (marked_of_skip hdone hclose)))) (hmark hclose)
  | item _ hcomma h ihv ih =>
    have hdone : Ends 0x2C := Or.inr (Or.inl rfl)
    exact fun _ => .item (ihv (Or.inr (marked_of_skip hdone hcomma))) (hmark hcomma) (hstart h (ih trivial))
  | lastItem _ hclose ihv =>
    have hdone : Ends 0x5D := Or.inr (Or.inr (Or.inl rfl))
    exact fun _ => .lastItem (ihv (Or.inr (marked_of_skip hdone hclose))) (hmark hclose)

theorem loads_cut {S : Style} (hS : S.ensureAscii = true) {depth : ℕ} {members : List (Text × Json)}
 (hv : Plain floatRepr (.obj members)) (hd : height (.obj members) ≤ depth)
    (hcut : write S (.obj members) = text ++ rest) (hne : rest ≠ []) : loads floatRepr depth text = none := by
  cases text with
  | nil => rfl
  | cons c tail =>
    have hopen : c = 0x7B := by
      cases members with
      | nil | cons e members => exact (List.cons.inj hcut).1.symm
    subst hopen
    have hskip : skip (0x7B :: tail) = 0x7B :: tail := skip_mark rfl tail
    rw [loads, hskip]
    cases hread : readValue floatRepr ((0x7B :: tail).length + 1) depth (0x7B :: tail) with
    | none => rfl
    | some read =>
      obtain ⟨v, left⟩ := read
      have hdone : Done (0x7B :: tail) left := Or.inl ⟨0x7B, tail, rfl, Or.inr (Or.inl rfl)⟩
      have hlen : (0x7B :: tail).length + 1 ≤ (write S (.obj members)).length + 1 := by
        rw [hcut]
        exact Nat.succ_le_succ (length_le_append _ _)
      have happend := (takes_append rest (takes_of_readValue hread) hdone).readValue hlen
      have htakes : Takes floatRepr (write S (.obj members)).length depth .value (write S (.obj members) ++ [])
          (settle (.obj members)) [] := takes_write hS _ hv hd le_rfl trivial
      have hwhole := htakes.readValue (Nat.le_succ _)
      rw [List.append_nil] at hwhole
      rw [← hcut, hwhole] at happend
      have hwhole := happend.symm
      have hnil := (Prod.mk.inj (Option.some.inj hwhole)).2
      exact absurd (List.append_eq_nil_iff.mp hnil).2 hne

end NMesh.Base.JsonCut
