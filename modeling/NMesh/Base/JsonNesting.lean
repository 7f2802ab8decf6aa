import NMesh.Base.JsonDeep
import NMesh.Base.JsonRead

/-! # Counting brackets

A count goes over a text one character after the other: it knows whether it is inside a string and whether a
backslash came before, and counts the brackets outside of strings.

It simulates the reader: what the reader takes for a value leaves the count where it was and raises it no further
than the value is nested (`passes_readValue`), so where the reader comes to a bracket that is too deep the count
is above the limit (`peak_of_tooDeep`); a document of the grammar raises it no further than it is nested
(`peak_document`). -/

namespace NMesh.Base.JsonNesting

open Base.BigEndian Base.Utf8 Base.JsonText Base.JsonTakes Base.JsonDeep Base.Hex

/-- Where the count is. -/
structure Count where
  depth : ℤ
  inString : Bool
  escaped : Bool
  deriving DecidableEq

namespace Count

def step (s : Count) (c : ℕ) : Count :=
  if s.inString then
    if s.escaped then { s with escaped := false }
    else if c = 0x5C then { s with escaped := true }
    else if c = 0x22 then { s with inString := false }
    else s
  else if c = 0x22 then { s with inString := true }
  else if c = 0x7B ∨ c = 0x5B then { s with depth := s.depth + 1 }
  else if c = 0x7D ∨ c = 0x5D then { s with depth := s.depth - 1 }
  else s

def run (s : Count) (text : Text) : Count := text.foldl step s

def peak : Count → Text → ℤ
  | s, [] => s.depth
  | s, c :: text => max s.depth (peak (s.step c) text)

/-- Outside of strings, `k` deep. -/
def out (k : ℤ) : Count := ⟨k, false, false⟩

/-- Inside a string, `k` deep. -/
def quoted (k : ℤ) : Count := ⟨k, true, false⟩

theorem run_append (s : Count) (a b : Text) : s.run (a ++ b) = (s.run a).run b := List.foldl_append

theorem depth_le_peak (s : Count) : ∀ text, s.depth ≤ s.peak text
  | [] => le_rfl
  | _ :: _ => le_max_left _ _

theorem peak_append : ∀ (s : Count) (a b : Text), s.peak (a ++ b) = max (s.peak a) ((s.run a).peak b)
  | s, [], b => (max_eq_right (depth_le_peak s b)).symm
  | s, c :: a, b => by
    show max s.depth ((s.step c).peak (a ++ b)) = _
    rw [peak_append (s.step c) a b, ← max_assoc]
    rfl

theorem step_out {c : ℕ} (hquote : c ≠ 0x22) (hopen : c ≠ 0x7B ∧ c ≠ 0x5B) (hclose : c ≠ 0x7D ∧ c ≠ 0x5D)
    (k : ℤ) : (out k).step c = out k := by
  have ho : ¬ (c = 0x7B ∨ c = 0x5B) := fun h => h.elim hopen.1 hopen.2
  have hc : ¬ (c = 0x7D ∨ c = 0x5D) := fun h => h.elim hclose.1 hclose.2
  simp only [step, out, if_neg hquote, if_neg ho, if_neg hc]
  rfl

theorem step_quoted {c : ℕ} (hquote : c ≠ 0x22) (hslash : c ≠ 0x5C) (k : ℤ) :
    (quoted k).step c = quoted k := by
  simp only [step, quoted, if_neg hquote, if_neg hslash]
  rfl

theorem step_open {c : ℕ} (h : c = 0x7B ∨ c = 0x5B) (k : ℤ) : (out k).step c = out (k + 1) := by
  have hquote : c ≠ 0x22 := by omega
  simp only [step, out, if_neg hquote, if_pos h]
  rfl

theorem step_close {c : ℕ} (h : c = 0x7D ∨ c = 0x5D) (k : ℤ) : (out k).step c = out (k - 1) := by
  have hquote : c ≠ 0x22 := by omega
  have ho : ¬ (c = 0x7B ∨ c = 0x5B) := by omega
  simp only [step, out, if_neg hquote, if_neg ho, if_pos h]
  rfl

end Count

open Count

/-! ### Stretches of a text -/

/-- **A stretch that leaves the count where it was** and raises it by `d` at most. -/
def Level (d : ℕ) (p : Text) : Prop := ∀ k, (out k).run p = out k ∧ (out k).peak p ≤ k + d

def Inside (p : Text) : Prop := ∀ k, (quoted k).run p = quoted k ∧ (quoted k).peak p ≤ k

theorem Level.nil (d : ℕ) : Level d [] := fun k => ⟨rfl, by show k ≤ _; omega⟩

variable {d : ℕ} {p : Text}

theorem Level.append {q : Text} (hp : Level d p) (hq : Level d q) : Level d (p ++ q) := by
  intro k
  rw [run_append, peak_append, (hp k).1]
  exact ⟨(hq k).1, max_le (hp k).2 (hq k).2⟩

variable {c : ℕ}

theorem Level.plain (hquote : c ≠ 0x22) (hopen : c ≠ 0x7B ∧ c ≠ 0x5B)
    (hclose : c ≠ 0x7D ∧ c ≠ 0x5D) (d : ℕ) : Level d [c] := by
  intro k
  have hstep := step_out hquote hopen hclose k
  constructor
  · exact hstep
  · show max k ((out k).step c).depth ≤ _
    rw [hstep]
    exact max_le (by omega) (by show k ≤ _; omega)

/-- A character that the count passes over outside of strings. -/
def Inert (c : ℕ) : Prop := c ≠ 0x22 ∧ (c ≠ 0x7B ∧ c ≠ 0x5B) ∧ (c ≠ 0x7D ∧ c ≠ 0x5D)

instance (c : ℕ) : Decidable (Inert c) := by unfold Inert; infer_instance

theorem Level.inert (d : ℕ) (h : ∀ c ∈ p, Inert c) : Level d p := by
  induction p with
  | nil => exact Level.nil d
  | cons c p ih =>
    obtain ⟨hquote, hopen, hclose⟩ := h c List.mem_cons_self
    exact (Level.plain hquote hopen hclose d).append (ih fun c' hc' => h c' (List.mem_cons_of_mem _ hc'))

theorem Level.wrap {a b : ℕ} (h : Level d p) (ha : a = 0x7B ∨ a = 0x5B)
    (hb : b = 0x7D ∨ b = 0x5D) : Level (d + 1) (a :: (p ++ [b])) := by
  intro k
  have hopen := step_open ha k
  have hclose : (out (k + 1)).step b = out k := by
    rw [step_close hb, add_sub_cancel_right]
  constructor
  · show ((out k).step a).run (p ++ [b]) = out k
    rw [hopen, run_append, (h (k + 1)).1]
    exact hclose
  · show max k (((out k).step a).peak (p ++ [b])) ≤ _
    rw [hopen, peak_append, (h (k + 1)).1]
    refine max_le (by omega) (max_le ((h (k + 1)).2.trans (by push_cast; omega)) ?_)
    show max (k + 1) ((out (k + 1)).step b).depth ≤ _
    rw [hclose]
    exact max_le (by push_cast; omega) (by show k ≤ _; omega)

theorem Inside.wrap (h : Inside p) (d : ℕ) : Level d (0x22 :: (p ++ [0x22])) := by
  intro k
  constructor
  · show (quoted k).run (p ++ [0x22]) = out k
    rw [run_append, (h k).1]
    rfl
  · show max k ((quoted k).peak (p ++ [0x22])) ≤ _
    rw [peak_append, (h k).1]
    exact max_le (by omega) (max_le ((h k).2.trans (by omega)) (by show max k k ≤ _; rw [max_self]; omega))

theorem Inside.append {q : Text} (hp : Inside p) (hq : Inside q) : Inside (p ++ q) := by
  intro k
  rw [run_append, peak_append, (hp k).1]
  exact ⟨(hq k).1, max_le (hp k).2 (hq k).2⟩

theorem Inside.nil : Inside [] := fun _ => ⟨rfl, le_rfl⟩

theorem Inside.plain (hquote : c ≠ 0x22) (hslash : c ≠ 0x5C) : Inside [c] := by
  intro k
  have hstep := step_quoted hquote hslash k
  constructor
  · exact hstep
  · show max k ((quoted k).step c).depth ≤ k
    rw [hstep]
    exact (max_self k).le

theorem Inside.escape (c : ℕ) : Inside [0x5C, c] := fun k =>
  ⟨rfl, by show max k (max k k) ≤ k; rw [max_self, max_self]⟩

/-! ### What the reader takes -/

/-- The text is a level stretch followed by `rest`. -/
def Passes (d : ℕ) (text rest : Text) : Prop := ∃ p, text = p ++ rest ∧ Level d p

variable {a b : Text}

theorem Passes.trans {c : Text} (h : Passes d a b) (h' : Passes d b c) : Passes d a c := by
  obtain ⟨p, rfl, hp⟩ := h
  obtain ⟨q, rfl, hq⟩ := h'
  exact ⟨p ++ q, (List.append_assoc _ _ _).symm, hp.append hq⟩

variable {text rest : Text}

theorem Passes.peak_le (h : Passes d text rest) (k : ℤ) : (out k).peak rest ≤ (out k).peak text := by
  obtain ⟨p, rfl, hp⟩ := h
  rw [peak_append, (hp k).1]
  exact le_max_right _ _

theorem inert_blank (h : isBlank c = true) : Inert c := by
  unfold isBlank at h
  unfold Inert
  rw [decide_eq_true_eq] at h
  omega

theorem inert_digit (h : isDigit c = true) : Inert c := by
  unfold isDigit at h
  unfold Inert
  rw [decide_eq_true_eq] at h
  omega

theorem passes_skip (d : ℕ) (text : Text) : Passes d text (skip text) :=
  ⟨text.takeWhile isBlank, (List.takeWhile_append_dropWhile).symm,
    Level.inert d fun _ hc => inert_blank (List.all_eq_true.mp List.all_takeWhile _ hc)⟩

theorem passes_expect (hc : Inert c) (d : ℕ) (h : expect [c] (skip text) = some rest) : Passes d text rest :=
  (passes_skip d text).trans
    ⟨[c], append_of_expect h, Level.plain hc.1 hc.2.1 hc.2.2 d⟩

/-! ### Strings -/

/-- The text is a stretch of a string followed by `rest`. -/
def Reads (text rest : Text) : Prop := ∃ p, text = p ++ rest ∧ Inside p

theorem Reads.trans {c : Text} (h : Reads a b) (h' : Reads b c) : Reads a c := by
  obtain ⟨p, rfl, hp⟩ := h
  obtain ⟨q, rfl, hq⟩ := h'
  exact ⟨p ++ q, (List.append_assoc _ _ _).symm, hp.append hq⟩

theorem inside_digit {n : ℕ} (h : ofDigit c = some n) : Inside [c] := by
  unfold ofDigit at h
  have hc : c ≠ 0x22 ∧ c ≠ 0x5C := by
    split_ifs at h <;> omega
  exact Inside.plain hc.1 hc.2

theorem reads_hex4 {n : ℕ} (h : readHex4 text = some (n, rest)) : Reads text rest := by
  match text, h with
  | a :: b :: c :: d :: rest', h =>
    simp only [readHex4, Option.bind_eq_bind, Option.bind_eq_some_iff, Option.pure_def,
      Option.some.injEq, Prod.mk.injEq] at h
    obtain ⟨a', ha, b', hb, c', hc, d', hd, rfl, rfl⟩ := h
    exact ⟨[a, b, c, d], rfl, (inside_digit ha).append ((inside_digit hb).append
      ((inside_digit hc).append (inside_digit hd)))⟩

theorem reads_escape (h : Escapes text c rest) : Reads (0x5C :: text) rest := by
  have hslash : ∀ d t, Reads (0x5C :: d :: t) t := fun d _ => ⟨[0x5C, d], rfl, Inside.escape d⟩
  cases h with
  | char => exact hslash _ _
  | code hcode => exact (hslash _ _).trans (reads_hex4 hcode)
  | pair hcode _ hlow =>
    exact (((hslash _ _).trans (reads_hex4 hcode)).trans (hslash _ _)).trans (reads_hex4 hlow)

theorem reads_string {s : Text} (h : Spells text s rest) : Reads text (0x22 :: rest) := by
  induction h with
  | close => exact ⟨[], rfl, Inside.nil⟩
  | escape hc _ ih => exact (reads_escape hc).trans ih
  | @char text s rest c hquote hslash _ ih =>
    have hone : Reads (c :: text) text := ⟨[c], rfl, Inside.plain hquote hslash⟩
    exact hone.trans ih

theorem passes_string {fuel : ℕ} {s : Text} (h : readString fuel text = some (s, rest)) (d : ℕ) :
    Passes d (0x22 :: text) rest := by
  obtain ⟨p, rfl, hp⟩ := reads_string (.of_read h)
  exact ⟨0x22 :: (p ++ [0x22]), by simp, hp.wrap d⟩

/-! ### Numbers and words -/

/-- The text is inert characters followed by `rest`. -/
def Goes (text rest : Text) : Prop := ∃ p, text = p ++ rest ∧ ∀ c ∈ p, Inert c

theorem Goes.refl (text : Text) : Goes text text := ⟨[], rfl, by simp⟩

theorem Goes.trans {c : Text} (h : Goes a b) (h' : Goes b c) : Goes a c := by
  obtain ⟨p, rfl, hp⟩ := h
  obtain ⟨q, rfl, hq⟩ := h'
  refine ⟨p ++ q, (List.append_assoc _ _ _).symm, fun c hc => ?_⟩
  rcases List.mem_append.mp hc with hc | hc
  · exact hp c hc
  · exact hq c hc

theorem Goes.cons (hc : Inert c) (h : Goes a b) : Goes (c :: a) b := by
  obtain ⟨p, rfl, hp⟩ := h
  refine ⟨c :: p, rfl, fun c' hc' => ?_⟩
  rcases List.mem_cons.mp hc' with rfl | hc'
  · exact hc
  · exact hp c' hc'

theorem Goes.passes (h : Goes a b) (d : ℕ) : Passes d a b := by
  obtain ⟨p, rfl, hp⟩ := h
  exact ⟨p, rfl, Level.inert d hp⟩

theorem goes_digits (text : Text) : Goes text (text.dropWhile isDigit) :=
  ⟨text.takeWhile isDigit, (List.takeWhile_append_dropWhile).symm,
    fun _ hc => inert_digit (List.all_eq_true.mp List.all_takeWhile _ hc)⟩

theorem goes_integer {ds : Text} (h : readInteger text = some (ds, rest)) : Goes text rest := by
  match text, h with
  | c :: text, h =>
    rw [readInteger] at h
    split_ifs at h with hz hd
    · cases h
      exact (Goes.refl _).cons (by rw [hz]; decide)
    · cases h
      exact (goes_digits text).cons (inert_digit hd)

theorem goes_fraction (text : Text) : Goes text (readFraction text).2 := by
  match text with
  | [] => exact Goes.refl _
  | [_] => exact Goes.refl _
  | c :: d :: rest =>
    rw [readFraction]
    split_ifs with h
    · exact ((goes_digits rest).cons (inert_digit h.2)).cons (by rw [h.1]; decide)
    · exact Goes.refl _

theorem goes_exponent (text : Text) : Goes text (readExponent text).2 := by
  match text with
  | [] => exact Goes.refl _
  | [_] => exact Goes.refl _
  | c :: d :: rest =>
    simp only [readExponent]
    split_ifs with he hd
    · have hc : Inert c := by unfold Inert; omega
      exact ((goes_digits rest).cons (inert_digit hd)).cons hc
    · have hc : Inert c := by unfold Inert; omega
      split
      next e rest' hsign =>
        split_ifs with hdigit
        · have hsign' : Inert d := by
            have := of_decide_eq_true hsign
            unfold Inert
            omega
          exact (((goes_digits rest').cons (inert_digit hdigit)).cons hsign').cons hc
        · exact Goes.refl _
      next => exact Goes.refl _
    · exact Goes.refl _

variable {floatRepr : Text → Text}

variable {v : Json}

theorem goes_magnitude {negative : Bool}
    (h : readMagnitude floatRepr negative text = some (v, rest)) : Goes text rest := by
  obtain ⟨ds, rest', hds, rfl, -⟩ := readMagnitude_cases h
  exact ((goes_integer hds).trans (goes_fraction rest')).trans (goes_exponent _)

theorem inert_words : ∀ e ∈ words, ∀ c ∈ e.1, Inert c := by decide +kernel

theorem goes_plain (h : readPlain floatRepr text = some (v, rest)) : Goes text rest := by
  rcases readPlain_cases h with ⟨e, he, rfl, -⟩ | ⟨negative, text', rfl | rfl, hread⟩
  · exact ⟨e.1, rfl, inert_words e he⟩
  · exact goes_magnitude hread
  · exact (goes_magnitude hread).cons (by decide)

/-! ### Values -/

theorem inert_comma : Inert 0x2C := by decide

theorem inert_colon : Inert 0x3A := by decide

theorem passes_wrap {a b : ℕ} (ha : a = 0x7B ∨ a = 0x5B)
    (hb : b = 0x7D ∨ b = 0x5D) (h : Passes d text (b :: rest)) : Passes (d + 1) (a :: text) rest := by
  obtain ⟨p, rfl, hp⟩ := h
  exact ⟨a :: (p ++ [b]), by simp, hp.wrap ha hb⟩

/-- What closes a part, if it is not a value of its own. -/
def Part.closing : Part → Text
  | .value => []
  | .members _ => [0x7D]
  | .items _ => [0x5D]

theorem passes_mark (hc : Inert c) (d : ℕ) (h : skip text = c :: rest) : Passes d text (skip rest) :=
  (passes_expect hc d (by rw [h, expect_mark])).trans (passes_skip d rest)

theorem passes_close {closing : Text} (d : ℕ) (h : skip text = closing) : Passes d text closing :=
  h ▸ passes_skip d text

variable {depth : ℕ}

/-- **What the reader takes** leaves the count where it was, and raises it no further than the reader follows it. -/
theorem passes_of_takes {n : ℕ} {part : Part}
    (h : Takes floatRepr n depth part text v rest) : Passes depth text (Part.closing part ++ rest) := by
  induction h with
  | string hs => exact passes_string hs _
  | noMembers hclose => exact passes_wrap (Or.inl rfl) (Or.inl rfl) (passes_close _ hclose)
  | object _ ih => exact passes_wrap (Or.inl rfl) (Or.inl rfl) ((passes_skip _ _).trans ih)
  | noItems hclose => exact passes_wrap (Or.inr rfl) (Or.inr rfl) (passes_close _ hclose)
  | array _ _ ih => exact passes_wrap (Or.inr rfl) (Or.inr rfl) ((passes_skip _ _).trans ih)
  | plain _ h => exact (goes_plain h).passes _
  | member hkey hcolon _ hcomma _ ihv ih =>
    have hvalue := ((passes_string hkey _).trans (passes_mark inert_colon _ hcolon)).trans ihv
    exact (hvalue.trans (passes_mark inert_comma _ hcomma)).trans ih
  | lastMember hkey hcolon _ hclose ihv =>
    have hvalue := ((passes_string hkey _).trans (passes_mark inert_colon _ hcolon)).trans ihv
    exact hvalue.trans (passes_close _ hclose)
  | item _ hcomma _ ihv ih => exact (Passes.trans ihv (passes_mark inert_comma _ hcomma)).trans ih
  | lastItem _ hclose ihv => exact Passes.trans ihv (passes_close _ hclose)

theorem passes_readValue {fuel : ℕ}
    (h : readValue floatRepr fuel depth text = some (v, rest)) : Passes depth text rest :=
  passes_of_takes (takes_of_readValue h)

theorem peak_of_loads (h : loads floatRepr depth text = some v) : (out 0).peak text ≤ depth := by
  unfold loads at h
  split at h
  next value rest hread =>
    split_ifs at h with hend
    have hend' := passes_skip depth rest
    rw [hend] at hend'
    obtain ⟨p, hp, hlevel⟩ := ((passes_skip depth text).trans (passes_readValue hread)).trans hend'
    rw [List.append_nil] at hp
    rw [hp]
    have := (hlevel 0).2
    omega
  next => cases h

mutual

/-- **Where the reader comes to a bracket that is too deep**, the count has risen above the limit. -/
theorem peak_of_deepValue : ∀ (fuel : ℕ) {depth : ℕ} {text : Text},
    deepValue floatRepr fuel depth text = true → ∀ k : ℤ, k + depth < (out k).peak text
  | 0, _, _, h, _ => by cases h
  | _ + 1, _, [], h, _ => by cases h
  | fuel + 1, depth, c :: text, h, k => by
    have hinto : c = 0x7B ∨ c = 0x5B → (out (k + 1)).peak text ≤ (out k).peak (c :: text) := by
      intro hc
      show _ ≤ max k (((out k).step c).peak text)
      rw [step_open hc]
      exact le_max_right _ _
    have hdeep : ∀ {d : ℕ}, (out (k + 1)).peak (skip text) ≤ (out (k + 1)).peak text := fun {d} =>
      (passes_skip d text).peak_le (k + 1)
    unfold deepValue at h
    split_ifs at h with hbrace hbracket
    · have hle := hinto (Or.inl hbrace)
      match depth, h with
      | 0, _ =>
        have := depth_le_peak (out (k + 1)) text
        have hout : (out (k + 1)).depth = k + 1 := rfl
        push_cast
        omega
      | depth + 1, h =>
        dsimp only at h
        cases hexpect : expect [0x7D] (skip text) with
        | some rest' =>
          rw [hexpect] at h
          cases h
        | none =>
          rw [hexpect] at h
          have hmembers := peak_of_deepMembers fuel h (k + 1)
          have hskip := @hdeep depth
          push_cast
          omega
    · have hle := hinto (Or.inr hbracket)
      match depth, h with
      | 0, _ =>
        have := depth_le_peak (out (k + 1)) text
        have hout : (out (k + 1)).depth = k + 1 := rfl
        push_cast
        omega
      | depth + 1, h =>
        dsimp only at h
        cases hexpect : expect [0x5D] (skip text) with
        | some rest' =>
          rw [hexpect] at h
          cases h
        | none =>
          rw [hexpect] at h
          have hitems := peak_of_deepItems fuel h (k + 1)
          have hskip := @hdeep depth
          push_cast
          omega

theorem peak_of_deepMembers : ∀ (fuel : ℕ) {depth : ℕ} {text : Text},
    deepMembers floatRepr fuel depth text = true → ∀ k : ℤ, k + depth < (out k).peak text
  | 0, _, _, h, _ => by cases h
  | fuel + 1, depth, text, h, k => by
    rw [deepMembers] at h
    cases hquote : expect [0x22] text with
    | none =>
      rw [hquote] at h
      cases h
    | some rest₁ =>
      rw [hquote] at h
      dsimp only at h
      cases hkey : readString rest₁.length rest₁ with
      | none =>
        rw [hkey] at h
        cases h
      | some read =>
        obtain ⟨key, rest₂⟩ := read
        rw [hkey] at h
        dsimp only at h
        cases hcolon : expect [0x3A] (skip rest₂) with
        | none =>
          rw [hcolon] at h
          cases h
        | some rest₃ =>
          rw [hcolon] at h
          have hto : Passes depth text (skip rest₃) := by
            rw [append_of_expect hquote]
            exact ((passes_string hkey depth).trans (passes_expect inert_colon depth hcolon)).trans
              (passes_skip depth rest₃)
          rcases Bool.or_eq_true_iff.mp h with h | h
          · exact lt_of_lt_of_le (peak_of_deepValue fuel h k) (hto.peak_le k)
          · cases hvalue : readValue floatRepr fuel depth (skip rest₃) with
            | none =>
              rw [hvalue] at h
              cases h
            | some read =>
              obtain ⟨value, rest₄⟩ := read
              rw [hvalue] at h
              dsimp only at h
              cases hcomma : expect [0x2C] (skip rest₄) with
              | none =>
                rw [hcomma] at h
                cases h
              | some rest₅ =>
                rw [hcomma] at h
                have hnext := ((hto.trans (passes_readValue hvalue)).trans
                  (passes_expect inert_comma depth hcomma)).trans (passes_skip depth rest₅)
                exact lt_of_lt_of_le (peak_of_deepMembers fuel h k) (hnext.peak_le k)

theorem peak_of_deepItems : ∀ (fuel : ℕ) {depth : ℕ} {text : Text},
    deepItems floatRepr fuel depth text = true → ∀ k : ℤ, k + depth < (out k).peak text
  | 0, _, _, h, _ => by cases h
  | fuel + 1, depth, text, h, k => by
    rw [deepItems] at h
    rcases Bool.or_eq_true_iff.mp h with h | h
    · exact peak_of_deepValue fuel h k
    · cases hvalue : readValue floatRepr fuel depth text with
      | none =>
        rw [hvalue] at h
        cases h
      | some read =>
        obtain ⟨value, rest₄⟩ := read
        rw [hvalue] at h
        dsimp only at h
        cases hcomma : expect [0x2C] (skip rest₄) with
        | none =>
          rw [hcomma] at h
          cases h
        | some rest₅ =>
          rw [hcomma] at h
          have hnext := ((passes_readValue hvalue).trans (passes_expect inert_comma depth hcomma)).trans
            (passes_skip depth rest₅)
          exact lt_of_lt_of_le (peak_of_deepItems fuel h k) (hnext.peak_le k)

end

/-- **A text whose count stays within the limit never takes the reader deeper.** -/
theorem not_tooDeep_of_peak (h : (out 0).peak text ≤ depth) : tooDeep floatRepr depth text = false := by
  rw [← Bool.not_eq_true]
  intro hdeep
  have hpeak := peak_of_deepValue _ hdeep 0
  have hskip := (passes_skip depth text).peak_le 0
  omega

/-! ### Documents of the grammar -/

/-- What may stand between the quotes of a string. -/
inductive Chars : Text → Prop
  | nil : Chars []
  | plain {c : ℕ} {s : Text} : 0x20 ≤ c → c ≠ 0x22 → c ≠ 0x5C → Chars s → Chars (c :: s)
  | escape {c : ℕ} {s : Text} : (unescape c).isSome → Chars s → Chars (0x5C :: c :: s)
  | unicode {a b c d : ℕ} {s : Text} : (∀ x ∈ [a, b, c, d], (ofDigit x).isSome) → Chars s →
      Chars (0x5C :: 0x75 :: a :: b :: c :: d :: s)

/-- The integer part of a number, without its sign. -/
def Whole (t : Text) : Prop :=
  t = [0x30] ∨ ∃ c ds, t = c :: ds ∧ c ≠ 0x30 ∧ ∀ d ∈ t, isDigit d = true

def Fraction (t : Text) : Prop := t = [] ∨ ∃ ds, t = 0x2E :: ds ∧ ds ≠ [] ∧ ∀ d ∈ ds, isDigit d = true

def Exponent (t : Text) : Prop :=
  t = [] ∨ ∃ e sign ds, t = e :: (sign ++ ds) ∧ (e = 0x65 ∨ e = 0x45) ∧
    (sign = [] ∨ sign = [0x2B] ∨ sign = [0x2D]) ∧ ds ≠ [] ∧ ∀ d ∈ ds, isDigit d = true

def Number (t : Text) : Prop :=
  ∃ sign whole fraction exponent, t = sign ++ (whole ++ (fraction ++ exponent)) ∧
    (sign = [] ∨ sign = [0x2D]) ∧ Whole whole ∧ Fraction fraction ∧ Exponent exponent

def Blanks (t : Text) : Prop := ∀ c ∈ t, isBlank c = true

mutual

/-- **A value of the grammar**, nested at most `d` deep. -/
inductive Value : ℕ → Text → Prop
  | word {d : ℕ} {t : Text} : t ∈ [ascii "null", ascii "true", ascii "false"] → Value d t
  | number {d : ℕ} {t : Text} : Number t → Value d t
  | string {d : ℕ} {s : Text} : Chars s → Value d (0x22 :: (s ++ [0x22]))
  | object {d : ℕ} {w m : Text} : Blanks w → Members d m → Value (d + 1) (0x7B :: ((w ++ m) ++ [0x7D]))
  | array {d : ℕ} {w m : Text} : Blanks w → Items d m → Value (d + 1) (0x5B :: ((w ++ m) ++ [0x5D]))

/-- What may stand between the braces of an object, white space in front apart. -/
inductive Members : ℕ → Text → Prop
  | empty {d : ℕ} : Members d []
  | last {d : ℕ} {s v a b c : Text} : Chars s → Blanks a → Blanks b → Value d v → Blanks c →
      Members d ((0x22 :: (s ++ [0x22])) ++ (a ++ ([0x3A] ++ (b ++ (v ++ c)))))
  | more {d : ℕ} {s v a b c e m : Text} : Chars s → Blanks a → Blanks b → Value d v → Blanks c →
      Blanks e → m ≠ [] → Members d m →
      Members d ((0x22 :: (s ++ [0x22])) ++ (a ++ ([0x3A] ++ (b ++ (v ++ (c ++ ([0x2C] ++ (e ++ m))))))))

/-- What may stand between the brackets of an array, white space in front apart. -/
inductive Items : ℕ → Text → Prop
  | empty {d : ℕ} : Items d []
  | last {d : ℕ} {v a : Text} : Value d v → Blanks a → Items d (v ++ a)
  | more {d : ℕ} {v a b m : Text} : Value d v → Blanks a → Blanks b → m ≠ [] → Items d m →
      Items d (v ++ (a ++ ([0x2C] ++ (b ++ m))))

end

/-- **A document of the grammar**, nested at most `d` deep. -/
def Document (d : ℕ) (text : Text) : Prop :=
  ∃ a v b, text = a ++ (v ++ b) ∧ Blanks a ∧ Value d v ∧ Blanks b

theorem inside_chars {s : Text} (h : Chars s) : Inside s := by
  induction h with
  | nil => exact Inside.nil
  | plain _ hquote hslash _ ih => exact (Inside.plain hquote hslash).append ih
  | escape _ _ ih => exact (Inside.escape _).append ih
  | @unicode a b c d s hdigits _ ih =>
    have hone : ∀ x ∈ [a, b, c, d], Inside [x] := fun x hx => by
      obtain ⟨n, hn⟩ := Option.isSome_iff_exists.mp (hdigits x hx)
      exact inside_digit hn
    have hfour : Inside [a, b, c, d] :=
      (hone a (by simp)).append ((hone b (by simp)).append ((hone c (by simp)).append (hone d (by simp))))
    exact ((Inside.escape 0x75).append hfour).append ih

theorem Level.blanks {t : Text} (h : Blanks t) (d : ℕ) : Level d t :=
  Level.inert d fun c hc => inert_blank (h c hc)

theorem Level.mark (h : Inert c) (d : ℕ) : Level d [c] := Level.plain h.1 h.2.1 h.2.2 d

theorem Level.digits {t : Text} (h : ∀ d ∈ t, isDigit d = true) (d : ℕ) : Level d t :=
  Level.inert d fun c hc => inert_digit (h c hc)

theorem level_number {t : Text} (h : Number t) (d : ℕ) : Level d t := by
  obtain ⟨sign, whole, fraction, exponent, rfl, hsign, hwhole, hfraction, hexponent⟩ := h
  have hs : Level d sign := by
    rcases hsign with rfl | rfl
    · exact Level.nil d
    · exact Level.mark (by decide) d
  have hw : Level d whole := by
    rcases hwhole with rfl | ⟨c, ds, rfl, -, hds⟩
    · exact Level.mark (by decide) d
    · exact Level.digits hds d
  have hf : Level d fraction := by
    rcases hfraction with rfl | ⟨ds, rfl, -, hds⟩
    · exact Level.nil d
    · exact (Level.mark (c := 0x2E) (by decide) d).append (Level.digits hds d)
  have he : Level d exponent := by
    rcases hexponent with rfl | ⟨e, sign, ds, rfl, he, hsign, -, hds⟩
    · exact Level.nil d
    · have hone : Inert e := by unfold Inert; omega
      have hsigned : Level d sign := by
        rcases hsign with rfl | rfl | rfl
        · exact Level.nil d
        · exact Level.mark (by decide) d
        · exact Level.mark (by decide) d
      exact (Level.mark hone d).append (hsigned.append (Level.digits hds d))
  exact hs.append (hw.append (hf.append he))

theorem level_word {t : Text} (h : t ∈ [ascii "null", ascii "true", ascii "false"]) (d : ℕ) : Level d t := by
  refine Level.inert d ?_
  revert t
  decide +kernel

mutual

theorem level_value : ∀ {d : ℕ} {t : Text}, Value d t → Level d t
  | d, _, .word h => level_word h d
  | d, _, .number h => level_number h d
  | d, _, .string h => (inside_chars h).wrap d
  | _, _, .object hw hm => ((Level.blanks hw _).append (level_members hm)).wrap (Or.inl rfl) (Or.inl rfl)
  | _, _, .array hw hm => ((Level.blanks hw _).append (level_items hm)).wrap (Or.inr rfl) (Or.inr rfl)

theorem level_members : ∀ {d : ℕ} {t : Text}, Members d t → Level d t
  | d, _, .empty => Level.nil d
  | d, _, .last hs ha hb hv hc =>
    ((inside_chars hs).wrap d).append ((Level.blanks ha d).append ((Level.mark inert_colon d).append
      ((Level.blanks hb d).append ((level_value hv).append (Level.blanks hc d)))))
  | d, _, .more hs ha hb hv hc he _ hm =>
    ((inside_chars hs).wrap d).append ((Level.blanks ha d).append ((Level.mark inert_colon d).append
      ((Level.blanks hb d).append ((level_value hv).append ((Level.blanks hc d).append
        ((Level.mark inert_comma d).append ((Level.blanks he d).append (level_members hm))))))))

theorem level_items : ∀ {d : ℕ} {t : Text}, Items d t → Level d t
  | d, _, .empty => Level.nil d
  | d, _, .last hv ha => (level_value hv).append (Level.blanks ha d)
  | d, _, .more hv ha hb _ hm =>
    (level_value hv).append ((Level.blanks ha d).append ((Level.mark inert_comma d).append
      ((Level.blanks hb d).append (level_items hm))))

end

theorem peak_document (h : Document d text) : (out 0).peak text ≤ d := by
  obtain ⟨a, v, b, rfl, ha, hv, hb⟩ := h
  have := (((Level.blanks ha d).append ((level_value hv).append (Level.blanks hb d))) 0).2
  omega

/-! ### Bytes -/

/-- A character beyond the ASCII ones, or a byte of it: it only ends an escape. -/
def calm (s : Count) : Count := if s.inString then { s with escaped := false } else s

theorem step_far (h : 0x80 ≤ c) (s : Count) : s.step c = calm s := by
  unfold Count.step calm
  rw [if_neg (by omega : ¬ c = 0x5C), if_neg (by omega : ¬ c = 0x22), if_neg (by omega : ¬ (c = 0x7B ∨ c = 0x5B)),
    if_neg (by omega : ¬ (c = 0x7D ∨ c = 0x5D)), if_neg (by omega : ¬ c = 0x22)]
  by_cases hin : s.inString = true
  · rw [if_pos hin, if_pos hin]
    by_cases hesc : s.escaped = true
    · rw [if_pos hesc]
    · rw [if_neg hesc, ← Bool.not_eq_true _ |>.mp hesc]
  · rw [if_neg hin, if_neg hin]

theorem calm_calm (s : Count) : calm (calm s) = calm s := by
  unfold calm
  by_cases hin : s.inString = true
  · rw [if_pos hin, if_pos hin]
  · rw [if_neg hin, if_neg hin]

theorem depth_calm (s : Count) : (calm s).depth = s.depth := by
  unfold calm
  by_cases hin : s.inString = true
  · rw [if_pos hin]
  · rw [if_neg hin]

theorem peak_far (h : 0x80 ≤ c) (s : Count) (text : Text) : s.peak (c :: text) = (calm s).peak text := by
  show max s.depth ((s.step c).peak text) = _
  rw [step_far h]
  have := depth_le_peak (calm s) text
  rw [depth_calm] at this
  exact max_eq_right this

/-- **The count over the bytes is the count over what they encode.** -/
theorem peak_decode : ∀ {k n low : ℕ} {data : Bytes} {text : Text} (s : Count), (0 < k → 0x80 ≤ low) →
    decodeMore k n low data = some text →
    (if k = 0 then s else calm s).peak (data.map UInt8.toNat) = s.peak text
  | 0, _, _, [], text, s, _, h => by
    cases h
    rfl
  | _ + 1, _, _, [], text, s, _, h => by cases h
  | 0, n, low, a :: data, text, s, _, h => by
    rw [decodeMore] at h
    rw [if_pos rfl, List.map_cons]
    split_ifs at h with hone htwo hthree hfour hfive
    · obtain ⟨text, hrest, rfl⟩ := Option.map_eq_some_iff.mp h
      have ih := peak_decode (s.step a.toNat) (fun h => absurd h (lt_irrefl 0)) hrest
      rw [if_pos rfl] at ih
      show max s.depth ((s.step a.toNat).peak _) = max s.depth _
      rw [ih]
    · rw [peak_far (by omega)]
      exact peak_decode s (fun _ => le_rfl) h
    · rw [peak_far (by omega)]
      exact peak_decode s (fun _ => by omega) h
    · rw [peak_far (by omega)]
      exact peak_decode s (fun _ => by omega) h
  | k + 1, n, low, b :: data, text, s, hlow, h => by
    rw [decodeMore] at h
    rw [if_neg (Nat.succ_ne_zero k), List.map_cons]
    have hlow := hlow (Nat.succ_pos k)
    rcases htail : tail b with _ | x
    · rw [htail] at h
      cases h
    · have hb : 0x80 ≤ b.toNat := by
        unfold tail at htail
        split_ifs at htail with hb
        exact hb.1
      rw [htail] at h
      rw [peak_far hb, calm_calm]
      dsimp only at h
      split_ifs at h with hk hs
      · obtain ⟨text, hrest, rfl⟩ := Option.map_eq_some_iff.mp h
        have ih := peak_decode (calm s) (fun h => absurd h (lt_irrefl 0)) hrest
        rw [if_pos rfl] at ih
        rw [peak_far (hlow.trans hs.1), ih]
      · have ih := peak_decode s (fun _ => hlow) h
        rwa [if_neg hk] at ih

theorem peak_of_decode {data : Bytes} (h : decodeUtf8 data = some text) (s : Count) :
    s.peak (data.map UInt8.toNat) = s.peak text :=
  peak_decode s (fun h => absurd h (lt_irrefl 0)) h

end NMesh.Base.JsonNesting
