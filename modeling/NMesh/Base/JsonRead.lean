import NMesh.Base.JsonStyle

/-! # What the reader returns

`loads` returns values that Python holds, nested no deeper than it follows (`loads_plain`), if every
float it makes is one (`Floats`). The text it reads only gets shorter: what is left of it is a part of
it, and so are its code points. -/

namespace NMesh.Base.JsonRead

open Base.BigEndian Base.Utf8 Base.Hex Base.Ordered Base.JsonText Base.JsonTakes Base.JsonRound
open Base.JsonStyle

/-- Every float the reader makes is written and read back as itself. -/
def Floats (floatRepr : Text → Text) : Prop := ∀ text, FloatText floatRepr (floatRepr text)

theorem floats_wholeRepr : Floats wholeRepr := by
  intro text
  have hzero : FloatText wholeRepr (digits 0 ++ [0x2E, 0x30]) := floatText_wholeRepr 0
  by_cases h : text = digits (ofDigits (text.takeWhile isDigit)) ++ [0x2E, 0x30]
  · rw [wholeRepr, if_pos h, h]
    exact floatText_wholeRepr _
  · rw [wholeRepr, if_neg h]
    exact hzero

/-! ### What is left of a text -/

theorem points_suffix {s t : Text} (h : Points t) (hs : s <:+ t) : Points s :=
  fun c hc => h c (hs.subset hc)

theorem points_cons {c : ℕ} {s : Text} (hc : c < 0x110000) (hs : Points s) : Points (c :: s) := by
  intro d hd
  rcases List.mem_cons.mp hd with rfl | hd
  · exact hc
  · exact hs d hd

theorem skip_suffix (text : Text) : skip text <:+ text := List.dropWhile_suffix _

variable {text rest : Text} {v : Json}

theorem suffix_of_skip {c : ℕ} (h : skip text = c :: rest) : rest <:+ text :=
  (List.suffix_cons c rest).trans (h ▸ skip_suffix text)

theorem next_suffix {c : ℕ} (h : skip text = c :: rest) : skip rest <:+ text :=
  (skip_suffix rest).trans (suffix_of_skip h)

theorem ofDigit_lt {c n : ℕ} (h : ofDigit c = some n) : n < 16 := by
  unfold ofDigit at h
  split_ifs at h <;> simp only [Option.some.injEq] at h <;> omega

theorem readHex4_suffix {n : ℕ} (h : readHex4 text = some (n, rest)) :
    rest <:+ text ∧ n < 0x10000 := by
  match text, h with
  | a :: b :: c :: d :: rest', h =>
    simp only [readHex4, Option.bind_eq_bind, Option.bind_eq_some_iff, Option.pure_def,
      Option.some.injEq, Prod.mk.injEq] at h
    obtain ⟨a', ha, b', hb, c', hc, d', hd, rfl, rfl⟩ := h
    have := ofDigit_lt ha
    have := ofDigit_lt hb
    have := ofDigit_lt hc
    have := ofDigit_lt hd
    refine ⟨⟨[a, b, c, d], rfl⟩, by omega⟩

theorem decodeMore_scalar : ∀ {k n low : ℕ} {data : Bytes} {text : Text},
    decodeMore k n low data = some text → ∀ c ∈ text, Scalar c
  | 0, _, _, [], text, h => by
    cases h
    exact fun c hc => by cases hc
  | _ + 1, _, _, [], text, h => by cases h
  | 0, n, low, a :: data, text, h => by
    rw [decodeMore] at h
    split_ifs at h with hone htwo hthree hfour hfive
    · obtain ⟨text, hrest, rfl⟩ := Option.map_eq_some_iff.mp h
      intro c hc
      rcases List.mem_cons.mp hc with rfl | hc
      · exact Or.inl (by omega)
      · exact decodeMore_scalar hrest c hc
    · exact decodeMore_scalar h
    · exact decodeMore_scalar h
    · exact decodeMore_scalar h
  | k + 1, n, low, b :: data, text, h => by
    rw [decodeMore] at h
    rcases htail : tail b with _ | x
    · rw [htail] at h
      cases h
    · rw [htail] at h
      dsimp only at h
      split_ifs at h with hk hs
      · obtain ⟨text, hrest, rfl⟩ := Option.map_eq_some_iff.mp h
        intro c hc
        rcases List.mem_cons.mp hc with rfl | hc
        · exact hs.2
        · exact decodeMore_scalar hrest c hc
      · exact decodeMore_scalar h

theorem points_decode {data : Bytes} {text : Text} (h : decodeUtf8 data = some text) : Points text :=
  points_of_scalars (decodeMore_scalar h)

/-! ### Strings -/

theorem unescape_lt {c d : ℕ} (h : unescape c = some d) : d < 0x110000 := by
  unfold unescape at h
  split_ifs at h <;> simp only [Option.some.injEq] at h <;> omega

theorem points_escape {c : ℕ} (h : Escapes text c rest) : rest <:+ text ∧ c < 0x110000 := by
  cases h with
  | char h => exact ⟨List.suffix_cons _ _, unescape_lt h⟩
  | code hcode =>
    obtain ⟨hsuf, hlt⟩ := readHex4_suffix hcode
    exact ⟨hsuf.trans (List.suffix_cons _ _), by omega⟩
  | @pair text more rest high low hcode hhigh hlow hpair =>
    have h1 := of_decide_eq_true hhigh
    have h2 := of_decide_eq_true hpair
    have hmore : more <:+ text := (List.suffix_append [0x5C, 0x75] more).trans (readHex4_suffix hcode).1
    refine ⟨((readHex4_suffix hlow).1.trans hmore).trans (List.suffix_cons _ _), ?_⟩
    unfold joined
    omega

theorem readString_points {fuel : ℕ} {text s rest : Text} (hp : Points text)
    (h : readString fuel text = some (s, rest)) : rest <:+ text ∧ Points s := by
  replace h := Spells.of_read h
  induction h with
  | close => exact ⟨List.suffix_cons _ _, fun d hd => by cases hd⟩
  | @escape text rest' s rest c hc _ ih =>
    obtain ⟨hsuf, hlt⟩ := points_escape hc
    have hmore := hsuf.trans (List.suffix_cons 0x5C text)
    obtain ⟨hrest, hs⟩ := ih (points_suffix hp hmore)
    exact ⟨hrest.trans hmore, points_cons hlt hs⟩
  | char _ _ _ ih =>
    obtain ⟨hrest, hs⟩ := ih (points_suffix hp (List.suffix_cons _ _))
    exact ⟨hrest.trans (List.suffix_cons _ _), points_cons (hp _ List.mem_cons_self) hs⟩

/-! ### Numbers -/

theorem readInteger_suffix {text ds rest : Text} (h : readInteger text = some (ds, rest)) :
    rest <:+ text ∧ ∀ d ∈ ds, isDigit d = true := by
  match text, h with
  | c :: text, h =>
    rw [readInteger] at h
    split_ifs at h with hz hd
    · cases h
      refine ⟨List.suffix_cons c _, fun d hd => ?_⟩
      rw [List.mem_singleton.mp hd, hz]
      decide
    · cases h
      refine ⟨(List.dropWhile_suffix _).trans (List.suffix_cons c text), fun d hmem => ?_⟩
      rcases List.mem_cons.mp hmem with rfl | hmem
      · exact hd
      · exact List.all_eq_true.mp List.all_takeWhile d hmem

theorem readFraction_suffix (text : Text) : (readFraction text).2 <:+ text := by
  match text with
  | [] => exact List.suffix_rfl
  | [_] => exact List.suffix_rfl
  | c :: d :: rest =>
    rw [readFraction]
    split_ifs
    · exact (List.dropWhile_suffix _).trans (List.suffix_append [c, d] rest)
    · exact List.suffix_rfl

theorem readExponent_suffix (text : Text) : (readExponent text).2 <:+ text := by
  match text with
  | [] => exact List.suffix_rfl
  | [_] => exact List.suffix_rfl
  | c :: d :: rest =>
    simp only [readExponent]
    split_ifs
    · exact (List.dropWhile_suffix _).trans (List.suffix_append [c, d] rest)
    · split
      next e rest' _ =>
        split_ifs
        · exact (List.dropWhile_suffix _).trans (List.suffix_append [c, d, e] rest')
        · exact List.suffix_rfl
      next => exact List.suffix_rfl
    · exact List.suffix_rfl

theorem ofDigits_lt (ds : Text) (h : ∀ d ∈ ds, isDigit d = true) : ofDigits ds < 10 ^ ds.length := by
  induction ds using List.reverseRecOn with
  | nil => exact Nat.zero_lt_one
  | append_singleton ds d ih =>
    have hd := of_decide_eq_true (h d (by simp))
    have hds := ih fun x hx => h x (by simp [hx])
    rw [ofDigits, List.foldl_append, List.length_append, List.length_singleton, pow_succ]
    change ofDigits ds * 10 + (d - 0x30) < _
    omega

variable {floatRepr : Text → Text}

theorem words_plain : ∀ e ∈ words, Plain floatRepr e.2 ∧ height e.2 = 0 := by
  have hword : ∀ (repr word : Text) (hdump : dumpFloat repr = word)
      (_ : ∃ c t, word = c :: t ∧ isBlank c = false ∧ c ≠ 0x22 ∧ c ≠ 0x7B ∧ c ≠ 0x5B ∧ c ≠ 0x5D)
      (_ : ∀ rest, (words.findSome? fun e => (expect e.1 (word ++ rest)).map (e.2, ·)) =
        some (.float repr, rest)), FloatText floatRepr repr := by
    intro repr word hdump hhead hfind
    refine ⟨by rw [hdump]; exact hhead, fun rest _ => ?_⟩
    unfold readPlain
    rw [hdump, hfind]
  intro e he
  simp only [words, List.mem_cons, List.not_mem_nil, or_false] at he
  rcases he with rfl | rfl | rfl | rfl | rfl | rfl
  · exact ⟨trivial, rfl⟩
  · exact ⟨trivial, rfl⟩
  · exact ⟨trivial, rfl⟩
  · exact ⟨hword _ (ascii "NaN") (by decide) ⟨0x4E, ascii "aN", by decide, by decide, by decide,
      by decide, by decide, by decide⟩ fun _ => rfl, rfl⟩
  · exact ⟨hword _ (ascii "Infinity") (by decide) ⟨0x49, ascii "nfinity", by decide, by decide,
      by decide, by decide, by decide, by decide⟩ fun _ => rfl, rfl⟩
  · exact ⟨hword _ (ascii "-Infinity") (by decide) ⟨0x2D, ascii "Infinity", by decide, by decide,
      by decide, by decide, by decide, by decide⟩ fun _ => rfl, rfl⟩

variable (hfloats : Floats floatRepr)
include hfloats

theorem readMagnitude_plain {negative : Bool}
    (h : readMagnitude floatRepr negative text = some (v, rest)) :
    rest <:+ text ∧ Plain floatRepr v ∧ height v = 0 := by
  obtain ⟨ds, rest', hds, rfl, hv⟩ := readMagnitude_cases h
  obtain ⟨hsuf, hall⟩ := readInteger_suffix hds
  refine ⟨((readExponent_suffix _).trans (readFraction_suffix rest')).trans hsuf, ?_⟩
  rcases hv with ⟨rfl, hlen⟩ | ⟨literal, rfl⟩
  · have hval : (digits (ofDigits ds)).length ≤ maxDigits := by
      rcases Nat.eq_zero_or_pos ds.length with hzero | hpos
      · rw [List.eq_nil_of_length_eq_zero hzero]
        decide
      · exact (length_digits hpos (ofDigits_lt ds hall)).trans hlen
    refine ⟨?_, by cases negative <;> rfl⟩
    cases negative <;> simpa [Plain] using hval
  · exact ⟨hfloats _, rfl⟩

theorem readPlain_plain (h : readPlain floatRepr text = some (v, rest)) :
    rest <:+ text ∧ Plain floatRepr v ∧ height v = 0 := by
  rcases readPlain_cases h with ⟨e, he, rfl, rfl⟩ | ⟨negative, text', rfl | rfl, hread⟩
  · exact ⟨List.suffix_append _ _, words_plain e he⟩
  · exact readMagnitude_plain hfloats hread
  · obtain ⟨hsuf, hv⟩ := readMagnitude_plain hfloats hread
    exact ⟨hsuf.trans (List.suffix_cons _ _), hv⟩

/-! ### Values -/

omit hfloats in
theorem mem_of_getL {k : Text} :
    ∀ {l : List (Text × Json)}, getL k l = some v → (k, v) ∈ l
  | [], h => by cases h
  | (k', v') :: l, h => by
    rw [getL] at h
    split_ifs at h with hk
    · rw [← Option.some.inj h, ← hk]
      exact List.mem_cons_self
    · exact List.mem_cons_of_mem _ (mem_of_getL h)

omit hfloats in
theorem plain_getL {members : List (Text × Json)} {key : Text}
    (h : PlainMembers floatRepr members) (hget : getL key members = some v) : Plain floatRepr v :=
  (plainMembers_iff.mp h _ (mem_of_getL hget)).2

omit hfloats in
theorem mem_setL {k : Text} {e : Text × Json} :
    ∀ {l : List (Text × Json)}, e ∈ setL k v l → e = (k, v) ∨ e ∈ l
  | [], h => Or.inl (List.mem_singleton.mp h)
  | (k', v') :: l, h => by
    rw [setL] at h
    split_ifs at h with hk
    · rcases List.mem_cons.mp h with rfl | h
      · exact Or.inl rfl
      · exact Or.inr (List.mem_cons_of_mem _ h)
    · rcases List.mem_cons.mp h with rfl | h
      · exact Or.inr List.mem_cons_self
      · rcases mem_setL h with rfl | h
        · exact Or.inl rfl
        · exact Or.inr (List.mem_cons_of_mem _ h)

omit hfloats in
theorem plain_setL {members : List (Text × Json)} {key : Text} {value : Json} {depth : ℕ}
    (hmembers : PlainMembers floatRepr members) (hd : heightMembers members ≤ depth) (hkey : Points key)
    (hvalue : Plain floatRepr value) (hh : height value ≤ depth) :
    PlainMembers floatRepr (setL key value members) ∧ heightMembers (setL key value members) ≤ depth := by
  rw [plainMembers_iff] at hmembers ⊢
  rw [heightMembers_le] at hd ⊢
  constructor
  · intro e he
    rcases mem_setL he with rfl | he
    · exact ⟨hkey, hvalue⟩
    · exact hmembers e he
  · intro e he
    rcases mem_setL he with rfl | he
    · exact hh
    · exact hd e he

omit hfloats in
theorem plain_concat {items : List Json} {value : Json} {depth : ℕ} (hitems : PlainItems floatRepr items)
    (hd : heightItems items ≤ depth) (hvalue : Plain floatRepr value) (hh : height value ≤ depth) :
    PlainItems floatRepr (items ++ [value]) ∧ heightItems (items ++ [value]) ≤ depth := by
  rw [plainItems_iff] at hitems ⊢
  rw [heightItems_le] at hd ⊢
  constructor
  · intro v hv
    rcases List.mem_append.mp hv with hv | hv
    · exact hitems v hv
    · rwa [List.mem_singleton.mp hv]
  · intro v hv
    rcases List.mem_append.mp hv with hv | hv
    · exact hd v hv
    · rwa [List.mem_singleton.mp hv]

variable (floatRepr) in
/-- What was read before is plain. -/
def PlainPart (depth : ℕ) : Part → Prop
  | .value => True
  | .members before => PlainMembers floatRepr before ∧ heightMembers before ≤ depth
  | .items before => PlainItems floatRepr before ∧ heightItems before ≤ depth

def Part.bound (depth : ℕ) : Part → ℕ
  | .value => depth
  | _ => depth + 1

/-- **A value that is read is one that Python holds**, no deeper than was allowed. -/
theorem plain_of_takes {n depth : ℕ} {part : Part}
    (h : Takes floatRepr n depth part text v rest) : Points text → PlainPart floatRepr depth part →
    rest <:+ text ∧ Plain floatRepr v ∧ height v ≤ Part.bound depth part := by
  have hcons : ∀ (c : ℕ) (text : Text), text <:+ c :: text := List.suffix_cons
  have hskip : ∀ (c : ℕ) (text : Text), skip text <:+ c :: text := fun c text => (skip_suffix text).trans (hcons c text)
  induction h with
  | string hs =>
    intro hp _
    obtain ⟨hsuf, hs⟩ := readString_points (points_suffix hp (hcons _ _)) hs
    exact ⟨hsuf.trans (hcons _ _), hs, Nat.zero_le _⟩
  | noMembers hclose | noItems hclose =>
    exact fun _ _ => ⟨(suffix_of_skip hclose).trans (hcons _ _), trivial, Nat.succ_le_succ (Nat.zero_le _)⟩
  | object _ ih | array _ _ ih =>
    intro hp _
    obtain ⟨hsuf, hv⟩ := ih (points_suffix hp (hskip _ _)) ⟨trivial, Nat.zero_le _⟩
    exact ⟨hsuf.trans (hskip _ _), hv⟩
  | plain _ h =>
    intro _ _
    obtain ⟨hsuf, hv, hh⟩ := readPlain_plain hfloats h
    exact ⟨hsuf, hv, hh ▸ Nat.zero_le _⟩
  | member hkey hcolon _ hcomma _ ihv ih =>
    intro hp hbefore
    obtain ⟨h₁, hpoints⟩ := readString_points (points_suffix hp (hcons _ _)) hkey
    have h₂ := (next_suffix hcolon).trans (h₁.trans (hcons 0x22 _))
    obtain ⟨h₃, hplain, hheight⟩ := ihv (points_suffix hp h₂) trivial
    have h₄ := (next_suffix hcomma).trans (h₃.trans h₂)
    obtain ⟨hlast, hv⟩ := ih (points_suffix hp h₄) (plain_setL hbefore.1 hbefore.2 hpoints hplain hheight)
    exact ⟨hlast.trans h₄, hv⟩
  | lastMember hkey hcolon _ hclose ihv =>
    intro hp hbefore
    obtain ⟨h₁, hpoints⟩ := readString_points (points_suffix hp (hcons _ _)) hkey
    have h₂ := (next_suffix hcolon).trans (h₁.trans (hcons 0x22 _))
    obtain ⟨h₃, hplain, hheight⟩ := ihv (points_suffix hp h₂) trivial
    obtain ⟨hset, hsetd⟩ := plain_setL hbefore.1 hbefore.2 hpoints hplain hheight
    exact ⟨(suffix_of_skip hclose).trans (h₃.trans h₂), hset, Nat.succ_le_succ hsetd⟩
  | item _ hcomma _ ihv ih =>
    intro hp hbefore
    obtain ⟨h₁, hplain, hheight⟩ := ihv hp trivial
    have h₂ := (next_suffix hcomma).trans h₁
    obtain ⟨hlast, hv⟩ := ih (points_suffix hp h₂) (plain_concat hbefore.1 hbefore.2 hplain hheight)
    exact ⟨hlast.trans h₂, hv⟩
  | lastItem _ hclose ihv =>
    intro hp hbefore
    obtain ⟨h₁, hplain, hheight⟩ := ihv hp trivial
    obtain ⟨hset, hsetd⟩ := plain_concat hbefore.1 hbefore.2 hplain hheight
    exact ⟨(suffix_of_skip hclose).trans h₁, hset, Nat.succ_le_succ hsetd⟩

/-- **What `loads` returns is a value that Python holds**, no deeper than it follows. -/
theorem loads_plain {depth : ℕ} {text : Text} (hp : Points text)
    (h : loads floatRepr depth text = some v) : Plain floatRepr v ∧ height v ≤ depth := by
  unfold loads at h
  split at h
  next value rest hread =>
    obtain ⟨-, hv⟩ := plain_of_takes hfloats (takes_of_readValue hread) (points_suffix hp (skip_suffix text)) trivial
    split_ifs at h
    rwa [← Option.some.inj h]
  next => cases h

end NMesh.Base.JsonRead
