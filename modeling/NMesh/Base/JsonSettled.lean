import NMesh.Base.JsonRead
import NMesh.Base.JsonSteady

/-! # What is read is settled

Two escapes that make a surrogate pair are read as one character, and text that was decoded has no other
surrogates. So no string that is read holds a surrogate pair (`readString_apart`), nor does what `loads` returns
(`settled_of_loads`). -/

namespace NMesh.Base.JsonSettled

open Base.Utf8 Base.Ordered Base.JsonText Base.JsonTakes Base.JsonRead
open Base.JsonSteady

def Scalars (text : Text) : Prop := ∀ c ∈ text, Scalar c

theorem Scalars.suffix {s t : Text} (h : Scalars t) (hs : s <:+ t) : Scalars s := fun c hc => h c (hs.subset hc)

/-! ### Strings -/

theorem not_low_joined {high low : ℕ} (hhigh : isHigh high = true) (hlow : isLow low = true) :
    isHigh (joined high low) = false ∧ isLow (joined high low) = false := by
  have h1 := of_decide_eq_true hhigh
  have h2 := of_decide_eq_true hlow
  constructor
  · refine decide_eq_false ?_
    unfold joined
    omega
  · refine decide_eq_false ?_
    unfold joined
    omega

theorem unescape_ascii {c d : ℕ} (h : unescape c = some d) : isHigh d = false ∧ isLow d = false := by
  unfold unescape at h
  have hd : d < 0x80 := by
    split_ifs at h <;> simp only [Option.some.injEq] at h <;> omega
  exact ⟨decide_eq_false (by omega), decide_eq_false (by omega)⟩

variable {text rest : Text}

theorem escape_of_low {d : ℕ} {s : Text} (ht : Scalars text) (h : Spells text (d :: s) rest) (hd : isLow d = true) :
    ∃ more last, expect [0x5C, 0x75] text = some more ∧ readHex4 more = some (d, last) := by
  cases h with
  | escape hc _ =>
    cases hc with
    | char h =>
      rw [(unescape_ascii h).2] at hd
      cases hd
    | code hcode => exact ⟨_, _, rfl, hcode⟩
    | pair _ hhigh _ hpair =>
      rw [(not_low_joined hhigh hpair).2] at hd
      cases hd
  | char =>
    have hc := ht d List.mem_cons_self
    have hlow := of_decide_eq_true hd
    unfold Scalar at hc
    omega

theorem no_low_after_high {c : ℕ} (h : Escapes text c rest)
    (hc : isHigh c = true) {more last : Text} {low : ℕ} (hmore : expect [0x5C, 0x75] rest = some more)
    (hlow : readHex4 more = some (low, last)) : isLow low = false := by
  cases h with
  | char h =>
    rw [(unescape_ascii h).1] at hc
    cases hc
  | code _ hlast =>
    obtain ⟨low', last', hlow', hno⟩ := hlast hc more hmore
    rw [hlow] at hlow'
    rw [(Prod.mk.inj (Option.some.inj hlow')).1]
    exact hno
  | pair _ hhigh _ hpair =>
    rw [(not_low_joined hhigh hpair).1] at hc
    cases hc

theorem readString_apart {fuel : ℕ} {s : Text} (ht : Scalars text) (h : readString fuel text = some (s, rest)) :
    rest <:+ text ∧ s.IsChain Apart := by
  replace h := Spells.of_read h
  induction h with
  | close => exact ⟨List.suffix_cons _ _, List.isChain_nil⟩
  | @escape text rest' s rest c hc h ih =>
    have hmore := (points_escape hc).1.trans (List.suffix_cons 0x5C text)
    obtain ⟨hrest, hchain⟩ := ih (ht.suffix hmore)
    refine ⟨hrest.trans hmore, List.isChain_cons.mpr ⟨fun low hlow => ?_, hchain⟩⟩
    rintro ⟨hishigh, hislow⟩
    cases s with
    | nil => cases hlow
    | cons x s =>
      obtain rfl : x = low := Option.some.inj hlow
      obtain ⟨more, last, hexpect, hhex⟩ := escape_of_low (ht.suffix hmore) h hislow
      rw [no_low_after_high hc hishigh hexpect hhex] at hislow
      cases hislow
  | @char text s rest c _ _ _ ih =>
    obtain ⟨hrest, hchain⟩ := ih (ht.suffix (List.suffix_cons c text))
    refine ⟨hrest.trans (List.suffix_cons c text), List.isChain_cons.mpr ⟨fun d _ => ?_, hchain⟩⟩
    exact apart_of_scalar (ht c List.mem_cons_self) d

/-! ### Values -/

variable {floatRepr : Text → Text}

/-- **A value without surrogate pairs** in its strings and keys, no key twice. -/
inductive Settled : Json → Prop
  | null : Settled .null
  | bool (b : Bool) : Settled (.bool b)
  | int (n : ℤ) : Settled (.int n)
  | float (repr : Text) : Settled (.float repr)
  | str {s : Text} : s.IsChain Apart → Settled (.str s)
  | arr {items : List Json} : (∀ v ∈ items, Settled v) → Settled (.arr items)
  | obj {members : List (Text × Json)} : (members.map Prod.fst).Nodup →
      (∀ e ∈ members, e.1.IsChain Apart) → (∀ e ∈ members, Settled e.2) → Settled (.obj members)

theorem Settled.of_str {s : Text} (h : Settled (.str s)) : s.IsChain Apart := by
  cases h with
  | str h => exact h

theorem Settled.of_obj {members : List (Text × Json)} (h : Settled (.obj members)) :
    ∀ e ∈ members, e.1.IsChain Apart ∧ Settled e.2 := by
  cases h with
  | obj _ hkeys h => exact fun e he => ⟨hkeys e he, h e he⟩

theorem Settled.set {members : List (Text × Json)} (hn : (members.map Prod.fst).Nodup)
    (h : ∀ e ∈ members, e.1.IsChain Apart ∧ Settled e.2) {key : Text} {value : Json}
    (hkey : key.IsChain Apart) (hvalue : Settled value) :
    ((setL key value members).map Prod.fst).Nodup ∧
      ∀ e ∈ setL key value members, e.1.IsChain Apart ∧ Settled e.2 := by
  refine ⟨nodup_setL hn, fun e he => ?_⟩
  rcases mem_setL he with rfl | he
  · exact ⟨hkey, hvalue⟩
  · exact h e he

theorem readPlain_settled {v : Json} (h : readPlain floatRepr text = some (v, rest)) :
    rest <:+ text ∧ Settled v := by
  have hwords : ∀ e ∈ words, Settled e.2 := by
    unfold words
    simp only [List.forall_mem_cons]
    exact ⟨.null, .bool _, .bool _, .float _, .float _, .float _, List.forall_mem_nil _⟩
  have hmagnitude : ∀ {negative : Bool} {text : Text},
      readMagnitude floatRepr negative text = some (v, rest) → rest <:+ text ∧ Settled v := by
    intro negative text h
    obtain ⟨ds, rest', hds, rfl, hv⟩ := readMagnitude_cases h
    refine ⟨((readExponent_suffix _).trans (readFraction_suffix rest')).trans (readInteger_suffix hds).1, ?_⟩
    rcases hv with ⟨rfl, -⟩ | ⟨literal, rfl⟩
    · exact .int _
    · exact .float _
  rcases readPlain_cases h with ⟨e, he, rfl, rfl⟩ | ⟨negative, text', rfl | rfl, hread⟩
  · exact ⟨List.suffix_append _ _, hwords e he⟩
  · exact hmagnitude hread
  · exact ⟨(hmagnitude hread).1.trans (List.suffix_cons _ _), (hmagnitude hread).2⟩

/-- What was read before is settled. -/
def SettledPart : Part → Prop
  | .value => True
  | .members before => (before.map Prod.fst).Nodup ∧ ∀ e ∈ before, e.1.IsChain Apart ∧ Settled e.2
  | .items before => ∀ v ∈ before, Settled v

theorem settled_of_takes {n depth : ℕ} {part : Part} {v : Json}
    (h : Takes floatRepr n depth part text v rest) : Scalars text → SettledPart part → rest <:+ text ∧ Settled v := by
  have hcons : ∀ (c : ℕ) (text : Text), text <:+ c :: text := List.suffix_cons
  have hskip : ∀ (c : ℕ) (text : Text), skip text <:+ c :: text := fun c text => (skip_suffix text).trans (hcons c text)
  have hconcat : ∀ {before : List Json} {value : Json}, (∀ v ∈ before, Settled v) → Settled value →
      ∀ v ∈ before ++ [value], Settled v := by
    intro before value hbefore hvalue v hv
    rcases List.mem_append.mp hv with hv | hv
    · exact hbefore v hv
    · rwa [List.mem_singleton.mp hv]
  induction h with
  | string hs =>
    intro ht _
    obtain ⟨hsuf, hchain⟩ := readString_apart (ht.suffix (hcons _ _)) hs
    exact ⟨hsuf.trans (hcons _ _), .str hchain⟩
  | noMembers hclose =>
    exact fun _ _ => ⟨(suffix_of_skip hclose).trans (hcons _ _),
      .obj List.nodup_nil (fun e he => absurd he List.not_mem_nil) fun e he => absurd he List.not_mem_nil⟩
  | noItems hclose =>
    exact fun _ _ => ⟨(suffix_of_skip hclose).trans (hcons _ _), .arr fun v hv => absurd hv List.not_mem_nil⟩
  | object _ ih =>
    intro ht _
    obtain ⟨hsuf, hv⟩ := ih (ht.suffix (hskip _ _)) ⟨List.nodup_nil, fun e he => absurd he List.not_mem_nil⟩
    exact ⟨hsuf.trans (hskip _ _), hv⟩
  | array _ _ ih =>
    intro ht _
    obtain ⟨hsuf, hv⟩ := ih (ht.suffix (hskip _ _)) fun v hv => absurd hv List.not_mem_nil
    exact ⟨hsuf.trans (hskip _ _), hv⟩
  | plain _ h => exact fun _ _ => readPlain_settled h
  | member hkey hcolon _ hcomma _ ihv ih =>
    intro ht hbefore
    obtain ⟨h₁, hchain⟩ := readString_apart (ht.suffix (hcons _ _)) hkey
    have h₂ := (next_suffix hcolon).trans (h₁.trans (hcons 0x22 _))
    obtain ⟨h₃, hvalue⟩ := ihv (ht.suffix h₂) trivial
    have h₄ := (next_suffix hcomma).trans (h₃.trans h₂)
    obtain ⟨hlast, hv⟩ := ih (ht.suffix h₄) (Settled.set hbefore.1 hbefore.2 hchain hvalue)
    exact ⟨hlast.trans h₄, hv⟩
  | lastMember hkey hcolon _ hclose ihv =>
    intro ht hbefore
    obtain ⟨h₁, hchain⟩ := readString_apart (ht.suffix (hcons _ _)) hkey
    have h₂ := (next_suffix hcolon).trans (h₁.trans (hcons 0x22 _))
    obtain ⟨h₃, hvalue⟩ := ihv (ht.suffix h₂) trivial
    obtain ⟨hnset, hset⟩ := Settled.set hbefore.1 hbefore.2 hchain hvalue
    exact ⟨(suffix_of_skip hclose).trans (h₃.trans h₂),
      .obj hnset (fun e he => (hset e he).1) fun e he => (hset e he).2⟩
  | item _ hcomma _ ihv ih =>
    intro ht hbefore
    obtain ⟨h₁, hvalue⟩ := ihv ht trivial
    have h₂ := (next_suffix hcomma).trans h₁
    obtain ⟨hlast, hv⟩ := ih (ht.suffix h₂) (hconcat hbefore hvalue)
    exact ⟨hlast.trans h₂, hv⟩
  | lastItem _ hclose ihv =>
    intro ht hbefore
    obtain ⟨h₁, hvalue⟩ := ihv ht trivial
    exact ⟨(suffix_of_skip hclose).trans h₁, .arr (hconcat hbefore hvalue)⟩

theorem settled_of_loads {depth : ℕ} {data : BigEndian.Bytes} {v : Json}
    (hdata : decodeUtf8 data = some text) (h : loads floatRepr depth text = some v) : Settled v := by
  unfold loads at h
  split at h
  next value rest hread =>
    have ht : Scalars text := decodeMore_scalar hdata
    obtain ⟨-, hv⟩ := settled_of_takes (takes_of_readValue hread) (ht.suffix (skip_suffix text)) trivial
    split_ifs at h
    rwa [← Option.some.inj h]
  next => cases h

end NMesh.Base.JsonSettled
