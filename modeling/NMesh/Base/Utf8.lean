import NMesh.Base.BigEndian
import Mathlib.Tactic.SplitIfs

/-! # UTF-8

A string is the list of its code points, lone surrogates included. `encodeUtf8` and `decodeUtf8` are
the strict codec: a surrogate has no encoding, and an overlong form, an encoded surrogate or a number
above `0x10FFFF` is refused. -/

namespace NMesh.Base.Utf8

open Base.BigEndian

abbrev Text := List ℕ

instance lawfulText : LawfulBEq Text := inferInstance

def ascii (s : String) : Text := s.toList.map Char.toNat

/-- A code point that is no surrogate. -/
def Scalar (c : ℕ) : Prop := c < 0xD800 ∨ 0xE000 ≤ c ∧ c < 0x110000

instance (c : ℕ) : Decidable (Scalar c) := by unfold Scalar; infer_instance

/-! ### Encoding -/

def encodeChar (c : ℕ) : Bytes :=
  if c < 0x80 then [UInt8.ofNat c]
  else if c < 0x800 then [UInt8.ofNat (0xC0 + c / 64), UInt8.ofNat (0x80 + c % 64)]
  else if c < 0x10000 then
    [UInt8.ofNat (0xE0 + c / 4096), UInt8.ofNat (0x80 + c / 64 % 64), UInt8.ofNat (0x80 + c % 64)]
  else
    [UInt8.ofNat (0xF0 + c / 262144), UInt8.ofNat (0x80 + c / 4096 % 64),
      UInt8.ofNat (0x80 + c / 64 % 64), UInt8.ofNat (0x80 + c % 64)]

/-- `text.encode("utf-8")`; `none` where it raises. -/
def encodeUtf8 : Text → Option Bytes
  | [] => some []
  | c :: text => if Scalar c then (encodeUtf8 text).map (encodeChar c ++ ·) else none

/-! ### Decoding -/

def tail (b : UInt8) : Option ℕ :=
  if 0x80 ≤ b.toNat ∧ b.toNat < 0xC0 then some (b.toNat - 0x80) else none

/-- Decode, inside a code point: `k` continuation bytes are missing, `n` is what was read of it, and
it must not be below `low`. -/
def decodeMore : ℕ → ℕ → ℕ → Bytes → Option Text
  | 0, _, _, [] => some []
  | _ + 1, _, _, [] => none
  | 0, _, _, a :: data =>
    if a.toNat < 0x80 then (decodeMore 0 0 0 data).map (a.toNat :: ·)
    else if a.toNat < 0xC2 then none
    else if a.toNat < 0xE0 then decodeMore 1 (a.toNat - 0xC0) 0x80 data
    else if a.toNat < 0xF0 then decodeMore 2 (a.toNat - 0xE0) 0x800 data
    else if a.toNat < 0xF5 then decodeMore 3 (a.toNat - 0xF0) 0x10000 data
    else none
  | k + 1, n, low, b :: data =>
    match tail b with
    | none => none
    | some x =>
      if k = 0 then
        if low ≤ n * 64 + x ∧ Scalar (n * 64 + x) then
          (decodeMore 0 0 0 data).map ((n * 64 + x) :: ·)
        else none
      else decodeMore k (n * 64 + x) low data

/-- `data.decode("utf-8")`; `none` where it raises. -/
def decodeUtf8 (data : Bytes) : Option Text := decodeMore 0 0 0 data

/-! ### The codec -/

theorem toNat_ofNat {n : ℕ} (h : n < 256) : (UInt8.ofNat n).toNat = n := by
  rw [UInt8.toNat_ofNat']
  omega

theorem tail_ofNat {x : ℕ} (h : x < 64) : tail (UInt8.ofNat (0x80 + x)) = some x := by
  unfold tail
  rw [toNat_ofNat (by omega), if_pos (by omega), Nat.add_sub_cancel_left]

theorem decodeMore_tail {k n low x : ℕ} (h : x < 64) (data : Bytes) :
    decodeMore (k + 2) n low (UInt8.ofNat (0x80 + x) :: data) =
      decodeMore (k + 1) (n * 64 + x) low data := by
  rw [decodeMore, tail_ofNat h]
  rfl

theorem decodeMore_last {n low x : ℕ} (h : x < 64) (hlow : low ≤ n * 64 + x)
    (hs : Scalar (n * 64 + x)) (data : Bytes) :
    decodeMore 1 n low (UInt8.ofNat (0x80 + x) :: data) =
      (decodeUtf8 data).map ((n * 64 + x) :: ·) := by
  rw [decodeMore, tail_ofNat h]
  dsimp only
  rw [if_pos rfl, if_pos ⟨hlow, hs⟩]
  rfl

theorem decode_ascii {c : ℕ} (h : c < 0x80) (data : Bytes) :
    decodeUtf8 (UInt8.ofNat c :: data) = (decodeUtf8 data).map (c :: ·) := by
  have hb : (UInt8.ofNat c).toNat = c := toNat_ofNat (by omega)
  rw [decodeUtf8, decodeMore, hb, if_pos h]
  rfl

theorem encode_ascii : ∀ {text : Text}, (∀ c ∈ text, c < 0x80) →
    encodeUtf8 text = some (text.map UInt8.ofNat)
  | [], _ => rfl
  | c :: text, h => by
    have hc : c < 0x80 := h c List.mem_cons_self
    have hchar : encodeChar c = [UInt8.ofNat c] := by
      unfold encodeChar
      rw [if_pos hc]
    have hscalar : Scalar c := Or.inl (by omega)
    rw [encodeUtf8, if_pos hscalar, encode_ascii fun x hx => h x (List.mem_cons_of_mem c hx),
      Option.map_some, hchar, List.singleton_append, List.map_cons]

theorem decode_encodeChar {c : ℕ} (h : Scalar c) (data : Bytes) :
    decodeUtf8 (encodeChar c ++ data) = (decodeUtf8 data).map (c :: ·) := by
  have hlt : c < 0x110000 := by unfold Scalar at h; omega
  unfold encodeChar
  split_ifs with h1 h2 h3
  · exact decode_ascii h1 data
  · have hb : (UInt8.ofNat (0xC0 + c / 64)).toNat = 0xC0 + c / 64 := toNat_ofNat (by omega)
    have hc : c / 64 * 64 + c % 64 = c := by omega
    rw [List.cons_append, List.cons_append, List.nil_append, decodeUtf8, decodeMore, hb,
      if_neg (by omega), if_neg (by omega), if_pos (by omega), Nat.add_sub_cancel_left,
      decodeMore_last (Nat.mod_lt _ (by decide)) (by omega) (by rw [hc]; exact h), hc]
  · have hb : (UInt8.ofNat (0xE0 + c / 4096)).toNat = 0xE0 + c / 4096 := toNat_ofNat (by omega)
    have hc : (c / 4096 * 64 + c / 64 % 64) * 64 + c % 64 = c := by omega
    rw [List.cons_append, List.cons_append, List.cons_append, List.nil_append, decodeUtf8,
      decodeMore, hb, if_neg (by omega), if_neg (by omega), if_neg (by omega), if_pos (by omega),
      Nat.add_sub_cancel_left, decodeMore_tail (Nat.mod_lt _ (by decide)),
      decodeMore_last (Nat.mod_lt _ (by decide)) (by omega) (by rw [hc]; exact h), hc]
  · have hb : (UInt8.ofNat (0xF0 + c / 262144)).toNat = 0xF0 + c / 262144 := toNat_ofNat (by omega)
    have hc : ((c / 262144 * 64 + c / 4096 % 64) * 64 + c / 64 % 64) * 64 + c % 64 = c := by omega
    rw [List.cons_append, List.cons_append, List.cons_append, List.cons_append, List.nil_append,
      decodeUtf8, decodeMore, hb, if_neg (by omega), if_neg (by omega), if_neg (by omega),
      if_neg (by omega), if_pos (by omega), Nat.add_sub_cancel_left,
      decodeMore_tail (Nat.mod_lt _ (by decide)), decodeMore_tail (Nat.mod_lt _ (by decide)),
      decodeMore_last (Nat.mod_lt _ (by decide)) (by omega) (by rw [hc]; exact h), hc]

theorem decode_encode : ∀ {text : Text} {data : Bytes}, encodeUtf8 text = some data →
    decodeUtf8 data = some text
  | [], data, h => by
    rw [encodeUtf8] at h
    rw [← Option.some.inj h]
    rfl
  | c :: text, data, h => by
    rw [encodeUtf8] at h
    split_ifs at h with hc
    obtain ⟨rest, hrest, rfl⟩ := Option.map_eq_some_iff.mp h
    rw [decode_encodeChar hc, decode_encode hrest]
    rfl

theorem encode_inj {text text' : Text} {data : Bytes} (h : encodeUtf8 text = some data)
    (h' : encodeUtf8 text' = some data) : text = text' := by
  have := decode_encode h
  rw [decode_encode h'] at this
  exact (Option.some.inj this).symm

end NMesh.Base.Utf8
