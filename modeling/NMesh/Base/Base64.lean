import NMesh.Base.Utf8

/-! # Base 64

`encode` writes four digits for three bytes and fills the last group with `=`, and `decode` reads them
back, as `base64.b64encode` and `base64.b64decode` with `validate=True` do. -/

namespace NMesh.Base.Base64

open Base.BigEndian Base.Utf8

def digit (n : ℕ) : ℕ :=
  if n < 26 then 0x41 + n
  else if n < 52 then 0x47 + n
  else if n < 62 then n - 4
  else if n = 62 then 0x2B
  else 0x2F

def ofDigit (c : ℕ) : Option ℕ :=
  if 0x41 ≤ c ∧ c ≤ 0x5A then some (c - 0x41)
  else if 0x61 ≤ c ∧ c ≤ 0x7A then some (c - 0x47)
  else if 0x30 ≤ c ∧ c ≤ 0x39 then some (c + 4)
  else if c = 0x2B then some 62
  else if c = 0x2F then some 63
  else none

def pad : ℕ := 0x3D

/-- `base64.b64encode(data).decode("ascii")` -/
def encode : Bytes → Text
  | [] => []
  | [x] => [digit (x.toNat / 4), digit (x.toNat % 4 * 16), pad, pad]
  | [x, y] => [digit (x.toNat / 4), digit (x.toNat % 4 * 16 + y.toNat / 16), digit (y.toNat % 16 * 4), pad]
  | x :: y :: z :: data =>
    digit (x.toNat / 4) :: digit (x.toNat % 4 * 16 + y.toNat / 16) ::
      digit (y.toNat % 16 * 4 + z.toNat / 64) :: digit (z.toNat % 64) :: encode data

/-- `base64.b64decode(text, validate=True)`; `none` where it raises. -/
def decode : Text → Option Bytes
  | [] => some []
  | a :: b :: c :: d :: text => do
    let a ← ofDigit a
    let b ← ofDigit b
    if d = pad then
      if text ≠ [] then none
      else if c = pad then some [UInt8.ofNat (a * 4 + b / 16)]
      else do
        let c ← ofDigit c
        some [UInt8.ofNat (a * 4 + b / 16), UInt8.ofNat (b % 16 * 16 + c / 4)]
    else do
      let c ← ofDigit c
      let d ← ofDigit d
      (decode text).map fun data => UInt8.ofNat (a * 4 + b / 16) :: UInt8.ofNat (b % 16 * 16 + c / 4) ::
        UInt8.ofNat (c % 4 * 64 + d) :: data
  | _ => none

theorem ofDigit_digit {n : ℕ} (h : n < 64) : ofDigit (digit n) = some n := by
  unfold digit ofDigit
  split_ifs <;> first | omega | (congr 1; omega)

theorem digit_ne_pad {n : ℕ} (h : n < 64) : digit n ≠ pad := by
  unfold digit pad
  split_ifs <;> omega

theorem digit_lt (n : ℕ) (h : n < 64) : digit n < 0x80 := by
  unfold digit
  split_ifs <;> omega

theorem decode_encode : ∀ data : Bytes, decode (encode data) = some data
  | [] => rfl
  | [x] => by
    have hx := x.toNat_lt
    have hfirst : x.toNat / 4 * 4 + x.toNat % 4 * 16 / 16 = x.toNat := by omega
    rw [encode, decode, ofDigit_digit (by omega), ofDigit_digit (by omega)]
    simp only [Option.bind_eq_bind, Option.bind_some, if_true, ne_eq, not_true_eq_false, if_false, hfirst,
      UInt8.ofNat_toNat]
  | [x, y] => by
    have hx := x.toNat_lt
    have hy := y.toNat_lt
    have hfirst : x.toNat / 4 * 4 + (x.toNat % 4 * 16 + y.toNat / 16) / 16 = x.toNat := by omega
    have hsecond : (x.toNat % 4 * 16 + y.toNat / 16) % 16 * 16 + y.toNat % 16 * 4 / 4 = y.toNat := by omega
    rw [encode, decode, ofDigit_digit (by omega), ofDigit_digit (by omega), ofDigit_digit (by omega)]
    simp only [Option.bind_eq_bind, Option.bind_some, if_true, ne_eq, not_true_eq_false, if_false, hfirst,
      hsecond, UInt8.ofNat_toNat]
    rw [if_neg (digit_ne_pad (by omega))]
  | x :: y :: z :: data => by
    have hx := x.toNat_lt
    have hy := y.toNat_lt
    have hz := z.toNat_lt
    have hfirst : x.toNat / 4 * 4 + (x.toNat % 4 * 16 + y.toNat / 16) / 16 = x.toNat := by omega
    have hsecond : (x.toNat % 4 * 16 + y.toNat / 16) % 16 * 16 + (y.toNat % 16 * 4 + z.toNat / 64) / 4 =
        y.toNat := by omega
    have hthird : (y.toNat % 16 * 4 + z.toNat / 64) % 4 * 64 + z.toNat % 64 = z.toNat := by omega
    rw [encode, decode, ofDigit_digit (by omega), ofDigit_digit (by omega), ofDigit_digit (by omega),
      ofDigit_digit (by omega), decode_encode data]
    simp only [Option.bind_eq_bind, Option.bind_some]
    rw [if_neg (digit_ne_pad (by omega)), Option.map_some, hfirst, hsecond, hthird, UInt8.ofNat_toNat,
      UInt8.ofNat_toNat, UInt8.ofNat_toNat]

theorem length_encode : ∀ data : Bytes, (encode data).length = 4 * ((data.length + 2) / 3)
  | [] => rfl
  | [_] => by simp [encode]
  | [_, _] => by simp [encode]
  | x :: y :: z :: data => by
    have := length_encode data
    simp only [encode, List.length_cons, this]
    omega

theorem encode_ascii : ∀ {data : Bytes} {c : ℕ}, c ∈ encode data → c < 0x80
  | [], c, h => by cases h
  | [x], c, h => by
    have hx := x.toNat_lt
    simp only [encode, List.mem_cons, List.not_mem_nil, or_false] at h
    rcases h with rfl | rfl | rfl | rfl
    · exact digit_lt _ (by omega)
    · exact digit_lt _ (by omega)
    · decide
    · decide
  | [x, y], c, h => by
    have hx := x.toNat_lt
    have hy := y.toNat_lt
    simp only [encode, List.mem_cons, List.not_mem_nil, or_false] at h
    rcases h with rfl | rfl | rfl | rfl
    · exact digit_lt _ (by omega)
    · exact digit_lt _ (by omega)
    · exact digit_lt _ (by omega)
    · decide
  | x :: y :: z :: data, c, h => by
    have hx := x.toNat_lt
    have hy := y.toNat_lt
    have hz := z.toNat_lt
    simp only [encode, List.mem_cons] at h
    rcases h with rfl | rfl | rfl | rfl | h
    · exact digit_lt _ (by omega)
    · exact digit_lt _ (by omega)
    · exact digit_lt _ (by omega)
    · exact digit_lt _ (by omega)
    · exact encode_ascii h

end NMesh.Base.Base64
