import NMesh.Base.Utf8

/-! # Hexadecimal

`toHex` writes two lower-case digits a byte, and `fromHex` reads digits of either case, with white
space between the bytes, as `bytes.fromhex` does. -/

namespace NMesh.Base.Hex

open Base.BigEndian Base.Utf8

def digit (n : ℕ) : ℕ := if n < 10 then 0x30 + n else 0x57 + n

def ofDigit (c : ℕ) : Option ℕ :=
  if 0x30 ≤ c ∧ c ≤ 0x39 then some (c - 0x30)
  else if 0x61 ≤ c ∧ c ≤ 0x66 then some (c - 0x57)
  else if 0x41 ≤ c ∧ c ≤ 0x46 then some (c - 0x37)
  else none

/-- `data.hex()` -/
def toHex (data : Bytes) : Text :=
  data.flatMap fun b => [digit (b.toNat / 16), digit (b.toNat % 16)]

def isSpace (c : ℕ) : Bool := c = 0x20 ∨ 9 ≤ c ∧ c ≤ 13

/-- `bytes.fromhex(text)`; `none` where it raises. -/
def fromHex : Text → Option Bytes
  | [] => some []
  | [c] => if isSpace c then some [] else none
  | c :: d :: text =>
    if isSpace c then fromHex (d :: text)
    else do
      let x ← ofDigit c
      let y ← ofDigit d
      (fromHex text).map (UInt8.ofNat (x * 16 + y) :: ·)

theorem ofDigit_digit {n : ℕ} (h : n < 16) : ofDigit (digit n) = some n := by
  unfold digit ofDigit
  split_ifs <;> first | omega | (congr 1; omega)

theorem isSpace_digit {n : ℕ} (h : n < 16) : isSpace (digit n) = false := by
  unfold isSpace digit
  split_ifs <;> simp only [decide_eq_false_iff_not] <;> omega

theorem fromHex_toHex : ∀ data : Bytes, fromHex (toHex data) = some data
  | [] => rfl
  | b :: data => by
    have hb := b.toNat_lt
    have hrest := fromHex_toHex data
    unfold toHex at hrest ⊢
    rw [List.flatMap_cons, List.cons_append, List.cons_append, List.nil_append, fromHex,
      isSpace_digit (by omega), ofDigit_digit (by omega), ofDigit_digit (by omega), hrest]
    have hsum : b.toNat / 16 * 16 + b.toNat % 16 = b.toNat := by omega
    simp only [Bool.false_eq_true, if_false, Option.bind_eq_bind, Option.bind_some,
      Option.map_some, hsum, UInt8.ofNat_toNat]

theorem toHex_inj {data data' : Bytes} (h : toHex data = toHex data') : data = data' := by
  have := fromHex_toHex data
  rw [h, fromHex_toHex] at this
  exact (Option.some.inj this).symm

theorem mem_toHex {data : Bytes} {c : ℕ} (h : c ∈ toHex data) : ∃ n < 16, c = digit n := by
  obtain ⟨b, -, hc⟩ := List.mem_flatMap.mp h
  have hb := b.toNat_lt
  simp only [List.mem_cons, List.not_mem_nil, or_false] at hc
  rcases hc with rfl | rfl
  · exact ⟨_, by omega, rfl⟩
  · exact ⟨_, by omega, rfl⟩

theorem length_toHex : ∀ data : Bytes, (toHex data).length = 2 * data.length
  | [] => rfl
  | b :: data => by
    have := length_toHex data
    unfold toHex at this ⊢
    rw [List.flatMap_cons, List.length_append, this, List.length_cons]
    simp only [List.length_cons, List.length_nil]
    omega

end NMesh.Base.Hex
