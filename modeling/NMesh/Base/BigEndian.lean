import Mathlib.Data.List.Basic
import Mathlib.Data.List.Induction
import Mathlib.Tactic.Ring

/-! # Bytes and big-endian numbers

`toBE w n` writes `n` in `w` bytes, the most significant first, and `ofBE` reads such a number. -/

namespace NMesh.Base.BigEndian

abbrev Bytes := List UInt8

instance lawfulBytes : LawfulBEq Bytes := inferInstance

/-- Write a number in `w` bytes. -/
def toBE : ℕ → ℕ → Bytes
  | 0, _ => []
  | w + 1, n => toBE w (n / 256) ++ [UInt8.ofNat (n % 256)]

def ofBE (b : Bytes) : ℕ := b.foldl (fun n x => n * 256 + x.toNat) 0

@[simp] theorem length_toBE : ∀ w n : ℕ, (toBE w n).length = w
  | 0, _ => rfl
  | w + 1, n => by rw [toBE, List.length_append, length_toBE w]; rfl

theorem ofBE_toBE : ∀ {w n : ℕ}, n < 256 ^ w → ofBE (toBE w n) = n
  | 0, n, h => by rw [pow_zero] at h; simp [toBE, ofBE]; omega
  | w + 1, n, h => by
    have ih : ofBE (toBE w (n / 256)) = n / 256 := ofBE_toBE (by
      rw [pow_succ] at h; exact Nat.div_lt_of_lt_mul (by rw [Nat.mul_comm]; exact h))
    unfold ofBE at ih ⊢
    rw [toBE, List.foldl_append, ih]
    have hb : (UInt8.ofNat (n % 256)).toNat = n % 256 := by
      rw [UInt8.toNat_ofNat']; omega
    simp only [List.foldl_cons, List.foldl_nil, hb]
    omega

variable {n : ℕ}

theorem toBE_inj {w m : ℕ} (hm : m < 256 ^ w) (hn : n < 256 ^ w) (h : toBE w m = toBE w n) : m = n := by
  rw [← ofBE_toBE hm, ← ofBE_toBE hn, h]

theorem ofBE_append_singleton (b : Bytes) (x : UInt8) :
    ofBE (b ++ [x]) = ofBE b * 256 + x.toNat := by
  unfold ofBE
  rw [List.foldl_append]
  rfl

theorem toBE_ofBE : ∀ b : Bytes, toBE b.length (ofBE b) = b := fun b => by
  induction b using List.reverseRecOn with
  | nil => rfl
  | append_singleton b x ih =>
    have hx := x.toNat_lt
    have hdiv : (ofBE b * 256 + x.toNat) / 256 = ofBE b := by omega
    have hmod : (ofBE b * 256 + x.toNat) % 256 = x.toNat := by omega
    rw [List.length_append, List.length_singleton, toBE, ofBE_append_singleton, hdiv, hmod, ih,
      UInt8.ofNat_toNat]

theorem ofBE_lt : ∀ b : Bytes, ofBE b < 256 ^ b.length := fun b => by
  induction b using List.reverseRecOn with
  | nil => decide
  | append_singleton b x ih =>
    have hx := x.toNat_lt
    rw [List.length_append, List.length_singleton, pow_succ, ofBE_append_singleton]
    omega

theorem ofBE_inj {b b' : Bytes} (hlen : b.length = b'.length) (h : ofBE b = ofBE b') : b = b' := by
  rw [← toBE_ofBE b, ← toBE_ofBE b', hlen, h]

/-- `n` bytes from `off` on. -/
def slice (data : Bytes) (off n : ℕ) : Bytes := (data.drop off).take n

/-- The number in `n` bytes from `off` on. -/
def field (data : Bytes) (off n : ℕ) : ℕ := ofBE (slice data off n)

variable {data : Bytes}

theorem slice_of_drop {x rest : Bytes} {off : ℕ} (h : data.drop off = x ++ rest)
    (hx : x.length = n) : slice data off n = x := by
  rw [slice, h, List.take_left' hx]

theorem field_of_drop {rest : Bytes} {off w : ℕ} (h : data.drop off = toBE w n ++ rest)
    (hn : n < 256 ^ w) : field data off w = n := by
  rw [field, slice_of_drop h (length_toBE w n), ofBE_toBE hn]

theorem drop_of_drop {x rest : Bytes} {off : ℕ} (h : data.drop off = x ++ rest)
    (hx : x.length = n) : data.drop (off + n) = rest := by
  rw [← List.drop_drop, h, List.drop_left' hx]

theorem length_slice {off : ℕ} (h : off + n ≤ data.length) : (slice data off n).length = n := by
  rw [slice, List.length_take, List.length_drop]
  omega

end NMesh.Base.BigEndian
