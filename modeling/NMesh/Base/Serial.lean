import Mathlib.Data.Int.Basic
import Mathlib.Tactic.Ring

/-! # Serial numbers

Numbers `0, 1, 2, …` travel as their remainders modulo `M`, counted from a start `a` (`seqOf M a n`). Two
remainders are compared by the distance `mask M (x - y)` from `y` forward to `x`. For numbers less than `M` apart
it tells their order: `m - n` if `n ≤ m` (`dist_of_le`), `M - (n - m)` if `m < n` (`dist_of_lt`). -/

namespace NMesh.Base.Serial

/-- The remainder of `z` among `0, …, M - 1`. -/
def mask (M : ℕ) (z : ℤ) : ℕ := (z % M).toNat

/-- How number `n` is written when the count starts at `a`. -/
def seqOf (M a n : ℕ) : ℕ := mask M (a + n)

variable {M : ℕ}

theorem mask_lt (hM : 0 < M) (z : ℤ) : mask M z < M := by
  have h := Int.emod_lt_of_pos z (by omega : (0 : ℤ) < M)
  have h' := Int.emod_nonneg z (by omega : (M : ℤ) ≠ 0)
  unfold mask; omega

theorem natCast_mask (hM : 0 < M) (z : ℤ) : ((mask M z : ℕ) : ℤ) = z % M :=
  Int.toNat_of_nonneg (Int.emod_nonneg z (by omega))

theorem mask_of_lt {z : ℤ} (h0 : 0 ≤ z) (h : z < M) : mask M z = z.toNat := by
  rw [mask, Int.emod_eq_of_lt h0 h]

theorem mask_add_self (z : ℤ) : mask M (z + M) = mask M z := by rw [mask, mask, Int.add_emod_right]

theorem mask_mask_sub (hM : 0 < M) (y z : ℤ) : mask M (mask M y - z) = mask M (y - z) := by
  rw [mask, natCast_mask hM, Int.emod_sub_emod, mask]

theorem mask_sub_mask (hM : 0 < M) (y z : ℤ) : mask M (y - mask M z) = mask M (y - z) := by
  rw [mask, natCast_mask hM, Int.sub_emod_emod, mask]

theorem mask_mask_add (hM : 0 < M) (y z : ℤ) : mask M (mask M y + z) = mask M (y + z) := by
  rw [mask, natCast_mask hM, Int.emod_add_emod, mask]

theorem mask_sub_eq_iff (hM : 0 < M) {x y i : ℕ} (hx : x < M) (hi : i < M) :
    mask M ((x : ℤ) - y) = i ↔ x = mask M ((y : ℤ) + i) := by
  constructor
  · rintro rfl
    have h : mask M ((y : ℤ) + mask M ((x : ℤ) - y)) = mask M ((x : ℕ) : ℤ) := by
      rw [add_comm, mask_mask_add hM]; congr 1; ring
    rw [h, mask_of_lt (by omega) (by omega)]; rfl
  · rintro rfl
    rw [mask_mask_sub hM, add_sub_cancel_left, mask_of_lt (by omega) (by omega)]; rfl

theorem seqOf_zero {a : ℕ} (h : a < M) : seqOf M a 0 = a := by
  rw [seqOf, mask_of_lt (by omega) (by omega)]; omega

theorem seqOf_add (hM : 0 < M) (a n i : ℕ) : mask M (seqOf M a n + i) = seqOf M a (n + i) := by
  rw [seqOf, mask_mask_add hM, seqOf]; push_cast; rw [add_assoc]

theorem seqOf_add_self (a n : ℕ) : seqOf M a (n + M) = seqOf M a n := by
  rw [seqOf, seqOf, ← mask_add_self (M := M) ((a : ℤ) + (n : ℕ))]; push_cast; rw [add_assoc]

theorem dist_eq (hM : 0 < M) (a m n : ℕ) :
    mask M (seqOf M a m - seqOf M a n) = mask M ((m : ℤ) - n) := by
  rw [seqOf, seqOf, mask_mask_sub hM, mask_sub_mask hM]; congr 1; ring

theorem dist_of_le (hM : 0 < M) (a : ℕ) {m n : ℕ} (h : n ≤ m) (hlt : m < n + M) :
    mask M (seqOf M a m - seqOf M a n) = m - n := by
  rw [dist_eq hM, mask_of_lt (by omega) (by omega)]; omega

theorem dist_of_lt (hM : 0 < M) (a : ℕ) {m n : ℕ} (h : m < n) (hle : n ≤ m + M) :
    mask M (seqOf M a m - seqOf M a n) = M - (n - m) := by
  rw [dist_eq hM, ← mask_add_self, mask_of_lt (by omega) (by omega)]; omega

theorem seqOf_inj (hM : 0 < M) {a m n : ℕ} (h : seqOf M a m = seqOf M a n) (h1 : m < n + M)
    (h2 : n < m + M) : m = n := by
  rcases Nat.lt_or_ge m n with hlt | hle
  · have := dist_of_lt hM a hlt (by omega)
    rw [h, sub_self, mask_of_lt le_rfl (by omega)] at this
    omega
  · have := dist_of_le hM a hle h1
    rw [h, sub_self, mask_of_lt le_rfl (by omega)] at this
    omega

end NMesh.Base.Serial
