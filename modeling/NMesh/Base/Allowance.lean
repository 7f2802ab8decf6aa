import NMesh.Base.Ordered
import Mathlib.Algebra.Order.Field.Basic

/-! # Allowances

A table counts for each key what it asked for in a window, which begins with the first request. Windows
that are over are dropped, and so are the first keys when there are too many. -/

namespace NMesh.Base.Allowance

open Base.Ordered

/-! ### The numbers that limits are written with -/

instance four : Nat.AtLeastTwo 4 := ⟨by decide⟩

instance ten : Nat.AtLeastTwo 10 := ⟨by decide⟩

instance sixty : Nat.AtLeastTwo 60 := ⟨by decide⟩

/-! ### Windows -/

variable {κ R : Type} [DecidableEq κ] [Field R] [LinearOrder R]

/-- For each key, how many requests were counted and when their window began. -/
abbrev Counts (κ R : Type) := Dict κ (ℕ × R)

/-- Drop the windows that are over, and the first keys if there are too many. -/
def prune (window : R) (maxKeys : ℕ) (t : Counts κ R) (now : R) : Counts κ R :=
  let kept := t.filterVal fun v => decide (now - v.2 ≤ window)
  Dict.makeRoom (maxKeys + 1) kept.size kept

/-- The count of a key in its window. -/
def current (window : R) (t : Counts κ R) (k : κ) (now : R) : ℕ × R :=
  let v := (t.get? k).getD (0, now)
  if window < now - v.2 then (0, now) else v

/-- May the key have one more in this window? It is counted if so. -/
def allowed (window : R) (maximum maxKeys : ℕ) (t : Counts κ R) (k : κ) (now : R) :
    Bool × Counts κ R :=
  let t := prune window maxKeys t now
  let v := current window t k now
  if maximum ≤ v.1 then (false, t.set k v) else (true, t.set k (v.1 + 1, v.2))

def single (k : κ) (count : ℕ) (start : R) : Counts κ R := Dict.empty.set k (count, start)

variable {window : R} {maximum maxKeys count : ℕ} {k : κ} {start now : R}

theorem allowed_empty (hmax : 0 < maximum) :
    allowed window maximum maxKeys (Dict.empty : Counts κ R) k now = (true, single k 1 now) := by
  have hcurrent : current window (Dict.empty : Counts κ R) k now = (0, now) := by
    unfold current
    rw [Dict.get?_empty, Option.getD_none]
    dsimp only
    split_ifs <;> rfl
  have hempty : prune window maxKeys (Dict.empty : Counts κ R) now = Dict.empty := rfl
  unfold allowed
  rw [hempty]
  dsimp only
  rw [hcurrent]
  exact if_neg (Nat.not_le.mpr hmax)

theorem allowed_single (hcount : count < maximum) (hwithin : now - start ≤ window) (hkeys : 0 < maxKeys) :
    allowed window maximum maxKeys (single k count start) k now = (true, single k (count + 1) start) := by
  have hkept : (single k count start).filterVal (fun v => decide (now - v.2 ≤ window)) =
      single k count start := by
    refine Dict.ext (List.filter_eq_self.mpr fun e he => ?_)
    rw [List.mem_singleton.mp he]
    exact decide_eq_true hwithin
  have hpruned : prune window maxKeys (single k count start) now = single k count start := by
    unfold prune
    rw [hkept]
    show (if maxKeys + 1 ≤ 1 then _ else single k count start) = _
    exact if_neg (by omega)
  have hcurrent : current window (single k count start) k now = (count, start) := by
    unfold current single
    rw [Dict.get?_set_self, Option.getD_some]
    exact if_neg (not_lt.mpr hwithin)
  unfold allowed
  rw [hpruned]
  dsimp only
  rw [hcurrent, if_neg (Nat.not_le.mpr hcount)]
  refine Prod.ext rfl (Dict.ext ?_)
  show (if k = k then [(k, count + 1, start)] else _) = _
  rw [if_pos rfl]
  rfl

theorem allowed_over (hmax : 0 < maximum) (hover : window < now - start) :
    allowed window maximum maxKeys (single k count start) k now = (true, single k 1 now) := by
  have hgone : (single k count start).filterVal (fun v => decide (now - v.2 ≤ window)) = Dict.empty := by
    refine Dict.ext (List.filter_eq_nil_iff.mpr fun e he => ?_)
    rw [List.mem_singleton.mp he]
    exact (decide_eq_false (not_le.mpr hover)).trans_ne Bool.false_ne_true
  have hpruned : prune window maxKeys (single k count start) now = prune window maxKeys Dict.empty now := by
    unfold prune
    rw [hgone]
    rfl
  have hempty : allowed window maximum maxKeys (Dict.empty : Counts κ R) k now = (true, single k 1 now) :=
    allowed_empty hmax
  unfold allowed at hempty ⊢
  rw [hpruned]
  exact hempty

end NMesh.Base.Allowance
