import Mathlib.Data.Finset.Card
import Mathlib.Tactic.SplitIfs

/-! # Two generations

A bounded memory of values in two sets. What is new goes into the young set; when the young set
reaches the limit it becomes the old one, and the old one is forgotten. -/

namespace NMesh.Base.Generations

variable {α : Type} [DecidableEq α]

structure Memory (α : Type) where
  young : Finset α
  old : Finset α

def Memory.Has (g : Memory α) (v : α) : Prop := v ∈ g.young ∨ v ∈ g.old

instance (g : Memory α) (v : α) : Decidable (g.Has v) := by unfold Memory.Has; infer_instance

theorem decide_has (g : Memory α) (v : α) :
    (decide (v ∈ g.young) || decide (v ∈ g.old)) = decide (g.Has v) := by
  rw [Bool.eq_iff_iff]
  simp only [Bool.or_eq_true, decide_eq_true_eq]
  rfl

/-- Record a value; was it there already? -/
def Memory.add (limit : ℕ) (g : Memory α) (v : α) : Bool × Memory α :=
  if g.Has v then (true, g)
  else if limit ≤ (insert v g.young).card then (false, ⟨∅, insert v g.young⟩)
  else (false, ⟨insert v g.young, g.old⟩)

def Memory.addAll (limit : ℕ) : Memory α → List α → List Bool × Memory α
  | g, [] => ([], g)
  | g, v :: vs =>
    let (seen, g') := g.add limit v
    let (answers, g'') := g'.addAll limit vs
    (seen :: answers, g'')

/-- The sizes of the two sets. -/
structure Within (limit : ℕ) (g : Memory α) : Prop where
  young : g.young.card < limit
  old : g.old.card ≤ limit

variable {limit : ℕ} {g : Memory α} {v w : α}

theorem Within.add (h : Within limit g) (v : α) : Within limit (g.add limit v).2 := by
  have hyoung := h.young
  unfold Memory.add
  split_ifs with hv hfull
  · exact h
  · refine ⟨by rw [Finset.card_empty]; omega, ?_⟩
    have := Finset.card_insert_le v g.young
    dsimp only
    omega
  · exact ⟨not_le.mp hfull, h.old⟩

omit [DecidableEq α] in
theorem within_empty (h : 1 ≤ limit) : Within limit (⟨∅, ∅⟩ : Memory α) :=
  ⟨by rw [Finset.card_empty]; exact h, by rw [Finset.card_empty]; exact Nat.zero_le _⟩

/-- `v` was recorded, and at most `r` new values since: it is young, or the young set is new. -/
def Fresh (v : α) (r : ℕ) (g : Memory α) : Prop := v ∈ g.young ∨ v ∈ g.old ∧ g.young.card ≤ r

variable (limit) in
theorem fresh_add (hv : ¬ g.Has v) : Fresh v 0 (g.add limit v).2 := by
  unfold Memory.add
  rw [if_neg hv]
  split_ifs
  · exact Or.inr ⟨Finset.mem_insert_self _ _, le_rfl⟩
  · exact Or.inl (Finset.mem_insert_self _ _)

theorem Fresh.add {r : ℕ} (hr : r + 1 < limit) (h : Fresh v r g) (hw : ¬ g.Has w) :
    Fresh v (r + 1) (g.add limit w).2 := by
  have hle := Finset.card_insert_le w g.young
  unfold Memory.add
  rw [if_neg hw]
  split_ifs with hfull
  · -- the young set becomes the old one
    rcases h with h | ⟨-, hcard⟩
    · exact Or.inr ⟨Finset.mem_insert_of_mem h, Nat.zero_le _⟩
    · omega
  · rcases h with h | ⟨hold, hcard⟩
    · exact Or.inl (Finset.mem_insert_of_mem h)
    · exact Or.inr ⟨hold, hle.trans (Nat.succ_le_succ hcard)⟩

theorem add_of_has (h : g.Has v) : g.add limit v = (true, g) := if_pos h

theorem add_fst : (g.add limit v).1 = decide (g.Has v) := by
  unfold Memory.add
  split_ifs with h <;> simp [h]

theorem Fresh.addAll : ∀ {vs : List α} {g : Memory α} {r : ℕ}, Fresh v r g →
    r + (g.addAll limit vs).1.count false < limit → (g.addAll limit vs).2.Has v
  | [], g, r, h, _ => h.imp_right And.left
  | w :: vs, g, r, h, hr => by
    rw [Memory.addAll] at hr ⊢
    simp only [List.count_cons] at hr
    by_cases hw : g.Has w
    · rw [add_of_has hw] at hr ⊢
      exact h.addAll (by simpa using hr)
    · have hfst : (g.add limit w).1 = false := by rw [add_fst, decide_eq_false hw]
      rw [hfst] at hr
      simp only [beq_self_eq_true, if_true] at hr
      have hnext := Fresh.add (by omega : r + 1 < limit) h hw
      exact hnext.addAll (by omega)

end NMesh.Base.Generations
