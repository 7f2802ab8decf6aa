import NMesh.Base.Ordered
import Mathlib.Algebra.BigOperators.Group.List.Basic
import Mathlib.Algebra.GroupWithZero.Nat
import Mathlib.Algebra.Order.BigOperators.Group.List

/-! # The weight of a dictionary

Each value weighs `f v`, and the dictionary what its values weigh together. A counter that is kept
beside a dictionary is right if it follows `weight_pop` and `weight_set_of_notMem`. -/

namespace NMesh.Base.Weights

open Base.Ordered

variable {κ ν μ : Type}

/-- What the values of a dictionary weigh together. -/
def weight (f : ν → ℕ) (d : Dict κ ν) : ℕ := (d.entries.map fun e => f e.2).sum

@[simp] theorem weight_empty (f : ν → ℕ) : weight f (Dict.empty : Dict κ ν) = 0 := rfl

theorem weight_mapVal (f : μ → ℕ) (g : κ → ν → μ) (h : ν → ℕ) (hg : ∀ k v, f (g k v) = h v)
    (d : Dict κ ν) : weight f (d.mapVal g) = weight h d := by
  simp only [weight, Dict.mapVal, List.map_map, Function.comp_def, hg]

theorem sum_le_length_mul (f : ν → ℕ) {c : ℕ} : ∀ {l : List (κ × ν)}, (∀ e ∈ l, f e.2 ≤ c) →
    (l.map fun e => f e.2).sum ≤ l.length * c
  | [], _ => Nat.zero_le _
  | e :: l, h => by
    have he := h e List.mem_cons_self
    have ih := sum_le_length_mul f fun e' he' => h e' (List.mem_cons_of_mem e he')
    rw [List.map_cons, List.sum_cons, List.length_cons, Nat.add_mul, Nat.one_mul]
    omega

theorem weight_le (f : ν → ℕ) {c : ℕ} {d : Dict κ ν} (h : ∀ e ∈ d.entries, f e.2 ≤ c) :
    weight f d ≤ d.size * c := sum_le_length_mul f h

theorem size_le_of_keys_lt {n : ℕ} {d : Dict ℕ ν} (h : ∀ k ∈ d.keys, k < n) : d.size ≤ n := by
  have hsub : d.keys.Subperm (List.range n) :=
    List.subperm_of_subset d.nodup_keys fun k hk => List.mem_range.mpr (h k hk)
  have hle := hsub.length_le
  rw [List.length_range] at hle
  rw [Dict.size_eq]
  exact hle

section Keyed

variable [DecidableEq κ]

theorem sum_filter_ne (f : ν → ℕ) {k : κ} {v : ν} : ∀ {l : List (κ × ν)}, (l.map Prod.fst).Nodup →
    (k, v) ∈ l → ((l.filter fun e => decide (e.1 ≠ k)).map fun e => f e.2).sum + f v =
      (l.map fun e => f e.2).sum
  | [], _, h => by cases h
  | e :: l, hn, h => by
    rw [List.map_cons, List.nodup_cons] at hn
    rcases List.mem_cons.mp h with rfl | h
    · have hall : l.filter (fun e => decide (e.1 ≠ k)) = l := by
        refine List.filter_eq_self.mpr fun e he => decide_eq_true fun heq => hn.1 ?_
        exact List.mem_map.mpr ⟨e, he, heq⟩
      rw [List.filter_cons, if_neg (by simp), hall, List.map_cons, List.sum_cons, Nat.add_comm]
    · have hne : e.1 ≠ k := fun heq => hn.1 (heq ▸ List.mem_map_of_mem (f := Prod.fst) h)
      have ih := sum_filter_ne f hn.2 h
      rw [List.filter_cons, if_pos (decide_eq_true hne), List.map_cons, List.map_cons, List.sum_cons,
        List.sum_cons, Nat.add_assoc, ih]

theorem weight_pop (f : ν → ℕ) {d : Dict κ ν} {k : κ} {v : ν} (h : d.get? k = some v) :
    weight f (d.pop k) + f v = weight f d := sum_filter_ne f d.nodup (Dict.get?_eq_some.mp h)

theorem weight_set_of_notMem (f : ν → ℕ) {d : Dict κ ν} {k : κ} (h : k ∉ d.keys) (v : ν) :
    weight f (d.set k v) = weight f d + f v := by
  rw [weight, Dict.entries_set_of_notMem h, List.map_append, List.sum_append]
  rfl

end Keyed

end NMesh.Base.Weights
