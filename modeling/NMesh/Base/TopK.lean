import Mathlib.Data.List.Sort

/-! # The smallest elements of a list

`smallest f n l` are the `n` elements of `l` with the smallest `f`, the smallest first. Where `f` tells
the elements of `l` apart there is one such list (`Smallest`, `smallest_spec`). -/

namespace NMesh.Base.TopK

variable {α : Type} {f : α → ℕ}

/-- The order of `f`. -/
def below (f : α → ℕ) (a b : α) : Prop := f a ≤ f b

instance decidableBelow (f : α → ℕ) : DecidableRel (below f) := fun a b =>
  inferInstanceAs (Decidable (f a ≤ f b))

instance totalBelow (f : α → ℕ) : Std.Total (below f) := ⟨fun a b => le_total (f a) (f b)⟩

instance transBelow (f : α → ℕ) : IsTrans α (below f) := ⟨fun _ _ _ h h' => le_trans h h'⟩

/-- The `n` elements with the smallest `f`, the smallest first. -/
def smallest (f : α → ℕ) (n : ℕ) (l : List α) : List α := (l.insertionSort (below f)).take n

/-- **`r` is the list of the `n` smallest of `l`**: ordered, and everything left out is larger. -/
structure Smallest (f : α → ℕ) (n : ℕ) (l r : List α) : Prop where
  mem : ∀ a ∈ r, a ∈ l
  length : r.length = min n l.length
  nodup : r.Nodup
  ordered : r.Pairwise fun a b => f a < f b
  least : ∀ a ∈ l, a ∉ r → ∀ b ∈ r, f b < f a

theorem sorted_strictly {l : List α} (h : (l.map f).Nodup) :
    (l.insertionSort (below f)).Pairwise fun a b => f a < f b := by
  have hperm := List.perm_insertionSort (below f) l
  have hnodup : ((l.insertionSort (below f)).map f).Nodup := (hperm.map f).nodup_iff.mpr h
  have hle : (l.insertionSort (below f)).Pairwise (below f) := List.pairwise_insertionSort (below f) l
  have hne : (l.insertionSort (below f)).Pairwise fun a b => f a ≠ f b := List.pairwise_map.mp hnodup
  exact (hle.and hne).imp fun hab => lt_of_le_of_ne hab.1 hab.2

theorem smallest_spec {n : ℕ} {l : List α} (h : (l.map f).Nodup) : Smallest f n l (smallest f n l) := by
  have hsorted := sorted_strictly h
  have hordered : (smallest f n l).Pairwise fun a b => f a < f b := hsorted.sublist (List.take_sublist _ _)
  refine ⟨fun a ha => ?_, ?_, ?_, hordered, fun a ha hnot b hb => ?_⟩
  · exact (List.mem_insertionSort (below f)).mp (List.mem_of_mem_take ha)
  · rw [smallest, List.length_take, List.length_insertionSort]
  · exact hordered.imp fun hlt heq => absurd hlt (by rw [heq]; exact lt_irrefl _)
  · have hmem : a ∈ l.insertionSort (below f) := (List.mem_insertionSort (below f)).mpr ha
    rw [← List.take_append_drop n (l.insertionSort (below f)), List.mem_append] at hmem
    rw [← List.take_append_drop n (l.insertionSort (below f)), List.pairwise_append] at hsorted
    exact hsorted.2.2 b hb a (hmem.resolve_left hnot)

end NMesh.Base.TopK
