import Mathlib.Data.List.Basic

/-! # A bounded memory, first in, first out

`remember` tells whether a key is known, and records it if not; when there are more keys than the memory
holds, the first goes. A key stays until as many new ones have come after it as the memory holds. -/

namespace NMesh.Base.Fifo

variable {κ : Type} [DecidableEq κ]

/-- Is the key known? It is from now on. -/
def remember (limit : ℕ) (seen : List κ) (k : κ) : Bool × List κ :=
  if k ∈ seen then (true, seen)
  else (false, (seen ++ [k]).drop ((seen ++ [k]).length - limit))

variable {limit : ℕ} {seen : List κ} {k k' : κ}

theorem remember_of_mem (h : k ∈ seen) : remember limit seen k = (true, seen) := if_pos h

theorem remember_of_notMem (h : k ∉ seen) :
    remember limit seen k = (false, (seen ++ [k]).drop ((seen ++ [k]).length - limit)) := if_neg h

theorem length_remember (h : seen.length ≤ limit) (k : κ) :
    (remember limit seen k).2.length ≤ limit := by
  by_cases hk : k ∈ seen
  · rw [remember_of_mem hk]
    exact h
  · rw [remember_of_notMem hk]
    show ((seen ++ [k]).drop ((seen ++ [k]).length - limit)).length ≤ limit
    rw [List.length_drop]
    omega

theorem mem_remember (hlimit : 0 < limit) (k : κ) : k ∈ (remember limit seen k).2 := by
  by_cases hk : k ∈ seen
  · rw [remember_of_mem hk]
    exact hk
  · rw [remember_of_notMem hk]
    show k ∈ (seen ++ [k]).drop ((seen ++ [k]).length - limit)
    rw [List.drop_append_of_le_length (by rw [List.length_append, List.length_singleton]; omega)]
    exact List.mem_append_right _ List.mem_cons_self

/-- **A known key stays**, unless the memory is full, it is the first, and a new key comes. -/
theorem mem_remember_of_mem (h : seen.length ≤ limit) (hk' : k' ∈ seen)
    (hstays : k ∈ seen ∨ seen.length < limit ∨ seen.head? ≠ some k') :
    k' ∈ (remember limit seen k).2 := by
  by_cases hk : k ∈ seen
  · rw [remember_of_mem hk]
    exact hk'
  · rw [remember_of_notMem hk]
    show k' ∈ (seen ++ [k]).drop ((seen ++ [k]).length - limit)
    have hlen : (seen ++ [k]).length = seen.length + 1 := by simp
    rcases hstays.resolve_left hk with hroom | hhead
    · rw [hlen, Nat.sub_eq_zero_of_le hroom, List.drop_zero]
      exact List.mem_append_left _ hk'
    · cases seen with
      | nil => cases hk'
      | cons first rest =>
        have hrest : k' ∈ rest := by
          rcases List.mem_cons.mp hk' with rfl | hrest
          · exact absurd rfl hhead
          · exact hrest
        rw [List.length_cons] at h hlen
        have hone : (first :: rest ++ [k]).length - limit ≤ 1 := by omega
        rcases Nat.le_one_iff_eq_zero_or_eq_one.mp hone with hzero | hone
        · rw [hzero, List.drop_zero]
          exact List.mem_append_left _ hk'
        · rw [hone]
          exact List.mem_append_left _ hrest

theorem foldl_remember : ∀ (ks seen : List κ), seen.length ≤ limit → ks.Nodup → ks.Disjoint seen →
    ks.foldl (fun seen k => (remember limit seen k).2) seen =
      (seen ++ ks).drop ((seen ++ ks).length - limit)
  | [], seen, h, _, _ => by
    rw [List.append_nil, Nat.sub_eq_zero_of_le h, List.drop_zero]
    rfl
  | k :: ks, seen, h, hnodup, hnew => by
    obtain ⟨hk, hnodup⟩ := List.nodup_cons.mp hnodup
    obtain ⟨hkseen, hnew⟩ := List.disjoint_cons_left.mp hnew
    have hnext : (remember limit seen k).2 = (seen ++ [k]).drop ((seen ++ [k]).length - limit) := by
      rw [remember_of_notMem hkseen]
    have hdisjoint : ks.Disjoint (remember limit seen k).2 := by
      intro k' hk' hmem
      rw [hnext] at hmem
      rcases List.mem_append.mp (List.mem_of_mem_drop hmem) with hold | hself
      · exact hnew hk' hold
      · rw [List.mem_singleton.mp hself] at hk'
        exact hk hk'
    rw [List.foldl_cons, foldl_remember ks _ (length_remember h k) hnodup hdisjoint, hnext]
    have hsplit : seen ++ k :: ks = (seen ++ [k]) ++ ks := by simp
    rw [hsplit, ← List.drop_append_of_le_length (Nat.sub_le _ _), List.drop_drop]
    congr 1
    simp only [List.length_drop, List.length_append, List.length_cons, List.length_nil]
    omega

end NMesh.Base.Fifo
