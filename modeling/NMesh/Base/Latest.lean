import Mathlib.Data.List.DropRight
import Mathlib.Data.List.Nodup

/-! # The newest of a list

`l.rtake m` are the last `m` entries of a list. What becomes of them when the list
loses its first entry (`erase_rtake_cons`), an entry in the middle (`erase_rtake`), or when an entry moves to the
end (`rtake_refile`). -/

namespace NMesh.Base.Latest

variable {α : Type} {m : ℕ} {l : List α} {x : α}

theorem rtake_of_le (h : l.length ≤ m) : l.rtake m = l := by
  rw [List.rtake, Nat.sub_eq_zero_of_le h, List.drop_zero]

theorem rtake_append_right {a v : List α} (h : m ≤ v.length) : (a ++ v).rtake m = v.rtake m := by
  have hle : a.length ≤ (a ++ v).length - m := by rw [List.length_append]; omega
  have hsub : (a ++ v).length - m - a.length = v.length - m := by rw [List.length_append]; omega
  rw [List.rtake, List.drop_append, List.drop_of_length_le hle, hsub]
  rfl

theorem length_rtake : (l.rtake m).length = min m l.length := by
  rw [List.rtake, List.length_drop]
  omega

/-- A list is what was before its last `m` entries, and these; there is something before them only if
there are `m` of them. -/
theorem split_rtake (m : ℕ) (l : List α) :
    ∃ a, l = a ++ l.rtake m ∧ (a = [] ∨ (l.rtake m).length = m) := by
  refine ⟨l.take (l.length - m), (List.take_append_drop _ _).symm, ?_⟩
  by_cases h : l.length ≤ m
  · left
    rw [Nat.sub_eq_zero_of_le h, List.take_zero]
  · right
    rw [length_rtake]
    omega

theorem rtake_append_rtake {a w : List α} (h : a = [] ∨ w.length = m) (v : List α) :
    (a ++ (w ++ v)).rtake m = (w ++ v).rtake m := by
  rcases h with rfl | h
  · rfl
  · exact rtake_append_right (by rw [List.length_append]; omega)

theorem rtake_append (m : ℕ) (l v : List α) : (l.rtake m ++ v).rtake m = (l ++ v).rtake m := by
  obtain ⟨a, hl, ha⟩ := split_rtake m l
  have h := rtake_append_rtake ha v
  rw [← List.append_assoc, ← hl] at h
  exact h.symm

variable [DecidableEq α]

theorem erase_rtake_cons (h : x ∉ l) : ((x :: l).rtake m).erase x = l.rtake m := by
  by_cases hm : l.length < m
  · rw [rtake_of_le (by rw [List.length_cons]; omega), List.erase_cons_head, rtake_of_le hm.le]
  · have hnot : x ∉ l.rtake m := fun hin => h (List.mem_of_mem_drop hin)
    have hcons : (x :: l).rtake m = l.rtake m := rtake_append_right (a := [x]) (by omega)
    rw [hcons, List.erase_of_not_mem hnot]

theorem rtake_erase_of_notMem (h : x ∉ l.rtake m) (v : List α) :
    (l.erase x ++ v).rtake m = (l.rtake m ++ v).rtake m := by
  obtain ⟨a, hl, ha⟩ := split_rtake m l
  by_cases hx : x ∈ a
  · have hw : (l.rtake m).length = m := ha.resolve_left (List.ne_nil_of_mem hx)
    have herase : l.erase x = a.erase x ++ l.rtake m := by
      conv_lhs => rw [hl]
      exact List.erase_append_left _ hx
    rw [herase, List.append_assoc]
    exact rtake_append_rtake (Or.inr hw) v
  · have herase : l.erase x = a ++ l.rtake m := by
      conv_lhs => rw [hl]
      rw [List.erase_append_right _ hx, List.erase_of_not_mem h]
    rw [herase, List.append_assoc]
    exact rtake_append_rtake ha v

/-- **A list that loses an entry**: its newest are what remains of them, if all were among the newest or
the lost one was not. -/
theorem erase_rtake (h : l.length ≤ m ∨ x ∉ l.rtake m) :
    (l.rtake m).erase x = (l.erase x).rtake m := by
  rcases h with h | h
  · rw [rtake_of_le h, rtake_of_le ((List.length_erase_le).trans h)]
  · have hnil := rtake_erase_of_notMem h []
    rw [List.append_nil, List.append_nil] at hnil
    rw [List.erase_of_not_mem h, hnil, rtake_of_le (length_rtake.trans_le (min_le_left _ _))]

theorem rtake_refile (hn : l.Nodup) :
    ((l.rtake m).erase x ++ [x]).rtake m = (l.erase x ++ [x]).rtake m := by
  by_cases h : x ∈ l.rtake m
  · obtain ⟨a, hl, ha⟩ := split_rtake m l
    have hx : x ∉ a := by
      rw [hl] at hn
      exact fun hin => (List.nodup_append.mp hn).2.2 x hin x h rfl
    have herase : l.erase x = a ++ (l.rtake m).erase x := by
      conv_lhs => rw [hl]
      exact List.erase_append_right _ hx
    have hlen : ((l.rtake m).erase x ++ [x]).length = (l.rtake m).length := by
      have hpos := List.length_pos_of_mem h
      rw [List.length_append, List.length_erase_of_mem h, List.length_singleton]
      omega
    rw [herase, List.append_assoc]
    rcases ha with rfl | ha
    · rfl
    · exact (rtake_append_right (by omega)).symm
  · rw [rtake_erase_of_notMem h, List.erase_of_not_mem h]

end NMesh.Base.Latest
