import NMesh.Base.Ordered
import Mathlib.Data.List.Dedup

/-! # Order of last use

A dictionary is kept in the order of last use: `Follows us ks ks'` says that after the uses `us` the keys that
were not used stand first, as they stood, and the used ones after them, in the order of their last use; keys may
be missing. Uses add up (`Follows.trans`). -/

namespace NMesh.Base.Recency

open Base.Ordered

variable {κ ν : Type} [DecidableEq κ]

/-- **After the uses `us`**, the keys used come last, in the order of their last use. -/
def Follows (us ks ks' : List κ) : Prop := ks'.Sublist (ks.filter (· ∉ us) ++ us.dedup)

theorem dedup_append (us vs : List κ) : (us ++ vs).dedup = us.dedup.filter (· ∉ vs) ++ vs.dedup := by
  induction us with
  | nil => simp
  | cons u us ih =>
    rw [List.cons_append]
    by_cases hu : u ∈ us
    · rw [List.dedup_cons_of_mem hu, List.dedup_cons_of_mem (List.mem_append_left _ hu), ih]
    · rw [List.dedup_cons_of_notMem hu]
      by_cases hv : u ∈ vs
      · rw [List.dedup_cons_of_mem (List.mem_append_right _ hv), ih, List.filter_cons_of_neg (by simp [hv])]
      · have huv : u ∉ us ++ vs := by simp [hu, hv]
        rw [List.dedup_cons_of_notMem huv, ih, List.filter_cons_of_pos (by simp [hv]), List.cons_append]

variable {ks : List κ}

theorem filter_notMem {us : List κ} (h : ∀ u ∈ us, u ∉ ks) : ks.filter (· ∉ us) = ks :=
  List.filter_eq_self.mpr fun k hk => decide_eq_true fun hu => h k hu hk

variable {ks' : List κ}

theorem follows_nil : Follows [] ks ks' ↔ ks'.Sublist ks := by
  unfold Follows
  rw [filter_notMem (by simp), List.dedup_nil, List.append_nil]

/-- **Uses add up.** -/
theorem Follows.trans {us vs ks'' : List κ} (h : Follows us ks ks') (h' : Follows vs ks' ks'') :
    Follows (us ++ vs) ks ks'' := by
  unfold Follows at *
  have hsub := (h.filter (· ∉ vs)).append_right vs.dedup
  have hfilter : (ks.filter (· ∉ us)).filter (· ∉ vs) = ks.filter (· ∉ us ++ vs) := by
    rw [List.filter_filter]
    refine List.filter_congr fun k _ => ?_
    rw [← Bool.decide_and]
    simp only [List.mem_append, not_or, and_comm]
  rw [List.filter_append, hfilter, List.append_assoc, ← dedup_append] at hsub
  exact h'.trans hsub

theorem Follows.unused {k : κ} (hk : k ∉ ks) (h : ks'.Sublist ks) : Follows [k] ks ks' := by
  unfold Follows
  rw [filter_notMem (by simpa using hk)]
  exact h.trans (List.sublist_append_left _ _)

theorem Follows.appended {k : κ} (hk : k ∉ ks') (h : ks'.Sublist ks) : Follows [k] ks (ks' ++ [k]) := by
  unfold Follows
  have hself : ks'.filter (· ∉ [k]) = ks' := filter_notMem (by simpa using hk)
  rw [← hself]
  exact (h.filter _).append (List.Sublist.refl _)

theorem not_follows {k z : κ} {us pre post : List κ} (hz : z ∈ post) (hnd : (k :: post).Nodup)
 : ¬ Follows (us ++ [k]) ks (pre ++ k :: post) := by
  intro h
  unfold Follows at h
  rw [dedup_append] at h
  have hsub : [k, z].Sublist (pre ++ k :: post) :=
    (List.Sublist.cons_cons k (List.singleton_sublist.mpr hz)).trans (List.sublist_append_right _ _)
  have hall := hsub.trans h
  rw [← List.append_assoc] at hall
  have hne : k ≠ z := fun hkz => (List.nodup_cons.mp hnd).1 (hkz ▸ hz)
  obtain ⟨l₁, l₂, heq, h1, h2⟩ := List.sublist_append_iff.mp hall
  have hgone : k ∉ l₁ := by
    intro hk
    rcases List.mem_append.mp (h1.subset hk) with hk | hk
    · simpa using (List.mem_filter.mp hk).2
    · simpa using (List.mem_filter.mp hk).2
  -- so `k` and `z` are both in the last part, which is `k` alone
  rcases l₁ with _ | ⟨x, l₁⟩
  · rw [List.nil_append] at heq
    rw [← heq] at h2
    have hlen := h2.length_le
    simp at hlen
  · rw [List.cons_append] at heq
    obtain ⟨rfl, -⟩ := List.cons.inj heq
    exact hgone List.mem_cons_self

/-! ### Dictionaries -/

theorem follows_refile (d : Dict κ ν) (k : κ) (v : ν) :
    Follows [k] d.keys ((d.set k v).moveToEnd k).keys := by
  have hkeys : ((d.set k v).moveToEnd k).keys = (d.pop k).keys ++ [k] := by
    unfold Dict.keys
    rw [Dict.entries_refile, List.map_append]
    rfl
  rw [hkeys]
  refine Follows.appended (fun h => (Dict.mem_keys_pop.mp h).2 rfl) ?_
  rw [Dict.keys_pop]
  exact List.filter_sublist

theorem follows_set {d : Dict κ ν} {k : κ} (h : k ∉ d.keys) (v : ν) :
    Follows [k] d.keys (d.set k v).keys := by
  rw [Dict.keys_set_of_notMem h]
  exact Follows.appended h (List.Sublist.refl _)

omit [DecidableEq κ] in
theorem keys_dropFirst (d : Dict κ ν) : d.dropFirst.keys = d.keys.tail := by
  unfold Dict.keys Dict.dropFirst
  exact List.map_tail

theorem follows_replace {d : Dict κ ν} {k : κ}
    (h : k ∉ d.keys ∨ d.keys.head? = some k ∨ d.keys.getLast? = some k) (v : ν) :
    Follows [k] d.keys (d.dropFirst.set k v).keys := by
  by_cases hk : k ∈ d.dropFirst.keys
  · have htail : k ∈ d.keys.tail := keys_dropFirst d ▸ hk
    have hnd := d.nodup_keys
    rw [Dict.keys_set_of_mem hk, keys_dropFirst]
    cases hkeys : d.keys with
    | nil => rw [hkeys] at htail; cases htail
    | cons x ks =>
      rw [hkeys] at h htail hnd
      rw [List.tail_cons] at htail ⊢
      have hlast : (x :: ks).getLast? = some k := by
        rcases h with h | h | h
        · exact absurd (List.mem_cons_of_mem x htail) h
        · cases h
          exact absurd htail (List.nodup_cons.mp hnd).1
        · exact h
      -- the key is the last one, and stays where it is
      have hks : ks.getLast? = some k := by
        rw [List.getLast?_cons] at hlast
        cases hgl : ks.getLast? with
        | none => rw [List.getLast?_eq_none_iff.mp hgl] at htail; cases htail
        | some y => rw [hgl] at hlast; exact hlast
      obtain ⟨pre, rfl⟩ := List.getLast?_eq_some_iff.mp hks
      refine Follows.appended ?_ ((List.sublist_append_left pre [k]).trans (List.sublist_cons_self _ _))
      have hnd' := (List.nodup_cons.mp hnd).2
      rw [List.nodup_append] at hnd'
      intro hpre
      exact hnd'.2.2 k hpre k List.mem_cons_self rfl
  · rw [Dict.keys_set_of_notMem hk, keys_dropFirst] at *
    exact Follows.appended hk (List.tail_sublist _)

end NMesh.Base.Recency
