import Mathlib.Data.List.Nodup
import Mathlib.Data.List.Perm.Basic

/-! # Insertion-ordered dictionaries

A dictionary lists its entries in the order their keys were first written: `set` replaces the value of a key in
place or appends a new key, `pop` removes an entry. A key has at most one entry, which is a field of the
structure.

The operations are characterized by the values found (`get?_set`, `get?_pop`, `get?_mapVal`) and by the list of
keys (`keys_set_of_mem`, `keys_set_of_notMem`, `keys_pop`, `keys_mapVal`). -/

namespace NMesh.Base.Ordered

/-- **An insertion-ordered dictionary**: its entries in order, no key twice. -/
structure Dict (κ ν : Type) where
  entries : List (κ × ν)
  nodup : (entries.map Prod.fst).Nodup

section Lists

variable {κ ν : Type} [DecidableEq κ]

/-- Replace the value of `k` in place, or append the entry. -/
def setL (k : κ) (v : ν) : List (κ × ν) → List (κ × ν)
  | [] => [(k, v)]
  | e :: l => if e.1 = k then (k, v) :: l else e :: setL k v l

/-- The value of the first entry of `k`. -/
def getL (k : κ) : List (κ × ν) → Option ν
  | [] => none
  | e :: l => if e.1 = k then some e.2 else getL k l

variable {k : κ}

theorem keys_setL_of_mem {v : ν} :
    ∀ {l : List (κ × ν)}, k ∈ l.map Prod.fst → (setL k v l).map Prod.fst = l.map Prod.fst
  | [], h => by simp at h
  | e :: l, h => by
    unfold setL
    split_ifs with he
    · simp [he]
    · have h' : k ∈ l.map Prod.fst := by
        rcases List.mem_cons.mp h with h | h
        · exact absurd h.symm he
        · exact h
      simp [keys_setL_of_mem h']

theorem keys_setL_of_notMem {v : ν} :
    ∀ {l : List (κ × ν)}, k ∉ l.map Prod.fst → (setL k v l).map Prod.fst = l.map Prod.fst ++ [k]
  | [], _ => rfl
  | e :: l, h => by
    simp only [List.map_cons, List.mem_cons, not_or] at h
    unfold setL
    rw [if_neg (fun he => h.1 he.symm), List.map_cons, keys_setL_of_notMem h.2]
    rfl

theorem nodup_setL {v : ν} {l : List (κ × ν)} (h : (l.map Prod.fst).Nodup) :
    ((setL k v l).map Prod.fst).Nodup := by
  by_cases hk : k ∈ l.map Prod.fst
  · rw [keys_setL_of_mem hk]; exact h
  · rw [keys_setL_of_notMem hk]
    exact List.nodup_append.mpr ⟨h, List.nodup_singleton k, by
      rintro a ha b hb rfl; exact hk (by rwa [List.mem_singleton.mp hb] at ha)⟩

theorem setL_of_notMem {v : ν} :
    ∀ {l : List (κ × ν)}, k ∉ l.map Prod.fst → setL k v l = l ++ [(k, v)]
  | [], _ => rfl
  | e :: l, h => by
    simp only [List.map_cons, List.mem_cons, not_or] at h
    unfold setL
    rw [if_neg (fun he => h.1 he.symm), setL_of_notMem h.2, List.cons_append]

theorem getL_setL (k k' : κ) (v : ν) :
    ∀ l : List (κ × ν), getL k' (setL k v l) = if k = k' then some v else getL k' l
  | [] => rfl
  | e :: l => by
    unfold setL
    by_cases he : e.1 = k
    · rw [if_pos he]
      by_cases hk : k = k'
      · simp [getL, hk]
      · simp [getL, hk, he]
    · rw [if_neg he]
      unfold getL
      rw [getL_setL k k' v l]
      by_cases hk : k = k'
      · subst hk; rw [if_pos rfl, if_neg he, if_pos rfl]
      · rw [if_neg hk, if_neg hk]

theorem getL_eq_none : ∀ {l : List (κ × ν)}, getL k l = none ↔ k ∉ l.map Prod.fst
  | [] => by simp [getL]
  | e :: l => by
    unfold getL
    split_ifs with he
    · simp [he]
    · rw [getL_eq_none, List.map_cons, List.mem_cons, not_or]
      exact ⟨fun h => ⟨fun h' => he h'.symm, h⟩, fun h => h.2⟩

theorem getL_filter (p : κ → Bool) (k : κ) :
    ∀ l : List (κ × ν), getL k (l.filter fun e => p e.1) = if p k then getL k l else none
  | [] => by simp [getL]
  | e :: l => by
    rw [List.filter_cons]
    by_cases he : e.1 = k
    · by_cases hp : p k
      · simp [getL, he, hp]
      · rw [if_neg (by rw [he]; exact hp), getL_filter p k l]
        simp [hp]
    · by_cases hp : p e.1
      · simp [getL, he, hp, getL_filter p k l]
      · simp [getL, he, hp, getL_filter p k l]

theorem getL_map {μ : Type} (f : κ → ν → μ) (k : κ) :
    ∀ l : List (κ × ν), getL k (l.map fun e => (e.1, f e.1 e.2)) = (getL k l).map (f k)
  | [] => rfl
  | e :: l => by
    rw [List.map_cons]
    unfold getL
    by_cases he : e.1 = k
    · simp [he]
    · rw [if_neg he, if_neg he, getL_map f k l]

theorem getL_eq_some {v : ν} :
    ∀ {l : List (κ × ν)}, (l.map Prod.fst).Nodup → (getL k l = some v ↔ (k, v) ∈ l)
  | [], _ => by simp [getL]
  | e :: l, h => by
    rw [List.map_cons, List.nodup_cons] at h
    unfold getL
    split_ifs with he
    · subst he
      constructor
      · intro hv; cases hv; exact List.mem_cons_self
      · intro hm
        rcases List.mem_cons.mp hm with hm | hm
        · rw [← hm]
        · exact absurd (List.mem_map_of_mem (f := Prod.fst) hm) h.1
    · rw [getL_eq_some h.2, List.mem_cons]
      exact ⟨Or.inr, fun hm => hm.resolve_left fun hm => he (by rw [← hm])⟩

end Lists

namespace Dict

variable {κ ν : Type}

def empty : Dict κ ν := ⟨[], List.nodup_nil⟩

def keys (d : Dict κ ν) : List κ := d.entries.map Prod.fst

def values (d : Dict κ ν) : List ν := d.entries.map Prod.snd

def size (d : Dict κ ν) : ℕ := d.entries.length

/-- Keep the entries whose keys pass a test. -/
def filterKeys (d : Dict κ ν) (p : κ → Bool) : Dict κ ν :=
  ⟨d.entries.filter fun e => p e.1, d.nodup.sublist (List.Sublist.map _ List.filter_sublist)⟩

/-- Keep the entries whose values pass a test. -/
def filterVal (d : Dict κ ν) (p : ν → Bool) : Dict κ ν :=
  ⟨d.entries.filter fun e => p e.2, d.nodup.sublist (List.Sublist.map _ List.filter_sublist)⟩

/-- Change every value, keys and order staying as they are. -/
def mapVal {μ : Type} (d : Dict κ ν) (f : κ → ν → μ) : Dict κ μ :=
  ⟨d.entries.map fun e => (e.1, f e.1 e.2), by
    rw [List.map_map]; exact d.nodup⟩

/-- `popitem(last=False)` on a dictionary that has entries. -/
def dropFirst (d : Dict κ ν) : Dict κ ν :=
  ⟨d.entries.tail, d.nodup.sublist (List.Sublist.map _ (List.tail_sublist d.entries))⟩

/-- Drop the first entries while there are `limit` or more. -/
def makeRoom (limit : ℕ) : ℕ → Dict κ ν → Dict κ ν
  | 0, d => d
  | n + 1, d => if limit ≤ d.size then makeRoom limit n d.dropFirst else d

theorem ext {d d' : Dict κ ν} (h : d.entries = d'.entries) : d = d' := by
  cases d; cases d'; simpa using h

theorem nodup_keys (d : Dict κ ν) : d.keys.Nodup := d.nodup

theorem size_eq (d : Dict κ ν) : d.size = d.keys.length := by simp [size, keys]

@[simp] theorem keys_empty : (empty : Dict κ ν).keys = [] := rfl

@[simp] theorem size_empty : (empty : Dict κ ν).size = 0 := rfl

theorem keys_filterKeys (d : Dict κ ν) (p : κ → Bool) :
    (d.filterKeys p).keys = d.keys.filter p := by
  simp [keys, filterKeys, List.filter_map, Function.comp_def]

@[simp] theorem keys_mapVal {μ : Type} (d : Dict κ ν) (f : κ → ν → μ) :
    (d.mapVal f).keys = d.keys := by
  simp [keys, mapVal, List.map_map, Function.comp_def]

@[simp] theorem size_mapVal {μ : Type} (d : Dict κ ν) (f : κ → ν → μ) :
    (d.mapVal f).size = d.size := by rw [size_eq, keys_mapVal, size_eq]

section Keys

variable [DecidableEq κ]

instance [DecidableEq ν] : DecidableEq (Dict κ ν) := fun d d' =>
  decidable_of_iff (d.entries = d'.entries) ⟨ext, fun h => by rw [h]⟩

def get? (d : Dict κ ν) (k : κ) : Option ν := getL k d.entries

def set (d : Dict κ ν) (k : κ) (v : ν) : Dict κ ν := ⟨setL k v d.entries, nodup_setL d.nodup⟩

def pop (d : Dict κ ν) (k : κ) : Dict κ ν := d.filterKeys fun k' => decide (k' ≠ k)

variable {d : Dict κ ν} {k : κ} {v : ν}

theorem get?_eq_some : d.get? k = some v ↔ (k, v) ∈ d.entries :=
  getL_eq_some d.nodup

theorem get?_eq_none : d.get? k = none ↔ k ∉ d.keys := getL_eq_none

theorem mem_keys : k ∈ d.keys ↔ ∃ v, d.get? k = some v := by
  rw [← Option.isSome_iff_exists, ← not_iff_not, Option.not_isSome_iff_eq_none, get?_eq_none]

theorem mem_keys_of_get? (h : d.get? k = some v) : k ∈ d.keys :=
  mem_keys.mpr ⟨v, h⟩

theorem mem_values : v ∈ d.values ↔ ∃ k, d.get? k = some v := by
  simp only [values, List.mem_map, Prod.exists, get?_eq_some]
  exact ⟨fun ⟨a, b, h, e⟩ => ⟨a, e ▸ h⟩, fun ⟨a, h⟩ => ⟨a, v, h, rfl⟩⟩

@[simp] theorem get?_empty (k : κ) : (empty : Dict κ ν).get? k = none := rfl

theorem get?_set (d : Dict κ ν) (k k' : κ) (v : ν) :
    (d.set k v).get? k' = if k = k' then some v else d.get? k' := getL_setL k k' v d.entries

@[simp] theorem get?_set_self (d : Dict κ ν) (k : κ) (v : ν) : (d.set k v).get? k = some v := by
  rw [get?_set, if_pos rfl]

theorem get?_set_of_ne (d : Dict κ ν) {k' : κ} (h : k ≠ k') (v : ν) :
    (d.set k v).get? k' = d.get? k' := by rw [get?_set, if_neg h]

theorem keys_set_of_mem (h : k ∈ d.keys) (v : ν) : (d.set k v).keys = d.keys := keys_setL_of_mem h

theorem keys_set_of_notMem (h : k ∉ d.keys) (v : ν) : (d.set k v).keys = d.keys ++ [k] := keys_setL_of_notMem h

theorem entries_set_of_notMem (h : k ∉ d.keys) (v : ν) :
    (d.set k v).entries = d.entries ++ [(k, v)] := setL_of_notMem h

theorem mem_keys_set {k' : κ} : k' ∈ (d.set k v).keys ↔ k' = k ∨ k' ∈ d.keys := by
  rw [mem_keys, mem_keys]
  simp only [get?_set]
  by_cases h : k = k'
  · simp [h]
  · simp [h, Ne.symm h]

theorem get?_filterKeys (d : Dict κ ν) (p : κ → Bool) (k : κ) :
    (d.filterKeys p).get? k = if p k then d.get? k else none := getL_filter p k d.entries

theorem get?_pop (d : Dict κ ν) (k k' : κ) :
    (d.pop k).get? k' = if k' = k then none else d.get? k' := by
  rw [pop, get?_filterKeys]
  by_cases h : k' = k <;> simp [h]

@[simp] theorem get?_pop_self (d : Dict κ ν) (k : κ) : (d.pop k).get? k = none := by
  rw [get?_pop, if_pos rfl]

theorem get?_pop_of_ne (d : Dict κ ν) {k' : κ} (h : k' ≠ k) :
    (d.pop k).get? k' = d.get? k' := by rw [get?_pop, if_neg h]

theorem keys_pop (d : Dict κ ν) (k : κ) : (d.pop k).keys = d.keys.filter (· ≠ k) :=
  keys_filterKeys d _

theorem mem_keys_pop {k' : κ} : k' ∈ (d.pop k).keys ↔ k' ∈ d.keys ∧ k' ≠ k := by
  rw [keys_pop, List.mem_filter, decide_eq_true_eq]

theorem pop_of_notMem (h : k ∉ d.keys) : d.pop k = d := by
  refine ext (List.filter_eq_self.mpr fun e he => ?_)
  simp only [ne_eq, decide_eq_true_eq]
  rintro rfl
  exact h (List.mem_map_of_mem he)

theorem size_pop (h : k ∈ d.keys) : (d.pop k).size + 1 = d.size := by
  have he : d.keys.filter (fun k' => decide (k' ≠ k)) = d.keys.erase k := by
    rw [d.nodup_keys.erase_eq_filter]
    exact List.filter_congr fun a _ => by by_cases h : a = k <;> simp [h]
  have hpos := List.length_pos_of_mem h
  rw [size_eq, size_eq, keys_pop, he, List.length_erase_of_mem h]
  omega

theorem size_set_of_notMem (h : k ∉ d.keys) (v : ν) :
    (d.set k v).size = d.size + 1 := by simp [size_eq, keys_set_of_notMem h]

theorem size_set_of_mem (h : k ∈ d.keys) (v : ν) :
    (d.set k v).size = d.size := by rw [size_eq, size_eq, keys_set_of_mem h]

theorem get?_foldl_pop (k : κ) : ∀ (ks : List κ) (d : Dict κ ν),
    (ks.foldl pop d).get? k = if k ∈ ks then none else d.get? k
  | [], d => by simp
  | k' :: ks, d => by
    rw [List.foldl_cons, get?_foldl_pop k ks, get?_pop]
    by_cases h : k = k'
    · simp [h]
    · simp [h]

theorem size_foldl_pop : ∀ {ks : List κ} {d : Dict κ ν}, ks.Nodup → (∀ k ∈ ks, k ∈ d.keys) →
    (ks.foldl pop d).size + ks.length = d.size
  | [], _, _, _ => rfl
  | k :: ks, d, hn, h => by
    obtain ⟨hk, hn⟩ := List.nodup_cons.mp hn
    have ih := size_foldl_pop (d := d.pop k) hn fun k' hk' => mem_keys_pop.mpr
      ⟨h k' (List.mem_cons_of_mem k hk'), fun he => hk (he ▸ hk')⟩
    have := size_pop (h k List.mem_cons_self)
    rw [List.foldl_cons, List.length_cons]
    omega

theorem get?_mapVal {μ : Type} (d : Dict κ ν) (f : κ → ν → μ) (k : κ) :
    (d.mapVal f).get? k = (d.get? k).map (f k) := getL_map f k d.entries

theorem get?_filterVal (d : Dict κ ν) (p : ν → Bool) (k : κ) :
    (d.filterVal p).get? k = (d.get? k).filter p := by
  cases hget : d.get? k with
  | none =>
    rw [Option.filter_none, get?_eq_none]
    intro hmem
    obtain ⟨e, he, rfl⟩ := List.mem_map.mp hmem
    exact get?_eq_none.mp hget (List.mem_map_of_mem (List.mem_filter.mp he).1)
  | some v =>
    by_cases hp : p v = true
    · rw [Option.filter_some_pos hp, get?_eq_some]
      exact List.mem_filter.mpr ⟨get?_eq_some.mp hget, hp⟩
    · rw [Option.filter_some_neg (Bool.not_eq_true _ ▸ hp), get?_eq_none]
      intro hmem
      obtain ⟨e, he, rfl⟩ := List.mem_map.mp hmem
      obtain ⟨he, hpe⟩ := List.mem_filter.mp he
      obtain rfl := Option.some.inj (hget.symm.trans (get?_eq_some.mpr he))
      exact hp hpe

/-- **A dictionary is filled again** by what writes its entries one after the other into one that has fewer. -/
theorem foldl_refill {α : Type} (d : Dict κ ν) (g : κ × ν → α) {f : Dict κ ν → α → Dict κ ν}
    (hf : ∀ e ∈ d.entries, ∀ d' : Dict κ ν, d'.size < d.size → f d' (g e) = d'.set e.1 e.2) :
    (d.entries.map g).foldl f .empty = d := by
  have hfold : ∀ (post : List (κ × ν)) (d' : Dict κ ν), d'.entries ++ post = d.entries →
      ((post.map g).foldl f d').entries = d.entries := by
    intro post
    induction post with
    | nil => exact fun d' h => (List.append_nil _).symm.trans h
    | cons e post ih =>
      intro d' h
      have hlen : d'.size + (post.length + 1) = d.size := by
        rw [size, size, ← h, List.length_append, List.length_cons]
      have hnew : e.1 ∉ d'.keys := by
        intro hmem
        have hn := d.nodup
        rw [← h, List.map_append, List.nodup_append] at hn
        exact hn.2.2 e.1 hmem e.1 List.mem_cons_self rfl
      rw [List.map_cons, List.foldl_cons, hf e (h ▸ List.mem_append_right _ List.mem_cons_self) d' (by omega)]
      refine ih _ ?_
      rw [entries_set_of_notMem hnew, List.append_assoc]
      exact h
  exact ext (hfold d.entries .empty rfl)

omit [DecidableEq κ] in
theorem filterVal_filterVal {p q : ν → Bool} (h : ∀ v, q v = true → p v = true) (d : Dict κ ν) :
    (d.filterVal p).filterVal q = d.filterVal q := by
  refine ext ?_
  show (d.entries.filter fun e => p e.2).filter (fun e => q e.2) = d.entries.filter fun e => q e.2
  rw [List.filter_filter]
  refine List.filter_congr fun e _ => ?_
  cases hq : q e.2 with
  | false => rw [Bool.false_and]
  | true => rw [h e.2 hq, Bool.true_and]

def moveToEnd (d : Dict κ ν) (k : κ) : Dict κ ν :=
  match d.get? k with
  | none => d
  | some v => (d.pop k).set k v

@[simp] theorem get?_moveToEnd (d : Dict κ ν) (k k' : κ) :
    (d.moveToEnd k).get? k' = d.get? k' := by
  unfold moveToEnd
  cases hk : d.get? k with
  | none => rfl
  | some v =>
    show ((d.pop k).set k v).get? k' = d.get? k'
    rw [get?_set, get?_pop]
    by_cases h : k = k'
    · rw [if_pos h, ← h, hk]
    · rw [if_neg h, if_neg (Ne.symm h)]

theorem size_moveToEnd (d : Dict κ ν) (k : κ) : (d.moveToEnd k).size = d.size := by
  unfold moveToEnd
  cases hk : d.get? k with
  | none => rfl
  | some v =>
    have hgone : k ∉ (d.pop k).keys := fun h => (mem_keys_pop.mp h).2 rfl
    show ((d.pop k).set k v).size = d.size
    rw [size_set_of_notMem hgone, size_pop (mem_keys_of_get? hk)]

theorem entries_refile (d : Dict κ ν) (k : κ) (v : ν) :
    ((d.set k v).moveToEnd k).entries = (d.pop k).entries ++ [(k, v)] := by
  have hpop : (d.set k v).pop k = d.pop k := by
    refine ext ?_
    show (setL k v d.entries).filter _ = d.entries.filter _
    induction d.entries with
    | nil => simp [setL]
    | cons e l ih =>
      unfold setL
      split_ifs with he
      · simp [he]
      · rw [List.filter_cons, List.filter_cons, ih]
  have hmove : (d.set k v).moveToEnd k = ((d.set k v).pop k).set k v := by
    unfold moveToEnd
    rw [get?_set_self]
  rw [hmove, hpop, entries_set_of_notMem fun h => (mem_keys_pop.mp h).2 rfl]

theorem entries_pop_first {l : List (κ × ν)} (h : d.entries = (k, v) :: l) : (d.pop k).entries = l := by
  have hn := d.nodup
  rw [h, List.map_cons, List.nodup_cons] at hn
  show d.entries.filter _ = l
  rw [h, List.filter_cons_of_neg (by simp), List.filter_eq_self]
  intro e he
  exact decide_eq_true fun hk => hn.1 (List.mem_map.mpr ⟨e, he, hk⟩)

theorem get?_of_dropFirst (h : d.dropFirst.get? k = some v) : d.get? k = some v :=
  get?_eq_some.mpr (List.mem_of_mem_tail (get?_eq_some.mp h))

theorem get?_of_filterVal {p : ν → Bool} (h : (d.filterVal p).get? k = some v) : d.get? k = some v := by
  rw [get?_filterVal] at h
  exact (Option.filter_eq_some_iff.mp h).1

omit [DecidableEq κ] in
theorem keys_of_filterVal {p : ν → Bool} (h : k ∈ (d.filterVal p).keys) : k ∈ d.keys :=
  (List.filter_sublist.map Prod.fst).subset h

/-- What is found after an update is the new value, or was there under another key. -/
theorem get?_of_set {k' : κ} {v' : ν} (h : (d.set k v).get? k' = some v') :
    k' = k ∧ v' = v ∨ k' ≠ k ∧ d.get? k' = some v' := by
  rw [get?_set] at h
  split_ifs at h with hk
  · exact Or.inl ⟨hk.symm, (Option.some.inj h).symm⟩
  · exact Or.inr ⟨Ne.symm hk, h⟩

theorem all_set {P : κ → ν → Prop} (h : ∀ k' v', d.get? k' = some v' → P k' v') (hk : P k v) (k' : κ) (v' : ν)
    (hget : (d.set k v).get? k' = some v') : P k' v' := by
  rcases get?_of_set hget with ⟨rfl, rfl⟩ | ⟨-, hold⟩
  · exact hk
  · exact h k' v' hold

theorem get?_of_pop {k' : κ} (h : (d.pop k).get? k' = some v) : k' ≠ k ∧ d.get? k' = some v := by
  have hk : k' ≠ k := by
    rintro rfl
    rw [get?_pop_self] at h
    cases h
  rw [get?_pop_of_ne d hk] at h
  exact ⟨hk, h⟩

theorem get?_of_mapVal {μ : Type} {f : κ → ν → μ} {m : μ} (h : (d.mapVal f).get? k = some m) :
    ∃ v, d.get? k = some v ∧ m = f k v := by
  rw [get?_mapVal] at h
  obtain ⟨v, hv, rfl⟩ := Option.map_eq_some_iff.mp h
  exact ⟨v, hv, rfl⟩

/-- An update keeps to a bound where a new key finds room. -/
theorem size_set_le {m : ℕ} (h : d.size ≤ m) (hroom : k ∉ d.keys → d.size < m) : (d.set k v).size ≤ m := by
  by_cases hk : k ∈ d.keys
  · rw [size_set_of_mem hk]
    exact h
  · rw [size_set_of_notMem hk]
    exact hroom hk

omit [DecidableEq κ] in
theorem size_filterVal_le (d : Dict κ ν) (p : ν → Bool) : (d.filterVal p).size ≤ d.size :=
  List.length_filter_le _ _

theorem size_pop_le (d : Dict κ ν) (k : κ) : (d.pop k).size ≤ d.size := List.length_filter_le _ _

omit [DecidableEq κ] in
theorem size_makeRoom_lt {limit : ℕ} (hpos : 0 < limit) : ∀ {n : ℕ} {d : Dict κ ν}, d.size ≤ n →
    (makeRoom limit n d).size < limit
  | 0, d, h => by
    show d.size < limit
    omega
  | n + 1, d, h => by
    rw [makeRoom]
    split_ifs with hfull
    · refine size_makeRoom_lt hpos ?_
      have htail : d.dropFirst.size = d.size - 1 := List.length_tail
      omega
    · omega

omit [DecidableEq κ] in
theorem makeRoom_of_lt {limit : ℕ} (h : d.size < limit) : ∀ {n : ℕ}, makeRoom limit n d = d
  | 0 => rfl
  | n + 1 => by rw [makeRoom, if_neg (Nat.not_le.mpr h)]

theorem get?_of_makeRoom {limit : ℕ} : ∀ {n : ℕ} {d : Dict κ ν},
    (makeRoom limit n d).get? k = some v → d.get? k = some v
  | 0, _, h => h
  | n + 1, d, h => by
    rw [makeRoom] at h
    split_ifs at h
    · exact get?_of_dropFirst (get?_of_makeRoom h)
    · exact h

end Keys

end Dict

end NMesh.Base.Ordered
