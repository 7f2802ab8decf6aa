import NMesh.Base.Ordered
import Mathlib.Order.Lattice
import Mathlib.Order.MinMax

/-! # The greatest value of each group

Items belong to groups (`key`) and have values (`val`). `peaks` collects in one pass the greatest value of each
group, if it is above zero: the maximum of its values and zero (`getD_peaks`, `peak_le_iff`). An item whose value
is not above zero leaves no trace (`peaks_filter`). -/

namespace NMesh.Base.Peaks

open Base.Ordered

variable {α κ R : Type} [DecidableEq κ] [LinearOrder R] [Zero R] (key : α → κ) (val : α → R)

def raise (d : Dict κ R) (a : α) : Dict κ R :=
  if (d.get? (key a)).getD 0 < val a then d.set (key a) (val a) else d

/-- The greatest value above zero of each group. -/
def peaks (l : List α) : Dict κ R := l.foldl (raise key val) Dict.empty

/-- The maximum of a group's values and zero. -/
def peak (k : κ) (l : List α) : R := (l.filter fun a => key a = k).foldl (fun m a => max m (val a)) 0

/-- What is collected are values above zero, of items of `l`. -/
def Collected (l : List α) (d : Dict κ R) : Prop :=
  ∀ k v, d.get? k = some v → 0 < v ∧ ∃ a ∈ l, key a = k ∧ val a = v

variable {key val} {l l' : List α}

theorem Collected.getD_nonneg {d : Dict κ R} (h : Collected key val l d) (k : κ) :
    0 ≤ (d.get? k).getD 0 := by
  cases hget : d.get? k with
  | none => exact le_rfl
  | some v => exact (h k v hget).1.le

theorem Collected.raise {d : Dict κ R} (h : Collected key val l d) {a : α} (ha : a ∈ l) :
    Collected key val l (raise key val d a) := by
  intro k v hget
  unfold Peaks.raise at hget
  split_ifs at hget with hlt
  · rcases Dict.get?_of_set hget with ⟨rfl, rfl⟩ | ⟨-, hget⟩
    · exact ⟨(h.getD_nonneg (key a)).trans_lt hlt, a, ha, rfl, rfl⟩
    · exact h k v hget
  · exact h k v hget

theorem Collected.foldl : ∀ {l' : List α} {d : Dict κ R}, Collected key val l d → (∀ a ∈ l', a ∈ l) →
    Collected key val l (l'.foldl (Peaks.raise key val) d)
  | [], _, h, _ => h
  | a :: l', d, h, hl => by
    rw [List.foldl_cons]
    exact (h.raise (hl a List.mem_cons_self)).foldl fun b hb => hl b (List.mem_cons_of_mem a hb)

theorem peaks_spec (l : List α) : Collected key val l (peaks key val l) :=
  Collected.foldl (fun k v hget => by cases hget) fun _ ha => ha

/-! ### The maximum of a group -/

theorem getD_raise (d : Dict κ R) (a : α) (k : κ) :
    ((raise key val d a).get? k).getD 0 =
      if key a = k then max ((d.get? k).getD 0) (val a) else (d.get? k).getD 0 := by
  unfold raise
  by_cases hk : key a = k
  · subst hk
    rw [if_pos rfl]
    split_ifs with hlt
    · rw [Dict.get?_set_self, Option.getD_some, max_eq_right hlt.le]
    · rw [max_eq_left (not_lt.mp hlt)]
  · rw [if_neg hk]
    split_ifs
    · rw [Dict.get?_set_of_ne d hk]
    · rfl

theorem getD_foldl (k : κ) : ∀ (l : List α) (d : Dict κ R),
    ((l.foldl (raise key val) d).get? k).getD 0 =
      (l.filter fun a => key a = k).foldl (fun m a => max m (val a)) ((d.get? k).getD 0)
  | [], _ => rfl
  | a :: l, d => by
    rw [List.foldl_cons, getD_foldl k l, getD_raise]
    by_cases hk : key a = k
    · rw [List.filter_cons, if_pos (decide_eq_true hk), List.foldl_cons, if_pos hk]
    · rw [List.filter_cons, if_neg hk, if_neg (by simpa using hk)]

theorem getD_peaks (k : κ) (l : List α) : ((peaks key val l).get? k).getD 0 = peak key val k l :=
  getD_foldl k l Dict.empty

omit [Zero R] in
theorem foldl_max_le {m : R} : ∀ {l : List α} {b : R},
    l.foldl (fun m a => max m (val a)) b ≤ m ↔ b ≤ m ∧ ∀ a ∈ l, val a ≤ m
  | [], b => by simp
  | a :: l, b => by
    rw [List.foldl_cons, foldl_max_le, max_le_iff, List.forall_mem_cons, and_assoc]

theorem peak_le_iff {k : κ} {m : R} :
    peak key val k l ≤ m ↔ 0 ≤ m ∧ ∀ a ∈ l, key a = k → val a ≤ m := by
  unfold peak
  rw [foldl_max_le]
  simp only [List.mem_filter, decide_eq_true_eq, and_imp]

omit [Zero R] in
theorem foldl_max_lt {m : R} : ∀ {l : List α} {b : R},
    l.foldl (fun m a => max m (val a)) b < m ↔ b < m ∧ ∀ a ∈ l, val a < m
  | [], b => by simp
  | a :: l, b => by
    rw [List.foldl_cons, foldl_max_lt, max_lt_iff, List.forall_mem_cons, and_assoc]

theorem peak_lt_iff {k : κ} {m : R} :
    peak key val k l < m ↔ 0 < m ∧ ∀ a ∈ l, key a = k → val a < m := by
  unfold peak
  rw [foldl_max_lt]
  simp only [List.mem_filter, decide_eq_true_eq, and_imp]

theorem peak_nonneg (k : κ) (l : List α) : 0 ≤ peak key val k l := (peak_le_iff.mp le_rfl).1

variable (key val) in
theorem le_peak {a : α} (ha : a ∈ l) : val a ≤ peak key val (key a) l :=
  (peak_le_iff.mp le_rfl).2 a ha rfl

theorem peak_mono {k : κ} (h : ∀ a ∈ l, key a = k → a ∈ l') :
    peak key val k l ≤ peak key val k l' :=
  peak_le_iff.mpr ⟨peak_nonneg k l', fun a ha hk => hk ▸ le_peak key val (h a ha hk)⟩

/-! ### Items that say nothing -/

theorem raise_of_le {d : Dict κ R} (h : Collected key val l d) {a : α} (ha : val a ≤ 0) :
    raise key val d a = d := by
  unfold raise
  rw [if_neg (not_lt.mpr (ha.trans (h.getD_nonneg (key a))))]

theorem foldl_filter {p : α → Bool} : ∀ {l' : List α} {d : Dict κ R}, Collected key val l d →
    (∀ a ∈ l', a ∈ l) → (∀ a ∈ l', p a = false → val a ≤ 0) →
    (l'.filter p).foldl (raise key val) d = l'.foldl (raise key val) d
  | [], _, _, _, _ => rfl
  | a :: l', d, h, hl, hp => by
    have hl' := fun b hb => hl b (List.mem_cons_of_mem a hb)
    have hp' := fun b hb => hp b (List.mem_cons_of_mem a hb)
    rw [List.foldl_cons]
    by_cases ha : p a = true
    · rw [List.filter_cons_of_pos ha, List.foldl_cons]
      exact foldl_filter (h.raise (hl a List.mem_cons_self)) hl' hp'
    · rw [List.filter_cons_of_neg ha,
        raise_of_le h (hp a List.mem_cons_self (Bool.eq_false_iff.mpr ha))]
      exact foldl_filter h hl' hp'

variable (key val) in
theorem peaks_filter {p : α → Bool} (hp : ∀ a ∈ l, p a = false → val a ≤ 0) :
    peaks key val (l.filter p) = peaks key val l :=
  foldl_filter (l := l) (fun k v hget => by cases hget) (fun _ ha => ha) hp

end NMesh.Base.Peaks
