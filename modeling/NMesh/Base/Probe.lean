import Mathlib.Data.Finset.Card
import Mathlib.Data.Fintype.Card
import Mathlib.Logic.Function.Iterate

/-! # Linear probing

A table of `n` cells, some of them free, holds a set of values. A value is looked for from a start of its own,
cell after cell (`next`), to the first that is free or holds it (`probe`). `Holds` is the invariant: every value
lies in one cell, and no cell on the walk to it is free. -/

namespace NMesh.Base.Probe

variable {α : Type} {n : ℕ} (next : Fin n → Fin n) (start : α → Fin n) (free : α)

/-- The first cell from `i` on that is free or holds `v`; `none` if the walk passes `fuel` cells. -/
def probe [DecidableEq α] (v : α) (cells : Fin n → α) : ℕ → Fin n → Option (Fin n)
  | 0, _ => none
  | fuel + 1, i => if cells i = free ∨ cells i = v then some i else probe v cells fuel (next i)

/-- **The cells hold the set.** -/
structure Holds (cells : Fin n → α) (S : Finset α) : Prop where
  mem : ∀ v, v ∈ S ↔ v ≠ free ∧ ∃ j, cells j = v
  inj : ∀ i j, cells i = cells j → cells i ≠ free → i = j
  chained : ∀ j, cells j ≠ free → ∃ k, next^[k] (start (cells j)) = j ∧
    ∀ m < k, cells (next^[m] (start (cells j))) ≠ free

variable {next start free} {cells : Fin n → α} {S : Finset α} {v : α}

theorem probe_eq [DecidableEq α] : ∀ {fuel k : ℕ} {i : Fin n}, k < fuel →
    (cells (next^[k] i) = free ∨ cells (next^[k] i) = v) →
    (∀ m < k, cells (next^[m] i) ≠ free ∧ cells (next^[m] i) ≠ v) →
    probe next free v cells fuel i = some (next^[k] i)
  | fuel + 1, 0, i, _, hstop, _ => by
    have h0 : cells i = free ∨ cells i = v := hstop
    rw [probe, if_pos h0]
    rfl
  | fuel + 1, k + 1, i, hk, hstop, hpass => by
    have h0 : cells i ≠ free ∧ cells i ≠ v := hpass 0 (Nat.succ_pos k)
    rw [probe, if_neg (not_or.mpr h0), Function.iterate_succ_apply]
    refine probe_eq (by omega) hstop fun m hm => ?_
    exact hpass (m + 1) (by omega)

theorem probe_spec [DecidableEq α] {fuel k : ℕ} {i : Fin n} (hk : k < fuel)
    (hstop : cells (next^[k] i) = free ∨ cells (next^[k] i) = v) :
    ∃ k' ≤ k, probe next free v cells fuel i = some (next^[k'] i) ∧
      (cells (next^[k'] i) = free ∨ cells (next^[k'] i) = v) ∧
      ∀ m < k', cells (next^[m] i) ≠ free ∧ cells (next^[m] i) ≠ v := by
  have hex : ∃ k, cells (next^[k] i) = free ∨ cells (next^[k] i) = v := ⟨k, hstop⟩
  have hle : Nat.find hex ≤ k := Nat.find_min' hex hstop
  have hpass : ∀ m < Nat.find hex, cells (next^[m] i) ≠ free ∧ cells (next^[m] i) ≠ v :=
    fun m hm => not_or.mp (Nat.find_min hex hm)
  exact ⟨_, hle, probe_eq (by omega) (Nat.find_spec hex) hpass, Nat.find_spec hex, hpass⟩

theorem holds_empty : Holds next start free (fun _ => free) ∅ where
  mem v := by
    constructor
    · intro h
      cases h
    · rintro ⟨hv, -, rfl⟩
      exact absurd rfl hv
  inj _ _ _ h := absurd rfl h
  chained _ h := absurd rfl h

theorem Holds.exists_free (h : Holds next start free cells S) (hS : S.card < n) :
    ∃ j, cells j = free := by
  by_contra hno
  have hall : ∀ j, cells j ≠ free := fun j hj => hno ⟨j, hj⟩
  have hmaps : ∀ j ∈ (Finset.univ : Finset (Fin n)), cells j ∈ S := fun j _ =>
    (h.mem _).mpr ⟨hall j, j, rfl⟩
  have hcard := Finset.card_le_card_of_injOn cells hmaps fun i _ j _ hij => h.inj i j hij (hall i)
  rw [Finset.card_univ, Fintype.card_fin] at hcard
  omega

section Insert

variable [DecidableEq α] (hcyc : ∀ i j : Fin n, ∃ k < n, next^[k] i = j)
include hcyc

/-- **The walk to a value ends**, at the value if the table holds it, else at a free cell. -/
theorem Holds.probe (h : Holds next start free cells S) (hS : S.card < n) (hv : v ≠ free) :
    ∃ j, Probe.probe next free v cells n (start v) = some j ∧
      (cells j = v ∧ v ∈ S ∨ cells j = free ∧ v ∉ S) ∧
      ∃ k, next^[k] (start v) = j ∧ ∀ m < k, cells (next^[m] (start v)) ≠ free := by
  obtain ⟨j, hj⟩ := h.exists_free hS
  obtain ⟨k, hk, rfl⟩ := hcyc (start v) j
  obtain ⟨k', -, hprobe, hstop, hpass⟩ := probe_spec (v := v) hk (Or.inl hj)
  refine ⟨_, hprobe, ?_, k', rfl, fun m hm => (hpass m hm).1⟩
  rcases hstop with hfree | heq
  · refine Or.inr ⟨hfree, fun hmem => ?_⟩
    -- the value's own cell would lie behind the free one
    obtain ⟨-, i, rfl⟩ := (h.mem v).mp hmem
    obtain ⟨l, hl, hfull⟩ := h.chained i hv
    rcases Nat.lt_trichotomy l k' with hlt | rfl | hlt
    · exact (hpass l hlt).2 (congrArg cells hl)
    · exact hv (by rw [← congrArg cells hl]; exact hfree)
    · exact hfull k' hlt hfree
  · exact Or.inl ⟨heq, (h.mem v).mpr ⟨hv, _, heq⟩⟩

omit hcyc in
theorem Holds.insert (h : Holds next start free cells S) (hv : v ≠ free) (hnew : v ∉ S) {k : ℕ}
    (hfree : cells (next^[k] (start v)) = free)
    (hpass : ∀ m < k, cells (next^[m] (start v)) ≠ free) :
    Holds next start free (Function.update cells (next^[k] (start v)) v) (insert v S) := by
  set j := next^[k] (start v) with hj
  have hold : ∀ i, cells i ≠ free → Function.update cells j v i = cells i := fun i hi =>
    Function.update_of_ne (fun he => hi (by rw [he, hfree])) _ _
  have hfull : ∀ i, cells i ≠ free → Function.update cells j v i ≠ free := fun i hi => by
    rw [hold i hi]
    exact hi
  have hcell : ∀ i, Function.update cells j v i ≠ free → i = j ∨ cells i ≠ free := fun i hi => by
    by_cases he : i = j
    · exact Or.inl he
    · rw [Function.update_of_ne he] at hi
      exact Or.inr hi
  have hnone : ∀ i, cells i ≠ v := fun i hi => hnew ((h.mem v).mpr ⟨hv, i, hi⟩)
  refine ⟨fun w => ?_, fun i i' hii hi => ?_, fun i hi => ?_⟩
  · rw [Finset.mem_insert, h.mem w]
    constructor
    · rintro (rfl | ⟨hw, i, rfl⟩)
      · exact ⟨hv, j, Function.update_self _ _ _⟩
      · exact ⟨hw, i, hold i hw⟩
    · rintro ⟨hw, i, rfl⟩
      rcases hcell i hw with rfl | hi
      · exact Or.inl (Function.update_self _ _ _)
      · exact Or.inr ⟨by rw [hold i hi]; exact hi, i, (hold i hi).symm⟩
  · have hi' : Function.update cells j v i' ≠ free := hii ▸ hi
    rcases hcell i hi with rfl | h1
    · rcases hcell i' hi' with rfl | h2
      · rfl
      · rw [Function.update_self, hold i' h2] at hii
        exact absurd hii.symm (hnone i')
    · rcases hcell i' hi' with rfl | h2
      · rw [Function.update_self, hold i h1] at hii
        exact absurd hii (hnone i)
      · rw [hold i h1, hold i' h2] at hii
        exact h.inj i i' hii h1
  · rcases hcell i hi with rfl | h1
    · rw [Function.update_self]
      exact ⟨k, hj.symm, fun m hm => hfull _ (hpass m hm)⟩
    · rw [hold i h1]
      obtain ⟨l, hl, hpath⟩ := h.chained i h1
      exact ⟨l, hl, fun m hm => hfull _ (hpath m hm)⟩

end Insert

end NMesh.Base.Probe
