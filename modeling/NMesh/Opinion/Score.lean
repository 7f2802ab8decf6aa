import NMesh.Base.Runs
import NMesh.Opinion.Records
import Mathlib.Algebra.Order.BigOperators.Group.List
import Mathlib.Analysis.SpecialFunctions.Pow.Real

/-! # Hearsay is never decisive

The constructor puts the ceiling of what the others say below the threshold of suspicion (`Sound`), no
operation moves either, and no record weighs more than one report may (`Weighed`). So a node is suspect or
worse only if we saw something ourselves, and what the others say never exceeds one report for each family
that says it (`hearsay_not_decisive`). -/

namespace NMesh.Opinion.Score

set_option linter.unusedSectionVars false

open Base.BigEndian Base.Ordered Base.Peaks Base.Runs NMesh.Cert.Identity
open NMesh.Opinion.Table NMesh.Opinion.Table.Reputation NMesh.Opinion.Records

/-- The real numbers, with `0.5 ^ x`. -/
noncomputable instance : Halving ℝ where
  half x := (1 / 2 : ℝ) ^ x
  half_nonneg x := Real.rpow_nonneg (by norm_num) x
  half_le_one x hx := Real.rpow_le_one (by norm_num) (by norm_num) hx

variable {R : Type} [Field R] {s s' : Reputation R} {nodeId accuser : NodeID}

/-! ### The limits -/

def limits (s : Reputation R) : R × R × R × ℕ × R :=
  (s.suspect, s.hostile, s.halflife, s.maxTracked, s.rumourCeiling)

theorem limits_discount (h : s.discount nodeId accuser = some s') : limits s' = limits s := by
  unfold discount at h
  cases hget : s.standings.get? nodeId with
  | none => rw [hget] at h; cases h
  | some e =>
    rw [hget] at h
    obtain ⟨a, -, rfl⟩ := Option.map_eq_some_iff.mp h
    rfl

variable [LinearOrder R]

theorem limits_cancelIfMutual (s : Reputation R) (subject accuser : NodeID) :
    limits (s.cancelIfMutual subject accuser).2 = limits s := by
  rcases cancelIfMutual_cases s subject accuser with ⟨h, -⟩ | ⟨-, ⟨s1, h1, h2⟩, -⟩
  · rw [h]
  · rw [← h2]
    cases hd : s1.discount subject accuser with
    | none => exact limits_discount h1
    | some s2 => exact (limits_discount hd).trans (limits_discount h1)

variable [Halving R]

theorem limits_noteAccusation (s : Reputation R) (nodeId accuser : NodeID) (weight : R)
    (reason : String) (family : Option Bytes) (now : Option R) (clock : R) :
    limits (s.noteAccusation nodeId accuser weight reason family now clock).2 = limits s := by
  unfold noteAccusation
  dsimp only
  split_ifs
  · rfl
  · exact limits_cancelIfMutual _ nodeId accuser
  · exact limits_cancelIfMutual _ nodeId accuser
  · rfl
  · rfl

theorem limits_step (s : Reputation R) (act : R × Op R) : limits (s.step act) = limits s := by
  obtain ⟨clock, op⟩ := act
  cases op with
  | note nodeId weight reason now | forgive nodeId => rfl
  | noteAccusation nodeId accuser weight reason family now =>
    exact limits_noteAccusation s nodeId accuser weight reason family now clock

/-! ### The weights -/

/-- No record weighs more than one report may. -/
def Weighed (s : Reputation R) : Prop := ∀ x y a, record s x y = some a → a.weight ≤ maxWeight

theorem Weighed.fewer (h : Weighed s) (hf : Fewer s s') : Weighed s' := by
  intro x y a ha
  rcases hf x y with hn | he
  · rw [hn] at ha; cases ha
  · exact h x y a (by rw [← he]; exact ha)

variable [IsStrictOrderedRing R]

theorem maxWeight_nonneg : (0 : R) ≤ maxWeight := by unfold maxWeight; norm_num

theorem Weighed.discount (hw : Weighed s) (h : s.discount nodeId accuser = some s') : Weighed s' := by
  intro x y a ha
  rw [record_discount h] at ha
  split_ifs at ha
  · obtain ⟨b, -, rfl⟩ := Option.map_eq_some_iff.mp ha
    exact maxWeight_nonneg
  · exact hw x y a ha

theorem Weighed.cancelled (hw : Weighed s) (h : Cancelled s nodeId accuser s') : Weighed s' := by
  obtain ⟨s1, h1, rfl⟩ := h
  cases h2 : s1.discount nodeId accuser with
  | none => exact hw.discount h1
  | some s2 => exact (hw.discount h1).discount h2

theorem Weighed.file (hw : Weighed s) {a : Accusation R} (ha : a.weight ≤ maxWeight) (clock : R) :
    Weighed (s.file nodeId accuser a clock) := by
  intro x y b hb
  rcases record_file s nodeId accuser a clock x y with hn | he
  · rw [hn] at hb; cases hb
  · rw [he] at hb
    split_ifs at hb
    · cases hb; exact ha
    · exact hw x y b hb

theorem allowance_le (s : Reputation R) (accuser : NodeID) (weight now : R) :
    s.allowance accuser weight now ≤ maxWeight := by
  unfold allowance
  split_ifs
  · exact maxWeight_nonneg
  · exact max_le maxWeight_nonneg (min_le_right _ _)

theorem Weighed.step (hw : Weighed s) (act : R × Op R) : Weighed (s.step act) := by
  obtain ⟨clock, op⟩ := act
  cases op with
  | note nodeId weight reason now => exact hw.fewer (fewer_note s nodeId weight reason now clock)
  | noteAccusation nodeId accuser weight reason family now =>
    by_cases hne : accuser = nodeId
    · rw [step_self hne]; exact hw
    · have hfile : Weighed (written s nodeId accuser weight family now clock) :=
        hw.file (allowance_le s accuser weight _) clock
      rcases noteAccusation_cases s hne weight reason family now clock with ⟨-, he⟩ | ⟨-, -, s2, h2, hf⟩
      · change Weighed (s.noteAccusation nodeId accuser weight reason family now clock).2
        rw [he]
        exact hfile.fewer (fewer_report _ nodeId reason clock)
      · exact (hfile.cancelled h2).fewer (fewer_of_counted hf)
  | forgive nodeId => exact hw.fewer (fewer_forgive s nodeId)

/-! ### Decay -/

theorem decay_le {value m : R} (hm : 0 ≤ m) (h : value ≤ m) (age halflife : R) :
    decay value age halflife ≤ m := by
  unfold decay
  split_ifs with h1 h2
  · exact max_le hm h
  · exact hm
  · rw [not_or, not_le, not_le] at h1
    have hage : 0 ≤ age / halflife := div_nonneg h1.2.le (not_le.mp h2).le
    exact (mul_le_of_le_one_right h1.1.le (Halving.half_le_one _ hage)).trans h

/-! ### What the others say -/

def families (entry : Standing R) : List Bytes := (entry.accusers.values.map Accusation.family).dedup

theorem mem_byFamily {entry : Standing R} {now : R} {e : Bytes × R}
    (he : e ∈ (s.byFamily entry now).entries) : 0 < e.2 ∧
      ∃ a ∈ entry.accusers.values, a.family = e.1 ∧ s.heard now a = e.2 := by
  have hpeak := (List.mem_filter.mp he).1
  exact peaks_spec entry.accusers.values e.1 e.2 (Dict.get?_eq_some.mpr hpeak)

theorem voices_le (s : Reputation R) (entry : Standing R) (now : R) :
    (s.byFamily entry now).size ≤ (families entry).length := by
  rw [Dict.size_eq]
  refine (List.subperm_of_subset (s.byFamily entry now).nodup_keys fun k hk => ?_).length_le
  obtain ⟨e, he, rfl⟩ := List.mem_map.mp hk
  obtain ⟨-, a, ha, hfam, -⟩ := mem_byFamily he
  exact List.mem_dedup.mpr (List.mem_map.mpr ⟨a, ha, hfam⟩)

theorem rumour_le (hw : Weighed s) {entry : Standing R}
    (hentry : s.standings.get? nodeId = some entry) (now : R) :
    s.rumour entry now ≤ (s.byFamily entry now).size * maxWeight := by
  have hvalue : ∀ v ∈ (s.byFamily entry now).values, v ≤ maxWeight := by
    intro v hv
    obtain ⟨e, he, rfl⟩ := List.mem_map.mp hv
    obtain ⟨-, a, ha, -, hheard⟩ := mem_byFamily he
    obtain ⟨y, hy⟩ := Dict.mem_values.mp ha
    rw [← hheard]
    refine decay_le maxWeight_nonneg (hw nodeId y a ?_) _ _
    rw [record, hentry]; exact hy
  have hsum := List.sum_le_card_nsmul _ _ hvalue
  rw [nsmul_eq_mul] at hsum
  simpa [rumour, Dict.size, Dict.values] using hsum

/-! ### Standings -/

/-- The ceiling of what the others say is below the threshold of suspicion, and that is below hostility. -/
structure Sound (s : Reputation R) : Prop where
  suspect : 0 < s.suspect
  hostile : s.suspect ≤ s.hostile
  ceiling : s.rumourCeiling < s.suspect

theorem sound_new (suspect hostile halflife : R) (maxTracked : ℤ) :
    Sound (Reputation.new suspect hostile halflife maxTracked) := by
  have htenth : (0 : R) < 1 / 10 := by norm_num
  have hpos : (0 : R) < max (1 / 10) suspect := lt_max_of_lt_left htenth
  exact ⟨hpos, (le_add_of_nonneg_right htenth.le).trans (le_max_left _ _),
    max_lt hpos (sub_lt_self _ htenth)⟩

theorem Sound.congr (h : Sound s) (he : limits s' = limits s) : Sound s' := by
  simp only [limits, Prod.mk.injEq] at he
  obtain ⟨h1, h2, -, -, h5⟩ := he
  exact ⟨by rw [h1]; exact h.suspect, by rw [h1, h2]; exact h.hostile, by rw [h1, h5]; exact h.ceiling⟩

theorem suspect_le_score (h : Sound s) {now : R} (hst : s.standing nodeId now ≠ .ok) :
    s.suspect ≤ s.score nodeId now := by
  unfold standing Reputation.grade at hst
  split_ifs at hst with h1 h2
  · exact h.hostile.trans h1
  · exact h2
  · exact absurd rfl hst

/-- **A node is suspect or worse only if we saw something ourselves.** -/
theorem direct_pos (h : Sound s) {now : R} (hst : s.standing nodeId now ≠ .ok) :
    ∃ entry, s.standings.get? nodeId = some entry ∧ 0 < s.direct entry now := by
  have hscore := suspect_le_score h hst
  unfold score at hscore
  cases hget : s.standings.get? nodeId with
  | none =>
    rw [hget] at hscore
    exact absurd hscore (not_le.mpr h.suspect)
  | some entry =>
    rw [hget] at hscore
    dsimp only at hscore
    have hmin := (min_le_right (s.rumour entry now) s.rumourCeiling).trans_lt h.ceiling
    exact ⟨entry, rfl, by linarith⟩

theorem sound_run (suspect hostile halflife : R) (maxTracked : ℤ) (acts : List (R × Op R)) :
    Sound (run step (Reputation.new suspect hostile halflife maxTracked) acts) ∧
      Weighed (run step (Reputation.new suspect hostile halflife maxTracked) acts) := by
  refine run_induct (P := fun s => Sound s ∧ Weighed s) (fun s act h => ?_) acts ⟨?_, ?_⟩
  · exact ⟨h.1.congr (limits_step s act), h.2.step act⟩
  · exact sound_new suspect hostile halflife maxTracked
  · intro x y a ha
    cases ha

/-- **Hearsay is never decisive.** After any operations at any times: a node's standing is suspect or
hostile only if our own part of its score is positive; what the others say, capped, stays below the
threshold of suspicion, and is at most one report for each family that says it. -/
theorem hearsay_not_decisive (suspect hostile halflife : R) (maxTracked : ℤ)
    (acts : List (R × Op R)) (nodeId : NodeID) (now : R) :
    let s := run step (Reputation.new suspect hostile halflife maxTracked) acts
    (s.standing nodeId now ≠ .ok →
      ∃ entry, s.standings.get? nodeId = some entry ∧ 0 < s.direct entry now) ∧
    ∀ entry, s.standings.get? nodeId = some entry →
      min (s.rumour entry now) s.rumourCeiling < s.suspect ∧
        s.rumour entry now ≤ (families entry).length * maxWeight := by
  intro s
  obtain ⟨hs, hw⟩ := sound_run suspect hostile halflife maxTracked acts
  refine ⟨direct_pos hs, fun entry hentry => ⟨(min_le_right _ _).trans_lt hs.ceiling, ?_⟩⟩
  have hvoices : ((s.byFamily entry now).size : R) ≤ (families entry).length :=
    Nat.cast_le.mpr (voices_le s entry now)
  exact (rumour_le hw hentry now).trans (mul_le_mul_of_nonneg_right hvoices maxWeight_nonneg)

theorem crowd_not_decisive :
    let crowd : List (ℝ × Op ℝ) := (List.range 20).map fun i : ℕ =>
      (i, .noteAccusation (plain.fromPublicKey [0]) (plain.fromPublicKey [UInt8.ofNat (i + 1)]) 4 "" none
        none)
    let s := run step (Reputation.new 8 20 900 4096) crowd
    (s.standing (plain.fromPublicKey [0]) 20 ≠ .ok →
      ∃ entry, s.standings.get? (plain.fromPublicKey [0]) = some entry ∧ 0 < s.direct entry 20) ∧
    ∀ entry, s.standings.get? (plain.fromPublicKey [0]) = some entry →
      min (s.rumour entry 20) s.rumourCeiling < s.suspect ∧
        s.rumour entry 20 ≤ (families entry).length * maxWeight :=
  hearsay_not_decisive 8 20 900 4096 _ _ 20

end NMesh.Opinion.Score
