import NMesh.Opinion.Bounds

/-! # What one family does to the others

An accusation displaces one record at most: its accuser's own earlier one, or, if there are 64 others, the
oldest (`displaced`). So what the other families contribute to a node's score stays the same exactly if
the record displaced is of the accuser's family, or its family says as much without it
(`others_unchanged_iff`). A family of 64 silences the others (`flood_silences`). -/

namespace NMesh.Opinion.Families

set_option linter.unusedSectionVars false

open Base.BigEndian Base.Ordered Base.Peaks Base.Runs NMesh.Cert.Identity
open NMesh.Opinion.Table NMesh.Opinion.Table.Reputation NMesh.Opinion.Records NMesh.Opinion.Score
open NMesh.Opinion.Bounds

variable {R : Type} [Field R] [LinearOrder R] [Halving R] {s s' : Reputation R}
  {nodeId accuser : NodeID}

/-- What a family contributes to a node's score: the most any of its members says. -/
def contribution (s : Reputation R) (nodeId : NodeID) (family : Bytes) (now : R) : R :=
  match s.standings.get? nodeId with
  | none => 0
  | some entry => ((s.byFamily entry now).get? family).getD 0

def displaced (s : Reputation R) (nodeId accuser : NodeID) (stamp : R) :
    Option (NodeID × Accusation R) :=
  if accuser = nodeId then none
  else match (accusersOf s nodeId).get? accuser with
    | some own => some (accuser, own)
    | none =>
      if (accusersOf s nodeId).size < maxAccusers then none
      else ((accusersOf s nodeId).entries.argmin fun e => e.2.stamp).filter fun oldest =>
        oldest.2.stamp ≤ stamp

def Covered (s : Reputation R) (nodeId : NodeID) (now : R) (e : NodeID × Accusation R) : Prop :=
  s.heard now e.2 ≤ 0 ∨ ∃ k a, k ≠ e.1 ∧ (accusersOf s nodeId).get? k = some a ∧
    a.family = e.2.family ∧ s.heard now e.2 ≤ s.heard now a

/-! ### Contributions -/

theorem filterVal_peaks (entry : Standing R) (now : R) :
    s.byFamily entry now = peaks Accusation.family (s.heard now) entry.accusers.values := by
  refine Dict.ext (List.filter_eq_self.mpr fun e he => decide_eq_true ?_)
  exact (peaks_spec entry.accusers.values e.1 e.2 (Dict.get?_eq_some.mpr he)).1

theorem contribution_eq (s : Reputation R) (nodeId : NodeID) (family : Bytes) (now : R) :
    contribution s nodeId family now =
      peak Accusation.family (s.heard now) family (accusersOf s nodeId).values := by
  unfold contribution accusersOf
  cases s.standings.get? nodeId with
  | none => rfl
  | some entry =>
    dsimp only
    rw [filterVal_peaks, getD_peaks]
    rfl

/-! ### The records left -/

/-- **The other families' records, after an accusation is written down**, are those before but the one
displaced. -/
theorem get?_written (h : (accusersOf s nodeId).size ≤ maxAccusers) (hne : accuser ≠ nodeId)
    {a : Accusation R} {clock : R} {k : NodeID} {r : Accusation R} (hr : r.family ≠ a.family) :
    (accusersOf (s.file nodeId accuser a clock) nodeId).get? k = some r ↔
      (accusersOf s nodeId).get? k = some r ∧
        ∀ e, displaced s nodeId accuser a.stamp = some e → e.1 ≠ k := by
  have hra : a ≠ r := fun he => hr (he ▸ rfl)
  rw [accusersOf_file, if_pos rfl]
  unfold displaced
  rw [if_neg hne]
  cases hown : (accusersOf s nodeId).get? accuser with
  | some own =>
    -- the accuser's own record is replaced in place
    have hsize := Dict.size_set_of_mem (Dict.mem_keys_of_get? hown) a
    rw [forgetOldest_of_le (by rw [hsize]; exact h), Dict.get?_set]
    by_cases hk : accuser = k
    · simp [hk, hra]
    · simp [hk]
  | none =>
    have hno := Dict.get?_eq_none.mp hown
    have hsize := Dict.size_set_of_notMem hno a
    have hget : ∀ k, ((accusersOf s nodeId).set accuser a).get? k = some r ↔
        (accusersOf s nodeId).get? k = some r := by
      intro k
      rw [Dict.get?_set]
      by_cases hk : accuser = k
      · subst hk; simp [hra, hown]
      · rw [if_neg hk]
    dsimp only
    by_cases hlt : (accusersOf s nodeId).size < maxAccusers
    · rw [if_pos hlt, forgetOldest_of_le (by omega), hget]
      simp
    · -- the table is full, and the oldest goes
      rw [if_neg hlt, hsize, forgetOldest, if_pos (by omega), Dict.entries_set_of_notMem hno,
        List.argmin_concat]
      cases hold : (accusersOf s nodeId).entries.argmin fun e => e.2.stamp with
      | none =>
        have hnil := List.argmin_eq_none.mp hold
        rw [Dict.size, hnil] at hlt
        exact absurd (show 0 < 64 by decide) hlt
      | some oldest =>
        have hpop := Dict.size_pop (Dict.mem_keys_set.mpr (Or.inr (argmin_mem hold)) :
          oldest.1 ∈ ((accusersOf s nodeId).set accuser a).keys)
        have hpop' := Dict.size_pop (Dict.mem_keys_set.mpr (Or.inl rfl) :
          accuser ∈ ((accusersOf s nodeId).set accuser a).keys)
        dsimp only
        by_cases hst : a.stamp < oldest.2.stamp
        · have hspared : (some oldest).filter (fun e : NodeID × Accusation R =>
              decide (e.2.stamp ≤ a.stamp)) = none := by
            rw [Option.filter_some, if_neg (by simpa using hst)]
          rw [if_pos hst, hspared]
          dsimp only
          rw [forgetOldest_of_le (by omega), Dict.get?_pop]
          by_cases hk : k = accuser
          · subst hk; simp [hown]
          · rw [if_neg hk, hget]; simp
        · have hgone : (some oldest).filter (fun e : NodeID × Accusation R =>
              decide (e.2.stamp ≤ a.stamp)) = some oldest := by
            rw [Option.filter_some, if_pos (by simpa using hst)]
          rw [if_neg hst, hgone]
          dsimp only
          rw [forgetOldest_of_le (by omega), Dict.get?_pop]
          by_cases hk : k = oldest.1
          · simp [hk]
          · rw [if_neg hk, hget]
            simp [Ne.symm hk]

theorem displaced_mem {stamp : R} {e : NodeID × Accusation R}
    (h : displaced s nodeId accuser stamp = some e) :
    (accusersOf s nodeId).get? e.1 = some e.2 := by
  unfold displaced at h
  by_cases hne : accuser = nodeId
  · rw [if_pos hne] at h; cases h
  · rw [if_neg hne] at h
    cases hown : (accusersOf s nodeId).get? accuser with
    | some own => rw [hown] at h; cases h; exact hown
    | none =>
      rw [hown] at h
      dsimp only at h
      split_ifs at h
      obtain ⟨hold, -⟩ := Option.filter_eq_some_iff.mp h
      exact Dict.get?_eq_some.mpr (List.argmin_mem hold)

/-! ### Who is silenced -/

theorem peak_without {l : Dict NodeID (Accusation R)} {family : Bytes} {now : R}
    {gone : Option (NodeID × Accusation R)}
    (hgone : ∀ e, gone = some e → (accusersOf s nodeId).get? e.1 = some e.2)
    (hl : ∀ k r, r.family = family → (l.get? k = some r ↔
      (accusersOf s nodeId).get? k = some r ∧ ∀ e, gone = some e → e.1 ≠ k)) :
    peak Accusation.family (s.heard now) family l.values =
        peak Accusation.family (s.heard now) family (accusersOf s nodeId).values ↔
      ∀ e, gone = some e → e.2.family = family → Covered s nodeId now e := by
  have hsub : ∀ a ∈ l.values, a.family = family → a ∈ (accusersOf s nodeId).values := by
    intro a ha hfam
    obtain ⟨k, hk⟩ := Dict.mem_values.mp ha
    exact Dict.mem_values.mpr ⟨k, ((hl k a hfam).mp hk).1⟩
  constructor
  · intro heq e he hfam
    by_contra hcov
    simp only [Covered, not_or, not_le, not_exists, not_and] at hcov
    obtain ⟨hpos, hother⟩ := hcov
    -- every record left says less
    have hlt : peak Accusation.family (s.heard now) family l.values < s.heard now e.2 := by
      refine peak_lt_iff.mpr ⟨hpos, fun a ha ha' => ?_⟩
      obtain ⟨k, hk⟩ := Dict.mem_values.mp ha
      obtain ⟨hk, hne⟩ := (hl k a ha').mp hk
      exact hother k a (hne e he).symm hk (ha'.trans hfam.symm)
    rw [heq] at hlt
    have := le_peak Accusation.family (s.heard now)
      (Dict.mem_values.mpr ⟨e.1, hgone e he⟩)
    rw [hfam] at this
    exact absurd (this.trans_lt hlt) (lt_irrefl _)
  · intro hcov
    refine le_antisymm (peak_mono hsub) (peak_le_iff.mpr ⟨peak_nonneg _ _, fun a ha hfam => ?_⟩)
    obtain ⟨k, hk⟩ := Dict.mem_values.mp ha
    by_cases hkept : ∀ e, gone = some e → e.1 ≠ k
    · have := le_peak Accusation.family (s.heard now)
        (Dict.mem_values.mpr ⟨k, (hl k a hfam).mpr ⟨hk, hkept⟩⟩)
      rwa [hfam] at this
    · -- the record that went is covered by one that stayed
      simp only [not_forall, not_not] at hkept
      obtain ⟨e, he, rfl⟩ := hkept
      obtain rfl : e.2 = a := Option.some.inj ((hgone e he).symm.trans hk)
      rcases hcov e he hfam with hzero | ⟨k, b, hne, hb, hbfam, hle⟩
      · exact hzero.trans (peak_nonneg _ _)
      · have hmem : b ∈ l.values := Dict.mem_values.mpr ⟨k, (hl k b (hbfam.trans hfam)).mpr
          ⟨hb, fun e' he' => by rw [he] at he'; cases he'; exact hne.symm⟩⟩
        have := le_peak Accusation.family (s.heard now) hmem
        rw [hbfam, hfam] at this
        exact hle.trans this

/-- An accusation that answers none leaves, of its node, what is written down; or the node is evicted, and
nothing was said of it before. -/
theorem accusersOf_noteAccusation (hs : Bounded s) (hne : accuser ≠ nodeId)
    (hpair : Silent s accuser nodeId) (weight : R) (reason : String) (family : Option Bytes)
    (now : Option R) (clock : R) :
    let s' := (s.noteAccusation nodeId accuser weight reason family now clock).2
    accusersOf s' nodeId = accusersOf (written s nodeId accuser weight family now clock) nodeId ∨
      accusersOf s' nodeId = Dict.empty ∧ accusersOf s nodeId = Dict.empty := by
  intro s'
  have hcounted : s' = ((written s nodeId accuser weight family now clock).put nodeId
      (((written s nodeId accuser weight family now clock).entry nodeId clock).report
        reason)).enforceBound clock := by
    rcases noteAccusation_cases s hne weight reason family now clock with
      ⟨-, he⟩ | ⟨-, hnot, -⟩
    · exact he
    · -- what is answered is silent, so nothing is cancelled
      refine absurd (fun a ha => hpair a ?_) hnot
      rw [written, record_file_of_ne s accuser _ clock hne] at ha
      exact ha
  rw [hcounted]
  by_cases hmem : nodeId ∈ s.standings.keys
  · left
    rw [enforceBound_of_le, accusersOf_report]
    have hk1 : (written s nodeId accuser weight family now clock).standings.keys = s.standings.keys :=
      Dict.keys_set_of_mem hmem _
    have hk2 := Dict.keys_set_of_mem (d := (written s nodeId accuser weight family now clock).standings)
      (by rw [hk1]; exact hmem)
      (((written s nodeId accuser weight family now clock).entry nodeId clock).report reason)
    change Dict.size (Dict.set _ _ _) ≤ s.maxTracked
    rw [Dict.size_eq, hk2, hk1, ← Dict.size_eq]
    exact hs.tracked
  · have hempty : accusersOf s nodeId = Dict.empty := by
      rw [accusersOf, Dict.get?_eq_none.mpr hmem]; rfl
    rcases accusersOf_enforceBound ((written s nodeId accuser weight family now clock).put nodeId
      (((written s nodeId accuser weight family now clock).entry nodeId clock).report reason)) clock
        nodeId with he | he
    · exact Or.inr ⟨he, hempty⟩
    · left
      rw [he, accusersOf_report]

/-- **When one family leaves the others alone.** After an accusation that answers none, what the families
other than its accuser's contribute to the node's score is what it was, exactly if the record displaced is
of the accuser's family, or its own family says as much without it. -/
theorem others_unchanged_iff (suspect hostile halflife : R) (maxTracked : ℤ)
    (acts : List (R × Op R)) (nodeId accuser : NodeID) (weight : R) (reason : String)
    (family : Option Bytes) (now : Option R) (clock t : R) :
    let s := run step (Reputation.new suspect hostile halflife maxTracked) acts
    let s' := (s.noteAccusation nodeId accuser weight reason family now clock).2
    Silent s accuser nodeId →
    ((∀ f, f ≠ voice family accuser → contribution s' nodeId f t = contribution s nodeId f t) ↔
      ∀ e, displaced s nodeId accuser (now.getD clock) = some e →
        e.2.family = voice family accuser ∨ Covered s nodeId t e) := by
  intro s s' hpair
  have hs : Bounded s := bounded_run suspect hostile halflife maxTracked acts
  by_cases hne : accuser = nodeId
  · have hself : s' = s := step_self hne
    rw [hself, displaced, if_pos hne]
    simp
  · have hlimits : limits s' = limits s :=
      limits_noteAccusation s nodeId accuser weight reason family now clock
    have hheard : s'.heard t = s.heard t := by
      funext a
      simp only [limits, Prod.mk.injEq] at hlimits
      unfold heard
      rw [hlimits.2.2.1]
    have hrecords : ∀ f, f ≠ voice family accuser → ∀ k r, r.family = f →
        ((accusersOf s' nodeId).get? k = some r ↔ (accusersOf s nodeId).get? k = some r ∧
          ∀ e, displaced s nodeId accuser (now.getD clock) = some e → e.1 ≠ k) := by
      intro f hf k r hr
      rcases accusersOf_noteAccusation hs hne hpair weight reason family now clock with
        he | ⟨he, hempty⟩
      · rw [he]
        exact get?_written (hs.accusers nodeId) hne (by rw [hr]; exact hf)
      · rw [he, hempty]
        simp
    have hfamily : ∀ f, f ≠ voice family accuser →
        (contribution s' nodeId f t = contribution s nodeId f t ↔
          ∀ e, displaced s nodeId accuser (now.getD clock) = some e → e.2.family = f →
            Covered s nodeId t e) := by
      intro f hf
      rw [contribution_eq, contribution_eq, hheard]
      exact peak_without (fun e he => displaced_mem he) (hrecords f hf)
    constructor
    · intro h e he
      by_cases hf : e.2.family = voice family accuser
      · exact Or.inl hf
      · exact Or.inr ((hfamily _ hf).mp (h _ hf) e he rfl)
    · intro h f hf
      refine (hfamily f hf).mpr fun e he hef => ?_
      exact (h e he).resolve_left (by rw [hef]; exact hf)

/-! ### A flood -/

/-- Node `1` of family `1` accuses node `0`, and then `n` nodes of family `2` do. -/
def flood (n : ℕ) : List (ℚ × Op ℚ) :=
  (0, .noteAccusation (plain.fromPublicKey [0]) (plain.fromPublicKey [1]) 4 "" (some [1]) none) ::
    (List.range n).map fun i : ℕ => (0, .noteAccusation (plain.fromPublicKey [0])
      (plain.fromPublicKey [2, UInt8.ofNat i]) 1 "" (some [2]) none)

theorem quiet_unchanged :
    let s := run step (Reputation.new (8 : ℚ) 20 900 4096) (flood 2)
    let s' := (s.noteAccusation (plain.fromPublicKey [0]) (plain.fromPublicKey [3]) 1 "" none none 0).2
    (∀ f, f ≠ voice none (plain.fromPublicKey [3]) → contribution s' (plain.fromPublicKey [0]) f 0 =
      contribution s (plain.fromPublicKey [0]) f 0) ↔
      ∀ e, displaced s (plain.fromPublicKey [0]) (plain.fromPublicKey [3]) ((none : Option ℚ).getD 0) =
        some e → e.2.family = voice none (plain.fromPublicKey [3]) ∨
          Covered s (plain.fromPublicKey [0]) 0 e :=
  others_unchanged_iff 8 20 900 4096 (flood 2) _ _ 1 "" none none 0 0
    (by decide +kernel : Silent _ (plain.fromPublicKey [3]) (plain.fromPublicKey [0]))

/-- Sixty-four of one family silence another. -/
theorem flood_silences :
    let s := run step (Reputation.new (8 : ℚ) 20 900 4096) (flood 63)
    let s' := (s.noteAccusation (plain.fromPublicKey [0]) (plain.fromPublicKey [2, 63]) 1 ""
      (some [2]) none 0).2
    Silent s (plain.fromPublicKey [2, 63]) (plain.fromPublicKey [0]) ∧
      contribution s (plain.fromPublicKey [0]) [1] 0 = 4 ∧
      contribution s' (plain.fromPublicKey [0]) [1] 0 = 0 := by
  decide +kernel

end NMesh.Opinion.Families
