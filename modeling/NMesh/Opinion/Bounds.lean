import NMesh.Base.Weights
import NMesh.Opinion.Score

/-! # The table stays bounded

No more than `maxTracked` nodes are held, and no more than 64 accusers of each, after every operation
(`bounded_run`). So an operation on a node that is held evicts no node (`enforceBound_of_le`), and an
accusation forgets at most one other. -/

namespace NMesh.Opinion.Bounds

set_option linter.unusedSectionVars false

open Base.BigEndian Base.Ordered Base.Runs Base.Weights NMesh.Cert.Identity
open NMesh.Opinion.Table NMesh.Opinion.Table.Reputation NMesh.Opinion.Records NMesh.Opinion.Score

variable {R : Type} [Field R] [LinearOrder R] [Halving R] {s s' : Reputation R}
  {nodeId accuser x : NodeID}

def accusersOf (s : Reputation R) (x : NodeID) : Dict NodeID (Accusation R) :=
  ((s.standings.get? x).map Standing.accusers).getD Dict.empty

/-- **The table is bounded.** -/
structure Bounded (s : Reputation R) : Prop where
  tracked : s.standings.size ≤ s.maxTracked
  accusers : ∀ x, (accusersOf s x).size ≤ maxAccusers

/-! ### Nodes -/

theorem size_enforceBound (s : Reputation R) (clock : R) :
    (s.enforceBound clock).standings.size ≤ s.maxTracked := by
  unfold enforceBound
  dsimp only
  set ranked := s.standings.keys.insertionSort fun a b => s.score a clock ≤ s.score b clock
  have hperm : ranked.Perm s.standings.keys := List.perm_insertionSort _ _
  have hsize := Dict.size_foldl_pop (d := s.standings)
    ((List.take_sublist (s.standings.size - s.maxTracked) ranked).nodup
      (hperm.nodup_iff.mpr s.standings.nodup_keys))
    fun k hk => hperm.subset ((List.take_sublist _ _).subset hk)
  rw [List.length_take, hperm.length_eq, ← Dict.size_eq] at hsize
  omega

theorem enforceBound_of_le (h : s.standings.size ≤ s.maxTracked) (clock : R) :
    s.enforceBound clock = s := by
  unfold enforceBound
  rw [Nat.sub_eq_zero_of_le h]
  rfl

theorem accusersOf_enforceBound (s : Reputation R) (clock : R) (x : NodeID) :
    accusersOf (s.enforceBound clock) x = Dict.empty ∨
      accusersOf (s.enforceBound clock) x = accusersOf s x := by
  unfold accusersOf
  rcases get?_enforceBound s clock x with h | h <;> rw [h]
  · exact Or.inl rfl
  · exact Or.inr rfl

theorem bounded_enforceBound (h : ∀ x, (accusersOf s x).size ≤ maxAccusers) (clock : R) :
    Bounded (s.enforceBound clock) where
  tracked := size_enforceBound s clock
  accusers x := by
    rcases accusersOf_enforceBound s clock x with he | he <;> rw [he]
    · exact Nat.zero_le _
    · exact h x

/-! ### Accusers -/

theorem accusersOf_put (s : Reputation R) (n : NodeID) (e : Standing R) (x : NodeID) :
    accusersOf (s.put n e) x = if n = x then e.accusers else accusersOf s x := by
  unfold accusersOf put
  dsimp only
  rw [Dict.get?_set]
  split_ifs <;> rfl

theorem accusers_entry (s : Reputation R) (n : NodeID) (clock : R) :
    (s.entry n clock).accusers = accusersOf s n := by
  unfold entry accusersOf
  cases s.standings.get? n <;> rfl

theorem get?_accusersOf (s : Reputation R) (x y : NodeID) : (accusersOf s x).get? y = record s x y := by
  unfold accusersOf record
  cases s.standings.get? x <;> rfl

theorem accusersOf_report (s : Reputation R) (n : NodeID) (reason : String) (clock : R) (x : NodeID) :
    accusersOf (s.put n ((s.entry n clock).report reason)) x = accusersOf s x := by
  rw [accusersOf_put]
  split_ifs with h
  · subst h; exact accusers_entry s n clock
  · rfl

theorem bounded_report (h : ∀ x, (accusersOf s x).size ≤ maxAccusers) (n : NodeID) (reason : String)
    (clock : R) : Bounded ((s.put n ((s.entry n clock).report reason)).enforceBound clock) :=
  bounded_enforceBound (fun x => by rw [accusersOf_report]; exact h x) clock

theorem forgetOldest_of_le {accusers : Dict NodeID (Accusation R)}
    (h : accusers.size ≤ maxAccusers) (n : ℕ) : forgetOldest n accusers = accusers := by
  cases n with
  | zero => rfl
  | succ n => rw [forgetOldest, if_neg (Nat.not_lt.mpr h)]

theorem argmin_mem {accusers : Dict NodeID (Accusation R)} {oldest : NodeID × Accusation R}
    (h : accusers.entries.argmin (fun e => e.2.stamp) = some oldest) : oldest.1 ∈ accusers.keys :=
  List.mem_map_of_mem (List.argmin_mem h)

theorem size_forgetOldest : ∀ {n : ℕ} {accusers : Dict NodeID (Accusation R)},
    accusers.size ≤ maxAccusers + n → (forgetOldest n accusers).size ≤ maxAccusers
  | 0, _, h => h
  | n + 1, accusers, h => by
    unfold forgetOldest
    split_ifs with hlt
    · cases hold : accusers.entries.argmin fun e => e.2.stamp with
      | none =>
        have hnil := List.argmin_eq_none.mp hold
        rw [Dict.size, hnil] at hlt
        exact absurd hlt (Nat.not_lt_zero _)
      | some oldest =>
        have := Dict.size_pop (argmin_mem hold)
        exact size_forgetOldest (by omega)
    · exact Nat.le_of_not_lt hlt

theorem accusersOf_file (s : Reputation R) (n y : NodeID) (a : Accusation R) (clock : R) (x : NodeID) :
    accusersOf (s.file n y a clock) x = if n = x then
      forgetOldest ((accusersOf s n).set y a).size ((accusersOf s n).set y a) else accusersOf s x := by
  unfold file
  dsimp only
  rw [accusersOf_put, accusers_entry]

theorem size_accusersOf_file (h : ∀ x, (accusersOf s x).size ≤ maxAccusers) (n y : NodeID)
    (a : Accusation R) (clock : R) (x : NodeID) :
    (accusersOf (s.file n y a clock) x).size ≤ maxAccusers := by
  rw [accusersOf_file]
  split_ifs
  · exact size_forgetOldest (by omega)
  · exact h x

theorem discount_eq (h : s.discount nodeId accuser = some s') : ∃ entry a,
    s.standings.get? nodeId = some entry ∧ entry.accusers.get? accuser = some a ∧
      s' = s.put nodeId { entry with
        accusers := entry.accusers.set accuser { a with weight := 0 } } := by
  unfold discount at h
  cases hget : s.standings.get? nodeId with
  | none => rw [hget] at h; cases h
  | some e =>
    rw [hget] at h
    obtain ⟨a, ha, rfl⟩ := Option.map_eq_some_iff.mp h
    exact ⟨e, a, rfl, ha, rfl⟩

theorem size_discount (h : s.discount nodeId accuser = some s') :
    s'.standings.keys = s.standings.keys ∧ ∀ x, (accusersOf s' x).size = (accusersOf s x).size := by
  obtain ⟨entry, a, hget, ha, rfl⟩ := discount_eq h
  refine ⟨Dict.keys_set_of_mem (Dict.mem_keys_of_get? hget) _, fun x => ?_⟩
  rw [accusersOf_put]
  split_ifs with hx
  · subst hx
    dsimp only
    rw [Dict.size_set_of_mem (Dict.mem_keys_of_get? ha), accusersOf, hget]
    rfl
  · rfl

theorem size_cancelled (h : Cancelled s nodeId accuser s') :
    s'.standings.keys = s.standings.keys ∧ ∀ x, (accusersOf s' x).size = (accusersOf s x).size := by
  obtain ⟨s1, h1, rfl⟩ := h
  obtain ⟨hk1, ha1⟩ := size_discount h1
  cases h2 : s1.discount nodeId accuser with
  | none => exact ⟨hk1, ha1⟩
  | some s2 =>
    obtain ⟨hk2, ha2⟩ := size_discount h2
    exact ⟨hk2.trans hk1, fun x => (ha2 x).trans (ha1 x)⟩

theorem record_cancelled (h : Cancelled s nodeId accuser s') {x y : NodeID}
    (hn : record s' x y = none) : record s x y = none := by
  obtain ⟨s1, h1, rfl⟩ := h
  have hback : ∀ {s s' : Reputation R} {n a : NodeID}, s.discount n a = some s' →
      record s' x y = none → record s x y = none := by
    intro s s' n a hd hr
    rw [record_discount hd] at hr
    split_ifs at hr
    · exact Option.map_eq_none_iff.mp hr
    · exact hr
  cases h2 : s1.discount nodeId accuser with
  | none => rw [h2] at hn; exact hback h1 hn
  | some s2 => rw [h2] at hn; exact hback h1 (hback h2 hn)

/-! ### Runs -/

theorem mem_keys_of_forgotten {a : Accusation R} {clock : R}
    (h : record (s.file nodeId accuser a clock) nodeId accuser = none) :
    nodeId ∈ s.standings.keys := by
  by_contra hno
  have hempty : accusersOf s nodeId = Dict.empty := by
    rw [accusersOf, Dict.get?_eq_none.mpr hno]; rfl
  have hone : ((Dict.empty : Dict NodeID (Accusation R)).set accuser a).size ≤ maxAccusers :=
    show 1 ≤ 64 by decide
  rw [← get?_accusersOf, accusersOf_file, if_pos rfl, hempty, forgetOldest_of_le hone,
    Dict.get?_set_self] at h
  cases h

theorem bounded_noteAccusation (h : Bounded s) (hne : accuser ≠ nodeId) (weight : R)
    (reason : String) (family : Option Bytes) (now : Option R) (clock : R) :
    Bounded (s.noteAccusation nodeId accuser weight reason family now clock).2 := by
  have hfile : ∀ x, (accusersOf (written s nodeId accuser weight family now clock) x).size ≤
      maxAccusers := size_accusersOf_file h.accusers nodeId accuser _ clock
  rcases noteAccusation_cases s hne weight reason family now clock with
    ⟨-, he⟩ | ⟨-, -, s2, h2, he | ⟨he, hnone⟩⟩
  · rw [he]; exact bounded_report hfile nodeId reason clock
  · rw [he]
    exact bounded_report (fun x => by rw [(size_cancelled h2).2]; exact hfile x) nodeId reason clock
  · -- an exception was raised before the bound was enforced
    have hmem := mem_keys_of_forgotten (record_cancelled h2 hnone)
    have hlimits := limits_noteAccusation s nodeId accuser weight reason family now clock
    rw [he] at hlimits ⊢
    simp only [limits, Prod.mk.injEq] at hlimits
    refine ⟨?_, fun x => by rw [(size_cancelled h2).2]; exact hfile x⟩
    rw [hlimits.2.2.2.1, Dict.size_eq, (size_cancelled h2).1]
    have hkeys : (written s nodeId accuser weight family now clock).standings.keys =
        s.standings.keys := Dict.keys_set_of_mem hmem _
    rw [hkeys, ← Dict.size_eq]
    exact h.tracked

theorem Bounded.step (h : Bounded s) (act : R × Op R) : Bounded (s.step act) := by
  obtain ⟨clock, op⟩ := act
  cases op with
  | note nodeId weight reason now =>
    refine bounded_enforceBound (fun x => ?_) clock
    rw [accusersOf_put]
    split_ifs
    · change (s.entry nodeId clock).accusers.size ≤ maxAccusers
      rw [accusers_entry]
      exact h.accusers nodeId
    · exact h.accusers x
  | noteAccusation nodeId accuser weight reason family now =>
    by_cases hne : accuser = nodeId
    · rw [step_self hne]; exact h
    · exact bounded_noteAccusation h hne weight reason family now clock
  | forgive nodeId =>
    have hfewer : ∀ x, accusersOf (s.forgive nodeId).2 x = Dict.empty ∨
        accusersOf (s.forgive nodeId).2 x = accusersOf s x := by
      intro x
      unfold accusersOf forgive
      dsimp only
      rw [Dict.get?_pop]
      split_ifs
      · exact Or.inl rfl
      · exact Or.inr rfl
    refine ⟨?_, fun x => ?_⟩
    · change (s.standings.pop nodeId).size ≤ s.maxTracked
      exact (List.length_filter_le _ _).trans h.tracked
    · change (accusersOf (s.forgive nodeId).2 x).size ≤ maxAccusers
      rcases hfewer x with he | he <;> rw [he]
      · exact Nat.zero_le _
      · exact h.accusers x

theorem bounded_run (suspect hostile halflife : R) (maxTracked : ℤ) (acts : List (R × Op R)) :
    Bounded (run step (Reputation.new suspect hostile halflife maxTracked) acts) := by
  refine run_induct (fun s act h => h.step act) acts ⟨Nat.zero_le _, fun x => Nat.zero_le _⟩

/-- **No flood of accusations fills the memory**: whoever accuses whom, and whenever, the records held are at most 64
for each of the nodes that the node was told to track. -/
theorem records_bounded (suspect hostile halflife : R) (maxTracked : ℤ) (acts : List (R × Op R)) :
    let s := run step (Reputation.new suspect hostile halflife maxTracked) acts
    weight (fun entry => entry.accusers.size) s.standings ≤ (max 1 maxTracked).toNat * maxAccusers := by
  intro s
  have hs : Bounded s := bounded_run suspect hostile halflife maxTracked acts
  have hlimits : limits s = limits (Reputation.new suspect hostile halflife maxTracked) :=
    run_induct (P := fun s => limits s = limits (Reputation.new suspect hostile halflife maxTracked))
      (fun s act h => (limits_step s act).trans h) acts rfl
  have htracked : s.maxTracked = (max 1 maxTracked).toNat := congrArg (fun l => l.2.2.2.1) hlimits
  have hfew : ∀ e ∈ s.standings.entries, e.2.accusers.size ≤ maxAccusers := by
    intro e he
    have hle := hs.accusers e.1
    rw [accusersOf, Dict.get?_eq_some.mpr he] at hle
    exact hle
  exact (weight_le _ hfew).trans (Nat.mul_le_mul_right _ (htracked ▸ hs.tracked))

end NMesh.Opinion.Bounds
