import NMesh.Opinion.Table

/-! # What an operation does to the records

A record is what one node says of another (`record`). An accusation writes one record, discounts two when
the accusation is answered, and forgets others (`noteAccusation_cases`); every other operation only
forgets (`Fewer`). -/

namespace NMesh.Opinion.Records

open Base.BigEndian Base.Ordered NMesh.Cert.Identity NMesh.Opinion.Table
open NMesh.Opinion.Table.Reputation

variable {R : Type} {s s' : Reputation R} {nodeId accuser x y : NodeID} {clock : R}

/-- What `y` says of `x`, if it is held. -/
def record (s : Reputation R) (x y : NodeID) : Option (Accusation R) :=
  (s.standings.get? x).bind fun entry => entry.accusers.get? y

/-- Every record of `s'` is a record of `s`. -/
def Fewer (s s' : Reputation R) : Prop := ∀ x y, record s' x y = none ∨ record s' x y = record s x y

theorem record_put (s : Reputation R) (nodeId : NodeID) (e : Standing R) (x y : NodeID) :
    record (s.put nodeId e) x y = if nodeId = x then e.accusers.get? y else record s x y := by
  unfold record put
  dsimp only
  rw [Dict.get?_set]
  split_ifs <;> rfl

theorem fewer_forgive (s : Reputation R) (nodeId : NodeID) : Fewer s (s.forgive nodeId).2 := by
  intro x y
  unfold record forgive
  dsimp only
  rw [Dict.get?_pop]
  split_ifs
  · exact Or.inl rfl
  · exact Or.inr rfl

section Order

variable [LinearOrder R]

theorem get?_forgetOldest (accuser : NodeID) : ∀ (n : ℕ) (accusers : Dict NodeID (Accusation R)),
    (forgetOldest n accusers).get? accuser = none ∨
      (forgetOldest n accusers).get? accuser = accusers.get? accuser
  | 0, _ => Or.inr rfl
  | n + 1, accusers => by
    unfold forgetOldest
    split_ifs
    · split
      · exact Or.inr rfl
      · next oldest _ =>
        rcases get?_forgetOldest accuser n (accusers.pop oldest.1) with h | h
        · exact Or.inl h
        · rw [h, Dict.get?_pop]
          split_ifs
          · exact Or.inl rfl
          · exact Or.inr rfl
    · exact Or.inr rfl

end Order

/-! ### Entries -/

variable [Field R]

theorem get?_entry (s : Reputation R) (nodeId accuser : NodeID) (clock : R) :
    (s.entry nodeId clock).accusers.get? accuser = record s nodeId accuser := by
  unfold entry record
  cases s.standings.get? nodeId <;> rfl

theorem record_report (s : Reputation R) (nodeId : NodeID) (reason : String) (clock : R)
    (x y : NodeID) :
    record (s.put nodeId ((s.entry nodeId clock).report reason)) x y = record s x y := by
  rw [record_put]
  split_ifs with h
  · subst h; exact get?_entry s nodeId y clock
  · rfl

/-! ### Discounting -/

theorem record_discount (h : s.discount nodeId accuser = some s') (x y : NodeID) :
    record s' x y = if x = nodeId ∧ y = accuser then
      (record s x y).map fun a => { a with weight := 0 } else record s x y := by
  unfold discount at h
  cases hget : s.standings.get? nodeId with
  | none => rw [hget] at h; cases h
  | some e =>
    rw [hget] at h
    obtain ⟨a, ha, rfl⟩ := Option.map_eq_some_iff.mp h
    rw [record_put]
    by_cases hx : nodeId = x
    · subst hx
      rw [if_pos rfl]
      dsimp only
      rw [Dict.get?_set]
      unfold record
      rw [hget, Option.bind_some]
      by_cases hy : accuser = y
      · subst hy; rw [if_pos rfl, if_pos ⟨rfl, rfl⟩, ha]; rfl
      · rw [if_neg hy, if_neg fun h => hy h.2.symm]
    · rw [if_neg hx, if_neg fun h => hx h.1.symm]

theorem discount_eq_none : s.discount nodeId accuser = none ↔ record s nodeId accuser = none := by
  unfold discount record
  cases s.standings.get? nodeId with
  | none | some e => simp

variable [LinearOrder R]

/-- Nothing `y` says of `x` weighs anything. -/
def Silent (s : Reputation R) (x y : NodeID) : Prop := ∀ a, record s x y = some a → a.weight ≤ 0

instance (s : Reputation R) (x y : NodeID) : Decidable (Silent s x y) :=
  inferInstanceAs (Decidable (∀ a ∈ record s x y, a.weight ≤ 0))

theorem Silent.fewer (h : Silent s x y) (hf : Fewer s s') : Silent s' x y := by
  intro a ha
  rcases hf x y with hn | he
  · rw [hn] at ha; cases ha
  · exact h a (by rw [← he]; exact ha)

theorem silent_discount (h : s.discount nodeId accuser = some s') : Silent s' nodeId accuser := by
  intro a ha
  rw [record_discount h, if_pos ⟨rfl, rfl⟩] at ha
  obtain ⟨b, -, rfl⟩ := Option.map_eq_some_iff.mp ha
  exact le_rfl

theorem Silent.discount (hs : Silent s x y) (h : s.discount nodeId accuser = some s') :
    Silent s' x y := by
  by_cases hxy : x = nodeId ∧ y = accuser
  · rw [hxy.1, hxy.2]; exact silent_discount h
  · intro a ha
    rw [record_discount h, if_neg hxy] at ha
    exact hs a ha

/-- Both directions are discounted, the first one being held; the second is not when it is not there. -/
def Cancelled (s : Reputation R) (subject accuser : NodeID) (s' : Reputation R) : Prop :=
  ∃ s1, s.discount accuser subject = some s1 ∧
    (s1.discount subject accuser).getD s1 = s'

theorem cancelIfMutual_cases (s : Reputation R) (subject accuser : NodeID) :
    s.cancelIfMutual subject accuser = (true, s) ∧ Silent s accuser subject ∨
      ¬ Silent s accuser subject ∧ Cancelled s subject accuser (s.cancelIfMutual subject accuser).2 ∧
        ((s.cancelIfMutual subject accuser).1 = false →
          record (s.cancelIfMutual subject accuser).2 subject accuser = none) := by
  unfold cancelIfMutual Silent Cancelled record
  cases hmirror : s.standings.get? accuser with
  | none => exact Or.inl ⟨rfl, fun a ha => by cases ha⟩
  | some mirror =>
    dsimp only
    rw [Option.bind_some]
    cases hheld : mirror.accusers.get? subject with
    | none => exact Or.inl ⟨rfl, fun a ha => by cases ha⟩
    | some held =>
      dsimp only
      split_ifs with hw
      · exact Or.inl ⟨rfl, fun a ha => by cases ha; exact hw⟩
      · set s1 := s.put accuser { mirror with
          accusers := mirror.accusers.set subject { held with weight := 0 } } with hs1
        have h1 : s.discount accuser subject = some s1 := by
          rw [discount, hmirror]
          dsimp only
          rw [hheld, Option.map_some]
        have hnot : ¬ ∀ a, some held = some a → a.weight ≤ 0 := fun h => hw (h held rfl)
        cases h2 : s1.discount subject accuser with
        | none => exact Or.inr ⟨hnot, ⟨s1, h1, by rw [h2]; rfl⟩, fun _ => discount_eq_none.mp h2⟩
        | some s2 => exact Or.inr ⟨hnot, ⟨s1, h1, by rw [h2]; rfl⟩, fun h => by cases h⟩

theorem Cancelled.silent (h : Cancelled s nodeId accuser s') :
    Silent s' nodeId accuser ∧ Silent s' accuser nodeId ∧
      ∀ x y, Silent s x y → Silent s' x y := by
  obtain ⟨s1, h1, rfl⟩ := h
  cases h2 : s1.discount nodeId accuser with
  | none =>
    refine ⟨fun a ha => ?_, silent_discount h1, fun x y hs => hs.discount h1⟩
    rw [Option.getD_none, discount_eq_none.mp h2] at ha
    cases ha
  | some s2 =>
    exact ⟨silent_discount h2, (silent_discount h1).discount h2,
      fun x y hs => (hs.discount h1).discount h2⟩

/-! ### Writing an accusation down -/

theorem record_file (s : Reputation R) (nodeId accuser : NodeID) (a : Accusation R) (clock : R)
    (x y : NodeID) : record (s.file nodeId accuser a clock) x y = none ∨
      record (s.file nodeId accuser a clock) x y =
        if x = nodeId ∧ y = accuser then some a else record s x y := by
  unfold file
  dsimp only
  rw [record_put]
  by_cases hx : nodeId = x
  · subst hx
    rw [if_pos rfl]
    dsimp only
    rcases get?_forgetOldest y ((s.entry nodeId clock).accusers.set accuser a).size
      ((s.entry nodeId clock).accusers.set accuser a) with h | h
    · exact Or.inl h
    · rw [h, Dict.get?_set, get?_entry]
      by_cases hy : accuser = y
      · rw [if_pos hy, if_pos ⟨rfl, hy.symm⟩]; exact Or.inr rfl
      · rw [if_neg hy, if_neg fun h => hy h.2.symm]; exact Or.inr rfl
  · rw [if_neg hx, if_neg fun h => hx h.1.symm]
    exact Or.inr rfl

theorem record_file_of_ne (s : Reputation R) {nodeId : NodeID} (accuser : NodeID)
    (a : Accusation R) (clock : R) {x : NodeID} (hx : x ≠ nodeId) (y : NodeID) :
    record (s.file nodeId accuser a clock) x y = record s x y := by
  unfold file
  rw [record_put, if_neg (Ne.symm hx)]

variable [Halving R]

theorem get?_enforceBound (s : Reputation R) (clock : R) (key : NodeID) :
    (s.enforceBound clock).standings.get? key = none ∨
      (s.enforceBound clock).standings.get? key = s.standings.get? key := by
  unfold enforceBound
  dsimp only
  rw [Dict.get?_foldl_pop]
  split_ifs
  · exact Or.inl rfl
  · exact Or.inr rfl

theorem fewer_enforceBound (s : Reputation R) (clock : R) : Fewer s (s.enforceBound clock) := by
  intro x y
  unfold record
  rcases get?_enforceBound s clock x with h | h <;> rw [h]
  · exact Or.inl rfl
  · exact Or.inr rfl

theorem fewer_note (s : Reputation R) (nodeId : NodeID) (weight : R) (reason : String)
    (now : Option R) (clock : R) : Fewer s (s.note nodeId weight reason now clock).2 := by
  intro x y
  have hput : record (s.put nodeId (Standing.report { s.entry nodeId clock with
      direct := s.direct (s.entry nodeId clock) (now.getD clock) + max 0 (min weight maxWeight)
      stamp := now.getD clock } reason)) x y = record s x y := by
    rw [record_put]
    split_ifs with h
    · subst h; exact get?_entry s nodeId y clock
    · rfl
  rw [← hput]
  exact fewer_enforceBound _ clock x y

theorem fewer_report (s : Reputation R) (nodeId : NodeID) (reason : String) (clock : R) :
    Fewer s ((s.put nodeId ((s.entry nodeId clock).report reason)).enforceBound clock) := by
  intro x y
  rw [← record_report s nodeId reason clock x y]
  exact fewer_enforceBound _ clock x y

/-! ### The accusation -/

theorem step_self (h : accuser = nodeId) {weight clock : R} {reason : String}
    {family : Option Bytes} {now : Option R} :
    s.step (clock, .noteAccusation nodeId accuser weight reason family now) = s := by
  change (s.noteAccusation nodeId accuser weight reason family now clock).2 = s
  unfold noteAccusation
  rw [if_pos h]

def written (s : Reputation R) (nodeId accuser : NodeID) (weight : R) (family : Option Bytes)
    (now : Option R) (clock : R) : Reputation R :=
  s.file nodeId accuser
    ⟨s.allowance accuser weight (now.getD clock), now.getD clock, voice family accuser⟩ clock

/-- **What an accusation does.** It is written down; if it is credited and answers one, both are
discounted; then it is counted, unless an exception is raised. -/
theorem noteAccusation_cases (s : Reputation R) (hne : accuser ≠ nodeId) (weight : R)
    (reason : String) (family : Option Bytes) (now : Option R) (clock : R) :
    let s1 := written s nodeId accuser weight family now clock
    let s' := (s.noteAccusation nodeId accuser weight reason family now clock).2
    (0 < s.allowance accuser weight (now.getD clock) → Silent s1 accuser nodeId) ∧
      s' = (s1.put nodeId ((s1.entry nodeId clock).report reason)).enforceBound clock ∨
    0 < s.allowance accuser weight (now.getD clock) ∧ ¬ Silent s1 accuser nodeId ∧
      ∃ s2, Cancelled s1 nodeId accuser s2 ∧
      (s' = (s2.put nodeId ((s2.entry nodeId clock).report reason)).enforceBound clock ∨
        s' = s2 ∧ record s2 nodeId accuser = none) := by
  intro s1 s'
  have hs' : s' = (s.noteAccusation nodeId accuser weight reason family now clock).2 := rfl
  unfold noteAccusation at hs'
  rw [if_neg hne] at hs'
  dsimp only at hs'
  rw [← written] at hs'
  by_cases ha : 0 < s.allowance accuser weight (now.getD clock)
  · rw [if_pos ha] at hs'
    rcases cancelIfMutual_cases s1 nodeId accuser with
      ⟨hc, hsilent⟩ | ⟨hnot, hc, hnone⟩
    · rw [hc] at hs'
      exact Or.inl ⟨fun _ => hsilent, hs'⟩
    · refine Or.inr ⟨ha, hnot, _, hc, ?_⟩
      split_ifs at hs' with hret
      · exact Or.inl hs'
      · exact Or.inr ⟨hs', hnone (Bool.eq_false_iff.mpr hret)⟩
  · rw [if_neg ha] at hs'
    exact Or.inl ⟨fun h => absurd h ha, hs'⟩

theorem fewer_of_counted {s2 : Reputation R} {reason : String}
    (h : s' = (s2.put nodeId ((s2.entry nodeId clock).report reason)).enforceBound clock ∨
      s' = s2 ∧ record s2 nodeId accuser = none) : Fewer s2 s' := by
  rcases h with rfl | ⟨rfl, -⟩
  · exact fewer_report s2 nodeId reason clock
  · exact fun x y => Or.inr rfl

end NMesh.Opinion.Records
