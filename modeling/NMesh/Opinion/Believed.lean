import NMesh.Opinion.Bounds
import NMesh.Opinion.Mutual

/-! # A witness that names a few

The table is run beside a book of what each node has said last of each other, at its full weight (`hear`).
What the table holds of a witness is what the book says (`believed`), in every run in which no pair with it is
mutual and each accusation it makes finds it to have named at most 15 nodes inside a half-life. The 16th it may
name as well; but to say anything again once it has named 16 is counted as one too many
(`sixteenth_repeated`). -/

namespace NMesh.Opinion.Believed

set_option linter.unusedSectionVars false

open Base.BigEndian Base.Ordered Base.Runs NMesh.Cert.Identity
open NMesh.Opinion.Table NMesh.Opinion.Table.Reputation NMesh.Opinion.Records NMesh.Opinion.Bounds
open NMesh.Opinion.Mutual (accuses)

variable {R : Type} [Field R] [LinearOrder R]

/-! ### What has been said -/

abbrev Book (R : Type) := Dict (NodeID × NodeID) (Accusation R)

def inFull (accuser : NodeID) (weight stamp : R) (family : Option Bytes) : Accusation R :=
  ⟨max 0 (min weight maxWeight), stamp, voice family accuser⟩

def tell (said : Book R) (act : R × Op R) : Book R :=
  match act.2 with
  | .note .. => said
  | .noteAccusation nodeId accuser weight _ family now =>
    if accuser = nodeId then said
    else said.set (nodeId, accuser) (inFull accuser weight (now.getD act.1) family)
  | .forgive nodeId => said.filterKeys fun q => q.1 ≠ nodeId

/-- How many distinct nodes an accuser has named inside a half-life. -/
def named (said : Book R) (accuser : NodeID) (now halflife : R) : ℕ :=
  said.entries.countP fun e => e.1.2 = accuser ∧ now - e.2.stamp ≤ halflife

variable [Halving R]

def hear (p : Reputation R × Book R) (act : R × Op R) : Reputation R × Book R :=
  (p.1.step act, tell p.2 act)

def blank (suspect hostile halflife : R) (maxTracked : ℤ) : Reputation R × Book R :=
  (Reputation.new suspect hostile halflife maxTracked, .empty)

/-- No accusation between `a` and another answers one. -/
def Unanswered (a : NodeID) (p : Reputation R × Book R) (act : R × Op R) : Prop :=
  match act.2 with
  | .noteAccusation nodeId accuser _ _ _ _ =>
    accuser = a ∨ nodeId = a → p.2.get? (accuser, nodeId) = none
  | _ => True

/-- After an accusation it has made, `a` has named at most `MAX_SUBJECTS` nodes inside a half-life. -/
def Within (a : NodeID) (p : Reputation R × Book R) (act : R × Op R) : Prop :=
  match act.2 with
  | .noteAccusation nodeId accuser _ _ _ now =>
    accuser = a → accuser ≠ nodeId → named (tell p.2 act) a (now.getD act.1) p.1.halflife ≤ maxSubjects
  | _ => True

/-- Before an accusation that weighs something, `a` has named fewer than `MAX_SUBJECTS`. -/
def Short (a : NodeID) (p : Reputation R × Book R) (act : R × Op R) : Prop :=
  match act.2 with
  | .noteAccusation nodeId accuser weight _ _ now =>
    accuser = a → accuser ≠ nodeId → 0 < weight →
      named p.2 a (now.getD act.1) p.1.halflife < maxSubjects
  | _ => True

/-- There is room for what is said: for the node, and for its accuser. -/
def Room (p : Reputation R × Book R) (act : R × Op R) : Prop :=
  match act.2 with
  | .note nodeId _ _ _ => nodeId ∈ p.1.standings.keys ∨ p.1.standings.size < p.1.maxTracked
  | .noteAccusation nodeId accuser _ _ _ _ =>
    accuser ≠ nodeId → (nodeId ∈ p.1.standings.keys ∨ p.1.standings.size < p.1.maxTracked) ∧
      (accuser ∈ (accusersOf p.1 nodeId).keys ∨ (accusersOf p.1 nodeId).size < maxAccusers)
  | .forgive _ => True

instance (a : NodeID) (p : Reputation R × Book R) (act : R × Op R) : Decidable (Unanswered a p act) := by
  unfold Unanswered; split <;> infer_instance

instance (a : NodeID) (p : Reputation R × Book R) (act : R × Op R) : Decidable (Within a p act) := by
  unfold Within; split <;> infer_instance

instance (a : NodeID) (p : Reputation R × Book R) (act : R × Op R) : Decidable (Short a p act) := by
  unfold Short; split <;> infer_instance

instance (p : Reputation R × Book R) (act : R × Op R) : Decidable (Room p act) := by
  unfold Room; split <;> infer_instance

section Faithful

variable {a nodeId accuser : NodeID} {s s' : Reputation R} {said : Book R} {p : Reputation R × Book R}

/-! ### Nothing but what was said -/

/-- The table holds nothing that was not said, and what `a` said as it said it. -/
structure Faithful (a : NodeID) (p : Reputation R × Book R) : Prop where
  told : ∀ x y b, record p.1 x y = some b → ∃ c, p.2.get? (x, y) = some c
  full : ∀ x b, record p.1 x a = some b → p.2.get? (x, a) = some b

theorem Faithful.fewer (h : Faithful a (s, said)) (hf : Fewer s s') : Faithful a (s', said) where
  told x y b hb := by
    rcases hf x y with hn | he
    · rw [hn] at hb; cases hb
    · exact h.told x y b (by rw [← he]; exact hb)
  full x b hb := by
    rcases hf x a with hn | he
    · rw [hn] at hb; cases hb
    · exact h.full x b (by rw [← he]; exact hb)

theorem Faithful.reach_le (h : Faithful a p) (now : R) :
    p.1.reach a now ≤ named p.2 a now p.1.halflife := by
  unfold reach named
  refine (Nat.min_le_right _ _).trans ?_
  rw [Dict.values, List.countP_map, List.countP_eq_length_filter, List.countP_eq_length_filter]
  set held := p.1.standings.entries.filter _ with hheld
  set book := p.2.entries.filter _ with hbook
  have hnodup : (held.map fun e => (e.1, a)).Nodup := by
    have hkeys : (held.map Prod.fst).Nodup :=
      (List.filter_sublist.map Prod.fst).nodup p.1.standings.nodup
    have := hkeys.map (f := fun x : NodeID => (x, a)) fun x y hxy => (Prod.mk.inj hxy).1
    rwa [List.map_map] at this
  have hsub : (held.map fun e => (e.1, a)) ⊆ book.map Prod.fst := by
    intro q hq
    obtain ⟨⟨x, entry⟩, hmem, rfl⟩ := List.mem_map.mp hq
    rw [hheld, List.mem_filter] at hmem
    obtain ⟨hmem, hany⟩ := hmem
    obtain ⟨b, hb, hwindow⟩ := (Option.any_eq_true _ _).mp hany
    have hrecord : record p.1 x a = some b := by
      rw [record, Dict.get?_eq_some.mpr hmem]
      exact hb
    refine List.mem_map.mpr ⟨((x, a), b), ?_, rfl⟩
    rw [hbook, List.mem_filter]
    refine ⟨Dict.get?_eq_some.mp (h.full x b hrecord), ?_⟩
    simpa using hwindow
  have := (hnodup.subperm hsub).length_le
  rwa [List.length_map, List.length_map] at this

theorem Faithful.allowance_eq (h : Faithful a p) {weight now : R}
    (hfew : 0 < weight → named p.2 a now p.1.halflife < maxSubjects) :
    p.1.allowance a weight now = max 0 (min weight maxWeight) := by
  unfold allowance
  by_cases hw : 0 < weight
  · have := h.reach_le now
    have := hfew hw
    rw [if_neg (by omega)]
  · have hmin : min weight maxWeight ≤ 0 := (min_le_left _ _).trans (not_lt.mp hw)
    rw [max_eq_left hmin, ite_self]

theorem record_forgive (s : Reputation R) (nodeId x y : NodeID) :
    record (s.forgive nodeId).2 x y = if nodeId = x then none else record s x y := by
  unfold record forgive
  dsimp only
  rw [Dict.get?_pop]
  by_cases hx : nodeId = x
  · rw [if_pos hx.symm, if_pos hx]
    rfl
  · rw [if_neg (Ne.symm hx), if_neg hx]

theorem get?_forgiven (said : Book R) (nodeId x y : NodeID) :
    (said.filterKeys fun q => q.1 ≠ nodeId).get? (x, y) =
      if nodeId = x then none else said.get? (x, y) := by
  rw [Dict.get?_filterKeys]
  by_cases hx : nodeId = x
  · rw [if_pos hx, if_neg (by simpa using hx.symm)]
  · rw [if_neg hx, if_pos (by simpa using Ne.symm hx)]

theorem get?_told (said : Book R) (c : Accusation R) (x y : NodeID) :
    (said.set (nodeId, accuser) c).get? (x, y) =
      if x = nodeId ∧ y = accuser then some c else said.get? (x, y) := by
  rw [Dict.get?_set]
  by_cases hxy : x = nodeId ∧ y = accuser
  · rw [if_pos hxy, if_pos (by rw [hxy.1, hxy.2])]
  · rw [if_neg hxy, if_neg fun h => hxy ⟨(Prod.mk.inj h).1.symm, (Prod.mk.inj h).2.symm⟩]

theorem Faithful.forgive (h : Faithful a p) (nodeId : NodeID) :
    Faithful a ((p.1.forgive nodeId).2, p.2.filterKeys fun q => q.1 ≠ nodeId) where
  told x y b hb := by
    dsimp only at hb ⊢
    rw [record_forgive] at hb
    rw [get?_forgiven]
    split_ifs at hb ⊢
    exact h.told x y b hb
  full x b hb := by
    dsimp only at hb ⊢
    rw [record_forgive] at hb
    rw [get?_forgiven]
    split_ifs at hb ⊢
    exact h.full x b hb

theorem Faithful.written (h : Faithful a p) {weight clock : R} {family : Option Bytes} {now : Option R}
    (hfew : accuser = a → 0 < weight → named p.2 a (now.getD clock) p.1.halflife < maxSubjects) :
    Faithful a (Records.written p.1 nodeId accuser weight family now clock,
      p.2.set (nodeId, accuser) (inFull accuser weight (now.getD clock) family)) where
  told x y b hb := by
    dsimp only at hb ⊢
    rw [get?_told]
    rcases record_file p.1 nodeId accuser _ clock x y with hn | he
    · rw [Records.written, hn] at hb; cases hb
    · rw [Records.written, he] at hb
      split_ifs at hb ⊢ with hxy
      · exact ⟨_, rfl⟩
      · exact h.told x y b hb
  full x b hb := by
    dsimp only at hb ⊢
    rw [get?_told]
    rcases record_file p.1 nodeId accuser _ clock x a with hn | he
    · rw [Records.written, hn] at hb; cases hb
    · rw [Records.written, he] at hb
      split_ifs at hb ⊢ with hxa
      · obtain ⟨rfl, rfl⟩ := hxa
        rw [← hb, inFull, h.allowance_eq (hfew rfl)]
      · exact h.full x b hb

theorem record_of_cancelled (h : Cancelled s nodeId accuser s') (x y : NodeID) :
    (∀ b, record s' x y = some b → ∃ c, record s x y = some c) ∧
      (y ≠ accuser → y ≠ nodeId → record s' x y = record s x y) := by
  obtain ⟨s1, h1, rfl⟩ := h
  have hback : ∀ {s s' : Reputation R} {n z : NodeID}, s.discount n z = some s' →
      ∀ b, record s' x y = some b → ∃ c, record s x y = some c := by
    intro s s' n z hd b hb
    rw [record_discount hd] at hb
    split_ifs at hb
    · obtain ⟨c, hc, -⟩ := Option.map_eq_some_iff.mp hb
      exact ⟨c, hc⟩
    · exact ⟨b, hb⟩
  have hsame : ∀ {s s' : Reputation R} {n z : NodeID}, s.discount n z = some s' → y ≠ z →
      record s' x y = record s x y := by
    intro s s' n z hd hyz
    rw [record_discount hd, if_neg fun h => hyz h.2]
  cases h2 : s1.discount nodeId accuser with
  | none => exact ⟨hback h1, fun _ hn => hsame h1 hn⟩
  | some s2 =>
    refine ⟨fun b hb => ?_, fun hy hn => (hsame h2 hy).trans (hsame h1 hn)⟩
    obtain ⟨c, hc⟩ := hback h2 b hb
    exact hback h1 c hc

/-- **Every operation keeps the table faithful**, if no pair with `a` is mutual and `a` names few. -/
theorem Faithful.hear (h : Faithful a p) {act : R × Op R} (hsilent : Unanswered a p act)
    (hfew : Short a p act) : Faithful a (hear p act) := by
  obtain ⟨clock, op⟩ := act
  cases op with
  | note nodeId weight reason now => exact h.fewer (fewer_note p.1 nodeId weight reason now clock)
  | forgive nodeId => exact h.forgive nodeId
  | noteAccusation nodeId accuser weight reason family now =>
    by_cases hne : accuser = nodeId
    · have hsame : Believed.hear p (clock, .noteAccusation nodeId accuser weight reason family now) = p := by
        rw [Believed.hear, step_self hne, tell]
        dsimp only
        rw [if_pos hne]
      rw [hsame]
      exact h
    have hwritten : Faithful a (Records.written p.1 nodeId accuser weight family now clock,
        p.2.set (nodeId, accuser) (inFull accuser weight (now.getD clock) family)) :=
      h.written fun ha => hfew ha hne
    have htell : Believed.hear p (clock, .noteAccusation nodeId accuser weight reason family now) =
        ((p.1.noteAccusation nodeId accuser weight reason family now clock).2,
          p.2.set (nodeId, accuser) (inFull accuser weight (now.getD clock) family)) := by
      rw [Believed.hear, tell]
      dsimp only
      rw [if_neg hne]
      rfl
    rw [htell]
    rcases noteAccusation_cases p.1 hne weight reason family now clock with
      ⟨-, he⟩ | ⟨-, hcounts, s2, h2, hf⟩
    · rw [he]
      exact hwritten.fewer (fewer_report _ nodeId reason clock)
    · -- what is answered was said before, so `a` is none of the two
      have hanswered : p.2.get? (accuser, nodeId) ≠ none := by
        intro hnone
        refine hcounts fun b hb => ?_
        rw [Records.written, record_file_of_ne p.1 accuser _ clock hne] at hb
        obtain ⟨c, hc⟩ := h.told accuser nodeId b hb
        rw [hnone] at hc
        cases hc
      have hout : ¬ (accuser = a ∨ nodeId = a) := fun ha => hanswered (hsilent ha)
      refine Faithful.fewer (s := s2) ⟨fun x y b hb => ?_, fun x b hb => ?_⟩ (fewer_of_counted hf)
      · obtain ⟨c, hc⟩ := (record_of_cancelled h2 x y).1 b hb
        exact hwritten.told x y c hc
      · rw [(record_of_cancelled h2 x a).2 (fun hx => hout (Or.inl hx.symm))
          fun hx => hout (Or.inr hx.symm)] at hb
        exact hwritten.full x b hb

/-! ### All that was said, where there is room -/

/-- The table holds all that `a` said. -/
def Held (a : NodeID) (p : Reputation R × Book R) : Prop :=
  ∀ x b, p.2.get? (x, a) = some b → ∃ c, record p.1 x a = some c

theorem size_put_le (h : s.standings.size ≤ s.maxTracked)
    (hroom : nodeId ∈ s.standings.keys ∨ s.standings.size < s.maxTracked) (e : Standing R) :
    (s.put nodeId e).standings.size ≤ s.maxTracked := by
  change (s.standings.set nodeId e).size ≤ s.maxTracked
  exact Dict.size_set_le h fun hmem => by have := hroom.resolve_left hmem; omega

theorem record_file_of_room (hb : Bounded s)
    (hroom : accuser ∈ (accusersOf s nodeId).keys ∨ (accusersOf s nodeId).size < maxAccusers)
    (b : Accusation R) (clock : R) (x y : NodeID) :
    record (s.file nodeId accuser b clock) x y =
      if x = nodeId ∧ y = accuser then some b else record s x y := by
  have hsize : ((accusersOf s nodeId).set accuser b).size ≤ maxAccusers :=
    Dict.size_set_le (hb.accusers nodeId) fun hmem => by have := hroom.resolve_left hmem; omega
  rw [← get?_accusersOf, accusersOf_file, forgetOldest_of_le hsize]
  by_cases hx : nodeId = x
  · subst hx
    rw [if_pos rfl, Dict.get?_set, get?_accusersOf]
    by_cases hy : accuser = y
    · rw [if_pos hy, if_pos ⟨rfl, hy.symm⟩]
    · rw [if_neg hy, if_neg fun h => hy h.2.symm]
  · rw [if_neg hx, if_neg fun h => hx h.1.symm, get?_accusersOf]

theorem record_counted (hsize : s.standings.size ≤ s.maxTracked) (hmem : nodeId ∈ s.standings.keys)
    (reason : String) (clock : R) (x y : NodeID) :
    record ((s.put nodeId ((s.entry nodeId clock).report reason)).enforceBound clock) x y = record s x y := by
  rw [enforceBound_of_le (size_put_le hsize (Or.inl hmem) _), record_report]

theorem maxTracked_cancelled (h : Cancelled s nodeId accuser s') : s'.maxTracked = s.maxTracked := by
  obtain ⟨s1, h1, rfl⟩ := h
  obtain ⟨_, _, _, _, rfl⟩ := discount_eq h1
  cases h2 : (s.put accuser _).discount nodeId accuser with
  | none => rfl
  | some s2 =>
    obtain ⟨_, _, _, _, rfl⟩ := discount_eq h2
    rfl

theorem held_noteAccusation (hb : Bounded s) (hne : accuser ≠ nodeId)
    (hnode : nodeId ∈ s.standings.keys ∨ s.standings.size < s.maxTracked)
    (haccuser : accuser ∈ (accusersOf s nodeId).keys ∨ (accusersOf s nodeId).size < maxAccusers)
    (weight : R) (reason : String) (family : Option Bytes) (now : Option R) (clock : R) (x y : NodeID)
    (h : x = nodeId ∧ y = accuser ∨ ∃ b, record s x y = some b) :
    ∃ b, record (s.noteAccusation nodeId accuser weight reason family now clock).2 x y = some b := by
  set s1 := written s nodeId accuser weight family now clock with hs1
  have hsize : s1.standings.size ≤ s1.maxTracked := size_put_le hb.tracked hnode _
  have hkey : nodeId ∈ s1.standings.keys := Dict.mem_keys_set.mpr (Or.inl rfl)
  have hwritten : ∀ x y, x = nodeId ∧ y = accuser ∨ (∃ b, record s x y = some b) →
      ∃ b, record s1 x y = some b := by
    intro x y h
    rw [hs1, written, record_file_of_room hb haccuser]
    split_ifs with hxy
    · exact ⟨_, rfl⟩
    · exact h.resolve_left hxy
  have hstays : ∀ {s2 : Reputation R}, Cancelled s1 nodeId accuser s2 →
      ∀ {x y}, (∃ b, record s1 x y = some b) → ∃ b, record s2 x y = some b := by
    intro s2 h2 x y hsome
    cases hrec : record s2 x y with
    | some b => exact ⟨b, rfl⟩
    | none =>
      obtain ⟨b, hb⟩ := hsome
      rw [record_cancelled h2 hrec] at hb
      cases hb
  rcases noteAccusation_cases s hne weight reason family now clock with
    ⟨-, he⟩ | ⟨-, -, s2, h2, he | ⟨he, hnone⟩⟩
  · rw [he, record_counted hsize hkey]
    exact hwritten x y h
  · obtain ⟨hkeys, -⟩ := size_cancelled h2
    have hmax : s2.maxTracked = s1.maxTracked := maxTracked_cancelled h2
    have hsize2 : s2.standings.size ≤ s2.maxTracked := by
      rw [hmax, Dict.size_eq, hkeys, ← Dict.size_eq]
      exact hsize
    rw [he, record_counted hsize2 (by rw [hkeys]; exact hkey)]
    exact hstays h2 (hwritten x y h)
  · -- no exception is raised: the accusation is there
    obtain ⟨b, hb⟩ := hstays h2 (hwritten nodeId accuser (Or.inl ⟨rfl, rfl⟩))
    rw [hnone] at hb
    cases hb

theorem Held.hear (h : Held a p) (hb : Bounded p.1) {act : R × Op R} (hroom : Room p act) :
    Held a (hear p act) := by
  obtain ⟨clock, op⟩ := act
  cases op with
  | note nodeId weight reason now =>
    intro x b hx
    obtain ⟨c, hc⟩ := h x b hx
    refine ⟨c, ?_⟩
    change record (Reputation.enforceBound (p.1.put nodeId _) clock) x a = some c
    rw [enforceBound_of_le (size_put_le hb.tracked hroom _), record_put]
    split_ifs with hn
    · subst hn
      rw [← hc]
      exact get?_entry p.1 nodeId a clock
    · exact hc
  | forgive nodeId =>
    intro x b hx
    change Dict.get? (p.2.filterKeys fun q => q.1 ≠ nodeId) (x, a) = some b at hx
    change ∃ c, record (p.1.forgive nodeId).2 x a = some c
    rw [get?_forgiven] at hx
    rw [record_forgive]
    split_ifs at hx ⊢
    exact h x b hx
  | noteAccusation nodeId accuser weight reason family now =>
    by_cases hne : accuser = nodeId
    · intro x b hx
      rw [Believed.hear, tell] at hx
      dsimp only at hx
      rw [if_pos hne] at hx
      rw [Believed.hear, step_self hne]
      exact h x b hx
    · obtain ⟨hnode, haccuser⟩ := hroom hne
      intro x b hx
      rw [Believed.hear, tell] at hx
      dsimp only at hx
      rw [if_neg hne, get?_told] at hx
      refine held_noteAccusation hb hne hnode haccuser weight reason family now clock x a ?_
      by_cases hxa : x = nodeId ∧ a = accuser
      · exact Or.inl hxa
      · rw [if_neg hxa] at hx
        exact Or.inr (h x b hx)

end Faithful

/-- **A witness is believed in full**, in every run in which no pair with it is mutual and each accusation
that weighs something finds that it has named fewer than `MAX_SUBJECTS` nodes inside a half-life: what the
table holds of it is what it said last, in full, and where there is room for all that is said, all of it is
held. -/
theorem believed (a : NodeID) (suspect hostile halflife : R) (maxTracked : ℤ) {acts : List (R × Op R)}
    (hg : Guarded hear (fun p act => Unanswered a p act ∧ Short a p act)
      (blank suspect hostile halflife maxTracked) acts) :
    let p := run hear (blank suspect hostile halflife maxTracked) acts
    (∀ x b, record p.1 x a = some b → p.2.get? (x, a) = some b) ∧
      (Guarded hear Room (blank suspect hostile halflife maxTracked) acts →
        ∀ x b, p.2.get? (x, a) = some b → record p.1 x a = some b) := by
  intro p
  have hfaithful : Faithful a p :=
    hg.run_induct (P := Faithful a) (fun _ _ h hg => h.hear hg.1 hg.2)
      ⟨fun _ _ _ h => (by cases h), fun _ _ h => (by cases h)⟩
  refine ⟨hfaithful.full, fun hroom x b hb => ?_⟩
  have hheld : Bounded p.1 ∧ Held a p :=
    hroom.run_induct (P := fun p => Bounded p.1 ∧ Held a p)
      (fun _ act h hg => ⟨h.1.step act, h.2.hear h.1 hg⟩)
      ⟨⟨Nat.zero_le _, fun _ => Nat.zero_le _⟩, fun _ _ h => by cases h⟩
  obtain ⟨c, hc⟩ := hheld.2 x b hb
  have := hfaithful.full x c hc
  rw [hb] at this
  rw [hc, this]

/-- A node that names `1`, …, `16`, each once. -/
def sixteen : List (ℚ × Op ℚ) :=
  [accuses 0 1, accuses 0 2, accuses 0 3, accuses 0 4, accuses 0 5, accuses 0 6, accuses 0 7, accuses 0 8,
    accuses 0 9, accuses 0 10, accuses 0 11, accuses 0 12, accuses 0 13, accuses 0 14, accuses 0 15,
    accuses 0 16]

theorem believed_sixteen :
    let p := run hear (blank (8 : ℚ) 20 900 4096) sixteen
    (∀ x b, record p.1 x (plain.fromPublicKey [0]) = some b →
        p.2.get? (x, plain.fromPublicKey [0]) = some b) ∧
      (Guarded hear Room (blank (8 : ℚ) 20 900 4096) sixteen →
        ∀ x b, p.2.get? (x, plain.fromPublicKey [0]) = some b →
          record p.1 x (plain.fromPublicKey [0]) = some b) :=
  believed (plain.fromPublicKey [0]) 8 20 900 4096 (by decide +kernel)

/-- **Said again, the first is recorded at nothing.** Only sixteen are named, nobody answers, and there is
room for all of it. -/
theorem sixteenth_repeated :
    let a := plain.fromPublicKey [0]
    let start := blank (8 : ℚ) 20 900 4096
    let acts := sixteen ++ [accuses 0 1]
    let p := run hear start acts
    Guarded hear (Unanswered a) start acts ∧ Guarded hear (Within a) start acts ∧
      Guarded hear Room start acts ∧
      p.2.get? (plain.fromPublicKey [1], a) = some ⟨1, 0, a.raw⟩ ∧
      record p.1 (plain.fromPublicKey [1]) a = some ⟨0, 0, a.raw⟩ := by
  decide +kernel

end NMesh.Opinion.Believed
