import NMesh.Base.Runs
import NMesh.Opinion.Records

/-! # Accusations that answer each other

When a credited accusation answers one whose record still weighs something, both are discounted
(`silent_of_answer`), and what is discounted stays so until it is said again, with credit (`Silent.step`). A
repeated accusation, though, finds its answer discounted, and counts as if it had none (`repeated_counts`).
So two nodes cancel for good in every run in which an accusation that answers one finds it counting
(`mutual_cancels`). -/

namespace NMesh.Opinion.Mutual

open Base.BigEndian Base.Ordered Base.Peaks Base.Runs NMesh.Cert.Identity
open NMesh.Opinion.Table NMesh.Opinion.Table.Reputation NMesh.Opinion.Records

variable {R : Type} [Field R] [LinearOrder R] {s s' : Reputation R} {x y : NodeID}

/-! ### Credited accusations -/

def credits (s : Reputation R) (act : R × Op R) : Option (NodeID × NodeID) :=
  match act.2 with
  | .noteAccusation nodeId accuser weight _ _ now =>
    if accuser ≠ nodeId ∧ 0 < s.allowance accuser weight (now.getD act.1) then some (accuser, nodeId)
    else none
  | _ => none

theorem credits_noteAccusation {nodeId accuser : NodeID} {weight clock : R} {reason : String}
    {family : Option Bytes} {now : Option R} {p : NodeID × NodeID} :
    credits s (clock, .noteAccusation nodeId accuser weight reason family now) = some p ↔
      accuser ≠ nodeId ∧ 0 < s.allowance accuser weight (now.getD clock) ∧ (accuser, nodeId) = p := by
  unfold credits
  dsimp only
  split_ifs with h
  · simp [h]
  · simp only [false_iff, not_and]
    exact fun h1 h2 => absurd ⟨h1, h2⟩ h

variable {act : R × Op R}

theorem credits_ne {q : NodeID × NodeID} (h : credits s act = some q) : q.1 ≠ q.2 := by
  obtain ⟨clock, op⟩ := act
  cases op with
  | note nodeId weight reason now | forgive nodeId => cases h
  | noteAccusation nodeId accuser weight reason family now =>
    obtain ⟨hne, -, rfl⟩ := credits_noteAccusation.mp h
    exact hne

/-! ### What does not count -/

/-- Forget what `y` says of `x`. -/
def unsay (s : Reputation R) (x y : NodeID) : Reputation R :=
  match s.standings.get? x with
  | none => s
  | some entry => s.put x { entry with accusers := entry.accusers.pop y }

omit [Field R] [LinearOrder R] in
theorem fewer_unsay (s : Reputation R) (x y : NodeID) : Fewer s (unsay s x y) := by
  intro x' y'
  unfold unsay
  cases hget : s.standings.get? x with
  | none => exact Or.inr rfl
  | some entry =>
    dsimp only
    rw [record_put]
    split_ifs with hx
    · subst hx
      dsimp only
      rw [Dict.get?_pop]
      split_ifs
      · exact Or.inl rfl
      · right
        rw [record, hget]; rfl
    · exact Or.inr rfl

variable [Halving R]

theorem heard_nonpos (s : Reputation R) (now : R) {a : Accusation R} (ha : a.weight ≤ 0) :
    s.heard now a ≤ 0 := by
  unfold heard decay
  rw [if_pos (Or.inl ha)]
  exact max_le le_rfl ha

theorem score_unsay (h : Silent s x y) (n : NodeID) (now : R) :
    (unsay s x y).score n now = s.score n now := by
  unfold unsay
  cases hget : s.standings.get? x with
  | none => rfl
  | some entry =>
    dsimp only
    unfold score put
    dsimp only
    rw [Dict.get?_set]
    split_ifs with hn
    · subst hn
      rw [hget]
      dsimp only
      have hpeaks : peaks Accusation.family (s.heard now) (entry.accusers.pop y).values =
          peaks Accusation.family (s.heard now) entry.accusers.values := by
        unfold Dict.values peaks
        rw [List.foldl_map, List.foldl_map]
        refine peaks_filter (fun e : NodeID × Accusation R => e.2.family)
          (fun e => s.heard now e.2) fun e he hp => heard_nonpos s now (h e.2 ?_)
        have hey : e.1 = y := by simpa using hp
        rw [record, hget, ← hey]
        exact Dict.get?_eq_some.mpr he
      unfold rumour byFamily direct
      have hheard : ∀ st : Dict NodeID (Standing R),
          ({ s with standings := st } : Reputation R).heard now = s.heard now := fun _ => rfl
      simp only [hheard, hpeaks]
    · rfl

/-! ### What an accusation does to the pair -/

theorem silent_step (h : Silent s x y) (hc : credits s act ≠ some (y, x)) : Silent (s.step act) x y := by
  obtain ⟨clock, op⟩ := act
  cases op with
  | note nodeId weight reason now => exact h.fewer (fewer_note s nodeId weight reason now clock)
  | forgive nodeId => exact h.fewer (fewer_forgive s nodeId)
  | noteAccusation nodeId accuser weight reason family now =>
    by_cases hne : accuser = nodeId
    · rw [step_self hne]; exact h
    · have hwritten : Silent (written s nodeId accuser weight family now clock) x y := by
        intro a ha
        rcases record_file s nodeId accuser _ clock x y with hn | he
        · rw [written, hn] at ha; cases ha
        · rw [written, he] at ha
          split_ifs at ha with hxy
          · cases ha
            obtain ⟨rfl, rfl⟩ := hxy
            exact not_lt.mp fun hpos => hc (credits_noteAccusation.mpr ⟨hne, hpos, rfl⟩)
          · exact h a ha
      rcases noteAccusation_cases s hne weight reason family now clock with
        ⟨-, he⟩ | ⟨-, -, s2, h2, hf⟩
      · change Silent (s.noteAccusation nodeId accuser weight reason family now clock).2 x y
        rw [he]
        exact hwritten.fewer (fewer_report _ nodeId reason clock)
      · exact (h2.silent.2.2 x y hwritten).fewer (fewer_of_counted hf)

theorem silent_of_answer (hc : credits s act = some (x, y)) (h : ¬ Silent s x y) :
    Silent (s.step act) x y ∧ Silent (s.step act) y x := by
  obtain ⟨clock, op⟩ := act
  cases op with
  | note nodeId weight reason now | forgive nodeId => cases hc
  | noteAccusation nodeId accuser weight reason family now =>
    obtain ⟨hne, hpos, hp⟩ := credits_noteAccusation.mp hc
    cases hp
    rcases noteAccusation_cases s hne weight reason family now clock with
      ⟨hsilent, -⟩ | ⟨-, -, s2, h2, hf⟩
    · -- the accusation answered is not touched by writing the answer down
      refine absurd (fun a ha => hsilent hpos a ?_) h
      rw [written, record_file_of_ne s x _ clock hne]
      exact ha
    · exact ⟨h2.silent.2.1.fewer (fewer_of_counted hf), h2.silent.1.fewer (fewer_of_counted hf)⟩

/-! ### Runs -/

def tick (p : Reputation R × List (NodeID × NodeID)) (act : R × Op R) :
    Reputation R × List (NodeID × NodeID) :=
  (p.1.step act, (credits p.1 act).toList ++ p.2)

/-- A credited accusation between `a` and `b` that answers one finds it counting. -/
def Answers (a b : NodeID) (p : Reputation R × List (NodeID × NodeID)) (act : R × Op R) : Prop :=
  (credits p.1 act = some (a, b) → (b, a) ∈ p.2 → ¬ Silent p.1 a b) ∧
    (credits p.1 act = some (b, a) → (a, b) ∈ p.2 → ¬ Silent p.1 b a)

instance (a b : NodeID) (p : Reputation R × List (NodeID × NodeID)) (act : R × Op R) :
    Decidable (Answers a b p act) := by unfold Answers; infer_instance

/-- Once the two have accused each other, they are silent about each other. -/
structure Settled (a b : NodeID) (p : Reputation R × List (NodeID × NodeID)) : Prop where
  distinct : ∀ q ∈ p.2, q.1 ≠ q.2
  silent : (a, b) ∈ p.2 → (b, a) ∈ p.2 → Silent p.1 a b ∧ Silent p.1 b a

/-- **An accusation that finds its answer counting keeps the pair settled.** -/
theorem Settled.tick {a b : NodeID} {p : Reputation R × List (NodeID × NodeID)} (h : Settled a b p)
 (hg : Answers a b p act) : Settled a b (tick p act) := by
  cases hc : credits p.1 act with
  | none =>
    have ht : Mutual.tick p act = (p.1.step act, p.2) := by unfold Mutual.tick; rw [hc]; rfl
    rw [ht]
    refine ⟨h.distinct, fun hab hba => ?_⟩
    obtain ⟨h1, h2⟩ := h.silent hab hba
    exact ⟨silent_step h1 (by rw [hc]; simp), silent_step h2 (by rw [hc]; simp)⟩
  | some q =>
    have ht : Mutual.tick p act = (p.1.step act, q :: p.2) := by unfold Mutual.tick; rw [hc]; rfl
    have hq : q.1 ≠ q.2 := credits_ne hc
    rw [ht]
    refine ⟨List.forall_mem_cons.mpr ⟨hq, h.distinct⟩, fun hab hba => ?_⟩
    by_cases hqa : q = (a, b)
    · -- `a` answers `b`
      rw [hqa] at hc hq hba
      have hba := (List.mem_cons.mp hba).resolve_left fun he => hq (Prod.mk.inj he).1.symm
      exact silent_of_answer hc (hg.1 hc hba)
    · have hab := (List.mem_cons.mp hab).resolve_left (Ne.symm hqa)
      by_cases hqb : q = (b, a)
      · -- `b` answers `a`
        rw [hqb] at hc
        exact (silent_of_answer hc (hg.2 hc hab)).symm
      · have hba := (List.mem_cons.mp hba).resolve_left (Ne.symm hqb)
        obtain ⟨h1, h2⟩ := h.silent hab hba
        exact ⟨silent_step h1 (by rw [hc]; simpa using hqb),
          silent_step h2 (by rw [hc]; simpa using hqa)⟩

/-- **Mutual accusations cancel for good**, in every run in which a credited accusation between the two
that answers one finds it counting: once both have accused the other with credit, forgetting what they
say of each other changes no score at any time. -/
theorem mutual_cancels {a b : NodeID} (suspect hostile halflife : R) (maxTracked : ℤ)
    {acts : List (R × Op R)}
    (hg : Guarded tick (Answers a b) (Reputation.new suspect hostile halflife maxTracked, []) acts) :
    let p := run tick (Reputation.new suspect hostile halflife maxTracked, []) acts
    (a, b) ∈ p.2 → (b, a) ∈ p.2 →
      ∀ n now, (unsay (unsay p.1 a b) b a).score n now = p.1.score n now := by
  intro p hab hba n now
  have hsettled : Settled a b p :=
    hg.run_induct (P := Settled a b) (fun _ _ h ha => h.tick ha)
      ⟨fun q hq => (by cases hq), fun h => (by cases h)⟩
  obtain ⟨h1, h2⟩ := hsettled.silent hab hba
  rw [score_unsay (h2.fewer (fewer_unsay p.1 a b)), score_unsay h1]

/-! ### Saying it again -/

/-- `a` accuses `b` of something that weighs `1`. -/
def accuses (a b : UInt8) : ℚ × Op ℚ :=
  (0, .noteAccusation (plain.fromPublicKey [b]) (plain.fromPublicKey [a]) 1 "" none none)

theorem quarrel_cancels :
    let a := plain.fromPublicKey [1]
    let b := plain.fromPublicKey [2]
    let p := run tick (Reputation.new (8 : ℚ) 20 900 4096, []) [accuses 1 2, accuses 2 1]
    (a, b) ∈ p.2 → (b, a) ∈ p.2 →
      ∀ n now, (unsay (unsay p.1 a b) b a).score n now = p.1.score n now :=
  mutual_cancels 8 20 900 4096 (by decide)

/-- One of the two says it again, and it counts. -/
theorem repeated_counts :
    let a := plain.fromPublicKey [1]
    let b := plain.fromPublicKey [2]
    let p := run tick (Reputation.new (8 : ℚ) 20 900 4096, []) [accuses 1 2, accuses 2 1]
    let p' := run tick (Reputation.new (8 : ℚ) 20 900 4096, []) [accuses 1 2, accuses 2 1, accuses 1 2]
    (a, b) ∈ p.2 ∧ (b, a) ∈ p.2 ∧ p'.1.score b 0 = 1 ∧ (unsay p'.1 b a).score b 0 = 0 := by
  decide +kernel

end NMesh.Opinion.Mutual
