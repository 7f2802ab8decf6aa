import NMesh.Cert.Upkeep

/-! # The memo of chains

An entry of the memo was built from the certificates held at some moment, and is used until the first of
its certificates dies. What is true of every chain when it is built stays true of the entries of the memo
if it survives what leaves the memo standing: reordering the subjects, the clock, and, for our own chain
only, eviction (`Rule`). So it is true of every answer (`Entries.answer`) in every reachable store
(`memo_reachable`). -/

namespace NMesh.Cert.Memo

open Base.Ordered Base.Search NMesh.Cert.Identity NMesh.Cert.Store
open NMesh.Cert.Store.CertStore NMesh.Cert.Walk NMesh.Cert.Upkeep

variable {K : Crypto} {P : Certificate K → Prop} {s s' : CertStore K} {T T' clock : ℕ}

/-- The stores have the same certificates, roots and revocations. -/
structure SameGraph (s s' : CertStore K) : Prop where
  held : ∀ key, s'.held key = s.held key
  roots : s'.roots = s.roots
  revoked : s'.revoked = s.revoked
  ownId : s'.ownId = s.ownId
  bound : s'.maxPerSubject = s.maxPerSubject

theorem SameGraph.shrinks (h : SameGraph s s') : Shrinks s s' :=
  ⟨fun key => by rw [h.held], h.roots, h.revoked, h.ownId, h.bound⟩

theorem sameGraph_touch (s : CertStore K) (key : NodeID) : SameGraph s (s.touch key) :=
  ⟨held_touch s key, (touch_fields s key).1, (touch_fields s key).2.1, (touch_fields s key).2.2.1,
    (touch_fields s key).2.2.2.2⟩

theorem sameGraph_lookup (s : CertStore K) (target : NodeID) (now : Option ℕ) (clock : ℕ) :
    SameGraph s (s.getChainToRoot target now clock).2 := by
  rw [getChainToRoot_frame]
  exact ⟨fun _ => rfl, rfl, rfl, rfl, rfl⟩

/-- What is said of a target's chain, at a time and over a store. -/
abbrev Said (K : Crypto) : Type :=
  ℕ → CertStore K → NodeID → Option (List (Certificate K)) → Prop

/-- What is said of a chain holds when the chain is built, and while it may stand in the memo. -/
structure Rule (P : Certificate K → Prop) (R : Said K) : Prop where
  built : ∀ {s}, Sane P s → ∀ target clock, R clock s target (s.buildChainToRoot target clock)
  later : ∀ {T T' s target chain}, T ≤ T' → R T s target chain → R T' s target chain
  same : ∀ {T s s' target chain}, SameGraph s s' → R T s target chain → R T s' target chain
  own : ∀ {T s s' chain}, Shrinks s s' → R T s s.ownId chain → R T s' s.ownId chain

/-- The memo's entries carry the end of their chains, and `R` holds of them. -/
def Entries (R : Said K) (T : ℕ) (s : CertStore K) : Prop :=
  ∀ target chain goodUntil, s.chains.get? target = some (chain, goodUntil) →
    goodUntil = earliestExpiry chain ∧ R T s target chain

def OwnOnly (s : CertStore K) : Prop := ∀ target ∈ s.chains.keys, target = s.ownId

variable {R : Said K}

theorem memo_empty (h : s.chains = Dict.empty) : Entries R T s := by
  intro target chain goodUntil hget
  rw [h, Dict.get?_empty] at hget
  cases hget

theorem ownOnly_empty (h : s.chains = Dict.empty) : OwnOnly s := by
  intro target ht
  rw [h] at ht
  cases ht

theorem Entries.later (hR : Rule P R) (h : Entries R T s) (hT : T ≤ T') : Entries R T' s :=
  fun target chain goodUntil hget =>
    ⟨(h target chain goodUntil hget).1, hR.later hT (h target chain goodUntil hget).2⟩

theorem Entries.same (hR : Rule P R) (h : Entries R T s) (hs : SameGraph s s')
    (hc : s'.chains = s.chains) : Entries R T s' := by
  intro target chain goodUntil hget
  rw [hc] at hget
  exact ⟨(h target chain goodUntil hget).1, hR.same hs (h target chain goodUntil hget).2⟩

theorem Entries.shrink (hR : Rule P R) (h : Entries R T s) (ho : OwnOnly s) (hs : Shrinks s s')
    (hc : s'.chains = s.chains) : Entries R T s' ∧ OwnOnly s' := by
  refine ⟨fun target chain goodUntil hget => ?_, fun target ht => ?_⟩
  · rw [hc] at hget
    obtain rfl := ho target (Dict.mem_keys_of_get? hget)
    exact ⟨(h _ chain goodUntil hget).1, hR.own hs (h _ chain goodUntil hget).2⟩
  · rw [hc] at ht
    rw [hs.ownId]
    exact ho target ht

/-! ### Lookups -/

theorem build_alive (hf : Filed s) (target : NodeID) (clock : ℕ) :
    earliestExpiry (s.buildChainToRoot target clock) = 0 ∨
      clock ≤ earliestExpiry (s.buildChainToRoot target clock) := by
  cases hb : s.buildChainToRoot target clock with
  | none => exact Or.inl rfl
  | some chain =>
    obtain ⟨x, hx⟩ := build_chainTo hf hb
    refine earliestExpiry_spec fun c hc => ?_
    have hu := (hx.held c hc).2
    rw [usable, Bool.and_eq_true, Bool.not_eq_true'] at hu
    exact hu.1

theorem answer_cases (s : CertStore K) (target : NodeID) (clock : ℕ) :
    (∃ goodUntil, s.chains.get? target = some ((s.getChainToRoot target none clock).1, goodUntil) ∧
      (goodUntil = 0 ∨ clock ≤ goodUntil) ∧
        (s.getChainToRoot target none clock).2 = s) ∨
    (s.getChainToRoot target none clock).1 = s.buildChainToRoot target clock ∧
      (s.getChainToRoot target none clock).2.chains = s.chains.set target
        (s.buildChainToRoot target clock, earliestExpiry (s.buildChainToRoot target clock)) := by
  unfold getChainToRoot
  dsimp only
  cases hget : s.chains.get? target with
  | none => exact Or.inr ⟨rfl, rfl⟩
  | some p =>
    obtain ⟨chain, goodUntil⟩ := p
    dsimp only
    split_ifs with hgood
    · exact Or.inl ⟨goodUntil, rfl, hgood, rfl⟩
    · exact Or.inr ⟨rfl, rfl⟩

theorem Entries.answer (hR : Rule P R) (hs : Sane P s) (h : Entries R T s) (hT : T ≤ clock)
    (target : NodeID) :
    R clock s target (s.getChainToRoot target none clock).1 ∧
      (earliestExpiry (s.getChainToRoot target none clock).1 = 0 ∨
        clock ≤ earliestExpiry (s.getChainToRoot target none clock).1) := by
  rcases answer_cases s target clock with ⟨goodUntil, hget, hgood, -⟩ | ⟨hbuilt, -⟩
  · obtain ⟨rfl, hsaid⟩ := h target _ goodUntil hget
    exact ⟨hR.later hT hsaid, hgood⟩
  · rw [hbuilt]
    exact ⟨hR.built hs target clock, build_alive hs.filed target clock⟩

theorem lookup_chains (s : CertStore K) (target : NodeID) (now : Option ℕ) (clock : ℕ) :
    (s.getChainToRoot target now clock).2.chains = s.chains ∨
      (s.getChainToRoot target now clock).2.chains = s.chains.set target
        (s.buildChainToRoot target clock, earliestExpiry (s.buildChainToRoot target clock)) := by
  cases now with
  | some now => exact Or.inl rfl
  | none =>
    rcases answer_cases s target clock with ⟨goodUntil, -, -, hs⟩ | ⟨-, hc⟩
    · exact Or.inl (by rw [hs])
    · exact Or.inr hc

theorem Entries.lookup (hR : Rule P R) (hs : Sane P s) (h : Entries R T s) (hT : T ≤ clock)
    (target : NodeID) (now : Option ℕ) : Entries R clock (s.getChainToRoot target now clock).2 := by
  have hsame := sameGraph_lookup s target now clock
  have hlater := h.later hR hT
  rcases lookup_chains s target now clock with hc | hc
  · exact hlater.same hR hsame hc
  · intro target' chain goodUntil hget
    rw [hc] at hget
    rcases Dict.get?_of_set hget with ⟨rfl, heq⟩ | ⟨-, hget⟩
    · cases heq
      exact ⟨rfl, hR.same hsame (hR.built hs target' clock)⟩
    · exact ⟨(hlater target' chain goodUntil hget).1,
        hR.same hsame (hlater target' chain goodUntil hget).2⟩

theorem OwnOnly.lookup (h : OwnOnly s) (now : Option ℕ) (clock : ℕ) :
    OwnOnly (s.getChainToRoot s.ownId now clock).2 := by
  intro target ht
  rw [(sameGraph_lookup s s.ownId now clock).ownId]
  rcases lookup_chains s s.ownId now clock with hc | hc <;> rw [hc] at ht
  · exact h target ht
  · exact (Dict.mem_keys_set.mp ht).elim id (h target)

/-! ### Operations -/

/-- The memo while a certificate is being taken in. -/
structure Filing (P : Certificate K → Prop) (R : Said K) (clock : ℕ) (s : CertStore K) : Prop where
  sane : Sane P s
  memo : Entries R clock s
  ownOnly : OwnOnly s

theorem Filing.lookup (hR : Rule P R) (h : Filing P R clock s) :
    Filing P R clock (s.getChainToRoot s.ownId none clock).2 :=
  ⟨h.sane.shrink (shrinks_lookup s s.ownId none clock), h.memo.lookup hR h.sane le_rfl s.ownId none,
    h.ownOnly.lookup none clock⟩

theorem Filing.shrink (hR : Rule P R) (h : Filing P R clock s) (hs : Shrinks s s')
    (hc : s'.chains = s.chains) : Filing P R clock s' :=
  ⟨h.sane.shrink hs, (h.memo.shrink hR h.ownOnly hs hc).1, (h.memo.shrink hR h.ownOnly hs hc).2⟩

theorem Filing.subjectBound (hR : Rule P R) (h : Filing P R clock s) (key : NodeID) :
    Filing P R clock (s.enforceSubjectBound key clock) := by
  unfold enforceSubjectBound
  dsimp only
  split_ifs
  · refine (h.lookup hR).shrink hR (shrinks_set _ key ?_) rfl
    rw [(sameGraph_lookup s s.ownId none clock).held]
    exact trim_sublist _ _ _ _
  · exact h

theorem Entries.add (hR : Rule P R) (hs : Sane P s) (h : Entries R T s) (hT : T ≤ clock)
    {cert : Certificate K} (hc : P cert) : Entries R clock (s.add cert clock).2 := by
  rcases add_cases s cert clock with he | he | ⟨-, -, hnew, n, he⟩ <;> rw [he]
  · exact h.later hR hT
  · exact (h.later hR hT).same hR (sameGraph_touch s _) (touch_fields s _).2.2.2.1
  · have hfile : Filing P R clock (s.file cert) :=
      ⟨hs.file hc hnew, memo_empty rfl, ownOnly_empty rfl⟩
    have htouch := (hfile.subjectBound hR cert.subjectId).shrink hR
      (shrinks_touch _ cert.subjectId) (touch_fields _ _).2.2.2.1
    exact (enforceBounds_induct (Q := Filing P R clock) (fun _ h1 => h1.lookup hR)
      (fun s1 key h1 _ _ => (h1.lookup hR).shrink hR (shrinks_pop _ key) rfl) n _ htouch).memo

theorem Entries.step (hR : Rule P R) (hs : Sane P s) (h : Entries R T s) {act : ℕ × Op K}
    (hT : T ≤ act.1) (ha : Adds P act) : Entries R act.1 (s.step act) := by
  obtain ⟨clock, op⟩ := act
  rcases emptied_cases s clock op with ⟨cert, rfl⟩ | ⟨target, now, rfl⟩ | he | hc
  · exact h.add hR hs hT ha
  · exact h.lookup hR hs hT target now
  · rw [he]; exact h.later hR hT
  · exact memo_empty hc

/-- **What a rule says holds of the memo of every reachable store.** -/
theorem memo_reachable (hR : Rule P R) (h : Reachable P s T) : Entries R T s := by
  refine (h.induct (Q := fun s T => Sane P s ∧ Entries R T s) ?_ ?_).2
  · exact fun ownId a b c => ⟨sane_new P ownId a b c, memo_empty rfl⟩
  · exact fun s T act hs hT ha => ⟨hs.1.step ha, hs.2.step hR hs.1 hT ha⟩

end NMesh.Cert.Memo
