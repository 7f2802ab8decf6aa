import NMesh.Cert.Pinning
import Mathlib.Data.Finset.Card

/-! # The order of arrival

A revocation takes certificates away that are held, and refuses those that come later; of two that one
issuer made against one subject the newer counts. So what a store knows after certificates and
revocations came in is told by what came in, not by the order (`Absorbed`): a certificate is held and
usable exactly if it came, is alive, and nothing that came takes it back.

This takes room for all of it (`Fits`), as eviction goes by the order of arrival. -/

namespace NMesh.Cert.Order

open Base.BigEndian Base.Ordered Base.Runs NMesh.Cert.Identity NMesh.Cert.Revocation
open NMesh.Cert.Store NMesh.Cert.Store.CertStore NMesh.Cert.Walk NMesh.Cert.Upkeep NMesh.Cert.Pinning

variable {K : Crypto} {P : Certificate K → Prop} {s s' first : CertStore K} {clock : ℕ} {cert : Certificate K}

/-! ### Revocation times -/

/-- Is what the issuer signed for the subject at `t` taken back? -/
def Voided (s : CertStore K) (pair : NodeID × NodeID) (t : ℕ) : Prop :=
  ∃ held, s.revoked.get? pair = some held ∧ t ≤ held.issuedAt

variable {c : Certificate K}

theorem isRevoked_iff : s.isRevoked c = true ↔ Voided s (c.issuerId, c.subjectId) c.issuedAt := by
  unfold isRevoked Voided
  cases s.revoked.get? (c.issuerId, c.subjectId) with
  | none | some held => simp

theorem newest_of_voided {pair : NodeID × NodeID} (h : ∀ t, Voided s pair t ↔ Voided s' pair t) :
    (s.revoked.get? pair).map (·.issuedAt) = (s'.revoked.get? pair).map (·.issuedAt) := by
  unfold Voided at h
  cases hs : s.revoked.get? pair with
  | none =>
    cases hs' : s'.revoked.get? pair with
    | none => rfl
    | some held =>
      obtain ⟨held', hheld, -⟩ := (h 0).mpr ⟨held, hs', Nat.zero_le _⟩
      rw [hs] at hheld
      cases hheld
  | some held =>
    obtain ⟨held', hheld', hle⟩ := (h held.issuedAt).mp ⟨held, hs, le_rfl⟩
    obtain ⟨held'', hheld'', hle'⟩ := (h held'.issuedAt).mpr ⟨held', hheld', le_rfl⟩
    rw [hs] at hheld''
    cases hheld''
    rw [hheld', Option.map_some, Option.map_some, le_antisymm hle hle']

/-! ### Room for all -/

def certOf : Op K → Option (Certificate K)
  | .add cert => some cert
  | _ => none

/-- The issuer and the subject of the revocation an operation brings. -/
def pairOf : Op K → Option (NodeID × NodeID)
  | .revoke record => (parse K record).map fun parsed => (parsed.issuerId, parsed.subjectId)
  | _ => none

/-- **There is room** for what the store holds and what the operations bring. -/
structure Fits (s : CertStore K) (ops : List (Op K)) : Prop where
  subjects : (s.certs.keys ++ (ops.filterMap certOf).map Certificate.subjectId).toFinset.card ≤
    s.maxSubjects
  perSubject : ∀ key, (s.held key ++
    (ops.filterMap certOf).filter fun c => decide (c.subjectId = key)).toFinset.card ≤ s.maxPerSubject
  revocations : (s.revoked.keys ++ ops.filterMap pairOf).toFinset.card ≤ s.maxRevocations

theorem length_le_of_subset {α : Type} [DecidableEq α] {l m : List α} (hl : l.Nodup) (h : l ⊆ m) :
    l.length ≤ m.toFinset.card := by
  rw [← List.toFinset_card_of_nodup hl]
  exact Finset.card_le_card fun a ha => List.mem_toFinset.mpr (h (List.mem_toFinset.mp ha))

theorem enforceBounds_room (n : ℕ) (h : s.certs.size ≤ s.maxSubjects) : enforceBounds clock n s = s := by
  cases n with
  | zero => rfl
  | succ n => rw [enforceBounds, if_neg (by omega)]

variable {key : NodeID}

theorem enforceSubjectBound_room (h : (s.held key).length ≤ s.maxPerSubject) :
    s.enforceSubjectBound key clock = s := by
  unfold enforceSubjectBound
  exact if_neg (by omega)

theorem enforceRevocationBound_room (n : ℕ) (h : s.revoked.size ≤ s.maxRevocations) :
    enforceRevocationBound n s = s := by
  cases n with
  | zero => rfl
  | succ n => rw [enforceRevocationBound, if_neg (by omega)]

/-! ### One operation, with room -/

theorem touch_frame (s : CertStore K) (key : NodeID) :
    s.touch key = { s with certs := (s.touch key).certs } := by
  unfold touch
  cases s.certs.get? key <;> rfl

theorem mem_keys_touch {key' : NodeID} : key' ∈ (s.touch key).certs.keys ↔ key' ∈ s.certs.keys := by
  unfold touch
  cases hget : s.certs.get? key with
  | none => rfl
  | some entry =>
    have hmem := Dict.mem_keys_of_get? hget
    show key' ∈ ((s.certs.pop key).set key entry).keys ↔ _
    rw [Dict.mem_keys_set, Dict.mem_keys_pop]
    by_cases hk : key' = key
    · subst hk
      exact iff_of_true (Or.inl rfl) hmem
    · simp [hk]

theorem size_touch (s : CertStore K) (key : NodeID) : (s.touch key).certs.size = s.certs.size := by
  unfold touch
  cases hget : s.certs.get? key with
  | none => rfl
  | some entry =>
    show ((s.certs.pop key).set key entry).size = s.certs.size
    rw [Dict.size_set_of_notMem fun h => (Dict.mem_keys_pop.mp h).2 rfl,
      Dict.size_pop (Dict.mem_keys_of_get? hget)]

theorem mem_keys_file :
    key ∈ (s.file cert).certs.keys ↔ key = cert.subjectId ∨ key ∈ s.certs.keys := Dict.mem_keys_set

theorem mem_held_dropVoided {subject : NodeID} : c ∈ (s.dropVoided subject).held key ↔
      c ∈ s.held key ∧ (key = subject → s.isRevoked c = false) := by
  have hlive : c ∈ (s.held subject).filter (· ∉ (s.held subject).filter s.isRevoked) ↔
      c ∈ s.held subject ∧ s.isRevoked c = false := by
    simp only [List.mem_filter, decide_eq_true_eq, not_and, Bool.not_eq_true]
    exact ⟨fun ⟨hc, h⟩ => ⟨hc, h hc⟩, fun ⟨hc, h⟩ => ⟨hc, fun _ => h⟩⟩
  unfold dropVoided
  dsimp only
  split_ifs with hnone hempty
  · refine ⟨fun hc => ⟨hc, ?_⟩, fun h => h.1⟩
    rintro rfl
    by_contra hrevoked
    have := List.mem_filter.mpr ⟨hc, Bool.not_eq_false _ ▸ hrevoked⟩
    rw [hnone] at this
    cases this
  · rw [held_pop]
    split_ifs with hk
    · subst hk
      rw [← not_iff_not]
      simp only [List.not_mem_nil, not_false_eq_true, true_iff, forall_const]
      rw [← hlive, hempty]
      exact List.not_mem_nil
    · exact ⟨fun hc => ⟨hc, fun h => absurd h hk⟩, fun h => h.1⟩
  · rw [held_set]
    split_ifs with hk
    · subst hk
      rw [hlive]
      simp
    · exact ⟨fun hc => ⟨hc, fun h => absurd h.symm hk⟩, fun h => h.1⟩

theorem dropVoided_frame (s : CertStore K) (subject : NodeID) :
    s.dropVoided subject = { s with certs := (s.dropVoided subject).certs } := by
  unfold dropVoided
  dsimp only
  split_ifs <;> rfl

theorem mem_keys_dropVoided {subject : NodeID} (h : key ∈ (s.dropVoided subject).certs.keys) :
    key ∈ s.certs.keys := by
  unfold dropVoided at h
  dsimp only at h
  split_ifs at h with hnone hempty
  · exact h
  · exact (Dict.mem_keys_pop.mp h).1
  · rcases Dict.mem_keys_set.mp h with rfl | hk
    · by_contra hno
      exact hnone (by rw [held_eq_nil hno, List.filter_nil])
    · exact hk

/-- **`add`, with room**: nothing, as the certificate is dead or taken back; a mention, as it is held; or
one certificate more. -/
theorem add_room (hroom : (∀ e ∈ s.held cert.subjectId, e.signature ≠ cert.signature) →
      ((s.file cert).held cert.subjectId).length ≤ s.maxPerSubject ∧
        (s.file cert).certs.size ≤ s.maxSubjects) :
    (cert.isExpired clock = true ∨ s.isRevoked cert = true) ∧ (s.add cert clock).2 = s ∨
    (∃ e ∈ s.held cert.subjectId, e.signature = cert.signature) ∧
      (s.add cert clock).2 = s.touch cert.subjectId ∨
    (∀ e ∈ s.held cert.subjectId, e.signature ≠ cert.signature) ∧
      (s.add cert clock).2 = (s.file cert).touch cert.subjectId := by
  unfold add
  by_cases hrej : (cert.isExpired clock || s.isRevoked cert) = true
  · rw [if_pos hrej]
    exact Or.inl ⟨Bool.or_eq_true_iff.mp hrej, rfl⟩
  · rw [if_neg hrej]
    dsimp only
    by_cases hdup : ((s.held cert.subjectId).any fun e => e.signature = cert.signature) = true
    · rw [if_pos hdup]
      obtain ⟨e, he, hsig⟩ := List.any_eq_true.mp hdup
      exact Or.inr (Or.inl ⟨⟨e, he, of_decide_eq_true hsig⟩, rfl⟩)
    · rw [if_neg hdup]
      have hnew : ∀ e ∈ s.held cert.subjectId, e.signature ≠ cert.signature := fun e he hsig =>
        hdup (List.any_eq_true.mpr ⟨e, he, decide_eq_true hsig⟩)
      obtain ⟨hheld, hsize⟩ := hroom hnew
      refine Or.inr (Or.inr ⟨hnew, ?_⟩)
      rw [enforceSubjectBound_room hheld]
      refine enforceBounds_room _ ?_
      rw [size_touch, touch_frame]
      exact hsize

variable {record : Bytes}

/-- **`revoke`, with room**: nothing, as the record does not parse or is no news; or the revocation is noted
and what it voids is dropped. -/
theorem revoke_room (hroom : ∀ parsed held, parse K record = some parsed →
      (s.revoked.set (parsed.issuerId, parsed.subjectId) held).size ≤ s.maxRevocations) :
    parse K record = none ∧ (s.revoke record).2 = s ∨ ∃ parsed, parse K record = some parsed ∧
      (Voided s (parsed.issuerId, parsed.subjectId) parsed.issuedAt ∧ (s.revoke record).2 = s ∨
      ¬ Voided s (parsed.issuerId, parsed.subjectId) parsed.issuedAt ∧
        (s.revoke record).2 = ({ s with
          revoked := s.revoked.set (parsed.issuerId, parsed.subjectId)
            ⟨parsed.issuedAt, parsed.reason, record⟩
          chains := Dict.empty } : CertStore K).dropVoided parsed.subjectId) := by
  unfold revoke
  cases hparse : parse K record with
  | none => exact Or.inl ⟨rfl, rfl⟩
  | some parsed =>
    refine Or.inr ⟨parsed, rfl, ?_⟩
    have hany : ((s.revoked.get? (parsed.issuerId, parsed.subjectId)).any
        fun held => decide (parsed.issuedAt ≤ held.issuedAt)) = true ↔
        Voided s (parsed.issuerId, parsed.subjectId) parsed.issuedAt := by
      unfold Voided
      cases s.revoked.get? (parsed.issuerId, parsed.subjectId) with
      | none | some held => simp
    dsimp only
    by_cases hold : Voided s (parsed.issuerId, parsed.subjectId) parsed.issuedAt
    · rw [if_pos (hany.mpr hold)]
      exact Or.inl ⟨hold, rfl⟩
    · rw [if_neg (mt hany.mp hold)]
      refine Or.inr ⟨hold, ?_⟩
      rw [enforceRevocationBound_room _ (hroom parsed _ hparse)]

/-! ### What came in -/

/-- Among what came, does a revocation take back what the issuer signed for the subject at `t`? -/
def Heard (seen : List (Op K)) (pair : NodeID × NodeID) (t : ℕ) : Prop :=
  ∃ record parsed, Op.revoke record ∈ seen ∧ parse K record = some parsed ∧
    (parsed.issuerId, parsed.subjectId) = pair ∧ t ≤ parsed.issuedAt

/-- A certificate among `P`, or a revocation. -/
def Brings (P : Certificate K → Prop) : Op K → Prop
  | .add cert => P cert
  | .revoke _ => True
  | _ => False

/-- **The store after what was seen**, from `first`, among all that will be seen. -/
structure Absorbed (P : Certificate K → Prop) (first : CertStore K) (clock : ℕ) (ops seen : List (Op K))
    (s : CertStore K) : Prop where
  sane : Sane P s
  roots : s.roots = first.roots
  bounds : s.maxSubjects = first.maxSubjects ∧ s.maxPerSubject = first.maxPerSubject ∧
    s.maxRevocations = first.maxRevocations
  came : ∀ op ∈ seen, op ∈ ops
  subjects : ∀ key ∈ s.certs.keys, key ∈ first.certs.keys ∨
    ∃ c, Op.add c ∈ seen ∧ c.subjectId = key
  held : ∀ key, ∀ c ∈ s.held key, c ∈ first.held key ∨ Op.add c ∈ seen
  pairs : ∀ pair ∈ s.revoked.keys, pair ∈ first.revoked.keys ∨ ∃ op ∈ seen, pairOf op = some pair
  voided : ∀ pair t, Voided s pair t ↔ Voided first pair t ∨ Heard seen pair t
  kept : ∀ c, c ∈ first.held c.subjectId ∨ Op.add c ∈ seen → c.isExpired clock = false →
    s.isRevoked c = false → c ∈ s.held c.subjectId

variable {ops seen : List (Op K)}

theorem absorbed_nil (h : Sane P s) : Absorbed P s clock ops [] s where
  sane := h
  roots := rfl
  bounds := ⟨rfl, rfl, rfl⟩
  came := fun op hop => absurd hop List.not_mem_nil
  subjects := fun key hkey => Or.inl hkey
  held := fun key c hc => Or.inl hc
  pairs := fun pair hpair => Or.inl hpair
  voided := fun pair t => by simp [Heard]
  kept := fun c hc _ _ => hc.resolve_right List.not_mem_nil

theorem mem_certs (h : Op.add c ∈ ops) : c ∈ ops.filterMap certOf :=
  List.mem_filterMap.mpr ⟨_, h, rfl⟩

theorem Absorbed.room_add (h : Absorbed P first clock ops seen s) (hfits : Fits first ops)
    (hP : P cert) (hop : Op.add cert ∈ ops) (hnew : ∀ e ∈ s.held cert.subjectId, e.signature ≠ cert.signature) :
    ((s.file cert).held cert.subjectId).length ≤ s.maxPerSubject ∧
      (s.file cert).certs.size ≤ s.maxSubjects := by
  have hsane := h.sane.file hP hnew
  constructor
  · rw [h.bounds.2.1]
    refine (length_le_of_subset (hsane.distinct _).of_map fun c hc => ?_).trans
      (hfits.perSubject cert.subjectId)
    have hsubject := hsane.filed _ c hc
    have hcame : ∀ {c : Certificate K}, Op.add c ∈ ops → c.subjectId = cert.subjectId → c ∈ first.held cert.subjectId ++
        (ops.filterMap certOf).filter fun c => decide (c.subjectId = cert.subjectId) := fun hadd hsub =>
      List.mem_append_right _ (List.mem_filter.mpr ⟨mem_certs hadd, decide_eq_true hsub⟩)
    rcases mem_held_file.mp hc with hold | ⟨rfl, -⟩
    · rcases h.held _ c hold with hfirst | hadd
      · exact List.mem_append_left _ hfirst
      · exact hcame (h.came _ hadd) hsubject
    · exact hcame hop rfl
  · rw [h.bounds.1, Dict.size_eq]
    refine (length_le_of_subset (Dict.nodup_keys _) fun key hkey => ?_).trans hfits.subjects
    have hcame : ∀ {c : Certificate K}, Op.add c ∈ ops → c.subjectId ∈ first.certs.keys ++
        (ops.filterMap certOf).map Certificate.subjectId := fun hadd =>
      List.mem_append_right _ (List.mem_map_of_mem (mem_certs hadd))
    rcases mem_keys_file.mp hkey with rfl | hold
    · exact hcame hop
    · rcases h.subjects key hold with hfirst | ⟨c, hadd, rfl⟩
      · exact List.mem_append_left _ hfirst
      · exact hcame (h.came _ hadd)

theorem Absorbed.room_revoke (h : Absorbed P first clock ops seen s) (hfits : Fits first ops)
 (hop : Op.revoke record ∈ ops) {parsed : Parsed} (held : Revoked) (hparse : parse K record = some parsed) :
    (s.revoked.set (parsed.issuerId, parsed.subjectId) held).size ≤ s.maxRevocations := by
  rw [h.bounds.2.2, Dict.size_eq]
  refine (length_le_of_subset (Dict.nodup_keys _) fun pair hpair => ?_).trans hfits.revocations
  have hcame : ∀ {op : Op K}, op ∈ ops → pairOf op = some pair → pair ∈ first.revoked.keys ++
      ops.filterMap pairOf := fun hmem hpair =>
    List.mem_append_right _ (List.mem_filterMap.mpr ⟨_, hmem, hpair⟩)
  rcases Dict.mem_keys_set.mp hpair with rfl | hold
  · exact hcame hop (by rw [pairOf, hparse]; rfl)
  · rcases h.pairs pair hold with hfirst | ⟨op, hmem, hsome⟩
    · exact List.mem_append_left _ hfirst
    · exact hcame (h.came op hmem) hsome

theorem isRevoked_congr (h : s'.revoked = s.revoked) (c : Certificate K) :
    s'.isRevoked c = s.isRevoked c := by
  unfold isRevoked
  rw [h]

theorem Absorbed.touch (h : Absorbed P first clock ops seen s) (key : NodeID) :
    Absorbed P first clock ops seen (s.touch key) := by
  have hframe := touch_frame s key
  have hrevoked : (s.touch key).revoked = s.revoked := by rw [hframe]
  refine ⟨h.sane.shrink (shrinks_touch s key), ?_, ?_, h.came, fun k hk => h.subjects k (mem_keys_touch.mp hk),
    fun k c hc => h.held k c (by rwa [held_touch] at hc), ?_, fun pair t => ?_, fun c hc halive hrev => ?_⟩
  · rw [hframe]
    exact h.roots
  · rw [hframe]
    exact h.bounds
  · rw [hrevoked]
    exact h.pairs
  · rw [Voided, hrevoked]
    exact h.voided pair t
  · rw [held_touch]
    exact h.kept c hc halive (by rwa [isRevoked_congr hrevoked] at hrev)

theorem Absorbed.skip (h : Absorbed P first clock ops seen s) {op : Op K} (hop : op ∈ ops)
    (hadd : ∀ c, op = .add c → c.isExpired clock = false → s.isRevoked c = false →
      c ∈ s.held c.subjectId)
    (hrevoke : ∀ record parsed, op = .revoke record → parse K record = some parsed →
      Voided s (parsed.issuerId, parsed.subjectId) parsed.issuedAt) :
    Absorbed P first clock ops (op :: seen) s where
  sane := h.sane
  roots := h.roots
  bounds := h.bounds
  came := List.forall_mem_cons.mpr ⟨hop, h.came⟩
  subjects := fun key hkey => (h.subjects key hkey).imp_right fun ⟨c, hc, hsub⟩ =>
    ⟨c, List.mem_cons_of_mem _ hc, hsub⟩
  held := fun key c hc => (h.held key c hc).imp_right (List.mem_cons_of_mem _)
  pairs := fun pair hpair => (h.pairs pair hpair).imp_right fun ⟨op', hmem, hsome⟩ =>
    ⟨op', List.mem_cons_of_mem _ hmem, hsome⟩
  voided := fun pair t => by
    rw [h.voided]
    constructor
    · rintro (hfirst | ⟨record, parsed, hmem, hrest⟩)
      · exact Or.inl hfirst
      · exact Or.inr ⟨record, parsed, List.mem_cons_of_mem _ hmem, hrest⟩
    · rintro (hfirst | ⟨record, parsed, hmem, hparse, rfl, hle⟩)
      · exact Or.inl hfirst
      · rcases List.mem_cons.mp hmem with heq | hmem
        · obtain ⟨held, hget, hle'⟩ := hrevoke record parsed heq.symm hparse
          exact (h.voided _ t).mp ⟨held, hget, hle.trans hle'⟩
        · exact Or.inr ⟨record, parsed, hmem, hparse, rfl, hle⟩
  kept := fun c hc halive hrev => by
    rcases hc with hfirst | hmem
    · exact h.kept c (Or.inl hfirst) halive hrev
    · rcases List.mem_cons.mp hmem with heq | hmem
      · exact hadd c heq.symm halive hrev
      · exact h.kept c (Or.inr hmem) halive hrev

theorem Absorbed.add (hb : Binding P) (hfits : Fits first ops) (h : Absorbed P first clock ops seen s)
    (hP : P cert) (hop : Op.add cert ∈ ops) :
    Absorbed P first clock ops (.add cert :: seen) (s.add cert clock).2 := by
  have hrevoke : ∀ {s' : CertStore K} (record : Bytes) (parsed : Parsed), Op.add cert = .revoke record →
      parse K record = some parsed → Voided s' (parsed.issuerId, parsed.subjectId) parsed.issuedAt :=
    fun _ _ heq => by cases heq
  rcases add_room (h.room_add hfits hP hop) with ⟨hdead, heq⟩ |
    ⟨⟨e, he, hsig⟩, heq⟩ | ⟨hnew, heq⟩
  · rw [heq]
    refine h.skip hop (fun c hc halive hrev => ?_) hrevoke
    obtain rfl := Op.add.inj hc
    rcases hdead with hdead | hdead
    · rw [hdead] at halive
      cases halive
    · rw [hdead] at hrev
      cases hrev
  · rw [heq]
    have hsame : e = cert := eq_of_body hsig (hb e cert (h.sane.known _ e he) hP hsig)
    refine (h.touch _).skip hop (fun c hc _ _ => ?_) hrevoke
    rw [← Op.add.inj hc, held_touch, ← hsame]
    rwa [← hsame] at he
  · rw [heq]
    have hfile : Absorbed P first clock ops (.add cert :: seen) (s.file cert) := by
      refine ⟨h.sane.file hP hnew, h.roots, h.bounds, List.forall_mem_cons.mpr ⟨hop, h.came⟩,
        fun key hkey => ?_, fun key c hc => ?_, fun pair hpair => ?_, fun pair t => ?_,
        fun c hc halive hrev => ?_⟩
      · rcases mem_keys_file.mp hkey with rfl | hold
        · exact Or.inr ⟨cert, List.mem_cons_self, rfl⟩
        · exact (h.subjects key hold).imp_right fun ⟨c, hc, hsub⟩ => ⟨c, List.mem_cons_of_mem _ hc, hsub⟩
      · rcases mem_held_file.mp hc with hold | ⟨rfl, -⟩
        · exact (h.held key c hold).imp_right (List.mem_cons_of_mem _)
        · exact Or.inr List.mem_cons_self
      · exact (h.pairs pair hpair).imp_right fun ⟨op', hmem, hsome⟩ =>
          ⟨op', List.mem_cons_of_mem _ hmem, hsome⟩
      · have hheard : Heard (.add cert :: seen) pair t ↔ Heard seen pair t := by
          simp [Heard]
        rw [hheard]
        exact h.voided pair t
      · refine mem_held_file.mpr ?_
        rcases hc with hfirst | hmem
        · exact Or.inl (h.kept c (Or.inl hfirst) halive hrev)
        · rcases List.mem_cons.mp hmem with hc | hmem
          · rw [Op.add.inj hc]
            exact Or.inr ⟨rfl, rfl⟩
          · exact Or.inl (h.kept c (Or.inr hmem) halive hrev)
    exact hfile.touch _

theorem voided_set {parsed : Parsed} (hnew : ¬ Voided s (parsed.issuerId, parsed.subjectId) parsed.issuedAt)
    (hrevoked : s'.revoked = s.revoked.set (parsed.issuerId, parsed.subjectId)
      ⟨parsed.issuedAt, parsed.reason, record⟩) (pair : NodeID × NodeID) (t : ℕ) : Voided s' pair t ↔
      Voided s pair t ∨ (parsed.issuerId, parsed.subjectId) = pair ∧ t ≤ parsed.issuedAt := by
  unfold Voided at *
  rw [hrevoked, Dict.get?_set]
  split_ifs with hpair
  · subst hpair
    constructor
    · rintro ⟨held, hheld, hle⟩
      rw [← Option.some.inj hheld] at hle
      exact Or.inr ⟨rfl, hle⟩
    · rintro (⟨held, hheld, hle⟩ | ⟨-, hle⟩)
      · exact ⟨_, rfl, hle.trans (not_lt.mp fun hlt => hnew ⟨held, hheld, hlt.le⟩)⟩
      · exact ⟨_, rfl, hle⟩
  · constructor
    · exact Or.inl
    · rintro (hold | ⟨heq, -⟩)
      · exact hold
      · exact absurd heq hpair

theorem Absorbed.revoke (hfits : Fits first ops) (h : Absorbed P first clock ops seen s)
    (hop : Op.revoke record ∈ ops) :
    Absorbed P first clock ops (.revoke record :: seen) (s.revoke record).2 := by
  have hadd : ∀ {s' : CertStore K} (c : Certificate K), Op.revoke record = .add c →
      c.isExpired clock = false → s'.isRevoked c = false → c ∈ s'.held c.subjectId :=
    fun _ heq => by cases heq
  rcases revoke_room fun parsed held hparse => h.room_revoke hfits hop held hparse with
    ⟨hnone, heq⟩ | ⟨parsed, hparse, ⟨hold, heq⟩ | ⟨hnew, heq⟩⟩
  · rw [heq]
    refine h.skip hop hadd fun record' parsed hr hparse => ?_
    rw [← Op.revoke.inj hr, hnone] at hparse
    cases hparse
  · rw [heq]
    refine h.skip hop hadd fun record' parsed' hr hparse' => ?_
    rw [← Op.revoke.inj hr, hparse] at hparse'
    rwa [← Option.some.inj hparse']
  · rw [heq]
    obtain ⟨noted, hnoted⟩ : ∃ noted : CertStore K, noted = { s with
      revoked := s.revoked.set (parsed.issuerId, parsed.subjectId)
        ⟨parsed.issuedAt, parsed.reason, record⟩
      chains := Dict.empty } := ⟨_, rfl⟩
    rw [← hnoted]
    have hrevoked : noted.revoked = s.revoked.set (parsed.issuerId, parsed.subjectId)
        ⟨parsed.issuedAt, parsed.reason, record⟩ := by rw [hnoted]
    have hvoided := voided_set hnew hrevoked
    have hheld : ∀ key, noted.held key = s.held key := fun key => by rw [hnoted]; rfl
    obtain ⟨hshrinks, -⟩ := dropVoided_spec noted parsed.subjectId
    have hdropped : (noted.dropVoided parsed.subjectId).revoked = noted.revoked := hshrinks.revoked
    have hheard : ∀ pair t, Heard (.revoke record :: seen) pair t ↔
        Heard seen pair t ∨ (parsed.issuerId, parsed.subjectId) = pair ∧ t ≤ parsed.issuedAt := by
      intro pair t
      constructor
      · rintro ⟨record', parsed', hmem, hparse', hrest⟩
        rcases List.mem_cons.mp hmem with hr | hmem
        · rw [Op.revoke.inj hr, hparse] at hparse'
          rw [Option.some.inj hparse']
          exact Or.inr hrest
        · exact Or.inl ⟨record', parsed', hmem, hparse', hrest⟩
      · rintro (⟨record', parsed', hmem, hrest⟩ | hrest)
        · exact ⟨record', parsed', List.mem_cons_of_mem _ hmem, hrest⟩
        · exact ⟨record, parsed, List.mem_cons_self, hparse, hrest⟩
    refine ⟨?_, ?_, ?_, List.forall_mem_cons.mpr ⟨hop, h.came⟩, fun key hkey => ?_, fun key c hc => ?_,
      fun pair hpair => ?_, fun pair t => ?_, fun c hc halive hrev => ?_⟩
    · refine h.sane.of_sublist (fun key => ?_) ?_
      · rw [← hheld]
        exact hshrinks.held key
      · rw [hshrinks.ownId, hshrinks.roots, hnoted]
        exact h.sane.own
    · rw [hshrinks.roots, hnoted]
      exact h.roots
    · rw [dropVoided_frame, hnoted]
      exact h.bounds
    · have hold := mem_keys_dropVoided hkey
      rw [hnoted] at hold
      exact (h.subjects key hold).imp_right fun ⟨c, hc, hsub⟩ => ⟨c, List.mem_cons_of_mem _ hc, hsub⟩
    · have hold := (mem_held_dropVoided.mp hc).1
      rw [hheld] at hold
      exact (h.held key c hold).imp_right (List.mem_cons_of_mem _)
    · rw [hdropped, hrevoked] at hpair
      rcases Dict.mem_keys_set.mp hpair with rfl | hold
      · exact Or.inr ⟨_, List.mem_cons_self, by rw [pairOf, hparse]; rfl⟩
      · exact (h.pairs pair hold).imp_right fun ⟨op', hmem, hsome⟩ =>
          ⟨op', List.mem_cons_of_mem _ hmem, hsome⟩
    · rw [Voided, hdropped, ← Voided, hvoided, h.voided, hheard, or_assoc]
    · rw [isRevoked_congr hdropped] at hrev
      have hrev' : s.isRevoked c = false := by
        rw [Bool.eq_false_iff, Ne, isRevoked_iff] at hrev ⊢
        exact fun hvoid => hrev ((hvoided _ _).mpr (Or.inl hvoid))
      refine mem_held_dropVoided.mpr ⟨?_, fun _ => hrev⟩
      rw [hheld]
      refine h.kept c (hc.imp_right fun hmem => ?_) halive hrev'
      exact (List.mem_cons.mp hmem).resolve_left fun heq => by cases heq

/-! ### Runs -/

def receive (clock : ℕ) (s : CertStore K) (op : Op K) : CertStore K := s.step (clock, op)

theorem Absorbed.after (hb : Binding P) (hfits : Fits first ops) :
    ∀ {more seen : List (Op K)} {s : CertStore K}, Absorbed P first clock ops seen s →
      (∀ op ∈ more, op ∈ ops ∧ Brings P op) →
      Absorbed P first clock ops (more.reverse ++ seen) (run (receive clock) s more)
  | [], _, _, h, _ => h
  | op :: more, seen, s, h, hmore => by
    obtain ⟨hop, hbrings⟩ := hmore op List.mem_cons_self
    have hnext : Absorbed P first clock ops (op :: seen) (receive clock s op) := by
      cases op with
      | add cert => exact h.add hb hfits hbrings hop
      | revoke record => exact h.revoke hfits hop
      | _ => exact absurd hbrings id
    have := hnext.after hb hfits fun op' hop' => hmore op' (List.mem_cons_of_mem _ hop')
    rwa [List.reverse_cons, List.append_assoc, run_cons]

/-- **What is held and usable**: what was there or came, is alive, and is not taken back. -/
theorem Absorbed.usable_iff (h : Absorbed P first clock ops seen s) (hf : Filed first) {now : ℕ}
    (hnow : clock ≤ now) : c ∈ (s.held key).filter (s.usable now) ↔
      (c ∈ first.held key ∨ Op.add c ∈ seen ∧ c.subjectId = key) ∧ c.isExpired now = false ∧
        s.isRevoked c = false := by
  simp only [List.mem_filter, usable, Bool.and_eq_true, Bool.not_eq_true']
  constructor
  · rintro ⟨hc, halive, hrev⟩
    refine ⟨?_, halive, hrev⟩
    have hkey := h.sane.filed key c hc
    exact (h.held key c hc).imp_right fun hadd => ⟨hadd, hkey⟩
  · rintro ⟨hcame, halive, hrev⟩
    refine ⟨?_, halive, hrev⟩
    have hkey : c.subjectId = key := by
      rcases hcame with hfirst | ⟨-, hkey⟩
      · exact hf key c hfirst
      · exact hkey
    subst hkey
    exact h.kept c (hcame.imp_right And.left) (Certificate.isExpired_mono hnow halive) hrev

theorem verifyChain_congr (hroots : s'.roots = s.roots) (hrev : ∀ c, s'.isRevoked c = s.isRevoked c)
    (chain : List (Certificate K)) (now : ℕ) : s'.verifyChain chain now = s.verifyChain chain now := by
  have husable : s'.usable now = s.usable now := by
    funext c
    rw [usable, usable, hrev]
  unfold verifyChain
  rw [husable, hroots]

/-! ### The law -/

/-- **The order of arrival does not matter.** Let the same certificates and revocations come to a store at
one time, in two orders and however often, with room for all of them. Then both stores hold the same usable
certificates for each subject, now and later; have the same newest time for each issuer and subject; and
give the same answers on every certificate and every chain. -/
theorem order_irrelevant (hb : Binding P) {T : ℕ} (h : Reachable P s T) {ops ops' : List (Op K)}
    (hbrings : ∀ op ∈ ops, Brings P op) (hsame : ∀ op, op ∈ ops ↔ op ∈ ops') (hfits : Fits s ops)
    (clock : ℕ) :
    (∀ now, clock ≤ now → ∀ key,
      (((run (receive clock) s ops).held key).filter ((run (receive clock) s ops).usable now)).Perm
        (((run (receive clock) s ops').held key).filter ((run (receive clock) s ops').usable now))) ∧
    (∀ pair, ((run (receive clock) s ops).revoked.get? pair).map (·.issuedAt) =
      ((run (receive clock) s ops').revoked.get? pair).map (·.issuedAt)) ∧
    (∀ c, (run (receive clock) s ops).isRevoked c = (run (receive clock) s ops').isRevoked c) ∧
    ∀ chain now, (run (receive clock) s ops).verifyChain chain now =
      (run (receive clock) s ops').verifyChain chain now := by
  have hstart : Absorbed P s clock ops [] s := absorbed_nil h.sane
  have hone := hstart.after hb hfits fun op hop => ⟨hop, hbrings op hop⟩
  have htwo := hstart.after hb hfits fun op hop => ⟨(hsame op).mpr hop, hbrings op ((hsame op).mpr hop)⟩
  rw [List.append_nil] at hone htwo
  obtain ⟨one, hrun⟩ : ∃ one, one = run (receive clock) s ops := ⟨_, rfl⟩
  obtain ⟨two, hrun'⟩ : ∃ two, two = run (receive clock) s ops' := ⟨_, rfl⟩
  rw [← hrun] at hone ⊢
  rw [← hrun'] at htwo ⊢
  have hseen : ∀ op, op ∈ ops.reverse ↔ op ∈ ops'.reverse := fun op => by
    rw [List.mem_reverse, List.mem_reverse, hsame]
  have hvoided : ∀ pair t, Voided one pair t ↔ Voided two pair t := fun pair t => by
    simp only [hone.voided, htwo.voided, Heard, hseen]
  have hrev : ∀ c, one.isRevoked c = two.isRevoked c := fun c => by
    rw [Bool.eq_iff_iff, isRevoked_iff, isRevoked_iff, hvoided]
  refine ⟨fun now hnow key => ?_, fun pair => newest_of_voided (hvoided pair), hrev,
    verifyChain_congr (hone.roots.trans htwo.roots.symm) hrev⟩
  refine (List.perm_ext_iff_of_nodup ((hone.sane.distinct key).of_map.filter _)
    ((htwo.sane.distinct key).of_map.filter _)).mpr fun c => ?_
  rw [hone.usable_iff h.sane.filed hnow, htwo.usable_iff h.sane.filed hnow, hseen, hrev]

/-- The node with key `[issuer]` takes back what it said of the node with key `[subject]` up to `0`. -/
def plainRevocation (issuer subject : UInt8) : Bytes :=
  let message := signingInput 0 (plain.fromPublicKey [subject]).raw 1
  toBE 1 version ++ (toBE 8 0 ++ ((plain.fromPublicKey [subject]).raw ++ (toBE 1 1 ++ (toBE 2 1 ++
    (toBE 2 message.length ++ (issuer :: message))))))

theorem revoked_both_ways :
    (parse plain (plainRevocation 1 3)).isSome = true ∧
    ∀ chain now,
      (run (receive 0) (CertStore.new plain (plain.fromPublicKey [1]) 3 2 8)
        [.add (plainCert 3 1), .revoke (plainRevocation 1 3)]).verifyChain chain now =
      (run (receive 0) (CertStore.new plain (plain.fromPublicKey [1]) 3 2 8)
        [.revoke (plainRevocation 1 3), .add (plainCert 3 1), .revoke (plainRevocation 1 3)]).verifyChain
          chain now := by
  refine ⟨by decide +kernel, ?_⟩
  have hreach : Reachable (fun _ => True) (CertStore.new plain (plain.fromPublicKey [1]) 3 2 8) 0 :=
    ⟨_, 3, 2, 8, [], trivial, rfl⟩
  have hb : Binding fun _ : Certificate plain => True := fun c c' _ _ h => by
    have hsig : ∀ c : Certificate plain, c.signature = c.body := fun c => of_decide_eq_true c.verified
    rw [← hsig, ← hsig, h]
  refine (order_irrelevant hb hreach (fun op hop => ?_) (fun op => ?_) ⟨?_, fun key => ?_, ?_⟩ 0).2.2.2
  · rcases List.mem_pair.mp hop with rfl | rfl <;> trivial
  · simp only [List.mem_cons, List.not_mem_nil, or_false]
    tauto
  · decide
  · refine (List.toFinset_card_le _).trans ?_
    refine (List.length_filter_le _ _).trans ?_
    decide
  · exact (List.toFinset_card_le _).trans (by decide +kernel)

end NMesh.Cert.Order
