import NMesh.Cert.Upkeep

/-! # Revocations that stand

The store drops revocations when it holds too many, but none that a trusted root made. So what a root has
taken back stays taken back (`Stands`), and our own id is always a root. -/

namespace NMesh.Cert.Standing

open Base.BigEndian Base.Ordered NMesh.Cert.Identity NMesh.Cert.Revocation
open NMesh.Cert.Store NMesh.Cert.Store.CertStore NMesh.Cert.Upkeep

variable {K : Crypto} {s s' : CertStore K} {root : NodeID}

/-- **What `root` has taken back in `s` is taken back in `s'`**, as of a moment no earlier. -/
def Stands (root : NodeID) (s s' : CertStore K) : Prop :=
  ∀ subject held, s.revoked.get? (root, subject) = some held →
    ∃ held', s'.revoked.get? (root, subject) = some held' ∧ held.issuedAt ≤ held'.issuedAt

namespace Stands

theorem of_eq (h : s'.revoked = s.revoked) : Stands root s s' := fun subject held hheld =>
  ⟨held, by rw [h]; exact hheld, le_rfl⟩

theorem refl (s : CertStore K) : Stands root s s := of_eq rfl

theorem trans {s'' : CertStore K} (h : Stands root s s') (h' : Stands root s' s'') :
    Stands root s s'' := by
  intro subject held hheld
  obtain ⟨held', hheld', hle⟩ := h subject held hheld
  obtain ⟨held'', hheld'', hle'⟩ := h' subject held' hheld'
  exact ⟨held'', hheld'', hle.trans hle'⟩

theorem isRevoked (h : Stands root s s') {cert : Certificate K} (hissuer : cert.issuerId = root)
    (hrev : s.isRevoked cert = true) : s'.isRevoked cert = true := by
  unfold CertStore.isRevoked at hrev ⊢
  rw [hissuer] at hrev ⊢
  cases hheld : s.revoked.get? (root, cert.subjectId) with
  | none =>
    rw [hheld] at hrev
    cases hrev
  | some held =>
    rw [hheld] at hrev
    obtain ⟨held', hheld', hle⟩ := h cert.subjectId held hheld
    rw [hheld']
    exact decide_eq_true ((of_decide_eq_true hrev).trans hle)

end Stands

theorem isRevoked_of_held {cert : Certificate K} {held : Revoked}
    (hheld : s.revoked.get? (cert.issuerId, cert.subjectId) = some held)
    (hle : cert.issuedAt ≤ held.issuedAt) : s.isRevoked cert = true := by
  unfold CertStore.isRevoked
  rw [hheld]
  exact decide_eq_true hle

/-! ### Taking a revocation in -/

theorem get?_enforceRevocationBound {key : NodeID × NodeID} : ∀ (n : ℕ) (s : CertStore K),
    key.1 ∈ s.roots → (enforceRevocationBound n s).revoked.get? key = s.revoked.get? key
  | 0, s, _ => rfl
  | n + 1, s, h => by
    unfold enforceRevocationBound
    split_ifs
    · split
      · rfl
      · next victim hfind =>
        have hvictim := List.find?_some hfind
        have hne : key ≠ victim := fun he => of_decide_eq_true hvictim (he ▸ h)
        exact (get?_enforceRevocationBound n { s with revoked := s.revoked.pop victim } h).trans
          (Dict.get?_pop_of_ne _ hne)
    · rfl

theorem revoked_dropVoided (s : CertStore K) (subject : NodeID) :
    (s.dropVoided subject).revoked = s.revoked := (dropVoided_spec s subject).1.revoked

def news (s : CertStore K) (parsed : Parsed) : Bool :=
  !(s.revoked.get? (parsed.issuerId, parsed.subjectId)).any fun held =>
    parsed.issuedAt ≤ held.issuedAt

variable {record : Bytes} {parsed : Parsed}

theorem revoke_stale (hparse : parse K record = some parsed)
    (hnews : news s parsed = false) : s.revoke record = (none, s) := by
  unfold news at hnews
  unfold revoke
  rw [hparse]
  exact if_pos (by simpa using hnews)

theorem revoke_news (hparse : parse K record = some parsed)
    (hnews : news s parsed = true) : (s.revoke record).1 = some parsed ∧
      ∀ key : NodeID × NodeID, key.1 ∈ s.roots → (s.revoke record).2.revoked.get? key =
        if (parsed.issuerId, parsed.subjectId) = key then
          some ⟨parsed.issuedAt, parsed.reason, record⟩
        else s.revoked.get? key := by
  unfold news at hnews
  unfold revoke
  rw [hparse]
  dsimp only
  rw [if_neg (by simpa using hnews)]
  refine ⟨rfl, fun key h => ?_⟩
  dsimp only
  rw [revoked_dropVoided, @get?_enforceRevocationBound _ key _ { s with
    revoked := s.revoked.set (parsed.issuerId, parsed.subjectId)
      ⟨parsed.issuedAt, parsed.reason, record⟩
    chains := Dict.empty } h, Dict.get?_set]

theorem news_false (h : news s parsed = false) :
    ∃ held, s.revoked.get? (parsed.issuerId, parsed.subjectId) = some held ∧
      parsed.issuedAt ≤ held.issuedAt := by
  unfold news at h
  cases hheld : s.revoked.get? (parsed.issuerId, parsed.subjectId) with
  | none =>
    rw [hheld] at h
    cases h
  | some held =>
    rw [hheld] at h
    exact ⟨held, rfl, by simpa using h⟩

theorem lt_of_news (h : news s parsed = true) {held : Revoked}
    (hheld : s.revoked.get? (parsed.issuerId, parsed.subjectId) = some held) :
    held.issuedAt < parsed.issuedAt := by
  unfold news at h
  rw [hheld] at h
  simpa using h

theorem stands_revoke (record : Bytes) (h : root ∈ s.roots) : Stands root s (s.revoke record).2 := by
  cases hparse : parse K record with
  | none => exact .of_eq (by unfold revoke; rw [hparse])
  | some parsed =>
    cases hnews : news s parsed with
    | false => exact .of_eq (by rw [revoke_stale hparse hnews])
    | true =>
      intro subject held hheld
      rw [(revoke_news hparse hnews).2 _ h]
      split_ifs with hkey
      · exact ⟨_, rfl, (lt_of_news hnews (by rw [hkey]; exact hheld)).le⟩
      · exact ⟨held, hheld, le_rfl⟩

theorem parse_of_revoke (h : (s.revoke record).1 = some parsed) : parse K record = some parsed := by
  cases hparse : parse K record with
  | none =>
    unfold revoke at h
    rw [hparse] at h
    cases h
  | some parsed' =>
    cases hnews : news s parsed' with
    | false =>
      rw [revoke_stale hparse hnews] at h
      cases h
    | true => exact (revoke_news hparse hnews).1.symm.trans h

/-- **A root's revocation is held once it was presented**, or a later one. -/
theorem revoke_holds (hparse : parse K record = some parsed) (h : parsed.issuerId ∈ s.roots) :
    ∃ held, (s.revoke record).2.revoked.get? (parsed.issuerId, parsed.subjectId) = some held ∧
      parsed.issuedAt ≤ held.issuedAt := by
  cases hnews : news s parsed with
  | false =>
    rw [revoke_stale hparse hnews]
    exact news_false hnews
  | true =>
    rw [(revoke_news hparse hnews).2 _ h, if_pos rfl]
    exact ⟨_, rfl, le_rfl⟩

/-! ### The other operations -/

theorem revoked_add (s : CertStore K) (cert : Certificate K) (clock : ℕ) :
    (s.add cert clock).2.revoked = s.revoked := by
  rcases add_cases s cert clock with he | he | ⟨-, -, -, n, he⟩ <;> rw [he]
  · exact (touch_fields s _).2.1
  · exact (shrinks_file s cert clock n).revoked

theorem revoked_step (s : CertStore K) (clock : ℕ) {op : Op K} (hop : ∀ record, op ≠ .revoke record) :
    (s.step (clock, op)).revoked = s.revoked := by
  cases op with
  | add cert => exact revoked_add s cert clock
  | addRoot nodeId => rfl
  | removeRoot nodeId =>
    show (s.removeRoot nodeId).2.revoked = s.revoked
    unfold removeRoot
    split_ifs <;> rfl
  | revoke record => exact absurd rfl (hop record)
  | pruneExpired now =>
    show (s.pruneExpired now clock).2.revoked = s.revoked
    rcases pruneExpired_cases s now clock with he | ⟨hs, -⟩
    · rw [he]
    · exact hs.revoked
  | lookup target now => exact (shrinks_lookup s target now clock).revoked

/-! ### Our own store -/

/-- The store is the node `me`'s own: that id is one of its roots. -/
structure Own (me : NodeID) (s : CertStore K) : Prop where
  ownId : s.ownId = me
  root : me ∈ s.roots

variable {me : NodeID}

theorem own_new (me : NodeID) (a b c : ℕ) : Own me (CertStore.new K me a b c) :=
  ⟨rfl, Finset.mem_singleton_self me⟩

theorem Own.shrink (h : Own me s) (hs : Shrinks s s') : Own me s' :=
  ⟨hs.ownId.trans h.ownId, by rw [hs.roots]; exact h.root⟩

theorem Own.add (h : Own me s) (cert : Certificate K) (clock : ℕ) : Own me (s.add cert clock).2 := by
  rcases add_cases s cert clock with he | he | ⟨-, -, -, n, he⟩ <;> rw [he]
  · exact h
  · exact h.shrink (shrinks_touch s _)
  · exact Own.shrink (s := s.file cert) ⟨h.ownId, h.root⟩ (shrinks_file s cert clock n)

theorem Own.revoke (h : Own me s) (record : Bytes) : Own me (s.revoke record).2 := by
  rcases revoke_cases s record with he | ⟨-, hroots, hown, -⟩
  · rw [he]
    exact h
  · exact ⟨hown.trans h.ownId, by rw [hroots]; exact h.root⟩

theorem Own.step (h : Own me s) (act : ℕ × Op K) : Own me (s.step act) := by
  obtain ⟨clock, op⟩ := act
  cases op with
  | add cert => exact h.add cert clock
  | addRoot nodeId => exact ⟨h.ownId, Finset.mem_insert_of_mem h.root⟩
  | removeRoot nodeId =>
    show Own me (s.removeRoot nodeId).2
    unfold removeRoot
    split_ifs with hkeep
    · exact h
    · refine ⟨h.ownId, Finset.mem_erase.mpr ⟨fun he => hkeep (Or.inl ?_), h.root⟩⟩
      exact he.symm.trans h.ownId.symm
  | revoke record => exact h.revoke record
  | pruneExpired now =>
    show Own me (s.pruneExpired now clock).2
    rcases pruneExpired_cases s now clock with he | ⟨hs, -⟩
    · rw [he]
      exact h
    · exact h.shrink hs
  | lookup target now => exact h.shrink (shrinks_lookup s target now clock)

end NMesh.Cert.Standing
