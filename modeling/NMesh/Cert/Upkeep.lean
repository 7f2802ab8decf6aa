import NMesh.Base.Runs
import NMesh.Cert.Walk

/-! # What the operations do to the store

Every operation but `add` only takes certificates away (`Shrinks`), and `add` files one certificate under
its subject first. So a store reached from a new one is in order (`Sane`): each certificate is filed under
its subject and was taken in, no subject has two with one signature, and our own id is a root. -/

namespace NMesh.Cert.Upkeep

open Base.BigEndian Base.Ordered Base.Runs NMesh.Cert.Identity NMesh.Cert.Store
open NMesh.Cert.Store.CertStore NMesh.Cert.Walk

variable {K : Crypto} {P : Certificate K → Prop} {s s' : CertStore K}

/-- **A store in order**, its certificates all among `P`. -/
structure Sane (P : Certificate K → Prop) (s : CertStore K) : Prop where
  filed : Filed s
  known : ∀ key, ∀ c ∈ s.held key, P c
  distinct : ∀ key, ((s.held key).map Certificate.signature).Nodup
  own : s.ownId ∈ s.roots

/-- From `s` to `s'` certificates were only taken away. -/
structure Shrinks (s s' : CertStore K) : Prop where
  held : ∀ key, (s'.held key).Sublist (s.held key)
  roots : s'.roots = s.roots
  revoked : s'.revoked = s.revoked
  ownId : s'.ownId = s.ownId
  bound : s'.maxPerSubject = s.maxPerSubject

theorem Shrinks.refl (s : CertStore K) : Shrinks s s :=
  ⟨fun _ => .refl _, rfl, rfl, rfl, rfl⟩

theorem Shrinks.trans {s'' : CertStore K} (h : Shrinks s s') (h' : Shrinks s' s'') : Shrinks s s'' :=
  ⟨fun key => (h'.held key).trans (h.held key), h'.roots.trans h.roots, h'.revoked.trans h.revoked,
    h'.ownId.trans h.ownId, h'.bound.trans h.bound⟩

theorem Sane.of_sublist (h : Sane P s) (hheld : ∀ key, (s'.held key).Sublist (s.held key))
    (hown : s'.ownId ∈ s'.roots) : Sane P s' where
  filed key c hc := h.filed key c ((hheld key).subset hc)
  known key c hc := h.known key c ((hheld key).subset hc)
  distinct key := (h.distinct key).sublist ((hheld key).map _)
  own := hown

theorem Sane.shrink (h : Sane P s) (hs : Shrinks s s') : Sane P s' :=
  h.of_sublist hs.held (by rw [hs.ownId, hs.roots]; exact h.own)

/-! ### Certificates held -/

theorem held_set (s : CertStore K) (key key' : NodeID) (l : List (Certificate K)) :
    ({ s with certs := s.certs.set key l } : CertStore K).held key' =
      if key = key' then l else s.held key' := by
  unfold held
  dsimp only
  rw [Dict.get?_set]
  split_ifs <;> rfl

theorem held_pop (s : CertStore K) (key key' : NodeID) :
    ({ s with certs := s.certs.pop key } : CertStore K).held key' =
      if key' = key then [] else s.held key' := by
  unfold held
  dsimp only
  rw [Dict.get?_pop]
  split_ifs <;> rfl

theorem held_touch (s : CertStore K) (key key' : NodeID) : (s.touch key).held key' = s.held key' := by
  unfold touch
  cases h : s.certs.get? key with
  | none => rfl
  | some entry =>
    dsimp only
    unfold held
    dsimp only
    rw [Dict.get?_set, Dict.get?_pop]
    by_cases hk : key = key'
    · subst hk; rw [if_pos rfl, h]
    · rw [if_neg hk, if_neg (Ne.symm hk)]

theorem touch_fields (s : CertStore K) (key : NodeID) : (s.touch key).roots = s.roots ∧
    (s.touch key).revoked = s.revoked ∧ (s.touch key).ownId = s.ownId ∧
      (s.touch key).chains = s.chains ∧ (s.touch key).maxPerSubject = s.maxPerSubject := by
  unfold touch
  cases s.certs.get? key <;> exact ⟨rfl, rfl, rfl, rfl, rfl⟩

theorem shrinks_touch (s : CertStore K) (key : NodeID) : Shrinks s (s.touch key) :=
  ⟨fun key' => by rw [held_touch], (touch_fields s key).1, (touch_fields s key).2.1,
    (touch_fields s key).2.2.1, (touch_fields s key).2.2.2.2⟩

theorem shrinks_pop (s : CertStore K) (key : NodeID) :
    Shrinks s { s with certs := s.certs.pop key } :=
  ⟨fun key' => by
    rw [held_pop]
    split_ifs
    · exact List.nil_sublist _
    · exact .refl _, rfl, rfl, rfl, rfl⟩

theorem shrinks_set (s : CertStore K) (key : NodeID) {l : List (Certificate K)}
    (h : l.Sublist (s.held key)) : Shrinks s { s with certs := s.certs.set key l } :=
  ⟨fun key' => by
    rw [held_set]
    split_ifs with hk
    · rw [← hk]; exact h
    · exact .refl _, rfl, rfl, rfl, rfl⟩

/-! ### The memo -/

theorem getChainToRoot_frame (s : CertStore K) (target : NodeID) (now : Option ℕ) (clock : ℕ) :
    (s.getChainToRoot target now clock).2 =
      { s with chains := (s.getChainToRoot target now clock).2.chains } := by
  unfold getChainToRoot
  cases now with
  | some now => rfl
  | none =>
    dsimp only
    cases s.chains.get? target with
    | none => rfl
    | some p => dsimp only; split_ifs <;> rfl

theorem shrinks_lookup (s : CertStore K) (target : NodeID) (now : Option ℕ) (clock : ℕ) :
    Shrinks s (s.getChainToRoot target now clock).2 := by
  rw [getChainToRoot_frame]
  exact ⟨fun _ => .refl _, rfl, rfl, rfl, rfl⟩

theorem pinned_cases (s : CertStore K) (clock : ℕ) (key : NodeID) :
    s.pinned clock key = (true, s) ∨ key ∉ s.roots ∧ s.pinned clock key =
      (decide (key ∈ (s.ownChainSubjects clock).1), (s.getChainToRoot s.ownId none clock).2) := by
  unfold pinned
  split_ifs with hr
  · exact Or.inl rfl
  · exact Or.inr ⟨hr, rfl⟩

/-- What looking up our own chain keeps, looking for an unpinned subject keeps; the subject found was not
pinned at the last of these lookups. -/
theorem firstUnpinned_induct {Q : CertStore K → Prop} {clock : ℕ}
    (hlook : ∀ s, Q s → Q (s.getChainToRoot s.ownId none clock).2) :
    ∀ (keys : List NodeID) (s : CertStore K), Q s → Q (s.firstUnpinned clock keys).2 ∧
      ∀ victim, (s.firstUnpinned clock keys).1 = some victim → ∃ s1, Q s1 ∧ victim ∉ s1.roots ∧
        victim ∉ (s1.ownChainSubjects clock).1 ∧
        (s.firstUnpinned clock keys).2 = (s1.getChainToRoot s1.ownId none clock).2
  | [], s, h => ⟨h, fun victim hv => by cases hv⟩
  | key :: keys, s, h => by
    unfold firstUnpinned
    rcases pinned_cases s clock key with hp | ⟨hr, hp⟩
    · rw [hp]
      exact firstUnpinned_induct hlook keys s h
    · rw [hp]
      dsimp only
      split_ifs with hk
      · exact firstUnpinned_induct hlook keys _ (hlook s h)
      · refine ⟨hlook s h, fun victim hv => ?_⟩
        cases hv
        exact ⟨s, h, hr, fun hmem => hk (decide_eq_true hmem), rfl⟩

theorem enforceBounds_induct {Q : CertStore K → Prop} {clock : ℕ}
    (hlook : ∀ s, Q s → Q (s.getChainToRoot s.ownId none clock).2)
    (hpop : ∀ s victim, Q s → victim ∉ s.roots → victim ∉ (s.ownChainSubjects clock).1 →
      Q { (s.getChainToRoot s.ownId none clock).2 with
        certs := (s.getChainToRoot s.ownId none clock).2.certs.pop victim }) :
    ∀ (n : ℕ) (s : CertStore K), Q s → Q (enforceBounds clock n s)
  | 0, s, h => h
  | n + 1, s, h => by
    unfold enforceBounds
    split_ifs
    · obtain ⟨hu, hvictim⟩ := firstUnpinned_induct hlook s.certs.keys s h
      rcases hf : s.firstUnpinned clock s.certs.keys with ⟨_ | victim, s1⟩
      · rw [hf] at hu; exact hu
      · rw [hf] at hvictim
        obtain ⟨s0, h0, hr, hown, rfl⟩ := hvictim victim rfl
        exact enforceBounds_induct hlook hpop n _ (hpop s0 victim h0 hr hown)
    · exact h

theorem shrinks_enforceBounds (clock n : ℕ) (s : CertStore K) :
    Shrinks s (enforceBounds clock n s) :=
  enforceBounds_induct (Q := Shrinks s)
    (fun s1 h => h.trans (shrinks_lookup s1 s1.ownId none clock))
    (fun s1 key h _ _ => (h.trans (shrinks_lookup s1 s1.ownId none clock)).trans (shrinks_pop _ key))
    n s (.refl s)

theorem trim_sublist (loadBearing : List Bytes) (max : ℕ) : ∀ (n : ℕ)
    (existing : List (Certificate K)), (trim loadBearing max n existing).Sublist existing
  | 0, existing => .refl _
  | n + 1, existing => by
    unfold trim
    split_ifs
    · split
      · exact .refl _
      · exact (trim_sublist loadBearing max n _).trans List.erase_sublist
    · exact .refl _

/-! ### Taking a certificate in -/

theorem chainSignatures_store (s : CertStore K) (clock : ℕ) :
    (s.chainSignatures clock).2 = (s.getChainToRoot s.ownId none clock).2 := rfl

theorem shrinks_subjectBound (s : CertStore K) (key : NodeID) (clock : ℕ) :
    Shrinks s (s.enforceSubjectBound key clock) := by
  unfold enforceSubjectBound
  dsimp only
  split_ifs
  · have hl := shrinks_lookup s s.ownId none clock
    refine hl.trans (shrinks_set _ key ?_)
    have hheld : ((s.chainSignatures clock).2.held key) = s.held key := by
      rw [chainSignatures_store, getChainToRoot_frame]; rfl
    rw [← chainSignatures_store, hheld]
    exact trim_sublist _ _ _ _
  · exact .refl s

/-- **What `add` does**: nothing; or it makes the subject the most recently mentioned; or it files the
certificate and takes certificates away. -/
theorem add_cases (s : CertStore K) (cert : Certificate K) (clock : ℕ) :
    (s.add cert clock).2 = s ∨
    (s.add cert clock).2 = s.touch cert.subjectId ∨
    cert.isExpired clock = false ∧ s.isRevoked cert = false ∧
      (∀ e ∈ s.held cert.subjectId, e.signature ≠ cert.signature) ∧
      ∃ n, (s.add cert clock).2 = enforceBounds clock n
        (((s.file cert).enforceSubjectBound cert.subjectId clock).touch cert.subjectId) := by
  unfold add
  by_cases hrej : (cert.isExpired clock || s.isRevoked cert) = true
  · rw [if_pos hrej]
    exact Or.inl rfl
  · rw [if_neg hrej]
    dsimp only
    obtain ⟨h1, h2⟩ := Bool.or_eq_false_iff.mp (Bool.eq_false_iff.mpr hrej)
    by_cases hdup : ((s.held cert.subjectId).any fun e => e.signature = cert.signature) = true
    · rw [if_pos hdup]
      exact Or.inr (Or.inl rfl)
    · rw [if_neg hdup]
      refine Or.inr (Or.inr ⟨h1, h2, fun e he heq => hdup ?_, _, rfl⟩)
      exact List.any_eq_true.mpr ⟨e, he, decide_eq_true heq⟩

theorem shrinks_file (s : CertStore K) (cert : Certificate K) (clock n : ℕ) :
    Shrinks (s.file cert) (enforceBounds clock n
      (((s.file cert).enforceSubjectBound cert.subjectId clock).touch cert.subjectId)) :=
  ((shrinks_subjectBound _ _ clock).trans (shrinks_touch _ _)).trans (shrinks_enforceBounds clock n _)

theorem held_file (s : CertStore K) (cert : Certificate K) (key : NodeID) :
    (s.file cert).held key =
      if cert.subjectId = key then s.held cert.subjectId ++ [cert] else s.held key :=
  held_set { s with chains := Dict.empty } cert.subjectId key _

variable {cert : Certificate K}

theorem mem_held_file {c : Certificate K} {key : NodeID} :
    c ∈ (s.file cert).held key ↔ c ∈ s.held key ∨ c = cert ∧ cert.subjectId = key := by
  rw [held_file]
  split_ifs with hk
  · subst hk; simp
  · simp [hk]

theorem Sane.file (h : Sane P s) (hc : P cert)
    (hnew : ∀ e ∈ s.held cert.subjectId, e.signature ≠ cert.signature) : Sane P (s.file cert) where
  filed key c hmem := by
    rcases mem_held_file.mp hmem with hmem | ⟨rfl, hk⟩
    · exact h.filed key c hmem
    · exact hk
  known key c hmem := by
    rcases mem_held_file.mp hmem with hmem | ⟨rfl, -⟩
    · exact h.known key c hmem
    · exact hc
  distinct key := by
    rw [held_file]
    split_ifs with hk
    · rw [List.map_append]
      refine List.nodup_append.mpr ⟨h.distinct _, List.nodup_singleton _, fun a ha b hb => ?_⟩
      obtain ⟨e, he, rfl⟩ := List.mem_map.mp ha
      rw [List.mem_singleton.mp hb]
      exact hnew e he
    · exact h.distinct key
  own := h.own

theorem Sane.add (h : Sane P s) (hc : P cert) (clock : ℕ) : Sane P (s.add cert clock).2 := by
  rcases add_cases s cert clock with he | he | ⟨-, -, hnew, n, he⟩ <;> rw [he]
  · exact h
  · exact h.shrink (shrinks_touch s _)
  · exact (h.file hc hnew).shrink (shrinks_file s cert clock n)

/-! ### Taking certificates back -/

theorem enforceRevocationBound_frame : ∀ (n : ℕ) (s : CertStore K),
    enforceRevocationBound n s = { s with revoked := (enforceRevocationBound n s).revoked }
  | 0, s => rfl
  | n + 1, s => by
    unfold enforceRevocationBound
    split_ifs
    · split
      · rfl
      · exact enforceRevocationBound_frame n _
    · rfl

theorem dropVoided_spec (s : CertStore K) (subject : NodeID) :
    Shrinks s (s.dropVoided subject) ∧ (s.dropVoided subject).chains = s.chains := by
  unfold dropVoided
  dsimp only
  by_cases hv : (s.held subject).filter s.isRevoked = []
  · rw [if_pos hv]
    exact ⟨.refl s, rfl⟩
  · rw [if_neg hv]
    by_cases hl : (s.held subject).filter (· ∉ (s.held subject).filter s.isRevoked) = []
    · rw [if_pos hl]
      exact ⟨shrinks_pop s subject, rfl⟩
    · rw [if_neg hl]
      exact ⟨shrinks_set s subject List.filter_sublist, rfl⟩

theorem revoke_cases (s : CertStore K) (record : Bytes) : (s.revoke record).2 = s ∨
    (∀ key, ((s.revoke record).2.held key).Sublist (s.held key)) ∧
      (s.revoke record).2.roots = s.roots ∧ (s.revoke record).2.ownId = s.ownId ∧
      (s.revoke record).2.maxPerSubject = s.maxPerSubject ∧
      (s.revoke record).2.chains = Dict.empty := by
  unfold revoke
  split
  · exact Or.inl rfl
  · next parsed _ =>
    dsimp only
    split_ifs with hold
    · exact Or.inl rfl
    · right
      set s1 : CertStore K := { s with
        revoked := s.revoked.set (parsed.issuerId, parsed.subjectId)
          ⟨parsed.issuedAt, parsed.reason, record⟩
        chains := Dict.empty }
      have hframe := enforceRevocationBound_frame s1.revoked.size s1
      obtain ⟨hshrink, hchains⟩ :=
        dropVoided_spec (enforceRevocationBound s1.revoked.size s1) parsed.subjectId
      rw [hframe] at hshrink hchains
      rw [hframe]
      exact ⟨hshrink.held, hshrink.roots, hshrink.ownId, hshrink.bound, hchains⟩

theorem pruneSubject_spec (stamp : ℕ) {s s1 : CertStore K} (removed : ℕ)
    {e : NodeID × List (Certificate K)} (he : s.certs.get? e.1 = some e.2)
    (hs : ∀ key, (s1.held key).Sublist (s.held key)) :
    let p := pruneSubject stamp (s1.certs, removed) e
    (∀ key, (({ s1 with certs := p.1 } : CertStore K).held key).Sublist (s.held key)) ∧
      (p.2 = 0 → removed = 0 ∧ p.1 = s1.certs) := by
  have hheld : s.held e.1 = e.2 := by rw [held, he]; rfl
  unfold pruneSubject
  dsimp only
  split_ifs with hlen hnil
  · exact ⟨hs, fun h => ⟨h, rfl⟩⟩
  · refine ⟨fun key => ((shrinks_pop s1 e.1).held key).trans (hs key), fun h => ?_⟩
    have := List.length_filter_le (fun c : Certificate K => !c.isExpired stamp) e.2
    omega
  · refine ⟨fun key => ?_, fun h => ?_⟩
    · rw [held_set]
      split_ifs with hk
      · subst hk; rw [hheld]; exact List.filter_sublist
      · exact hs key
    · have := List.length_filter_le (fun c : Certificate K => !c.isExpired stamp) e.2
      omega

theorem pruneFold_spec (stamp : ℕ) {s : CertStore K} : ∀ (es : List (NodeID × List (Certificate K)))
    (s1 : CertStore K) (removed : ℕ), (∀ e ∈ es, s.certs.get? e.1 = some e.2) →
    (∀ key, (s1.held key).Sublist (s.held key)) →
    let p := es.foldl (pruneSubject stamp) (s1.certs, removed)
    (∀ key, (({ s1 with certs := p.1 } : CertStore K).held key).Sublist (s.held key)) ∧
      (p.2 = 0 → removed = 0 ∧ p.1 = s1.certs)
  | [], s1, removed, _, hs => ⟨hs, fun h => ⟨h, rfl⟩⟩
  | e :: es, s1, removed, he, hs => by
    obtain ⟨h1, h2⟩ := pruneSubject_spec stamp removed (he e List.mem_cons_self) hs
    rw [List.foldl_cons]
    rcases hp : pruneSubject stamp (s1.certs, removed) e with ⟨certs, removed'⟩
    rw [hp] at h1 h2
    obtain ⟨h3, h4⟩ := pruneFold_spec stamp es { s1 with certs := certs } removed'
      (fun e he' => he e (List.mem_cons_of_mem _ he')) h1
    refine ⟨h3, fun h => ?_⟩
    obtain ⟨h5, h6⟩ := h4 h
    obtain ⟨h7, h8⟩ := h2 h5
    exact ⟨h7, h6.trans h8⟩

theorem pruneExpired_cases (s : CertStore K) (now : Option ℕ) (clock : ℕ) :
    (s.pruneExpired now clock).2 = s ∨
    Shrinks s (s.pruneExpired now clock).2 ∧ (s.pruneExpired now clock).2.chains = Dict.empty := by
  have hfold := pruneFold_spec (now.getD clock) (s := s) s.certs.entries s 0
    (fun e he => Dict.get?_eq_some.mpr he) (fun _ => .refl _)
  unfold pruneExpired
  rcases hp : s.certs.entries.foldl (pruneSubject (now.getD clock)) (s.certs, 0) with
    ⟨certs, removed⟩
  rw [hp] at hfold
  dsimp only at hfold ⊢
  by_cases hr : removed = 0
  · rw [if_pos hr, (hfold.2 hr).2]
    exact Or.inl rfl
  · rw [if_neg hr]
    exact Or.inr ⟨⟨hfold.1, rfl, rfl, rfl, rfl⟩, rfl⟩

/-- An operation that takes nothing in and looks nothing up leaves the store as it is or empties the memo. -/
theorem emptied_cases (s : CertStore K) (clock : ℕ) (op : Op K) :
    (∃ cert, op = .add cert) ∨ (∃ target now, op = .lookup target now) ∨ s.step (clock, op) = s ∨
      (s.step (clock, op)).chains = Dict.empty := by
  cases op with
  | add cert => exact .inl ⟨cert, rfl⟩
  | addRoot nodeId => exact .inr (.inr (.inr rfl))
  | removeRoot nodeId =>
    refine .inr (.inr ?_)
    change (s.removeRoot nodeId).2 = s ∨ (s.removeRoot nodeId).2.chains = Dict.empty
    unfold removeRoot
    split_ifs
    · exact .inl rfl
    · exact .inr rfl
  | revoke record => exact .inr (.inr ((revoke_cases s record).imp id fun h => h.2.2.2.2))
  | pruneExpired now => exact .inr (.inr ((pruneExpired_cases s now clock).imp id And.right))
  | lookup target now => exact .inr (.inl ⟨target, now, rfl⟩)

theorem maxPerSubject_step (s : CertStore K) (act : ℕ × Op K) :
    (s.step act).maxPerSubject = s.maxPerSubject := by
  obtain ⟨clock, op⟩ := act
  cases op with
  | add cert =>
    change (s.add cert clock).2.maxPerSubject = s.maxPerSubject
    rcases add_cases s cert clock with he | he | ⟨-, -, -, n, he⟩ <;> rw [he]
    · exact (touch_fields s _).2.2.2.2
    · exact (shrinks_file s cert clock n).bound
  | addRoot nodeId => rfl
  | removeRoot nodeId =>
    change (s.removeRoot nodeId).2.maxPerSubject = s.maxPerSubject
    unfold removeRoot
    split_ifs <;> rfl
  | revoke record =>
    change (s.revoke record).2.maxPerSubject = s.maxPerSubject
    rcases revoke_cases s record with he | ⟨-, -, -, hb, -⟩
    · rw [he]
    · exact hb
  | pruneExpired now =>
    change (s.pruneExpired now clock).2.maxPerSubject = s.maxPerSubject
    rcases pruneExpired_cases s now clock with he | ⟨hs, -⟩
    · rw [he]
    · exact hs.bound
  | lookup target now => exact (shrinks_lookup s target now clock).bound

/-! ### Runs -/

/-- The certificates a run takes in are among `P`. -/
def Adds (P : Certificate K → Prop) : ℕ × Op K → Prop
  | (_, .add cert) => P cert
  | _ => True

theorem Sane.step (h : Sane P s) {act : ℕ × Op K} (ha : Adds P act) : Sane P (s.step act) := by
  obtain ⟨clock, op⟩ := act
  cases op with
  | add cert => exact h.add ha clock
  | addRoot nodeId => exact ⟨h.filed, h.known, h.distinct, Finset.mem_insert_of_mem h.own⟩
  | removeRoot nodeId =>
    change Sane P (s.removeRoot nodeId).2
    unfold removeRoot
    split_ifs with hr
    · exact h
    · refine ⟨h.filed, h.known, h.distinct, Finset.mem_erase.mpr ⟨?_, h.own⟩⟩
      exact fun he => hr (Or.inl he.symm)
  | revoke record =>
    rcases revoke_cases s record with he | ⟨hheld, hroots, hown, -, -⟩
    · change Sane P (s.revoke record).2
      rw [he]; exact h
    · exact h.of_sublist hheld (by
        change (s.revoke record).2.ownId ∈ (s.revoke record).2.roots
        rw [hroots, hown]; exact h.own)
  | pruneExpired now =>
    rcases pruneExpired_cases s now clock with he | ⟨hs, -⟩
    · change Sane P (s.pruneExpired now clock).2
      rw [he]; exact h
    · exact h.shrink hs
  | lookup target now => exact h.shrink (shrinks_lookup s target now clock)

theorem sane_new (P : Certificate K → Prop) (ownId : NodeID) (maxSubjects maxPerSubject maxRev : ℕ) :
    Sane P (CertStore.new K ownId maxSubjects maxPerSubject maxRev) where
  filed key c hc := by cases hc
  known key c hc := by cases hc
  distinct key := List.nodup_nil
  own := Finset.mem_singleton_self ownId

/-- A store with the clock's last reading, and one operation on it. -/
def tick (p : CertStore K × ℕ) (act : ℕ × Op K) : CertStore K × ℕ := (p.1.step act, act.1)

/-- The clock does not go back, and what is taken in is among `P`. -/
def Timely (P : Certificate K → Prop) (p : CertStore K × ℕ) (act : ℕ × Op K) : Prop :=
  p.2 ≤ act.1 ∧ Adds P act

/-- **A store that a run leads to from a new one**, the clock standing at `T`. -/
def Reachable (P : Certificate K → Prop) (s : CertStore K) (T : ℕ) : Prop :=
  ∃ (ownId : NodeID) (maxSubjects maxPerSubject maxRev : ℕ) (acts : List (ℕ × Op K)),
    Guarded tick (Timely P) (CertStore.new K ownId maxSubjects maxPerSubject maxRev, 0) acts ∧
      run tick (CertStore.new K ownId maxSubjects maxPerSubject maxRev, 0) acts = (s, T)

theorem Reachable.induct {Q : CertStore K → ℕ → Prop} {T : ℕ} (h : Reachable P s T)
    (hnew : ∀ ownId a b c, Q (CertStore.new K ownId a b c) 0)
    (hstep : ∀ s T act, Q s T → T ≤ act.1 → Adds P act → Q (s.step act) act.1) : Q s T := by
  obtain ⟨ownId, a, b, c, acts, hg, hrun⟩ := h
  have := hg.run_induct (P := fun p : CertStore K × ℕ => Q p.1 p.2)
    (fun p act hp ha => hstep p.1 p.2 act hp ha.1 ha.2) (hnew ownId a b c)
  rw [hrun] at this
  exact this

theorem Reachable.step {T : ℕ} (h : Reachable P s T) {act : ℕ × Op K} (hT : T ≤ act.1)
    (ha : Adds P act) : Reachable P (s.step act) act.1 := by
  obtain ⟨ownId, a, b, c, acts, hg, hrun⟩ := h
  refine ⟨ownId, a, b, c, acts ++ [act], guarded_concat.mpr ⟨hg, ?_⟩, ?_⟩
  · rw [hrun]; exact ⟨hT, ha⟩
  · rw [run_concat, hrun]; rfl

theorem Reachable.sane {T : ℕ} (h : Reachable P s T) : Sane P s :=
  h.induct (Q := fun s _ => Sane P s) (sane_new P) fun _ _ _ hs _ ha => hs.step ha

/-- This node (`1`) was invited by the root `2`, and has invited `3` itself. -/
def inviting : List (ℕ × Op plain) :=
  [(0, .add (plainCert 1 1)), (0, .addRoot (plain.fromPublicKey [2])), (0, .add (plainCert 2 2)),
    (0, .add (plainCert 1 2)), (0, .add (plainCert 3 1))]

/-- The store of a node that was invited and invites, with room for three subjects and two certificates of
each. -/
def inviter : CertStore plain :=
  (run tick (CertStore.new plain (plain.fromPublicKey [1]) 3 2 8, 0) inviting).1

theorem reachable_inviter {P : Certificate plain → Prop}
    (h : ∀ c ∈ [plainCert 1 1, plainCert 2 2, plainCert 1 2, plainCert 3 1], P c) :
    Reachable P inviter 0 := by
  refine ⟨plain.fromPublicKey [1], 3, 2, 8, inviting, ?_, rfl⟩
  simp only [List.forall_mem_cons] at h
  obtain ⟨h1, h2, h3, h4, -⟩ := h
  exact ⟨⟨le_rfl, h1⟩, ⟨le_rfl, trivial⟩, ⟨le_rfl, h2⟩, ⟨le_rfl, h3⟩, ⟨le_rfl, h4⟩, trivial⟩

end NMesh.Cert.Upkeep
