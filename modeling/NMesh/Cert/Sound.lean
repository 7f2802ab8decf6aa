import NMesh.Cert.Memo

/-! # Every chain answered verifies

What `getChainToRoot` answers is a chain that `verifyChain` accepts at that moment, remembered or not: no
operation leaves a chain in the memo whose root is no longer trusted or one of whose certificates has been
taken back (`stands_rule`), and an entry is not used once a certificate of it has died. -/

namespace NMesh.Cert.Sound

open Base.BigEndian NMesh.Cert.Identity NMesh.Cert.Store
open NMesh.Cert.Store.CertStore NMesh.Cert.Walk NMesh.Cert.Upkeep NMesh.Cert.Memo

variable {K : Crypto} {P : Certificate K → Prop} {s s' : CertStore K} {T clock : ℕ}
  {target : NodeID} {chain : List (Certificate K)}

/-- A chain from `target` to a trusted root, none of whose certificates has been taken back. -/
structure Standing (P : Certificate K → Prop) (s : CertStore K) (target : NodeID)
    (chain : List (Certificate K)) : Prop where
  head : chain.head?.map Certificate.subjectId = some target
  linked : chain.IsChain fun c c' => c.issuerId = c'.subjectId
  last : ∃ l, chain.getLast? = some l ∧ l.isSelfSigned = true ∧ l.subjectId ∈ s.roots
  valid : ∀ c ∈ chain, s.isRevoked c = false ∧ P c

theorem Standing.congr (h : Standing P s target chain) (hr : s'.roots = s.roots)
    (hv : s'.revoked = s.revoked) : Standing P s' target chain where
  head := h.head
  linked := h.linked
  last := by rw [hr]; exact h.last
  valid c hc := by
    have := h.valid c hc
    unfold isRevoked at this ⊢
    rw [hv]; exact this

def Stands (P : Certificate K → Prop) : Said K := fun _ s target chain =>
  ∀ c, chain = some c → Standing P s target c

theorem build_standing (hs : Sane P s) (h : s.buildChainToRoot target clock = some chain) :
    Standing P s target chain := by
  obtain ⟨x, hx⟩ := build_chainTo hs.filed h
  refine ⟨hx.head, hx.linked, ?_, fun c hc => ?_⟩
  · obtain ⟨l, hl, hself, rfl⟩ := hx.last
    exact ⟨l, hl, hself, hx.root⟩
  · obtain ⟨hheld, hu⟩ := hx.held c hc
    simp only [usable, Bool.and_eq_true, Bool.not_eq_true'] at hu
    exact ⟨hu.2, hs.known _ c hheld⟩

theorem stands_rule (P : Certificate K → Prop) : Rule P (Stands P) where
  built hs _ _ _ hc := build_standing hs hc
  later _ h := h
  same hs h c hc := (h c hc).congr hs.roots hs.revoked
  own hs h c hc := (h c hc).congr hs.roots hs.revoked

/-! ### What the verifier checks -/

theorem links_all {keys : Set Bytes} (hkeys : keys.InjOn K.fromPublicKey) :
    ∀ {chain : List (Certificate K)}, chain.IsChain (fun c c' => c.issuerId = c'.subjectId) →
      (∀ c ∈ chain, c.subjectPub ∈ keys ∧ c.issuerPub ∈ keys) →
      ((chain.zip chain.tail).all fun p =>
        decide (p.1.issuerId = p.2.subjectId) && decide (p.1.issuerPub = p.2.subjectPub)) = true
  | [], _, _ => rfl
  | [_], _, _ => rfl
  | c :: c' :: chain, hl, hk => by
    obtain ⟨hlink, hrest⟩ := List.isChain_cons_cons.mp hl
    have hpub : c.issuerPub = c'.subjectPub := by
      refine hkeys (hk c (by simp)).2 (hk c' (by simp)).1 ?_
      rw [c.issuer_ok, c'.subject_ok, hlink]
    have ih := links_all hkeys hrest fun a ha => hk a (List.mem_cons_of_mem c ha)
    simp only [List.tail_cons, List.zip_cons_cons, List.all_cons, hlink, hpub, decide_true,
      Bool.and_self, Bool.true_and]
    exact ih

theorem Standing.verifies {keys : Set Bytes} (hkeys : keys.InjOn K.fromPublicKey)
    (hP : ∀ c, P c → c.subjectPub ∈ keys ∧ c.issuerPub ∈ keys) (h : Standing P s target chain)
    (halive : ∀ c ∈ chain, c.isExpired clock = false) :
    ∃ l, chain.getLast? = some l ∧ l.subjectId ∈ s.roots ∧
      s.verifyChain chain clock = some l.subjectId := by
  obtain ⟨l, hl, hself, hroot⟩ := h.last
  refine ⟨l, hl, hroot, ?_⟩
  have husable : chain.all (s.usable clock) = true := by
    refine List.all_eq_true.mpr fun c hc => ?_
    rw [usable, halive c hc, (h.valid c hc).1]; rfl
  have hlinks := links_all hkeys h.linked fun c hc => hP c (h.valid c hc).2
  unfold verifyChain
  rw [husable, hlinks, hl]
  simp [hself, hroot]

/-- The certificate's keys are among `keys`. -/
def KeysIn (keys : Set Bytes) (c : Certificate K) : Prop := c.subjectPub ∈ keys ∧ c.issuerPub ∈ keys

/-- **Every chain answered verifies**, where the keys in use have different ids: it starts at its target,
and the verifier returns the subject it ends on, a root trusted now. -/
theorem answer_verifies {keys : Set Bytes} (hkeys : keys.InjOn K.fromPublicKey)
    (h : Reachable (KeysIn keys) s T) (hT : T ≤ clock)
    (hanswer : (s.getChainToRoot target none clock).1 = some chain) :
    ∃ first last, chain.head? = some first ∧ first.subjectId = target ∧
      chain.getLast? = some last ∧
      last.subjectId ∈ (s.getChainToRoot target none clock).2.roots ∧
      (s.getChainToRoot target none clock).2.verifyChain chain clock = some last.subjectId := by
  have hR := stands_rule (KeysIn (K := K) keys)
  obtain ⟨hsaid, hgood⟩ := (memo_reachable hR h).answer hR h.sane hT target
  rw [hanswer] at hgood
  have hsame := sameGraph_lookup s target none clock
  have hstands := (hsaid chain hanswer).congr hsame.roots hsame.revoked
  obtain ⟨last, hlast, hroot, hverify⟩ :=
    hstands.verifies hkeys (fun c hc => hc) (not_isExpired_of_earliestExpiry hgood)
  obtain ⟨first, hfirst, htarget⟩ := Option.map_eq_some_iff.mp hstands.head
  exact ⟨first, last, hfirst, htarget, hlast, hroot, hverify⟩

theorem inviter_verifies : ∃ first last, [plainCert 1 2, plainCert 2 2].head? = some first ∧
    first.subjectId = plain.fromPublicKey [1] ∧
      [plainCert 1 2, plainCert 2 2].getLast? = some last ∧
      last.subjectId ∈ (inviter.getChainToRoot (plain.fromPublicKey [1]) none 0).2.roots ∧
      (inviter.getChainToRoot (plain.fromPublicKey [1]) none 0).2.verifyChain
        [plainCert 1 2, plainCert 2 2] 0 = some last.subjectId := by
  have hkeys : ({[1], [2], [3]} : Set Bytes).InjOn plain.fromPublicKey := by
    rintro a (rfl | rfl | rfl) b (rfl | rfl | rfl) h <;> first | rfl | exact absurd h (by decide)
  refine answer_verifies hkeys (reachable_inviter ?_) le_rfl (by decide)
  simp [KeysIn, plainCert]

end NMesh.Cert.Sound
