import NMesh.Cert.Memo

/-! # When the walk finds an external root

A walk does not pass our own id while we hold a usable self-signed certificate: it sets a chain that ends there
aside. So an issuance path to an external root that only leads there through this node is missed. The answer ends
outside exactly if there is a clear path, also when it comes from the memo (`finds_external_iff`). -/

namespace NMesh.Cert.Complete

open Relation NMesh.Base.Search
open NMesh.Cert.Identity
open NMesh.Cert.Store NMesh.Cert.Store.CertStore NMesh.Cert.Walk NMesh.Cert.Upkeep NMesh.Cert.Memo

variable {K : Crypto} {P : Certificate K → Prop} {s s' : CertStore K} {T t clock : ℕ}
  {target x y : NodeID} {chain : Option (List (Certificate K))}

/-! ### Certificates die, and are taken away -/

theorem usable_mono {c : Certificate K} (h : t ≤ clock) (hu : s.usable clock c = true) :
    s.usable t c = true := by
  simp only [usable, Bool.and_eq_true, Bool.not_eq_true'] at hu ⊢
  exact ⟨Certificate.isExpired_mono h hu.1, hu.2⟩

theorem issued_mono (h : t ≤ clock) : Issued s clock x y → Issued s t x y :=
  fun ⟨c, hc, hu, hy⟩ => ⟨c, hc, usable_mono h hu, hy⟩

theorem anchored_mono (h : t ≤ clock) : Anchored s clock x → Anchored s t x :=
  fun ⟨hr, c, hc, hu, hself⟩ => ⟨hr, c, hc, usable_mono h hu, hself⟩

theorem externalPath_mono (h : t ≤ clock) : ExternalPath s clock target → ExternalPath s t target :=
  fun ⟨x, hne, hx, hpath⟩ =>
    ⟨x, hne, anchored_mono h hx, hpath.lift id fun _ _ => issued_mono h⟩

theorem usable_congr (h : s'.revoked = s.revoked) (now : ℕ) (c : Certificate K) :
    s'.usable now c = s.usable now c := by
  simp only [usable, isRevoked, h]

theorem issued_of_shrinks (hs : Shrinks s s') : Issued s' t x y → Issued s t x y :=
  fun ⟨c, hc, hu, hy⟩ => ⟨c, (hs.held x).subset hc, usable_congr hs.revoked t c ▸ hu, hy⟩

theorem anchored_of_shrinks (hs : Shrinks s s') : Anchored s' t x → Anchored s t x :=
  fun ⟨hr, c, hc, hu, hself⟩ =>
    ⟨hs.roots ▸ hr, c, (hs.held x).subset hc, usable_congr hs.revoked t c ▸ hu, hself⟩

theorem externalPath_of_shrinks (hs : Shrinks s s') :
    ExternalPath s' t target → ExternalPath s t target :=
  fun ⟨x, hne, hx, hpath⟩ =>
    ⟨x, hs.ownId ▸ hne, anchored_of_shrinks hs hx,
      hpath.lift id fun _ _ => issued_of_shrinks hs⟩

theorem endsOutside_congr (hr : s'.roots = s.roots) (ho : s'.ownId = s.ownId) :
    EndsOutside s' chain ↔ EndsOutside s chain := by
  unfold EndsOutside
  rw [hr, ho]

/-! ### Our own chain -/

theorem clearPath_own (h : ExternalPath s t s.ownId) : ClearPath s t s.ownId := by
  obtain ⟨x, hne, hx, hpath⟩ := h
  exact ⟨x, hne, hx, (path_avoids_start hpath).lift id fun y z hyz =>
    ⟨hyz.1, fun hz => hyz.2 hz.1⟩⟩

/-! ### What the memo holds -/

/-- What is said of a chain: it comes from a search at some moment; our own, that it ended outside if
anything did. -/
def Recent (K : Crypto) : Said K := fun T s target chain =>
  if target = s.ownId then ∃ t ≤ T, ExternalPath s t target → EndsOutside s chain
  else ∃ t ≤ T, CertOutcome s t target chain

theorem live_congr (hs : SameGraph s s') (t : ℕ) : s'.live t = s.live t := by
  funext key
  unfold live
  rw [hs.held, funext (usable_congr hs.revoked t)]

theorem anchored_congr (hs : SameGraph s s') : Anchored s' t x ↔ Anchored s t x := by
  unfold Anchored
  simp only [hs.roots, hs.held, usable_congr hs.revoked]

theorem kind_congr (hs : SameGraph s s') (t : ℕ) : kind s' t = kind s t := by
  funext x
  unfold kind
  simp only [anchored_congr hs, hs.ownId]

theorem verdict_congr (hs : SameGraph s s') (t : ℕ) : verdict s' t = verdict s t := by
  funext x path
  unfold verdict anchor
  rw [hs.roots, hs.ownId, live_congr hs]

theorem recent_rule (P : Certificate K → Prop) : Rule P (Recent K) where
  built {s} hs target clock := by
    unfold Recent
    split_ifs with ht
    · subst ht
      exact ⟨clock, le_rfl, fun h => (build_endsOutside_iff hs.filed).mpr (clearPath_own h)⟩
    · exact ⟨clock, le_rfl, build_outcome hs.filed target clock⟩
  later {T T' s target chain} hT h := by
    unfold Recent at h ⊢
    split_ifs at h ⊢ <;> exact h.imp fun t ht => ⟨ht.1.trans hT, ht.2⟩
  same {T s s' target chain} hs h := by
    unfold Recent at h ⊢
    rw [hs.ownId]
    split_ifs at h ⊢
    · obtain ⟨t, ht, hend⟩ := h
      exact ⟨t, ht, fun hp => (endsOutside_congr hs.roots hs.ownId).mpr (hend (externalPath_of_shrinks hs.shrinks hp))⟩
    · simp only [CertOutcome, live_congr hs, verdict_congr hs, kind_congr hs]
      exact h
  own {T s s' chain} hs h := by
    unfold Recent at h ⊢
    rw [if_pos rfl] at h
    rw [if_pos hs.ownId.symm]
    obtain ⟨t, ht, hend⟩ := h
    exact ⟨t, ht, fun hp => (endsOutside_congr hs.roots hs.ownId).mpr (hend (externalPath_of_shrinks hs hp))⟩

/-! ### Chains that were found earlier -/

theorem chainTo_anchored {chain : List (Certificate K)} (h : ChainTo s t target x chain)
    (halive : ∀ c ∈ chain, c.isExpired clock = false) : Anchored s clock x := by
  obtain ⟨l, hl, hself, rfl⟩ := h.last
  have hmem := List.mem_of_getLast? hl
  obtain ⟨hheld, hu⟩ := h.held l hmem
  refine ⟨h.root, l, hheld, ?_, hself⟩
  simp only [usable, Bool.and_eq_true, Bool.not_eq_true'] at hu ⊢
  exact ⟨halive l hmem, hu.2⟩

theorem clearPath_of_earlier (hf : Filed s) (ht : t ≤ clock) (hne : target ≠ s.ownId)
    (h : CertOutcome s t target chain) (hgood : earliestExpiry chain = 0 ∨ clock ≤ earliestExpiry chain)
    (hend : EndsOutside s chain) : ClearPath s clock target := by
  cases h with
  | found x path r hr hv htrail _ hsrc _ =>
    subst hr
    have halive := not_isExpired_of_earliestExpiry hgood
    obtain ⟨hroot, hxne, ha⟩ := verdict_done hv
    have hpath : ∀ c ∈ path, c ∈ r := by
      rcases anchor_cases ha with ⟨rfl, -⟩ | ⟨rc, -, -, rfl⟩
      · exact fun c hc => hc
      · exact fun c hc => List.mem_append_left _ hc
    refine ⟨x, hxne, chainTo_anchored (anchor_spec hf htrail hroot ha) halive, htrail.path ?_⟩
    intro c hc htgt
    obtain ⟨hheld, hu⟩ := mem_live.mp (htrail.edges c hc)
    simp only [usable, Bool.and_eq_true, Bool.not_eq_true'] at hu
    refine ⟨⟨c, hheld, ?_, rfl⟩, ?_⟩
    · simp only [usable, Bool.and_eq_true, Bool.not_eq_true']
      exact ⟨halive c (hpath c hc), hu.2⟩
    · rintro ⟨hown, hanch⟩
      -- the trail ran through ids that were not held then
      rcases htgt with htgt | htgt
      · exact hxne (htgt.symm.trans hown)
      · rcases hsrc _ htgt with hstart | hthrough
        · exact hne (hstart.symm.trans hown)
        · have : kind s t c.issuerId = .held := kind_held.mpr ⟨hown, anchored_mono ht hanch⟩
          rw [hthrough] at this
          cases this
  | lost hno hnone hkept =>
    obtain ⟨c, l, rfl, hrest⟩ := hend
    obtain ⟨x, path, hv, htrail⟩ := hkept c rfl
    obtain ⟨hroot, hown, ha⟩ := verdict_keep hv
    exact absurd hown ((anchor_spec hf htrail hroot ha).endsOutside.mp ⟨c, l, rfl, hrest⟩)

/-- An earlier chain that is alive ends outside if there is a clear path now: the chain cannot end on
our own id, unless that is still anchored. -/
theorem endsOutside_of_earlier (hf : Filed s) (ht : t ≤ clock)
    (h : CertOutcome s t target chain) (hgood : earliestExpiry chain = 0 ∨ clock ≤ earliestExpiry chain)
    (hclear : ClearPath s clock target) : EndsOutside s chain := by
  obtain ⟨x, hxne, hx, hpath⟩ := hclear
  have hfrom : ClearPath s t target → EndsOutside s chain := (endsOutside_iff hf h).mpr
  by_cases hown : Anchored s clock s.ownId
  · exact hfrom ⟨x, hxne, anchored_mono ht hx, hpath.lift id fun y z hyz =>
      ⟨issued_mono ht hyz.1, fun hz => hyz.2 ⟨hz.1, hown⟩⟩⟩
  · have hissued : Relation.ReflTransGen (Issued s t) target x :=
      hpath.lift id fun y z hyz => issued_mono ht hyz.1
    rcases path_avoids_or_hits s.ownId hissued with havoid | ⟨y, hy, hyown⟩
    · exact hfrom ⟨x, hxne, anchored_mono ht hx, havoid.lift id fun y z hyz =>
        ⟨hyz.1, fun hz => hyz.2 hz.1⟩⟩
    · cases h with
      | found x path r hr hv htrail _ _ _ =>
        subst hr
        obtain ⟨hroot, hne, ha⟩ := verdict_done hv
        exact (anchor_spec hf htrail hroot ha).endsOutside.mpr hne
      | lost hno hnone hkept =>
        by_cases hown' : Anchored s t s.ownId
        · -- the walk came to our own id, and set a chain aside that is still alive
          have hreached := reached_iff.mpr ⟨y, hy.lift id fun y z hyz =>
            edge_iff.mpr ⟨hyz.1, fun hz => hyz.2 hz.1⟩, hyown⟩
          cases hchain : chain with
          | none => exact absurd (kind_held.mpr ⟨rfl, hown'⟩) (hnone hchain _ hreached)
          | some r =>
            obtain ⟨x, path, hv, htrail⟩ := hkept r hchain
            obtain ⟨hroot, rfl, ha⟩ := verdict_keep hv
            rw [hchain] at hgood
            exact absurd (chainTo_anchored (anchor_spec hf htrail hroot ha)
              (not_isExpired_of_earliestExpiry hgood)) hown
        · exact hfrom ⟨x, hxne, anchored_mono ht hx, hissued.lift id fun y z hyz =>
            ⟨hyz, fun hz => hown' hz.2⟩⟩

/-! ### The answer -/

/-- **The answer ends outside exactly along a clear path**, computed or remembered. -/
theorem answer_iff (h : Reachable P s T) (hT : T ≤ clock) (hpath : ExternalPath s clock target) :
    EndsOutside s (s.getChainToRoot target none clock).1 ↔ ClearPath s clock target := by
  obtain ⟨hsaid, hgood⟩ := (memo_reachable (recent_rule P) h).answer (recent_rule P) h.sane hT target
  unfold Recent at hsaid
  split_ifs at hsaid with ht
  · subst ht
    obtain ⟨t, ht, hend⟩ := hsaid
    exact ⟨fun _ => clearPath_own hpath, fun _ => hend (externalPath_mono ht hpath)⟩
  · obtain ⟨t, ht', hout⟩ := hsaid
    exact ⟨clearPath_of_earlier h.sane.filed ht' ht hout hgood,
      endsOutside_of_earlier h.sane.filed ht' hout hgood⟩

/-- **When the walk is complete.** If there is an issuance path to an external root, the answer ends
outside exactly if some such path does not step onto this node while it holds a usable self-signed
certificate. -/
theorem finds_external_iff (h : Reachable P s T) (hT : T ≤ clock) (target : NodeID) (now : Option ℕ) :
    (ExternalPath s (now.getD clock) target → EndsOutside s (s.getChainToRoot target now clock).1) ↔
      (ExternalPath s (now.getD clock) target → ClearPath s (now.getD clock) target) := by
  refine imp_congr_right fun hpath => ?_
  cases now with
  | some now => exact build_endsOutside_iff h.sane.filed
  | none => exact answer_iff h hT hpath

/-! ### The path that leads through this node -/

theorem externalPath_inviter : ExternalPath inviter 0 (plain.fromPublicKey [3]) := by
  refine ⟨plain.fromPublicKey [2], by decide, ⟨by decide, plainCert 2 2, by decide, by decide, by decide⟩,
    .tail (.single (b := plain.fromPublicKey [1]) ?_) ?_⟩
  · exact ⟨plainCert 3 1, by decide, by decide, rfl⟩
  · exact ⟨plainCert 1 2, by decide, by decide, rfl⟩

/-- The chain of the node this one invited ends on this one, which the network does not trust. -/
theorem invited_ends_here : Reachable (fun _ => True) inviter 0 ∧
    ExternalPath inviter 0 (plain.fromPublicKey [3]) ∧
      ¬ EndsOutside inviter (inviter.getChainToRoot (plain.fromPublicKey [3]) none 0).1 := by
  refine ⟨reachable_inviter fun _ _ => trivial, externalPath_inviter, ?_⟩
  have hchain : (inviter.getChainToRoot (plain.fromPublicKey [3]) none 0).1 =
      some [plainCert 3 1, plainCert 1 1] := by decide
  rw [hchain]
  rintro ⟨c, l, hc, hl, hne, -⟩
  cases hc
  cases hl
  exact hne rfl

theorem inviter_iff :
    (ExternalPath inviter 0 (plain.fromPublicKey [2]) →
      EndsOutside inviter (inviter.getChainToRoot (plain.fromPublicKey [2]) none 0).1) ↔
    (ExternalPath inviter 0 (plain.fromPublicKey [2]) →
      ClearPath inviter 0 (plain.fromPublicKey [2])) :=
  finds_external_iff (reachable_inviter (P := fun _ => True) fun _ _ => trivial) le_rfl (plain.fromPublicKey [2]) none

end NMesh.Cert.Complete
