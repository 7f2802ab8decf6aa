import NMesh.Cert.Complete

/-! # Our own chain outlives a flood

Taking a certificate in evicts others, within a subject by `trim` and whole subjects by `enforceBounds`.
Both ask for our own chain first, after the memo was cleared: `trim` spares its certificates by their
signatures, `enforceBounds` the subjects it runs through. A chain visits a subject once (`Outer`), so `trim`
always has another certificate to drop. So our own chain's certificates stay (`Backed`), and the node
still reaches an external root (`own_chain_survives`). -/

namespace NMesh.Cert.Pinning

open Relation NMesh.Base.BigEndian NMesh.Base.Ordered NMesh.Base.Search
open NMesh.Cert.Identity NMesh.Cert.Store NMesh.Cert.Store.CertStore NMesh.Cert.Walk NMesh.Cert.Upkeep
open NMesh.Cert.Memo NMesh.Cert.Complete

variable {K : Crypto} {P : Certificate K → Prop} {s s' : CertStore K} {T t clock : ℕ} {x : NodeID}
  {chain : List (Certificate K)} {result : Option (List (Certificate K))}

/-- Among `P`, a signature is made over one body. -/
def Binding (P : Certificate K → Prop) : Prop :=
  ∀ c c', P c → P c' → c.signature = c'.signature → c.body = c'.body

/-! ### Dropping certificates of one subject -/

theorem trim_keeps {loadBearing : List Bytes} {max : ℕ} (hmax : 1 ≤ max) {c : Certificate K}
    (hc : c.signature ∈ loadBearing) : ∀ (n : ℕ) {existing : List (Certificate K)}, existing.Nodup →
    (∀ e ∈ existing, e.signature ∈ loadBearing → e = c) → c ∈ existing →
    c ∈ trim loadBearing max n existing
  | 0, _, _, _, hmem => hmem
  | n + 1, existing, hnodup, honly, hmem => by
    unfold trim
    split_ifs with hlen
    · cases hfind : existing.find? fun e => e.signature ∉ loadBearing with
      | some victim =>
        have hvictim : victim.signature ∉ loadBearing := by
          simpa using List.find?_some hfind
        have hne : c ≠ victim := fun he => hvictim (he ▸ hc)
        exact trim_keeps hmax hc n (hnodup.erase victim)
          (fun e he => honly e (List.mem_of_mem_erase he)) ((List.mem_erase_of_ne hne).mpr hmem)
      | none =>
        -- every other certificate would be load-bearing too
        have hall : ∀ e ∈ existing, e = c := fun e he => honly e he (by
          have := List.find?_eq_none.mp hfind e he
          simpa using this)
        have hrep : existing = List.replicate existing.length c := List.eq_replicate_of_mem hall
        rw [hrep] at hnodup
        have := List.nodup_replicate.mp hnodup
        omega
    · exact hmem

/-! ### Our own chain -/

/-- Our own chain, of certificates held, leads to a root other than our own id, and visits no subject
twice. -/
structure Outer (s : CertStore K) (t : ℕ) (chain : List (Certificate K)) : Prop where
  ends : ∃ x, x ≠ s.ownId ∧ ChainTo s t s.ownId x chain
  once : (chain.map Certificate.subjectId).Nodup

theorem Outer.held (h : Outer s t chain) : ∀ c ∈ chain, c ∈ s.held c.subjectId := fun c hc =>
  let ⟨_, _, hx⟩ := h.ends
  (hx.held c hc).1

theorem outer_of_outcome (hf : Filed s) (h : CertOutcome s t s.ownId result)
    (hend : EndsOutside s result) : ∃ c, result = some c ∧ Outer s t c := by
  cases h with
  | found x path r hr hv htrail honce hsrc _ =>
    subst hr
    obtain ⟨hroot, hne, ha⟩ := verdict_done hv
    refine ⟨r, rfl, ⟨x, hne, anchor_spec hf htrail hroot ha⟩, ?_⟩
    rcases anchor_cases ha with ⟨rfl, -⟩ | ⟨rc, hmem, -, rfl⟩
    · exact honce
    · rw [List.map_append]
      refine List.nodup_append.mpr ⟨honce, List.nodup_singleton _, fun y hy z hz heq => ?_⟩
      obtain rfl : z = x := by
        rw [← hf.src t x rc hmem]; simpa using hz
      -- the walk goes on past every subject of the path, and ends at `x`
      have hgoal : kind s t z = .goal := by rw [← verdict_kind hf htrail, hv]; rfl
      rcases hsrc y hy with hown | hthrough
      · exact hne (heq ▸ hown)
      · rw [← heq, hthrough] at hgoal
        cases hgoal
  | lost hno hnone hkept =>
    obtain ⟨c, l, rfl, hrest⟩ := hend
    obtain ⟨x, path, hv, htrail⟩ := hkept c rfl
    obtain ⟨hroot, hown, ha⟩ := verdict_keep hv
    exact absurd hown ((anchor_spec hf htrail hroot ha).endsOutside.mp ⟨c, l, rfl, hrest⟩)

theorem Outer.externalPath (h : Outer s t chain) : ExternalPath s t s.ownId := by
  obtain ⟨x, hne, hx⟩ := h.ends
  obtain ⟨l, hl, hself, rfl⟩ := hx.last
  obtain ⟨hheld, hu⟩ := hx.held l (List.mem_of_getLast? hl)
  refine ⟨l.subjectId, hne, ⟨hx.root, l, hheld, hu, hself⟩, ?_⟩
  have htrail : CertTrail s t s.ownId chain l.subjectId :=
    ⟨fun c hc => mem_live.mpr (hx.held c hc), hx.linked, hx.head, by
      rw [hl, Option.map_some, Certificate.isSelfSigned_iff.mp hself]⟩
  exact htrail.path fun c hc _ => ⟨c, (hx.held c hc).1, (hx.held c hc).2, rfl⟩

theorem Outer.keep (h : Outer s t chain) (hs : Shrinks s s')
    (hkeep : ∀ c ∈ chain, c ∈ s'.held c.subjectId) : Outer s' t chain := by
  obtain ⟨x, hne, hx⟩ := h.ends
  refine ⟨⟨x, by rw [hs.ownId]; exact hne, fun c hc => ⟨hkeep c hc, ?_⟩, ?_, hx.linked, hx.last, ?_⟩,
    h.once⟩
  · rw [usable_congr hs.revoked]; exact (hx.held c hc).2
  · rw [hs.ownId]; exact hx.head
  · rw [hs.roots]; exact hx.root

theorem Outer.alive (h : Outer s t chain) (halive : ∀ c ∈ chain, c.isExpired clock = false) :
    Outer s clock chain := by
  obtain ⟨x, hne, hx⟩ := h.ends
  refine ⟨⟨x, hne, fun c hc => ⟨(hx.held c hc).1, ?_⟩, hx.head, hx.linked, hx.last, hx.root⟩, h.once⟩
  have hu := (hx.held c hc).2
  simp only [usable, Bool.and_eq_true, Bool.not_eq_true'] at hu ⊢
  exact ⟨halive c hc, hu.2⟩

/-- The answer at `clock` to who we are: a chain that leads outside, or nothing does. -/
def Settled (s : CertStore K) (clock : ℕ) (result : Option (List (Certificate K))) : Prop :=
  (∃ c, result = some c ∧ Outer s clock c) ∨
    ¬ EndsOutside s result ∧ ¬ ExternalPath s clock s.ownId

theorem settled_build (hf : Filed s) : Settled s clock (s.buildChainToRoot s.ownId clock) := by
  by_cases hend : EndsOutside s (s.buildChainToRoot s.ownId clock)
  · exact Or.inl (outer_of_outcome hf (build_outcome hf s.ownId clock) hend)
  · exact Or.inr ⟨hend, fun hp => hend ((build_endsOutside_iff hf).mpr (clearPath_own hp))⟩

theorem Settled.keep (h : Settled s clock result) (hs : Shrinks s s')
    (hkeep : ∀ c, result = some c → Outer s clock c → ∀ a ∈ c, a ∈ s'.held a.subjectId) :
    Settled s' clock result := by
  rcases h with ⟨c, hc, ho⟩ | ⟨hend, hp⟩
  · exact Or.inl ⟨c, hc, ho.keep hs (hkeep c hc ho)⟩
  · refine Or.inr ⟨fun h => hend ((endsOutside_congr hs.roots hs.ownId).mp h), fun h => hp ?_⟩
    have := externalPath_of_shrinks hs h
    rwa [hs.ownId] at this

theorem Settled.outer (h : Settled s clock result) (hp : ExternalPath s clock s.ownId) :
    ∃ c, result = some c ∧ Outer s clock c :=
  h.resolve_right fun hno => hno.2 hp

/-! ### Eviction -/

/-- The store while a certificate is taken in at `clock`: what the memo says of our own chain is so. -/
structure Backed (P : Certificate K → Prop) (clock : ℕ) (s : CertStore K) : Prop where
  sane : Sane P s
  bound : 1 ≤ s.maxPerSubject
  memo : ∀ result goodUntil, s.chains.get? s.ownId = some (result, goodUntil) → Settled s clock result

theorem Backed.answer (h : Backed P clock s) :
    Settled s clock (s.getChainToRoot s.ownId none clock).1 := by
  rcases answer_cases s s.ownId clock with ⟨goodUntil, hget, -, -⟩ | ⟨hbuilt, -⟩
  · exact h.memo _ goodUntil hget
  · rw [hbuilt]; exact settled_build h.sane.filed

theorem lookup_get? (s : CertStore K) (target : NodeID) (clock : ℕ) :
    ∃ goodUntil, (s.getChainToRoot target none clock).2.chains.get? target =
      some ((s.getChainToRoot target none clock).1, goodUntil) := by
  rcases answer_cases s target clock with ⟨goodUntil, hget, -, hs⟩ | ⟨hbuilt, hc⟩
  · exact ⟨goodUntil, by rw [hs]; exact hget⟩
  · exact ⟨_, by rw [hc, Dict.get?_set_self, hbuilt]⟩

/-- What keeps the certificates of our own chain, just looked up, keeps the memo true and our path to an
external root. -/
theorem Backed.keep (h : Backed P clock s)
    (hs : Shrinks (s.getChainToRoot s.ownId none clock).2 s')
    (hc : s'.chains = (s.getChainToRoot s.ownId none clock).2.chains)
    (hkeep : ∀ c, (s.getChainToRoot s.ownId none clock).1 = some c → Outer s clock c →
      ∀ a ∈ c, a ∈ s'.held a.subjectId) :
    Backed P clock s' ∧ (ExternalPath s clock s.ownId → ExternalPath s' clock s'.ownId) := by
  have hall := (shrinks_lookup s s.ownId none clock).trans hs
  have hsettled := h.answer.keep hall hkeep
  refine ⟨⟨h.sane.shrink hall, by rw [hall.bound]; exact h.bound, fun result goodUntil hget => ?_⟩,
    fun hp => ?_⟩
  · obtain ⟨g, hg⟩ := lookup_get? s s.ownId clock
    rw [hc, hall.ownId, hg] at hget
    cases hget
    exact hsettled
  · obtain ⟨c, hc, ho⟩ := h.answer.outer hp
    exact (ho.keep hall (hkeep c hc ho)).externalPath

theorem Backed.lookup (h : Backed P clock s) :
    Backed P clock (s.getChainToRoot s.ownId none clock).2 ∧
      (ExternalPath s clock s.ownId → ExternalPath (s.getChainToRoot s.ownId none clock).2 clock
        (s.getChainToRoot s.ownId none clock).2.ownId) :=
  h.keep (.refl _) rfl fun c _ ho a ha => by
    rw [(sameGraph_lookup s s.ownId none clock).held]; exact ho.held a ha

theorem mem_held_pop {victim : NodeID} (hv : victim ∉ (s.ownChainSubjects clock).1)
    (hc : (s.getChainToRoot s.ownId none clock).1 = some chain) {a : Certificate K} (ha : a ∈ chain)
    (hheld : a ∈ s.held a.subjectId) :
    let s1 := (s.getChainToRoot s.ownId none clock).2
    a ∈ ({ s1 with certs := s1.certs.pop victim } : CertStore K).held a.subjectId := by
  intro s1
  rw [held_pop, if_neg, (sameGraph_lookup s s.ownId none clock).held]
  · exact hheld
  · intro hvictim
    refine hv ?_
    unfold ownChainSubjects
    dsimp only
    rw [hc, Option.getD_some, ← hvictim]
    exact List.mem_append_left _ (List.mem_append_left _ (List.mem_map_of_mem ha))

theorem mem_held_trim (hs : Sane P s) (hmax : 1 ≤ s.maxPerSubject) (hb : Binding P) (key : NodeID) (n : ℕ)
    (hc : (s.getChainToRoot s.ownId none clock).1 = some chain)
    (hheld : ∀ a ∈ chain, a ∈ s.held a.subjectId) (honce : (chain.map Certificate.subjectId).Nodup)
    {a : Certificate K} (ha : a ∈ chain) :
    let s1 := (s.getChainToRoot s.ownId none clock).2
    let s' : CertStore K := { s1 with
      certs := s1.certs.set key (trim (s.chainSignatures clock).1 s1.maxPerSubject n (s.held key)) }
    a ∈ s'.held a.subjectId := by
  have hsame := sameGraph_lookup s s.ownId none clock
  have hsig : (s.chainSignatures clock).1 = chain.map Certificate.signature := by
    unfold chainSignatures
    dsimp only
    rw [hc, Option.getD_some]
  intro s1 s'
  rw [held_set]
  split_ifs with hk
  · subst hk
    rw [hsig]
    refine trim_keeps (by rw [hsame.bound]; exact hmax) (List.mem_map_of_mem ha) n
      (List.Nodup.of_map _ (hs.distinct _)) (fun e he hes => ?_) (hheld a ha)
    obtain ⟨a', ha', hsa⟩ := List.mem_map.mp hes
    have hsub := hs.filed _ e he
    have hea : a' = e := eq_of_body hsa
      (hb a' e (hs.known _ a' (hheld a' ha')) (hs.known _ e he) hsa)
    subst hea
    exact List.inj_on_of_nodup_map honce ha' ha hsub
  · rw [hsame.held]
    exact hheld a ha

theorem Backed.pop (h : Backed P clock s) {victim : NodeID}
    (hv : victim ∉ (s.ownChainSubjects clock).1) :
    let s1 := (s.getChainToRoot s.ownId none clock).2
    Backed P clock { s1 with certs := s1.certs.pop victim } ∧
      (ExternalPath s clock s.ownId → ExternalPath { s1 with certs := s1.certs.pop victim } clock
        s1.ownId) :=
  h.keep (shrinks_pop _ victim) rfl fun _ hc ho a ha => mem_held_pop hv hc ha (ho.held a ha)

theorem Backed.trim (h : Backed P clock s) (hb : Binding P) (key : NodeID) (n : ℕ) :
    let s1 := (s.getChainToRoot s.ownId none clock).2
    let s' : CertStore K := { s1 with
      certs := s1.certs.set key (trim (s.chainSignatures clock).1 s1.maxPerSubject n (s.held key)) }
    Backed P clock s' ∧ (ExternalPath s clock s.ownId → ExternalPath s' clock s'.ownId) := by
  have hsame := sameGraph_lookup s s.ownId none clock
  refine h.keep (shrinks_set _ key ?_) rfl fun c hc ho a ha =>
    mem_held_trim h.sane h.bound hb key n hc ho.held ho.once ha
  rw [hsame.held]
  exact trim_sublist _ _ _ _

theorem Backed.subjectBound (h : Backed P clock s) (hb : Binding P) (key : NodeID) :
    Backed P clock (s.enforceSubjectBound key clock) ∧
      (ExternalPath s clock s.ownId →
        ExternalPath (s.enforceSubjectBound key clock) clock (s.enforceSubjectBound key clock).ownId) := by
  unfold enforceSubjectBound
  dsimp only
  split_ifs
  · exact h.trim hb key _
  · exact ⟨h, id⟩

theorem externalPath_touch (key : NodeID) (hp : ExternalPath s clock s.ownId) :
    ExternalPath (s.touch key) clock (s.touch key).ownId := by
  have hsame := sameGraph_touch s key
  rw [hsame.ownId]
  refine externalPath_of_shrinks ⟨fun k => ?_, hsame.roots.symm, hsame.revoked.symm,
    hsame.ownId.symm, hsame.bound.symm⟩ hp
  rw [hsame.held]

theorem Backed.touch (h : Backed P clock s) (key : NodeID) : Backed P clock (s.touch key) := by
  have hsame := sameGraph_touch s key
  refine ⟨h.sane.shrink hsame.shrinks, by rw [hsame.bound]; exact h.bound,
    fun result goodUntil hget => ?_⟩
  rw [(touch_fields s key).2.2.2.1, hsame.ownId] at hget
  refine (h.memo result goodUntil hget).keep hsame.shrinks fun c _ ho a ha => ?_
  rw [hsame.held]; exact ho.held a ha

theorem Backed.enforceBounds (h : Backed P clock s) (n : ℕ) :
    Backed P clock (enforceBounds clock n s) ∧
      (ExternalPath s clock s.ownId →
        ExternalPath (CertStore.enforceBounds clock n s) clock
          (CertStore.enforceBounds clock n s).ownId) :=
  enforceBounds_induct (Q := fun s1 => Backed P clock s1 ∧
      (ExternalPath s clock s.ownId → ExternalPath s1 clock s1.ownId))
    (fun _ h1 => ⟨h1.1.lookup.1, fun hp => h1.1.lookup.2 (h1.2 hp)⟩)
    (fun _ _ h1 _ hv => ⟨(h1.1.pop hv).1, fun hp => (h1.1.pop hv).2 (h1.2 hp)⟩) n s ⟨h, id⟩

/-! ### Taking a certificate in -/

theorem shrinks_of_file (s : CertStore K) (cert : Certificate K) : Shrinks (s.file cert) s where
  held key := by
    rw [held_file]
    split_ifs with hk
    · rw [hk]; exact List.sublist_append_left _ _
    · exact .refl _
  roots := rfl
  revoked := rfl
  ownId := rfl
  bound := rfl

/-- **A new certificate costs us neither our path to an external root nor the memo's word.** -/
theorem backed_file (hb : Binding P) (hs : Sane P s) (hmax : 1 ≤ s.maxPerSubject)
    {cert : Certificate K} (hc : P cert)
    (hnew : ∀ e ∈ s.held cert.subjectId, e.signature ≠ cert.signature) (clock n : ℕ) :
    let s' := enforceBounds clock n
      (((s.file cert).enforceSubjectBound cert.subjectId clock).touch cert.subjectId)
    Backed P clock s' ∧ (ExternalPath s clock s.ownId → ExternalPath s' clock s'.ownId) := by
  have hfile : Backed P clock (s.file cert) :=
    ⟨hs.file hc hnew, hmax, fun result goodUntil hget => by cases hget⟩
  obtain ⟨h1, hp1⟩ := hfile.subjectBound hb cert.subjectId
  obtain ⟨h2, hp2⟩ := (h1.touch cert.subjectId).enforceBounds n
  exact ⟨h2, fun hp => hp2 (externalPath_touch _
    (hp1 (externalPath_of_shrinks (shrinks_of_file s cert) hp)))⟩

/-- **Taking in a certificate leaves us a path to an external root.** -/
theorem externalPath_add (hb : Binding P) (hs : Sane P s) (hmax : 1 ≤ s.maxPerSubject)
    {cert : Certificate K} (hc : P cert) (hp : ExternalPath s clock s.ownId) :
    ExternalPath (s.add cert clock).2 clock (s.add cert clock).2.ownId := by
  rcases add_cases s cert clock with he | he | ⟨-, -, hnew, n, he⟩ <;> rw [he]
  · exact hp
  · exact externalPath_touch cert.subjectId hp
  · exact (backed_file hb hs hmax hc hnew clock n).2 hp

/-! ### Runs -/

/-- If the memo's chain for us ends outside, its certificates are held. -/
def Kept (s : CertStore K) : Prop :=
  ∀ result goodUntil, s.chains.get? s.ownId = some (result, goodUntil) → EndsOutside s result →
    ∃ t c, result = some c ∧ Outer s t c

theorem Backed.kept (h : Backed P clock s) : Kept s := fun result goodUntil hget hend =>
  let ⟨c, hc, ho⟩ := (h.memo result goodUntil hget).resolve_right fun hno => hno.1 hend
  ⟨clock, c, hc, ho⟩

theorem kept_empty (h : s.chains = Dict.empty) : Kept s := by
  intro result goodUntil hget
  rw [h] at hget
  cases hget

theorem Kept.same (h : Kept s) (hs : SameGraph s s') (hc : s'.chains = s.chains) : Kept s' := by
  intro result goodUntil hget hend
  rw [hc, hs.ownId] at hget
  obtain ⟨t, c, rfl, ho⟩ := h result goodUntil hget ((endsOutside_congr hs.roots hs.ownId).mp hend)
  exact ⟨t, c, rfl, ho.keep hs.shrinks fun a ha => by rw [hs.held]; exact ho.held a ha⟩

theorem Kept.lookup (h : Kept s) (hf : Filed s) (target : NodeID) (now : Option ℕ) (clock : ℕ) :
    Kept (s.getChainToRoot target now clock).2 := by
  have hsame := sameGraph_lookup s target now clock
  rcases lookup_chains s target now clock with hc | hc
  · exact h.same hsame hc
  · intro result goodUntil hget hend
    have hend' := (endsOutside_congr hsame.roots hsame.ownId).mp hend
    have hkeep : ∀ {t c}, Outer s t c → Outer (s.getChainToRoot target now clock).2 t c :=
      fun ho => ho.keep hsame.shrinks fun a ha => by rw [hsame.held]; exact ho.held a ha
    rw [hc, hsame.ownId] at hget
    rcases Dict.get?_of_set hget with ⟨rfl, heq⟩ | ⟨-, hget⟩
    · cases heq
      obtain ⟨c, hbuilt, ho⟩ := outer_of_outcome hf (build_outcome hf s.ownId clock) hend'
      exact ⟨clock, c, hbuilt, hkeep ho⟩
    · obtain ⟨t, c, rfl, ho⟩ := h result goodUntil hget hend'
      exact ⟨t, c, rfl, hkeep ho⟩

theorem Kept.step (hb : Binding P) (hs : Sane P s) (hmax : 1 ≤ s.maxPerSubject) (h : Kept s)
    {act : ℕ × Op K} (ha : Adds P act) : Kept (s.step act) := by
  obtain ⟨clock, op⟩ := act
  rcases emptied_cases s clock op with ⟨cert, rfl⟩ | ⟨target, now, rfl⟩ | he | hc
  · change Kept (s.add cert clock).2
    rcases add_cases s cert clock with he | he | ⟨-, -, hnew, n, he⟩ <;> rw [he]
    · exact h
    · exact h.same (sameGraph_touch s _) (touch_fields s _).2.2.2.1
    · exact (backed_file hb hs hmax ha hnew clock n).1.kept
  · exact h.lookup hs.filed target now clock
  · rw [he]; exact h
  · exact kept_empty hc

theorem kept_reachable (hb : Binding P) (h : Reachable P s T) (hmax : 1 ≤ s.maxPerSubject) :
    Kept s := by
  refine (h.induct (Q := fun s _ => Sane P s ∧ (1 ≤ s.maxPerSubject → Kept s)) ?_ ?_).2 hmax
  · exact fun ownId a b c => ⟨sane_new P ownId a b c, fun _ => kept_empty rfl⟩
  · intro s T act hs _ ha
    refine ⟨hs.1.step ha, fun hm => ?_⟩
    rw [maxPerSubject_step] at hm
    exact (hs.2 hm).step hb hs.1 hm ha

theorem externalPath_of_answer (hb : Binding P) (h : Reachable P s T) (hT : T ≤ clock)
    (hmax : 1 ≤ s.maxPerSubject)
    (hend : EndsOutside s (s.getChainToRoot s.ownId none clock).1) : ExternalPath s clock s.ownId := by
  have hR := recent_rule P
  have hgood := ((memo_reachable hR h).answer hR h.sane hT s.ownId).2
  rcases answer_cases s s.ownId clock with ⟨goodUntil, hget, -, -⟩ | ⟨hbuilt, -⟩
  · obtain ⟨t, c, hc, ho⟩ := kept_reachable hb h hmax _ goodUntil hget hend
    rw [hc] at hgood
    exact (ho.alive (not_isExpired_of_earliestExpiry hgood)).externalPath
  · rw [hbuilt] at hend
    exact ((build_endsOutside_iff h.sane.filed).mp hend).external

theorem externalPath_addAll (hb : Binding P) : ∀ (certs : List (Certificate K)) {s : CertStore K}
    {T : ℕ}, Reachable P s T → T ≤ clock → 1 ≤ s.maxPerSubject → (∀ c ∈ certs, P c) →
    ExternalPath s clock s.ownId → ∃ T' ≤ clock, Reachable P (s.addAll certs clock) T' ∧
      ExternalPath (s.addAll certs clock) clock (s.addAll certs clock).ownId
  | [], _, T, h, hT, _, _, hp => ⟨T, hT, h, hp⟩
  | cert :: certs, s, _, h, hT, hmax, hP, hp => by
    have hcert := hP cert List.mem_cons_self
    have hnext : Reachable P (s.step (clock, .add cert)) clock := h.step hT hcert
    exact externalPath_addAll hb certs hnext le_rfl
      (hmax.trans_eq (maxPerSubject_step s (clock, .add cert)).symm)
      (fun c hc => hP c (List.mem_cons_of_mem cert hc))
      (externalPath_add hb h.sane hmax hcert hp)

/-- **Our own chain outlives a flood.** If it ends outside, it still does after any certificates were
taken in, at one time; a signature is made over one body. -/
theorem own_chain_survives (hb : Binding P) (h : Reachable P s T) (hT : T ≤ clock)
    (hmax : 1 ≤ s.maxPerSubject)
    (hend : EndsOutside s (s.getChainToRoot s.ownId none clock).1)
    {certs : List (Certificate K)} (hcerts : ∀ c ∈ certs, P c) :
    EndsOutside (s.addAll certs clock)
      ((s.addAll certs clock).getChainToRoot (s.addAll certs clock).ownId none clock).1 := by
  obtain ⟨T', hT', hreach, hp⟩ := externalPath_addAll hb certs h hT hmax hcerts
    (externalPath_of_answer hb h hT hmax hend)
  exact (answer_iff hreach hT' hp).mpr (clearPath_own hp)

theorem flooded_survives :
    let flood := [plainCert 1 4, plainCert 1 5, plainCert 2 4, plainCert 4 5, plainCert 5 4]
    EndsOutside (inviter.addAll flood 0)
      ((inviter.addAll flood 0).getChainToRoot (inviter.addAll flood 0).ownId none 0).1 := by
  have hchain : (inviter.getChainToRoot inviter.ownId none 0).1 =
      some [plainCert 1 2, plainCert 2 2] := by decide
  refine own_chain_survives (P := fun _ => True) (fun c c' _ _ h => ?_)
    (reachable_inviter fun _ _ => trivial) le_rfl (by decide) ?_ fun _ _ => trivial
  · have hsig : ∀ c : Certificate plain, c.signature = c.body := fun c => of_decide_eq_true c.verified
    rw [← hsig, ← hsig, h]
  · exact ⟨_, plainCert 2 2, hchain, rfl, by decide, by decide⟩

end NMesh.Cert.Pinning
