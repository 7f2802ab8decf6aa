import NMesh.Base.Shortest
import NMesh.Cert.Pinning

/-! # What a search returns later

The walk looks at the certificates of a subject in one order (`live`), so it returns the first chain there is.
When certificates die or are dropped it still returns that chain while all of it is left (`build_fewer`), unless
our own id loses the certificate that makes it a root. So while our own self-signed certificates do not expire,
what the memo holds is what a search would return (`Truthful`). -/

namespace NMesh.Cert.Fresh

open Base.Ordered Base.Search Base.Shortest
open NMesh.Cert.Identity NMesh.Cert.Store NMesh.Cert.Store.CertStore NMesh.Cert.Walk NMesh.Cert.Upkeep
open NMesh.Cert.Memo NMesh.Cert.Complete NMesh.Cert.Pinning Certificate

variable {K : Crypto} {P : Certificate K → Prop} {s s' : CertStore K} {T t t' clock : ℕ}
  {target own x : NodeID} {path : List (Certificate K)} {chain result : Option (List (Certificate K))}

/-! ### The order of certificates -/

theorem insertionSort_sublist {α : Type} {r : α → α → Prop} [DecidableRel r] [Std.Total r] [IsTrans α r]
    {l m : List α} (h : l.Sublist m) : (l.insertionSort r).Sublist (m.insertionSort r) := by
  induction h with
  | slnil => exact .refl _
  | cons a _ ih => exact ih.trans (List.sublist_orderedInsert a _)
  | cons_cons a _ ih => exact ih.orderedInsert_sublist a (List.pairwise_insertionSort r _)

theorem pairwise_idxOf {α : Type} [DecidableEq α] {l : List α} (h : l.Nodup) :
    l.Pairwise fun a b => l.idxOf a < l.idxOf b := by
  rw [List.pairwise_iff_getElem]
  intro i j hi hj hij
  rw [h.idxOf_getElem, h.idxOf_getElem]
  exact hij

theorem filter_usable_sublist (hs : Shrinks s s') (ht : t ≤ t') (key : NodeID) :
    ((s'.held key).filter (s'.usable t')).Sublist ((s.held key).filter (s.usable t)) := by
  refine ((hs.held key).filter _).trans (List.monotone_filter_right _ fun c hc => ?_)
  rw [usable_congr hs.revoked] at hc
  exact usable_mono ht hc

theorem live_sublist (hs : Shrinks s s') (ht : t ≤ t') (key : NodeID) :
    (s'.live t' key).Sublist (s.live t key) := by
  have htotal : Std.Total fun c c' : Certificate K => c'.life ≤ c.life := ⟨fun c c' => le_total _ _⟩
  have htrans : IsTrans (Certificate K) fun c c' => c'.life ≤ c.life := ⟨fun _ _ _ h h' => h'.trans h⟩
  exact insertionSort_sublist (filter_usable_sublist hs ht key)

def starts (s : CertStore K) (t : ℕ) (target : NodeID) : List (Certificate K) :=
  ((s.held target).filter (s.usable t)).insertionSort firstOrder

theorem starts_sublist (hs : Shrinks s s') (ht : t ≤ t') (key : NodeID) :
    (starts s' t' key).Sublist (starts s t key) := by
  have htotal : Std.Total (firstOrder (K := K)) := ⟨fun c c' => by
    unfold firstOrder
    rcases le_total c.life c'.life with h | h <;>
      cases c.isSelfSigned <;> cases c'.isSelfSigned <;> simp [h]⟩
  have htrans : IsTrans (Certificate K) firstOrder := ⟨fun a b c h h' => by
    unfold firstOrder at *
    rcases h with ⟨ha, hb⟩ | ⟨hab, hlife⟩
    · rcases h' with ⟨hb', -⟩ | ⟨hbc, -⟩
      · rw [hb] at hb'
        cases hb'
      · exact Or.inl ⟨ha, hbc ▸ hb⟩
    · rcases h' with ⟨hb', hc⟩ | ⟨hbc, hlife'⟩
      · exact Or.inl ⟨hab.trans hb', hc⟩
      · exact Or.inr ⟨hab.trans hbc, hlife'.trans hlife⟩⟩
  exact insertionSort_sublist (filter_usable_sublist hs ht key)

/-! ### What is found -/

abbrev CertFirst (s : CertStore K) (t : ℕ) (target : NodeID) (rank₀ rank : Certificate K → ℕ)
    (result : Option (List (Certificate K))) : Prop :=
  First (s.live t) subjectId issuerId (verdict s t) (kind s t) target rank₀ rank
    result

theorem build_first (hf : Filed s) {rank₀ rank : Certificate K → ℕ}
    (hrank₀ : (starts s t target).Pairwise fun c c' => rank₀ c < rank₀ c')
    (hrank : ∀ x, (s.live t x).Pairwise fun c c' => rank c < rank c') :
    CertFirst s t target rank₀ rank (s.buildChainToRoot target t) := by
  unfold buildChainToRoot
  dsimp only
  split_ifs with hnil
  · have hno : ∀ k y q, ¬ TrailTo (s.live t) subjectId issuerId (kind s t) target
        k q y := by
      rintro k y q ⟨ht, -, -⟩
      cases q with
      | nil => exact Trail.ne_nil ht rfl
      | cons c q =>
        have hsub : c.subjectId = target := by simpa using ht.head
        have hc := ht.edges c List.mem_cons_self
        rw [hsub, mem_live, ← List.mem_filter, hnil] at hc
        cases hc
    exact .lost rfl (hno _) (hno _)
  · rw [walk_eq_search]
    have hstarts : ∀ c, c ∈ starts s t target ↔ c ∈ s.live t target := fun c => by
      rw [starts, List.mem_insertionSort, mem_live, List.mem_filter]
    have hkind : ∀ x path, CertTrail s t target path x → (verdict s t x path).kind = kind s t x :=
      fun x path ht => verdict_kind hf ht
    refine search_first s.certs.keys (hf.src t) hrank s.certs.nodup_keys
      (fun x hx => live_eq_nil hx) hkind _ _ _ _ _
      (early_start (hf.src t) hstarts hrank₀) (fun r hr => by cases hr) ?_
    rw [potential_start s.certs.nodup_keys (fun x hx => live_eq_nil hx)
      (by simp only [live, List.length_insertionSort])]
    exact sum_live_le s t

theorem find?_sublist {α : Type} {p : α → Bool} {l m : List α} {a : α} (h : l.Sublist m) (hm : m.Nodup)
    (hfind : m.find? p = some a) (ha : a ∈ l) : l.find? p = some a := by
  have hpa := List.find?_some hfind
  induction h with
  | slnil => cases ha
  | @cons l m b hlm ih =>
    obtain ⟨hb, hm⟩ := List.nodup_cons.mp hm
    by_cases hpb : p b = true
    · rw [List.find?_cons_of_pos hpb] at hfind
      rw [Option.some.inj hfind] at hb
      exact absurd (hlm.subset ha) hb
    · rw [List.find?_cons_of_neg hpb] at hfind
      exact ih hm hfind ha
  | @cons_cons l m b hlm ih =>
    by_cases hpb : p b = true
    · rw [List.find?_cons_of_pos hpb] at hfind ⊢
      exact hfind
    · rw [List.find?_cons_of_neg hpb] at hfind ⊢
      refine ih (List.nodup_cons.mp hm).2 hfind ((List.mem_cons.mp ha).resolve_left ?_)
      rintro rfl
      exact hpb hpa

/-- The certificates of a chain are held and not expired. -/
def Left (s : CertStore K) (t : ℕ) (chain : Option (List (Certificate K))) : Prop :=
  ∀ c ∈ chain.getD [], c ∈ s.held c.subjectId ∧ c.isExpired t = false

theorem Sane.nodup_held (h : Sane P s) (key : NodeID) : (s.held key).Nodup :=
  (h.distinct key).of_map

theorem Sane.nodup_live (h : Sane P s) (t : ℕ) (key : NodeID) : (s.live t key).Nodup :=
  (List.perm_insertionSort _ _).nodup_iff.mpr ((Sane.nodup_held h key).filter _)

theorem verdict_anchor {r : List (Certificate K)}
    (h : verdict s t x path = .done r ∨ verdict s t x path = .keep r) :
    x ∈ s.roots ∧ s.anchor t x path = some r := by
  rcases h with h | h
  · exact ⟨(verdict_done h).1, (verdict_done h).2.2⟩
  · exact ⟨(verdict_keep h).1, (verdict_keep h).2.2⟩

theorem Sane.places (h : Sane P s) (t : ℕ) (x : NodeID) : (s.live t x).Pairwise fun c c' =>
    (s.live t c.subjectId).idxOf c < (s.live t c'.subjectId).idxOf c' := by
  refine (pairwise_idxOf (Sane.nodup_live h t x)).imp_of_mem fun hc hc' hlt => ?_
  rw [h.filed.src t x _ hc, h.filed.src t x _ hc']
  exact hlt

theorem Sane.nodup_starts (h : Sane P s) (t : ℕ) (target : NodeID) : (starts s t target).Nodup :=
  (List.perm_insertionSort _ _).nodup_iff.mpr ((Sane.nodup_held h target).filter _)

/-- **A chain found first is found as long as it is left**, when certificates die or are dropped. -/
theorem build_fewer (h : Sane P s) (hs : Shrinks s s') (ht : t ≤ t')
    (hown : Anchored s t s.ownId → Anchored s' t' s.ownId ∨ s.ownId = target)
    (hleft : Left s' t' (s.buildChainToRoot target t)) :
    s'.buildChainToRoot target t' = s.buildChainToRoot target t := by
  have h' := h.shrink hs
  have hlive := live_sublist hs ht
  have hstarts := Sane.nodup_starts h t target
  have hplaces := Sane.places h t
  have hfew : Fewer (s.live t) (s'.live t') (kind s t) (kind s' t') target := by
    have hanchored : ∀ {x}, Anchored s' t' x → Anchored s t x := fun hx =>
      anchored_mono ht (anchored_of_shrinks hs hx)
    refine ⟨fun x c hc => (hlive x).subset hc, fun x hx => ?_, fun x hx => ?_, fun x hx => ?_⟩
    · unfold kind at hx ⊢
      rw [if_neg fun hx' => ?_]
      rw [if_pos (hanchored hx')] at hx
      split_ifs at hx
    · obtain ⟨rfl, hanch⟩ := kind_held.mp hx
      refine (hown hanch).imp_left fun hstill => kind_held.mpr ?_
      rw [hs.ownId]
      exact ⟨rfl, hstill⟩
    · unfold kind at hx ⊢
      by_cases hx' : Anchored s' t' x
      · rw [if_pos hx', if_pos (hanchored hx'), hs.ownId]
      · rw [if_neg hx'] at hx
        exact absurd rfl hx
  have hinj : ∀ {l : List (Certificate K)} {c c' : Certificate K}, c ∈ l → l.idxOf c = l.idxOf c' → c = c' :=
    fun hc heq => (List.idxOf_inj hc).mp heq
  refine First.fewer hfew (fun c hc c' _ heq => hinj (l := starts s t target) ?_ heq)
    (fun x c hc c' hc' heq => hinj (l := s.live t x) hc ?_)
    (build_first h.filed (pairwise_idxOf hstarts) hplaces)
    (build_first h'.filed ((pairwise_idxOf hstarts).sublist (starts_sublist hs ht target))
      fun x => (hplaces x).sublist (hlive x)) fun x path r hr hv htrail => ?_
  · rwa [starts, List.mem_insertionSort, List.mem_filter, ← mem_live]
  · rwa [h.filed.src t x c hc, h.filed.src t x c' hc'] at heq
  · obtain ⟨hroot, hanchor⟩ := verdict_anchor hv
    rw [hr] at hleft
    have husable : ∀ c ∈ r, c ∈ s.live t c.subjectId → c ∈ s'.live t' c.subjectId := fun c hc hmem => by
      obtain ⟨hheld, halive⟩ := hleft c hc
      have hu := (mem_live.mp hmem).2
      rw [mem_live, usable_congr hs.revoked]
      simp only [usable, Bool.and_eq_true, Bool.not_eq_true'] at hu ⊢
      exact ⟨hheld, halive, hu.2⟩
    have hpath : ∀ c ∈ path, c ∈ r := fun c hc => by
      rcases anchor_cases hanchor with ⟨rfl, -⟩ | ⟨rc, -, -, rfl⟩
      · exact hc
      · exact List.mem_append_left _ hc
    have htrail' : CertTrail s' t' target path x :=
      ⟨fun c hc => husable c (hpath c hc) (htrail.edges c hc), htrail.linked, htrail.head, htrail.last⟩
    have hanchor' : s'.anchor t' x path = s.anchor t x path := by
      unfold anchor at hanchor ⊢
      cases hlast : path.getLast? with
      | none => rfl
      | some last =>
        rw [hlast] at hanchor
        dsimp only at hanchor ⊢
        split_ifs at hanchor ⊢ with hself
        · rfl
        · obtain ⟨rc, hfind, hrc⟩ := Option.map_eq_some_iff.mp hanchor
          have hmem := List.mem_of_find?_eq_some hfind
          have hsub := h.filed.src t x rc hmem
          have hin : rc ∈ s'.live t' x := by
            rw [← hsub]
            exact husable rc (by rw [← hrc]; simp) (by rwa [hsub])
          rw [hfind, find?_sublist (hlive x) (Sane.nodup_live h t x) hfind hin]
    have hverdict : verdict s' t' x path = verdict s t x path := by
      unfold verdict
      rw [hanchor', hs.roots, hs.ownId]
    refine ⟨htrail', hverdict, ?_⟩
    rw [← verdict_kind h'.filed htrail', hverdict, verdict_kind h.filed htrail]

/-! ### The certificates of a remembered chain -/

/-- The certificates of a chain are held, and their subjects differ. -/
structure Apart (s : CertStore K) (chain : Option (List (Certificate K))) : Prop where
  held : ∀ c ∈ chain.getD [], c ∈ s.held c.subjectId
  once : ((chain.getD []).map subjectId).Nodup

theorem held_of_build (hf : Filed s) (target : NodeID) (t : ℕ) :
    ∀ c ∈ (s.buildChainToRoot target t).getD [], c ∈ s.held c.subjectId := by
  intro c hc
  cases hb : s.buildChainToRoot target t with
  | none =>
    rw [hb] at hc
    cases hc
  | some chain =>
    rw [hb] at hc
    obtain ⟨x, hx⟩ := build_chainTo hf hb
    exact (hx.held c hc).1

theorem apart_build (h : Sane P s) (t : ℕ) : Apart s (s.buildChainToRoot s.ownId t) := by
  refine ⟨held_of_build h.filed s.ownId t, ?_⟩
  cases build_first (t := t) h.filed (pairwise_idxOf (Sane.nodup_starts h t s.ownId))
    (Sane.places h t) with
  | found x path r hr hv ht _ =>
    obtain ⟨hroot, hne, ha⟩ := verdict_done hv
    obtain ⟨c, hc, ho⟩ := outer_of_outcome h.filed (build_outcome h.filed s.ownId t) (by
      rw [hr]
      exact (anchor_spec h.filed ht.trail hroot ha).endsOutside.mpr hne)
    rw [hc]
    exact ho.once
  | kept x path r hr hv _ ht hfirst =>
    obtain ⟨hroot, hown, ha⟩ := verdict_keep hv
    obtain ⟨-, hanch⟩ := kind_held.mp ht.ends
    obtain ⟨-, c, hc, hu, hself⟩ := id hanch
    have hsub := h.filed _ c hc
    -- our self-signed certificate is a trail of one step
    have hone : TrailTo (s.live t) subjectId issuerId (kind s t) s.ownId .held
        [c] s.ownId := by
      refine ⟨?_, fun y hy => (by simp at hy), kind_held.mpr ⟨rfl, hanch⟩⟩
      have hiss : c.issuerId = s.ownId := by rw [← isSelfSigned_iff.mp hself, hsub]
      rw [← hiss]
      exact Trail.single (mem_live.mpr ⟨by rwa [hsub], hu⟩) (hsub.trans hiss.symm)
    have hlen : path.length ≤ 1 := by
      by_contra hlong
      exact absurd (hfirst _ _ hone) (not_le.mpr (key_lt_iff.mpr (Or.inl (by simpa using hlong))))
    obtain ⟨e, rfl⟩ : ∃ e, path = [e] := by
      have hpos := List.length_pos_iff.mpr (Trail.ne_nil ht.trail)
      exact List.length_eq_one_iff.mp (by omega)
    have hfrom : e.subjectId = s.ownId := by simpa using ht.trail.head
    have hto : e.issuerId = x := by simpa using ht.trail.last
    have he : e.isSelfSigned = true := isSelfSigned_iff.mpr (by rw [hfrom, hto, hown])
    have hr' : r = [e] := by
      unfold anchor at ha
      simpa [he] using ha.symm
    rw [hr, hr']
    exact List.nodup_singleton _
  | lost hr =>
    rw [hr]
    exact List.nodup_nil

/-- The store while a certificate is taken in: there is no chain in the memo but our own, and its
certificates are held. -/
structure Tended (P : Certificate K → Prop) (s : CertStore K) : Prop where
  sane : Sane P s
  bound : 1 ≤ s.maxPerSubject
  ownOnly : OwnOnly s
  memo : ∀ chain goodUntil, s.chains.get? s.ownId = some (chain, goodUntil) → Apart s chain

theorem Tended.answer (h : Tended P s) (clock : ℕ) :
    Apart s (s.getChainToRoot s.ownId none clock).1 := by
  rcases answer_cases s s.ownId clock with ⟨goodUntil, hget, -, -⟩ | ⟨hbuilt, -⟩
  · exact h.memo _ goodUntil hget
  · rw [hbuilt]
    exact apart_build h.sane clock

theorem Tended.keep (h : Tended P s) (hs : Shrinks (s.getChainToRoot s.ownId none clock).2 s')
    (hc : s'.chains = (s.getChainToRoot s.ownId none clock).2.chains)
    (hkeep : ∀ c, (s.getChainToRoot s.ownId none clock).1 = some c → ∀ a ∈ c, a ∈ s'.held a.subjectId) :
    Tended P s' := by
  have hall := (shrinks_lookup s s.ownId none clock).trans hs
  refine ⟨h.sane.shrink hall, by rw [hall.bound]; exact h.bound, fun target ht => ?_,
    fun chain goodUntil hget => ⟨fun a ha => ?_, ?_⟩⟩
  · rw [hc] at ht
    rw [hs.ownId]
    exact h.ownOnly.lookup none clock target ht
  all_goals
    obtain ⟨g, hg⟩ := lookup_get? s s.ownId clock
    rw [hc, hall.ownId, hg] at hget
    obtain ⟨rfl, -⟩ := Prod.mk.inj (Option.some.inj hget)
  · cases hanswer : (s.getChainToRoot s.ownId none clock).1 with
    | none =>
      rw [hanswer] at ha
      cases ha
    | some c =>
      rw [hanswer] at ha
      exact hkeep c hanswer a ha
  · exact (h.answer clock).once

theorem Tended.lookup (h : Tended P s) (clock : ℕ) :
    Tended P (s.getChainToRoot s.ownId none clock).2 :=
  h.keep (.refl _) rfl fun c hc a ha => by
    rw [(sameGraph_lookup s s.ownId none clock).held]
    exact (h.answer clock).held a (by rwa [hc])

theorem Tended.subjectBound (h : Tended P s) (hb : Binding P) (key : NodeID) (clock : ℕ) :
    Tended P (s.enforceSubjectBound key clock) := by
  unfold enforceSubjectBound
  dsimp only
  split_ifs
  · have hheld := (sameGraph_lookup s s.ownId none clock).held key
    refine h.keep (shrinks_set _ key (by rw [hheld]; exact trim_sublist _ _ _ _)) rfl fun c hc a ha => ?_
    have hanswer := h.answer clock
    rw [hc] at hanswer
    exact mem_held_trim h.sane h.bound hb key _ hc hanswer.held hanswer.once ha
  · exact h

theorem Tended.touch (h : Tended P s) (key : NodeID) : Tended P (s.touch key) := by
  have hsame := sameGraph_touch s key
  have hchains := (touch_fields s key).2.2.2.1
  refine ⟨h.sane.shrink hsame.shrinks, by rw [hsame.bound]; exact h.bound, fun target ht => ?_,
    fun chain goodUntil hget => ?_⟩
  · rw [hchains] at ht
    rw [hsame.ownId]
    exact h.ownOnly target ht
  · rw [hchains, hsame.ownId] at hget
    obtain ⟨hheld, honce⟩ := h.memo chain goodUntil hget
    exact ⟨fun c hc => by rw [hsame.held]; exact hheld c hc, honce⟩

theorem Tended.enforceBounds (h : Tended P s) (clock n : ℕ) : Tended P (enforceBounds clock n s) := by
  refine enforceBounds_induct (fun _ h1 => h1.lookup clock) (fun s1 victim h1 _ hv => ?_) n s h
  refine h1.keep (shrinks_pop _ victim) rfl fun c hc a ha => mem_held_pop hv hc ha ?_
  exact (h1.answer clock).held a (by rwa [hc])

/-- The certificates of every chain in the memo are held. -/
def Supplied (s : CertStore K) : Prop :=
  ∀ target chain goodUntil, s.chains.get? target = some (chain, goodUntil) →
    ∀ c ∈ chain.getD [], c ∈ s.held c.subjectId

theorem supplied_empty (h : s.chains = Dict.empty) : Supplied s := by
  intro target chain goodUntil hget
  rw [h] at hget
  cases hget

theorem Tended.supplied (h : Tended P s) : Supplied s := by
  intro target chain goodUntil hget
  obtain rfl := h.ownOnly target (Dict.mem_keys_of_get? hget)
  exact (h.memo chain goodUntil hget).held

theorem Supplied.same (h : Supplied s) (hs : SameGraph s s') (hc : s'.chains = s.chains) : Supplied s' := by
  intro target chain goodUntil hget c hmem
  rw [hc] at hget
  rw [hs.held]
  exact h target chain goodUntil hget c hmem

theorem Supplied.lookup (h : Supplied s) (hf : Filed s) (target : NodeID) (now : Option ℕ) (clock : ℕ) :
    Supplied (s.getChainToRoot target now clock).2 := by
  have hsame := sameGraph_lookup s target now clock
  rcases lookup_chains s target now clock with hc | hc
  · exact h.same hsame hc
  · intro target' chain goodUntil hget c hmem
    rw [hsame.held]
    rw [hc] at hget
    rcases Dict.get?_of_set hget with ⟨-, heq⟩ | ⟨-, hget⟩
    · obtain ⟨rfl, -⟩ := Prod.mk.inj heq
      exact held_of_build hf target clock c hmem
    · exact h target' chain goodUntil hget c hmem

/-- **Every operation leaves the memo's chains of certificates held.** -/
theorem Supplied.step (hb : Binding P) (hs : Sane P s) (hmax : 1 ≤ s.maxPerSubject) (h : Supplied s)
    {act : ℕ × Op K} (ha : Adds P act) : Supplied (s.step act) := by
  obtain ⟨clock, op⟩ := act
  rcases emptied_cases s clock op with ⟨cert, rfl⟩ | ⟨target, now, rfl⟩ | he | hc
  · change Supplied (s.add cert clock).2
    rcases add_cases s cert clock with he | he | ⟨-, -, hnew, n, he⟩ <;> rw [he]
    · exact h
    · exact h.same (sameGraph_touch s _) (touch_fields s _).2.2.2.1
    · have hfile : Tended P (s.file cert) :=
        ⟨hs.file ha hnew, hmax, ownOnly_empty rfl, fun chain goodUntil hget => by cases hget⟩
      exact (((hfile.subjectBound hb cert.subjectId clock).touch cert.subjectId).enforceBounds clock n).supplied
  · exact h.lookup hs.filed target now clock
  · rw [he]
    exact h
  · exact supplied_empty hc

theorem supplied_reachable (hb : Binding P) (h : Reachable P s T) (hmax : 1 ≤ s.maxPerSubject) :
    Supplied s := by
  refine (h.induct (Q := fun s _ => Sane P s ∧ (1 ≤ s.maxPerSubject → Supplied s)) ?_ ?_).2 hmax
  · exact fun ownId a b c => ⟨sane_new P ownId a b c, fun _ => supplied_empty rfl⟩
  · intro s T act hs _ ha
    refine ⟨hs.1.step ha, fun hm => ?_⟩
    rw [maxPerSubject_step] at hm
    exact (hs.2 hm).step hb hs.1 hm ha

/-! ### What the memo holds is what a search returns -/

/-- The self-signed certificates of `own` do not expire. -/
def Lasts (P : Certificate K → Prop) (own : NodeID) : Prop :=
  ∀ c, P c → c.isSelfSigned = true → c.subjectId = own → c.expiresAt = 0

theorem anchored_lasts (h : Sane P s) (hown : Lasts P s.ownId) (ha : Anchored s t s.ownId) (t' : ℕ) :
    Anchored s t' s.ownId := by
  obtain ⟨hroot, c, hc, hu, hself⟩ := ha
  refine ⟨hroot, c, hc, ?_, hself⟩
  simp only [usable, Bool.and_eq_true, Bool.not_eq_true'] at hu ⊢
  refine ⟨?_, hu.2⟩
  unfold isExpired
  rw [if_pos (hown c (h.known _ c hc) hself (h.filed _ c hc))]

/-- What is said of a chain: a search returns it while it is left. -/
def Lasting (P : Certificate K → Prop) (own : NodeID) : Said K := fun T s target chain =>
  Sane P s ∧ (s.ownId = own → ∀ t, T ≤ t → (earliestExpiry chain = 0 ∨ t ≤ earliestExpiry chain) →
    (∀ c ∈ chain.getD [], c ∈ s.held c.subjectId) → s.buildChainToRoot target t = chain)

theorem left_of_alive (hheld : ∀ c ∈ chain.getD [], c ∈ s.held c.subjectId)
    (halive : earliestExpiry chain = 0 ∨ t ≤ earliestExpiry chain) : Left s t chain := by
  intro c hc
  refine ⟨hheld c hc, ?_⟩
  cases chain with
  | none => cases hc
  | some chain => exact not_isExpired_of_earliestExpiry halive c hc

theorem build_same (h : Sane P s) (hs : SameGraph s s') (target : NodeID) (t : ℕ) :
    s'.buildChainToRoot target t = s.buildChainToRoot target t := by
  refine build_fewer h hs.shrinks le_rfl (fun ha => Or.inl ((anchored_congr hs).mpr ha)) ?_
  refine left_of_alive (fun c hc => ?_) (build_alive h.filed target t)
  rw [hs.held]
  exact held_of_build h.filed target t c hc

theorem lasting_rule (hown : Lasts P own) : Rule P (Lasting P own) where
  built {s} hs target clock := by
    refine ⟨hs, fun ho t ht halive hheld => ?_⟩
    refine build_fewer hs (.refl s) ht (fun ha => Or.inl ?_) (left_of_alive hheld halive)
    exact anchored_lasts hs (by rwa [ho]) ha t
  later {T T' s target chain} hT h := ⟨h.1, fun ho t ht => h.2 ho t (hT.trans ht)⟩
  same {T s s' target chain} hs h := by
    refine ⟨h.1.shrink hs.shrinks, fun ho t ht halive hheld => ?_⟩
    rw [build_same h.1 hs]
    refine h.2 (by rw [← hs.ownId]; exact ho) t ht halive fun c hc => ?_
    rw [← hs.held]
    exact hheld c hc
  own {T s s' chain} hs h := by
    refine ⟨h.1.shrink hs, fun ho t ht halive hheld => ?_⟩
    have hbuild := h.2 (by rw [← hs.ownId]; exact ho) t ht halive fun c hc =>
      (hs.held _).subset (hheld c hc)
    rw [← hbuild]
    refine build_fewer h.1 hs le_rfl (fun _ => Or.inr rfl) ?_
    rw [hbuild]
    exact left_of_alive hheld halive

/-- The memo holds what a search returns. -/
structure Truthful (P : Certificate K → Prop) (T : ℕ) (s : CertStore K) : Prop where
  sane : Sane P s
  memo : Entries (Lasting P s.ownId) T s
  supplied : Supplied s

theorem Truthful.answer (h : Truthful P T s) (hT : T ≤ clock) (target : NodeID) :
    (s.getChainToRoot target none clock).1 = s.buildChainToRoot target clock := by
  rcases answer_cases s target clock with ⟨goodUntil, hget, hgood, -⟩ | ⟨hbuilt, -⟩
  · obtain ⟨rfl, hsaid⟩ := h.memo target _ goodUntil hget
    exact (hsaid.2 rfl clock hT hgood (h.supplied target _ _ hget)).symm
  · exact hbuilt

theorem Truthful.lookup (h : Truthful P T s) (hown : Lasts P s.ownId) (hT : T ≤ clock)
    (target : NodeID) (now : Option ℕ) : Truthful P clock (s.getChainToRoot target now clock).2 := by
  have hsame := sameGraph_lookup s target now clock
  refine ⟨h.sane.shrink hsame.shrinks, ?_, h.supplied.lookup h.sane.filed target now clock⟩
  rw [hsame.ownId]
  exact h.memo.lookup (lasting_rule hown) h.sane hT target now

theorem truthful_fresh (hs : Sane P s) (hc : s.chains = Dict.empty) (T : ℕ) : Truthful P T s :=
  ⟨hs, memo_empty hc, supplied_empty hc⟩

theorem truthful_reachable (hb : Binding P) (hown : Lasts P s.ownId) (h : Reachable P s T)
    (hmax : 1 ≤ s.maxPerSubject) : Truthful P T s :=
  ⟨h.sane, memo_reachable (lasting_rule hown) h, supplied_reachable hb h hmax⟩

end NMesh.Cert.Fresh
