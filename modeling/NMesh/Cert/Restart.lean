import NMesh.Base.JsonStyle
import NMesh.Cert.Document
import NMesh.Cert.Fresh
import NMesh.Cert.Order

/-! # A restart

`load` replays what `save` wrote through the operations that refuse: the roots, then the revocations, then
the certificates. Within the default bounds nothing is evicted, and each record and each certificate is
taken in where it stood, so the store is the same but for the certificates that have expired or been taken
back, and the memo (`load_save`). So what it answers from then on is the same (`restart`), and what it may
answer differently is about earlier moments (`restart_changes`). -/

namespace NMesh.Cert.Restart

open Base.BigEndian Base.Utf8 Base.Hex Base.Ordered Base.JsonText
open Base.JsonRound Base.JsonStyle
open NMesh.Cert.Identity NMesh.Cert.Revocation NMesh.Cert.Store NMesh.Cert.Store.CertStore NMesh.Cert.Walk
open NMesh.Cert.Upkeep NMesh.Cert.Memo NMesh.Cert.Complete NMesh.Cert.Pinning NMesh.Cert.Order
open NMesh.Cert.Fresh NMesh.Cert.Descent NMesh.Cert.Document

variable {K : Crypto} {P : Certificate K → Prop} {s s' : CertStore K} {T t clock : ℕ}

/-! ### Revocations and their records -/

def Recorded (K : Crypto) (pair : NodeID × NodeID) (held : Revoked) : Prop :=
  ∃ parsed, parse K held.record = some parsed ∧ pair = (parsed.issuerId, parsed.subjectId) ∧
    held = ⟨parsed.issuedAt, parsed.reason, held.record⟩

def AllRecorded (s : CertStore K) : Prop :=
  ∀ pair held, s.revoked.get? pair = some held → Recorded K pair held

theorem get?_enforceRevocationBound {pair : NodeID × NodeID} {held : Revoked} : ∀ {n : ℕ} {s : CertStore K},
    (enforceRevocationBound n s).revoked.get? pair = some held → s.revoked.get? pair = some held
  | 0, _, h => h
  | n + 1, s, h => by
    unfold enforceRevocationBound at h
    split_ifs at h
    · split at h
      · exact h
      · exact (Dict.get?_of_pop (get?_enforceRevocationBound h)).2
    · exact h

theorem AllRecorded.revoke (h : AllRecorded s) (record : Bytes) : AllRecorded (s.revoke record).2 := by
  unfold CertStore.revoke
  cases hparse : parse K record with
  | none => exact h
  | some parsed =>
    dsimp only
    split_ifs with hold
    · exact h
    · intro pair held hget
      rw [dropVoided_frame] at hget
      have hset := get?_enforceRevocationBound hget
      dsimp only at hset
      rcases Dict.get?_of_set hset with ⟨hpair, rfl⟩ | ⟨-, hset⟩
      · exact ⟨parsed, hparse, hpair, rfl⟩
      · exact h pair held hset

theorem allRecorded_congr (h : AllRecorded s) (hr : s'.revoked = s.revoked) : AllRecorded s' := by
  intro pair held hget
  rw [hr] at hget
  exact h pair held hget

theorem AllRecorded.step (h : AllRecorded s) (act : ℕ × Op K) : AllRecorded (s.step act) := by
  obtain ⟨clock, op⟩ := act
  cases op with
  | add cert =>
    refine allRecorded_congr h ?_
    show (s.add cert clock).2.revoked = s.revoked
    rcases add_cases s cert clock with he | he | ⟨-, -, -, n, he⟩ <;> rw [he]
    · exact (touch_fields s _).2.1
    · exact (shrinks_file s cert clock n).revoked
  | addRoot nodeId => exact h
  | removeRoot nodeId =>
    refine allRecorded_congr h ?_
    show (s.removeRoot nodeId).2.revoked = s.revoked
    unfold removeRoot
    split_ifs <;> rfl
  | revoke record => exact h.revoke record
  | pruneExpired now =>
    refine allRecorded_congr h ?_
    show (s.pruneExpired now clock).2.revoked = s.revoked
    rcases pruneExpired_cases s now clock with he | ⟨hs, -⟩
    · rw [he]
    · exact hs.revoked
  | lookup target now => exact allRecorded_congr h (shrinks_lookup s target now clock).revoked

theorem recorded_reachable (h : Reachable P s T) : AllRecorded s :=
  h.induct (Q := fun s _ => AllRecorded s) (fun _ _ _ _ _ _ hget => by cases hget)
    fun _ _ act hs _ _ => hs.step act

/-! ### The file -/

theorem clean_hex (data : Bytes) : Clean (.str (toHex data)) := scalar_toHex data

theorem clean_certJson (c : Certificate K) : Clean (certJson c) := by
  obtain ⟨-, -, hissued, hexpires⟩ := c.packs
  have hkeys : [ascii "subject_pub", ascii "issuer_id", ascii "issuer_pub", ascii "issued_at",
      ascii "expires_at", ascii "signature"].Nodup := by decide
  refine ⟨hkeys, ?_⟩
  refine ⟨by decide, clean_hex _, by decide, clean_hex _, by decide, clean_hex _, by decide, ?_, by decide, ?_,
    by decide, clean_hex _, trivial⟩
  · exact clean_nat hissued
  · exact clean_nat hexpires

theorem height_certJson (c : Certificate K) : height (certJson c) = 1 := rfl

theorem nodup_hex {κ α : Type} {raw : κ → Bytes} (hraw : raw.Injective) {l : List (κ × α)}
    (h : (l.map Prod.fst).Nodup) : (l.map fun e => toHex (raw e.1)).Nodup := by
  have := h.map (f := fun k => toHex (raw k)) fun a b hab => hraw (toHex_inj hab)
  rwa [List.map_map] at this

theorem clean_lineage (lineage : Lineage) : Clean lineage.toJson := by
  refine ⟨?_, ?_⟩
  · rw [List.map_map]
    exact nodup_hex Function.injective_id lineage.bySubject.nodup
  rw [cleanMembers_iff]
  simp only [List.forall_mem_map]
  refine fun e _ => ⟨scalar_toHex e.1, ?_⟩
  show CleanItems _
  rw [cleanItems_iff]
  simp only [List.forall_mem_map]
  exact fun a _ => clean_hex a

theorem clean_saved (s : CertStore K) (lineage : Lineage) (roots : List NodeID) :
    Clean (saved s lineage roots) := by
  have hkeys : [ascii "roots", ascii "certs", ascii "revocations", ascii "lineage"].Nodup := by decide
  refine ⟨hkeys, by decide, ?_, by decide, ⟨?_, ?_⟩, by decide, ?_, by decide, clean_lineage lineage,
    trivial⟩
  · show CleanItems _
    rw [cleanItems_iff]
    simp only [List.forall_mem_map]
    exact fun r _ => clean_hex r.raw
  · rw [List.map_map]
    exact nodup_hex (fun a b => NodeID.ext) s.certs.nodup
  · rw [cleanMembers_iff]
    simp only [List.forall_mem_map]
    refine fun e _ => ⟨scalar_toHex e.1.raw, ?_⟩
    show CleanItems _
    rw [cleanItems_iff]
    simp only [List.forall_mem_map]
    exact fun c _ => clean_certJson c
  · show CleanItems _
    rw [cleanItems_iff]
    simp only [List.forall_mem_map]
    exact fun held _ => clean_hex held.record

theorem height_saved (s : CertStore K) (lineage : Lineage) (roots : List NodeID) :
    height (saved s lineage roots) ≤ 4 := by
  have hleaves : ∀ {α : Type} (f : α → Bytes) (l : List α),
      height (.arr (l.map fun a => .str (toHex (f a)))) ≤ 1 := fun f l => by
    rw [height, Nat.add_le_add_iff_right, heightItems_le]
    simp only [List.forall_mem_map]
    exact fun a _ => le_rfl
  have hcerts : height (.obj (s.certs.entries.map fun e => (toHex e.1.raw, .arr (e.2.map certJson)))) ≤ 3 := by
    rw [height, Nat.add_le_add_iff_right (n := 1), heightMembers_le]
    simp only [List.forall_mem_map]
    intro e _
    rw [height, Nat.add_le_add_iff_right (n := 1), heightItems_le]
    simp only [List.forall_mem_map]
    exact fun c _ => (height_certJson c).le
  have hlineage : height lineage.toJson ≤ 3 := by
    unfold Lineage.toJson
    rw [height, Nat.add_le_add_iff_right (n := 1), heightMembers_le]
    simp only [List.forall_mem_map]
    exact fun e _ => (hleaves id e.2).trans (by decide)
  unfold saved
  rw [height, Nat.add_le_add_iff_right (n := 1), heightMembers_le]
  simp only [List.forall_mem_cons]
  exact ⟨(hleaves NodeID.raw roots).trans (by decide), hcerts,
    (hleaves Revoked.record s.revoked.values).trans (by decide), hlineage, fun e he => by cases he⟩

/-! ### Loading the roots and the revocations -/

theorem loadRoot_hex (s : CertStore K) (r : NodeID) :
    loadRoot s (.str (toHex r.raw)) = some { s with roots := insert r s.roots } := by
  unfold loadRoot
  rw [hexOf_toHex]
  dsimp only
  rw [ofRaw_raw]

theorem foldlM_loadRoot : ∀ (roots : List NodeID) (s : CertStore K),
    (roots.map fun r => Json.str (toHex r.raw)).foldlM loadRoot s =
      some { s with roots := s.roots ∪ roots.toFinset }
  | [], s => by simp
  | r :: roots, s => by
    rw [List.map_cons, List.foldlM_cons, loadRoot_hex]
    show (roots.map fun r => Json.str (toHex r.raw)).foldlM loadRoot
      ({ s with roots := insert r s.roots } : CertStore K) = _
    rw [foldlM_loadRoot roots]
    simp

theorem held_empty (h : s.certs = Dict.empty) (key : NodeID) : s.held key = [] := by
  unfold held
  rw [h]
  rfl

theorem dropVoided_nil {subject : NodeID} (h : s.held subject = []) : s.dropVoided subject = s := by
  unfold dropVoided
  dsimp only
  rw [h, List.filter_nil, if_pos rfl]

theorem revoke_alone {pair : NodeID × NodeID} {held : Revoked} (hc : s.certs = Dict.empty)
    (hchains : s.chains = Dict.empty) (hrec : Recorded K pair held) (hnew : pair ∉ s.revoked.keys)
    (hroom : s.revoked.size < s.maxRevocations) :
    (s.revoke held.record).2 = { s with revoked := s.revoked.set pair held } := by
  obtain ⟨parsed, hparse, rfl, hheld⟩ := hrec
  have hsize : ∀ parsed' held', parse K held.record = some parsed' →
      (s.revoked.set (parsed'.issuerId, parsed'.subjectId) held').size ≤ s.maxRevocations := by
    intro parsed' held' hparse'
    obtain rfl := Option.mem_unique hparse hparse'
    rw [Dict.size_set_of_notMem hnew]
    exact hroom
  rcases revoke_room hsize with ⟨hnone, -⟩ | ⟨parsed', hparse', hcase⟩
  · rw [hparse] at hnone
    cases hnone
  · obtain rfl := Option.mem_unique hparse hparse'
    rcases hcase with ⟨⟨held', hget, -⟩, -⟩ | ⟨-, heq⟩
    · exact absurd (Dict.mem_keys_of_get? hget) hnew
    · rw [heq, ← hheld, ← hchains]
      exact dropVoided_nil (held_empty hc _)

theorem foldlM_loadRevocation : ∀ (es : List ((NodeID × NodeID) × Revoked)) (s : CertStore K),
    s.certs = Dict.empty → s.chains = Dict.empty → (∀ e ∈ es, Recorded K e.1 e.2) →
    ((s.revoked.entries ++ es).map Prod.fst).Nodup → s.revoked.size + es.length ≤ s.maxRevocations →
    ∃ revoked : Dict (NodeID × NodeID) Revoked, revoked.entries = s.revoked.entries ++ es ∧
      (es.map fun e => Json.str (toHex e.2.record)).foldlM loadRevocation s =
        some { s with revoked := revoked }
  | [], s, _, _, _, _, _ => ⟨s.revoked, (List.append_nil _).symm, rfl⟩
  | (pair, held) :: es, s, hc, hchains, hes, hkeys, hroom => by
    rw [List.length_cons] at hroom
    have hnew : pair ∉ s.revoked.keys := fun hmem => by
      rw [List.map_append, List.nodup_append] at hkeys
      exact hkeys.2.2 pair hmem pair List.mem_cons_self rfl
    have hentries := Dict.entries_set_of_notMem hnew held
    have hload : loadRevocation s (.str (toHex held.record)) =
        some { s with revoked := s.revoked.set pair held } := by
      unfold loadRevocation
      rw [hexOf_toHex]
      dsimp only
      rw [revoke_alone hc hchains (hes _ List.mem_cons_self) hnew (by omega)]
    obtain ⟨revoked, hrevoked, hfold⟩ := foldlM_loadRevocation es
      { s with revoked := s.revoked.set pair held } hc hchains
      (fun e he => hes e (List.mem_cons_of_mem _ he))
      (by
        dsimp only
        rwa [hentries, List.append_assoc])
      (by
        dsimp only
        rw [Dict.size_set_of_notMem hnew]
        omega)
    refine ⟨revoked, ?_, ?_⟩
    · dsimp only at hrevoked
      rw [hrevoked, hentries, List.append_assoc]
      rfl
    · rw [List.map_cons, List.foldlM_cons, hload]
      exact hfold

/-! ### Loading the certificates -/

def under (key : NodeID) (certs : List (Certificate K)) : List (NodeID × List (Certificate K)) :=
  if certs = [] then [] else [(key, certs)]

theorem touch_moveToEnd (s : CertStore K) (key : NodeID) :
    s.touch key = { s with certs := s.certs.moveToEnd key } := by
  unfold touch Dict.moveToEnd
  cases s.certs.get? key <;> rfl

variable {before : List (NodeID × List (Certificate K))} {certs : List (Certificate K)} {key : NodeID}

theorem held_under (he : s.certs.entries = before ++ under key certs) (hnew : key ∉ before.map Prod.fst) :
    s.held key = certs := by
  unfold held under at *
  split_ifs at he with hc
  · rw [Dict.get?_eq_none.mpr, hc]
    · rfl
    · rw [Dict.keys, he, List.append_nil]
      exact hnew
  · have hget : s.certs.get? key = some certs := Dict.get?_eq_some.mpr (by
      rw [he]
      exact List.mem_append_right _ (List.mem_singleton_self _))
    rw [hget]
    rfl

theorem entries_pop_under (he : s.certs.entries = before ++ under key certs)
    (hnew : key ∉ before.map Prod.fst) : (s.certs.pop key).entries = before := by
  show s.certs.entries.filter _ = before
  rw [he, List.filter_append]
  have hbefore : before.filter (fun e => decide (e.1 ≠ key)) = before :=
    List.filter_eq_self.mpr fun e hmem => decide_eq_true fun h => hnew (h ▸ List.mem_map_of_mem hmem)
  have hunder : (under key certs).filter (fun e => decide (e.1 ≠ key)) = [] := by
    unfold under
    split_ifs <;> simp
  rw [hbefore, hunder, List.append_nil]

theorem add_under {c : Certificate K} (hsub : c.subjectId = key)
    (he : s.certs.entries = before ++ under key certs) (hnew : key ∉ before.map Prod.fst)
    (hchains : s.chains = Dict.empty) (hsig : ∀ e ∈ certs, e.signature ≠ c.signature)
    (hlen : certs.length < s.maxPerSubject) (hsize : before.length < s.maxSubjects) :
    ∃ d : Dict NodeID (List (Certificate K)), (s.add c clock).2 = { s with certs := d } ∧
      d.entries = before ++ under key (certs ++ [c].filter (s.usable clock)) := by
  subst hsub
  have hheld := held_under he hnew
  by_cases hu : s.usable clock c = true
  · have hnext : ((s.file c).touch c.subjectId).certs.entries = before ++ [(c.subjectId, certs ++ [c])] := by
      rw [touch_moveToEnd]
      show (((s.certs.set c.subjectId (s.held c.subjectId ++ [c]))).moveToEnd c.subjectId).entries = _
      rw [Dict.entries_refile, entries_pop_under he hnew, hheld]
    have hroom : (∀ e ∈ s.held c.subjectId, e.signature ≠ c.signature) →
        ((s.file c).held c.subjectId).length ≤ s.maxPerSubject ∧
          (s.file c).certs.size ≤ s.maxSubjects := fun _ => by
      refine ⟨?_, ?_⟩
      · rw [held_file, if_pos rfl, hheld, List.length_append]
        exact hlen
      · have hsz := size_touch (s.file c) c.subjectId
        have : ((s.file c).touch c.subjectId).certs.size = before.length + 1 := by
          rw [Dict.size, hnext, List.length_append]
          rfl
        omega
    simp only [usable, Bool.and_eq_true, Bool.not_eq_true'] at hu
    rcases add_room hroom with ⟨hdead, -⟩ | ⟨⟨e, hmem, hdup⟩, -⟩ | ⟨-, hadd⟩
    · rw [hu.1, hu.2] at hdead
      rcases hdead with h | h <;> cases h
    · rw [hheld] at hmem
      exact absurd hdup (hsig e hmem)
    · refine ⟨((s.file c).touch c.subjectId).certs, ?_, ?_⟩
      · rw [hadd, touch_frame]
        show ({ s with certs := _, chains := Dict.empty } : CertStore K) = _
        rw [← hchains]
      · rw [hnext, List.filter_cons_of_pos (by simp [usable, hu.1, hu.2])]
        unfold under
        rw [if_neg (by simp), List.filter_nil]
  · have hrej : (c.isExpired clock || s.isRevoked c) = true := by
      by_contra h
      refine hu ?_
      rw [Bool.not_eq_true, Bool.or_eq_false_iff] at h
      rw [usable, h.1, h.2]
      rfl
    refine ⟨s.certs, ?_, ?_⟩
    · unfold add
      rw [if_pos hrej]
    · rw [List.filter_cons_of_neg hu, List.filter_nil, List.append_nil, he]

theorem under_nil (key : NodeID) : under key ([] : List (Certificate K)) = [] := if_pos rfl

theorem keys_under_sublist (key : NodeID) (certs : List (Certificate K)) :
    ((under key certs).map Prod.fst).Sublist [key] := by
  unfold under
  split_ifs
  · exact List.nil_sublist _
  · exact .refl _

variable (clock) in
theorem foldlM_loadCert : ∀ (l : List (Certificate K)) {s : CertStore K} {certs : List (Certificate K)},
    (∀ c ∈ l, c.subjectId = key) → s.certs.entries = before ++ under key certs →
    key ∉ before.map Prod.fst → s.chains = Dict.empty →
    ((certs ++ l).map Certificate.signature).Nodup → certs.length + l.length ≤ s.maxPerSubject →
    before.length < s.maxSubjects →
    ∃ d : Dict NodeID (List (Certificate K)), d.entries = before ++ under key (certs ++ l.filter (s.usable clock)) ∧
      (l.map certJson).foldlM (loadCert clock (toHex key.raw)) s = some { s with certs := d }
  | [], s, certs, _, he, _, _, _, _, _ => ⟨s.certs, by rw [List.filter_nil, List.append_nil, he], rfl⟩
  | c :: l, s, certs, hsub, he, hnew, hchains, hsigs, hlen, hsize => by
    rw [List.length_cons] at hlen
    have hc : c.subjectId = key := hsub c List.mem_cons_self
    have hdistinct := hsigs
    rw [List.map_append, List.nodup_append] at hdistinct
    obtain ⟨d, hadd, hd⟩ := add_under hc he hnew hchains
      (fun e hmem => hdistinct.2.2 _ (List.mem_map_of_mem hmem) _ List.mem_cons_self) (by omega) hsize
    have hpart : ([c].filter (s.usable clock)).Sublist [c] := List.filter_sublist
    obtain ⟨d', hd', hfold⟩ := foldlM_loadCert l (s := { s with certs := d })
      (fun c' hc' => hsub c' (List.mem_cons_of_mem c hc')) hd hnew hchains
      (by
        refine hsigs.sublist (List.Sublist.map _ ?_)
        rw [List.append_assoc]
        exact (List.Sublist.refl certs).append (hpart.append (.refl l)))
      (by
        have := hpart.length_le
        rw [List.length_append]
        show certs.length + _ + l.length ≤ s.maxPerSubject
        rw [List.length_singleton] at this
        omega)
      hsize
    have hload : loadCert clock (toHex key.raw) s (certJson c) = some { s with certs := d } := by
      unfold loadCert
      rw [← hc, certOfJson_certJson]
      dsimp only
      rw [hadd]
    refine ⟨d', ?_, ?_⟩
    · have husable : ({ s with certs := d } : CertStore K).usable clock = s.usable clock :=
        funext (usable_congr rfl clock)
      rw [hd', husable, List.append_assoc, ← List.filter_append]
      rfl
    · rw [List.map_cons, List.foldlM_cons, hload]
      exact hfold

theorem foldlM_loadSubject : ∀ (es : List (NodeID × List (Certificate K))) {s : CertStore K},
    (∀ e ∈ es, (∀ c ∈ e.2, c.subjectId = e.1) ∧ (e.2.map Certificate.signature).Nodup ∧
      e.2.length ≤ s.maxPerSubject) →
    s.chains = Dict.empty → ((s.certs.entries ++ es).map Prod.fst).Nodup →
    s.certs.entries.length + es.length ≤ s.maxSubjects →
    ∃ d : Dict NodeID (List (Certificate K)),
      d.entries = s.certs.entries ++ es.flatMap (fun e => under e.1 (e.2.filter (s.usable clock))) ∧
      (es.map fun e => (toHex e.1.raw, Json.arr (e.2.map certJson))).foldlM (loadSubject clock) s =
        some { s with certs := d }
  | [], s, _, _, _, _ => ⟨s.certs, (List.append_nil _).symm, rfl⟩
  | (key, l) :: es, s, hes, hchains, hkeys, hsize => by
    rw [List.length_cons] at hsize
    obtain ⟨hsub, hsigs, hlen⟩ := hes _ List.mem_cons_self
    have hnew : key ∉ s.certs.entries.map Prod.fst := fun hmem => by
      rw [List.map_append, List.nodup_append] at hkeys
      exact hkeys.2.2 key hmem key List.mem_cons_self rfl
    obtain ⟨d, hd, hfold⟩ := foldlM_loadCert clock l hsub
      (by rw [under_nil, List.append_nil]) hnew hchains (by simpa using hsigs) (by simpa using hlen)
      (by omega)
    rw [List.nil_append] at hd
    have hlength : (under key (l.filter (s.usable clock))).length ≤ 1 := by
      simpa using (keys_under_sublist key (l.filter (s.usable clock))).length_le
    obtain ⟨d', hd', hrest⟩ := foldlM_loadSubject es (s := { s with certs := d })
      (fun e he => hes e (List.mem_cons_of_mem _ he)) hchains
      (by
        refine hkeys.sublist ?_
        dsimp only
        rw [hd, List.append_assoc, List.map_append, List.map_append, List.map_append]
        exact (List.Sublist.refl _).append ((keys_under_sublist key _).append (.refl _)))
      (by
        show d.entries.length + es.length ≤ s.maxSubjects
        rw [hd, List.length_append]
        dsimp only
        omega)
    have hload : loadSubject clock s (toHex key.raw, .arr (l.map certJson)) = some { s with certs := d } :=
      hfold
    refine ⟨d', ?_, ?_⟩
    · have husable : ({ s with certs := d } : CertStore K).usable clock = s.usable clock :=
        funext (usable_congr rfl clock)
      dsimp only at hd'
      rw [hd', hd, husable, List.append_assoc, List.flatMap_cons]
    · rw [List.map_cons, List.foldlM_cons, hload]
      exact hrest

/-! ### The store after a restart -/

/-- Within the default bounds. -/
structure Within (s : CertStore K) (lineage : Lineage) : Prop where
  subjects : s.certs.size ≤ defaultSubjects
  perSubject : ∀ key, (s.held key).length ≤ defaultPerSubject
  revocations : s.revoked.size ≤ defaultRevocations
  lineage : lineage.bySubject.size ≤ maxEntries

/-- The store that is read back at `clock`: without the certificates of no use, and the memo. -/
def reopened (s : CertStore K) (clock : ℕ) : CertStore K where
  ownId := s.ownId
  certs := (s.certs.mapVal fun _ certs => certs.filter (s.usable clock)).filterVal (decide <| · ≠ [])
  roots := s.roots
  maxSubjects := defaultSubjects
  maxPerSubject := defaultPerSubject
  chains := Dict.empty
  revoked := s.revoked
  maxRevocations := defaultRevocations

theorem flatMap_under (f : Certificate K → Bool) : ∀ es : List (NodeID × List (Certificate K)),
    es.flatMap (fun e => under e.1 (e.2.filter f)) =
      (es.map fun e => (e.1, e.2.filter f)).filter fun e => decide (e.2 ≠ [])
  | [] => rfl
  | (key, certs) :: es => by
    rw [List.flatMap_cons, flatMap_under f es, List.map_cons]
    unfold under
    by_cases hc : certs.filter f = []
    · rw [if_pos hc, List.nil_append, List.filter_cons_of_neg (by simp [hc])]
    · rw [if_neg hc, List.filter_cons_of_pos (by simp [hc])]
      rfl

theorem load_save {floatRepr : Text → Text} {depth : ℕ} (hdepth : 4 ≤ depth) (h : Reachable P s T)
    {lineage : Lineage} (hw : Within s lineage) {roots : List NodeID} (hroots : roots.toFinset = s.roots)
    (clock : ℕ) : ∃ lineage' : Lineage, lineage'.bySubject = lineage.bySubject ∧
      load K floatRepr depth (some (save s lineage roots)) s.ownId clock =
        some (reopened s clock, lineage') := by
  have hsane := h.sane
  have hread : loads floatRepr depth (save s lineage roots) = some (saved s lineage roots) :=
    loads_dumps (clean_saved s lineage roots) ((height_saved s lineage roots).trans hdepth)
  have hrecorded : ∀ e ∈ s.revoked.entries, Recorded K e.1 e.2 := fun e he =>
    recorded_reachable h e.1 e.2 (Dict.get?_eq_some.mpr he)
  set s0 := CertStore.new K s.ownId defaultSubjects defaultPerSubject defaultRevocations
  set s1 : CertStore K := { s0 with roots := s0.roots ∪ roots.toFinset }
  have hs1 : s1.roots = s.roots := by
    show {s.ownId} ∪ roots.toFinset = s.roots
    rw [hroots, Finset.union_eq_right, Finset.singleton_subset_iff]
    exact hsane.own
  obtain ⟨revoked, hentries, hrevocations⟩ := foldlM_loadRevocation s.revoked.entries s1 rfl rfl hrecorded
    s.revoked.nodup (by
      show 0 + s.revoked.size ≤ defaultRevocations
      have := hw.revocations
      omega)
  obtain rfl : revoked = s.revoked := Dict.ext hentries
  set s2 : CertStore K := { s1 with revoked := s.revoked }
  have hcerts : ∀ e ∈ s.certs.entries, (∀ c ∈ e.2, c.subjectId = e.1) ∧
      (e.2.map Certificate.signature).Nodup ∧ e.2.length ≤ s2.maxPerSubject := fun e he => by
    have hheld : s.held e.1 = e.2 := by
      rw [held, Dict.get?_eq_some.mpr he]
      rfl
    rw [← hheld]
    exact ⟨hsane.filed e.1, hsane.distinct e.1, hw.perSubject e.1⟩
  obtain ⟨certs, hentries', hsubjects⟩ := foldlM_loadSubject s.certs.entries (s := s2) hcerts
    rfl s.certs.nodup (by
      show 0 + s.certs.size ≤ defaultSubjects
      have := hw.subjects
      omega)
  have husable : s2.usable clock = s.usable clock := funext (usable_congr rfl clock)
  have hreopened : ({ s2 with certs := certs } : CertStore K) = reopened s clock := by
    have hd : certs = (reopened s clock).certs := by
      refine Dict.ext ?_
      rw [hentries', husable, flatMap_under]
      rfl
    have hr : s2.roots = (reopened s clock).roots := hs1
    show ({ reopened s clock with certs := certs, roots := s2.roots } : CertStore K) = _
    rw [hd, hr]
  refine ⟨Lineage.fromJson lineage.toJson maxEntries, Lineage.fromJson_toJson hw.lineage, ?_⟩
  rw [← hreopened]
  refine load_eq (by rw [hread]; rfl) rfl (foldlM_loadRoot roots s0) rfl ?_ rfl hsubjects
  show (s.revoked.values.map fun held => Json.str (toHex held.record)).foldlM loadRevocation s1 = _
  rw [← hrevocations, Dict.values, List.map_map]
  rfl

/-! ### The same answers -/

theorem held_reopened (s : CertStore K) (clock : ℕ) (key : NodeID) :
    (reopened s clock).held key = (s.held key).filter (s.usable clock) := by
  unfold held reopened
  dsimp only
  rw [Dict.get?_filterVal, Dict.get?_mapVal]
  cases s.certs.get? key with
  | none => rfl
  | some certs =>
    rw [Option.map_some, Option.getD_some]
    by_cases hc : certs.filter (s.usable clock) = []
    · rw [Option.filter_some_neg (by simp [hc]), hc]
      rfl
    · rw [Option.filter_some_pos (by simp [hc])]
      rfl

theorem shrinks_reopened (s : CertStore K) (clock : ℕ) :
    Shrinks { s with maxPerSubject := defaultPerSubject } (reopened s clock) where
  held key := by
    rw [held_reopened]
    exact List.filter_sublist
  roots := rfl
  revoked := rfl
  ownId := rfl
  bound := rfl

theorem sane_reopened (h : Sane P s) (clock : ℕ) : Sane P (reopened s clock) :=
  Sane.shrink (s := { s with maxPerSubject := defaultPerSubject }) ⟨h.filed, h.known, h.distinct, h.own⟩
    (shrinks_reopened s clock)

theorem build_bound (s : CertStore K) (n : ℕ) (target : NodeID) (t : ℕ) :
    ({ s with maxPerSubject := n } : CertStore K).buildChainToRoot target t =
      s.buildChainToRoot target t := by
  unfold buildChainToRoot
  dsimp only
  rw [walk_eq_search, walk_eq_search]
  rfl

theorem build_reopened (h : Sane P s) (hT : T ≤ t) (target : NodeID) :
    (reopened s T).buildChainToRoot target t = s.buildChainToRoot target t := by
  have hsane : Sane P { s with maxPerSubject := defaultPerSubject } := ⟨h.filed, h.known, h.distinct, h.own⟩
  have hkeep : ∀ {key c}, c ∈ s.held key → s.usable t c = true → c ∈ (reopened s T).held key :=
    fun hc hu => by
      rw [held_reopened]
      exact List.mem_filter.mpr ⟨hc, usable_mono hT hu⟩
  rw [← build_bound s defaultPerSubject target t]
  refine build_fewer hsane (shrinks_reopened s T) le_rfl (fun ha => Or.inl ?_) fun c hc => ?_
  · obtain ⟨hroot, c, hc, hu, hself⟩ := ha
    exact ⟨hroot, c, hkeep hc hu, hu, hself⟩
  · rw [build_bound] at hc
    cases hb : s.buildChainToRoot target t with
    | none =>
      rw [hb] at hc
      cases hc
    | some chain =>
      rw [hb] at hc
      obtain ⟨x, hx⟩ := build_chainTo h.filed hb
      obtain ⟨hheld, hu⟩ := hx.held c hc
      refine ⟨hkeep hheld hu, ?_⟩
      simp only [usable, Bool.and_eq_true, Bool.not_eq_true'] at hu
      exact hu.1

def consult (s : CertStore K) (lookups : List (ℕ × NodeID × Option ℕ)) : CertStore K :=
  lookups.foldl (fun s q => (s.getChainToRoot q.2.1 q.2.2 q.1).2) s

/-- The lookups are made one after the other, from `T` to `t`. -/
def Timed (T : ℕ) (lookups : List (ℕ × NodeID × Option ℕ)) (t : ℕ) : Prop :=
  (T :: (lookups.map Prod.fst ++ [t])).Pairwise (· ≤ ·)

theorem sameGraph_consult : ∀ (lookups : List (ℕ × NodeID × Option ℕ)) (s : CertStore K),
    SameGraph s (consult s lookups)
  | [], s => ⟨fun _ => rfl, rfl, rfl, rfl, rfl⟩
  | q :: lookups, s => by
    have hfirst := sameGraph_lookup s q.2.1 q.2.2 q.1
    have hrest := sameGraph_consult lookups (s.getChainToRoot q.2.1 q.2.2 q.1).2
    exact ⟨fun key => (hrest.held key).trans (hfirst.held key), hrest.roots.trans hfirst.roots,
      hrest.revoked.trans hfirst.revoked, hrest.ownId.trans hfirst.ownId, hrest.bound.trans hfirst.bound⟩

theorem answer_consult : ∀ (lookups : List (ℕ × NodeID × Option ℕ)) {s : CertStore K} {T : ℕ},
    Truthful P T s → Lasts P s.ownId → Timed T lookups t → ∀ target,
    ((consult s lookups).getChainToRoot target none t).1 = s.buildChainToRoot target t
  | [], s, T, h, _, ht, target => h.answer (by simpa [Timed] using ht) target
  | q :: lookups, s, T, h, hown, ht, target => by
    have hsame := sameGraph_lookup s q.2.1 q.2.2 q.1
    obtain ⟨hfirst, hrest⟩ := List.pairwise_cons.mp ht
    have hnext := h.lookup hown (hfirst q.1 (by simp)) q.2.1 q.2.2
    rw [← build_same h.sane hsame]
    exact answer_consult lookups hnext (by rwa [hsame.ownId]) hrest target

/-- **Who is trusted is the same** in the two stores at `t`, where one comes from a restart at `T`. -/
structure Agree (P : Certificate K → Prop) (T t : ℕ) (s s' : CertStore K) : Prop where
  roots : s'.roots = s.roots
  revoked : s'.revoked = s.revoked
  isRevoked : ∀ c, s'.isRevoked c = s.isRevoked c
  verifyChain : ∀ chain, s'.verifyChain chain t = s.verifyChain chain t
  chainAt : ∀ target now, T ≤ now →
    (s'.getChainToRoot target (some now) t).1 = (s.getChainToRoot target (some now) t).1
  chain : Lasts P s.ownId → ∀ target,
    (s'.getChainToRoot target none t).1 = (s.getChainToRoot target none t).1

theorem verifyChain_congr (hr : s'.roots = s.roots) (hv : s'.revoked = s.revoked)
    (chain : List (Certificate K)) (t : ℕ) : s'.verifyChain chain t = s.verifyChain chain t := by
  unfold verifyChain
  rw [funext (usable_congr hv t), hr]

/-- **A restart changes nothing about who is trusted**, from the restart on: a signature is made over one
body, and for the chains without a moment given, our own self-signed certificates do not expire. -/
theorem restart {floatRepr : Text → Text} {depth : ℕ} (hdepth : 4 ≤ depth) (hb : Binding P)
    {T₀ : ℕ} (h : Reachable P s T₀) (hmax : 1 ≤ s.maxPerSubject) {lineage : Lineage}
    (hw : Within s lineage) {roots : List NodeID} (hroots : roots.toFinset = s.roots) (hT : T₀ ≤ T) :
    ∃ s' lineage', load K floatRepr depth (some (save s lineage roots)) s.ownId T = some (s', lineage') ∧
      lineage'.bySubject = lineage.bySubject ∧
      ∀ lookups lookups' t, Timed T lookups t → Timed T lookups' t →
        Agree P T t (consult s lookups) (consult s' lookups') := by
  obtain ⟨lineage', hlineage, hload⟩ := load_save hdepth h hw hroots T
  refine ⟨reopened s T, lineage', hload, hlineage, fun lookups lookups' t ht ht' => ?_⟩
  have hsane := h.sane
  have hsane' := sane_reopened hsane T
  have hsame := sameGraph_consult lookups s
  have hsame' := sameGraph_consult lookups' (reopened s T)
  have hroots' : (consult (reopened s T) lookups').roots = (consult s lookups).roots :=
    hsame'.roots.trans hsame.roots.symm
  have hrevoked : (consult (reopened s T) lookups').revoked = (consult s lookups).revoked :=
    hsame'.revoked.trans hsame.revoked.symm
  refine ⟨hroots', hrevoked, fun c => ?_, fun chain => verifyChain_congr hroots' hrevoked chain t,
    fun target now hnow => ?_, fun hown target => ?_⟩
  · unfold isRevoked
    rw [hrevoked]
  · show (consult (reopened s T) lookups').buildChainToRoot target now =
      (consult s lookups).buildChainToRoot target now
    rw [build_same hsane' hsame', build_same hsane hsame, build_reopened hsane hnow]
  · rw [hsame.ownId] at hown
    have hle : T ≤ t := (List.pairwise_cons.mp ht).1 t (by simp)
    have htrue : Truthful P T s :=
      let htruthful := truthful_reachable hb hown h hmax
      ⟨hsane, htruthful.memo.later (lasting_rule hown) hT, htruthful.supplied⟩
    rw [answer_consult lookups' (truthful_fresh hsane' rfl T) hown ht' target,
      answer_consult lookups htrue hown ht target, build_reopened hsane hle]

theorem within_of (hsubjects : s.certs.size ≤ defaultSubjects)
    (hper : ∀ certs ∈ s.certs.values, certs.length ≤ defaultPerSubject)
    (hrevocations : s.revoked.size ≤ defaultRevocations) : Within s (Lineage.new maxEntries) := by
  refine ⟨hsubjects, fun key => ?_, hrevocations, Nat.zero_le _⟩
  unfold held
  cases hget : s.certs.get? key with
  | none => exact Nat.zero_le _
  | some certs => exact hper certs (Dict.mem_values.mpr ⟨key, hget⟩)

theorem binding_plain (P : Certificate plain → Prop) : Binding P := by
  have hsig : ∀ c : Certificate plain, c.signature = c.body := fun c => of_decide_eq_true c.verified
  intro c c' _ _ h
  rw [← hsig, ← hsig, h]

theorem restart_inviter : ∃ s' lineage', load plain id 4
      (some (save inviter (Lineage.new maxEntries) [plain.fromPublicKey [1], plain.fromPublicKey [2]]))
      inviter.ownId 7 = some (s', lineage') ∧
    lineage'.bySubject = (Lineage.new maxEntries).bySubject ∧
    ∀ lookups lookups' t, Timed 7 lookups t → Timed 7 lookups' t →
      Agree (fun c => c.expiresAt = 0) 7 t (consult inviter lookups) (consult s' lookups') := by
  refine restart le_rfl (binding_plain _) (reachable_inviter ?_) (by decide)
    (within_of (by decide) (by decide) (by decide)) (by decide) (Nat.zero_le 7)
  simp [plainCert]

/-! ### What a restart changes -/

/-- What the node with key `[issuer]` says of the node with key `[subject]` until `10`. -/
def briefCert (subject issuer : UInt8) : Certificate plain where
  subjectId := plain.fromPublicKey [subject]
  subjectPub := [subject]
  issuerId := plain.fromPublicKey [issuer]
  issuerPub := [issuer]
  issuedAt := 0
  expiresAt := 10
  signature := signedBody (plain.fromPublicKey [subject]) [subject] (plain.fromPublicKey [issuer])
    [issuer] 0 10
  subject_ok := (plainCert subject issuer).subject_ok
  issuer_ok := (plainCert subject issuer).issuer_ok
  packs := by unfold Packs; simp
  verified := decide_eq_true rfl

/-- A new store, and then these operations at time `0`. -/
def after (maxPerSubject : ℕ) (ops : List (Op plain)) : CertStore plain :=
  ops.foldl (fun s op => s.step (0, op))
    (CertStore.new plain (plain.fromPublicKey [1]) defaultSubjects maxPerSubject defaultRevocations)

theorem reachable_after (maxPerSubject : ℕ) (ops : List (Op plain)) :
    Reachable (fun _ => True) (after maxPerSubject ops) 0 := by
  have hrun : ∀ (ops : List (Op plain)) (s : CertStore plain), Reachable (fun _ => True) s 0 →
      Reachable (fun _ => True) (ops.foldl (fun s op => s.step (0, op)) s) 0 := by
    intro ops
    induction ops with
    | nil => exact fun s h => h
    | cons op ops ih =>
      intro s h
      exact ih _ (h.step le_rfl (by cases op <;> trivial))
  exact hrun ops _ ⟨_, _, _, _, [], trivial, rfl⟩

def brief : CertStore plain := after defaultPerSubject [.add (briefCert 1 1)]

/-- This node (`1`) is below the root `2`, and so is `5`; both have invited `4`, whose chain was asked for
while this node was a root itself. -/
def remembers : CertStore plain := after defaultPerSubject
  [.add (briefCert 1 1), .addRoot (plain.fromPublicKey [2]), .add (plainCert 2 2), .add (plainCert 1 2),
    .add (plainCert 4 1), .add (plainCert 4 5), .add (plainCert 5 2),
    .lookup (plain.fromPublicKey [4]) none]

def keepsNone : CertStore plain := after 0 [.add (plainCert 1 1)]

/-- After a restart at `T` the store answers differently at `t`, though it is within the default bounds. -/
def Differs (s : CertStore plain) (T : ℕ) (target : NodeID) (now : Option ℕ) (t : ℕ) : Prop :=
  Reachable (fun _ => True) s 0 ∧ Within s (Lineage.new maxEntries) ∧
    ∃ roots s' lineage', roots.toFinset = s.roots ∧
      load plain id 4 (some (save s (Lineage.new maxEntries) roots)) s.ownId T = some (s', lineage') ∧
      (s'.getChainToRoot target now t).1 ≠ (s.getChainToRoot target now t).1

theorem differs_of {s : CertStore plain} {target : NodeID} {now : Option ℕ}
    (h : Reachable (fun _ => True) s 0) (hw : Within s (Lineage.new maxEntries))
    (hne : ((reopened s T).getChainToRoot target now t).1 ≠ (s.getChainToRoot target now t).1) :
    Differs s T target now t := by
  obtain ⟨lineage', -, hload⟩ := load_save le_rfl h hw
    (Finset.toList_toFinset s.roots) T
  exact ⟨h, hw, _, _, lineage', Finset.toList_toFinset s.roots, hload, hne⟩

/-- **What a restart changes**: an expired certificate is not read back, so a moment before the restart is
answered differently; a chain remembered from the time when our own certificate made us a root is found
another way; and a store without room remembers what it does not hold. -/
theorem restart_changes :
    Differs brief 11 (plain.fromPublicKey [1]) (some 5) 11 ∧
    Differs remembers 11 (plain.fromPublicKey [4]) none 11 ∧
    Differs keepsNone 0 (plain.fromPublicKey [1]) none 0 := by
  refine ⟨?_, ?_, ?_⟩
  · exact differs_of (reachable_after _ _) (within_of (by decide) (by decide) (by decide)) (by decide)
  · exact differs_of (reachable_after _ _) (within_of (by decide) (by decide) (by decide)) (by decide)
  · exact differs_of (reachable_after _ _) (within_of (by decide) (by decide) (by decide)) (by decide)

end NMesh.Cert.Restart
