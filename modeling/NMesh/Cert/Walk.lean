import NMesh.Base.Search
import NMesh.Cert.Store
import Mathlib.Algebra.Order.BigOperators.Group.List

/-! # The walk to a root is a search

The graph's nodes are ids, its edges the live certificates, each from its subject to its issuer. The walk
is a search over it (`walk_eq_search`): a root other than our own id with a usable self-signed certificate
is a goal, our own id with one is held, everything else is walked through (`kind`).

So `buildChainToRoot` ends on an external root exactly if one can be reached without stepping onto our
own id while it is anchored (`endsOutside_iff`), and what it returns is a chain (`ChainTo`). -/

namespace NMesh.Cert.Walk

open Base.Ordered Base.Search NMesh.Cert.Identity NMesh.Cert.Store
open NMesh.Cert.Store.CertStore Certificate

variable {K : Crypto}

/-- What is said of the issuance graph: a usable certificate held for `x` names the issuer `y`. -/
def Issued (s : CertStore K) (now : ℕ) (x y : NodeID) : Prop :=
  ∃ c ∈ s.held x, s.usable now c = true ∧ c.issuerId = y

/-- `x` is a trusted root whose self-signed certificate is held and usable. -/
def Anchored (s : CertStore K) (now : ℕ) (x : NodeID) : Prop :=
  x ∈ s.roots ∧ ∃ c ∈ s.held x, s.usable now c = true ∧ c.isSelfSigned = true

/-- There is an issuance path from `target` to an anchored root other than our own id. -/
def ExternalPath (s : CertStore K) (now : ℕ) (target : NodeID) : Prop :=
  ∃ x, x ≠ s.ownId ∧ Anchored s now x ∧ Relation.ReflTransGen (Issued s now) target x

/-- There is such a path that does not step onto our own id while it is anchored. -/
def ClearPath (s : CertStore K) (now : ℕ) (target : NodeID) : Prop :=
  ∃ x, x ≠ s.ownId ∧ Anchored s now x ∧ Relation.ReflTransGen
    (fun y z => Issued s now y z ∧ ¬ (z = s.ownId ∧ Anchored s now s.ownId)) target x

/-- A chain of held, usable certificates from `target` to the self-signed certificate of the root
`x`. -/
structure ChainTo (s : CertStore K) (now : ℕ) (target x : NodeID) (chain : List (Certificate K)) :
    Prop where
  held : ∀ c ∈ chain, c ∈ s.held c.subjectId ∧ s.usable now c = true
  head : chain.head?.map subjectId = some target
  linked : chain.IsChain fun c c' => c.issuerId = c'.subjectId
  last : ∃ l, chain.getLast? = some l ∧ l.isSelfSigned = true ∧ l.subjectId = x
  root : x ∈ s.roots

def Filed (s : CertStore K) : Prop := ∀ key, ∀ c ∈ s.held key, c.subjectId = key

/-! ### The graph -/

variable {s : CertStore K}

theorem mem_live {now : ℕ} {key : NodeID} {c : Certificate K} :
    c ∈ s.live now key ↔ c ∈ s.held key ∧ s.usable now c = true := by
  rw [live, List.mem_insertionSort, List.mem_filter]

theorem find?_selfSigned {now : ℕ} {x : NodeID} : ((s.live now x).find? isSelfSigned).isSome ↔
      ∃ c ∈ s.held x, s.usable now c = true ∧ c.isSelfSigned = true := by
  rw [List.find?_isSome]
  exact ⟨fun ⟨c, hc, hs⟩ => ⟨c, (mem_live.mp hc).1, (mem_live.mp hc).2, hs⟩,
    fun ⟨c, hc, hu, hs⟩ => ⟨c, mem_live.mpr ⟨hc, hu⟩, hs⟩⟩

instance (s : CertStore K) (now : ℕ) (x : NodeID) : Decidable (Anchored s now x) :=
  decidable_of_iff (x ∈ s.roots ∧ ((s.live now x).find? isSelfSigned).isSome)
    (and_congr_right fun _ => find?_selfSigned)

def kind (s : CertStore K) (now : ℕ) (x : NodeID) : Kind :=
  if Anchored s now x then (if x = s.ownId then .held else .goal) else .through

theorem kind_goal {now : ℕ} {x : NodeID} : kind s now x = .goal ↔ x ≠ s.ownId ∧ Anchored s now x := by
  unfold kind; split_ifs <;> simp [*]

theorem kind_held {now : ℕ} {x : NodeID} : kind s now x = .held ↔ x = s.ownId ∧ Anchored s now s.ownId := by
  unfold kind
  split_ifs with h1 h2
  · simp [← h2, h1]
  · simp [h2]
  · simp only [false_iff, not_and]
    rintro rfl
    exact h1

/-- What the walk does at an id, with what it returns or keeps there. -/
def verdict (s : CertStore K) (now : ℕ) (x : NodeID) (path : List (Certificate K)) :
    Verdict (List (Certificate K)) :=
  if x ∈ s.roots then
    match s.anchor now x path with
    | none => .step
    | some chain => if x ≠ s.ownId then .done chain else .keep chain
  else .step

theorem walk_eq_search (s : CertStore K) (now : ℕ) : ∀ (n : ℕ)
    (queue : List (NodeID × List (Certificate K))) (visited : List NodeID)
    (kept : Option (List (Certificate K))), s.walk now n queue visited kept =
      search (s.live now) issuerId (verdict s now) n queue visited kept
  | 0, _, _, _ => rfl
  | _ + 1, [], _, _ => rfl
  | n + 1, (x, path) :: queue, visited, kept => by
    unfold walk search verdict
    dsimp only
    by_cases hr : x ∈ s.roots
    · rw [if_pos hr, if_pos hr]
      cases ha : s.anchor now x path with
      | none =>
        dsimp only
        by_cases hv : x ∈ visited
        · rw [if_neg (not_not.mpr hv), if_pos hv]; exact walk_eq_search s now n _ _ _
        · rw [if_pos hv, if_neg hv]; exact walk_eq_search s now n _ _ _
      | some chain =>
        dsimp only
        by_cases ho : x ≠ s.ownId
        · rw [if_pos ho, if_pos ho]
        · rw [if_neg ho, if_neg ho]
          cases kept <;> exact walk_eq_search s now n _ _ _
    · rw [if_neg hr, if_neg hr]
      dsimp only
      by_cases hv : x ∈ visited
      · rw [if_pos hv, if_pos hv]; exact walk_eq_search s now n _ _ _
      · rw [if_neg hv, if_neg hv]; exact walk_eq_search s now n _ _ _

/-! ### What the walk returns -/

abbrev CertTrail (s : CertStore K) (now : ℕ) (target : NodeID) (path : List (Certificate K))
    (x : NodeID) : Prop :=
  Trail (s.live now) subjectId issuerId target path x

variable {s : CertStore K} {now : ℕ} {target x : NodeID} {path chain : List (Certificate K)}

theorem Filed.src (h : Filed s) (now : ℕ) : ∀ x, ∀ c ∈ s.live now x, c.subjectId = x :=
  fun x c hc => h x c (mem_live.mp hc).1

theorem anchor_cases (ha : s.anchor now x path = some chain) :
    chain = path ∧ (∃ last, path.getLast? = some last ∧ last.isSelfSigned = true) ∨
      ∃ rc ∈ s.live now x, rc.isSelfSigned = true ∧ chain = path ++ [rc] := by
  unfold anchor at ha
  cases hl : path.getLast? with
  | none => rw [hl] at ha; cases ha
  | some last =>
    rw [hl] at ha
    by_cases hself : last.isSelfSigned = true
    · simp only [if_pos hself, Option.some.injEq] at ha
      exact Or.inl ⟨ha.symm, last, rfl, hself⟩
    · simp only [if_neg hself, Option.map_eq_some_iff] at ha
      obtain ⟨rc, hrc, rfl⟩ := ha
      exact Or.inr ⟨rc, List.mem_of_find?_eq_some hrc, List.find?_some hrc, rfl⟩

theorem anchor_spec (hf : Filed s) (ht : CertTrail s now target path x) (hx : x ∈ s.roots)
    (ha : s.anchor now x path = some chain) : ChainTo s now target x chain := by
  rcases anchor_cases ha with ⟨rfl, last, hl, hself⟩ | ⟨rc, hmem, hself, rfl⟩
  · have hlast := ht.last
    rw [hl] at hlast
    have hiss : last.issuerId = x := Option.some.inj hlast
    refine ⟨fun c hc => mem_live.mp (ht.edges c hc), ht.head, ht.linked, ⟨last, hl, hself, ?_⟩, hx⟩
    rw [isSelfSigned_iff.mp hself, hiss]
  · have hsub := hf.src now x rc hmem
    have htrail := ht.snoc hmem hsub
    exact ⟨fun c hc => mem_live.mp (htrail.edges c hc), htrail.head, htrail.linked,
      ⟨rc, by simp, hself, hsub⟩, hx⟩

theorem verdict_kind (hf : Filed s) (ht : CertTrail s now target path x) :
    (verdict s now x path).kind = kind s now x := by
  unfold verdict kind
  by_cases hr : x ∈ s.roots
  · rw [if_pos hr]
    cases ha : s.anchor now x path with
    | none =>
      have hno : ¬ Anchored s now x := by
        rintro ⟨-, hex⟩
        unfold anchor at ha
        have hlast := ht.last
        cases hl : path.getLast? with
        | none => rw [hl] at hlast; cases hlast
        | some last =>
          rw [hl] at ha
          by_cases hself : last.isSelfSigned = true
          · simp [hself] at ha
          · simp only [if_neg hself, Option.map_eq_none_iff] at ha
            have := find?_selfSigned.mpr hex
            rw [ha] at this
            cases this
      rw [if_neg hno]; rfl
    | some chain =>
      have hc := anchor_spec hf ht hr ha
      obtain ⟨l, hl, hself, hsub⟩ := hc.last
      obtain ⟨hheld, hu⟩ := hc.held l (List.mem_of_getLast? hl)
      have hanch : Anchored s now x := ⟨hr, l, hsub ▸ hheld, hu, hself⟩
      rw [if_pos hanch]
      dsimp only
      split_ifs <;> first | rfl | contradiction
  · rw [if_neg hr, if_neg fun h => hr h.1]; rfl

/-! ### The fuel -/

theorem held_eq_nil {key : NodeID} (h : key ∉ s.certs.keys) : s.held key = [] := by
  rw [held, Dict.get?_eq_none.mpr h]; rfl

theorem live_eq_nil {key : NodeID} (h : key ∉ s.certs.keys) : s.live now key = [] := by
  refine List.eq_nil_iff_forall_not_mem.mpr fun c hc => ?_
  rw [mem_live, held_eq_nil h] at hc
  cases hc.1

theorem sum_live_le (s : CertStore K) (now : ℕ) :
    (s.certs.keys.map fun x => (s.live now x).length).sum ≤ s.certCount := by
  unfold certCount Dict.keys Dict.values
  rw [List.map_map, List.map_map]
  refine List.sum_le_sum fun e he => ?_
  have hget : s.certs.get? e.1 = some e.2 := Dict.get?_eq_some.mpr he
  simp only [Function.comp_apply, live, List.length_insertionSort, held, hget, Option.getD_some]
  exact List.length_filter_le _ _

/-! ### What is built -/

/-- `result` is what a search from `target` may return. -/
abbrev CertOutcome (s : CertStore K) (now : ℕ) (target : NodeID)
    (result : Option (List (Certificate K))) : Prop :=
  Outcome (s.live now) subjectId issuerId (verdict s now) (kind s now) target
    result

theorem build_outcome (hf : Filed s) (target : NodeID) (now : ℕ) :
    CertOutcome s now target (s.buildChainToRoot target now) := by
  unfold buildChainToRoot
  dsimp only
  split_ifs with hnil
  · -- no edge leaves the target
    have hno : ∀ x, ¬ Reached (s.live now) issuerId (kind s now) target x := by
      rintro x ⟨y, hy, e, he, -⟩
      have hy' : ∀ z, ¬ Edge (s.live now) issuerId (kind s now) target z := by
        rintro z ⟨⟨c, hc, -⟩, -⟩
        rw [mem_live, ← List.mem_filter, hnil] at hc
        cases hc
      rcases Relation.ReflTransGen.cases_head hy with rfl | ⟨z, hz, -⟩
      · rw [mem_live, ← List.mem_filter, hnil] at he
        cases he
      · exact hy' z hz
    exact .lost (fun x hx => absurd hx (hno x)) (fun _ x hx => absurd hx (hno x))
      fun r hr => by cases hr
  · rw [walk_eq_search]
    have hfirst : ∀ c, c ∈ ((s.held target).filter (s.usable now)).insertionSort firstOrder ↔
        c ∈ s.live now target := fun c => by
      rw [List.mem_insertionSort, mem_live, List.mem_filter]
    have hkind : ∀ x path, CertTrail s now target path x →
        (verdict s now x path).kind = kind s now x := fun x path ht => verdict_kind hf ht
    refine search_spec s.certs.keys (hf.src now) s.certs.nodup_keys
      (fun x hx => live_eq_nil hx) hkind _ _ _ _
      (walk_start (hf.src now) hfirst) (fun r hr => by cases hr) ?_
    rw [potential_start s.certs.nodup_keys (fun x hx => live_eq_nil hx)
      (by simp only [live, List.length_insertionSort])]
    exact sum_live_le s now

theorem verdict_done {r : List (Certificate K)} (h : verdict s now x path = .done r) :
    x ∈ s.roots ∧ x ≠ s.ownId ∧ s.anchor now x path = some r := by
  unfold verdict at h
  split_ifs at h with hr ho
  · cases ha : s.anchor now x path with
    | none => rw [ha] at h; cases h
    | some chain => rw [ha] at h; cases h; exact ⟨hr, ho, rfl⟩
  · cases ha : s.anchor now x path <;> rw [ha] at h <;> cases h

theorem verdict_keep {r : List (Certificate K)} (h : verdict s now x path = .keep r) :
    x ∈ s.roots ∧ x = s.ownId ∧ s.anchor now x path = some r := by
  unfold verdict at h
  split_ifs at h with hr ho
  · cases ha : s.anchor now x path <;> rw [ha] at h <;> cases h
  · cases ha : s.anchor now x path with
    | none => rw [ha] at h; cases h
    | some chain => rw [ha] at h; cases h; exact ⟨hr, not_not.mp ho, rfl⟩

theorem build_chainTo (hf : Filed s) (h : s.buildChainToRoot target now = some chain) :
    ∃ x, ChainTo s now target x chain := by
  cases build_outcome hf target now with
  | found x path r hr hv ht ho hs hreached =>
    obtain ⟨hx, -, ha⟩ := verdict_done hv
    obtain rfl := Option.mem_unique h hr
    exact ⟨x, anchor_spec hf ht hx ha⟩
  | lost hno hnone hkept =>
    obtain ⟨x, path, hv, ht⟩ := hkept chain h
    obtain ⟨hx, -, ha⟩ := verdict_keep hv
    exact ⟨x, anchor_spec hf ht hx ha⟩

def EndsOutside (s : CertStore K) (chain : Option (List (Certificate K))) : Prop :=
  ∃ c l, chain = some c ∧ c.getLast? = some l ∧ l.subjectId ≠ s.ownId ∧ l.subjectId ∈ s.roots

theorem ChainTo.endsOutside (h : ChainTo s now target x chain) :
    EndsOutside s (some chain) ↔ x ≠ s.ownId := by
  obtain ⟨l, hl, -, rfl⟩ := h.last
  constructor
  · rintro ⟨c, l', hc, hl', hne, -⟩
    cases hc
    rw [hl] at hl'
    cases hl'
    exact hne
  · exact fun hne => ⟨chain, l, rfl, hl, hne, h.root⟩

theorem Anchored.self_edge (hf : Filed s) (h : Anchored s now x) : Issued s now x x := by
  obtain ⟨-, c, hc, hu, hself⟩ := h
  exact ⟨c, hc, hu, by rw [← isSelfSigned_iff.mp hself]; exact hf x c hc⟩

theorem edge_iff {y z : NodeID} : Edge (s.live now) issuerId (kind s now) y z ↔
    Issued s now y z ∧ ¬ (z = s.ownId ∧ Anchored s now s.ownId) := by
  unfold Issued Edge
  rw [Ne, kind_held]
  simp only [mem_live, and_assoc]

theorem ClearPath.external (h : ClearPath s now target) : ExternalPath s now target :=
  let ⟨x, hne, hx, hpath⟩ := h
  ⟨x, hne, hx, hpath.lift id fun _ _ hyz => hyz.1⟩

theorem reached_iff : Reached (s.live now) issuerId (kind s now) target x ↔
    ∃ y, Relation.ReflTransGen (Edge (s.live now) issuerId (kind s now)) target y ∧
      Issued s now y x := by
  unfold Reached Issued
  simp only [mem_live, and_assoc]

theorem clearPath_iff (hf : Filed s) : ClearPath s now target ↔
    ∃ x, Reached (s.live now) issuerId (kind s now) target x ∧ kind s now x = .goal := by
  unfold ClearPath
  simp only [← edge_iff, reached_iff, kind_goal]
  constructor
  · rintro ⟨x, hne, hx, hpath⟩
    refine ⟨x, ?_, hne, hx⟩
    rcases Relation.ReflTransGen.cases_tail hpath with rfl | ⟨y, hy, hyx⟩
    · exact ⟨x, .refl, hx.self_edge hf⟩
    · exact ⟨y, hy, (edge_iff.mp hyx).1⟩
  · rintro ⟨x, ⟨y, hy, hyx⟩, hne, hx⟩
    exact ⟨x, hne, hx, hy.tail (edge_iff.mpr ⟨hyx, fun h => hne h.1⟩)⟩

theorem endsOutside_iff (hf : Filed s) {result : Option (List (Certificate K))}
    (h : CertOutcome s now target result) : EndsOutside s result ↔ ClearPath s now target := by
  rw [clearPath_iff hf]
  cases h with
  | found x path r hr hv ht ho hs hreached =>
    obtain ⟨hx, hne, ha⟩ := verdict_done hv
    rw [hr, (anchor_spec hf ht hx ha).endsOutside]
    have hk : kind s now x = .goal := by rw [← verdict_kind hf ht, hv]; rfl
    exact ⟨fun _ => ⟨x, hreached, hk⟩, fun _ => hne⟩
  | lost hno hnone hkept =>
    constructor
    · rintro ⟨c, l, hc, hrest⟩
      obtain ⟨x, path, hv, ht⟩ := hkept c hc
      obtain ⟨hx, ho, ha⟩ := verdict_keep hv
      exact absurd ho ((anchor_spec hf ht hx ha).endsOutside.mp ⟨c, l, rfl, hrest⟩)
    · rintro ⟨x, hreached, hk⟩
      exact absurd hk (hno x hreached)

theorem build_endsOutside_iff (hf : Filed s) :
    EndsOutside s (s.buildChainToRoot target now) ↔ ClearPath s now target :=
  endsOutside_iff hf (build_outcome hf target now)

end NMesh.Cert.Walk
