import NMesh.Base.Search
import Mathlib.Data.List.Lex
import Mathlib.Data.Prod.Lex

/-! # The first path found

Breadth-first search takes paths off its queue by length, and those of one length in the order of their edges
(`key`). So it ends on the first path of all that lead to a goal through nodes walked through, or else to a held
node (`search_first`); and a search over fewer edges, in the same order, returns the same path as long as that
path is left (`First.fewer`). -/

namespace NMesh.Base.Shortest

open Base.Search

/-! ### The order of paths -/

section Key

variable {ε : Type} (rank₀ rank : ε → ℕ)

/-- The places of a path's edges, the first of them among those the search starts with. -/
def places : List ε → List ℕ
  | [] => []
  | e :: path => rank₀ e :: path.map rank

/-- Where a path comes: by length, then by the places of its edges. -/
def key (path : List ε) : ℕ ×ₗ List ℕ := toLex (path.length, places rank₀ rank path)

variable {rank₀ rank} {p q s s' : List ε}

theorem key_lt_iff : key rank₀ rank p < key rank₀ rank q ↔
    p.length < q.length ∨ p.length = q.length ∧ places rank₀ rank p < places rank₀ rank q :=
  Prod.Lex.toLex_lt_toLex

theorem places_append (hp : p ≠ []) : places rank₀ rank (p ++ s) = places rank₀ rank p ++ s.map rank := by
  cases p with
  | nil => exact absurd rfl hp
  | cons e p => simp [places]

theorem length_places : ∀ p : List ε, (places rank₀ rank p).length = p.length
  | [] => rfl
  | e :: p => by simp [places]

theorem append_lt_append : ∀ {l m a b : List ℕ}, l.length = m.length → l < m → l ++ a < m ++ b
  | [], [], _, _, _, h => absurd h (lt_irrefl _)
  | [], _ :: _, _, _, hlen, _ => by cases hlen
  | _ :: _, [], _, _, hlen, _ => by cases hlen
  | x :: l, y :: m, a, b, hlen, h => by
    rw [List.cons_lt_cons_iff] at h
    rw [List.cons_append, List.cons_append, List.cons_lt_cons_iff]
    exact h.imp_right fun ⟨hxy, hlm⟩ => ⟨hxy, append_lt_append (Nat.succ_inj.mp hlen) hlm⟩

theorem key_append_lt (hp : p ≠ []) (hq : q ≠ []) (hs : s.length = s'.length)
    (h : key rank₀ rank p < key rank₀ rank q) :
    key rank₀ rank (p ++ s) < key rank₀ rank (q ++ s') := by
  rw [key_lt_iff] at h ⊢
  rw [List.length_append, List.length_append, places_append hp, places_append hq]
  rcases h with h | ⟨hlen, h⟩
  · exact Or.inl (by omega)
  · refine Or.inr ⟨by omega, append_lt_append ?_ h⟩
    rw [length_places, length_places, hlen]

theorem key_append_le (hp : p ≠ []) (hq : q ≠ []) (h : key rank₀ rank p ≤ key rank₀ rank q) (s : List ε) :
    key rank₀ rank (p ++ s) ≤ key rank₀ rank (q ++ s) := by
  rcases h.lt_or_eq with h | h
  · exact (key_append_lt hp hq rfl h).le
  · obtain ⟨hlen, hplaces⟩ := Prod.mk.inj (toLex.injective h)
    rw [key, key, List.length_append, List.length_append, places_append hp, places_append hq, hlen,
      hplaces]

theorem key_lt_append (p : List ε) (hs : s ≠ []) : key rank₀ rank p < key rank₀ rank (p ++ s) := by
  rw [key_lt_iff, List.length_append]
  have := List.length_pos_iff.mpr hs
  exact Or.inl (by omega)

theorem key_le_append (p s : List ε) : key rank₀ rank p ≤ key rank₀ rank (p ++ s) := by
  by_cases hs : s = []
  · rw [hs, List.append_nil]
  · exact (key_lt_append p hs).le

theorem key_snoc_lt (hp : p ≠ []) {e e' : ε} (h : rank e < rank e') :
    key rank₀ rank (p ++ [e]) < key rank₀ rank (p ++ [e']) := by
  rw [key_lt_iff, places_append hp, places_append hp]
  refine Or.inr ⟨by simp, List.append_left_lt ?_⟩
  exact List.cons_lt_cons_iff.mpr (Or.inl h)

theorem key_single_lt {e e' : ε} (h : rank₀ e < rank₀ e') :
    key rank₀ rank [e] < key rank₀ rank [e'] := by
  rw [key_lt_iff]
  exact Or.inr ⟨rfl, List.cons_lt_cons_iff.mpr (Or.inl h)⟩

end Key

variable {κ ε ρ : Type} {next : κ → List ε} {src tgt : ε → κ} {verdict : κ → List ε → Verdict ρ}
  {kind : κ → Kind} {start x y : κ} {path q : List ε} {k : Kind}

/-! ### Trails -/

theorem Trail.rest {e e' : ε} {s : List ε} (h : Trail next src tgt x (e :: e' :: s) y) :
    Trail next src tgt (tgt e) (e' :: s) y := by
  obtain ⟨hlink, hrest⟩ := List.isChain_cons_cons.mp h.linked
  refine ⟨fun a ha => h.edges a (List.mem_cons_of_mem e ha), hrest, ?_, ?_⟩
  · rw [List.head?_cons, Option.map_some, hlink]
  · have := h.last
    rwa [List.getLast?_cons_cons] at this

theorem Trail.begin {e : ε} (h : Trail next src tgt start (path ++ [e]) x) (hp : path ≠ []) :
    Trail next src tgt start path (src e) := by
  obtain ⟨hlinked, -, hjoin⟩ := List.isChain_append.mp h.linked
  refine ⟨fun a ha => h.edges a (List.mem_append_left _ ha), hlinked, ?_, ?_⟩
  · have := h.head
    rwa [List.head?_append_of_ne_nil _ hp] at this
  · obtain ⟨last, hlast⟩ := Option.isSome_iff_exists.mp (List.getLast?_isSome.mpr hp)
    rw [hlast, Option.map_some, hjoin last hlast e (by simp)]

theorem Trail.ne_nil (h : Trail next src tgt start path x) : path ≠ [] := by
  rintro rfl
  have := h.last
  simp at this

/-- Past its start a path is on nodes walked through, and does not come back. -/
def Inner (src : ε → κ) (kind : κ → Kind) (start : κ) (path : List ε) : Prop :=
  ∀ y ∈ (path.map src).tail, kind y = .through ∧ y ≠ start

/-- **A trail the search could take** to a node of kind `k`. -/
structure TrailTo (next : κ → List ε) (src tgt : ε → κ) (kind : κ → Kind) (start : κ) (k : Kind)
    (path : List ε) (x : κ) : Prop where
  trail : Trail next src tgt start path x
  inner : Inner src kind start path
  ends : kind x = k

theorem Inner.snoc {e : ε} (h : Inner src kind start path) (hp : path ≠ [])
    (he : kind (src e) = .through ∧ src e ≠ start) : Inner src kind start (path ++ [e]) := by
  intro y hy
  rw [List.map_append, List.tail_append_of_ne_nil (by simpa using hp)] at hy
  rcases List.mem_append.mp hy with hy | hy
  · exact h y hy
  · rw [List.mem_singleton.mp hy]
    exact he

theorem Inner.begin {e : ε} (h : Inner src kind start (path ++ [e])) (hp : path ≠ []) :
    Inner src kind start path ∧ kind (src e) = .through ∧ src e ≠ start := by
  unfold Inner at h
  rw [List.map_append, List.tail_append_of_ne_nil (by simpa using hp)] at h
  exact ⟨fun y hy => h y (List.mem_append_left _ hy), h _ (List.mem_append_right _ (List.mem_singleton_self _))⟩

/-! ### The queue in order -/

/-- **A search in order.** The queue is sorted, after every path walked on; `tree` gives the path by which a node
was walked through. An edge that leaves such a node is queued behind its path, unless its target had its turn
earlier. -/
structure Early (next : κ → List ε) (src tgt : ε → κ) (kind : κ → Kind) (start : κ) (rank₀ rank : ε → ℕ)
    (queue : List (κ × List ε)) (visited : List κ) (kept : Option ρ) (tree : κ → List ε) : Prop where
  sorted : queue.Pairwise fun p p' => key rank₀ rank p.2 < key rank₀ rank p'.2
  parent : ∀ p ∈ queue, ∀ p' ∈ queue, key rank₀ rank p.2.dropLast < key rank₀ rank p'.2
  trail : ∀ p ∈ queue, Trail next src tgt start p.2 p.1
  inner : ∀ p ∈ queue, Inner src kind start p.2
  root : start ∈ visited ∧ tree start = []
  other : ∀ x ∈ visited, x ≠ start → tree x ≠ []
  before : ∀ x ∈ visited, ∀ p ∈ queue, key rank₀ rank (tree x) < key rank₀ rank p.2
  closed : ∀ x ∈ visited, ∀ e ∈ next x, (tgt e, tree x ++ [e]) ∈ queue ∨
    kind (tgt e) = .held ∧ kept.isSome ∨
    tgt e ∈ visited ∧ kind (tgt e) = .through ∧
      key rank₀ rank (tree (tgt e)) ≤ key rank₀ rank (tree x ++ [e])

variable {rank₀ rank : ε → ℕ} {queue : List (κ × List ε)} {visited : List κ} {kept : Option ρ}
  {tree : κ → List ε}

theorem Early.covers (h : Early next src tgt kind start rank₀ rank queue visited kept tree)
    (hk : k = .goal ∨ k = .held ∧ kept = none) (hy : kind y = k) :
    ∀ (s : List ε) (x : κ), x ∈ visited → Trail next src tgt x s y → Inner src kind start s →
      ∃ p ∈ queue, key rank₀ rank p.2 ≤ key rank₀ rank (tree x ++ s)
  | [], _, _, ht, _ => absurd rfl (Trail.ne_nil ht)
  | e :: s, x, hx, ht, hin => by
    have hsrc : src e = x := by simpa using ht.head
    have he : e ∈ next x := hsrc ▸ ht.edges e List.mem_cons_self
    have hsplit : tree x ++ e :: s = tree x ++ [e] ++ s := by simp
    rw [hsplit]
    rcases h.closed x hx e he with hqueue | ⟨hheld, hsome⟩ | ⟨hvisited, hthrough, hle⟩
    · exact ⟨_, hqueue, key_le_append _ s⟩
    · exfalso
      cases s with
      | nil =>
        have hte : tgt e = y := by simpa using ht.last
        rw [hte, hy] at hheld
        rcases hk with hk | ⟨-, hk⟩
        · rw [hk] at hheld
          cases hheld
        · rw [hk] at hsome
          cases hsome
      | cons e' s =>
        obtain ⟨hlink, -⟩ := List.isChain_cons_cons.mp ht.linked
        have := (hin (src e') List.mem_cons_self).1
        rw [← hlink, hheld] at this
        cases this
    · cases s with
      | nil =>
        have hte : tgt e = y := by simpa using ht.last
        rw [hte, hy] at hthrough
        rcases hk with hk | ⟨hk, -⟩ <;> rw [hk] at hthrough <;> cases hthrough
      | cons e' s =>
        obtain ⟨hlink, -⟩ := List.isChain_cons_cons.mp ht.linked
        have hne : tgt e ≠ start := by
          rw [hlink]
          exact (hin (src e') List.mem_cons_self).2
        obtain ⟨p, hp, hple⟩ := h.covers hk hy (e' :: s) (tgt e) hvisited (Trail.rest ht)
          fun z hz => hin z (List.mem_cons_of_mem _ hz)
        exact ⟨p, hp, hple.trans (key_append_le (h.other _ hvisited hne) (by simp) hle _)⟩

theorem Early.first (h : Early next src tgt kind start rank₀ rank ((x, path) :: queue) visited kept tree)
    (hk : k = .goal ∨ k = .held ∧ kept = none) (ht : TrailTo next src tgt kind start k q y) :
    key rank₀ rank path ≤ key rank₀ rank q := by
  obtain ⟨p, hp, hle⟩ := h.covers hk ht.ends q start h.root.1 ht.trail ht.inner
  rw [h.root.2, List.nil_append] at hle
  refine le_trans ?_ hle
  rcases List.mem_cons.mp hp with rfl | hp
  · exact le_rfl
  · exact ((List.pairwise_cons.mp h.sorted).1 p hp).le

theorem Early.keep {r : ρ}
    (h : Early next src tgt kind start rank₀ rank ((x, path) :: queue) visited kept tree)
    (hx : kind x = .held) :
    Early next src tgt kind start rank₀ rank queue visited (kept.or (some r)) tree where
  sorted := (List.pairwise_cons.mp h.sorted).2
  parent := fun p hp p' hp' => h.parent p (List.mem_cons_of_mem _ hp) p' (List.mem_cons_of_mem _ hp')
  trail := fun p hp => h.trail p (List.mem_cons_of_mem _ hp)
  inner := fun p hp => h.inner p (List.mem_cons_of_mem _ hp)
  root := h.root
  other := h.other
  before := fun z hz p hp => h.before z hz p (List.mem_cons_of_mem _ hp)
  closed := fun z hz e he => by
    have hsome : (kept.or (some r)).isSome := by cases kept <;> rfl
    rcases h.closed z hz e he with hqueue | ⟨hheld, -⟩ | hvisited
    · rcases List.mem_cons.mp hqueue with heq | hqueue
      · rw [(Prod.mk.inj heq).1]
        exact Or.inr (Or.inl ⟨hx, hsome⟩)
      · exact Or.inl hqueue
    · exact Or.inr (Or.inl ⟨hheld, hsome⟩)
    · exact Or.inr (Or.inr hvisited)

theorem Early.pass (h : Early next src tgt kind start rank₀ rank ((x, path) :: queue) visited kept tree)
    (hx : kind x = .through) (hv : x ∈ visited) :
    Early next src tgt kind start rank₀ rank queue visited kept tree where
  sorted := (List.pairwise_cons.mp h.sorted).2
  parent := fun p hp p' hp' => h.parent p (List.mem_cons_of_mem _ hp) p' (List.mem_cons_of_mem _ hp')
  trail := fun p hp => h.trail p (List.mem_cons_of_mem _ hp)
  inner := fun p hp => h.inner p (List.mem_cons_of_mem _ hp)
  root := h.root
  other := h.other
  before := fun z hz p hp => h.before z hz p (List.mem_cons_of_mem _ hp)
  closed := fun z hz e he => by
    rcases h.closed z hz e he with hqueue | hrest
    · rcases List.mem_cons.mp hqueue with heq | hqueue
      · obtain ⟨htgt, hpath⟩ := Prod.mk.inj heq
        rw [htgt, hpath]
        exact Or.inr (Or.inr ⟨hv, hx, (h.before x hv _ List.mem_cons_self).le⟩)
      · exact Or.inl hqueue
    · exact Or.inr hrest

theorem Early.lt_snoc
    (h : Early next src tgt kind start rank₀ rank ((x, path) :: queue) visited kept tree)
    {p : κ × List ε} (hp : p ∈ (x, path) :: queue) (e : ε) :
    key rank₀ rank p.2 < key rank₀ rank (path ++ [e]) := by
  have hpath := Trail.ne_nil (h.trail _ List.mem_cons_self)
  have hparent := h.parent p hp _ List.mem_cons_self
  have hne := Trail.ne_nil (h.trail p hp)
  by_cases hshort : p.2.dropLast = []
  · have hlen : p.2.length = 1 := by
      have := List.length_pos_iff.mpr hne
      have hdrop := congrArg List.length hshort
      rw [List.length_dropLast, List.length_nil] at hdrop
      omega
    have hpos : 0 < path.length := List.length_pos_iff.mpr hpath
    rw [key_lt_iff, List.length_append, List.length_singleton]
    exact Or.inl (by omega)
  · rw [← List.dropLast_append_getLast hne]
    exact key_append_lt hshort hpath rfl hparent

variable [DecidableEq κ]

theorem Early.expand (hsrc : ∀ x, ∀ e ∈ next x, src e = x)
    (hrank : ∀ x, (next x).Pairwise fun e e' => rank e < rank e')
    (h : Early next src tgt kind start rank₀ rank ((x, path) :: queue) visited kept tree)
    (hx : kind x = .through) (hv : x ∉ visited) :
    Early next src tgt kind start rank₀ rank (queue ++ (next x).map fun e => (tgt e, path ++ [e]))
      (x :: visited) kept (Function.update tree x path) := by
  have ht := h.trail _ List.mem_cons_self
  have hin := h.inner _ List.mem_cons_self
  have hpath := Trail.ne_nil ht
  have hxs : x ≠ start := fun heq => hv (heq ▸ h.root.1)
  obtain ⟨hfirst, hsorted⟩ := List.pairwise_cons.mp h.sorted
  have hold : ∀ z ∈ visited, Function.update tree x path z = tree z := fun z hz =>
    Function.update_of_ne (fun heq : z = x => hv (heq ▸ hz)) _ _
  refine ⟨?_, fun p hp p' hp' => ?_, fun p hp => ?_, fun p hp => ?_, ⟨?_, ?_⟩, fun z hz hzs => ?_,
    fun z hz p hp => ?_, fun z hz e he => ?_⟩
  · refine List.pairwise_append.mpr ⟨hsorted, List.pairwise_map.mpr ((hrank x).imp fun hlt =>
      key_snoc_lt hpath hlt), fun p hp p' hp' => ?_⟩
    obtain ⟨e, -, rfl⟩ := List.mem_map.mp hp'
    exact h.lt_snoc (List.mem_cons_of_mem _ hp) e
  · rcases mem_expanded hp with hp | ⟨e, -, rfl⟩
    · have hparent := h.parent p (List.mem_cons_of_mem _ hp)
      rcases mem_expanded hp' with hp' | ⟨e', -, rfl⟩
      · exact hparent p' (List.mem_cons_of_mem _ hp')
      · exact (hparent _ List.mem_cons_self).trans (key_lt_append path (by simp))
    · dsimp only
      rw [List.dropLast_concat]
      rcases mem_expanded hp' with hp' | ⟨e', -, rfl⟩
      · exact hfirst p' hp'
      · exact key_lt_append path (by simp)
  · rcases mem_expanded hp with hp | ⟨e, he, rfl⟩
    · exact h.trail p (List.mem_cons_of_mem _ hp)
    · exact ht.snoc he (hsrc x e he)
  · rcases mem_expanded hp with hp | ⟨e, he, rfl⟩
    · exact h.inner p (List.mem_cons_of_mem _ hp)
    · exact hin.snoc hpath (by rw [hsrc x e he]; exact ⟨hx, hxs⟩)
  · exact List.mem_cons_of_mem _ h.root.1
  · rw [hold start h.root.1]
    exact h.root.2
  · rcases List.mem_cons.mp hz with rfl | hz
    · rw [Function.update_self]
      exact hpath
    · rw [hold z hz]
      exact h.other z hz hzs
  · rcases List.mem_cons.mp hz with rfl | hz
    · rw [Function.update_self]
      rcases mem_expanded hp with hp | ⟨e, -, rfl⟩
      · exact hfirst p hp
      · exact key_lt_append path (by simp)
    · rw [hold z hz]
      have hbefore := h.before z hz
      rcases mem_expanded hp with hp | ⟨e, -, rfl⟩
      · exact hbefore p (List.mem_cons_of_mem _ hp)
      · exact (hbefore _ List.mem_cons_self).trans (key_lt_append path (by simp))
  · rcases List.mem_cons.mp hz with rfl | hz
    · rw [Function.update_self]
      exact Or.inl (List.mem_append_right _ (List.mem_map.mpr ⟨e, he, rfl⟩))
    · rw [hold z hz]
      rcases h.closed z hz e he with hqueue | hheld | ⟨hvisited, hthrough, hle⟩
      · rcases List.mem_cons.mp hqueue with heq | hqueue
        · obtain ⟨htgt, htree⟩ := Prod.mk.inj heq
          rw [htgt, htree, Function.update_self]
          exact Or.inr (Or.inr ⟨List.mem_cons_self, hx, le_rfl⟩)
        · exact Or.inl (List.mem_append_left _ hqueue)
      · exact Or.inr (Or.inl hheld)
      · rw [hold _ hvisited]
        exact Or.inr (Or.inr ⟨List.mem_cons_of_mem _ hvisited, hthrough, hle⟩)

omit [DecidableEq κ] in
theorem early_start {first : List ε} (hsrc : ∀ x, ∀ e ∈ next x, src e = x)
    (hf : ∀ e, e ∈ first ↔ e ∈ next start) (hfirst : first.Pairwise fun e e' => rank₀ e < rank₀ e') :
    Early next src tgt kind start rank₀ rank (first.map fun e => (tgt e, [e])) [start] (none : Option ρ)
      fun _ => [] := by
  have hqueue : ∀ p ∈ first.map (fun e => (tgt e, [e])), ∃ e ∈ next start, p = (tgt e, [e]) :=
    fun p hp => by
      obtain ⟨e, he, rfl⟩ := List.mem_map.mp hp
      exact ⟨e, (hf e).mp he, rfl⟩
  refine ⟨List.pairwise_map.mpr (hfirst.imp key_single_lt), fun p hp p' hp' => ?_, fun p hp => ?_,
    fun p hp => ?_, ⟨List.mem_singleton_self _, rfl⟩, fun x hx hxs => ?_, fun x hx p hp => ?_,
    fun x hx e he => ?_⟩
  · obtain ⟨e, -, rfl⟩ := hqueue p hp
    obtain ⟨e', -, rfl⟩ := hqueue p' hp'
    exact key_lt_append [] (by simp)
  · obtain ⟨e, he, rfl⟩ := hqueue p hp
    exact .single (by rw [hsrc _ e he]; exact he) (hsrc _ e he)
  · obtain ⟨e, -, rfl⟩ := hqueue p hp
    exact fun y hy => by cases hy
  · exact absurd (List.mem_singleton.mp hx) hxs
  · obtain ⟨e, -, rfl⟩ := hqueue p hp
    exact key_lt_append [] (by simp)
  · rw [List.mem_singleton.mp hx] at he
    exact Or.inl (List.mem_map.mpr ⟨e, (hf e).mpr he, rfl⟩)

/-! ### What is found first -/

/-- **What a search returns**: the verdict at the end of the first trail to a goal; else what was kept at
the end of the first trail to a held node; else nothing. -/
inductive First (next : κ → List ε) (src tgt : ε → κ) (verdict : κ → List ε → Verdict ρ)
    (kind : κ → Kind) (start : κ) (rank₀ rank : ε → ℕ) (result : Option ρ) : Prop
  | found (x : κ) (path : List ε) (r : ρ) (hr : result = some r) (hv : verdict x path = .done r)
      (ht : TrailTo next src tgt kind start .goal path x)
      (hfirst : ∀ y q, TrailTo next src tgt kind start .goal q y → key rank₀ rank path ≤ key rank₀ rank q)
  | kept (x : κ) (path : List ε) (r : ρ) (hr : result = some r) (hv : verdict x path = .keep r)
      (hno : ∀ y q, ¬ TrailTo next src tgt kind start .goal q y)
      (ht : TrailTo next src tgt kind start .held path x)
      (hfirst : ∀ y q, TrailTo next src tgt kind start .held q y → key rank₀ rank path ≤ key rank₀ rank q)
  | lost (hr : result = none) (hno : ∀ y q, ¬ TrailTo next src tgt kind start .goal q y)
      (hno' : ∀ y q, ¬ TrailTo next src tgt kind start .held q y)

variable {nodes : List κ}

variable (nodes) in
theorem search_first (hsrc : ∀ x, ∀ e ∈ next x, src e = x)
    (hrank : ∀ x, (next x).Pairwise fun e e' => rank e < rank e') (hn : nodes.Nodup)
    (hnodes : ∀ x, x ∉ nodes → next x = [])
    (hkind : ∀ x path, Trail next src tgt start path x → (verdict x path).kind = kind x) :
    ∀ (n : ℕ) (queue : List (κ × List ε)) (visited : List κ) (kept : Option ρ) (tree : κ → List ε),
      Early next src tgt kind start rank₀ rank queue visited kept tree →
      (∀ r, kept = some r → ∃ x path, verdict x path = .keep r ∧
        TrailTo next src tgt kind start .held path x ∧
        ∀ y q, TrailTo next src tgt kind start .held q y → key rank₀ rank path ≤ key rank₀ rank q) →
      potential next nodes queue visited ≤ n →
      First next src tgt verdict kind start rank₀ rank (search next tgt verdict n queue visited kept)
  | n, [], visited, kept, tree, he, hk, _ => by
    have hend : search next tgt verdict n [] visited kept = kept := by cases n <;> rfl
    rw [hend]
    have hno : ∀ {k}, (k = .goal ∨ k = .held ∧ kept = none) → ∀ y q,
        ¬ TrailTo next src tgt kind start k q y := fun hgoal y q ht => by
      obtain ⟨p, hp, -⟩ := he.covers hgoal ht.ends q start he.root.1 ht.trail ht.inner
      cases hp
    cases hkept : kept with
    | none => exact .lost rfl (hno (Or.inl rfl)) (hno (Or.inr ⟨rfl, hkept⟩))
    | some r =>
      obtain ⟨x, path, hv, ht, hfirst⟩ := hk r hkept
      exact .kept x path r rfl hv (hno (Or.inl rfl)) ht hfirst
  | 0, p :: queue, visited, kept, _, _, _, hp => by
    simp [potential] at hp
  | n + 1, (x, path) :: queue, visited, kept, tree, he, hk, hp => by
    have ht := he.trail _ List.mem_cons_self
    have hin := he.inner _ List.mem_cons_self
    have hx := hkind x path ht
    have hlen : potential next nodes ((x, path) :: queue) visited =
        potential next nodes queue visited + 1 := by
      simp only [potential, List.length_cons]; omega
    unfold search
    cases hv : verdict x path with
    | done r =>
      rw [hv] at hx
      exact .found x path r rfl hv ⟨ht, hin, hx.symm⟩ fun y q hq => he.first (Or.inl rfl) hq
    | keep r =>
      rw [hv] at hx
      refine search_first hsrc hrank hn hnodes hkind n queue visited _ tree (he.keep hx.symm)
        (fun r' hr' => ?_) (by omega)
      cases hkept : kept with
      | none =>
        rw [hkept] at hr'
        cases hr'
        exact ⟨x, path, hv, ⟨ht, hin, hx.symm⟩, fun y q hq => he.first (Or.inr ⟨rfl, hkept⟩) hq⟩
      | some k =>
        rw [hkept] at hr'
        exact hk r' (hkept.trans hr')
    | step =>
      rw [hv] at hx
      dsimp only
      split_ifs with hvis
      · exact search_first hsrc hrank hn hnodes hkind n queue visited kept tree (he.pass hx.symm hvis) hk
          (by omega)
      · refine search_first hsrc hrank hn hnodes hkind n _ _ kept _ (he.expand hsrc hrank hx.symm hvis) hk ?_
        have hsum := sum_filter_visited (fun x => (next x).length) x visited hn hvis
          fun hno => by rw [hnodes x hno]; rfl
        simp only [potential, List.length_append, List.length_map, List.length_cons] at hp ⊢
        omega

/-! ### Fewer edges -/

section Fewer

variable {next' : κ → List ε} {kind' : κ → Kind} {verdict' : κ → List ε → Verdict ρ} {result result' : Option ρ}

omit [DecidableEq κ]

/-- **Fewer edges**: some may be gone, a node may only turn into one walked through, and no held node does
but the start. -/
structure Fewer (next next' : κ → List ε) (kind kind' : κ → Kind) (start : κ) : Prop where
  edges : ∀ x, ∀ e ∈ next' x, e ∈ next x
  through : ∀ x, kind x = .through → kind' x = .through
  held : ∀ x, kind x = .held → kind' x = .held ∨ x = start
  back : ∀ x, kind' x ≠ .through → kind' x = kind x

theorem Fewer.trail (h : Fewer next next' kind kind' start) (ht : Trail next' src tgt start path x) :
    Trail next src tgt start path x :=
  ⟨fun e he => h.edges _ e (ht.edges e he), ht.linked, ht.head, ht.last⟩

variable (rank₀ rank) in
theorem Fewer.inner (h : Fewer next next' kind kind' start) (path : List ε) {x : κ}
    (ht : Trail next' src tgt start path x) (hin : Inner src kind' start path) :
    Inner src kind start path ∨
      ∃ z q, TrailTo next src tgt kind start .goal q z ∧ key rank₀ rank q ≤ key rank₀ rank path := by
  induction path using List.reverseRecOn generalizing x with
  | nil => exact Or.inl fun y hy => by cases hy
  | append_singleton path e ih =>
    by_cases hp : path = []
    · rw [hp]
      exact Or.inl fun y hy => by cases hy
    · have ht' := Trail.begin ht hp
      obtain ⟨hin', hthrough, hne⟩ := hin.begin hp
      rcases ih ht' hin' with hinner | ⟨z, q, hq, hle⟩
      · cases hkind : kind (src e) with
        | goal => exact Or.inr ⟨_, path, ⟨h.trail ht', hinner, hkind⟩, key_le_append path _⟩
        | held =>
          rcases h.held _ hkind with hheld | hstart
          · rw [hheld] at hthrough
            cases hthrough
          · exact absurd hstart hne
        | through => exact Or.inl (hinner.snoc hp ⟨hkind, hne⟩)
      · exact Or.inr ⟨z, q, hq, hle.trans (key_le_append path _)⟩

variable (rank₀ rank) in
theorem Fewer.cut (h : Fewer next next' kind kind' start) (hk : k ≠ .through)
    (ht : TrailTo next' src tgt kind' start k q y) : TrailTo next src tgt kind start k q y ∨
      ∃ z q', TrailTo next src tgt kind start .goal q' z ∧ key rank₀ rank q' ≤ key rank₀ rank q := by
  refine (h.inner rank₀ rank q ht.trail ht.inner).imp_left fun hinner => ⟨h.trail ht.trail, hinner, ?_⟩
  rw [← h.back y (by rw [ht.ends]; exact hk), ht.ends]

theorem places_inj (hinj : ∀ x, ∀ e ∈ next x, ∀ e' ∈ next x, rank e = rank e' → e = e') :
    ∀ {e : ε} {p q : List ε}, (∀ a ∈ p, a ∈ next (src a)) → (∀ a ∈ q, a ∈ next (src a)) →
      (e :: p).IsChain (fun a b => tgt a = src b) → (e :: q).IsChain (fun a b => tgt a = src b) →
      p.map rank = q.map rank → p = q
  | _, [], [], _, _, _, _, _ => rfl
  | _, [], _ :: _, _, _, _, _, h => by cases h
  | _, _ :: _, [], _, _, _, _, h => by cases h
  | e, a :: p, b :: q, hp, hq, hlp, hlq, h => by
    obtain ⟨hea, hlp⟩ := List.isChain_cons_cons.mp hlp
    obtain ⟨heb, hlq⟩ := List.isChain_cons_cons.mp hlq
    obtain ⟨hrank, hrest⟩ := List.cons.inj h
    have hab : a = b := by
      refine hinj (src a) a (hp a List.mem_cons_self) b ?_ hrank
      rw [← hea, heb]
      exact hq b List.mem_cons_self
    subst hab
    rw [places_inj hinj (fun c hc => hp c (List.mem_cons_of_mem _ hc))
      (fun c hc => hq c (List.mem_cons_of_mem _ hc)) hlp hlq hrest]

theorem key_inj (hinj₀ : ∀ e ∈ next start, ∀ e' ∈ next start, rank₀ e = rank₀ e' → e = e')
    (hinj : ∀ x, ∀ e ∈ next x, ∀ e' ∈ next x, rank e = rank e' → e = e')
    (hp : Trail next src tgt start path x) (hq : Trail next src tgt start q y)
    (h : key rank₀ rank path = key rank₀ rank q) : path = q ∧ x = y := by
  have hsame : path = q := by
    obtain ⟨hlen, hplaces⟩ := Prod.mk.inj (toLex.injective h)
    cases path with
    | nil => exact absurd rfl (Trail.ne_nil hp)
    | cons e p =>
      cases q with
      | nil => exact absurd rfl (Trail.ne_nil hq)
      | cons e' q =>
        obtain ⟨hfirst, hrest⟩ := List.cons.inj hplaces
        have hsrc : src e = start := by simpa using hp.head
        have hsrc' : src e' = start := by simpa using hq.head
        have hee : e = e' := hinj₀ e (hsrc ▸ hp.edges e List.mem_cons_self) e'
          (hsrc' ▸ hq.edges e' List.mem_cons_self) hfirst
        subst hee
        rw [places_inj hinj (fun a ha => hp.edges a (List.mem_cons_of_mem _ ha))
          (fun a ha => hq.edges a (List.mem_cons_of_mem _ ha)) hp.linked hq.linked hrest]
  subst hsame
  have := hp.last
  rw [hq.last] at this
  exact ⟨rfl, (Option.some.inj this).symm⟩

/-- **What is found first is found over fewer edges too**, as long as it is left. -/
theorem First.fewer (hfew : Fewer next next' kind kind' start)
    (hinj₀ : ∀ e ∈ next start, ∀ e' ∈ next start, rank₀ e = rank₀ e' → e = e')
    (hinj : ∀ x, ∀ e ∈ next x, ∀ e' ∈ next x, rank e = rank e' → e = e')
    (h : First next src tgt verdict kind start rank₀ rank result)
    (h' : First next' src tgt verdict' kind' start rank₀ rank result')
    (hleft : ∀ x path r, result = some r → verdict x path = .done r ∨ verdict x path = .keep r →
      Trail next src tgt start path x →
      Trail next' src tgt start path x ∧ verdict' x path = verdict x path ∧ kind' x = kind x) :
    result' = result := by
  have hinner : ∀ {path}, Inner src kind start path → Inner src kind' start path := fun hin y hy =>
    ⟨hfew.through y (hin y hy).1, (hin y hy).2⟩
  cases h with
  | found x path r hr hv ht hfirst =>
    obtain ⟨ht', hv', hk'⟩ := hleft x path r hr (Or.inl hv) ht.trail
    have hpath : TrailTo next' src tgt kind' start .goal path x := ⟨ht', hinner ht.inner, hk'.trans ht.ends⟩
    cases h' with
    | found x₂ path₂ r₂ hr₂ hv₂ ht₂ hfirst₂ =>
      have hle : key rank₀ rank path ≤ key rank₀ rank path₂ := by
        rcases hfew.cut rank₀ rank (by decide) ht₂ with hcut | ⟨z, q, hq, hle⟩
        · exact hfirst _ _ hcut
        · exact (hfirst _ _ hq).trans hle
      obtain ⟨rfl, rfl⟩ := key_inj hinj₀ hinj ht.trail (hfew.trail ht₂.trail)
        (le_antisymm hle (hfirst₂ _ _ hpath))
      rw [hv', hv] at hv₂
      rw [hr, hr₂, Verdict.done.inj hv₂]
    | kept _ _ _ _ _ hno | lost _ hno => exact absurd hpath (hno _ _)
  | kept x path r hr hv hno ht hfirst =>
    obtain ⟨ht', hv', hk'⟩ := hleft x path r hr (Or.inr hv) ht.trail
    have hpath : TrailTo next' src tgt kind' start .held path x := ⟨ht', hinner ht.inner, hk'.trans ht.ends⟩
    cases h' with
    | found x₂ path₂ r₂ hr₂ hv₂ ht₂ hfirst₂ =>
      rcases hfew.cut rank₀ rank (by decide) ht₂ with hcut | ⟨z, q, hq, -⟩
      · exact absurd hcut (hno _ _)
      · exact absurd hq (hno _ _)
    | kept x₂ path₂ r₂ hr₂ hv₂ hno₂ ht₂ hfirst₂ =>
      have hle : key rank₀ rank path ≤ key rank₀ rank path₂ := by
        rcases hfew.cut rank₀ rank (by decide) ht₂ with hcut | ⟨z, q, hq, -⟩
        · exact hfirst _ _ hcut
        · exact absurd hq (hno _ _)
      obtain ⟨rfl, rfl⟩ := key_inj hinj₀ hinj ht.trail (hfew.trail ht₂.trail)
        (le_antisymm hle (hfirst₂ _ _ hpath))
      rw [hv', hv] at hv₂
      rw [hr, hr₂, Verdict.keep.inj hv₂]
    | lost _ _ hno' => exact absurd hpath (hno' _ _)
  | lost hr hno hno' =>
    have hnone : ∀ {k y q}, k ≠ .through → (k = .goal ∨ k = .held) →
        ¬ TrailTo next' src tgt kind' start k q y := fun hk hor ht => by
      rcases hfew.cut rank₀ rank hk ht with hcut | ⟨z, q, hq, -⟩
      · rcases hor with rfl | rfl
        · exact hno _ _ hcut
        · exact hno' _ _ hcut
      · exact hno _ _ hq
    cases h' with
    | found _ _ _ _ _ ht₂ => exact absurd ht₂ (hnone (by decide) (Or.inl rfl))
    | kept _ _ _ _ _ _ ht₂ => exact absurd ht₂ (hnone (by decide) (Or.inr rfl))
    | lost hr₂ => rw [hr, hr₂]

end Fewer

end NMesh.Base.Shortest
