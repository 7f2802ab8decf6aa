import Mathlib.Logic.Relation
import Mathlib.Data.List.Nodup
import Mathlib.Data.List.Chain
import Mathlib.Algebra.BigOperators.Group.List.Basic
import Mathlib.Algebra.GroupWithZero.Nat

/-! # Breadth-first search with verdicts

A search over a graph: nodes `κ`, edges `ε`, the edges that leave a node in `next`, each from `src` to `tgt`. A
node taken off the queue, with the path that led to it, gets a verdict: `done r` ends the search with `r`; `keep
r` remembers `r`, unless something is remembered, and walks no further there; `step` queues the edges that leave
the node, once per node.

When the verdict depends on the node only (`kind`), the search ends with a `done` verdict exactly if a goal can be
reached without passing a held node (`search_spec`), given fuel for the edges queued and to be queued
(`potential`). -/

namespace NMesh.Base.Search

inductive Verdict (ρ : Type)
  | done (r : ρ)
  | keep (r : ρ)
  | step

inductive Kind
  | goal
  | held
  | through
  deriving DecidableEq

def Verdict.kind {ρ : Type} : Verdict ρ → Kind
  | .done _ => .goal
  | .keep _ => .held
  | .step => .through

variable {κ ε ρ : Type} (next : κ → List ε) (src tgt : ε → κ) (verdict : κ → List ε → Verdict ρ)

def search [DecidableEq κ] : ℕ → List (κ × List ε) → List κ → Option ρ → Option ρ
  | 0, _, _, kept => kept
  | _ + 1, [], _, kept => kept
  | n + 1, (x, path) :: queue, visited, kept =>
    match verdict x path with
    | .done r => some r
    | .keep r => search n queue visited (kept.or (some r))
    | .step =>
      if x ∈ visited then search n queue visited kept
      else search n (queue ++ (next x).map fun e => (tgt e, path ++ [e])) (x :: visited) kept

/-- A path of edges from `start` to `x`. -/
structure Trail (start : κ) (path : List ε) (x : κ) : Prop where
  edges : ∀ e ∈ path, e ∈ next (src e)
  linked : path.IsChain fun e e' => tgt e = src e'
  head : path.head?.map src = some start
  last : path.getLast?.map tgt = some x

/-- There is an edge from `x` to `y`, which is not held. -/
def Edge (kind : κ → Kind) (x y : κ) : Prop := (∃ e ∈ next x, tgt e = y) ∧ kind y ≠ .held

/-- Node `x` is at the end of an edge from a node the search may walk through. -/
def Reached (kind : κ → Kind) (start x : κ) : Prop :=
  ∃ y, Relation.ReflTransGen (Edge next tgt kind) start y ∧ ∃ e ∈ next y, tgt e = x

/-- The edges queued and to be queued. -/
def potential [DecidableEq κ] (nodes : List κ) (queue : List (κ × List ε)) (visited : List κ) : ℕ :=
  queue.length + ((nodes.filter (· ∉ visited)).map fun x => (next x).length).sum

variable {next src tgt verdict}

theorem Trail.single {start : κ} {e : ε} (he : e ∈ next (src e)) (hs : src e = start) :
    Trail next src tgt start [e] (tgt e) :=
  ⟨fun e' he' => by rw [List.mem_singleton.mp he']; exact he, List.isChain_singleton e,
    by simp [hs], rfl⟩

theorem Trail.snoc {start x : κ} {path : List ε} {e : ε} (h : Trail next src tgt start path x)
    (he : e ∈ next x) (hs : src e = x) : Trail next src tgt start (path ++ [e]) (tgt e) where
  edges e' he' := by
    rcases List.mem_append.mp he' with he' | he'
    · exact h.edges e' he'
    · rw [List.mem_singleton.mp he', hs]; exact he
  linked := by
    refine List.isChain_append.mpr ⟨h.linked, List.isChain_singleton e, ?_⟩
    intro a ha b hb
    have hl := h.last
    rw [Option.mem_def] at ha
    rw [ha] at hl
    simp only [List.head?_cons, Option.mem_def, Option.some.injEq] at hb
    rw [← hb, hs]
    exact Option.some.inj hl
  head := by
    have hh := h.head
    cases path with
    | nil => simp at hh
    | cons a as => simpa using hh
  last := by simp

variable {r : κ → κ → Prop}

theorem Trail.path {x : κ} : ∀ {path : List ε} {start : κ},
    Trail next src tgt start path x →
    (∀ e ∈ path, tgt e = x ∨ tgt e ∈ path.map src → r (src e) (tgt e)) →
    Relation.ReflTransGen r start x
  | [], _, h, _ => by simpa using h.head
  | [e], start, h, hr => by
    have hs : src e = start := by simpa using h.head
    have ht : tgt e = x := by simpa using h.last
    subst hs ht
    exact .single (hr e List.mem_cons_self (Or.inl rfl))
  | e :: e' :: path, start, h, hr => by
    have hs : src e = start := by simpa using h.head
    obtain ⟨hlink, hrest⟩ := List.isChain_cons_cons.mp h.linked
    subst hs
    refine .head (hr e List.mem_cons_self (Or.inr (by simp [hlink]))) ?_
    refine Trail.path ⟨fun a ha => h.edges a (List.mem_cons_of_mem e ha), hrest, by simp [hlink], ?_⟩
      fun a ha hta => hr a (List.mem_cons_of_mem e ha) (hta.imp_right (List.mem_cons_of_mem (src e)))
    simpa using h.last

theorem path_avoids_start {a b : κ} (h : Relation.ReflTransGen r a b) :
    Relation.ReflTransGen (fun y z => r y z ∧ z ≠ a) a b := by
  induction h with
  | refl => exact .refl
  | @tail b c _ hbc ih =>
    by_cases hc : c = a
    · rw [hc]
    · exact ih.tail ⟨hbc, hc⟩

theorem path_avoids_or_hits {a b : κ} (z : κ) (h : Relation.ReflTransGen r a b) :
    Relation.ReflTransGen (fun x y => r x y ∧ y ≠ z) a b ∨
      ∃ y, Relation.ReflTransGen (fun x y => r x y ∧ y ≠ z) a y ∧ r y z := by
  induction h with
  | refl => exact Or.inl .refl
  | @tail b c _ hbc ih =>
    rcases ih with ih | ih
    · by_cases hc : c = z
      · exact Or.inr ⟨b, ih, hc ▸ hbc⟩
      · exact Or.inl (ih.tail ⟨hbc, hc⟩)
    · exact Or.inr ih

theorem sum_filter_visited [DecidableEq κ] (f : κ → ℕ) (x : κ) (visited : List κ) :
    ∀ {nodes : List κ}, nodes.Nodup → x ∉ visited → (x ∉ nodes → f x = 0) →
    ((nodes.filter (· ∉ x :: visited)).map f).sum + f x = ((nodes.filter (· ∉ visited)).map f).sum
  | [], _, _, h => by simpa using h (by simp)
  | y :: nodes, hn, hx, h => by
    rw [List.nodup_cons] at hn
    by_cases hyx : y = x
    · subst hyx
      have hsame : nodes.filter (· ∉ y :: visited) = nodes.filter (· ∉ visited) :=
        List.filter_congr fun z hz => by
          have : z ≠ y := fun he => hn.1 (he ▸ hz)
          simp [this]
      rw [List.filter_cons_of_neg (by simp), List.filter_cons_of_pos (by simpa using hx), hsame]
      simp [Nat.add_comm]
    · have ih := sum_filter_visited f x visited hn.2 hx fun hno => h (by simp [hno, Ne.symm hyx])
      by_cases hy : y ∈ visited
      · rw [List.filter_cons_of_neg (by simp [hy]), List.filter_cons_of_neg (by simp [hy])]
        exact ih
      · rw [List.filter_cons_of_pos (by simp [hy, hyx]), List.filter_cons_of_pos (by simp [hy])]
        simp only [List.map_cons, List.sum_cons]
        omega

section Spec

variable {kind : κ → Kind} {start : κ} {nodes : List κ}

/-- The state of a search: every node queued or walked through was reached, and every edge leaving a
node walked through is queued or leads to a node that has had its verdict. -/
structure Walk (next : κ → List ε) (src tgt : ε → κ) (kind : κ → Kind) (start : κ)
    (queue : List (κ × List ε)) (visited : List κ) (kept : Option ρ) : Prop where
  mem : start ∈ visited
  through : ∀ x ∈ visited, x = start ∨ kind x = .through
  walked : ∀ x ∈ visited, Relation.ReflTransGen (Edge next tgt kind) start x
  trail : ∀ p ∈ queue, Trail next src tgt start p.2 p.1
  once : ∀ p ∈ queue, (p.2.map src).Nodup ∧ ∀ y ∈ p.2.map src, y ∈ visited
  reached : ∀ p ∈ queue, Reached next tgt kind start p.1
  closed : ∀ x ∈ visited, ∀ e ∈ next x, (∃ p ∈ queue, p.1 = tgt e) ∨
    kind (tgt e) = .held ∧ kept.isSome ∨ kind (tgt e) = .through ∧ tgt e ∈ visited

/-- What a search returns: the `done` verdict of a goal that was reached; or no goal can be reached,
what is returned was kept, and nothing is only if no held node can be reached. -/
inductive Outcome (next : κ → List ε) (src tgt : ε → κ) (verdict : κ → List ε → Verdict ρ)
    (kind : κ → Kind) (start : κ) (result : Option ρ) : Prop
  | found (x : κ) (path : List ε) (r : ρ) (hr : result = some r) (hv : verdict x path = .done r)
      (ht : Trail next src tgt start path x) (ho : (path.map src).Nodup)
      (hs : ∀ y ∈ path.map src, y = start ∨ kind y = .through)
      (hreached : Reached next tgt kind start x)
  | lost (hno : ∀ x, Reached next tgt kind start x → kind x ≠ .goal)
      (hnone : result = none → ∀ x, Reached next tgt kind start x → kind x ≠ .held)
      (hkept : ∀ r, result = some r → ∃ x path, verdict x path = .keep r ∧
        Trail next src tgt start path x)

variable {queue : List (κ × List ε)} {visited : List κ} {kept : Option ρ}

theorem Walk.reached_of_nil (h : Walk next src tgt kind start [] visited kept) {x : κ}
    (hx : Reached next tgt kind start x) :
    kind x = .held ∧ kept.isSome ∨ kind x = .through ∧ x ∈ visited := by
  obtain ⟨y, hy, e, he, rfl⟩ := hx
  have hvis : ∀ z, Relation.ReflTransGen (Edge next tgt kind) start z → z ∈ visited := by
    intro z hz
    induction hz with
    | refl => exact h.mem
    | tail _ hedge ih =>
      obtain ⟨⟨e, he, rfl⟩, hheld⟩ := hedge
      rcases h.closed _ ih e he with ⟨p, hp, -⟩ | hk | hk
      · cases hp
      · exact absurd hk.1 hheld
      · exact hk.2
  exact (h.closed y (hvis y hy) e he).resolve_left fun ⟨p, hp, _⟩ => by cases hp

theorem mem_expanded {p : κ × List ε} {path es : List ε}
    (hp : p ∈ queue ++ es.map fun e => (tgt e, path ++ [e])) :
    p ∈ queue ∨ ∃ e ∈ es, p = (tgt e, path ++ [e]) :=
  (List.mem_append.mp hp).imp_right fun hp => by
    obtain ⟨e, he, rfl⟩ := List.mem_map.mp hp
    exact ⟨e, he, rfl⟩

theorem Walk.keep {x : κ} {path : List ε} {r : ρ}
    (h : Walk next src tgt kind start ((x, path) :: queue) visited kept) (hx : kind x = .held) :
    Walk next src tgt kind start queue visited (kept.or (some r)) := by
  have hsome : (kept.or (some r)).isSome := by cases kept <;> rfl
  refine ⟨h.mem, h.through, h.walked, fun p hp => h.trail p (List.mem_cons_of_mem _ hp),
    fun p hp => h.once p (List.mem_cons_of_mem _ hp),
    fun p hp => h.reached p (List.mem_cons_of_mem _ hp), fun y hy e he => ?_⟩
  rcases h.closed y hy e he with ⟨p, hp, heq⟩ | hk | hk
  · rcases List.mem_cons.mp hp with rfl | hp
    · exact Or.inr (Or.inl ⟨heq ▸ hx, hsome⟩)
    · exact Or.inl ⟨p, hp, heq⟩
  · exact Or.inr (Or.inl ⟨hk.1, hsome⟩)
  · exact Or.inr (Or.inr hk)

theorem Walk.pass {x : κ} {path : List ε}
    (h : Walk next src tgt kind start ((x, path) :: queue) visited kept) (hx : kind x = .through)
    (hv : x ∈ visited) : Walk next src tgt kind start queue visited kept := by
  refine ⟨h.mem, h.through, h.walked, fun p hp => h.trail p (List.mem_cons_of_mem _ hp),
    fun p hp => h.once p (List.mem_cons_of_mem _ hp),
    fun p hp => h.reached p (List.mem_cons_of_mem _ hp), fun y hy e he => ?_⟩
  rcases h.closed y hy e he with ⟨p, hp, heq⟩ | hk
  · rcases List.mem_cons.mp hp with rfl | hp
    · exact Or.inr (Or.inr ⟨heq ▸ hx, heq ▸ hv⟩)
    · exact Or.inl ⟨p, hp, heq⟩
  · exact Or.inr hk

theorem Walk.expand {x : κ} {path : List ε} (hsrc : ∀ x, ∀ e ∈ next x, src e = x)
    (h : Walk next src tgt kind start ((x, path) :: queue) visited kept) (hx : kind x = .through)
    (hv : x ∉ visited) : Walk next src tgt kind start
      (queue ++ (next x).map fun e => (tgt e, path ++ [e])) (x :: visited) kept := by
  have ht := h.trail _ List.mem_cons_self
  obtain ⟨honce, hsub⟩ := h.once _ List.mem_cons_self
  obtain ⟨y, hy, e, he, rfl⟩ := h.reached _ List.mem_cons_self
  have hwalked : Relation.ReflTransGen (Edge next tgt kind) start (tgt e) :=
    hy.tail ⟨⟨e, he, rfl⟩, by rw [hx]; decide⟩
  refine ⟨List.mem_cons_of_mem _ h.mem, fun z hz => ?_, fun z hz => ?_, fun p hp => ?_,
    fun p hp => ?_, fun p hp => ?_, fun z hz e' he' => ?_⟩
  · rcases List.mem_cons.mp hz with rfl | hz
    · exact Or.inr hx
    · exact h.through z hz
  · rcases List.mem_cons.mp hz with rfl | hz
    · exact hwalked
    · exact h.walked z hz
  · rcases mem_expanded hp with hp | ⟨e', he', rfl⟩
    · exact h.trail p (List.mem_cons_of_mem _ hp)
    · exact ht.snoc he' (hsrc _ e' he')
  · rcases mem_expanded hp with hp | ⟨e', he', rfl⟩
    · obtain ⟨h1, h2⟩ := h.once p (List.mem_cons_of_mem _ hp)
      exact ⟨h1, fun z hz => List.mem_cons_of_mem _ (h2 z hz)⟩
    · rw [List.map_append, List.map_singleton, hsrc _ e' he']
      refine ⟨List.nodup_append.mpr ⟨honce, List.nodup_singleton _, fun a ha b hb hab => ?_⟩,
        fun z hz => ?_⟩
      · rw [List.mem_singleton.mp hb] at hab
        exact hv (hab ▸ hsub a ha)
      · rcases List.mem_append.mp hz with hz | hz
        · exact List.mem_cons_of_mem _ (hsub z hz)
        · rw [List.mem_singleton.mp hz]; exact List.mem_cons_self
  · rcases mem_expanded hp with hp | ⟨e', he', rfl⟩
    · exact h.reached p (List.mem_cons_of_mem _ hp)
    · exact ⟨tgt e, hwalked, e', he', rfl⟩
  · rcases List.mem_cons.mp hz with rfl | hz
    · exact Or.inl ⟨(tgt e', path ++ [e']),
        List.mem_append.mpr (Or.inr (List.mem_map.mpr ⟨e', he', rfl⟩)), rfl⟩
    · rcases h.closed z hz e' he' with ⟨p, hp, heq⟩ | hk | hk
      · rcases List.mem_cons.mp hp with rfl | hp
        · exact Or.inr (Or.inr ⟨heq ▸ hx, heq ▸ List.mem_cons_self⟩)
        · exact Or.inl ⟨p, List.mem_append.mpr (Or.inl hp), heq⟩
      · exact Or.inr (Or.inl hk)
      · exact Or.inr (Or.inr ⟨hk.1, List.mem_cons_of_mem _ hk.2⟩)

theorem walk_start {first : List ε} (hsrc : ∀ x, ∀ e ∈ next x, src e = x)
    (hf : ∀ e, e ∈ first ↔ e ∈ next start) : Walk next src tgt kind start
      (first.map fun e => (tgt e, [e])) [start] (none : Option ρ) := by
  have hqueue : ∀ p ∈ first.map (fun e => (tgt e, [e])), ∃ e ∈ next start, p = (tgt e, [e]) :=
    fun p hp => by
      obtain ⟨e, he, rfl⟩ := List.mem_map.mp hp
      exact ⟨e, (hf e).mp he, rfl⟩
  refine ⟨List.mem_cons_self, fun x hx => Or.inl (List.mem_singleton.mp hx), fun x hx => ?_,
    fun p hp => ?_, fun p hp => ?_, fun p hp => ?_, fun x hx e he => ?_⟩
  · rw [List.mem_singleton.mp hx]
  · obtain ⟨e, he, rfl⟩ := hqueue p hp
    exact .single (by rw [hsrc _ e he]; exact he) (hsrc _ e he)
  · obtain ⟨e, he, rfl⟩ := hqueue p hp
    exact ⟨List.nodup_singleton _, fun y hy => by
      rw [List.mem_singleton.mp hy, hsrc _ e he]; exact List.mem_cons_self⟩
  · obtain ⟨e, he, rfl⟩ := hqueue p hp
    exact ⟨start, .refl, e, he, rfl⟩
  · rw [List.mem_singleton.mp hx] at he
    exact Or.inl ⟨(tgt e, [e]), List.mem_map.mpr ⟨e, (hf e).mpr he, rfl⟩, rfl⟩

variable [DecidableEq κ]

theorem potential_start {first : List ε} (hn : nodes.Nodup) (hnodes : ∀ x, x ∉ nodes → next x = [])
    (hlen : first.length = (next start).length) :
    potential next nodes (first.map fun e => (tgt e, [e])) [start] =
      (nodes.map fun x => (next x).length).sum := by
  have hsum := sum_filter_visited (fun x => (next x).length) start [] hn (by simp)
    fun hno => by rw [hnodes start hno]; rfl
  simp only [potential, List.length_map] at hsum ⊢
  have hall : nodes.filter (fun x => decide (x ∉ ([] : List κ))) = nodes :=
    List.filter_eq_self.mpr fun x _ => by simp
  rw [hall] at hsum
  omega

variable (nodes) in
theorem search_spec (hsrc : ∀ x, ∀ e ∈ next x, src e = x) (hn : nodes.Nodup)
    (hnodes : ∀ x, x ∉ nodes → next x = [])
    (hkind : ∀ x path, Trail next src tgt start path x → (verdict x path).kind = kind x) :
    ∀ (n : ℕ) (queue : List (κ × List ε)) (visited : List κ) (kept : Option ρ),
      Walk next src tgt kind start queue visited kept →
      (∀ r, kept = some r → ∃ x path, verdict x path = .keep r ∧
        Trail next src tgt start path x) →
      potential next nodes queue visited ≤ n →
      Outcome next src tgt verdict kind start (search next tgt verdict n queue visited kept)
  | n, [], visited, kept, hw, hk, _ => by
    have hend : search next tgt verdict n [] visited kept = kept := by cases n <;> rfl
    rw [hend]
    refine .lost (fun x hx hgoal => ?_) (fun hnone x hx hheld => ?_) hk
    · rcases hw.reached_of_nil hx with h | h <;> rw [h.1] at hgoal <;> cases hgoal
    · rcases hw.reached_of_nil hx with h | h
      · rw [hnone] at h; cases h.2
      · rw [h.1] at hheld; cases hheld
  | 0, p :: queue, visited, kept, _, _, hp => by
    simp [potential] at hp
  | n + 1, (x, path) :: queue, visited, kept, hw, hk, hp => by
    have ht := hw.trail _ List.mem_cons_self
    have hx := hkind x path ht
    have hlen : potential next nodes ((x, path) :: queue) visited =
        potential next nodes queue visited + 1 := by
      simp only [potential, List.length_cons]; omega
    unfold search
    cases hv : verdict x path with
    | done r =>
      exact .found x path r rfl hv ht (hw.once _ List.mem_cons_self).1
        (fun y hy => hw.through y ((hw.once _ List.mem_cons_self).2 y hy))
        (hw.reached _ List.mem_cons_self)
    | keep r =>
      rw [hv] at hx
      refine search_spec hsrc hn hnodes hkind n queue visited _ (hw.keep hx.symm) (fun r' hr' => ?_)
        (by omega)
      cases kept with
      | none => cases hr'; exact ⟨x, path, hv, ht⟩
      | some k => exact hk r' hr'
    | step =>
      rw [hv] at hx
      dsimp only
      split_ifs with hvis
      · exact search_spec hsrc hn hnodes hkind n queue visited kept (hw.pass hx.symm hvis) hk (by omega)
      · refine search_spec hsrc hn hnodes hkind n _ _ kept (hw.expand hsrc hx.symm hvis) hk ?_
        have hsum := sum_filter_visited (fun x => (next x).length) x visited hn hvis
          fun hno => by rw [hnodes x hno]; rfl
        simp only [potential, List.length_append, List.length_map, List.length_cons] at hp ⊢
        omega

end Spec

end NMesh.Base.Search
