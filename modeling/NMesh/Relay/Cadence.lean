import Mathlib.Data.List.Sort
import Mathlib.Data.Rat.Floor
import Mathlib.Order.Bounds.Basic
import Mathlib.Tactic.SplitIfs

/-! # The keepalive accord

Two nodes declare four numbers each (`Bounds`: a range for the fast cadence and one for the slow) and
both compute the two cadences they are held to (`accord`). A declaration is whatever was proposed,
forced into the hard limits and sorted (`clampBounds`), its fast floor raised under load
(`loadedBounds`) so that its probes keep to its budget (`probes_within`).

A number that was proposed is what `int()` makes of it, `none` where that raises. -/

namespace NMesh.Relay.Cadence

/-! ### Sorting -/

section Sorting

variable {α : Type} [LinearOrder α]

theorem orderedInsert_of_le {a : α} {l : List α} (h : ∀ x ∈ l, a ≤ x) :
    l.orderedInsert (· ≤ ·) a = a :: l := by
  cases l with
  | nil => rfl
  | cons x l => rw [List.orderedInsert_cons, if_pos (h x List.mem_cons_self)]

theorem orderedInsert_mono : ∀ {l l' : List α} {a b : α}, l.Pairwise (· ≤ ·) →
    l'.Pairwise (· ≤ ·) → List.Forall₂ (· ≤ ·) l l' → a ≤ b →
    List.Forall₂ (· ≤ ·) (l.orderedInsert (· ≤ ·) a) (l'.orderedInsert (· ≤ ·) b)
  | [], [], _, _, _, _, _, hab => .cons hab .nil
  | x :: l, y :: l', a, b, hl, hl', .cons hxy hll, hab => by
    obtain ⟨hx, hl⟩ := List.pairwise_cons.mp hl
    obtain ⟨hy, hl'⟩ := List.pairwise_cons.mp hl'
    rw [List.orderedInsert_cons, List.orderedInsert_cons]
    split_ifs with h1 h2 h2
    · exact .cons hab (.cons hxy hll)
    · have ih := orderedInsert_mono hl hl' hll (hxy.trans (not_le.mp h2).le)
      rw [orderedInsert_of_le hx] at ih
      exact .cons (h1.trans hxy) ih
    · have ih := orderedInsert_mono hl hl' hll (hab.trans h2)
      rw [orderedInsert_of_le hy] at ih
      exact .cons ((not_le.mp h1).le.trans hab) ih
    · exact .cons hxy (orderedInsert_mono hl hl' hll hab)

theorem insertionSort_mono : ∀ {l l' : List α}, List.Forall₂ (· ≤ ·) l l' →
    List.Forall₂ (· ≤ ·) (l.insertionSort (· ≤ ·)) (l'.insertionSort (· ≤ ·))
  | [], [], _ => .nil
  | _ :: l, _ :: l', .cons hxy hll =>
    orderedInsert_mono (List.pairwise_insertionSort _ l) (List.pairwise_insertionSort _ l')
      (insertionSort_mono hll) hxy

end Sorting

/-! ### Declarations -/

def floorMs : ℤ := 50
def ceilingMs : ℤ := 600000
def floorStepMs : ℤ := 50

/-- What one node is willing to run at. -/
structure Bounds where
  fastMin : ℤ := 100
  fastMax : ℤ := 1000
  slowMin : ℤ := 15000
  slowMax : ℤ := 20000
  deriving DecidableEq

/-- Number by number. -/
instance : LE Bounds where
  le a b := a.fastMin ≤ b.fastMin ∧ a.fastMax ≤ b.fastMax ∧ a.slowMin ≤ b.slowMin ∧
    a.slowMax ≤ b.slowMax

/-- Four numbers as they were proposed. -/
structure Proposal where
  fastMin : Option ℤ
  fastMax : Option ℤ
  slowMin : Option ℤ
  slowMax : Option ℤ

/-- A proposal with some of its numbers raised. -/
instance : LE Proposal where
  le p q := Option.Rel (· ≤ ·) p.fastMin q.fastMin ∧ Option.Rel (· ≤ ·) p.fastMax q.fastMax ∧
    Option.Rel (· ≤ ·) p.slowMin q.slowMin ∧ Option.Rel (· ≤ ·) p.slowMax q.slowMax

/-- What a declaration is on the wire. -/
def Bounds.proposal (b : Bounds) : Proposal :=
  ⟨some b.fastMin, some b.fastMax, some b.slowMin, some b.slowMax⟩

def clamp (value : ℤ) : ℤ := max floorMs (min ceilingMs value)

/-- Force a proposal inside the hard limits and into order. -/
def clampBounds (p : Proposal) : Bounds :=
  match p.fastMin, p.fastMax, p.slowMin, p.slowMax with
  | some a, some b, some c, some d =>
    match ([a, b, c, d].map clamp).insertionSort (· ≤ ·) with
    | [fastMin, fastMax, slowMin, slowMax] => ⟨fastMin, fastMax, slowMin, slowMax⟩
    | _ => {}
  | _, _, _, _ => {}

/-- The fast floor that keeps the probes of `fastLinks` links under `budget` a second. -/
def needed (fastLinks : ℤ) (budget : ℚ) : ℤ :=
  if 0 < fastLinks ∧ 0 < budget then
    -(-⌊(fastLinks : ℚ) * 1000 / budget⌋ / floorStepMs) * floorStepMs
  else 0

/-- What a node offers when `fastLinks` peers are probing it fast. -/
def loadedBounds (configured : Bounds) (fastLinks : ℤ) (budget : ℚ) : Bounds :=
  let fastMin := min (max configured.fastMin (needed fastLinks budget)) (configured.fastMax - 1)
  if fastMin ≤ configured.fastMin then configured
  else { configured with fastMin := fastMin }

/-- The two cadences a pair is held to. -/
structure Accord where
  fastMs : ℤ
  slowMs : ℤ
  fastOk : Bool
  deriving DecidableEq

/-- The accord, as the node that declared `mine` computes it. -/
def accord (mine theirs : Bounds) : Accord :=
  let fastMs := max mine.fastMin theirs.fastMin
  let slowMs := max (max mine.slowMin theirs.slowMin) (min mine.slowMax theirs.slowMax)
  { fastMs := fastMs
    slowMs := max slowMs fastMs
    fastOk := decide (fastMs ≤ min mine.fastMax theirs.fastMax) }

/-! ### What a declaration looks like -/

/-- The four numbers are in order and inside the hard limits. -/
structure Shaped (b : Bounds) : Prop where
  floor_le : floorMs ≤ b.fastMin
  fast : b.fastMin ≤ b.fastMax
  mid : b.fastMax ≤ b.slowMin
  slow : b.slowMin ≤ b.slowMax
  le_ceiling : b.slowMax ≤ ceilingMs

theorem clamp_mem (v : ℤ) : floorMs ≤ clamp v ∧ clamp v ≤ ceilingMs :=
  ⟨le_max_left _ _, max_le (by decide) (min_le_left _ _)⟩

theorem clamp_mono {v w : ℤ} (h : v ≤ w) : clamp v ≤ clamp w :=
  max_le_max le_rfl (min_le_min le_rfl h)

theorem clamp_of_mem {v : ℤ} (h : floorMs ≤ v) (h' : v ≤ ceilingMs) : clamp v = v := by
  rw [clamp, min_eq_right h', max_eq_right h]

theorem clampBounds_eq (a b c d : ℤ) :
    ∃ w x y z, ([a, b, c, d].map clamp).insertionSort (· ≤ ·) = [w, x, y, z] ∧
      clampBounds ⟨some a, some b, some c, some d⟩ = ⟨w, x, y, z⟩ ∧
      Shaped ⟨w, x, y, z⟩ := by
  set l := ([a, b, c, d].map clamp).insertionSort (· ≤ ·) with hl
  have hlen : l.length = 4 := by rw [hl, List.length_insertionSort]; rfl
  obtain ⟨w, x, y, z, hw⟩ := List.length_eq_four.mp hlen
  have hsorted : l.Pairwise (· ≤ ·) := List.pairwise_insertionSort _ _
  have hmem : ∀ v ∈ l, floorMs ≤ v ∧ v ≤ ceilingMs := fun v hv => by
    obtain ⟨u, -, rfl⟩ := List.mem_map.mp ((List.mem_insertionSort _).mp hv)
    exact clamp_mem u
  rw [hw] at hsorted hmem
  simp only [List.pairwise_cons, List.mem_cons] at hsorted
  obtain ⟨h1, h2, h3, -⟩ := hsorted
  refine ⟨w, x, y, z, hw, ?_, (hmem w (by simp)).1, h1 x (by simp), h2 y (by simp),
    h3 z (by simp), (hmem z (by simp)).2⟩
  simp only [clampBounds, ← hl, hw]

theorem shaped_default : Shaped {} :=
  ⟨by decide, by decide, by decide, by decide, by decide⟩

theorem shaped_clampBounds : ∀ p : Proposal, Shaped (clampBounds p)
  | ⟨some a, some b, some c, some d⟩ => by
    obtain ⟨w, x, y, z, -, h, hs⟩ := clampBounds_eq a b c d
    rw [h]
    exact hs
  | ⟨none, _, _, _⟩ => shaped_default
  | ⟨some _, none, _, _⟩ => shaped_default
  | ⟨some _, some _, none, _⟩ => shaped_default
  | ⟨some _, some _, some _, none⟩ => shaped_default

variable {b : Bounds}

theorem clampBounds_proposal (h : Shaped b) : clampBounds b.proposal = b := by
  have h1 := h.floor_le
  have h2 := h.fast
  have h3 := h.mid
  have h4 := h.slow
  have h5 := h.le_ceiling
  have hmap : [b.fastMin, b.fastMax, b.slowMin, b.slowMax].map clamp =
      [b.fastMin, b.fastMax, b.slowMin, b.slowMax] := by
    have e1 : clamp b.fastMin = b.fastMin := clamp_of_mem (by omega) (by omega)
    have e2 : clamp b.fastMax = b.fastMax := clamp_of_mem (by omega) (by omega)
    have e3 : clamp b.slowMin = b.slowMin := clamp_of_mem (by omega) (by omega)
    have e4 : clamp b.slowMax = b.slowMax := clamp_of_mem (by omega) (by omega)
    simp only [List.map_cons, List.map_nil, e1, e2, e3, e4]
  have hsort : [b.fastMin, b.fastMax, b.slowMin, b.slowMax].insertionSort (· ≤ ·) =
      [b.fastMin, b.fastMax, b.slowMin, b.slowMax] := by
    refine List.Pairwise.insertionSort_eq ?_
    simp only [List.pairwise_cons, List.mem_cons, List.not_mem_nil, or_false, forall_eq_or_imp,
      forall_eq, IsEmpty.forall_iff, implies_true, List.Pairwise.nil, and_true]
    omega
  simp only [clampBounds, Bounds.proposal]
  rw [hmap, hsort]

theorem clampBounds_mono {p q : Proposal} (h : p ≤ q) : clampBounds p ≤ clampBounds q := by
  obtain ⟨a, b, c, d⟩ := p
  obtain ⟨a', b', c', d'⟩ := q
  obtain ⟨h1, h2, h3, h4⟩ := h
  have hrefl : ∀ b : Bounds, b ≤ b := fun b => ⟨le_rfl, le_rfl, le_rfl, le_rfl⟩
  cases h1 with
  | none => exact hrefl _
  | some h1 =>
    cases h2 with
    | none => exact hrefl _
    | some h2 =>
      cases h3 with
      | none => exact hrefl _
      | some h3 =>
        cases h4 with
        | none => exact hrefl _
        | @some d d' h4 =>
          obtain ⟨w, x, y, z, hs, he, -⟩ := clampBounds_eq _ _ _ d
          obtain ⟨w', x', y', z', hs', he', -⟩ := clampBounds_eq _ _ _ d'
          rw [he, he']
          have hle := insertionSort_mono (.cons (clamp_mono h1) (.cons (clamp_mono h2)
            (.cons (clamp_mono h3) (.cons (clamp_mono h4) .nil))))
          simp only [List.map_cons, List.map_nil] at hs hs'
          rw [hs, hs'] at hle
          simp only [List.forall₂_cons] at hle
          exact ⟨hle.1, hle.2.1, hle.2.2.1, hle.2.2.2.1⟩

theorem loadedBounds_eq (b : Bounds) (fastLinks : ℤ) (budget : ℚ) :
    loadedBounds b fastLinks budget = { b with
      fastMin := max b.fastMin (min (max b.fastMin (needed fastLinks budget)) (b.fastMax - 1)) } := by
  unfold loadedBounds
  dsimp only
  split_ifs with h
  · rw [max_eq_left h]
  · rw [max_eq_right (not_le.mp h).le]

theorem shaped_loadedBounds (h : Shaped b) (fastLinks : ℤ) (budget : ℚ) :
    Shaped (loadedBounds b fastLinks budget) := by
  rw [loadedBounds_eq]
  have hlast : b.fastMax - 1 ≤ b.fastMax := by omega
  exact ⟨h.floor_le.trans (le_max_left _ _), max_le h.fast ((min_le_right _ _).trans hlast), h.mid,
    h.slow, h.le_ceiling⟩

theorem loadedBounds_mono {a : Bounds} (h : a ≤ b) (fastLinks : ℤ) (budget : ℚ) :
    loadedBounds a fastLinks budget ≤ loadedBounds b fastLinks budget := by
  obtain ⟨h1, h2, h3, h4⟩ := h
  rw [loadedBounds_eq, loadedBounds_eq]
  exact ⟨max_le_max h1 (min_le_min (max_le_max h1 le_rfl) (by omega)), h2, h3, h4⟩

/-! ### The law -/

theorem accord_comm (a b : Bounds) : accord a b = accord b a := by
  simp only [accord, max_comm a.fastMin, max_comm a.slowMin, min_comm a.slowMax, min_comm a.fastMax]

theorem accord_mono {a a' b' : Bounds} (ha : a ≤ a') (hb : b ≤ b') :
    (accord a b).fastMs ≤ (accord a' b').fastMs ∧ (accord a b).slowMs ≤ (accord a' b').slowMs := by
  obtain ⟨h1, -, h3, h4⟩ := ha
  obtain ⟨k1, -, k3, k4⟩ := hb
  have hfast := max_le_max h1 k1
  exact ⟨hfast, max_le_max (max_le_max (max_le_max h3 k3) (min_le_min h4 k4)) hfast⟩

theorem floors_le (a b : Bounds) :
    a.fastMin ≤ (accord a b).fastMs ∧ b.fastMin ≤ (accord a b).fastMs ∧
      a.slowMin ≤ (accord a b).slowMs ∧ b.slowMin ≤ (accord a b).slowMs ∧
      (accord a b).fastMs ≤ (accord a b).slowMs := by
  simp only [accord]
  refine ⟨le_max_left _ _, le_max_right _ _, ?_, ?_, le_max_right _ _⟩ <;> omega

/-- What a node declares: its own numbers, clamped, under its load. -/
def declared (p : Proposal) (fastLinks : ℤ) (budget : ℚ) : Bounds :=
  loadedBounds (clampBounds p) fastLinks budget

theorem shaped_declared (p : Proposal) (fastLinks : ℤ) (budget : ℚ) :
    Shaped (declared p fastLinks budget) :=
  shaped_loadedBounds (shaped_clampBounds p) fastLinks budget

theorem accord_lowest {a : Bounds} (h : Shaped a) :
    accord a (clampBounds ⟨some 0, some 0, some 0, some 0⟩) =
      ⟨a.fastMin, a.slowMin, decide (a.fastMin ≤ min a.fastMax 50)⟩ := by
  have h1 := h.floor_le
  have h2 := h.fast
  have h3 := h.mid
  have h4 := h.slow
  have hlow : clampBounds ⟨some 0, some 0, some 0, some 0⟩ = ⟨50, 50, 50, 50⟩ := by decide
  unfold floorMs at h1
  rw [hlow, accord]
  dsimp only
  rw [max_eq_left h1, max_eq_left (by omega : (50 : ℤ) ≤ a.slowMin),
    max_eq_left (by omega : min a.slowMax 50 ≤ a.slowMin),
    max_eq_left (by omega : a.fastMin ≤ a.slowMin)]

/-- **The accord.** Two nodes that proposed `p` and `q`, each reading the other's declaration off the
wire, compute one answer; it keeps both nodes' floors and the hard one; the least cadences any peer can
bring about are the node's own floors; and raising numbers, before or after they are clamped, lowers no
cadence. -/
theorem accord_law (p q : Proposal) (links links' : ℤ) (budget budget' : ℚ) :
    let a := declared p links budget
    let b := declared q links' budget'
    accord a (clampBounds b.proposal) = accord b (clampBounds a.proposal) ∧
      accord a b = accord b a ∧
      (a.fastMin ≤ (accord a b).fastMs ∧ b.fastMin ≤ (accord a b).fastMs ∧
        a.slowMin ≤ (accord a b).slowMs ∧ b.slowMin ≤ (accord a b).slowMs ∧
        floorMs ≤ (accord a b).fastMs ∧ floorMs ≤ (accord a b).slowMs ∧
        (accord a b).fastMs ≤ (accord a b).slowMs) ∧
      (IsLeast {f | ∃ r, f = (accord a (clampBounds r)).fastMs} a.fastMin ∧
        IsLeast {s | ∃ r, s = (accord a (clampBounds r)).slowMs} a.slowMin) ∧
      (∀ p' q' : Proposal, p ≤ p' → q ≤ q' →
        (accord a b).fastMs ≤
            (accord (declared p' links budget) (declared q' links' budget')).fastMs ∧
          (accord a b).slowMs ≤
            (accord (declared p' links budget) (declared q' links' budget')).slowMs) ∧
      ∀ a' b' : Bounds, a ≤ a' → b ≤ b' →
        (accord a b).fastMs ≤ (accord a' b').fastMs ∧ (accord a b).slowMs ≤ (accord a' b').slowMs := by
  intro a b
  have ha : Shaped a := shaped_declared p links budget
  have hb : Shaped b := shaped_declared q links' budget'
  obtain ⟨f1, f2, f3, f4, f5⟩ := floors_le a b
  have hfloor := ha.floor_le.trans f1
  refine ⟨?_, accord_comm a b, ⟨f1, f2, f3, f4, hfloor, hfloor.trans f5, f5⟩, ⟨⟨?_, ?_⟩, ?_, ?_⟩,
    fun p' q' hp hq => ?_, fun a' b' h h' => accord_mono h h'⟩
  · rw [clampBounds_proposal ha, clampBounds_proposal hb, accord_comm]
  · exact ⟨_, by rw [accord_lowest ha]⟩
  · rintro _ ⟨r, rfl⟩
    exact (floors_le a _).1
  · exact ⟨_, by rw [accord_lowest ha]⟩
  · rintro _ ⟨r, rfl⟩
    exact (floors_le a _).2.2.1
  · exact accord_mono (loadedBounds_mono (clampBounds_mono hp) links budget)
      (loadedBounds_mono (clampBounds_mono hq) links' budget')

/-- **A node's probes keep to its budget**: however many peers it probes fast and whatever a peer declares, the cadence
they agree on is slow enough for its budget, to a millisecond, or within a millisecond of its own slowest. -/
theorem probes_within (p q : Proposal) (links links' : ℤ) (budget budget' : ℚ) :
    let a := declared p links budget
    let cadence := (accord a (declared q links' budget')).fastMs
    links ≤ 0 ∨ budget ≤ 0 ∨ (links : ℚ) * 1000 < (cadence + 1) * budget ∨ a.fastMax ≤ cadence + 1 := by
  intro a cadence
  have hfloor : a.fastMin ≤ cadence := (floors_le a _).1
  rcases le_or_gt links 0 with hlinks | hlinks
  · exact Or.inl hlinks
  rcases le_or_gt budget 0 with hbudget | hbudget
  · exact Or.inr (Or.inl hbudget)
  have hneeded : ⌊(links : ℚ) * 1000 / budget⌋ ≤ needed links budget := by
    unfold needed floorStepMs
    rw [if_pos ⟨hlinks, hbudget⟩]
    omega
  have ha : a = _ := loadedBounds_eq (clampBounds p) links budget
  by_cases hroom : needed links budget ≤ cadence
  · have hlt := Int.floor_lt.mp (Int.lt_add_one_of_le (hneeded.trans hroom))
    rw [Int.cast_add, Int.cast_one, div_lt_iff₀ hbudget] at hlt
    exact Or.inr (Or.inr (Or.inl hlt))
  · refine Or.inr (Or.inr (Or.inr ?_))
    rw [ha] at hfloor ⊢
    dsimp only at hfloor ⊢
    omega

end NMesh.Relay.Cadence
