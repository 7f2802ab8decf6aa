import NMesh.Base.Generations
import NMesh.Base.Probe
import Mathlib.Data.Nat.Bitwise
import Mathlib.Tactic.Ring

/-! # The replay window

`SeenSet` remembers 64-bit ids in two flat tables, a young one and an old one, by linear probing from
a seeded start. Zero marks a free cell, so the id zero is held apart in two flags. A table's walk is
cut after as many cells as the table has; `none` stands for a walk that never ends.

The section before the last relates a window to the two generations it stands for (`Stands`), and
`window_exact` says that the window answers as they do. -/

namespace NMesh.Relay.Window

open Base.Generations Base.Probe

def mix : UInt64 := 0x9E3779B97F4A7C15

/-- Double `slots` until they are no fewer than `target`. -/
def double (target : ℕ) : ℕ → ℕ → ℕ
  | 0, slots => slots
  | fuel + 1, slots => if slots < target then double target fuel (slots <<< 1) else slots

/-- The cells of a table for `capacity` ids. -/
def slotsFor (capacity : ℕ) : ℕ := double (capacity * 2) (capacity * 2) 1

/-- A bounded, exact set of 64-bit ids. -/
structure SeenSet where
  slots : ℕ
  limit : ℕ
  seed : UInt64
  young : Fin slots → UInt64
  old : Fin slots → UInt64
  youngCount : ℕ
  oldCount : ℕ
  zeroYoung : Bool
  zeroOld : Bool
  slots_pos : 0 < slots

theorem le_double : ∀ {target fuel slots : ℕ}, 0 < slots → target ≤ slots + fuel →
    target ≤ double target fuel slots ∧ 0 < double target fuel slots
  | target, 0, slots, h, hle => ⟨hle, h⟩
  | target, fuel + 1, slots, h, hle => by
    rw [double]
    split_ifs with hlt
    · rw [Nat.shiftLeft_eq]
      exact le_double (by omega) (by omega)
    · exact ⟨not_lt.mp hlt, h⟩

theorem double_pow : ∀ (target fuel k : ℕ), ∃ m, double target fuel (2 ^ k) = 2 ^ m
  | target, 0, k => ⟨k, rfl⟩
  | target, fuel + 1, k => by
    rw [double]
    split_ifs
    · rw [Nat.shiftLeft_eq, ← pow_add]
      exact double_pow target fuel (k + 1)
    · exact ⟨k, rfl⟩

theorem slotsFor_spec (capacity : ℕ) :
    capacity * 2 ≤ slotsFor capacity ∧ 0 < slotsFor capacity ∧ ∃ m, slotsFor capacity = 2 ^ m := by
  have hle : capacity * 2 ≤ 1 + capacity * 2 := by omega
  obtain ⟨h1, h2⟩ := le_double Nat.one_pos hle
  exact ⟨h1, h2, double_pow _ _ 0⟩

namespace SeenSet

/-- A new window; `none` if `capacity` is not positive. -/
def new (capacity : ℕ) (seed : UInt64) : Option SeenSet :=
  if capacity < 1 then none
  else some {
    slots := slotsFor capacity
    limit := slotsFor capacity / 2
    seed := seed
    young := fun _ => 0
    old := fun _ => 0
    youngCount := 0
    oldCount := 0
    zeroYoung := false
    zeroOld := false
    slots_pos := (slotsFor_spec capacity).2.1 }

variable (s : SeenSet)

/-- `number & (slots - 1)` -/
def masked (number : ℕ) : Fin s.slots :=
  ⟨number &&& (s.slots - 1), Nat.and_le_right.trans_lt (Nat.sub_lt s.slots_pos Nat.one_pos)⟩

/-- Where `value` starts probing. -/
def index (value : UInt64) : Fin s.slots := s.masked (((value ^^^ s.seed) * mix) >>> 24).toNat

def after (i : Fin s.slots) : Fin s.slots := s.masked (i + 1)

/-- The cell holding `value`, or the first free one on its path. -/
def slotOf (table : Fin s.slots → UInt64) (value : UInt64) : Option (Fin s.slots) :=
  probe s.after 0 value table s.slots (s.index value)

def rotate : SeenSet := { s with
  old := s.young
  oldCount := s.youngCount
  zeroOld := s.zeroYoung
  young := fun _ => 0
  youngCount := 0
  zeroYoung := false }

def rotateIfFull : SeenSet := if s.limit ≤ s.youngCount then s.rotate else s

/-- Is `value` remembered? -/
def contains (value : UInt64) : Option Bool :=
  if value = 0 then some (s.zeroYoung || s.zeroOld)
  else do
    let i ← s.slotOf s.young value
    if s.young i = value then return true
    let j ← s.slotOf s.old value
    return decide (s.old j = value)

/-- Record `value`; was it already there? -/
def add (value : UInt64) : Option (Bool × SeenSet) :=
  if value = 0 then
    if s.zeroYoung || s.zeroOld then some (true, s)
    else some (false, { s with zeroYoung := true, youngCount := s.youngCount + 1 }.rotateIfFull)
  else do
    let j ← s.slotOf s.old value
    if s.old j = value then return (true, s)
    let i ← s.slotOf s.young value
    if s.young i = value then return (true, s)
    return (false, { s with
      young := Function.update s.young i value
      youngCount := s.youngCount + 1 }.rotateIfFull)

def addAll : SeenSet → List UInt64 → Option (List Bool × SeenSet)
  | s, [] => some ([], s)
  | s, value :: values => do
    let (seen, s') ← s.add value
    let (answers, s'') ← s'.addAll values
    return (seen :: answers, s'')

/-- What one table and its flag remember. -/
structure Table (table : Fin s.slots → UInt64) (zero : Bool) (S : Finset UInt64) : Prop where
  holds : Holds s.after s.index 0 table (S.erase 0)
  zero : zero = decide (0 ∈ S)

/-- **The window stands for two generations.** -/
structure Stands (g : Memory UInt64) : Prop where
  slots : ∃ m, s.slots = 2 ^ m
  limit : s.limit = s.slots / 2
  within : Within s.limit g
  young : Table s s.young s.zeroYoung g.young
  old : Table s s.old s.zeroOld g.old
  count : s.youngCount = g.young.card

end SeenSet

/-! ### Walks -/

namespace SeenSet

variable {s : SeenSet} {g : Memory UInt64} {value : UInt64}

theorem masked_val (h : ∃ m, s.slots = 2 ^ m) (number : ℕ) :
    (s.masked number).val = number % s.slots := by
  obtain ⟨m, hm⟩ := h
  change number &&& (s.slots - 1) = number % s.slots
  rw [hm, Nat.and_two_pow_sub_one_eq_mod]

theorem iterate_after (h : ∃ m, s.slots = 2 ^ m) (i : Fin s.slots) :
    ∀ k, (s.after^[k] i).val = (i + k) % s.slots
  | 0 => (Nat.mod_eq_of_lt i.isLt).symm
  | k + 1 => by
    rw [Function.iterate_succ_apply', after, masked_val h, iterate_after h i k, Nat.mod_add_mod,
      Nat.add_assoc]

theorem walk_everywhere (h : ∃ m, s.slots = 2 ^ m) (i j : Fin s.slots) :
    ∃ k < s.slots, s.after^[k] i = j := by
  have hi := i.isLt
  have hj := j.isLt
  refine ⟨(j + (s.slots - i)) % s.slots, Nat.mod_lt _ s.slots_pos, Fin.ext ?_⟩
  rw [iterate_after h, Nat.add_mod_mod]
  have hsum : (i + (j + (s.slots - i)) : ℕ) = j + s.slots := by omega
  rw [hsum, Nat.add_mod_right, Nat.mod_eq_of_lt hj]

theorem Stands.card_lt (h : Stands s g) {S : Finset UInt64} (hS : S.card ≤ s.limit) :
    (S.erase 0).card < s.slots := by
  have h1 := Finset.card_erase_le (s := S) (a := 0)
  have h2 := h.limit
  have h3 := s.slots_pos
  omega

theorem Stands.exists_free (h : Stands s g) : (∃ i, s.young i = 0) ∧ ∃ j, s.old j = 0 :=
  ⟨h.young.holds.exists_free (h.card_lt h.within.young.le),
    h.old.holds.exists_free (h.card_lt h.within.old)⟩

theorem Stands.slotOf (h : Stands s g) {table : Fin s.slots → UInt64} {zero : Bool}
    {S : Finset UInt64} (ht : Table s table zero S) (hS : S.card ≤ s.limit) (hv : value ≠ 0) :
    ∃ i, s.slotOf table value = some i ∧ (table i = value ∧ value ∈ S ∨ table i = 0 ∧ value ∉ S) ∧
      ∃ k, s.after^[k] (s.index value) = i ∧
        ∀ m < k, table (s.after^[m] (s.index value)) ≠ 0 := by
  obtain ⟨i, hi, hat, hwalk⟩ := ht.holds.probe (walk_everywhere h.slots) (h.card_lt hS) hv
  refine ⟨i, hi, ?_, hwalk⟩
  rcases hat with ⟨heq, hmem⟩ | ⟨hfree, hmem⟩
  · exact Or.inl ⟨heq, Finset.mem_of_mem_erase hmem⟩
  · exact Or.inr ⟨hfree, fun hin => hmem (Finset.mem_erase.mpr ⟨hv, hin⟩)⟩

/-! ### The window and its generations -/

theorem Stands.contains (h : Stands s g) (value : UInt64) :
    s.contains value = some (decide (g.Has value)) := by
  unfold SeenSet.contains
  split_ifs with hv
  · subst hv
    rw [h.young.zero, h.old.zero, decide_has]
  · obtain ⟨i, hi, hyoung, -⟩ := h.slotOf h.young h.within.young.le hv
    obtain ⟨j, hj, hold, -⟩ := h.slotOf h.old h.within.old hv
    rw [hi, hj]
    dsimp only [bind, Option.bind, pure]
    rcases hyoung with ⟨heq, hmem⟩ | ⟨hfree, hmem⟩
    · have hhas : g.Has value := Or.inl hmem
      rw [if_pos heq, decide_eq_true hhas]
    · rw [if_neg (fun he => hv (by rw [← he, hfree]))]
      rcases hold with ⟨heq, hmem'⟩ | ⟨hfree', hmem'⟩
      · have hhas : g.Has value := Or.inr hmem'
        rw [decide_eq_true heq, decide_eq_true hhas]
      · have hhas : ¬ g.Has value := not_or.mpr ⟨hmem, hmem'⟩
        rw [decide_eq_false (fun he => hv (by rw [← he, hfree'])), decide_eq_false hhas]

theorem table_empty : Table s (fun _ => 0) false ∅ where
  holds := by rw [Finset.erase_empty]; exact holds_empty
  zero := by decide

theorem Stands.rotateIfFull (h : Stands s g) (hnew : ¬ g.Has value)
    {table : Fin s.slots → UInt64} {zero : Bool}
    (ht : Table s table zero (insert value g.young)) :
    Stands ({ s with young := table, zeroYoung := zero, youngCount := s.youngCount + 1 } :
      SeenSet).rotateIfFull (g.add s.limit value).2 := by
  have hyoung : value ∉ g.young := fun hin => hnew (Or.inl hin)
  have hcount : s.youngCount + 1 = (insert value g.young).card := by
    rw [Finset.card_insert_of_notMem hyoung, h.count]
  have hwithin := h.within.add value
  unfold SeenSet.rotateIfFull
  unfold Memory.add at hwithin ⊢
  rw [if_neg hnew] at hwithin ⊢
  dsimp only
  rw [hcount]
  split_ifs at hwithin ⊢ with hfull
  · exact ⟨h.slots, h.limit, hwithin, table_empty, ⟨ht.holds, ht.zero⟩, rfl⟩
  · exact ⟨h.slots, h.limit, hwithin, ⟨ht.holds, ht.zero⟩, ⟨h.old.holds, h.old.zero⟩, rfl⟩

/-- **One id**: the window answers as its generations do, and stands for them again. -/
theorem Stands.add (h : Stands s g) (value : UInt64) :
    ∃ s', s.add value = some ((g.add s.limit value).1, s') ∧
      Stands s' (g.add s.limit value).2 ∧ s'.limit = s.limit := by
  have hlimit : ∀ t : SeenSet, t.rotateIfFull.limit = t.limit := fun t => by
    unfold SeenSet.rotateIfFull SeenSet.rotate
    split_ifs <;> rfl
  by_cases hhas : g.Has value
  · -- nothing changes
    rw [add_of_has hhas]
    refine ⟨s, ?_, h, rfl⟩
    unfold SeenSet.add
    split_ifs with hv hz
    · rfl
    · subst hv
      rw [h.young.zero, h.old.zero, decide_has, decide_eq_true hhas] at hz
      exact absurd rfl hz
    · obtain ⟨i, hi, hyoung, -⟩ := h.slotOf h.young h.within.young.le hv
      obtain ⟨j, hj, hold, -⟩ := h.slotOf h.old h.within.old hv
      rw [hi, hj]
      dsimp only [bind, Option.bind, pure]
      rcases hold with ⟨heq, -⟩ | ⟨-, hmem⟩
      · rw [if_pos heq]
      · rcases hyoung with ⟨heq, -⟩ | ⟨-, hmem'⟩
        · rw [if_pos heq]
          split_ifs <;> rfl
        · exact absurd hhas (not_or.mpr ⟨hmem', hmem⟩)
  · rw [add_fst, decide_eq_false hhas]
    unfold SeenSet.add
    split_ifs with hv hz
    · subst hv
      rw [h.young.zero, h.old.zero, decide_has, decide_eq_false hhas] at hz
      cases hz
    · subst hv
      refine ⟨_, rfl, h.rotateIfFull hhas ⟨?_, ?_⟩, hlimit _⟩
      · rw [Finset.erase_insert_eq_erase]
        exact h.young.holds
      · rw [decide_eq_true (Finset.mem_insert_self _ _)]
    · obtain ⟨hyoung, hold⟩ := not_or.mp hhas
      obtain ⟨i, hi, hat, k, rfl, hwalk⟩ := h.slotOf h.young h.within.young.le hv
      obtain ⟨j, hj, hat', -⟩ := h.slotOf h.old h.within.old hv
      have hfree := (hat.resolve_left fun hin => hyoung hin.2).1
      have hfree' := (hat'.resolve_left fun hin => hold hin.2).1
      rw [hi, hj]
      dsimp only [bind, Option.bind, pure]
      rw [if_neg (fun he => hv (by rw [← he, hfree'])), if_neg (fun he => hv (by rw [← he, hfree]))]
      refine ⟨_, rfl, h.rotateIfFull hhas ⟨?_, ?_⟩, hlimit _⟩
      · rw [Finset.erase_insert_of_ne hv]
        refine h.young.holds.insert hv (fun hin => hyoung (Finset.mem_of_mem_erase hin)) hfree hwalk
      · rw [h.young.zero]
        simp only [Finset.mem_insert, Ne.symm hv, false_or]

/-- **A run of ids.** -/
theorem Stands.addAll : ∀ (values : List UInt64) {s : SeenSet} {g : Memory UInt64}, Stands s g →
    ∃ s', s.addAll values = some ((g.addAll s.limit values).1, s') ∧
      Stands s' (g.addAll s.limit values).2 ∧ s'.limit = s.limit
  | [], s, g, h => ⟨s, rfl, h, rfl⟩
  | value :: values, s, g, h => by
    obtain ⟨s', hadd, h', hlimit⟩ := h.add value
    obtain ⟨s'', hrest, h'', hlimit'⟩ := Stands.addAll values h'
    rw [hlimit] at hrest h''
    refine ⟨s'', ?_, h'', hlimit'.trans hlimit⟩
    rw [SeenSet.addAll, hadd]
    dsimp only [bind, Option.bind, pure]
    rw [hrest]
    rfl

theorem stands_new {capacity : ℕ} (h : 1 ≤ capacity) (seed : UInt64) :
    ∃ s, SeenSet.new capacity seed = some s ∧ Stands s ⟨∅, ∅⟩ ∧ capacity ≤ s.limit := by
  obtain ⟨h1, -, h3⟩ := slotsFor_spec capacity
  unfold SeenSet.new
  rw [if_neg (by omega)]
  have hle : capacity ≤ slotsFor capacity / 2 := by omega
  exact ⟨_, rfl, ⟨h3, rfl, within_empty (h.trans hle), table_empty, table_empty, rfl⟩, hle⟩

end SeenSet

/-! ### The law -/

/-- **The replay window is exact and long enough.** Whatever was recorded, every walk ends, the
answers are those of the two generations, `contains` asks exactly them, both tables have a free cell;
and an id reported new is still seen after any ids of which at most `capacity - 1` are new. -/
theorem window_exact (capacity : ℕ) (seed : UInt64) (h : 1 ≤ capacity) (ids : List UInt64) :
    ∃ s s', SeenSet.new capacity seed = some s ∧ capacity ≤ s.limit ∧
      s.addAll ids = some (((⟨∅, ∅⟩ : Memory UInt64).addAll s.limit ids).1, s') ∧
      (∀ value, s'.contains value =
        some (decide (((⟨∅, ∅⟩ : Memory UInt64).addAll s.limit ids).2.Has value))) ∧
      ((∃ i, s'.young i = 0) ∧ ∃ j, s'.old j = 0) ∧
      ∀ value s'' more, s'.add value = some (false, s'') → ∃ answers s₃ s₄,
        s''.addAll more = some (answers, s₃) ∧
          (answers.count false ≤ capacity - 1 → s₃.add value = some (true, s₄)) := by
  obtain ⟨s, hnew, hs, hle⟩ := SeenSet.stands_new h seed
  obtain ⟨s', hrun, hs', hlimit⟩ := SeenSet.Stands.addAll ids hs
  refine ⟨s, s', hnew, hle, hrun, hs'.contains, hs'.exists_free, fun value s'' more hadd => ?_⟩
  obtain ⟨t, hadd', hs'', hlimit'⟩ := hs'.add value
  rw [hadd] at hadd'
  obtain ⟨hfst, rfl⟩ := Prod.mk.inj (Option.some.inj hadd')
  obtain ⟨s₃, hmore, hs₃, hlimit₃⟩ := SeenSet.Stands.addAll more hs''
  obtain ⟨s₄, hlast, -, -⟩ := hs₃.add value
  refine ⟨_, s₃, s₄, hmore, fun hcount => ?_⟩
  rw [add_fst] at hfst
  have hfresh := fresh_add s'.limit (of_decide_eq_false hfst.symm)
  rw [hlast, add_fst, decide_eq_true (hfresh.addAll (by omega))]

theorem window_exact_two : ∃ s s', SeenSet.new 2 7 = some s ∧ 2 ≤ s.limit ∧
    s.addAll [5, 0, 5] = some (((⟨∅, ∅⟩ : Memory UInt64).addAll s.limit [5, 0, 5]).1, s') ∧
    (∀ value, s'.contains value =
      some (decide (((⟨∅, ∅⟩ : Memory UInt64).addAll s.limit [5, 0, 5]).2.Has value))) ∧
    ((∃ i, s'.young i = 0) ∧ ∃ j, s'.old j = 0) ∧
    ∀ value s'' more, s'.add value = some (false, s'') → ∃ answers s₃ s₄,
      s''.addAll more = some (answers, s₃) ∧
        (answers.count false ≤ 2 - 1 → s₃.add value = some (true, s₄)) :=
  window_exact 2 7 (by decide) [5, 0, 5]

end NMesh.Relay.Window
