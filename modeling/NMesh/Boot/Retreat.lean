import NMesh.Boot.Updating

/-! # There is a tree to go back to

A run is updates, starts and confirmations, from a confirmed tree. As long as no update is made while a tree is on
trial, the installed tree is the last confirmed one, or it is on trial and a rollback goes back to that one
(`always_a_way_back`); an update made during a trial throws the backup away (`lost_tree`). -/

namespace NMesh.Boot.Retreat

open Base.Runs NMesh.Boot.Updating

variable {C : Type}

/-- What happens to an install directory. `fails` tells where copying raises, `starts` what the preflight
says. -/
inductive Event (C : Type)
  | update (source : Updating.Tree C) (version running : String) (fails : Option (Entry × Option C))
      (starts : Updating.Tree C → Bool)
  | start
  | confirm

/-- An install directory, and the last tree that was confirmed. -/
structure World (C : Type) where
  dir : Install C
  last : Updating.Tree C

def step (w : World C) : Event C → World C
  | .update source version running fails starts =>
    if verifyTree source then { w with dir := (swapTree source version running fails starts w.dir).2 } else w
  | .start => { w with dir := (begin w.dir).2 }
  | .confirm => if w.dir.trial.isSome then ⟨confirm w.dir, w.dir.root⟩ else w

def settled (dir : Install C) : World C := ⟨dir, dir.root⟩

def afterStarts : ℕ → Install C → Install C
  | 0, dir => dir
  | n + 1, dir => afterStarts n (begin dir).2

/-- **There is a tree to go back to**: an installed tree that is not the last confirmed one is on trial, the
backup gives that one back, and a tree that never stays up is replaced by it after at most `maxTrialBoots`
starts. -/
def WayBack (w : World C) : Prop :=
  w.dir.root ≠ w.last →
    (∃ t, w.dir.trial = some t ∧ previousTree w.dir t.added = w.last) ∧
    ∃ n ≤ maxTrialBoots, (∀ k < n, (begin (afterStarts k w.dir)).1 = .onTrial) ∧
      (begin (afterStarts n w.dir)).1 = .rolledBack ∧
      (begin (afterStarts n w.dir)).2.root = w.last

def OneAtATime (w : World C) : Event C → Prop
  | .update .. => w.dir.trial = none
  | _ => True

/-- **The invariant.** Without a trial the installed tree is the confirmed one; a trial can be undone. -/
structure Inv (w : World C) : Prop where
  code : (w.last .src).isSome ∧ (w.dir.root .src).isSome
  confirmed : w.dir.trial = none → w.dir.root = w.last
  trial : ∀ t, w.dir.trial = some t →
    previousTree w.dir t.added = w.last ∧ kept w.dir ≠ [] ∧ t.boots ≤ maxTrialBoots

theorem src_of_verify {source : Updating.Tree C} (h : verifyTree source = true) : (source .src).isSome := by
  rw [verifyTree, List.all_eq_true] at h
  exact h .src List.mem_cons_self

theorem readTrial_of_le {t : Trial} (h : t.boots ≤ maxTrialBoots) : readTrial t = t := by
  have hadded : (t.added.filter fun e => decide (e ∈ replaceEntries)) = t.added :=
    List.filter_eq_self.mpr fun e _ => decide_eq_true (mem_replaceEntries e)
  have hboots : min t.boots (maxTrialBoots + 1) = t.boots := by omega
  unfold readTrial
  rw [hadded, hboots]

variable {dir : Install C}

theorem begin_counted {t : Trial} (ht : dir.trial = some t) (hle : t.boots < maxTrialBoots) :
    begin dir = (.onTrial, { dir with trial := some { t with boots := t.boots + 1 } }) := by
  unfold begin
  rw [ht, Option.map_some, readTrial_of_le (Nat.le_of_lt hle)]
  simp only
  rw [if_neg (by omega)]

theorem begin_last {t : Trial} (ht : dir.trial = some t) (heq : t.boots = maxTrialBoots) (hk : kept dir ≠ []) :
    (begin dir).1 = .rolledBack ∧ (begin dir).2.trial = none ∧
      (begin dir).2.root = previousTree dir t.added := by
  obtain ⟨h1, h2, h3⟩ :=
    @rollback_restored C t "started 3 times without staying up for 120 seconds" dir hk
  unfold begin
  rw [ht, Option.map_some, readTrial_of_le (Nat.le_of_eq heq)]
  simp only
  rw [if_pos (by omega)]
  simp only
  rw [if_pos h1]
  exact ⟨rfl, h2, h3⟩

theorem inv_settled (ht : dir.trial = none) (hsrc : (dir.root .src).isSome) : Inv (settled dir) := by
  refine ⟨⟨hsrc, hsrc⟩, fun _ => rfl, fun t h => ?_⟩
  have h : dir.trial = some t := h
  rw [ht] at h
  cases h

theorem inv_step {w : World C} (hw : Inv w) {e : Event C} (hG : OneAtATime w e) : Inv (step w e) := by
  cases e with
  | update source version running fails starts =>
    unfold step
    simp only
    split_ifs with hv
    · have hroot := hw.confirmed hG
      cases hout : (swapTree source version running fails starts w.dir).1 with
      | false =>
        obtain ⟨hsame, htrial⟩ := swapTree_raised hout
        refine ⟨⟨hw.code.1, ?_⟩, fun _ => ?_, fun t ht => ?_⟩
        · show ((swapTree source version running fails starts w.dir).2.root .src).isSome
          rw [hsame]
          exact hw.code.2
        · show (swapTree source version running fails starts w.dir).2.root = w.last
          rw [hsame, hroot]
        · have ht : (swapTree source version running fails starts w.dir).2.trial = some t := ht
          rw [htrial, hG] at ht
          cases ht
      | true =>
        obtain ⟨t, ht, hboots, hprevious, hinstalled, hkept⟩ := swapTree_installed hout
        have hsrc := src_of_verify hv
        refine ⟨⟨hw.code.1, ?_⟩, fun hnone => ?_, fun t' ht' => ?_⟩
        · show ((swapTree source version running fails starts w.dir).2.root .src).isSome
          rw [hinstalled .src, Option.isSome_or, hsrc]
          rfl
        · have hnone : (swapTree source version running fails starts w.dir).2.trial = none := hnone
          rw [ht] at hnone
          cases hnone
        · obtain rfl := Option.mem_unique ht ht'
          refine ⟨hprevious.trans hroot, ?_, by omega⟩
          exact List.ne_nil_of_mem (mem_kept.mpr (hkept .src hsrc hw.code.2))
    · exact hw
  | start =>
    cases ht : w.dir.trial with
    | none =>
      have hsame : step w .start = w := by
        show ({ w with dir := (begin w.dir).2 } : World C) = w
        rw [begin, ht]
        rfl
      rw [hsame]
      exact hw
    | some t =>
      obtain ⟨hprevious, hkept, hboots⟩ := hw.trial t ht
      rcases Nat.lt_or_eq_of_le hboots with hlt | heq
      · have hstep : step w .start =
            { w with dir := { w.dir with trial := some { t with boots := t.boots + 1 } } } := by
          show ({ w with dir := (begin w.dir).2 } : World C) = _
          rw [begin_counted ht hlt]
        rw [hstep]
        refine ⟨hw.code, fun h => (by cases h), fun t' ht' => ?_⟩
        cases ht'
        exact ⟨hprevious, hkept, hlt⟩
      · obtain ⟨-, hnone, hroot⟩ := begin_last ht heq hkept
        refine ⟨⟨hw.code.1, ?_⟩, fun _ => hroot.trans hprevious, fun t' ht' => ?_⟩
        · show ((begin w.dir).2.root .src).isSome
          rw [hroot, hprevious]
          exact hw.code.1
        · have ht' : (begin w.dir).2.trial = some t' := ht'
          rw [hnone] at ht'
          cases ht'
  | confirm =>
    unfold step
    simp only
    split_ifs
    · refine ⟨⟨hw.code.2, hw.code.2⟩, fun _ => rfl, fun t ht => ?_⟩
      cases ht
    · exact hw

theorem replaced_after : ∀ (n : ℕ) {dir : Install C} {t : Trial}, dir.trial = some t →
    t.boots + n = maxTrialBoots → kept dir ≠ [] →
    (∀ k < n, (begin (afterStarts k dir)).1 = .onTrial) ∧ (begin (afterStarts n dir)).1 = .rolledBack ∧
      (begin (afterStarts n dir)).2.root = previousTree dir t.added
  | 0, dir, t, ht, hsum, hk => by
    obtain ⟨h1, -, h3⟩ := begin_last ht (by omega) hk
    exact ⟨fun k hlt => absurd hlt (Nat.not_lt_zero k), h1, h3⟩
  | n + 1, dir, t, ht, hsum, hk => by
    have hcount := begin_counted ht (by omega)
    have htrial : (begin dir).2.trial = some { t with boots := t.boots + 1 } := by rw [hcount]
    obtain ⟨h1, h2, h3⟩ := replaced_after n htrial (by simp only; omega) (by rw [hcount]; exact hk)
    refine ⟨fun k hlt => ?_, h2, ?_⟩
    · cases k with
      | zero =>
        show (begin dir).1 = .onTrial
        rw [hcount]
      | succ k => exact h1 k (by omega)
    · show (begin (afterStarts n (begin dir).2)).2.root = _
      rw [h3, hcount]
      rfl

theorem wayBack_of_inv {w : World C} (hw : Inv w) : WayBack w := by
  intro hne
  cases ht : w.dir.trial with
  | none => exact absurd (hw.confirmed ht) hne
  | some t =>
    obtain ⟨hprevious, hkept, hboots⟩ := hw.trial t ht
    obtain ⟨h1, h2, h3⟩ := replaced_after (maxTrialBoots - t.boots) ht (by omega) hkept
    exact ⟨⟨t, rfl, hprevious⟩, maxTrialBoots - t.boots, Nat.sub_le _ _, h1, h2, h3.trans hprevious⟩

/-- **There is always a tree to go back to**, in a run from a confirmed tree that makes no update while a
tree is on trial. -/
theorem always_a_way_back {dir : Install C} (htrial : dir.trial = none) (hsrc : (dir.root .src).isSome)
    {es : List (Event C)} (h : Guarded step OneAtATime (settled dir) es) :
    WayBack (run step (settled dir) es) :=
  wayBack_of_inv (Guarded.run_induct (P := Inv) (fun _ _ hw hG => inv_step hw hG)
    (inv_settled htrial hsrc) h)

/-! ### Two updates -/

def version (n : ℕ) : Updating.Tree ℕ := fun e => if e ∈ requiredEntries then some n else none

def installed (n : ℕ) : Install ℕ := ⟨version n, bare, bare, none, none⟩

def updateTo (n : ℕ) : Event ℕ := .update (version n) "" "" none fun _ => true

theorem always_a_way_back_crash : WayBack (run step (settled (installed 1)) [updateTo 2, .start, .start]) :=
  always_a_way_back rfl rfl ⟨rfl, trivial, trivial, trivial⟩

/-- **Two updates without a confirmation lose the tree that worked**: the second one's backup is the tree
of the first, which is what a rollback goes back to, and it is not on trial any more. -/
theorem lost_tree :
    ¬ WayBack (run step (settled (installed 1)) [updateTo 2, updateTo 3]) ∧
    ¬ WayBack (run step (settled (installed 1))
      [updateTo 2, updateTo 3, .start, .start, .start, .start]) := by
  constructor
  · intro h
    have hne : (run step (settled (installed 1)) [updateTo 2, updateTo 3]).dir.root ≠
        (run step (settled (installed 1)) [updateTo 2, updateTo 3]).last := by
      intro heq
      exact absurd (congrFun heq .src) (by decide)
    obtain ⟨⟨t, ht, hprevious⟩, -⟩ := h hne
    cases ht
    exact absurd (congrFun hprevious .src) (by decide)
  · intro h
    have hne : (run step (settled (installed 1))
        [updateTo 2, updateTo 3, .start, .start, .start, .start]).dir.root ≠
        (run step (settled (installed 1))
          [updateTo 2, updateTo 3, .start, .start, .start, .start]).last := by
      intro heq
      exact absurd (congrFun heq .src) (by decide)
    obtain ⟨⟨t, ht, -⟩, -⟩ := h hne
    have hnone : (run step (settled (installed 1))
        [updateTo 2, updateTo 3, .start, .start, .start, .start]).dir.trial = none := by decide
    rw [hnone] at ht
    cases ht

end NMesh.Boot.Retreat
