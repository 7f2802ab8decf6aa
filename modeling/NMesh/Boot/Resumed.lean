import NMesh.Boot.Updating

/-! # A rollback that was cut short

A rollback can stop between any two of its operations, and the next start resumes it. What an entry still needs is
read off the backup, so one that stopped in the middle of the entries is finished as if it had not stopped
(`finished_iff`); but when the last entry is back, nothing tells the next start that there was a rollback
(`forgotten`). -/

namespace NMesh.Boot.Resumed

open NMesh.Boot.Updating

variable {C : Type}

/-- What was done of an entry. -/
inductive Part
  | nothing | discarded | aside
  deriving DecidableEq

/-- Where a rollback stops: at an entry, or before its last operation. -/
inductive Point
  | loop (done : ℕ) (part : Part)
  | last

def entries (current : Trial) (dir : Install C) : List Entry :=
  kept dir ++ current.added.filter fun e => decide (e ∉ kept dir)

def partly (part : Part) (dir : Install C) (e : Entry) : Install C :=
  if (dir.root e).isSome then
    match part with
    | .nothing => dir
    | .discarded => { dir with failed := Function.update dir.failed e none }
    | .aside =>
      { dir with failed := Function.update dir.failed e (dir.root e), root := Function.update dir.root e none }
  else dir

/-- `rollback`, stopped at a point. -/
def cutShort (current : Trial) (reason : String) (dir : Install C) : Point → Install C
  | .loop done part =>
    let dir' := ((entries current dir).take done).foldl (putBack (kept dir)) dir
    if kept dir = [] then dir else ((entries current dir)[done]?).elim dir' (partly part dir')
  | .last =>
    if kept dir = [] then
      { dir with
        note := some ⟨current.version, current.previous, false, reason, "no previous tree to go back to"⟩ }
    else { (entries current dir).foldl (putBack (kept dir)) dir with trial := none }

def interrupted (dir : Install C) (point : Point) : Install C :=
  match dir.trial.map readTrial with
  | none => dir
  | some current =>
    if maxTrialBoots < current.boots + 1 then
      cutShort current "started 3 times without staying up for 120 seconds" dir point
    else dir

/-- **The next start finishes the rollback**: what it leaves is what an uninterrupted one leaves. -/
def Finished (dir cut : Install C) (current : Trial) : Prop :=
  (begin cut).1 = .rolledBack ∧ (begin cut).2 = (begin dir).2 ∧
    (begin cut).2.root = previousTree dir current.added ∧ (begin cut).2.trial = none ∧
    ∃ note, (begin cut).2.note = some note ∧ note.restored = true

/-- Something is still to be moved back, and nothing the new tree brought has been. -/
def Resumable (dir cut : Install C) (current : Trial) : Prop :=
  kept cut ≠ [] ∧ ∀ e ∈ current.added, e ∈ kept dir → e ∈ kept cut

/-! ### One entry -/

/-- What there is of an entry. -/
@[ext] structure Cell (C : Type) where
  root : Option C
  backup : Option C
  failed : Option C

def cell (dir : Install C) (e : Entry) : Cell C := ⟨dir.root e, dir.backup e, dir.failed e⟩

def Cell.setAside (c : Cell C) : Cell C := ⟨none, c.backup, c.root.or c.failed⟩

def Cell.back (restored : Bool) (c : Cell C) : Cell C :=
  if restored then ⟨c.backup, none, c.root.or c.failed⟩ else c.setAside

def Cell.final (added : Bool) (c : Cell C) : Cell C :=
  if c.backup.isSome || added then c.back c.backup.isSome else c

variable {current : Trial} {reason : String} {dir cut : Install C} {e x : Entry} {c : Cell C} {added : Bool}

theorem back_back : (c.back false).back false = c.back false := by
  simp [Cell.back, Cell.setAside]

theorem final_setAside (h : (c.backup.isSome || added) = true) : c.setAside.final added = c.final added := by
  unfold Cell.final
  rw [show c.setAside.backup = c.backup from rfl, if_pos h, if_pos h]
  simp [Cell.back, Cell.setAside]

theorem final_discarded (h : c.root.isSome = true) (hgone : (c.backup.isSome || added) = true) :
    Cell.final added (⟨c.root, c.backup, none⟩ : Cell C) = c.final added := by
  obtain ⟨content, hroot⟩ := Option.isSome_iff_exists.mp h
  unfold Cell.final
  dsimp only
  rw [if_pos hgone, if_pos hgone]
  simp [Cell.back, Cell.setAside, hroot]

theorem final_back (h : (c.backup.isSome || added) = true) (hkeep : c.backup.isSome = true → added = false) :
    (c.back c.backup.isSome).final added = c.final added := by
  cases hbackup : c.backup.isSome with
  | true =>
    rw [hkeep hbackup]
    simp [Cell.final, Cell.back, hbackup]
  | false =>
    rw [hbackup, Bool.false_or] at h
    exact final_setAside (by rw [h, Bool.or_true])

theorem cell_putBack (ks : List Entry) (dir : Install C) (x e : Entry) :
    cell (putBack ks dir x) e = if e = x then (cell dir e).back (decide (x ∈ ks)) else cell dir e := by
  obtain ⟨hroot, hbackup⟩ := putBack_spec ks dir x e
  have hfailed : (putBack ks dir x).failed e = if e = x then (dir.root e).or (dir.failed e) else dir.failed e := by
    unfold putBack
    by_cases he : e = x
    · subst he
      cases dir.root e <;> by_cases hk : e ∈ ks <;> simp [hk, Install.moveBack]
    · by_cases hs : (dir.root x).isSome = true <;> by_cases hk : x ∈ ks <;> simp [hs, hk, he, Install.moveBack]
  unfold cell
  rw [hroot, hbackup, hfailed]
  by_cases he : e = x
  · subst he
    by_cases hk : e ∈ ks <;> simp [Cell.back, Cell.setAside, hk]
  · simp [he]

theorem cell_foldl {ks : List Entry} : ∀ {es : List Entry} {dir : Install C},
    (es.filter fun e => decide (e ∈ ks)).Nodup → ∀ e, cell (es.foldl (putBack ks) dir) e =
      if e ∈ es then (cell dir e).back (decide (e ∈ ks)) else cell dir e
  | [], _, _, _ => rfl
  | x :: es, dir, hn, e => by
    rw [List.foldl_cons, cell_foldl (hn.sublist ((List.sublist_cons_self x es).filter _)), cell_putBack]
    by_cases he : e = x
    · subst he
      by_cases hmem : e ∈ es
      · have hk : e ∉ ks := by
          intro hk
          rw [List.filter_cons_of_pos (by simpa using hk), List.nodup_cons] at hn
          exact hn.1 (List.mem_filter.mpr ⟨hmem, decide_eq_true hk⟩)
        simp [hmem, hk, back_back]
      · simp [hmem]
    · simp [he]

/-! ### A rollback -/

theorem mem_entries : e ∈ entries current dir ↔ ((cell dir e).backup.isSome || decide (e ∈ current.added)) = true := by
  unfold entries
  rw [List.mem_append, List.mem_filter, decide_eq_true_iff, mem_kept, Bool.or_eq_true, decide_eq_true_iff]
  show _ ∨ _ ↔ (dir.backup e).isSome = true ∨ _
  tauto

theorem nodup_entries (current : Trial) (dir : Install C) :
    ((entries current dir).filter fun e => decide (e ∈ kept dir)).Nodup := by
  have hnone : ((current.added.filter fun e => decide (e ∉ kept dir)).filter fun e => decide (e ∈ kept dir)) = [] := by
    rw [List.filter_filter, List.filter_eq_nil_iff]
    intro e _ hand
    simp at hand
  unfold entries
  rw [List.filter_append, hnone, List.append_nil]
  exact (nodup_replaceEntries.filter _).filter _

theorem decide_mem_kept : decide (e ∈ kept dir) = (cell dir e).backup.isSome := by
  rw [Bool.eq_iff_iff, decide_eq_true_iff]
  exact mem_kept

theorem cell_rolledBack (e : Entry) : cell ((entries current dir).foldl (putBack (kept dir)) dir) e =
    (cell dir e).final (decide (e ∈ current.added)) := by
  rw [cell_foldl (nodup_entries current dir), decide_mem_kept]
  unfold Cell.final
  exact if_congr mem_entries rfl rfl

/-- What a rollback makes of an entry in the end is the same, or the entry was moved back and is taken for one
that the new tree brought. -/
def Kept (current : Trial) (dir cut : Install C) (e : Entry) : Prop :=
  ((cell cut e).final (decide (e ∈ current.added)) = (cell dir e).final (decide (e ∈ current.added)) ∨
    e ∈ current.added ∧ (dir.backup e).isSome ∧ cut.backup e = none) ∧
  (cut.backup e = dir.backup e ∨ cut.backup e = none)

theorem Kept.of_cell {cut' : Install C} (h : Kept current dir cut e) (heq : cell cut' e = cell cut e) :
    Kept current dir cut' e := by
  have hbackup : cut'.backup e = cut.backup e := congrArg Cell.backup heq
  unfold Kept
  rw [heq, hbackup]
  exact h

theorem kept_foldl (current : Trial) (dir : Install C) (n : ℕ) (e : Entry) :
    Kept current dir (((entries current dir).take n).foldl (putBack (kept dir)) dir) e := by
  have hcell := @cell_foldl C (kept dir) _ dir
    ((nodup_entries current dir).sublist ((List.take_sublist n (entries current dir)).filter _)) e
  rw [decide_mem_kept] at hcell
  split_ifs at hcell with hmem
  · have hgone := mem_entries.mp (List.mem_of_mem_take hmem)
    have hbackup : (((entries current dir).take n).foldl (putBack (kept dir)) dir).backup e = none := by
      have heq := congrArg Cell.backup hcell
      cases hb : (cell dir e).backup with
      | none =>
        rw [hb] at heq
        exact heq.trans hb
      | some content =>
        rw [hb] at heq
        exact heq
    refine ⟨?_, Or.inr hbackup⟩
    by_cases hlost : (cell dir e).backup.isSome = true ∧ e ∈ current.added
    · exact Or.inr ⟨hlost.2, hlost.1, hbackup⟩
    · rw [hcell]
      exact Or.inl (final_back hgone fun hsome => decide_eq_false fun hadded => hlost ⟨hsome, hadded⟩)
  · exact Kept.of_cell ⟨Or.inl rfl, Or.inl rfl⟩ hcell

theorem cell_partly (part : Part) (dir : Install C) (x e : Entry) :
    cell (partly part dir x) e = cell dir e ∨ e = x ∧ (cell (partly part dir x) e = (cell dir e).setAside ∨
      (cell dir e).root.isSome ∧ cell (partly part dir x) e = ⟨(cell dir e).root, (cell dir e).backup, none⟩) := by
  unfold partly
  split_ifs with hsome
  · by_cases he : e = x
    · subst he
      obtain ⟨content, hroot⟩ := Option.isSome_iff_exists.mp hsome
      cases part with
      | nothing => exact Or.inl rfl
      | discarded => exact Or.inr ⟨rfl, Or.inr ⟨hsome, by simp [cell]⟩⟩
      | aside => exact Or.inr ⟨rfl, Or.inl (by simp [cell, Cell.setAside, hroot])⟩
    · cases part <;> exact Or.inl (by simp [cell, he])
  · exact Or.inl rfl

theorem kept_cutShort (point : Point) (e : Entry) : Kept current dir (cutShort current reason dir point) e := by
  cases point with
  | last =>
    unfold cutShort
    dsimp only
    split_ifs
    · exact ⟨Or.inl rfl, Or.inl rfl⟩
    · refine Kept.of_cell (kept_foldl current dir (entries current dir).length e) ?_
      rw [List.take_length]
      rfl
  | loop n part =>
    unfold cutShort
    dsimp only
    split_ifs
    · exact ⟨Or.inl rfl, Or.inl rfl⟩
    have hfold := kept_foldl current dir n e
    cases hx : (entries current dir)[n]? with
    | none => exact hfold
    | some x =>
      rw [Option.elim_some]
      rcases cell_partly part (((entries current dir).take n).foldl (putBack (kept dir)) dir) x e with
        heq | ⟨rfl, hpart⟩
      · exact hfold.of_cell heq
      · -- the entry under way is not one that is back already
        obtain ⟨hn, hget⟩ := List.getElem?_eq_some_iff.mp hx
        have hmem : e ∈ entries current dir := List.mem_of_getElem? hx
        have hgone : ((cell (((entries current dir).take n).foldl (putBack (kept dir)) dir) e).backup.isSome ||
            decide (e ∈ current.added)) = true := by
          by_cases hadded : e ∈ current.added
          · rw [decide_eq_true hadded, Bool.or_true]
          · have hk : e ∈ kept dir := by
              have hor := mem_entries.mp hmem
              rw [decide_eq_false hadded, Bool.or_false] at hor
              exact mem_kept.mpr hor
            have hnot : e ∉ (entries current dir).take n := by
              intro htake
              have hnd := nodup_entries current dir
              rw [← List.take_append_drop n (entries current dir), List.drop_eq_getElem_cons hn, hget,
                List.filter_append, List.filter_cons_of_pos (by simpa using hk)] at hnd
              exact (List.nodup_append.mp hnd).2.2 e (List.mem_filter.mpr ⟨htake, decide_eq_true hk⟩) e
                List.mem_cons_self rfl
            rw [cell_foldl ((nodup_entries current dir).sublist ((List.take_sublist n _).filter _)), if_neg hnot,
              ← decide_mem_kept, decide_eq_true hk, Bool.true_or]
        obtain ⟨hfinal, hbackup⟩ := hfold
        have hsame : (cell (partly part (((entries current dir).take n).foldl (putBack (kept dir)) dir) e) e).final
              (decide (e ∈ current.added)) =
            (cell (((entries current dir).take n).foldl (putBack (kept dir)) dir) e).final
              (decide (e ∈ current.added)) := by
          rcases hpart with heq | ⟨hroot, heq⟩
          · rw [heq, final_setAside hgone]
          · rw [heq, final_discarded hroot hgone]
        have hback : (partly part (((entries current dir).take n).foldl (putBack (kept dir)) dir) e).backup e =
            (((entries current dir).take n).foldl (putBack (kept dir)) dir).backup e := by
          rcases hpart with heq | ⟨-, heq⟩ <;> exact congrArg Cell.backup heq
        unfold Kept
        rw [hsame, hback]
        exact ⟨hfinal, hbackup⟩

/-! ### Starts cut short -/

theorem Kept.trans {later : Install C} (h : Kept current dir cut e) (h' : Kept current cut later e) :
    Kept current dir later e := by
  obtain ⟨hfinal, hbackup⟩ := h
  obtain ⟨hfinal', hbackup'⟩ := h'
  have hstays : cut.backup e = none → later.backup e = none := fun hnone => hbackup'.elim (·.trans hnone) id
  refine ⟨?_, ?_⟩
  · rcases hfinal with hfinal | ⟨hadded, hsome, hnone⟩
    · rcases hfinal' with hfinal' | ⟨hadded, hsome, hnone⟩
      · exact Or.inl (hfinal'.trans hfinal)
      · refine Or.inr ⟨hadded, ?_, hnone⟩
        rcases hbackup with hsame | hgone
        · rwa [← hsame]
        · rw [hgone] at hsome
          cases hsome
    · exact Or.inr ⟨hadded, hsome, hstays hnone⟩
  · rcases hbackup with hsame | hgone
    · rwa [hsame] at hbackup'
    · exact Or.inr (hstays hgone)

theorem trial_foldl (ks : List Entry) : ∀ (es : List Entry) (dir : Install C),
    (es.foldl (putBack ks) dir).trial = dir.trial
  | [], _ => rfl
  | e :: es, dir => by
    rw [List.foldl_cons, trial_foldl ks es]
    unfold putBack
    dsimp only
    split_ifs <;> rfl

theorem kept_rolledBack (current : Trial) (dir : Install C) :
    kept ((entries current dir).foldl (putBack (kept dir)) dir) = [] := by
  rw [kept, List.filter_eq_nil_iff]
  intro e _ hsome
  have heq := congrArg Cell.backup (@cell_rolledBack C current dir e)
  have hsome : (cell ((entries current dir).foldl (putBack (kept dir)) dir) e).backup.isSome = true := hsome
  rw [heq] at hsome
  revert hsome
  cases hb : (cell dir e).backup <;> by_cases ha : e ∈ current.added <;>
    simp [Cell.final, Cell.back, Cell.setAside, hb, ha]

/-- The file of the trial stays while something is in the backup. -/
def OnTrial (t : Trial) (dir : Install C) : Prop := (∀ t' ∈ dir.trial, t' = t) ∧ (dir.trial = none → kept dir = [])

variable {t : Trial}

theorem onTrial_cutShort (h : dir.trial = some t) (point : Point) :
    OnTrial t (cutShort current reason dir point) := by
  have hsame : ∀ {cut : Install C}, cut.trial = dir.trial → OnTrial t cut := by
    intro cut hcut
    rw [h] at hcut
    refine ⟨fun t' ht' => ?_, fun hnone => ?_⟩
    · rw [hcut] at ht'
      exact (Option.some.inj ht').symm
    · rw [hcut] at hnone
      cases hnone
  cases point with
  | last =>
    unfold cutShort
    dsimp only
    split_ifs
    · exact hsame rfl
    · refine ⟨fun t' ht' => (by cases ht'), fun _ => kept_rolledBack current dir⟩
  | loop n part =>
    unfold cutShort
    dsimp only
    split_ifs
    · exact hsame rfl
    · cases (entries current dir)[n]? with
      | none => exact hsame (trial_foldl _ _ _)
      | some x =>
        refine hsame (Eq.trans ?_ (trial_foldl (kept dir) ((entries current dir).take n) dir))
        rw [Option.elim_some]
        unfold partly
        split_ifs
        · cases part <;> rfl
        · rfl

theorem boots_readTrial (h : maxTrialBoots ≤ t.boots) : maxTrialBoots < (readTrial t).boots + 1 := by
  show maxTrialBoots < min t.boots (maxTrialBoots + 1) + 1
  omega

theorem kept_interrupted {t : Trial} (hboots : maxTrialBoots ≤ t.boots) : ∀ {points : List Point} {cut : Install C},
    (∀ e, Kept (readTrial t) dir cut e) → OnTrial t cut →
    (∀ e, Kept (readTrial t) dir (points.foldl interrupted cut) e) ∧ OnTrial t (points.foldl interrupted cut)
  | [], _, hkept, htrial => ⟨hkept, htrial⟩
  | point :: points, cut, hkept, htrial => by
    rw [List.foldl_cons]
    cases ht : cut.trial with
    | none =>
      have heq : interrupted cut point = cut := by
        unfold interrupted
        rw [ht]
        rfl
      rw [heq]
      exact kept_interrupted hboots hkept htrial
    | some t' =>
      obtain rfl := htrial.1 t' ht
      have heq : interrupted cut point =
          cutShort (readTrial t') "started 3 times without staying up for 120 seconds" cut point := by
        unfold interrupted
        rw [ht, Option.map_some]
        exact if_pos (boots_readTrial hboots)
      rw [heq]
      exact kept_interrupted hboots (fun e => (hkept e).trans (kept_cutShort point e)) (onTrial_cutShort ht point)

/-! ### The start that runs to its end -/

theorem begin_rollback (ht : dir.trial = some t) (hboots : maxTrialBoots ≤ t.boots) :
    begin dir = if kept dir = [] then
        (.notOnTrial, { dir with
          trial := none
          note := some ⟨(readTrial t).version, (readTrial t).previous, false,
            "started 3 times without staying up for 120 seconds", "no previous tree to go back to"⟩ })
      else
        (.rolledBack, { (entries (readTrial t) dir).foldl (putBack (kept dir)) dir with
          trial := none
          note := some ⟨(readTrial t).version, (readTrial t).previous, true,
            "started 3 times without staying up for 120 seconds", ""⟩ }) := by
  unfold begin
  rw [ht, Option.map_some]
  dsimp only
  rw [if_pos (boots_readTrial hboots)]
  unfold rollback
  split_ifs <;> simp_all [entries]

theorem cell_begin (ht : dir.trial = some t) (hboots : maxTrialBoots ≤ t.boots) (hk : kept dir ≠ [])
    (e : Entry) : cell (begin dir).2 e = (cell dir e).final (decide (e ∈ (readTrial t).added)) := by
  rw [begin_rollback ht hboots, if_neg hk]
  exact cell_rolledBack e

theorem install_ext {a b : Install C} (hcell : ∀ e, cell a e = cell b e) (htrial : a.trial = b.trial)
    (hnote : a.note = b.note) : a = b := by
  have hroot : a.root = b.root := funext fun e => congrArg Cell.root (hcell e)
  have hbackup : a.backup = b.backup := funext fun e => congrArg Cell.backup (hcell e)
  have hfailed : a.failed = b.failed := funext fun e => congrArg Cell.failed (hcell e)
  cases a
  cases b
  simp_all

/-- **A rollback cut short is finished by the next start, exactly if** something is still in the backup and no
entry that the new tree is said to have brought was moved back. -/
theorem finished_iff {t : Trial} (ht : dir.trial = some t) (hboots : maxTrialBoots ≤ t.boots) (points : List Point) :
    Finished dir (points.foldl interrupted dir) (readTrial t) ↔
      Resumable dir (points.foldl interrupted dir) (readTrial t) := by
  have hstart : OnTrial t dir := by
    refine ⟨fun t' ht' => Option.mem_unique ht' ht, fun hnone => ?_⟩
    rw [ht] at hnone
    cases hnone
  obtain ⟨hkept, htrial⟩ :=
    @kept_interrupted C dir t hboots points dir (fun e => ⟨Or.inl rfl, Or.inl rfl⟩) hstart
  generalize points.foldl interrupted dir = cut at hkept htrial ⊢
  have hsub : kept cut ≠ [] → kept dir ≠ [] := by
    intro hne
    obtain ⟨e, he⟩ := List.exists_mem_of_ne_nil _ hne
    have hsome := mem_kept.mp he
    rcases (hkept e).2 with hsame | hgone
    · exact List.ne_nil_of_mem (mem_kept.mpr (hsame ▸ hsome))
    · rw [hgone] at hsome
      cases hsome
  have htrial' : kept cut ≠ [] → cut.trial = some t := by
    intro hne
    cases hcut : cut.trial with
    | none => exact absurd (htrial.2 hcut) hne
    | some t' => rw [htrial.1 t' hcut]
  constructor
  · rintro ⟨hout, hsame, -⟩
    have hne : kept cut ≠ [] := by
      intro hnil
      cases hcut : cut.trial with
      | none =>
        unfold begin at hout
        rw [hcut] at hout
        cases hout
      | some t' =>
        obtain rfl := htrial.1 t' hcut
        rw [begin_rollback hcut hboots, if_pos hnil] at hout
        cases hout
    refine ⟨hne, fun e hadded hk => ?_⟩
    by_contra hlost
    have hsome := mem_kept.mp hk
    have hnone : (cell cut e).backup = none := Option.not_isSome_iff_eq_none.mp fun h => hlost (mem_kept.mpr h)
    have heq := congrArg (fun d => (cell d e).root) hsame
    rw [cell_begin (htrial' hne) hboots hne, cell_begin ht hboots (hsub hne), decide_eq_true hadded] at heq
    obtain ⟨content, hcontent⟩ := Option.isSome_iff_exists.mp hsome
    have hback : (cell dir e).backup = some content := hcontent
    simp [Cell.final, Cell.back, Cell.setAside, hnone, hback] at heq
  · rintro ⟨hne, hkeeps⟩
    have hcell : ∀ e, cell (begin cut).2 e = cell (begin dir).2 e := by
      intro e
      rw [cell_begin (htrial' hne) hboots hne, cell_begin ht hboots (hsub hne)]
      rcases (hkept e).1 with hfinal | ⟨hadded, hsome, hnone⟩
      · exact hfinal
      · have hk := mem_kept.mp (hkeeps e hadded (mem_kept.mpr hsome))
        rw [hnone] at hk
        cases hk
    have hcut := begin_rollback (htrial' hne) hboots
    have hdir := begin_rollback ht hboots
    rw [if_neg hne] at hcut
    rw [if_neg (hsub hne)] at hdir
    have hsame : (begin cut).2 = (begin dir).2 :=
      install_ext hcell (by rw [hcut, hdir]) (by rw [hcut, hdir])
    refine ⟨by rw [hcut], hsame, ?_, by rw [hcut], _, by rw [hcut], rfl⟩
    funext e
    have hroot := congrArg Cell.root ((hcell e).trans (cell_begin ht hboots (hsub hne) e))
    refine hroot.trans ?_
    show _ = (dir.backup e).or (if e ∈ (readTrial t).added then none else dir.root e)
    have hb : (cell dir e).backup = dir.backup e := rfl
    have hr : (cell dir e).root = dir.root e := rfl
    cases hback : dir.backup e <;> by_cases hadded : e ∈ (readTrial t).added <;>
      simp [Cell.final, Cell.back, Cell.setAside, hb, hr, hback, hadded]

/-! ### A rollback of one entry -/

/-- A version with a launcher on trial for the last time, in the place of one without. -/
def failing : Install ℕ :=
  ⟨fun e => if e ∈ requiredEntries then some 2 else none, fun e => if e = .src then some 1 else none, bare,
    some ⟨"2", "1", [.startSh], maxTrialBoots⟩, none⟩

theorem finished_aside : Finished failing ([.loop 0 .aside].foldl interrupted failing)
    (readTrial ⟨"2", "1", [.startSh], maxTrialBoots⟩) :=
  (finished_iff rfl (Nat.le_refl _) [.loop 0 .aside]).mpr (by unfold Resumable; decide)

/-- **Cut short when the last entry is back**, the rollback is not resumed: the launcher stays, and the note says
that there is no previous tree. -/
theorem forgotten :
    ¬ Finished failing ([.loop 1 .nothing].foldl interrupted failing)
      (readTrial ⟨"2", "1", [.startSh], maxTrialBoots⟩) ∧
    (begin ([Point.loop 1 .nothing].foldl interrupted failing)).1 = .notOnTrial ∧
    (begin ([Point.loop 1 .nothing].foldl interrupted failing)).2.root .startSh = some 2 ∧
    (begin ([Point.loop 1 .nothing].foldl interrupted failing)).2.note =
      some ⟨"2", "1", false, "started 3 times without staying up for 120 seconds",
        "no previous tree to go back to"⟩ := by
  refine ⟨fun h => absurd h.1 (by decide), by decide, by decide, by decide⟩

end NMesh.Boot.Resumed
