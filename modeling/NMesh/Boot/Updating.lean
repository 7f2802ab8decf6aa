import NMesh.Base.Runs
import Mathlib.Data.List.Nodup
import Mathlib.Logic.Function.Basic
import Mathlib.Tactic.SplitIfs

/-! # Swapping a tree and putting it back

An install directory holds the installed tree, the backup of the last swap, the failed tree of the last rollback,
the file of a tree on trial and the note of a rollback.

* `swapTree_raised`: a swap that raises leaves the installed tree;
* `swapTree_installed`: one that does not leaves the old tree to go back to;
* `rollback_restored`: a rollback goes back to it. -/

namespace NMesh.Boot.Updating

/-- What a release replaces. -/
inductive Entry
  | src | scripts | startSh | installSh | requirements | pyproject | docs | docker | readme | agents | claude
  | license
  deriving DecidableEq, Repr

/-- `REPLACE_ENTRIES`, in order. -/
def replaceEntries : List Entry :=
  [.src, .scripts, .startSh, .installSh, .requirements, .pyproject, .docs, .docker, .readme, .agents, .claude,
    .license]

def requiredEntries : List Entry := [.src, .startSh]

def maxTrialBoots : ℕ := 3

variable {C : Type}

abbrev Tree (C : Type) := Entry → Option C

def bare : Tree C := fun _ => none

/-- The file of a tree on trial. -/
structure Trial where
  version : String
  previous : String
  added : List Entry
  boots : ℕ
  deriving DecidableEq

/-- The note of a rollback. -/
structure Note where
  version : String
  previous : String
  restored : Bool
  reason : String
  detail : String
  deriving DecidableEq

/-- An install directory. -/
structure Install (C : Type) where
  root : Tree C
  backup : Tree C
  failed : Tree C
  trial : Option Trial
  note : Option Note

/-! ### The swap -/

/-- A swap under way: the directory, what was moved aside and what was added. -/
structure Swap (C : Type) where
  dir : Install C
  moved : List Entry
  added : List Entry

/-- Move what is at an entry aside, or note that nothing is. -/
def Swap.makeWay (s : Swap C) (e : Entry) : Swap C :=
  if (s.dir.root e).isSome then
    { s with
      dir := { s.dir with
        backup := Function.update s.dir.backup e (s.dir.root e)
        root := Function.update s.dir.root e none }
      moved := s.moved ++ [e] }
  else { s with added := s.added ++ [e] }

def Swap.put (s : Swap C) (e : Entry) (content : Option C) : Swap C :=
  { s with dir := { s.dir with root := Function.update s.dir.root e content } }

/-- Replace one entry after the other. `fails` tells the entry whose copy raises and what it leaves of it;
`false` is a swap that raised. -/
def replace (source : Tree C) (fails : Option (Entry × Option C)) : List Entry → Swap C → Bool × Swap C
  | [], s => (true, s)
  | e :: es, s =>
    match source e with
    | none => replace source fails es s
    | some content =>
      match fails.filter fun f => decide (f.1 = e) with
      | some f => (false, (s.makeWay e).put e f.2)
      | none => replace source fails es ((s.makeWay e).put e (some content))

def Install.remove (dir : Install C) (e : Entry) : Install C :=
  { dir with root := Function.update dir.root e none }

def Install.moveBack (dir : Install C) (e : Entry) : Install C :=
  { dir with
    root := Function.update dir.root e (dir.backup e)
    backup := Function.update dir.backup e none }

/-- `_restore`: undo a swap. -/
def restore (s : Swap C) : Install C :=
  s.moved.foldl Install.moveBack ((s.moved ++ s.added).foldl Install.remove s.dir)

def startTrial (dir : Install C) (version previous : String) (added : List Entry) : Install C :=
  { dir with trial := some ⟨(version.take 64).toString, (previous.take 64).toString,
      added.filter fun e => decide (e ∈ replaceEntries), 0⟩ }

/-- `_swap_tree`: put `source` in place. `fails` is where copying raises, `starts` the verdict of the
preflight; `false` is a swap that raised. -/
def swapTree (source : Tree C) (version running : String) (fails : Option (Entry × Option C))
    (starts : Tree C → Bool) (dir : Install C) : Bool × Install C :=
  match replace source fails replaceEntries ⟨{ dir with backup := bare }, [], []⟩ with
  | (false, s) => (false, restore s)
  | (true, s) =>
    if starts s.dir.root then (true, startTrial s.dir version running s.added)
    else (false, restore s)

/-- `_verify_tree`, which every caller of `_swap_tree` makes first. -/
def verifyTree (source : Tree C) : Bool := requiredEntries.all fun e => (source e).isSome

/-! ### The way back -/

def readTrial (t : Trial) : Trial :=
  { t with
    added := t.added.filter fun e => decide (e ∈ replaceEntries)
    boots := min t.boots (maxTrialBoots + 1) }

def kept (dir : Install C) : List Entry := replaceEntries.filter fun e => (dir.backup e).isSome

/-- Move what is at an entry to the failed tree, and the backup of it back. -/
def putBack (kept : List Entry) (dir : Install C) (e : Entry) : Install C :=
  let dir := if (dir.root e).isSome then
      { dir with
        failed := Function.update dir.failed e (dir.root e)
        root := Function.update dir.root e none }
    else dir
  if e ∈ kept then dir.moveBack e else dir

/-- `rollback`: whether the previous tree is back. -/
def rollback (current : Trial) (reason : String) (dir : Install C) : Bool × Install C :=
  if kept dir = [] then
    (false, { dir with
      trial := none
      note := some ⟨current.version, current.previous, false, reason, "no previous tree to go back to"⟩ })
  else
    (true, { (kept dir ++ current.added.filter fun e => decide (e ∉ kept dir)).foldl (putBack (kept dir))
        dir with
      trial := none
      note := some ⟨current.version, current.previous, true, reason, ""⟩ })

/-- What a counted start is told. -/
inductive Outcome
  | notOnTrial | onTrial | rolledBack
  deriving DecidableEq

/-- `begin`: count a start. -/
def begin (dir : Install C) : Outcome × Install C :=
  match dir.trial.map readTrial with
  | none => (.notOnTrial, dir)
  | some current =>
    if maxTrialBoots < current.boots + 1 then
      let out := rollback current "started 3 times without staying up for 120 seconds" dir
      (if out.1 then .rolledBack else .notOnTrial, out.2)
    else (.onTrial, { dir with trial := some { current with boots := current.boots + 1 } })

/-- `confirm`: the node has stayed up. -/
def confirm (dir : Install C) : Install C := { dir with trial := none }

/-! ### What a swap does -/

theorem mem_replaceEntries (e : Entry) : e ∈ replaceEntries := by cases e <;> decide

theorem nodup_replaceEntries : replaceEntries.Nodup := by decide

/-- **The books of a swap**: what is moved is in the backup, what is added was not there, and the rest is as
in the tree `old`. -/
structure Tracks (old : Tree C) (s : Swap C) : Prop where
  nodup : s.moved.Nodup
  moved : ∀ e ∈ s.moved, s.dir.backup e = old e ∧ (old e).isSome
  added : ∀ e ∈ s.added, s.dir.backup e = none ∧ old e = none
  rest : ∀ e, e ∉ s.moved → e ∉ s.added → s.dir.root e = old e ∧ s.dir.backup e = none

variable {s : Swap C}

theorem makeWay_tracks {old : Tree C} (h : Tracks old s) {e : Entry} (hm : e ∉ s.moved)
    (ha : e ∉ s.added) (content : Option C) : Tracks old ((s.makeWay e).put e content) := by
  obtain ⟨hroot, hback⟩ := h.rest e hm ha
  have hne : ∀ {e' : Entry} {l : List Entry}, e' ∈ l → e ∉ l → e' ≠ e := by
    rintro e' l he' hl rfl
    exact hl he'
  unfold Swap.makeWay
  split_ifs with hsome
  · refine ⟨?_, ?_, ?_, ?_⟩
    · exact List.nodup_append.mpr ⟨h.nodup, List.nodup_singleton e, by
        rintro a ha' b hb rfl; exact hm (by rwa [List.mem_singleton.mp hb] at ha')⟩
    · intro e' he'
      rcases List.mem_append.mp he' with he' | he'
      · show Function.update s.dir.backup e (s.dir.root e) e' = old e' ∧ _
        rw [Function.update_of_ne (hne he' hm)]
        exact h.moved e' he'
      · obtain rfl := List.mem_singleton.mp he'
        show Function.update s.dir.backup e' (s.dir.root e') e' = old e' ∧ _
        rw [Function.update_self, hroot]
        exact ⟨rfl, hroot ▸ hsome⟩
    · intro e' he'
      show Function.update s.dir.backup e (s.dir.root e) e' = none ∧ _
      rw [Function.update_of_ne (hne he' ha)]
      exact h.added e' he'
    · intro e' hm' ha'
      have hee : e' ≠ e := fun he => hm' (List.mem_append_right _ (List.mem_singleton.mpr he))
      show Function.update (Function.update s.dir.root e none) e content e' = old e' ∧
        Function.update s.dir.backup e (s.dir.root e) e' = none
      rw [Function.update_of_ne hee, Function.update_of_ne hee, Function.update_of_ne hee]
      exact h.rest e' (fun he => hm' (List.mem_append_left _ he)) ha'
  · have hnone : s.dir.root e = none := Option.not_isSome_iff_eq_none.mp hsome
    refine ⟨h.nodup, h.moved, ?_, ?_⟩
    · intro e' he'
      rcases List.mem_append.mp he' with he' | he'
      · exact h.added e' he'
      · obtain rfl := List.mem_singleton.mp he'
        exact ⟨hback, hroot ▸ hnone⟩
    · intro e' hm' ha'
      have hee : e' ≠ e := fun he => ha' (List.mem_append_right _ (List.mem_singleton.mpr he))
      show Function.update s.dir.root e content e' = old e' ∧ _
      rw [Function.update_of_ne hee]
      exact h.rest e' hm' fun he => ha' (List.mem_append_left _ he)

theorem mem_makeWay {e e' : Entry} {content : Option C} (hne : e' ≠ e) :
    (e' ∈ ((s.makeWay e).put e content).moved → e' ∈ s.moved) ∧
      (e' ∈ ((s.makeWay e).put e content).added → e' ∈ s.added) := by
  unfold Swap.makeWay
  split_ifs
  · refine ⟨fun h => ?_, id⟩
    rcases List.mem_append.mp h with h | h
    · exact h
    · exact absurd (List.mem_singleton.mp h) hne
  · refine ⟨id, fun h => ?_⟩
    rcases List.mem_append.mp h with h | h
    · exact h
    · exact absurd (List.mem_singleton.mp h) hne

theorem booked_makeWay (s : Swap C) (e : Entry) (content : Option C) :
    e ∈ ((s.makeWay e).put e content).moved ∨ e ∈ ((s.makeWay e).put e content).added := by
  unfold Swap.makeWay
  split_ifs
  · exact Or.inl (List.mem_append_right _ List.mem_cons_self)
  · exact Or.inr (List.mem_append_right _ List.mem_cons_self)

theorem moved_makeWay {e e' : Entry} {content : Option C} (h : e' ∈ s.moved) :
    e' ∈ ((s.makeWay e).put e content).moved := by
  unfold Swap.makeWay
  split_ifs
  · exact List.mem_append_left _ h
  · exact h

theorem added_makeWay {e e' : Entry} {content : Option C} (h : e' ∈ s.added) :
    e' ∈ ((s.makeWay e).put e content).added := by
  unfold Swap.makeWay
  split_ifs
  · exact h
  · exact List.mem_append_left _ h

theorem root_makeWay (s : Swap C) (e e' : Entry) (content : Option C) :
    ((s.makeWay e).put e content).dir.root e' = if e' = e then content else s.dir.root e' := by
  unfold Swap.makeWay
  by_cases he : e' = e
  · subst he
    rw [if_pos rfl]
    exact Function.update_self _ _ _
  · rw [if_neg he]
    split_ifs
    · show Function.update (Function.update s.dir.root e none) e content e' = _
      rw [Function.update_of_ne he, Function.update_of_ne he]
    · exact Function.update_of_ne he _ _

theorem trial_makeWay (s : Swap C) (e : Entry) (content : Option C) :
    ((s.makeWay e).put e content).dir.trial = s.dir.trial := by
  unfold Swap.makeWay
  split_ifs <;> rfl

/-- **What replacing the entries does**: the books are kept, and if nothing raises every entry of the source
is in place. -/
theorem replace_spec {source : Tree C} {fails : Option (Entry × Option C)} {old : Tree C} :
    ∀ {es : List Entry} {s : Swap C}, es.Nodup → (∀ e ∈ es, e ∉ s.moved ∧ e ∉ s.added) → Tracks old s →
      Tracks old (replace source fails es s).2 ∧
        (replace source fails es s).2.dir.trial = s.dir.trial ∧
        ((replace source fails es s).1 = true →
          ∀ e, ((replace source fails es s).2.dir.root e =
            if e ∈ es then (source e).or (s.dir.root e) else s.dir.root e) ∧
            (e ∈ s.moved ∨ e ∈ s.added ∨ (e ∈ es ∧ (source e).isSome) →
              e ∈ (replace source fails es s).2.moved ∨ e ∈ (replace source fails es s).2.added))
  | [], s, _, _, h => ⟨h, rfl, fun _ e => ⟨by simp [replace], by simp [replace]⟩⟩
  | e :: es, s, hn, hout, h => by
    obtain ⟨hnot, hn⟩ := List.nodup_cons.mp hn
    obtain ⟨hm, ha⟩ := hout e List.mem_cons_self
    have hout' := fun e' he' => hout e' (List.mem_cons_of_mem e he')
    cases hsource : source e with
    | none =>
      obtain ⟨h1, h2, h3⟩ := @replace_spec source fails old _ _ hn hout' h
      have heq : replace source fails (e :: es) s = replace source fails es s := by
        rw [replace, hsource]
      rw [heq]
      refine ⟨h1, h2, fun htrue e' => ?_⟩
      obtain ⟨hroot, hbooked⟩ := h3 htrue e'
      by_cases he' : e' = e
      · subst he'
        refine ⟨?_, fun hor => hbooked ?_⟩
        · rw [hroot, if_neg hnot, if_pos List.mem_cons_self, hsource]
          rfl
        · rcases hor with hor | hor | ⟨-, hor⟩
          · exact Or.inl hor
          · exact Or.inr (Or.inl hor)
          · rw [hsource] at hor
            cases hor
      · refine ⟨by simp [hroot, he'], fun hor => hbooked ?_⟩
        rwa [List.mem_cons, or_iff_right he'] at hor
    | some content =>
      have hgo : ∀ content' : Option C, Tracks old ((s.makeWay e).put e content') ∧
          ∀ e' ∈ es, e' ∉ ((s.makeWay e).put e content').moved ∧
            e' ∉ ((s.makeWay e).put e content').added := by
        intro content'
        refine ⟨makeWay_tracks h hm ha content', fun e' he' => ?_⟩
        have hne : e' ≠ e := fun he => hnot (he ▸ he')
        obtain ⟨hm', ha'⟩ := hout' e' he'
        exact ⟨fun hmem => hm' ((mem_makeWay hne).1 hmem), fun hmem => ha' ((mem_makeWay hne).2 hmem)⟩
      cases hfails : fails.filter fun f => decide (f.1 = e) with
      | some f =>
        have heq : replace source fails (e :: es) s = (false, (s.makeWay e).put e f.2) := by
          rw [replace, hsource]
          simp only [hfails]
        rw [heq]
        exact ⟨(hgo f.2).1, trial_makeWay s e f.2, fun hfalse => by cases hfalse⟩
      | none =>
        have heq : replace source fails (e :: es) s =
            replace source fails es ((s.makeWay e).put e (some content)) := by
          rw [replace, hsource]
          simp only [hfails]
        obtain ⟨h1, h2, h3⟩ := @replace_spec source fails old _ _ hn (hgo (some content)).2
          (hgo (some content)).1
        rw [heq]
        refine ⟨h1, h2.trans (trial_makeWay s e _), fun htrue e' => ?_⟩
        obtain ⟨hroot, hbooked⟩ := h3 htrue e'
        rw [root_makeWay] at hroot
        by_cases he' : e' = e
        · subst he'
          refine ⟨?_, fun _ => hbooked ?_⟩
          · rw [hroot, if_neg hnot, if_pos rfl, if_pos List.mem_cons_self, hsource]
            rfl
          · rcases booked_makeWay s e' (some content) with hmem | hmem
            · exact Or.inl hmem
            · exact Or.inr (Or.inl hmem)
        · refine ⟨by simp [hroot, he'], fun hor => hbooked ?_⟩
          rw [List.mem_cons, or_iff_right he'] at hor
          rcases hor with hor | hor | hor
          · exact Or.inl (moved_makeWay hor)
          · exact Or.inr (Or.inl (added_makeWay hor))
          · exact Or.inr (Or.inr hor)

theorem foldl_remove : ∀ (es : List Entry) (dir : Install C),
    (es.foldl Install.remove dir).root = (fun e => if e ∈ es then none else dir.root e) ∧
      (es.foldl Install.remove dir).backup = dir.backup ∧
      (es.foldl Install.remove dir).trial = dir.trial
  | [], dir => by simp
  | e :: es, dir => by
    obtain ⟨h1, h2, h3⟩ := foldl_remove es (dir.remove e)
    rw [List.foldl_cons]
    refine ⟨?_, h2, h3⟩
    rw [h1]
    funext e'
    show (if e' ∈ es then none else Function.update dir.root e none e') = _
    by_cases he : e' = e
    · subst he
      simp
    · simp [he]

theorem foldl_moveBack : ∀ {es : List Entry} {dir : Install C}, es.Nodup →
    (es.foldl Install.moveBack dir).root = (fun e => if e ∈ es then dir.backup e else dir.root e) ∧
      (es.foldl Install.moveBack dir).trial = dir.trial
  | [], dir, _ => by simp
  | e :: es, dir, hn => by
    obtain ⟨hnot, hn⟩ := List.nodup_cons.mp hn
    obtain ⟨h1, h2⟩ := @foldl_moveBack es (dir.moveBack e) hn
    rw [List.foldl_cons]
    refine ⟨?_, h2⟩
    rw [h1]
    funext e'
    show (if e' ∈ es then Function.update dir.backup e none e' else Function.update dir.root e
      (dir.backup e) e') = _
    by_cases he : e' = e
    · subst he
      simp [hnot]
    · simp [he]

theorem restore_spec {old : Tree C} (h : Tracks old s) :
    (restore s).root = old ∧ (restore s).trial = s.dir.trial := by
  obtain ⟨h1, h2, h3⟩ := foldl_remove (s.moved ++ s.added) s.dir
  obtain ⟨h4, h5⟩ := @foldl_moveBack C s.moved ((s.moved ++ s.added).foldl Install.remove s.dir) h.nodup
  refine ⟨?_, h5.trans h3⟩
  show (s.moved.foldl Install.moveBack _).root = old
  rw [h4, h1, h2]
  funext e
  show (if e ∈ s.moved then s.dir.backup e else
    if e ∈ s.moved ++ s.added then none else s.dir.root e) = old e
  by_cases hm : e ∈ s.moved
  · rw [if_pos hm, (h.moved e hm).1]
  · rw [if_neg hm]
    by_cases ha : e ∈ s.added
    · rw [if_pos (List.mem_append_right _ ha), (h.added e ha).2]
    · rw [if_neg (by simp [hm, ha]), (h.rest e hm ha).1]

def previousTree (dir : Install C) (added : List Entry) : Tree C := fun e =>
  (dir.backup e).or (if e ∈ added then none else dir.root e)

theorem previousTree_of_tracks {old : Tree C} (h : Tracks old s) :
    previousTree s.dir s.added = old := by
  funext e
  unfold previousTree
  by_cases hm : e ∈ s.moved
  · obtain ⟨heq, hsome⟩ := h.moved e hm
    rw [heq]
    cases hold : old e with
    | none => rw [hold] at hsome; cases hsome
    | some c => rfl
  · by_cases ha : e ∈ s.added
    · rw [if_pos ha, (h.added e ha).1, (h.added e ha).2]
      rfl
    · rw [if_neg ha, (h.rest e hm ha).1, (h.rest e hm ha).2]
      rfl

section Swapping

variable {source : Tree C} {version running : String} {fails : Option (Entry × Option C)}
  {starts : Tree C → Bool} {dir : Install C}

theorem replaced (source : Tree C) (fails : Option (Entry × Option C)) (dir : Install C) :
    Tracks dir.root (replace source fails replaceEntries ⟨{ dir with backup := bare }, [], []⟩).2 ∧
      (replace source fails replaceEntries ⟨{ dir with backup := bare }, [], []⟩).2.dir.trial =
        dir.trial ∧
      ((replace source fails replaceEntries ⟨{ dir with backup := bare }, [], []⟩).1 = true → ∀ e,
        (replace source fails replaceEntries ⟨{ dir with backup := bare }, [], []⟩).2.dir.root e =
          (source e).or (dir.root e) ∧ ((source e).isSome →
        e ∈ (replace source fails replaceEntries ⟨{ dir with backup := bare }, [], []⟩).2.moved ∨
          e ∈ (replace source fails replaceEntries ⟨{ dir with backup := bare }, [], []⟩).2.added)) := by
  have hstart : Tracks dir.root (⟨{ dir with backup := bare }, [], []⟩ : Swap C) := by
    refine ⟨List.nodup_nil, ?_, ?_, fun e _ _ => ⟨rfl, rfl⟩⟩
    · intro e he; cases he
    · intro e he; cases he
  obtain ⟨h1, h2, h3⟩ := @replace_spec C source fails dir.root _ _ nodup_replaceEntries
    (fun e _ => ⟨List.not_mem_nil, List.not_mem_nil⟩) hstart
  refine ⟨h1, h2, fun htrue e => ?_⟩
  obtain ⟨hroot, hbooked⟩ := h3 htrue e
  rw [if_pos (mem_replaceEntries e)] at hroot
  exact ⟨hroot, fun hs => hbooked (Or.inr (Or.inr ⟨mem_replaceEntries e, hs⟩))⟩

/-- **A swap that raises leaves the installed tree**, and the file of a trial. -/
theorem swapTree_raised (h : (swapTree source version running fails starts dir).1 = false) :
    (swapTree source version running fails starts dir).2.root = dir.root ∧
      (swapTree source version running fails starts dir).2.trial = dir.trial := by
  obtain ⟨h1, h2, -⟩ := replaced source fails dir
  unfold swapTree at h ⊢
  rcases hr : replace source fails replaceEntries ⟨{ dir with backup := bare }, [], []⟩ with ⟨_ | _, s⟩
  · rw [hr] at h1 h2
    obtain ⟨hroot, htrial⟩ := restore_spec h1
    exact ⟨hroot, htrial.trans h2⟩
  · rw [hr] at h h1 h2
    simp only at h ⊢
    split_ifs at h ⊢
    obtain ⟨hroot, htrial⟩ := restore_spec h1
    exact ⟨hroot, htrial.trans h2⟩

/-- **A swap that does not raise leaves the old tree to go back to**, the source in place and the new tree on
trial. -/
theorem swapTree_installed (h : (swapTree source version running fails starts dir).1 = true) :
    ∃ t, (swapTree source version running fails starts dir).2.trial = some t ∧ t.boots = 0 ∧
      previousTree (swapTree source version running fails starts dir).2 t.added = dir.root ∧
      (∀ e, (swapTree source version running fails starts dir).2.root e =
        (source e).or (dir.root e)) ∧
      ∀ e, (source e).isSome → (dir.root e).isSome →
        ((swapTree source version running fails starts dir).2.backup e).isSome := by
  obtain ⟨h1, -, h3⟩ := replaced source fails dir
  unfold swapTree at h ⊢
  rcases hr : replace source fails replaceEntries ⟨{ dir with backup := bare }, [], []⟩ with ⟨_ | _, s⟩
  · rw [hr] at h
    cases h
  · rw [hr] at h h1 h3
    simp only at h ⊢
    split_ifs at h ⊢
    have hadded : (s.added.filter fun e => decide (e ∈ replaceEntries)) = s.added :=
      List.filter_eq_self.mpr fun e _ => decide_eq_true (mem_replaceEntries e)
    have hroot := h3 rfl
    refine ⟨_, rfl, rfl, ?_, fun e => (hroot e).1, fun e hs hd => ?_⟩
    · show previousTree s.dir (s.added.filter fun e => decide (e ∈ replaceEntries)) = dir.root
      rw [hadded]
      exact previousTree_of_tracks h1
    · show (s.dir.backup e).isSome
      rcases (hroot e).2 hs with hm | ha
      · rw [(h1.moved e hm).1]
        exact hd
      · rw [(h1.added e ha).2] at hd
        cases hd

end Swapping

/-! ### What a rollback does -/

theorem mem_kept {dir : Install C} {e : Entry} : e ∈ kept dir ↔ (dir.backup e).isSome = true := by
  rw [kept, List.mem_filter]
  exact ⟨fun h => h.2, fun h => ⟨mem_replaceEntries e, h⟩⟩

theorem putBack_spec (ks : List Entry) (dir : Install C) (e e' : Entry) :
    ((putBack ks dir e).root e' = if e' = e then (if e ∈ ks then dir.backup e else none) else dir.root e') ∧
      ((putBack ks dir e).backup e' = if e' = e ∧ e ∈ ks then none else dir.backup e') := by
  unfold putBack
  by_cases he : e' = e
  · subst he
    by_cases hk : e' ∈ ks
    · by_cases hs : (dir.root e').isSome = true <;> simp [hk, hs, Install.moveBack]
    · by_cases hs : (dir.root e').isSome = true
      · simp [hk, hs]
      · simp only [hs, hk, Bool.false_eq_true, if_false]
        simpa using hs
  · by_cases hk : e ∈ ks
    · by_cases hs : (dir.root e).isSome = true <;> simp [hk, hs, he, Install.moveBack]
    · by_cases hs : (dir.root e).isSome = true <;> simp [hk, hs, he]

theorem foldl_putBack {ks : List Entry} : ∀ {es : List Entry} {dir : Install C},
    (es.filter fun e => decide (e ∈ ks)).Nodup → ∀ e, (es.foldl (putBack ks) dir).root e =
      if e ∈ es then (if e ∈ ks then dir.backup e else none) else dir.root e
  | [], dir, _, e => by simp
  | x :: es, dir, hn, e => by
    have hn' : (es.filter fun e => decide (e ∈ ks)).Nodup :=
      hn.sublist ((List.sublist_cons_self x es).filter _)
    obtain ⟨hroot, hback⟩ := putBack_spec ks dir x e
    rw [List.foldl_cons, foldl_putBack hn' e, hroot, hback]
    by_cases hk : e ∈ ks
    · by_cases hx : e = x
      · subst hx
        have hnot : e ∉ es := by
          intro hmem
          rw [List.filter_cons_of_pos (by simpa using hk), List.nodup_cons] at hn
          exact hn.1 (List.mem_filter.mpr ⟨hmem, decide_eq_true hk⟩)
        simp [hnot, hk]
      · simp [hx, hk]
    · by_cases hx : e = x
      · subst hx
        simp [hk]
      · simp [hx, hk]

/-- **A rollback goes back to the previous tree**, where there is one. -/
theorem rollback_restored {current : Trial} {reason : String} {dir : Install C} (h : kept dir ≠ []) :
    (rollback current reason dir).1 = true ∧ (rollback current reason dir).2.trial = none ∧
      (rollback current reason dir).2.root = previousTree dir current.added := by
  unfold rollback
  rw [if_neg h]
  refine ⟨rfl, rfl, ?_⟩
  have hnodup : ((kept dir ++ current.added.filter fun e => decide (e ∉ kept dir)).filter
      fun e => decide (e ∈ kept dir)).Nodup := by
    have hnone : ((current.added.filter fun e => decide (e ∉ kept dir)).filter
        fun e => decide (e ∈ kept dir)) = [] := by
      rw [List.filter_filter, List.filter_eq_nil_iff]
      intro e _ hand
      simp at hand
    rw [List.filter_append, hnone, List.append_nil]
    exact (nodup_replaceEntries.filter _).filter _
  funext e
  show ((kept dir ++ current.added.filter fun e => decide (e ∉ kept dir)).foldl (putBack (kept dir))
    dir).root e = _
  rw [foldl_putBack hnodup e, previousTree]
  by_cases hk : e ∈ kept dir
  · have hsome := mem_kept.mp hk
    rw [if_pos (List.mem_append_left _ hk), if_pos hk]
    cases hb : dir.backup e with
    | none => rw [hb] at hsome; cases hsome
    | some c => rfl
  · have hnone : dir.backup e = none := by
      rw [← Option.not_isSome_iff_eq_none]
      exact fun hsome => hk (mem_kept.mpr hsome)
    by_cases ha : e ∈ current.added
    · rw [if_pos (List.mem_append_right _ (List.mem_filter.mpr ⟨ha, decide_eq_true hk⟩)), if_neg hk, hnone,
        if_pos ha]
      rfl
    · rw [if_neg (by simp [hk, ha]), hnone, if_neg ha]
      rfl

end NMesh.Boot.Updating
