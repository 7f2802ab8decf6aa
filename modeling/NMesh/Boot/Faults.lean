import NMesh.Boot.Updating
import Mathlib.Data.List.TakeDrop

/-! # A swap one operation of which raises

`swap` is `_swap_tree` with the one filesystem operation that raises. What raises before the new tree is
complete is undone; but the launchers are made executable outside the guarded block, and nothing guards the
undoing itself (`swap_exactly`). -/

namespace NMesh.Boot.Faults

open NMesh.Boot.Updating Updating

variable {C : Type}

/-- An operation of a swap that can raise; `undo n` is the one after `n` of the undoing. -/
inductive Op
  | makeBackup
  | move (e : Entry)
  | copy (e : Entry)
  | chmod (e : Entry)
  | undo (n : ℕ)
  | startTrial
  deriving DecidableEq

def launchers : List Entry := [.startSh, .installSh]

/-- The loop of `_swap_tree`; `left` is what a copy that raises leaves. -/
def replaceWith (source : Updating.Tree C) (fault : Option Op) (left : Option C) :
    List Entry → Swap C → Bool × Swap C
  | [], s => (true, s)
  | e :: es, s =>
    match source e with
    | none => replaceWith source fault left es s
    | some content =>
      if fault = some (.move e) ∧ (s.dir.root e).isSome then (false, s)
      else if fault = some (.copy e) then (false, (s.makeWay e).put e left)
      else replaceWith source fault left es ((s.makeWay e).put e (some content))

/-- `_restore`, stopped after `n` operations. -/
def restoreSome (n : ℕ) (s : Swap C) : Install C :=
  (s.moved.take (n - (s.moved ++ s.added).length)).foldl Install.moveBack
    (((s.moved ++ s.added).take n).foldl Install.remove s.dir)

def undo (fault : Option Op) (s : Swap C) : Install C :=
  match fault with
  | some (.undo n) => restoreSome n s
  | _ => restore s

/-- What `_swap_tree` does after its loop; `false` where it raises. -/
def afterLoop (version running : String) (fault : Option Op) (starts : Updating.Tree C → Bool)
    (out : Bool × Swap C) : Bool × Install C :=
  if out.1 = false then (false, restore out.2)
  else if ∃ e ∈ launchers, fault = some (.chmod e) ∧ (out.2.dir.root e).isSome then (false, out.2.dir)
  else if starts out.2.dir.root then
    -- a trial that cannot be written is not an error
    (true, if fault = some .startTrial then out.2.dir else startTrial out.2.dir version running out.2.added)
  else (false, undo fault out.2)

def fresh (dir : Install C) : Swap C := ⟨{ dir with backup := bare }, [], []⟩

/-- `_swap_tree`. -/
def swap (source : Updating.Tree C) (version running : String) (fault : Option Op) (left : Option C)
    (starts : Updating.Tree C → Bool) (dir : Install C) : Bool × Install C :=
  if fault = some .makeBackup then (false, { dir with backup := bare })
  else afterLoop version running fault starts (replaceWith source fault left replaceEntries (fresh dir))

/-- **A swap that raises leaves the tree it found, and one that returns has replaced it**, the previous version
in the backup. -/
def Meets (source : Updating.Tree C) (dir : Install C) (out : Bool × Install C) : Prop :=
  (out.1 = false → out.2.root = dir.root) ∧
    (out.1 = true → ∀ e, (source e).isSome → out.2.root e = source e ∧ out.2.backup e = dir.root e)

def installed (source root : Updating.Tree C) : Updating.Tree C := fun e => (source e).or (root e)

def replacing (source root : Updating.Tree C) : List Entry :=
  replaceEntries.filter fun e => (source e).isSome && (root e).isSome

def adding (source root : Updating.Tree C) : List Entry :=
  replaceEntries.filter fun e => (source e).isSome && (root e).isNone

/-- **What must not raise**: making a launcher that is there executable, and an operation of the undoing; unless
there is nothing to undo, the source being what is installed. -/
def Unharmed (source : Updating.Tree C) (fault : Option Op) (starts : Updating.Tree C → Bool)
    (root : Updating.Tree C) : Prop :=
  (∀ e ∈ launchers, fault = some (.chmod e) → (installed source root e).isSome → installed source root = root) ∧
    ∀ n, fault = some (.undo n) → starts (installed source root) = false →
      n < 2 * (replacing source root).length + (adding source root).length →
      n = 0 ∧ installed source root = root

/-! ### The loop -/

variable {source : Updating.Tree C} {fault : Option Op} {left : Option C} {old : Updating.Tree C} {dir : Install C}
  {starts : Updating.Tree C → Bool} {version running : String}

theorem replaceWith_tracks : ∀ {es : List Entry} {s : Swap C}, es.Nodup → (∀ e ∈ es, e ∉ s.moved ∧ e ∉ s.added) →
    Tracks old s → Tracks old (replaceWith source fault left es s).2
  | [], _, _, _, h => h
  | e :: es, s, hn, hout, h => by
    obtain ⟨hnot, hn⟩ := List.nodup_cons.mp hn
    obtain ⟨hm, ha⟩ := hout e List.mem_cons_self
    have hrest := fun e' he' => hout e' (List.mem_cons_of_mem e he')
    rw [replaceWith]
    cases source e with
    | none => exact replaceWith_tracks hn hrest h
    | some content =>
      dsimp only
      split_ifs
      · exact h
      · exact makeWay_tracks h hm ha left
      · refine replaceWith_tracks hn (fun e' he' => ?_) (makeWay_tracks h hm ha _)
        have hne : e' ≠ e := fun he => hnot (he ▸ he')
        exact ⟨fun hmem => (hrest e' he').1 ((mem_makeWay hne).1 hmem),
          fun hmem => (hrest e' he').2 ((mem_makeWay hne).2 hmem)⟩

theorem replaceWith_spec : ∀ {es : List Entry} {s : Swap C}, es.Nodup →
    (replaceWith source fault left es s).1 = true →
    (∀ e, (replaceWith source fault left es s).2.dir.root e =
      if e ∈ es then (source e).or (s.dir.root e) else s.dir.root e) ∧
    (replaceWith source fault left es s).2.moved =
      s.moved ++ es.filter (fun e => (source e).isSome && (s.dir.root e).isSome) ∧
    (replaceWith source fault left es s).2.added =
      s.added ++ es.filter (fun e => (source e).isSome && (s.dir.root e).isNone)
  | [], s, _, _ => by simp [replaceWith]
  | e :: es, s, hn, htrue => by
    obtain ⟨hnot, hn⟩ := List.nodup_cons.mp hn
    rw [replaceWith] at htrue ⊢
    cases hsource : source e with
    | none =>
      rw [hsource] at htrue
      obtain ⟨hroot, hmoved, hadded⟩ := replaceWith_spec hn htrue
      refine ⟨fun e' => ?_, ?_, ?_⟩
      · rw [hroot]
        by_cases he : e' = e
        · subst he
          simp [hnot, hsource]
        · simp [he]
      · rw [hmoved, List.filter_cons, hsource]
        rfl
      · rw [hadded, List.filter_cons, hsource]
        rfl
    | some content =>
      rw [hsource] at htrue
      dsimp only at htrue ⊢
      split_ifs at htrue ⊢
      obtain ⟨hroot, hmoved, hadded⟩ := replaceWith_spec hn htrue
      have hsame : ∀ e' ∈ es, ((s.makeWay e).put e (some content)).dir.root e' = s.dir.root e' := by
        intro e' he'
        rw [root_makeWay, if_neg]
        rintro rfl
        exact hnot he'
      refine ⟨fun e' => ?_, ?_, ?_⟩
      · rw [hroot, root_makeWay]
        by_cases he : e' = e
        · subst he
          simp [hnot, hsource]
        · simp [he]
      · rw [hmoved, List.filter_congr fun e' he' => by rw [hsame e' he'], List.filter_cons, hsource]
        unfold Swap.makeWay Swap.put
        cases hr : s.dir.root e <;> simp
      · rw [hadded, List.filter_congr fun e' he' => by rw [hsame e' he'], List.filter_cons, hsource]
        unfold Swap.makeWay Swap.put
        cases hr : s.dir.root e <;> simp

theorem tracks_loop (source : Updating.Tree C) (fault : Option Op) (left : Option C) (dir : Install C) :
    Tracks dir.root (replaceWith source fault left replaceEntries (fresh dir)).2 := by
  refine replaceWith_tracks nodup_replaceEntries (fun e _ => ⟨List.not_mem_nil, List.not_mem_nil⟩)
    ⟨List.nodup_nil, ?_, ?_, fun e _ _ => ⟨rfl, rfl⟩⟩
  · intro e he
    cases he
  · intro e he
    cases he

theorem loop_spec (h : (replaceWith source fault left replaceEntries (fresh dir)).1 = true) :
    (replaceWith source fault left replaceEntries (fresh dir)).2.dir.root = installed source dir.root ∧
      (replaceWith source fault left replaceEntries (fresh dir)).2.moved = replacing source dir.root ∧
      (replaceWith source fault left replaceEntries (fresh dir)).2.added = adding source dir.root := by
  obtain ⟨hroot, hmoved, hadded⟩ := replaceWith_spec nodup_replaceEntries h
  refine ⟨funext fun e => ?_, hmoved, hadded⟩
  rw [hroot, if_pos (mem_replaceEntries e)]
  rfl

/-! ### The undoing -/

section Undoing

variable {s : Swap C} {n : ℕ}

theorem restoreSome_root (h : Tracks old s) (e : Entry) : (restoreSome n s).root e =
    if e ∈ s.moved.take (n - (s.moved ++ s.added).length) then s.dir.backup e
    else if e ∈ (s.moved ++ s.added).take n then none else s.dir.root e := by
  obtain ⟨hroot, hbackup, -⟩ := foldl_remove ((s.moved ++ s.added).take n) s.dir
  unfold restoreSome
  rw [(foldl_moveBack (h.nodup.sublist (List.take_sublist _ _))).1, hbackup, hroot]

theorem restoreSome_all (hle : (s.moved ++ s.added).length + s.moved.length ≤ n) : restoreSome n s = restore s := by
  unfold restoreSome restore
  rw [List.take_of_length_le (by omega), List.take_of_length_le (by omega)]

/-- **An undoing that stops leaves the tree it found only if** there is nothing to undo. -/
theorem restoreSome_iff (h : Tracks old s) (hn : (s.moved ++ s.added).Nodup)
    (hin : ∀ e ∈ s.added, (s.dir.root e).isSome) (hlt : n < (s.moved ++ s.added).length + s.moved.length) :
    (restoreSome n s).root = old ↔ n = 0 ∧ s.dir.root = old := by
  have hnot : ∀ {l : List Entry} {k : ℕ} (hk : k < l.length), l.Nodup → l[k] ∉ l.take k := by
    intro l k hk hl hmem
    rw [← List.take_append_drop k l, List.drop_eq_getElem_cons hk] at hl
    exact (List.nodup_append.mp hl).2.2 _ hmem _ List.mem_cons_self rfl
  constructor
  · intro heq
    by_cases hzero : n = 0
    · subst hzero
      have hsame : (restoreSome 0 s).root = s.dir.root := by simp [restoreSome]
      exact ⟨rfl, hsame.symm.trans heq⟩
    exfalso
    -- an entry that was moved and is removed, but not back
    have hgone : ∀ e ∈ s.moved, e ∈ (s.moved ++ s.added).take n →
        e ∉ s.moved.take (n - (s.moved ++ s.added).length) → False := by
      intro e he htake hback
      have hroot := restoreSome_root (n := n) h e
      rw [if_neg hback, if_pos htake, heq] at hroot
      have hsome := (h.moved e he).2
      rw [hroot] at hsome
      cases hsome
    rcases Nat.lt_or_ge n (s.moved ++ s.added).length with hless | hge
    · have hnone : n - (s.moved ++ s.added).length = 0 := by omega
      cases hmoved : s.moved with
      | nil =>
        -- an entry that was added and is not removed
        have hmem : (s.moved ++ s.added)[n] ∈ s.added := by
          have hin := List.getElem_mem hless
          exact (List.mem_append.mp hin).resolve_left (by simp [hmoved])
        have hroot := restoreSome_root (n := n) h (s.moved ++ s.added)[n]
        rw [hnone, List.take_zero, if_neg List.not_mem_nil, if_neg (hnot hless hn), heq] at hroot
        have hsome := hin _ hmem
        rw [← hroot, (h.added _ hmem).2] at hsome
        cases hsome
      | cons e es =>
        have hmem : e ∈ s.moved := by
          rw [hmoved]
          exact List.mem_cons_self
        refine hgone e hmem ?_ ?_
        · obtain ⟨m, rfl⟩ := Nat.exists_eq_succ_of_ne_zero hzero
          rw [hmoved, List.cons_append, List.take_succ_cons]
          exact List.mem_cons_self
        · rw [hnone, List.take_zero]
          exact List.not_mem_nil
    · have hk : n - (s.moved ++ s.added).length < s.moved.length := by omega
      refine hgone _ (List.getElem_mem hk) ?_ (hnot hk h.nodup)
      rw [List.take_of_length_le hge]
      exact List.mem_append_left _ (List.getElem_mem hk)
  · rintro ⟨rfl, heq⟩
    have hsame : (restoreSome 0 s).root = s.dir.root := by simp [restoreSome]
    exact hsame.trans heq

end Undoing

theorem raised_loop : ∀ {es : List Entry} {s : Swap C}, (replaceWith source fault left es s).1 = false →
    ∃ e, fault = some (.move e) ∨ fault = some (.copy e)
  | [], _, h => by cases h
  | e :: es, s, h => by
    rw [replaceWith] at h
    cases hsource : source e with
    | none =>
      rw [hsource] at h
      exact raised_loop h
    | some content =>
      rw [hsource] at h
      dsimp only at h
      split_ifs at h with hmove hcopy
      · exact ⟨e, Or.inl hmove.1⟩
      · exact ⟨e, Or.inr hcopy⟩
      · exact raised_loop h

theorem nodup_booked (source root : Updating.Tree C) : (replacing source root ++ adding source root).Nodup := by
  refine List.nodup_append.mpr ⟨nodup_replaceEntries.filter _, nodup_replaceEntries.filter _, ?_⟩
  rintro e he _ he' rfl
  have h1 := (List.mem_filter.mp he).2
  have h2 := (List.mem_filter.mp he').2
  cases hr : root e <;> simp [hr] at h1 h2

theorem undo_spec {s : Swap C} (h : Tracks dir.root s) (hroot : s.dir.root = installed source dir.root)
    (hmoved : s.moved = replacing source dir.root) (hadded : s.added = adding source dir.root) :
    (undo fault s).root = dir.root ↔ ∀ n, fault = some (.undo n) →
      n < 2 * (replacing source dir.root).length + (adding source dir.root).length →
      n = 0 ∧ installed source dir.root = dir.root := by
  have hrestored : (restore s).root = dir.root := (restore_spec h).1
  have hlength : (s.moved ++ s.added).length + s.moved.length =
      2 * (replacing source dir.root).length + (adding source dir.root).length := by
    rw [List.length_append, hmoved, hadded]
    omega
  have hin : ∀ e ∈ s.added, (s.dir.root e).isSome := by
    intro e he
    rw [hadded] at he
    have hsome := (List.mem_filter.mp he).2
    rw [Bool.and_eq_true] at hsome
    rw [hroot]
    show ((source e).or (dir.root e)).isSome = true
    rw [Option.isSome_or, hsome.1, Bool.true_or]
  unfold undo
  split
  · next n =>
    rcases Nat.lt_or_ge n ((s.moved ++ s.added).length + s.moved.length) with hlt | hge
    · rw [restoreSome_iff h (by rw [hmoved, hadded]; exact nodup_booked _ _) hin hlt, hroot]
      refine ⟨fun heq m hm _ => ?_, fun hall => hall n rfl (by omega)⟩
      cases hm
      exact heq
    · rw [restoreSome_all hge]
      refine ⟨fun _ m hm hlt => ?_, fun _ => hrestored⟩
      cases hm
      omega
  · next hnone => exact ⟨fun _ m hm => absurd hm (hnone m), fun _ => hrestored⟩

/-- **A swap does what it says exactly if** what it cannot undo does not raise. -/
theorem swap_exactly (source : Updating.Tree C) (version running : String) (fault : Option Op) (left : Option C)
    (starts : Updating.Tree C → Bool) (dir : Install C) :
    Meets source dir (swap source version running fault left starts dir) ↔
      Unharmed source fault starts dir.root := by
  unfold swap
  split_ifs with hbackup
  · rw [hbackup]
    exact ⟨fun _ => ⟨fun e _ h => (by cases h), fun n h => (by cases h)⟩,
      fun _ => ⟨fun _ => rfl, fun h => (by cases h)⟩⟩
  have htracks := tracks_loop source fault left dir
  have hspec := @loop_spec C source fault left dir
  have hraised := @raised_loop C source fault left replaceEntries (fresh dir)
  generalize replaceWith source fault left replaceEntries (fresh dir) = out at htracks hspec hraised ⊢
  unfold afterLoop
  by_cases hout : out.1 = false
  · -- undone in the guarded block
    rw [if_pos hout]
    obtain ⟨e, hfault⟩ := hraised hout
    refine ⟨fun _ => ⟨fun e' _ h => ?_, fun n h => ?_⟩,
      fun _ => ⟨fun _ => (restore_spec htracks).1, fun h => (by cases h)⟩⟩
    · rcases hfault with hfault | hfault <;> rw [hfault] at h <;> cases h
    · rcases hfault with hfault | hfault <;> rw [hfault] at h <;> cases h
  obtain ⟨hroot, hmoved, hadded⟩ := hspec (Bool.not_eq_false _ ▸ hout)
  rw [if_neg hout, hroot]
  by_cases hchmod : ∃ e ∈ launchers, fault = some (.chmod e) ∧ (installed source dir.root e).isSome
  · rw [if_pos hchmod]
    obtain ⟨e, he, hfault, hthere⟩ := hchmod
    refine ⟨fun h => ⟨fun e' _ _ _ => hroot ▸ h.1 rfl, fun n hn => ?_⟩,
      fun h => ⟨fun _ => ?_, fun hfalse => (by cases hfalse)⟩⟩
    · rw [hfault] at hn
      cases hn
    · exact hroot.trans (h.1 e he hfault hthere)
  rw [if_neg hchmod]
  have hquiet : ∀ e ∈ launchers, fault = some (.chmod e) → (installed source dir.root e).isSome →
      installed source dir.root = dir.root := fun e he hfault hthere => absurd ⟨e, he, hfault, hthere⟩ hchmod
  by_cases hstarts : starts (installed source dir.root) = true
  · rw [if_pos hstarts]
    refine ⟨fun _ => ⟨hquiet, fun n _ hfalse => ?_⟩, fun _ => ⟨fun h => (by cases h), fun _ e he => ?_⟩⟩
    · rw [hstarts] at hfalse
      cases hfalse
    · have hsame : (if fault = some .startTrial then out.2.dir
          else startTrial out.2.dir version running out.2.added).root e = out.2.dir.root e ∧
          (if fault = some .startTrial then out.2.dir
            else startTrial out.2.dir version running out.2.added).backup e = out.2.dir.backup e := by
        split_ifs <;> exact ⟨rfl, rfl⟩
      obtain ⟨content, hcontent⟩ := Option.isSome_iff_exists.mp he
      refine ⟨hsame.1.trans ?_, hsame.2.trans ?_⟩
      · rw [hroot]
        show (source e).or (dir.root e) = source e
        rw [hcontent]
        rfl
      · cases hold : dir.root e with
        | some old =>
          have hmem : e ∈ out.2.moved := by
            rw [hmoved]
            exact List.mem_filter.mpr ⟨mem_replaceEntries e, by rw [he, hold]; rfl⟩
          rw [(htracks.moved e hmem).1, hold]
        | none =>
          have hmem : e ∈ out.2.added := by
            rw [hadded]
            exact List.mem_filter.mpr ⟨mem_replaceEntries e, by rw [he, hold]; rfl⟩
          exact (htracks.added e hmem).1
  · rw [if_neg hstarts]
    have hundo := @undo_spec C source fault dir out.2 htracks hroot hmoved hadded
    refine ⟨fun h => ⟨hquiet, fun n hn _ => hundo.mp (h.1 rfl) n hn⟩,
      fun h => ⟨fun _ => ?_, fun hfalse => (by cases hfalse)⟩⟩
    exact hundo.mpr fun n hn => h.2 n hn (Bool.not_eq_true _ ▸ hstarts)

/-! ### A launcher that cannot be made executable -/

/-- **The new tree stays in place of the old one**, and the swap raises. -/
theorem half_replaced : ¬ Meets (fun e => if e ∈ requiredEntries then some 2 else none)
    (⟨fun e => if e ∈ requiredEntries then some 1 else none, bare, bare, none, none⟩ : Install ℕ)
    (swap (fun e => if e ∈ requiredEntries then some 2 else none) "2" "1" (some (.chmod .startSh)) none
      (fun _ => true) ⟨fun e => if e ∈ requiredEntries then some 1 else none, bare, bare, none, none⟩) := by
  intro h
  exact absurd (congrFun (h.1 (by decide)) .src) (by decide)

end NMesh.Boot.Faults
