import Mathlib.Algebra.Order.Field.Rat
import Mathlib.Data.List.Induction
import Mathlib.Data.List.Rotate
import Mathlib.Data.List.TakeWhile
import Mathlib.Tactic.Linarith
import NMesh.Base.Ordered
import NMesh.Base.Runs

/-! # The links that carry one node's traffic together

A bundle is handed the candidates of a pass and keeps the keys it chose: links whose round trips lie
within one skew of each other, each measured and below the share of losses it is judged by. A link that
loses too much is benched, and comes back only below half the share that benched it. The bench is kept
from pass to pass (`sift`), and a link no longer offered is forgotten (`forget`).

Which links are benched after any sequence of passes is told by what was offered alone
(`benched_iff`); `update_members` says what the members of a pass are, and `turns_fair` that packets go to
each in turn. -/

namespace NMesh.Link.Members

open Base.Ordered Base.Runs

def minProbes : ℤ := 8

/-- **`MLOSettings`** -/
structure MLOSettings where
  skewMs : ℚ
  dropPercent : ℚ
  maxMembers : ℤ

def MLOSettings.dropShare (s : MLOSettings) : ℚ := max 0 (min 1 (s.dropPercent / 100))

/-- `recover_share`, `RECOVER_SHARE` being one half. -/
def MLOSettings.recoverShare (s : MLOSettings) : ℚ := s.dropShare * (1 / 2)

theorem MLOSettings.recoverShare_le (s : MLOSettings) : s.recoverShare ≤ s.dropShare := by
  have h : 0 ≤ s.dropShare := le_max_left _ _
  unfold recoverShare
  linarith

/-- **`Candidate`**: one link offering itself, as the bundle sees it. -/
structure Candidate (κ : Type) where
  key : κ
  meanMs : Option ℚ
  drop : Option ℚ
  probes : ℤ

section

variable {κ : Type}

def Candidate.measured (c : Candidate κ) : Bool :=
  c.meanMs.isSome && c.drop.isSome && decide (minProbes ≤ c.probes)

/-- The round trip and the share of losses of a measured candidate. -/
def Candidate.figures (c : Candidate κ) : Option (ℚ × ℚ) :=
  if c.measured then
    c.meanMs.bind fun mean => c.drop.map fun drop => (mean, drop)
  else none

variable {c : Candidate κ}

theorem figures_eq_some {mean drop : ℚ} :
    c.figures = some (mean, drop) ↔ c.measured = true ∧ c.meanMs = some mean ∧ c.drop = some drop := by
  unfold Candidate.figures
  by_cases h : c.measured = true
  · rw [if_pos h]
    constructor
    · intro heq
      obtain ⟨m, hm, hd⟩ := Option.bind_eq_some_iff.mp heq
      obtain ⟨d, hdrop, hpair⟩ := Option.map_eq_some_iff.mp hd
      cases hpair
      exact ⟨h, hm, hdrop⟩
    · rintro ⟨-, hm, hd⟩
      rw [hm, hd]
      rfl
  · rw [if_neg h]
    simp [h]

/-- **`Bundle`**: the members, fastest first, and the keys held out for losing too much. -/
structure Bundle (κ : Type) where
  settings : MLOSettings
  keys : List κ
  benched : Dict κ Bool
  skewMs : ℚ
  apartMs : Option ℚ
  turn : ℕ

def Bundle.new (s : MLOSettings) : Bundle κ :=
  { settings := s, keys := [], benched := Dict.empty, skewMs := 0, apartMs := none, turn := 0 }

/-- The members among the eligible, sorted by round trip: from the fastest on, while the next is within
the skew of it. -/
def choose (skew : ℚ) : List (κ × ℚ) → List (κ × ℚ)
  | [] => []
  | lead :: rest => lead :: rest.takeWhile fun e => !decide (skew < e.2 - lead.2)

/-- `next_key`: whose turn it is. -/
def Bundle.nextKey (b : Bundle κ) : Option κ × Bundle κ :=
  if b.keys.length < 2 then (none, b)
  else (b.keys[(b.turn + 1) % b.keys.length]?, { b with turn := b.turn + 1 })

variable [DecidableEq κ]

def held (b : Dict κ Bool) (k : κ) : Bool := (b.get? k).isSome

/-- The bar a link is judged by: a lower one when it is benched. -/
def bar (s : MLOSettings) (benched : Bool) : ℚ := if benched then s.recoverShare else s.dropShare

/-- A key that is no longer offered is a link that has gone. -/
def forget (b : Dict κ Bool) (candidates : List (Candidate κ)) : Dict κ Bool :=
  b.filterKeys fun k => decide (k ∈ candidates.map Candidate.key)

/-- The loop of `update`: the bench after it, and the eligible with their round trips. -/
def sift (s : MLOSettings) : List (Candidate κ) → Dict κ Bool → Dict κ Bool × List (κ × ℚ)
  | [], b => (b, [])
  | c :: cs, b =>
    match c.figures with
    | none => sift s cs b
    | some (mean, drop) =>
      if bar s (held b c.key) ≤ drop then sift s cs (b.set c.key true)
      else ((sift s cs (b.pop c.key)).1, (c.key, mean) :: (sift s cs (b.pop c.key)).2)

/-- The eligible by their round trip, those with equal ones as they were offered. -/
def byMean (eligible : List (κ × ℚ)) : List (κ × ℚ) :=
  eligible.mergeSort fun a b => decide (a.2 ≤ b.2)

def chosen (s : MLOSettings) (eligible : List (κ × ℚ)) : List (κ × ℚ) :=
  choose s.skewMs ((byMean eligible).take (max 1 s.maxMembers).toNat)

def apart : List (κ × ℚ) → Option ℚ
  | lead :: second :: _ => some (second.2 - lead.2)
  | _ => none

/-- How far apart the members measure: the mean of what the others lie behind the fastest. -/
def skewOf : List (κ × ℚ) → ℚ
  | [] => 0
  | lead :: rest => (rest.map fun e => e.2 - lead.2).sum / rest.length

/-- **`update`**: choose the members from this pass's candidates. -/
def Bundle.update (b : Bundle κ) (candidates : List (Candidate κ)) : Bundle κ :=
  let sifted := sift b.settings candidates (forget b.benched candidates)
  let members := chosen b.settings sifted.2
  if members.length < 2 then
    { b with benched := sifted.1, keys := [], skewMs := 0, apartMs := apart (byMean sifted.2) }
  else
    { b with benched := sifted.1, keys := members.map Prod.fst, skewMs := skewOf members, apartMs := none }

def runUpdates (s : MLOSettings) (passes : List (List (Candidate κ))) : Bundle κ :=
  passes.foldl Bundle.update (Bundle.new s)

/-! ### The bench after one pass -/

/-- What becomes of a link that is offered: benched or not after the pass. -/
def outcome (s : MLOSettings) (benched : Bool) (c : Candidate κ) : Bool :=
  c.figures.elim benched fun e => decide (bar s benched ≤ e.2)

/-- What a pass does first: judge one candidate, and note it if it is below its bar. -/
theorem sift_cons (s : MLOSettings) (c : Candidate κ) (cs : List (Candidate κ)) (b : Dict κ Bool) :
    ∃ b', (∀ k, k ≠ c.key → held b' k = held b k) ∧ held b' c.key = outcome s (held b c.key) c ∧
      (sift s (c :: cs) b).1 = (sift s cs b').1 ∧
      (∀ e, e ∈ (sift s (c :: cs) b).2 ↔ (c.key = e.1 ∧ ∃ drop, c.figures = some (e.2, drop) ∧
        drop < bar s (held b c.key)) ∨ e ∈ (sift s cs b').2) ∧
      ((sift s (c :: cs) b).2 = (sift s cs b').2 ∨
        ∃ mean, (sift s (c :: cs) b).2 = (c.key, mean) :: (sift s cs b').2) := by
  unfold outcome
  rw [sift]
  rcases hfig : c.figures with _ | ⟨mean, drop⟩
  · exact ⟨b, fun _ _ => rfl, rfl, rfl, by simp, Or.inl rfl⟩
  dsimp only [Option.elim]
  split_ifs with hbar
  · refine ⟨b.set c.key true, fun k hk => ?_, ?_, rfl, fun e => ?_, Or.inl rfl⟩
    · rw [held, held, Dict.get?_set_of_ne b hk.symm]
    · rw [decide_eq_true hbar, held, Dict.get?_set_self]
      rfl
    · refine (or_iff_right ?_).symm
      rintro ⟨-, d, hd, hlt⟩
      obtain ⟨-, rfl⟩ := Prod.mk.inj (Option.some.inj hd)
      exact hlt.not_ge hbar
  · refine ⟨b.pop c.key, fun k hk => ?_, ?_, rfl, fun e => ?_, Or.inr ⟨mean, rfl⟩⟩
    · rw [held, held, Dict.get?_pop_of_ne b hk]
    · rw [decide_eq_false hbar, held, Dict.get?_pop_self]
      rfl
    · rw [List.mem_cons]
      refine or_congr_left ⟨?_, ?_⟩
      · rintro rfl
        exact ⟨rfl, drop, rfl, not_le.mp hbar⟩
      · rintro ⟨hkey, d, hd, -⟩
        exact Prod.ext hkey.symm (Prod.mk.inj (Option.some.inj hd)).1.symm

/-- **One pass over distinct candidates**: a link that is offered is judged by the bar of the bench
before the pass, no other link changes, and the eligible are the measured ones below their bar. -/
theorem sift_spec (s : MLOSettings) : ∀ {cs : List (Candidate κ)} {b : Dict κ Bool},
    (cs.map Candidate.key).Nodup →
    (∀ k, k ∉ cs.map Candidate.key → held (sift s cs b).1 k = held b k) ∧
    (∀ c ∈ cs, held (sift s cs b).1 c.key = outcome s (held b c.key) c) ∧
    (∀ e, e ∈ (sift s cs b).2 ↔ ∃ c ∈ cs, c.key = e.1 ∧ ∃ drop, c.figures = some (e.2, drop) ∧
      drop < bar s (held b c.key)) ∧
    ((sift s cs b).2.map Prod.fst).Sublist (cs.map Candidate.key)
  | [], b, _ => ⟨fun _ _ => rfl, by simp, by simp [sift], List.Sublist.slnil⟩
  | c :: cs, b, hn => by
    obtain ⟨hout, hn⟩ := List.nodup_cons.mp hn
    obtain ⟨b', hne, hat, hbench, hnoted, hkeys⟩ := sift_cons s c cs b
    obtain ⟨hrest, hall, hel, hsub⟩ := sift_spec s (b := b') hn
    have hother : ∀ c' ∈ cs, held b' c'.key = held b c'.key := fun c' hc' =>
      hne c'.key fun heq => hout (heq ▸ List.mem_map_of_mem hc')
    rw [hbench]
    refine ⟨fun k hk => ?_, fun c' hc' => ?_, fun e => ?_, ?_⟩
    · rw [List.map_cons, List.mem_cons, not_or] at hk
      rw [hrest k hk.2, hne k hk.1]
    · rcases List.mem_cons.mp hc' with rfl | hc'
      · rw [hrest _ hout, hat]
      · rw [hall c' hc', hother c' hc']
    · rw [hnoted e, hel e, List.exists_mem_cons_iff]
      refine or_congr_right (exists_congr fun c' => and_congr_right fun hc' => ?_)
      rw [hother c' hc']
    · rcases hkeys with hkeys | ⟨mean, hkeys⟩ <;> rw [hkeys]
      · exact hsub.cons _
      · exact hsub.cons_cons _

theorem held_forget (b : Dict κ Bool) (cs : List (Candidate κ)) (k : κ) :
    held (forget b cs) k = (held b k && decide (k ∈ cs.map Candidate.key)) := by
  unfold held forget
  rw [Dict.get?_filterKeys]
  by_cases hk : k ∈ cs.map Candidate.key
  · simp [hk]
  · simp [hk]

theorem update_benched (b : Bundle κ) (cs : List (Candidate κ)) :
    (b.update cs).benched = (sift b.settings cs (forget b.benched cs)).1 := by
  unfold Bundle.update
  by_cases h : (chosen b.settings (sift b.settings cs (forget b.benched cs)).2).length < 2
  · simp only [if_pos h]
  · simp only [if_neg h]

theorem update_settings (b : Bundle κ) (cs : List (Candidate κ)) :
    (b.update cs).settings = b.settings := by
  unfold Bundle.update
  by_cases h : (chosen b.settings (sift b.settings cs (forget b.benched cs)).2).length < 2
  · simp only [if_pos h]
  · simp only [if_neg h]

variable {cs : List (Candidate κ)}

theorem held_update {b : Bundle κ} (hn : (cs.map Candidate.key).Nodup)
 (hc : c ∈ cs) : held (b.update cs).benched c.key = outcome b.settings (held b.benched c.key) c := by
  have hin : decide (c.key ∈ cs.map Candidate.key) = true := decide_eq_true (List.mem_map_of_mem hc)
  rw [update_benched, (sift_spec b.settings hn).2.1 c hc, held_forget, hin, Bool.and_true]

theorem held_update_of_notMem {b : Bundle κ}
    (hn : (cs.map Candidate.key).Nodup) {k : κ} (hk : k ∉ cs.map Candidate.key) :
    held (b.update cs).benched k = false := by
  rw [update_benched, (sift_spec b.settings hn).1 k hk, held_forget, decide_eq_false hk, Bool.and_false]

/-! ### The members of one pass -/

omit [DecidableEq κ] in
theorem choose_sublist (skew : ℚ) : ∀ l : List (κ × ℚ), (choose skew l).Sublist l
  | [] => List.Sublist.slnil
  | _ :: _ => (List.takeWhile_sublist _).cons_cons _

omit [DecidableEq κ] in
theorem chosen_within {s : MLOSettings} {eligible : List (κ × ℚ)}
    (h2 : 2 ≤ (chosen s eligible).length) {e e' : κ × ℚ} (he : e ∈ chosen s eligible)
    (he' : e' ∈ eligible) : e.2 - e'.2 ≤ s.skewMs := by
  have hsorted : (byMean eligible).Pairwise fun a b => a.2 ≤ b.2 := by
    refine (List.pairwise_mergeSort ?_ ?_ eligible).imp fun hab => of_decide_eq_true hab
    · intro a b c hab hbc
      exact decide_eq_true ((of_decide_eq_true hab).trans (of_decide_eq_true hbc))
    · intro a b
      rcases le_total a.2 b.2 with hab | hab
      · simp [hab]
      · simp [hab]
  have hmem : e' ∈ byMean eligible := List.mem_mergeSort.mpr he'
  unfold chosen at h2 he
  rcases hl : byMean eligible with _ | ⟨lead, l⟩
  · rw [hl] at hmem
    exact absurd hmem List.not_mem_nil
  · obtain ⟨n, hn⟩ : ∃ n, (max 1 s.maxMembers).toNat = n + 1 := ⟨(max 1 s.maxMembers).toNat - 1, by omega⟩
    rw [hl, hn, List.take_succ_cons] at h2 he
    rw [hl] at hsorted hmem
    have hfast : lead.2 ≤ e'.2 := by
      rcases List.mem_cons.mp hmem with rfl | hin
      · exact le_rfl
      · exact List.rel_of_pairwise_cons hsorted hin
    have hwithin : ∀ e ∈ (l.take n).takeWhile (fun e => !decide (s.skewMs < e.2 - lead.2)),
        e.2 - lead.2 ≤ s.skewMs := by
      intro e hin
      have hnot : (!decide (s.skewMs < e.2 - lead.2)) = true :=
        List.mem_takeWhile_imp (p := fun e : κ × ℚ => !decide (s.skewMs < e.2 - lead.2)) hin
      rw [Bool.not_eq_true', decide_eq_false_iff_not] at hnot
      exact not_lt.mp hnot
    have hlead : 0 ≤ s.skewMs := by
      -- there is a second member, and it is no faster
      have hpos : 0 < ((l.take n).takeWhile fun e => !decide (s.skewMs < e.2 - lead.2)).length := by
        simp only [choose, List.length_cons] at h2
        omega
      obtain ⟨second, hin⟩ := List.exists_mem_of_length_pos hpos
      have hslow : lead.2 ≤ second.2 := List.rel_of_pairwise_cons hsorted
        (List.mem_of_mem_take ((List.takeWhile_sublist _).subset hin))
      linarith [hwithin second hin]
    rcases List.mem_cons.mp he with rfl | hin
    · linarith
    · linarith [hwithin e hin]

omit [DecidableEq κ] in
theorem chosen_length_le (s : MLOSettings) (eligible : List (κ × ℚ)) :
    (chosen s eligible).length ≤ (max 1 s.maxMembers).toNat :=
  (choose_sublist _ _).length_le.trans (List.length_take_le _ _)

omit [DecidableEq κ] in
theorem chosen_subset {s : MLOSettings} {eligible : List (κ × ℚ)} {e : κ × ℚ}
    (he : e ∈ chosen s eligible) : e ∈ eligible :=
  List.mem_mergeSort.mp (List.mem_of_mem_take ((choose_sublist _ _).subset he))

theorem update_keys (b : Bundle κ) (cs : List (Candidate κ)) :
    (b.update cs).keys = [] ∨
      2 ≤ (chosen b.settings (sift b.settings cs (forget b.benched cs)).2).length ∧
        (b.update cs).keys =
          (chosen b.settings (sift b.settings cs (forget b.benched cs)).2).map Prod.fst := by
  unfold Bundle.update
  by_cases h : (chosen b.settings (sift b.settings cs (forget b.benched cs)).2).length < 2
  · simp only [if_pos h]
    exact Or.inl trivial
  · simp only [if_neg h]
    exact Or.inr ⟨not_lt.mp h, trivial⟩

/-- **The members of a pass**, `b` being the bundle before it. -/
structure Choice (b : Bundle κ) (cs : List (Candidate κ)) (keys : List κ) : Prop where
  number : keys = [] ∨ 2 ≤ keys.length ∧ (keys.length : ℤ) ≤ b.settings.maxMembers
  nodup : keys.Nodup
  measured : ∀ k ∈ keys, ∃ c ∈ cs, c.key = k ∧ c.measured = true ∧ ∃ mean drop, c.meanMs = some mean ∧
    c.drop = some drop ∧ drop < bar b.settings (held b.benched k) ∧
    ∀ c' ∈ cs, c'.measured = true → ∀ mean' drop', c'.meanMs = some mean' → c'.drop = some drop' →
      drop' < bar b.settings (held b.benched c'.key) → mean - mean' ≤ b.settings.skewMs

theorem update_members (b : Bundle κ) (hn : (cs.map Candidate.key).Nodup) : Choice b cs (b.update cs).keys := by
  obtain ⟨-, -, hel, hsub⟩ := sift_spec b.settings hn (b := forget b.benched cs)
  have hbar : ∀ c ∈ cs, held (forget b.benched cs) c.key = held b.benched c.key := fun c hc => by
    rw [held_forget, decide_eq_true (List.mem_map_of_mem hc), Bool.and_true]
  rcases update_keys b cs with hnil | ⟨h2, hkeys⟩
  · rw [hnil]
    exact ⟨Or.inl rfl, List.nodup_nil, fun k hk => absurd hk List.not_mem_nil⟩
  · rw [hkeys]
    refine ⟨Or.inr ⟨?_, ?_⟩, ?_, ?_⟩
    · rw [List.length_map]
      exact h2
    · have := chosen_length_le b.settings (sift b.settings cs (forget b.benched cs)).2
      rw [List.length_map]
      omega
    · have hdistinct : ((sift b.settings cs (forget b.benched cs)).2.map Prod.fst).Nodup := hn.sublist hsub
      have hperm := (List.mergeSort_perm (sift b.settings cs (forget b.benched cs)).2
        fun a b => decide (a.2 ≤ b.2)).map Prod.fst
      exact (hperm.nodup_iff.mpr hdistinct).sublist
        (((choose_sublist _ _).trans (List.take_sublist _ _)).map Prod.fst)
    · intro k hk
      obtain ⟨e, he, rfl⟩ := List.mem_map.mp hk
      obtain ⟨c, hc, hkey, drop, hfig, hlt⟩ := (hel e).mp (chosen_subset he)
      obtain ⟨hmeasured, hmean, hdrop⟩ := figures_eq_some.mp hfig
      rw [hbar c hc, hkey] at hlt
      refine ⟨c, hc, hkey, hmeasured, e.2, drop, hmean, hdrop, hlt, ?_⟩
      intro c' hc' hmeasured' mean' drop' hmean' hdrop' hlt'
      refine chosen_within h2 he ((hel (c'.key, mean')).mpr ⟨c', hc', rfl, drop', ?_, ?_⟩)
      · exact figures_eq_some.mpr ⟨hmeasured', hmean', hdrop'⟩
      · rw [hbar c' hc']
        exact hlt'

/-! ### The bench over a run -/

def Drops (s : MLOSettings) (cs : List (Candidate κ)) (k : κ) : Prop :=
  ∃ c ∈ cs, c.key = k ∧ c.measured = true ∧ ∃ drop, c.drop = some drop ∧ s.dropShare ≤ drop

/-- The link is offered in this pass, and not as one that is measured below half the drop share. -/
def Lingers (s : MLOSettings) (cs : List (Candidate κ)) (k : κ) : Prop :=
  ∃ c ∈ cs, c.key = k ∧ ¬ (c.measured = true ∧ ∃ drop, c.drop = some drop ∧ drop < s.recoverShare)

omit [DecidableEq κ] in
theorem figures_of_measured (h : c.measured = true) :
    ∃ mean drop, c.meanMs = some mean ∧ c.drop = some drop ∧ c.figures = some (mean, drop) := by
  have h' := h
  unfold Candidate.measured at h'
  rw [Bool.and_eq_true, Bool.and_eq_true, Option.isSome_iff_exists, Option.isSome_iff_exists] at h'
  obtain ⟨⟨⟨mean, hmean⟩, drop, hdrop⟩, -⟩ := h'
  exact ⟨mean, drop, hmean, hdrop, figures_eq_some.mpr ⟨h, hmean, hdrop⟩⟩

omit [DecidableEq κ] in
theorem eq_of_key (hn : (cs.map Candidate.key).Nodup) {c' : Candidate κ}
    (hc : c ∈ cs) (hc' : c' ∈ cs) (h : c.key = c'.key) : c = c' :=
  List.inj_on_of_nodup_map hn hc hc' h

/-- **One pass**: benched after it are the links that drop too much in it, and those benched before
that do not recover in it. -/
theorem held_update_iff {b : Bundle κ} (hn : (cs.map Candidate.key).Nodup)
    (k : κ) : held (b.update cs).benched k = true ↔
      Drops b.settings cs k ∨ held b.benched k = true ∧ Lingers b.settings cs k := by
  by_cases hk : k ∈ cs.map Candidate.key
  · obtain ⟨c, hc, rfl⟩ := List.mem_map.mp hk
    rw [held_update hn hc]
    have honly : ∀ c' ∈ cs, c'.key = c.key → c' = c := fun c' hc' h => eq_of_key hn hc' hc h
    by_cases hm : c.measured = true
    · obtain ⟨mean, drop, -, hdrop, hfig⟩ := figures_of_measured hm
      have hdrops : Drops b.settings cs c.key ↔ b.settings.dropShare ≤ drop := by
        constructor
        · rintro ⟨c', hc', hkey, -, drop', hdrop', hle⟩
          rw [honly c' hc' hkey, hdrop] at hdrop'
          rwa [Option.some.inj hdrop']
        · exact fun hle => ⟨c, hc, rfl, hm, drop, hdrop, hle⟩
      have hlingers : Lingers b.settings cs c.key ↔ b.settings.recoverShare ≤ drop := by
        constructor
        · rintro ⟨c', hc', hkey, hnot⟩
          rw [honly c' hc' hkey] at hnot
          by_contra hlt
          exact hnot ⟨hm, drop, hdrop, not_le.mp hlt⟩
        · intro hle
          refine ⟨c, hc, rfl, ?_⟩
          rintro ⟨-, drop', hdrop', hlt⟩
          rw [hdrop] at hdrop'
          rw [← Option.some.inj hdrop'] at hlt
          exact absurd hle (not_le.mpr hlt)
      rw [hdrops, hlingers, outcome, hfig, Option.elim_some, decide_eq_true_eq]
      have hhalf := b.settings.recoverShare_le
      by_cases hheld : held b.benched c.key = true
      · rw [hheld, bar, if_pos rfl]
        constructor
        · exact fun hle => Or.inr ⟨rfl, hle⟩
        · rintro (hle | ⟨-, hle⟩)
          · exact hhalf.trans hle
          · exact hle
      · rw [Bool.not_eq_true _ |>.mp hheld, bar, if_neg Bool.false_ne_true]
        simp
    · have hfig : c.figures = none := if_neg hm
      have hdrops : ¬ Drops b.settings cs c.key := by
        rintro ⟨c', hc', hkey, hm', -⟩
        exact hm (honly c' hc' hkey ▸ hm')
      have hlingers : Lingers b.settings cs c.key := ⟨c, hc, rfl, fun h => hm h.1⟩
      rw [outcome, hfig, Option.elim_none]
      simp [hdrops, hlingers]
  · rw [held_update_of_notMem hn hk]
    have hdrops : ¬ Drops b.settings cs k := by
      rintro ⟨c, hc, rfl, -⟩
      exact hk (List.mem_map_of_mem hc)
    have hlingers : ¬ Lingers b.settings cs k := by
      rintro ⟨c, hc, rfl, -⟩
      exact hk (List.mem_map_of_mem hc)
    simp [hdrops, hlingers]

theorem runUpdates_concat (s : MLOSettings) (passes : List (List (Candidate κ)))
    (cs : List (Candidate κ)) : runUpdates s (passes ++ [cs]) = (runUpdates s passes).update cs := by
  simp [runUpdates]

theorem runUpdates_settings (s : MLOSettings) (passes : List (List (Candidate κ))) :
    (runUpdates s passes).settings = s := by
  induction passes using List.reverseRecOn with
  | nil => rfl
  | append_singleton passes cs ih => rw [runUpdates_concat, update_settings, ih]

/-- **Which links are benched after a run**: those that in some pass lost at least the drop share, and
in every pass since were offered without being measured below half of it. -/
theorem benched_iff (s : MLOSettings) {passes : List (List (Candidate κ))}
    (hn : ∀ cs ∈ passes, (cs.map Candidate.key).Nodup) (k : κ) :
    held (runUpdates s passes).benched k = true ↔
      ∃ before cs after, passes = before ++ cs :: after ∧ Drops s cs k ∧ ∀ w ∈ after, Lingers s w k := by
  induction passes using List.reverseRecOn with
  | nil =>
    constructor
    · intro h
      cases h
    · rintro ⟨before, cs, after, h, -⟩
      simp at h
  | append_singleton passes last ih =>
    have ih := ih fun cs hcs => hn cs (List.mem_append_left _ hcs)
    rw [runUpdates_concat, held_update_iff (hn last (by simp)), runUpdates_settings, ih]
    constructor
    · rintro (hdrop | ⟨⟨before, cs, after, rfl, hdrop, hafter⟩, hlast⟩)
      · exact ⟨passes, last, [], rfl, hdrop, fun w hw => absurd hw List.not_mem_nil⟩
      · refine ⟨before, cs, after ++ [last], by simp, hdrop, fun w hw => ?_⟩
        rcases List.mem_append.mp hw with hw | hw
        · exact hafter w hw
        · rw [List.mem_singleton.mp hw]
          exact hlast
    · rintro ⟨before, cs, after, heq, hdrop, hafter⟩
      rcases List.eq_nil_or_concat after with rfl | ⟨after, w, rfl⟩
      · obtain ⟨-, hcs⟩ := List.append_inj' heq rfl
        rw [List.singleton_inj.mp hcs]
        exact Or.inl hdrop
      · rw [List.concat_eq_append] at heq hafter
        have heq' : passes ++ [last] = (before ++ cs :: after) ++ [w] := by rw [heq]; simp
        obtain ⟨rfl, hw⟩ := List.append_inj' heq' rfl
        rw [List.singleton_inj.mp hw]
        exact Or.inr ⟨⟨before, cs, after, rfl, hdrop, fun w' hw' => hafter w' (List.mem_append_left _ hw')⟩,
          hafter w (List.mem_append_right _ (List.mem_singleton.mpr rfl))⟩

/-- **Membership and hysteresis.** After any passes over distinct candidates, one more chooses no
members or between two and `maxMembers` of those it is offered, each measured, below the bar its history
sets and within the skew of the fastest; a benched link is one that lost the drop share and has since
been offered without recovering, so that it comes back only below half that share; no member is benched,
and a link that is not offered is forgotten. -/
theorem membership_and_hysteresis (s : MLOSettings) (passes : List (List (Candidate κ)))
    (cs : List (Candidate κ)) (hpasses : ∀ cs ∈ passes, (cs.map Candidate.key).Nodup)
    (hcs : (cs.map Candidate.key).Nodup) :
    Choice (runUpdates s passes) cs ((runUpdates s passes).update cs).keys ∧
    (∀ k ∈ ((runUpdates s passes).update cs).keys, held (runUpdates s passes).benched k = true →
      ∃ c ∈ cs, c.key = k ∧ c.measured = true ∧ ∃ drop, c.drop = some drop ∧ drop < s.recoverShare) ∧
    (∀ k, held ((runUpdates s passes).update cs).benched k = true ↔
      ∃ before u after, passes ++ [cs] = before ++ u :: after ∧ Drops s u k ∧
        ∀ w ∈ after, Lingers s w k) ∧
    (∀ k ∈ ((runUpdates s passes).update cs).keys,
      held ((runUpdates s passes).update cs).benched k = false) ∧
    ∀ k, k ∉ cs.map Candidate.key →
      held ((runUpdates s passes).update cs).benched k = false ∧
        k ∉ ((runUpdates s passes).update cs).keys := by
  have hmembers := update_members (runUpdates s passes) hcs
  have hsettings := runUpdates_settings s passes
  refine ⟨hmembers, ?_, fun k => ?_, ?_, fun k hk => ⟨held_update_of_notMem hcs hk, fun hin => ?_⟩⟩
  · intro k hk hheld
    obtain ⟨c, hc, hkey, hm, mean, drop, -, hdrop, hlt, -⟩ := hmembers.measured k hk
    rw [hheld, hsettings] at hlt
    exact ⟨c, hc, hkey, hm, drop, hdrop, hlt⟩
  · rw [← runUpdates_concat]
    refine benched_iff s (fun w hw => ?_) k
    rcases List.mem_append.mp hw with hw | hw
    · exact hpasses w hw
    · rw [List.mem_singleton.mp hw]
      exact hcs
  · intro k hk
    obtain ⟨c, hc, rfl, hm, mean, drop, hmean, hdrop, hlt, -⟩ := hmembers.measured k hk
    rw [held_update hcs hc, outcome, figures_eq_some.mpr ⟨hm, hmean, hdrop⟩]
    exact decide_eq_false (not_le.mpr hlt)
  · obtain ⟨c, hc, rfl, -⟩ := hmembers.measured k hin
    exact hk (List.mem_map_of_mem hc)

theorem lingering_link :
    held ((runUpdates ⟨30, 10, 2⟩ [[⟨1, some 20, some (1 / 5), 50⟩, ⟨2, some 25, some 0, 50⟩]]).update
      [⟨1, some 20, some (7 / 100), 50⟩, ⟨2, some 25, some 0, 50⟩]).benched 1 = true :=
  ((membership_and_hysteresis ⟨30, 10, 2⟩ [[⟨1, some 20, some (1 / 5), 50⟩, ⟨2, some 25, some 0, 50⟩]]
    [⟨1, some 20, some (7 / 100), 50⟩, ⟨2, some 25, some 0, 50⟩]
    (fun cs h => by rw [List.mem_singleton.mp h]; decide) (by decide)).2.2.1 1).mpr
    ⟨[], _, [_], rfl, ⟨_, List.mem_cons_self, rfl, by decide, _, rfl, by norm_num [MLOSettings.dropShare]⟩,
      fun w h => by
        rw [List.mem_singleton.mp h]
        refine ⟨_, List.mem_cons_self, rfl, fun hc => ?_⟩
        obtain ⟨drop, hdrop, hlt⟩ := hc.2
        rw [← Option.some.inj hdrop] at hlt
        norm_num [MLOSettings.recoverShare, MLOSettings.dropShare] at hlt⟩

/-! ### Turns -/

/-- A pass over its candidates, or a packet that asks whose turn it is. -/
def act (b : Bundle κ) : Option (List (Candidate κ)) → Bundle κ
  | some cs => b.update cs
  | none => b.nextKey.2

/-- Whose turns the next `n` packets have. -/
def turns : ℕ → Bundle κ → List (Option κ)
  | 0, _ => []
  | n + 1, b => b.nextKey.1 :: turns n b.nextKey.2

omit [DecidableEq κ] in
theorem turns_eq {b : Bundle κ} (h : 2 ≤ b.keys.length) : ∀ n t : ℕ,
    turns n { b with turn := t } = (List.range n).map fun i => b.keys[(t + 1 + i) % b.keys.length]?
  | 0, _ => rfl
  | n + 1, t => by
    rw [turns, Bundle.nextKey, if_neg (by dsimp only; omega), List.range_succ_eq_map, List.map_cons, List.map_map]
    dsimp only
    rw [turns_eq h n (t + 1)]
    refine congrArg _ (List.map_congr_left fun i _ => ?_)
    rw [Function.comp_apply, Nat.succ_eq_add_one, Nat.add_right_comm (t + 1) 1 i, Nat.add_assoc (t + 1)]

theorem keys_act (b : Bundle κ) (a : Option (List (Candidate κ))) (h : b.keys.length ≠ 1) :
    (act b a).keys.length ≠ 1 := by
  cases a with
  | none =>
    unfold act Bundle.nextKey
    split_ifs <;> exact h
  | some cs =>
    unfold act Bundle.update
    dsimp only
    split_ifs with hfew
    · exact zero_ne_one
    · rw [List.length_map]
      omega

/-- **Every member has its turn**: whenever packets and passes have come, the next packets, as many as there are
members, go to each member once. -/
theorem turns_fair (s : MLOSettings) (acts : List (Option (List (Candidate κ)))) :
    let b := run act (Bundle.new s) acts
    (turns b.keys.length b).Perm (b.keys.map some) := by
  intro b
  have hone : b.keys.length ≠ 1 := run_induct keys_act acts zero_ne_one
  by_cases hnone : b.keys.length = 0
  · rw [hnone, List.eq_nil_of_length_eq_zero hnone]
    exact List.Perm.refl []
  have hrotated : turns b.keys.length b = (b.keys.rotate (b.turn + 1)).map some := by
    rw [turns_eq (b := b) (by omega) b.keys.length b.turn]
    refine List.ext_getElem (by simp) fun i hi hi' => ?_
    rw [List.getElem_map, List.getElem_map, List.getElem_rotate, List.getElem_range, Nat.add_comm (b.turn + 1),
      List.getElem?_eq_getElem]
  rw [hrotated]
  exact (List.rotate_perm b.keys (b.turn + 1)).map some

end

end NMesh.Link.Members
