import NMesh.Base.Runs
import NMesh.Perms.Book

/-! # Permissions that move themselves

What a run of `declare` does to what apps may do.

* `never_moves`: no run of declarations gives an app a sensitive or dangerous permission; and what an
  operator took back stays taken back, if no declaration and no forgetting drops a refusal of a normal
  permission that is on record (`Keeps`). -/

namespace NMesh.Perms.Unmoved

open Base.Utf8 Base.Ordered Base.JsonText Base.Runs Base.Chars
open NMesh.Base NMesh.Perms.Tree NMesh.Perms.Parse NMesh.Perms.Book NMesh.Perms.Book.PermissionBook
  PermissionBook

variable {φ : Type}

/-! ### What the operations do to grants -/

section Grants
variable (K : Clock φ) {b b' : PermissionBook φ}

theorem apps_save : (save K b).apps = b.apps := by
  unfold save
  split_ifs <;> rfl

theorem refusal_children {p : Text} : ∀ {names : List Text} {g : Dict Text Bool}, g.get? p = some false →
    (names.foldl (fun g child => if g.get? child = some true then g.set child false else g) g).get? p =
      some false
  | [], _, h => h
  | name :: names, g, h => by
    rw [List.foldl_cons]
    refine refusal_children ?_
    split_ifs with hname
    · rw [Dict.get?_set]
      split_ifs
      · rfl
      · exact h
    · exact h

variable {granted : Bool}

theorem grantIn_refusal {grants : Dict Text Bool} {name p : Text}
    (h : p = name ∧ granted = false ∨ p ≠ name ∧ grants.get? p = some false) :
    (grantIn grants name granted).get? p = some false := by
  have hset : (grants.set name granted).get? p = some false := by
    rw [Dict.get?_set]
    rcases h with ⟨rfl, rfl⟩ | ⟨hne, hold⟩
    · rw [if_pos rfl]
    · rw [if_neg fun heq => hne heq.symm, hold]
  unfold grantIn
  split_ifs
  · exact hset
  · exact refusal_children hset

theorem setGrant_get? {app name : Text} (h : setGrant K b app name granted = some b') :
    name ∈ b.requested app ∧ (b'.grants app = grantIn (b.grants app) name granted) ∧
      b'.manifest app = b.manifest app ∧ ∀ app' ≠ app, b'.apps.get? app' = b.apps.get? app' := by
  unfold setGrant at h
  split at h
  · cases h
  next e he =>
    split_ifs at h with hreq
    rw [← Option.some.inj h]
    refine ⟨hreq, ?_, ?_, fun app' happ => ?_⟩
    · rw [grants, apps_save, Dict.get?_set_self, grants, he]
      rfl
    · rw [manifest, apps_save, Dict.get?_set_self, manifest, he]
      rfl
    · rw [apps_save, Dict.get?_set_of_ne _ fun heq => happ heq.symm]

/-- **What `set_grant` leaves refused**: what it takes back, and every other refusal. -/
theorem setGrant_refusal {app name app' p : Text} (h : setGrant K b app name granted = some b')
    (hp : (app', p) = (app, name) ∧ granted = false ∨
      (app', p) ≠ (app, name) ∧ (b.grants app').get? p = some false) :
    (b'.grants app').get? p = some false := by
  obtain ⟨-, hgrants, -, hother⟩ := setGrant_get? K h
  by_cases happ : app' = app
  · subst happ
    rw [hgrants]
    refine grantIn_refusal ?_
    rcases hp with ⟨heq, hg⟩ | ⟨hne, hold⟩
    · exact Or.inl ⟨(Prod.mk.inj heq).2, hg⟩
    · exact Or.inr ⟨fun heq => hne (by rw [heq]), hold⟩
  · rcases hp with ⟨heq, -⟩ | ⟨-, hold⟩
    · exact absurd (Prod.mk.inj heq).1 happ
    · rw [grants, hother app' happ]
      exact hold

theorem forget_get? {app app' : Text} (h : forget K b app = some b') (hne : app' ≠ app) :
    b'.apps.get? app' = b.apps.get? app' := by
  unfold forget at h
  split_ifs at h
  rw [← Option.some.inj h, apps_save, Dict.get?_pop_of_ne _ hne]

end Grants

section Declared
variable [LinearOrder φ] (W : World) (K : Clock φ) {b b' : PermissionBook φ} {d : Declaration φ}

theorem get?_makeRoom (b : PermissionBook φ) (app : Text) :
    b.makeRoom.apps.get? app = if b.evicted = some app then none else b.apps.get? app := by
  unfold makeRoom
  rcases b.evicted with _ | gone
  · rfl
  · show (b.apps.pop gone).get? app = _
    by_cases happ : app = gone
    · rw [happ, Dict.get?_pop_self, if_pos rfl]
    · rw [Dict.get?_pop_of_ne _ happ, if_neg fun h => happ (Option.some.inj h).symm]

theorem fixed_makeRoom (b : PermissionBook φ) : b.makeRoom.fixed = b.fixed := by
  unfold makeRoom
  split <;> rfl

omit [LinearOrder φ] in
theorem get?_record (b : PermissionBook φ) (e : Entry φ) (d : Declaration φ) (m : Manifest) (app : Text) :
    (record W K b e d m).apps.get? app =
      if app = d.app then some ⟨some m, e.grants.filterKeys fun name => name ∈ m.wanted, d.source, d.now⟩
      else b.apps.get? app := by
  have happs : (record W K b e d m).apps = (b.noted e d m).apps := by
    unfold record
    split_ifs
    · exact apps_save K
    · rfl
  rw [happs, noted, Dict.get?_set]
  by_cases happ : app = d.app
  · rw [if_pos happ, if_pos happ.symm]
  · rw [if_neg happ, if_neg fun heq => happ heq.symm]

def Blocked (b : PermissionBook φ) (d : Declaration φ) : Prop := d.app ∈ b.fixed ∧ d.fixed = false

instance (b : PermissionBook φ) (d : Declaration φ) : Decidable (Blocked b d) := by
  unfold Blocked; infer_instance

theorem declare_get? (h : declare W K b d = .ok b') :
    ∃ m, isHexId d.app = true ∧ parseManifest W d.raw = .ok m ∧
      (∀ app ≠ d.app, b'.apps.get? app = b.apps.get? app ∨
        b'.apps.get? app = none ∧ b.apps.get? d.app = none ∧ b.evicted = some app) ∧
      (∀ e, b.apps.get? d.app = some e → if Blocked b d then b'.apps.get? d.app = some e else
        b'.apps.get? d.app =
          some ⟨some m, e.grants.filterKeys fun name => name ∈ m.wanted, d.source, d.now⟩) ∧
      (b.apps.get? d.app = none → b'.grants d.app = Dict.empty) := by
  unfold declare at h
  by_cases hid : isHexId d.app = true
  swap
  · rw [if_pos hid] at h
    cases h
  rw [if_neg (not_not.mpr hid)] at h
  split at h
  · cases h
  next m hm =>
    refine ⟨m, hid, hm, ?_⟩
    have hblocked : (d.app ∈ b.fixed ∧ ¬ d.fixed = true) ↔ Blocked b d := by
      rw [Blocked, Bool.not_eq_true]
    split at h
    next hnone =>
      have hother : ∀ (x : PermissionBook φ), (∀ app ≠ d.app, x.apps.get? app = b.makeRoom.apps.get? app) →
          ∀ app ≠ d.app, x.apps.get? app = b.apps.get? app ∨
            x.apps.get? app = none ∧ b.apps.get? d.app = none ∧ b.evicted = some app := by
        intro x hx app happ
        rw [hx app happ, get?_makeRoom]
        split_ifs with hgone
        · exact Or.inr ⟨rfl, hnone, hgone⟩
        · exact Or.inl rfl
      dsimp only at h
      split_ifs at h with hb
      · have hb' := Except.ok.inj h
        refine ⟨hother b' fun app happ => ?_, fun e he => (by rw [hnone] at he; cases he), fun _ => ?_⟩
        · rw [← hb']
          exact Dict.get?_set_of_ne _ (fun heq => happ heq.symm) _
        · rw [← hb', grants]
          show ((Dict.get? (Dict.set _ _ _) _).map _).getD _ = _
          rw [Dict.get?_set_self]
          rfl
      · have hb' := Except.ok.inj h
        refine ⟨hother b' fun app happ => ?_, fun e he => (by rw [hnone] at he; cases he), fun _ => ?_⟩
        · rw [← hb', get?_record, if_neg happ]
          exact Dict.get?_set_of_ne _ (fun heq => happ heq.symm) _
        · rw [← hb', grants, get?_record, if_pos rfl]
          rfl
    next e he =>
      by_cases hb : d.app ∈ b.fixed ∧ ¬ d.fixed = true
      · rw [if_pos hb] at h
        have hb' := Except.ok.inj h
        refine ⟨fun app _ => Or.inl (by rw [hb']), fun e' he' => ?_, fun hnone => ?_⟩
        · rw [if_pos (hblocked.mp hb), ← hb', he']
        · rw [hnone] at he
          cases he
      · rw [if_neg hb] at h
        have hb' := Except.ok.inj h
        refine ⟨fun app happ => Or.inl (by rw [← hb', get?_record, if_neg happ]), fun e' he' => ?_,
          fun hnone => ?_⟩
        · rw [if_neg fun hx => hb (hblocked.mpr hx), ← hb', get?_record, if_pos rfl]
          rw [he] at he'
          rw [Option.some.inj he']
        · rw [hnone] at he
          cases he

variable {app : Text}

theorem declare_grants (h : declare W K b d = .ok b') {name : Text} {v : Bool}
    (hv : (b'.grants app).get? name = some v) : (b.grants app).get? name = some v := by
  obtain ⟨m, -, -, hother, hself, hnew⟩ := declare_get? W K h
  by_cases happ : app = d.app
  · subst happ
    rcases he : b.apps.get? d.app with _ | e
    · rw [hnew he] at hv
      cases hv
    · have hcase := hself e he
      rw [grants, he]
      split_ifs at hcase with hb
      · rw [grants, hcase] at hv
        exact hv
      · rw [grants, hcase] at hv
        have hfilter : (e.grants.filterKeys fun name => name ∈ m.wanted).get? name = some v := hv
        rw [Dict.get?_filterKeys] at hfilter
        split_ifs at hfilter
        exact hfilter
  · rcases hother app happ with hsame | ⟨hgone, -⟩
    · rw [grants, hsame] at hv
      exact hv
    · rw [grants, hgone] at hv
      cases hv

theorem declare_gains (h : declare W K b d = .ok b') {name : Text} {identified : Bool}
    (hlevel : level name ≠ .normal) (hallows : b'.allows app name identified = true) :
    b.allows app name identified = true := by
  unfold allows at hallows ⊢
  by_cases hknown : known name = true
  · rw [if_neg (not_not.mpr hknown), if_neg hlevel] at hallows ⊢
    cases identified
    · cases hallows
    · rw [if_neg (by decide)] at hallows ⊢
      by_cases hself : (b'.grants app).get? name = some true
      · rw [if_pos (declare_grants W K h hself)]
      · rw [if_neg hself] at hallows
        split_ifs
        · rfl
        · rcases hup : parent name with _ | up
          · rw [hup] at hallows
            cases hallows
          · rw [hup] at hallows
            exact decide_eq_true (declare_grants W K h (of_decide_eq_true hallows))
  · rw [if_pos hknown] at hallows
    cases hallows

/-- No refusal of a normal permission is on record for the app. -/
def Clear (b : PermissionBook φ) (app : Text) : Prop :=
  ∀ p, level p = .normal → (b.grants app).get? p ≠ some false

theorem declare_refusal (h : declare W K b d = .ok b')
    (hasks : ∀ m, parseManifest W d.raw = .ok m → ¬ Blocked b d →
      ∀ p, level p = .normal → (b.grants d.app).get? p = some false → p ∈ m.wanted)
    (hroom : b.apps.get? d.app = none → ∀ gone ∈ b.evicted, Clear b gone) {p : Text}
    (hlevel : level p = .normal) (hp : (b.grants app).get? p = some false) :
    (b'.grants app).get? p = some false := by
  obtain ⟨m, -, hm, hother, hself, hnew⟩ := declare_get? W K h
  by_cases happ : app = d.app
  · subst happ
    rcases he : b.apps.get? d.app with _ | e
    · rw [grants, he] at hp
      cases hp
    · have hcase := hself e he
      have hgrants : (b.grants d.app) = e.grants := by rw [grants, he]; rfl
      split_ifs at hcase with hb
      · rw [hgrants] at hp
        rw [grants, hcase]
        exact hp
      · have hwanted := hasks m hm hb p hlevel hp
        rw [hgrants] at hp
        rw [grants, hcase]
        show (e.grants.filterKeys fun name => name ∈ m.wanted).get? p = _
        rw [Dict.get?_filterKeys, if_pos (decide_eq_true hwanted), hp]
  · rcases hother app happ with hsame | ⟨-, hnone, hgone⟩
    · rw [grants, hsame]
      exact hp
    · exact absurd hp (hroom hnone app hgone p hlevel)

/-! ### Runs -/

inductive Op (φ : Type)
  | declare (d : Declaration φ)
  | setGrant (app name : Text) (granted : Bool)
  | forget (app : Text)

/-- A book, and what an operator took back of it: a `set_grant` to False that answered True, with no
later grant of the permission or of its parent. -/
structure Hist (φ : Type) where
  book : PermissionBook φ
  taken : List (Text × Text)

def Hist.step (h : Hist φ) : Op φ → Hist φ
  | .declare d =>
    match declare W K h.book d with
    | .error _ => h
    | .ok b => { h with book := b }
  | .setGrant app name granted =>
    match setGrant K h.book app name granted with
    | none => h
    | some b => ⟨b, if granted then
        h.taken.filter fun t => ¬ (t.1 = app ∧ (t.2 = name ∨ parent t.2 = some name))
      else (app, name) :: h.taken⟩
  | .forget app =>
    match forget K h.book app with
    | none => h
    | some b => { h with book := b }

/-- **The condition**: no refusal of a normal permission is dropped. A manifest still asks for what was
refused to its app; an app that is forgotten, to make room or by an operator, has no refusal. -/
def Keeps (h : Hist φ) : Op φ → Prop
  | .declare d =>
    (∀ m, parseManifest W d.raw = .ok m → ¬ Blocked h.book d → ∀ p, level p = .normal →
      (h.book.grants d.app).get? p = some false → p ∈ m.wanted) ∧
    (h.book.apps.get? d.app = none → ∀ gone ∈ h.book.evicted, Clear h.book gone)
  | .setGrant _ _ _ => True
  | .forget app => app ∈ h.book.fixed ∨ Clear h.book app

/-- What was taken back of the normal permissions is refused. -/
def Refused (h : Hist φ) : Prop :=
  ∀ t ∈ h.taken, level t.2 = .normal → (h.book.grants t.1).get? t.2 = some false

theorem Refused.step {h : Hist φ} (hr : Refused h) {op : Op φ} (hk : Keeps W h op) :
    Refused (h.step W K op) := by
  cases op with
  | declare d =>
    rcases hd : declare W K h.book d with e | b
    · simp only [Hist.step, hd]
      exact hr
    · simp only [Hist.step, hd]
      intro t ht hlevel
      exact declare_refusal W K hd hk.1 hk.2 hlevel (hr t ht hlevel)
  | setGrant app name granted =>
    unfold Hist.step
    dsimp only
    rcases hset : setGrant K h.book app name granted with _ | b
    · exact hr
    · intro t ht hlevel
      refine setGrant_refusal K hset ?_
      cases granted with
      | true =>
        rw [if_pos rfl] at ht
        obtain ⟨hmem, hne⟩ := List.mem_filter.mp ht
        have hne := of_decide_eq_true hne
        exact Or.inr ⟨fun heq => hne ⟨(Prod.mk.inj heq).1, Or.inl (Prod.mk.inj heq).2⟩,
          hr t hmem hlevel⟩
      | false =>
        rw [if_neg (by decide)] at ht
        by_cases heq : t = (app, name)
        · exact Or.inl ⟨heq, rfl⟩
        · exact Or.inr ⟨heq, hr t ((List.mem_cons.mp ht).resolve_left heq) hlevel⟩
  | forget app =>
    unfold Hist.step
    dsimp only
    rcases hforget : forget K h.book app with _ | b
    · exact hr
    · intro t ht hlevel
      have hold := hr t ht hlevel
      have hfixed : app ∉ h.book.fixed := by
        intro hf
        rw [forget, if_pos (Or.inl hf)] at hforget
        cases hforget
      have hne : t.1 ≠ app := by
        intro heq
        rcases hk with hf | hclear
        · exact hfixed hf
        · exact hclear t.2 hlevel (by rw [← heq]; exact hold)
      show (b.grants t.1).get? t.2 = _
      rw [grants, forget_get? K hforget hne]
      exact hold

omit [LinearOrder φ] in
theorem not_allowed {b : PermissionBook φ} {p : Text} (hlevel : level p = .normal)
    (hp : (b.grants app).get? p = some false) (identified : Bool) : b.allows app p identified = false := by
  unfold allows
  split_ifs <;> rfl

theorem run_declare (ds : List (Declaration φ)) (h : Hist φ) :
    (run (Hist.step W K) h (ds.map .declare)).taken = h.taken ∧
      ∀ app name identified, level name ≠ .normal →
        (run (Hist.step W K) h (ds.map .declare)).book.allows app name identified = true →
          h.book.allows app name identified = true := by
  induction ds generalizing h with
  | nil => exact ⟨rfl, fun _ _ _ _ hallows => hallows⟩
  | cons d ds ih =>
    obtain ⟨htaken, hgain⟩ := ih (h.step W K (.declare d))
    have hone : (h.step W K (.declare d)).taken = h.taken ∧ ∀ app name identified, level name ≠ .normal →
        (h.step W K (.declare d)).book.allows app name identified = true →
          h.book.allows app name identified = true := by
      rcases hd : declare W K h.book d with e | b
      · simp only [Hist.step, hd]
        exact ⟨trivial, fun _ _ _ _ hallows => hallows⟩
      · simp only [Hist.step, hd]
        exact ⟨trivial, fun _ _ _ hlevel hallows => declare_gains W K hd hlevel hallows⟩
    rw [List.map_cons, run_cons]
    exact ⟨htaken.trans hone.1, fun app name identified hlevel hallows =>
      hone.2 app name identified hlevel (hgain app name identified hlevel hallows)⟩

/-- **Permissions never move themselves.** From any book, after any operations `ops`, a run of
declarations `ds` gives no app a sensitive or dangerous permission. Where no operation drops a refusal,
it also makes nothing allowed again that an operator took back, and what was taken back of the normal
permissions is refused. -/
theorem never_moves (start : PermissionBook φ) (ops : List (Op φ)) (ds : List (Declaration φ)) :
    let h := run (Hist.step W K) ⟨start, []⟩ ops
    let h' := run (Hist.step W K) h (ds.map .declare)
    (∀ app name identified, level name ≠ .normal → h'.book.allows app name identified = true →
      h.book.allows app name identified = true) ∧
    (Guarded (Hist.step W K) (Keeps W) ⟨start, []⟩ (ops ++ ds.map .declare) →
      ∀ app name, (app, name) ∈ h.taken →
        (∀ identified, h.book.allows app name identified = false →
          h'.book.allows app name identified = false) ∧
        (level name = .normal → ∀ identified, h'.book.allows app name identified = false)) := by
  intro h h'
  obtain ⟨htaken, hgain⟩ := run_declare W K ds h
  refine ⟨hgain, fun hguard app name hmem => ?_⟩
  have hrefused : Refused h' := by
    have hrun := Guarded.run_induct (P := Refused)
      (fun s op hs hk => Refused.step W K hs hk) (fun t ht => by cases ht) hguard
    rwa [run_append] at hrun
  have hnormal : level name = .normal → ∀ identified, h'.book.allows app name identified = false :=
    fun hlevel identified => not_allowed hlevel (hrefused (app, name) (by rw [htaken]; exact hmem) hlevel) _
  refine ⟨fun identified hno => ?_, hnormal⟩
  by_cases hlevel : level name = .normal
  · exact hnormal hlevel identified
  · by_contra hyes
    rw [hgain app name identified hlevel (by simpa using hyes)] at hno
    cases hno

end Declared

/-! ### One app -/

def plainWorld : World where
  floatRepr := JsonStyle.wholeRepr
  depth := 100
  chars := asciiTables
  sameValues a b := a.map (JsonStyle.write JsonStyle.compact) = b.map (JsonStyle.write JsonStyle.compact)

def seconds : Clock ℕ where
  zero := 0
  repr n := digits n ++ [0x2E, 0x30]
  ofJson
    | .int n => n.toNat
    | .float text => ofDigits (text.takeWhile isDigit)
    | _ => 0

def anApp : Text := ascii "0123456789abcdef"

def asking (names : List String) : Raw :=
  .value (.obj [(ascii "name", .str (ascii "app")),
    (ascii "permissions", .arr (names.map fun name => .str (ascii name)))])

def declaring (names : List String) : Declaration ℕ := ⟨anApp, asking names, ascii "connector", false, 1⟩

def emptyBook : PermissionBook ℕ := ⟨Dict.empty, [], false, none⟩

def takenBack : List (Op ℕ) := [.declare (declaring ["network"]), .setGrant anApp (ascii "network") false]

/-- **The app takes it again**: a manifest without it, and one with it. -/
theorem moves_itself :
    let h := run (Hist.step plainWorld seconds) ⟨emptyBook, []⟩ takenBack
    let h' := run (Hist.step plainWorld seconds) h
      ([declaring ["storage"], declaring ["network"]].map .declare)
    (anApp, ascii "network") ∈ h.taken ∧ h.book.allows anApp (ascii "network") true = false ∧
      h'.book.allows anApp (ascii "network") true = true := by
  decide +kernel

theorem keeps_first {names : List String} {h : Hist ℕ} (hgrants : (h.book.grants anApp).entries = [])
    (hroom : h.book.evicted = none) : Keeps plainWorld h (.declare (declaring names)) := by
  refine ⟨fun m _ _ p _ hp => ?_, fun _ gone hgone => by rw [hroom] at hgone; cases hgone⟩
  rw [Dict.get?, show (declaring names).app = anApp from rfl, hgrants] at hp
  cases hp

theorem never_moves_asking :
    (run (Hist.step plainWorld seconds) ⟨emptyBook, []⟩
      (takenBack ++ [declaring ["network", "log"]].map .declare)).book.allows anApp (ascii "network") true =
        false := by
  have hguard : Guarded (Hist.step plainWorld seconds) (Keeps plainWorld) ⟨emptyBook, []⟩
      (takenBack ++ [declaring ["network", "log"]].map .declare) := by
    refine ⟨keeps_first rfl (by decide +kernel), trivial, ⟨fun m hm _ p _ hp => ?_, fun hnone => ?_⟩, trivial⟩
    · have hrecord : ((run (Hist.step plainWorld seconds) ⟨emptyBook, []⟩ takenBack).book.grants
          anApp).entries = [(ascii "network", false)] := by decide +kernel
      have hentry := Dict.get?_eq_some.mp hp
      rw [show (declaring ["network", "log"]).app = anApp from rfl] at hentry
      have hname : p = ascii "network" := by
        have hmem := hrecord ▸ hentry
        exact (Prod.mk.inj (List.mem_singleton.mp hmem)).1
      have hwanted : ((parseManifest plainWorld (declaring ["network", "log"]).raw).toOption.map
          Manifest.wanted) = some [ascii "network", ascii "log"] := by decide +kernel
      rw [hm] at hwanted
      rw [hname, Option.some.inj hwanted]
      exact List.mem_cons_self
    · have hknown : ((run (Hist.step plainWorld seconds) ⟨emptyBook, []⟩ takenBack).book.apps.get?
          anApp).isSome = true := by decide +kernel
      rw [Option.isSome_iff_ne_none] at hknown
      exact absurd hnone hknown
  have hmem : (anApp, ascii "network") ∈
      (run (Hist.step plainWorld seconds) ⟨emptyBook, []⟩ takenBack).taken := by decide +kernel
  rw [run_append]
  exact ((never_moves plainWorld seconds emptyBook takenBack [declaring ["network", "log"]]).2 hguard anApp
    (ascii "network") hmem).2 (by decide +kernel) true

end NMesh.Perms.Unmoved
