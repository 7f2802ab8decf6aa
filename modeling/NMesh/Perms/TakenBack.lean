import NMesh.Perms.Restart

/-! # Taking a permission back

A permission is checked with its parent, and `set_grant` writes down one name. What is taken back is taken back with
all it covers, unless the parent is still granted, where `allows` does not look at the refusal (`take_back`). What an
app may do it asked for, if that was so when its book was opened (`asked_run`). -/

namespace NMesh.Perms.TakenBack

open Base.Utf8 Base.Ordered Base.Runs NMesh.Perms.Tree NMesh.Perms.Parse NMesh.Perms.Book
open NMesh.Perms.Book.PermissionBook NMesh.Perms.Unmoved NMesh.Perms.Restart PermissionBook

variable {φ : Type} (K : Clock φ) {b b' : PermissionBook φ} {app name p : Text} {identified : Bool}

/-! ### One grant -/

theorem get?_children : ∀ {names : List Text} {g : Dict Text Bool},
    (names.foldl (fun g child => if g.get? child = some true then g.set child false else g) g).get? p =
      if p ∈ names ∧ g.get? p = some true then some false else g.get? p
  | [], g => by simp
  | child :: names, g => by
    rw [List.foldl_cons, get?_children]
    by_cases hp : p = child
    · subst hp
      by_cases hg : g.get? p = some true
      · rw [if_pos hg, Dict.get?_set_self, if_neg (by simp), if_pos ⟨List.mem_cons_self, hg⟩]
      · rw [if_neg hg, if_neg (fun h => hg h.2), if_neg (fun h => hg h.2)]
    · have hsame : (if g.get? child = some true then g.set child false else g).get? p = g.get? p := by
        split_ifs
        · exact Dict.get?_set_of_ne _ (fun h => hp h.symm) _
        · rfl
      rw [hsame]
      simp only [List.mem_cons, hp, false_or]

variable {granted : Bool}

theorem get?_grantIn {grants : Dict Text Bool} : (grantIn grants name granted).get? p =
    if p = name then some granted
    else if granted = false ∧ parent p = some name ∧ grants.get? p = some true then some false
    else grants.get? p := by
  have hset : (grants.set name granted).get? p = if p = name then some granted else grants.get? p := by
    rw [Dict.get?_set]
    by_cases hp : p = name
    · rw [if_pos hp, if_pos hp.symm]
    · rw [if_neg hp, if_neg (fun h => hp h.symm)]
  unfold grantIn
  cases granted with
  | true => simpa using hset
  | false =>
    rw [if_neg (by decide), get?_children, hset]
    by_cases hp : p = name
    · rw [if_pos hp, if_pos hp, if_neg (fun h => by cases h.2)]
    · rw [if_neg hp, if_neg hp]
      exact if_congr (by rw [mem_children_iff]; simp) rfl rfl

theorem allows_sensitive (hknown : known p = true) (hlevel : level p ≠ .normal) :
    b.allows app p identified = true ↔ identified = true ∧
      ((b.grants app).get? p = some true ∨ ∃ up, parent p = some up ∧ (b.grants app).get? up = some true) := by
  unfold allows
  rw [if_neg (not_not.mpr hknown), if_neg hlevel]
  cases identified with
  | false => simp
  | true =>
    rw [if_neg (by decide)]
    by_cases hself : (b.grants app).get? p = some true
    · rw [if_pos hself]
      simp [hself]
    · rw [if_neg hself]
      cases hup : parent p with
      | none | some up => simp [hself]

theorem allows_normal (hknown : known p = true) (hlevel : level p = .normal) :
    b.allows app p identified = true ↔ (b.grants app).get? p ≠ some false ∧
      ∀ m, b.manifest app = some m → p ∈ b.requested app := by
  unfold allows
  rw [if_neg (not_not.mpr hknown), if_pos hlevel]
  by_cases hno : (b.grants app).get? p = some false
  · rw [if_pos hno]
    simp [hno]
  · rw [if_neg hno]
    cases hm : b.manifest app with
    | none | some m => simp [hno]

theorem allows_unknown (hknown : ¬ known p = true) : b.allows app p identified = false := if_pos hknown

theorem level_of_parent (h : parent p = some name) : level p ≠ .normal := by
  intro hlevel
  rw [(normal_alone hlevel).1] at h
  cases h

theorem requested_eq (hmanifest : b'.manifest app = b.manifest app) : b'.requested app = b.requested app := by
  unfold requested
  rw [hmanifest]

theorem allows_others (h : setGrant K b app name granted = some b') {app' : Text}
    (hp : app' ≠ app ∨ p ≠ name ∧ parent p ≠ some name) :
    b'.allows app' p identified = b.allows app' p identified := by
  obtain ⟨-, hgrants, hmanifest, hother⟩ := setGrant_get? K h
  by_cases happ : app' = app
  · subst happ
    obtain ⟨hne, hup⟩ := hp.resolve_left (fun h => h rfl)
    have hsame : (b'.grants app').get? p = (b.grants app').get? p := by
      rw [hgrants, get?_grantIn, if_neg hne, if_neg (fun h => hup h.2.1)]
    by_cases hknown : known p = true
    · rw [Bool.eq_iff_iff]
      by_cases hlevel : level p = .normal
      · rw [allows_normal hknown hlevel, allows_normal hknown hlevel, hsame, hmanifest, requested_eq hmanifest]
      · rw [allows_sensitive hknown hlevel, allows_sensitive hknown hlevel, hsame]
        refine and_congr_right fun _ => or_congr_right (exists_congr fun up => and_congr_right fun hparent => ?_)
        -- a parent has no parent, so that its grant is not touched either
        have hne' : up ≠ name := fun h => hup (h ▸ hparent)
        have halone : parent up ≠ some name := by
          rw [parent_of_child hparent]
          exact fun h => by cases h
        rw [hgrants, get?_grantIn, if_neg hne', if_neg (fun h => halone h.2.1)]
    · rw [allows_unknown hknown, allows_unknown hknown]
  · unfold allows requested grants manifest
    rw [hother app' happ]

/-- **A permission is taken back** with all it covers, exactly if its parent is not granted. -/
theorem take_back (h : setGrant K b app name false = some b') :
    (∀ p, p = name ∨ parent p = some name → ∀ identified, b'.allows app p identified = false) ↔
      ∀ up, parent name = some up → (b.grants app).get? up ≠ some true := by
  obtain ⟨hreq, hgrants, hmanifest, -⟩ := setGrant_get? K h
  have hknown := known_requested hreq
  have hup (up : Text) (hparent : parent name = some up) :
      (b'.grants app).get? up = (b.grants app).get? up := by
    have hne : up ≠ name := by
      rintro rfl
      rw [parent_of_child hparent] at hparent
      cases hparent
    rw [hgrants, get?_grantIn, if_neg hne, if_neg fun h => by rw [parent_of_child hparent] at h; cases h.2.1]
  constructor
  · intro hall up hparent hgranted
    have hno := hall name (.inl rfl) true
    have hyes : b'.allows app name true = true := (allows_sensitive hknown (level_of_parent hparent)).mpr
      ⟨rfl, .inr ⟨up, hparent, by rw [hup up hparent, hgranted]⟩⟩
    rw [hno] at hyes
    cases hyes
  · intro hfree p hp identified
    by_cases hpknown : known p = true
    · rw [Bool.eq_false_iff]
      intro hallows
      by_cases hlevel : level p = .normal
      · rcases hp with rfl | hp
        · refine ((allows_normal hpknown hlevel).mp hallows).1 ?_
          rw [hgrants, get?_grantIn, if_pos rfl]
        · exact level_of_parent hp hlevel
      · obtain ⟨-, hself | ⟨up, hparent, hgranted⟩⟩ := (allows_sensitive hpknown hlevel).mp hallows
        · rw [hgrants, get?_grantIn] at hself
          split_ifs at hself with hpn hcovered
          · cases hself
          · cases hself
          · exact hcovered ⟨rfl, hp.resolve_left hpn, hself⟩
        · rcases hp with rfl | hp
          · rw [hup up hparent] at hgranted
            exact hfree up hparent hgranted
          · obtain rfl : name = up := Option.mem_unique hp hparent
            rw [hgrants, get?_grantIn, if_pos rfl] at hgranted
            cases hgranted
    · exact allows_unknown hpknown

theorem give (h : setGrant K b app name true = some b') (hp : p = name ∨ parent p = some name) :
    b'.allows app p true = true := by
  obtain ⟨hreq, hgrants, hmanifest, -⟩ := setGrant_get? K h
  have hgiven : (b'.grants app).get? name = some true := by rw [hgrants, get?_grantIn, if_pos rfl]
  rcases hp with rfl | hp
  · have hknown := known_requested hreq
    by_cases hlevel : level p = .normal
    · refine (allows_normal hknown hlevel).mpr ⟨by rw [hgiven]; decide, fun m _ => ?_⟩
      rwa [requested_eq hmanifest]
    · exact (allows_sensitive hknown hlevel).mpr ⟨rfl, .inl hgiven⟩
  · have hknown : known p = true := by
      obtain ⟨e, he, -⟩ := Option.bind_eq_some_iff.mp hp
      unfold known
      rw [he]
      rfl
    exact (allows_sensitive hknown (level_of_parent hp)).mpr ⟨rfl, .inr ⟨name, hp, hgiven⟩⟩

/-! ### What was asked for -/

/-- No sensitive or dangerous permission is granted to an app whose manifest does not ask for it. -/
def Asked (b : PermissionBook φ) : Prop :=
  ∀ app m, b.manifest app = some m → ∀ p, known p = true → level p ≠ .normal →
    (b.grants app).get? p = some true → p ∈ b.requested app

def OnlyAsked (b : PermissionBook φ) : Prop :=
  ∀ app m, b.manifest app = some m → ∀ p identified, b.allows app p identified = true → p ∈ b.requested app

theorem child_requested {up : Text} (hup : parent p = some up) (h : up ∈ b.requested app) :
    p ∈ b.requested app := by
  unfold requested at h ⊢
  split at h
  · cases h
  · obtain ⟨n, hn, hknown, rfl | hchild⟩ := mem_closure.mp h
    · exact mem_closure.mpr ⟨up, hn, hknown, .inr (mem_children_iff.mpr hup)⟩
    · rw [mem_children_iff, parent_of_child hup] at hchild
      cases hchild

theorem onlyAsked_iff : OnlyAsked b ↔ Asked b := by
  constructor
  · intro h app m hm p hknown hlevel hgranted
    exact h app m hm p true ((allows_sensitive hknown hlevel).mpr ⟨rfl, .inl hgranted⟩)
  · intro h app m hm p identified hallows
    by_cases hknown : known p = true
    · by_cases hlevel : level p = .normal
      · exact ((allows_normal hknown hlevel).mp hallows).2 m hm
      · obtain ⟨-, hself | ⟨up, hup, hgranted⟩⟩ := (allows_sensitive hknown hlevel).mp hallows
        · exact h app m hm p hknown hlevel hself
        · obtain ⟨e, he, -⟩ := Option.bind_eq_some_iff.mp hup
          have hchild := mem_children_iff.mpr hup
          have hupknown : known up = true := by
            unfold children at hchild
            unfold known
            cases hfind : find up with
            | none => rw [hfind] at hchild; cases hchild
            | some e => rfl
          have huplevel : level up ≠ .normal := by
            intro hnormal
            rw [(normal_alone hnormal).2] at hchild
            cases hchild
          exact child_requested hup (h app m hm up hupknown huplevel hgranted)
    · rw [allows_unknown hknown] at hallows
      cases hallows

theorem asked_setGrant (hasked : Asked b) (h : setGrant K b app name granted = some b') : Asked b' := by
  obtain ⟨hreq, hgrants, hmanifest, hother⟩ := setGrant_get? K h
  intro app' m hm p hknown hlevel hgranted
  by_cases happ : app' = app
  · subst happ
    rw [requested_eq hmanifest]
    rw [hgrants, get?_grantIn] at hgranted
    split_ifs at hgranted with hpn hcovered
    · rw [hpn]
      exact hreq
    · cases hgranted
    · exact hasked app' m (hmanifest ▸ hm) p hknown hlevel hgranted
  · unfold manifest at hm
    unfold grants at hgranted
    unfold requested manifest
    rw [hother app' happ] at hm hgranted ⊢
    exact hasked app' m hm p hknown hlevel hgranted

theorem asked_of_get? (hasked : Asked b) (h : ∀ app, b'.apps.get? app = b.apps.get? app ∨ b'.apps.get? app = none ∨
    (b'.grants app = .empty) ∨ ∃ e : Entry φ, ∃ m, b'.apps.get? app =
      some ⟨some m, e.grants.filterKeys fun name => name ∈ m.wanted, e.source, e.seen⟩) : Asked b' := by
  intro app m hm p hknown hlevel hgranted
  rcases h app with hsame | hnone | hempty | ⟨e, m', hnew⟩
  · unfold manifest at hm
    unfold grants at hgranted
    unfold requested manifest
    rw [hsame] at hm hgranted ⊢
    exact hasked app m hm p hknown hlevel hgranted
  · unfold manifest at hm
    rw [hnone] at hm
    cases hm
  · rw [hempty] at hgranted
    cases hgranted
  · unfold grants at hgranted
    unfold requested manifest
    rw [hnew] at hgranted ⊢
    have hfilter : (e.grants.filterKeys fun name => name ∈ m'.wanted).get? p = some true := hgranted
    rw [Dict.get?_filterKeys] at hfilter
    split_ifs at hfilter with hwanted
    exact of_decide_eq_true hwanted

variable [LinearOrder φ] (W : World)

def step (b : PermissionBook φ) (op : Op φ) : PermissionBook φ := (Hist.step W K ⟨b, []⟩ op).book

theorem asked_step (hasked : Asked b) (op : Op φ) : Asked (step K W b op) := by
  cases op with
  | declare d =>
    unfold step Hist.step
    dsimp only
    cases hd : declare W K b d with
    | error e => exact hasked
    | ok b' =>
      obtain ⟨m, -, -, hother, hself, hnew⟩ := declare_get? W K hd
      refine asked_of_get? hasked fun app => ?_
      by_cases happ : app = d.app
      · subst happ
        cases he : b.apps.get? d.app with
        | none => exact .inr (.inr (.inl (hnew he)))
        | some e =>
          have hcase := hself e he
          split_ifs at hcase with hblocked
          · exact .inl hcase
          · exact .inr (.inr (.inr ⟨{ e with source := d.source, seen := d.now }, m, hcase⟩))
      · rcases hother app happ with hsame | ⟨hgone, -⟩
        · exact .inl hsame
        · exact .inr (.inl hgone)
  | setGrant app name granted =>
    unfold step Hist.step
    dsimp only
    cases hset : setGrant K b app name granted with
    | none => exact hasked
    | some b' => exact asked_setGrant K hasked hset
  | forget app =>
    unfold step Hist.step
    dsimp only
    cases hforget : forget K b app with
    | none => exact hasked
    | some b' =>
      refine asked_of_get? hasked fun app' => ?_
      by_cases happ : app' = app
      · subst happ
        unfold forget at hforget
        split_ifs at hforget
        rw [← Option.some.inj hforget, apps_save, Dict.get?_pop_self]
        exact .inr (.inl rfl)
      · exact .inl (forget_get? K hforget happ)

theorem asked_run : ∀ {ops : List (Op φ)} {b : PermissionBook φ}, Asked b → Asked (run (step K W) b ops)
  | [], _, h => h
  | op :: ops, _, h => @asked_run ops _ (asked_step K W h op)

/-- **Taking back and giving**, in every book; and in every run what an app may do it asked for, exactly if that was so
in the book it started with. -/
theorem taken_back (b : PermissionBook φ) :
    (∀ app name b', setGrant K b app name false = some b' →
      ((∀ p, p = name ∨ parent p = some name → ∀ identified, b'.allows app p identified = false) ↔
        ∀ up, parent name = some up → (b.grants app).get? up ≠ some true) ∧
      ∀ app' p, app' ≠ app ∨ p ≠ name ∧ parent p ≠ some name → ∀ identified,
        b'.allows app' p identified = b.allows app' p identified) ∧
    (∀ app name b', setGrant K b app name true = some b' → ∀ p, p = name ∨ parent p = some name →
      b'.allows app p true = true) ∧
    ((∀ ops, OnlyAsked (run (step K W) b ops)) ↔ Asked b) :=
  ⟨fun _ _ _ h => ⟨take_back K h, fun _ _ hp _ => allows_others K h hp⟩, fun _ _ _ h _ hp => give K h hp,
    fun h => onlyAsked_iff.mp (h []), fun h _ => onlyAsked_iff.mpr (asked_run K W h)⟩

/-- The app asks for all the state, is given it, and one part is taken back. -/
def partTaken : List (Op ℕ) :=
  [.declare (declaring ["readstate"]), .setGrant anApp (ascii "readstate") true]

/-- The part that is taken back stays allowed. -/
theorem part_stays : ∃ b', setGrant seconds (run (step seconds plainWorld) emptyBook partTaken) anApp
      (ascii "readstate.logs") false = some b' ∧ b'.allows anApp (ascii "readstate.logs") true = true := by
  have hsome : ((setGrant seconds (run (step seconds plainWorld) emptyBook partTaken) anApp
      (ascii "readstate.logs") false).any fun b' => b'.allows anApp (ascii "readstate.logs") true) = true := by
    decide +kernel
  exact (Option.any_eq_true _ _).mp hsome

end NMesh.Perms.TakenBack
