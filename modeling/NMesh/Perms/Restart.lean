import NMesh.Perms.Unmoved

/-! # A permission book after a restart

`load` is `_load`: what a new book makes of the file. `restarts` says when it answers as the live book
does: where the file is not over its limit, or where there is nothing to lose. -/

namespace NMesh.Perms.Restart

open NMesh.Base Base.Utf8 Base.Ordered Base.JsonText Base.JsonRound
open Base.JsonStyle Base.JsonRead Base.Runs
open NMesh.Perms.Tree NMesh.Perms.Parse NMesh.Perms.Book NMesh.Perms.Book.PermissionBook
open NMesh.Perms.Unmoved

variable {φ : Type} (W : World) (K : Clock φ)

/-! ### Loading -/

/-- `os.path.getsize` of a file with this text. -/
def fileSize (text : Text) : ℕ := (text.flatMap encodeChar).length

/-- `stored.get("seen")` as a float. -/
def loadSeen (stored : List (Text × Json)) : φ :=
  match getL (ascii "seen") stored with
  | some (.int n) => K.ofJson (.int n)
  | some (.float repr) => K.ofJson (.float repr)
  | some (.bool b) => K.ofJson (.bool b)
  | _ => K.zero

/-- The grants of a file: known names with a literal true or false. -/
def loadGrants (stored : List (Text × Json)) : Dict Text Bool :=
  match getL (ascii "grants") stored with
  | some (.obj grants) => grants.foldl (fun d g =>
      match g.2 with
      | .bool b => if known g.1 then d.set g.1 b else d
      | _ => d) Dict.empty
  | _ => Dict.empty

def loadManifestOf (stored : List (Text × Json)) : Option Manifest :=
  match parseManifest W (.value ((getL (ascii "manifest") stored).getD .null)) with
  | .ok m => some m
  | .error _ => none

def loadEntry (stored : List (Text × Json)) : Entry φ where
  manifest := loadManifestOf W stored
  grants := loadGrants stored
  source := orElse (cleanText W (getL (ascii "source") stored) 16) (ascii "connector")
  seen := loadSeen K stored

/-- One app of the file, if its id and its shape are right. -/
def loadApp (d : Dict Text (Entry φ)) (e : Text × Json) : Dict Text (Entry φ) :=
  match e.2 with
  | .obj stored => if isHexId e.1 then d.set e.1 (loadEntry W K stored) else d
  | _ => d

def loadDocument : Option Json → Dict Text (Entry φ)
  | some (.obj document) =>
    match getL (ascii "apps") document with
    | some (.obj apps) => (apps.take maxApps).foldl (loadApp W K) Dict.empty
    | _ => Dict.empty
  | _ => Dict.empty

def load (file : Option Text) : Dict Text (Entry φ) :=
  match file with
  | none => Dict.empty
  | some text =>
    if fileMax < fileSize text then Dict.empty
    else loadDocument W K (loads W.floatRepr W.depth text)

/-- `PermissionBook(state_dir)`, with this file in the directory. -/
def opened (file : Option Text) : PermissionBook φ := ⟨load W K file, [], true, file⟩

/-! ### Books that answer alike -/

def grantsOf (apps : Dict Text (Entry φ)) (app : Text) : Dict Text Bool :=
  ((apps.get? app).map Entry.grants).getD Dict.empty

def askedOf (apps : Dict Text (Entry φ)) (app : Text) : Option (List Text) :=
  ((apps.get? app).bind Entry.manifest).map Manifest.asked

/-- The same grants and the same requests, for every app. -/
def Alike (x y : Dict Text (Entry φ)) : Prop :=
  ∀ app, (∀ name, (grantsOf x app).get? name = (grantsOf y app).get? name) ∧ askedOf x app = askedOf y app

theorem Alike.refl (x : Dict Text (Entry φ)) : Alike x x := fun _ => ⟨fun _ => rfl, rfl⟩

theorem Alike.trans {x y z : Dict Text (Entry φ)} (h : Alike x y) (h' : Alike y z) : Alike x z :=
  fun app => ⟨fun name => ((h app).1 name).trans ((h' app).1 name), (h app).2.trans (h' app).2⟩

theorem allows_eq (b : PermissionBook φ) (app name : Text) (identified : Bool) :
    b.allows app name identified =
      if ¬ known name then false
      else if level name = .normal then
        if (grantsOf b.apps app).get? name = some false then false
        else (askedOf b.apps app).all fun asked => name ∈ closure asked
      else if ¬ identified then false
      else if (grantsOf b.apps app).get? name = some true then true
      else (parent name).any fun up => (grantsOf b.apps app).get? up = some true := by
  have hasked : (b.manifest app).elim true (fun _ => decide (name ∈ b.requested app)) =
        (askedOf b.apps app).all fun asked => name ∈ closure asked := by
    unfold askedOf requested manifest
    rcases (b.apps.get? app).bind Entry.manifest with _ | m <;> rfl
  have hup : (parent name).elim false (fun up => decide ((b.grants app).get? up = some true)) =
        (parent name).any fun up => (grantsOf b.apps app).get? up = some true := by
    rcases parent name with _ | up <;> rfl
  rw [← hasked, ← hup]
  unfold allows
  cases b.manifest app <;> cases parent name <;> rfl

variable {b : PermissionBook φ}

theorem Alike.allows {b' : PermissionBook φ} (h : Alike b.apps b'.apps) (app name : Text)
    (identified : Bool) : b.allows app name identified = b'.allows app name identified := by
  obtain ⟨hgrants, hasked⟩ := h app
  rw [allows_eq, allows_eq, hasked]
  simp only [hgrants]

/-! ### What was saved is loaded -/

/-- An entry that can be written: its manifest was parsed, its grants are of known names. -/
structure Sound (e : Entry φ) : Prop where
  manifest : ∀ m ∈ e.manifest, Kept m ∧ Plain W.floatRepr (.obj m.document)
  grants : ∀ name ∈ e.grants.keys, known name = true
  source : Points e.source

/-- Every app has an id, and an entry that can be written. -/
def SoundApps (apps : Dict Text (Entry φ)) : Prop :=
  ∀ app e, apps.get? app = some e → isHexId app = true ∧ Sound W e

section Folds
variable {κ ν : Type} [DecidableEq κ]

theorem get?_foldl_set (k : κ) : ∀ {l : List (κ × ν)} {d : Dict κ ν}, (l.map Prod.fst).Nodup →
    (l.foldl (fun d e => d.set e.1 e.2) d).get? k = (getL k l).or (d.get? k)
  | [], _, _ => rfl
  | e :: l, d, h => by
    rw [List.map_cons, List.nodup_cons] at h
    rw [List.foldl_cons, get?_foldl_set k h.2, Dict.get?_set, getL]
    split_ifs with he
    · have hnone : getL k l = none := getL_eq_none.mpr (by rw [← he]; exact h.1)
      rw [hnone]
      rfl
    · rfl

end Folds

variable {app : Text}

theorem scalar_isHexId (h : isHexId app = true) : ∀ c ∈ app, Scalar c := by
  unfold isHexId at h
  obtain ⟨-, hall, hend⟩ := of_decide_eq_true h
  have hend' := of_decide_eq_true hend
  intro c hc
  rw [← List.take_append_drop 16 app] at hc
  rcases List.mem_append.mp hc with hc | hc
  · have hchar := of_decide_eq_true (List.all_eq_true.mp hall c hc)
    have hdigit : isDigit c = true → c ≤ 0x39 := fun hd => (of_decide_eq_true hd).2
    unfold Scalar
    rcases hchar with hd | hd
    · have := hdigit hd
      omega
    · omega
  · rcases hend' with hnil | hlf
    · rw [hnil] at hc
      cases hc
    · rw [hlf] at hc
      rw [List.mem_singleton.mp hc]
      exact Or.inl (by decide)

variable {W K}

theorem settle_grants {grants : Dict Text Bool} (h : ∀ name ∈ grants.keys, known name = true) :
    settle (.obj (grants.entries.map fun g => (g.1, .bool g.2))) =
      .obj (grants.entries.map fun g => (g.1, .bool g.2)) := by
  have hkeys : (grants.entries.map fun g => (g.1, Json.bool g.2)).map Prod.fst = grants.keys := by
    rw [List.map_map]
    rfl
  rw [settle_obj _ (by rw [hkeys]; exact grants.nodup_keys), List.map_map]
  · rfl
  · intro e he
    refine scalar_known (h e.1 ?_)
    rw [← hkeys]
    exact List.mem_map_of_mem he

variable (W K) in
def settledEntry (e : Entry φ) : List (Text × Json) :=
  [(ascii "manifest", match e.manifest with
      | none => .null
      | some m => settle (.obj m.document)),
    (ascii "grants", .obj (e.grants.entries.map fun g => (g.1, .bool g.2))),
    (ascii "source", .str (merge e.source)), (ascii "seen", .float (K.repr e.seen))]

theorem entry_keys : (∀ key ∈ [ascii "manifest", ascii "grants", ascii "source", ascii "seen"],
    ∀ c ∈ key, Scalar c) ∧ [ascii "manifest", ascii "grants", ascii "source", ascii "seen"].Nodup := by
  decide

theorem settle_entry {e : Entry φ} (h : Sound W e) :
    settle (entryDocument K e) = .obj (settledEntry K e) := by
  have hkeys := entry_keys
  unfold entryDocument
  rw [settle_obj]
  · simp only [List.map_cons, List.map_nil, settle_grants h.grants]
    rw [settledEntry]
    cases e.manifest <;> rfl
  · intro x hx
    refine hkeys.1 x.1 ?_
    simpa using List.mem_map_of_mem (f := Prod.fst) hx
  · exact hkeys.2

/-- **What is loaded of an entry** has its grants, and asks for what it asked. -/
theorem loadEntry_settled {e : Entry φ} (h : Sound W e) :
    (∀ name, (loadEntry W K (settledEntry K e)).grants.get? name = e.grants.get? name) ∧
      (loadEntry W K (settledEntry K e)).manifest.map Manifest.asked = e.manifest.map Manifest.asked := by
  have hne : ascii "manifest" ≠ ascii "grants" := by decide
  constructor
  · intro name
    show (loadGrants (settledEntry K e)).get? name = _
    have hget : getL (ascii "grants") (settledEntry K e) =
        some (.obj (e.grants.entries.map fun g => (g.1, .bool g.2))) := by
      rw [settledEntry, getL, if_neg hne, getL, if_pos rfl]
    unfold loadGrants
    rw [hget]
    dsimp only
    rw [List.foldl_map, List.foldl_ext _ (fun d g => d.set g.1 g.2)]
    · rw [get?_foldl_set name e.grants.nodup, Dict.get?_empty, Option.or_none]
      rfl
    · intro d g hg
      exact if_pos (h.grants g.1 (List.mem_map_of_mem hg))
  · show (loadManifestOf W (settledEntry K e)).map _ = _
    unfold loadManifestOf
    rw [settledEntry, getL, if_pos rfl, Option.getD_some]
    rcases hm : e.manifest with _ | m
    · rfl
    · obtain ⟨m', hm', hasked⟩ := asked_reparse (W := W) (h.manifest m hm).1
      dsimp only
      rw [hm', Option.map_some, Option.map_some, hasked]

/-- **What is loaded of a saved document** is like the book that was saved. -/
theorem loadDocument_settled (h : SoundApps W b.apps)
    (hsize : b.apps.size ≤ maxApps) : Alike (loadDocument W K (some (settle (document K b)))) b.apps := by
  have hscalar : ∀ e ∈ b.apps.entries.map fun e => (e.1, entryDocument K e.2), ∀ c ∈ e.1, Scalar c := by
    intro e he
    obtain ⟨x, hx, rfl⟩ := List.mem_map.mp he
    exact scalar_isHexId (h _ _ (Dict.get?_eq_some.mpr hx)).1
  have hkeys : ((b.apps.entries.map fun e => (e.1, entryDocument K e.2)).map Prod.fst).Nodup := by
    rw [List.map_map]
    exact b.apps.nodup
  have hsettle : settle (document K b) = .obj [(ascii "apps",
      .obj (b.apps.entries.map fun e => (e.1, Json.obj (settledEntry K e.2))))] := by
    have hkey : ∀ e ∈ [(ascii "apps", Json.obj (b.apps.entries.map fun e => (e.1, entryDocument K e.2)))],
        ∀ c ∈ e.1, Scalar c := by
      intro e he
      rw [List.mem_singleton.mp he]
      show ∀ c ∈ ascii "apps", Scalar c
      decide
    rw [document, settle_obj hkey (List.nodup_singleton _), List.map_singleton, settle_obj hscalar hkeys,
      List.map_map]
    congr 4
    refine List.map_congr_left fun e he => ?_
    show (e.1, settle (entryDocument K e.2)) = _
    rw [settle_entry (h _ _ (Dict.get?_eq_some.mpr he)).2]
  have hload : loadDocument W K (some (settle (document K b))) =
      (b.apps.entries.map fun e => (e.1, loadEntry W K (settledEntry K e.2))).foldl
        (fun d e => d.set e.1 e.2) Dict.empty := by
    rw [hsettle, loadDocument, getL, if_pos rfl]
    dsimp only
    rw [List.take_of_length_le (by rw [List.length_map]; exact hsize), List.foldl_map, List.foldl_map]
    refine List.foldl_ext _ _ _ fun d e he => ?_
    exact if_pos (h _ _ (Dict.get?_eq_some.mpr he)).1
  have hget : ∀ app, (loadDocument W K (some (settle (document K b)))).get? app =
      (b.apps.get? app).map fun e => loadEntry W K (settledEntry K e) := by
    intro app
    rw [hload, get?_foldl_set app (by rw [List.map_map]; exact b.apps.nodup), Dict.get?_empty,
      Option.or_none]
    exact getL_map (fun _ e => loadEntry W K (settledEntry K e)) app b.apps.entries
  intro app
  rcases he : b.apps.get? app with _ | e
  · simp only [grantsOf, askedOf, hget, he, Option.map_none, Option.bind_none]
    exact ⟨fun _ => trivial, trivial⟩
  · obtain ⟨hgrants, hasked⟩ := loadEntry_settled (K := K) (h app e he).2
    simp only [grantsOf, askedOf, hget, he, Option.map_some, Option.getD_some, Option.bind_some]
    exact ⟨hgrants, hasked⟩

theorem plain_saved (hrepr : ∀ t, FloatText W.floatRepr (K.repr t))
    (h : SoundApps W b.apps) : Plain W.floatRepr (document K b) := by
  have hkey : ∀ key ∈ [ascii "manifest", ascii "grants", ascii "source", ascii "seen"], Points key :=
    fun key hkey => points_of_scalars (entry_keys.1 key hkey)
  refine ⟨points_of_scalars (by decide), plainMembers_iff.mpr fun e he => ?_, trivial⟩
  obtain ⟨x, hx, rfl⟩ := List.mem_map.mp he
  obtain ⟨hid, hsound⟩ := h x.1 x.2 (Dict.get?_eq_some.mpr hx)
  refine ⟨points_of_scalars (scalar_isHexId hid), hkey _ (by simp), ?_, hkey _ (by simp),
    plainMembers_iff.mpr fun g hg => ?_, hkey _ (by simp), hsound.source, hkey _ (by simp), hrepr _,
    trivial⟩
  · rcases hm : x.2.manifest with _ | m
    · trivial
    · exact (hsound.manifest m hm).2
  · obtain ⟨y, hy, rfl⟩ := List.mem_map.mp hg
    exact ⟨points_of_scalars (scalar_known (hsound.grants y.1 (List.mem_map_of_mem hy))), trivial⟩

/-- What a run must keep to: what `json` writes it can read, and there are at most 64 apps. -/
def Fits (W : World) (K : Clock φ) (b : PermissionBook φ) : Prop :=
  height (document K b) ≤ W.depth ∧ b.apps.size ≤ maxApps

def tooLarge : Option Text → Bool
  | none => false
  | some text => fileMax < fileSize text

/-- The invariant: a file that is not too large loads as the book does. -/
structure Faithful (W : World) (K : Clock φ) (b : PermissionBook φ) : Prop where
  sound : SoundApps W b.apps
  fixed : ∀ app ∈ b.fixed, app ∈ b.apps.keys
  path : b.path = true
  file : tooLarge b.file = false → Alike (load W K b.file) b.apps

theorem faithful_save (hrepr : ∀ t, FloatText W.floatRepr (K.repr t))
    (hsound : SoundApps W b.apps) (hfixed : ∀ app ∈ b.fixed, app ∈ b.apps.keys) (hpath : b.path = true)
    (hfit : Fits W K b) : Faithful W K (save K b) := by
  have hsave : save K b = { b with file := some (write compact (document K b)) } := by
    rw [save, if_pos hpath]
  rw [hsave]
  refine ⟨hsound, hfixed, hpath, fun hlarge => ?_⟩
  have hread : loads W.floatRepr W.depth (write compact (document K b)) =
      some (settle (document K b)) := loads_write rfl (plain_saved hrepr hsound) hfit.1
  have hload : load W K (some (write compact (document K b))) =
      loadDocument W K (some (settle (document K b))) := by
    rw [load, if_neg (of_decide_eq_false hlarge), hread]
  show Alike (load W K (some (write compact (document K b)))) b.apps
  rw [hload]
  exact loadDocument_settled hsound hfit.2

/-! ### What is loaded is sound -/

theorem known_loadGrants (stored : List (Text × Json)) :
    ∀ name ∈ (loadGrants stored).keys, known name = true := by
  have hfold : ∀ (grants : List (Text × Json)) (d : Dict Text Bool),
      (∀ name ∈ d.keys, known name = true) → ∀ name ∈ (grants.foldl (fun d g =>
        match g.2 with
        | .bool b => if known g.1 then d.set g.1 b else d
        | _ => d) d).keys, known name = true := by
    intro grants
    induction grants with
    | nil => exact fun d hd => hd
    | cons g grants ih =>
      intro d hd
      rw [List.foldl_cons]
      refine ih _ ?_
      split
      · split_ifs with hk
        · intro name hname
          rcases Dict.mem_keys_set.mp hname with rfl | hold
          · exact hk
          · exact hd name hold
        · exact hd
      · exact hd
  unfold loadGrants
  split
  · exact hfold _ _ (fun name hname => by cases hname)
  · exact fun name hname => by cases hname

theorem sound_loadEntry (hfloats : Floats W.floatRepr) {stored : List (Text × Json)}
    (h : PlainMembers W.floatRepr stored) : Sound W (loadEntry W K stored) := by
  refine ⟨fun m hm => ?_, known_loadGrants stored, ?_⟩
  · have hparse : parseManifest W (.value ((getL (ascii "manifest") stored).getD .null)) = .ok m := by
      have hm' : loadManifestOf W stored = some m := hm
      unfold loadManifestOf at hm'
      split at hm'
      next m' hok => rw [hok, Option.some.inj hm']
      next => cases hm'
    refine ⟨kept_of_parse hparse, plain_document hfloats ?_ hparse⟩
    show Plain W.floatRepr ((getL (ascii "manifest") stored).getD .null)
    rcases hget : getL (ascii "manifest") stored with _ | v
    · trivial
    · exact plain_getL h hget
  · show Points (orElse _ _)
    unfold orElse
    split_ifs
    · exact points_of_scalars (by decide)
    · exact points_cleanText fun v hv => plain_getL h hv

theorem sound_loadDocument (hfloats : Floats W.floatRepr) {v : Option Json}
    (h : ∀ u ∈ v, Plain W.floatRepr u) : SoundApps W (loadDocument W K v) := by
  have hempty : SoundApps W (Dict.empty : Dict Text (Entry φ)) := fun app e he => by cases he
  have hfold : ∀ (apps : List (Text × Json)) (d : Dict Text (Entry φ)), PlainMembers W.floatRepr apps →
      SoundApps W d → SoundApps W (apps.foldl (loadApp W K) d) := by
    intro apps
    induction apps with
    | nil => exact fun d _ hd => hd
    | cons x apps ih =>
      intro d hplain hd
      rw [List.foldl_cons]
      refine ih _ hplain.2.2 ?_
      unfold loadApp
      split
      next stored hstored =>
        split_ifs with hid
        · have hx : Plain W.floatRepr x.2 := hplain.2.1
          rw [hstored] at hx
          exact Dict.all_set hd ⟨hid, sound_loadEntry hfloats hx⟩
        · exact hd
      next => exact hd
  unfold loadDocument
  split
  next doc =>
    split
    next apps happs =>
      have hplain : PlainMembers W.floatRepr apps := plain_getL (h _ rfl) happs
      refine hfold _ _ (plainMembers_iff.mpr fun e he => ?_) hempty
      exact plainMembers_iff.mp hplain e (List.mem_of_mem_take he)
    next => exact hempty
  next => exact hempty

theorem faithful_opened (hfloats : Floats W.floatRepr) {file : Option Text}
    (hfile : ∀ text ∈ file, Points text) : Faithful W K (opened W K file) := by
  refine ⟨?_, fun app happ => (by cases happ), rfl, fun _ => Alike.refl _⟩
  show SoundApps W (load W K file)
  unfold load
  split
  · exact fun app e he => by cases he
  next text =>
    split_ifs
    · exact fun app e he => by cases he
    · exact sound_loadDocument hfloats fun u hu => (loads_plain hfloats (hfile text rfl) hu).1

/-! ### Operations -/

theorem SoundApps.pop {apps : Dict Text (Entry φ)} (h : SoundApps W apps) (app : Text) :
    SoundApps W (apps.pop app) := fun app' e he => h app' e (Dict.get?_of_pop he).2

theorem SoundApps.set {apps : Dict Text (Entry φ)} (h : SoundApps W apps) {e : Entry φ}
    (hid : isHexId app = true) (he : Sound W e) : SoundApps W (apps.set app e) :=
  Dict.all_set h ⟨hid, he⟩

theorem known_requested {name : Text} (h : name ∈ b.requested app) : known name = true := by
  unfold requested at h
  split at h
  · cases h
  next m _ =>
    obtain ⟨n, -, hn, heq | hchild⟩ := mem_closure.mp h
    · rw [heq, hn]
    · obtain ⟨e, he, -⟩ := Option.bind_eq_some_iff.mp (mem_children_iff.mp hchild)
      rw [known, he, Option.isSome_some]

theorem sound_grantIn {grants : Dict Text Bool} (h : ∀ name ∈ grants.keys, known name = true) {name : Text}
    (hname : known name = true) (granted : Bool) :
    ∀ n ∈ (grantIn grants name granted).keys, known n = true := by
  have hset : ∀ n ∈ (grants.set name granted).keys, known n = true := by
    intro n hn
    rcases Dict.mem_keys_set.mp hn with rfl | hn
    · exact hname
    · exact h n hn
  have hfold : ∀ (cs : List Text) (g : Dict Text Bool), (∀ n ∈ g.keys, known n = true) →
      ∀ n ∈ (cs.foldl (fun g child => if g.get? child = some true then g.set child false else g) g).keys,
        known n = true := by
    intro cs
    induction cs with
    | nil => exact fun g hg => hg
    | cons c cs ih =>
      intro g hg
      rw [List.foldl_cons]
      refine ih _ ?_
      split_ifs with hc
      · rwa [Dict.keys_set_of_mem (Dict.mem_keys_of_get? hc)]
      · exact hg
  unfold grantIn
  split_ifs
  · exact hset
  · exact hfold _ _ hset

theorem fits_save (h : Fits W K (save K b)) : Fits W K b := by
  unfold Fits document at h ⊢
  rwa [apps_save] at h

section Steps
variable [LinearOrder φ]

theorem least_mem {cs : List (Bool × φ × Text)} {c : Bool × φ × Text} (h : least cs = some c) : c ∈ cs := by
  have hfold : ∀ (cs : List (Bool × φ × Text)) (m : Bool × φ × Text),
      cs.foldl (fun m c => if before c m then c else m) m ∈ m :: cs := by
    intro cs
    induction cs with
    | nil => exact fun m => List.mem_cons_self
    | cons c cs ih =>
      intro m
      rw [List.foldl_cons]
      rcases List.mem_cons.mp (ih (if before c m then c else m)) with h | h
      · rw [h]
        split_ifs
        · exact List.mem_cons_of_mem _ List.mem_cons_self
        · exact List.mem_cons_self
      · exact List.mem_cons_of_mem _ (List.mem_cons_of_mem _ h)
  match cs, h with
  | x :: cs, h =>
    rw [← Option.some.inj h]
    exact hfold cs x

variable {b : PermissionBook φ}

theorem evicted_notMem {gone : Text} (h : b.evicted = some gone) : gone ∉ b.fixed := by
  unfold evicted at h
  split_ifs at h
  obtain ⟨c, hc, rfl⟩ := Option.map_eq_some_iff.mp h
  obtain ⟨e, he, rfl⟩ := List.mem_map.mp (least_mem hc)
  exact of_decide_eq_true (List.mem_filter.mp he).2

theorem makeRoom_sound (hsound : SoundApps W b.apps) (hfixed : ∀ app ∈ b.fixed, app ∈ b.apps.keys) :
    SoundApps W b.makeRoom.apps ∧ ∀ app ∈ b.makeRoom.fixed, app ∈ b.makeRoom.apps.keys := by
  unfold makeRoom
  split
  · exact ⟨hsound, hfixed⟩
  next gone hgone =>
    refine ⟨hsound.pop gone, fun app happ => Dict.mem_keys_pop.mpr ⟨hfixed app happ, fun heq => ?_⟩⟩
    exact evicted_notMem hgone (by rw [← heq]; exact happ)

theorem path_makeRoom (b : PermissionBook φ) : b.makeRoom.path = b.path := by
  unfold makeRoom
  split <;> rfl

/-- What the caller gives is made of values that Python holds, and the book it leads to fits. -/
def Within (W : World) (K : Clock φ) (h : Hist φ) (op : Op φ) : Prop :=
  (match op with
    | .declare d => d.raw.Held W ∧ Points d.source
    | _ => True) ∧
  Fits W K (h.step W K op).book

variable (hfloats : Floats W.floatRepr) (hrepr : ∀ t, FloatText W.floatRepr (K.repr t))
include hfloats hrepr

/-- **A declaration keeps the file faithful.** What changes what `allows` answers is saved. -/
theorem faithful_declare {b' : PermissionBook φ} (hb : Faithful W K b) {d : Declaration φ}
    (hraw : d.raw.Held W) (hsource : Points d.source) (h : declare W K b d = .ok b')
    (hfit : Fits W K b') : Faithful W K b' := by
  unfold declare at h
  by_cases hid : isHexId d.app = true
  swap
  · rw [if_pos hid] at h
    cases h
  rw [if_neg (not_not.mpr hid)] at h
  rcases hm : parseManifest W d.raw with err | m
  · rw [hm] at h
    cases h
  rw [hm] at h
  dsimp only at h
  have hmanifest : ∀ m' ∈ some m, Kept m' ∧ Plain W.floatRepr (.obj m'.document) := by
    intro m' hm'
    rw [← Option.some.inj hm']
    exact ⟨kept_of_parse hm, plain_document hfloats hraw hm⟩
  -- an entry that is recorded keeps known grants only
  have hnoted : ∀ {x : PermissionBook φ} {e : Entry φ}, SoundApps W x.apps →
      (∀ app ∈ x.fixed, app ∈ x.apps.keys) → (∀ name ∈ e.grants.keys, known name = true) →
      SoundApps W (x.noted e d m).apps ∧ ∀ app ∈ (x.noted e d m).fixed, app ∈ (x.noted e d m).apps.keys := by
    intro x e hx hxfixed he
    refine ⟨hx.set hid ⟨hmanifest, fun name hname => ?_, hsource⟩, fun app happ => ?_⟩
    · rw [Dict.keys_filterKeys] at hname
      exact he name (List.mem_filter.mp hname).1
    · refine Dict.mem_keys_set.mpr ?_
      have happ' : app ∈ if d.fixed ∧ d.app ∉ x.fixed then d.app :: x.fixed else x.fixed := happ
      split_ifs at happ'
      · rcases List.mem_cons.mp happ' with rfl | happ'
        · exact Or.inl rfl
        · exact Or.inr (hxfixed app happ')
      · exact Or.inr (hxfixed app happ')
  rcases he : b.apps.get? d.app with _ | e
  · rw [he] at h
    dsimp only at h
    obtain ⟨hroom, hroomFixed⟩ := makeRoom_sound hb.sound hb.fixed
    have hnew : d.app ∉ b.fixed := fun hf => Dict.get?_eq_none.mp he (hb.fixed _ hf)
    rw [if_neg (by rw [fixed_makeRoom]; exact fun hx => hnew hx.1)] at h
    have hb' := Except.ok.inj h
    rw [record, if_pos (by rfl)] at hb'
    obtain ⟨hsound, hfixed⟩ := @hnoted
      { b.makeRoom with apps := b.makeRoom.apps.set d.app ⟨none, Dict.empty, d.source, K.zero⟩ }
      ⟨none, Dict.empty, d.source, K.zero⟩
      (hroom.set hid ⟨fun _ hm' => (by cases hm'), fun _ hname => (by cases hname), hsource⟩)
      (fun app happ => Dict.mem_keys_set.mpr (Or.inr (hroomFixed app happ)))
      (fun _ hname => by cases hname)
    rw [← hb'] at hfit ⊢
    exact faithful_save hrepr hsound hfixed ((path_makeRoom b).trans hb.path) (fits_save hfit)
  · rw [he] at h
    dsimp only at h
    by_cases hblocked : d.app ∈ b.fixed ∧ ¬ d.fixed = true
    · rw [if_pos hblocked] at h
      rw [← Except.ok.inj h]
      exact hb
    · rw [if_neg hblocked] at h
      have hb' := Except.ok.inj h
      obtain ⟨hsound, hfixed⟩ := hnoted hb.sound hb.fixed (hb.sound _ e he).2.grants
      by_cases hchanged : changes W e m = true
      · rw [record, if_pos hchanged] at hb'
        rw [← hb'] at hfit ⊢
        exact faithful_save hrepr hsound hfixed hb.path (fits_save hfit)
      · rw [record, if_neg hchanged] at hb'
        rw [← hb']
        refine ⟨hsound, hfixed, hb.path, fun hlarge => (hb.file hlarge).trans fun app => ?_⟩
        unfold changes at hchanged
        simp only [decide_eq_true_eq, not_or, not_not, not_exists, not_and] at hchanged
        obtain ⟨hsame, hwanted⟩ := hchanged
        by_cases happ : app = d.app
        · subst happ
          simp only [grantsOf, askedOf, noted, he, Dict.get?_set_self, Option.map_some,
            Option.getD_some, Option.bind_some]
          constructor
          · intro name
            rw [Dict.get?_filterKeys]
            split_ifs with hin
            · rfl
            · refine Dict.get?_eq_none.mpr fun hname => hin (decide_eq_true (hwanted name hname))
          · rcases ho : e.manifest with _ | o
            · rw [ho] at hsame
              cases hsame
            · rw [ho] at hsame
              have hperms := (of_decide_eq_true hsame).2.2.2.2.1
              rw [Option.map_some, Manifest.asked, hperms]
              rfl
        · simp only [grantsOf, askedOf, noted, Dict.get?_set_of_ne _ fun heq => happ heq.symm]
          exact ⟨fun _ => trivial, trivial⟩

theorem Faithful.step {h : Hist φ} (hb : Faithful W K h.book) {op : Op φ} (hw : Within W K h op) :
    Faithful W K (h.step W K op).book := by
  obtain ⟨hheld, hfit⟩ := hw
  cases op with
  | declare d =>
    rcases hd : declare W K h.book d with e | b
    · simp only [Hist.step, hd]
      exact hb
    · simp only [Hist.step, hd] at hfit ⊢
      exact faithful_declare hfloats hrepr hb hheld.1 hheld.2 hd hfit
  | setGrant app name granted =>
    rcases hset : setGrant K h.book app name granted with _ | b
    · simp only [Hist.step, hset]
      exact hb
    · simp only [Hist.step, hset] at hfit ⊢
      unfold setGrant at hset
      split at hset
      · cases hset
      next e he =>
        split_ifs at hset with hreq
        rw [← Option.some.inj hset] at hfit ⊢
        obtain ⟨hid, hsound⟩ := hb.sound app e he
        refine faithful_save hrepr (hb.sound.set hid ⟨hsound.manifest, ?_, hsound.source⟩)
          (fun app' happ => Dict.mem_keys_set.mpr (Or.inr (hb.fixed app' happ))) hb.path (fits_save hfit)
        exact sound_grantIn hsound.grants (known_requested hreq) granted
  | forget app =>
    rcases hforget : forget K h.book app with _ | b
    · simp only [Hist.step, hforget]
      exact hb
    · simp only [Hist.step, hforget] at hfit ⊢
      unfold forget at hforget
      split_ifs at hforget with hno
      rw [← Option.some.inj hforget] at hfit ⊢
      refine faithful_save hrepr (hb.sound.pop app) (fun app' happ => ?_) hb.path (fits_save hfit)
      exact Dict.mem_keys_pop.mpr ⟨hb.fixed app' happ, fun heq => hno (Or.inl (by rw [← heq]; exact happ))⟩

end Steps

/-! ### Nothing to lose -/

/-- No app has more or less than an app that nobody knows: each asks for every normal permission and is
refused none, and no other is granted. -/
def Bare (b : PermissionBook φ) : Prop :=
  ∀ app e, b.apps.get? app = some e →
    (∀ p, known p = true → level p = .normal →
      e.grants.get? p ≠ some false ∧ ∀ m ∈ e.manifest, p ∈ m.wanted) ∧
    ∀ p, known p = true → level p ≠ .normal → e.grants.get? p ≠ some true

theorem allows_nobody (h : b.apps.get? app = none) (name : Text) (identified : Bool) :
    b.allows app name identified = (known name && decide (level name = .normal)) := by
  have hgrants : grantsOf b.apps app = Dict.empty := by rw [grantsOf, h]; rfl
  have hasked : askedOf b.apps app = none := by rw [askedOf, h]; rfl
  rw [allows_eq, hgrants, hasked]
  by_cases hk : known name = true
  · rw [if_neg (not_not.mpr hk), hk, Bool.true_and]
    by_cases hl : level name = .normal
    · rw [if_pos hl, decide_eq_true hl]
      rfl
    · rw [if_neg hl, decide_eq_false hl]
      cases identified
      · rfl
      · rcases parent name with _ | up <;> rfl
  · rw [if_pos hk, Bool.not_eq_true] at *
    rw [hk]
    rfl

theorem parent_known {name up : Text} (h : parent name = some up) :
    known up = true ∧ level up ≠ .normal := by
  have hchild := mem_children_iff.mpr h
  constructor
  · by_contra hk
    rw [children, Option.not_isSome_iff_eq_none.mp hk] at hchild
    cases hchild
  · intro hl
    rw [(normal_alone hl).2] at hchild
    cases hchild

/-- **A book answers as one that knows nobody exactly if it is bare.** -/
theorem bare_iff (b : PermissionBook φ) : Bare b ↔ ∀ app name identified,
    b.allows app name identified = (known name && decide (level name = .normal)) := by
  constructor
  · intro h app name identified
    rcases he : b.apps.get? app with _ | e
    · exact allows_nobody he name identified
    · obtain ⟨hnormal, hother⟩ := h app e he
      have hgrants : grantsOf b.apps app = e.grants := by rw [grantsOf, he]; rfl
      rw [allows_eq, hgrants]
      by_cases hk : known name = true
      · rw [if_neg (not_not.mpr hk), hk, Bool.true_and]
        by_cases hl : level name = .normal
        · obtain ⟨hno, hasks⟩ := hnormal name hk hl
          rw [if_pos hl, if_neg hno, decide_eq_true hl, askedOf, he]
          rcases hm : e.manifest with _ | m
          · simp [hm]
          · simpa [hm, Manifest.wanted] using hasks m hm
        · rw [if_neg hl, decide_eq_false hl, if_neg (hother name hk hl)]
          cases identified
          · rfl
          · rcases hup : parent name with _ | up
            · rfl
            · obtain ⟨hkup, hlup⟩ := parent_known hup
              exact decide_eq_false (hother up hkup hlup)
      · rw [if_pos hk, Bool.not_eq_true _ |>.mp hk]
        rfl
  · intro h app e he
    have hgrants : grantsOf b.apps app = e.grants := by rw [grantsOf, he]; rfl
    constructor
    · intro p hk hl
      have hall := h app p true
      rw [allows_eq, if_neg (not_not.mpr hk), if_pos hl, hgrants, hk, decide_eq_true hl] at hall
      by_cases hno : e.grants.get? p = some false
      · rw [if_pos hno] at hall
        cases hall
      · rw [if_neg hno, askedOf, he] at hall
        refine ⟨hno, fun m hm => ?_⟩
        rw [Option.bind_some, show e.manifest = some m from hm] at hall
        exact of_decide_eq_true hall
    · intro p hk hl hyes
      have hall := h app p true
      rw [allows_eq, if_neg (not_not.mpr hk), if_neg hl, hgrants, hk, decide_eq_false hl,
        if_neg (by decide), if_pos hyes] at hall
      cases hall

/-! ### A restart -/

/-- **A restart changes no permission, exactly where** the file is not over its limit or there is nothing
to lose. -/
theorem restarts [LinearOrder φ] (W : World) (K : Clock φ) (hfloats : Floats W.floatRepr)
    (hrepr : ∀ t, FloatText W.floatRepr (K.repr t)) (data : Option (List UInt8)) (ops : List (Op φ))
    (hw : Guarded (Hist.step W K) (Within W K) ⟨opened W K (data.bind decodeUtf8), []⟩ ops) :
    let b := (run (Hist.step W K) ⟨opened W K (data.bind decodeUtf8), []⟩ ops).book
    (∀ app name identified,
      (opened W K b.file).allows app name identified = b.allows app name identified) ↔
    tooLarge b.file = false ∨ Bare b := by
  intro b
  have hfile : ∀ text ∈ data.bind decodeUtf8, Points text := by
    intro text htext
    obtain ⟨bytes, -, hdecode⟩ := Option.bind_eq_some_iff.mp htext
    exact points_decode hdecode
  have hb : Faithful W K b := Guarded.run_induct (P := fun h => Faithful W K h.book)
    (fun h op hh hop => Faithful.step hfloats hrepr hh hop) (faithful_opened hfloats hfile) hw
  have hlost : tooLarge b.file = true → ∀ app name identified,
      (opened W K b.file).allows app name identified = (known name && decide (level name = .normal)) := by
    intro hlarge app name identified
    refine allows_nobody ?_ name identified
    show (load W K b.file).get? app = none
    unfold load
    split
    · rfl
    next text htext =>
      rw [htext] at hlarge
      rw [if_pos (of_decide_eq_true hlarge)]
      rfl
  constructor
  · intro hsame
    by_cases hlarge : tooLarge b.file = true
    · right
      rw [bare_iff]
      intro app name identified
      rw [← hsame, hlost hlarge]
    · exact Or.inl (by simpa using hlarge)
  · rintro (hsmall | hbare) app name identified
    · exact Alike.allows (hb.file hsmall) app name identified
    · by_cases hlarge : tooLarge b.file = true
      · rw [hlost hlarge, (bare_iff b).mp hbare]
      · exact Alike.allows (hb.file (by simpa using hlarge)) app name identified

theorem restarts_refused :
    let b := (run (Hist.step plainWorld seconds) ⟨opened plainWorld seconds none, []⟩ takenBack).book
    (opened plainWorld seconds b.file).allows anApp (ascii "network") true = false := by
  have hwithin : Guarded (Hist.step plainWorld seconds) (Within plainWorld seconds)
      ⟨opened plainWorld seconds ((none : Option (List UInt8)).bind decodeUtf8), []⟩ takenBack := by
    have hdoc : ∀ (x : PermissionBook ℕ), (height (document seconds x) ≤ plainWorld.depth ∧
        x.apps.size ≤ maxApps) → Fits plainWorld seconds x := fun x h => h
    refine ⟨⟨⟨?_, ?_⟩, hdoc _ (by decide +kernel)⟩, ⟨trivial, hdoc _ (by decide +kernel)⟩, trivial⟩
    · refine ⟨points_of_scalars (by decide), points_of_scalars (by decide),
        points_of_scalars (by decide), ⟨points_of_scalars (by decide), trivial⟩, trivial⟩
    · exact points_of_scalars (by decide)
  have hsame := (restarts plainWorld seconds floats_wholeRepr floatText_wholeRepr none takenBack hwithin).mpr
    (Or.inl (by decide +kernel))
  intro b
  exact (hsame anApp (ascii "network") true).trans (by decide +kernel)

def lengthy (members : List (Text × Json)) : Raw :=
  .value (.obj [(ascii "name", .str (ascii "app")), (ascii "permissions", .arr [.str (ascii "network")]),
    (ascii "api", .arr [.obj members])])

def refusedLengthy (members : List (Text × Json)) : List (Op ℕ) :=
  [.declare ⟨anApp, lengthy members, ascii "connector", false, 1⟩,
    .setGrant anApp (ascii "network") false]

def parsedLengthy (members : List (Text × Json)) : Manifest :=
  ⟨ascii "app", ascii "app", [], [], [⟨ascii "network", []⟩], [.obj members]⟩

def recordedEntry (members : List (Text × Json)) : Entry ℕ :=
  ⟨some (parsedLengthy members), Dict.empty.set (ascii "network") false, ascii "connector", 1⟩

def recorded (members : List (Text × Json)) : Dict Text (Entry ℕ) :=
  Dict.empty.set anApp (recordedEntry members)

theorem run_lengthy (members : List (Text × Json)) :
    (run (Hist.step plainWorld seconds) ⟨opened plainWorld seconds none, []⟩ (refusedLengthy members)).book =
      ⟨recorded members, [], true,
        some (write compact (document seconds ⟨recorded members, [], true, none⟩))⟩ := rfl

theorem length_recorded (members : List (Text × Json)) : (write compact (.obj members)).length ≤
    (write compact (document seconds ⟨recorded members, [], true, none⟩)).length := by
  have hfirst : ∀ (e : Text × Json) (rest : List (Text × Json)),
      (write compact e.2).length ≤ (write compact (.obj (e :: rest))).length :=
    fun e rest => length_le_write_obj List.mem_cons_self
  have hapi : ∀ m : Manifest, (write compact (.arr m.api)).length ≤
      (write compact (.obj m.document)).length :=
    fun m => @length_le_write_obj compact (ascii "api", .arr m.api) m.document (by
      simp [Manifest.document])
  have hitem : (write compact (.obj members)).length ≤ (write compact (.arr [.obj members])).length :=
    length_le_write_arr List.mem_cons_self
  have hentry : (write compact (.obj (parsedLengthy members).document)).length ≤
      (write compact (entryDocument seconds (recordedEntry members))).length :=
    hfirst (ascii "manifest", .obj (parsedLengthy members).document) _
  have hdocument : (write compact (entryDocument seconds (recordedEntry members))).length ≤
      (write compact (document seconds ⟨recorded members, [], true, none⟩)).length :=
    (hfirst (anApp, entryDocument seconds (recordedEntry members)) []).trans (hfirst (ascii "apps", _) [])
  exact hitem.trans ((hapi (parsedLengthy members)).trans (hentry.trans hdocument))

theorem length_le_fileSize (text : Text) : text.length ≤ fileSize text := by
  have hone : ∀ c, 1 ≤ (encodeChar c).length := by
    intro c
    unfold encodeChar
    split_ifs <;> simp
  unfold fileSize
  induction text with
  | nil => exact Nat.zero_le _
  | cons c text ih =>
    have := hone c
    rw [List.flatMap_cons, List.length_append, List.length_cons]
    omega

/-- **The file is refused as a whole, and the refusal with it.** -/
theorem forgets_refusal :
    let b := (run (Hist.step plainWorld seconds) ⟨opened plainWorld seconds none, []⟩
      (refusedLengthy [(ascii "name", .str (List.replicate 600000 0x61))])).book
    b.apps.size = 1 ∧ b.allows anApp (ascii "network") true = false ∧
      (opened plainWorld seconds b.file).allows anApp (ascii "network") true = true := by
  intro b
  have hb := run_lengthy [(ascii "name", .str (List.replicate 600000 0x61))]
  rw [show b = _ from hb]
  refine ⟨rfl, not_allowed (by decide +kernel) rfl true, ?_⟩
  have hlong : fileMax < fileSize (write compact (document seconds
      ⟨recorded [(ascii "name", .str (List.replicate 600000 0x61))], [], true, none⟩)) := by
    have hname : (write compact (.str (List.replicate 600000 0x61))).length ≤ (write compact
        (.obj [(ascii "name", .str (List.replicate 600000 0x61))])).length :=
      @length_le_write_obj compact (ascii "name", .str (List.replicate 600000 0x61))
        [(ascii "name", .str (List.replicate 600000 0x61))] List.mem_cons_self
    have hstr := @length_le_write_str compact (List.replicate 600000 0x61)
    rw [List.length_replicate] at hstr
    have hall := length_recorded [(ascii "name", .str (List.replicate 600000 0x61))]
    have hsize := length_le_fileSize (write compact (document seconds
      ⟨recorded [(ascii "name", .str (List.replicate 600000 0x61))], [], true, none⟩))
    have hmax : fileMax = 524288 := rfl
    omega
  have hload : load plainWorld seconds (some (write compact (document seconds
      ⟨recorded [(ascii "name", .str (List.replicate 600000 0x61))], [], true, none⟩))) = Dict.empty := by
    rw [load, if_pos hlong]
  rw [opened, hload, allows_nobody rfl]
  decide +kernel

end NMesh.Perms.Restart
