import NMesh.Perms.Parse

/-! # The permission book

`PermissionBook`: who asked for what, and what a human gave, with the file it is kept in.

Times are floats, of an ordered type with the text that `repr` writes. The file is its text; where the
book has no path there is none. -/

namespace NMesh.Perms.Book

open Base.Utf8 Base.Ordered Base.JsonText Base.JsonStyle
open NMesh.Perms.Tree NMesh.Perms.Parse

def maxApps : ℕ := 64

def fileMax : ℕ := 512 * 1024

/-- Floats: the text of one, and `float(value or 0)` of a number that JSON holds. -/
structure Clock (φ : Type) where
  zero : φ
  repr : φ → Text
  ofJson : Json → φ

/-- What is kept of one app. -/
structure Entry (φ : Type) where
  manifest : Option Manifest
  grants : Dict Text Bool
  source : Text
  seen : φ

/-- The book: the apps, the built-in ones, whether it has a path, and the file there. -/
structure PermissionBook (φ : Type) where
  apps : Dict Text (Entry φ)
  fixed : List Text
  path : Bool
  file : Option Text

variable {φ : Type}

namespace PermissionBook

/-! ### Reading -/

/-- `_apps.get(app)["grants"]`, empty for an app that is not known. -/
def grants (b : PermissionBook φ) (app : Text) : Dict Text Bool :=
  ((b.apps.get? app).map Entry.grants).getD Dict.empty

/-- `_apps.get(app)["manifest"]` -/
def manifest (b : PermissionBook φ) (app : Text) : Option Manifest := (b.apps.get? app).bind Entry.manifest

def requested (b : PermissionBook φ) (app : Text) : List Text :=
  match b.manifest app with
  | none => []
  | some m => m.wanted

def allows (b : PermissionBook φ) (app name : Text) (identified : Bool) : Bool :=
  if ¬ known name then false
  else if level name = .normal then
    if (b.grants app).get? name = some false then false
    else match b.manifest app with
      -- every app written before manifests existed had these
      | none => true
      | some _ => name ∈ b.requested app
  else if ¬ identified then false
  else if (b.grants app).get? name = some true then true
  else match parent name with
    | none => false
    | some up => (b.grants app).get? up = some true

/-! ### Writing -/

section Saving
variable (K : Clock φ)

def entryDocument (e : Entry φ) : Json :=
  .obj [(ascii "manifest", match e.manifest with
      | none => .null
      | some m => .obj m.document),
    (ascii "grants", .obj (e.grants.entries.map fun g => (g.1, .bool g.2))),
    (ascii "source", .str e.source), (ascii "seen", .float (K.repr e.seen))]

/-- `{"apps": self._apps}` -/
def document (b : PermissionBook φ) : Json :=
  .obj [(ascii "apps", .obj (b.apps.entries.map fun e => (e.1, entryDocument K e.2)))]

/-- `_save()`, where the write succeeds. -/
def save (b : PermissionBook φ) : PermissionBook φ :=
  if b.path then { b with file := some (write compact (document K b)) } else b

/-- The grants of an app after one is given or taken back. -/
def grantIn (grants : Dict Text Bool) (name : Text) (granted : Bool) : Dict Text Bool :=
  let given := grants.set name granted
  -- taking back a parent takes back what it covered
  if granted then given
  else (children name).foldl
    (fun g child => if g.get? child = some true then g.set child false else g) given

/-- `set_grant(app_hex, name, granted)`; `none` where it answers False. -/
def setGrant (b : PermissionBook φ) (app name : Text) (granted : Bool) : Option (PermissionBook φ) :=
  match b.apps.get? app with
  | none => none
  | some e =>
    if name ∉ b.requested app then none
    else some (save K { b with
      apps := b.apps.set app { e with grants := grantIn e.grants name granted } })

/-- `forget(app_hex)`; `none` where it answers False. -/
def forget (b : PermissionBook φ) (app : Text) : Option (PermissionBook φ) :=
  if app ∈ b.fixed ∨ app ∉ b.apps.keys then none
  else some (save K { b with apps := b.apps.pop app })

end Saving

/-! ### Declaring -/

section Declaring
variable [LinearOrder φ]

/-- The order of tuples: whether a grant is held, when it was seen, and its id. -/
def before (a b : Bool × φ × Text) : Bool :=
  (a.1 = false ∧ b.1 = true) ∨ a.1 = b.1 ∧ (a.2.1 < b.2.1 ∨ a.2.1 = b.2.1 ∧ a.2.2 < b.2.2)

/-- `min(candidates)` -/
def least : List (Bool × φ × Text) → Option (Bool × φ × Text)
  | [] => none
  | c :: cs => some (cs.foldl (fun m c => if before c m then c else m) c)

/-- The candidates of `_make_room`. -/
def candidates (b : PermissionBook φ) : List (Bool × φ × Text) :=
  (b.apps.entries.filter fun e => e.1 ∉ b.fixed).map fun e =>
    (e.2.grants.values.any id, e.2.seen, e.1)

/-- The app that `_make_room` forgets, if it forgets one. -/
def evicted (b : PermissionBook φ) : Option Text :=
  if b.apps.size < maxApps then none else (least b.candidates).map fun c => c.2.2

def makeRoom (b : PermissionBook φ) : PermissionBook φ :=
  match b.evicted with
  | none => b
  | some app => { b with apps := b.apps.pop app }

/-- What `declare` is called with, and the time of the call. -/
structure Declaration (φ : Type) where
  app : Text
  raw : Raw
  source : Text
  fixed : Bool
  now : φ

variable (W : World) (K : Clock φ)

/-- `entry.get("manifest") == manifest` -/
def sameManifest (old : Option Manifest) (m : Manifest) : Bool :=
  match old with
  | none => false
  | some o => o.name = m.name ∧ o.title = m.title ∧ o.version = m.version ∧
      o.description = m.description ∧ o.permissions = m.permissions ∧ W.sameValues o.api m.api

/-- The book with a manifest on record for an app that had this entry. -/
def noted (b : PermissionBook φ) (e : Entry φ) (d : Declaration φ) (m : Manifest) : PermissionBook φ :=
  { b with
    apps := b.apps.set d.app
      ⟨some m, e.grants.filterKeys fun name => name ∈ m.wanted, d.source, d.now⟩
    fixed := if d.fixed ∧ d.app ∉ b.fixed then d.app :: b.fixed else b.fixed }

def changes (e : Entry φ) (m : Manifest) : Bool :=
  ¬ sameManifest W e.manifest m ∨ ∃ name ∈ e.grants.keys, name ∉ m.wanted

/-- Recording a manifest for an app with this entry; what changes is saved. -/
def record (b : PermissionBook φ) (e : Entry φ) (d : Declaration φ) (m : Manifest) : PermissionBook φ :=
  if changes W e m then save K (b.noted e d m) else b.noted e d m

/-- `declare(app_hex, manifest, source=…, fixed=…)`; the error is the text of the `ManifestError`. -/
def declare (b : PermissionBook φ) (d : Declaration φ) : Except Text (PermissionBook φ) :=
  if ¬ isHexId d.app then .error (ascii "not an app id")
  else match parseManifest W d.raw with
    | .error e => .error e
    | .ok m =>
      match b.apps.get? d.app with
      | none =>
        let e : Entry φ := ⟨none, Dict.empty, d.source, K.zero⟩
        let b := b.makeRoom
        let b := { b with apps := b.apps.set d.app e }
        -- a built-in's manifest is this build's
        if d.app ∈ b.fixed ∧ ¬ d.fixed then .ok b else .ok (record W K b e d m)
      | some e => if d.app ∈ b.fixed ∧ ¬ d.fixed then .ok b else .ok (record W K b e d m)

end Declaring

end PermissionBook

end NMesh.Perms.Book
