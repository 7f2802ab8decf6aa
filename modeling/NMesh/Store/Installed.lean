import NMesh.Base.Paths
import NMesh.Base.Runs
import NMesh.Store.Package

/-! # Apps on disk

A node installs an app in three moves: its files are fetched and checked, the directory of the app is cleared and
the files written, and the record is made. Where a package writes all its files, to places that do not get in each
other's way, and neither the table of records nor the disk fails the call, what is recorded is what is on disk, and
a call that fails changes nothing (`stays_installed`). In any case nothing is written outside the app's own directory. -/

namespace NMesh.Store.Installed

open Base.BigEndian Base.Utf8 Base.Hex Base.Ordered Base.Runs Base.Paths
open NMesh.Store.Catalogue NMesh.Store.Package

/-! ### Places -/

/-- `os.fsencode`: lone surrogates from U+DC80 on stand for the bytes that are no UTF-8. -/
def fsencode : Text → Option Bytes
  | [] => some []
  | c :: text =>
    if 0xDC80 ≤ c ∧ c ≤ 0xDCFF then (fsencode text).map (UInt8.ofNat (c - 0xDC00) :: ·)
    else if Scalar c then (fsencode text).map (encodeChar c ++ ·)
    else none

def place (path : Text) : Option (List Bytes) := (resolve path).mapM fsencode

def safeRel (path : Text) : Option Text :=
  if path = [] ∨ 0 ∈ path then none
  else
    let norm := normpath path
    if isAbs norm ∨ above <+: norm ∨ norm = here then none else if above ∈ split norm then none else some norm

/-- Where a path of a package is written, below the directory of the app. -/
def relOf (path : Text) : Option (List Bytes) := (safeRel path).bind fun safe => (split safe).mapM fsencode

/-- **A node and its disk**: the directory of the apps, and how many may be installed. -/
structure Config where
  world : World
  appsDir : Text
  max : ℤ
  root : List Bytes
  placed : place appsDir = some root

/-! ### Writing -/

/-- One file of a package. A fault leaves nothing, or something, in its place. -/
def writeOne (dir : Text) (fault : Option (Option Bytes)) (safe : Text) (content : Bytes) (t : FileTree Bytes) :
    Bool × FileTree Bytes :=
  let dest := resolve (join dir safe)
  match dest.dropLast.mapM fsencode with
  | none => (false, t)
  | some parent =>
    match t.makeDirs parent with
    | none => (false, t)
    | some t =>
      match dest.mapM fsencode, fault with
      | none, _ => (false, t)
      | some _, some none => (false, t)
      | some dest, some (some left) => (false, (t.write dest left).getD t)
      | some dest, none =>
        match t.write dest content with
        | none => (false, t)
        | some t => (true, t)

/-- The files of a package in turn, up to the first that fails; a path that is not usable is left out. -/
def writeAll (dir : Text) (fault : ℕ → Option (Option Bytes)) : ℕ → List (Text × Bytes) → FileTree Bytes →
    Bool × FileTree Bytes
  | _, [], t => (true, t)
  | n, (path, content) :: rest, t =>
    match safeRel path with
    | none => writeAll dir fault n rest t
    | some safe =>
      match writeOne dir (fault n) safe content t with
      | (false, t) => (false, t)
      | (true, t) => writeAll dir fault (n + 1) rest t

/-- `if os.path.isdir(d): shutil.rmtree(d)` -/
def clear (dir : Text) (t : FileTree Bytes) : FileTree Bytes :=
  match place dir with
  | none => t
  | some d => if d ∈ t.dirs then t.removeTree d else t

/-! ### The record of what is installed -/

/-- What is recorded of an app. -/
structure Meta where
  appId : Text
  name : Text
  version : Text
  author : Text
  releaseId : Text
  ts : ℤ
  installedTs : ℤ

def metaOf (key : Text) (e : Entry) (now : ℤ) : Meta :=
  ⟨key, e.name, e.version, toHex e.author, toHex e.releaseId, e.ts, now⟩

structure State where
  catalog : AppCatalog
  apps : Dict Text Meta
  /-- the file of the registry, once there is one -/
  file : Option (Dict Text Meta)
  tree : FileTree Bytes

/-- What the disk fails in a call: a write of a file, by its number, or that of the registry. -/
structure Faults where
  files : ℕ → Option (Option Bytes)
  registry : Bool

def save (fails : Bool) (s : State) : Bool × State := if fails then (false, s) else (true, { s with file := some s.apps })

section Calls

variable (c : Config)

def appDir (key : Text) : Text := join c.appsDir key

def writeFiles (key : Text) (files : Dict Text Bytes) (fault : ℕ → Option (Option Bytes)) (t : FileTree Bytes) :
    Bool × FileTree Bytes :=
  writeAll (appDir c key) fault 0 files.entries (clear (appDir c key) t)

def record (m : Meta) (fails : Bool) (s : State) : Bool × State :=
  if m.appId ∉ s.apps.keys ∧ c.max ≤ s.apps.size then (false, s)
  else save fails { s with apps := s.apps.set m.appId m }

def remove (key : Text) (fails : Bool) (s : State) : Bool × State :=
  if key ∉ s.apps.keys then (false, s)
  else
    match save fails { s with apps := s.apps.pop key } with
    | (false, s) => (false, s)
    | (true, s) => (true, { s with tree := clear (appDir c key) s.tree })

/-- `install_app`; the first part says whether a record was returned. -/
def installApp (key : Text) (get : Bytes → Option Bytes) (faults : Faults) (now : ℤ) (s : State) : Bool × State :=
  match (fromHex key).bind s.catalog.apps.get? with
  | none => (false, s)
  | some e =>
    match fetchApp c.world get e.rootKey with
    | none => (false, s)
    | some files =>
      match writeFiles c key files faults.files s.tree with
      | (false, tree) => (false, { s with tree })
      | (true, tree) => record c (metaOf key e now) faults.registry { s with tree }

def updateApp (key : Text) (get : Bytes → Option Bytes) (faults : Faults) (now : ℤ) (s : State) : Bool × State :=
  match s.apps.get? key with
  | none => (false, s)
  | some inst =>
    match (fromHex key).bind s.catalog.apps.get? with
    | none => (false, s)
    | some e => if e.ts ≤ inst.ts then (false, s) else installApp c key get faults now s

/-- What a look-up finds: values of `T`, each under its own hash. -/
structure Lookup (T : Set Bytes) where
  get : Bytes → Option Bytes
  verified : Verified c.world get
  mem : ∀ k v, get k = some v → v ∈ T

/-- The calls, and the releases that reach the catalogue between them. -/
inductive Call (T : Set Bytes)
  | offer (data : Bytes)
  | install (key : Text) (find : Lookup c T) (faults : Faults) (now : ℤ)
  | update (key : Text) (find : Lookup c T) (faults : Faults) (now : ℤ)
  | uninstall (key : Text) (fails : Bool)

variable {T : Set Bytes}

def perform (s : State) : Call c T → Bool × State
  | .offer data => (true, { s with catalog := (s.catalog.offer c.world data).2 })
  | .install key find faults now => installApp c key find.get faults now s
  | .update key find faults now => updateApp c key find.get faults now s
  | .uninstall key fails => remove c key fails s

def step (s : State) (call : Call c T) : State := (perform c s call).2

def start (maxCatalog : ℤ) (t : FileTree Bytes) : State := ⟨new maxCatalog, .empty, none, t⟩

/-- The directory of the apps is empty, and no file stands on the way to it. -/
structure Bare (t : FileTree Bytes) : Prop where
  way : ∀ p, p <+: c.root → t.files.get? p = none
  files : ∀ p, c.root <+: p → t.files.get? p = none
  dirs : ∀ name rest, c.root ++ name :: rest ∉ t.dirs

/-! ### What is claimed -/

/-- **A directory has exactly these files.** -/
structure Holds (t : FileTree Bytes) (dir : List Bytes) (files : Dict Text Bytes) : Prop where
  all : ∀ path ∈ files.keys, (relOf path).isSome = true
  exact : ∀ rel content, t.files.get? (dir ++ rel) = some content ↔
    ∃ path, files.get? path = some content ∧ relOf path = some rel

/-- The files of a root key, as values of `T` make them up. -/
def ContentIn (T : Set Bytes) (rootKey : Bytes) (files : Dict Text Bytes) : Prop :=
  ∃ find : Lookup c T, fetchApp c.world find.get rootKey = some files

/-- An app is on disk as it is recorded: some release was recorded, and its directory has exactly the files that
the release stands for. -/
def OnDisk (T : Set Bytes) (t : FileTree Bytes) (key : Text) (m : Meta) : Prop :=
  ∃ data r now name files, parseRelease c.world data = some r ∧ fromHex key = some r.appId ∧
    m = metaOf key (entryOf c.world data r) now ∧ fsencode key = some name ∧ ContentIn c T r.rootKey files ∧
    (∀ files', ContentIn c T r.rootKey files' → files' = files) ∧ Holds t (c.root ++ [name]) files

/-- **What is recorded is what is on disk**, also in the registry's own file. -/
structure Matches (T : Set Bytes) (s : State) : Prop where
  recorded : ∀ key m, s.apps.get? key = some m → OnDisk c T s.tree key m
  unrecorded : ∀ name rest, c.root ++ name :: rest ∈ s.tree.dirs ∨
    (s.tree.files.get? (c.root ++ name :: rest)).isSome = true → ∃ key ∈ s.apps.keys, fsencode key = some name
  saved : s.file.getD .empty = s.apps

/-- What a call must keep: the record matches the disk, and a failure leaves both as they were. -/
structure Kept (s : State) (call : Call c T) : Prop where
  after : Matches c T (step c s call)
  failed : (perform c s call).1 = false →
    (step c s call).apps = s.apps ∧ (step c s call).file = s.file ∧ (step c s call).tree = s.tree

def Call.key? : Call c T → Option Text
  | .offer _ => none
  | .install key _ _ _ => some key
  | .update key _ _ _ => some key
  | .uninstall key _ => some key

def Confined (s : State) (call : Call c T) : Prop :=
  (step c s call).tree = s.tree ∨ ∃ key name, call.key? = some key ∧ fsencode key = some name ∧
    ∀ p, ¬ c.root ++ [name] <+: p → (step c s call).tree.files.get? p = s.tree.files.get? p

/-! ### When it is so -/

/-- **A package whose files do not get in each other's way**: every path is usable, and a file stands neither on
the way to another nor in its place with other content. -/
structure Tidy (files : Dict Text Bytes) : Prop where
  usable : ∀ path ∈ files.keys, (relOf path).isSome = true
  apart : ∀ path path' content content' rel rel', files.get? path = some content →
    files.get? path' = some content' → relOf path = some rel → relOf path' = some rel' → rel <+: rel' →
    rel = rel' ∧ content = content'

def Goes (s : State) (key : Text) (find : Lookup c T) (faults : Faults) : Prop :=
  ∀ e files, (fromHex key).bind s.catalog.apps.get? = some e → fetchApp c.world find.get e.rootKey = some files →
    Tidy files ∧ (key ∈ s.apps.keys ∨ (s.apps.size : ℤ) < c.max) ∧
      (∀ n < files.size, faults.files n = none) ∧ faults.registry = false

def Ready (s : State) : Call c T → Prop
  | .offer _ => True
  | .install key find faults _ => Goes c s key find faults
  | .update key find faults _ => ∀ inst e, s.apps.get? key = some inst →
      (fromHex key).bind s.catalog.apps.get? = some e → inst.ts < e.ts → Goes c s key find faults
  | .uninstall key fails => key ∈ s.apps.keys → fails = false

end Calls

/-! ### The paths of a package -/

variable {path safe : Text}

theorem safeRel_names (h : safeRel path = some safe) :
    split safe ≠ [] ∧ (∀ part ∈ split safe, Name part) ∧ joinParts (split safe) = safe := by
  unfold safeRel at h
  dsimp only at h
  split_ifs at h with hbad hnorm habove
  cases h
  obtain ⟨hrel, -, hhere⟩ : isAbs (normpath path) = false ∧ ¬ above <+: normpath path ∧ normpath path ≠ here := by
    obtain ⟨habs, hrest⟩ := not_or.mp hnorm
    exact ⟨Bool.not_eq_true _ ▸ habs, not_or.mp hrest⟩
  obtain ⟨parts, hparts, hne, heq⟩ := normpath_rel hrel hhere
  rw [heq] at habove ⊢
  have hsplit : split (joinParts parts) = parts := split_joinParts hne fun p hp => (hparts.plain p hp).2.2
  rw [hsplit] at habove ⊢
  refine ⟨hne, fun part hpart => ?_, rfl⟩
  obtain ⟨hempty, hdot, hplain⟩ := hparts.plain part hpart
  exact ⟨hempty, hdot, fun h => habove (h ▸ hpart), hplain⟩

theorem resolve_safe (h : safeRel path = some safe) (dir : Text) :
    resolve (join dir safe) = resolve dir ++ split safe := by
  obtain ⟨hne, hnames, hjoin⟩ := safeRel_names h
  rw [← hjoin, resolve_join hne hnames, hjoin]

theorem mapM_append {a b : List Text} :
    (a ++ b).mapM fsencode = (a.mapM fsencode).bind fun x => (b.mapM fsencode).map (x ++ ·) := by
  rw [List.mapM_append]
  cases a.mapM fsencode with
  | none => rfl
  | some x =>
    cases b.mapM fsencode with
    | none | some y => rfl

theorem length_mapM : ∀ {a : List Text} {x : List Bytes}, a.mapM fsencode = some x → x.length = a.length
  | [], _, h => by
    rw [List.mapM_nil] at h
    rw [← Option.some.inj h]
    rfl
  | part :: a, x, h => by
    rw [List.mapM_cons] at h
    simp only [Option.bind_eq_bind, Option.bind_eq_some_iff] at h
    obtain ⟨name, -, rest, hrest, hx⟩ := h
    rw [← Option.some.inj hx, List.length_cons, List.length_cons, length_mapM hrest]

theorem mapM_dropLast {a : List Text} {x : List Bytes} (h : a.mapM fsencode = some x) :
    a.dropLast.mapM fsencode = some x.dropLast := by
  rcases List.eq_nil_or_concat a with rfl | ⟨init, last, rfl⟩
  · rw [List.mapM_nil] at h
    rw [← Option.some.inj h]
    rfl
  · rw [List.concat_eq_append] at h ⊢
    rw [mapM_append, Option.bind_eq_some_iff] at h
    obtain ⟨y, hy, hlast⟩ := h
    obtain ⟨z, hz, rfl⟩ := Option.map_eq_some_iff.mp hlast
    have hlength := length_mapM hz
    obtain ⟨name, rfl⟩ := List.length_eq_one_iff.mp hlength
    rw [List.dropLast_concat, List.dropLast_concat, hy]

variable {d : List Bytes}

theorem dest_eq (h : safeRel path = some safe) {dir : Text} (hd : place dir = some d) :
    (resolve (join dir safe)).mapM fsencode = ((split safe).mapM fsencode).map (d ++ ·) ∧
      (resolve (join dir safe)).dropLast.mapM fsencode = ((split safe).dropLast.mapM fsencode).map (d ++ ·) := by
  rw [resolve_safe h, List.dropLast_append_of_ne_nil (safeRel_names h).1, mapM_append, mapM_append]
  rw [place] at hd
  rw [hd]
  exact ⟨rfl, rfl⟩

/-! ### What writing leaves alone -/

/-- Nothing is changed but below one directory, and no directory is made but that and on the way to it. -/
structure Inside (d : List Bytes) (t t' : FileTree Bytes) : Prop where
  files : ∀ p, ¬ d <+: p → t'.files.get? p = t.files.get? p
  dirs : ∀ p, ¬ d <+: p → p ∈ t'.dirs → p ∈ t.dirs ∨ p <+: d
  keeps : ∀ p, ¬ d <+: p → p ∈ t.dirs → p ∈ t'.dirs

namespace Inside

variable {d : List Bytes} {t t' t'' : FileTree Bytes}

theorem refl : Inside d t t := ⟨fun _ _ => rfl, fun _ _ h => Or.inl h, fun _ _ h => h⟩

theorem trans (h : Inside d t t') (h' : Inside d t' t'') : Inside d t t'' := by
  refine ⟨fun p hp => (h'.files p hp).trans (h.files p hp), fun p hp hmem => ?_,
    fun p hp hmem => h'.keeps p hp (h.keeps p hp hmem)⟩
  rcases h'.dirs p hp hmem with hmem | hway
  · exact h.dirs p hp hmem
  · exact Or.inr hway

theorem makeDirs {rel : List Bytes} (h : t.makeDirs (d ++ rel) = some t') : Inside d t t' := by
  obtain ⟨hfiles, hdirs⟩ := FileTree.makeDirs_spec h
  refine ⟨fun p _ => by rw [hfiles], fun p hp hmem => ?_, fun p _ hmem => (hdirs p).mpr (Or.inr hmem)⟩
  rcases (hdirs p).mp hmem with hmem | hmem
  · rcases List.prefix_or_prefix_of_prefix hmem (List.prefix_append d rel) with hway | hbelow
    · exact Or.inr hway
    · exact absurd hbelow hp
  · exact Or.inl hmem

theorem write {rel : List Bytes} {content : Bytes} (h : t.write (d ++ rel) content = some t') : Inside d t t' := by
  rw [FileTree.write_spec h]
  refine ⟨fun p hp => Dict.get?_set_of_ne _ (fun heq => hp ?_) _, fun p _ hmem => Or.inl hmem, fun p _ hmem => hmem⟩
  rw [← heq]
  exact List.prefix_append d rel

theorem clear {dir : Text} (hd : place dir = some d) : Inside d t (Installed.clear dir t) := by
  rw [Installed.clear, hd]
  dsimp only
  split_ifs
  · refine ⟨fun p hp => ?_, fun p _ hmem => Or.inl ((FileTree.mem_dirs_removeTree p).mp hmem).1,
      fun p hp hmem => (FileTree.mem_dirs_removeTree p).mpr ⟨hmem, hp⟩⟩
    rw [FileTree.get?_removeTree, if_neg hp]
  · exact refl

theorem writeOne {path safe dir : Text} (h : safeRel path = some safe) (hd : place dir = some d)
    (fault : Option (Option Bytes)) (content : Bytes) : Inside d t (writeOne dir fault safe content t).2 := by
  obtain ⟨hdest, hparent⟩ := dest_eq h hd
  unfold Installed.writeOne
  dsimp only
  rw [hdest, hparent]
  cases (split safe).dropLast.mapM fsencode with
  | none => exact refl
  | some rel =>
    simp only [Option.map_some]
    cases hmake : t.makeDirs (d ++ rel) with
    | none => exact refl
    | some t₁ =>
      have hdirs := makeDirs hmake
      cases (split safe).mapM fsencode with
      | none => exact hdirs
      | some rel' =>
        cases fault with
        | none =>
          dsimp only [Option.map_some]
          cases hwrite : t₁.write (d ++ rel') content with
          | none => exact hdirs
          | some t₂ => exact hdirs.trans (write hwrite)
        | some left =>
          cases left with
          | none => exact hdirs
          | some left =>
            dsimp only [Option.map_some]
            cases hwrite : t₁.write (d ++ rel') left with
            | none => exact hdirs
            | some t₂ => exact hdirs.trans (write hwrite)

theorem writeAll {dir : Text} (hd : place dir = some d) (fault : ℕ → Option (Option Bytes)) :
    ∀ {files : List (Text × Bytes)} {n : ℕ} {t : FileTree Bytes}, Inside d t (writeAll dir fault n files t).2
  | [], _, _ => refl
  | (path, content) :: rest, n, t => by
    rw [Installed.writeAll]
    cases hsafe : safeRel path with
    | none => exact writeAll hd fault
    | some safe =>
      have hone := writeOne (t := t) hsafe hd (fault n) content
      dsimp only
      rcases hresult : Installed.writeOne dir (fault n) safe content t with ⟨ok, t₁⟩
      rw [hresult] at hone
      cases ok with
      | false => exact hone
      | true => exact hone.trans (writeAll hd fault)

end Inside

theorem place_appDir (c : Config) {key : Text} {name : Bytes} (hkey : Name key) (hname : fsencode key = some name) :
    place (appDir c key) = some (c.root ++ [name]) := by
  have hjoin : resolve (join c.appsDir (joinParts [key])) = resolve c.appsDir ++ [key] :=
    resolve_join (List.cons_ne_nil _ _) fun part hpart => List.mem_singleton.mp hpart ▸ hkey
  have hroot := c.placed
  rw [place] at hroot
  rw [place, appDir, show key = joinParts [key] from rfl, hjoin, mapM_append, hroot, List.mapM_cons, hname]
  rfl

theorem inside_writeFiles (c : Config) {key : Text} (hd : place (appDir c key) = some d)
    (files : Dict Text Bytes) (fault : ℕ → Option (Option Bytes)) (t : FileTree Bytes) :
    Inside d t (writeFiles c key files fault t).2 :=
  (Inside.clear hd).trans (Inside.writeAll hd fault)

/-! ### Writing a whole package -/

theorem writeOne_done {dir : Text} (hsafe : safeRel path = some safe) {rel : List Bytes}
    (hd : place dir = some d) (hrel : (split safe).mapM fsencode = some rel) {t : FileTree Bytes}
    (hway : ∀ p, p <+: d ++ rel.dropLast → t.files.get? p = none) (hfree : d ++ rel ∉ t.dirs) (content : Bytes) :
    ∃ t', writeOne dir none safe content t = (true, t') ∧ t'.files = t.files.set (d ++ rel) content ∧
      ∀ p, p ∈ t'.dirs ↔ p <+: d ++ rel.dropLast ∨ p ∈ t.dirs := by
  obtain ⟨hdest, hparent⟩ := dest_eq hsafe hd
  have hne : rel ≠ [] := by
    have hlength := length_mapM hrel
    have hsplit := List.length_pos_of_ne_nil (safeRel_names hsafe).1
    exact List.ne_nil_of_length_pos (by omega)
  obtain ⟨t₁, hmake⟩ := FileTree.exists_makeDirs hway
  obtain ⟨hfiles, hdirs⟩ := FileTree.makeDirs_spec hmake
  have hlast : (d ++ rel).dropLast = d ++ rel.dropLast := List.dropLast_append_of_ne_nil hne
  have hfree₁ : d ++ rel ∉ t₁.dirs := by
    intro hmem
    rcases (hdirs _).mp hmem with hpre | hmem
    · have hle := List.IsPrefix.length_le hpre
      have hpos := List.length_pos_of_ne_nil hne
      rw [List.length_append, List.length_append, List.length_dropLast] at hle
      omega
    · exact hfree hmem
  obtain ⟨t₂, hwrite⟩ : ∃ t₂, t₁.write (d ++ rel) content = some t₂ := FileTree.exists_write hfree₁
    (hlast ▸ (hdirs _).mpr (Or.inl (List.prefix_refl _)))
  have ht₂ := FileTree.write_spec hwrite
  refine ⟨t₂, ?_, ?_, fun p => ?_⟩
  · unfold writeOne
    dsimp only
    rw [hdest, hparent, hrel, mapM_dropLast hrel]
    dsimp only [Option.map_some]
    rw [hmake]
    dsimp only
    rw [hwrite]
  · rw [ht₂, hfiles]
  · rw [ht₂]
    exact hdirs p

/-- **What stands below a directory once some files were written there.** -/
structure Written (d : List Bytes) (files : List (Text × Bytes)) (t : FileTree Bytes) : Prop where
  way : ∀ p, p <+: d → t.files.get? p = none
  exact : ∀ rel content, t.files.get? (d ++ rel) = some content ↔
    ∃ path, (path, content) ∈ files ∧ relOf path = some rel
  dirs : ∀ rel, rel ≠ [] → d ++ rel ∈ t.dirs →
    ∃ path content rel', (path, content) ∈ files ∧ relOf path = some rel' ∧ rel <+: rel' ∧ rel ≠ rel'
  housed : files ≠ [] → d ∈ t.dirs

/-- No file stands on the way to another, or in its place with other content. -/
def Apart (files : List (Text × Bytes)) : Prop :=
  ∀ e ∈ files, ∀ e' ∈ files, ∀ rel rel', relOf e.1 = some rel → relOf e'.1 = some rel' → rel <+: rel' →
    rel = rel' ∧ e.2 = e'.2

namespace Written

variable {d : List Bytes} {dir : Text}

/-- **One file more.** -/
theorem writeOne {files : List (Text × Bytes)} {t : FileTree Bytes} (h : Written d files t) (hd : place dir = some d)
    {path safe : Text} {content : Bytes} (hapart : Apart (files ++ [(path, content)]))
    (hsafe : safeRel path = some safe) (husable : (relOf path).isSome = true) :
    ∃ t', Installed.writeOne dir none safe content t = (true, t') ∧ Written d (files ++ [(path, content)]) t' := by
  obtain ⟨rel, hrelOf⟩ := Option.isSome_iff_exists.mp husable
  have hrel : (split safe).mapM fsencode = some rel := by
    rw [relOf, hsafe] at hrelOf
    exact hrelOf
  have hnew : (path, content) ∈ files ++ [(path, content)] := List.mem_append_right _ List.mem_cons_self
  have hne : rel ≠ [] := by
    have hlength := length_mapM hrel
    have hsplit := List.length_pos_of_ne_nil (safeRel_names hsafe).1
    exact List.ne_nil_of_length_pos (by omega)
  have hshort : ¬ rel <+: rel.dropLast := by
    intro hpre
    have hle := List.IsPrefix.length_le hpre
    have hpos := List.length_pos_of_ne_nil hne
    rw [List.length_dropLast] at hle
    omega
  have hway : ∀ p, p <+: d ++ rel.dropLast → t.files.get? p = none := by
    intro p hp
    rcases List.prefix_or_prefix_of_prefix hp (List.prefix_append d rel.dropLast) with hup | ⟨q, rfl⟩
    · exact h.way p hup
    · have hq : q <+: rel.dropLast := (List.prefix_append_right_inj d).mp hp
      cases hget : t.files.get? (d ++ q) with
      | none => rfl
      | some old =>
        obtain ⟨path', hmem, hrel'⟩ := (h.exact q old).mp hget
        obtain ⟨heq, -⟩ := hapart _ (List.mem_append_left _ hmem) _ hnew q rel hrel' hrelOf
          (hq.trans (List.dropLast_prefix rel))
        exact absurd (heq ▸ hq) hshort
  have hfree : d ++ rel ∉ t.dirs := by
    intro hmem
    obtain ⟨path', content', rel', hmem', hrel', hpre, hdiff⟩ := h.dirs rel hne hmem
    exact hdiff (hapart _ hnew _ (List.mem_append_left _ hmem') rel rel' hrelOf hrel' hpre).1
  obtain ⟨t', hwrite, hfiles, hdirs⟩ := writeOne_done hsafe hd hrel hway hfree content
  refine ⟨t', hwrite, fun p hp => ?_, fun q old => ?_, fun q hq hmem => ?_, fun _ => ?_⟩
  · rw [hfiles, Dict.get?_set_of_ne _ _]
    · exact h.way p hp
    · rintro rfl
      have hle := List.IsPrefix.length_le hp
      have hpos := List.length_pos_of_ne_nil hne
      rw [List.length_append] at hle
      omega
  · rw [hfiles, Dict.get?_set]
    by_cases heq : rel = q
    · subst heq
      rw [if_pos rfl]
      constructor
      · intro hold
        exact ⟨path, Option.some.inj hold ▸ hnew, hrelOf⟩
      · rintro ⟨path', hmem, hrel'⟩
        exact congrArg some (hapart _ hnew _ hmem rel rel hrelOf hrel' (List.prefix_refl _)).2
    · rw [if_neg fun hsame => heq (List.append_cancel_left hsame), h.exact]
      constructor
      · rintro ⟨path', hmem, hrel'⟩
        exact ⟨path', List.mem_append_left _ hmem, hrel'⟩
      · rintro ⟨path', hmem, hrel'⟩
        rcases List.mem_append.mp hmem with hmem | hmem
        · exact ⟨path', hmem, hrel'⟩
        · obtain ⟨rfl, -⟩ := Prod.mk.inj (List.mem_singleton.mp hmem)
          exact absurd (Option.mem_unique hrelOf hrel') heq
  · rcases (hdirs _).mp hmem with hpre | hold
    · have hpre := (List.prefix_append_right_inj d).mp hpre
      exact ⟨path, content, rel, hnew, hrelOf, hpre.trans (List.dropLast_prefix rel), fun heq => hshort (heq ▸ hpre)⟩
    · obtain ⟨path', content', rel', hmem', hrest⟩ := h.dirs q hq hold
      exact ⟨path', content', rel', List.mem_append_left _ hmem', hrest⟩
  · exact (hdirs d).mpr (Or.inl (List.prefix_append d _))

theorem writeAll (hd : place dir = some d) {fault : ℕ → Option (Option Bytes)} :
    ∀ {rest files : List (Text × Bytes)} {n : ℕ} {t : FileTree Bytes}, Written d files t → Apart (files ++ rest) →
      (∀ e ∈ rest, (relOf e.1).isSome = true) → (∀ m, m < n + rest.length → fault m = none) →
      ∃ t', Installed.writeAll dir fault n rest t = (true, t') ∧ Written d (files ++ rest) t'
  | [], files, n, t, h, _, _, _ => ⟨t, rfl, (List.append_nil files).symm ▸ h⟩
  | (path, content) :: rest, files, n, t, h, hapart, husable, hfault => by
    have hpath := husable _ List.mem_cons_self
    obtain ⟨safe, hsafe⟩ : ∃ safe, safeRel path = some safe := by
      cases hsafe : safeRel path with
      | none =>
        rw [relOf, hsafe] at hpath
        cases hpath
      | some safe => exact ⟨safe, rfl⟩
    have hlist : files ++ (path, content) :: rest = files ++ [(path, content)] ++ rest := by
      rw [List.append_assoc, List.singleton_append]
    rw [hlist] at hapart ⊢
    obtain ⟨t₁, hone, hwritten⟩ := h.writeOne hd
      (fun e he e' he' => hapart e (List.mem_append_left _ he) e' (List.mem_append_left _ he')) hsafe hpath
    obtain ⟨t', hrest, hwritten'⟩ := writeAll hd (n := n + 1) hwritten hapart
      (fun e he => husable e (List.mem_cons_of_mem _ he)) fun m hm => hfault m (by rw [List.length_cons]; omega)
    refine ⟨t', ?_, hwritten'⟩
    have hnone : fault n = none := hfault n (by rw [List.length_cons]; omega)
    rw [Installed.writeAll, hsafe]
    dsimp only
    rw [hnone, hone]
    exact hrest

end Written

/-! ### Keys -/

theorem hex_chars : ∀ {key : Text} {id : Bytes}, fromHex key = some id →
    ∀ ch ∈ key, ch < 0x80 ∧ ch ≠ slash ∧ ch ≠ 0x2E
  | [], _, _, ch, hch => by cases hch
  | [a], id, h, ch, hch => by
    rw [List.mem_singleton.mp hch]
    rw [fromHex] at h
    split_ifs at h with hspace
    exact chars_space hspace
  | a :: b :: key, id, h, ch, hch => by
    rw [fromHex] at h
    split_ifs at h with hspace
    · rcases List.mem_cons.mp hch with rfl | hch
      · exact chars_space hspace
      · exact hex_chars h ch hch
    · simp only [Option.bind_eq_bind, Option.bind_eq_some_iff] at h
      obtain ⟨x, hx, y, hy, h⟩ := h
      obtain ⟨rest, hrest, -⟩ := Option.map_eq_some_iff.mp h
      rcases List.mem_cons.mp hch with rfl | hch
      · exact chars_digit hx
      · rcases List.mem_cons.mp hch with rfl | hch
        · exact chars_digit hy
        · exact hex_chars hrest ch hch
where
  chars_space {ch : ℕ} (h : isSpace ch = true) : ch < 0x80 ∧ ch ≠ slash ∧ ch ≠ 0x2E := by
    rw [isSpace, decide_eq_true_iff] at h
    unfold slash
    omega
  chars_digit {ch x : ℕ} (h : ofDigit ch = some x) : ch < 0x80 ∧ ch ≠ slash ∧ ch ≠ 0x2E := by
    unfold ofDigit at h
    unfold slash
    split_ifs at h with h1 h2 h3 <;> omega

theorem fsencode_ascii : ∀ {text : Text}, (∀ ch ∈ text, ch < 0x80) → fsencode text = some (text.map UInt8.ofNat)
  | [], _ => rfl
  | ch :: text, h => by
    have hch := h ch List.mem_cons_self
    rw [fsencode, if_neg (by omega), if_pos (show Scalar ch from Or.inl (by omega)),
      fsencode_ascii fun x hx => h x (List.mem_cons_of_mem _ hx), encodeChar, if_pos hch]
    rfl

theorem fsencode_inj {text text' : Text} {name : Bytes} (h : ∀ ch ∈ text, ch < 0x80) (h' : ∀ ch ∈ text', ch < 0x80)
    (hname : fsencode text = some name) (hname' : fsencode text' = some name) : text = text' := by
  have hback : ∀ {l : Text}, (∀ ch ∈ l, ch < 0x80) → (l.map UInt8.ofNat).map UInt8.toNat = l := by
    intro l hl
    rw [List.map_map]
    refine (List.map_congr_left fun ch hch => ?_).trans (List.map_id l)
    have hlt := hl ch hch
    exact toNat_ofNat (by omega)
  rw [fsencode_ascii h] at hname
  rw [fsencode_ascii h'] at hname'
  rw [← hback h, ← hback h', Option.some.inj hname, Option.some.inj hname']

def AppKey (key : Text) : Prop := ∃ id, fromHex key = some id ∧ id.length = appIdLen

namespace AppKey

variable {key : Text}

theorem ascii (h : AppKey key) : ∀ ch ∈ key, ch < 0x80 := by
  obtain ⟨id, hid, -⟩ := h
  exact fun ch hch => (hex_chars hid ch hch).1

theorem name (h : AppKey key) : Name key := by
  obtain ⟨id, hid, hlength⟩ := h
  have hchars := hex_chars hid
  refine ⟨?_, ?_, ?_, fun hmem => (hchars slash hmem).2.1 rfl⟩
  · rintro rfl
    rw [fromHex] at hid
    rw [← Option.some.inj hid] at hlength
    cases hlength
  · rintro rfl
    exact (hchars 0x2E List.mem_cons_self).2.2 rfl
  · rintro rfl
    exact (hchars 0x2E List.mem_cons_self).2.2 rfl

theorem place (h : AppKey key) (c : Config) :
    ∃ name, fsencode key = some name ∧ place (appDir c key) = some (c.root ++ [name]) :=
  ⟨_, fsencode_ascii h.ascii, place_appDir c h.name (fsencode_ascii h.ascii)⟩

end AppKey

/-! ### What every run keeps -/

/-- What holds whatever goes wrong: the catalogue has releases that were verified, under their apps, and only such
apps are recorded. -/
structure Lawful (W : World) (s : State) : Prop where
  proper : ∀ id e, s.catalog.apps.get? id = some e → ∃ data r, parseRelease W data = some r ∧
    e = entryOf W data r ∧ r.appId = id
  keys : ∀ key ∈ s.apps.keys, AppKey key

theorem length_appId {W : World} {data : Bytes} {r : Release} (h : parseRelease W data = some r) :
    r.appId.length = appIdLen := by
  simp only [parseRelease, Option.bind_eq_bind, Option.bind_eq_some_iff, Option.guard_eq_some'] at h
  obtain ⟨text, -, doc, -, r', -, appId, -, -, ⟨hlength, -⟩, input, -, -, -, hr⟩ := h
  rw [← Option.some.inj hr]
  exact hlength

section Steps

variable {c : Config} {T : Set Bytes} {s : State}

theorem Lawful.offer (h : Lawful c.world s) (data : Bytes) :
    Lawful c.world { s with catalog := (s.catalog.offer c.world data).2 } := by
  refine ⟨fun id e hget => ?_, h.keys⟩
  dsimp only at hget
  rcases AppCatalog.offer_spec (W := c.world) s.catalog data with ⟨-, hsame, -⟩ | ⟨r, base, gone, hr, -, hplace, hcat, -⟩
  · rw [hsame] at hget
    exact h.proper id e hget
  · rw [hcat, AppCatalog.get?_file] at hget
    split_ifs at hget with hid
    · exact ⟨data, r, hr, (Option.some.inj hget).symm, hid⟩
    · refine h.proper id e ?_
      cases hplace with
      | held | room => exact hget
      | evict victim => exact (Dict.get?_of_pop hget).2

theorem Lawful.found (h : Lawful c.world s) {key : Text} {e : Entry}
    (hfind : (fromHex key).bind s.catalog.apps.get? = some e) :
    AppKey key ∧ ∃ data r, parseRelease c.world data = some r ∧ e = entryOf c.world data r ∧
      fromHex key = some r.appId := by
  obtain ⟨id, hid, he⟩ := Option.bind_eq_some_iff.mp hfind
  obtain ⟨data, r, hr, heq, hrid⟩ := h.proper id e he
  exact ⟨⟨id, hid, hrid ▸ length_appId hr⟩, data, r, hr, heq, hrid ▸ hid⟩

theorem save_spec (fails : Bool) (s : State) : save fails s = (false, s) ∧ fails = true ∨
    save fails s = (true, { s with file := some s.apps }) ∧ fails = false := by
  cases fails with
  | true => exact Or.inl ⟨rfl, rfl⟩
  | false => exact Or.inr ⟨rfl, rfl⟩

/-- **How an installation ends**: nothing was touched; writing failed on the way; or all was written, and the record
came or not. -/
theorem installApp_spec (key : Text) (get : Bytes → Option Bytes) (faults : Faults) (now : ℤ) :
    installApp c key get faults now s = (false, s) ∨
      ∃ e files tree, (fromHex key).bind s.catalog.apps.get? = some e ∧ fetchApp c.world get e.rootKey = some files ∧
        (writeFiles c key files faults.files s.tree = (false, tree) ∧
            installApp c key get faults now s = (false, { s with tree }) ∨
          writeFiles c key files faults.files s.tree = (true, tree) ∧
            installApp c key get faults now s = record c (metaOf key e now) faults.registry { s with tree }) := by
  unfold installApp
  cases hfind : (fromHex key).bind s.catalog.apps.get? with
  | none => exact Or.inl rfl
  | some e =>
    dsimp only
    cases hfetch : fetchApp c.world get e.rootKey with
    | none => exact Or.inl rfl
    | some files =>
      dsimp only
      refine Or.inr ⟨e, files, ?_⟩
      rcases hwrite : writeFiles c key files faults.files s.tree with ⟨ok, tree⟩
      refine ⟨tree, rfl, hfetch, ?_⟩
      cases ok with
      | false => exact Or.inl ⟨rfl, rfl⟩
      | true => exact Or.inr ⟨rfl, rfl⟩

theorem updateApp_spec (key : Text) (get : Bytes → Option Bytes) (faults : Faults) (now : ℤ) :
    updateApp c key get faults now s = (false, s) ∨
      ∃ inst e, s.apps.get? key = some inst ∧ (fromHex key).bind s.catalog.apps.get? = some e ∧ inst.ts < e.ts ∧
        updateApp c key get faults now s = installApp c key get faults now s := by
  unfold updateApp
  cases hinst : s.apps.get? key with
  | none => exact Or.inl rfl
  | some inst =>
    dsimp only
    cases hfind : (fromHex key).bind s.catalog.apps.get? with
    | none => exact Or.inl rfl
    | some e =>
      dsimp only
      by_cases hle : e.ts ≤ inst.ts
      · rw [if_pos hle]
        exact Or.inl rfl
      · rw [if_neg hle]
        exact Or.inr ⟨inst, e, rfl, rfl, not_le.mp hle, rfl⟩

theorem remove_spec (key : Text) (fails : Bool) :
    key ∉ s.apps.keys ∧ remove c key fails s = (false, s) ∨
      key ∈ s.apps.keys ∧ fails = true ∧ remove c key fails s = (false, { s with apps := s.apps.pop key }) ∨
      key ∈ s.apps.keys ∧ fails = false ∧ remove c key fails s =
        (true, { s with apps := s.apps.pop key, file := some (s.apps.pop key), tree := clear (appDir c key) s.tree }) := by
  by_cases hmem : key ∈ s.apps.keys
  · unfold remove
    rw [if_neg (not_not.mpr hmem)]
    rcases save_spec fails { s with apps := s.apps.pop key } with ⟨hsave, hfails⟩ | ⟨hsave, hfails⟩
    · rw [hsave]
      exact Or.inr (Or.inl ⟨hmem, hfails, rfl⟩)
    · rw [hsave]
      exact Or.inr (Or.inr ⟨hmem, hfails, rfl⟩)
  · exact Or.inl ⟨hmem, by rw [remove, if_pos hmem]⟩

theorem record_frame (m : Meta) (fails : Bool) (s : State) :
    (record c m fails s).2.tree = s.tree ∧ (record c m fails s).2.catalog = s.catalog ∧
      ∀ key ∈ (record c m fails s).2.apps.keys, key = m.appId ∨ key ∈ s.apps.keys := by
  unfold record
  split_ifs with hfull
  · exact ⟨rfl, rfl, fun key hkey => Or.inr hkey⟩
  · rcases save_spec fails { s with apps := s.apps.set m.appId m } with ⟨hsave, -⟩ | ⟨hsave, -⟩
    · rw [hsave]
      exact ⟨rfl, rfl, fun key hkey => Dict.mem_keys_set.mp hkey⟩
    · rw [hsave]
      exact ⟨rfl, rfl, fun key hkey => Dict.mem_keys_set.mp hkey⟩

theorem installApp_frame (hlaw : Lawful c.world s) (key : Text) (get : Bytes → Option Bytes) (faults : Faults)
    (now : ℤ) : Lawful c.world (installApp c key get faults now s).2 ∧
      ((installApp c key get faults now s).2.tree = s.tree ∨
        ∃ name, fsencode key = some name ∧ Inside (c.root ++ [name]) s.tree (installApp c key get faults now s).2.tree) := by
  rcases installApp_spec (c := c) (s := s) key get faults now with hsame | ⟨e, files, tree, hfind, -, hend⟩
  · rw [hsame]
    exact ⟨hlaw, Or.inl rfl⟩
  · obtain ⟨hkey, -⟩ := hlaw.found hfind
    obtain ⟨name, hname, hd⟩ := hkey.place c
    have hinside := inside_writeFiles c hd files faults.files s.tree
    rcases hend with ⟨hwrite, heq⟩ | ⟨hwrite, heq⟩
    · rw [hwrite] at hinside
      rw [heq]
      exact ⟨⟨hlaw.proper, hlaw.keys⟩, Or.inr ⟨name, hname, hinside⟩⟩
    · rw [hwrite] at hinside
      obtain ⟨htree, hcat, hkeys⟩ := record_frame (c := c) (metaOf key e now) faults.registry { s with tree }
      rw [heq]
      refine ⟨⟨fun id e' hget => hlaw.proper id e' (by rw [hcat] at hget; exact hget), fun k hk => ?_⟩,
        Or.inr ⟨name, hname, htree ▸ hinside⟩⟩
      rcases hkeys k hk with rfl | hk
      · exact hkey
      · exact hlaw.keys k hk

theorem confined_of {key : Text} {call : Call c T} {s' : State} (hkey : call.key? = some key)
    (hstep : step c s call = s')
    (h : s'.tree = s.tree ∨ ∃ name, fsencode key = some name ∧ Inside (c.root ++ [name]) s.tree s'.tree) :
    Confined c s call := by
  subst hstep
  rcases h with hsame | ⟨name, hname, hinside⟩
  · exact Or.inl hsame
  · exact Or.inr ⟨key, name, hkey, hname, hinside.files⟩

/-- **Nothing goes wrong outside the app's directory**, whatever goes wrong in it. -/
theorem step_frame (hlaw : Lawful c.world s) (call : Call c T) :
    Lawful c.world (step c s call) ∧ Confined c s call := by
  cases call with
  | offer data => exact ⟨hlaw.offer data, Or.inl rfl⟩
  | install key find faults now =>
    obtain ⟨hlaw', hframe⟩ := installApp_frame hlaw key find.get faults now
    exact ⟨hlaw', confined_of rfl rfl hframe⟩
  | update key find faults now =>
    have hstep : step c s (.update key find faults now) = (updateApp c key find.get faults now s).2 := rfl
    rcases updateApp_spec (c := c) (s := s) key find.get faults now with hsame | ⟨inst, e, -, -, -, hsame⟩
    · rw [hsame] at hstep
      exact ⟨hstep.symm ▸ hlaw, Or.inl (congrArg State.tree hstep)⟩
    · rw [hsame] at hstep
      obtain ⟨hlaw', hframe⟩ := installApp_frame hlaw key find.get faults now
      exact ⟨hstep.symm ▸ hlaw', confined_of rfl hstep hframe⟩
  | uninstall key fails =>
    have hstep : step c s (.uninstall (T := T) key fails) = (remove c key fails s).2 := rfl
    have hkeys : ∀ k ∈ (s.apps.pop key).keys, AppKey k := fun k hk => hlaw.keys k (Dict.mem_keys_pop.mp hk).1
    rcases remove_spec (c := c) (s := s) key fails with ⟨-, hsame⟩ | ⟨-, -, hsame⟩ | ⟨hmem, -, hsame⟩
    · rw [hsame] at hstep
      exact ⟨hstep.symm ▸ hlaw, Or.inl (congrArg State.tree hstep)⟩
    · rw [hsame] at hstep
      exact ⟨hstep.symm ▸ ⟨hlaw.proper, hkeys⟩, Or.inl (by rw [hstep])⟩
    · rw [hsame] at hstep
      obtain ⟨name, hname, hd⟩ := (hlaw.keys key hmem).place c
      exact ⟨hstep.symm ▸ ⟨hlaw.proper, hkeys⟩, confined_of rfl hstep (Or.inr ⟨name, hname, Inside.clear hd⟩)⟩

end Steps

/-! ### What a good call does -/

/-- No file stands on the way to the apps, and what there is of an app is in its directory. -/
structure Sound (c : Config) (t : FileTree Bytes) : Prop where
  way : ∀ p, p <+: c.root → t.files.get? p = none
  housed : ∀ name rest, c.root ++ name :: rest ∈ t.dirs ∨
    (t.files.get? (c.root ++ name :: rest)).isSome = true → c.root ++ [name] ∈ t.dirs

section Good

variable {c : Config} {T : Set Bytes} {s : State} {t t' : FileTree Bytes} {name : Bytes}

variable {rest : List Bytes}

theorem prefix_app {name name' : Bytes} (h : c.root ++ [name] <+: c.root ++ name' :: rest) : name = name' :=
  (List.cons_prefix_cons.mp ((List.prefix_append_right_inj c.root).mp h)).1

theorem prefix_of_app {name name' : Bytes} (h : c.root ++ name' :: rest <+: c.root ++ [name]) : name' = name :=
  (List.cons_prefix_cons.mp ((List.prefix_append_right_inj c.root).mp h)).1

theorem append_app (name : Bytes) (rel : List Bytes) : c.root ++ [name] ++ rel = c.root ++ name :: rel := by
  rw [List.append_assoc, List.singleton_append]

theorem written_clear (h : Sound c t) {dir : Text} (hd : place dir = some (c.root ++ [name])) :
    Written (c.root ++ [name]) [] (clear dir t) := by
  have hnothing : ∀ rel, (clear dir t).files.get? (c.root ++ [name] ++ rel) = none ∧
      c.root ++ [name] ++ rel ∉ (clear dir t).dirs := by
    intro rel
    rw [clear, hd]
    dsimp only
    split_ifs with hdir
    · rw [FileTree.get?_removeTree, if_pos (List.prefix_append _ rel), FileTree.mem_dirs_removeTree]
      exact ⟨rfl, fun hmem => hmem.2 (List.prefix_append _ rel)⟩
    · rw [append_app]
      constructor
      · cases hget : t.files.get? (c.root ++ name :: rel) with
        | none => rfl
        | some content => exact absurd (h.housed name rel (Or.inr (by rw [hget]; rfl))) hdir
      · exact fun hmem => hdir (h.housed name rel (Or.inl hmem))
  refine ⟨fun p hp => ?_, fun rel content => ?_, fun rel _ hmem => absurd hmem (hnothing rel).2, fun h => absurd rfl h⟩
  · rcases List.prefix_concat_iff.mp hp with rfl | hway
    · have hself := (hnothing []).1
      rwa [List.append_nil] at hself
    · rw [(Inside.clear hd).files p fun hpre => ?_]
      · exact h.way p hway
      · have hle := List.IsPrefix.length_le (hpre.trans hway)
        rw [List.length_append] at hle
        simp at hle
  · rw [(hnothing rel).1]
    exact ⟨fun h => (by cases h), fun ⟨_, hmem, _⟩ => (by cases hmem)⟩

theorem Sound.inside (h : Sound c t) (hin : Inside (c.root ++ [name]) t t')
    (hown : ∀ rest, c.root ++ name :: rest ∈ t'.dirs ∨ (t'.files.get? (c.root ++ name :: rest)).isSome = true →
      c.root ++ [name] ∈ t'.dirs) : Sound c t' := by
  constructor
  · intro p hp
    rw [hin.files p fun hpre => ?_]
    · exact h.way p hp
    · have hle := List.IsPrefix.length_le (hpre.trans hp)
      rw [List.length_append] at hle
      simp at hle
  · intro name' rest hthere
    by_cases hname : name' = name
    · subst hname
      exact hown rest hthere
    · have hother : ∀ rest, ¬ c.root ++ [name] <+: c.root ++ name' :: rest := fun rest hpre =>
        hname (prefix_app hpre).symm
      refine hin.keeps _ (hother []) (h.housed name' rest ?_)
      rcases hthere with hdir | hfile
      · rcases hin.dirs _ (hother rest) hdir with hdir | hway
        · exact Or.inl hdir
        · exact absurd (prefix_of_app hway) hname
      · rw [hin.files _ (hother rest)] at hfile
        exact Or.inr hfile

theorem Sound.written (h : Sound c t) (hin : Inside (c.root ++ [name]) t t') {files : List (Text × Bytes)}
    (hwritten : Written (c.root ++ [name]) files t') : Sound c t' := by
  refine h.inside hin fun rest hthere => ?_
  rcases hthere with hdir | hfile
  · cases rest with
    | nil => exact hdir
    | cons part rest =>
      rw [← append_app] at hdir
      obtain ⟨path, content, rel, hmem, -⟩ := hwritten.dirs _ (List.cons_ne_nil _ _) hdir
      exact hwritten.housed (List.ne_nil_of_mem hmem)
  · obtain ⟨content, hget⟩ := Option.isSome_iff_exists.mp hfile
    rw [← append_app] at hget
    obtain ⟨path, hmem, -⟩ := (hwritten.exact rest content).mp hget
    exact hwritten.housed (List.ne_nil_of_mem hmem)

variable {key : Text}

theorem OnDisk.inside {m : Meta} (h : OnDisk c T t key m) (hin : Inside (c.root ++ [name]) t t')
    (hother : fsencode key ≠ some name) : OnDisk c T t' key m := by
  obtain ⟨data, r, now, name', files, hr, hkey, hm, hname', hcontent, hunique, hholds⟩ := h
  refine ⟨data, r, now, name', files, hr, hkey, hm, hname', hcontent, hunique, hholds.all, fun rel content => ?_⟩
  rw [hin.files _ fun hpre => ?_]
  · exact hholds.exact rel content
  · rw [append_app] at hpre
    exact hother ((prefix_app hpre) ▸ hname')

theorem Inside.before (hin : Inside (c.root ++ [name]) t t') {name' : Bytes} (hne : name' ≠ name)
    (h : c.root ++ name' :: rest ∈ t'.dirs ∨ (t'.files.get? (c.root ++ name' :: rest)).isSome = true) :
    c.root ++ name' :: rest ∈ t.dirs ∨ (t.files.get? (c.root ++ name' :: rest)).isSome = true := by
  have hother : ¬ c.root ++ [name] <+: c.root ++ name' :: rest := fun hpre => hne (prefix_app hpre).symm
  rcases h with hdir | hfile
  · rcases hin.dirs _ hother hdir with hdir | hway
    · exact Or.inl hdir
    · exact absurd (prefix_of_app hway) hne
  · rw [hin.files _ hother] at hfile
    exact Or.inr hfile

variable {files : Dict Text Bytes}

theorem holds_of_written {d : List Bytes} (htidy : Tidy files)
    (h : Written d files.entries t) : Holds t d files := by
  refine ⟨htidy.usable, fun rel content => (h.exact rel content).trans ?_⟩
  exact exists_congr fun path => and_congr_left fun _ => Dict.get?_eq_some.symm

theorem apart_of_tidy (h : Tidy files) : Apart files.entries := by
  rintro ⟨path, content⟩ he ⟨path', content'⟩ he' rel rel' hrel hrel' hpre
  exact h.apart path path' content content' rel rel' (Dict.get?_eq_some.mpr he) (Dict.get?_eq_some.mpr he') hrel hrel' hpre

theorem writeFiles_done (hsound : Sound c t) (hd : place (appDir c key) = some (c.root ++ [name]))
 (htidy : Tidy files) {fault : ℕ → Option (Option Bytes)} (hfault : ∀ n < files.size, fault n = none) :
    ∃ t', writeFiles c key files fault t = (true, t') ∧ Written (c.root ++ [name]) files.entries t' := by
  have husable : ∀ e ∈ files.entries, (relOf e.1).isSome = true := fun e he =>
    htidy.usable e.1 (List.mem_map_of_mem he)
  exact (written_clear hsound hd).writeAll hd (apart_of_tidy htidy) husable fun m hm =>
    hfault m (by rw [Nat.zero_add] at hm; exact hm)

/-- **The state of a node all of whose calls went well.** -/
structure Good (c : Config) (T : Set Bytes) (s : State) : Prop where
  lawful : Lawful c.world s
  sound : Sound c s.tree
  content : Matches c T s

theorem Lawful.name_ne (h : Lawful c.world s) {key' : Text} (hkey : AppKey key) (hname : fsencode key = some name)
    (hmem : key' ∈ s.apps.keys) (hne : key' ≠ key) : fsencode key' ≠ some name := fun hname' =>
  hne (fsencode_inj (h.keys key' hmem).ascii hkey.ascii hname' hname)

theorem installApp_good (hinj : Set.InjOn (contentKey c.world) T) (hgood : Good c T s)
    {find : Lookup c T} {faults : Faults} (hgoes : Goes c s key find faults) (now : ℤ) :
    Good c T (installApp c key find.get faults now s).2 ∧
      ((installApp c key find.get faults now s).1 = false → (installApp c key find.get faults now s).2 = s) := by
  rcases installApp_spec (c := c) (s := s) key find.get faults now with hsame | ⟨e, files, tree, hfind, hfetch, hend⟩
  · rw [hsame]
    exact ⟨hgood, fun _ => rfl⟩
  · obtain ⟨htidy, hroom, hfaults, hregistry⟩ := hgoes e files hfind hfetch
    obtain ⟨hkey, data, r, hr, he, hid⟩ := hgood.lawful.found hfind
    obtain ⟨name, hname, hd⟩ := hkey.place c
    obtain ⟨t', hwrite, hwritten⟩ := writeFiles_done hgood.sound hd htidy hfaults
    have hin : Inside (c.root ++ [name]) s.tree t' := by
      have := inside_writeFiles c hd files faults.files s.tree
      rwa [hwrite] at this
    obtain ⟨htree, heq⟩ : tree = t' ∧ installApp c key find.get faults now s =
        record c (metaOf key e now) faults.registry { s with tree } := by
      rcases hend with ⟨hfail, -⟩ | ⟨hdone, heq⟩
      · rw [hwrite] at hfail
        cases hfail
      · rw [hwrite] at hdone
        exact ⟨(Prod.mk.inj hdone).2.symm, heq⟩
    subst htree
    have hrecord : record c (metaOf key e now) faults.registry { s with tree } =
        (true, ⟨s.catalog, s.apps.set key (metaOf key e now), some (s.apps.set key (metaOf key e now)), tree⟩) := by
      have hplace : ¬ (key ∉ s.apps.keys ∧ c.max ≤ s.apps.size) := by
        rintro ⟨hnew, hfull⟩
        rcases hroom with hold | hroom
        · exact hnew hold
        · omega
      rw [record, hregistry]
      exact if_neg hplace
    rw [heq, hrecord]
    refine ⟨⟨⟨hgood.lawful.proper, fun k hk => ?_⟩, hgood.sound.written hin hwritten, ?_⟩, fun h => by cases h⟩
    · rcases Dict.mem_keys_set.mp hk with rfl | hk
      · exact hkey
      · exact hgood.lawful.keys k hk
    · refine ⟨fun k m hget => ?_, fun name' rest hthere => ?_, rfl⟩
      · dsimp only at hget
        rw [Dict.get?_set] at hget
        split_ifs at hget with hk
        · subst hk
          have hcontent : ContentIn c T r.rootKey files := ⟨find, by rw [he] at hfetch; exact hfetch⟩
          refine ⟨data, r, now, name, files, hr, hid, ?_, hname, hcontent, ?_, holds_of_written htidy hwritten⟩
          · rw [← Option.some.inj hget, he]
          · rintro files' ⟨find', hfetch'⟩
            obtain ⟨find₀, hfetch₀⟩ := hcontent
            exact fetchApp_unique (agree_of_injOn hinj find'.verified find₀.verified find'.mem find₀.mem)
              hfetch' hfetch₀
        · have hmem := Dict.mem_keys_of_get? hget
          exact (hgood.content.recorded k m hget).inside hin
            (hgood.lawful.name_ne hkey hname hmem fun h => hk h.symm)
      · by_cases hsame : name' = name
        · exact ⟨key, Dict.mem_keys_set.mpr (Or.inl rfl), hsame ▸ hname⟩
        · obtain ⟨k, hk, hkname⟩ := hgood.content.unrecorded name' rest (hin.before hsame hthere)
          exact ⟨k, Dict.mem_keys_set.mpr (Or.inr hk), hkname⟩

theorem remove_good (hgood : Good c T s) {fails : Bool} (hready : key ∈ s.apps.keys → fails = false) :
    Good c T (remove c key fails s).2 ∧ ((remove c key fails s).1 = false → (remove c key fails s).2 = s) := by
  rcases remove_spec (c := c) (s := s) key fails with ⟨-, heq⟩ | ⟨hmem, hfails, -⟩ | ⟨hmem, -, heq⟩
  · rw [heq]
    exact ⟨hgood, fun _ => rfl⟩
  · rw [hready hmem] at hfails
    cases hfails
  · have hkey := hgood.lawful.keys key hmem
    obtain ⟨name, hname, hd⟩ := hkey.place c
    have hin := Inside.clear (t := s.tree) hd
    have hclear := written_clear hgood.sound hd
    rw [heq]
    refine ⟨⟨⟨hgood.lawful.proper, fun k hk => hgood.lawful.keys k (Dict.mem_keys_pop.mp hk).1⟩,
      hgood.sound.written hin hclear, fun k m hget => ?_, fun name' rest hthere => ?_, rfl⟩, fun h => by cases h⟩
    · obtain ⟨hne, hget⟩ := Dict.get?_of_pop hget
      exact (hgood.content.recorded k m hget).inside hin
        (hgood.lawful.name_ne hkey hname (Dict.mem_keys_of_get? hget) hne)
    · by_cases hsame : name' = name
      · subst hsame
        dsimp only at hthere
        rw [← append_app] at hthere
        rcases hthere with hdir | hfile
        · cases rest with
          | nil =>
            rw [clear, hd] at hdir
            dsimp only at hdir
            split_ifs at hdir with hold
            · rw [List.append_nil, FileTree.mem_dirs_removeTree] at hdir
              exact absurd (List.prefix_refl _) hdir.2
            · rw [List.append_nil] at hdir
              exact absurd hdir hold
          | cons part rest =>
            obtain ⟨path, content, rel, hnone, -⟩ := hclear.dirs _ (List.cons_ne_nil _ _) hdir
            cases hnone
        · obtain ⟨content, hget⟩ := Option.isSome_iff_exists.mp hfile
          obtain ⟨path, hnone, -⟩ := (hclear.exact rest content).mp hget
          cases hnone
      · obtain ⟨k, hk, hkname⟩ := hgood.content.unrecorded name' rest (hin.before hsame hthere)
        refine ⟨k, Dict.mem_keys_pop.mpr ⟨hk, ?_⟩, hkname⟩
        rintro rfl
        exact hsame (Option.mem_unique hkname hname)

/-- **A call in a good moment** leaves a good state, and a failure leaves what was there. -/
theorem step_good (hinj : Set.InjOn (contentKey c.world) T) (hgood : Good c T s) {call : Call c T}
    (hready : Ready c s call) : Good c T (step c s call) ∧ ((perform c s call).1 = false → step c s call = s) := by
  cases call with
  | offer data =>
    exact ⟨⟨hgood.lawful.offer data, hgood.sound, hgood.content.recorded, hgood.content.unrecorded,
      hgood.content.saved⟩, fun h => by cases h⟩
  | install key find faults now => exact installApp_good hinj hgood hready now
  | update key find faults now =>
    show Good c T (updateApp c key find.get faults now s).2 ∧ ((updateApp c key find.get faults now s).1 = false →
      (updateApp c key find.get faults now s).2 = s)
    rcases updateApp_spec (c := c) (s := s) key find.get faults now with hsame | ⟨inst, e, hinst, hfind, hlt, hsame⟩
    · rw [hsame]
      exact ⟨hgood, fun _ => rfl⟩
    · rw [hsame]
      exact installApp_good hinj hgood (hready inst e hinst hfind hlt) now
  | uninstall key fails => exact remove_good hgood hready

theorem good_start (maxCatalog : ℤ) (hbare : Bare c t) : Good c T (start maxCatalog t) := by
  have hnothing : ∀ name rest, ¬ (c.root ++ name :: rest ∈ t.dirs ∨
      (t.files.get? (c.root ++ name :: rest)).isSome = true) := by
    rintro name rest (hdir | hfile)
    · exact hbare.dirs name rest hdir
    · rw [hbare.files _ (List.prefix_append _ _)] at hfile
      cases hfile
  exact ⟨⟨fun id e h => (by cases h), fun key h => (by cases h)⟩,
    ⟨hbare.way, fun name rest h => absurd h (hnothing name rest)⟩,
    fun key m h => (by cases h), fun name rest h => absurd h (hnothing name rest), rfl⟩

/-- **What is recorded is what is on disk.** Where nothing is installed at first, a call never touches a file outside
the directory of the app it names. And where every call comes in a good moment, after each of them every recorded
app has in its directory exactly the files of the release recorded for it, an app that is not recorded has none, and
a call that reports failure has changed neither. -/
theorem stays_installed (maxCatalog : ℤ) (hinj : Set.InjOn (contentKey c.world) T) (hbare : Bare c t) (calls : List (Call c T))
    (call : Call c T) :
    Confined c (run (step c) (start maxCatalog t) calls) call ∧
      (Guarded (step c) (Ready c) (start maxCatalog t) (calls ++ [call]) →
        Kept c (run (step c) (start maxCatalog t) calls) call) := by
  have hgood₀ := good_start (T := T) maxCatalog hbare
  constructor
  · have hlaw := run_induct (P := Lawful c.world) (fun s call h => (step_frame (T := T) h call).1) calls hgood₀.lawful
    exact (step_frame hlaw call).2
  · intro hguarded
    obtain ⟨hcalls, hcall⟩ := guarded_append.mp hguarded
    have hgood := Guarded.run_induct (P := Good c T) (fun s a h hready => (step_good hinj h hready).1) hgood₀ hcalls
    obtain ⟨hafter, hfailed⟩ := step_good hinj hgood hcall.1
    refine ⟨hafter.content, fun hfalse => ?_⟩
    rw [hfailed hfalse]
    exact ⟨rfl, rfl, rfl⟩

end Good

/-! ### An app of one empty file -/

def lengthWorld : World := ⟨id, 10, fun data => List.replicate 32 (UInt8.ofNat data.length), fun _ _ _ => true⟩

def repeated (n : ℕ) (code : String) : Bytes := (List.replicate n (bytesOf code)).flatten

def manifestA : Bytes :=
  bytesOf "\x7b\"name\": \"\", \"version\": \"\", \"files\": [\x7b\"path\": \"a\", \"size\": 0, \"sha256\": \"" ++
    (repeated 32 "00" ++ bytesOf "\", \"chunks\": []\x7d]\x7d")

def rootA : Bytes :=
  bytesOf "\x7b\"v\": 1, \"size\": 156, \"sha256\": \"" ++ (repeated 32 "9c" ++
    (bytesOf "\", \"chunks\": [\"" ++ (repeated 20 "9c" ++ bytesOf "\"]\x7d")))

def releaseA : Bytes :=
  bytesOf "\x7b\"v\": 1, \"ts\": 7, \"version\": \"1\", \"author\": \"\", \"sig\": \"\", \"name\": \"a\", \"app_id\": \"" ++
    (repeated 8 "14" ++ (bytesOf "\", \"root_key\": \"" ++ (repeated 20 "9b" ++
      (bytesOf "\", \"root_sha256\": \"" ++ (repeated 32 "00" ++ bytesOf "\"\x7d")))))

def keyA : Text := ascii "1414141414141414"

/-- A node that keeps its apps in `apps`. -/
def node (max : ℤ) : Config := ⟨lengthWorld, ascii "apps", max, [bytesOf "apps"], by decide +kernel⟩

def values : Set Bytes := {rootA, manifestA}

theorem injOn_values : Set.InjOn (contentKey lengthWorld) values := by
  have hkeys : contentKey lengthWorld rootA ≠ contentKey lengthWorld manifestA := by decide +kernel
  rintro a (rfl | rfl) b (rfl | rfl) h
  · rfl
  · exact absurd h hkeys
  · exact absurd h.symm hkeys
  · rfl

def findA (max : ℤ) : Lookup (node max) values where
  get k := if k = contentKey lengthWorld rootA then some rootA
    else if k = contentKey lengthWorld manifestA then some manifestA else none
  verified k v h := by
    dsimp only at h
    split_ifs at h with hroot hmanifest
    · rw [← Option.some.inj h]
      exact hroot.symm
    · rw [← Option.some.inj h]
      exact hmanifest.symm
  mem k v h := by
    split_ifs at h with hroot hmanifest
    · exact Or.inl (Option.some.inj h).symm
    · exact Or.inr (Option.some.inj h).symm

def installA (max : ℤ) : Call (node max) values := .install keyA (findA max) ⟨fun _ => none, false⟩ 0

def blank : FileTree Bytes := ⟨.empty, []⟩

theorem bare_blank (max : ℤ) : Bare (node max) blank :=
  ⟨fun _ _ => rfl, fun _ _ => rfl, fun _ _ h => (by cases h)⟩

def heard (max : ℤ) : State := run (step (node max)) (start 4 blank) [.offer (T := values) releaseA]

theorem tidy_single {files : Dict Text Bytes} {content : Bytes} (h : files.entries = [(path, content)])
    (hpath : (relOf path).isSome = true) : Tidy files := by
  have hget : ∀ {path' content'}, files.get? path' = some content' → path' = path ∧ content' = content := by
    intro path' content' hget
    have hmem := Dict.get?_eq_some.mp hget
    rw [h] at hmem
    exact Prod.mk.inj (List.mem_singleton.mp hmem)
  refine ⟨fun path' hmem => ?_, fun p p' x x' rel rel' hp hp' hrel hrel' _ => ?_⟩
  · obtain ⟨content', hget'⟩ := Dict.mem_keys.mp hmem
    rw [(hget hget').1]
    exact hpath
  · obtain ⟨rfl, rfl⟩ := hget hp
    obtain ⟨rfl, rfl⟩ := hget hp'
    exact ⟨Option.mem_unique hrel hrel', rfl⟩

theorem kept_single : Kept (node 4) (heard 4) (installA 4) :=
  (stays_installed 4 injOn_values (bare_blank 4) [.offer releaseA] (installA 4)).2 ⟨trivial, by
    intro e files hfind hfetch
    have hroot : ((fromHex keyA).bind (heard 4).catalog.apps.get?).map Entry.rootKey =
        some (contentKey lengthWorld rootA) := by decide +kernel
    have hfiles : (fetchApp lengthWorld (findA 4).get (contentKey lengthWorld rootA)).map Dict.entries =
        some [(ascii "a", [])] := by decide +kernel
    change (fromHex keyA).bind (heard 4).catalog.apps.get? = some e at hfind
    rw [hfind] at hroot
    change fetchApp lengthWorld (findA 4).get e.rootKey = some files at hfetch
    rw [Option.some.inj hroot] at hfetch
    rw [hfetch] at hfiles
    have hentries : files.entries = [(ascii "a", [])] := Option.some.inj hfiles
    exact ⟨tidy_single hentries (by decide +kernel), Or.inr (by decide +kernel), fun _ _ => rfl, rfl⟩, trivial⟩

/-- Where no app may be, the call reports failure, and the file is on disk all the same: the directory of an app
that is not recorded. -/
theorem refused_on_disk : (perform (node 0) (heard 0) (installA 0)).1 = false ∧
    (step (node 0) (heard 0) (installA 0)).tree.files.get? [bytesOf "apps", bytesOf "1414141414141414", bytesOf "a"] =
      some [] ∧ (heard 0).tree.files.entries = [] ∧ ¬ Kept (node 0) (heard 0) (installA 0) := by
  have hfails : (perform (node 0) (heard 0) (installA 0)).1 = false := by decide +kernel
  have hfile : (step (node 0) (heard 0) (installA 0)).tree.files.get?
      [bytesOf "apps", bytesOf "1414141414141414", bytesOf "a"] = some [] := by decide +kernel
  refine ⟨hfails, hfile, rfl, fun hkept => ?_⟩
  obtain ⟨-, -, htree⟩ := hkept.failed hfails
  rw [htree] at hfile
  cases hfile

end NMesh.Store.Installed
