import NMesh.Base.Utf8
import NMesh.Base.Ordered
import Mathlib.Data.List.Infix

/-! # Paths and the files under them

POSIX paths as texts: their parts, `normpath`, `join`, and the place in the tree a path leads to, where
no link stands in its way (`resolve`). A tree has files and directories; writing needs a directory to
write in, and nothing but a directory may stand on the way to it. -/

namespace NMesh.Base.Paths

open Base.BigEndian Base.Utf8 Base.Ordered

/-! ### Parts -/

def slash : ℕ := 0x2F

/-- The name of the directory itself. -/
def here : Text := [0x2E]

def above : Text := [0x2E, 0x2E]

/-- `path.split("/")` -/
def split : Text → List Text
  | [] => [[]]
  | c :: rest =>
    if c = slash then [] :: split rest
    else
      match split rest with
      | [] => [[c]]
      | part :: parts => (c :: part) :: parts

/-- `"/".join(parts)` -/
def joinParts : List Text → Text
  | [] => []
  | [part] => part
  | part :: parts => part ++ slash :: joinParts parts

theorem split_ne_nil : ∀ text : Text, split text ≠ []
  | [] => List.cons_ne_nil _ _
  | c :: rest => by
    rw [split]
    split_ifs
    · exact List.cons_ne_nil _ _
    · cases h : split rest with
      | nil | cons part parts => exact List.cons_ne_nil _ _

theorem split_append : ∀ a b : Text, split (a ++ slash :: b) = split a ++ split b
  | [], b => by
    show (if slash = slash then [] :: split b else _) = _
    rw [if_pos rfl]
    rfl
  | c :: a, b => by
    rw [List.cons_append, split, split, split_append a b]
    split_ifs
    · rfl
    · cases h : split a with
      | nil => exact absurd h (split_ne_nil a)
      | cons part parts => rfl

theorem split_of_notMem : ∀ {a : Text}, slash ∉ a → split a = [a]
  | [], _ => rfl
  | c :: a, h => by
    have hc : c ≠ slash := fun hc => h (hc ▸ List.mem_cons_self)
    rw [split, if_neg hc, split_of_notMem fun ha => h (List.mem_cons_of_mem c ha)]

theorem notMem_split : ∀ {text part : Text}, part ∈ split text → slash ∉ part
  | [], part, h => by
    rw [split, List.mem_singleton] at h
    rw [h]
    exact List.not_mem_nil
  | c :: rest, part, h => by
    rw [split] at h
    split_ifs at h with hc
    · rcases List.mem_cons.mp h with rfl | h
      · exact List.not_mem_nil
      · exact notMem_split h
    · have ih : ∀ {part : Text}, part ∈ split rest → slash ∉ part := notMem_split
      cases hrest : split rest with
      | nil => exact absurd hrest (split_ne_nil rest)
      | cons first parts =>
        rw [hrest] at h ih
        rcases List.mem_cons.mp h with rfl | h
        · intro hmem
          rcases List.mem_cons.mp hmem with hmem | hmem
          · exact hc hmem.symm
          · exact ih List.mem_cons_self hmem
        · exact ih (List.mem_cons_of_mem _ h)

theorem split_joinParts : ∀ {parts : List Text}, parts ≠ [] → (∀ part ∈ parts, slash ∉ part) →
    split (joinParts parts) = parts
  | [part], _, h => split_of_notMem (h part List.mem_cons_self)
  | part :: next :: parts, _, h => by
    rw [joinParts, split_append, split_of_notMem (h part List.mem_cons_self),
      split_joinParts (List.cons_ne_nil _ _) fun p hp => h p (List.mem_cons_of_mem _ hp)]
    · rfl
    · exact fun h => by cases h

/-! ### Normal paths -/

/-- One more part, as `normpath` takes it. -/
def pushPart (absolute : Bool) (parts : List Text) (part : Text) : List Text :=
  if part = [] ∨ part = here then parts
  else if part ≠ above ∨ (absolute = false ∧ parts = []) ∨ parts.getLast? = some above then parts ++ [part]
  else parts.dropLast

def initialSlashes (path : Text) : ℕ :=
  if path.head? ≠ some slash then 0
  else if [slash, slash].isPrefixOf path ∧ ¬ [slash, slash, slash].isPrefixOf path then 2
  else 1

/-- `os.path.normpath(path)` -/
def normpath (path : Text) : Text :=
  if path = [] then here
  else
    let slashes := initialSlashes path
    let body := List.replicate slashes slash ++
      joinParts ((split path).foldl (pushPart (decide (0 < slashes))) [])
    if body = [] then here else body

/-- `os.path.isabs(path)` -/
def isAbs (path : Text) : Bool := path.head? = some slash

/-- `os.path.join(a, b)` -/
def join (a b : Text) : Text :=
  if isAbs b then b
  else if a = [] ∨ a.getLast? = some slash then a ++ b
  else a ++ slash :: b

def walk (place : List Text) (part : Text) : List Text :=
  if part = [] ∨ part = here then place else if part = above then place.dropLast else place ++ [part]

/-- The place in the tree a path leads to. -/
def resolve (path : Text) : List Text := (split path).foldl walk []

/-- A part that is the name of something below. -/
structure Name (part : Text) : Prop where
  ne_nil : part ≠ []
  ne_here : part ≠ here
  ne_above : part ≠ above
  plain : slash ∉ part

theorem foldl_walk_names : ∀ {parts place : List Text}, (∀ part ∈ parts, Name part) →
    parts.foldl walk place = place ++ parts
  | [], place, _ => (List.append_nil place).symm
  | part :: parts, place, h => by
    have hpart := h part List.mem_cons_self
    have hwalk : walk place part = place ++ [part] := by
      rw [walk, if_neg (not_or.mpr ⟨hpart.ne_nil, hpart.ne_here⟩), if_neg hpart.ne_above]
    rw [List.foldl_cons, hwalk, foldl_walk_names fun p hp => h p (List.mem_cons_of_mem part hp),
      List.append_assoc, List.singleton_append]

variable {parts : List Text}

theorem resolve_join {a : Text} (hne : parts ≠ []) (hnames : ∀ part ∈ parts, Name part) :
    resolve (join a (joinParts parts)) = resolve a ++ parts := by
  obtain ⟨first, rest, rfl⟩ := List.exists_cons_of_ne_nil hne
  have hfirst := hnames first List.mem_cons_self
  have hsplit : split (joinParts (first :: rest)) = first :: rest :=
    split_joinParts hne fun p hp => (hnames p hp).plain
  have habs : isAbs (joinParts (first :: rest)) = false := by
    obtain ⟨c, text, rfl⟩ := List.exists_cons_of_ne_nil hfirst.ne_nil
    have hc : c ≠ slash := fun h => hfirst.plain (h ▸ List.mem_cons_self)
    cases rest with
    | nil | cons next rest => exact decide_eq_false fun h => hc (Option.some.inj h)
  have hslash : ∀ a : Text, resolve (a ++ slash :: joinParts (first :: rest)) = resolve a ++ (first :: rest) := by
    intro a
    rw [resolve, split_append, List.foldl_append, hsplit, foldl_walk_names hnames, ← resolve]
  rw [join, habs, if_neg (by decide)]
  split_ifs with hend
  · rcases hend with rfl | hend
    · rw [List.nil_append, resolve, hsplit, foldl_walk_names hnames]
      rfl
    · obtain ⟨b, rfl⟩ := List.getLast?_eq_some_iff.mp hend
      rw [List.append_assoc, List.singleton_append, hslash, resolve, resolve, split_append, List.foldl_append]
      rfl
  · exact hslash a

/-- **The shape of a normal path**: names, after nothing but steps up. -/
structure Normal (parts : List Text) : Prop where
  plain : ∀ part ∈ parts, part ≠ [] ∧ part ≠ here ∧ slash ∉ part
  up : parts.head? ≠ some above → above ∉ parts

theorem normal_push {absolute : Bool} (h : Normal parts) {part : Text} (hpart : slash ∉ part) :
    Normal (pushPart absolute parts part) := by
  unfold pushPart
  split_ifs with hskip hpush
  · exact h
  · obtain ⟨hne, hhere⟩ := not_or.mp hskip
    refine ⟨fun p hp => ?_, fun hhead hmem => ?_⟩
    · rcases List.mem_append.mp hp with hp | hp
      · exact h.plain p hp
      · rw [List.mem_singleton.mp hp]
        exact ⟨hne, hhere, hpart⟩
    · cases parts with
      | nil =>
        rw [List.nil_append, List.mem_singleton] at hmem
        exact hhead (by rw [hmem]; rfl)
      | cons first rest =>
        have hold : above ∉ first :: rest := h.up hhead
        rcases List.mem_append.mp hmem with hmem | hmem
        · exact hold hmem
        · rw [← List.mem_singleton.mp hmem] at hpush
          rcases hpush with hpush | ⟨-, hpush⟩ | hpush
          · exact hpush rfl
          · cases hpush
          · exact hold (List.mem_of_getLast? hpush)
  · refine ⟨fun p hp => h.plain p ((List.dropLast_sublist parts).subset hp), fun hhead hmem => ?_⟩
    have hmem' := (List.dropLast_sublist parts).subset hmem
    refine h.up (fun hfirst => hhead ?_) hmem'
    cases parts with
    | nil => cases hmem'
    | cons first rest =>
      cases rest with
      | nil => cases hmem
      | cons next rest => exact hfirst

theorem normal_foldl {absolute : Bool} : ∀ {before : List Text}, Normal before →
    (∀ part ∈ parts, slash ∉ part) → Normal (parts.foldl (pushPart absolute) before) := by
  induction parts with
  | nil => exact fun h _ => h
  | cons part parts ih =>
    intro before h hparts
    rw [List.foldl_cons]
    exact ih (normal_push h (hparts part List.mem_cons_self)) fun p hp => hparts p (List.mem_cons_of_mem part hp)

theorem normal_normpath (path : Text) :
    Normal ((split path).foldl (pushPart (decide (0 < initialSlashes path))) []) :=
  normal_foldl ⟨fun _ h => (by cases h), fun _ h => (by cases h)⟩ fun _ h => notMem_split h

theorem normpath_rel {path : Text} (hrel : isAbs (normpath path) = false) (hhere : normpath path ≠ here) :
    ∃ parts, Normal parts ∧ parts ≠ [] ∧ normpath path = joinParts parts := by
  have hnormal := normal_normpath path
  rw [normpath] at hrel hhere ⊢
  dsimp only at hrel hhere ⊢
  by_cases hempty : path = []
  · rw [if_pos hempty] at hhere
    exact absurd rfl hhere
  · rw [if_neg hempty] at hrel hhere ⊢
    cases hslashes : initialSlashes path with
    | zero =>
      rw [hslashes] at hnormal hhere
      rw [List.replicate_zero, List.nil_append] at hhere ⊢
      split_ifs at hhere ⊢ with hbody
      · exact absurd rfl hhere
      · refine ⟨_, hnormal, fun hnil => hbody ?_, rfl⟩
        rw [hnil]
        rfl
    | succ n =>
      rw [hslashes, List.replicate_succ, List.cons_append, if_neg (List.cons_ne_nil _ _)] at hrel
      cases hrel

/-! ### The files of a tree -/

/-- **A tree of files**: what is in each file, and the directories there are. A place is the names on the way
to it. -/
structure FileTree (ν : Type) where
  files : Dict (List ν) Bytes
  dirs : List (List ν)

namespace FileTree

variable {ν : Type} [DecidableEq ν]

/-- `os.makedirs(place, exist_ok=True)`; `none` where a file stands on the way. -/
def makeDirs (t : FileTree ν) (place : List ν) : Option (FileTree ν) :=
  if place.inits.any fun p => decide (p ∈ t.files.keys) then none
  else some { t with dirs := place.inits ++ t.dirs }

/-- Write a file; `none` where there is a directory of that name, or none to write in. -/
def write (t : FileTree ν) (place : List ν) (content : Bytes) : Option (FileTree ν) :=
  if place ∈ t.dirs ∨ place.dropLast ∉ t.dirs then none else some { t with files := t.files.set place content }

/-- `shutil.rmtree(place)` -/
def removeTree (t : FileTree ν) (place : List ν) : FileTree ν :=
  { files := t.files.filterKeys fun p => !decide (place <+: p), dirs := t.dirs.filter fun p => !decide (place <+: p) }

variable {t t' : FileTree ν} {place : List ν}

theorem makeDirs_spec (h : t.makeDirs place = some t') :
    t'.files = t.files ∧ ∀ p, p ∈ t'.dirs ↔ p <+: place ∨ p ∈ t.dirs := by
  unfold makeDirs at h
  split_ifs at h
  cases h
  refine ⟨rfl, fun p => ?_⟩
  rw [List.mem_append, List.mem_inits]

theorem exists_makeDirs (h : ∀ p, p <+: place → t.files.get? p = none) : ∃ t', t.makeDirs place = some t' := by
  unfold makeDirs
  rw [if_neg]
  · exact ⟨_, rfl⟩
  · rw [List.any_eq_true]
    rintro ⟨p, hp, hmem⟩
    exact Dict.get?_eq_none.mp (h p ((List.mem_inits p place).mp hp)) (of_decide_eq_true hmem)

theorem write_spec {content : Bytes} (h : t.write place content = some t') :
    t' = { t with files := t.files.set place content } := by
  unfold write at h
  split_ifs at h
  exact (Option.some.inj h).symm

theorem exists_write {content : Bytes} (hfree : place ∉ t.dirs) (hparent : place.dropLast ∈ t.dirs) :
    ∃ t', t.write place content = some t' := by
  unfold write
  rw [if_neg (not_or.mpr ⟨hfree, not_not.mpr hparent⟩)]
  exact ⟨_, rfl⟩

theorem get?_removeTree (p : List ν) :
    (t.removeTree place).files.get? p = if place <+: p then none else t.files.get? p := by
  rw [removeTree, Dict.get?_filterKeys]
  by_cases h : place <+: p
  · rw [if_pos h, decide_eq_true h, if_neg (by decide)]
  · rw [if_neg h, decide_eq_false h, if_pos (by decide)]

theorem mem_dirs_removeTree (p : List ν) :
    p ∈ (t.removeTree place).dirs ↔ p ∈ t.dirs ∧ ¬ place <+: p := by
  rw [removeTree, List.mem_filter, Bool.not_eq_true', decide_eq_false_iff_not]

end FileTree

end NMesh.Base.Paths
