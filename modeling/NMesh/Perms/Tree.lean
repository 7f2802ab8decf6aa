import NMesh.Base.Utf8

/-! # The permissions of `app_perms.py`

The tree of permissions: every name an app can ask for, its level, and the names it covers. The titles
and descriptions that a page shows are left out. -/

namespace NMesh.Perms.Tree

open Base.Utf8

inductive Level
  | normal
  | sensitive
  | dangerous
  deriving DecidableEq, Repr

/-- `_perm(name, title, level, description, children)`; the children have none of their own. -/
structure Perm where
  name : Text
  level : Level
  children : List (Text × Level)

def perm (name : String) (level : Level) : Perm := ⟨ascii name, level, []⟩

def parentPerm (name : String) (level : Level) (children : List String) : Perm :=
  ⟨ascii name, level, children.map fun child => (ascii child, level)⟩

def permissions : List Perm :=
  [perm "network" .normal, perm "storage" .normal, perm "dht" .normal, perm "names" .normal,
    perm "identity" .normal, perm "log" .normal, perm "notify" .normal, perm "report" .normal,
    parentPerm "readstate" .sensitive
      ["readstate.node", "readstate.links", "readstate.logs", "readstate.alerts", "readstate.trace",
        "readstate.config", "readstate.trust", "readstate.updates", "readstate.apps"],
    parentPerm "contacts" .sensitive ["contacts.read", "contacts.write"],
    parentPerm "control" .dangerous
      ["control.node", "control.network", "control.config", "control.diagnostics", "control.trust",
        "control.updates", "control.apps", "control.appweb"],
    perm "modding" .dangerous]

/-- What the index says of one name. -/
structure Indexed where
  level : Level
  parent : Option Text
  children : List Text

/-- One permission and what it covers, in the order of `walk`. -/
def Perm.walk (p : Perm) : List (Text × Indexed) :=
  (p.name, ⟨p.level, none, p.children.map Prod.fst⟩) ::
    p.children.map fun child => (child.1, ⟨child.2, some p.name, []⟩)

def byName : List (Text × Indexed) := permissions.flatMap Perm.walk

def names : List Text := byName.map Prod.fst

/-- `_BY_NAME.get(name)` -/
def find (name : Text) : Option Indexed := (byName.find? fun e => e.1 = name).map Prod.snd

def known (name : Text) : Bool := (find name).isSome

def level (name : Text) : Level := ((find name).map Indexed.level).getD .dangerous

def parent (name : Text) : Option Text := (find name).bind Indexed.parent

def children (name : Text) : List Text := ((find name).map Indexed.children).getD []

/-- `closure(names)`: each name, and what it covers. -/
def closure (asked : List Text) : List Text :=
  asked.flatMap fun name => if known name then name :: children name else []

variable {name : Text}

theorem mem_closure {asked : List Text} :
    name ∈ closure asked ↔ ∃ n ∈ asked, known n = true ∧ (name = n ∨ name ∈ children n) := by
  rw [closure, List.mem_flatMap]
  constructor
  · rintro ⟨n, hn, h⟩
    split_ifs at h with hk
    · exact ⟨n, hn, hk, List.mem_cons.mp h⟩
    · cases h
  · rintro ⟨n, hn, hk, h⟩
    exact ⟨n, hn, by rw [if_pos hk]; exact List.mem_cons.mpr h⟩

theorem find_mem {e : Indexed} (h : find name = some e) : (name, e) ∈ byName := by
  obtain ⟨⟨n, e'⟩, hfind, rfl⟩ := Option.map_eq_some_iff.mp h
  have hname : n = name := by simpa using List.find?_some hfind
  rw [← hname]
  exact List.mem_of_find?_eq_some hfind

theorem scalar_known (h : known name = true) : ∀ c ∈ name, Scalar c := by
  have htable : ∀ n ∈ names, ∀ c ∈ n, Scalar c := by decide +kernel
  obtain ⟨e, he⟩ := Option.isSome_iff_exists.mp h
  exact htable name (List.mem_map_of_mem (find_mem he))

theorem mem_children_iff {up : Text} : name ∈ children up ↔ parent name = some up := by
  have htable : ∀ a ∈ names, ∀ b ∈ names, a ∈ children b ↔ parent a = some b := by decide +kernel
  have hclosed : ∀ e ∈ byName, (∀ c ∈ e.2.children, c ∈ names) ∧ ∀ u ∈ e.2.parent, u ∈ names := by
    decide +kernel
  have hknown : ∀ {n e}, find n = some e → n ∈ names := fun h => List.mem_map_of_mem (find_mem h)
  constructor
  · intro h
    rcases hup : find up with _ | e
    · rw [children, hup] at h
      cases h
    · have hc : name ∈ e.children := by rw [children, hup] at h; exact h
      exact (htable name ((hclosed _ (find_mem hup)).1 name hc) up (hknown hup)).mp h
  · intro h
    obtain ⟨e, he, hp⟩ := Option.bind_eq_some_iff.mp h
    exact (htable name (hknown he) up ((hclosed _ (find_mem he)).2 up hp)).mpr h

theorem normal_alone (h : level name = .normal) : parent name = none ∧ children name = [] := by
  have htable : ∀ e ∈ byName, e.2.level = .normal → e.2.parent = none ∧ e.2.children = [] := by
    decide +kernel
  rcases hf : find name with _ | e
  · rw [parent, children, hf]
    exact ⟨rfl, rfl⟩
  · have hl : e.level = .normal := by rw [level, hf] at h; exact h
    obtain ⟨hparent, hchildren⟩ := htable _ (find_mem hf) hl
    rw [parent, children, hf]
    exact ⟨hparent, hchildren⟩

theorem parent_of_child {up : Text} (h : parent name = some up) : parent up = none := by
  have htable : ∀ e ∈ byName, ∀ u ∈ e.2.parent, parent u = none := by decide +kernel
  obtain ⟨e, he, hp⟩ := Option.bind_eq_some_iff.mp h
  exact htable _ (find_mem he) up hp

end NMesh.Perms.Tree
