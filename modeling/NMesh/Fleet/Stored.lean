import NMesh.Base.Chars
import NMesh.Base.JsonSize
import NMesh.Base.Runs
import NMesh.Fleet.Agent

/-! # The ledger of a fleet as it is stored

The tables as Python holds them: an entry is a dictionary of JSON values, and what a human ticked is a list of names in
it. One value of the store holds all the tables; `save` writes it after every change, and a new ledger is what `load`
makes of it. -/

namespace NMesh.Fleet.Stored

open Base.BigEndian Base.Utf8 Base.Hex Base.Ordered Base.JsonText Base.JsonRound
open Base.JsonStyle Base.JsonSize Base.Chars NMesh.Fleet.Ledger
open NMesh.Fleet.Agent (cleanStackNames)
open NMesh.Logs.Book (truthy)

def maxGroups : ℕ := 32
def maxGroupNodes : ℕ := 512
def maxSshKeys : ℕ := 8

def stateBudget : ℕ := 200 * 1024

/-- What Python brings in: how a float prints, how deep JSON is read and how deep it is written, the Unicode tables,
`float(value or 0)`, `str(value or "").strip().lower()`, `float(value)` where it does not raise, whether a float is above
zero, and `round(min(max(value, MIN_MEGABYTES), MAX_MEGABYTES), 3)`. -/
structure World where
  floatRepr : Text → Text
  depth : ℕ
  dumpDepth : ℕ
  chars : Characters
  seconds : Json → ℚ
  normal : Option Json → Text
  float : Option Json → Option Text
  positive : Text → Bool
  bounded : Text → Text

/-! ### Tables -/

abbrev Entry := Dict Text Json

/-- A dictionary written down: of two members with one key the last stays. -/
def entryOf (members : List (Text × Json)) : Entry := members.foldl (fun d m => d.set m.1 m.2) .empty

structure Group where
  nodes : List Text
  since : Json

structure Tables where
  operators : Dict Text Entry
  managed : Dict Text Entry
  pendingIn : Dict Text Entry
  pendingOut : Dict Text Entry
  provisioned : Dict Text Entry
  sshKeys : Dict Text Entry
  groups : Dict Text Group
  logDefaults : Entry

def capsJson (caps : List Cap) : Json := .arr (caps.map fun cap => .str cap.name)

def capsIn (e : Entry) : List Cap := (cleanCaps (e.get? (ascii "caps"))).getD []

/-- `entry.get(key) or default` -/
def orElse (v : Option Json) (default : Json) : Json :=
  match v with
  | some v => if truthy v then v else default
  | none => default

section Cleaning

variable (W : World)

/-- `_expire_pending`, of one table. -/
def expire (now : Text) (d : Dict Text Entry) : Dict Text Entry :=
  d.filterVal fun e => decide (W.seconds (.float now) - W.seconds ((e.get? (ascii "at")).getD .null) ≤ pendingTtl)

def expirePending (now : Text) (t : Tables) : Tables :=
  { t with pendingIn := expire W now t.pendingIn, pendingOut := expire W now t.pendingOut }

/-- `" ".join(text.split())`, after the blanks in front; was there a blank? -/
def squeeze (blank : Bool) : Text → Text
  | [] => []
  | c :: text =>
    if W.chars.isSpace c then squeeze true text
    else if blank then 0x20 :: c :: squeeze false text
    else c :: squeeze false text

def cleanGroup (name : Text) : Text :=
  let text := (squeeze W false (name.dropWhile W.chars.isSpace)).take 48
  if text.all fun c => 0x20 ≤ c then text else []

def policies : List Text := [ascii "always", ascii "active", ascii "never"]

def cleanPolicy (raw : Option Json) : Text := if W.normal raw ∈ policies then W.normal raw else ascii "active"

def cleanMegabytes (raw : Option Json) : Text :=
  match W.float raw with
  | none => ascii "2.0"
  | some value => if W.positive value then W.bounded value else ascii "2.0"

def cleanLogEntry (e : Entry) : Entry :=
  entryOf [(ascii "policy", .str (cleanPolicy W (e.get? (ascii "policy")))),
    (ascii "megabytes", .float (cleanMegabytes W (e.get? (ascii "megabytes"))))]

end Cleaning

/-! ### Saving -/

def tableJson (d : Dict Text Entry) : Json := .obj (d.entries.map fun e => (e.1, .obj e.2.entries))

def groupJson (g : Group) : Json := .obj [(ascii "nodes", .arr (g.nodes.map .str)), (ascii "at", g.since)]

def document (t : Tables) : Json :=
  .obj [(ascii "operators", tableJson t.operators), (ascii "managed", tableJson t.managed),
    (ascii "pending_in", tableJson t.pendingIn), (ascii "pending_out", tableJson t.pendingOut),
    (ascii "provisioned", tableJson t.provisioned), (ascii "ssh_keys", tableJson t.sshKeys),
    (ascii "groups", .obj (t.groups.entries.map fun e => (e.1, groupJson e.2))),
    (ascii "log_defaults", .obj t.logDefaults.entries)]

def trimmed (t : Tables) : Tables := { t with managed := t.managed.mapVal fun _ e => e.pop (ascii "status") }

/-- **What the store is to hold of the tables**: without the statuses, if they are too much. -/
def shed (t : Tables) : Tables := if stateBudget < (blob compact (document t)).length then trimmed t else t

/-- The ledger: the tables, the value in the store, and the time it was last used. -/
structure Ledger where
  tables : Tables
  store : Option Bytes
  clock : ℚ

section Saving

variable (W : World)

/-- `_save`; where JSON cannot be written so deep, it raises, and nothing is stored. -/
def save (l : Ledger) : Ledger :=
  { l with
    store := if W.dumpDepth < height (document l.tables) then l.store
      else some ((blob compact (document (shed l.tables))).take stateBudget) }

/-! ### Loading -/

/-- What `_load_map` makes of a value in an entry. -/
def tidy (key : Text) (v : Json) : Json :=
  if key = ascii "caps" then capsJson ((cleanCaps (some v)).getD [])
  else if key = ascii "label" then .str (cleanLabel (some v))
  else v

/-- One entry of a table, if there is room and it is one. -/
def loadEntry (limit : ℕ) (d : Dict Text Entry) (e : Text × Json) : Dict Text Entry :=
  match e.2 with
  | .obj members => if limit ≤ d.size ∨ 64 < e.1.length then d else d.set e.1 ((entryOf members).mapVal tidy)
  | _ => d

def loadMap (limit : ℕ) : Option Json → Dict Text Entry
  | some (.obj members) => members.foldl (loadEntry limit) .empty
  | _ => .empty

/-- The items of `entry.get("nodes") or []`. -/
def nodesIn (e : Entry) : List Text :=
  match e.get? (ascii "nodes") with
  | some (.arr items) => items.filterMap Json.text?
  | some (.obj members) => members.map Prod.fst
  | _ => []

def loadGroup (now : Text) (d : Dict Text Group) (e : Text × Entry) : Dict Text Group :=
  if cleanGroup W e.1 = [] then d
  else d.set e.1 ⟨((nodesIn e.2).filter isNodeHex).take maxGroupNodes, orElse (e.2.get? (ascii "at")) (.float now)⟩

def noTables : Tables := ⟨.empty, .empty, .empty, .empty, .empty, .empty, .empty, cleanLogEntry W .empty⟩

def entryIn : Option Json → Entry
  | some (.obj members) => entryOf members
  | _ => .empty

/-- What `_load` makes of a document. -/
def loadDocument (now : Text) (doc : Json) : Tables where
  operators := loadMap maxOperators (doc.get? (ascii "operators"))
  managed := loadMap maxManaged (doc.get? (ascii "managed"))
  pendingIn := loadMap maxPending (doc.get? (ascii "pending_in"))
  pendingOut := loadMap maxPending (doc.get? (ascii "pending_out"))
  provisioned := loadMap maxProvisionRecords (doc.get? (ascii "provisioned"))
  sshKeys := loadMap maxSshKeys (doc.get? (ascii "ssh_keys"))
  groups := (loadMap maxGroups (doc.get? (ascii "groups"))).entries.foldl (loadGroup W now) .empty
  logDefaults := cleanLogEntry W (entryIn (doc.get? (ascii "log_defaults")))

/-- `_load`: a new ledger over what the store holds. -/
def load (now : Text) (store : Option Bytes) : Tables :=
  match ((store.filter (· ≠ [])).bind decodeUtf8).bind (loads W.floatRepr W.depth) with
  | some (.obj members) => expirePending W now (loadDocument W now (.obj members))
  | _ => noTables W

end Saving

/-! ### Operations -/

abbrev Saved := Tables × Bool

section Operations

variable (W : World) (now : Text) (t : Tables)

def addOperator (key : Text) (pub : Bytes) (caps : List Cap) (label : Text) (proof : Bytes) : Saved :=
  if clean caps = [] ∨ isNodeHex key = false ∨ pub = [] then (t, false)
  else if key ∉ t.operators.keys ∧ maxOperators ≤ t.operators.size then (t, false)
  else ({ t with
    operators := t.operators.set key (entryOf [(ascii "pub", .str (toHex pub)), (ascii "caps", capsJson (clean caps)),
      (ascii "label", .str (label.take maxLabel)), (ascii "enrolled_at", .float now),
      (ascii "proof", .str (NMesh.Base.Base64.encode proof))])
    pendingIn := t.pendingIn.pop key }, true)

def setOperatorCaps (key : Text) (caps : List Cap) (narrowOnly : Bool) : Saved :=
  match t.operators.get? key with
  | none => (t, false)
  | some e =>
    let new := if narrowOnly then (clean caps).filter (· ∈ capsIn e) else clean caps
    if new = [] then ({ t with operators := t.operators.pop key }, true)
    else ({ t with
      operators := t.operators.set key ((e.set (ascii "caps") (capsJson new)).set (ascii "changed_at") (.float now)) },
      true)

def removeOperator (key : Text) : Saved :=
  if key ∈ t.operators.keys then ({ t with operators := t.operators.pop key }, true) else (t, false)

def addManaged (key : Text) (caps : List Cap) (label : Text) (grant : Bytes) : Saved :=
  if clean caps = [] ∨ isNodeHex key = false then (t, false)
  else if key ∉ t.managed.keys ∧ maxManaged ≤ t.managed.size then (t, false)
  else
    let existing := (t.managed.get? key).getD .empty
    ({ t with
      managed := t.managed.set key (entryOf [(ascii "caps", capsJson (clean caps)),
        (ascii "label", if label.take maxLabel = [] then (existing.get? (ascii "label")).getD (.str [])
          else .str (label.take maxLabel)),
        (ascii "enrolled_at", orElse (existing.get? (ascii "enrolled_at")) (.float now)),
        (ascii "grant", .str (NMesh.Base.Base64.encode grant)),
        (ascii "status", (existing.get? (ascii "status")).getD .null), (ascii "last_seen", .float now),
        (ascii "update_stacks", orElse (existing.get? (ascii "update_stacks")) (.arr []))])
      pendingOut := t.pendingOut.pop key }, true)

/-- `remove_managed`: the node goes from the groups too. -/
def removeManaged (key : Text) : Saved :=
  if key ∈ t.managed.keys then
    ({ t with
      managed := t.managed.pop key
      groups := t.groups.mapVal fun _ g => { g with nodes := g.nodes.erase key } }, true)
  else (t, false)

def onManaged (key : Text) (f : Entry → Entry) : Saved :=
  match t.managed.get? key with
  | none => (t, false)
  | some e => ({ t with managed := t.managed.set key (f e) }, true)

def recordStatus (key : Text) (status : Json) : Saved :=
  onManaged t key fun e => (e.set (ascii "status") status).set (ascii "last_seen") (.float now)

def setUpdateStacks (key : Text) (raw : Option Json) : Saved :=
  onManaged t key fun e => e.set (ascii "update_stacks") (.arr ((cleanStackNames raw).map .str))

def setLogFields (policy megabytes : Option Json) (e : Entry) : Entry :=
  let e := if policy.isSome then e.set (ascii "policy") (.str (cleanPolicy W policy)) else e
  if megabytes.isSome then e.set (ascii "megabytes") (.float (cleanMegabytes W megabytes)) else e

def setLogDefaults (policy megabytes : Option Json) : Saved :=
  ({ t with logDefaults := cleanLogEntry W (setLogFields W policy megabytes t.logDefaults) }, true)

def setLogPolicy (key : Text) (policy megabytes : Option Json) (inherit : Bool) : Saved :=
  onManaged t key fun e =>
    if inherit then e.pop (ascii "logs")
    else e.set (ascii "logs") (.obj (setLogFields W policy megabytes (entryIn (e.get? (ascii "logs")))).entries)

def distinct (l : List Text) : List Text := l.foldl (fun out x => if x ∈ out then out else out ++ [x]) []

def setGroup (name : Text) (nodes : List Text) : Saved :=
  if cleanGroup W name = [] then (t, false)
  else if cleanGroup W name ∉ t.groups.keys ∧ maxGroups ≤ t.groups.size then (t, false)
  else
    let since := ((t.groups.get? (cleanGroup W name)).map Group.since).getD (.float now)
    ({ t with
      groups := t.groups.set (cleanGroup W name) ⟨distinct ((nodes.take maxGroupNodes).filter isNodeHex), since⟩ }, true)

def removeGroup (name : Text) : Saved :=
  if cleanGroup W name ∈ t.groups.keys then ({ t with groups := t.groups.pop (cleanGroup W name) }, true) else (t, false)

def joinGroup (node : Text) (groups : Dict Text Group) (name : Text) : Dict Text Group :=
  if name ∉ groups.keys ∧ maxGroups ≤ groups.size then groups
  else
    let g := (groups.get? name).getD ⟨[], .float now⟩
    groups.set name
      { g with nodes := if node ∈ g.nodes ∨ maxGroupNodes ≤ g.nodes.length then g.nodes else g.nodes ++ [node] }

def setNodeGroups (node : Text) (names : List Text) : Saved :=
  if isNodeHex node = false then (t, false)
  else
    let wanted := distinct (((names.take maxGroups).map (cleanGroup W)).filter (· ≠ []))
    ({ t with
      groups := (wanted.foldl (joinGroup now node) t.groups).mapVal fun name g =>
        if name ∈ wanted then g else { g with nodes := g.nodes.erase node } }, true)

def addPendingIn (key : Text) (pub : Bytes) (caps : List Cap) (label : Text) (proof : Bytes) (held : List Cap) : Saved :=
  if clean caps = [] ∨ isNodeHex key = false then (t, false)
  else
    let t := expirePending W now t
    if key ∉ t.pendingIn.keys ∧ maxPending ≤ t.pendingIn.size then (t, false)
    else ({ t with
      pendingIn := t.pendingIn.set key (entryOf [(ascii "pub", .str (toHex pub)), (ascii "caps", capsJson (clean caps)),
        (ascii "have", capsJson (clean held)), (ascii "label", .str (label.take maxLabel)), (ascii "at", .float now),
        (ascii "proof", .str (NMesh.Base.Base64.encode proof))]) }, true)

def takePendingIn (key : Text) : Saved :=
  if key ∈ t.pendingIn.keys then ({ t with pendingIn := t.pendingIn.pop key }, true) else (t, false)

def addPendingOut (key : Text) (caps : List Cap) (label : Text) : Saved :=
  if clean caps = [] ∨ isNodeHex key = false then (t, false)
  else
    let t := expirePending W now t
    if key ∉ t.pendingOut.keys ∧ maxPending ≤ t.pendingOut.size then (t, false)
    else ({ t with
      pendingOut := t.pendingOut.set key (entryOf [(ascii "caps", capsJson (clean caps)),
        (ascii "label", .str (label.take maxLabel)), (ascii "at", .float now)]) }, true)

def dropPendingOut (key : Text) : Saved :=
  if key ∈ t.pendingOut.keys then ({ t with pendingOut := t.pendingOut.pop key }, true) else (t, false)

def addProvisioned (digest host : Text) (caps : List Cap) (label : Text) : Saved :=
  let room := Dict.makeRoom maxProvisionRecords t.provisioned.size t.provisioned
  ({ t with
    provisioned := room.set (digest.take 64) (entryOf [(ascii "host", .str (host.take 128)),
      (ascii "caps", capsJson (clean caps)), (ascii "label", .str (label.take maxLabel)), (ascii "at", .float now)]) },
    true)

def takeProvisioned (digest : Text) : Saved :=
  if digest.take 64 ∈ t.provisioned.keys then ({ t with provisioned := t.provisioned.pop (digest.take 64) }, true)
  else (t, false)

/-- `add_ssh_key`, of a key by its digest, once its material is in the drawer. -/
def addSshKey (digest : Bytes) (name : Text) (encrypted : Bool) : Saved :=
  let key := toHex (digest.take 8)
  if key ∉ t.sshKeys.keys ∧ maxSshKeys ≤ t.sshKeys.size then (t, false)
  else
    let name := if name.take maxLabel = [] then ascii "key-" ++ key.take 8 else name.take maxLabel
    ({ t with
      sshKeys := t.sshKeys.set key (entryOf [(ascii "name", .str name), (ascii "encrypted", .bool encrypted),
        (ascii "at", .float now)]) }, true)

def removeSshKey (key : Text) : Saved :=
  if key ∈ t.sshKeys.keys then ({ t with sshKeys := t.sshKeys.pop key }, true) else (t, false)

end Operations

/-! ### Runs -/

/-- What is done to a ledger; `views` reads the requests that wait, `writeSecret` stores a secret elsewhere, and
`restart` makes a new ledger over the store. -/
inductive Operation
  | addOperator (key : Text) (pub : Bytes) (caps : List Cap) (label : Text) (proof : Bytes)
  | setOperatorCaps (key : Text) (caps : List Cap) (narrowOnly : Bool)
  | removeOperator (key : Text)
  | addManaged (key : Text) (caps : List Cap) (label : Text) (grant : Bytes)
  | removeManaged (key : Text)
  | recordStatus (key : Text) (status : Json)
  | setUpdateStacks (key : Text) (raw : Option Json)
  | setLogDefaults (policy megabytes : Option Json)
  | setLogPolicy (key : Text) (policy megabytes : Option Json) (inherit : Bool)
  | setGroup (name : Text) (nodes : List Text)
  | removeGroup (name : Text)
  | setNodeGroups (node : Text) (names : List Text)
  | views
  | addPendingIn (key : Text) (pub : Bytes) (caps : List Cap) (label : Text) (proof : Bytes) (held : List Cap)
  | takePendingIn (key : Text)
  | addPendingOut (key : Text) (caps : List Cap) (label : Text)
  | dropPendingOut (key : Text)
  | addProvisioned (digest host : Text) (caps : List Cap) (label : Text)
  | takeProvisioned (digest : Text)
  | addSshKey (digest : Bytes) (name : Text) (encrypted : Bool)
  | removeSshKey (key : Text)
  | writeSecret (stored : Bool)
  | restart

section Runs

variable (W : World)

def operate (now : Text) (t : Tables) : Operation → Saved
  | .addOperator key pub caps label proof => addOperator now t key pub caps label proof
  | .setOperatorCaps key caps narrowOnly => setOperatorCaps now t key caps narrowOnly
  | .removeOperator key => removeOperator t key
  | .addManaged key caps label grant => addManaged now t key caps label grant
  | .removeManaged key => removeManaged t key
  | .recordStatus key status => recordStatus now t key status
  | .setUpdateStacks key raw => setUpdateStacks t key raw
  | .setLogDefaults policy megabytes => setLogDefaults W t policy megabytes
  | .setLogPolicy key policy megabytes inherit => setLogPolicy W t key policy megabytes inherit
  | .setGroup name nodes => setGroup W now t name nodes
  | .removeGroup name => removeGroup W t name
  | .setNodeGroups node names => setNodeGroups W now t node names
  | .views => (expirePending W now t, false)
  | .addPendingIn key pub caps label proof held => addPendingIn W now t key pub caps label proof held
  | .takePendingIn key => takePendingIn t key
  | .addPendingOut key caps label => addPendingOut W now t key caps label
  | .dropPendingOut key => dropPendingOut t key
  | .addProvisioned digest host caps label => addProvisioned now t digest host caps label
  | .takeProvisioned digest => takeProvisioned t digest
  | .addSshKey digest name encrypted => addSshKey now t digest name encrypted
  | .removeSshKey key => removeSshKey t key
  | .writeSecret stored => (t, stored)
  | .restart => (t, false)

/-- An operation at a time, as `repr` writes it. -/
abbrev Action := Text × Operation

/-- **One step**: an operation, and what it saves; or a new ledger over the store. -/
def step (l : Ledger) (a : Action) : Ledger :=
  match a.2 with
  | .restart => { l with tables := load W a.1 l.store, clock := W.seconds (.float a.1) }
  | op =>
    let r := operate W a.1 l.tables op
    let l := { l with tables := r.1, clock := W.seconds (.float a.1) }
    if r.2 then save W l else l

def fresh : Ledger := ⟨noTables W, none, 0⟩

end Runs

end NMesh.Fleet.Stored
