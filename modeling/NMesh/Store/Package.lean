import NMesh.Store.Catalogue
import Mathlib.Data.Set.Function

/-! # Packages fetched by their hash

A package is a root that lists the chunks of a manifest, and the manifest lists the chunks of every file. Each
piece is asked for by its hash, so whoever answers, one root key leads to one set of files (`fetchApp_unique`). -/

namespace NMesh.Store.Package

open Base.BigEndian Base.Utf8 Base.Hex Base.Ordered Base.JsonText
open NMesh.Store.Catalogue

/-! ### The documents -/

def maxFiles : ℕ := 4096

def maxTotalBytes : ℕ := 512 * 1024 * 1024

/-- `_MAX_CHUNKS_PER_FILE`: the chunks of 48 KiB that make up the ceiling, rounded up. -/
def maxChunksPerFile : ℕ := (maxTotalBytes + 49152 - 1) / 49152

/-- The number, if Python takes this for an integer; a Boolean is one. -/
def asInt : Json → Option ℤ
  | .int n => some n
  | .bool b => some (if b then 1 else 0)
  | _ => none

def readChunks (v : Json) : Option (List Text) :=
  match v with
  | .arr items =>
    if items.length ≤ maxChunksPerFile then
      items.mapM fun item => item.text?.filter fun h => h.length = keyLen * 2
    else none
  | _ => none

structure Root where
  size : ℤ
  sha256 : Text
  chunks : List Text

structure FileEntry where
  path : Text
  size : ℤ
  sha256 : Text
  chunks : List Text

structure Manifest where
  name : Text
  version : Text
  files : List FileEntry

def readRoot (doc : Json) : Option Root := do
  guard (isOne (← doc.get? (ascii "v")))
  let size ← asInt (← doc.get? (ascii "size"))
  guard (0 ≤ size ∧ size ≤ maxTotalBytes)
  let sha ← (← doc.get? (ascii "sha256")).text?
  guard (sha.length = 64)
  let chunks ← readChunks (← doc.get? (ascii "chunks"))
  return ⟨size, sha, chunks⟩

def readFile (doc : Json) : Option FileEntry := do
  let path ← (← doc.get? (ascii "path")).text?
  let size ← asInt (← doc.get? (ascii "size"))
  guard (0 ≤ size)
  let sha ← (← doc.get? (ascii "sha256")).text?
  guard (sha.length = 64)
  let chunks ← readChunks (← doc.get? (ascii "chunks"))
  return ⟨path, size, sha, chunks⟩

def readManifest (doc : Json) : Option Manifest := do
  let name ← (← doc.get? (ascii "name")).text?
  let version ← (← doc.get? (ascii "version")).text?
  match doc.get? (ascii "files") with
  | some (.arr items) =>
    guard (items.length ≤ maxFiles)
    let files ← items.mapM readFile
    return ⟨name, version, files⟩
  | _ => none

/-! ### Putting it together -/

section Fetching

variable (W : World)

def parseRoot (data : Bytes) : Option Root := do
  let text ← decodeUtf8 data
  let doc ← loads W.floatRepr W.depth text
  readRoot doc

def parseManifest (data : Bytes) : Option Manifest := do
  let text ← decodeUtf8 data
  let doc ← loads W.floatRepr W.depth text
  readManifest doc

/-- The chunks of some keys, one after the other, and the bytes seen so far with them. -/
def gather (get : Bytes → Option Bytes) : List Text → ℕ → Option (Bytes × ℕ)
  | [], total => some ([], total)
  | h :: rest, total => do
    let key ← fromHex h
    let chunk ← get key
    guard (contentKey W chunk = key)
    guard (total + chunk.length ≤ maxTotalBytes)
    let (data, total) ← gather get rest (total + chunk.length)
    return (chunk ++ data, total)

def reassembleBytes (size : ℤ) (sha256Hex : Text) (chunks : List Text) (get : Bytes → Option Bytes) :
    Option Bytes := do
  let (data, _) ← gather W get chunks 0
  guard (data.length = size ∧ toHex (W.sha256 data) = sha256Hex)
  return data

/-- `reassemble`: the files of a manifest, where a path that comes again takes the place of the first. -/
def reassemble (get : Bytes → Option Bytes) : List FileEntry → ℕ → Dict Text Bytes → Option (Dict Text Bytes)
  | [], _, out => some out
  | fe :: rest, total, out => do
    let (data, total) ← gather W get fe.chunks total
    guard (data.length = fe.size ∧ toHex (W.sha256 data) = fe.sha256)
    reassemble get rest total (out.set fe.path data)

/-- `fetch_app`: the files behind a root key, where `get` is what `dht_get` finds. -/
def fetchApp (get : Bytes → Option Bytes) (rootKey : Bytes) : Option (Dict Text Bytes) := do
  let rootBytes ← get rootKey
  let root ← parseRoot W rootBytes
  let manifestBytes ← reassembleBytes W root.size root.sha256 root.chunks get
  let manifest ← parseManifest W manifestBytes
  reassemble W get manifest.files 0 .empty

/-- What `dht_get` promises: what is found hashes to its key. -/
def Verified (get : Bytes → Option Bytes) : Prop := ∀ k v, get k = some v → contentKey W v = k

/-- **The files of a root key**: what some honest look-up of it puts together. -/
def Content (rootKey : Bytes) (files : Dict Text Bytes) : Prop :=
  ∃ get, Verified W get ∧ fetchApp W get rootKey = some files

end Fetching

/-! ### One root, one set of files -/

section Unique

variable {W : World} {T : Set Bytes} {get get' : Bytes → Option Bytes}

/-- Two look-ups that never find different values of one key. -/
def Agree (get get' : Bytes → Option Bytes) : Prop := ∀ k v v', get k = some v → get' k = some v' → v = v'

theorem agree_of_injOn (hinj : Set.InjOn (contentKey W) T) (hget : Verified W get) (hget' : Verified W get')
    (hT : ∀ k v, get k = some v → v ∈ T) (hT' : ∀ k v, get' k = some v → v ∈ T) : Agree get get' := by
  intro k v v' hv hv'
  exact hinj (hT k v hv) (hT' k v' hv') ((hget k v hv).trans (hget' k v' hv').symm)

theorem gather_unique (h : Agree get get') : ∀ {keys : List Text} {total : ℕ} {r r' : Bytes × ℕ},
    gather W get keys total = some r → gather W get' keys total = some r' → r = r'
  | [], _, _, _, hr, hr' => Option.mem_unique hr hr'
  | key :: keys, total, r, r', hr, hr' => by
    simp only [gather, Option.bind_eq_bind, Option.bind_eq_some_iff, Option.guard_eq_some'] at hr hr'
    obtain ⟨k, hk, v, hv, -, -, -, -, rest, hrest, hr⟩ := hr
    obtain ⟨k', hk', v', hv', -, -, -, -, rest', hrest', hr'⟩ := hr'
    obtain rfl := Option.mem_unique hk hk'
    obtain rfl := h k v v' hv hv'
    obtain rfl := gather_unique h hrest hrest'
    exact Option.mem_unique hr hr'

theorem reassembleBytes_unique (h : Agree get get') {size : ℤ} {sha : Text} {chunks : List Text} {data data' : Bytes}
    (hr : reassembleBytes W size sha chunks get = some data)
    (hr' : reassembleBytes W size sha chunks get' = some data') : data = data' := by
  simp only [reassembleBytes, Option.bind_eq_bind, Option.bind_eq_some_iff, Option.guard_eq_some'] at hr hr'
  obtain ⟨r, hg, -, -, hr⟩ := hr
  obtain ⟨r', hg', -, -, hr'⟩ := hr'
  obtain rfl := gather_unique h hg hg'
  exact Option.mem_unique hr hr'

theorem reassemble_unique (h : Agree get get') : ∀ {entries : List FileEntry} {total : ℕ}
    {out files files' : Dict Text Bytes}, reassemble W get entries total out = some files →
    reassemble W get' entries total out = some files' → files = files'
  | [], _, _, _, _, hr, hr' => Option.mem_unique hr hr'
  | fe :: entries, total, out, files, files', hr, hr' => by
    simp only [reassemble, Option.bind_eq_bind, Option.bind_eq_some_iff, Option.guard_eq_some'] at hr hr'
    obtain ⟨r, hg, -, -, hr⟩ := hr
    obtain ⟨r', hg', -, -, hr'⟩ := hr'
    obtain rfl := gather_unique h hg hg'
    exact reassemble_unique h hr hr'

/-- **A root key stands for its files**: honest look-ups among values that hash apart put the same together. -/
theorem fetchApp_unique (h : Agree get get') {rootKey : Bytes} {files files' : Dict Text Bytes}
    (hr : fetchApp W get rootKey = some files) (hr' : fetchApp W get' rootKey = some files') : files = files' := by
  simp only [fetchApp, Option.bind_eq_bind, Option.bind_eq_some_iff] at hr hr'
  obtain ⟨root, hroot, doc, hdoc, bytes, hbytes, manifest, hmanifest, hr⟩ := hr
  obtain ⟨root', hroot', doc', hdoc', bytes', hbytes', manifest', hmanifest', hr'⟩ := hr'
  obtain rfl := h rootKey root root' hroot hroot'
  obtain rfl := Option.mem_unique hdoc hdoc'
  obtain rfl := reassembleBytes_unique h hbytes hbytes'
  obtain rfl := Option.mem_unique hmanifest hmanifest'
  exact reassemble_unique h hr hr'

end Unique

end NMesh.Store.Package
