import NMesh.Directory.PseudoDir

/-! # Package records

A record says that a node holds a release and serves it, signed by the node; with the flag `published` it
also carries the proof that the node holds the key which signed the release. `parseRecord` reads one;
`none` stands for a record that is refused, and for a parser that raises. -/

namespace NMesh.Directory.PkgDir

open Base.BigEndian Base.Utf8 NMesh.Cert.Identity NMesh.Directory.Name
open NMesh.Directory.PseudoDir (Primitives bytesOf plain turning)

variable (U : Unicode) (P : Primitives)

def domain : Bytes := bytesOf "nmesh-package-dir-v2"

def recordVersion : ℕ := 2

def kindCore : ℕ := 1

def kindApp : ℕ := 2

def flagPublished : ℕ := 1

def maxName : ℕ := maxPseudo

def maxVersion : ℕ := 64

def maxNotes : ℕ := 600

def releaseKeyLen : ℕ := 20

def srcLen : ℕ := 32

def hdrSize : ℕ := 25

def maxPubkey : ℕ := 4096

def maxSig : ℕ := 5000

def maxNameBytes : ℕ := maxName * 4

def maxRecord : ℕ :=
  hdrSize + 2 * maxPubkey + maxNameBytes + maxVersion + maxNotes * 4 + releaseKeyLen + srcLen + 2 * maxSig

/-! ### Keys -/

def dirKeyOf (label : String) (material : Bytes) : Bytes :=
  P.digest (domain ++ (bytesOf label ++ material))

def nodeKey (nodeId : NodeID) : Bytes := dirKeyOf P ":node:" nodeId.raw

def releaseKey (release : Bytes) : Bytes := dirKeyOf P ":rel:" release

def nameKeys (name : Text) : Option (List Bytes) :=
  (keyTerms U name).mapM fun term => (encodeUtf8 term).map (dirKeyOf P ":name:")

/-! ### Records -/

/-- A record that was read. -/
structure Record where
  nodeId : NodeID
  node : Bytes
  kind : ℕ
  flags : ℕ
  published : Bool
  signerId : Option NodeID
  signer : Option Bytes
  name : Text
  version : Text
  notes : Text
  release : Bytes
  src : Bytes
  ts : ℕ
  keys : List Bytes
  deriving DecidableEq

def holdInput (nodeId : NodeID) (kind flags ts : ℕ) (name version notes : Text) (release src : Bytes) :
    Option Bytes := do
  let name ← encodeUtf8 name
  let version ← encodeUtf8 version
  let notes ← encodeUtf8 notes
  return domain ++ (bytesOf ":hold:" ++ (nodeId.raw ++ (toBE 1 kind ++ (toBE 1 flags ++ (toBE 8 ts ++
    (name ++ ([0] ++ (version ++ ([0] ++ (notes ++ ([0] ++ (release ++ src))))))))))))

/-- What the release's key signs to let a node say it published the release. -/
def publisherInput (nodeId signerId : NodeID) (release : Bytes) : Bytes :=
  domain ++ (bytesOf ":sign:" ++ (nodeId.raw ++ (signerId.raw ++ release)))

def parseRecord (data : Bytes) : Option Record := do
  guard (hdrSize ≤ data.length ∧ data.length ≤ maxRecord)
  let kind := field data 1 1
  let flags := field data 2 1
  let ts := field data 3 8
  let nodeLen := field data 11 2
  let nameLen := field data 13 2
  let verLen := field data 15 2
  let notesLen := field data 17 2
  let nsigLen := field data 19 2
  let signerLen := field data 21 2
  let ssigLen := field data 23 2
  guard (field data 0 1 = recordVersion ∧ (kind = kindCore ∨ kind = kindApp))
  guard (flags &&& 0xFE = 0)
  let published := decide (flags &&& flagPublished ≠ 0)
  guard (published ≠ decide (signerLen = 0 ∨ ssigLen = 0))
  guard (nodeLen ≤ maxPubkey ∧ nsigLen ≤ maxSig ∧ signerLen ≤ maxPubkey ∧ ssigLen ≤ maxSig ∧
    nameLen ≤ maxNameBytes ∧ verLen ≤ maxVersion ∧ notesLen ≤ maxNotes * 4)
  let atName := hdrSize + nodeLen
  let atVersion := atName + nameLen
  let atNotes := atVersion + verLen
  let atRelease := atNotes + notesLen
  let atSrc := atRelease + releaseKeyLen
  let atNodeSig := atSrc + srcLen
  let atSigner := atNodeSig + nsigLen
  let atSignerSig := atSigner + signerLen
  guard (data.length = atSignerSig + ssigLen)
  let nodePub := slice data hdrSize nodeLen
  let release := slice data atRelease releaseKeyLen
  let src := slice data atSrc srcLen
  let nodeSig := slice data atNodeSig nsigLen
  let signerPub := slice data atSigner signerLen
  let signerSig := slice data atSignerSig ssigLen
  let name ← decodeUtf8 (slice data atName nameLen)
  let version ← decodeUtf8 (slice data atVersion verLen)
  let notes ← decodeUtf8 (slice data atNotes notesLen)
  guard (isCanonical U name ∧ version ≠ [])
  guard (notes.length ≤ maxNotes)
  let nodeId := P.fromPublicKey nodePub
  let input ← holdInput nodeId kind flags ts name version notes release src
  guard (P.verify input nodeSig nodePub)
  guard (published → P.verify (publisherInput nodeId (P.fromPublicKey signerPub) release) signerSig
    signerPub)
  let keys ← nameKeys U P name
  return {
    nodeId := nodeId
    node := nodePub
    kind := kind
    flags := flags
    published := published
    signerId := if published then some (P.fromPublicKey signerPub) else none
    signer := if published then some signerPub else none
    name := name
    version := version
    notes := notes
    release := release
    src := src
    ts := ts
    keys := nodeKey P nodeId :: releaseKey P release :: keys }

/-- What one record supersedes: this node, this kind, this name. -/
def entryKey (record : Record) : Option Bytes :=
  (encodeUtf8 (fold U record.name)).map fun name =>
    P.digest (record.nodeId.raw ++ (toBE 1 record.kind ++ name))

variable {U P}

theorem parseRecord_spec {data : Bytes} {record : Record} (h : parseRecord U P data = some record) :
    field data 0 1 = recordVersion ∧ hdrSize ≤ data.length ∧ data.length ≤ maxRecord := by
  simp only [parseRecord, Option.bind_eq_bind, Option.bind_eq_some_iff, Option.guard_eq_some'] at h
  obtain ⟨-, ⟨hlow, hhigh⟩, -, ⟨hversion, -⟩, -⟩ := h
  exact ⟨hversion, hlow, hhigh⟩

def recordOf (pubkey : UInt8) (name version : String) (ts : ℕ) : Bytes :=
  toBE 1 recordVersion ++ (toBE 1 kindCore ++ (toBE 1 0 ++ (toBE 8 ts ++ (toBE 2 1 ++
    (toBE 2 name.length ++ (toBE 2 version.length ++ (toBE 2 0 ++ (toBE 2 0 ++ (toBE 2 0 ++ (toBE 2 0 ++
      (pubkey :: (bytesOf name ++ (bytesOf version ++ List.replicate (releaseKeyLen + srcLen) 1)))))))))))))

example : (parseRecord plain turning (recordOf 7 "al" "1" 5)).map (·.version) = some (ascii "1") := by
  decide +kernel

end NMesh.Directory.PkgDir
