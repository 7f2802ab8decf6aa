import NMesh.Base.Ordered
import NMesh.Cert.Revocation
import Mathlib.Data.Finset.Basic
import Mathlib.Data.List.Sort

/-! # The certificate store

`CertStore` holds the certificates of each subject, the trusted roots, the revocations heard and a memo of
the chains computed. `getChainToRoot` looks for a chain of live certificates from a subject up to a root,
`verifyChain` is what a peer does with one, and `add` takes a certificate in, keeping the store within
its bounds.

Methods that write to the memo return the store with their answer. `clock` is the clock's reading, one
for each call. -/

namespace NMesh.Cert.Store

open Base.BigEndian Base.Ordered NMesh.Cert.Identity NMesh.Cert.Revocation

variable {K : Crypto}

structure Revoked where
  issuedAt : ℕ
  reason : ℕ
  record : Bytes
  deriving DecidableEq

structure CertStore (K : Crypto) where
  ownId : NodeID
  certs : Dict NodeID (List (Certificate K))
  roots : Finset NodeID
  maxSubjects : ℕ
  maxPerSubject : ℕ
  chains : Dict NodeID (Option (List (Certificate K)) × ℕ)
  revoked : Dict (NodeID × NodeID) Revoked
  maxRevocations : ℕ

namespace CertStore

def new (K : Crypto) (ownId : NodeID) (maxSubjects maxPerSubject maxRevocations : ℕ) : CertStore K where
  ownId := ownId
  certs := Dict.empty
  roots := {ownId}
  maxSubjects := maxSubjects
  maxPerSubject := maxPerSubject
  chains := Dict.empty
  revoked := Dict.empty
  maxRevocations := maxRevocations

def held (s : CertStore K) (key : NodeID) : List (Certificate K) := (s.certs.get? key).getD []

def addRoot (s : CertStore K) (nodeId : NodeID) : CertStore K :=
  { s with roots := insert nodeId s.roots, chains := Dict.empty }

/-- Stop trusting an anchor. Our own id is not removable. -/
def removeRoot (s : CertStore K) (nodeId : NodeID) : Bool × CertStore K :=
  if nodeId = s.ownId ∨ nodeId ∉ s.roots then (false, s)
  else (true, { s with roots := s.roots.erase nodeId, chains := Dict.empty })

def isRevoked (s : CertStore K) (cert : Certificate K) : Bool :=
  match s.revoked.get? (cert.issuerId, cert.subjectId) with
  | none => false
  | some held => decide (cert.issuedAt ≤ held.issuedAt)

def usable (s : CertStore K) (now : ℕ) (cert : Certificate K) : Bool :=
  !cert.isExpired now && !s.isRevoked cert

/-! ### The walk to a root -/

/-- The usable certificates of a subject, longest-lived first. -/
def live (s : CertStore K) (now : ℕ) (key : NodeID) : List (Certificate K) :=
  ((s.held key).filter (s.usable now)).insertionSort fun c c' => c'.life ≤ c.life

/-- The order of the first certificates: an external issuer first, then the longest-lived. -/
def firstOrder (c c' : Certificate K) : Prop :=
  c.isSelfSigned = false ∧ c'.isSelfSigned = true ∨
    c.isSelfSigned = c'.isSelfSigned ∧ c'.life ≤ c.life

instance : DecidableRel (firstOrder (K := K)) := fun c c' => by unfold firstOrder; infer_instance

/-- The chain that ends at the root `current`: the path itself if its last certificate is the root's
own, else the path and the root's self-signed certificate, if there is a usable one. -/
def anchor (s : CertStore K) (now : ℕ) (current : NodeID) (path : List (Certificate K)) :
    Option (List (Certificate K)) :=
  match path.getLast? with
  | none => none
  | some last =>
    if last.isSelfSigned then some path
    else ((s.live now current).find? Certificate.isSelfSigned).map fun rc => path ++ [rc]

/-- The walk: the queue of ids to visit, each with the path that leads there, the ids visited, and the
chain that ends on our own root. -/
def walk (s : CertStore K) (now : ℕ) : ℕ → List (NodeID × List (Certificate K)) → List NodeID →
    Option (List (Certificate K)) → Option (List (Certificate K))
  | 0, _, _, selfAnchored => selfAnchored
  | _ + 1, [], _, selfAnchored => selfAnchored
  | n + 1, (current, path) :: queue, visited, selfAnchored =>
    let queue' := queue ++ (s.live now current).map fun cert => (cert.issuerId, path ++ [cert])
    if current ∈ s.roots then
      match s.anchor now current path with
      | none =>
        -- a root without a self-signed certificate yet
        if current ∉ visited then walk s now n queue' (current :: visited) selfAnchored
        else walk s now n queue visited selfAnchored
      | some chain =>
        if current ≠ s.ownId then some chain
        else walk s now n queue visited (if selfAnchored = none then some chain else selfAnchored)
    else if current ∈ visited then walk s now n queue visited selfAnchored
    else walk s now n queue' (current :: visited) selfAnchored

/-- The number of certificates held, which bounds the walk: each is queued once at most. -/
def certCount (s : CertStore K) : ℕ := (s.certs.values.map List.length).sum

def buildChainToRoot (s : CertStore K) (target : NodeID) (now : ℕ) : Option (List (Certificate K)) :=
  let targetCerts := (s.held target).filter (s.usable now)
  if targetCerts = [] then none
  else s.walk now s.certCount ((targetCerts.insertionSort firstOrder).map fun c => (c.issuerId, [c]))
    [target] none

/-- A chain from `target` up to a known root: computed for the moment `now` if one is given, else for
the clock's, through the memo. -/
def getChainToRoot (s : CertStore K) (target : NodeID) (now : Option ℕ) (clock : ℕ) :
    Option (List (Certificate K)) × CertStore K :=
  match now with
  | some now => (s.buildChainToRoot target now, s)
  | none =>
    let build :=
      let chain := s.buildChainToRoot target clock
      (chain, { s with chains := s.chains.set target (chain, earliestExpiry chain) })
    match s.chains.get? target with
    | none => build
    | some (chain, goodUntil) => if goodUntil = 0 ∨ clock ≤ goodUntil then (chain, s) else build

/-- Verify a chain presented by a peer: the anchor, if it is valid. -/
def verifyChain (s : CertStore K) (chain : List (Certificate K)) (clock : ℕ) : Option NodeID :=
  if !chain.all (s.usable clock) then none
  else if !(chain.zip chain.tail).all fun p =>
      decide (p.1.issuerId = p.2.subjectId) && decide (p.1.issuerPub = p.2.subjectPub) then none
  else match chain.getLast? with
    | none => none
    | some last =>
      if !last.isSelfSigned then none
      else if last.subjectId ∉ s.roots then none
      else some last.subjectId

/-! ### Taking certificates in -/

def touch (s : CertStore K) (key : NodeID) : CertStore K :=
  match s.certs.get? key with
  | none => s
  | some entry => { s with certs := (s.certs.pop key).set key entry }

/-- The certificates our own chain is made of, by their signatures. -/
def chainSignatures (s : CertStore K) (clock : ℕ) : List Bytes × CertStore K :=
  let (chain, s) := s.getChainToRoot s.ownId none clock
  ((chain.getD []).map Certificate.signature, s)

def ownChainSubjects (s : CertStore K) (clock : ℕ) : List NodeID × CertStore K :=
  let (chain, s) := s.getChainToRoot s.ownId none clock
  let chain := chain.getD []
  (chain.map Certificate.subjectId ++ chain.map Certificate.issuerId ++ [s.ownId], s)

/-- Subjects eviction may never take: the roots, and our own chain. -/
def pinned (s : CertStore K) (clock : ℕ) (key : NodeID) : Bool × CertStore K :=
  if key ∈ s.roots then (true, s)
  else
    let (subjects, s) := s.ownChainSubjects clock
    (decide (key ∈ subjects), s)

/-- The first of `keys` that is not pinned. -/
def firstUnpinned (clock : ℕ) : List NodeID → CertStore K → Option NodeID × CertStore K
  | [], s => (none, s)
  | key :: keys, s =>
    let (isPinned, s) := s.pinned clock key
    if isPinned then firstUnpinned clock keys s else (some key, s)

/-- Evict subjects, the longest unmentioned first, at most `n` of them. -/
def enforceBounds (clock : ℕ) : ℕ → CertStore K → CertStore K
  | 0, s => s
  | n + 1, s =>
    if s.maxSubjects < s.certs.size then
      match s.firstUnpinned clock s.certs.keys with
      | (none, s) => s
      | (some victim, s) => enforceBounds clock n { s with certs := s.certs.pop victim }
    else s

/-- Drop certificates of one subject, the oldest first and the load-bearing last, at most `n` of
them. -/
def trim (loadBearing : List Bytes) (maxPerSubject : ℕ) :
    ℕ → List (Certificate K) → List (Certificate K)
  | 0, existing => existing
  | n + 1, existing =>
    if maxPerSubject < existing.length then
      match (existing.find? fun c => c.signature ∉ loadBearing).or existing.head? with
      | none => existing
      | some victim => trim loadBearing maxPerSubject n (existing.erase victim)
    else existing

/-- File a certificate under its subject. The memo is cleared before the bounds are enforced. -/
def file (s : CertStore K) (cert : Certificate K) : CertStore K :=
  { s with
    certs := s.certs.set cert.subjectId (s.held cert.subjectId ++ [cert])
    chains := Dict.empty }

def enforceSubjectBound (s : CertStore K) (key : NodeID) (clock : ℕ) : CertStore K :=
  let existing := s.held key
  if s.maxPerSubject < existing.length then
    let (loadBearing, s) := s.chainSignatures clock
    { s with certs := s.certs.set key (trim loadBearing s.maxPerSubject existing.length existing) }
  else s

def add (s : CertStore K) (cert : Certificate K) (clock : ℕ) : Bool × CertStore K :=
  if cert.isExpired clock || s.isRevoked cert then (false, s)
  else
    let key := cert.subjectId
    if (s.held key).any fun e => e.signature = cert.signature then (true, s.touch key)
    else
      let s := ((s.file cert).enforceSubjectBound key clock).touch key
      (true, enforceBounds clock s.certs.size s)

def addAll (s : CertStore K) (certs : List (Certificate K)) (clock : ℕ) : CertStore K :=
  certs.foldl (fun s cert => (s.add cert clock).2) s

/-! ### Taking certificates back -/

/-- Drop revocations, the oldest heard first but none that a trusted root made, at most `n` of them. -/
def enforceRevocationBound : ℕ → CertStore K → CertStore K
  | 0, s => s
  | n + 1, s =>
    if s.maxRevocations < s.revoked.size then
      match s.revoked.keys.find? fun k => k.1 ∉ s.roots with
      | none => s
      | some victim => enforceRevocationBound n { s with revoked := s.revoked.pop victim }
    else s

/-- Drop the certificates of a subject that have been taken back. -/
def dropVoided (s : CertStore K) (subject : NodeID) : CertStore K :=
  let voided := (s.held subject).filter s.isRevoked
  let live := (s.held subject).filter (· ∉ voided)
  if voided = [] then s
  else { s with certs := if live = [] then s.certs.pop subject else s.certs.set subject live }

/-- Absorb a signed revocation; what it said, if that is new. -/
def revoke (s : CertStore K) (record : Bytes) : Option Parsed × CertStore K :=
  match parse K record with
  | none => (none, s)
  | some parsed =>
    let key := (parsed.issuerId, parsed.subjectId)
    if (s.revoked.get? key).any fun held => parsed.issuedAt ≤ held.issuedAt then (none, s)
    else
      let s := { s with
        revoked := s.revoked.set key ⟨parsed.issuedAt, parsed.reason, record⟩
        chains := Dict.empty }
      let s := enforceRevocationBound s.revoked.size s
      (some parsed, s.dropVoided parsed.subjectId)

/-- Drop the expired certificates of one subject, and count them. -/
def pruneSubject (stamp : ℕ) (p : Dict NodeID (List (Certificate K)) × ℕ)
    (e : NodeID × List (Certificate K)) : Dict NodeID (List (Certificate K)) × ℕ :=
  let live := e.2.filter fun c => !c.isExpired stamp
  if live.length = e.2.length then p
  else (if live = [] then p.1.pop e.1 else p.1.set e.1 live, p.2 + (e.2.length - live.length))

/-- Drop every certificate that has expired; how many went. -/
def pruneExpired (s : CertStore K) (now : Option ℕ) (clock : ℕ) : ℕ × CertStore K :=
  let (certs, removed) := s.certs.entries.foldl (pruneSubject (now.getD clock)) (s.certs, 0)
  (removed, { s with certs := certs, chains := if removed = 0 then s.chains else Dict.empty })

end CertStore

/-- What may happen to a store. -/
inductive Op (K : Crypto)
  | add (cert : Certificate K)
  | addRoot (nodeId : NodeID)
  | removeRoot (nodeId : NodeID)
  | revoke (record : Bytes)
  | pruneExpired (now : Option ℕ)
  | lookup (target : NodeID) (now : Option ℕ)

def CertStore.step (s : CertStore K) (act : ℕ × Op K) : CertStore K :=
  match act.2 with
  | .add cert => (s.add cert act.1).2
  | .addRoot nodeId => s.addRoot nodeId
  | .removeRoot nodeId => (s.removeRoot nodeId).2
  | .revoke record => (s.revoke record).2
  | .pruneExpired now => (s.pruneExpired now act.1).2
  | .lookup target now => (s.getChainToRoot target now act.1).2

end NMesh.Cert.Store
