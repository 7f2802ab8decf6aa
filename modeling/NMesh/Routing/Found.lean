import NMesh.Base.Ordered
import NMesh.Cert.Wire
import NMesh.Routing.Address
import Mathlib.Data.Finset.Basic

/-! # The answer to a lookup

`_EntryPacker` writes node entries under a byte budget: a pool of certificates, and the entries, whose
chains are indices into the pool. A certificate the querier holds is written as its fingerprint.
`decodeEntries` reads an answer back, with a resolver for fingerprints.

An error carries its text; `add` may also raise, for an address or a certificate that does not pack. -/

namespace NMesh.Routing.Found

open Base.BigEndian Base.Utf8 Base.Ordered NMesh.Cert.Identity NMesh.Cert.Wire
open NMesh.Routing.Address

def entryPoolMax : ℕ := 32

/-- In place of a certificate's length: its fingerprint follows. -/
def certRef : ℕ := 0

def entryChainMax : ℕ := 6

def entryCountMax : ℕ := 20

/-- The bytes of an entry's header: id, number of addresses, length of the chain. -/
def entryHeaderLen : ℕ := 22

/-- What the codec reads and writes of a routing entry. -/
structure NodeEntry (K : Crypto) where
  nodeId : NodeID
  addresses : List Text
  dsaPub : Bytes
  certChain : List (Certificate K)
  deriving DecidableEq

variable {K : Crypto} (sha256 : Bytes → Bytes)

/-! ### Packing -/

structure Packer where
  budget : ℤ
  known : Finset Bytes
  pool : List Bytes
  index : Dict Bytes ℕ
  entries : List Bytes
  used : ℕ
  deriving DecidableEq

inductive Outcome
  | accepted
  | refused
  | raised
  deriving DecidableEq

namespace Packer

def new (budget : ℤ) (known : Finset Bytes) : Packer where
  budget := budget
  known := known
  pool := []
  index := Dict.empty
  entries := []
  used := 2 + 1

end Packer

/-- The addresses, each with its length; `none` if one raises. -/
def packAddresses : List Text → Option Bytes
  | [] => some []
  | addr :: addrs =>
    match encodeUtf8 addr with
    | none => none
    | some b => if b.length < 256 ^ 2 then (packAddresses addrs).map (toBE 2 b.length ++ b ++ ·) else none

/-- The certificate as it stands in the pool; `none` if it raises. -/
def packCert (known : Finset Bytes) (cert : Certificate K) : Option Bytes :=
  if fingerprint sha256 cert ∈ known then some (toBE 2 certRef ++ fingerprint sha256 cert)
  else
    match serialize cert with
    | none => none
    | some raw => if raw.length < 256 ^ 2 then some (toBE 2 raw.length ++ raw) else none

namespace Packer

/-- The certificates of a chain that are not in the pool yet, and the cost with them. -/
def gather (p : Packer) : List (Certificate K) → List (Bytes × Bytes) → ℕ →
    Except Outcome (List (Bytes × Bytes) × ℕ)
  | [], added, cost => .ok (added, cost)
  | cert :: chain, added, cost =>
    let digest := fingerprint sha256 cert
    if digest ∈ p.index.keys ∨ digest ∈ added.map Prod.fst then gather p chain added cost
    else if entryPoolMax ≤ p.pool.length + added.length then .error .refused
    else
      match packCert sha256 p.known cert with
      | none => .error .raised
      | some body => gather p chain (added ++ [(digest, body)]) (cost + body.length)

def enter (p : Packer) (row : Bytes × Bytes) : Packer :=
  { p with index := p.index.set row.1 p.pool.length, pool := p.pool ++ [row.2] }

def add (p : Packer) (entry : NodeEntry K) : Outcome × Packer :=
  if entryCountMax ≤ p.entries.length ∨ entryChainMax < entry.certChain.length then (.refused, p)
  else
    let addrs := entry.addresses.take maxAddresses
    match packAddresses addrs with
    | none => (.raised, p)
    | some packed =>
      let blob := entry.nodeId.raw ++ toBE 1 addrs.length ++ toBE 1 entry.certChain.length ++ packed
      match gather sha256 p entry.certChain [] (blob.length + 2 * entry.certChain.length) with
      | .error outcome => (outcome, p)
      | .ok (added, cost) =>
        if p.budget < p.used + cost then (.refused, p)
        else
          let p' := added.foldl enter p
          -- every certificate of the chain is in the index by now
          let refs := entry.certChain.flatMap fun cert =>
            toBE 2 ((p'.index.get? (fingerprint sha256 cert)).getD 0)
          (.accepted, { p' with entries := p'.entries ++ [blob ++ refs], used := p'.used + cost })

def encode (p : Packer) : Bytes :=
  toBE 2 p.pool.length ++ p.pool.flatten ++ toBE 1 p.entries.length ++ p.entries.flatten

/-- Offer entries one after another; those accepted are listed. -/
def offer (p : Packer) : List (NodeEntry K) → Packer × List (NodeEntry K)
  | [] => (p, [])
  | entry :: entries =>
    let last := offer (p.add sha256 entry).2 entries
    (last.1, if (p.add sha256 entry).1 = .accepted then entry :: last.2 else last.2)

end Packer

/-! ### Reading -/

section Reading

variable (resolve : Bytes → Option (Certificate K)) (data : Bytes)

/-- The pool, and the offset behind it; `none` stands for a certificate that cannot be used. -/
def decodePool : ℕ → ℕ → Except String (List (Option (Certificate K)) × ℕ)
  | 0, offset => .ok ([], offset)
  | count + 1, offset =>
    if data.length < offset + 2 then .error "truncated pooled cert length"
    else
      let certLen := field data offset 2
      if certLen = certRef then
        if data.length < offset + 2 + fingerprintLen then .error "truncated cert reference"
        else (decodePool count (offset + 2 + fingerprintLen)).map fun r =>
          (resolve (slice data (offset + 2) fingerprintLen) :: r.1, r.2)
      else if data.length < offset + 2 + certLen then .error "truncated pooled cert"
      else (decodePool count (offset + 2 + certLen)).map fun r =>
        ((deserialize K (slice data (offset + 2) certLen)).toOption :: r.1, r.2)

def decodeAddress (addrLen : ℕ) (raw : Bytes) : Text × Bool :=
  match decodeUtf8 raw with
  | none => ([], false)
  | some addr =>
    match validateUri addr with
    | .valid _ _ => (addr, decide (addrLen ≤ maxUriLen))
    | _ => (addr, false)

/-- The addresses of an entry, whether all are in order, and the offset behind them. -/
def decodeAddresses : ℕ → ℕ → Except String (List Text × Bool × ℕ)
  | 0, offset => .ok ([], true, offset)
  | count + 1, offset =>
    if data.length < offset + 2 then .error "truncated addr_len in entry"
    else
      let addrLen := field data offset 2
      if data.length < offset + 2 + addrLen then .error "truncated addr_bytes in entry"
      else
        let read := decodeAddress addrLen (slice data (offset + 2) addrLen)
        (decodeAddresses count (offset + 2 + addrLen)).map fun r =>
          (read.1 :: r.1, read.2 && r.2.1, r.2.2)

/-- The chain of an entry, `none` if one certificate cannot be used, and the offset behind it. -/
def decodeChain (pool : List (Option (Certificate K))) :
    ℕ → ℕ → Except String (Option (List (Certificate K)) × ℕ)
  | 0, offset => .ok (some [], offset)
  | count + 1, offset =>
    if data.length < offset + 2 then .error "truncated chain index in entry"
    else
      match pool[field data offset 2]? with
      | none => .error "chain index out of range"
      | some cert => (decodeChain pool count (offset + 2)).map fun r =>
          (cert.bind fun c => r.1.map (c :: ·), r.2)

/-- One entry, `none` if it is dropped for its addresses, and the offset behind it. -/
def decodeEntry (pool : List (Option (Certificate K))) (offset : ℕ) :
    Except String (Option (NodeEntry K) × ℕ) :=
  if data.length < offset + entryHeaderLen then .error "truncated entry header"
  else
    let addrCount := field data (offset + 20) 1
    let chainLen := field data (offset + 21) 1
    if maxAddresses < addrCount then .error s!"too many addresses in entry: {addrCount}"
    else if entryChainMax < chainLen then .error s!"chain too long in entry: {chainLen}"
    else
      (decodeAddresses data addrCount (offset + entryHeaderLen)).bind fun a =>
      (decodeChain data pool chainLen a.2.2).bind fun c =>
      if a.2.1 then
        match NodeID.ofRaw (slice data offset 20) with
        | none => .error "NodeID must be 20 bytes"
        | some nodeId => .ok (some ⟨nodeId, a.1, [], c.1.getD []⟩, c.2)
      else .ok (none, c.2)

/-- `count` entries, less the dropped ones, and the offset behind them. -/
def decodeMany (pool : List (Option (Certificate K))) :
    ℕ → ℕ → Except String (List (NodeEntry K) × ℕ)
  | 0, offset => .ok ([], offset)
  | count + 1, offset =>
    (decodeEntry data pool offset).bind fun e =>
    (decodeMany pool count e.2).map fun r => (e.1.toList ++ r.1, r.2)

/-- The entries of an answer, and how many bytes they took. -/
def decodeEntries : Except String (List (NodeEntry K) × ℕ) :=
  if data.length < 2 then .error "empty payload"
  else
    let poolCount := field data 0 2
    if entryPoolMax < poolCount then .error s!"too many pooled certs: {poolCount}"
    else
      (decodePool resolve data poolCount 2).bind fun pool =>
      if data.length ≤ pool.2 then .error "missing entry count"
      else
        let count := field data pool.2 1
        if entryCountMax < count then .error s!"too many entries: {count}"
        else decodeMany data pool.1 count (pool.2 + 1)

end Reading

end NMesh.Routing.Found
