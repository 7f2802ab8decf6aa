import NMesh.Relay.Header
import NMesh.Relay.Window
import NMesh.Directory.Books
import NMesh.KeyShare.Exchange
import NMesh.StopRelay.Rules
import NMesh.Opinion.Table

/-! # Routed packets

What a node does with a packet of a routable type, from the link that delivered it to the handler of its
type. A packet is refused, dropped as a copy, passed on, or handled here; some handlers charge the link with
abuse, which counts against the link and against the node at its end. What is sent in answer is left out.

`Core` is the part of a node that sees these packets and has neither a link nor a score to charge: the
routes, the sessions, the certificates and the store. -/

namespace NMesh.Forward.Handlers

open Base.BigEndian Base.Ordered Base.Allowance NMesh.Cert.Identity
open NMesh.Directory NMesh.Directory.Name NMesh.Directory.Books
open NMesh.KeyShare.Message (Suite)
open NMesh.Opinion.Table
open NMesh.Relay.Header (Hashes Packet)
open NMesh.Relay.Window (SeenSet)
open NMesh.StopRelay.Rules (Stops Clock reported)

def maxPeers : ℕ := 128
def maxMalformed : ℕ := 32
def qidLen : ℕ := 8
def releaseIdLen : ℕ := 20

/-! ### Packets -/

/-- The routable types. -/
inductive Kind
  | data
  | e2eHandshake
  | e2eHandshakeAck
  | echoRequest
  | echoReply
  | findNode
  | foundNode
  | findValue
  | foundValue
  | store
  | dirStore
  | dirFind
  | dirFound
  | pkgStore
  | pkgFind
  | pkgFound
  | keyOffer
  | keyAccept
  | keyGrant
  | releaseFetch
  | releaseData
  | certRenew
  | certRenewed
  deriving DecidableEq

def Kind.code : Kind → UInt8
  | .data => 0x00
  | .findNode => 0x03
  | .foundNode => 0x04
  | .findValue => 0x05
  | .foundValue => 0x06
  | .store => 0x07
  | .e2eHandshake => 0x0D
  | .e2eHandshakeAck => 0x0E
  | .dirStore => 0x19
  | .dirFind => 0x1A
  | .dirFound => 0x1B
  | .echoRequest => 0x1C
  | .echoReply => 0x1D
  | .releaseFetch => 0x1F
  | .releaseData => 0x20
  | .certRenew => 0x22
  | .certRenewed => 0x23
  | .pkgStore => 0x29
  | .pkgFind => 0x2A
  | .pkgFound => 0x2B
  | .keyOffer => 0x2D
  | .keyAccept => 0x2E
  | .keyGrant => 0x2F

/-- A packet of a routable type. -/
structure Routed (H : Hashes) extends Packet H where
  kind : Kind
  type_eq : type = kind.code

variable {H : Hashes}

def Routed.src (packet : Routed H) : NodeID := ⟨packet.srcId, packet.src_len⟩

def Routed.dst (packet : Routed H) : NodeID := ⟨packet.dstId, packet.dst_len⟩

def broadcastId : NodeID := ⟨List.replicate 20 0xff, List.length_replicate⟩

/-! ### The node -/

/-- A link, as the node at our end has it. -/
structure Link where
  authenticatedId : Option NodeID
  relayOnly : Bool
  announcesStop : Bool
  /-- How much abuse was counted on it. -/
  malformed : ℕ
  tarpit : Bool
  foundEntries : ℕ
  foundSelf : ℕ

/-- What a node keeps: its opinions, its rules against relaying, its limits and tables, and the rest. -/
structure Node (R σ : Type) where
  reputation : Reputation R
  stops : Stops R
  seen : SeenSet
  dirRate : Counts Bytes R
  pkgRate : Counts Bytes R
  queryRate : Counts Bytes R
  storeRate : Counts Bytes R
  serveRate : Counts Bytes R
  pseudoBook : PseudoBook
  packageBook : PackageBook
  shares : KeyShare.Exchange.Tables R
  pendingEcho : Dict Bytes NodeID
  pendingFinds : List Bytes
  pendingValues : List Bytes
  pendingDir : List Bytes
  pendingPkg : List Bytes
  /-- The slices that were asked for, with the first answer to each. -/
  pendingSlices : Dict (NodeID × Bytes × ℕ) (Option Bytes)
  rest : σ

/-- A node, and the link that a packet came over. -/
structure Here (R σ : Type) where
  link : Link
  node : Node R σ

/-- What charges nobody, on the rest of a node. -/
structure Core (H : Hashes) (σ : Type) where
  /-- The link is a path back to the source. -/
  learnReversePath : NodeID → Routed H → σ → σ
  forwardPacket : NodeID → Routed H → UInt64 → σ → σ
  rerouteLooped : NodeID → Routed H → UInt64 → σ → σ
  handleData : Routed H → σ → σ
  handleE2eHandshake : Routed H → σ → σ
  handleE2eHandshakeAck : Routed H → σ → σ
  handleCertRenew : Routed H → σ → σ
  handleCertRenewed : Routed H → σ → σ
  /-- The store, which takes what is filed under its own hash. -/
  dhtPut : Bytes → Bytes → σ → σ
  /-- Is it a list of fingerprints? -/
  decodeCertHints : Bytes → Bool
  /-- The nodes that are offered; none when they cannot be read. -/
  decodeEntries : Bytes → σ → List NodeID
  /-- The entries whose chains check out are learned. -/
  absorbEntries : Bytes → σ → σ

variable {R σ : Type} [Field R] [LinearOrder R] [Halving R] (U : Unicode) (P : Suite) (core : Core H σ)

/-- This node, and what it reads from outside while it handles a packet. -/
structure Env (R : Type) extends KeyShare.Exchange.Env R where
  me : KeyShare.Exchange.Local
  wall : R

def dirRateWindow : R := 10
def dirRateMax : ℕ := 128
def pkgRateWindow : R := 10
def pkgRateMax : ℕ := 64
def queryRateWindow : R := 10
def queryRateMax : ℕ := 512
def storeRateWindow : R := 10
def storeRateMax : ℕ := 256
def releaseServeWindow : R := 10
def releaseServeMax : ℕ := 64
def stopRelayRefusalWeight : R := 1

namespace Here

variable (env : Env R)

def onRest (f : σ → σ) (x : Here R σ) : Here R σ := { x with node.rest := f x.node.rest }

/-! ### Charging -/

/-- A node did something a correct one does not; a link to a node whose standing gets worse is muted. -/
def reportAbuse (nodeId : NodeID) (weight : R) (reason : String) (x : Here R σ) : Here R σ :=
  if nodeId = env.me.id then x
  else
    let before := x.node.reputation.standing nodeId env.now
    let (after, reputation) := x.node.reputation.note nodeId weight reason none env.now
    let muted := decide (after ≠ before ∧ after ≠ .ok ∧ x.link.authenticatedId = some nodeId)
    { x with link.tarpit := x.link.tarpit || muted, node.reputation := reputation }

def chargeIdentityAbuse (x : Here R σ) : Here R σ :=
  match x.link.authenticatedId with
  | none => x
  | some via => x.reportAbuse env via 1 "protocol violations"

/-- Count a protocol violation, against the link and against the node; a link with too many is muted. -/
def chargeAbuse (x : Here R σ) : Here R σ :=
  let x := x.chargeIdentityAbuse env
  let malformed := x.link.malformed + 1
  let muted := decide (maxMalformed < malformed ∧ x.link.authenticatedId ≠ none)
  { x with link.malformed := malformed, link.tarpit := x.link.tarpit || muted }

/-! ### Stores -/

def absorbClaim (raw : Bytes) (x : Here R σ) : Here R σ :=
  if raw = [] ∨ PseudoDir.maxClaim < raw.length then x.chargeAbuse env
  else
    match PseudoDir.parseClaim U P.toPrimitives raw with
    | none => x.chargeAbuse env
    | some claim => { x with node.pseudoBook := (x.node.pseudoBook.offer claim raw).2 }

def handleDirStore (via : NodeID) (payload : Bytes) (x : Here R σ) : Here R σ :=
  let (isAllowed, rate) := allowed dirRateWindow dirRateMax maxPeers x.node.dirRate via.raw env.now
  let x := { x with node.dirRate := rate }
  if !isAllowed then x else x.absorbClaim U P env payload

def absorbPackage (raw : Bytes) (x : Here R σ) : Here R σ :=
  if raw = [] ∨ PkgDir.maxRecord < raw.length then x.chargeAbuse env
  else
    match PkgDir.parseRecord U P.toPrimitives raw with
    | none => x.chargeAbuse env
    | some record =>
      match x.node.packageBook.offer U P.toPrimitives record raw with
      | none => x
      | some (_, book) => { x with node.packageBook := book }

def handlePkgStore (via : NodeID) (payload : Bytes) (x : Here R σ) : Here R σ :=
  let (isAllowed, rate) := allowed pkgRateWindow pkgRateMax maxPeers x.node.pkgRate via.raw env.now
  let x := { x with node.pkgRate := rate }
  if !isAllowed then x else x.absorbPackage U P env payload

def handleStore (via : NodeID) (payload : Bytes) (x : Here R σ) : Here R σ :=
  if payload.length < 20 then x
  else
    let (isAllowed, rate) := allowed storeRateWindow storeRateMax maxPeers x.node.storeRate via.raw env.now
    let x := { x with node.storeRate := rate }
    if !isAllowed then x else x.onRest (core.dhtPut (payload.take 20) (payload.drop 20))

/-! ### Questions and answers -/

/-- A question is counted, and answered if the link may ask it. -/
def queryAllowed (via : NodeID) (x : Here R σ) : Here R σ :=
  { x with node.queryRate :=
      (allowed queryRateWindow queryRateMax maxPeers x.node.queryRate via.raw env.now).2 }

def handleFindNode (via : NodeID) (payload : Bytes) (x : Here R σ) : Here R σ :=
  if payload.length < 20 + qidLen then x
  else if !core.decodeCertHints (payload.drop (20 + qidLen)) then x
  else x.queryAllowed env via

/-- A question about a key: a value, a claim or a package. -/
def handleFind (via : NodeID) (payload : Bytes) (x : Here R σ) : Here R σ :=
  if payload.length ≠ 20 + qidLen then x else x.queryAllowed env via

def handleFindValue (via : NodeID) (payload : Bytes) (x : Here R σ) : Here R σ := x.handleFind env via payload
def handleDirFind (via : NodeID) (payload : Bytes) (x : Here R σ) : Here R σ := x.handleFind env via payload
def handlePkgFind (via : NodeID) (payload : Bytes) (x : Here R σ) : Here R σ := x.handleFind env via payload

def handleReleaseFetch (via : NodeID) (x : Here R σ) : Here R σ :=
  { x with node.serveRate :=
      (allowed releaseServeWindow releaseServeMax maxPeers x.node.serveRate via.raw env.now).2 }

/-- The nodes of an answer are counted on the link, and learned. -/
def handleFoundNode (payload : Bytes) (x : Here R σ) : Here R σ :=
  if payload.length < qidLen then x
  else
    let queryId := payload.take qidLen
    if queryId ∉ x.node.pendingFinds then x
    else
      let body := payload.drop qidLen
      let entries := core.decodeEntries body x.node.rest
      if 20 < entries.length then x
      else
        { x with
          link.foundEntries := x.link.foundEntries + entries.length
          link.foundSelf := x.link.foundSelf +
            entries.countP fun nodeId => x.link.authenticatedId = some nodeId
          node.pendingFinds := x.node.pendingFinds.erase queryId
          node.rest := core.absorbEntries body x.node.rest }

def taken (payload : Bytes) (pending : List Bytes) : List Bytes :=
  if payload.length < qidLen then pending else pending.erase (payload.take qidLen)

def handleFoundValue (payload : Bytes) (x : Here R σ) : Here R σ :=
  { x with node.pendingValues := taken payload x.node.pendingValues }

def handleDirFound (payload : Bytes) (x : Here R σ) : Here R σ :=
  { x with node.pendingDir := taken payload x.node.pendingDir }

def handlePkgFound (payload : Bytes) (x : Here R σ) : Here R σ :=
  { x with node.pendingPkg := taken payload x.node.pendingPkg }

def handleEchoReply (packet : Routed H) (x : Here R σ) : Here R σ :=
  if packet.payload.length ≠ qidLen then x
  else
    match x.node.pendingEcho.get? packet.payload with
    | none => x
    | some target =>
      if packet.src ≠ target ∨ packet.dst ≠ env.me.id then x
      else { x with node.pendingEcho := x.node.pendingEcho.pop packet.payload }

/-- A slice of a package. One that nobody asked for is charged where the link is its source's own. -/
def handleReleaseData (packet : Routed H) (x : Here R σ) : Here R σ :=
  let payload := packet.payload
  if payload.length ≤ releaseIdLen + 4 then x
  else
    let key := (packet.src, payload.take releaseIdLen, field payload releaseIdLen 4)
    match x.node.pendingSlices.get? key with
    | none =>
      if x.link.authenticatedId = some packet.src ∧ x.link.relayOnly = false then x.chargeAbuse env else x
    | some none =>
      { x with node.pendingSlices :=
          x.node.pendingSlices.set key (some (payload.drop (releaseIdLen + 4))) }
    | some (some _) => x

/-! ### Publisher keys -/

def handleKeyShare (kind : KeyShare.Exchange.Kind) (via : NodeID) (packet : Routed H) (x : Here R σ) :
    Here R σ :=
  let turn := KeyShare.Exchange.handle P env.me env.toEnv kind via.raw packet.src packet.payload x.node.shares
  let x := { x with node.shares := turn.tables }
  if turn.charged then x.chargeAbuse env else x

/-! ### From the link to the handler -/

def deliver (via : NodeID) (packet : Routed H) (x : Here R σ) : Here R σ :=
  match packet.kind with
  | .data => x.onRest (core.handleData packet)
  | .e2eHandshake => x.onRest (core.handleE2eHandshake packet)
  | .e2eHandshakeAck => x.onRest (core.handleE2eHandshakeAck packet)
  -- it only answers
  | .echoRequest => x
  | .echoReply => x.handleEchoReply env packet
  | .findNode => x.handleFindNode core env via packet.payload
  | .foundNode => x.handleFoundNode core packet.payload
  | .findValue => x.handleFindValue env via packet.payload
  | .foundValue => x.handleFoundValue packet.payload
  | .store => x.handleStore core env via packet.payload
  | .dirStore => x.handleDirStore U P env via packet.payload
  | .dirFind => x.handleDirFind env via packet.payload
  | .dirFound => x.handleDirFound packet.payload
  | .pkgStore => x.handlePkgStore U P env via packet.payload
  | .pkgFind => x.handlePkgFind env via packet.payload
  | .pkgFound => x.handlePkgFound packet.payload
  | .keyOffer => x.handleKeyShare P env .offer via packet
  | .keyAccept => x.handleKeyShare P env .accept via packet
  | .keyGrant => x.handleKeyShare P env .grant via packet
  | .releaseFetch => x.handleReleaseFetch env via
  | .releaseData => x.handleReleaseData env packet
  | .certRenew => x.onRest (core.handleCertRenew packet)
  | .certRenewed => x.onRest (core.handleCertRenewed packet)

def isHere (packet : Routed H) : Prop := packet.dst = env.me.id ∨ packet.dst = broadcastId

instance (packet : Routed H) : Decidable (isHere env packet) := inferInstanceAs (Decidable (_ ∨ _))

/-- The clock and the keys that rules against relaying go by. -/
def stopClock : Clock R := ⟨env.now, env.wall, env.time⟩

def stopLocal : StopRelay.Rules.Local := ⟨env.me.id, env.me.dsaPublicKey, env.me.sign⟩

/-- The gate: is the packet dropped on its header alone, and what is said to whom? -/
def refuseRouted (via : NodeID) (packet : Routed H) (x : Here R σ) :
    Bool × Stops R × List StopRelay.Rules.Effect :=
  x.node.stops.refuseRouted P.toPrimitives (stopLocal env) (stopClock env) via x.link.announcesStop
    (x.node.reputation.standing packet.src env.now ≠ .ok) packet.src packet.dst

/-- The nodes that go on relaying what they were asked to stop are reported. -/
def reportAll (nodes : List NodeID) (x : Here R σ) : Here R σ :=
  nodes.foldl (fun x nodeId => x.reportAbuse env nodeId stopRelayRefusalWeight
    "kept relaying a node it was asked to stop relaying") x

/-- What comes of a packet that its gate let through: a copy, a packet to pass on, or one to handle. -/
def admitted (via : NodeID) (packet : Routed H) (x : Here R σ) : Here R σ :=
  match packet.replayKey.1 with
  | none => x
  | some key =>
    match x.node.seen.add key with
    | none => x
    | some (true, _) =>
      if isHere env packet then x else x.onRest (core.rerouteLooped via packet key)
    | some (false, seen) =>
      let x := { x with node.seen := seen }
      let x := x.onRest (core.learnReversePath via packet)
      if isHere env packet then x.deliver U P core env via packet
      else x.onRest (core.forwardPacket via packet key)

def handlePacket (packet : Routed H) (x : Here R σ) : Here R σ :=
  if x.link.tarpit then x
  else
    match x.link.authenticatedId with
    | none => x
    | some via =>
      let (isRefused, stops, effects) := x.refuseRouted P env via packet
      let x := reportAll env (reported effects) { x with node.stops := stops }
      if isRefused then x else x.admitted U P core env via packet

end Here

end NMesh.Forward.Handlers
