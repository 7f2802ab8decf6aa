import NMesh.Cert.Issuing
import NMesh.Cert.Store
import Mathlib.Data.List.MinMax
import Mathlib.Data.Rat.Defs
import Mathlib.Algebra.Order.Ring.Rat

/-! # The end-to-end session

Two nodes that need share no link agree on a key over the mesh. The initiator signs a nonce with an
ML-KEM key; the responder answers with a ciphertext, signed with the same nonce; either files the shared
secret under the other's id. An attempt that a retry replaces stays answerable for a while. A responder
that already has a session parks the new key as a candidate, which the first DATA that decrypts under it
makes live.

A handler takes one `Turn`: the tables and what has been done so far (`Effect`). -/

namespace NMesh.E2e.Session

open Base.BigEndian Base.Ordered NMesh.Cert.Identity NMesh.Cert.Issuing NMesh.Cert.Store

variable {K : Crypto}

def maxE2eSessions : ℕ := 512
def maxPendingTargets : ℕ := 256
def maxPendingPerTarget : ℕ := 128
def e2eRetryInterval : ℚ := 5
def e2eRekeyTtl : ℚ := 30
def e2eRekeyMax : ℕ := 64
def e2eAttemptTtl : ℚ := 30
def e2eAttemptMax : ℕ := 64

/-- A key pair and ML-KEM's decapsulation, `none` where it raises. -/
structure Keys (K : Crypto) extends Identity K where
  kemDecapsulate : Bytes → Bytes → Option Bytes

/-- What the world gives one call: the clock, random bytes, a fresh ML-KEM pair (public, secret), the
encapsulation to a public key (ciphertext, shared secret) and the certificates as they are. -/
structure Env (K : Crypto) where
  monotonic : ℚ
  urandom : Bytes
  kemPair : Bytes × Bytes
  kemEncapsulate : Bytes → Option (Bytes × Bytes)
  certs : CertStore K
  stamp : ℕ

def Env.chainOf (env : Env K) (nodeId : NodeID) : Option (List (Certificate K)) :=
  (env.certs.getChainToRoot nodeId none env.stamp).1

/-! ### Packets -/

/-- An E2E_HANDSHAKE. -/
structure Hello (K : Crypto) where
  nonce : Bytes
  kemPub : Bytes
  dsaPub : Bytes
  chain : List (Certificate K)
  signature : Bytes

/-- An E2E_HANDSHAKE_ACK. -/
structure Answer (K : Crypto) where
  nonce : Bytes
  ciphertext : Bytes
  dsaPub : Bytes
  chain : List (Certificate K)
  signature : Bytes

/-- An encrypted payload: only the key it was sealed under opens it, under the ids it was sealed with. -/
structure Sealed where
  session : Bytes
  srcId : NodeID
  dstId : NodeID
  plaintext : Bytes

/-- A payload; `none` is one that does not decode. -/
inductive Body (K : Crypto)
  | handshake (hello : Option (Hello K))
  | handshakeAck (answer : Option (Answer K))
  | data (payload : Sealed)

structure Packet (K : Crypto) where
  srcId : NodeID
  dstId : NodeID
  body : Body K

def createEncrypted (srcId dstId : NodeID) (plaintext session : Bytes) : Packet K :=
  ⟨srcId, dstId, .data ⟨session, srcId, dstId, plaintext⟩⟩

def Packet.decryptPayload (packet : Packet K) (session : Bytes) : Option Bytes :=
  match packet.body with
  | .data payload =>
    if payload.session = session ∧ payload.srcId = packet.srcId ∧ payload.dstId = packet.dstId then
      some payload.plaintext
    else none
  | _ => none

/-! ### The tables -/

structure Tables where
  e2eSessions : Dict NodeID Bytes
  e2ePendingKem : Dict NodeID Bytes
  e2ePendingNonce : Dict NodeID Bytes
  e2ePendingData : Dict NodeID (List Bytes)
  e2eAttempt : Dict NodeID ℚ
  e2eRekey : Dict NodeID (Bytes × ℚ)
  e2eReplacedKem : Dict (NodeID × Bytes) (Bytes × ℚ)

namespace Tables

/-- Forget every attempt still waiting on this node's answer. -/
def e2eDropAttempts (t : Tables) (src : NodeID) : Tables :=
  { t with
    e2ePendingNonce := t.e2ePendingNonce.pop src
    e2ePendingKem := t.e2ePendingKem.pop src
    e2eReplacedKem := t.e2eReplacedKem.filterKeys fun key => decide (key.1 ≠ src) }

def forgetE2e (t : Tables) (target : NodeID) : Tables :=
  { t with
    e2eSessions := t.e2eSessions.pop target
    e2ePendingKem := t.e2ePendingKem.pop target
    e2ePendingNonce := t.e2ePendingNonce.pop target
    e2ePendingData := t.e2ePendingData.pop target
    e2eAttempt := t.e2eAttempt.pop target
    e2eRekey := t.e2eRekey.pop target }.e2eDropAttempts target

/-- The session to lose: the first that no data waits for, else the first. -/
def victim (t : Tables) : Option NodeID :=
  (t.e2eSessions.keys.find? fun nodeId => decide (nodeId ∉ t.e2ePendingData.keys)) <|>
    t.e2eSessions.keys.head?

/-- Lose sessions until there is room for one more; `n` bounds how many. -/
def evictSessions : ℕ → Tables → Tables
  | 0, t => t
  | n + 1, t =>
    if maxE2eSessions ≤ t.e2eSessions.size then
      match t.victim with
      | none => t
      | some nodeId => evictSessions n (t.forgetE2e nodeId)
    else t

def keepE2eSession (t : Tables) (src : NodeID) (session : Bytes) : Tables :=
  if src ∈ t.e2eSessions.keys then { t with e2eSessions := t.e2eSessions.set src session }
  else
    let t := evictSessions t.e2eSessions.size t
    { t with e2eSessions := t.e2eSessions.set src session }

def shouldInitiateE2e (t : Tables) (target : NodeID) (now : ℚ) : Bool :=
  if target ∈ t.e2eSessions.keys then false
  else
    match t.e2eAttempt.get? target with
    | none => true
    | some last => decide (e2eRetryInterval ≤ now - last)

/-- Keep the attempt that a new one replaces answerable a little longer. -/
def e2eKeepReplacedAttempt (t : Tables) (target : NodeID) (now : ℚ) : Tables :=
  match t.e2ePendingNonce.get? target, t.e2ePendingKem.get? target with
  | some nonce, some secret =>
    let kept := t.e2eReplacedKem.filterVal fun v => decide (now < v.2)
    let room := Dict.makeRoom e2eAttemptMax kept.size kept
    { t with e2eReplacedKem := room.set (target, nonce) (secret, now + e2eAttemptTtl) }
  | _, _ => t

/-- The ML-KEM secret waiting for this answer: of the attempt in flight, or, where no session is live, of
one that a retry has since replaced. -/
def e2eAttemptSecret (t : Tables) (src : NodeID) (nonce : Bytes) (now : ℚ) : Option Bytes × Tables :=
  if t.e2ePendingNonce.get? src = some nonce then (t.e2ePendingKem.get? src, t)
  else
    match t.e2eReplacedKem.get? (src, nonce) with
    | none => (none, t)
    | some (secret, expires) =>
      if src ∈ t.e2eSessions.keys then (none, t)
      else if expires ≤ now then
        (none, { t with e2eReplacedKem := t.e2eReplacedKem.pop (src, nonce) })
      else (some secret, t)

def e2eRekeyStore (t : Tables) (src : NodeID) (candidate : Bytes) (now : ℚ) : Tables :=
  let live := t.e2eRekey.filterVal fun v => decide (now < v.2)
  let room :=
    if src ∈ live.keys then live
    else if e2eRekeyMax ≤ live.size then
      match live.entries.argmin fun e => e.2.2 with
      | none => live
      | some oldest => live.pop oldest.1
    else live
  { t with e2eRekey := room.set src (candidate, now + e2eRekeyTtl) }

/-- The candidate of a node, if one is parked and has not run out. -/
def e2eRekeyGet (t : Tables) (src : NodeID) (now : ℚ) : Option Bytes × Tables :=
  match t.e2eRekey.get? src with
  | none => (none, t)
  | some (session, exp) =>
    if exp ≤ now then (none, { t with e2eRekey := t.e2eRekey.pop src }) else (some session, t)

end Tables

/-! ### The handlers -/

/-- What a handler does besides changing the tables. -/
inductive Effect (K : Crypto)
  | sent (packet : Packet K)
  /-- A session went live. -/
  | filed (src : NodeID) (session : Bytes)
  /-- A candidate was parked. -/
  | parked (src : NodeID) (session : Bytes)
  | delivered (src : NodeID) (plaintext : Bytes)

structure Turn (K : Crypto) where
  tables : Tables
  out : List (Effect K)

namespace Turn

def emit (t : Turn K) (e : Effect K) : Turn K := { t with out := t.out ++ [e] }

def write (t : Turn K) (tables : Tables) : Turn K := { t with tables := tables }

def file (src : NodeID) (session : Bytes) (t : Turn K) : Turn K :=
  (t.write (t.tables.keepE2eSession src session)).emit (.filed src session)

def park (src : NodeID) (session : Bytes) (now : ℚ) (t : Turn K) : Turn K :=
  (t.write (t.tables.e2eRekeyStore src session now)).emit (.parked src session)

def initiateE2eHandshake (me : Keys K) (env : Env K) (target : NodeID) (t : Turn K) : Turn K :=
  match env.chainOf me.id with
  | none => t
  | some chain =>
    let nonce := env.urandom
    let (kemPub, kemSecret) := env.kemPair
    let signature := me.sign (nonce ++ kemPub ++ me.dsaPublicKey)
    let tables := t.tables.e2eKeepReplacedAttempt target env.monotonic
    (t.write { tables with
      e2ePendingKem := tables.e2ePendingKem.set target kemSecret
      e2ePendingNonce := tables.e2ePendingNonce.set target nonce
      e2eAttempt := tables.e2eAttempt.set target env.monotonic }).emit
      (.sent ⟨me.id, target,
        .handshake (some ⟨nonce, kemPub, me.dsaPublicKey, chain, signature⟩)⟩)

/-- Queue a payload, the oldest going first where a queue or the number of queues is full. -/
def enqueue (target : NodeID) (payload : Bytes) (t : Tables) : Tables :=
  let t :=
    if target ∉ t.e2ePendingData.keys ∧ maxPendingTargets ≤ t.e2ePendingData.size then
      match t.e2ePendingData.keys.head? with
      | none => t
      | some oldest => t.forgetE2e oldest
    else t
  let queue := (t.e2ePendingData.get? target).getD [] ++ [payload]
  let queue := if maxPendingPerTarget < queue.length then queue.tail else queue
  { t with e2ePendingData := t.e2ePendingData.set target queue }

def sendData (me : Keys K) (env : Env K) (target : NodeID) (payload : Bytes) (t : Turn K) : Turn K :=
  if target = me.id then t
  else
    match t.tables.e2eSessions.get? target with
    | some session => t.emit (.sent (createEncrypted me.id target payload session))
    | none =>
      let t := t.write (enqueue target payload t.tables)
      if t.tables.shouldInitiateE2e target env.monotonic then t.initiateE2eHandshake me env target
      else t

/-- The retry loop forgets when it tried the targets that are done. -/
def pruneAttempts (t : Turn K) : Turn K :=
  let due (target : NodeID) : Bool :=
    decide (target ∉ t.tables.e2eSessions.keys ∧ target ∈ t.tables.e2ePendingData.keys)
  t.write { t.tables with e2eAttempt := t.tables.e2eAttempt.filterKeys due }

def retry (me : Keys K) (env : Env K) (target : NodeID) (t : Turn K) : Turn K :=
  if target ∈ t.tables.e2ePendingData.keys ∧
      t.tables.shouldInitiateE2e target env.monotonic = true then
    t.initiateE2eHandshake me env target
  else t

/-- Send what was queued for a node under its live session. -/
def flush (me : Keys K) (src : NodeID) (t : Turn K) : Turn K :=
  match t.tables.e2eSessions.get? src with
  | none => t
  | some session =>
    { tables := { t.tables with e2ePendingData := t.tables.e2ePendingData.pop src }
      out := t.out ++ ((t.tables.e2ePendingData.get? src).getD []).map fun payload =>
        .sent (createEncrypted me.id src payload session) }

def helloChecks (env : Env K) (src : NodeID) (hello : Hello K) : Bool :=
  decide (K.fromPublicKey hello.dsaPub = src) && (env.certs.verifyChain hello.chain env.stamp).isSome &&
    K.verify (hello.nonce ++ hello.kemPub ++ hello.dsaPub) hello.signature hello.dsaPub

/-- Two nodes have tried at once and this one, with the lower id, lets its own attempt win. -/
def glare (me : Keys K) (src : NodeID) (t : Tables) : Bool :=
  decide (src ∈ t.e2ePendingNonce.keys ∧ me.id.raw < src.raw)

def handleE2eHandshake (me : Keys K) (env : Env K) (src : NodeID) (payload : Option (Hello K))
    (t : Turn K) : Turn K :=
  match payload with
  | none => t
  | some hello =>
    if !helloChecks env src hello then t
    else if glare me src t.tables then t
    else
      let t := t.write { t.tables with
        e2ePendingNonce := t.tables.e2ePendingNonce.pop src
        e2ePendingKem := t.tables.e2ePendingKem.pop src }
      match env.chainOf me.id, env.kemEncapsulate hello.kemPub with
      | some chain, some (ciphertext, shared) =>
        let t := if src ∈ t.tables.e2eSessions.keys then t.park src shared env.monotonic
          else t.file src shared
        let signature := me.sign (hello.nonce ++ ciphertext ++ me.dsaPublicKey)
        (t.emit (.sent ⟨me.id, src, .handshakeAck (some
          ⟨hello.nonce, ciphertext, me.dsaPublicKey, chain, signature⟩)⟩)).flush me src
      | _, _ => t

def answerChecks (env : Env K) (src : NodeID) (answer : Answer K) : Bool :=
  decide (K.fromPublicKey answer.dsaPub = src) &&
    (env.certs.verifyChain answer.chain env.stamp).isSome &&
    K.verify (answer.nonce ++ answer.ciphertext ++ answer.dsaPub) answer.signature answer.dsaPub

def handleE2eHandshakeAck (me : Keys K) (env : Env K) (src : NodeID) (payload : Option (Answer K))
    (t : Turn K) : Turn K :=
  match payload with
  | none => t
  | some answer =>
    match t.tables.e2eAttemptSecret src answer.nonce env.monotonic with
    | (none, tables) => t.write tables
    | (some secret, tables) =>
      if !answerChecks env src answer then t.write tables
      else
        let t := t.write (tables.e2eDropAttempts src)
        match me.kemDecapsulate answer.ciphertext secret with
        | none => t
        | some shared => (t.file src shared).flush me src

def handleData (env : Env K) (packet : Packet K) (t : Turn K) : Turn K :=
  let src := packet.srcId
  match t.tables.e2eSessions.get? src with
  | none => t
  | some session =>
    match packet.decryptPayload session with
    | some plaintext => t.emit (.delivered src plaintext)
    | none =>
      match t.tables.e2eRekeyGet src env.monotonic with
      | (none, tables) => t.write tables
      | (some candidate, tables) =>
        match packet.decryptPayload candidate with
        | none => t.write tables
        | some plaintext =>
          let t := (t.write tables).file src candidate
          (t.write { t.tables with e2eRekey := t.tables.e2eRekey.pop src }).emit
            (.delivered src plaintext)

def handle (me : Keys K) (env : Env K) (packet : Packet K) (t : Turn K) : Turn K :=
  match packet.body with
  | .handshake hello => t.handleE2eHandshake me env packet.srcId hello
  | .handshakeAck answer => t.handleE2eHandshakeAck me env packet.srcId answer
  | .data _ => t.handleData env packet

end Turn

/-! ### What a node does -/

inductive Event (K : Crypto)
  | sendData (target : NodeID) (payload : Bytes)
  | pruneAttempts
  | retry (target : NodeID)
  | packet (packet : Packet K)

def act (me : Keys K) (env : Env K) (event : Event K) (tables : Tables) : Turn K :=
  let t : Turn K := ⟨tables, []⟩
  match event with
  | .sendData target payload => t.sendData me env target payload
  | .pruneAttempts => t.pruneAttempts
  | .retry target => t.retry me env target
  | .packet packet => t.handle me env packet

end NMesh.E2e.Session
