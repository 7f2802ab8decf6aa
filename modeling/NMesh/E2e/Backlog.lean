import NMesh.E2e.Session
import NMesh.Base.Runs

/-! # The backlog of the end-to-end plane

`NMesh.E2e.Session` runs a handler to its end in one step. Here a handler stops wherever it awaits a send,
and any other receive loop, the application or the retry loop may run before it goes on: the responder
stops after its answer, either handler stops after each payload it flushes, and the retry loop stops after
each handshake it starts.

Beside the tables goes a ledger of what becomes of a queued payload. `Node.step` is one stretch between two
awaits; a run is any interleaving of such stretches. -/

namespace NMesh.E2e.Backlog

open Base.BigEndian Base.Runs NMesh.Cert.Identity
open NMesh.E2e.Session

variable {K : Crypto}

/-! ### The ledger -/

/-- What becomes of a payload. -/
inductive Note (K : Crypto)
  | queued (target : NodeID) (payload : Bytes)
  /-- Dropped as the oldest of a full queue. -/
  | crowded (target : NodeID) (payload : Bytes)
  /-- Dropped with the target. -/
  | evicted (target : NodeID) (payload : Bytes)
  /-- Handed on, as this packet. -/
  | flushed (target : NodeID) (payload : Bytes) (packet : Packet K)

/-- The payload, if the note says that it was queued for `x`. -/
def Note.queuedFor (x : NodeID) : Note K → Option Bytes
  | .queued target payload => if target = x then some payload else none
  | _ => none

/-- The payload, if the note says what became of it and it was for `x`. -/
def Note.settledFor (x : NodeID) : Note K → Option Bytes
  | .queued _ _ => none
  | .crowded target payload => if target = x then some payload else none
  | .evicted target payload => if target = x then some payload else none
  | .flushed target payload _ => if target = x then some payload else none

/-- The tables and the ledger. -/
structure Book (K : Crypto) where
  tables : Tables
  log : List (Note K)

namespace Book

def write (b : Book K) (tables : Tables) : Book K := { b with tables := tables }

def note (b : Book K) (notes : List (Note K)) : Book K := { b with log := b.log ++ notes }

def queue (b : Book K) (x : NodeID) : List Bytes := (b.tables.e2ePendingData.get? x).getD []

def queuedFor (b : Book K) (x : NodeID) : List Bytes := b.log.filterMap (Note.queuedFor x)

/-- Everything queued for a target that has been dropped or handed on, in that order. -/
def settledFor (b : Book K) (x : NodeID) : List Bytes := b.log.filterMap (Note.settledFor x)

def forgetE2e (b : Book K) (target : NodeID) : Book K :=
  (b.note ((b.queue target).map (.evicted target))).write (b.tables.forgetE2e target)

end Book

/-! ### Evictions -/

/-- The targets that making room for one more session forgets; `n` bounds how many. -/
def victims : ℕ → Tables → List NodeID
  | 0, _ => []
  | n + 1, t =>
    if maxE2eSessions ≤ t.e2eSessions.size then
      match t.victim with
      | none => []
      | some nodeId => nodeId :: victims n (t.forgetE2e nodeId)
    else []

/-- The targets that filing a session of `src` forgets. -/
def forgottenFor (t : Tables) (src : NodeID) : List NodeID :=
  if src ∈ t.e2eSessions.keys then [] else victims t.e2eSessions.size t

namespace Book

def keepE2eSession (b : Book K) (src : NodeID) (session : Bytes) : Book K :=
  let b := (forgottenFor b.tables src).foldl forgetE2e b
  b.write { b.tables with e2eSessions := b.tables.e2eSessions.set src session }

/-- Where a target without a queue comes to as many queues as there may be, the oldest target goes. -/
def roomFor (b : Book K) (target : NodeID) : Book K :=
  if target ∉ b.tables.e2ePendingData.keys ∧ maxPendingTargets ≤ b.tables.e2ePendingData.size then
    match b.tables.e2ePendingData.keys.head? with
    | none => b
    | some oldest => b.forgetE2e oldest
  else b

/-- Append a payload to its queue, the oldest going where the queue is full. -/
def push (b : Book K) (target : NodeID) (payload : Bytes) : Book K :=
  let queue := b.queue target ++ [payload]
  let b := b.note [.queued target payload]
  if maxPendingPerTarget < queue.length then
    (b.note (queue.head?.toList.map (.crowded target))).write
      { b.tables with e2ePendingData := b.tables.e2ePendingData.set target queue.tail }
  else b.write { b.tables with e2ePendingData := b.tables.e2ePendingData.set target queue }

def enqueue (b : Book K) (target : NodeID) (payload : Bytes) : Book K :=
  (b.roomFor target).push target payload

def initiateE2eHandshake (me : Keys K) (env : Env K) (target : NodeID) (b : Book K) : Book K :=
  b.write ((⟨b.tables, []⟩ : Turn K).initiateE2eHandshake me env target).tables

/-- Handed a payload by the application: up to the first await, after which no table changes. A live
session sends it at once; it is never queued. -/
def sendData (me : Keys K) (env : Env K) (target : NodeID) (payload : Bytes) (b : Book K) : Book K :=
  if target = me.id then b
  else if target ∈ b.tables.e2eSessions.keys then b
  else
    let b := b.enqueue target payload
    if b.tables.shouldInitiateE2e target env.monotonic then b.initiateE2eHandshake me env target else b

end Book

/-! ### The handlers -/

/-- A handshake handler at an await, or ended. -/
inductive Handler
  /-- The responder has sent its answer. -/
  | answering (src : NodeID)
  /-- A queued payload has been sent, and these are still to be. -/
  | flushing (src : NodeID) (rest : List Bytes)
  | returned
  /-- `self._e2e_sessions[src]` raised, with these still to be sent. -/
  | raised (src : NodeID) (lost : List Bytes)
  deriving DecidableEq

/-- What a handler has taken out of the queue of `x` and has still to send. -/
def Handler.rest (x : NodeID) : Handler → List Bytes
  | .flushing src rest => if src = x then rest else []
  | _ => []

namespace Book

/-- The flush from the top of its loop to the next await. -/
def pour (me : Keys K) (src : NodeID) : List Bytes → Book K → Book K × Handler
  | [], b => (b, .returned)
  | payload :: rest, b =>
    match b.tables.e2eSessions.get? src with
    | none => (b, .raised src (payload :: rest))
    | some session =>
      (b.note [.flushed src payload (createEncrypted me.id src payload session)], .flushing src rest)

/-- Take the queue out of the table and start to send it. -/
def drain (me : Keys K) (src : NodeID) (b : Book K) : Book K × Handler :=
  (b.write { b.tables with e2ePendingData := b.tables.e2ePendingData.pop src }).pour me src (b.queue src)

/-- `_handle_e2e_handshake` up to its answer; does it come to one? -/
def answerHello (me : Keys K) (env : Env K) (src : NodeID) (payload : Option (Hello K)) (b : Book K) :
    Book K × Bool :=
  match payload with
  | none => (b, false)
  | some hello =>
    if !Turn.helloChecks env src hello then (b, false)
    else if Turn.glare me src b.tables then (b, false)
    else
      let b := b.write { b.tables with
        e2ePendingNonce := b.tables.e2ePendingNonce.pop src
        e2ePendingKem := b.tables.e2ePendingKem.pop src }
      match env.chainOf me.id, env.kemEncapsulate hello.kemPub with
      | some _, some (_, shared) =>
        if src ∈ b.tables.e2eSessions.keys then
          (b.write (b.tables.e2eRekeyStore src shared env.monotonic), true)
        else (b.keepE2eSession src shared, true)
      | _, _ => (b, false)

/-- `_handle_e2e_handshake_ack` up to its flush; does it come to one? -/
def takeAnswer (me : Keys K) (env : Env K) (src : NodeID) (payload : Option (Answer K)) (b : Book K) :
    Book K × Bool :=
  match payload with
  | none => (b, false)
  | some answer =>
    match b.tables.e2eAttemptSecret src answer.nonce env.monotonic with
    | (none, tables) => (b.write tables, false)
    | (some secret, tables) =>
      if !Turn.answerChecks env src answer then (b.write tables, false)
      else
        let b := b.write (tables.e2eDropAttempts src)
        match me.kemDecapsulate answer.ciphertext secret with
        | none => (b, false)
        | some shared => (b.keepE2eSession src shared, true)

/-- A DATA packet, which may make a candidate the live session. -/
def handleData (env : Env K) (packet : Packet K) (b : Book K) : Book K :=
  b.write ((⟨b.tables, []⟩ : Turn K).handleData env packet).tables

/-- The retry loop forgets when it tried the targets that are done. -/
def pruneAttempts (b : Book K) : Book K := b.write (⟨b.tables, []⟩ : Turn K).pruneAttempts.tables

/-- The walk over the targets of a pass, to its next await: the targets left, `none` at its end. Without a
chain a handshake is not started, and nothing is awaited. -/
def walkOn (me : Keys K) (env : Env K) : List NodeID → Book K → Book K × Option (List NodeID)
  | [], b => (b, none)
  | target :: rest, b =>
    if b.tables.shouldInitiateE2e target env.monotonic = true ∧ (env.chainOf me.id).isSome then
      (b.initiateE2eHandshake me env target, some rest)
    else walkOn me env rest b

end Book

/-! ### The node -/

structure Node (K : Crypto) where
  book : Book K
  handlers : List Handler
  /-- The targets the retry loop has still to walk, `none` while it waits. -/
  walk : Option (List NodeID)

/-- One stretch between two awaits. -/
inductive Act (K : Crypto)
  | sendData (target : NodeID) (payload : Bytes)
  | handshake (src : NodeID) (payload : Option (Hello K))
  | handshakeAck (src : NodeID) (payload : Option (Answer K))
  | data (packet : Packet K)
  /-- The handler that was started `i`-th goes on. -/
  | resume (i : ℕ)
  /-- The retry loop wakes. -/
  | wake
  /-- The retry loop goes on. -/
  | walk

namespace Node

def start (tables : Tables) : Node K :=
  ⟨⟨tables, tables.e2ePendingData.entries.flatMap fun e => e.2.map (.queued e.1)⟩, [], none⟩

def spawn (n : Node K) (r : Book K × Handler) : Node K :=
  { n with book := r.1, handlers := n.handlers ++ [r.2] }

/-- The `i`-th handler has come to its next await. -/
def settle (n : Node K) (i : ℕ) (r : Book K × Handler) : Node K :=
  { n with book := r.1, handlers := n.handlers.set i r.2 }

def resume (me : Keys K) (n : Node K) (i : ℕ) : Node K :=
  match n.handlers[i]? with
  | some (.answering src) => n.settle i (n.book.drain me src)
  | some (.flushing src rest) => n.settle i (n.book.pour me src rest)
  | _ => n

def walkFrom (me : Keys K) (env : Env K) (targets : List NodeID) (n : Node K) : Node K :=
  let r := n.book.walkOn me env targets
  { n with book := r.1, walk := r.2 }

def step (me : Keys K) (n : Node K) (a : Env K × Act K) : Node K :=
  match a.2 with
  | .sendData target payload => { n with book := n.book.sendData me a.1 target payload }
  | .handshake src payload =>
    let r := n.book.answerHello me a.1 src payload
    n.spawn (r.1, if r.2 then .answering src else .returned)
  | .handshakeAck src payload =>
    let r := n.book.takeAnswer me a.1 src payload
    if r.2 then n.spawn (r.1.drain me src) else n.spawn (r.1, .returned)
  | .data packet => { n with book := n.book.handleData a.1 packet }
  | .resume i => n.resume me i
  | .wake =>
    match n.walk with
    | some _ => n
    | none =>
      let n := { n with book := n.book.pruneAttempts }
      n.walkFrom me a.1 n.book.tables.e2ePendingData.keys
  | .walk =>
    match n.walk with
    | none => n
    | some targets => n.walkFrom me a.1 targets

/-- What has been taken out of the queue of a target and not been sent yet. -/
def owed (n : Node K) (x : NodeID) : List Bytes := n.handlers.flatMap (Handler.rest x)

/-! ### The backlog is handed over whole -/

/-- **Each payload queued for a target** has been dropped or handed on, or is to be sent by a flush in
progress, or is still queued, in the order of the queue. -/
def Whole (n : Node K) : Prop :=
  ∀ x, n.book.queuedFor x = n.book.settledFor x ++ n.owed x ++ n.book.queue x

def Uncut (n : Node K) : Prop := ∀ src lost, Handler.raised src lost ∉ n.handlers

def Dialled (n : Node K) : Prop :=
  ∀ x ∈ n.book.tables.e2ePendingNonce.keys, x ∈ n.book.tables.e2ePendingData.keys

/-- What `a` hands on is encrypted under a live session of its target. -/
def Sealing (me : Keys K) (n : Node K) (a : Env K × Act K) : Prop :=
  ∀ x payload packet, Note.flushed x payload packet ∈ (n.step me a).book.log.drop n.book.log.length →
    ∃ session, (n.step me a).book.tables.e2eSessions.get? x = some session ∧
      packet = createEncrypted me.id x payload session

/-! ### What no other stretch may do in between -/

def filesHello (me : Keys K) (env : Env K) (src : NodeID) (payload : Option (Hello K)) (t : Tables) : Bool :=
  payload.any fun hello =>
    Turn.helloChecks env src hello && !Turn.glare me src t && (env.chainOf me.id).isSome &&
      (env.kemEncapsulate hello.kemPub).isSome

def filesAnswer (me : Keys K) (env : Env K) (src : NodeID) (payload : Option (Answer K)) (t : Tables) :
    Bool :=
  payload.any fun answer =>
    Turn.answerChecks env src answer &&
      ((t.e2eAttemptSecret src answer.nonce env.monotonic).1.bind
        (me.kemDecapsulate answer.ciphertext)).isSome

/-- The first target of a walk that a handshake is started for. -/
def dials (me : Keys K) (env : Env K) (targets : List NodeID) (t : Tables) : Option NodeID :=
  targets.find? fun target =>
    t.shouldInitiateE2e target env.monotonic && (env.chainOf me.id).isSome

/-- A session that is filed pushes out none that a flush in progress still needs, a responder that goes on
finds its session if there is a queue to send, and the walk starts no handshake for a target that has been
forgotten since the pass began. -/
def Calm (me : Keys K) (n : Node K) (a : Env K × Act K) : Prop :=
  match a.2 with
  | .handshake src payload => filesHello me a.1 src payload n.book.tables = true →
      ∀ x ∈ forgottenFor n.book.tables src, n.owed x = []
  | .handshakeAck src payload => filesAnswer me a.1 src payload n.book.tables = true →
      ∀ x ∈ forgottenFor n.book.tables src, n.owed x = []
  | .resume i => ∀ src, n.handlers[i]? = some (.answering src) →
      src ∈ n.book.tables.e2eSessions.keys ∨ n.book.queue src = []
  | .walk => ∀ targets, n.walk = some targets → ∀ x, dials me a.1 targets n.book.tables = some x →
      x ∈ n.book.tables.e2ePendingData.keys
  | _ => True

end Node

end NMesh.E2e.Backlog
