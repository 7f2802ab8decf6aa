import NMesh.Base.Runs
import NMesh.Cert.Issuing
import NMesh.Cert.Store
import NMesh.Link.Invite
import Mathlib.Data.Rat.Floor

/-! # The handshake of a link

The end that accepted a link sends a CHALLENGE. The end that dialled it answers with an INVITE, if it
holds a code, or with a HANDSHAKE signed over the challenge; an accepted INVITE is followed by the
HANDSHAKE. The HANDSHAKE_ACK is signed over the challenge too, and carries a certificate where an
invitation was accepted.

A handler takes one `Turn`: the link, the parts of the node it works on and what it has done so far
(`Effect`). `step` is the node: what it does by itself, and the packets that come in on its links. The
log tells what has happened, in order. -/

namespace NMesh.Link.Handshake

open Base.BigEndian Base.Ordered NMesh.Cert.Identity NMesh.Cert.Issuing NMesh.Cert.Store
open NMesh.Link.Invite

variable {K : Crypto} {Code : Type} [DecidableEq Code]

def challengeLen : ℕ := 32
def maxHandshakeAttempts : ℕ := 8
def maxInviteFailures : ℕ := 3
def inviteLockout : ℚ := 60
def ackAccepted : UInt8 := 0x00
def ackRejected : UInt8 := 0x01

/-- What a node is made of: its key pair, the answer to a challenge and ML-KEM's decapsulation, `none`
where it raises. -/
structure Local (K : Crypto) (Code : Type) extends Identity K where
  computeResponse : Code → Bytes → Bytes
  kemDecapsulate : Bytes → Bytes → Option Bytes

/-- What the world gives one call: the clocks, a fresh ML-KEM pair (public, secret), the encapsulation to
a public key (ciphertext, shared secret), random bytes and who is held as hostile. -/
structure Env where
  clock : ℚ
  monotonic : ℚ
  kemPair : Bytes × Bytes
  kemEncapsulate : Bytes → Option (Bytes × Bytes)
  urandom : Bytes
  isHostile : NodeID → Bool

def Env.stamp (env : Env) : ℕ := ⌊env.clock⌋.toNat

/-! ### Packets -/

/-- A HANDSHAKE, as it is sliced: the chain is `none` where it does not decode. -/
structure Hello (K : Crypto) where
  kemPub : Bytes
  dsaPub : Bytes
  chain : Option (List (Certificate K))
  signature : Bytes

/-- A HANDSHAKE_ACK. -/
structure Answer (K : Crypto) where
  ciphertext : Bytes
  dsaPub : Bytes
  chain : List (Certificate K)
  issuedCert : Option (Certificate K)
  signature : Bytes

/-- A payload; `none` is one that does not decode. -/
inductive Body (K : Crypto)
  | challenge (challenge : Bytes)
  | invite (response : Bytes)
  | inviteAck (code : Bytes)
  | handshake (hello : Option (Hello K))
  | handshakeAck (answer : Option (Answer K))

structure Packet (K : Crypto) where
  srcId : NodeID
  dstId : NodeID
  body : Body K

/-- Twenty bytes `FF`. -/
def broadcastId : NodeID := ⟨List.replicate 20 0xFF, rfl⟩

/-! ### A link -/

structure Peer (Code : Type) where
  isClientSide : Bool
  relayOnly : Bool
  relayed : Bool
  joinCode : Option Code
  expectedId : Option NodeID
  session : Option Bytes := none
  pendingKemSecret : Option Bytes := none
  pendingChallenge : Option Bytes := none
  receivedChallenge : Option Bytes := none
  authenticatedId : Option NodeID := none
  dsaPub : Option Bytes := none
  answeredAs : Option NodeID := none
  claimedSelf : Bool := false
  inviteAccepted : Bool := false
  inviteSent : Bool := false
  inviteRefused : Bool := false
  joinedByInvite : Bool := false
  inviteFailures : ℕ := 0
  inviteLockoutTs : ℚ := 0
  handshakeAttempts : ℕ := 0

/-- What a handler does besides changing its link. -/
inductive Effect (K : Crypto) (Code : Type)
  | dialled (joinCode : Option Code)
  | accepted
  | received (packet : Packet K)
  | sent (packet : Packet K)
  | refused (reason : String)
  | ended
  | consumed (code : Code) (clock : ℚ)
  | issued (cert : Certificate K)
  | trusted (root : NodeID)

/-- One turn of a link: what a handler works on, and what it has done. -/
structure Turn (K : Crypto) (Code : Type) where
  peer : Peer Code
  invite : InviteManager Code
  certs : CertStore K
  out : List (Effect K Code)

namespace Turn

def emit (t : Turn K Code) (e : Effect K Code) : Turn K Code := { t with out := t.out ++ [e] }

def ownChain (t : Turn K Code) (me : Local K Code) (env : Env) :
    List (Certificate K) × CertStore K :=
  let (chain, certs) := t.certs.getChainToRoot me.id none env.stamp
  (chain.getD [], certs)

/-! ### The end that dialled -/

def initiateHandshake (me : Local K Code) (env : Env) (t : Turn K Code) : Turn K Code :=
  let challenge := t.peer.receivedChallenge.getD env.urandom
  let (chain, certs) := t.ownChain me env
  let (kemPub, kemSecret) := env.kemPair
  let signature := me.sign (challenge ++ kemPub ++ me.dsaPublicKey)
  { t with
    peer := { t.peer with pendingKemSecret := some kemSecret }
    certs := certs }.emit
    (.sent ⟨me.id, broadcastId, .handshake (some ⟨kemPub, me.dsaPublicKey, some chain, signature⟩)⟩)

def handleChallenge (me : Local K Code) (env : Env) (src : NodeID) (payload : Bytes)
    (t : Turn K Code) : Turn K Code :=
  if payload.length ≠ challengeLen then t
  else
    let t := { t with peer := { t.peer with receivedChallenge := some payload } }
    if t.peer.relayOnly then t
    else if !t.peer.isClientSide then
      -- both ends of the link accepted it
      if t.peer.authenticatedId = none && t.peer.pendingChallenge.isSome && !t.peer.relayed then
        t.emit .ended
      else t
    else if src = me.id then
      { t with peer := { t.peer with claimedSelf := true } }.emit
        (.refused "the challenge presents our own identity")
    else
      match t.peer.joinCode with
      | none => t.initiateHandshake me env
      | some code =>
        { t with peer := { t.peer with inviteSent := true } }.emit
          (.sent ⟨me.id, src, .invite (me.computeResponse code payload)⟩)

def handleInviteAck (me : Local K Code) (env : Env) (payload : Bytes) (t : Turn K Code) :
    Turn K Code :=
  match payload with
  | [] => t
  | code :: _ =>
    if !t.peer.inviteSent then t
    else
      let t := { t with peer := { t.peer with inviteSent := false } }
      if code = ackAccepted then
        { t with peer := { t.peer with joinCode := none, joinedByInvite := true } }.initiateHandshake
          me env
      else { t with peer := { t.peer with inviteRefused := true } }

def addChain (env : Env) (chain : List (Certificate K)) (t : Turn K Code) : Turn K Code :=
  { t with certs := t.certs.addAll chain env.stamp }

/-- The link is up to the node `serverId`; the shared secret is what the answer carries. -/
def finishDial (me : Local K Code) (serverId : NodeID) (answer : Answer K) (t : Turn K Code) :
    Turn K Code :=
  let t := { t with
    peer := { t.peer with authenticatedId := some serverId, dsaPub := some answer.dsaPub } }
  match t.peer.pendingKemSecret.bind (me.kemDecapsulate answer.ciphertext) with
  | none => t
  | some shared =>
    { t with peer := { t.peer with session := some shared, pendingKemSecret := none } }

/-- Trust the root of the chain presented, if it ends on one. -/
def trustLast (chain : List (Certificate K)) (t : Turn K Code) : Turn K Code :=
  match chain.getLast? with
  | none => t
  | some last =>
    if last.isSelfSigned then
      { t with certs := t.certs.addRoot last.subjectId }.emit (.trusted last.subjectId)
    else t

/-- Take the answer of the node `src`: after an invitation we presented with the certificate issued to
us, else on the strength of its chain. -/
def adopt (me : Local K Code) (env : Env) (src : NodeID) (answer : Answer K) (t : Turn K Code) :
    Turn K Code :=
  match answer.issuedCert, t.peer.joinedByInvite with
  | some issued, true =>
    if issued.issuerId ≠ src then
      t.emit (.refused "the certificate we were issued names another issuer")
    else if issued.subjectId ≠ me.id then
      t.emit (.refused "the certificate we were issued names another subject")
    else
      (((t.addChain env answer.chain).trustLast answer.chain).addChain env [issued]).finishDial me src
        answer
  | _, _ =>
    if answer.chain = [] then t.emit (.refused "the answer presented no certificate chain")
    else if t.certs.verifyChain answer.chain env.stamp = none then
      t.emit (.refused "the answer's chain reaches no root we trust")
    else (t.addChain env answer.chain).finishDial me src answer

def handleHandshakeAck (me : Local K Code) (env : Env) (src : NodeID) (payload : Option (Answer K))
    (t : Turn K Code) : Turn K Code :=
  if t.peer.pendingKemSecret = none then t
  else
    match t.peer.receivedChallenge, payload with
    | none, _ => t.emit (.refused "no challenge of ours was answered")
    | some _, none => t.emit (.refused "the answer was malformed")
    | some challenge, some answer =>
      if !K.verify (challenge ++ answer.ciphertext ++ answer.dsaPub) answer.signature
          answer.dsaPub then
        t.emit (.refused "the answer's signature did not match our challenge")
      else if K.fromPublicKey answer.dsaPub ≠ src then
        t.emit (.refused "the answering id is not the hash of the key presented")
      else
        let t := { t with peer := { t.peer with answeredAs := some src } }
        if src = me.id then t.emit (.refused "the identity presented is our own")
        else if t.peer.expectedId.any (· ≠ src) then
          t.emit (.refused "the address answered as another node than the one dialled")
        else
          t.adopt me env src answer

/-! ### The end that accepted -/

/-- Turn an answer away, counting it on the link and on the whole node. -/
def refuseInvite (me : Local K Code) (env : Env) (src : NodeID) (t : Turn K Code) : Turn K Code :=
  let failures := t.peer.inviteFailures + 1
  { t with
    invite := t.invite.recordFailure env.clock
    peer := { t.peer with
      inviteFailures := failures
      inviteLockoutTs := if maxInviteFailures ≤ failures then env.monotonic
        else t.peer.inviteLockoutTs } }.emit
    (.sent ⟨me.id, src, .inviteAck [ackRejected]⟩)

/-- Consume the code that a response is the answer of, and accept. -/
def acceptInvite (me : Local K Code) (env : Env) (src : NodeID) (challenge response : Bytes)
    (t : Turn K Code) : Turn K Code :=
  let t' :=
    match t.invite.matching me.computeResponse challenge response with
    | none => t
    | some code => t.emit (.consumed code env.clock)
  { t' with
    invite := t.invite.consume me.computeResponse challenge response
    peer := { t.peer with inviteAccepted := true } }.emit
    (.sent ⟨me.id, src, .inviteAck [ackAccepted]⟩)

def handleInvite (me : Local K Code) (env : Env) (src : NodeID) (response : Bytes)
    (t : Turn K Code) : Turn K Code :=
  match t.peer.pendingChallenge with
  | none => t
  | some challenge =>
    if maxInviteFailures ≤ t.peer.inviteFailures &&
        env.monotonic - t.peer.inviteLockoutTs < inviteLockout then t
    else
      let (ok, invite) := t.invite.verifyResponse me.computeResponse challenge response env.clock
      let t := { t with invite := invite }
      if !ok then t.refuseInvite me env src else t.acceptInvite me env src challenge response

/-- The link is up to the node `claimedId`, which is owed an answer. Where the encapsulation raises the
node is marked and nothing is sent. -/
def finishAccept (me : Local K Code) (env : Env) (claimedId : NodeID) (hello : Hello K)
    (challenge : Bytes) (issued : Option (Certificate K)) (t : Turn K Code) : Turn K Code :=
  let t := { t with
    peer := { t.peer with authenticatedId := some claimedId, dsaPub := some hello.dsaPub } }
  match env.kemEncapsulate hello.kemPub with
  | none => t
  | some (ciphertext, shared) =>
    let (chain, certs) := t.ownChain me env
    let signature := me.sign (challenge ++ ciphertext ++ me.dsaPublicKey)
    { t with
      peer := { t.peer with session := some shared, pendingChallenge := none }
      certs := certs }.emit
      (.sent ⟨me.id, claimedId,
        .handshakeAck (some ⟨ciphertext, me.dsaPublicKey, chain, issued, signature⟩)⟩)

/-- Admit the node `claimedId`: with a certificate of ours after an invitation, else on the strength of
its chain. -/
def takeIn (me : Local K Code) (env : Env) (claimedId : NodeID) (hello : Hello K) (challenge : Bytes)
    (chain : List (Certificate K)) (t : Turn K Code) : Turn K Code :=
  if t.peer.inviteAccepted then
    match me.issueCert claimedId hello.dsaPub env.stamp with
    | none => t
    | some cert =>
      ((t.addChain env [cert]).emit (.issued cert)).finishAccept me env claimedId hello challenge
        (some cert)
  else if chain = [] then t.emit (.refused "no certificate chain was presented")
  else if t.certs.verifyChain chain env.stamp = none then
    t.emit (.refused "the certificate chain reaches no root we trust")
  else (t.addChain env chain).finishAccept me env claimedId hello challenge none

def handleHandshake (me : Local K Code) (env : Env) (src : NodeID) (payload : Option (Hello K))
    (t : Turn K Code) : Turn K Code :=
  if t.peer.authenticatedId.isSome then t
  else
    match t.peer.pendingChallenge, payload with
    | none, _ => t.emit (.refused "no challenge was pending")
    | some _, none => t.emit (.refused "handshake was malformed")
    | some challenge, some hello =>
      let claimedId := K.fromPublicKey hello.dsaPub
      if claimedId ≠ src then
        t.emit (.refused "the id claimed is not the hash of the key presented")
      else if claimedId = me.id then t.emit (.refused "the identity presented is our own")
      else if env.isHostile claimedId then t.emit (.refused "this node is held as hostile here")
      else
        let attempts := t.peer.handshakeAttempts + 1
        let t := { t with peer := { t.peer with handshakeAttempts := attempts } }
        if maxHandshakeAttempts < attempts then t.emit (.refused "this link had used its tries")
        else if !K.verify (challenge ++ hello.kemPub ++ hello.dsaPub) hello.signature
            hello.dsaPub then
          t.emit (.refused "the signature did not match our challenge")
        else
          match hello.chain with
          | none => t.emit (.refused "the certificate chain was malformed")
          | some chain => t.takeIn me env claimedId hello challenge chain

def handle (me : Local K Code) (env : Env) (packet : Packet K) (t : Turn K Code) : Turn K Code :=
  match packet.body with
  | .challenge challenge => t.handleChallenge me env packet.srcId challenge
  | .invite response => t.handleInvite me env packet.srcId response
  | .inviteAck code => t.handleInviteAck me env code
  | .handshake hello => t.handleHandshake me env packet.srcId hello
  | .handshakeAck answer => t.handleHandshakeAck me env packet.srcId answer

end Turn

/-! ### A node -/

/-- One line of the log. -/
inductive Entry (K : Crypto) (Code : Type)
  | generated (code : Code) (created window : ℚ)
  | on (serial : ℕ) (effect : Effect K Code)

/-- A node: its codes, its certificates, its links by their serial numbers, and the log. -/
structure Node (K : Crypto) (Code : Type) where
  invite : InviteManager Code
  certs : CertStore K
  peers : Dict ℕ (Peer Code)
  nextSerial : ℕ
  log : List (Entry K Code)

/-- What the rest of the node does to its certificates. Adding a root is not among it. -/
structure StoreOp (K : Crypto) where
  op : Op K
  notRoot : ∀ nodeId, op ≠ .addRoot nodeId

inductive Event (K : Crypto) (Code : Type)
  | generateCode (code : Code) (ttl : Option ℚ)
  | liveCodes
  /-- A link opened by this node, with a code or without. -/
  | dial (joinCode : Option Code) (relayOnly relayed : Bool) (expectedId : Option NodeID)
  | accept (relayed : Bool)
  /-- The challenge of a link that was accepted. -/
  | greet (serial : ℕ) (challenge : Bytes)
  | packet (serial : ℕ) (packet : Packet K)
  | close (serial : ℕ)
  /-- The operator trusts another node's certificate. -/
  | consoleAddRoot (cert : Certificate K)
  | store (op : StoreOp K)

namespace Node

def newPeer (n : Node K Code) (peer : Peer Code) (e : Effect K Code) : Node K Code :=
  { n with
    peers := n.peers.set n.nextSerial peer
    nextSerial := n.nextSerial + 1
    log := n.log ++ [.on n.nextSerial e] }

omit [DecidableEq Code] in
theorem get?_newPeer {n : Node K Code} {peer peer' : Peer Code} {e : Effect K Code} {l : ℕ}
    (h : (n.newPeer peer e).peers.get? l = some peer') :
    l = n.nextSerial ∧ peer' = peer ∨ n.peers.get? l = some peer' := by
  change (n.peers.set n.nextSerial peer).get? l = some peer' at h
  exact (Dict.get?_of_set h).imp_right And.right

def settle (n : Node K Code) (serial : ℕ) (t : Turn K Code) : Node K Code :=
  { n with
    invite := t.invite
    certs := t.certs
    peers := n.peers.set serial t.peer
    log := n.log ++ t.out.map (.on serial) }

/-- A turn of a link that holds `peer`, on the arrival of a packet. -/
def turn (n : Node K Code) (peer : Peer Code) (packet : Packet K) : Turn K Code :=
  ⟨peer, n.invite, n.certs, [.received packet]⟩

def step (me : Local K Code) (n : Node K Code) (act : Env × Event K Code) : Node K Code :=
  let env := act.1
  match act.2 with
  | .generateCode code ttl =>
    { n with
      invite := n.invite.generateCode code ttl env.clock
      log := n.log ++ [.generated code env.clock (InviteManager.window ttl)] }
  | .liveCodes => { n with invite := (n.invite.liveCodes env.clock).2 }
  | .dial joinCode relayOnly relayed expectedId =>
    n.newPeer { isClientSide := true, relayOnly, relayed, joinCode, expectedId } (.dialled joinCode)
  | .accept relayed =>
    n.newPeer
      { isClientSide := false, relayOnly := false, relayed, joinCode := none, expectedId := none }
      .accepted
  | .greet serial challenge =>
    match n.peers.get? serial with
    | none => n
    | some peer =>
      { n with
        peers := n.peers.set serial { peer with pendingChallenge := some challenge }
        log := n.log ++ [.on serial (.sent ⟨me.id, broadcastId, .challenge challenge⟩)] }
  | .packet serial packet =>
    match n.peers.get? serial with
    | none => n
    | some peer => n.settle serial ((n.turn peer packet).handle me env packet)
  | .close serial => { n with peers := n.peers.pop serial }
  | .consoleAddRoot cert =>
    if !cert.isSelfSigned then n
    else { n with certs := ((n.certs.add cert env.stamp).2).addRoot cert.subjectId }
  | .store op => { n with certs := n.certs.step (env.stamp, op.op) }

end Node

omit [DecidableEq Code] in
theorem get?_settle {n : Node K Code} {l l' : ℕ} {t : Turn K Code} {peer' : Peer Code}
    (h : (n.settle l t).peers.get? l' = some peer') :
    l' = l ∧ peer' = t.peer ∨ l' ≠ l ∧ n.peers.get? l' = some peer' := by
  change (n.peers.set l t.peer).get? l' = some peer' at h
  exact Dict.get?_of_set h

end NMesh.Link.Handshake
