import NMesh.E2e.Pair
import NMesh.Link.Roots
import Mathlib.Data.List.Infix

/-! # Honest nodes in a hostile network

Any number of honest nodes, each with its links and its end-to-end tables. The adversary is the network: any
packet may come in, at any time, under any identity. But a signature that verifies under an honest node's key was
made by that node, over that message (`Unforged`), and what is random at an honest node is new (`Allowed`).

`Greeted`, `Replied`, `E2eGreeted` and `E2eAnswered` are the four ways in which a node signs a nonce and an ML-KEM
message. -/

namespace NMesh.Auth.World

open Base.BigEndian NMesh.Cert.Identity
open NMesh.Link.Handshake NMesh.Link.Admission NMesh.Link.Roots NMesh.E2e NMesh.E2e.Pair

variable {K : Crypto} {Code : Type}

def e2eNonceLen : ℕ := 32

def kemPublicLen : ℕ := 1184
def kemCiphertextLen : ℕ := 1088

/-! ### A node -/

/-- The keys that a node uses end to end are those of its links. -/
def keys (me : Local K Code) : Session.Keys K := ⟨me.toIdentity, me.kemDecapsulate⟩

/-- What passes through a node end to end. -/
inductive Mail (K : Crypto)
  | received (packet : Session.Packet K)
  | did (effect : Session.Effect K)

structure Host (K : Crypto) (Code : Type) where
  link : Node K Code
  tables : Session.Tables
  mail : List (Mail K)
  /-- What else the node has signed. -/
  signed : List Bytes

inductive Deed (K : Crypto) (Code : Type)
  | link (env : Env) (event : Event K Code)
  | e2e (env : Session.Env K) (event : Session.Event K)
  /-- The node signs something else: a seek, a punch, a revocation, a document. -/
  | sign (message : Bytes)

def inbound : Session.Event K → Option (Session.Packet K)
  | .packet packet => some packet
  | _ => none

namespace Host

def step [DecidableEq Code] (me : Local K Code) (h : Host K Code) : Deed K Code → Host K Code
  | .link env event => { h with link := h.link.step me (env, event) }
  | .e2e env event =>
    let t := Session.act (keys me) env event h.tables
    { h with
      tables := t.tables
      mail := h.mail ++ ((inbound event).toList.map .received ++ t.out.map .did) }
  | .sign message => { h with signed := h.signed ++ [message] }

end Host

/-! ### What a node has given away -/

def entrySignature : Entry K Code → Option Bytes
  | .on _ (.sent ⟨_, _, .handshake (some hello)⟩) => some hello.signature
  | .on _ (.sent ⟨_, _, .handshakeAck (some answer)⟩) => some answer.signature
  | .on _ (.issued cert) => some cert.signature
  | _ => none

def entryChallenge : Entry K Code → Option Bytes
  | .on _ (.sent ⟨_, _, .challenge challenge⟩) => some challenge
  | _ => none

def packetSignature (packet : Session.Packet K) : Option Bytes :=
  match packet.body with
  | .handshake (some hello) => some hello.signature
  | .handshakeAck (some answer) => some answer.signature
  | _ => none

def helloNonce (packet : Session.Packet K) : Option Bytes :=
  match packet.body with
  | .handshake (some hello) => some hello.nonce
  | _ => none

def ofSent {α : Type} (f : Session.Packet K → Option α) : Mail K → Option α
  | .did (.sent packet) => f packet
  | _ => none

namespace Host

variable (h : Host K Code)

def signatures (me : Local K Code) : List Bytes :=
  h.link.log.filterMap entrySignature ++
    (h.mail.filterMap (ofSent packetSignature) ++ h.signed.map me.sign)

def challenges : List Bytes := h.link.log.filterMap entryChallenge

def nonces : List Bytes := h.mail.filterMap (ofSent helloNonce)

end Host

/-! ### The four ways to sign a nonce -/

section Ways

variable (me : Local K Code) (kem : Kem) (h : Host K Code) (challenge : Bytes)

/-- The node dialled a link, was challenged on it, and answered with a HANDSHAKE of this ML-KEM key. -/
def Greeted (kemPub : Bytes) : Prop :=
  ∃ l code dst hello, .on l (.dialled code) ∈ h.link.log ∧ Heard l challenge h.link.log ∧
    .on l (.sent ⟨me.id, dst, .handshake (some hello)⟩) ∈ h.link.log ∧ hello.kemPub = kemPub ∧
      hello.signature = me.sign (challenge ++ kemPub ++ me.dsaPublicKey)

/-- The node challenged a link, and sent a HANDSHAKE_ACK of this ciphertext on it. -/
def Replied (ciphertext : Bytes) : Prop :=
  ∃ l dst answer, .on l (.sent ⟨me.id, broadcastId, .challenge challenge⟩) ∈ h.link.log ∧
    .on l (.sent ⟨me.id, dst, .handshakeAck (some answer)⟩) ∈ h.link.log ∧
      answer.ciphertext = ciphertext ∧
        answer.signature = me.sign (challenge ++ ciphertext ++ me.dsaPublicKey)

/-- The node sent an E2E_HANDSHAKE of this nonce and this ML-KEM key. -/
def E2eGreeted (kemPub : Bytes) : Prop :=
  ∃ dst hello, .did (.sent ⟨me.id, dst, .handshake (some hello)⟩) ∈ h.mail ∧
    hello.nonce = challenge ∧ hello.kemPub = kemPub

/-- The node answered an E2E_HANDSHAKE of this nonce, filed or parked the key of this ciphertext under the
node that the handshake named, and told that node. -/
def E2eAnswered (ciphertext : Bytes) : Prop :=
  ∃ x dst hello answer, .received ⟨x, dst, .handshake (some hello)⟩ ∈ h.mail ∧
    hello.nonce = challenge ∧ hello.kemPub = kem.target ciphertext ∧
    (.did (.filed x (kem.shared ciphertext)) ∈ h.mail ∨
      .did (.parked x (kem.shared ciphertext)) ∈ h.mail) ∧
    .did (.sent ⟨me.id, x, .handshakeAck (some answer)⟩) ∈ h.mail ∧
      answer.nonce = challenge ∧ answer.ciphertext = ciphertext

variable {me} {kem} {h} {h' : Host K Code} {challenge}

theorem heard_mono {l : ℕ} {log log' : List (Entry K Code)} (hheard : Heard l challenge log)
    (hsub : log ⊆ log') : Heard l challenge log' := by
  obtain ⟨src, dst, hmem⟩ := hheard
  exact ⟨src, dst, hsub hmem⟩

theorem Greeted.mono {kemPub : Bytes} (hg : Greeted me h challenge kemPub)
    (hsub : h.link.log ⊆ h'.link.log) : Greeted me h' challenge kemPub := by
  obtain ⟨l, code, dst, hello, hdialled, hheard, hsent, hrest⟩ := hg
  exact ⟨l, code, dst, hello, hsub hdialled, heard_mono hheard hsub, hsub hsent, hrest⟩

theorem E2eGreeted.mono {kemPub : Bytes} (hg : E2eGreeted me h challenge kemPub)
    (hsub : h.mail ⊆ h'.mail) : E2eGreeted me h' challenge kemPub := by
  obtain ⟨dst, hello, hsent, hrest⟩ := hg
  exact ⟨dst, hello, hsub hsent, hrest⟩

theorem E2eAnswered.mono {ciphertext : Bytes} (ha : E2eAnswered me kem h challenge ciphertext)
    (hsub : h.mail ⊆ h'.mail) : E2eAnswered me kem h' challenge ciphertext := by
  obtain ⟨x, dst, hello, answer, hreceived, hn, htarget, hkey, hsent, hrest⟩ := ha
  exact ⟨x, dst, hello, answer, hsub hreceived, hn, htarget, hkey.imp (@hsub _) (@hsub _), hsub hsent, hrest⟩

end Ways

/-! ### The world -/

section World

variable [DecidableEq Code] {ι : Type} [DecidableEq ι] (me : ι → Local K Code) (kem : Kem)

def step (w : ι → Host K Code) (a : ι × Deed K Code) : ι → Host K Code :=
  Function.update w a.1 ((w a.1).step (me a.1) a.2)

/-- **Nobody signs for an honest node**: what verifies under its key, it has signed. -/
def Unforged (w : ι → Host K Code) (signature : Bytes) : Prop :=
  ∀ j message, K.verify message signature (me j).dsaPublicKey = true →
    (me j).sign message ∈ (w j).signatures (me j)

def linkSignature (packet : Packet K) : Option Bytes :=
  match packet.body with
  | .handshake (some hello) => some hello.signature
  | .handshakeAck (some answer) => some answer.signature
  | _ => none

/-- What may happen: no signature that comes in is forged, a challenge and a nonce are new, and of their
length. What else a node signs does not end with its own key. -/
def Allowed (w : ι → Host K Code) (a : ι × Deed K Code) : Prop :=
  match a.2 with
  | .link _ (.greet _ challenge) => challenge.length = challengeLen ∧
      ∀ j, challenge ∉ (w j).challenges ∧ challenge ∉ (w j).nonces
  | .link _ (.packet _ packet) => ∀ signature ∈ linkSignature packet, Unforged me w signature
  | .link _ _ => True
  | .e2e env event => env.urandom.length = e2eNonceLen ∧ (∀ j, env.urandom ∉ (w j).challenges) ∧
      ∀ packet ∈ inbound event, (∀ nonce ∈ nonceOf packet, nonce.length = e2eNonceLen) ∧
        ∀ signature ∈ packetSignature packet, Unforged me w signature
  | .sign message => ¬ (me a.1).dsaPublicKey <:+ message

/-- A fresh ML-KEM pair belongs together; a ciphertext is for the key and carries the secret that come with
it; everything has its length. -/
structure KemCall (kemPair : Bytes × Bytes) (encapsulate : Bytes → Option (Bytes × Bytes)) : Prop where
  pair : kemPair.1 = kem.publicOf kemPair.2
  publicLen : kemPair.1.length = kemPublicLen
  encapsulates : ∀ kemPub ciphertext shared, encapsulate kemPub = some (ciphertext, shared) →
    kemPub.length = kemPublicLen ∧ ciphertext.length = kemCiphertextLen ∧
      kem.target ciphertext = kemPub ∧ kem.shared ciphertext = shared

def KemIdeal : Deed K Code → Prop
  | .link env _ => KemCall kem env.kemPair env.kemEncapsulate
  | .e2e env _ => KemCall kem env.kemPair env.kemEncapsulate
  | .sign _ => True

/-- The honest nodes' own cryptography: a node id names one key, a signature is for one message, a key does
not overlap itself where the times of a certificate stand, and ML-KEM opens what is for its key, and
nothing of another length. -/
structure Lawful : Prop where
  names : ∀ i pub, K.fromPublicKey pub = (me i).id → pub = (me i).dsaPublicKey
  binds : ∀ i, Function.Injective (me i).sign
  apart : ∀ i (times : Bytes), times.length = 16 →
    ¬ (me i).dsaPublicKey <:+ (me i).dsaPublicKey ++ times
  opens : ∀ i, Opens kem (keys (me i))
  sized : ∀ i ciphertext secret shared, (me i).kemDecapsulate ciphertext secret = some shared →
    ciphertext.length = kemCiphertextLen

def newHost (certs : NMesh.Cert.Store.CertStore K) : Host K Code where
  link := start certs
  tables := ⟨.empty, .empty, .empty, .empty, .empty, .empty, .empty⟩
  mail := []
  signed := []

end World

end NMesh.Auth.World
