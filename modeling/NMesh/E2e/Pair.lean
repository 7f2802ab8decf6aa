import NMesh.Base.Runs
import NMesh.E2e.Outcome

/-! # Two ends and a lossy network

Two nodes with end-to-end handlers, and a network that forges nothing but loses, duplicates, delays and
reorders. ML-KEM is ideal (`Kem`, `Ideal`): a ciphertext carries one secret, for one key.

The keys of two live ends can be reconciled (`Healed`) if they are equal or one end has the other's
parked. `Keeps` says that a step gives no key up that the other end has, or takes. -/

namespace NMesh.E2e.Pair

open Base.Runs Base.BigEndian Base.Ordered NMesh.Cert.Identity NMesh.E2e.Session
open NMesh.E2e.Outcome

variable {K : Crypto}

inductive End
  | a
  | b
  deriving DecidableEq

def End.other : End → End
  | a => b
  | b => a

@[simp] theorem End.other_other (e : End) : e.other.other = e := by cases e <;> rfl

theorem End.other_ne (e : End) : e.other ≠ e := by cases e <;> simp [End.other]

theorem End.eq_or (e x : End) : x = e ∨ x = e.other := by cases e <;> cases x <;> simp [End.other]

instance decidableEnds (p : End → Prop) [∀ e, Decidable (p e)] : Decidable (∀ e, p e) :=
  decidable_of_iff (p .a ∧ p .b) ⟨fun h e => by cases e; exacts [h.1, h.2], fun h => ⟨h .a, h .b⟩⟩

/-- The two ends and the packets in flight. Each end has its own monotonic clock. -/
structure World (K : Crypto) where
  tables : End → Tables
  clock : End → ℚ
  flight : List (Packet K)

inductive Act
  | sendData (e : End) (payload : Bytes)
  | pruneAttempts (e : End)
  | retry (e : End)
  /-- The packet in this place arrives. -/
  | deliver (i : ℕ)
  | duplicate (i : ℕ)
  | lose (i : ℕ)
  | tick (e : End) (d : ℚ)

section World

variable (keys : End → Keys K)

def peer (e : End) : NodeID := (keys e.other).id

def dest (p : Packet K) : End := if p.dstId = (keys .a).id then .a else .b

namespace World

/-- The world after a turn at one end: what it sends joins the packets left in flight. -/
def put (w : World K) (e : End) (t : Turn K) (flight : List (Packet K)) : World K :=
  { w with
    tables := Function.update w.tables e t.tables
    flight := flight ++ t.out.filterMap sent }

def settle (w : World K) (e : End) (env : Env K) (event : Event K) (flight : List (Packet K)) :
    World K :=
  w.put e (act (keys e) { env with monotonic := w.clock e } event (w.tables e)) flight

def step (w : World K) (a : Env K × Act) : World K :=
  match a.2 with
  | .sendData e payload => w.settle keys e a.1 (.sendData (peer keys e) payload) w.flight
  | .pruneAttempts e => w.settle keys e a.1 .pruneAttempts w.flight
  | .retry e => w.settle keys e a.1 (.retry (peer keys e)) w.flight
  | .deliver i =>
    match w.flight[i]? with
    | none => w
    | some p => w.settle keys (dest keys p) a.1 (.packet p) (w.flight.eraseIdx i)
  | .duplicate i => { w with flight := w.flight ++ w.flight[i]?.toList }
  | .lose i => { w with flight := w.flight.eraseIdx i }
  | .tick e d => { w with clock := Function.update w.clock e (w.clock e + d) }

def live (w : World K) (e : End) : Option Bytes := Outcome.live (w.tables e) (peer keys e)

def nonce (w : World K) (e : End) : Option Bytes := Outcome.nonce (w.tables e) (peer keys e)

def cand (w : World K) (e : End) : Option (Bytes × ℚ) := Outcome.cand (w.tables e) (peer keys e)

def Attempt (w : World K) (e : End) (n secret : Bytes) : Prop :=
  Outcome.Attempt (w.tables e) (peer keys e) n secret

def Parked (w : World K) (e : End) (key : Bytes) : Prop :=
  ∃ exp, w.cand keys e = some (key, exp) ∧ w.clock e < exp

def Holds (w : World K) (e : End) (key : Bytes) : Prop := w.live keys e = some key ∨ w.Parked keys e key

/-- **Two live ends can be reconciled**: their keys are equal, or one has the other's parked. -/
def Healed (w : World K) : Prop :=
  ∀ e key key', w.live keys e = some key → w.live keys e.other = some key' →
    key = key' ∨ w.Parked keys e key' ∨ w.Parked keys e.other key

/-! ### What is in flight -/

def SaysHello (w : World K) (e : End) (n kemPub : Bytes) : Prop :=
  ∃ dst hello, ⟨(keys e).id, dst, .handshake (some hello)⟩ ∈ w.flight ∧ hello.nonce = n ∧
    hello.kemPub = kemPub

def SaysAnswer (w : World K) (e : End) (n ciphertext : Bytes) : Prop :=
  ∃ dst answer, ⟨(keys e).id, dst, .handshakeAck (some answer)⟩ ∈ w.flight ∧ answer.nonce = n ∧
    answer.ciphertext = ciphertext

def SaysData (w : World K) (e : End) (key : Bytes) : Prop :=
  ∃ dst payload, ⟨(keys e).id, dst, .data payload⟩ ∈ w.flight ∧ payload.session = key

end World

/-! ### What the world promises -/

def nonceOf (p : Packet K) : Option Bytes :=
  match p.body with
  | .handshake (some hello) => some hello.nonce
  | .handshakeAck (some answer) => some answer.nonce
  | _ => none

def sessionOf (p : Packet K) : Option Bytes :=
  match p.body with
  | .data payload => some payload.session
  | _ => none

/-- An ideal ML-KEM: the public key of a secret, the public key that a ciphertext is for and the shared
secret that it carries. -/
structure Kem where
  publicOf : Bytes → Bytes
  target : Bytes → Bytes
  shared : Bytes → Bytes

variable (kem : Kem)

def Opens (me : Keys K) : Prop :=
  ∀ ciphertext secret, kem.target ciphertext = kem.publicOf secret →
    me.kemDecapsulate ciphertext secret = some (kem.shared ciphertext)

/-- The bytes are the nonce of nothing in flight and of no attempt. -/
def NewNonce (w : World K) (n : Bytes) : Prop :=
  (∀ p ∈ w.flight, nonceOf p ≠ some n) ∧ ∀ e, w.nonce keys e ≠ some n ∧
    (w.tables e).e2eReplacedKem.get? (peer keys e, n) = none

/-- The bytes are nobody's live key, and no data in flight is sealed under them. -/
def NewKey (w : World K) (key : Bytes) : Prop :=
  (∀ e, w.live keys e ≠ some key) ∧ ∀ p ∈ w.flight, sessionOf p ≠ some key

/-- Random bytes are new, and ML-KEM is ideal: the pair belongs together, a ciphertext is for the key and
carries the secret that come with it, and the secret is new. -/
structure Ideal (w : World K) (a : Env K × Act) : Prop where
  nonce : NewNonce keys w a.1.urandom
  pair : a.1.kemPair.1 = kem.publicOf a.1.kemPair.2
  encapsulates : ∀ kemPub ciphertext shared,
    a.1.kemEncapsulate kemPub = some (ciphertext, shared) →
      kem.target ciphertext = kemPub ∧ kem.shared ciphertext = shared ∧ NewKey keys w shared

def Answered (w : World K) (e : End) (env : Env K) (hello : Hello K) : Prop :=
  Turn.helloChecks env (peer keys e) hello = true ∧
    Turn.glare (keys e) (peer keys e) (w.tables e) = false ∧
      (env.chainOf (keys e).id).isSome ∧ (env.kemEncapsulate hello.kemPub).isSome

def Taken (w : World K) (e : End) (env : Env K) (answer : Answer K) : Prop :=
  ((w.tables e).e2eAttemptSecret (peer keys e) answer.nonce (w.clock e)).1.isSome ∧
    Turn.answerChecks env (peer keys e) answer = true

/-- When the candidate of this end runs out, where it is the key that the other has live, and its own is
another. -/
def wanted (w : World K) (e : End) : Option ℚ :=
  (w.cand keys e).bind fun v =>
    if w.live keys e.other = some v.1 ∧ w.live keys e ≠ some v.1 then some v.2 else none

/-- A packet gives no key up: no handshake is answered over a wanted candidate, and an answer is taken only
while the end that gave it holds its key. -/
def KeepsAt (w : World K) (e : End) (env : Env K) : Body K → Prop
  | .handshake (some hello) => Answered keys w e env hello → wanted keys w e = none
  | .handshakeAck (some answer) =>
    Taken keys w e env answer → w.Holds keys e.other (kem.shared answer.ciphertext)
  | _ => True

/-- **No key is given up that the other end has, or takes**, by a packet or with time. -/
def Keeps (w : World K) (a : Env K × Act) : Prop :=
  match a.2 with
  | .tick e d => ∀ exp ∈ wanted keys w e, w.clock e + d < exp
  | .deliver i => ∀ p ∈ w.flight[i]?, KeepsAt keys kem w (dest keys p) a.1 p.body
  | _ => True

/-! ### They can be decided -/

section Decidable

variable (w : World K) (e : End) (env : Env K)

instance (key : Bytes) : Decidable (w.Parked keys e key) :=
  decidable_of_iff (∃ v ∈ w.cand keys e, v.1 = key ∧ w.clock e < v.2)
    ⟨fun ⟨v, hv, hk, hexp⟩ => ⟨v.2, hk ▸ hv, hexp⟩, fun ⟨exp, hv, hexp⟩ => ⟨(key, exp), hv, rfl, hexp⟩⟩

instance (key : Bytes) : Decidable (w.Holds keys e key) := inferInstanceAs (Decidable (_ ∨ _))

instance (n : Bytes) : Decidable (NewNonce keys w n) := inferInstanceAs (Decidable (_ ∧ _))

instance (key : Bytes) : Decidable (NewKey keys w key) := inferInstanceAs (Decidable (_ ∧ _))

instance (hello : Hello K) : Decidable (Answered keys w e env hello) :=
  inferInstanceAs (Decidable (_ ∧ _))

instance (answer : Answer K) : Decidable (Taken keys w e env answer) :=
  inferInstanceAs (Decidable (_ ∧ _))

instance : ∀ body : Body K, Decidable (KeepsAt keys kem w e env body)
  | .handshake (some _) => inferInstanceAs (Decidable (_ → _))
  | .handshakeAck (some _) => inferInstanceAs (Decidable (_ → _))
  | .handshake none => .isTrue trivial
  | .handshakeAck none => .isTrue trivial
  | .data _ => .isTrue trivial

instance (a : Env K × Act) : Decidable (Keeps keys kem w a) :=
  match a with
  | (_, .tick _ _) => inferInstanceAs (Decidable (∀ exp ∈ _, _))
  | (_, .deliver _) => inferInstanceAs (Decidable (∀ p ∈ _, _))
  | (_, .sendData _ _) => .isTrue trivial
  | (_, .pruneAttempts _) => .isTrue trivial
  | (_, .retry _) => .isTrue trivial
  | (_, .duplicate _) => .isTrue trivial
  | (_, .lose _) => .isTrue trivial

end Decidable

/-! ### A start -/

/-- The tables of an end that holds an older session, or not. -/
def older (old : Bytes) (held : End → Bool) (e : End) : Tables where
  e2eSessions := if held e then Dict.empty.set (peer keys e) old else Dict.empty
  e2ePendingKem := .empty
  e2ePendingNonce := .empty
  e2ePendingData := .empty
  e2eAttempt := .empty
  e2eRekey := .empty
  e2eReplacedKem := .empty

/-- Each end has the older session or has lost it, and nothing is in flight. -/
def start (old : Bytes) (held : End → Bool) (clock : End → ℚ) : World K where
  tables := older keys old held
  clock := clock
  flight := []

end World

end NMesh.E2e.Pair
