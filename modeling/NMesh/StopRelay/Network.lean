import NMesh.StopRelay.Rules
import NMesh.Base.Runs
import Mathlib.Algebra.Order.Floor.Semiring
import Mathlib.Logic.Function.Basic

/-! # A network of nodes that stop relaying

Any number of nodes, all of them running this code. Routed packets and requests are under way between
them: a packet has the time at which its sender let it through, a request the time at which it was sent.
Every node reads the same clock. What a node thinks of the others, which links have announced the plane and
where a packet goes next is arbitrary. -/

namespace NMesh.StopRelay.Network

open Base.BigEndian NMesh.Cert.Identity
open NMesh.StopRelay.Record NMesh.StopRelay.Rules
open NMesh.Directory.PseudoDir (Primitives)

inductive Body
  | packet (src dst : NodeID)
  | request (record : Bytes)
  deriving DecidableEq

/-- What is under way from one node to another. -/
structure Message (ι R : Type) where
  sender : ι
  receiver : ι
  at_ : R
  body : Body
  deriving DecidableEq

structure Net (ι R : Type) where
  now : R
  stops : ι → Stops R
  flight : List (Message ι R)
  /-- Who has reported whom. -/
  reports : List (ι × NodeID)

inductive Action (ι R : Type)
  /-- Time passes. -/
  | wait (d : R)
  /-- A node sends a packet of its own. -/
  | originate (node next : ι) (dst : NodeID)
  /-- A packet comes in: has the link announced the plane, is its source suspect, is what is sent in answer
  really sent, and where does it go next? -/
  | arrive (m : Message ι R) (announces isSuspect sends : Bool) (next : Option ι)
  /-- A packet is lost, or dropped. -/
  | lose (m : Message ι R)
  /-- A request comes in; it is dropped if the node does not serve its sender. -/
  | serve (m : Message ι R) (tarpit : Bool)

variable {ι R : Type} [DecidableEq ι] [Field R] [LinearOrder R] [FloorSemiring R]
variable (P : Primitives) (me : ι → Local)

def clock (now : R) : Clock R := ⟨now, now, ⌊now⌋₊⟩

/-- The records that are sent to the other end of a link. -/
def answers (here there : ι) (now : R) (effects : List Effect) : List (Message ι R) :=
  effects.filterMap fun
    | .send _ record => some ⟨here, there, now, .request record⟩
    | .report _ => none

def step (n : Net ι R) : Action ι R → Net ι R
  | .wait d => { n with now := n.now + d }
  | .originate node next dst =>
    { n with flight := n.flight ++ [⟨node, next, n.now, .packet (me node).id dst⟩] }
  | .arrive m announces isSuspect sends next =>
    match m.body with
    | .request _ => n
    | .packet src dst =>
      let here := m.receiver
      let (refused, stops, effects) := (n.stops here).refuseRouted P (me here) (clock n.now)
        (me m.sender).id announces isSuspect src dst
      let sent := if sends then answers here m.sender n.now effects else []
      let passed := if refused = true ∨ dst = (me here).id then []
        else next.toList.map fun there => ⟨here, there, n.now, .packet src dst⟩
      { n with
        stops := Function.update n.stops here stops
        flight := n.flight.erase m ++ (sent ++ passed)
        reports := n.reports ++ (reported effects).map fun via => (here, via) }
  | .lose m => { n with flight := n.flight.erase m }
  | .serve m tarpit =>
    match m.body with
    | .packet _ _ => n
    | .request record =>
      let here := m.receiver
      let stops := if tarpit then n.stops here
        else (n.stops here).handleStopRelay P (me here) (clock n.now) (me m.sender).id.raw record
      { n with stops := Function.update n.stops here stops, flight := n.flight.erase m }

def Message.IsRequest (m : Message ι R) : Prop := ∃ record, m.body = .request record

def Message.record (m : Message ι R) : Option Bytes :=
  match m.body with
  | .packet _ _ => none
  | .request record => some record

def quiet (now : R) : Net ι R := ⟨now, fun _ => .empty, [], []⟩

/-- What may happen: links are between two nodes, what comes in is under way, requests are not lost, and are
delivered within the grace period. -/
def Allowed (n : Net ι R) : Action ι R → Prop
  | .wait d => 0 ≤ d ∧ ∀ m ∈ n.flight, m.IsRequest → n.now + d ≤ m.at_ + stopRelayGrace
  | .originate node next _ => node ≠ next
  | .arrive m _ _ _ next => m ∈ n.flight ∧ ¬ m.IsRequest ∧ next ≠ some m.receiver
  | .lose m => m ∈ n.flight ∧ ¬ m.IsRequest
  | .serve m _ => m ∈ n.flight ∧ m.IsRequest

/-- The nodes' own keys: a node id is the id of its key and of no other node, its signatures verify, and a
record of it can be read. -/
structure Lawful : Prop where
  names : ∀ i, P.fromPublicKey (me i).dsaPublicKey = (me i).id
  apart : ∀ i j, (me i).id = (me j).id → i = j
  verifies : ∀ i message, P.verify message ((me i).sign message) (me i).dsaPublicKey = true
  pubLen : ∀ i, (me i).dsaPublicKey.length ≤ maxPubkey
  sigLen : ∀ i message, ((me i).sign message).length ≤ maxSig
  small : ∀ i message, headerSize + (me i).dsaPublicKey.length + ((me i).sign message).length ≤
    stopRelayMax

end NMesh.StopRelay.Network
