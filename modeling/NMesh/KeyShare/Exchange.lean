import NMesh.KeyShare.Message
import NMesh.Base.Allowance
import NMesh.Base.Hex

/-! # The tables of a key handover

A node holds the offers made to it (`offersIn`), its own offers with the secrets they are about
(`offersOut`), and what it has accepted (`accepts`). Every row has a deadline, and every table forgets its
first rows when it has too many. The handlers take a message apart, and the operator offers, accepts and
refuses. -/

namespace NMesh.KeyShare.Exchange

open Base.BigEndian Base.Utf8 Base.Hex Base.Ordered Base.Allowance
open NMesh.Cert.Identity NMesh.KeyShare.Message

variable {R : Type} [Field R] [LinearOrder R] (P : Suite)

def keyShareWindow : R := 60
def keyShareMax : ℕ := 8
def maxPeers : ℕ := 128
def maxKeyOffers : ℕ := 8

/-- A node and its own keys. -/
structure Local where
  id : NodeID
  dsaPublicKey : Bytes
  sign : Bytes → Bytes
  kemDecapsulate : Bytes → Bytes → Option Bytes

/-- What a call reads from outside: the two clocks, the random bytes, ML-KEM, and whether the key store
can write. -/
structure Env (R : Type) where
  now : R
  time : ℕ
  urandom : Bytes
  kemPair : Bytes × Bytes
  kemEncapsulate : Bytes → Option (Bytes × Bytes)
  writes : Bool

/-- An offer made to this node. -/
structure Incoming (R : Type) where
  fromId : NodeID
  publisher : Bytes
  label : Text
  deadline : R
  deriving DecidableEq

/-- An offer of this node, with the secret. -/
structure Outgoing (R : Type) where
  toId : NodeID
  publisher : Bytes
  secret : Bytes
  label : Text
  deadline : R
  deriving DecidableEq

/-- An offer that the operator has accepted. -/
structure Awaited (R : Type) where
  fromId : NodeID
  publisher : Bytes
  label : Text
  kemSecret : Bytes
  passphrase : Text
  deadline : R
  deriving DecidableEq

structure Tables (R : Type) where
  rate : Counts Bytes R
  offersIn : Dict Bytes (Incoming R)
  offersOut : Dict Bytes (Outgoing R)
  accepts : Dict Bytes (Awaited R)
  deriving DecidableEq

inductive Kind
  | offer
  | accept
  | grant
  deriving DecidableEq

structure Packet where
  kind : Kind
  src : NodeID
  dst : NodeID
  payload : Bytes
  deriving DecidableEq

/-- What happens in a call. -/
inductive Event (R : Type)
  | sent (packet : Packet)
  | received (src : NodeID) (offer : Offer)
  | offered (offerId : Bytes) (row : Outgoing R)
  | accepted (offerId : Bytes) (row : Awaited R) (kemPublic : Bytes) (ts : ℕ)
  /-- The secret was sealed to this ML-KEM key. -/
  | granted (offerId : Bytes) (row : Outgoing R) (kemPublic : Bytes)
  /-- The secret was written to the key store, under the row's passphrase. -/
  | kept (offerId : Bytes) (row : Awaited R) (secret : Bytes)
  deriving DecidableEq

/-- What a call leaves: the tables, what happened, and whether the link was charged with abuse. -/
structure Turn (R : Type) where
  tables : Tables R
  out : List (Event R)
  charged : Bool

namespace Tables

def empty : Tables R := ⟨.empty, .empty, .empty, .empty⟩

/-- Forget what has run out of time, in all three directions. -/
def sweep (t : Tables R) (now : R) : Tables R :=
  { t with
    offersIn := t.offersIn.filterVal fun row => now < row.deadline
    offersOut := t.offersOut.filterVal fun row => now < row.deadline
    accepts := t.accepts.filterVal fun row => now < row.deadline }

/-- File a row, and forget the first rows if there are too many. -/
def remember {ν : Type} (table : Dict Bytes ν) (offerId : Bytes) (row : ν) : Dict Bytes ν :=
  let table := table.set offerId row
  Dict.makeRoom (maxKeyOffers + 1) table.size table

def keyShareAllowed (t : Tables R) (peer : Bytes) (now : R) : Bool × Counts Bytes R :=
  allowed keyShareWindow keyShareMax maxPeers t.rate peer now

end Tables

def quiet (t : Tables R) : Turn R := ⟨t, [], false⟩

def charge (t : Tables R) : Turn R := ⟨t, [], true⟩

section Handlers

variable (me : Local) (env : Env R)

def onOffer (src : NodeID) (payload : Bytes) (t : Tables R) : Turn R :=
  match parseOffer P payload src me.id with
  | none => charge t
  | some offer =>
    -- already waiting for a human
    if offer.offerId ∈ t.offersIn.keys then quiet t
    else
      let row : Incoming R := ⟨src, offer.publisher, offer.label, env.now + offerTtl⟩
      ⟨{ t with offersIn := Tables.remember t.offersIn offer.offerId row }, [.received src offer], false⟩

def onAccept (payload : Bytes) (t : Tables R) : Turn R :=
  match acceptOfferId payload with
  | none => charge t
  | some offerId =>
    match t.offersOut.get? offerId with
    | none => quiet t
    | some pending =>
      match parseAccept P payload pending.toId me.id with
      | none => charge t
      | some accept =>
        match sealGrant P offerId me.id pending.toId pending.publisher pending.secret accept.kemPublic
            env.kemEncapsulate env.urandom with
        | none => quiet t
        | some grant =>
          ⟨{ t with offersOut := t.offersOut.pop offerId },
            [.granted offerId pending accept.kemPublic, .sent ⟨.grant, me.id, pending.toId, grant⟩], false⟩

def onGrant (payload : Bytes) (t : Tables R) : Turn R :=
  match grantOfferId payload with
  | none => charge t
  | some offerId =>
    match t.accepts.get? offerId with
    | none => quiet t
    | some pending =>
      match openGrant P payload pending.fromId me.id pending.publisher pending.kemSecret
          me.kemDecapsulate with
      | none => charge t
      | some secret =>
        let t := { t with accepts := t.accepts.pop offerId }
        if fromPair P pending.publisher secret ∧ env.writes then
          ⟨t, [.kept offerId pending secret], false⟩
        else quiet t

/-- The three handlers, behind the rate limit and after the sweep. -/
def handle (kind : Kind) (peer : Bytes) (src : NodeID) (payload : Bytes) (t : Tables R) : Turn R :=
  let (isAllowed, rate) := t.keyShareAllowed peer env.now
  let t := { t with rate := rate }
  if !isAllowed then quiet t
  else
    match kind with
    | .offer => onOffer P me env src payload (t.sweep env.now)
    | .accept => onAccept P me env payload (t.sweep env.now)
    | .grant => onGrant P me env payload (t.sweep env.now)

/-! ### The operator -/

/-- Offer a publisher key to one node; `pair` is the key that was unlocked, if it was. -/
def offerPublisherKey (target : NodeID) (pair : Option (Bytes × Bytes)) (label : Text)
    (t : Tables R) : Turn R :=
  if target = me.id then quiet t
  else
    match pair with
    | none => quiet t
    | some (publicKey, secret) =>
      if !fromPair P publicKey secret then quiet t
      else
        match buildOffer env.urandom me.id target publicKey (P.signWith secret) label env.time with
        | none => quiet t
        | some offer =>
          let t := t.sweep env.now
          let row : Outgoing R := ⟨target, publicKey, secret, label, env.now + offerTtl⟩
          ⟨{ t with offersOut := Tables.remember t.offersOut env.urandom row },
            [.offered env.urandom row, .sent ⟨.offer, me.id, target, offer⟩], false⟩

/-- Accept an offered key, to be kept under our own passphrase. -/
def acceptPublisherKey (offerIdHex passphrase : Text) (t : Tables R) : Turn R :=
  if passphrase = [] then quiet t
  else
    let t := t.sweep env.now
    match fromHex offerIdHex with
    | none => quiet t
    | some offerId =>
      match t.offersIn.get? offerId with
      | none => quiet t
      | some offer =>
        let t := { t with offersIn := t.offersIn.pop offerId }
        match buildAccept offerId me.id offer.fromId env.kemPair.1 me.dsaPublicKey me.sign env.time with
        | none => quiet t
        | some accept =>
          let row : Awaited R := ⟨offer.fromId, offer.publisher, offer.label, env.kemPair.2, passphrase,
            env.now + offerTtl⟩
          ⟨{ t with accepts := Tables.remember t.accepts offerId row },
            [.accepted offerId row env.kemPair.1 env.time, .sent ⟨.accept, me.id, offer.fromId, accept⟩],
            false⟩

def refusePublisherKey (offerIdHex : Text) (t : Tables R) : Turn R :=
  match fromHex offerIdHex with
  | none => quiet t
  | some offerId => quiet { t with offersIn := t.offersIn.pop offerId }

def keyShareOverview (t : Tables R) : Turn R := quiet (t.sweep env.now)

end Handlers

end NMesh.KeyShare.Exchange
