import NMesh.Base.Base32
import NMesh.Base.Chars
import NMesh.Base.JsonText
import NMesh.Base.Reading
import Mathlib.Algebra.Order.Floor.Ring
import Mathlib.Data.Rat.Floor

/-! # Join tickets

A ticket is one short string that carries where to connect and how to prove it: a byte of version and
flags, the endpoints the flags announce, the seed of the code, the expiry in minutes, and a checksum, in
base 32. `encode` writes version 2; `decode` also reads version 1.

Every step that can raise says so: `Raised.ticketError` is the `TicketError` a caller expects, `other`
stands for every other exception. The hash, the tables of `str` and the module `ipaddress` are parameters
(`World`). -/

namespace NMesh.Join.Codec

open NMesh.Base Base.BigEndian Base.Utf8 Base.Hex

/-! ### What a ticket rests on -/

/-- An IP address without a zone: four bytes, or sixteen. -/
structure Address where
  raw : Bytes
  len : raw.length = 4 ∨ raw.length = 16
  deriving DecidableEq

/-- `address.version == 6` -/
def Address.isV6 (a : Address) : Bool := decide (a.raw.length = 16)

/-- `str.upper` of an ASCII character. -/
def asciiUpper (c : ℕ) : ℕ := if 0x61 ≤ c ∧ c ≤ 0x7A then c - 0x20 else c

/-- The hash, `str.isspace` and `str.upper` by characters, and `ip_address` and `str` of addresses. -/
structure World where
  sha256 : Bytes → Bytes
  isSpace : ℕ → Bool
  upper : ℕ → Text
  parse : Text → Option Address
  str : Address → Text
  digest : ∀ data, (sha256 data).length = 32
  space_ascii : ∀ c < 0x80, isSpace c = Chars.asciiTables.isSpace c
  upper_ascii : ∀ c < 0x80, upper c = [asciiUpper c]
  parse_nil : parse [] = none
  parse_str : ∀ a, parse (str a) = some a

inductive Raised
  | ticketError (message : String)
  | other
  deriving DecidableEq

/-! ### Constants -/

def version : ℕ := 2

def legacyVersion : ℕ := 1

def flagDirect : ℕ := 1

def flagDirectV6 : ℕ := 2

def flagRelay : ℕ := 4

def flagRelayV6 : ℕ := 8

def seedBytes : ℕ := 8

def nodeBytes : ℕ := 20

def checkBytes : ℕ := 2

def maxText : ℕ := 128

def lengths (family : ℕ) : Option ℕ := if family = 4 then some 4 else if family = 6 then some 16 else none

variable (W : World)

def codeFromSeed (seed : Bytes) : Text := Base32.encode seed

def checksum (body : Bytes) : Bytes :=
  (W.sha256 ((ascii "nmesh-join-ticket-v1").map UInt8.ofNat ++ body)).take checkBytes

/-! ### Writing -/

/-- One address and port, packed, and whether it is IPv6. -/
def endpoint (host : Text) (port : ℤ) : Except Raised (Bytes × Bool) :=
  match W.parse host with
  | none => .error (.ticketError "a ticket needs a numeric IP address")
  | some address =>
    if 1 ≤ port ∧ port ≤ 65535 then .ok (address.raw ++ toBE 2 port.toNat, address.isV6)
    else .error (.ticketError "port out of range")

/-- The flags and the bytes of the inviter's own endpoint; no host, no endpoint. -/
def directPart (host : Text) (port : ℤ) : Except Raised (ℕ × Bytes) :=
  if host = [] then .ok (0, [])
  else (endpoint W host port).map fun packed =>
    (flagDirect ||| (if packed.2 then flagDirectV6 else 0), packed.1)

/-- The flags and the bytes of the relay's endpoint, with the inviter's node id. -/
def relayPart (relay : Option (Text × ℤ)) (nodeId : Bytes) : Except Raised (ℕ × Bytes) :=
  match relay with
  | none => .ok (0, [])
  | some r =>
    if nodeId.length ≠ nodeBytes then .error (.ticketError "a relayed ticket needs the inviter's node id")
    else (endpoint W r.1 r.2).map fun packed =>
      (flagRelay ||| (if packed.2 then flagRelayV6 else 0), packed.1 ++ nodeId)

def minutesOf (expiresAt : ℚ) : ℕ := (max 0 ⌊expiresAt / 60⌋).toNat

def encode (host : Text) (port : ℤ) (seed : Bytes) (expiresAt : ℚ) (relay : Option (Text × ℤ))
    (nodeId : Bytes) : Except Raised Text :=
  if seed.length ≠ seedBytes then .error (.ticketError "wrong seed length")
  else
    (directPart W host port).bind fun direct =>
    (relayPart W relay nodeId).bind fun relayed =>
    let flags := direct.1 ||| relayed.1
    if flags = 0 then .error (.ticketError "a ticket needs somewhere to connect")
    else if 256 ^ 4 ≤ minutesOf expiresAt then .error .other
    else
      let body := toBE 1 (version <<< 4 ||| flags) ++ (direct.2 ++ relayed.2) ++ seed ++
        toBE 4 (minutesOf expiresAt)
      .ok (Base32.encode (body ++ checksum W body))

/-! ### Reading -/

structure Ticket where
  uri : Text
  host : Text
  port : ℕ
  relayUri : Text
  relayHost : Text
  relayPort : ℕ
  node : Text
  code : Text
  expiresAt : ℕ
  expired : Bool
  deriving DecidableEq

/-- `tcp://host:port`, an IPv6 host in brackets. -/
def uri (host : Text) (port : ℕ) : Text :=
  if host = [] then []
  else
    let shown := if 0x3A ∈ host then ascii "[" ++ host ++ ascii "]" else host
    ascii "tcp://" ++ shown ++ ascii ":" ++ JsonText.digits port

/-- `_ticket`, at the time `clock`. -/
def ticket (clock : ℚ) (host : Text) (port : ℕ) (relayHost : Text) (relayPort : ℕ) (node seed : Bytes)
    (minutes : ℕ) : Ticket where
  uri := uri host port
  host := host
  port := port
  relayUri := uri relayHost relayPort
  relayHost := relayHost
  relayPort := relayPort
  node := if node = [] then [] else toHex node
  code := codeFromSeed seed
  expiresAt := minutes * 60
  expired := decide (((minutes * 60 : ℕ) : ℚ) < clock)

/-- `_Reader.take`: the bytes, and the position behind them. -/
def take (body : Bytes) (pos count : ℕ) : Except Raised (Bytes × ℕ) :=
  if (slice body pos count).length ≠ count then .error (.ticketError "this ticket is truncated")
  else .ok (slice body pos count, pos + count)

/-- `struct.unpack` of one number. -/
def unpack (width : ℕ) (piece : Bytes) : Except Raised ℕ :=
  if piece.length = width then .ok (ofBE piece) else .error .other

/-- `ipaddress.ip_address` of bytes. -/
def addressOf (piece : Bytes) : Except Raised Address :=
  if h : piece.length = 4 ∨ piece.length = 16 then .ok ⟨piece, h⟩ else .error .other

/-- `_Reader.endpoint`: the host, the port, and the position behind them. -/
def readEndpoint (body : Bytes) (pos size : ℕ) : Except Raised (Text × ℕ × ℕ) :=
  (take body pos size).bind fun packed =>
  (addressOf packed.1).bind fun address =>
  (take body packed.2 2).bind fun number =>
  (unpack 2 number.1).bind fun port =>
  if 1 ≤ port ∧ port ≤ 65535 then .ok (W.str address, port, number.2)
  else .error (.ticketError "port out of range")

def readEnd (body : Bytes) (pos : ℕ) : Except Raised (Bytes × ℕ) :=
  (take body pos seedBytes).bind fun seed =>
  (take body seed.2 4).bind fun packed =>
  (unpack 4 packed.1).map fun minutes => (seed.1, minutes)

def decodeV1 (clock : ℚ) (body : Bytes) (family : ℕ) : Except Raised Ticket :=
  match lengths family with
  | none => .error (.ticketError "unknown address family")
  | some size =>
    if body.length ≠ 1 + size + 2 + seedBytes + 4 then
      .error (.ticketError "this ticket is the wrong length")
    else
      (readEndpoint W body 1 size).bind fun direct =>
      (readEnd body direct.2.2).map fun last =>
      ticket clock direct.1 direct.2.1 [] 0 [] last.1 last.2

def flag (flags bit : ℕ) : Bool := decide (flags &&& bit ≠ 0)

def addressLen (isV6 : Bool) : ℕ := if isV6 then 16 else 4

/-- The direct endpoint, if the flags announce one, and the position behind it. -/
def readDirect (body : Bytes) (flags : ℕ) : Except Raised (Text × ℕ × ℕ) :=
  if flag flags flagDirect then readEndpoint W body 1 (addressLen (flag flags flagDirectV6))
  else .ok ([], 0, 1)

/-- The relay's endpoint and the node id, if the flags announce them, and the position behind them. -/
def readRelay (body : Bytes) (flags pos : ℕ) : Except Raised (Text × ℕ × Bytes × ℕ) :=
  if flag flags flagRelay then
    (readEndpoint W body pos (addressLen (flag flags flagRelayV6))).bind fun relay =>
    (take body relay.2.2 nodeBytes).map fun node => (relay.1, relay.2.1, node)
  else .ok ([], 0, [], pos)

def expectedLen (flags : ℕ) : ℕ :=
  1 + seedBytes + 4 + (if flag flags flagDirect then addressLen (flag flags flagDirectV6) + 2 else 0) +
    (if flag flags flagRelay then addressLen (flag flags flagRelayV6) + 2 + nodeBytes else 0)

def decodeV2 (clock : ℚ) (body : Bytes) (flags : ℕ) : Except Raised Ticket :=
  if !flag flags (flagDirect ||| flagRelay) then .error (.ticketError "this ticket points nowhere")
  else if body.length ≠ expectedLen flags then .error (.ticketError "this ticket is the wrong length")
  else
    (readDirect W body flags).bind fun direct =>
    (readRelay W body flags direct.2.2).bind fun relay =>
    (readEnd body relay.2.2.2).map fun last =>
    ticket clock direct.1 direct.2.1 relay.1 relay.2.1 relay.2.2.1 last.1 last.2

/-- The text without white space and hyphens, in capitals. -/
def clean (text : Text) : Text :=
  ((text.filter fun c => !W.isSpace c).filter (· ≠ 0x2D)).flatMap W.upper

def decode (clock : ℚ) (text : Text) : Except Raised Ticket :=
  let cleaned := clean W text
  if cleaned = [] then .error (.ticketError "empty ticket")
  else if maxText < cleaned.length then .error (.ticketError "too long to be a ticket")
  else
    match Base32.decode cleaned with
    | none => .error (.ticketError "this does not look like a ticket")
    | some raw =>
      if raw.length < 1 + 4 + 2 + seedBytes + 4 + checkBytes then
        .error (.ticketError "this ticket is truncated")
      else
        let body := raw.take (raw.length - checkBytes)
        if raw.drop (raw.length - checkBytes) ≠ checksum W body then
          .error (.ticketError "this ticket is mistyped or damaged")
        else
          match body with
          | [] => .error .other
          | first :: _ =>
            let number := first.toNat >>> 4
            let low := first.toNat &&& 0x0F
            if number = legacyVersion then decodeV1 W clock body low
            else if number ≠ version then
              .error (.ticketError s!"ticket version {number} is not supported")
            else decodeV2 W clock body low

end NMesh.Join.Codec
