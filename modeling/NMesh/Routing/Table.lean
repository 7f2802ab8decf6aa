import NMesh.Base.JsonText
import NMesh.Base.TopK
import NMesh.Cert.Identity
import NMesh.Routing.Address
import Mathlib.Algebra.Order.Ring.Rat
import Mathlib.Data.Nat.Bitwise

/-! # The routing table

`RoutingTable` files nodes in 160 buckets by the XOR distance from this node, each at most `K` entries,
the one heard from longest ago first. It also remembers which address of a node answered as somebody
else (`Wrong`): the address is held against the node for a while, twice as long at each strike.

`now` is the clock's reading, one for each call. -/

namespace NMesh.Routing.Table

open Base.BigEndian Base.Utf8 Base.Hex Base.JsonText Base.Ordered
open Base.TopK NMesh.Cert.Identity NMesh.Routing.Address

/-- How long an address that answered as somebody else is held against its node. -/
def wrongAddressTtl : ℚ := 600

def wrongAddressTtlMax : ℚ := 6 * 3600

def maxWrongAddresses : ℕ := 256

/-- Asked this often without ever an answer, a node is silent. -/
def silentAfter : ℕ := 5

def silentRetry : ℚ := 300

def bucketK : ℕ := 20

structure NodeEntry where
  nodeId : NodeID
  addresses : List Text
  dsaPub : Bytes
  lastSeen : ℚ
  answeredAt : Option ℚ
  unanswered : ℕ
  askedAt : ℚ
  deriving DecidableEq

def NodeEntry.new (nodeId : NodeID) (addresses : List Text) (dsaPub : Bytes) (now : ℚ) : NodeEntry where
  nodeId := nodeId
  addresses := addresses
  dsaPub := dsaPub
  lastSeen := now
  answeredAt := none
  unanswered := 0
  askedAt := 0

/-! ### Buckets -/

abbrev KBucket := Dict NodeID NodeEntry

namespace KBucket

/-- Insert or refresh; the answer is the entry that would have to go. -/
def add (b : KBucket) (entry : NodeEntry) : Option NodeEntry × KBucket :=
  if entry.nodeId ∈ b.keys then (none, (b.set entry.nodeId entry).moveToEnd entry.nodeId)
  else if b.size < bucketK then (none, b.set entry.nodeId entry)
  else (b.values.head?, b)

/-- Put `replacement` in the place of the oldest; an empty bucket raises. -/
def evictOldest (b : KBucket) (replacement : NodeEntry) : Option KBucket :=
  if b.size = 0 then none else some (b.dropFirst.set replacement.nodeId replacement)

end KBucket

/-! ### The table -/

/-- What an address answered as, how long it is held, the strikes, and when they are forgotten. -/
structure Wrong where
  answeredAs : NodeID
  heldUntil : ℚ
  strikes : ℕ
  forgottenAt : ℚ
  deriving DecidableEq

structure RoutingTable where
  ownId : NodeID
  buckets : Fin 160 → KBucket
  wrong : Dict (NodeID × Text) Wrong

def distance (a b : NodeID) : ℕ := ofBE a.raw ^^^ ofBE b.raw

theorem distance_lt (a b : NodeID) : distance a b < 2 ^ 160 := by
  have h : ∀ c : NodeID, ofBE c.raw < 2 ^ 160 := fun c => by
    have := ofBE_lt c.raw
    rw [c.len] at this
    exact this.trans_eq (by norm_num)
  exact Nat.xor_lt_two_pow (h a) (h b)

namespace RoutingTable

def new (ownId : NodeID) : RoutingTable where
  ownId := ownId
  buckets := fun _ => Dict.empty
  wrong := Dict.empty

def bucketIndex (t : RoutingTable) (nodeId : NodeID) : Option (Fin 160) :=
  if h : distance t.ownId nodeId = 0 then none
  else some ⟨Nat.log2 (distance t.ownId nodeId), (Nat.log2_lt h).mpr (distance_lt _ _)⟩

theorem bucketIndex_eq_none {t : RoutingTable} {nodeId : NodeID} :
    t.bucketIndex nodeId = none ↔ nodeId = t.ownId := by
  unfold bucketIndex distance
  constructor
  · intro h
    split_ifs at h with hzero
    refine NodeID.ext (ofBE_inj (by rw [nodeId.len, t.ownId.len]) ?_)
    exact (Nat.eq_of_xor_eq_zero hzero).symm
  · rintro rfl
    rw [dif_pos (Nat.xor_self _)]

def setBucket (t : RoutingTable) (i : Fin 160) (b : KBucket) : RoutingTable :=
  { t with buckets := Function.update t.buckets i b }

def get (t : RoutingTable) (nodeId : NodeID) : Option NodeEntry :=
  match t.bucketIndex nodeId with
  | none => none
  | some i => (t.buckets i).get? nodeId

/-- Change the entry of a node where it is, if there is one. -/
def edit (t : RoutingTable) (nodeId : NodeID) (f : NodeEntry → NodeEntry) : RoutingTable :=
  match t.bucketIndex nodeId with
  | none => t
  | some i =>
    match (t.buckets i).get? nodeId with
    | none => t
    | some entry => t.setBucket i ((t.buckets i).set nodeId (f entry))

/-- Who this address answered as, while we still believe it. -/
def wrongAddress (t : RoutingTable) (now : ℚ) (nodeId : NodeID) (address : Text) : Option NodeID :=
  match t.wrong.get? (nodeId, address) with
  | none => none
  | some found => if now < found.heldUntil then some found.answeredAs else none

/-- The entry `add` files: the new addresses first, then the old ones, less those held wrong. -/
def merged (t : RoutingTable) (now : ℚ) (nodeId : NodeID) (addresses : List Text) (dsaPub : Bytes) :
    NodeEntry :=
  let existing := t.get nodeId
  let known := (existing.map (·.addresses)).getD []
  let entry := NodeEntry.new nodeId
    (((addresses ++ known).eraseDups.filter fun a => t.wrongAddress now nodeId a = none).take
      maxAddresses)
    (if dsaPub ≠ [] then dsaPub else (existing.map (·.dsaPub)).getD []) now
  match existing with
  | none => entry
  | some e => { entry with
      answeredAt := e.answeredAt
      unanswered := e.unanswered
      askedAt := e.askedAt }

/-- Insert or refresh a node; the answer is the entry that would have to go. -/
def add (t : RoutingTable) (now : ℚ) (nodeId : NodeID) (addresses : List Text) (dsaPub : Bytes) :
    Option NodeEntry × RoutingTable :=
  match t.bucketIndex nodeId with
  | none => (none, t)
  | some i =>
    let (full, bucket) := KBucket.add (t.buckets i) (t.merged now nodeId addresses dsaPub)
    (full, t.setBucket i bucket)

def touch (t : RoutingTable) (now : ℚ) (nodeId : NodeID) : Bool × RoutingTable :=
  match t.bucketIndex nodeId with
  | none => (false, t)
  | some i =>
    match (t.buckets i).get? nodeId with
    | none => (false, t)
    | some entry => (true, t.setBucket i
        (((t.buckets i).set nodeId { entry with lastSeen := now }).moveToEnd nodeId))

def noteAnswered (t : RoutingTable) (now : ℚ) (nodeId : NodeID) : RoutingTable :=
  t.edit nodeId fun e => { e with answeredAt := some now, askedAt := now, unanswered := 0 }

def noteUnanswered (t : RoutingTable) (now : ℚ) (nodeId : NodeID) : RoutingTable :=
  t.edit nodeId fun e => { e with askedAt := now, unanswered := e.unanswered + 1 }

/-- Forget one address of a node, keeping the node; was it there? -/
def dropAddress (t : RoutingTable) (nodeId : NodeID) (address : Text) : Bool × RoutingTable :=
  match t.get nodeId with
  | none => (false, t)
  | some entry =>
    if address ∈ entry.addresses then
      (true, t.edit nodeId fun e => { e with addresses := e.addresses.filter (· ≠ address) })
    else (false, t)

def pruneWrong (t : RoutingTable) (now : ℚ) : RoutingTable :=
  { t with wrong := t.wrong.filterVal fun row => now < row.forgottenAt }

/-- The strikes of an address that answered as `answeredAs`, given the record before. -/
def strikesAfter (previous : Option Wrong) (answeredAs : NodeID) : ℕ :=
  match previous with
  | none => 0
  | some row => if row.answeredAs = answeredAs then min (row.strikes + 1) 16 else 0

def holdOf (strikes : ℕ) : ℚ := min (wrongAddressTtl * 2 ^ strikes) wrongAddressTtlMax

/-- The records, without the pair's and without the oldest, so that there is room for one. -/
def roomFor (t : RoutingTable) (key : NodeID × Text) : Dict (NodeID × Text) Wrong :=
  (t.wrong.pop key).makeRoom maxWrongAddresses (t.wrong.pop key).size

/-- This address is not this node's: drop it, and remember why. -/
def noteWrongAddress (t : RoutingTable) (now : ℚ) (nodeId : NodeID) (address : Text)
    (answeredAs : NodeID) : RoutingTable :=
  let dropped := (t.dropAddress nodeId address).2
  let pruned := dropped.pruneWrong now
  let strikes := strikesAfter (pruned.wrong.get? (nodeId, address)) answeredAs
  { pruned with wrong := (pruned.roomFor (nodeId, address)).set (nodeId, address) {
      answeredAs := answeredAs
      heldUntil := now + holdOf strikes
      strikes := strikes
      forgottenAt := now + holdOf strikes + wrongAddressTtlMax } }

/-- Put a node in the place of the oldest of its bucket; an empty bucket raises. -/
def evictAndAdd (t : RoutingTable) (now : ℚ) (nodeId : NodeID) (addresses : List Text)
    (dsaPub : Bytes) : Option RoutingTable :=
  match t.bucketIndex nodeId with
  | none => some t
  | some i => (KBucket.evictOldest (t.buckets i) (NodeEntry.new nodeId addresses dsaPub now)).map
      (t.setBucket i)

def remove (t : RoutingTable) (nodeId : NodeID) : RoutingTable :=
  match t.bucketIndex nodeId with
  | none => t
  | some i => t.setBucket i ((t.buckets i).pop nodeId)

/-! ### The nearest nodes -/

/-- Never once answered, often enough that we should stop asking for a while. -/
def isSilent (entry : NodeEntry) (now : ℚ) : Bool :=
  if entry.answeredAt ≠ none ∨ entry.unanswered < silentAfter then false
  else decide (now - entry.askedAt < silentRetry)

def allEntries (t : RoutingTable) : List NodeEntry :=
  (List.finRange 160).flatMap fun i => (t.buckets i).values

/-- The `count` entries nearest `target` that are not silent. -/
def getClosest (t : RoutingTable) (now : ℚ) (target : NodeID) (count : ℤ) : List NodeEntry :=
  smallest (fun e => distance target e.nodeId) count.toNat
    (t.allEntries.filter fun e => !isSilent e now)

/-! ### Importing -/

/-- The valid addresses among JSON values; `none` if a check raises. -/
def validAddresses : List Json → Option (List Text)
  | [] => some []
  | .str a :: items =>
    match validateUri a with
    | .raised => none
    | .invalid => validAddresses items
    | .valid _ _ => (validAddresses items).map (a :: ·)
  | _ :: items => validAddresses items

/-- The id, the key and the addresses of an exported entry, if they are in order. -/
def readEntry (fromPublicKey : Bytes → NodeID) (e : Json) : Option (NodeID × Bytes × List Json) := do
  let raw ← (← (← e.get? (ascii "id")).text?) |> fromHex
  let dsaPub ← (← (← e.get? (ascii "dsa_pub")).text?) |> fromHex
  let nodeId ← NodeID.ofRaw raw
  if dsaPub = [] ∨ fromPublicKey dsaPub ≠ nodeId then none
  else
    match e.get? (ascii "addresses") with
    | none => some (nodeId, dsaPub, [])
    | some (.arr items) => some (nodeId, dsaPub, items)
    | some _ => none

/-- Restore exported entries. An address that cannot be checked raises, and the rest is not read. -/
def importEntries (fromPublicKey : Bytes → NodeID) (now : ℚ) : RoutingTable → List Json → RoutingTable
  | t, [] => t
  | t, e :: entries =>
    match readEntry fromPublicKey e with
    | none => importEntries fromPublicKey now t entries
    | some (nodeId, dsaPub, items) =>
      match validAddresses (items.take maxAddresses) with
      | none => t
      | some addresses =>
        importEntries fromPublicKey now (t.add now nodeId addresses dsaPub).2 entries

end RoutingTable

end NMesh.Routing.Table
