import NMesh.Base.Allowance
import NMesh.Base.Peaks
import NMesh.Cert.Identity
import Mathlib.Data.Rat.Floor
import Mathlib.Data.List.MinMax
import Mathlib.Data.List.Sort

/-! # What this node thinks of the others

`Reputation` keeps a score of each identity: what we saw ourselves (`direct`), and what others say
(`accusers`), counted once for each family of accusers and capped. Everything fades by half in each
half-life.

`clock` is the clock's reading, one for each call. The numbers are exact, of any ordered field that can
take `0.5` to a power (`Halving`). -/

namespace NMesh.Opinion.Table

open Base.BigEndian Base.Ordered Base.Peaks NMesh.Cert.Identity

/-- Numbers with powers of one half: `half x` is `0.5 ^ x`. -/
class Halving (R : Type) [One R] [Zero R] [LE R] where
  half : R → R
  half_nonneg : ∀ x, 0 ≤ half x
  half_le_one : ∀ x, 0 ≤ x → half x ≤ 1

/-- The rational numbers, for examples: exact at whole half-lives. -/
instance : Halving ℚ where
  half x := (1 / 2) ^ ⌊x⌋₊
  half_nonneg _ := pow_nonneg (by norm_num) _
  half_le_one _ _ := pow_le_one₀ (by norm_num) (by norm_num)

/-- The standings, in the order they get worse. -/
inductive Grade
  | ok
  | suspect
  | hostile
  deriving DecidableEq, Repr

/-- What one accuser says of a node. -/
structure Accusation (R : Type) where
  weight : R
  stamp : R
  family : Bytes
  deriving DecidableEq

/-- What we hold against one identity. -/
structure Standing (R : Type) where
  direct : R
  accusers : Dict NodeID (Accusation R)
  stamp : R
  reason : String
  reports : ℕ

structure Reputation (R : Type) where
  suspect : R
  hostile : R
  halflife : R
  maxTracked : ℕ
  rumourCeiling : R
  standings : Dict NodeID (Standing R)

def maxAccusers : ℕ := 64
def maxReason : ℕ := 64
def maxSubjects : ℕ := 16

variable {R : Type} [Field R] [LinearOrder R] [Halving R]

def maxWeight : R := 4

def decay (value age halflife : R) : R :=
  if value ≤ 0 ∨ age ≤ 0 then max 0 value
  else if halflife ≤ 0 then 0
  else value * Halving.half (age / halflife)

def Standing.report (entry : Standing R) (reason : String) : Standing R :=
  { entry with
    reports := entry.reports + 1
    reason := if reason = "" then entry.reason else .ofList (reason.toList.take maxReason) }

namespace Reputation

def new (suspect hostile halflife : R) (maxTracked : ℤ) : Reputation R where
  suspect := max (1 / 10) suspect
  hostile := max (max (1 / 10) suspect + 1 / 10) hostile
  halflife := max 1 halflife
  maxTracked := (max 1 maxTracked).toNat
  rumourCeiling := max 0 (max (1 / 10) suspect - 1 / 10)
  standings := Dict.empty

/-! ### Reading -/

def heard (s : Reputation R) (now : R) (a : Accusation R) : R :=
  decay a.weight (now - a.stamp) s.halflife

def byFamily (s : Reputation R) (entry : Standing R) (now : R) : Dict Bytes R :=
  (peaks Accusation.family (s.heard now) entry.accusers.values).filterVal fun value => 0 < value

def direct (s : Reputation R) (entry : Standing R) (now : R) : R :=
  decay entry.direct (now - entry.stamp) s.halflife

def rumour (s : Reputation R) (entry : Standing R) (now : R) : R := (s.byFamily entry now).values.sum

def score (s : Reputation R) (nodeId : NodeID) (now : R) : R :=
  match s.standings.get? nodeId with
  | none => 0
  | some entry => s.direct entry now + min (s.rumour entry now) s.rumourCeiling

def voices (s : Reputation R) (nodeId : NodeID) (now : R) : ℕ :=
  match s.standings.get? nodeId with
  | none => 0
  | some entry => (s.byFamily entry now).size

def grade (s : Reputation R) (value : R) : Grade :=
  if s.hostile ≤ value then .hostile else if s.suspect ≤ value then .suspect else .ok

def standing (s : Reputation R) (nodeId : NodeID) (now : R) : Grade := s.grade (s.score nodeId now)

def directStanding (s : Reputation R) (nodeId : NodeID) (now : R) : Grade :=
  match s.standings.get? nodeId with
  | none => .ok
  | some entry => s.grade (s.direct entry now)

/-! ### Reporting -/

def entry (s : Reputation R) (nodeId : NodeID) (clock : R) : Standing R :=
  (s.standings.get? nodeId).getD ⟨0, Dict.empty, clock, "", 0⟩

def put (s : Reputation R) (nodeId : NodeID) (entry : Standing R) : Reputation R :=
  { s with standings := s.standings.set nodeId entry }

def enforceBound (s : Reputation R) (clock : R) : Reputation R :=
  let ranked := s.standings.keys.insertionSort fun a b => s.score a clock ≤ s.score b clock
  { s with standings :=
      (ranked.take (s.standings.size - s.maxTracked)).foldl Dict.pop s.standings }

def note (s : Reputation R) (nodeId : NodeID) (weight : R) (reason : String) (now : Option R)
    (clock : R) : Grade × Reputation R :=
  let stamp := now.getD clock
  let entry := s.entry nodeId clock
  let entry := Standing.report { entry with
    direct := s.direct entry stamp + max 0 (min weight maxWeight), stamp := stamp } reason
  let s := (s.put nodeId entry).enforceBound clock
  (s.standing nodeId stamp, s)

/-- How many distinct nodes this accuser has named inside a half-life. -/
def reach (s : Reputation R) (accuser : NodeID) (now : R) : ℕ :=
  min maxSubjects (s.standings.values.countP fun entry =>
    (entry.accusers.get? accuser).any fun held => now - held.stamp ≤ s.halflife)

/-- What an accusation is credited with: nothing, once its accuser has named too many. -/
def allowance (s : Reputation R) (accuser : NodeID) (weight now : R) : R :=
  if maxSubjects ≤ s.reach accuser now then 0 else max 0 (min weight maxWeight)

/-- Forget the oldest accusations while there are too many, at most `n` of them. -/
def forgetOldest : ℕ → Dict NodeID (Accusation R) → Dict NodeID (Accusation R)
  | 0, accusers => accusers
  | n + 1, accusers =>
    if maxAccusers < accusers.size then
      match accusers.entries.argmin fun e => e.2.stamp with
      | none => accusers
      | some oldest => forgetOldest n (accusers.pop oldest.1)
    else accusers

def file (s : Reputation R) (nodeId accuser : NodeID) (a : Accusation R) (clock : R) : Reputation R :=
  let entry := s.entry nodeId clock
  let accusers := entry.accusers.set accuser a
  s.put nodeId { entry with accusers := forgetOldest accusers.size accusers }

/-- Discount what `accuser` says of `nodeId`; nothing when no such accusation is held. -/
def discount (s : Reputation R) (nodeId accuser : NodeID) : Option (Reputation R) :=
  match s.standings.get? nodeId with
  | none => none
  | some entry => (entry.accusers.get? accuser).map fun held =>
      s.put nodeId { entry with accusers := entry.accusers.set accuser { held with weight := 0 } }

/-- If the two have accused each other, neither says anything about the other. `false` stands for the
`KeyError` raised when the accusation just written is not there any more. -/
def cancelIfMutual (s : Reputation R) (subject accuser : NodeID) : Bool × Reputation R :=
  match s.standings.get? accuser with
  | none => (true, s)
  | some mirror =>
    match mirror.accusers.get? subject with
    | none => (true, s)
    | some held =>
      if held.weight ≤ 0 then (true, s)
      else
        let s := s.put accuser
          { mirror with accusers := mirror.accusers.set subject { held with weight := 0 } }
        match s.discount subject accuser with
        | none => (false, s)
        | some s => (true, s)

/-- Whose voice an accusation is: its accuser's family's, or its own if it cannot be placed. -/
def voice (family : Option Bytes) (accuser : NodeID) : Bytes :=
  (family.filter (· ≠ [])).getD accuser.raw

/-- Record that `accuser` says `nodeId` is misbehaving; no standing when an exception is raised. -/
def noteAccusation (s : Reputation R) (nodeId accuser : NodeID) (weight : R) (reason : String)
    (family : Option Bytes) (now : Option R) (clock : R) : Option Grade × Reputation R :=
  let stamp := now.getD clock
  if accuser = nodeId then (some (s.standing nodeId stamp), s)
  else
    let allowance := s.allowance accuser weight stamp
    let s := s.file nodeId accuser ⟨allowance, stamp, voice family accuser⟩ clock
    let (returns, s) := if 0 < allowance then s.cancelIfMutual nodeId accuser else (true, s)
    if returns then
      let s := (s.put nodeId ((s.entry nodeId clock).report reason)).enforceBound clock
      (some (s.standing nodeId stamp), s)
    else (none, s)

def forgive (s : Reputation R) (nodeId : NodeID) : Bool × Reputation R :=
  (decide (nodeId ∈ s.standings.keys), { s with standings := s.standings.pop nodeId })

end Reputation

/-- What may happen to the table. -/
inductive Op (R : Type)
  | note (nodeId : NodeID) (weight : R) (reason : String) (now : Option R)
  | noteAccusation (nodeId accuser : NodeID) (weight : R) (reason : String) (family : Option Bytes)
      (now : Option R)
  | forgive (nodeId : NodeID)

def Reputation.step (s : Reputation R) (act : R × Op R) : Reputation R :=
  match act.2 with
  | .note nodeId weight reason now => (s.note nodeId weight reason now act.1).2
  | .noteAccusation nodeId accuser weight reason family now =>
    (s.noteAccusation nodeId accuser weight reason family now act.1).2
  | .forgive nodeId => (s.forgive nodeId).2

end NMesh.Opinion.Table
