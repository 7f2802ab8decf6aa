import NMesh.StopRelay.Record
import NMesh.Base.Allowance

/-! # Rules against relaying

What a node has asked its relays to stop (`asked`), and the rules that destinations have asked it to keep
(`rules`). A routed packet is refused on its header alone (`refuseRouted`): one to us from a node that we no
longer serve, whose relay is then asked to stop; and one through us that a rule is against, whose record is
then handed to whoever fed it. Whoever goes on after the grace is reported, once. -/

namespace NMesh.StopRelay.Rules

open Base.BigEndian Base.Ordered Base.Allowance NMesh.Cert.Identity
open NMesh.StopRelay.Record
open NMesh.Directory.PseudoDir (Primitives)

variable {R : Type} [Field R] [LinearOrder R] (P : Primitives)

def stopRelayTtl : ℕ := 900
def stopRelayGrace : R := 10
def stopRulesMax : ℕ := 4096
def stopRulesPerDst : ℕ := 64
def stopRelayRateWindow : R := 60
def stopRelayRateMax : ℕ := 32
def stopRelayMax : ℕ := 8192
def maxPeers : ℕ := 128
def maxTold : ℕ := 16

/-- A node and its own key. -/
structure Local where
  id : NodeID
  dsaPublicKey : Bytes
  sign : Bytes → Bytes

/-- The monotonic clock, the wall clock, and the wall clock in whole seconds. -/
structure Clock (R : Type) where
  now : R
  wall : R
  stamp : ℕ

/-- A relay was asked to stop delivering a node. -/
structure Asked (R : Type) where
  at_ : R
  until_ : R
  charged : Bool
  deriving DecidableEq

/-- A destination asked us to stop relaying a node to it; the links that were told so, and when. -/
structure Rule (R : Type) where
  until_ : R
  record : Bytes
  told : Dict NodeID R
  charged : List NodeID
  deriving DecidableEq

/-- A node's requests, by node and link, and its rules, by node and destination. -/
structure Stops (R : Type) where
  asked : Dict (NodeID × NodeID) (Asked R)
  rules : Dict (NodeID × NodeID) (Rule R)
  rate : Counts Bytes R
  deriving DecidableEq

inductive Effect
  /-- Hand a record to the node at the end of a link. -/
  | send (via : NodeID) (record : Bytes)
  /-- It kept relaying a node it was asked to stop relaying. -/
  | report (via : NodeID)
  deriving DecidableEq

def reported (effects : List Effect) : List NodeID :=
  effects.filterMap fun
    | .report via => some via
    | .send _ _ => none

namespace Stops

def empty : Stops R := ⟨.empty, .empty, .empty⟩

def noteAsked (s : Stops R) (key : NodeID × NodeID) (asked : Asked R) : Stops R :=
  { s with asked := s.asked.set key asked }

def noteRule (s : Stops R) (key : NodeID × NodeID) (rule : Rule R) : Stops R :=
  { s with rules := s.rules.set key rule }

def askAnew (me : Local) (clock : Clock R) (via src : NodeID) (s : Stops R) : Stops R × List Effect :=
  match build P src me.dsaPublicKey me.sign stopRelayTtl clock.stamp with
  | none => (s, [])
  | some record =>
    let asked := (s.asked.set (src, via) ⟨clock.now, clock.now + stopRelayTtl * (4 / 5), false⟩).moveToEnd
      (src, via)
    ({ s with asked := Dict.makeRoom (stopRulesMax + 1) asked.size asked }, [.send via record])

/-- Ask the link that delivered a refused node's packet to stop. -/
def askStopRelay (me : Local) (clock : Clock R) (via : NodeID) (announces : Bool) (src : NodeID)
    (s : Stops R) : Stops R × List Effect :=
  if !announces then (s, [])
  else
    match s.asked.get? (src, via) with
    | none => askAnew P me clock via src s
    | some asked =>
      if clock.now < asked.until_ then
        if stopRelayGrace < clock.now - asked.at_ ∧ asked.charged = false then
          (s.noteAsked (src, via) { asked with charged := true }, [.report via])
        else (s, [])
      else askAnew P me clock via src s

/-- Hand the destination's request to a link that still feeds us what it is against. -/
def passStopUpstream (clock : Clock R) (via : NodeID) (announces : Bool) (key : NodeID × NodeID)
    (rule : Rule R) (s : Stops R) : Stops R × List Effect :=
  match rule.told.get? via with
  | none =>
    if announces ∧ rule.told.size < maxTold then
      (s.noteRule key { rule with told := rule.told.set via clock.now }, [.send via rule.record])
    else (s, [])
  | some told =>
    if stopRelayGrace < clock.now - told ∧ via ∉ rule.charged then
      (s.noteRule key { rule with charged := rule.charged ++ [via] }, [.report via])
    else (s, [])

/-- Drop a routed packet on its header alone; `true` when it is dropped. -/
def refuseRouted (me : Local) (clock : Clock R) (via : NodeID) (announces isSuspect : Bool)
    (src dst : NodeID) (s : Stops R) : Bool × Stops R × List Effect :=
  if dst = me.id then
    if src = via then (false, s, [])
    else if !isSuspect then (false, s, [])
    else (true, s.askStopRelay P me clock via announces src)
  else
    match s.rules.get? (src, dst) with
    | none => (false, s, [])
    | some rule =>
      if rule.until_ ≤ clock.now then (false, { s with rules := s.rules.pop (src, dst) }, [])
      else if src ≠ via then (true, s.passStopUpstream clock via announces (src, dst) rule)
      else (true, s, [])

def stopAllowed (s : Stops R) (peer : Bytes) (now : R) : Bool × Counts Bytes R :=
  allowed stopRelayRateWindow stopRelayRateMax maxPeers s.rate peer now

def rulesOf (s : Stops R) (dst : NodeID) : ℕ := s.rules.keys.countP fun key => key.2 = dst

def dropStale (s : Stops R) (now : R) : Stops R :=
  { s with rules := s.rules.filterVal fun rule => now < rule.until_ }

/-- A destination's request: a rule, a renewal of one, or nothing. -/
def honour (clock : Clock R) (raw : Bytes) (request : Request) (s : Stops R) : Stops R :=
  let until_ := clock.now + max 0 (request.expiresAt - clock.wall)
  let key := (request.blocked, request.requester)
  let s := s.dropStale clock.now
  match s.rules.get? key with
  | none =>
    if stopRulesPerDst ≤ s.rulesOf request.requester then s
    else { s with
      rules := (Dict.makeRoom stopRulesMax s.rules.size s.rules).set key ⟨until_, raw, .empty, []⟩ }
  | some rule =>
    if rule.until_ < until_ then
      s.noteRule key { rule with until_ := until_, record := raw, told := .empty }
    else s

/-- A destination's signed request, from the link it reached us on. -/
def handleStopRelay (me : Local) (clock : Clock R) (peer payload : Bytes) (s : Stops R) : Stops R :=
  let (isAllowed, rate) := s.stopAllowed peer clock.now
  let s := { s with rate := rate }
  if !isAllowed then s
  else if payload = [] ∨ stopRelayMax < payload.length then s
  else
    match parse P payload clock.stamp with
    | none => s
    | some request => if request.requester = me.id then s else s.honour clock payload request

/-! ### Who is reported -/

/-- A link that was asked to stop delivering a node goes on after the grace, and was not reported for it. -/
def overdueAsked (s : Stops R) (now : R) (via src : NodeID) : Bool :=
  (s.asked.get? (src, via)).any fun asked =>
    now < asked.until_ ∧ stopRelayGrace < now - asked.at_ ∧ asked.charged = false

/-- A link that was told of a rule goes on after the grace, and was not reported for it. -/
def overdueTold (s : Stops R) (now : R) (via src dst : NodeID) : Bool :=
  (s.rules.get? (src, dst)).any fun rule =>
    (rule.told.get? via).any fun told =>
      now < rule.until_ ∧ stopRelayGrace < now - told ∧ via ∉ rule.charged

/-- The link goes on relaying a node it was asked to stop relaying. -/
def overdue (me : NodeID) (s : Stops R) (now : R) (via : NodeID) (announces isSuspect : Bool)
    (src dst : NodeID) : Bool :=
  if src = via then false
  else if dst = me then announces && isSuspect && s.overdueAsked now via src
  else s.overdueTold now via src dst

omit [LinearOrder R] in
theorem reported_askAnew (me : Local) (clock : Clock R) (via src : NodeID) (s : Stops R) :
    reported (askAnew P me clock via src s).2 = [] := by
  unfold askAnew
  split <;> rfl

theorem reported_askStopRelay (me : Local) (clock : Clock R) (via src : NodeID) (s : Stops R) :
    reported (s.askStopRelay P me clock via true src).2 =
      if s.overdueAsked clock.now via src then [via] else [] := by
  unfold askStopRelay overdueAsked
  rw [if_neg (by simp)]
  cases hasked : s.asked.get? (src, via) with
  | none => exact reported_askAnew P me clock via src s
  | some asked =>
    dsimp only
    rw [Option.any_some]
    by_cases hlive : clock.now < asked.until_
    · rw [if_pos hlive]
      by_cases hgrace : stopRelayGrace < clock.now - asked.at_ ∧ asked.charged = false
      · rw [if_pos hgrace, if_pos (decide_eq_true ⟨hlive, hgrace⟩)]
        rfl
      · rw [if_neg hgrace, if_neg fun h => hgrace (of_decide_eq_true h).2]
        rfl
    · rw [if_neg hlive, reported_askAnew P me clock via src s, if_neg fun h => hlive (of_decide_eq_true h).1]

theorem reported_passStopUpstream (clock : Clock R) (via : NodeID) (announces : Bool) (src dst : NodeID)
    (rule : Rule R) (s : Stops R) (hrule : s.rules.get? (src, dst) = some rule)
    (hlive : clock.now < rule.until_) :
    reported (s.passStopUpstream clock via announces (src, dst) rule).2 =
      if s.overdueTold clock.now via src dst then [via] else [] := by
  unfold passStopUpstream overdueTold
  rw [hrule, Option.any_some]
  cases htold : rule.told.get? via with
  | none =>
    rw [Option.any_none, if_neg Bool.false_ne_true]
    dsimp only
    split_ifs <;> rfl
  | some told =>
    dsimp only
    rw [Option.any_some]
    simp only [hlive, true_and, decide_eq_true_eq]
    split_ifs <;> rfl

theorem overdueTold_of_lapsed {now : R} {via src dst : NodeID} {rule : Rule R} (s : Stops R)
    (hrule : s.rules.get? (src, dst) = some rule) (hover : rule.until_ ≤ now) :
    s.overdueTold now via src dst = false := by
  unfold overdueTold
  rw [hrule, Option.any_some]
  cases rule.told.get? via with
  | none => rfl
  | some told => exact decide_eq_false fun h => not_lt.mpr hover h.1

/-- **A packet has its link reported exactly when the link is overdue.** -/
theorem reported_refuseRouted (me : Local) (clock : Clock R) (via : NodeID) (announces isSuspect : Bool)
    (src dst : NodeID) (s : Stops R) :
    reported (s.refuseRouted P me clock via announces isSuspect src dst).2.2 =
      if s.overdue me.id clock.now via announces isSuspect src dst then [via] else [] := by
  unfold refuseRouted overdue
  by_cases hdst : dst = me.id
  · rw [if_pos hdst, if_pos hdst]
    by_cases hsrc : src = via
    · rw [if_pos hsrc, if_pos hsrc]
      rfl
    · rw [if_neg hsrc, if_neg hsrc]
      cases isSuspect with
      | false =>
        rw [Bool.and_false, Bool.false_and]
        rfl
      | true =>
        cases announces with
        | false => rfl
        | true => exact reported_askStopRelay P me clock via src s
  · rw [if_neg hdst, if_neg hdst]
    cases hrule : s.rules.get? (src, dst) with
    | none =>
      unfold overdueTold
      rw [hrule, Option.any_none, ite_self]
      rfl
    | some rule =>
      dsimp only
      by_cases hover : rule.until_ ≤ clock.now
      · rw [if_pos hover, overdueTold_of_lapsed s hrule hover, ite_self]
        rfl
      · rw [if_neg hover]
        by_cases hsrc : src = via
        · rw [if_pos hsrc, if_neg (not_not.mpr hsrc)]
          rfl
        · rw [if_neg hsrc, if_pos hsrc]
          exact reported_passStopUpstream clock via announces src dst rule s hrule (not_le.mp hover)

/-! ### What refusing a packet does -/

section Refusing

variable (me : Local) (clock : Clock R) (via : NodeID) (src dst : NodeID) (s : Stops R)

/-- Everything that can come of a packet at the gate. -/
inductive Refusal : Bool → Stops R → List Effect → Prop
  | passed (h : dst = me.id ∨ s.rules.get? (src, dst) = none) : Refusal false s []
  | lapsed (rule : Rule R) (hdst : dst ≠ me.id) (hrule : s.rules.get? (src, dst) = some rule)
      (hover : rule.until_ ≤ clock.now) : Refusal false { s with rules := s.rules.pop (src, dst) } []
  | dropped : Refusal true s []
  | asks (record : Bytes) (hdst : dst = me.id) (hsrc : src ≠ via)
      (hbuild : build P src me.dsaPublicKey me.sign stopRelayTtl clock.stamp = some record) :
      Refusal true (askAnew P me clock via src s).1 [.send via record]
  | stillDelivers (asked : Asked R) (hdst : dst = me.id) (hsrc : src ≠ via)
      (hasked : s.asked.get? (src, via) = some asked) (hlive : clock.now < asked.until_)
      (hgrace : stopRelayGrace < clock.now - asked.at_) :
      Refusal true (s.noteAsked (src, via) { asked with charged := true }) [.report via]
  | tells (rule : Rule R) (hdst : dst ≠ me.id) (hsrc : src ≠ via)
      (hrule : s.rules.get? (src, dst) = some rule) (hlive : clock.now < rule.until_) :
      Refusal true (s.noteRule (src, dst) { rule with told := rule.told.set via clock.now })
        [.send via rule.record]
  | stillFeeds (rule : Rule R) (told : R) (hdst : dst ≠ me.id) (hsrc : src ≠ via)
      (hrule : s.rules.get? (src, dst) = some rule) (hlive : clock.now < rule.until_)
      (htold : rule.told.get? via = some told) (hgrace : stopRelayGrace < clock.now - told) :
      Refusal true (s.noteRule (src, dst) { rule with charged := rule.charged ++ [via] }) [.report via]

variable {P} {me} {clock} {via} {src} {dst} {s} {announces isSuspect : Bool}

theorem refusal_askAnew (hdst : dst = me.id) (hsrc : src ≠ via) :
    Refusal P me clock via src dst s true (askAnew P me clock via src s).1
      (askAnew P me clock via src s).2 := by
  cases hbuild : build P src me.dsaPublicKey me.sign stopRelayTtl clock.stamp with
  | none =>
    have hnone : askAnew P me clock via src s = (s, []) := by
      unfold askAnew
      rw [hbuild]
    rw [hnone]
    exact .dropped
  | some record =>
    have hsent : (askAnew P me clock via src s).2 = [.send via record] := by
      unfold askAnew
      rw [hbuild]
    rw [hsent]
    exact .asks record hdst hsrc hbuild

theorem refusal : Refusal P me clock via src dst s (s.refuseRouted P me clock via announces isSuspect src dst).1
    (s.refuseRouted P me clock via announces isSuspect src dst).2.1
    (s.refuseRouted P me clock via announces isSuspect src dst).2.2 := by
  unfold refuseRouted
  by_cases hdst : dst = me.id
  · rw [if_pos hdst]
    by_cases hsrc : src = via
    · rw [if_pos hsrc]
      exact .passed (.inl hdst)
    · rw [if_neg hsrc]
      cases isSuspect with
      | false => exact .passed (.inl hdst)
      | true =>
        show Refusal P me clock via src dst s true (s.askStopRelay P me clock via announces src).1
          (s.askStopRelay P me clock via announces src).2
        unfold askStopRelay
        split_ifs with hannounces
        · exact .dropped
        · split
          · exact refusal_askAnew hdst hsrc
          · next asked hasked =>
            split_ifs with hlive hgrace
            · exact .stillDelivers asked hdst hsrc hasked hlive hgrace.1
            · exact .dropped
            · exact refusal_askAnew hdst hsrc
  · rw [if_neg hdst]
    split
    · next hnone => exact .passed (.inr hnone)
    · next rule hrule =>
      split_ifs with hover hsrc
      · exact .lapsed rule hdst hrule hover
      · rw [not_le] at hover
        show Refusal P me clock via src dst s true (s.passStopUpstream clock via announces (src, dst) rule).1
          (s.passStopUpstream clock via announces (src, dst) rule).2
        unfold passStopUpstream
        split
        · split_ifs
          · exact .tells rule hdst hsrc hrule hover
          · exact .dropped
        · next told htold =>
          split_ifs with hgrace
          · exact .stillFeeds rule told hdst hsrc hrule hover htold hgrace.1
          · exact .dropped
      · exact .dropped

end Refusing

omit [LinearOrder R] in
theorem rules_askAnew (me : Local) (clock : Clock R) (via src : NodeID) (s : Stops R) :
    (askAnew P me clock via src s).1.rules = s.rules := by
  unfold askAnew
  split <;> rfl

omit [LinearOrder R] in
theorem get?_askAnew {me : Local} {clock : Clock R} {via src : NodeID} {s : Stops R}
    {key : NodeID × NodeID} {asked : Asked R}
    (h : (askAnew P me clock via src s).1.asked.get? key = some asked) :
    key = (src, via) ∧ asked = ⟨clock.now, clock.now + stopRelayTtl * (4 / 5), false⟩ ∨
      s.asked.get? key = some asked := by
  unfold askAnew at h
  split at h
  · exact .inr h
  · have hset := Dict.get?_of_makeRoom h
    rw [Dict.get?_moveToEnd] at hset
    exact (Dict.get?_of_set hset).imp_right And.right

/-! ### What a request does -/

section Honouring

/-- There is a rule that lasts at least until `e`. -/
def Holds (s : Stops R) (key : NodeID × NodeID) (e : R) : Prop :=
  ∃ rule, s.rules.get? key = some rule ∧ e ≤ rule.until_

/-- The request renews a rule, or there is room for one more: the request is not declined, and no rule is
forgotten for it. -/
def Roomy (s : Stops R) (now : R) (request : Request) : Prop :=
  (request.blocked, request.requester) ∈ (s.dropStale now).rules.keys ∨
    (s.dropStale now).rulesOf request.requester < stopRulesPerDst ∧
      (s.dropStale now).rules.size < stopRulesMax

instance (s : Stops R) (now : R) (request : Request) : Decidable (s.Roomy now request) := by
  unfold Roomy
  infer_instance

def expiry (clock : Clock R) (request : Request) : R :=
  clock.now + max 0 (request.expiresAt - clock.wall)

variable {clock : Clock R} {raw : Bytes} {request : Request} {s : Stops R} {key : NodeID × NodeID} {e : R}
  {rule : Rule R}

omit [Field R] in
theorem Holds.dropStale {now : R} (h : s.Holds key e) (hlive : now < e) : (s.dropStale now).Holds key e := by
  obtain ⟨rule, hrule, hlasts⟩ := h
  refine ⟨rule, ?_, hlasts⟩
  show (s.rules.filterVal _).get? key = some rule
  rw [Dict.get?_filterVal, hrule]
  exact if_pos (decide_eq_true (hlive.trans_le hlasts))

theorem rules_honour (h : (s.honour clock raw request).rules.get? key = some rule) :
    s.rules.get? key = some rule ∨ key = (request.blocked, request.requester) ∧ rule.record = raw ∧
      rule.until_ = expiry clock request ∧ rule.told = .empty := by
  unfold honour at h
  dsimp only at h
  split at h
  · split_ifs at h with hper
    · exact .inl (Dict.get?_of_filterVal h)
    · rcases Dict.get?_of_set h with ⟨hkey, rfl⟩ | ⟨-, h⟩
      · exact .inr ⟨hkey, rfl, rfl, rfl⟩
      · have hold := Dict.get?_of_makeRoom h
        exact .inl (Dict.get?_of_filterVal hold)
  · next old hold =>
    split_ifs at h with hlater
    · rcases Dict.get?_of_set h with ⟨hkey, rfl⟩ | ⟨-, h⟩
      · exact .inr ⟨hkey, rfl, rfl, rfl⟩
      · exact .inl (Dict.get?_of_filterVal h)
    · exact .inl (Dict.get?_of_filterVal h)

theorem honour_new (hnone : (s.dropStale clock.now).rules.get? (request.blocked, request.requester) = none)
    (hroom : s.Roomy clock.now request) :
    s.honour clock raw request = (s.dropStale clock.now).noteRule (request.blocked, request.requester)
      ⟨expiry clock request, raw, .empty, []⟩ := by
  have hnew := hroom.resolve_left (Dict.get?_eq_none.mp hnone)
  have hkept : Dict.makeRoom stopRulesMax (s.dropStale clock.now).rules.size
      (s.dropStale clock.now).rules = (s.dropStale clock.now).rules :=
    Dict.makeRoom_of_lt hnew.2
  unfold honour
  dsimp only
  rw [hnone]
  dsimp only
  rw [if_neg (not_le.mpr hnew.1), hkept]
  rfl

theorem Holds.honour (h : s.Holds key e) (hlive : clock.now < e) (hroom : s.Roomy clock.now request) :
    (s.honour clock raw request).Holds key e := by
  obtain ⟨rule, hrule, hlasts⟩ := h.dropStale hlive
  cases hget : (s.dropStale clock.now).rules.get? (request.blocked, request.requester) with
  | none =>
    rw [honour_new hget hroom]
    have hne : (request.blocked, request.requester) ≠ key := by
      rintro rfl
      rw [hget] at hrule
      cases hrule
    refine ⟨rule, ?_, hlasts⟩
    show ((s.dropStale clock.now).rules.set _ _).get? key = some rule
    rw [Dict.get?_set_of_ne _ hne, hrule]
  | some old =>
    unfold Stops.honour
    dsimp only
    rw [hget]
    dsimp only
    split_ifs with hlater
    · by_cases hkey : (request.blocked, request.requester) = key
      · subst hkey
        obtain rfl := Option.mem_unique hget hrule
        exact ⟨_, Dict.get?_set_self _ _ _, hlasts.trans hlater.le⟩
      · refine ⟨rule, ?_, hlasts⟩
        show ((s.dropStale clock.now).rules.set _ _).get? key = some rule
        rw [Dict.get?_set_of_ne _ hkey, hrule]
    · exact ⟨rule, hrule, hlasts⟩

theorem holds_honour (hroom : s.Roomy clock.now request) :
    (s.honour clock raw request).Holds (request.blocked, request.requester) (expiry clock request) := by
  cases hget : (s.dropStale clock.now).rules.get? (request.blocked, request.requester) with
  | none =>
    rw [honour_new hget hroom]
    exact ⟨_, Dict.get?_set_self _ _ _, le_rfl⟩
  | some old =>
    unfold honour
    dsimp only
    rw [hget]
    dsimp only
    split_ifs with hlater
    · exact ⟨_, Dict.get?_set_self _ _ _, le_rfl⟩
    · exact ⟨old, hget, not_lt.mp hlater⟩

theorem asked_honour : (s.honour clock raw request).asked = s.asked := by
  unfold honour
  dsimp only
  split
  · split_ifs <;> rfl
  · split_ifs <;> rfl

variable {P} {me : Local} {peer payload : Bytes}

theorem handle_cases : let s' := s.handleStopRelay P me clock peer payload
    s'.rules = s.rules ∧ s'.asked = s.asked ∨
      ∃ request, parse P payload clock.stamp = some request ∧ request.requester ≠ me.id ∧
        s' = Stops.honour clock payload request { s with rate := (s.stopAllowed peer clock.now).2 } := by
  dsimp only
  unfold handleStopRelay
  dsimp only
  split_ifs with hrate hsize
  · exact .inl ⟨rfl, rfl⟩
  · exact .inl ⟨rfl, rfl⟩
  · split
    · exact .inl ⟨rfl, rfl⟩
    · next request hparse =>
      split_ifs with hown
      · exact .inl ⟨rfl, rfl⟩
      · exact .inr ⟨request, hparse, hown, rfl⟩

theorem handle_honours (hrate : (s.stopAllowed peer clock.now).1 = true)
    (hsize : payload ≠ [] ∧ payload.length ≤ stopRelayMax)
    (hparse : parse P payload clock.stamp = some request) (hother : request.requester ≠ me.id) :
    s.handleStopRelay P me clock peer payload =
      Stops.honour clock payload request { s with rate := (s.stopAllowed peer clock.now).2 } := by
  unfold handleStopRelay
  dsimp only
  rw [hrate, if_neg (by simp), if_neg (not_or.mpr ⟨hsize.1, not_lt.mpr hsize.2⟩), hparse]
  exact if_neg hother

end Honouring

end Stops

end NMesh.StopRelay.Rules
