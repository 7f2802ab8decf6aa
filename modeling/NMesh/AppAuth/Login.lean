import NMesh.AppAuth.Verify
import NMesh.Base.Runs
import Mathlib.Algebra.Order.Ring.Rat

/-! # The mutual login

HELLO brings a nonce, CHALLENGE a second one with the responder's proof over both, PROVE the initiator's. Each end
keeps one table of the nonces it waits on, for the logins it started (no prior nonce) and those it answered, and
finds a login in it by the peer alone.

A world is a family of instances with a log of what they did; a step is one call of one of them. -/

namespace NMesh.AppAuth.Login

open Base.BigEndian Base.Utf8 Base.Ordered
open NMesh.AppAuth.Format NMesh.AppAuth.Format.Assertion NMesh.AppAuth.Verify

def maxNonces : ℕ := 8192
def maxPending : ℕ := 512

def hello : UInt8 := 0x01
def challenge : UInt8 := 0x02
def prove : UInt8 := 0x03

def purposeLogin : Text := ascii "auth.login"

/-- A session of two proven identities. -/
structure Session where
  sid : Bytes
  peer : Bytes
  peerKey : Bytes
  establishedAt : ℚ
  expiresAt : ℚ
  deriving DecidableEq

/-- A nonce waited on: for whom, the nonce it answers (empty for a HELLO of ours), until when. -/
structure Waiting where
  peer : Bytes
  prior : Bytes
  deadline : ℚ
  deriving DecidableEq

/-- What an instance is made with; its constructor refuses an app id of another length. -/
structure Config where
  identity : Identity
  appId : Bytes
  nodeId : Bytes
  sessionTtl : ℚ
  maxSessions : ℕ
  appId_length : appId.length = appIdLen

/-- One instance of the service. -/
structure Service where
  nonces : NonceCache
  sessions : Dict Bytes Session
  pending : Dict Bytes Waiting

def Service.new : Service := ⟨⟨maxNonces, Dict.empty⟩, Dict.empty, Dict.empty⟩

variable (K : Primitives)

def loginCtx (na nb : Bytes) : Bytes := ctxHash K [(ascii "login").map UInt8.ofNat, na, nb]

def sessionId (na nb : Bytes) : Bytes := (ctxHash K [(ascii "session").map UInt8.ofNat, na, nb]).take 16

/-! ### The tables -/

def prunePending (now : ℚ) (d : Dict Bytes Waiting) : Dict Bytes Waiting :=
  Dict.makeRoom (maxPending + 1) d.size (d.filterVal fun e => decide (now < e.deadline))

def pruneSessions (now : ℚ) (d : Dict Bytes Session) : Dict Bytes Session :=
  d.filterVal fun s => decide (now < s.expiresAt)

def sessionOf (c : Config) (sid : Bytes) (principal : Principal) (now : ℚ) : Session :=
  ⟨sid, principal.nodeId, principal.publicKey, now, now + c.sessionTtl⟩

def storeSession (c : Config) (now : ℚ) (session : Session) (d : Dict Bytes Session) :
    Dict Bytes Session :=
  (Dict.makeRoom (max 1 c.maxSessions) d.size (pruneSessions now d)).set session.sid session

/-- The HELLO nonce still waited on for a peer: the first in the table. -/
def openHello (peer : Bytes) (d : Dict Bytes Waiting) : Option Bytes :=
  (d.entries.find? fun e => decide (e.2.peer = peer ∧ e.2.prior = [])).map Prod.fst

/-- The answered login still waited on for a peer, both its nonces: the first in the table. -/
def openAnswer (peer : Bytes) (d : Dict Bytes Waiting) : Option (Bytes × Bytes) :=
  (d.entries.find? fun e => decide (e.2.peer = peer ∧ e.2.prior ≠ [])).map fun e => (e.1, e.2.prior)

/-! ### The four steps of a login -/

def loginProof (c : Config) (peer na nb : Bytes) (m : Minting) : Option Assertion :=
  makeAssertion c.identity c.appId peer purposeLogin (loginCtx K na nb) defaultTtl m

/-- The check of the peer's proof of a login: its principal, and the nonces used up. -/
def proven (c : Config) (peer na nb blob : Bytes) (stamp : ℕ) (nonces : NonceCache) :
    Option Principal × NonceCache :=
  ((verifyAssertion K blob c.appId c.nodeId (some purposeLogin) (some (loginCtx K na nb)) nonces
      stamp).1.filter fun principal => decide (principal.nodeId = peer),
    (verifyAssertion K blob c.appId c.nodeId (some purposeLogin) (some (loginCtx K na nb)) nonces stamp).2)

def startLogin (c : Config) (peer nonce : Bytes) (now : ℚ) (s : Service) : Bytes × Service :=
  (hello :: nonce,
    { s with pending := (prunePending now s.pending).set nonce ⟨peer, [], now + c.sessionTtl⟩ })

/-- What `answer_login` has in hand when it answers. -/
structure Answered where
  na : Bytes
  nb : Bytes
  proof : Assertion
  deriving DecidableEq

def Answered.frame (r : Answered) : Bytes := challenge :: (r.nb ++ r.proof.serialize)

def answerLogin (c : Config) (peer frame nonce : Bytes) (m : Minting) (now : ℚ) (s : Service) :
    Option Answered × Service :=
  if frame.length ≠ 1 + nonceLen ∨ frame.head? ≠ some hello then (none, s)
  else if maxPending ≤ (prunePending now s.pending).size then
    (none, { s with pending := prunePending now s.pending })
  else match loginProof K c peer (frame.drop 1) nonce m with
    | none => (none, { s with pending := prunePending now s.pending })
    | some proof =>
      (some ⟨frame.drop 1, nonce, proof⟩, { s with
        pending := (prunePending now s.pending).set nonce ⟨peer, frame.drop 1, now + c.sessionTtl⟩ })

/-- What `complete_login` has in hand when it returns; it returns the session and the frame. -/
structure Completed where
  na : Bytes
  nb : Bytes
  proof : Assertion
  session : Session
  deriving DecidableEq

def Completed.frame (r : Completed) : Bytes := prove :: r.proof.serialize

def completeLogin (c : Config) (peer frame : Bytes) (m : Minting) (now : ℚ) (s : Service) :
    Option Completed × Service :=
  if frame.length < 1 + nonceLen ∨ frame.head? ≠ some challenge then (none, s)
  else match openHello peer s.pending with
    | none => (none, s)
    | some na =>
      match proven K c peer na (slice frame 1 nonceLen) (frame.drop (1 + nonceLen)) m.stamp s.nonces with
      | (none, nonces) => (none, { s with nonces })
      | (some principal, nonces) =>
        match loginProof K c peer na (slice frame 1 nonceLen) m with
        | none => (none, { s with nonces, pending := s.pending.pop na })
        | some proof =>
          (some ⟨na, slice frame 1 nonceLen, proof,
              sessionOf c (sessionId K na (slice frame 1 nonceLen)) principal now⟩,
            { nonces, pending := s.pending.pop na
              sessions := storeSession c now
                (sessionOf c (sessionId K na (slice frame 1 nonceLen)) principal now) s.sessions })

/-- What `accept_login` has in hand when it returns the session. -/
structure Accepted where
  na : Bytes
  nb : Bytes
  session : Session
  deriving DecidableEq

def acceptLogin (c : Config) (peer frame : Bytes) (stamp : ℕ) (now : ℚ) (s : Service) :
    Option Accepted × Service :=
  if frame.length < 1 ∨ frame.head? ≠ some prove then (none, s)
  else match openAnswer peer s.pending with
    | none => (none, s)
    | some (nb, na) =>
      match proven K c peer na nb (frame.drop 1) stamp s.nonces with
      | (none, nonces) => (none, { s with nonces })
      | (some principal, nonces) =>
        (some ⟨na, nb, sessionOf c (sessionId K na nb) principal now⟩,
          { nonces, pending := s.pending.pop nb
            sessions := storeSession c now (sessionOf c (sessionId K na nb) principal now) s.sessions })

/-! ### Worlds -/

/-- One call of an instance, with what it takes from outside. -/
inductive Event (ι : Type)
  | start (i : ι) (peer nonce : Bytes) (now : ℚ)
  | answer (i : ι) (peer frame nonce : Bytes) (m : Minting) (now : ℚ)
  | complete (i : ι) (peer frame : Bytes) (m : Minting) (now : ℚ)
  | accept (i : ι) (peer frame : Bytes) (stamp : ℕ) (now : ℚ)
  | assertTo (i : ι) (audience : Bytes) (purpose : Text) (ctx : Bytes) (ttl : ℕ) (m : Minting)
  | verify (i : ι) (blob : Bytes) (purpose : Option Text) (ctx audience : Option Bytes) (stamp : ℕ)
  | session (i : ι) (sid : Bytes) (now : ℚ)
  | dropSession (i : ι) (sid : Bytes)

/-- What the log keeps of a call that did something. -/
inductive Entry (ι : Type)
  | started (i : ι) (peer nonce : Bytes)
  | answered (i : ι) (peer : Bytes) (r : Answered)
  | completed (i : ι) (peer frame : Bytes) (r : Completed)
  | accepted (i : ι) (peer frame : Bytes) (r : Accepted)
  | asserted (i : ι) (proof : Assertion)
  deriving DecidableEq

/-- The instances, and what they did so far. -/
structure World (ι : Type) where
  services : ι → Service
  log : List (Entry ι)

section Step

variable {ι : Type} [DecidableEq ι] (cfg : ι → Config)

/-- Instance `i` changes, and the log grows. -/
def World.put (w : World ι) (i : ι) (s : Service) (es : List (Entry ι)) : World ι :=
  ⟨Function.update w.services i s, w.log ++ es⟩

def lookup (sid : Bytes) (now : ℚ) (s : Service) : Service :=
  { s with sessions := s.sessions.filterKeys fun k =>
      !(decide (k = sid) && (s.sessions.get? sid).any fun session => decide (session.expiresAt ≤ now)) }

/-- **One call.** -/
def step (w : World ι) : Event ι → World ι
  | .start i peer nonce now =>
    w.put i (startLogin (cfg i) peer nonce now (w.services i)).2 [.started i peer nonce]
  | .answer i peer frame nonce m now =>
    let out := answerLogin K (cfg i) peer frame nonce m now (w.services i)
    w.put i out.2 (out.1.map (.answered i peer)).toList
  | .complete i peer frame m now =>
    let out := completeLogin K (cfg i) peer frame m now (w.services i)
    w.put i out.2 (out.1.map (.completed i peer frame)).toList
  | .accept i peer frame stamp now =>
    let out := acceptLogin K (cfg i) peer frame stamp now (w.services i)
    w.put i out.2 (out.1.map (.accepted i peer frame)).toList
  | .assertTo i audience purpose ctx ttl m =>
    w.put i (w.services i) ((makeAssertion (cfg i).identity (cfg i).appId audience purpose ctx ttl
      m).map (.asserted i)).toList
  | .verify i blob purpose ctx audience stamp =>
    w.put i { w.services i with nonces := (verifyAssertion K blob (cfg i).appId
      (audience.getD (cfg i).nodeId) purpose ctx (w.services i).nonces stamp).2 } []
  | .session i sid now => w.put i (lookup sid now (w.services i)) []
  | .dropSession i sid =>
    w.put i { w.services i with sessions := (w.services i).sessions.pop sid } []

def fresh : World ι := ⟨fun _ => Service.new, []⟩

end Step

/-! ### What the steps do -/

variable {K} {c : Config} {s : Service} {peer frame nonce : Bytes} {m : Minting} {stamp : ℕ} {now : ℚ}

variable {d : Dict Bytes Waiting} {k : Bytes} {e : Waiting}

theorem get?_of_prunePending (h : (prunePending now d).get? k = some e) : d.get? k = some e :=
  Dict.get?_of_filterVal (Dict.get?_of_makeRoom h)

variable {na : Bytes}

theorem openHello_spec (h : openHello peer d = some na) :
    ∃ e, d.get? na = some e ∧ e.peer = peer ∧ e.prior = [] := by
  obtain ⟨e, he, rfl⟩ := Option.map_eq_some_iff.mp h
  have hmem := List.mem_of_find?_eq_some he
  have hp := List.find?_some he
  rw [decide_eq_true_eq] at hp
  exact ⟨e.2, Dict.get?_eq_some.mpr hmem, hp⟩

theorem openAnswer_spec {nb : Bytes} (h : openAnswer peer d = some (nb, na)) :
    ∃ e, d.get? nb = some e ∧ e.peer = peer ∧ e.prior = na ∧ na ≠ [] := by
  obtain ⟨e, he, heq⟩ := Option.map_eq_some_iff.mp h
  cases heq
  have hmem := List.mem_of_find?_eq_some he
  have hp := List.find?_some he
  rw [decide_eq_true_eq] at hp
  exact ⟨e.2, Dict.get?_eq_some.mpr hmem, hp.1, rfl, hp.2⟩

variable {principal : Principal}

theorem proven_spec {nb blob : Bytes} {nonces : NonceCache}
    (h : (proven K c peer na nb blob stamp nonces).1 = some principal) : ∃ a, parseAssertion blob = some a ∧
      Checks K c.appId c.nodeId (some purposeLogin) (some (loginCtx K na nb)) stamp a ∧
      principal = principalOf K a ∧ K.idOf a.subjectPub = peer := by
  obtain ⟨hv, hpeer⟩ := Option.filter_eq_some_iff.mp h
  obtain ⟨a, hparse, hchecks, rfl⟩ := verifyAssertion_spec hv
  exact ⟨a, hparse, hchecks, rfl, of_decide_eq_true hpeer⟩

theorem answerLogin_spec {r : Answered} (h : (answerLogin K c peer frame nonce m now s).1 = some r) :
    frame = hello :: r.na ∧ r.na.length = nonceLen ∧ r.nb = nonce ∧
      loginProof K c peer r.na r.nb m = some r.proof ∧
      (answerLogin K c peer frame nonce m now s).2.pending =
        (prunePending now s.pending).set r.nb ⟨peer, r.na, now + c.sessionTtl⟩ := by
  unfold answerLogin at h ⊢
  split at h
  · cases h
  next hframe =>
  rw [if_neg hframe]
  split at h
  · cases h
  next hfull =>
  rw [if_neg hfull]
  rw [not_or, not_not, not_not] at hframe
  cases hproof : loginProof K c peer (frame.drop 1) nonce m with
  | none => rw [hproof] at h; cases h
  | some proof =>
    rw [hproof] at h
    cases h
    obtain ⟨hlen, hhead⟩ := hframe
    obtain ⟨x, rest, rfl⟩ := List.exists_cons_of_length_pos (l := frame) (by rw [hlen]; decide)
    have hx : x = hello := Option.some.inj hhead
    rw [List.length_cons] at hlen
    exact ⟨by rw [hx]; rfl, by show rest.length = nonceLen; omega, rfl, hproof, rfl⟩

theorem answerLogin_of {proof : Assertion} (hna : na.length = nonceLen)
    (hroom : s.pending.size < maxPending) (hproof : loginProof K c peer na nonce m = some proof) :
    (answerLogin K c peer (hello :: na) nonce m now s).1 = some ⟨na, nonce, proof⟩ := by
  have hframe : ¬ ((hello :: na).length ≠ 1 + nonceLen ∨ (hello :: na).head? ≠ some hello) := by
    rw [not_or, not_not, not_not, List.length_cons, hna]
    exact ⟨rfl, rfl⟩
  have hsize : (prunePending now s.pending).size < maxPending := by
    have hle := Dict.size_filterVal_le s.pending fun e => decide (now < e.deadline)
    rw [prunePending, Dict.makeRoom_of_lt (by omega)]
    omega
  have hproof : loginProof K c peer ((hello :: na).drop 1) nonce m = some proof := hproof
  rw [answerLogin, if_neg hframe, if_neg (Nat.not_le.mpr hsize), hproof]
  rfl

theorem get?_of_answerLogin (h : (answerLogin K c peer frame nonce m now s).2.pending.get? k = some e) :
    s.pending.get? k = some e ∨ ∃ r, (answerLogin K c peer frame nonce m now s).1 = some r ∧ k = r.nb ∧
      e.peer = peer ∧ e.prior = r.na := by
  cases hout : (answerLogin K c peer frame nonce m now s).1 with
  | some r =>
    rw [(answerLogin_spec hout).2.2.2.2] at h
    rcases Dict.get?_of_set h with ⟨hk, rfl⟩ | ⟨-, h⟩
    · exact Or.inr ⟨r, rfl, hk, rfl, rfl⟩
    · exact Or.inl (get?_of_prunePending h)
  | none =>
    left
    unfold answerLogin at h hout
    split at h
    · exact h
    next hframe =>
    rw [if_neg hframe] at hout
    split at h
    · exact get?_of_prunePending h
    next hfull =>
    rw [if_neg hfull] at hout
    cases hproof : loginProof K c peer (frame.drop 1) nonce m with
    | none =>
      rw [hproof] at h
      exact get?_of_prunePending h
    | some proof => rw [hproof] at hout; cases hout

theorem completeLogin_spec {r : Completed} (h : (completeLogin K c peer frame m now s).1 = some r) :
    ∃ a, frame.head? = some challenge ∧ parseAssertion (frame.drop (1 + nonceLen)) = some a ∧
      Checks K c.appId c.nodeId (some purposeLogin) (some (loginCtx K r.na r.nb)) m.stamp a ∧
      K.idOf a.subjectPub = peer ∧ openHello peer s.pending = some r.na ∧
      r.nb.length = nonceLen ∧ loginProof K c peer r.na r.nb m = some r.proof ∧
      r.session.peer = peer ∧ r.session.sid = sessionId K r.na r.nb ∧
      (completeLogin K c peer frame m now s).2.pending = s.pending.pop r.na := by
  unfold completeLogin at h ⊢
  split at h
  · cases h
  next hframe =>
  rw [if_neg hframe]
  rw [not_or, not_not, not_lt] at hframe
  cases hopen : openHello peer s.pending with
  | none => rw [hopen] at h; cases h
  | some na =>
  rw [hopen] at h
  simp only at h ⊢
  rcases hproven : proven K c peer na (slice frame 1 nonceLen) (frame.drop (1 + nonceLen)) m.stamp s.nonces
    with ⟨_ | principal, nonces⟩
  · rw [hproven] at h; cases h
  rw [hproven] at h
  simp only at h ⊢
  obtain ⟨a, hparse, hchecks, rfl, hid⟩ := proven_spec (congrArg Prod.fst hproven)
  cases hproof : loginProof K c peer na (slice frame 1 nonceLen) m with
  | none => rw [hproof] at h; cases h
  | some proof =>
    rw [hproof] at h
    cases h
    exact ⟨a, hframe.2, hparse, hchecks, hid, rfl, length_slice hframe.1, hproof, hid, rfl, rfl⟩

theorem completeLogin_of {proof : Assertion}
    (hlen : 1 + nonceLen ≤ frame.length) (hhead : frame.head? = some challenge)
    (hopen : openHello peer s.pending = some na)
    (hproven : (proven K c peer na (slice frame 1 nonceLen) (frame.drop (1 + nonceLen)) m.stamp
      s.nonces).1 = some principal) (hproof : loginProof K c peer na (slice frame 1 nonceLen) m = some proof) :
    (completeLogin K c peer frame m now s).1 = some ⟨na, slice frame 1 nonceLen, proof,
      sessionOf c (sessionId K na (slice frame 1 nonceLen)) principal now⟩ := by
  have hframe : ¬ (frame.length < 1 + nonceLen ∨ frame.head? ≠ some challenge) := by
    rw [not_or, not_lt, not_not]
    exact ⟨hlen, hhead⟩
  rw [completeLogin, if_neg hframe, hopen]
  rcases hp : proven K c peer na (slice frame 1 nonceLen) (frame.drop (1 + nonceLen)) m.stamp s.nonces
    with ⟨_ | principal', nonces⟩
  · rw [hp] at hproven
    cases hproven
  · rw [hp] at hproven
    cases hproven
    simp only [hp, hproof]

theorem get?_of_completeLogin (h : (completeLogin K c peer frame m now s).2.pending.get? k = some e) :
    s.pending.get? k = some e := by
  unfold completeLogin at h
  split at h
  · exact h
  split at h
  · exact h
  split at h
  · exact h
  split at h
  · exact (Dict.get?_of_pop h).2
  · exact (Dict.get?_of_pop h).2

theorem acceptLogin_spec {r : Accepted} (h : (acceptLogin K c peer frame stamp now s).1 = some r) :
    ∃ a, frame.head? = some prove ∧ parseAssertion (frame.drop 1) = some a ∧
      Checks K c.appId c.nodeId (some purposeLogin) (some (loginCtx K r.na r.nb)) stamp a ∧
      K.idOf a.subjectPub = peer ∧ openAnswer peer s.pending = some (r.nb, r.na) ∧
      r.session.peer = peer ∧ r.session.sid = sessionId K r.na r.nb ∧
      (acceptLogin K c peer frame stamp now s).2.pending = s.pending.pop r.nb := by
  unfold acceptLogin at h ⊢
  split at h
  · cases h
  next hframe =>
  rw [if_neg hframe]
  rw [not_or, not_not] at hframe
  cases hopen : openAnswer peer s.pending with
  | none => rw [hopen] at h; cases h
  | some entry =>
  obtain ⟨nb, na⟩ := entry
  rw [hopen] at h
  simp only at h ⊢
  rcases hproven : proven K c peer na nb (frame.drop 1) stamp s.nonces with ⟨_ | principal, nonces⟩
  · rw [hproven] at h; cases h
  rw [hproven] at h
  obtain ⟨a, hparse, hchecks, rfl, hid⟩ := proven_spec (congrArg Prod.fst hproven)
  cases h
  exact ⟨a, hframe.2, hparse, hchecks, hid, rfl, hid, rfl, rfl⟩

theorem acceptLogin_of {nb : Bytes} (hhead : frame.head? = some prove)
    (hopen : openAnswer peer s.pending = some (nb, na))
    (hproven : (proven K c peer na nb (frame.drop 1) stamp s.nonces).1 = some principal) :
    (acceptLogin K c peer frame stamp now s).1 =
      some ⟨na, nb, sessionOf c (sessionId K na nb) principal now⟩ := by
  have hframe : ¬ (frame.length < 1 ∨ frame.head? ≠ some prove) := by
    rw [not_or, not_lt, not_not]
    refine ⟨?_, hhead⟩
    refine List.length_pos_of_ne_nil ?_
    rintro rfl
    cases hhead
  rw [acceptLogin, if_neg hframe, hopen]
  rcases hp : proven K c peer na nb (frame.drop 1) stamp s.nonces with ⟨_ | principal', nonces⟩
  · rw [hp] at hproven
    cases hproven
  · rw [hp] at hproven
    cases hproven
    simp only [hp]

theorem get?_of_acceptLogin (h : (acceptLogin K c peer frame stamp now s).2.pending.get? k = some e) :
    s.pending.get? k = some e := by
  unfold acceptLogin at h
  split at h
  · exact h
  split at h
  · exact h
  split at h
  · exact h
  · exact (Dict.get?_of_pop h).2

/-! ### What the steps leave -/

theorem get?_prunePending (hsize : d.size ≤ maxPending)
    (h : d.get? k = some e) (halive : now < e.deadline) : (prunePending now d).get? k = some e := by
  have hroom : (d.filterVal fun e => decide (now < e.deadline)).size < maxPending + 1 :=
    Nat.lt_succ_of_le ((Dict.size_filterVal_le d _).trans hsize)
  rw [prunePending, Dict.makeRoom_of_lt hroom, Dict.get?_filterVal, h]
  exact Option.filter_some_pos (decide_eq_true halive)

theorem get?_completeLogin {n : Bytes} {x : Waiting} (hx : s.pending.get? n = some x) :
    (completeLogin K c peer frame m now s).2.pending.get? n = some x ∨
      (openHello peer s.pending = some n ∧ frame.head? = some challenge ∧
        ∃ a, parseAssertion (frame.drop (1 + nonceLen)) = some a ∧
          a.ctx = loginCtx K n (slice frame 1 nonceLen)) := by
  by_cases hframe : frame.length < 1 + nonceLen ∨ frame.head? ≠ some challenge
  · left
    rw [completeLogin, if_pos hframe]
    exact hx
  cases hopen : openHello peer s.pending with
  | none =>
    left
    rw [completeLogin, if_neg hframe, hopen]
    exact hx
  | some na =>
    rcases hproven : proven K c peer na (slice frame 1 nonceLen) (frame.drop (1 + nonceLen)) m.stamp
      s.nonces with ⟨_ | principal, nonces⟩
    · left
      rw [completeLogin, if_neg hframe, hopen]
      simp only [hproven]
      exact hx
    · by_cases hn : n = na
      · right
        obtain ⟨a, hparse, hchecks, -, -⟩ := proven_spec (congrArg Prod.fst hproven)
        rw [not_or, not_not] at hframe
        exact ⟨by rw [hn], hframe.2, a, hparse, by rw [hn]; exact hchecks.2.2.2.1 _ rfl⟩
      · left
        have hpop : (s.pending.pop na).get? n = some x := by rw [Dict.get?_pop_of_ne _ hn, hx]
        rw [completeLogin, if_neg hframe, hopen]
        simp only [hproven]
        cases loginProof K c peer na (slice frame 1 nonceLen) m with
        | none | some proof => exact hpop

theorem get?_acceptLogin {n : Bytes} {x : Waiting} (hx : s.pending.get? n = some x) :
    (acceptLogin K c peer frame stamp now s).2.pending.get? n = some x ∨
      ∃ na, openAnswer peer s.pending = some (n, na) ∧ frame.head? = some prove ∧
        ∃ a, parseAssertion (frame.drop 1) = some a ∧ a.ctx = loginCtx K na n := by
  by_cases hframe : frame.length < 1 ∨ frame.head? ≠ some prove
  · left
    rw [acceptLogin, if_pos hframe]
    exact hx
  cases hopen : openAnswer peer s.pending with
  | none =>
    left
    rw [acceptLogin, if_neg hframe, hopen]
    exact hx
  | some entry =>
    obtain ⟨nb, na⟩ := entry
    rcases hproven : proven K c peer na nb (frame.drop 1) stamp s.nonces with ⟨_ | principal, nonces⟩
    · left
      rw [acceptLogin, if_neg hframe, hopen]
      simp only [hproven]
      exact hx
    · by_cases hn : n = nb
      · right
        obtain ⟨a, hparse, hchecks, -, -⟩ := proven_spec (congrArg Prod.fst hproven)
        rw [not_or, not_not] at hframe
        exact ⟨na, by rw [hn], hframe.2, a, hparse, by rw [hn]; exact hchecks.2.2.2.1 _ rfl⟩
      · left
        rw [acceptLogin, if_neg hframe, hopen]
        simp only [hproven]
        rw [Dict.get?_pop_of_ne _ hn, hx]

theorem mem_completeLogin (h : k ∈ (completeLogin K c peer frame m now s).2.nonces.seen.keys) :
    k ∈ s.nonces.seen.keys ∨ (frame.head? = some challenge ∧
      ∃ a, parseAssertion (frame.drop (1 + nonceLen)) = some a ∧ a.nonce = k) := by
  by_cases hframe : frame.length < 1 + nonceLen ∨ frame.head? ≠ some challenge
  · rw [completeLogin, if_pos hframe] at h
    exact Or.inl h
  rw [completeLogin, if_neg hframe] at h
  rw [not_or, not_not] at hframe
  cases hopen : openHello peer s.pending with
  | none =>
    rw [hopen] at h
    exact Or.inl h
  | some na =>
    have hk : k ∈ (proven K c peer na (slice frame 1 nonceLen) (frame.drop (1 + nonceLen)) m.stamp
        s.nonces).2.seen.keys := by
      rw [hopen] at h
      rcases hproven : proven K c peer na (slice frame 1 nonceLen) (frame.drop (1 + nonceLen)) m.stamp
        s.nonces with ⟨_ | principal, nonces⟩
      · simp only [hproven] at h
        exact h
      · simp only [hproven] at h
        cases hproof : loginProof K c peer na (slice frame 1 nonceLen) m with
        | none | some proof => rw [hproof] at h; exact h
    rcases mem_verifyAssertion hk with hk | hk
    · exact Or.inl hk
    · exact Or.inr ⟨hframe.2, hk⟩

theorem mem_acceptLogin (h : k ∈ (acceptLogin K c peer frame stamp now s).2.nonces.seen.keys) :
    k ∈ s.nonces.seen.keys ∨ (frame.head? = some prove ∧
      ∃ a, parseAssertion (frame.drop 1) = some a ∧ a.nonce = k) := by
  by_cases hframe : frame.length < 1 ∨ frame.head? ≠ some prove
  · rw [acceptLogin, if_pos hframe] at h
    exact Or.inl h
  rw [acceptLogin, if_neg hframe] at h
  rw [not_or, not_not] at hframe
  cases hopen : openAnswer peer s.pending with
  | none =>
    rw [hopen] at h
    exact Or.inl h
  | some entry =>
    obtain ⟨nb, na⟩ := entry
    have hk : k ∈ (proven K c peer na nb (frame.drop 1) stamp s.nonces).2.seen.keys := by
      rw [hopen] at h
      rcases hproven : proven K c peer na nb (frame.drop 1) stamp s.nonces with ⟨_ | principal, nonces⟩
      · simp only [hproven] at h
        exact h
      · simp only [hproven] at h
        exact h
    rcases mem_verifyAssertion hk with hk | hk
    · exact Or.inl hk
    · exact Or.inr ⟨hframe.2, hk⟩

theorem nonces_answerLogin :
    (answerLogin K c peer frame nonce m now s).2.nonces = s.nonces := by
  unfold answerLogin
  split
  · rfl
  split
  · rfl
  split <;> rfl

section Entries

variable {ι : Type} [DecidableEq ι] {cfg : ι → Config}

variable (K) (cfg) in
def New (w : World ι) (e : Event ι) : Entry ι → Prop
  | .started i peer nonce => ∃ now, e = .start i peer nonce now
  | .answered i peer r => ∃ frame m now, e = .answer i peer frame r.nb m now ∧
      (answerLogin K (cfg i) peer frame r.nb m now (w.services i)).1 = some r
  | .completed i peer frame r => ∃ m now, e = .complete i peer frame m now ∧
      (completeLogin K (cfg i) peer frame m now (w.services i)).1 = some r
  | .accepted i peer frame r => ∃ stamp now, e = .accept i peer frame stamp now ∧
      (acceptLogin K (cfg i) peer frame stamp now (w.services i)).1 = some r
  | .asserted i proof => ∃ audience purpose ctx ttl m, e = .assertTo i audience purpose ctx ttl m ∧
      makeAssertion (cfg i).identity (cfg i).appId audience purpose ctx ttl m = some proof

theorem step_log (w : World ι) (e : Event ι) : ∃ o : Option (Entry ι),
    (step K cfg w e).log = w.log ++ o.toList ∧ ∀ x ∈ o, New K cfg w e x := by
  cases e with
  | start i peer nonce now =>
    refine ⟨some (.started i peer nonce), rfl, ?_⟩
    rintro _ ⟨⟩
    exact ⟨now, rfl⟩
  | answer i peer frame nonce m now =>
    refine ⟨_, rfl, fun x hx => ?_⟩
    obtain ⟨r, hr, rfl⟩ := Option.map_eq_some_iff.mp hx
    obtain ⟨-, -, rfl, -⟩ := answerLogin_spec hr
    exact ⟨frame, m, now, rfl, hr⟩
  | complete i peer frame m now =>
    refine ⟨_, rfl, fun x hx => ?_⟩
    obtain ⟨r, hr, rfl⟩ := Option.map_eq_some_iff.mp hx
    exact ⟨m, now, rfl, hr⟩
  | accept i peer frame stamp now =>
    refine ⟨_, rfl, fun x hx => ?_⟩
    obtain ⟨r, hr, rfl⟩ := Option.map_eq_some_iff.mp hx
    exact ⟨stamp, now, rfl, hr⟩
  | assertTo i audience purpose ctx ttl m =>
    refine ⟨_, rfl, fun x hx => ?_⟩
    obtain ⟨q, hq, rfl⟩ := Option.map_eq_some_iff.mp hx
    exact ⟨audience, purpose, ctx, ttl, m, rfl, hq⟩
  | verify | session | dropSession => exact ⟨none, rfl, fun x hx => by cases hx⟩

theorem mem_step_log {w : World ι} {e : Event ι} {x : Entry ι} (h : x ∈ (step K cfg w e).log) :
    x ∈ w.log ∨ New K cfg w e x := by
  obtain ⟨o, hlog, hnew⟩ := @step_log K ι _ cfg w e
  rw [hlog] at h
  rcases List.mem_append.mp h with h | h
  · exact Or.inl h
  · exact Or.inr (hnew x (Option.mem_toList.mp h))

theorem mem_log_step {w : World ι} {e : Event ι} {x : Entry ι} (h : x ∈ w.log) :
    x ∈ (step K cfg w e).log := by
  obtain ⟨o, hlog, -⟩ := @step_log K ι _ cfg w e
  rw [hlog]
  exact List.mem_append_left _ h

end Entries

end NMesh.AppAuth.Login
