import NMesh.AppAuth.Agreement

/-! # A login whose frames arrive

Each end finds the login a frame belongs to by the peer alone: the first entry of its table for it. The frames of
a new login, each delivered once and in time, complete it exactly if no older entry for that peer waits at either
end (`completes_iff`); a HELLO that was lost is such an entry for an hour (`lost_hello`). -/

namespace NMesh.AppAuth.Completes

open Base.BigEndian Base.Utf8 Base.Ordered Base.Runs
open NMesh.AppAuth.Format NMesh.AppAuth.Format.Assertion NMesh.AppAuth.Verify NMesh.AppAuth.Login
open NMesh.AppAuth.Agreement

variable {ι : Type}

/-! ### The network between honest nodes -/

/-- The instance, the peer and the frame of a call that is given a login frame. -/
def brings : Event ι → Option (ι × Bytes × Bytes)
  | .answer i peer frame _ _ _ => some (i, peer, frame)
  | .complete i peer frame _ _ => some (i, peer, frame)
  | .accept i peer frame _ _ => some (i, peer, frame)
  | _ => none

/-- The instance, the peer and the frame of a logged call that sent a login frame. -/
def sends : Entry ι → Option (ι × Bytes × Bytes)
  | .started i peer nonce => some (i, peer, hello :: nonce)
  | .answered i peer r => some (i, peer, r.frame)
  | .completed i peer _ r => some (i, peer, r.frame)
  | _ => none

def proofs : Entry ι → Option Assertion
  | .answered _ _ r => some r.proof
  | .completed _ _ _ r => some r.proof
  | _ => none

def mintedNonce (x : Entry ι) : Option Bytes := (signs x).map fun y => y.2.nonce

/-- The time a call prunes the pending table of an instance at. -/
def prunes : Event ι → Option (ι × ℚ)
  | .start i _ _ now => some (i, now)
  | .answer i _ _ _ _ now => some (i, now)
  | _ => none

variable (K : Primitives) (cfg : ι → Config)

/-- Ids, digests and signatures as they are: their lengths, and that what is signed verifies. -/
structure Working : Prop where
  nodeId : ∀ i, (cfg i).nodeId.length = nodeIdLen
  digest : ∀ data, (K.sha256 data).length = ctxLen
  signature : ∀ i coins body, 0 < ((cfg i).identity.sign coins body).length ∧
    ((cfg i).identity.sign coins body).length ≤ maxSigLen
  verify : ∀ i coins body,
    K.verify body ((cfg i).identity.sign coins body) (cfg i).identity.publicKey = true

/-- **A call of a run without an adversary.** A login frame from the node of an instance was sent by an instance
of it to this node, an assertion is minted with a new nonce, and what others send carries no nonce of ours. -/
structure Honest (w : World ι) (e : Event ι) : Prop extends Ideal K cfg w e where
  sent : ∀ x ∈ brings e, ∀ j, (cfg j).nodeId = x.2.1 → ∃ y ∈ w.log.filterMap sends,
    (cfg y.1).nodeId = x.2.1 ∧ y.2.1 = (cfg x.1).nodeId ∧ y.2.2 = x.2.2
  minted : ∀ m ∈ mintings e, m.nonce ∉ w.log.filterMap mintedNonce ∧
    ∀ i, m.nonce ∉ (w.services i).nonces.seen.keys
  foreign : ∀ a ∈ given e, (∀ p ∈ peerOf e, ∀ j, (cfg j).nodeId ≠ p) →
    ∀ q ∈ w.log.filterMap proofs, q.nonce ≠ a.nonce

def Roomy (w : World ι) (e : Event ι) : Prop :=
  ∀ x ∈ prunes e, (w.services x.1).pending.size < maxPending

/-- A call between the steps of a login: honest, with room. -/
def Ordinary (w : World ι) (e : Event ι) : Prop := Honest K cfg w e ∧ Roomy w e

/-! ### One login among others -/

/-- A new login of instance `a` at instance `b`: what happened before and between its steps, what each
step draws, and the frames that are delivered. -/
structure Attempt (ι : Type) where
  a : ι
  b : ι
  before : List (Event ι)
  na : Bytes
  startedAt : ℚ
  gap₁ : List (Event ι)
  nb : Bytes
  mintB : Minting
  answeredAt : ℚ
  gap₂ : List (Event ι)
  challengeFrame : Bytes
  mintA : Minting
  completedAt : ℚ
  gap₃ : List (Event ι)
  proveFrame : Bytes
  stamp : ℕ
  acceptedAt : ℚ

namespace Attempt

variable [DecidableEq ι] (A : Attempt ι)

def start : Event ι := .start A.a (cfg A.b).nodeId A.na A.startedAt

def answer : Event ι := .answer A.b (cfg A.a).nodeId (hello :: A.na) A.nb A.mintB A.answeredAt

def complete : Event ι := .complete A.a (cfg A.b).nodeId A.challengeFrame A.mintA A.completedAt

/-- The world the login starts in, the one the HELLO is delivered in, the CHALLENGE, the PROVE. -/
def w₀ : World ι := run (step K cfg) fresh A.before

def w₁ : World ι := run (step K cfg) (step K cfg (A.w₀ K cfg) (A.start cfg)) A.gap₁

def w₂ : World ι := run (step K cfg) (step K cfg (A.w₁ K cfg) (A.answer cfg)) A.gap₂

def w₃ : World ι := run (step K cfg) (step K cfg (A.w₂ K cfg) (A.complete cfg)) A.gap₃

/-- What `answer_login` returns of the HELLO, `complete_login` of the CHALLENGE, `accept_login` of the
PROVE. -/
def answered : Option Answered :=
  (answerLogin K (cfg A.b) (cfg A.a).nodeId (hello :: A.na) A.nb A.mintB A.answeredAt
    ((A.w₁ K cfg).services A.b)).1

def completed : Option Completed :=
  (completeLogin K (cfg A.a) (cfg A.b).nodeId A.challengeFrame A.mintA A.completedAt
    ((A.w₂ K cfg).services A.a)).1

def accepted : Option Accepted :=
  (acceptLogin K (cfg A.b) (cfg A.a).nodeId A.proveFrame A.stamp A.acceptedAt
    ((A.w₃ K cfg).services A.b)).1

/-- **The frames of the login are each delivered once, in order and before they expire**, the pending
tables not full. -/
structure Delivered : Prop where
  app : (cfg A.a).appId = (cfg A.b).appId
  history : Guarded (step K cfg) (Honest K cfg) fresh A.before
  login : Guarded (step K cfg) (Ordinary K cfg) (A.w₀ K cfg)
    (A.start cfg :: A.gap₁ ++ A.answer cfg :: A.gap₂ ++ A.complete cfg :: A.gap₃)
  challenge : ∀ r, A.answered K cfg = some r → A.challengeFrame = r.frame
  prove : ∀ r, A.completed K cfg = some r → A.proveFrame = r.frame
  once : ∀ e ∈ A.before ++ A.gap₁ ++ A.gap₂ ++ A.gap₃, ∀ x ∈ brings e,
    x.2.2 ≠ hello :: A.na ∧ x.2.2 ≠ A.challengeFrame ∧ x.2.2 ≠ A.proveFrame
  helloAlive : ∀ e ∈ A.gap₁ ++ A.answer cfg :: A.gap₂, ∀ x ∈ prunes e, x.1 = A.a →
    x.2 < A.startedAt + (cfg A.a).sessionTtl
  answerAlive : ∀ e ∈ A.gap₂ ++ A.complete cfg :: A.gap₃, ∀ x ∈ prunes e, x.1 = A.b →
    x.2 < A.answeredAt + (cfg A.b).sessionTtl
  clock : A.mintB.stamp < 256 ^ 8 ∧ A.mintA.stamp < 256 ^ 8
  challengeAlive : A.mintB.stamp ≤ A.mintA.stamp + maxSkew ∧
    A.mintA.stamp < A.mintB.stamp + defaultTtl
  proveAlive : A.mintA.stamp ≤ A.stamp + maxSkew ∧ A.stamp < A.mintA.stamp + defaultTtl

def BothReturn : Prop :=
  ∃ r ∈ A.completed K cfg, ∃ r' ∈ A.accepted K cfg, r.session.sid = r'.session.sid

end Attempt

def Foremost (n : Bytes) (p : Waiting → Bool) (d : Dict Bytes Waiting) : Prop :=
  ∀ e ∈ d.entries.takeWhile (fun e => decide (e.1 ≠ n)), p e.2 = false

/-- **No older login of the two is waited on**: when the CHALLENGE comes, the initiator has no older HELLO
to the peer in its table; when the PROVE comes, the responder has no older answer to the peer in its. -/
def Attempt.Alone [DecidableEq ι] (A : Attempt ι) : Prop :=
  Foremost A.na (fun e => decide (e.peer = (cfg A.b).nodeId ∧ e.prior = []))
      ((A.w₂ K cfg).services A.a).pending ∧
    Foremost A.nb (fun e => decide (e.peer = (cfg A.a).nodeId ∧ e.prior ≠ []))
      ((A.w₃ K cfg).services A.b).pending

/-! ### Frames of honest nodes -/

/-- The invariant of honest runs: no two assertions have one nonce. -/
structure Net (w : World ι) : Prop where
  inv : Inv K cfg w
  minted : (w.log.filterMap mintedNonce).Nodup

variable {K} {cfg}

theorem proof_of_kept {log : List (Entry ι)} {x : Entry ι} {q : Assertion} (hW : Working K cfg)
    (hkept : Kept K cfg log x) (hq : proofs x = some q) : parseAssertion q.serialize = some q := by
  have hlogin : ∀ {i : ι} {peer na nb : Bytes} {m : Minting}, m.nonce.length = nonceLen →
      loginProof K (cfg i) peer na nb m = some q → parseAssertion q.serialize = some q := by
    intro i peer na nb m hm h
    obtain ⟨-, -, -, -, -, -, -, -, hsig, hfits⟩ := makeAssertion_spec h
    exact parse_serialize (hfits hm) (by rw [hsig]; exact hW.signature i _ _)
  cases x with
  | started | accepted | asserted => cases hq
  | answered i peer r =>
    cases hq
    obtain ⟨-, -, -, m, hm, h⟩ := hkept
    exact hlogin hm h
  | completed i peer frame r =>
    cases hq
    obtain ⟨-, -, -, ⟨m, hm, h⟩, -⟩ := hkept
    exact hlogin hm h

theorem loginProof_of (hW : Working K cfg) (i j : ι) (na nb : Bytes) {m : Minting}
    (hstamp : m.stamp < 256 ^ 8) : ∃ q, loginProof K (cfg j) (cfg i).nodeId na nb m = some q := by
  have hname : encodeUtf8 purposeLogin = some ((ascii "auth.login").map UInt8.ofNat) := by decide
  exact makeAssertion_of (cfg j).appId_length (hW.nodeId i) (hW.digest _) hname (by decide)
    (show 0 < defaultTtl ∧ defaultTtl ≤ maxTtl by decide) hstamp

variable {r : Answered} {j₀ : ι}

theorem drop_frame (hnb : r.nb.length = nonceLen) :
    r.frame.drop (1 + nonceLen) = r.proof.serialize := by
  show (r.nb ++ r.proof.serialize).drop nonceLen = r.proof.serialize
  rw [List.drop_left' hnb]

theorem slice_frame (hnb : r.nb.length = nonceLen) : slice r.frame 1 nonceLen = r.nb := by
  show (r.nb ++ r.proof.serialize).take nonceLen = r.nb
  rw [List.take_left' hnb]

variable {w : World ι} {i : ι} {peer : Bytes} {e : Event ι}

/-- **Where a frame that comes from a service's peer was sent**: in a login that was started, answered or completed. -/
theorem sent_from {frame : Bytes}
    (hG : Honest K cfg w e) (he : brings e = some (i, peer, frame)) (hpeer : (cfg j₀).nodeId = peer) :
    frame.head? = some hello ∨ (∃ j r, .answered j (cfg i).nodeId r ∈ w.log ∧ frame = r.frame) ∨
      ∃ j f r, .completed j (cfg i).nodeId f r ∈ w.log ∧ frame = r.frame := by
  obtain ⟨y, hy, -, hto, hframe⟩ := hG.sent _ he j₀ hpeer
  obtain ⟨x, hx, hsends⟩ := List.mem_filterMap.mp hy
  simp only at hto hframe
  subst hframe
  cases x with
  | started j p n =>
    cases hsends
    exact Or.inl rfl
  | answered j p r =>
    cases hsends
    simp only at hto
    subst hto
    exact Or.inr (Or.inl ⟨j, r, hx, rfl⟩)
  | completed j p f r =>
    cases hsends
    simp only at hto
    subst hto
    exact Or.inr (Or.inr ⟨j, f, r, hx, rfl⟩)
  | accepted | asserted => cases hsends

theorem challenge_from {frame : Bytes}
    (hG : Honest K cfg w e) (he : brings e = some (i, peer, frame)) (hpeer : (cfg j₀).nodeId = peer)
    (hhead : frame.head? = some challenge) : ∃ j r, .answered j (cfg i).nodeId r ∈ w.log ∧ frame = r.frame := by
  rcases sent_from hG he hpeer with hhello | h | ⟨_, _, r, _, rfl⟩
  · cases hhello.symm.trans hhead
  · exact h
  · cases hhead

theorem prove_from {frame : Bytes}
    (hG : Honest K cfg w e) (he : brings e = some (i, peer, frame)) (hpeer : (cfg j₀).nodeId = peer)
    (hhead : frame.head? = some prove) : ∃ j f r, .completed j (cfg i).nodeId f r ∈ w.log ∧ frame = r.frame := by
  rcases sent_from hG he hpeer with hhello | ⟨_, r, _, rfl⟩ | h
  · cases hhello.symm.trans hhead
  · cases hhead
  · exact h

/-! ### One call -/

variable {n : Bytes}

theorem minted_of_new {x : Entry ι} (h : New K cfg w e x)
    (hn : mintedNonce x = some n) : ∃ m ∈ mintings e, m.nonce = n := by
  cases x with
  | started | accepted => cases hn
  | answered i peer r =>
    obtain ⟨frame, m, now, rfl, hr⟩ := h
    obtain ⟨-, -, -, hproof, -⟩ := answerLogin_spec hr
    obtain ⟨-, -, -, -, hnonce, -⟩ := makeAssertion_spec hproof
    exact ⟨m, rfl, hnonce.symm.trans (Option.some.inj hn)⟩
  | completed i peer frame r =>
    obtain ⟨m, now, rfl, hr⟩ := h
    obtain ⟨a, -, -, -, -, -, -, hproof, -⟩ := completeLogin_spec hr
    obtain ⟨-, -, -, -, hnonce, -⟩ := makeAssertion_spec hproof
    exact ⟨m, rfl, hnonce.symm.trans (Option.some.inj hn)⟩
  | asserted i q =>
    obtain ⟨audience, purpose, ctx, ttl, m, rfl, hq⟩ := h
    obtain ⟨-, -, -, -, hnonce, -⟩ := makeAssertion_spec hq
    exact ⟨m, rfl, hnonce.symm.trans (Option.some.inj hn)⟩

section Step

variable [DecidableEq ι]

variable {w : World ι} {e : Event ι}

theorem net_step (hK : Sound K cfg) (hw : Net K cfg w)
    (hG : Honest K cfg w e) : Net K cfg (step K cfg w e) := by
  refine ⟨inv_step hK hw.inv hG.toIdeal, ?_⟩
  obtain ⟨o, hlog, hnew⟩ := @step_log K ι _ cfg w e
  rw [hlog, List.filterMap_append, List.nodup_append]
  refine ⟨hw.minted, ?_, ?_⟩
  · cases o with
    | none => simp
    | some x => cases hx : mintedNonce x <;> simp [hx]
  · rintro n hn n' hn' rfl
    obtain ⟨x, hx, hxn⟩ := List.mem_filterMap.mp hn'
    obtain ⟨m, hm, rfl⟩ := minted_of_new (hnew x (Option.mem_toList.mp hx)) hxn
    exact (hG.minted m hm).1 hn

/-- How a call can take a pending nonce away that has not expired: as the login it found and proved. -/
def Pops (K : Primitives) (w : World ι) (e : Event ι) (i : ι) (n : Bytes) : Prop :=
  (∃ peer frame m now, e = .complete i peer frame m now ∧
    openHello peer (w.services i).pending = some n ∧ frame.head? = some challenge ∧
    ∃ a, parseAssertion (frame.drop (1 + nonceLen)) = some a ∧
      a.ctx = loginCtx K n (slice frame 1 nonceLen)) ∨
  ∃ peer frame stamp now na, e = .accept i peer frame stamp now ∧
    openAnswer peer (w.services i).pending = some (n, na) ∧ frame.head? = some prove ∧
    ∃ a, parseAssertion (frame.drop 1) = some a ∧ a.ctx = loginCtx K na n

omit [DecidableEq ι] in
theorem drawn_of_pending (hw : Net K cfg w) {i : ι} {n : Bytes} {x : Waiting}
    (hx : (w.services i).pending.get? n = some x) : n ∈ w.log.filterMap drew := by
  rcases hw.inv.pending i n x hx with ⟨-, h⟩ | ⟨proof, h⟩
  · exact List.mem_filterMap.mpr ⟨_, h, rfl⟩
  · exact List.mem_filterMap.mpr ⟨_, h, rfl⟩

/-- **A pending nonce that has not expired stays, unless its login comes through.** -/
theorem pending_step (hw : Net K cfg w) (hG : Ordinary K cfg w e) {i : ι}
    {n : Bytes} {x : Waiting} (hx : (w.services i).pending.get? n = some x)
    (halive : ∀ y ∈ prunes e, y.1 = i → y.2 < x.deadline) :
    ((step K cfg w e).services i).pending.get? n = some x ∨ Pops K w e i n := by
  have hput : ∀ {j : ι} {s : Service} {es : List (Entry ι)},
      (i = j → s.pending.get? n = some x ∨ Pops K w e i n) →
        ((w.put j s es).services i).pending.get? n = some x ∨ Pops K w e i n :=
    services_of_put (P := fun s => s.pending.get? n = some x ∨ Pops K w e i n) (Or.inl hx)
  -- a table that is pruned keeps the entry, and the new nonce is another
  have hpruned : ∀ {now : ℚ} {nonce : Bytes} {v : Waiting}, (i, now) ∈ prunes e → nonce ∈ draws e →
      ((prunePending now (w.services i).pending).set nonce v).get? n = some x ∧
        (prunePending now (w.services i).pending).get? n = some x := by
    intro now nonce v hmem hnonce
    have hne : nonce ≠ n := by
      rintro rfl
      exact (hG.1.fresh nonce hnonce).2 (drawn_of_pending hw hx)
    have hkeep := get?_prunePending (hG.2 _ hmem).le hx (halive _ hmem rfl)
    exact ⟨by rw [Dict.get?_set_of_ne _ hne, hkeep], hkeep⟩
  cases e with
  | start j peer nonce now =>
    refine hput fun hij => Or.inl ?_
    subst hij
    exact (hpruned rfl rfl).1
  | answer j peer frame nonce m now =>
    refine hput fun hij => Or.inl ?_
    subst hij
    unfold answerLogin
    split
    · exact hx
    split
    · exact (hpruned (v := x) rfl rfl).2
    split
    · exact (hpruned (v := x) rfl rfl).2
    · exact (hpruned rfl rfl).1
  | complete j peer frame m now =>
    refine hput fun hij => ?_
    subst hij
    rcases get?_completeLogin hx with h | ⟨hopen, hhead, ha⟩
    · exact Or.inl h
    · exact Or.inr (Or.inl ⟨peer, frame, m, now, rfl, hopen, hhead, ha⟩)
  | accept j peer frame stamp now =>
    refine hput fun hij => ?_
    subst hij
    rcases get?_acceptLogin hx with h | ⟨na, hopen, hhead, ha⟩
    · exact Or.inl h
    · exact Or.inr (Or.inr ⟨peer, frame, stamp, now, na, rfl, hopen, hhead, ha⟩)
  | assertTo j | verify j | session j | dropSession j =>
    refine hput fun hij => Or.inl ?_
    subst hij
    exact hx

/-- A call that a login frame of kind `kind` is given to. -/
def Takes (e : Event ι) (i : ι) (frame : Bytes) (a : Assertion) : Prop :=
  (∃ peer m now, e = .complete i peer frame m now ∧ frame.head? = some challenge ∧
    parseAssertion (frame.drop (1 + nonceLen)) = some a) ∨
  ∃ peer stamp now, e = .accept i peer frame stamp now ∧ frame.head? = some prove ∧
    parseAssertion (frame.drop 1) = some a

/-- **A nonce is used up by a call that reads an assertion with it.** -/
theorem nonces_step {i : ι} {k : Bytes} (h : k ∈ ((step K cfg w e).services i).nonces.seen.keys) :
    k ∈ (w.services i).nonces.seen.keys ∨
      ∃ a ∈ given e, a.nonce = k ∧ (peerOf e = none ∨ ∃ frame, Takes e i frame a) := by
  revert h
  have hput : ∀ {j : ι} {s : Service} {es : List (Entry ι)} {R : Prop},
      (i = j → k ∈ s.nonces.seen.keys → k ∈ (w.services i).nonces.seen.keys ∨ R) →
        k ∈ ((w.put j s es).services i).nonces.seen.keys → k ∈ (w.services i).nonces.seen.keys ∨ R :=
    fun {_ _ _ R} => services_of_put
      (P := fun s => k ∈ s.nonces.seen.keys → k ∈ (w.services i).nonces.seen.keys ∨ R) Or.inl
  cases e with
  | answer j =>
    refine hput fun hij h => Or.inl ?_
    subst hij
    rwa [nonces_answerLogin] at h
  | complete j peer frame m now =>
    refine hput fun hij h => ?_
    subst hij
    rcases mem_completeLogin h with h | ⟨hhead, a, ha, hk⟩
    · exact Or.inl h
    · exact Or.inr ⟨a, ha, hk, Or.inr ⟨frame, Or.inl ⟨peer, m, now, rfl, hhead, ha⟩⟩⟩
  | accept j peer frame stamp now =>
    refine hput fun hij h => ?_
    subst hij
    rcases mem_acceptLogin h with h | ⟨hhead, a, ha, hk⟩
    · exact Or.inl h
    · exact Or.inr ⟨a, ha, hk, Or.inr ⟨frame, Or.inr ⟨peer, stamp, now, rfl, hhead, ha⟩⟩⟩
  | verify j blob purpose ctx audience stamp =>
    refine hput fun hij h => ?_
    subst hij
    rcases mem_verifyAssertion h with h | ⟨a, ha, hk⟩
    · exact Or.inl h
    · exact Or.inr ⟨a, ha, hk, Or.inl rfl⟩
  | start j | assertTo j | session j | dropSession j =>
    refine hput fun hij h => Or.inl ?_
    subst hij
    exact h

theorem unused_step (hW : Working K cfg) (hw : Net K cfg w)
    (hG : Honest K cfg w e) {x : Entry ι} {y : ι × Bytes × Bytes} {q : Assertion} (hx : x ∈ w.log)
    (hq : proofs x = some q) (hy : sends x = some y) (hfree : ∀ z ∈ brings e, z.2.2 ≠ y.2.2) {i : ι}
    (hnew : q.nonce ∉ (w.services i).nonces.seen.keys) :
    q.nonce ∉ ((step K cfg w e).services i).nonces.seen.keys := by
  intro hmem
  rcases nonces_step hmem with h | ⟨a, ha, hnonce, htakes⟩
  · exact hnew h
  have hours : q ∈ w.log.filterMap proofs := List.mem_filterMap.mpr ⟨x, hx, hq⟩
  -- two login proofs with this nonce are of one entry
  have hminted : ∀ {x' : Entry ι} {q' : Assertion}, proofs x' = some q' →
      mintedNonce x' = some q'.nonce := by
    intro x' q' h
    cases x' with
    | started | accepted | asserted => cases h
    | answered | completed => obtain rfl := Option.some.inj h; rfl
  have hone : ∀ {x' : Entry ι} {q' : Assertion}, x' ∈ w.log → proofs x' = some q' →
      q'.nonce = q.nonce → x' = x := by
    intro x' q' hx' hq' hsame
    exact eq_of_filterMap hw.minted hx' hx (hminted hq') (by rw [hminted hq, hsame])
  by_cases hpeer : ∀ p ∈ peerOf e, ∀ j, (cfg j).nodeId ≠ p
  · exact hG.foreign a ha hpeer q hours hnonce.symm
  push Not at hpeer
  obtain ⟨p, hp, j₀, hj₀⟩ := hpeer
  rcases htakes with hnone | ⟨frame, ⟨peer, m, now, rfl, hhead, hparse⟩ | ⟨peer, stamp, now, rfl, hhead, hparse⟩⟩
  · rw [hnone] at hp
    cases hp
  · cases hp
    obtain ⟨j, r, hr, rfl⟩ := challenge_from hG rfl hj₀ hhead
    rw [drop_frame (hw.inv.kept _ hr).2.1, proof_of_kept hW (hw.inv.kept _ hr) rfl] at hparse
    cases hparse
    obtain rfl := hone hr rfl hnonce
    exact hfree _ rfl (congrArg (fun y => y.2.2) (Option.some.inj hy))
  · cases hp
    obtain ⟨j, f, r, hr, rfl⟩ := prove_from hG rfl hj₀ hhead
    have hdrop : r.frame.drop 1 = r.proof.serialize := rfl
    rw [hdrop, proof_of_kept hW (hw.inv.kept _ hr) rfl] at hparse
    cases hparse
    obtain rfl := hone hr rfl hnonce
    exact hfree _ rfl (congrArg (fun y => y.2.2) (Option.some.inj hy))

end Step

/-! ### A login under way -/

variable {x : Waiting}

theorem find?_foremost {p : Waiting → Bool} (hp : p x = true) :
    ∀ {l : List (Bytes × Waiting)}, (l.map Prod.fst).Nodup → (n, x) ∈ l →
      ((l.find? fun e => p e.2) = some (n, x) ↔
        ∀ e ∈ l.takeWhile (fun e => decide (e.1 ≠ n)), p e.2 = false)
  | [], _, h => by cases h
  | e :: l, hn, h => by
    rw [List.map_cons, List.nodup_cons] at hn
    by_cases he : e.1 = n
    · have hex : e = (n, x) := by
        rcases List.mem_cons.mp h with h | h
        · exact h.symm
        · exact absurd (he ▸ List.mem_map_of_mem (f := Prod.fst) h) hn.1
      subst hex
      rw [List.takeWhile_cons_of_neg (by simp)]
      simp [hp]
    · have hl : (n, x) ∈ l := by
        rcases List.mem_cons.mp h with h | h
        · exact absurd (by rw [← h]) he
        · exact h
      rw [List.takeWhile_cons_of_pos (by simpa using he)]
      by_cases hpe : p e.2 = true
      · simp only [List.find?_cons, hpe]
        constructor
        · intro heq
          exact absurd (by rw [Option.some.inj heq]) he
        · intro hall
          rw [hall e List.mem_cons_self] at hpe
          cases hpe
      · rw [Bool.not_eq_true] at hpe
        simp only [List.find?_cons, hpe, List.forall_mem_cons, true_and]
        exact find?_foremost hp hn.2 hl

theorem openHello_iff {d : Dict Bytes Waiting} (hx : d.get? n = some x)
    (hpeer : x.peer = peer) (hprior : x.prior = []) : openHello peer d = some n ↔
      Foremost n (fun e => decide (e.peer = peer ∧ e.prior = [])) d := by
  have hfirst := find?_foremost (p := fun e => decide (e.peer = peer ∧ e.prior = []))
    (decide_eq_true ⟨hpeer, hprior⟩) d.nodup (Dict.get?_eq_some.mp hx)
  unfold Foremost
  rw [← hfirst, openHello, Option.map_eq_some_iff]
  constructor
  · rintro ⟨e, he, rfl⟩
    rw [he]
    have hmem := Dict.get?_eq_some.mpr (List.mem_of_find?_eq_some he)
    rw [Option.mem_unique hx hmem]
  · intro h
    exact ⟨(n, x), h, rfl⟩

theorem openAnswer_iff {na : Bytes} {d : Dict Bytes Waiting}
    (hx : d.get? n = some x) (hpeer : x.peer = peer) (hprior : x.prior = na) (hne : na ≠ []) :
    openAnswer peer d = some (n, na) ↔
      Foremost n (fun e => decide (e.peer = peer ∧ e.prior ≠ [])) d := by
  have hfirst := find?_foremost (p := fun e => decide (e.peer = peer ∧ e.prior ≠ []))
    (decide_eq_true ⟨hpeer, hprior ▸ hne⟩) d.nodup (Dict.get?_eq_some.mp hx)
  unfold Foremost
  rw [← hfirst, openAnswer, Option.map_eq_some_iff]
  constructor
  · rintro ⟨e, he, heq⟩
    obtain ⟨rfl, -⟩ := Prod.mk.inj heq
    rw [he]
    have hmem := Dict.get?_eq_some.mpr (List.mem_of_find?_eq_some he)
    rw [Option.mem_unique hx hmem]
  · intro h
    exact ⟨(n, x), h, by rw [hprior]⟩

theorem length_of_pending (hw : Net K cfg w) (hx : (w.services i).pending.get? n = some x) :
    n.length = nonceLen ∧ (x.prior ≠ [] → x.prior.length = nonceLen) := by
  rcases hw.inv.pending i n x hx with ⟨hnil, h⟩ | ⟨proof, h⟩
  · exact ⟨hw.inv.kept _ h, fun hne => absurd hnil hne⟩
  · exact ⟨(hw.inv.kept _ h).2.1, fun _ => (hw.inv.kept _ h).1⟩

theorem ne_nil_of_length (h : n.length = nonceLen) : n ≠ [] := by
  rintro rfl
  cases h

theorem pending_of_completed (hw : Net K cfg w) {j : ι} {p f : Bytes} {r : Completed}
    (h : .completed j p f r ∈ w.log) : (w.services i).pending.get? r.na = none := by
  rw [Option.eq_none_iff_forall_ne_some]
  intro x hx
  have hstarted := (hw.inv.kept _ h).1
  have hgone := hw.inv.completed _ _ _ _ h
  rcases hw.inv.pending _ _ _ hx with ⟨-, hm⟩ | ⟨proof, hm⟩
  · have hsame := eq_of_filterMap hw.inv.drawn hstarted hm rfl rfl
    rw [(Entry.started.inj hsame).1, hx] at hgone
    cases hgone
  · have hsame := eq_of_filterMap hw.inv.drawn hstarted hm rfl rfl
    cases hsame

theorem hello_popped (hW : Working K cfg) (hK : Sound K cfg) (hw : Net K cfg w) (hG : Honest K cfg w e)
    (hx : (w.services i).pending.get? n = some x) (hprior : x.prior = [])
    (hpeer : (cfg j₀).nodeId = x.peer) (hpops : Pops K w e i n) :
    ∃ j p r, .answered j p r ∈ w.log ∧ r.na = n ∧ ∃ z ∈ brings e, z.2.2 = r.frame := by
  rcases hpops with ⟨peer, frame, m, now, rfl, hopen, hhead, a, hparse, hctx⟩ |
      ⟨peer, frame, stamp, now, na, rfl, hopen, -⟩
  · obtain ⟨x', hx', rfl, -⟩ := openHello_spec hopen
    obtain rfl := Option.mem_unique hx hx'
    obtain ⟨j, r, hr, rfl⟩ := challenge_from hG rfl hpeer hhead
    obtain ⟨hna, hnb, -, m', hm', hproof⟩ := hw.inv.kept _ hr
    rw [drop_frame hnb, proof_of_kept hW (hw.inv.kept _ hr) rfl] at hparse
    cases hparse
    obtain ⟨-, -, -, -, -, -, -, hctx', -⟩ := makeAssertion_spec hproof
    have hn := (length_of_pending hw hx).1
    rw [slice_frame hnb, hctx'] at hctx
    exact ⟨j, _, r, hr, (loginCtx_inj hK hna hnb hn hnb hctx).1, _, rfl, rfl⟩
  · obtain ⟨x', hx', -, hprior', hne⟩ := openAnswer_spec hopen
    obtain rfl := Option.mem_unique hx hx'
    exact absurd (hprior'.symm.trans hprior) hne

theorem answer_popped (hW : Working K cfg) (hK : Sound K cfg) (hw : Net K cfg w)
    (hG : Honest K cfg w e) (hx : (w.services i).pending.get? n = some x) (hprior : x.prior ≠ [])
    (hpeer : (cfg j₀).nodeId = x.peer) (hpops : Pops K w e i n) :
    ∃ j p f r, .completed j p f r ∈ w.log ∧ r.na = x.prior ∧ ∃ z ∈ brings e, z.2.2 = r.frame := by
  rcases hpops with ⟨peer, frame, m, now, rfl, hopen, -⟩ |
      ⟨peer, frame, stamp, now, na, rfl, hopen, hhead, a, hparse, hctx⟩
  · obtain ⟨x', hx', -, hprior'⟩ := openHello_spec hopen
    obtain rfl := Option.mem_unique hx hx'
    exact absurd hprior' hprior
  · obtain ⟨x', hx', rfl, rfl, -⟩ := openAnswer_spec hopen
    obtain rfl := Option.mem_unique hx hx'
    obtain ⟨j, f, r, hr, rfl⟩ := prove_from hG rfl hpeer hhead
    obtain ⟨hstarted, hnb, -, ⟨m', hm', hproof⟩, -⟩ := hw.inv.kept _ hr
    have hdrop : r.frame.drop 1 = r.proof.serialize := rfl
    rw [hdrop, proof_of_kept hW (hw.inv.kept _ hr) rfl] at hparse
    cases hparse
    obtain ⟨-, -, -, -, -, -, -, hctx', -⟩ := makeAssertion_spec hproof
    obtain ⟨hn, hna'⟩ := length_of_pending hw hx
    rw [hctx'] at hctx
    exact ⟨j, _, f, r, hr, (loginCtx_inj hK (hw.inv.kept _ hstarted) hnb (hna' hprior) hn hctx).1, _, rfl,
      rfl⟩

section Phases

variable [DecidableEq ι] (A : Attempt ι)

variable (K cfg) in
/-- The HELLO is out, and not answered. -/
structure Asked (w : World ι) : Prop where
  net : Net K cfg w
  hello : (w.services A.a).pending.get? A.na =
    some ⟨(cfg A.b).nodeId, [], A.startedAt + (cfg A.a).sessionTtl⟩
  unanswered : ∀ j p r, .answered j p r ∈ w.log → r.na ≠ A.na

variable (K cfg) in
/-- The HELLO has one answer, whose proof the initiator has not seen. -/
structure Challenged (r : Answered) (w : World ι) : Prop where
  net : Net K cfg w
  hello : (w.services A.a).pending.get? A.na =
    some ⟨(cfg A.b).nodeId, [], A.startedAt + (cfg A.a).sessionTtl⟩
  answer : (w.services A.b).pending.get? A.nb =
    some ⟨(cfg A.a).nodeId, A.na, A.answeredAt + (cfg A.b).sessionTtl⟩
  logged : .answered A.b (cfg A.a).nodeId r ∈ w.log
  only : ∀ j p r', .answered j p r' ∈ w.log → r'.na = A.na → r' = r
  unused : r.proof.nonce ∉ (w.services A.a).nonces.seen.keys

variable (K cfg) in
/-- The answer was taken once, and the responder has not seen the proof it gave. -/
structure Proved (r : Completed) (w : World ι) : Prop where
  net : Net K cfg w
  answer : (w.services A.b).pending.get? A.nb =
    some ⟨(cfg A.a).nodeId, A.na, A.answeredAt + (cfg A.b).sessionTtl⟩
  nonce : r.na = A.na
  logged : .completed A.a (cfg A.b).nodeId A.challengeFrame r ∈ w.log
  only : ∀ j p f r', .completed j p f r' ∈ w.log → r'.na = A.na → r' = r
  unused : r.proof.nonce ∉ (w.services A.b).nonces.seen.keys

variable {A}

variable {w : World ι} {e : Event ι}

omit [DecidableEq ι] in
theorem unanswered_step {n : Bytes} {j : ι} {p : Bytes}
    (hfree : ∀ z ∈ brings e, z.2.2 ≠ hello :: n) (h : New K cfg w e (.answered j p r)) : r.na ≠ n := by
  obtain ⟨frame, m, now, rfl, hr⟩ := h
  rintro rfl
  exact hfree _ rfl (answerLogin_spec hr).1

theorem asked_step (hW : Working K cfg) (hK : Sound K cfg) (h : Asked K cfg A w)
 (hG : Ordinary K cfg w e) (hfree : ∀ z ∈ brings e, z.2.2 ≠ hello :: A.na)
    (halive : ∀ y ∈ prunes e, y.1 = A.a → y.2 < A.startedAt + (cfg A.a).sessionTtl) :
    Asked K cfg A (step K cfg w e) := by
  refine ⟨net_step hK h.net hG.1, ?_, ?_⟩
  · rcases pending_step h.net hG h.hello halive with hkeep | hpops
    · exact hkeep
    · obtain ⟨j, p, r, hr, hna, -⟩ := hello_popped hW hK h.net hG.1 h.hello rfl rfl hpops
      exact absurd hna (h.unanswered j p r hr)
  · intro j p r hmem
    rcases mem_step_log hmem with hold | hnew
    · exact h.unanswered j p r hold
    · exact unanswered_step hfree hnew

theorem challenged_step (hW : Working K cfg) (hK : Sound K cfg)
    (h : Challenged K cfg A r w) (hG : Ordinary K cfg w e)
    (hfree : ∀ z ∈ brings e, z.2.2 ≠ hello :: A.na ∧ z.2.2 ≠ r.frame)
    (halive : ∀ y ∈ prunes e, y.1 = A.a → y.2 < A.startedAt + (cfg A.a).sessionTtl)
    (halive' : ∀ y ∈ prunes e, y.1 = A.b → y.2 < A.answeredAt + (cfg A.b).sessionTtl) :
    Challenged K cfg A r (step K cfg w e) := by
  have hna : A.na ≠ [] := ne_nil_of_length (length_of_pending h.net h.hello).1
  refine ⟨net_step hK h.net hG.1, ?_, ?_, mem_log_step h.logged, ?_, ?_⟩
  · rcases pending_step h.net hG h.hello halive with hkeep | hpops
    · exact hkeep
    · obtain ⟨j, p, r', hr', hna', z, hz, hframe⟩ :=
        hello_popped hW hK h.net hG.1 h.hello rfl rfl hpops
      rw [h.only j p r' hr' hna'] at hframe
      exact absurd hframe (hfree z hz).2
  · rcases pending_step h.net hG h.answer halive' with hkeep | hpops
    · exact hkeep
    · -- the login is not completed: its HELLO is still waited on
      obtain ⟨j, p, f, r', hr', hna', -⟩ := answer_popped hW hK h.net hG.1 h.answer hna rfl hpops
      have hgone := pending_of_completed h.net hr' (i := A.a)
      rw [hna', h.hello] at hgone
      cases hgone
  · intro j p r' hmem hna'
    rcases mem_step_log hmem with hold | hnew
    · exact h.only j p r' hold hna'
    · exact absurd hna' (unanswered_step (fun z hz => (hfree z hz).1) hnew)
  · exact unused_step hW h.net hG.1 h.logged rfl rfl (fun z hz => (hfree z hz).2) h.unused

theorem proved_step (hW : Working K cfg) (hK : Sound K cfg) {r : Completed}
    (h : Proved K cfg A r w) (hG : Ordinary K cfg w e) (hfree : ∀ z ∈ brings e, z.2.2 ≠ r.frame)
    (halive : ∀ y ∈ prunes e, y.1 = A.b → y.2 < A.answeredAt + (cfg A.b).sessionTtl) :
    Proved K cfg A r (step K cfg w e) := by
  have hna : A.na ≠ [] := by
    rw [← h.nonce]
    exact ne_nil_of_length (h.net.inv.kept _ (h.net.inv.kept _ h.logged).1)
  refine ⟨net_step hK h.net hG.1, ?_, h.nonce, mem_log_step h.logged, ?_, ?_⟩
  · rcases pending_step h.net hG h.answer halive with hkeep | hpops
    · exact hkeep
    · obtain ⟨j, p, f, r', hr', hna', z, hz, hframe⟩ :=
        answer_popped hW hK h.net hG.1 h.answer hna rfl hpops
      rw [h.only j p f r' hr' hna'] at hframe
      exact absurd hframe (hfree z hz)
  · intro j p f r' hmem hna'
    rcases mem_step_log hmem with hold | ⟨m, now, rfl, hr'⟩
    · exact h.only j p f r' hold hna'
    · -- the nonce was taken from the only table that had it
      obtain ⟨a, -, -, -, -, hopen, -⟩ := completeLogin_spec hr'
      obtain ⟨x, hx, -⟩ := openHello_spec hopen
      rw [hna', ← h.nonce, pending_of_completed h.net h.logged] at hx
      cases hx
  · exact unused_step hW h.net hG.1 h.logged rfl rfl hfree h.unused

/-! ### From step to step -/

theorem parts (h : A.Delivered K cfg) :
    (Ordinary K cfg (A.w₀ K cfg) (A.start cfg) ∧
      Guarded (step K cfg) (Ordinary K cfg) (step K cfg (A.w₀ K cfg) (A.start cfg)) A.gap₁) ∧
    (Ordinary K cfg (A.w₁ K cfg) (A.answer cfg) ∧
      Guarded (step K cfg) (Ordinary K cfg) (step K cfg (A.w₁ K cfg) (A.answer cfg)) A.gap₂) ∧
    (Ordinary K cfg (A.w₂ K cfg) (A.complete cfg) ∧
      Guarded (step K cfg) (Ordinary K cfg) (step K cfg (A.w₂ K cfg) (A.complete cfg)) A.gap₃) := by
  obtain ⟨h12, h3⟩ := guarded_append.mp h.login
  obtain ⟨h1, h2⟩ := guarded_append.mp h12
  rw [run_append] at h3
  exact ⟨h1, h2, h3⟩

theorem once_of (h : A.Delivered K cfg)
    (he : e ∈ A.before ∨ e ∈ A.gap₁ ∨ e ∈ A.gap₂ ∨ e ∈ A.gap₃) : ∀ z ∈ brings e,
      z.2.2 ≠ hello :: A.na ∧ z.2.2 ≠ A.challengeFrame ∧ z.2.2 ≠ A.proveFrame := by
  refine h.once e ?_
  simp only [List.mem_append]
  tauto

theorem asked_w₁ (hW : Working K cfg) (hK : Sound K cfg) (h : A.Delivered K cfg) :
    Asked K cfg A (A.w₁ K cfg) := by
  obtain ⟨⟨hstart, hgap⟩, -, -⟩ := parts h
  have hbefore : Net K cfg (A.w₀ K cfg) ∧ ∀ j p r, .answered j p r ∈ (A.w₀ K cfg).log → r.na ≠ A.na := by
    refine Guarded.run_induct (P := fun w => Net K cfg w ∧ ∀ j p r, .answered j p r ∈ w.log → r.na ≠ A.na)
      ?_ ⟨⟨inv_fresh, List.nodup_nil⟩, fun j p r hr => by cases hr⟩
      (h.history.and (C := fun e => ∀ z ∈ brings e, z.2.2 ≠ hello :: A.na)
        fun e he z hz => (once_of h (Or.inl he) z hz).1)
    rintro w e ⟨hw, hun⟩ ⟨hG, hfree⟩
    refine ⟨net_step hK hw hG, fun j p r hmem => ?_⟩
    rcases mem_step_log hmem with hold | hnew
    · exact hun j p r hold
    · exact unanswered_step hfree hnew
  have hasked : Asked K cfg A (step K cfg (A.w₀ K cfg) (A.start cfg)) := by
    refine ⟨net_step hK hbefore.1 hstart.1, ?_, ?_⟩
    · show (((A.w₀ K cfg).put A.a (startLogin (cfg A.a) (cfg A.b).nodeId A.na A.startedAt
        ((A.w₀ K cfg).services A.a)).2 _).services A.a).pending.get? A.na = _
      rw [services_put]
      exact Dict.get?_set_self _ _ _
    · intro j p r hmem
      rcases mem_step_log hmem with hold | ⟨frame, m, now, he, -⟩
      · exact hbefore.2 j p r hold
      · cases he
  refine Guarded.run_induct (P := Asked K cfg A) ?_ hasked (hgap.and
    (C := fun e => (∀ z ∈ brings e, z.2.2 ≠ hello :: A.na) ∧
      ∀ y ∈ prunes e, y.1 = A.a → y.2 < A.startedAt + (cfg A.a).sessionTtl)
    fun e he => ⟨fun z hz => (once_of h (Or.inr (Or.inl he)) z hz).1,
      h.helloAlive e (List.mem_append_left _ he)⟩)
  rintro w e hw ⟨hG, hfree, halive⟩
  exact asked_step hW hK hw hG hfree halive

theorem answers (hW : Working K cfg) (h : A.Delivered K cfg) :
    ∃ proof, loginProof K (cfg A.b) (cfg A.a).nodeId A.na A.nb A.mintB = some proof ∧
      A.answered K cfg = some ⟨A.na, A.nb, proof⟩ := by
  obtain ⟨⟨hstart, -⟩, ⟨hanswer, -⟩, -⟩ := parts h
  have hna : A.na.length = nonceLen := (hstart.1.fresh A.na rfl).1
  obtain ⟨proof, hproof⟩ := loginProof_of hW A.a A.b A.na A.nb h.clock.1
  exact ⟨proof, hproof, answerLogin_of hna (hanswer.2 (A.b, A.answeredAt) rfl) hproof⟩

theorem challenged_w₂ (hW : Working K cfg) (hK : Sound K cfg) (h : A.Delivered K cfg) {proof : Assertion}
    (hr : A.answered K cfg = some ⟨A.na, A.nb, proof⟩) :
    Challenged K cfg A ⟨A.na, A.nb, proof⟩ (A.w₂ K cfg) := by
  obtain ⟨-, ⟨hanswer, hgap⟩, -⟩ := parts h
  have hw := asked_w₁ hW hK h
  have hframe := h.challenge _ hr
  have hchallenged : Challenged K cfg A ⟨A.na, A.nb, proof⟩ (step K cfg (A.w₁ K cfg) (A.answer cfg)) := by
    obtain ⟨-, -, -, hproof, hpending⟩ := answerLogin_spec hr
    have hservice : (step K cfg (A.w₁ K cfg) (A.answer cfg)).services A.b =
        (answerLogin K (cfg A.b) (cfg A.a).nodeId (hello :: A.na) A.nb A.mintB A.answeredAt
          ((A.w₁ K cfg).services A.b)).2 := services_put _ _ _ _
    refine ⟨net_step hK hw.net hanswer.1, ?_, ?_, ?_, ?_, ?_⟩
    · rcases pending_step hw.net hanswer hw.hello (h.helloAlive _ (by simp)) with hkeep | hpops
      · exact hkeep
      · rcases hpops with ⟨peer, frame, m, now, he, -⟩ | ⟨peer, frame, stamp, now, na, he, -⟩
        · cases he
        · cases he
    · rw [hservice, hpending]
      exact Dict.get?_set_self _ _ _
    · have hlog : (step K cfg (A.w₁ K cfg) (A.answer cfg)).log = (A.w₁ K cfg).log ++
          ((A.answered K cfg).map (.answered A.b (cfg A.a).nodeId)).toList := rfl
      rw [hlog, hr]
      exact List.mem_append_right _ List.mem_cons_self
    · intro j p r' hmem hna
      rcases mem_step_log hmem with hold | ⟨frame, m, now, he, hr'⟩
      · exact absurd hna (hw.unanswered j p r' hold)
      · obtain ⟨rfl, rfl, rfl, hnb, rfl, rfl⟩ := Event.answer.inj he
        rw [← hnb] at hr'
        exact Option.mem_unique hr' hr
    · have hnonce := (makeAssertion_spec hproof).2.2.2.2.1
      have hnew := (hanswer.1.minted A.mintB rfl).2 A.a
      intro hmem
      rw [hnonce] at hmem
      rcases nonces_step hmem with hold | ⟨a, ha, -⟩
      · exact hnew hold
      · cases ha
  refine Guarded.run_induct (P := Challenged K cfg A ⟨A.na, A.nb, proof⟩) ?_ hchallenged (hgap.and
    (C := fun e => (∀ z ∈ brings e, z.2.2 ≠ hello :: A.na ∧ z.2.2 ≠ A.challengeFrame) ∧
      (∀ y ∈ prunes e, y.1 = A.a → y.2 < A.startedAt + (cfg A.a).sessionTtl) ∧
      ∀ y ∈ prunes e, y.1 = A.b → y.2 < A.answeredAt + (cfg A.b).sessionTtl)
    fun e he => ⟨fun z hz => ?_, ?_, ?_⟩)
  · rintro w e hw' ⟨hG, hfree, halive, halive'⟩
    exact challenged_step hW hK hw' hG (hframe ▸ hfree) halive halive'
  · have hfree := once_of h (Or.inr (Or.inr (Or.inl he))) z hz
    exact ⟨hfree.1, hfree.2.1⟩
  · exact h.helloAlive e (List.mem_append_right _ (List.mem_cons_of_mem _ he))
  · exact h.answerAlive e (List.mem_append_left _ he)

theorem proved_w₃ (hW : Working K cfg) (hK : Sound K cfg) (h : A.Delivered K cfg)
    (hw : Challenged K cfg A r (A.w₂ K cfg)) (hframe : A.challengeFrame = r.frame) {r' : Completed}
    (hr' : A.completed K cfg = some r') (hnonce : r'.na = A.na) : Proved K cfg A r' (A.w₃ K cfg) := by
  obtain ⟨-, -, ⟨hcomplete, hgap⟩⟩ := parts h
  have hproved : Proved K cfg A r' (step K cfg (A.w₂ K cfg) (A.complete cfg)) := by
    obtain ⟨a, -, -, -, -, -, -, hproof, -⟩ := completeLogin_spec hr'
    have hna : A.na ≠ [] := ne_nil_of_length (length_of_pending hw.net hw.hello).1
    refine ⟨net_step hK hw.net hcomplete.1, ?_, hnonce, ?_, ?_, ?_⟩
    · rcases pending_step hw.net hcomplete hw.answer (fun y hy => by cases hy) with hkeep | hpops
      · exact hkeep
      · rcases hpops with ⟨peer, frame, m, now, he, hopen, -⟩ | ⟨peer, frame, stamp, now, na, he, -⟩
        · obtain ⟨x, hx, -, hprior⟩ := openHello_spec hopen
          obtain rfl := Option.mem_unique hw.answer hx
          exact absurd hprior hna
        · cases he
    · have hlog : (step K cfg (A.w₂ K cfg) (A.complete cfg)).log = (A.w₂ K cfg).log ++
          ((A.completed K cfg).map (.completed A.a (cfg A.b).nodeId A.challengeFrame)).toList := rfl
      rw [hlog, hr']
      exact List.mem_append_right _ List.mem_cons_self
    · intro j p f r'' hmem hna'
      rcases mem_step_log hmem with hold | ⟨m, now, he, hr''⟩
      · -- the HELLO is still waited on, so nobody completed it
        have hgone := pending_of_completed hw.net hold (i := A.a)
        rw [hna', hw.hello] at hgone
        cases hgone
      · obtain ⟨rfl, rfl, rfl, rfl, rfl⟩ := Event.complete.inj he
        exact Option.mem_unique hr'' hr'
    · have hminted := (makeAssertion_spec hproof).2.2.2.2.1
      obtain ⟨hnew, hseen⟩ := hcomplete.1.minted A.mintA rfl
      intro hmem
      rw [hminted] at hmem
      rcases nonces_step hmem with hold | ⟨a', ha', hsame, -⟩
      · exact hseen A.b hold
      · -- the proof it took has a nonce drawn before
        have hparse : parseAssertion (A.challengeFrame.drop (1 + nonceLen)) = some a' := ha'
        have hkept := hw.net.inv.kept _ hw.logged
        rw [hframe, drop_frame hkept.2.1, proof_of_kept hW hkept rfl] at hparse
        cases hparse
        exact hnew (List.mem_filterMap.mpr ⟨_, hw.logged, by rw [← hsame]; rfl⟩)
  refine Guarded.run_induct (P := Proved K cfg A r') ?_ hproved (hgap.and
    (C := fun e => (∀ z ∈ brings e, z.2.2 ≠ A.proveFrame) ∧
      ∀ y ∈ prunes e, y.1 = A.b → y.2 < A.answeredAt + (cfg A.b).sessionTtl)
    fun e he => ⟨fun z hz => (once_of h (Or.inr (Or.inr (Or.inr he))) z hz).2.2, ?_⟩)
  · rintro w e hw' ⟨hG, hfree, halive⟩
    rw [h.prove r' hr'] at hfree
    exact proved_step hW hK hw' hG hfree halive
  · exact h.answerAlive e (List.mem_append_right _ (List.mem_cons_of_mem _ he))

omit [DecidableEq ι] in
theorem proven_of (hK : Sound K cfg) (hW : Working K cfg) {i j : ι} {na nb : Bytes} {m : Minting}
    {q : Assertion} {nonces : NonceCache} {stamp : ℕ} (happ : (cfg i).appId = (cfg j).appId)
    (hm : m.nonce.length = nonceLen) (hq : loginProof K (cfg j) (cfg i).nodeId na nb m = some q)
    (halive : m.stamp ≤ stamp + maxSkew ∧ stamp < m.stamp + defaultTtl)
    (hnew : q.nonce ∉ nonces.seen.keys) :
    (proven K (cfg i) (cfg j).nodeId na nb q.serialize stamp nonces).1 = some (principalOf K q) := by
  obtain ⟨hqapp, hqpub, hqaud, hqpurpose, -, hqissued, hqttl, hqctx, hqsig, hqfits⟩ := makeAssertion_spec hq
  have hparse : parseAssertion q.serialize = some q :=
    parse_serialize (hqfits hm) (by rw [hqsig]; exact hW.signature j _ _)
  have hchecks : Checks K (cfg i).appId (cfg i).nodeId (some purposeLogin) (some (loginCtx K na nb)) stamp
      q := by
    refine ⟨hqapp.trans happ.symm, Or.inl hqaud, ?_, ?_, ?_, ?_⟩
    · rintro p ⟨⟩
      exact hqpurpose
    · rintro p ⟨⟩
      exact hqctx
    · rw [Assertion.expiresAt, hqissued, hqttl]
      exact halive
    · rw [hqsig, hqpub]
      exact hW.verify j _ _
  have hv := verifyAssertion_of hparse hchecks hnew
  have hid : (principalOf K q).nodeId = (cfg j).nodeId := by
    show K.idOf q.subjectPub = _
    rw [hqpub, hK.nodeId j]
  rw [proven, hv]
  simp only [Option.filter_some, hid, decide_true, if_true]

/-- **The frames of a login complete it exactly if no older login of the two is waited on** where they
arrive. -/
theorem completes_iff (hW : Working K cfg) (hK : Sound K cfg) (h : A.Delivered K cfg) :
    A.BothReturn K cfg ↔ A.Alone K cfg := by
  obtain ⟨⟨hstart, -⟩, ⟨hanswer, -⟩, ⟨hcomplete, -⟩⟩ := parts h
  obtain ⟨proof, hproof, hr⟩ := answers hW h
  have hframe : A.challengeFrame = Answered.frame ⟨A.na, A.nb, proof⟩ := h.challenge _ hr
  have hw := challenged_w₂ hW hK h hr
  obtain ⟨hna, hnb, -, -⟩ := hw.net.inv.kept _ hw.logged
  have hhead : A.challengeFrame.head? = some challenge := by rw [hframe]; rfl
  have hslice : slice A.challengeFrame 1 nonceLen = A.nb := by rw [hframe]; exact slice_frame hnb
  have hdrop : A.challengeFrame.drop (1 + nonceLen) = proof.serialize := by
    rw [hframe]; exact drop_frame hnb
  have hparse : parseAssertion proof.serialize = some proof :=
    proof_of_kept hW (hw.net.inv.kept _ hw.logged) rfl
  have hctx : proof.ctx = loginCtx K A.na A.nb := (makeAssertion_spec hproof).2.2.2.2.2.2.2.1
  have hhello := openHello_iff hw.hello rfl rfl
  -- a CHALLENGE that is taken is taken for its HELLO
  have htaken : ∀ {r : Completed}, A.completed K cfg = some r →
      r.na = A.na ∧ r.nb = A.nb ∧ openHello (cfg A.b).nodeId ((A.w₂ K cfg).services A.a).pending =
        some A.na := by
    intro r hr'
    obtain ⟨a, -, hparse', hchecks, -, hopen, hnb', -⟩ := completeLogin_spec hr'
    obtain ⟨x, hx, -⟩ := openHello_spec hopen
    rw [hdrop] at hparse'
    obtain rfl := Option.mem_unique hparse hparse'
    obtain ⟨hna', hnb''⟩ : r.na = A.na ∧ r.nb = A.nb := loginCtx_inj hK (length_of_pending hw.net hx).1
      hnb' hna hnb ((hchecks.2.2.2.1 _ rfl).symm.trans hctx)
    exact ⟨hna', hnb'', by rw [← hna']; exact hopen⟩
  constructor
  · rintro ⟨r, hr', r', hr'', -⟩
    obtain ⟨hrna, hrnb, hopen⟩ := htaken hr'
    have hw₃ := proved_w₃ hW hK h hw hframe hr' hrna
    refine ⟨hhello.mp hopen, (openAnswer_iff hw₃.answer rfl rfl (ne_nil_of_length hna)).mp ?_⟩
    obtain ⟨a, -, -, -, -, -, -, hproof', -⟩ := completeLogin_spec hr'
    obtain ⟨a', -, hparse', hchecks', -, hopen', -⟩ := acceptLogin_spec hr''
    obtain ⟨x, hx, -, hxprior, hxne⟩ := openAnswer_spec hopen'
    have hdrop' : A.proveFrame.drop 1 = r.proof.serialize := by rw [h.prove r hr']; rfl
    rw [hdrop', proof_of_kept hW (hw₃.net.inv.kept _ hw₃.logged) rfl] at hparse'
    cases hparse'
    obtain ⟨hn, hprior⟩ := length_of_pending hw₃.net hx
    have hprior := hprior (hxprior ▸ hxne)
    rw [hxprior] at hprior
    have hctx' := (makeAssertion_spec hproof').2.2.2.2.2.2.2.1
    obtain ⟨hna', hnb'⟩ := loginCtx_inj hK hprior hn (hrna ▸ hna) (hrnb ▸ hnb)
      ((hchecks'.2.2.2.1 _ rfl).symm.trans hctx')
    rw [hna', hnb', hrna, hrnb] at hopen'
    exact hopen'
  · rintro ⟨hA, hB⟩
    have hopen := hhello.mpr hA
    have hproven : (proven K (cfg A.a) (cfg A.b).nodeId A.na (slice A.challengeFrame 1 nonceLen)
        (A.challengeFrame.drop (1 + nonceLen)) A.mintA.stamp ((A.w₂ K cfg).services A.a).nonces).1 =
        some (principalOf K proof) := by
      rw [hslice, hdrop]
      exact proven_of hK hW h.app (hanswer.1.minting _ rfl) hproof h.challengeAlive hw.unused
    obtain ⟨reply, hreply⟩ := loginProof_of hW A.b A.a A.na A.nb h.clock.2
    have hlen : 1 + nonceLen ≤ A.challengeFrame.length := by
      rw [hframe, Answered.frame, List.length_cons, List.length_append, hnb]
      omega
    have hreply' : loginProof K (cfg A.a) (cfg A.b).nodeId A.na (slice A.challengeFrame 1 nonceLen)
        A.mintA = some reply := by
      rw [hslice]
      exact hreply
    have hr' : A.completed K cfg = some _ := completeLogin_of hlen hhead hopen hproven hreply'
    have hw₃ := proved_w₃ hW hK h hw hframe hr' rfl
    have hopen' := (openAnswer_iff hw₃.answer rfl rfl (ne_nil_of_length hna)).mpr hB
    have hdrop' : A.proveFrame.drop 1 = reply.serialize := by rw [h.prove _ hr']; rfl
    have hproven' : (proven K (cfg A.b) (cfg A.a).nodeId A.na A.nb (A.proveFrame.drop 1) A.stamp
        ((A.w₃ K cfg).services A.b).nonces).1 = some (principalOf K reply) := by
      rw [hdrop']
      exact proven_of hK hW h.app.symm (hcomplete.1.minting _ rfl) hreply h.proveAlive hw₃.unused
    have hhead' : A.proveFrame.head? = some prove := by rw [h.prove _ hr']; rfl
    have hr'' : A.accepted K cfg = some _ := acceptLogin_of hhead' hopen' hproven'
    exact ⟨_, hr', _, hr'', by rw [← hslice]; rfl⟩

end Phases

/-! ### Two attempts -/

instance [Fintype ι] (w : World ι) (e : Event ι) : Decidable (Honest K cfg w e) :=
  decidable_of_iff (Ideal K cfg w e ∧
      (∀ x ∈ brings e, ∀ j, (cfg j).nodeId = x.2.1 → ∃ y ∈ w.log.filterMap sends,
        (cfg y.1).nodeId = x.2.1 ∧ y.2.1 = (cfg x.1).nodeId ∧ y.2.2 = x.2.2) ∧
      (∀ m ∈ mintings e, m.nonce ∉ w.log.filterMap mintedNonce ∧
        ∀ i, m.nonce ∉ (w.services i).nonces.seen.keys) ∧
      ∀ a ∈ given e, (∀ p ∈ peerOf e, ∀ j, (cfg j).nodeId ≠ p) →
        ∀ q ∈ w.log.filterMap proofs, q.nonce ≠ a.nonce)
    ⟨fun ⟨h1, h2, h3, h4⟩ => ⟨h1, h2, h3, h4⟩, fun h => ⟨h.toIdeal, h.sent, h.minted, h.foreign⟩⟩

instance (w : World ι) (e : Event ι) : Decidable (Roomy w e) := by unfold Roomy; infer_instance

instance [Fintype ι] (w : World ι) (e : Event ι) : Decidable (Ordinary K cfg w e) := by
  unfold Ordinary; infer_instance

theorem pair_working : Working plain pair where
  nodeId _ := List.length_replicate
  digest data := by
    show (List.take 32 (_ ++ List.replicate 32 (0 : UInt8))).length = 32
    rw [List.length_take, List.length_append, List.length_replicate]
    omega
  signature _ _ _ := show 0 < 1 ∧ 1 ≤ maxSigLen by decide
  verify _ _ _ := rfl

def attempt (before : List (Event Bool)) : Attempt Bool where
  a := false
  b := true
  before := before
  na := List.replicate 16 3
  startedAt := 10
  gap₁ := []
  nb := List.replicate 16 4
  mintB := minting 5
  answeredAt := 11
  gap₂ := []
  challengeFrame := challenge :: (List.replicate 16 4 ++
    proofOf true (List.replicate 16 3) (List.replicate 16 4) (minting 5))
  mintA := minting 6
  completedAt := 12
  gap₃ := []
  proveFrame := prove :: proofOf false (List.replicate 16 3) (List.replicate 16 4) (minting 6)
  stamp := 1001
  acceptedAt := 13

theorem completes_first : (attempt []).BothReturn plain pair := by
  have h : (attempt []).Delivered plain pair :=
    { app := rfl
      history := trivial
      login := by decide +kernel
      challenge := show ∀ r ∈ (attempt []).answered plain pair, _ by decide +kernel
      prove := show ∀ r ∈ (attempt []).completed plain pair, _ by decide +kernel
      once := fun e he => by cases he
      helloAlive := by decide +kernel
      answerAlive := by decide +kernel
      clock := by decide
      challengeAlive := by decide
      proveAlive := by decide }
  refine (completes_iff pair_working pair_sound h).mpr ⟨?_, ?_⟩
  · show ∀ e ∈ List.takeWhile _ _, _
    decide +kernel
  · show ∀ e ∈ List.takeWhile _ _, _
    decide +kernel

/-- **A login whose frames arrive need not complete**: the HELLO of the one before was lost. -/
theorem lost_hello : Sound plain pair ∧ Working plain pair ∧
    (attempt [.start false (pair true).nodeId (List.replicate 16 8) 0]).Delivered plain pair ∧
    ¬ (attempt [.start false (pair true).nodeId (List.replicate 16 8) 0]).BothReturn plain pair := by
  refine ⟨pair_sound, pair_working,
    { app := rfl
      history := by decide +kernel
      login := by decide +kernel
      challenge := show ∀ r ∈ Attempt.answered plain pair _, _ by decide +kernel
      prove := show ∀ r ∈ Attempt.completed plain pair _, _ by decide +kernel
      once := by decide +kernel
      helloAlive := by decide +kernel
      answerAlive := by decide +kernel
      clock := by decide
      challengeAlive := by decide
      proveAlive := by decide }, ?_⟩
  rintro ⟨r, hr, -⟩
  have hnone : (attempt [.start false (pair true).nodeId (List.replicate 16 8) 0]).completed plain pair =
      none := by decide +kernel
  rw [hnone] at hr
  cases hr

end NMesh.AppAuth.Completes
