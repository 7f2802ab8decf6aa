import NMesh.Link.Handshake

/-! # Admission by invitation

What an invitation code can do, over any run of a node: one code is consumed by one accepted INVITE,
while it is live, and the link it was accepted on is issued one certificate at most.

The effects that `admits` singles out are the acceptance of an INVITE, the consumption of a code and the
issue of a certificate. Every handler but two is `Quiet`: it does none of them and leaves the codes
alone. -/

namespace NMesh.Link.Admission

open Base.Runs Base.BigEndian Base.Ordered NMesh.Cert.Identity
open NMesh.Cert.Store NMesh.Link.Invite NMesh.Link.Handshake InviteManager

variable {K : Crypto} {Code : Type}

def Injective (me : Local K Code) : Prop :=
  ∀ code challenge code' challenge',
    me.computeResponse code challenge = me.computeResponse code' challenge' →
      code = code' ∧ challenge = challenge'

def accepts (packet : Packet K) : Bool :=
  match packet.body with
  | .inviteAck (code :: _) => decide (code = ackAccepted)
  | _ => false

def admits : Effect K Code → Bool
  | .consumed _ _ => true
  | .issued _ => true
  | .sent packet => accepts packet
  | _ => false

/-! ### Turns that admit nobody -/

/-- A turn that leaves the codes alone and admits nobody. -/
structure Quiet (t t' : Turn K Code) : Prop where
  invite : t'.invite = t.invite
  accepted : t'.peer.inviteAccepted = t.peer.inviteAccepted
  auth : t.peer.authenticatedId.isSome → t'.peer.authenticatedId.isSome
  pending : ∀ challenge, t'.peer.pendingChallenge = some challenge →
    t.peer.pendingChallenge = some challenge
  out : ∃ es, t'.out = t.out ++ es ∧ ∀ e ∈ es, admits e = false

namespace Quiet

variable {t t' t'' : Turn K Code} {me : Local K Code} {env : Env}

theorem refl (t : Turn K Code) : Quiet t t :=
  ⟨rfl, rfl, fun h => h, fun _ h => h, [], (List.append_nil _).symm, by simp⟩

theorem trans (h : Quiet t t') (h' : Quiet t' t'') : Quiet t t'' := by
  obtain ⟨es, hes, hq⟩ := h.out
  obtain ⟨es', hes', hq'⟩ := h'.out
  refine ⟨h'.invite.trans h.invite, h'.accepted.trans h.accepted, fun ha => h'.auth (h.auth ha),
    fun c hc => h.pending c (h'.pending c hc), es ++ es', ?_, fun e he => ?_⟩
  · rw [hes', hes, List.append_assoc]
  · rcases List.mem_append.mp he with he | he
    · exact hq e he
    · exact hq' e he

theorem emit {e : Effect K Code} (he : admits e = false) (t : Turn K Code) : Quiet t (t.emit e) :=
  ⟨rfl, rfl, fun h => h, fun _ h => h, [e], rfl, by simpa using he⟩

theorem thenEmit {e : Effect K Code} (he : admits e = false) (h : Quiet t t') :
    Quiet t (t'.emit e) := h.trans (emit he t')

theorem thenInitiate (h : Quiet t t') (hi : ∀ t : Turn K Code, Quiet t (t.initiateHandshake me env)) :
    Quiet t (t'.initiateHandshake me env) := h.trans (hi t')

theorem write {peer : Peer Code} {certs : CertStore K}
    (ha : peer.inviteAccepted = t.peer.inviteAccepted)
    (hauth : t.peer.authenticatedId.isSome → peer.authenticatedId.isSome)
    (hp : ∀ challenge, peer.pendingChallenge = some challenge →
      t.peer.pendingChallenge = some challenge) :
    Quiet t { t with peer := peer, certs := certs } :=
  ⟨rfl, ha, hauth, hp, [], (List.append_nil _).symm, by simp⟩

theorem initiateHandshake (t : Turn K Code) : Quiet t (t.initiateHandshake me env) :=
  thenEmit rfl (write rfl (fun h => h) fun _ h => h)

theorem addChain (chain : List (Certificate K)) (t : Turn K Code) : Quiet t (t.addChain env chain) :=
  write rfl (fun h => h) fun _ h => h

theorem finishDial {src : NodeID} {answer : Answer K} (t : Turn K Code) :
    Quiet t (t.finishDial me src answer) := by
  unfold Turn.finishDial
  dsimp only
  split
  · exact write rfl (fun _ => rfl) fun _ h => h
  · exact write rfl (fun _ => rfl) fun _ h => h

theorem finishAccept {claimedId : NodeID} {hello : Hello K} {challenge : Bytes}
    {issued : Option (Certificate K)} (t : Turn K Code) :
    Quiet t (t.finishAccept me env claimedId hello challenge issued) := by
  unfold Turn.finishAccept
  dsimp only
  split
  · exact write rfl (fun _ => rfl) fun _ h => h
  · exact thenEmit rfl (write rfl (fun _ => rfl) fun _ h => nomatch h)

theorem handleChallenge (src : NodeID) (payload : Bytes) (t : Turn K Code) :
    Quiet t (t.handleChallenge me env src payload) := by
  have hwrite : Quiet t { t with peer := { t.peer with receivedChallenge := some payload } } :=
    write rfl (fun h => h) fun _ h => h
  unfold Turn.handleChallenge
  dsimp only
  split_ifs
  · exact refl t
  · exact hwrite
  · exact hwrite.trans (emit rfl _)
  · exact hwrite
  · exact thenEmit rfl (write rfl (fun h => h) fun _ h => h)
  · split
    · exact hwrite.trans (initiateHandshake _)
    · exact thenEmit rfl (write rfl (fun h => h) fun _ h => h)

theorem handleInviteAck (payload : Bytes) (t : Turn K Code) :
    Quiet t (t.handleInviteAck me env payload) := by
  unfold Turn.handleInviteAck
  split
  · exact refl t
  · dsimp only
    split_ifs
    · exact refl t
    · exact thenInitiate (write rfl (fun h => h) fun _ h => h) initiateHandshake
    · exact write rfl (fun h => h) fun _ h => h

theorem trustLast (chain : List (Certificate K)) (t : Turn K Code) : Quiet t (t.trustLast chain) := by
  unfold Turn.trustLast
  split
  · exact refl t
  · split_ifs
    · exact thenEmit rfl (write rfl (fun h => h) fun _ h => h)
    · exact refl t

theorem adopt (src : NodeID) (answer : Answer K) (t : Turn K Code) :
    Quiet t (t.adopt me env src answer) := by
  unfold Turn.adopt
  split
  · split_ifs
    · exact emit rfl t
    · exact emit rfl t
    · exact (((addChain _ t).trans (trustLast _ _)).trans (addChain _ _)).trans (finishDial _)
  · split_ifs
    · exact emit rfl t
    · exact emit rfl t
    · exact (addChain _ t).trans (finishDial _)

theorem handleHandshakeAck (src : NodeID) (payload : Option (Answer K)) (t : Turn K Code) :
    Quiet t (t.handleHandshakeAck me env src payload) := by
  have hwrite : Quiet t { t with peer := { t.peer with answeredAs := some src } } :=
    write rfl (fun h => h) fun _ h => h
  unfold Turn.handleHandshakeAck
  split
  · exact refl t
  · split
    · exact emit rfl t
    · exact emit rfl t
    · dsimp only
      split_ifs
      · exact emit rfl t
      · exact emit rfl t
      · exact hwrite.trans (emit rfl _)
      · exact hwrite.trans (emit rfl _)
      · exact hwrite.trans (adopt _ _ _)

end Quiet

/-! ### What the two others do -/

section Handlers

variable {me : Local K Code} {env : Env} {t : Turn K Code}

theorem isSome_finishAccept (claimedId : NodeID) (hello : Hello K) (challenge : Bytes)
    (issued : Option (Certificate K)) :
    (t.finishAccept me env claimedId hello challenge issued).peer.authenticatedId.isSome := by
  unfold Turn.finishAccept
  dsimp only
  split <;> rfl

/-- One certificate is issued, on a link that was invited and not authenticated yet. -/
structure Issues (t t' : Turn K Code) : Prop where
  unauth : t.peer.authenticatedId = none
  auth : t'.peer.authenticatedId.isSome
  accepted : t.peer.inviteAccepted = true
  invite : t'.invite = t.invite
  pending : ∀ challenge, t'.peer.pendingChallenge = some challenge →
    t.peer.pendingChallenge = some challenge
  out : ∃ cert es, t'.out = t.out ++ .issued cert :: es ∧ ∀ e ∈ es, admits e = false

theorem admit_cases (claimedId : NodeID) (hello : Hello K) (challenge : Bytes)
    (chain : List (Certificate K)) (hauth : t.peer.authenticatedId = none) :
    Quiet t (t.takeIn me env claimedId hello challenge chain) ∨
      Issues t (t.takeIn me env claimedId hello challenge chain) := by
  unfold Turn.takeIn
  split
  next hacc =>
    split
    · exact .inl (.refl t)
    next cert _ =>
      right
      have hq : Quiet ((t.addChain env [cert]).emit (.issued cert))
          (((t.addChain env [cert]).emit (.issued cert)).finishAccept me env claimedId hello challenge
            (some cert)) := .finishAccept _
      obtain ⟨es, hes, hadm⟩ := hq.out
      exact ⟨hauth, isSome_finishAccept _ _ _ _, hacc, hq.invite, hq.pending, cert, es,
        by rw [hes]; simp [Turn.emit, Turn.addChain], hadm⟩
  · split_ifs
    · exact .inl (.emit rfl t)
    · exact .inl (.emit rfl t)
    · exact .inl ((Quiet.addChain _ t).trans (.finishAccept _))

theorem handleHandshake_cases (src : NodeID) (payload : Option (Hello K)) :
    Quiet t (t.handleHandshake me env src payload) ∨
      Issues t (t.handleHandshake me env src payload) := by
  unfold Turn.handleHandshake
  split
  · exact .inl (.refl t)
  next hauth =>
    have hwrite : ∀ attempts, Quiet t { t with peer := { t.peer with handshakeAttempts := attempts } } :=
      fun _ => .write rfl (fun h => h) fun _ h => h
    split
    · exact .inl (.emit rfl t)
    · exact .inl (.emit rfl t)
    · dsimp only
      split_ifs
      · exact .inl (.emit rfl t)
      · exact .inl (.emit rfl t)
      · exact .inl (.emit rfl t)
      · exact .inl ((hwrite _).trans (.emit rfl _))
      · exact .inl ((hwrite _).trans (.emit rfl _))
      · split
        · exact .inl ((hwrite _).trans (.emit rfl _))
        · rcases admit_cases (t := { t with peer := { t.peer with
            handshakeAttempts := t.peer.handshakeAttempts + 1 } }) _ _ _ _
            (Option.not_isSome_iff_eq_none.mp hauth) with h | h
          · exact .inl ((hwrite _).trans h)
          · exact .inr ⟨h.unauth, h.auth, h.accepted, h.invite, h.pending, h.out⟩

variable [DecidableEq Code]

/-- **An INVITE**: turned away, or the answer of a code that is held and within its window, which is
consumed. -/
theorem handleInvite_cases (hinj : Injective me) (src : NodeID) (response : Bytes) :
    let t' := t.handleInvite me env src response
    t'.peer.authenticatedId = t.peer.authenticatedId ∧
      t'.peer.pendingChallenge = t.peer.pendingChallenge ∧
      ((t'.peer.inviteAccepted = t.peer.inviteAccepted ∧
          (∀ code v, t'.invite.codes.get? code = some v → t.invite.codes.get? code = some v) ∧
          ∃ es, t'.out = t.out ++ es ∧ ∀ e ∈ es, admits e = false) ∨
        ∃ code challenge created window, t.peer.pendingChallenge = some challenge ∧
          me.computeResponse code challenge = response ∧
          t.invite.codes.get? code = some (created, window) ∧ env.clock - created ≤ window ∧
          (∀ code' v, t'.invite.codes.get? code' = some v →
            code' ≠ code ∧ t.invite.codes.get? code' = some v) ∧
          t'.out = t.out ++ [.consumed code env.clock,
            .sent ⟨me.id, src, .inviteAck [ackAccepted]⟩]) := by
  unfold Turn.handleInvite
  split
  · exact ⟨rfl, rfl, .inl ⟨rfl, fun _ _ h => h, [], (List.append_nil _).symm, by simp⟩⟩
  next challenge hpending =>
    dsimp only
    split
    · exact ⟨rfl, rfl, .inl ⟨rfl, fun _ _ h => h, [], (List.append_nil _).symm, by simp⟩⟩
    split
    · refine ⟨rfl, rfl, .inl ⟨rfl, fun code v h => InviteManager.get?_verifyResponse h, _, rfl, ?_⟩⟩
      intro e he
      obtain rfl := List.mem_singleton.mp he
      rfl
    next hok =>
      have hok : (t.invite.verifyResponse me.computeResponse challenge response env.clock).1 = true := by
        simpa using hok
      obtain ⟨code, created, window, hresp, hget, hlive⟩ := of_verifyResponse hok
      obtain ⟨code', hmatch⟩ := exists_matching hget hresp
      obtain ⟨-, hresp'⟩ := of_matching hmatch
      obtain rfl := (hinj _ _ _ _ (hresp'.trans hresp.symm)).1
      have hconsume : ∀ code v, ((t.invite.verifyResponse me.computeResponse challenge response
          env.clock).2.consume me.computeResponse challenge response).codes.get? code = some v →
          code ≠ code' ∧ t.invite.codes.get? code = some v := by
        intro code v h
        simp only [consume, hmatch, Dict.get?_pop] at h
        split_ifs at h with hne
        exact ⟨hne, InviteManager.get?_verifyResponse h⟩
      have hout : ∀ t', t' = { t with invite := (t.invite.verifyResponse me.computeResponse challenge
          response env.clock).2 } → (Turn.acceptInvite me env src challenge response t').out =
            t.out ++ [.consumed code' env.clock, .sent ⟨me.id, src, .inviteAck [ackAccepted]⟩] := by
        rintro t' rfl
        simp only [Turn.acceptInvite, hmatch, Turn.emit, List.append_assoc, List.cons_append,
          List.nil_append]
      exact ⟨rfl, rfl, .inr ⟨code', challenge, created, window, hpending, hresp,
        InviteManager.get?_verifyResponse hget, hlive, hconsume, hout _ rfl⟩⟩

end Handlers

/-! ### What the log says -/

def issuedOn : Entry K Code → Option ℕ
  | .on serial (.issued _) => some serial
  | _ => none

def consumedOn : Entry K Code → Option ℕ
  | .on serial (.consumed _ _) => some serial
  | _ => none

def consumedCode : Entry K Code → Option Code
  | .on _ (.consumed code _) => some code
  | _ => none

def generatedCode : Entry K Code → Option Code
  | .generated code _ _ => some code
  | _ => none

variable [DecidableEq Code]

def issueStep (code : Code) (v : Option (ℚ × ℚ)) : Entry K Code → Option (ℚ × ℚ)
  | .generated code' created window => if code' = code then some (created, window) else v
  | .on _ (.consumed code' _) => if code' = code then none else v
  | _ => v

/-- The current issue of a code: its last generation, if it was not consumed since. -/
def issue (code : Code) (log : List (Entry K Code)) : Option (ℚ × ℚ) :=
  log.foldl (issueStep code) none

def Live (log : List (Entry K Code)) (code : Code) (clock : ℚ) : Prop :=
  ∃ created window, issue code log = some (created, window) ∧ clock - created ≤ window

/-- The answer of this code, and of no other, to a challenge of this link has just arrived. -/
def Answered (me : Local K Code) (log : List (Entry K Code)) (serial : ℕ) (code : Code) : Prop :=
  ∃ log' src dst response challenge,
    log = log' ++ [.on serial (.received ⟨src, dst, .invite response⟩)] ∧
      .on serial (.sent ⟨me.id, broadcastId, .challenge challenge⟩) ∈ log' ∧
      ∀ code' challenge', me.computeResponse code' challenge' = response ↔
        code' = code ∧ challenge' = challenge

/-- A code is consumed while it is live, on its answer; an INVITE is accepted where a code was
consumed. -/
def Fair (me : Local K Code) (log : List (Entry K Code)) : Entry K Code → Prop
  | .on serial (.consumed code clock) => Live log code clock ∧ Answered me log serial code
  | .on serial (.sent packet) => accepts packet = true →
      ∃ log' code clock, log = log' ++ [.on serial (.consumed code clock)] ∧
        Live log' code clock ∧ Answered me log' serial code
  | _ => True

theorem issue_generated (code code' : Code) {created window : ℚ} (log : List (Entry K Code)) :
    issue code (log ++ [.generated code' created window]) =
      if code' = code then some (created, window) else issue code log := by
  simp only [issue, List.foldl_append, List.foldl_cons, List.foldl_nil, issueStep]

section Quiet

variable {es : List (Effect K Code)} (serial : ℕ) (hes : ∀ e ∈ es, admits e = false)
include hes

omit [DecidableEq Code] in
theorem filterMap_quiet :
    (es.map (Entry.on serial)).filterMap issuedOn = [] ∧
      (es.map (Entry.on serial)).filterMap consumedOn = [] ∧
      (es.map (Entry.on serial)).filterMap consumedCode = [] ∧
      (es.map (Entry.on serial)).filterMap generatedCode = [] := by
  simp only [List.filterMap_eq_nil_iff, List.mem_map, forall_exists_index, and_imp,
    forall_apply_eq_imp_iff₂]
  refine ⟨fun e he => ?_, fun e he => ?_, fun e he => ?_, fun e he => rfl⟩
  all_goals
    have := hes e he
    cases e <;> first | rfl | simp [admits] at this

theorem issue_quiet (code : Code) (log : List (Entry K Code)) :
    issue code (log ++ es.map (Entry.on serial)) = issue code log := by
  unfold issue
  rw [List.foldl_append]
  generalize log.foldl (issueStep code) none = v
  induction es with
  | nil => rfl
  | cons e es ih =>
    have he : issueStep code v (.on serial e) = v := by
      have := hes e List.mem_cons_self
      cases e <;> first | rfl | simp [admits] at this
    rw [List.map_cons, List.foldl_cons, he]
    exact ih fun e' he' => hes e' (List.mem_cons_of_mem _ he')

theorem each_quiet (me : Local K Code) (log : List (Entry K Code)) :
    Each (fun pre e => Fair me (log ++ pre) e) (es.map (Entry.on serial)) := by
  intro pre e post heq
  obtain ⟨f, hf, rfl⟩ := List.mem_map.mp (heq ▸ (by simp : e ∈ pre ++ e :: post))
  have hquiet := hes f hf
  cases f with
  | sent packet => exact fun hacc => absurd hacc (by simpa [admits] using hquiet)
  | consumed code clock => simp [admits] at hquiet
  | _ => trivial

end Quiet

/-! ### Over a run -/

/-- What a node and its log stand in. -/
structure Admitted (me : Local K Code) (n : Node K Code) : Prop where
  serial : ∀ l peer, n.peers.get? l = some peer → l < n.nextSerial
  issuedSerial : ∀ l ∈ n.log.filterMap issuedOn, l < n.nextSerial
  once : (n.log.filterMap issuedOn).Nodup
  spent : ∀ l peer, n.peers.get? l = some peer → l ∈ n.log.filterMap issuedOn →
    peer.authenticatedId.isSome
  charged : ∀ l peer, n.peers.get? l = some peer → peer.inviteAccepted = true →
    l ∈ n.log.filterMap consumedOn
  paid : ∀ l ∈ n.log.filterMap issuedOn, l ∈ n.log.filterMap consumedOn
  challenged : ∀ l peer challenge, n.peers.get? l = some peer →
    peer.pendingChallenge = some challenge →
      .on l (.sent ⟨me.id, broadcastId, .challenge challenge⟩) ∈ n.log
  held : ∀ code v, n.invite.codes.get? code = some v → issue code n.log = some v
  count : ∀ code, (n.log.filterMap consumedCode).count code +
    (if code ∈ n.invite.codes.keys then 1 else 0) ≤ (n.log.filterMap generatedCode).count code
  fair : Each (Fair me) n.log

section Step

variable {me : Local K Code} {n : Node K Code} {l : ℕ} {peer : Peer Code} {t : Turn K Code}

theorem count_codes {m m' : InviteManager Code}
    (h : ∀ code v, m'.codes.get? code = some v → m.codes.get? code = some v) (code : Code) :
    (if code ∈ m'.codes.keys then 1 else 0) ≤ if code ∈ m.codes.keys then 1 else 0 := by
  split_ifs with h1 h2
  · exact le_rfl
  · obtain ⟨v, hv⟩ := Dict.mem_keys.mp h1
    exact absurd (Dict.mem_keys_of_get? (h code v hv)) h2
  · exact Nat.zero_le _
  · exact le_rfl

theorem Admitted.quiet (h : Admitted me n) (hpeer : n.peers.get? l = some peer)
    (hacc : t.peer.inviteAccepted = peer.inviteAccepted)
    (hauth : peer.authenticatedId.isSome → t.peer.authenticatedId.isSome)
    (hpending : ∀ challenge, t.peer.pendingChallenge = some challenge →
      peer.pendingChallenge = some challenge ∨
        .sent ⟨me.id, broadcastId, .challenge challenge⟩ ∈ t.out)
    (hcodes : ∀ code v, t.invite.codes.get? code = some v → n.invite.codes.get? code = some v)
    (hout : ∀ e ∈ t.out, admits e = false) : Admitted me (n.settle l t) := by
  obtain ⟨hissued, hconsumed, hcode, hgen⟩ := filterMap_quiet l hout
  have hlog : (n.settle l t).log = n.log ++ t.out.map (.on l) := rfl
  constructor
  · intro l' peer' hget
    rcases get?_settle hget with ⟨rfl, -⟩ | ⟨-, hget⟩
    · exact h.serial _ _ hpeer
    · exact h.serial _ _ hget
  · rw [hlog, List.filterMap_append, hissued, List.append_nil]
    exact h.issuedSerial
  · rw [hlog, List.filterMap_append, hissued, List.append_nil]
    exact h.once
  · rw [hlog, List.filterMap_append, hissued, List.append_nil]
    intro l' peer' hget hmem
    rcases get?_settle hget with ⟨rfl, rfl⟩ | ⟨-, hget⟩
    · exact hauth (h.spent _ _ hpeer hmem)
    · exact h.spent _ _ hget hmem
  · rw [hlog, List.filterMap_append, hconsumed, List.append_nil]
    intro l' peer' hget hmem
    rcases get?_settle hget with ⟨rfl, rfl⟩ | ⟨-, hget⟩
    · exact h.charged _ _ hpeer (hacc ▸ hmem)
    · exact h.charged _ _ hget hmem
  · rw [hlog, List.filterMap_append, List.filterMap_append, hissued, hconsumed, List.append_nil,
      List.append_nil]
    exact h.paid
  · intro l' peer' challenge hget hc
    rcases get?_settle hget with ⟨rfl, rfl⟩ | ⟨-, hget⟩
    · rcases hpending _ hc with hc | hc
      · exact List.mem_append_left _ (h.challenged _ _ _ hpeer hc)
      · exact List.mem_append_right _ (List.mem_map_of_mem hc)
    · exact List.mem_append_left _ (h.challenged _ _ _ hget hc)
  · intro code v hget
    rw [hlog, issue_quiet l hout]
    exact h.held code v (hcodes code v hget)
  · intro code
    rw [hlog, List.filterMap_append, List.filterMap_append, hcode, hgen, List.append_nil,
      List.append_nil]
    have hle := count_codes hcodes code
    have := h.count code
    show _ + (if code ∈ t.invite.codes.keys then 1 else 0) ≤ _
    omega
  · rw [hlog, each_append]
    exact ⟨h.fair, each_quiet l hout me n.log⟩

theorem Admitted.consume (hinj : Injective me) (h : Admitted me n) (hpeer : n.peers.get? l = some peer) (src dst : NodeID)
    {challenge : Bytes} {code : Code} {created window clock : ℚ}
    (hauth : t.peer.authenticatedId = peer.authenticatedId)
    (hpending : t.peer.pendingChallenge = peer.pendingChallenge)
    (hchallenge : peer.pendingChallenge = some challenge)
    (hget : n.invite.codes.get? code = some (created, window)) (hlive : clock - created ≤ window)
    (hcodes : ∀ code' v, t.invite.codes.get? code' = some v →
      code' ≠ code ∧ n.invite.codes.get? code' = some v)
    (hout : t.out = [.received ⟨src, dst, .invite (me.computeResponse code challenge)⟩,
      .consumed code clock, .sent ⟨me.id, src, .inviteAck [ackAccepted]⟩]) :
    Admitted me (n.settle l t) := by
  have hlog : (n.settle l t).log = n.log ++ t.out.map (.on l) := rfl
  have hissued : (n.settle l t).log.filterMap issuedOn = n.log.filterMap issuedOn := by
    rw [hlog, List.filterMap_append, hout]
    simp [issuedOn]
  have hconsumed : (n.settle l t).log.filterMap consumedOn = n.log.filterMap consumedOn ++ [l] := by
    rw [hlog, List.filterMap_append, hout]
    rfl
  have hissue : ∀ code', issue code' (n.settle l t).log =
      if code = code' then none else issue code' n.log := by
    intro code'
    rw [hlog, hout]
    simp [issue, issueStep, List.foldl_append]
  have hnow : Live n.log code clock := ⟨created, window, h.held code _ hget, hlive⟩
  have hans : Answered me (n.log ++ [.on l (.received
      ⟨src, dst, .invite (me.computeResponse code challenge)⟩)]) l code :=
    ⟨n.log, src, dst, _, challenge, rfl, h.challenged _ _ _ hpeer hchallenge,
      fun code' challenge' => ⟨hinj _ _ _ _, by rintro ⟨rfl, rfl⟩; rfl⟩⟩
  have hnow' : Live (n.log ++ [.on l (.received
      ⟨src, dst, .invite (me.computeResponse code challenge)⟩)]) code clock := by
    obtain ⟨created, window, hissue, hlive⟩ := hnow
    refine ⟨created, window, ?_, hlive⟩
    rw [← hissue]
    simp [issue, issueStep, List.foldl_append]
  constructor
  · intro l' peer' hget'
    rcases get?_settle hget' with ⟨rfl, -⟩ | ⟨-, hget'⟩
    · exact h.serial _ _ hpeer
    · exact h.serial _ _ hget'
  · rw [hissued]
    exact h.issuedSerial
  · rw [hissued]
    exact h.once
  · rw [hissued]
    intro l' peer' hget' hmem
    rcases get?_settle hget' with ⟨rfl, rfl⟩ | ⟨-, hget'⟩
    · rw [hauth]
      exact h.spent _ _ hpeer hmem
    · exact h.spent _ _ hget' hmem
  · rw [hconsumed]
    intro l' peer' hget' hmem
    rcases get?_settle hget' with ⟨rfl, rfl⟩ | ⟨-, hget'⟩
    · simp
    · exact List.mem_append_left _ (h.charged _ _ hget' hmem)
  · rw [hissued, hconsumed]
    exact fun l' hl' => List.mem_append_left _ (h.paid l' hl')
  · intro l' peer' challenge' hget' hc
    rcases get?_settle hget' with ⟨rfl, rfl⟩ | ⟨-, hget'⟩
    · exact List.mem_append_left _ (h.challenged _ _ _ hpeer (hpending ▸ hc))
    · exact List.mem_append_left _ (h.challenged _ _ _ hget' hc)
  · intro code' v hget'
    obtain ⟨hne, hold⟩ := hcodes code' v hget'
    rw [hissue, if_neg (Ne.symm hne)]
    exact h.held code' v hold
  · intro code'
    rw [hlog, List.filterMap_append, List.filterMap_append, hout]
    have hcount := h.count code'
    have hgone : code ∉ t.invite.codes.keys := fun hmem => by
      obtain ⟨v, hv⟩ := Dict.mem_keys.mp hmem
      exact (hcodes code v hv).1 rfl
    have hle := count_codes (fun c v hv => (hcodes c v hv).2) code'
    show List.count code' (_ ++ [code]) + (if code' ∈ t.invite.codes.keys then 1 else 0) ≤
      List.count code' (_ ++ [])
    rw [List.append_nil, List.count_append, List.count_singleton]
    by_cases hcc : code = code'
    · subst hcc
      rw [if_pos (Dict.mem_keys_of_get? hget)] at hcount
      rw [if_neg hgone]
      simpa using hcount
    · rw [if_neg (by simpa using hcc)]
      omega
  · rw [hlog, each_append, hout]
    refine ⟨h.fair, ?_⟩
    simp only [List.map_cons, List.map_nil, each_cons]
    exact ⟨trivial, ⟨hnow', hans⟩, fun _ => ⟨_, code, clock, by simp, hnow', hans⟩, each_nil⟩

theorem Admitted.issues (h : Admitted me n) (hpeer : n.peers.get? l = some peer) {packet : Packet K}
    (hi : Issues (n.turn peer packet) t) : Admitted me (n.settle l t) := by
  obtain ⟨cert, es, hout, hes⟩ := hi.out
  have hinvite : t.invite = n.invite := hi.invite
  have hcharged := h.charged _ _ hpeer hi.accepted
  have hnew : l ∉ n.log.filterMap issuedOn := fun hmem => by
    have hsome := h.spent _ _ hpeer hmem
    rw [show peer.authenticatedId = none from hi.unauth] at hsome
    exact absurd hsome (by simp)
  have hes' : ∀ e ∈ ([.received packet] : List (Effect K Code)), admits e = false := by
    simp [admits]
  obtain ⟨hissued, hconsumed, hcode, hgen⟩ := filterMap_quiet l hes
  have hlog : (n.settle l t).log =
      (n.log ++ [.on l (.received packet)]) ++ [.on l (.issued cert)] ++ es.map (.on l) := by
    show n.log ++ t.out.map (.on l) = _
    rw [hout]
    simp [Node.turn]
  have hissuedOn : (n.settle l t).log.filterMap issuedOn = n.log.filterMap issuedOn ++ [l] := by
    rw [hlog, List.filterMap_append, hissued, List.append_nil, List.append_assoc,
      List.filterMap_append]
    rfl
  have hconsumedOn : (n.settle l t).log.filterMap consumedOn = n.log.filterMap consumedOn := by
    rw [hlog, List.filterMap_append, hconsumed, List.append_nil, List.append_assoc,
      List.filterMap_append]
    exact List.append_nil _
  constructor
  · intro l' peer' hget
    rcases get?_settle hget with ⟨rfl, -⟩ | ⟨-, hget⟩
    · exact h.serial _ _ hpeer
    · exact h.serial _ _ hget
  · rw [hissuedOn]
    intro l' hl'
    rcases List.mem_append.mp hl' with hl' | hl'
    · exact h.issuedSerial l' hl'
    · obtain rfl := List.mem_singleton.mp hl'
      exact h.serial _ _ hpeer
  · rw [hissuedOn]
    exact List.nodup_append.mpr ⟨h.once, List.nodup_singleton l, by
      rintro a ha b hb rfl; exact hnew (List.mem_singleton.mp hb ▸ ha)⟩
  · rw [hissuedOn]
    intro l' peer' hget hmem
    rcases get?_settle hget with ⟨rfl, rfl⟩ | ⟨hne, hget⟩
    · exact hi.auth
    · rcases List.mem_append.mp hmem with hmem | hmem
      · exact h.spent _ _ hget hmem
      · exact absurd (List.mem_singleton.mp hmem) hne
  · rw [hconsumedOn]
    intro l' peer' hget hmem
    rcases get?_settle hget with ⟨rfl, -⟩ | ⟨-, hget⟩
    · exact hcharged
    · exact h.charged _ _ hget hmem
  · rw [hissuedOn, hconsumedOn]
    intro l' hl'
    rcases List.mem_append.mp hl' with hl' | hl'
    · exact h.paid l' hl'
    · rwa [List.mem_singleton.mp hl']
  · rw [hlog, List.append_assoc, List.append_assoc]
    intro l' peer' challenge hget hc
    rcases get?_settle hget with ⟨rfl, rfl⟩ | ⟨-, hget⟩
    · exact List.mem_append_left _ (h.challenged _ _ _ hpeer (hi.pending _ hc))
    · exact List.mem_append_left _ (h.challenged _ _ _ hget hc)
  · intro code v hget
    rw [hlog, issue_quiet l hes]
    refine (?_ : _ = issue code n.log).trans (h.held code v ?_)
    · simp [issue, issueStep, List.foldl_append]
    · exact hinvite ▸ hget
  · intro code
    rw [hlog, List.filterMap_append, List.filterMap_append, List.filterMap_append, List.filterMap_append,
      List.filterMap_append, List.filterMap_append, hcode, hgen]
    show List.count code (_ ++ [] ++ [] ++ []) + (if code ∈ t.invite.codes.keys then 1 else 0) ≤
      List.count code (_ ++ [] ++ [] ++ [])
    rw [hinvite]
    simpa only [List.append_nil] using h.count code
  · rw [hlog, each_append, each_append, each_append]
    refine ⟨⟨⟨h.fair, each_quiet l hes' me n.log⟩, ?_⟩, each_quiet l hes me _⟩
    rw [each_cons]
    exact ⟨trivial, each_nil⟩

theorem Admitted.newPeer (h : Admitted me n) {e : Effect K Code} (he : admits e = false)
    (hacc : peer.inviteAccepted = false) (hpending : peer.pendingChallenge = none) :
    Admitted me (n.newPeer peer e) := by
  have hes : ∀ e' ∈ [e], admits e' = false := by simpa using he
  obtain ⟨hissued, hconsumed, hcode, hgen⟩ := filterMap_quiet n.nextSerial hes
  rw [List.map_singleton] at hissued hconsumed hcode hgen
  have hlog : (n.newPeer peer e).log = n.log ++ [.on n.nextSerial e] := rfl
  constructor
  · intro l' peer' hl'
    show l' < n.nextSerial + 1
    rcases Node.get?_newPeer hl' with ⟨rfl, -⟩ | hl'
    · omega
    · have := h.serial _ _ hl'
      omega
  · rw [hlog, List.filterMap_append, hissued, List.append_nil]
    exact fun l' hl' => Nat.lt_succ_of_lt (h.issuedSerial l' hl')
  · rw [hlog, List.filterMap_append, hissued, List.append_nil]
    exact h.once
  · rw [hlog, List.filterMap_append, hissued, List.append_nil]
    intro l' peer' hl' hmem
    rcases Node.get?_newPeer hl' with ⟨rfl, -⟩ | hl'
    · exact absurd (h.issuedSerial _ hmem) (Nat.lt_irrefl _)
    · exact h.spent _ _ hl' hmem
  · rw [hlog, List.filterMap_append, hconsumed, List.append_nil]
    intro l' peer' hl' hmem
    rcases Node.get?_newPeer hl' with ⟨-, rfl⟩ | hl'
    · rw [hacc] at hmem
      cases hmem
    · exact h.charged _ _ hl' hmem
  · rw [hlog, List.filterMap_append, List.filterMap_append, hissued, hconsumed, List.append_nil,
      List.append_nil]
    exact h.paid
  · intro l' peer' challenge hl' hc
    rcases Node.get?_newPeer hl' with ⟨-, rfl⟩ | hl'
    · rw [hpending] at hc
      cases hc
    · exact List.mem_append_left _ (h.challenged _ _ _ hl' hc)
  · intro code v hv
    have hissue := issue_quiet n.nextSerial hes code n.log
    rw [List.map_singleton] at hissue
    rw [hlog, hissue]
    exact h.held code v hv
  · intro code
    rw [hlog, List.filterMap_append, List.filterMap_append, hcode, hgen, List.append_nil,
      List.append_nil]
    exact h.count code
  · rw [hlog, each_append]
    have := each_quiet n.nextSerial hes me n.log
    rw [List.map_singleton] at this
    exact ⟨h.fair, this⟩

theorem Admitted.congr {n' : Node K Code} (h : Admitted me n) (hinvite : n'.invite = n.invite)
    (hpeers : n'.peers = n.peers) (hserial : n'.nextSerial = n.nextSerial) (hlog : n'.log = n.log) :
    Admitted me n' := by
  obtain ⟨h1, h2, h3, h4, h5, h6, h7, h8, h9, h10⟩ := h
  constructor <;> simp only [hinvite, hpeers, hserial, hlog] <;> assumption

theorem Admitted.generate (h : Admitted me n) (env : Env) (code : Code) (ttl : Option ℚ) :
    Admitted me (n.step me (env, .generateCode code ttl)) := by
  have hget : ∀ code' v, (n.invite.generateCode code ttl env.clock).codes.get? code' = some v →
      if code = code' then v = (env.clock, window ttl)
        else n.invite.codes.get? code' = some v := by
    intro code' v hv
    rw [generateCode, Dict.get?_set] at hv
    split_ifs at hv ⊢
    · exact (Option.some.inj hv).symm
    · exact hv
  have hlog : ∀ {β : Type} (f : Entry K Code → Option β),
      (n.log ++ [Entry.generated code env.clock (window ttl)]).filterMap f =
        n.log.filterMap f ++ (f (.generated code env.clock (window ttl))).toList := by
    intro β f
    rw [List.filterMap_append]
    cases hf : f (.generated code env.clock (window ttl)) <;> simp [hf]
  have hissued := hlog issuedOn
  have hconsumed := hlog consumedOn
  have hcode := hlog consumedCode
  simp only [issuedOn, consumedOn, consumedCode, Option.toList_none, List.append_nil]
    at hissued hconsumed hcode
  constructor
  · exact h.serial
  · exact fun l hl => h.issuedSerial l (hissued ▸ hl)
  · exact hissued ▸ h.once
  · exact fun l p hl hmem => h.spent l p hl (hissued ▸ hmem)
  · exact fun l p hl hacc => hconsumed ▸ h.charged l p hl hacc
  · exact fun l hl => hconsumed ▸ h.paid l (hissued ▸ hl)
  · exact fun l p c hl hc => List.mem_append_left _ (h.challenged l p c hl hc)
  · intro code' v hv
    have := hget code' v hv
    refine (issue_generated code' code n.log).trans ?_
    split_ifs at this ⊢ with hcc
    · rw [this]
    · exact h.held code' v this
  · intro code'
    have := h.count code'
    show List.count code' ((n.log ++ [_]).filterMap consumedCode) + _ ≤
      List.count code' ((n.log ++ [_]).filterMap generatedCode)
    rw [hcode, hlog generatedCode, List.count_append]
    show _ + (if code' ∈ (n.invite.codes.set code _).keys then 1 else 0) ≤
      _ + List.count code' [code]
    simp only [Dict.mem_keys_set, List.count_singleton]
    by_cases hcc : code = code'
    · subst hcc
      simp only [true_or, if_true, beq_self_eq_true]
      split_ifs at this <;> omega
    · have hcc' : ¬ code' = code := fun heq => hcc heq.symm
      simpa [hcc, hcc'] using this
  · exact each_append.mpr ⟨h.fair, each_cons.mpr ⟨trivial, each_nil⟩⟩

theorem Admitted.handle (hinj : Injective me) (h : Admitted me n)
    (hpeer : n.peers.get? l = some peer) (env : Env) (packet : Packet K) :
    Admitted me (n.settle l ((n.turn peer packet).handle me env packet)) := by
  have hquiet : ∀ {t}, Quiet (n.turn peer packet) t → Admitted me (n.settle l t) := by
    intro t hq
    obtain ⟨es, hout, hes⟩ := hq.out
    have hinvite : t.invite = n.invite := hq.invite
    refine h.quiet hpeer hq.accepted hq.auth (fun c hc => .inl (hq.pending c hc))
      (fun _ _ hv => by rwa [hinvite] at hv) fun e he => ?_
    rw [hout] at he
    rcases List.mem_append.mp he with he | he
    · rw [List.mem_singleton.mp he]
      rfl
    · exact hes e he
  unfold Turn.handle
  split
  · exact hquiet (.handleChallenge _ _ _)
  · next response hbody =>
    obtain ⟨hauth, hpending, hrest⟩ := handleInvite_cases
      (t := n.turn peer packet) hinj packet.srcId response
    rcases hrest with ⟨hacc, hcodes, es, hout, hes⟩ |
      ⟨code, challenge, created, window, hchallenge, hresp, hget, hlive, hcodes, hout⟩
    · refine h.quiet hpeer hacc (fun ha => by rw [hauth]; exact ha)
        (fun c hc => .inl (by rw [hpending] at hc; exact hc)) hcodes fun e he => ?_
      rw [hout] at he
      rcases List.mem_append.mp he with he | he
      · rw [List.mem_singleton.mp he]
        rfl
      · exact hes e he
    · refine h.consume hinj hpeer packet.srcId packet.dstId hauth hpending hchallenge hget hlive hcodes ?_
      rw [hout, hresp, ← hbody]
      rfl
  · exact hquiet (.handleInviteAck _ _)
  · rcases handleHandshake_cases (t := n.turn peer packet) packet.srcId _ with
      hq | hi
    · exact hquiet hq
    · exact h.issues hpeer hi
  · exact hquiet (.handleHandshakeAck _ _ _)

theorem Admitted.step (hinj : Injective me) (h : Admitted me n) (act : Env × Event K Code) :
    Admitted me (n.step me act) := by
  obtain ⟨env, event⟩ := act
  cases event with
  | generateCode code ttl => exact h.generate env code ttl
  | liveCodes =>
    have hcodes : ∀ code v, (n.invite.liveCodes env.clock).2.codes.get? code = some v →
        n.invite.codes.get? code = some v := fun _ _ hv => InviteManager.get?_liveAmong hv
    exact ⟨h.serial, h.issuedSerial, h.once, h.spent, h.charged, h.paid, h.challenged,
      fun code v hv => h.held code v (hcodes code v hv),
      fun code => (Nat.add_le_add_left (count_codes hcodes code) _).trans (h.count code), h.fair⟩
  | dial joinCode relayOnly relayed expectedId | accept relayed => exact h.newPeer rfl rfl rfl
  | greet serial challenge =>
    unfold Node.step
    dsimp only
    split
    · exact h
    · next peer hpeer =>
      exact h.quiet (t := ⟨{ peer with pendingChallenge := some challenge }, n.invite, n.certs,
        [.sent ⟨me.id, broadcastId, .challenge challenge⟩]⟩) hpeer rfl (fun ha => ha)
        (fun c hc => .inr (by rw [← Option.some.inj hc]; simp)) (fun _ _ hv => hv) (by simp [admits, accepts])
  | packet serial packet =>
    unfold Node.step
    dsimp only
    split
    · exact h
    · next peer hpeer => exact h.handle hinj hpeer env packet
  | close serial =>
    have hget : ∀ l peer, (n.peers.pop serial).get? l = some peer → n.peers.get? l = some peer :=
      fun _ _ hl => (Dict.get?_of_pop hl).2
    exact ⟨fun l p hl => h.serial l p (hget l p hl), h.issuedSerial, h.once,
      fun l p hl => h.spent l p (hget l p hl), fun l p hl => h.charged l p (hget l p hl), h.paid,
      fun l p c hl => h.challenged l p c (hget l p hl), h.held, h.count, h.fair⟩
  | consoleAddRoot cert =>
    unfold Node.step
    dsimp only
    split_ifs
    · exact h
    · exact h.congr rfl rfl rfl rfl
  | store op => exact h.congr rfl rfl rfl rfl

end Step

/-- A node as it starts: no code, no link, nothing in the log. -/
def start (certs : CertStore K) : Node K Code where
  invite := .new
  certs := certs
  peers := Dict.empty
  nextSerial := 1
  log := []

theorem admitted_start (me : Local K Code) (certs : CertStore K) : Admitted me (start certs) where
  serial _ _ h := nomatch h
  issuedSerial _ h := nomatch h
  once := List.nodup_nil
  spent _ _ h := nomatch h
  charged _ _ h := nomatch h
  paid _ h := nomatch h
  challenged _ _ _ h := nomatch h
  held _ _ h := nomatch h
  count _ := by simp [start, InviteManager.new]
  fair := each_nil

omit [DecidableEq Code] in
theorem length_consumed : ∀ log : List (Entry K Code),
    (log.filterMap consumedOn).length = (log.filterMap consumedCode).length
  | [] => rfl
  | e :: log => by
    have ih := length_consumed log
    cases e with
    | generated code created window => exact ih
    | on serial e => cases e <;> first | exact ih | exact congrArg Nat.succ ih

/-- **One code admits one identity**: over any run, no more certificates are issued on the strength of
an invitation than codes are consumed; no code is consumed more often than it was generated; and it is
consumed while it is live, on its own answer, which is the only way an INVITE is accepted. -/
theorem admission {me : Local K Code} (hinj : Injective me) (certs : CertStore K)
    (as : List (Env × Event K Code)) :
    let log := (run (Node.step me) (start certs) as).log
    (log.filterMap issuedOn).length ≤ (log.filterMap consumedCode).length ∧
      (∀ code, (log.filterMap consumedCode).count code ≤ (log.filterMap generatedCode).count code) ∧
      Each (Fair me) log := by
  have h : Admitted me (run (Node.step me) (start certs) as) :=
    run_induct (fun _ act h => h.step hinj act) as (admitted_start me certs)
  refine ⟨?_, fun code => ?_, h.fair⟩
  · rw [← length_consumed]
    exact (List.subperm_of_subset h.once h.paid).length_le
  · exact (Nat.le_add_right _ _).trans (h.count code)

/-! ### A code and a joiner -/

/-- The node with key `[1]`, which answers a challenge with the code in front of it. -/
def plainLocal : Local plain UInt8 where
  dsaPublicKey := [1]
  sign message := message
  computeResponse code challenge := code :: challenge
  kemDecapsulate ciphertext _ := some ciphertext

theorem plainLocal_injective : Injective plainLocal := fun _ _ _ _ h => List.cons.inj h

def plainEnv (clock : ℚ) : Env where
  clock := clock
  monotonic := clock
  kemPair := ([8], [9])
  kemEncapsulate pub := some (pub, pub)
  urandom := []
  isHostile _ := false

/-- The node with key `[2]` joins with the code 7, and tries the code and the HANDSHAKE twice. -/
def joiner : List (Env × Event plain UInt8) :=
  let src := plain.fromPublicKey [2]
  let invite : Event plain UInt8 := .packet 1 ⟨src, plainLocal.id, .invite [7, 5]⟩
  let handshake : Event plain UInt8 :=
    .packet 1 ⟨src, plainLocal.id, .handshake (some ⟨[4], [2], some [], [5, 4, 2]⟩)⟩
  [(plainEnv 0, .generateCode 7 none), (plainEnv 1, .accept false), (plainEnv 1, .greet 1 [5]),
    (plainEnv 2, invite), (plainEnv 3, invite), (plainEnv 4, handshake), (plainEnv 5, handshake)]

theorem admission_joiner :
    let log := (run (Node.step plainLocal) (start (.new plain plainLocal.id 9 9 9)) joiner).log
    log.filterMap generatedCode = [7] ∧ log.filterMap consumedCode = [7] ∧
      log.filterMap issuedOn = [1] ∧ Each (Fair plainLocal) log :=
  ⟨by decide +kernel, by decide +kernel, by decide +kernel,
    (admission plainLocal_injective (.new plain plainLocal.id 9 9 9) joiner).2.2⟩

end NMesh.Link.Admission
