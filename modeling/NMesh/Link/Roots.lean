import NMesh.Cert.Upkeep
import NMesh.Link.Admission

/-! # Trust roots

Where a new trust root can come from. A HANDSHAKE_ACK plants one only on a link that was dialled with a
code, after the code's INVITE was sent and accepted on that link (`Invited`): the self-signed
certificate that ends the chain of an answer signed over the link's challenge (`Plants`). Otherwise a
root is the operator's. -/

namespace NMesh.Link.Roots

open Base.Runs Base.BigEndian Base.Ordered NMesh.Cert.Identity
open NMesh.Cert.Store NMesh.Cert.Store.CertStore NMesh.Cert.Upkeep NMesh.Link.Invite
open NMesh.Link.Handshake NMesh.Link.Admission

variable {K : Crypto} {Code : Type}

/-! ### The roots of a store -/

theorem roots_add (s : CertStore K) (cert : Certificate K) (clock : ℕ) :
    (s.add cert clock).2.roots = s.roots := by
  rcases add_cases s cert clock with he | he | ⟨-, -, -, n, he⟩ <;> rw [he]
  · exact (touch_fields s _).1
  · exact (shrinks_file s cert clock n).roots

theorem roots_addAll (clock : ℕ) : ∀ (chain : List (Certificate K)) (s : CertStore K),
    (s.addAll chain clock).roots = s.roots
  | [], _ => rfl
  | cert :: chain, s => (roots_addAll clock chain _).trans (roots_add s cert clock)

theorem roots_step (s : CertStore K) (clock : ℕ) (op : StoreOp K) :
    (s.step (clock, op.op)).roots ⊆ s.roots := by
  obtain ⟨op, hop⟩ := op
  cases op with
  | add cert => exact (roots_add s cert clock).subset
  | addRoot nodeId => exact absurd rfl (hop nodeId)
  | removeRoot nodeId =>
    show (s.removeRoot nodeId).2.roots ⊆ s.roots
    unfold removeRoot
    split_ifs
    · exact Finset.Subset.refl _
    · exact Finset.erase_subset _ _
  | revoke record =>
    show (s.revoke record).2.roots ⊆ s.roots
    rcases revoke_cases s record with he | ⟨-, hroots, -⟩
    · rw [he]
    · exact hroots.subset
  | pruneExpired now =>
    show (s.pruneExpired now clock).2.roots ⊆ s.roots
    rcases pruneExpired_cases s now clock with he | ⟨hs, -⟩
    · rw [he]
    · exact hs.roots.subset
  | lookup target now => exact (shrinks_lookup s target now clock).roots.subset

/-! ### Turns that leave the invitation alone -/

def opens : Effect K Code → Bool
  | .dialled _ => true
  | _ => false

/-- A turn that leaves the roots alone, the invitation presented and the challenge received. -/
structure Calm (t t' : Turn K Code) : Prop where
  roots : t'.certs.roots = t.certs.roots
  joinCode : t'.peer.joinCode = t.peer.joinCode
  inviteSent : t'.peer.inviteSent = t.peer.inviteSent
  joined : t'.peer.joinedByInvite = t.peer.joinedByInvite
  heard : t'.peer.receivedChallenge = t.peer.receivedChallenge
  out : ∃ es, t'.out = t.out ++ es ∧ ∀ e ∈ es, opens e = false

namespace Calm

variable {t t' t'' : Turn K Code} {me : Local K Code} {env : Env}

theorem refl (t : Turn K Code) : Calm t t :=
  ⟨rfl, rfl, rfl, rfl, rfl, [], (List.append_nil _).symm, by simp⟩

theorem trans (h : Calm t t') (h' : Calm t' t'') : Calm t t'' := by
  obtain ⟨es, hes, hq⟩ := h.out
  obtain ⟨es', hes', hq'⟩ := h'.out
  refine ⟨h'.roots.trans h.roots, h'.joinCode.trans h.joinCode, h'.inviteSent.trans h.inviteSent,
    h'.joined.trans h.joined, h'.heard.trans h.heard, es ++ es', ?_, fun e he => ?_⟩
  · rw [hes', hes, List.append_assoc]
  · rcases List.mem_append.mp he with he | he
    · exact hq e he
    · exact hq' e he

theorem emit {e : Effect K Code} (he : opens e = false) (t : Turn K Code) : Calm t (t.emit e) :=
  ⟨rfl, rfl, rfl, rfl, rfl, [e], rfl, by simpa using he⟩

theorem thenEmit {e : Effect K Code} (he : opens e = false) (h : Calm t t') :
    Calm t (t'.emit e) := h.trans (emit he t')

theorem write {peer : Peer Code} {invite : InviteManager Code} {certs : CertStore K}
    (hroots : certs.roots = t.certs.roots) (hcode : peer.joinCode = t.peer.joinCode)
    (hsent : peer.inviteSent = t.peer.inviteSent)
    (hjoined : peer.joinedByInvite = t.peer.joinedByInvite)
    (hheard : peer.receivedChallenge = t.peer.receivedChallenge) :
    Calm t { t with peer := peer, invite := invite, certs := certs } :=
  ⟨hroots, hcode, hsent, hjoined, hheard, [], (List.append_nil _).symm, by simp⟩

theorem roots_ownChain (t : Turn K Code) : (t.ownChain me env).2.roots = t.certs.roots :=
  (shrinks_lookup t.certs me.id none env.stamp).roots

theorem initiateHandshake (t : Turn K Code) : Calm t (t.initiateHandshake me env) :=
  thenEmit rfl (write (roots_ownChain t) rfl rfl rfl rfl)

theorem addChain (chain : List (Certificate K)) (t : Turn K Code) : Calm t (t.addChain env chain) :=
  write (roots_addAll _ chain _) rfl rfl rfl rfl

theorem finishDial {src : NodeID} {answer : Answer K} (t : Turn K Code) :
    Calm t (t.finishDial me src answer) := by
  unfold Turn.finishDial
  dsimp only
  split
  · exact write rfl rfl rfl rfl rfl
  · exact write rfl rfl rfl rfl rfl

theorem finishAccept {claimedId : NodeID} {hello : Hello K} {challenge : Bytes}
    {issued : Option (Certificate K)} (t : Turn K Code) :
    Calm t (t.finishAccept me env claimedId hello challenge issued) := by
  unfold Turn.finishAccept
  dsimp only
  split
  · exact write rfl rfl rfl rfl rfl
  · exact thenEmit rfl (write (roots_ownChain _) rfl rfl rfl rfl)

variable [DecidableEq Code] in
theorem handleInvite (src : NodeID) (response : Bytes) (t : Turn K Code) :
    Calm t (t.handleInvite me env src response) := by
  unfold Turn.handleInvite
  split
  · exact refl t
  · dsimp only
    split
    · exact refl t
    · split
      · exact thenEmit rfl (write rfl rfl rfl rfl rfl)
      · refine thenEmit rfl ?_
        split
        · exact write rfl rfl rfl rfl rfl
        · exact (emit rfl t).trans (write rfl rfl rfl rfl rfl)

theorem handleHandshake (src : NodeID) (payload : Option (Hello K)) (t : Turn K Code) :
    Calm t (t.handleHandshake me env src payload) := by
  have hwrite : Calm t { t with peer := { t.peer with
      handshakeAttempts := t.peer.handshakeAttempts + 1 } } := write rfl rfl rfl rfl rfl
  unfold Turn.handleHandshake
  split
  · exact refl t
  split
  · exact emit rfl t
  · exact emit rfl t
  · dsimp only
    split_ifs
    · exact emit rfl t
    · exact emit rfl t
    · exact emit rfl t
    · exact hwrite.trans (emit rfl _)
    · exact hwrite.trans (emit rfl _)
    · split
      · exact hwrite.trans (emit rfl _)
      · refine hwrite.trans ?_
        unfold Turn.takeIn
        split
        · split
          · exact refl _
          · exact ((addChain _ _).trans (emit rfl _)).trans (finishAccept _)
        · split_ifs
          · exact emit rfl _
          · exact emit rfl _
          · exact (addChain _ _).trans (finishAccept _)

end Calm

/-! ### The turns of a dial -/

/-- What a turn may change of the invitation that its link presents. -/
structure Turned (me : Local K Code) (body : Body K) (t t' : Turn K Code) : Prop where
  joinCode : ∀ code, t'.peer.joinCode = some code → t.peer.joinCode = some code
  inviteSent : t'.peer.inviteSent = true → t.peer.inviteSent = true ∨ ∃ code challenge dst,
    t.peer.joinCode = some code ∧
      t'.out = t.out ++ [.sent ⟨me.id, dst, .invite (me.computeResponse code challenge)⟩]
  joined : t'.peer.joinedByInvite = true → t.peer.joinedByInvite = true ∨
    t.peer.inviteSent = true ∧ ∃ rest, body = .inviteAck (ackAccepted :: rest)
  heard : ∀ challenge, t'.peer.receivedChallenge = some challenge →
    t.peer.receivedChallenge = some challenge ∨ body = .challenge challenge
  out : ∃ es, t'.out = t.out ++ es ∧ ∀ e ∈ es, opens e = false

/-- What makes an answer plant a root: the link was joined by an invitation, the answer is signed over its
challenge, and the root's own certificate ends the chain. -/
structure Plants (me : Local K Code) (peer : Peer Code) (src : NodeID) (answer : Answer K)
    (root : NodeID) : Prop where
  joined : peer.joinedByInvite = true
  signed : ∃ challenge, peer.receivedChallenge = some challenge ∧
    K.verify (challenge ++ answer.ciphertext ++ answer.dsaPub) answer.signature answer.dsaPub = true
  answering : K.fromPublicKey answer.dsaPub = src
  last : ∃ last, answer.chain.getLast? = some last ∧ last.isSelfSigned = true ∧ last.subjectId = root
  issued : ∃ cert, answer.issuedCert = some cert ∧ cert.issuerId = src ∧ cert.subjectId = me.id

section Handlers

variable {me : Local K Code} {env : Env} {t t' : Turn K Code} {certs : CertStore K}

theorem Calm.turned_aside (h : Calm t { t' with certs := certs }) (body : Body K) :
    Turned me body t t' where
  joinCode _ hc := h.joinCode ▸ hc
  inviteSent hs := .inl (h.inviteSent ▸ hs)
  joined hj := .inl (h.joined ▸ hj)
  heard _ hc := .inl (h.heard ▸ hc)
  out := h.out

theorem Calm.turned (h : Calm t t') (body : Body K) : Turned me body t t' :=
  turned_aside h body

theorem Calm.aside (h : Calm t t') (certs : CertStore K) :
    Calm { t with certs := certs } { t' with certs := certs } :=
  ⟨rfl, h.joinCode, h.inviteSent, h.joined, h.heard, h.out⟩

theorem handleChallenge_turned (src : NodeID) (payload : Bytes) (t : Turn K Code) :
    Turned me (.challenge payload) t (t.handleChallenge me env src payload) ∧
      (t.handleChallenge me env src payload).certs.roots = t.certs.roots := by
  have hwrite : ∀ {t'}, Calm { t with peer := { t.peer with receivedChallenge := some payload } } t' →
      Turned me (.challenge payload) t t' ∧ t'.certs.roots = t.certs.roots := by
    intro t' h
    refine ⟨⟨fun _ hc => h.joinCode ▸ hc, fun hs => .inl (h.inviteSent ▸ hs),
      fun hj => .inl (h.joined ▸ hj), fun c hc => .inr ?_, h.out⟩, h.roots⟩
    rw [h.heard] at hc
    rw [Option.some.inj hc]
  unfold Turn.handleChallenge
  dsimp only
  split_ifs
  · exact ⟨(Calm.refl t).turned _, rfl⟩
  · exact hwrite (.refl _)
  · exact hwrite (.emit rfl _)
  · exact hwrite (.refl _)
  · exact hwrite (.thenEmit rfl (.write rfl rfl rfl rfl rfl))
  · split
    · exact hwrite (.initiateHandshake _)
    · next code hcode =>
      refine ⟨⟨fun _ hc => hc, fun _ => .inr ⟨code, payload, src, hcode, rfl⟩, fun hj => .inl hj,
        fun c hc => .inr ?_, _, rfl, by simp [opens]⟩, rfl⟩
      rw [Option.some.inj hc]

theorem handleInviteAck_turned (payload : Bytes) (t : Turn K Code) :
    Turned me (.inviteAck payload) t (t.handleInviteAck me env payload) ∧
      (t.handleInviteAck me env payload).certs.roots = t.certs.roots := by
  unfold Turn.handleInviteAck
  split
  · exact ⟨(Calm.refl t).turned _, rfl⟩
  · next code rest =>
    dsimp only
    split_ifs with hsent hcode
    · exact ⟨(Calm.refl t).turned _, rfl⟩
    · have h : Calm _ (Turn.initiateHandshake me env { t with peer := { t.peer with
          inviteSent := false, joinCode := none, joinedByInvite := true } }) := .initiateHandshake _
      have hsent : t.peer.inviteSent = true := by simpa using hsent
      refine ⟨⟨fun c hc => ?_, fun hs => ?_, fun _ => .inr ⟨hsent, rest, by rw [hcode]⟩,
        fun c hc => .inl (h.heard ▸ hc), h.out⟩, h.roots⟩
      · rw [h.joinCode] at hc
        cases hc
      · rw [h.inviteSent] at hs
        cases hs
    · exact ⟨⟨fun _ hc => hc, fun hs => (nomatch hs), fun hj => .inl hj, fun _ hc => .inl hc, [],
        (List.append_nil _).symm, by simp⟩, rfl⟩

theorem trustLast_cases (certs : CertStore K) (chain : List (Certificate K)) (t : Turn K Code) :
    Calm { t with certs := certs } { t.trustLast chain with certs := certs } ∧
      ∀ root ∈ (t.trustLast chain).certs.roots, root ∈ t.certs.roots ∨
        ∃ last, chain.getLast? = some last ∧ last.isSelfSigned = true ∧ last.subjectId = root := by
  unfold Turn.trustLast
  split
  · exact ⟨.refl _, fun root hr => .inl hr⟩
  · next last hlast =>
    split_ifs with hself
    · refine ⟨.emit rfl _, fun root hr => ?_⟩
      rcases Finset.mem_insert.mp hr with rfl | hr
      · exact .inr ⟨last, hlast, hself, rfl⟩
      · exact .inl hr
    · exact ⟨.refl _, fun root hr => .inl hr⟩

theorem handleHandshakeAck_turned (src : NodeID) (payload : Option (Answer K)) (t : Turn K Code) :
    Turned me (.handshakeAck payload) t (t.handleHandshakeAck me env src payload) ∧
      ∀ root ∈ (t.handleHandshakeAck me env src payload).certs.roots, root ∈ t.certs.roots ∨
        ∃ answer, payload = some answer ∧ Plants me t.peer src answer root := by
  have hcalm : ∀ {t'}, Calm t t' → Turned me (.handshakeAck payload) t t' ∧
      ∀ root ∈ t'.certs.roots, root ∈ t.certs.roots ∨
        ∃ answer, payload = some answer ∧ Plants me t.peer src answer root :=
    fun h => ⟨h.turned _, fun root hr => .inl (h.roots ▸ hr)⟩
  have hwrite : Calm t { t with peer := { t.peer with answeredAs := some src } } :=
    .write rfl rfl rfl rfl rfl
  unfold Turn.handleHandshakeAck
  split
  · exact hcalm (.refl t)
  split
  · exact hcalm (.emit rfl t)
  · exact hcalm (.emit rfl t)
  · next challenge answer hchallenge =>
    dsimp only
    split_ifs with hsig hid hself hexp
    · exact hcalm (.emit rfl t)
    · exact hcalm (.emit rfl t)
    · exact hcalm (hwrite.trans (.emit rfl _))
    · exact hcalm (hwrite.trans (.emit rfl _))
    · unfold Turn.adopt
      split
      · next issued hissued hjoined =>
        split_ifs with hissuer hsubject
        · exact hcalm (hwrite.trans (.emit rfl _))
        · exact hcalm (hwrite.trans (.emit rfl _))
        · have hadd : Calm t (Turn.addChain env answer.chain
              { t with peer := { t.peer with answeredAs := some src } }) :=
            hwrite.trans (.addChain _ _)
          obtain ⟨htrust, hroots⟩ := trustLast_cases t.certs answer.chain
            (Turn.addChain env answer.chain
              { t with peer := { t.peer with answeredAs := some src } })
          have hfinish : ∀ t' : Turn K Code,
              Calm t' ((t'.addChain env [issued]).finishDial me src answer) :=
            fun t' => (Calm.addChain _ t').trans (.finishDial _)
          have hall := ((hadd.aside t.certs).trans htrust).trans ((hfinish _).aside t.certs)
          refine ⟨hall.turned_aside _, fun root hr => ?_⟩
          rw [(hfinish _).roots] at hr
          rcases hroots root hr with hr | hlast
          · exact .inl (hadd.roots ▸ hr)
          · refine .inr ⟨answer, rfl, hjoined, ⟨challenge, hchallenge, by simpa using hsig⟩,
              by simpa using hid, hlast, issued, hissued, by simpa using hissuer,
              by simpa using hsubject⟩
      · split_ifs
        · exact hcalm (hwrite.trans (.emit rfl _))
        · exact hcalm (hwrite.trans (.emit rfl _))
        · exact hcalm ((hwrite.trans (.addChain _ _)).trans (.finishDial _))

variable [DecidableEq Code] in
/-- **A packet**: what its handler changes of the invitation, and the roots that it may add. -/
theorem handle_turned (packet : Packet K) (t : Turn K Code) :
    Turned me packet.body t (t.handle me env packet) ∧
      ∀ root ∈ (t.handle me env packet).certs.roots, root ∈ t.certs.roots ∨
        ∃ answer, packet.body = .handshakeAck (some answer) ∧
          Plants me t.peer packet.srcId answer root := by
  unfold Turn.handle
  split
  · next challenge hbody =>
    obtain ⟨hturned, hroots⟩ := handleChallenge_turned packet.srcId challenge t
    exact ⟨hbody ▸ hturned, fun root hr => .inl (hroots ▸ hr)⟩
  · next response _ =>
    have h : Calm t (t.handleInvite me env packet.srcId response) := .handleInvite _ _ _
    exact ⟨h.turned _, fun root hr => .inl (h.roots ▸ hr)⟩
  · next code hbody =>
    obtain ⟨hturned, hroots⟩ := handleInviteAck_turned code t
    exact ⟨hbody ▸ hturned, fun root hr => .inl (hroots ▸ hr)⟩
  · next hello _ =>
    have h : Calm t (t.handleHandshake me env packet.srcId hello) := .handleHandshake _ _ _
    exact ⟨h.turned _, fun root hr => .inl (h.roots ▸ hr)⟩
  · next answer hbody =>
    rw [hbody]
    obtain ⟨hturned, hroots⟩ := handleHandshakeAck_turned packet.srcId answer t
    refine ⟨hturned, fun root hr => (hroots root hr).imp_right ?_⟩
    rintro ⟨answer', rfl, hplants⟩
    exact ⟨answer', rfl, hplants⟩

end Handlers

/-! ### What the log says of a link -/

def Offered (me : Local K Code) (l : ℕ) (log : List (Entry K Code)) : Prop :=
  ∃ code challenge dst, [.on l (.dialled (some code)),
    .on l (.sent ⟨me.id, dst, .invite (me.computeResponse code challenge)⟩)].Sublist log

/-- **An invitation, presented and accepted**: the link was dialled with a code, then an INVITE for that
code was sent on it, then its acceptance came in. -/
def Invited (me : Local K Code) (l : ℕ) (log : List (Entry K Code)) : Prop :=
  ∃ code challenge dst src dst' rest, [.on l (.dialled (some code)),
    .on l (.sent ⟨me.id, dst, .invite (me.computeResponse code challenge)⟩),
    .on l (.received ⟨src, dst', .inviteAck (ackAccepted :: rest)⟩)].Sublist log

def Heard (l : ℕ) (challenge : Bytes) (log : List (Entry K Code)) : Prop :=
  ∃ src dst, .on l (.received ⟨src, dst, .challenge challenge⟩) ∈ log

/-- What a node's links and its log stand in. -/
structure Rooted (me : Local K Code) (n : Node K Code) : Prop where
  serial : ∀ l peer, n.peers.get? l = some peer → l < n.nextSerial
  logged : ∀ l e, .on l e ∈ n.log → l < n.nextSerial
  once : ∀ l code code', .on l (.dialled code) ∈ n.log → .on l (.dialled code') ∈ n.log → code = code'
  coded : ∀ l peer code, n.peers.get? l = some peer → peer.joinCode = some code →
    .on l (.dialled (some code)) ∈ n.log
  offered : ∀ l peer, n.peers.get? l = some peer → peer.inviteSent = true → Offered me l n.log
  invited : ∀ l peer, n.peers.get? l = some peer → peer.joinedByInvite = true → Invited me l n.log
  heard : ∀ l peer challenge, n.peers.get? l = some peer →
    peer.receivedChallenge = some challenge → Heard l challenge n.log

section Step

variable {me : Local K Code} {n : Node K Code} {l : ℕ} {peer : Peer Code} {t : Turn K Code}

theorem Offered.append {log : List (Entry K Code)} (h : Offered me l log) (es : List (Entry K Code)) :
    Offered me l (log ++ es) := by
  obtain ⟨code, challenge, dst, hsub⟩ := h
  exact ⟨code, challenge, dst, hsub.trans (List.sublist_append_left _ _)⟩

theorem Invited.append {log : List (Entry K Code)} (h : Invited me l log) (es : List (Entry K Code)) :
    Invited me l (log ++ es) := by
  obtain ⟨code, challenge, dst, src, dst', rest, hsub⟩ := h
  exact ⟨code, challenge, dst, src, dst', rest, hsub.trans (List.sublist_append_left _ _)⟩

theorem Heard.append {log : List (Entry K Code)} {challenge : Bytes} (h : Heard l challenge log)
    (es : List (Entry K Code)) : Heard l challenge (log ++ es) := by
  obtain ⟨src, dst, hmem⟩ := h
  exact ⟨src, dst, List.mem_append_left _ hmem⟩

theorem Rooted.settle (h : Rooted me n) (hpeer : n.peers.get? l = some peer)
    (hdial : ∀ e ∈ t.out, opens e = false)
    (hcode : ∀ code, t.peer.joinCode = some code → peer.joinCode = some code)
    (hoffered : t.peer.inviteSent = true → Offered me l (n.settle l t).log)
    (hinvited : t.peer.joinedByInvite = true → Invited me l (n.settle l t).log)
    (hheard : ∀ challenge, t.peer.receivedChallenge = some challenge →
      Heard l challenge (n.settle l t).log) : Rooted me (n.settle l t) := by
  have hlog : (n.settle l t).log = n.log ++ t.out.map (.on l) := rfl
  have hold : ∀ l' code, .on l' (.dialled code) ∈ (n.settle l t).log →
      .on l' (.dialled code) ∈ n.log := by
    intro l' code hmem
    rw [hlog] at hmem
    rcases List.mem_append.mp hmem with hmem | hmem
    · exact hmem
    · obtain ⟨e, he, heq⟩ := List.mem_map.mp hmem
      obtain ⟨-, rfl⟩ := Entry.on.inj heq
      exact absurd (hdial _ he) (by simp [opens])
  constructor
  · intro l' peer' hget
    rcases get?_settle hget with ⟨rfl, -⟩ | ⟨-, hget⟩
    · exact h.serial _ _ hpeer
    · exact h.serial _ _ hget
  · intro l' e hmem
    rw [hlog] at hmem
    rcases List.mem_append.mp hmem with hmem | hmem
    · exact h.logged l' e hmem
    · obtain ⟨e', -, heq⟩ := List.mem_map.mp hmem
      obtain ⟨rfl, -⟩ := Entry.on.inj heq
      exact h.serial _ _ hpeer
  · exact fun l' code code' h1 h2 => h.once l' code code' (hold _ _ h1) (hold _ _ h2)
  · intro l' peer' code hget hc
    refine List.mem_append_left _ ?_
    rcases get?_settle hget with ⟨rfl, rfl⟩ | ⟨-, hget⟩
    · exact h.coded _ _ _ hpeer (hcode code hc)
    · exact h.coded _ _ _ hget hc
  · intro l' peer' hget hs
    rcases get?_settle hget with ⟨rfl, rfl⟩ | ⟨-, hget⟩
    · exact hoffered hs
    · exact (h.offered _ _ hget hs).append _
  · intro l' peer' hget hj
    rcases get?_settle hget with ⟨rfl, rfl⟩ | ⟨-, hget⟩
    · exact hinvited hj
    · exact (h.invited _ _ hget hj).append _
  · intro l' peer' challenge hget hc
    rcases get?_settle hget with ⟨rfl, rfl⟩ | ⟨-, hget⟩
    · exact hheard challenge hc
    · exact (h.heard _ _ _ hget hc).append _

theorem Rooted.turned (h : Rooted me n) (hpeer : n.peers.get? l = some peer) {packet : Packet K}
    (ht : Turned me packet.body (n.turn peer packet) t) : Rooted me (n.settle l t) := by
  obtain ⟨es, hout, hes⟩ := ht.out
  have hout' : t.out = .received packet :: es := hout
  have hlog : (n.settle l t).log = n.log ++ t.out.map (.on l) := rfl
  refine h.settle hpeer (fun e he => ?_) ht.joinCode (fun hs => ?_) (fun hj => ?_) fun c hc => ?_
  · rw [hout'] at he
    rcases List.mem_cons.mp he with rfl | he
    · rfl
    · exact hes e he
  · rcases ht.inviteSent hs with hs | ⟨code, challenge, dst, hcode, hsent⟩
    · exact (h.offered _ _ hpeer hs).append _
    · refine ⟨code, challenge, dst, ?_⟩
      have hdialled := List.singleton_sublist.mpr (h.coded _ _ _ hpeer hcode)
      rw [hlog, hsent]
      refine hdialled.append (List.singleton_sublist.mpr ?_)
      simp
  · rcases ht.joined hj with hj | ⟨hs, rest, hbody⟩
    · exact (h.invited _ _ hpeer hj).append _
    · obtain ⟨code, challenge, dst, hsub⟩ := h.offered _ _ hpeer hs
      refine ⟨code, challenge, dst, packet.srcId, packet.dstId, rest, ?_⟩
      rw [hlog, hout', ← hbody]
      exact hsub.append (List.singleton_sublist.mpr List.mem_cons_self)
  · rcases ht.heard c hc with hc | hbody
    · exact (h.heard _ _ _ hpeer hc).append _
    · refine ⟨packet.srcId, packet.dstId, ?_⟩
      rw [hlog, hout', ← hbody]
      exact List.mem_append_right _ List.mem_cons_self

theorem Rooted.newPeer (h : Rooted me n) {e : Effect K Code} (hsent : peer.inviteSent = false)
    (hjoined : peer.joinedByInvite = false) (hheard : peer.receivedChallenge = none)
    (hcode : ∀ code, peer.joinCode = some code → e = .dialled (some code)) :
    Rooted me (n.newPeer peer e) := by
  have hlog : (n.newPeer peer e).log = n.log ++ [.on n.nextSerial e] := rfl
  have hmem : ∀ l' e', .on l' e' ∈ (n.newPeer peer e).log →
      .on l' e' ∈ n.log ∨ l' = n.nextSerial ∧ e' = e := by
    intro l' e' hmem
    rw [hlog] at hmem
    rcases List.mem_append.mp hmem with hmem | hmem
    · exact .inl hmem
    · exact .inr (Entry.on.inj (List.mem_singleton.mp hmem))
  constructor
  · intro l' peer' hl'
    show l' < n.nextSerial + 1
    rcases Node.get?_newPeer hl' with ⟨rfl, -⟩ | hl'
    · omega
    · have := h.serial _ _ hl'
      omega
  · intro l' e' hl'
    show l' < n.nextSerial + 1
    rcases hmem _ _ hl' with hl' | ⟨rfl, -⟩
    · have := h.logged _ _ hl'
      omega
    · omega
  · -- the log says nothing yet of the next serial number
    intro l' code code' h1 h2
    rcases hmem _ _ h1 with h1 | ⟨rfl, he1⟩ <;> rcases hmem _ _ h2 with h2 | ⟨hl', he2⟩
    · exact h.once _ _ _ h1 h2
    · exact absurd (h.logged _ _ h1) (by omega)
    · exact absurd (h.logged _ _ h2) (by omega)
    · exact Effect.dialled.inj (he1.trans he2.symm)
  · intro l' peer' code hl' hc
    rcases Node.get?_newPeer hl' with ⟨rfl, rfl⟩ | hl'
    · rw [hlog, hcode code hc]
      simp
    · exact List.mem_append_left _ (h.coded _ _ _ hl' hc)
  · intro l' peer' hl' hs
    rcases Node.get?_newPeer hl' with ⟨-, rfl⟩ | hl'
    · rw [hsent] at hs
      cases hs
    · exact (h.offered _ _ hl' hs).append _
  · intro l' peer' hl' hj
    rcases Node.get?_newPeer hl' with ⟨-, rfl⟩ | hl'
    · rw [hjoined] at hj
      cases hj
    · exact (h.invited _ _ hl' hj).append _
  · intro l' peer' challenge hl' hc
    rcases Node.get?_newPeer hl' with ⟨-, rfl⟩ | hl'
    · rw [hheard] at hc
      cases hc
    · exact (h.heard _ _ _ hl' hc).append _

theorem Rooted.congr {n' : Node K Code} (h : Rooted me n)
    (hpeers : ∀ l peer, n'.peers.get? l = some peer → n.peers.get? l = some peer)
    (hserial : n'.nextSerial = n.nextSerial) (hlog : n'.log = n.log) : Rooted me n' := by
  obtain ⟨h1, h2, h3, h4, h5, h6, h7⟩ := h
  constructor <;> simp only [hserial, hlog]
  · exact fun l p hl => h1 l p (hpeers l p hl)
  · exact h2
  · exact h3
  · exact fun l p c hl => h4 l p c (hpeers l p hl)
  · exact fun l p hl => h5 l p (hpeers l p hl)
  · exact fun l p hl => h6 l p (hpeers l p hl)
  · exact fun l p c hl => h7 l p c (hpeers l p hl)

variable [DecidableEq Code] in
theorem Rooted.step (h : Rooted me n) (act : Env × Event K Code) : Rooted me (n.step me act) := by
  obtain ⟨env, event⟩ := act
  cases event with
  | generateCode code ttl =>
    have hmem : ∀ l e, .on l e ∈ n.log ++ [Entry.generated code env.clock (InviteManager.window ttl)] →
        .on l e ∈ n.log := by simp
    exact ⟨h.serial, fun l e hl => h.logged l e (hmem l e hl),
      fun l c c' h1 h2 => h.once l c c' (hmem _ _ h1) (hmem _ _ h2),
      fun l p c hl hc => List.mem_append_left _ (h.coded l p c hl hc),
      fun l p hl hs => (h.offered l p hl hs).append _,
      fun l p hl hj => (h.invited l p hl hj).append _,
      fun l p c hl hc => (h.heard l p c hl hc).append _⟩
  | liveCodes | store op => exact h.congr (fun _ _ hl => hl) rfl rfl
  | dial joinCode relayOnly relayed expectedId =>
    refine h.newPeer rfl rfl rfl fun code hcode => ?_
    rw [← hcode]
  | accept relayed => exact h.newPeer rfl rfl rfl fun code hcode => (nomatch hcode)
  | greet serial challenge =>
    unfold Node.step
    dsimp only
    split
    · exact h
    · next peer hpeer =>
      exact h.settle (t := ⟨{ peer with pendingChallenge := some challenge }, n.invite, n.certs,
        [.sent ⟨me.id, broadcastId, .challenge challenge⟩]⟩) hpeer (by simp [opens]) (fun _ hc => hc)
        (fun hs => (h.offered _ _ hpeer hs).append _) (fun hj => (h.invited _ _ hpeer hj).append _)
        fun c hc => (h.heard _ _ _ hpeer hc).append _
  | packet serial packet =>
    unfold Node.step
    dsimp only
    split
    · exact h
    · next peer hpeer => exact h.turned hpeer (handle_turned packet _).1
  | close serial =>
    exact h.congr (fun l p hl => (Dict.get?_of_pop (show (n.peers.pop serial).get? l = some p from hl)).2) rfl rfl
  | consoleAddRoot cert =>
    unfold Node.step
    dsimp only
    split_ifs
    · exact h
    · exact h.congr (fun _ _ hl => hl) rfl rfl

end Step

theorem rooted_start (me : Local K Code) (certs : CertStore K) : Rooted me (start certs) where
  serial _ _ h := nomatch h
  logged _ _ h := nomatch h
  once _ _ _ h := nomatch h
  coded _ _ _ h := nomatch h
  offered _ _ h := nomatch h
  invited _ _ h := nomatch h
  heard _ _ _ h := nomatch h

variable [DecidableEq Code] in
theorem roots_node_step (me : Local K Code) (n : Node K Code) (act : Env × Event K Code) :
    ∀ root ∈ (n.step me act).certs.roots, root ∈ n.certs.roots ∨
      (∃ cert, act.2 = .consoleAddRoot cert ∧ cert.isSelfSigned = true ∧ cert.subjectId = root) ∨
      ∃ l peer src dst answer, act.2 = .packet l ⟨src, dst, .handshakeAck (some answer)⟩ ∧
        n.peers.get? l = some peer ∧ Plants me peer src answer root := by
  obtain ⟨env, event⟩ := act
  intro root hr
  cases event with
  | packet l packet =>
    unfold Node.step at hr
    dsimp only at hr
    split at hr
    · exact .inl hr
    · next peer hpeer =>
      rcases (handle_turned packet (n.turn peer packet)).2 root hr with hr | ⟨answer, hbody, hplants⟩
      · exact .inl hr
      · exact .inr (.inr ⟨l, peer, packet.srcId, packet.dstId, answer, by rw [← hbody], hpeer, hplants⟩)
  | consoleAddRoot cert =>
    unfold Node.step at hr
    dsimp only at hr
    split_ifs at hr with hself
    · exact .inl hr
    · rcases Finset.mem_insert.mp hr with rfl | hr
      · exact .inr (.inl ⟨cert, rfl, by simpa using hself, rfl⟩)
      · exact .inl ((roots_add n.certs cert env.stamp) ▸ hr)
  | store op => exact .inl (roots_step n.certs env.stamp op hr)
  | greet serial challenge =>
    unfold Node.step at hr
    dsimp only at hr
    split at hr <;> exact .inl hr
  | _ => exact .inl hr

variable [DecidableEq Code] in
/-- **Only an invitation or the operator plants a root.** Whatever the run, a root that a step adds is
the subject of a self-signed certificate that the operator gave, or it comes from a HANDSHAKE_ACK that
plants it (`Plants`) on a link that was dialled with a code, and never without one, whose INVITE was
sent and accepted there (`Invited`); the challenge answered was received on the link. -/
theorem root_planted (me : Local K Code) (certs : CertStore K) (as : List (Env × Event K Code))
    (act : Env × Event K Code) :
    let n := run (Node.step me) (start certs) as
    ∀ root ∈ (n.step me act).certs.roots, root ∈ n.certs.roots ∨
      (∃ cert, act.2 = .consoleAddRoot cert ∧ cert.isSelfSigned = true ∧ cert.subjectId = root) ∨
      ∃ l peer src dst answer, act.2 = .packet l ⟨src, dst, .handshakeAck (some answer)⟩ ∧
        n.peers.get? l = some peer ∧ Plants me peer src answer root ∧ Invited me l n.log ∧
        .on l (.dialled none) ∉ n.log ∧
        ∀ challenge, peer.receivedChallenge = some challenge → Heard l challenge n.log := by
  intro n root hr
  have h : Rooted me n := run_induct (fun _ act h => h.step act) as (rooted_start me certs)
  rcases roots_node_step me n act root hr with hr | hr | ⟨l, peer, src, dst, answer, hact, hpeer, hplants⟩
  · exact .inl hr
  · exact .inr (.inl hr)
  · have hinvited := h.invited _ _ hpeer hplants.joined
    refine .inr (.inr ⟨l, peer, src, dst, answer, hact, hpeer, hplants, hinvited, fun hnone => ?_,
      fun c hc => h.heard _ _ c hpeer hc⟩)
    obtain ⟨code, challenge, dst, src, dst', rest, hsub⟩ := hinvited
    have hcode := hsub.subset List.mem_cons_self
    exact absurd (h.once _ _ _ hcode hnone) (by simp)

/-! ### A node that joins -/

/-- The node with key `[1]` dials with the code 7, is challenged and told that its INVITE is accepted. -/
def joining : List (Env × Event plain UInt8) :=
  let src := plain.fromPublicKey [2]
  [(plainEnv 0, .dial (some 7) false false none),
    (plainEnv 1, .packet 1 ⟨src, broadcastId, .challenge (List.replicate 32 5)⟩),
    (plainEnv 2, .packet 1 ⟨src, plainLocal.id, .inviteAck [ackAccepted]⟩)]

/-- The answer of the node with key `[2]`, its own certificate at the end of its chain. -/
def joinedAnswer : Event plain UInt8 :=
  .packet 1 ⟨plain.fromPublicKey [2], plainLocal.id, .handshakeAck (some
    ⟨[4], [2], [plainCert 2 2], some (plainCert 1 2), List.replicate 32 5 ++ [4, 2]⟩)⟩

theorem root_planted_joining :
    plain.fromPublicKey [2] ∈ (run (Node.step plainLocal) (start (.new plain plainLocal.id 9 9 9))
        (joining ++ [(plainEnv 3, joinedAnswer)])).certs.roots ∧
      plain.fromPublicKey [2] ∉
        (run (Node.step plainLocal) (start (.new plain plainLocal.id 9 9 9)) joining).certs.roots ∧
      Invited plainLocal 1
        (run (Node.step plainLocal) (start (.new plain plainLocal.id 9 9 9)) joining).log := by
  have hnew : plain.fromPublicKey [2] ∈ (run (Node.step plainLocal)
      (start (.new plain plainLocal.id 9 9 9)) (joining ++ [(plainEnv 3, joinedAnswer)])).certs.roots := by
    decide +kernel
  have hold : plain.fromPublicKey [2] ∉ (run (Node.step plainLocal)
      (start (.new plain plainLocal.id 9 9 9)) joining).certs.roots := by
    decide +kernel
  refine ⟨hnew, hold, ?_⟩
  rw [run_concat] at hnew
  have h := root_planted plainLocal (.new plain plainLocal.id 9 9 9) joining (plainEnv 3, joinedAnswer)
    (plain.fromPublicKey [2])
  rcases (h hnew).resolve_left hold with ⟨cert, hact, -⟩ | ⟨l, peer, src, dst, answer, hact, -, -, hinvited, -⟩
  · exact absurd hact (by simp [joinedAnswer])
  · have hl : 1 = l := (Event.packet.inj hact).1
    rw [hl]
    exact hinvited

end NMesh.Link.Roots
