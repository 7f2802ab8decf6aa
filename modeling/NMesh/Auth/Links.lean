import NMesh.Auth.World

/-! # What a node has signed on its links

A HANDSHAKE is signed over a challenge that came in on the link, which was dialled; a HANDSHAKE_ACK over the
challenge that the node sent on the link (`Said`). A link's fields are what its log says of it
(`Holds`). -/

namespace NMesh.Auth.Links

open Base.BigEndian Base.Ordered NMesh.Cert.Identity NMesh.Cert.Issuing
open NMesh.Cert.Store NMesh.Link.Invite NMesh.Link.Handshake NMesh.Link.Roots
open NMesh.Auth.World

variable {K : Crypto} {Code : Type}

section Turns

variable (me : Local K Code) (l : ℕ) (log : List (Entry K Code))

def Asked (challenge : Bytes) : Prop := .on l (.sent ⟨me.id, broadcastId, .challenge challenge⟩) ∈ log

def Said : Effect K Code → Prop
  | .sent ⟨src, _, .handshake (some hello)⟩ =>
    src = me.id ∧ (∃ code, .on l (.dialled code) ∈ log) ∧ ∃ challenge, Heard l challenge log ∧
      challenge.length = challengeLen ∧ hello.kemPub.length = kemPublicLen ∧
        hello.signature = me.sign (challenge ++ hello.kemPub ++ me.dsaPublicKey)
  | .sent ⟨src, _, .handshakeAck (some answer)⟩ =>
    src = me.id ∧ ∃ challenge, Asked me l log challenge ∧
      challenge.length = challengeLen ∧ answer.ciphertext.length = kemCiphertextLen ∧
        answer.signature = me.sign (challenge ++ answer.ciphertext ++ me.dsaPublicKey)
  | .sent ⟨_, _, .challenge _⟩ => False
  | .issued cert => cert.signature = me.sign cert.body ∧ cert.issuerPub = me.dsaPublicKey
  | _ => True

/-- What a link holds is what its log says of it. -/
structure Holds (peer : Peer Code) : Prop where
  client : peer.isClientSide = true → ∃ code, .on l (.dialled code) ∈ log
  invited : peer.inviteSent = true → peer.isClientSide = true ∧ peer.receivedChallenge ≠ none
  heard : ∀ challenge, peer.receivedChallenge = some challenge →
    Heard l challenge log ∧ challenge.length = challengeLen
  asked : ∀ challenge, peer.pendingChallenge = some challenge →
    Asked me l log challenge ∧ challenge.length = challengeLen

/-- A turn says what follows from the log, and leaves its link so. -/
structure Sincere (t : Turn K Code) : Prop where
  peer : Holds me l log t.peer
  out : ∀ e ∈ t.out, Said me l log e

end Turns

section Handlers

variable {me : Local K Code} {l : ℕ} {log log' : List (Entry K Code)} {env : Env} {t : Turn K Code}
  {kem : NMesh.E2e.Pair.Kem}

theorem Said.mono {e : Effect K Code} (h : Said me l log e) (hsub : log ⊆ log') :
    Said me l log' e := by
  unfold Said at h ⊢
  split at h
  · obtain ⟨hsrc, ⟨code, hcode⟩, challenge, hheard, hrest⟩ := h
    exact ⟨hsrc, ⟨code, hsub hcode⟩, challenge, heard_mono hheard hsub, hrest⟩
  · obtain ⟨hsrc, challenge, hasked, hrest⟩ := h
    exact ⟨hsrc, challenge, hsub hasked, hrest⟩
  · exact h
  · exact h
  · trivial

theorem Holds.mono {peer : Peer Code} (h : Holds me l log peer) (hsub : log ⊆ log') :
    Holds me l log' peer where
  client hc := (h.client hc).imp fun _ hmem => hsub hmem
  invited := h.invited
  heard c hc := ⟨heard_mono (h.heard c hc).1 hsub, (h.heard c hc).2⟩
  asked c hc := ⟨hsub (h.asked c hc).1, (h.asked c hc).2⟩

theorem Holds.congr {peer peer' : Peer Code} (h : Holds me l log peer)
    (hclient : peer'.isClientSide = peer.isClientSide)
    (hsent : peer'.inviteSent = true → peer.inviteSent = true)
    (hheard : peer'.receivedChallenge = peer.receivedChallenge)
    (hasked : ∀ c, peer'.pendingChallenge = some c → peer.pendingChallenge = some c) :
    Holds me l log peer' where
  client hc := h.client (hclient ▸ hc)
  invited hs := ⟨hclient ▸ (h.invited (hsent hs)).1, hheard ▸ (h.invited (hsent hs)).2⟩
  heard c hc := h.heard c (hheard ▸ hc)
  asked c hc := h.asked c (hasked c hc)

namespace Sincere

variable (h : Sincere me l log t)
include h

theorem emit {e : Effect K Code} (he : Said me l log e) :
    Sincere me l log (t.emit e) :=
  ⟨h.peer, fun e' he' => (List.mem_append.mp he').elim (h.out e')
    fun he' => List.mem_singleton.mp he' ▸ he⟩

theorem write {peer : Peer Code} {invite : InviteManager Code}
    {certs : CertStore K} (hclient : peer.isClientSide = t.peer.isClientSide)
    (hsent : peer.inviteSent = true → t.peer.inviteSent = true)
    (hheard : peer.receivedChallenge = t.peer.receivedChallenge)
    (hasked : ∀ c, peer.pendingChallenge = some c → t.peer.pendingChallenge = some c) :
    Sincere me l log { t with peer := peer, invite := invite, certs := certs } :=
  ⟨h.peer.congr hclient hsent hheard hasked, h.out⟩

theorem addChain (chain : List (Certificate K)) :
    Sincere me l log (t.addChain env chain) := write h rfl id rfl fun _ hc => hc

theorem finishDial (src : NodeID) (answer : Answer K) :
    Sincere me l log (t.finishDial me src answer) := by
  unfold Turn.finishDial
  dsimp only
  split
  · exact write h rfl id rfl fun _ hc => hc
  · exact write h rfl id rfl fun _ hc => hc

theorem trustLast (chain : List (Certificate K)) :
    Sincere me l log (t.trustLast chain) := by
  unfold Turn.trustLast
  split
  · exact h
  · split_ifs
    · exact emit (write h rfl id rfl fun _ hc => hc) trivial
    · exact h

theorem adopt (src : NodeID) (answer : Answer K) :
    Sincere me l log (t.adopt me env src answer) := by
  unfold Turn.adopt
  split
  · split_ifs
    · exact h.emit trivial
    · exact h.emit trivial
    · exact (((h.addChain _).trustLast _).addChain _).finishDial _ _
  · split_ifs
    · exact h.emit trivial
    · exact h.emit trivial
    · exact (h.addChain _).finishDial _ _

theorem handleHandshakeAck (src : NodeID) (payload : Option (Answer K)) :
    Sincere me l log (t.handleHandshakeAck me env src payload) := by
  unfold Turn.handleHandshakeAck
  split
  · exact h
  split
  · exact h.emit trivial
  · exact h.emit trivial
  · next challenge answer _ =>
    have hwrite : Sincere me l log { t with peer := { t.peer with answeredAs := some src } } :=
      write h rfl id rfl fun _ hc => hc
    dsimp only
    split_ifs
    · exact h.emit trivial
    · exact h.emit trivial
    · exact hwrite.emit trivial
    · exact hwrite.emit trivial
    · exact hwrite.adopt _ _

variable (hkem : KemCall kem env.kemPair env.kemEncapsulate)
include hkem

theorem initiateHandshake (hclient : t.peer.isClientSide = true) (hheard : t.peer.receivedChallenge ≠ none) :
    Sincere me l log (t.initiateHandshake me env) := by
  obtain ⟨challenge, hchallenge⟩ := Option.ne_none_iff_exists'.mp hheard
  obtain ⟨hheard, hlen⟩ := h.peer.heard challenge hchallenge
  unfold Turn.initiateHandshake
  dsimp only
  refine emit ?_ ⟨rfl, h.peer.client hclient, challenge, hheard, hlen, hkem.publicLen, ?_⟩
  · exact write h rfl id rfl fun _ hc => hc
  · rw [hchallenge]
    rfl

theorem finishAccept {challenge : Bytes} (hasked : t.peer.pendingChallenge = some challenge) (claimedId : NodeID)
    (hello : Hello K) (issued : Option (Certificate K)) :
    Sincere me l log (t.finishAccept me env claimedId hello challenge issued) := by
  obtain ⟨hasked, hlen⟩ := h.peer.asked challenge hasked
  unfold Turn.finishAccept
  dsimp only
  split
  · exact write h rfl id rfl fun _ hc => hc
  · next ciphertext shared hencapsulate =>
    have hlen' := (hkem.encapsulates _ _ _ hencapsulate).2.1
    refine emit ?_ ⟨rfl, challenge, hasked, hlen, hlen', rfl⟩
    exact write h rfl id rfl (fun _ hc => nomatch hc)

theorem takeIn {challenge : Bytes} (hasked : t.peer.pendingChallenge = some challenge) (claimedId : NodeID)
    (hello : Hello K) (chain : List (Certificate K)) :
    Sincere me l log (t.takeIn me env claimedId hello challenge chain) := by
  unfold Turn.takeIn
  split
  · split
    · exact h
    · next cert hcert =>
      have hissued : Sincere me l log ((t.addChain env [cert]).emit (.issued cert)) :=
        (h.addChain _).emit ⟨Identity.signature_issueCert hcert,
          (Identity.of_issueCert hcert).2.2.2.1⟩
      exact hissued.finishAccept hkem hasked _ _ _
  · split_ifs
    · exact h.emit trivial
    · exact h.emit trivial
    · exact (h.addChain _).finishAccept hkem hasked _ _ _

theorem handleHandshake (src : NodeID) (payload : Option (Hello K)) :
    Sincere me l log (t.handleHandshake me env src payload) := by
  unfold Turn.handleHandshake
  split
  · exact h
  split
  · exact h.emit trivial
  · exact h.emit trivial
  · next challenge hello hasked =>
    have hwrite : Sincere me l log { t with peer := { t.peer with
        handshakeAttempts := t.peer.handshakeAttempts + 1 } } := write h rfl id rfl fun _ hc => hc
    dsimp only
    split_ifs
    · exact h.emit trivial
    · exact h.emit trivial
    · exact h.emit trivial
    · exact hwrite.emit trivial
    · exact hwrite.emit trivial
    · split
      · exact hwrite.emit trivial
      · exact hwrite.takeIn hkem hasked _ _ _

theorem handleChallenge (src : NodeID) {payload : Bytes} (hheard : Heard l payload log) :
    Sincere me l log (t.handleChallenge me env src payload) := by
  have hwrite : payload.length = challengeLen →
      Sincere me l log { t with peer := { t.peer with receivedChallenge := some payload } } := by
    intro hlen
    refine ⟨⟨h.peer.client, fun hs => ⟨(h.peer.invited hs).1, Option.some_ne_none _⟩, fun c hc => ?_,
      h.peer.asked⟩, h.out⟩
    cases hc
    exact ⟨hheard, hlen⟩
  unfold Turn.handleChallenge
  dsimp only
  by_cases hlen : payload.length = challengeLen
  swap
  · rw [if_pos hlen]
    exact h
  rw [if_neg (not_not.mpr hlen)]
  split_ifs with hrelay hserver hdouble hself
  · exact hwrite hlen
  · exact (hwrite hlen).emit trivial
  · exact hwrite hlen
  · refine emit ?_ trivial
    exact write (hwrite hlen) rfl id rfl fun _ hc => hc
  · have hclient : t.peer.isClientSide = true := by simpa using hserver
    split
    · exact (hwrite hlen).initiateHandshake hkem hclient (Option.some_ne_none _)
    · have hpeer := (hwrite hlen).peer
      refine emit ?_ trivial
      exact ⟨⟨hpeer.client, fun _ => ⟨hclient, Option.some_ne_none _⟩, hpeer.heard, hpeer.asked⟩, h.out⟩

theorem handleInviteAck (payload : Bytes) : Sincere me l log (t.handleInviteAck me env payload) := by
  unfold Turn.handleInviteAck
  split
  · exact h
  · dsimp only
    split_ifs with hsent
    · exact h
    · obtain ⟨hclient, hheard⟩ := h.peer.invited (by simpa using hsent)
      refine initiateHandshake (write h rfl (fun hs => ?_) rfl fun _ hc => hc) hkem hclient hheard
      cases hs
    · refine write h rfl (fun hs => ?_) rfl fun _ hc => hc
      cases hs

end Sincere

end Handlers

section Node

variable {me : Local K Code} {l : ℕ} {log : List (Entry K Code)} {env : Env} {t : Turn K Code}
  {n : Node K Code} {kem : NMesh.E2e.Pair.Kem}

/-! ### A node's links -/

/-- What is said on a link follows from its log, or is a challenge. -/
def Logged (me : Local K Code) (l : ℕ) (log : List (Entry K Code)) (e : Effect K Code) : Prop :=
  Said me l log e ∨ ∃ challenge, e = .sent ⟨me.id, broadcastId, .challenge challenge⟩ ∧
    challenge.length = challengeLen

/-- What the links of a node hold and what its log says follow from the log. -/
structure Spoken (me : Local K Code) (n : Node K Code) : Prop where
  peers : ∀ l peer, n.peers.get? l = some peer → Holds me l n.log peer
  said : ∀ l e, .on l e ∈ n.log → Logged me l n.log e

theorem Logged.mono {log' : List (Entry K Code)} {e : Effect K Code} (h : Logged me l log e)
    (hsub : log ⊆ log') : Logged me l log' e := h.imp_left fun hs => hs.mono hsub

theorem Spoken.settle (h : Spoken me n) (hold : n.log ⊆ log) (hlog : log ⊆ (n.settle l t).log)
    (hpeer : Holds me l log t.peer) (hout : ∀ e ∈ t.out, Logged me l log e) :
    Spoken me (n.settle l t) := by
  have hall : n.log ⊆ (n.settle l t).log := List.Subset.trans hold hlog
  constructor
  · intro l' peer' hget
    rcases get?_settle hget with ⟨rfl, rfl⟩ | ⟨-, hget⟩
    · exact hpeer.mono hlog
    · exact (h.peers _ _ hget).mono hall
  · intro l' e hmem
    rw [show (n.settle l t).log = n.log ++ t.out.map (.on l) from rfl] at hmem
    rcases List.mem_append.mp hmem with hmem | hmem
    · exact (h.said l' e hmem).mono hall
    · obtain ⟨e', he', heq⟩ := List.mem_map.mp hmem
      obtain ⟨rfl, rfl⟩ := Entry.on.inj heq
      exact (hout _ he').mono hlog

theorem Spoken.newPeer (h : Spoken me n) {peer : Peer Code} {e : Effect K Code}
    (hpeer : Holds me n.nextSerial (n.newPeer peer e).log peer)
    (he : Said me n.nextSerial (n.newPeer peer e).log e) : Spoken me (n.newPeer peer e) := by
  have hlog : n.log ⊆ (n.newPeer peer e).log := List.subset_append_left _ _
  constructor
  · intro l' peer' hget
    rcases Node.get?_newPeer hget with ⟨rfl, rfl⟩ | hget
    · exact hpeer
    · exact (h.peers _ _ hget).mono hlog
  · intro l' e' hmem
    rw [show (n.newPeer peer e).log = n.log ++ [.on n.nextSerial e] from rfl] at hmem
    rcases List.mem_append.mp hmem with hmem | hmem
    · exact (h.said l' e' hmem).mono hlog
    · obtain ⟨rfl, rfl⟩ := Entry.on.inj (List.mem_singleton.mp hmem)
      exact .inl he

theorem Spoken.congr {n' : Node K Code} (h : Spoken me n)
    (hpeers : ∀ l peer, n'.peers.get? l = some peer → n.peers.get? l = some peer)
    (hlog : n.log ⊆ n'.log) (hon : ∀ l e, .on l e ∈ n'.log → .on l e ∈ n.log) : Spoken me n' :=
  ⟨fun l peer hl => (h.peers l peer (hpeers l peer hl)).mono hlog,
    fun l e hl => (h.said l e (hon l e hl)).mono hlog⟩

variable [DecidableEq Code]

theorem Sincere.handleInvite (h : Sincere me l log t) (src : NodeID) (response : Bytes) :
    Sincere me l log (t.handleInvite me env src response) := by
  unfold Turn.handleInvite
  split
  · exact h
  · dsimp only
    split_ifs
    · exact h
    · refine emit ?_ trivial
      exact write h rfl id rfl fun _ hc => hc
    · refine emit ?_ trivial
      split
      · exact write h rfl id rfl fun _ hc => hc
      · next code _ =>
        have hconsumed : Sincere me l log (t.emit (.consumed code env.clock)) := h.emit trivial
        exact write hconsumed rfl id rfl fun _ hc => hc

theorem Sincere.handle (h : Sincere me l log t) (hkem : KemCall kem env.kemPair env.kemEncapsulate)
    {packet : Packet K} (hmem : .on l (.received packet) ∈ log) :
    Sincere me l log (t.handle me env packet) := by
  obtain ⟨src, dst, body⟩ := packet
  cases body with
  | challenge challenge => exact h.handleChallenge hkem src ⟨src, dst, hmem⟩
  | invite response => exact h.handleInvite src response
  | inviteAck code => exact h.handleInviteAck hkem code
  | handshake hello => exact h.handleHandshake hkem src hello
  | handshakeAck answer => exact h.handleHandshakeAck src answer

theorem sincere_turn (h : Spoken me n) (hkem : KemCall kem env.kemPair env.kemEncapsulate)
    {peer : Peer Code} (hpeer : n.peers.get? l = some peer) (packet : Packet K) :
    Sincere me l (n.log ++ [.on l (.received packet)]) ((n.turn peer packet).handle me env packet) ∧
      n.log ++ [.on l (.received packet)] ⊆
        (n.settle l ((n.turn peer packet).handle me env packet)).log := by
  have hstart : Sincere me l (n.log ++ [.on l (.received packet)]) (n.turn peer packet) := by
    refine ⟨(h.peers l peer hpeer).mono (List.subset_append_left _ _), fun e he => ?_⟩
    obtain rfl := List.mem_singleton.mp he
    trivial
  have hturned : Turned me packet.body (n.turn peer packet) ((n.turn peer packet).handle me env packet) :=
    (handle_turned packet _).1
  obtain ⟨es, hes, -⟩ := hturned.out
  refine ⟨hstart.handle hkem (List.mem_append_right _ (List.mem_singleton_self _)), ?_⟩
  show n.log ++ [Entry.on l (.received packet)] ⊆ n.log ++ List.map (Entry.on l) _
  rw [hes]
  refine List.append_subset.mpr ⟨List.subset_append_left _ _, fun e he => ?_⟩
  obtain rfl := List.mem_singleton.mp he
  exact List.mem_append_right _ List.mem_cons_self

variable (me n) in
theorem log_subset (env : Env) (event : Event K Code) : n.log ⊆ (n.step me (env, event)).log := by
  unfold Node.step
  cases event with
  | greet serial challenge | packet serial packet =>
    dsimp only
    split
    · exact List.Subset.refl _
    · exact List.subset_append_left _ _
  | consoleAddRoot cert =>
    dsimp only
    split_ifs
    · exact List.Subset.refl _
    · exact List.Subset.refl _
  | generateCode code ttl | dial joinCode relayOnly relayed expectedId | accept relayed =>
    exact List.subset_append_left _ _
  | liveCodes | close serial | store op => exact List.Subset.refl _

/-- **What a node says on its links keeps following from its log.** -/
theorem Spoken.step (h : Spoken me n) (hkem : KemCall kem env.kemPair env.kemEncapsulate)
    {event : Event K Code}
    (hlen : ∀ serial challenge, event = .greet serial challenge → challenge.length = challengeLen) :
    Spoken me (n.step me (env, event)) := by
  cases event with
  | generateCode code ttl =>
    exact h.congr (fun _ _ hl => hl) (List.subset_append_left _ _)
      fun l e hmem => (List.mem_append.mp hmem).elim id fun hmem => by simp at hmem
  | liveCodes | store op => exact h.congr (fun _ _ hl => hl) (List.Subset.refl _) fun _ _ hl => hl
  | dial joinCode relayOnly relayed expectedId =>
    refine h.newPeer ⟨fun _ => ⟨joinCode, List.mem_append_right _ (List.mem_singleton_self _)⟩, ?_, ?_, ?_⟩
      trivial
    · exact fun hs => nomatch hs
    · exact fun _ hc => nomatch hc
    · exact fun _ hc => nomatch hc
  | accept relayed =>
    refine h.newPeer ⟨?_, ?_, ?_, ?_⟩ trivial
    · exact fun hs => nomatch hs
    · exact fun hs => nomatch hs
    · exact fun _ hc => nomatch hc
    · exact fun _ hc => nomatch hc
  | greet serial challenge =>
    unfold Node.step
    dsimp only
    split
    · exact h
    · next peer hpeer =>
      have hlen := hlen serial challenge rfl
      have hold : n.log ⊆ n.log ++ [.on serial (.sent ⟨me.id, broadcastId, .challenge challenge⟩)] :=
        List.subset_append_left _ _
      have hpeer' := (h.peers serial peer hpeer).mono hold
      refine h.settle (t := ⟨{ peer with pendingChallenge := some challenge }, n.invite, n.certs,
        [.sent ⟨me.id, broadcastId, .challenge challenge⟩]⟩) hold (List.Subset.refl _)
        ⟨hpeer'.client, hpeer'.invited, hpeer'.heard, fun c hc => ?_⟩ fun e he => ?_
      · cases hc
        exact ⟨List.mem_append_right _ (List.mem_singleton_self _), hlen⟩
      · exact .inr ⟨challenge, List.mem_singleton.mp he, hlen⟩
  | packet serial packet =>
    unfold Node.step
    dsimp only
    split
    · exact h
    · next peer hpeer =>
      obtain ⟨hsincere, hsub⟩ := sincere_turn h hkem hpeer packet
      exact h.settle (List.subset_append_left _ _) hsub hsincere.peer fun e he => .inl (hsincere.out e he)
  | close serial =>
    exact h.congr (fun l p hl => (Dict.get?_of_pop (show (n.peers.pop serial).get? l = some p from hl)).2)
      (List.Subset.refl _) fun _ _ hl => hl
  | consoleAddRoot cert =>
    unfold Node.step
    dsimp only
    split_ifs
    · exact h
    · exact h.congr (fun _ _ hl => hl) (List.Subset.refl _) fun _ _ hl => hl

theorem challenge_step (h : Spoken me n) (hkem : KemCall kem env.kemPair env.kemEncapsulate)
    {event : Event K Code} {challenge : Bytes}
    (hc : challenge ∈ (n.step me (env, event)).log.filterMap entryChallenge) :
    challenge ∈ n.log.filterMap entryChallenge ∨ ∃ serial, event = .greet serial challenge := by
  obtain ⟨entry, hmem, hentry⟩ := List.mem_filterMap.mp hc
  by_cases hold : entry ∈ n.log
  · exact .inl (List.mem_filterMap.mpr ⟨entry, hold, hentry⟩)
  right
  unfold Node.step at hmem
  cases event with
  | packet serial packet =>
    dsimp only at hmem
    split at hmem
    · exact absurd hmem hold
    · next peer hpeer =>
      obtain ⟨hsincere, -⟩ := sincere_turn h hkem hpeer packet
      obtain ⟨e, he, rfl⟩ := List.mem_map.mp ((List.mem_append.mp hmem).resolve_left hold)
      have hsaid := hsincere.out e he
      unfold entryChallenge at hentry
      split at hentry
      · next heq =>
        obtain ⟨-, rfl⟩ := Entry.on.inj heq
        exact hsaid.elim
      · cases hentry
  | greet serial challenge' =>
    dsimp only at hmem
    split at hmem
    · exact absurd hmem hold
    · have hmem := (List.mem_append.mp hmem).resolve_left hold
      rw [List.mem_singleton.mp hmem] at hentry
      exact ⟨serial, by rw [Option.some.inj hentry]⟩
  | generateCode code ttl | dial joinCode relayOnly relayed expectedId | accept relayed =>
    have hmem := (List.mem_append.mp hmem).resolve_left hold
    rw [List.mem_singleton.mp hmem] at hentry
    cases hentry
  | consoleAddRoot cert =>
    dsimp only at hmem
    split_ifs at hmem
    · exact absurd hmem hold
    · exact absurd hmem hold
  | liveCodes | close serial | store op => exact absurd hmem hold

end Node

/-! ### What marks a link -/

section Marking

variable {me : Local K Code} {env : Env} {t t' : Turn K Code}

/-- The link is authenticated as before, and keeps its session. -/
def Unmarked (peer peer' : Peer Code) : Prop :=
  peer'.authenticatedId = peer.authenticatedId ∧ peer'.session = peer.session

/-- A HANDSHAKE or a HANDSHAKE_ACK that passes its checks marks the link as the node whose key it presents;
there is a new session only where ML-KEM took its message. -/
inductive MarkedBy (me : Local K Code) (env : Env) (peer peer' : Peer Code) (nodeId : NodeID) :
    Body K → Prop
  | handshake (hello : Hello K) (challenge : Bytes) (hpending : peer.pendingChallenge = some challenge)
      (hid : K.fromPublicKey hello.dsaPub = nodeId) (hother : nodeId ≠ me.id)
      (hverify : K.verify (challenge ++ hello.kemPub ++ hello.dsaPub) hello.signature hello.dsaPub = true)
      (hsession : peer'.session = peer.session ∨ (env.kemEncapsulate hello.kemPub).isSome) :
      MarkedBy me env peer peer' nodeId (.handshake (some hello))
  | handshakeAck (answer : Answer K) (challenge : Bytes)
      (hheard : peer.receivedChallenge = some challenge) (hid : K.fromPublicKey answer.dsaPub = nodeId)
      (hverify : K.verify (challenge ++ answer.ciphertext ++ answer.dsaPub) answer.signature
        answer.dsaPub = true)
      (hsession : peer'.session = peer.session ∨
        ∃ secret shared, me.kemDecapsulate answer.ciphertext secret = some shared) :
      MarkedBy me env peer peer' nodeId (.handshakeAck (some answer))

theorem handleChallenge_unmarked (src : NodeID) (payload : Bytes) (t : Turn K Code) :
    Unmarked t.peer (t.handleChallenge me env src payload).peer := by
  unfold Turn.handleChallenge
  dsimp only
  split_ifs
  · exact ⟨rfl, rfl⟩
  · exact ⟨rfl, rfl⟩
  · exact ⟨rfl, rfl⟩
  · exact ⟨rfl, rfl⟩
  · exact ⟨rfl, rfl⟩
  · split
    · exact ⟨rfl, rfl⟩
    · exact ⟨rfl, rfl⟩

theorem handleInviteAck_unmarked (payload : Bytes) (t : Turn K Code) :
    Unmarked t.peer (t.handleInviteAck me env payload).peer := by
  unfold Turn.handleInviteAck
  split
  · exact ⟨rfl, rfl⟩
  · dsimp only
    split_ifs
    · exact ⟨rfl, rfl⟩
    · exact ⟨rfl, rfl⟩
    · exact ⟨rfl, rfl⟩

variable (me env) in
theorem finishAccept_session (claimedId : NodeID) (hello : Hello K) (challenge : Bytes)
    (issued : Option (Certificate K)) (t : Turn K Code) :
    (t.finishAccept me env claimedId hello challenge issued).peer.authenticatedId = some claimedId ∧
      ((t.finishAccept me env claimedId hello challenge issued).peer.session = t.peer.session ∨
        (env.kemEncapsulate hello.kemPub).isSome) := by
  unfold Turn.finishAccept
  dsimp only
  split
  · exact ⟨rfl, .inl rfl⟩
  · next hencapsulate => exact ⟨rfl, .inr (by rw [hencapsulate]; rfl)⟩

theorem handleHandshake_marks (src : NodeID) (payload : Option (Hello K)) (t : Turn K Code) :
    Unmarked t.peer (t.handleHandshake me env src payload).peer ∨ ∃ nodeId,
      (t.handleHandshake me env src payload).peer.authenticatedId = some nodeId ∧
        MarkedBy me env t.peer (t.handleHandshake me env src payload).peer nodeId (.handshake payload) := by
  unfold Turn.handleHandshake
  split
  · exact .inl ⟨rfl, rfl⟩
  split
  · exact .inl ⟨rfl, rfl⟩
  · exact .inl ⟨rfl, rfl⟩
  next challenge hello hpending =>
    dsimp only
    split_ifs with hid hself hhostile htries hsig
    · exact .inl ⟨rfl, rfl⟩
    · exact .inl ⟨rfl, rfl⟩
    · exact .inl ⟨rfl, rfl⟩
    · exact .inl ⟨rfl, rfl⟩
    · exact .inl ⟨rfl, rfl⟩
    split
    · exact .inl ⟨rfl, rfl⟩
    next chain _ =>
      have hmarked : ∀ {t' : Turn K Code} {issued : Option (Certificate K)},
          t'.peer.session = t.peer.session →
          ∃ nodeId, (t'.finishAccept me env (K.fromPublicKey hello.dsaPub) hello challenge
            issued).peer.authenticatedId = some nodeId ∧ MarkedBy me env t.peer
              (t'.finishAccept me env (K.fromPublicKey hello.dsaPub) hello challenge issued).peer nodeId
                (.handshake (some hello)) := by
        intro t' issued hsame
        obtain ⟨hauth, hsession⟩ := finishAccept_session me env
          (K.fromPublicKey hello.dsaPub) hello challenge issued t'
        exact ⟨_, hauth, .handshake hello challenge hpending rfl hself (by simpa using hsig)
          (hsame ▸ hsession)⟩
      unfold Turn.takeIn
      split
      · split
        · exact .inl ⟨rfl, rfl⟩
        · exact .inr (hmarked rfl)
      · split_ifs
        · exact .inl ⟨rfl, rfl⟩
        · exact .inl ⟨rfl, rfl⟩
        · exact .inr (hmarked rfl)

variable (me) in
theorem finishDial_session (serverId : NodeID) (answer : Answer K) (t : Turn K Code) :
    (t.finishDial me serverId answer).peer.authenticatedId = some serverId ∧
      ((t.finishDial me serverId answer).peer.session = t.peer.session ∨
        ∃ secret shared, me.kemDecapsulate answer.ciphertext secret = some shared) := by
  unfold Turn.finishDial
  dsimp only
  split
  · exact ⟨rfl, .inl rfl⟩
  · next shared hshared =>
    obtain ⟨secret, -, hopened⟩ := Option.bind_eq_some_iff.mp hshared
    exact ⟨rfl, .inr ⟨secret, shared, hopened⟩⟩

theorem trustLast_peer (chain : List (Certificate K)) (t : Turn K Code) :
    (t.trustLast chain).peer = t.peer := by
  unfold Turn.trustLast
  split
  · rfl
  · split_ifs
    · rfl
    · rfl

theorem handleHandshakeAck_marks (src : NodeID) (payload : Option (Answer K)) (t : Turn K Code) :
    Unmarked t.peer (t.handleHandshakeAck me env src payload).peer ∨ ∃ nodeId,
      (t.handleHandshakeAck me env src payload).peer.authenticatedId = some nodeId ∧
        MarkedBy me env t.peer (t.handleHandshakeAck me env src payload).peer nodeId
          (.handshakeAck payload) := by
  unfold Turn.handleHandshakeAck
  split
  · exact .inl ⟨rfl, rfl⟩
  split
  · exact .inl ⟨rfl, rfl⟩
  · exact .inl ⟨rfl, rfl⟩
  next challenge answer hheard =>
    dsimp only
    split_ifs with hsig hid
    · exact .inl ⟨rfl, rfl⟩
    · exact .inl ⟨rfl, rfl⟩
    · exact .inl ⟨rfl, rfl⟩
    · exact .inl ⟨rfl, rfl⟩
    have hmarked : ∀ {t' : Turn K Code}, t'.peer.session = t.peer.session →
        ∃ nodeId, (t'.finishDial me src answer).peer.authenticatedId = some nodeId ∧ MarkedBy me env t.peer
          (t'.finishDial me src answer).peer nodeId (.handshakeAck (some answer)) := by
      intro t' hsame
      obtain ⟨hauth, hsession⟩ := finishDial_session me src answer t'
      exact ⟨_, hauth, .handshakeAck answer challenge hheard (by simpa using hid) (by simpa using hsig)
        (hsame ▸ hsession)⟩
    unfold Turn.adopt
    split
    · split_ifs
      · exact .inl ⟨rfl, rfl⟩
      · exact .inl ⟨rfl, rfl⟩
      · refine .inr (hmarked ?_)
        show ((Turn.addChain env answer.chain _).trustLast answer.chain).peer.session = _
        rw [trustLast_peer]
        rfl
    · split_ifs
      · exact .inl ⟨rfl, rfl⟩
      · exact .inl ⟨rfl, rfl⟩
      · exact .inr (hmarked rfl)

variable [DecidableEq Code]

theorem handleInvite_unmarked (src : NodeID) (response : Bytes) (t : Turn K Code) :
    Unmarked t.peer (t.handleInvite me env src response).peer := by
  unfold Turn.handleInvite
  split
  · exact ⟨rfl, rfl⟩
  · dsimp only
    split_ifs
    · exact ⟨rfl, rfl⟩
    · exact ⟨rfl, rfl⟩
    · exact ⟨rfl, rfl⟩

variable (me env) in
/-- **A packet** leaves the link as it was authenticated, or it marks it. -/
theorem handle_marks (packet : Packet K) (t : Turn K Code) :
    Unmarked t.peer (t.handle me env packet).peer ∨ ∃ nodeId,
      (t.handle me env packet).peer.authenticatedId = some nodeId ∧
        MarkedBy me env t.peer (t.handle me env packet).peer nodeId packet.body := by
  obtain ⟨src, dst, body⟩ := packet
  cases body with
  | challenge challenge => exact .inl (handleChallenge_unmarked src challenge t)
  | invite response => exact .inl (handleInvite_unmarked src response t)
  | inviteAck code => exact .inl (handleInviteAck_unmarked code t)
  | handshake hello => exact handleHandshake_marks src hello t
  | handshakeAck answer => exact handleHandshakeAck_marks src answer t

end Marking

end NMesh.Auth.Links
