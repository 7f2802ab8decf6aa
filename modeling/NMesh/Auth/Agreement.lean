import NMesh.Auth.Links
import NMesh.Auth.Mail

/-! # What an authenticated node has agreed to

A signature names its signer, a nonce and an ML-KEM message, and nobody else: it proves that the node signed that
nonce with that message, on a link or end to end, for someone (`ways_of_signed`). `link_agrees` says so, over
every run, of the node that a link is marked as. -/

namespace NMesh.Auth.Agreement

open Base.Runs Base.BigEndian Base.Ordered NMesh.Cert.Identity
open NMesh.Cert.Store NMesh.Link NMesh.Link.Handshake NMesh.Link.Admission NMesh.Link.Roots NMesh.E2e
open NMesh.E2e.Outcome NMesh.E2e.Pair NMesh.Auth.World NMesh.Auth.Links NMesh.Auth.Mail

variable {K : Crypto} {Code : Type}

/-! ### What a signature proves of its signer -/

section Host

variable {me : Local K Code} {kem : Kem} {h : Host K Code}

theorem mem_challenges {l : ℕ} {c : Bytes}
    (hasked : Asked me l h.link.log c) : c ∈ h.challenges :=
  List.mem_filterMap.mpr ⟨_, hasked, rfl⟩

theorem Replied.challenged {c ciphertext : Bytes}
    (hr : Replied me h c ciphertext) : c ∈ h.challenges := by
  obtain ⟨l, -, -, hasked, -⟩ := hr
  exact mem_challenges hasked

theorem E2eGreeted.drawn {n kemPub : Bytes}
    (hg : E2eGreeted me h n kemPub) : n ∈ h.nonces := by
  obtain ⟨dst, hello, hsent, rfl, -⟩ := hg
  exact List.mem_filterMap.mpr ⟨_, hsent, rfl⟩

theorem not_suffix_body (hapart : ∀ times : Bytes, times.length = 16 →
      ¬ me.dsaPublicKey <:+ me.dsaPublicKey ++ times) {cert : Certificate K}
    (hpub : cert.issuerPub = me.dsaPublicKey) : ¬ me.dsaPublicKey <:+ cert.body := by
  intro hsuffix
  refine hapart (toBE 8 cert.issuedAt ++ toBE 8 cert.expiresAt) (by simp [length_toBE]) ?_
  refine List.suffix_of_suffix_length_le hsuffix ?_ (by simp)
  unfold Certificate.body signedBody
  rw [hpub]
  refine ⟨cert.subjectId.raw ++ (toBE 2 cert.subjectPub.length ++ (cert.subjectPub ++
    (cert.issuerId.raw ++ toBE 2 me.dsaPublicKey.length))), ?_⟩
  simp only [List.append_assoc]

theorem parts_eq (hbinds : Function.Injective me.sign) {c c' y y' : Bytes} (hlen : c.length = c'.length)
    (h : me.sign (c ++ y ++ me.dsaPublicKey) = me.sign (c' ++ y' ++ me.dsaPublicKey)) :
    c = c' ∧ y = y' := List.append_inj (List.append_cancel_right (hbinds h)) hlen

/-- What a node says follows from what has happened to it. -/
structure Truthful (me : Local K Code) (kem : Kem) (h : Host K Code) : Prop where
  link : Spoken me h.link
  mail : Posted me kem h
  signed : ∀ m ∈ h.signed, ¬ me.dsaPublicKey <:+ m

/-- **What a signature proves**: its signer has signed the nonce in one of four ways. -/
theorem ways_of_signed (hbinds : Function.Injective me.sign) (hapart : ∀ times : Bytes,
      times.length = 16 → ¬ me.dsaPublicKey <:+ me.dsaPublicKey ++ times)
    (htruth : Truthful me kem h) {c y : Bytes} (hc : c.length = 32)
    (hs : me.sign (c ++ y ++ me.dsaPublicKey) ∈ h.signatures me) :
    y.length = kemPublicLen ∧ (Greeted me h c y ∨ E2eGreeted me h c y) ∨
      y.length = kemCiphertextLen ∧ (Replied me h c y ∨ E2eAnswered me kem h c y) := by
  rcases List.mem_append.mp hs with hs | hs
  · obtain ⟨entry, hmem, hentry⟩ := List.mem_filterMap.mp hs
    unfold entrySignature at hentry
    split at hentry
    · next l src dst hello =>
      rcases htruth.link.said _ _ hmem with ⟨rfl, ⟨code, hdialled⟩, c', hheard, hlen, hylen, hsig⟩ | ⟨_, he, -⟩
      · have hsame := hsig.symm.trans (Option.some.inj hentry)
        obtain ⟨rfl, rfl⟩ := parts_eq hbinds (hlen.trans hc.symm) hsame
        exact .inl ⟨hylen, .inl ⟨l, code, dst, hello, hdialled, hheard, hmem, rfl, hsig⟩⟩
      · cases he
    · next l src dst answer =>
      rcases htruth.link.said _ _ hmem with ⟨rfl, c', hasked, hlen, hylen, hsig⟩ | ⟨_, he, -⟩
      · have hsame := hsig.symm.trans (Option.some.inj hentry)
        obtain ⟨rfl, rfl⟩ := parts_eq hbinds (hlen.trans hc.symm) hsame
        exact .inr ⟨hylen, .inl ⟨l, dst, answer, hasked, hmem, rfl, hsig⟩⟩
      · cases he
    · next l cert =>
      rcases htruth.link.said _ _ hmem with ⟨hsig, hpub⟩ | ⟨_, he, -⟩
      · refine absurd ⟨c ++ y, ?_⟩ (not_suffix_body hapart hpub)
        exact hbinds ((Option.some.inj hentry).symm.trans hsig)
      · cases he
    · cases hentry
  rcases List.mem_append.mp hs with hs | hs
  · obtain ⟨mail, hmem, hsig⟩ := List.mem_filterMap.mp hs
    unfold ofSent at hsig
    split at hsig
    · next packet =>
      obtain ⟨src, dst, body⟩ := packet
      unfold packetSignature at hsig
      dsimp only at hsig
      split at hsig
      · next hello =>
        obtain ⟨rfl, hlen, hylen, hsig'⟩ := htruth.mail.hello _ _ _ hmem
        have hsame := hsig'.symm.trans (Option.some.inj hsig)
        obtain ⟨rfl, rfl⟩ := parts_eq hbinds (hlen.trans hc.symm) hsame
        exact .inl ⟨hylen, .inr ⟨dst, hello, hmem, rfl, rfl⟩⟩
      · next answer =>
        obtain ⟨hlen, hylen, hsig', ha⟩ := htruth.mail.answer _ _ _ hmem
        have hsame := hsig'.symm.trans (Option.some.inj hsig)
        obtain ⟨rfl, rfl⟩ := parts_eq hbinds (hlen.trans hc.symm) hsame
        exact .inr ⟨hylen, .inr ha⟩
      · cases hsig
    · cases hsig
  · obtain ⟨m, hmem, hm⟩ := List.mem_map.mp hs
    exact absurd ⟨c ++ y, (hbinds hm).symm⟩ (htruth.signed m hmem)

end Host

/-! ### What every run keeps -/

section World

variable [DecidableEq Code] {ι : Type} [DecidableEq ι] (me : ι → Local K Code) (kem : Kem)

/-- The honest nodes are truthful, and what is random is new. -/
structure Sound (w : ι → Host K Code) : Prop where
  hosts : ∀ i, Truthful (me i) kem (w i)
  own : ∀ i j, ∀ c ∈ (w i).challenges, c ∈ (w j).challenges → i = j
  apart : ∀ i j, ∀ c ∈ (w i).challenges, c ∉ (w j).nonces

def Honest (w : ι → Host K Code) (a : ι × Deed K Code) : Prop := KemIdeal kem a.2 ∧ Allowed me w a

variable {me} {kem} {w : ι → Host K Code}

variable (me) in
theorem step_self (w : ι → Host K Code) (i : ι) (deed : Deed K Code) :
    step me w (i, deed) i = (w i).step (me i) deed := Function.update_self _ _ _

theorem step_other (w : ι → Host K Code) {i j : ι} (h : j ≠ i) (deed : Deed K Code) :
    step me w (i, deed) j = w j := Function.update_of_ne h _ _

theorem step_forall {P : ι → Host K Code → Prop} {i : ι} {deed : Deed K Code}
    (hold : ∀ j, P j (w j)) (hnew : P i ((w i).step (me i) deed)) (j : ι) :
    P j (step me w (i, deed) j) := by
  by_cases hj : j = i
  · subst hj
    rw [step_self]
    exact hnew
  · rw [step_other w hj]
    exact hold j

theorem Sound.hosts_step (h : Sound me kem w) {i : ι} {deed : Deed K Code}
    (hnew : Truthful (me i) kem ((w i).step (me i) deed)) (j : ι) :
    Truthful (me j) kem (step me w (i, deed) j) :=
  step_forall (P := fun j h' => Truthful (me j) kem h') h.hosts hnew j

theorem Sound.link (h : Sound me kem w) {i : ι} {env : Handshake.Env} {event : Handshake.Event K Code}
    (ha : Honest me kem w (i, .link env event)) : Sound me kem (step me w (i, .link env event)) := by
  obtain ⟨hkem, hallowed⟩ := ha
  have hgreet : ∀ serial c, event = .greet serial c → c.length = challengeLen ∧
      ∀ j, c ∉ (w j).challenges ∧ c ∉ (w j).nonces := by
    rintro serial c rfl
    exact hallowed
  have hnew : ∀ j, ∀ c ∈ (step me w (i, .link env event) j).challenges,
      c ∈ (w j).challenges ∨ j = i ∧ ∀ k, c ∉ (w k).challenges ∧ c ∉ (w k).nonces := by
    intro j c hc
    by_cases hj : j = i
    · subst hj
      rw [step_self] at hc
      refine (challenge_step (h.hosts j).link hkem hc).imp_right ?_
      rintro ⟨serial, hevent⟩
      exact ⟨rfl, (hgreet serial c hevent).2⟩
    · rw [step_other w hj] at hc
      exact .inl hc
  have hnonces : ∀ j, (step me w (i, .link env event) j).nonces = (w j).nonces := by
    refine step_forall (P := fun j h' => h'.nonces = (w j).nonces) (fun _ => rfl) rfl
  have hhost := h.hosts i
  have hlink := hhost.link.step hkem fun serial c hevent => (hgreet serial c hevent).1
  refine ⟨h.hosts_step ⟨hlink, hhost.mail.congr rfl rfl, hhost.signed⟩, fun j k c hj hk => ?_,
    fun j k c hj => ?_⟩
  · rcases hnew j c hj with hj' | ⟨hji, hfresh⟩ <;> rcases hnew k c hk with hk' | ⟨hki, hfresh'⟩
    · exact h.own j k c hj' hk'
    · exact absurd hj' (hfresh' j).1
    · exact absurd hk' (hfresh k).1
    · exact hji.trans hki.symm
  · rw [hnonces]
    rcases hnew j c hj with hj | ⟨-, hfresh⟩
    · exact h.apart j k c hj
    · exact (hfresh k).2

theorem Sound.e2e (h : Sound me kem w) {i : ι} {env : Session.Env K} {event : Session.Event K}
    (ha : Honest me kem w (i, .e2e env event)) : Sound me kem (step me w (i, .e2e env event)) := by
  obtain ⟨hkem, hlen, hfresh, hpacket⟩ := ha
  have hchallenges : ∀ j, (step me w (i, .e2e env event) j).challenges = (w j).challenges :=
    step_forall (P := fun j h' => h'.challenges = (w j).challenges) (fun _ => rfl) rfl
  have hhost := h.hosts i
  have hmail := hhost.mail.step hkem hlen fun packet hevent => (hpacket packet hevent).1
  refine ⟨h.hosts_step ⟨hhost.link, hmail, hhost.signed⟩, fun j k c => ?_, fun j k c => ?_⟩
  · rw [hchallenges, hchallenges]
    exact h.own j k c
  · rw [hchallenges]
    intro hj hk
    by_cases hki : k = i
    · subst hki
      rw [step_self] at hk
      rcases nonce_step hk with hk | rfl
      · exact h.apart j k c hj hk
      · exact hfresh j hj
    · rw [step_other w hki] at hk
      exact h.apart j k c hj hk

theorem Sound.step (h : Sound me kem w) {a : ι × Deed K Code} (ha : Honest me kem w a) :
    Sound me kem (step me w a) := by
  obtain ⟨i, deed⟩ := a
  cases deed with
  | link env event => exact h.link ha
  | e2e env event => exact h.e2e ha
  | sign message =>
    have hsame : ∀ j, (World.step me w (i, .sign message) j).challenges = (w j).challenges ∧
        (World.step me w (i, .sign message) j).nonces = (w j).nonces :=
      step_forall (P := fun j h' => h'.challenges = (w j).challenges ∧ h'.nonces = (w j).nonces)
        (fun _ => ⟨rfl, rfl⟩) ⟨rfl, rfl⟩
    have hhost := h.hosts i
    refine ⟨h.hosts_step ⟨hhost.link, hhost.mail.congr rfl rfl, fun m hm => ?_⟩, fun j k c => ?_,
      fun j k c => ?_⟩
    · rcases List.mem_append.mp hm with hm | hm
      · exact hhost.signed m hm
      · obtain rfl := List.mem_singleton.mp hm
        exact ha.2
    · rw [(hsame j).1, (hsame k).1]
      exact h.own j k c
    · rw [(hsame j).1, (hsame k).2]
      exact h.apart j k c

omit [DecidableEq Code] [DecidableEq ι] in
theorem sound_start (certs : ι → CertStore K) : Sound me kem fun i => newHost (certs i) where
  hosts i := by
    refine ⟨⟨(fun _ _ h => nomatch h), (fun _ _ h => nomatch h)⟩, ⟨?_, (fun _ _ _ h => nomatch h),
      (fun _ _ _ h => nomatch h), (fun _ _ _ h => nomatch h)⟩, (fun _ h => nomatch h)⟩
    rintro q n secret (⟨hn, -⟩ | ⟨exp, hr⟩)
    · cases hn
    · cases hr
  own i j _ h := nomatch h
  apart i j _ h := nomatch h

omit [DecidableEq Code] [DecidableEq ι] in
theorem Sound.ways (h : Sound me kem w) (hlaw : Lawful me kem) {j : ι} {c y pub signature : Bytes}
    (hc : c.length = 32) (hunforged : Unforged me w signature)
    (hid : K.fromPublicKey pub = (me j).id) (hverify : K.verify (c ++ y ++ pub) signature pub = true) :
    y.length = kemPublicLen ∧ (Greeted (me j) (w j) c y ∨ E2eGreeted (me j) (w j) c y) ∨
      y.length = kemCiphertextLen ∧ (Replied (me j) (w j) c y ∨ E2eAnswered (me j) kem (w j) c y) := by
  obtain rfl := hlaw.names j pub hid
  exact ways_of_signed (hlaw.binds j) (hlaw.apart j) (h.hosts j) hc
    (hunforged j _ hverify)

/-! ### Links -/

/-- The link comes to be authenticated as the node, or gets another session under it. -/
def Marks (peer peer' : Peer Code) (nodeId : NodeID) : Prop :=
  peer'.authenticatedId = some nodeId ∧
    (peer.authenticatedId ≠ some nodeId ∨ peer'.session ≠ peer.session)

/-- What the node that a link was marked as has done. A HANDSHAKE was made by it, on a link that it had dialled,
in answer to this end's challenge. A HANDSHAKE_ACK was made by it of the challenge taken here for the far end's:
on a link that it had sent that challenge on, or end to end. A marked link without a session may rest on another
signature over the challenge. -/
inductive Vouched (me : Local K Code) (kem : Kem) (h : Host K Code) (peer peer' : Peer Code) : Body K → Prop
  | handshake (hello : Hello K) (challenge : Bytes) (hpending : peer.pendingChallenge = some challenge)
      (hways : Greeted me h challenge hello.kemPub ∨
        peer'.session = peer.session ∧ E2eAnswered me kem h challenge hello.kemPub) :
      Vouched me kem h peer peer' (.handshake (some hello))
  | handshakeAck (answer : Answer K) (challenge : Bytes)
      (hheard : peer.receivedChallenge = some challenge)
      (hways : Replied me h challenge answer.ciphertext ∨
        E2eAnswered me kem h challenge answer.ciphertext ∨ peer'.session = peer.session ∧
          (Greeted me h challenge answer.ciphertext ∨ E2eGreeted me h challenge answer.ciphertext)) :
      Vouched me kem h peer peer' (.handshakeAck (some answer))

section Links

variable {peer peer' : Peer Code}

omit [DecidableEq Code] in
theorem Marks.ne {nodeId : NodeID} (h : Marks peer peer' nodeId) :
    peer ≠ peer' := by
  rintro rfl
  rcases h.2 with hne | hne
  · exact hne h.1
  · exact hne rfl

omit [DecidableEq Code] [DecidableEq ι] in
theorem Sound.vouched (h : Sound me kem w) (hlaw : Lawful me kem) {i c : ι} {l : ℕ} {env : Handshake.Env}
    {packet : Packet K} (hpeer : (w i).link.peers.get? l = some peer)
    (ha : Honest me kem w (i, .link env (.packet l packet)))
    (hmarked : MarkedBy (me i) env peer peer' (me c).id packet.body) :
    Vouched (me c) kem (w c) peer peer' packet.body := by
  obtain ⟨hkem, hunforged⟩ := ha
  have hholds := (h.hosts i).link.peers l peer hpeer
  have hsizes : kemPublicLen ≠ kemCiphertextLen := by decide
  obtain ⟨src, dst, body⟩ := packet
  cases hmarked with
  | handshake hello challenge hpending hid hother hverify hsession =>
    obtain ⟨hasked, hlen⟩ := hholds.asked challenge hpending
    have hasked := mem_challenges hasked
    refine .handshake hello challenge hpending ?_
    rcases h.ways hlaw hlen (hunforged _ rfl) hid hverify with ⟨-, hg | hg⟩ | ⟨hylen, hr | ha⟩
    · exact .inl hg
    · exact absurd (E2eGreeted.drawn hg) (h.apart i c challenge hasked)
    · have hsame := h.own i c challenge hasked (Replied.challenged hr)
      exact absurd (by rw [hsame]) hother
    · refine .inr ⟨hsession.resolve_right fun hsome => ?_, ha⟩
      obtain ⟨⟨ciphertext, shared⟩, hencapsulate⟩ := Option.isSome_iff_exists.mp hsome
      exact hsizes ((hkem.encapsulates _ _ _ hencapsulate).1.symm.trans hylen)
  | handshakeAck answer challenge hheard hid hverify hsession =>
    have hlen := (hholds.heard challenge hheard).2
    refine .handshakeAck answer challenge hheard ?_
    rcases h.ways hlaw hlen (hunforged _ rfl) hid hverify with ⟨hylen, hg⟩ | ⟨-, hr | ha⟩
    · refine .inr (.inr ⟨hsession.resolve_right ?_, hg⟩)
      rintro ⟨secret, shared, hopened⟩
      exact hsizes (hylen.symm.trans (hlaw.sized i _ _ _ hopened))
    · exact .inl hr
    · exact .inr (.inl ha)

theorem marked_of_step {me : Local K Code} {n : Node K Code} {env : Handshake.Env}
    {event : Handshake.Event K Code} {l : ℕ} {nodeId : NodeID}
    (hpeer : n.peers.get? l = some peer) (hpeer' : (n.step me (env, event)).peers.get? l = some peer')
    (hmarks : Marks peer peer' nodeId) :
    ∃ packet, event = .packet l packet ∧ MarkedBy me env peer peer' nodeId packet.body := by
  have hkept : n.peers.get? l = some peer' → False := fun hsame =>
    hmarks.ne (Option.mem_unique hpeer hsame)
  have hset : ∀ {l' : ℕ} {fresh : Peer Code}, (n.peers.set l' fresh).get? l = some peer' →
      l' = l ∧ fresh = peer' := by
    intro l' fresh hget
    rcases Dict.get?_of_set hget with ⟨hl, hpeer⟩ | ⟨-, hget⟩
    · exact ⟨hl.symm, hpeer.symm⟩
    · exact (hkept hget).elim
  unfold Node.step at hpeer'
  cases event with
  | packet serial packet =>
    dsimp only at hpeer'
    split at hpeer'
    · exact (hkept hpeer').elim
    · next peer₀ hpeer₀ =>
      obtain ⟨rfl, rfl⟩ := hset hpeer'
      obtain rfl := Option.mem_unique hpeer hpeer₀
      refine ⟨packet, rfl, ?_⟩
      rcases handle_marks me env packet (n.turn peer packet) with
        ⟨hauth, hsession⟩ | ⟨nodeId', hauth, hmarked⟩
      · rcases hmarks.2 with hne | hne
        · exact absurd (hauth.symm.trans hmarks.1) hne
        · exact absurd hsession hne
      · obtain rfl := Option.mem_unique hauth hmarks.1
        exact hmarked
  | greet serial challenge =>
    dsimp only at hpeer'
    split at hpeer'
    · exact (hkept hpeer').elim
    · next peer₀ hpeer₀ =>
      obtain ⟨rfl, rfl⟩ := hset hpeer'
      obtain rfl := Option.mem_unique hpeer hpeer₀
      exact (hmarks.2.elim (fun hne => hne hmarks.1) fun hne => hne rfl).elim
  | dial joinCode relayOnly relayed expectedId | accept relayed =>
    obtain ⟨-, rfl⟩ := hset hpeer'
    exact nomatch hmarks.1
  | close serial =>
    exact (hkept (Dict.get?_of_pop hpeer').2).elim
  | consoleAddRoot cert =>
    dsimp only at hpeer'
    split_ifs at hpeer'
    · exact (hkept hpeer').elim
    · exact (hkept hpeer').elim
  | generateCode code ttl | liveCodes | store op => exact (hkept hpeer').elim

end Links

end World

/-! ### Two honest nodes and a third -/

/-- A byte before `n` zeros. -/
def padded (n : ℕ) (x : UInt8) : Bytes := x :: List.replicate n 0

theorem length_padded (n : ℕ) (x : UInt8) : (padded n x).length = n + 1 := by
  unfold padded
  rw [List.length_cons, List.length_replicate]

def taggedPub : UInt8 → Bytes := padded 16

/-- A node id is the first byte of a key. A signature is the key, then the message. -/
def tagged : Crypto where
  verify message signature pub := decide (signature = pub ++ message)
  fromPublicKey pub :=
    if pub = taggedPub (pub.headD 0) then ⟨padded 19 (pub.headD 0), length_padded _ _⟩
    else ⟨List.replicate 20 0xFF, broadcastId.len⟩

def taggedId (x : UInt8) : NodeID := tagged.fromPublicKey (taggedPub x)

def taggedCert (x : UInt8) : Certificate tagged where
  subjectId := taggedId x
  subjectPub := taggedPub x
  issuerId := taggedId x
  issuerPub := taggedPub x
  issuedAt := 0
  expiresAt := 0
  signature := taggedPub x ++ signedBody (taggedId x) (taggedPub x) (taggedId x) (taggedPub x) 0 0
  subject_ok := rfl
  issuer_ok := rfl
  packs := by unfold Packs taggedPub; simp [length_padded]
  verified := decide_eq_true rfl

def taggedCerts : CertStore tagged :=
  [.add (taggedCert 1), .add (taggedCert 2), .add (taggedCert 3), .addRoot (taggedId 1),
    .addRoot (taggedId 2), .addRoot (taggedId 3)].foldl (fun s op => s.step (0, op))
      (.new tagged (taggedId 1) 9 9 9)

/-- The public key of a secret is its first byte, padded. A ciphertext is the shared secret, one byte, and
the first byte of the key that it is for. -/
def taggedKem : Kem where
  publicOf secret := padded 1183 (secret.headD 0)
  target ciphertext :=
    if ciphertext.length = kemCiphertextLen then padded 1183 (ciphertext.tail.headD 0) else []
  shared ciphertext := ciphertext.take 1

def taggedEncapsulate (n : UInt8) (pub : Bytes) : Option (Bytes × Bytes) :=
  if pub = padded 1183 (pub.headD 0) then some (n :: padded 1086 (pub.headD 0), [n]) else none

def number : End → UInt8
  | .a => 1
  | .b => 2

def taggedMe (e : End) : Local tagged UInt8 where
  dsaPublicKey := taggedPub (number e)
  sign message := taggedPub (number e) ++ message
  computeResponse code challenge := code :: challenge
  kemDecapsulate ciphertext _ :=
    if ciphertext.length = kemCiphertextLen then some (ciphertext.take 1) else none

theorem lawful_tagged : Lawful taggedMe taggedKem where
  names e pub h := by
    have hid : (taggedMe e).id = ⟨padded 19 (number e), length_padded _ _⟩ := by cases e <;> rfl
    rw [hid] at h
    unfold tagged at h
    dsimp only at h
    split_ifs at h with hpub
    · rw [hpub, (List.cons.inj (congrArg NodeID.raw h)).1]
      rfl
    · have hraw : List.replicate 19 (255 : UInt8) = List.replicate 19 0 :=
        (List.cons.inj (congrArg NodeID.raw h)).2
      exact absurd hraw (by decide)
  binds e := List.append_right_injective _
  apart e times hlen h := by
    rw [List.suffix_iff_eq_drop] at h
    have hlen' : ((taggedMe e).dsaPublicKey ++ times).length - (taggedMe e).dsaPublicKey.length = 16 := by
      rw [List.length_append, hlen, Nat.add_sub_cancel_left]
    rw [hlen'] at h
    have hhead : number e = 0 := (List.cons.inj h).1
    revert hhead
    cases e <;> decide
  opens e ciphertext secret h := by
    show (if ciphertext.length = kemCiphertextLen then some (ciphertext.take 1) else none) = _
    unfold taggedKem at h
    dsimp only at h
    split_ifs at h with hlen
    · rw [if_pos hlen]
      rfl
    · exact absurd h.symm (List.cons_ne_nil _ _)
  sized e ciphertext secret shared h := by
    unfold taggedMe at h
    dsimp only at h
    split_ifs at h with hlen
    exact hlen

theorem kemCall_tagged (n : UInt8) :
    KemCall taggedKem (taggedKem.publicOf [n], [n]) (taggedEncapsulate n) where
  pair := rfl
  publicLen := length_padded _ _
  encapsulates kemPub ciphertext shared h := by
    unfold taggedEncapsulate at h
    split_ifs at h with hpub
    cases h
    have hlen : (n :: padded 1086 (kemPub.headD 0)).length = kemCiphertextLen := by
      rw [List.length_cons, length_padded]
      rfl
    refine ⟨?_, hlen, ?_, rfl⟩
    · rw [hpub]
      exact length_padded _ _
    · unfold taggedKem
      dsimp only
      rw [if_pos hlen]
      exact hpub.symm

instance (w : End → Host tagged UInt8) (signature : Bytes) : Decidable (Unforged taggedMe w signature) :=
  decidable_of_iff
    (∀ j : End, (taggedMe j).dsaPublicKey <+: signature → signature ∈ (w j).signatures (taggedMe j))
    ⟨fun h j message hv => by
      obtain rfl := of_decide_eq_true hv
      exact h j (List.prefix_append _ _),
    fun h j hp => by
      obtain ⟨message, rfl⟩ := hp
      exact h j message (decide_eq_true rfl)⟩

/-- An event at a node, and the number that everything random in it is. -/
structure Move where
  who : End
  number : UInt8
  event : Handshake.Event tagged UInt8 ⊕ Session.Event tagged

def Move.deed (m : Move) : End × Deed tagged UInt8 :=
  let pair := (taggedKem.publicOf [m.number], [m.number])
  match m.event with
  | .inl event => (m.who, .link
      { clock := 0, monotonic := 0, kemPair := pair, kemEncapsulate := taggedEncapsulate m.number,
        urandom := [], isHostile := fun _ => false } event)
  | .inr event => (m.who, .e2e
      { monotonic := 0, urandom := List.replicate 32 m.number, kemPair := pair,
        kemEncapsulate := taggedEncapsulate m.number, certs := taggedCerts, stamp := 0 } event)

def taggedStart (_ : End) : Host tagged UInt8 := newHost taggedCerts

instance (w : End → Host tagged UInt8) : ∀ a : End × Deed tagged UInt8, Decidable (Allowed taggedMe w a)
  | (_, .link _ (.greet _ _)) => inferInstanceAs (Decidable (_ ∧ _))
  | (_, .link _ (.packet _ _)) => inferInstanceAs (Decidable (∀ _ ∈ _, _))
  | (_, .link _ (.generateCode _ _)) => .isTrue trivial
  | (_, .link _ .liveCodes) => .isTrue trivial
  | (_, .link _ (.dial _ _ _ _)) => .isTrue trivial
  | (_, .link _ (.accept _)) => .isTrue trivial
  | (_, .link _ (.close _)) => .isTrue trivial
  | (_, .link _ (.consoleAddRoot _)) => .isTrue trivial
  | (_, .link _ (.store _)) => .isTrue trivial
  | (_, .e2e _ _) => inferInstanceAs (Decidable (_ ∧ _ ∧ _))
  | (_, .sign _) => inferInstanceAs (Decidable (¬ _))

theorem guarded_tagged : ∀ {ms : List Move} {w : End → Host tagged UInt8},
    Guarded (fun w m => step taggedMe w m.deed) (fun w m => Allowed taggedMe w m.deed) w ms →
      Guarded (step taggedMe) (Honest taggedMe taggedKem) w (ms.map Move.deed)
  | [], _, _ => trivial
  | m :: _, _, ⟨h, hrest⟩ => by
    refine ⟨⟨?_, h⟩, guarded_tagged hrest⟩
    obtain ⟨who, n, event⟩ := m
    cases event with
    | inl event | inr event => exact kemCall_tagged n

def runMoves (ms : List Move) : End → Host tagged UInt8 := run (step taggedMe) taggedStart (ms.map Move.deed)

/-- What the node `x` makes of a challenge and an ML-KEM message. -/
def taggedSign (x : UInt8) (challenge message : Bytes) : Bytes :=
  taggedPub x ++ (challenge ++ message ++ taggedPub x)

def taggedHello (x : UInt8) (challenge kemPub : Bytes) : Packet tagged :=
  ⟨taggedId x, broadcastId, .handshake (some
    ⟨kemPub, taggedPub x, some [taggedCert x], taggedSign x challenge kemPub⟩)⟩

/-- `a` challenges a link that it has accepted. `b` dials the third node, which shows it this challenge. -/
def relayed : List Move :=
  [⟨.a, 4, .inl (.accept false)⟩, ⟨.a, 4, .inl (.greet 1 (List.replicate 32 9))⟩,
    ⟨.b, 4, .inl (.dial none false false (some (taggedId 3)))⟩,
    ⟨.b, 5, .inl (.packet 1 ⟨taggedId 3, broadcastId, .challenge (List.replicate 32 9)⟩)⟩]

/-- The third node passes on what `b` has answered. -/
def passedOn : Move :=
  ⟨.a, 6, .inl (.packet 1 (taggedHello 2 (List.replicate 32 9) (taggedKem.publicOf [5])))⟩

/-- `b` dials `a` where the third node answers, with a nonce of its own for a challenge, and has `a` sign
that nonce end to end, for the ML-KEM key of `b`. -/
def crossed : List Move :=
  let nonce := List.replicate 32 9
  let ciphertext := 6 :: padded 1086 5
  [⟨.b, 4, .inl (.dial none false false (some (taggedId 1)))⟩,
    ⟨.b, 5, .inl (.packet 1 ⟨taggedId 1, broadcastId, .challenge nonce⟩)⟩,
    ⟨.a, 6, .inr (.packet ⟨taggedId 3, taggedId 1, .handshake (some ⟨nonce, taggedKem.publicOf [5],
      taggedPub 3, [taggedCert 3], taggedSign 3 nonce (taggedKem.publicOf [5])⟩)⟩)⟩,
    ⟨.b, 7, .inl (.packet 1 ⟨taggedId 1, taggedId 2, .handshakeAck (some ⟨ciphertext, taggedPub 1,
      [taggedCert 1], none, taggedSign 1 nonce ciphertext⟩)⟩)⟩]

end NMesh.Auth.Agreement
