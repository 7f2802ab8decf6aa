import NMesh.Auth.Agreement

/-! # Whose session it is

A key that a node files or parks under an honest node comes of that node's own words (`Exchanged`): it has
signed the nonce and the ML-KEM key that the session was answered on, or it has answered a handshake of the
nonce that was drawn here. Neither signature says for whom. -/

namespace NMesh.Auth.Sessions

open Base.Runs Base.BigEndian NMesh.Cert.Identity
open NMesh.Cert.Store NMesh.Link.Handshake NMesh.E2e NMesh.E2e.Outcome NMesh.E2e.Origin
open NMesh.E2e.Pair NMesh.Auth.World NMesh.Auth.Links NMesh.Auth.Mail NMesh.Auth.Agreement

variable {K : Crypto} {Code : Type} [DecidableEq Code] {ι : Type} [DecidableEq ι]

def Kept (h : Host K Code) (nodeId : NodeID) (key : Bytes) : Prop :=
  .did (.filed nodeId key) ∈ h.mail ∨ .did (.parked nodeId key) ∈ h.mail

/-- Where the key comes from that the node `a` keeps for the node `b`: `a` has answered a handshake of a nonce and
an ML-KEM key that `b` had signed, end to end or on a link it had dialled; or `b` has answered a handshake of a
nonce that `a` had sent it, and the keys are equal if what `b` answered carried the ML-KEM key of `a`. -/
inductive Exchanged (me : ι → Local K Code) (kem : Kem) (w : ι → Host K Code) (a b : ι) (key : Bytes) :
    Prop
  | responded (dst : NodeID) (hello : Session.Hello K) (ciphertext : Bytes)
      (hreceived : .received ⟨(me b).id, dst, .handshake (some hello)⟩ ∈ (w a).mail)
      (hsigned : E2eGreeted (me b) (w b) hello.nonce hello.kemPub ∨
        Greeted (me b) (w b) hello.nonce hello.kemPub)
      (htarget : kem.target ciphertext = hello.kemPub) (hkey : key = kem.shared ciphertext) :
      Exchanged me kem w a b key
  | initiated (hello : Session.Hello K) (ciphertext : Bytes)
      (hsent : .did (.sent ⟨(me a).id, (me b).id, .handshake (some hello)⟩) ∈ (w a).mail)
      (hanswered : E2eAnswered (me b) kem (w b) hello.nonce ciphertext)
      (hkey : kem.target ciphertext = hello.kemPub → key = kem.shared ciphertext) :
      Exchanged me kem w a b key

section Step

variable {me : ι → Local K Code} {kem : Kem} {w : ι → Host K Code}

variable (me) in
theorem grows (w : ι → Host K Code) (a : ι × Deed K Code) (j : ι) :
    (w j).link.log ⊆ (step me w a j).link.log ∧ (w j).mail ⊆ (step me w a j).mail := by
  obtain ⟨i, deed⟩ := a
  have hsame : ∀ l : List (Mail K), l ⊆ l := fun _ _ h => h
  refine step_forall (P := fun j h' => (w j).link.log ⊆ h'.link.log ∧ (w j).mail ⊆ h'.mail)
    (fun j => ⟨List.Subset.refl _, hsame _⟩) ?_ j
  cases deed with
  | link env event => exact ⟨log_subset (me i) (w i).link env event, hsame _⟩
  | e2e env event => exact ⟨List.Subset.refl _, List.subset_append_left _ _⟩
  | sign message => exact ⟨List.Subset.refl _, hsame _⟩

theorem Exchanged.step {i j : ι} {key : Bytes} (h : Exchanged me kem w i j key) (a : ι × Deed K Code) :
    Exchanged me kem (step me w a) i j key := by
  obtain ⟨-, hmail⟩ := grows me w a i
  obtain ⟨hlog', hmail'⟩ := grows me w a j
  cases h with
  | responded dst hello ciphertext hreceived hsigned htarget hkey =>
    exact .responded dst hello ciphertext (hmail hreceived)
      (hsigned.imp (fun hg => hg.mono hmail') fun hg => hg.mono hlog') htarget hkey
  | initiated hello ciphertext hsent hanswered hkey =>
    exact .initiated hello ciphertext (hmail hsent) (hanswered.mono hmail') hkey

theorem exchanged_new (h : Sound me kem w) (hlaw : Lawful me kem) {i j : ι} {env : Session.Env K}
    {event : Session.Event K} {e : Session.Effect K} {key : Bytes}
    (ha : Honest me kem w (i, .e2e env event))
    (hold : Kept (w i) (me j).id key → Exchanged me kem w i j key)
    (hmem : e ∈ (Session.act (keys (me i)) env event (w i).tables).out)
    (he : e = .filed (me j).id key ∨ e = .parked (me j).id key) :
    Exchanged me kem (step me w (i, .e2e env event)) i j key := by
  obtain ⟨hkem, -, -, hpacket⟩ := ha
  have hsizes : kemPublicLen ≠ kemCiphertextLen := by decide
  have hcaused := (act_traced (keys (me i)) env event (w i).tables).out e hmem
  obtain ⟨hlog, hmail⟩ := grows me w (i, .e2e env event) j
  have hself := step_self me w i (.e2e env event)
  cases hcaused with
  | hello | answer | data | delivered => exact absurd he (by simp)
  | answered x dst hello ciphertext shared _ _ hchecks hencapsulate he' =>
    obtain ⟨hxj, hkey⟩ : x = (me j).id ∧ shared = key := by
      rcases he with rfl | rfl <;> rcases he' with he' | he' <;> cases he' <;> exact ⟨rfl, rfl⟩
    subst hxj hkey
    obtain ⟨hnonce, hunforged⟩ := hpacket _ rfl
    obtain ⟨hylen, -, htarget, hshared⟩ := hkem.encapsulates _ _ _ hencapsulate
    unfold Session.Turn.helloChecks at hchecks
    simp only [Bool.and_eq_true, decide_eq_true_eq] at hchecks
    obtain ⟨⟨hid, -⟩, hverify⟩ := hchecks
    have hsigned : E2eGreeted (me j) (w j) hello.nonce hello.kemPub ∨
        Greeted (me j) (w j) hello.nonce hello.kemPub := by
      rcases h.ways hlaw (hnonce _ rfl) (hunforged _ rfl) hid hverify with ⟨-, hg⟩ | ⟨hclen, -⟩
      · exact hg.symm
      · exact absurd (hylen.symm.trans hclen) hsizes
    refine .responded dst hello ciphertext ?_ (hsigned.imp (fun hg => hg.mono hmail) fun hg => hg.mono hlog)
      htarget hshared.symm
    rw [hself]
    exact mail_of_packet
  | adopted x dst answer secret shared _ hchecks hwaiting hopened =>
    obtain ⟨rfl, rfl⟩ : x = (me j).id ∧ shared = key := by
      rcases he with he | he
      · obtain ⟨rfl, rfl⟩ := Session.Effect.filed.inj he
        exact ⟨rfl, rfl⟩
      · cases he
    obtain ⟨hnonce, hunforged⟩ := hpacket _ rfl
    unfold Session.Turn.answerChecks at hchecks
    simp only [Bool.and_eq_true, decide_eq_true_eq] at hchecks
    obtain ⟨⟨hid, -⟩, hverify⟩ := hchecks
    obtain ⟨hello, hsent, hn, hpub⟩ := (h.hosts i).mail.attempt _ _ _ hwaiting
    have hdrawn : answer.nonce ∈ (w i).nonces := List.mem_filterMap.mpr ⟨_, hsent, congrArg some hn⟩
    have hanswered : E2eAnswered (me j) kem (w j) answer.nonce answer.ciphertext := by
      rcases h.ways hlaw (hnonce _ rfl) (hunforged _ rfl) hid hverify with ⟨hylen, -⟩ | ⟨-, hr | ha⟩
      · exact absurd (hylen.symm.trans (hlaw.sized i _ _ _ hopened)) hsizes
      · exact absurd hdrawn (h.apart j i _ (Replied.challenged hr))
      · exact ha
    refine .initiated hello answer.ciphertext ((grows me w _ i).2 hsent)
      (hn ▸ hanswered.mono hmail) fun htarget => ?_
    have hopens := hlaw.opens i answer.ciphertext secret (htarget.trans hpub)
    exact Option.mem_unique hopened hopens
  | promoted _ x key' exp _ hcand =>
    obtain ⟨rfl, rfl⟩ : x = (me j).id ∧ key' = key := by
      rcases he with he | he
      · obtain ⟨rfl, rfl⟩ := Session.Effect.filed.inj he
        exact ⟨rfl, rfl⟩
      · cases he
    exact (hold (.inr ((h.hosts i).mail.cand _ _ _ hcand))).step _

/-- **One step.** -/
theorem exchanged_step (h : Sound me kem w) (hlaw : Lawful me kem) {a : ι × Deed K Code}
    (ha : Honest me kem w a)
    (hold : ∀ i j key, Kept (w i) (me j).id key → Exchanged me kem w i j key) :
    ∀ i j key, Kept (step me w a i) (me j).id key → Exchanged me kem (step me w a) i j key := by
  intro i j key hkept
  obtain ⟨k, deed⟩ := a
  by_cases hki : i = k
  swap
  · rw [step_other w hki] at hkept
    exact (hold i j key hkept).step _
  subst hki
  cases deed with
  | link env event | sign message =>
    rw [step_self] at hkept
    exact (hold i j key hkept).step _
  | e2e env event =>
    rw [step_self] at hkept
    rcases hkept with hmem | hmem
    · rcases mem_mail hmem with hmem | hmem
      · exact (hold i j key (.inl hmem)).step _
      · exact exchanged_new h hlaw ha (hold i j key) hmem (.inl rfl)
    · rcases mem_mail hmem with hmem | hmem
      · exact (hold i j key (.inr hmem)).step _
      · exact exchanged_new h hlaw ha (hold i j key) hmem (.inr rfl)

end Step

/-- **End-to-end agreement.** Whatever the run, a key that an honest node files or parks under an honest
node comes of what that node has signed. -/
theorem e2e_agrees {me : ι → Local K Code} {kem : Kem} (hlaw : Lawful me kem) (certs : ι → CertStore K)
    {as : List (ι × Deed K Code)}
    (hrun : Guarded (step me) (Honest me kem) (fun i => newHost (certs i)) as) {a b : ι} {key : Bytes}
    (hkept : Kept (run (step me) (fun i => newHost (certs i)) as a) (me b).id key) :
    Exchanged me kem (run (step me) (fun i => newHost (certs i)) as) a b key := by
  have h : Sound me kem (run (step me) (fun i => newHost (certs i)) as) ∧
      ∀ i j key, Kept (run (step me) (fun i => newHost (certs i)) as i) (me j).id key →
        Exchanged me kem (run (step me) (fun i => newHost (certs i)) as) i j key := by
    refine hrun.run_induct (P := fun w => Sound me kem w ∧ ∀ i j key, Kept (w i) (me j).id key →
      Exchanged me kem w i j key) (fun w a h ha => ⟨h.1.step ha, exchanged_step h.1 hlaw ha h.2⟩)
      ⟨sound_start certs, ?_⟩
    rintro i j key (hmem | hmem)
    · cases hmem
    · cases hmem
  exact h.2 a b key hkept

/-! ### Sessions that nobody agreed to -/

def addressees (h : Host K Code) : List NodeID := h.mail.filterMap (ofSent fun packet => some packet.dstId)

def keptKeys (h : Host K Code) : List (NodeID × Bytes) :=
  h.mail.filterMap fun
    | .did (.filed nodeId key) => some (nodeId, key)
    | .did (.parked nodeId key) => some (nodeId, key)
    | _ => none

omit [DecidableEq Code] in
theorem kept_of_mem {h : Host K Code} {nodeId : NodeID} {key : Bytes} (hmem : (nodeId, key) ∈ keptKeys h) :
    Kept h nodeId key := by
  obtain ⟨mail, hmail, hkey⟩ := List.mem_filterMap.mp hmem
  split at hkey
  · cases hkey
    exact .inl hmail
  · cases hkey
    exact .inr hmail
  · cases hkey

def e2eHello (x : UInt8) (nonce kemPub : Bytes) : Session.Packet tagged :=
  ⟨taggedId x, taggedId 1, .handshake (some
    ⟨nonce, kemPub, taggedPub x, [taggedCert x], taggedSign x nonce kemPub⟩)⟩

/-- `b` sends a handshake to the third node, which sends it on to `a`. -/
def redirected : List Move :=
  [⟨.b, 1, .inr (.sendData (taggedId 3) [7])⟩,
    ⟨.a, 2, .inr (.packet (e2eHello 2 (List.replicate 32 1) (taggedKem.publicOf [1])))⟩]

theorem e2e_agrees_redirected : Exchanged taggedMe taggedKem (runMoves redirected) .a .b [2] := by
  have hrun : Guarded (step taggedMe) (Honest taggedMe taggedKem) taggedStart
      (redirected.map Move.deed) := guarded_tagged (by decide +kernel)
  exact e2e_agrees lawful_tagged (fun _ => taggedCerts) hrun (kept_of_mem (by decide +kernel))

/-- `a` sends a handshake to `b`. The third node signs its nonce and its ML-KEM key as its own, and gives
`a` what `b` answers. -/
def assumed : List Move :=
  let nonce := List.replicate 32 1
  let ciphertext := 2 :: padded 1086 1
  [⟨.a, 1, .inr (.sendData (taggedId 2) [7])⟩,
    ⟨.b, 2, .inr (.packet (e2eHello 3 nonce (taggedKem.publicOf [1])))⟩,
    ⟨.a, 3, .inr (.packet ⟨taggedId 2, taggedId 1, .handshakeAck (some
      ⟨nonce, ciphertext, taggedPub 2, [taggedCert 2], taggedSign 2 nonce ciphertext⟩)⟩)⟩]

/-- `b` answers a challenge of the third node, on a link. The third node passes the answer to `a`, as a
handshake end to end. -/
def carried : List Move :=
  let nonce := List.replicate 32 9
  [⟨.b, 4, .inl (.dial none false false (some (taggedId 3)))⟩,
    ⟨.b, 5, .inl (.packet 1 ⟨taggedId 3, broadcastId, .challenge nonce⟩)⟩,
    ⟨.a, 6, .inr (.packet (e2eHello 2 nonce (taggedKem.publicOf [5])))⟩]

/-- In each of these runs `a` files a session under `b`, which has sent nothing to `a` and has kept no key for
it: a handshake for a third node, an answer to another initiator, and no end-to-end words at all. -/
theorem sessions_disagree :
    (Guarded (step taggedMe) (Honest taggedMe taggedKem) taggedStart (redirected.map Move.deed) ∧
      Kept (runMoves redirected .a) (taggedMe .b).id [2] ∧
      addressees (runMoves redirected .b) = [taggedId 3] ∧ keptKeys (runMoves redirected .b) = []) ∧
    (Guarded (step taggedMe) (Honest taggedMe taggedKem) taggedStart (assumed.map Move.deed) ∧
      Kept (runMoves assumed .a) (taggedMe .b).id [2] ∧
      addressees (runMoves assumed .b) = [taggedId 3] ∧
      keptKeys (runMoves assumed .b) = [(taggedId 3, [2])]) ∧
    Guarded (step taggedMe) (Honest taggedMe taggedKem) taggedStart (carried.map Move.deed) ∧
      Kept (runMoves carried .a) (taggedMe .b).id [6] ∧ (runMoves carried .b).mail.length = 0 ∧
      taggedId 3 ≠ (taggedMe .a).id :=
  ⟨⟨guarded_tagged (by decide +kernel), kept_of_mem (by decide +kernel), by decide +kernel,
      by decide +kernel⟩,
    ⟨guarded_tagged (by decide +kernel), kept_of_mem (by decide +kernel), by decide +kernel,
      by decide +kernel⟩,
    guarded_tagged (by decide +kernel), kept_of_mem (by decide +kernel), by decide +kernel,
    by decide +kernel⟩

end NMesh.Auth.Sessions
