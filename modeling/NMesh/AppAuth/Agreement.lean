import NMesh.AppAuth.Login
import Mathlib.Data.Fintype.Basic

/-! # A login agrees

The adversary hands any frame to any instance as coming from any peer; it cannot make up a signature of an honest
key (`Ideal.unforged`) or foresee a nonce (`Ideal.fresh`). Then a session of one end has its counterpart at the
other (`logins_agree`): the signed context holds both nonces, and the own one tells which step the other end
signed it in. -/

namespace NMesh.AppAuth.Agreement

open Base.BigEndian Base.Utf8 Base.Ordered Base.Runs
open NMesh.AppAuth.Format NMesh.AppAuth.Format.Assertion NMesh.AppAuth.Verify NMesh.AppAuth.Login

variable {ι : Type}

/-! ### What calls and entries are about -/

def draws : Event ι → Option Bytes
  | .start _ _ nonce _ => some nonce
  | .answer _ _ _ nonce _ _ => some nonce
  | _ => none

def mintings : Event ι → Option Minting
  | .answer _ _ _ _ m _ => some m
  | .complete _ _ _ m _ => some m
  | .assertTo _ _ _ _ _ m => some m
  | _ => none

/-- The peer a login frame is for, or is said to come from. -/
def peerOf : Event ι → Option Bytes
  | .start _ peer _ _ => some peer
  | .answer _ peer _ _ _ _ => some peer
  | .complete _ peer _ _ _ => some peer
  | .accept _ peer _ _ _ => some peer
  | _ => none

def otherPurpose : Event ι → Option Text
  | .assertTo _ _ purpose _ _ _ => some purpose
  | _ => none

def given : Event ι → Option Assertion
  | .complete _ _ frame _ _ => parseAssertion (frame.drop (1 + nonceLen))
  | .accept _ _ frame _ _ => parseAssertion (frame.drop 1)
  | .verify _ blob _ _ _ _ => parseAssertion blob
  | _ => none

def drew : Entry ι → Option Bytes
  | .started _ _ nonce => some nonce
  | .answered _ _ r => some r.nb
  | _ => none

def signs : Entry ι → Option (ι × Assertion)
  | .answered i _ r => some (i, r.proof)
  | .completed i _ _ r => some (i, r.proof)
  | .asserted i proof => some (i, proof)
  | _ => none

def took : Entry ι → Option Bytes
  | .completed _ _ frame _ => some frame
  | .accepted _ _ frame _ => some frame
  | _ => none

/-- The nonce an entry closes, and where it was pending. -/
def closes : Entry ι → Option (ι × Bytes)
  | .completed i _ _ r => some (i, r.na)
  | .accepted i _ _ r => some (i, r.nb)
  | _ => none

/-! ### Assumptions -/

variable (K : Primitives) (cfg : ι → Config)

def loginInput (na nb : Bytes) : Bytes := ctxInput [(ascii "login").map UInt8.ofNat, na, nb]

/-- Instances are made with the id of their key, no other key has that id, and no two login contexts
collide. -/
structure Sound : Prop where
  nodeId : ∀ i, (cfg i).nodeId = K.idOf (cfg i).identity.publicKey
  key : ∀ i k, K.idOf k = (cfg i).nodeId → k = (cfg i).identity.publicKey
  digest : ∀ na nb na' nb' : Bytes, na.length = nonceLen → nb.length = nonceLen →
    na'.length = nonceLen → nb'.length = nonceLen →
    K.sha256 (loginInput na nb) = K.sha256 (loginInput na' nb') → loginInput na nb = loginInput na' nb'

/-- **A call of a run against the adversary.** Nonces are new and have their length; a peer is a node; the
signer's other uses are for other purposes; an assertion under an instance's key was signed by an instance with
this key. -/
structure Ideal (w : World ι) (e : Event ι) : Prop where
  fresh : ∀ n ∈ draws e, n.length = nonceLen ∧ n ∉ w.log.filterMap drew
  minting : ∀ m ∈ mintings e, m.nonce.length = nonceLen
  peer : ∀ p ∈ peerOf e, p ≠ anyAudience
  purpose : ∀ p ∈ otherPurpose e, p ≠ purposeLogin
  unforged : ∀ a ∈ given e, K.verify a.signedBody a.signature a.subjectPub = true →
    ∀ i, (cfg i).identity.publicKey = a.subjectPub →
      ∃ x ∈ w.log.filterMap signs, (cfg x.1).identity.publicKey = a.subjectPub ∧
        x.2.signedBody = a.signedBody

/-! ### What agreement is -/

/-- What holds of a session that `complete_login` of `i` stores for `peer`: an honest `peer` answered this very
HELLO of `i`, no session came of the frame before, and no PROVE carries its proof. -/
structure CompletedAgrees (pre : List (Entry ι)) (i : ι) (peer frame : Bytes) (r : Completed) : Prop where
  stored : r.session.peer = peer ∧ r.session.sid = sessionId K r.na r.nb
  started : .started i peer r.na ∈ pre
  answered : ∀ b, (cfg b).nodeId = peer → ∃ b' q, .answered b' (cfg i).nodeId ⟨r.na, r.nb, q⟩ ∈ pre ∧
    (cfg b').nodeId = peer ∧ (cfg b').appId = (cfg i).appId
  once : ∀ e ∈ pre, took e ≠ some frame
  kind : frame.head? = some challenge
  direction : ∀ a, parseAssertion (frame.drop (1 + nonceLen)) = some a →
    ∀ j peer' frame' r', .completed j peer' frame' r' ∈ pre →
      (cfg j).nodeId = peer → r'.proof.signedBody ≠ a.signedBody

/-- What holds of a session that `accept_login` of `i` stores for `peer`: an honest `peer` other than `i`'s node
has completed with a session of the same id, no CHALLENGE carries the proof, and no session came of the frame
before. -/
structure AcceptedAgrees (pre : List (Entry ι)) (i : ι) (peer frame : Bytes) (r : Accepted) : Prop where
  stored : r.session.peer = peer ∧ r.session.sid = sessionId K r.na r.nb
  completed : ∀ a, (cfg a).nodeId = peer → peer ≠ (cfg i).nodeId →
    ∃ a' frame' r', .completed a' (cfg i).nodeId frame' r' ∈ pre ∧ (cfg a').nodeId = peer ∧
      (cfg a').appId = (cfg i).appId ∧ r'.session.peer = (cfg i).nodeId ∧ r'.session.sid = r.session.sid
  once : ∀ e ∈ pre, took e ≠ some frame
  kind : frame.head? = some prove
  direction : ∀ a, parseAssertion (frame.drop 1) = some a → peer ≠ (cfg i).nodeId →
    ∀ j peer' r', .answered j peer' r' ∈ pre →
      (cfg j).nodeId = peer → r'.proof.signedBody ≠ a.signedBody

/-- What holds of an entry of the log, given what was before. -/
def Agrees (pre : List (Entry ι)) : Entry ι → Prop
  | .completed i peer frame r => CompletedAgrees K cfg pre i peer frame r
  | .accepted i peer frame r => AcceptedAgrees K cfg pre i peer frame r
  | _ => True

/-! ### The invariant -/

def Kept (log : List (Entry ι)) : Entry ι → Prop
  | .started _ _ nonce => nonce.length = nonceLen
  | .answered i peer r => r.na.length = nonceLen ∧ r.nb.length = nonceLen ∧ peer ≠ anyAudience ∧
      ∃ m, m.nonce.length = nonceLen ∧ loginProof K (cfg i) peer r.na r.nb m = some r.proof
  | .completed i peer frame r => .started i peer r.na ∈ log ∧ r.nb.length = nonceLen ∧
      peer ≠ anyAudience ∧ (∃ m, m.nonce.length = nonceLen ∧
        loginProof K (cfg i) peer r.na r.nb m = some r.proof) ∧
      (r.session.peer = peer ∧ r.session.sid = sessionId K r.na r.nb) ∧ frame.head? = some challenge ∧
      ∃ a, parseAssertion (frame.drop (1 + nonceLen)) = some a ∧ a.ctx = loginCtx K r.na r.nb
  | .accepted i peer frame r => (∃ proof, .answered i peer ⟨r.na, r.nb, proof⟩ ∈ log) ∧
      frame.head? = some prove ∧ ∃ a, parseAssertion (frame.drop 1) = some a ∧ a.ctx = loginCtx K r.na r.nb
  | .asserted i proof => ∃ audience purpose ctx ttl m, m.nonce.length = nonceLen ∧
      purpose ≠ purposeLogin ∧
      makeAssertion (cfg i).identity (cfg i).appId audience purpose ctx ttl m = some proof

/-- **The invariant.** A pending nonce was drawn for a login with that peer, and one that gave a session
is pending no more. -/
structure Inv (w : World ι) : Prop where
  drawn : (w.log.filterMap drew).Nodup
  kept : ∀ e ∈ w.log, Kept K cfg w.log e
  pending : ∀ i n e, (w.services i).pending.get? n = some e →
    (e.prior = [] ∧ .started i e.peer n ∈ w.log) ∨
      ∃ proof, .answered i e.peer ⟨e.prior, n, proof⟩ ∈ w.log
  completed : ∀ i peer frame r, .completed i peer frame r ∈ w.log →
    (w.services i).pending.get? r.na = none
  accepted : ∀ i peer frame r, .accepted i peer frame r ∈ w.log →
    (w.services i).pending.get? r.nb = none
  agrees : Each (Agrees K cfg) w.log

variable {K} {cfg}

theorem kept_mono {log log' : List (Entry ι)} (hsub : ∀ e ∈ log, e ∈ log') {e : Entry ι}
    (h : Kept K cfg log e) : Kept K cfg log' e := by
  cases e with
  | started | answered | asserted => exact h
  | completed => exact ⟨hsub _ h.1, h.2⟩
  | accepted =>
    obtain ⟨⟨proof, hmem⟩, hrest⟩ := h
    exact ⟨⟨proof, hsub _ hmem⟩, hrest⟩

theorem eq_of_filterMap {α β : Type} {f : α → Option β} {l : List α} (h : (l.filterMap f).Nodup) :
    ∀ {x y : α} {v : β}, x ∈ l → y ∈ l → f x = some v → f y = some v → x = y := by
  induction l with
  | nil => intro x y v hx; cases hx
  | cons z l ih =>
    have hnot : ∀ {v : β} {x : α}, f z = some v → x ∈ l → f x ≠ some v := by
      intro v x hz hx hv
      rw [List.filterMap_cons_some hz, List.nodup_cons] at h
      exact h.1 (List.mem_filterMap.mpr ⟨x, hx, hv⟩)
    have htail : (l.filterMap f).Nodup := h.sublist ((List.sublist_cons_self z l).filterMap f)
    intro x y v hx hy hfx hfy
    rcases List.mem_cons.mp hx with hxz | hxl
    · rcases List.mem_cons.mp hy with hyz | hyl
      · rw [hxz, hyz]
      · exact absurd hfy (hnot (hxz ▸ hfx) hyl)
    · rcases List.mem_cons.mp hy with hyz | hyl
      · exact absurd hfx (hnot (hyz ▸ hfy) hxl)
      · exact ih htail hxl hyl hfx hfy

variable {na nb : Bytes}

theorem loginInput_inj {na' nb' : Bytes} (hna : na.length = nonceLen) (hnb : nb.length = nonceLen)
    (hna' : na'.length = nonceLen) (hnb' : nb'.length = nonceLen)
    (h : loginInput na nb = loginInput na' nb') : na = na' ∧ nb = nb' := by
  simp only [loginInput, ctxInput, List.flatMap_cons, List.flatMap_nil, List.append_nil,
    List.append_assoc, hna, hnb, hna', hnb'] at h
  have h := List.append_cancel_left (List.append_cancel_left (List.append_cancel_left
    (List.append_cancel_left h)))
  obtain ⟨h1, h⟩ := List.append_inj h (hna.trans hna'.symm)
  exact ⟨h1, List.append_cancel_left h⟩

theorem loginCtx_inj (hK : Sound K cfg) {na' nb' : Bytes} (hna : na.length = nonceLen)
    (hnb : nb.length = nonceLen) (hna' : na'.length = nonceLen) (hnb' : nb'.length = nonceLen)
    (h : loginCtx K na nb = loginCtx K na' nb') : na = na' ∧ nb = nb' :=
  loginInput_inj hna hnb hna' hnb' (hK.digest na nb na' nb' hna hnb hna' hnb' h)

theorem nodeId_of_pub (hK : Sound K cfg) {i j : ι}
    (h : (cfg i).identity.publicKey = (cfg j).identity.publicKey) : (cfg i).nodeId = (cfg j).nodeId := by
  rw [hK.nodeId i, h, ← hK.nodeId j]

theorem of_body (hK : Sound K cfg) {a q : Assertion} {j : ι} {peer na' nb' : Bytes} {m : Minting}
    (hfits : a.Fits) (hm : m.nonce.length = nonceLen) (hna : na.length = nonceLen)
    (hnb : nb.length = nonceLen) (hna' : na'.length = nonceLen) (hnb' : nb'.length = nonceLen)
    (hq : loginProof K (cfg j) peer na' nb' m = some q) (hbody : q.signedBody = a.signedBody)
    (hctx : a.ctx = loginCtx K na nb) : na' = na ∧ nb' = nb ∧ a.audience = peer ∧ a.appId = (cfg j).appId := by
  obtain ⟨happ, -, haud, -, -, -, -, hqctx, -, hqfits⟩ := makeAssertion_spec hq
  obtain ⟨hsameApp, hsameAud, -, -, hsameCtx⟩ :=
    fields_of_unsigned (signedBody_inj (hqfits hm) hfits hbody)
  have hctx' : loginCtx K na' nb' = loginCtx K na nb := by rw [← hqctx, ← hctx, hsameCtx]
  obtain ⟨h1, h2⟩ := loginCtx_inj hK hna' hnb' hna hnb hctx'
  exact ⟨h1, h2, by rw [← hsameAud, haud], by rw [← hsameApp, happ]⟩

variable {w : World ι}

/-- **Who signed a login proof.** An assertion taken for a login of instance `i` under an honest key was signed by
an instance of that node, in an answer to a HELLO or to a CHALLENGE of this login, for `i`'s node and app. -/
theorem signed_login (hK : Sound K cfg) (hw : Inv K cfg w) {e : Event ι}
    (hG : Ideal K cfg w e) {i j₀ : ι} {a : Assertion} {stamp : ℕ} (hgiven : given e = some a)
    (hfits : a.Fits) (hna : na.length = nonceLen) (hnb : nb.length = nonceLen)
    (hchecks : Checks K (cfg i).appId (cfg i).nodeId (some purposeLogin) (some (loginCtx K na nb)) stamp a)
    (hpeer : K.idOf a.subjectPub = (cfg j₀).nodeId) :
    ∃ j, (cfg j).nodeId = (cfg j₀).nodeId ∧ (cfg j).appId = (cfg i).appId ∧
      ((∃ q, .answered j (cfg i).nodeId ⟨na, nb, q⟩ ∈ w.log ∧ q.signedBody = a.signedBody) ∨
        ∃ frame r, .completed j (cfg i).nodeId frame r ∈ w.log ∧ r.na = na ∧ r.nb = nb ∧
          r.proof.signedBody = a.signedBody) := by
  obtain ⟨happ, haud, hpurpose, hctx, -, hverify⟩ := hchecks
  have hkey : a.subjectPub = (cfg j₀).identity.publicKey := hK.key j₀ _ hpeer
  obtain ⟨⟨j, q⟩, hmem, hpub, hbody⟩ := hG.unforged a hgiven hverify j₀ hkey.symm
  obtain ⟨x, hx, hsigns⟩ := List.mem_filterMap.mp hmem
  have hnode : (cfg j).nodeId = (cfg j₀).nodeId := nodeId_of_pub hK (hpub.trans hkey)
  have hkept := hw.kept x hx
  have hctx := hctx _ rfl
  have hto : ∀ {peer : Bytes}, peer ≠ anyAudience → a.audience = peer → peer = (cfg i).nodeId := by
    intro peer hany hpeer
    rcases haud with h | h
    · rw [← hpeer, h]
    · exact absurd (hpeer.symm.trans h) hany
  cases x with
  | started | accepted => cases hsigns
  | answered j' peer r =>
    obtain ⟨rfl, rfl⟩ := Prod.mk.inj (Option.some.inj hsigns)
    obtain ⟨hna', hnb', hany, m, hm, hq⟩ := hkept
    obtain ⟨rfl, rfl, haud', happ'⟩ := of_body hK hfits hm hna hnb hna' hnb' hq hbody hctx
    obtain rfl := hto hany haud'
    exact ⟨j', hnode, happ'.symm.trans happ, Or.inl ⟨r.proof, hx, hbody⟩⟩
  | completed j' peer frame r =>
    obtain ⟨rfl, rfl⟩ := Prod.mk.inj (Option.some.inj hsigns)
    obtain ⟨hstarted, hnb', hany, ⟨m, hm, hq⟩, -, -, -⟩ := hkept
    obtain ⟨hna', hnb', haud', happ'⟩ :=
      of_body hK hfits hm hna hnb (hw.kept _ hstarted) hnb' hq hbody hctx
    obtain rfl := hto hany haud'
    exact ⟨j', hnode, happ'.symm.trans happ, Or.inr ⟨frame, r, hx, hna', hnb', hbody⟩⟩
  | asserted j' proof =>
    obtain ⟨rfl, rfl⟩ := Prod.mk.inj (Option.some.inj hsigns)
    obtain ⟨audience, purpose, ctx, ttl, m, hm, hother, hq⟩ := hkept
    obtain ⟨-, -, -, henc, -, -, -, -, -, hqfits⟩ := makeAssertion_spec hq
    obtain ⟨-, -, hsame, -, -⟩ := fields_of_unsigned (signedBody_inj (hqfits hm) hfits hbody)
    rw [hsame] at henc
    exact absurd (encode_inj henc (hpurpose _ rfl)) hother

/-! ### A step keeps the invariant -/

theorem completed_agrees (hK : Sound K cfg) (hw : Inv K cfg w) {i : ι}
    {peer frame : Bytes} {m : Minting} {now : ℚ} (hG : Ideal K cfg w (.complete i peer frame m now))
    {r : Completed} (hr : (completeLogin K (cfg i) peer frame m now (w.services i)).1 = some r) :
    CompletedAgrees K cfg w.log i peer frame r ∧ r.na.length = nonceLen := by
  obtain ⟨a, hhead, hparse, hchecks, hid, hopen, hnb, -, hspeer, hsid, -⟩ := completeLogin_spec hr
  obtain ⟨e, he, hepeer, hprior⟩ := openHello_spec hopen
  have hstarted : .started i peer r.na ∈ w.log := by
    rcases hw.pending i r.na e he with ⟨-, h⟩ | ⟨proof, h⟩
    · rwa [hepeer] at h
    · have hlen := (hw.kept _ h).1
      rw [hprior] at hlen
      cases hlen
  have hna : r.na.length = nonceLen := hw.kept _ hstarted
  -- a login nonce is completed once, and by the instance that drew it
  have hnever : ∀ {j : ι} {peer' frame' : Bytes} {r' : Completed},
      .completed j peer' frame' r' ∈ w.log → r'.na ≠ r.na := by
    intro j peer' frame' r' hmem hsame
    have hstarted' := (hw.kept _ hmem).1
    rw [hsame] at hstarted'
    obtain ⟨rfl, -⟩ : j = i ∧ peer' = peer := by
      have := eq_of_filterMap hw.drawn hstarted' hstarted rfl rfl
      simpa using this
    have hgone := hw.completed _ _ _ _ hmem
    rw [hsame, he] at hgone
    cases hgone
  refine ⟨⟨⟨hspeer, hsid⟩, hstarted, ?_, ?_, hhead, ?_⟩, hna⟩
  · intro b hb
    obtain ⟨j, hnode, happ, ⟨q, hq, -⟩ | ⟨frame', r', hmem, hna', -, -⟩⟩ := signed_login hK hw hG hparse
      (fits_of_parse hparse).1 hna hnb hchecks (by rw [hid, hb])
    · exact ⟨j, q, hq, hnode.trans hb, happ⟩
    · exact absurd hna' (hnever hmem)
  · intro x hx htook
    cases x with
    | completed j peer' frame' r' =>
      cases htook
      obtain ⟨hs, hnb', -, -, -, -, a', hparse', hctx'⟩ := hw.kept _ hx
      obtain rfl := Option.mem_unique hparse hparse'
      have hsame := hctx'.symm.trans (hchecks.2.2.2.1 _ rfl)
      exact hnever hx (loginCtx_inj hK (hw.kept _ hs) hnb' hna hnb hsame).1
    | accepted j peer' frame' r' =>
      cases htook
      have hkind := (hw.kept _ hx).2.1
      rw [hhead] at hkind
      cases hkind
    | started | answered | asserted => cases htook
  · intro a' hparse' j peer' frame' r' hmem hnode hbody
    obtain rfl := Option.mem_unique hparse hparse'
    obtain ⟨hs, hnb', -, ⟨m', hm', hq⟩, -, -, -⟩ := hw.kept _ hmem
    exact hnever hmem (of_body hK (fits_of_parse hparse).1 hm' hna hnb (hw.kept _ hs) hnb' hq hbody
      (hchecks.2.2.2.1 _ rfl)).1

theorem accepted_agrees (hK : Sound K cfg) (hw : Inv K cfg w) {i : ι}
    {peer frame : Bytes} {stamp : ℕ} {now : ℚ} (hG : Ideal K cfg w (.accept i peer frame stamp now))
    {r : Accepted} (hr : (acceptLogin K (cfg i) peer frame stamp now (w.services i)).1 = some r) :
    AcceptedAgrees K cfg w.log i peer frame r ∧
      ∃ proof, .answered i peer ⟨r.na, r.nb, proof⟩ ∈ w.log := by
  obtain ⟨a, hhead, hparse, hchecks, hid, hopen, hspeer, hsid, -⟩ := acceptLogin_spec hr
  obtain ⟨e, he, hepeer, hprior, hnonempty⟩ := openAnswer_spec hopen
  obtain ⟨proof, hanswered⟩ : ∃ proof, .answered i peer ⟨r.na, r.nb, proof⟩ ∈ w.log := by
    rcases hw.pending i r.nb e he with ⟨h, -⟩ | ⟨proof, h⟩
    · exact absurd (hprior.symm.trans h) hnonempty
    · rw [hepeer, hprior] at h
      exact ⟨proof, h⟩
  obtain ⟨hna, hnb, hany, -⟩ := hw.kept _ hanswered
  -- the nonce of an answer was drawn by one instance, for one peer
  have hself : ∀ {j : ι} {peer' : Bytes} {r' : Answered}, .answered j peer' r' ∈ w.log →
      r'.nb = r.nb → j = i := by
    intro j peer' r' hmem hsame
    have h := eq_of_filterMap hw.drawn hmem hanswered (congrArg some hsame) rfl
    exact (Entry.answered.inj h).1
  refine ⟨⟨⟨hspeer, hsid⟩, ?_, ?_, hhead, ?_⟩, proof, hanswered⟩
  · intro b hb hother
    obtain ⟨j, hnode, happ, ⟨q, hq, -⟩ | ⟨frame', r', hmem, hna', hnb', -⟩⟩ := signed_login hK hw hG hparse
      (fits_of_parse hparse).1 hna hnb hchecks (by rw [hid, hb])
    · obtain rfl := hself hq rfl
      exact absurd (hb.symm.trans hnode.symm) hother
    · have hstored := (hw.kept _ hmem).2.2.2.2.1
      exact ⟨j, frame', r', hmem, hnode.trans hb, happ, hstored.1, by
        rw [hstored.2, hsid, hna', hnb']⟩
  · intro x hx htook
    cases x with
    | accepted j peer' frame' r' =>
      cases htook
      obtain ⟨⟨proof', hans'⟩, -, a', hparse', hctx'⟩ := hw.kept _ hx
      obtain ⟨hna', hnb', -, -⟩ := hw.kept _ hans'
      obtain rfl := Option.mem_unique hparse hparse'
      have hsame : r'.nb = r.nb :=
        (loginCtx_inj hK hna' hnb' hna hnb (hctx'.symm.trans (hchecks.2.2.2.1 _ rfl))).2
      obtain rfl := hself hans' hsame
      have hgone := hw.accepted _ _ _ _ hx
      rw [hsame, he] at hgone
      cases hgone
    | completed j peer' frame' r' =>
      cases htook
      have hkind := (hw.kept _ hx).2.2.2.2.2.1
      rw [hhead] at hkind
      cases hkind
    | started | answered | asserted => cases htook
  · intro a' hparse' hother j peer' r' hmem hnode hbody
    obtain rfl := Option.mem_unique hparse hparse'
    obtain ⟨hna', hnb', -, m', hm', hq⟩ := hw.kept _ hmem
    have hsame := (of_body hK (fits_of_parse hparse).1 hm' hna hnb hna' hnb' hq hbody
      (hchecks.2.2.2.1 _ rfl)).2.1
    obtain rfl := hself hmem hsame
    exact hother hnode.symm

section Step

variable [DecidableEq ι]

theorem services_step_of_ne {i j : ι} {s : Service} {es : List (Entry ι)} (h : i ≠ j) :
    (w.put j s es).services i = w.services i := Function.update_of_ne h _ _

theorem services_put (w : World ι) (i : ι) (s : Service) (es : List (Entry ι)) :
    (w.put i s es).services i = s := Function.update_self _ _ _

theorem services_of_put {i j : ι} {s : Service} {es : List (Entry ι)} {P : Service → Prop}
    (hold : P (w.services i)) (hnew : i = j → P s) : P ((w.put j s es).services i) := by
  by_cases hij : i = j
  · rw [hij, services_put]
    exact hnew hij
  · rw [services_step_of_ne hij]
    exact hold

/-- **What one call has to show for the invariant**: of its log entry, if it makes one, and of the pending
table it leaves. -/
theorem inv_put (hw : Inv K cfg w) {i : ι} {s : Service} {o : Option (Entry ι)}
    (hdrew : ∀ e ∈ o, ∀ n ∈ drew e, n ∉ w.log.filterMap drew)
    (hkept : ∀ e ∈ o, Kept K cfg w.log e) (hagrees : ∀ e ∈ o, Agrees K cfg w.log e)
    (hpending : ∀ n e, s.pending.get? n = some e → (w.services i).pending.get? n = some e ∨
      ((e.prior = [] ∧ o = some (.started i e.peer n)) ∨
        ∃ proof, o = some (.answered i e.peer ⟨e.prior, n, proof⟩)))
    (hcloses : ∀ e ∈ o, ∀ j n, closes e = some (j, n) → j = i ∧ s.pending.get? n = none) :
    Inv K cfg (w.put i s o.toList) := by
  have hlog : (w.put i s o.toList).log = w.log ++ o.toList := rfl
  have hsub : ∀ e ∈ w.log, e ∈ w.log ++ o.toList := fun e he => List.mem_append_left _ he
  have hnew : ∀ {e : Entry ι}, o = some e → e ∈ w.log ++ o.toList := by
    intro e he
    rw [he]
    exact List.mem_append_right _ List.mem_cons_self
  -- a nonce drawn before is not pending anew
  have hgone : ∀ {x : Entry ι} {j : ι} {n : Bytes}, x ∈ w.log ++ o.toList → closes x = some (j, n) →
      (x ∈ w.log → (w.services j).pending.get? n = none ∧ n ∈ w.log.filterMap drew) →
        ((w.put i s o.toList).services j).pending.get? n = none := by
    intro x j n hx hclose hold
    rcases List.mem_append.mp hx with hx | hx
    · obtain ⟨hnone, hdrawn⟩ := hold hx
      refine services_of_put (P := fun s => s.pending.get? n = none) hnone ?_
      rintro rfl
      rw [Option.eq_none_iff_forall_ne_some]
      intro e he
      rcases hpending n e he with h | ⟨-, h⟩ | ⟨proof, h⟩
      · rw [hnone] at h
        cases h
      · exact hdrew _ h n rfl hdrawn
      · exact hdrew _ h n rfl hdrawn
    · obtain ⟨rfl, hnone⟩ := hcloses x (Option.mem_toList.mp hx) j n hclose
      rw [services_put]
      exact hnone
  refine ⟨?_, ?_, ?_, ?_, ?_, ?_⟩
  · rw [hlog, List.filterMap_append, List.nodup_append]
    refine ⟨hw.drawn, ?_, ?_⟩
    · cases o with
      | none => simp
      | some x => cases hx : drew x <;> simp [hx]
    · rintro n hn n' hn' rfl
      obtain ⟨x, hx, hxn⟩ := List.mem_filterMap.mp hn'
      exact hdrew x (Option.mem_toList.mp hx) n hxn hn
  · intro e he
    rcases List.mem_append.mp he with he | he
    · exact kept_mono hsub (hw.kept e he)
    · exact kept_mono hsub (hkept e (Option.mem_toList.mp he))
  · intro j n e he
    have hleft : ((e.prior = [] ∧ .started j e.peer n ∈ w.log) ∨
        ∃ proof, .answered j e.peer ⟨e.prior, n, proof⟩ ∈ w.log) →
        (e.prior = [] ∧ .started j e.peer n ∈ w.log ++ o.toList) ∨
          ∃ proof, .answered j e.peer ⟨e.prior, n, proof⟩ ∈ w.log ++ o.toList := by
      rintro (⟨hprior, h⟩ | ⟨proof, h⟩)
      · exact Or.inl ⟨hprior, hsub _ h⟩
      · exact Or.inr ⟨proof, hsub _ h⟩
    refine services_of_put (P := fun s => s.pending.get? n = some e → _)
      (fun h => hleft (hw.pending j n e h)) ?_ he
    rintro rfl h
    rcases hpending n e h with h | ⟨hprior, h⟩ | ⟨proof, h⟩
    · exact hleft (hw.pending j n e h)
    · exact Or.inl ⟨hprior, hnew h⟩
    · exact Or.inr ⟨proof, hnew h⟩
  · intro j peer frame r hmem
    exact hgone hmem rfl fun h => ⟨hw.completed j peer frame r h,
      List.mem_filterMap.mpr ⟨_, (hw.kept _ h).1, rfl⟩⟩
  · intro j peer frame r hmem
    refine hgone hmem rfl fun h => ?_
    obtain ⟨⟨proof, hanswered⟩, -⟩ := hw.kept _ h
    exact ⟨hw.accepted j peer frame r h, List.mem_filterMap.mpr ⟨_, hanswered, rfl⟩⟩
  · rw [hlog, each_append]
    refine ⟨hw.agrees, ?_⟩
    cases o with
    | none => exact each_nil
    | some x =>
      refine each_cons.mpr ⟨?_, each_nil⟩
      rw [List.append_nil]
      exact hagrees x rfl

theorem inv_quiet (hw : Inv K cfg w) {i : ι} {s : Service}
    (hpending : ∀ n e, s.pending.get? n = some e → (w.services i).pending.get? n = some e) :
    Inv K cfg (w.put i s []) :=
  inv_put (o := none) hw (fun e he => by cases he) (fun e he => by cases he) (fun e he => by cases he)
    (fun n e he => Or.inl (hpending n e he)) (fun e he => by cases he)

theorem inv_step (hK : Sound K cfg) (hw : Inv K cfg w) {e : Event ι}
    (hG : Ideal K cfg w e) : Inv K cfg (step K cfg w e) := by
  cases e with
  | start i peer nonce now =>
    obtain ⟨hlen, hnew⟩ := hG.fresh nonce rfl
    refine inv_put (o := some (.started i peer nonce)) hw ?_ ?_ ?_ ?_ ?_
    · rintro _ ⟨⟩ n ⟨⟩
      exact hnew
    · rintro _ ⟨⟩
      exact hlen
    · rintro _ ⟨⟩
      trivial
    · intro n x hx
      have hx : ((prunePending now (w.services i).pending).set nonce
        ⟨peer, [], now + (cfg i).sessionTtl⟩).get? n = some x := hx
      rcases Dict.get?_of_set hx with ⟨rfl, rfl⟩ | ⟨-, hx⟩
      · exact Or.inr (Or.inl ⟨rfl, rfl⟩)
      · exact Or.inl (get?_of_prunePending hx)
    · rintro _ ⟨⟩ j n ⟨⟩
  | answer i peer frame nonce m now =>
    obtain ⟨hlen, hnew⟩ := hG.fresh nonce rfl
    have hpeer := hG.peer peer rfl
    have hm := hG.minting m rfl
    show Inv K cfg (w.put i (answerLogin K (cfg i) peer frame nonce m now (w.services i)).2 _)
    cases hout : (answerLogin K (cfg i) peer frame nonce m now (w.services i)).1 with
    | none =>
      refine inv_quiet hw fun n x hx => ?_
      rcases get?_of_answerLogin hx with h | ⟨r, hr, -⟩
      · exact h
      · rw [hout] at hr; cases hr
    | some r =>
      obtain ⟨-, hna, rfl, hproof, -⟩ := answerLogin_spec hout
      refine inv_put (o := some (.answered i peer r)) hw ?_ ?_ ?_ ?_ ?_
      · rintro _ ⟨⟩ n ⟨⟩
        exact hnew
      · rintro _ ⟨⟩
        exact ⟨hna, hlen, hpeer, m, hm, hproof⟩
      · rintro _ ⟨⟩
        trivial
      · intro n x hx
        rcases get?_of_answerLogin hx with h | ⟨r', hr', rfl, hxpeer, hprior⟩
        · exact Or.inl h
        · obtain rfl := Option.mem_unique hout hr'
          exact Or.inr (Or.inr ⟨r.proof, by rw [hxpeer, hprior]⟩)
      · rintro _ ⟨⟩ j n ⟨⟩
  | complete i peer frame m now =>
    show Inv K cfg (w.put i (completeLogin K (cfg i) peer frame m now (w.services i)).2 _)
    cases hout : (completeLogin K (cfg i) peer frame m now (w.services i)).1 with
    | none => exact inv_quiet hw fun n x hx => get?_of_completeLogin hx
    | some r =>
      obtain ⟨a, hhead, hparse, hchecks, -, -, hnb, hproof, hspeer, hsid, hpop⟩ := completeLogin_spec hout
      obtain ⟨hagrees, hna⟩ := completed_agrees hK hw hG hout
      refine inv_put (o := some (.completed i peer frame r)) hw ?_ ?_ ?_ ?_ ?_
      · rintro _ ⟨⟩ n ⟨⟩
      · rintro _ ⟨⟩
        exact ⟨hagrees.started, hnb, hG.peer peer rfl, ⟨m, hG.minting m rfl, hproof⟩, ⟨hspeer, hsid⟩,
          hhead, a, hparse, hchecks.2.2.2.1 _ rfl⟩
      · rintro _ ⟨⟩
        exact hagrees
      · intro n x hx
        exact Or.inl (get?_of_completeLogin hx)
      · rintro _ ⟨⟩ j n ⟨⟩
        exact ⟨rfl, by rw [hpop, Dict.get?_pop_self]⟩
  | accept i peer frame stamp now =>
    show Inv K cfg (w.put i (acceptLogin K (cfg i) peer frame stamp now (w.services i)).2 _)
    cases hout : (acceptLogin K (cfg i) peer frame stamp now (w.services i)).1 with
    | none => exact inv_quiet hw fun n x hx => get?_of_acceptLogin hx
    | some r =>
      obtain ⟨a, hhead, hparse, hchecks, -, -, -, -, hpop⟩ := acceptLogin_spec hout
      obtain ⟨hagrees, hanswered⟩ := accepted_agrees hK hw hG hout
      refine inv_put (o := some (.accepted i peer frame r)) hw ?_ ?_ ?_ ?_ ?_
      · rintro _ ⟨⟩ n ⟨⟩
      · rintro _ ⟨⟩
        exact ⟨hanswered, hhead, a, hparse, hchecks.2.2.2.1 _ rfl⟩
      · rintro _ ⟨⟩
        exact hagrees
      · intro n x hx
        exact Or.inl (get?_of_acceptLogin hx)
      · rintro _ ⟨⟩ j n ⟨⟩
        exact ⟨rfl, by rw [hpop, Dict.get?_pop_self]⟩
  | assertTo i audience purpose ctx ttl m =>
    show Inv K cfg (w.put i (w.services i) _)
    cases hout : makeAssertion (cfg i).identity (cfg i).appId audience purpose ctx ttl m with
    | none => exact inv_quiet hw fun n x hx => hx
    | some proof =>
      refine inv_put (o := some (.asserted i proof)) hw ?_ ?_ ?_ ?_ ?_
      · rintro _ ⟨⟩ n ⟨⟩
      · rintro _ ⟨⟩
        exact ⟨audience, purpose, ctx, ttl, m, hG.minting m rfl, hG.purpose purpose rfl, hout⟩
      · rintro _ ⟨⟩
        trivial
      · intro n x hx
        exact Or.inl hx
      · rintro _ ⟨⟩ j n ⟨⟩
  | verify i blob purpose ctx audience stamp | session i sid now | dropSession i sid =>
    exact inv_quiet hw fun n x hx => hx

omit [DecidableEq ι] in
theorem inv_fresh : Inv K cfg (fresh : World ι) := by
  refine ⟨List.nodup_nil, ?_, ?_, ?_, ?_, each_nil⟩
  · intro e he; cases he
  · intro i n e he; cases he
  · intro i peer frame r h; cases h
  · intro i peer frame r h; cases h

theorem inv_run (hK : Sound K cfg) {es : List (Event ι)}
    (h : Guarded (step K cfg) (Ideal K cfg) fresh es) : Inv K cfg (run (step K cfg) fresh es) :=
  Guarded.run_induct (P := Inv K cfg) (fun _ _ hw hG => inv_step hK hw hG) inv_fresh h

end Step

/-! ### One login -/

instance [Fintype ι] (w : World ι) (e : Event ι) : Decidable (Ideal K cfg w e) :=
  decidable_of_iff
    ((∀ n ∈ draws e, n.length = nonceLen ∧ n ∉ w.log.filterMap drew) ∧
      (∀ m ∈ mintings e, m.nonce.length = nonceLen) ∧ (∀ p ∈ peerOf e, p ≠ anyAudience) ∧
      (∀ p ∈ otherPurpose e, p ≠ purposeLogin) ∧
      ∀ a ∈ given e, K.verify a.signedBody a.signature a.subjectPub = true →
        ∀ i, (cfg i).identity.publicKey = a.subjectPub →
          ∃ x ∈ w.log.filterMap signs, (cfg x.1).identity.publicKey = a.subjectPub ∧
            x.2.signedBody = a.signedBody)
    ⟨fun ⟨h1, h2, h3, h4, h5⟩ => ⟨h1, h2, h3, h4, h5⟩,
      fun h => ⟨h.fresh, h.minting, h.peer, h.purpose, h.unforged⟩⟩

/-- Primitives for one login: the digest keeps both nonces of a context, a key of 20 bytes is its own id,
and one byte is the signature of everything. -/
def plain : Primitives where
  sha256 data := (slice data 30 16 ++ slice data 50 16 ++ List.replicate 32 0).take 32
  idOf key := key
  verify _ signature _ := decide (signature = [1])

def pair (i : Bool) : Config where
  identity := ⟨List.replicate 20 (if i then 2 else 1), fun _ _ => [1], by
    rw [List.length_replicate]; decide⟩
  appId := List.replicate 8 7
  nodeId := List.replicate 20 (if i then 2 else 1)
  sessionTtl := 3600
  maxSessions := 512
  appId_length := rfl

theorem pair_sound : Sound plain pair where
  nodeId _ := rfl
  key _ _ h := h
  digest na nb na' nb' hna hnb hna' hnb' h := by
    have hkeeps : ∀ na nb : Bytes, na.length = nonceLen → nb.length = nonceLen →
        plain.sha256 (loginInput na nb) = na ++ nb := by
      intro na nb hna hnb
      have h30 : (loginInput na nb).drop 30 = na ++ (toBE 4 nb.length ++ (nb ++ [])) := by
        simp only [loginInput, ctxInput, List.flatMap_cons, List.flatMap_nil, hna, hnb]
        rfl
      have h46 := drop_of_drop h30 hna
      have h50 := drop_of_drop h46 (length_toBE 4 _)
      have hkept : slice (loginInput na nb) 30 16 ++ slice (loginInput na nb) 50 16 = na ++ nb :=
        congrArg₂ (· ++ ·) (slice_of_drop h30 hna) (slice_of_drop h50 hnb)
      show List.take 32 (slice (loginInput na nb) 30 16 ++ slice (loginInput na nb) 50 16 ++ _) = _
      rw [hkept, List.take_left' (by rw [List.length_append, hna, hnb]; rfl)]
    rw [hkeeps na nb hna hnb, hkeeps na' nb' hna' hnb'] at h
    obtain ⟨rfl, rfl⟩ := List.append_inj h (hna.trans hna'.symm)
    rfl

def minting (n : UInt8) : Minting := ⟨List.replicate 16 n, [], 1000⟩

def proofOf (i : Bool) (na nb : Bytes) (m : Minting) : Bytes :=
  ((loginProof plain (pair i) (pair !i).nodeId na nb m).map serialize).getD []

def oneLogin : List (Event Bool) :=
  let na := List.replicate 16 3
  let nb := List.replicate 16 4
  [.start false (pair true).nodeId na 0,
    .answer true (pair false).nodeId (hello :: na) nb (minting 5) 0,
    .complete false (pair true).nodeId (challenge :: (nb ++ proofOf true na nb (minting 5))) (minting 6) 0,
    .accept true (pair false).nodeId (prove :: proofOf false na nb (minting 6)) 1000 0]

end NMesh.AppAuth.Agreement
