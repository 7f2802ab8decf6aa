import NMesh.Cert.Renewal

/-! # Compaction and revocation

A node signs members below it directly, and remembers the issuers between in its book. Its run is followed beside
the tree of the invitations made (`Grove`): a revocation costs a member its membership if no chain of invitations
it spares leads from the node to the member.

Such a member keeps no certificate of the node's that stands (`Weathered`), where each chain presented runs
through certificates of invitations alone, a revocation heard of a member in the book comes from one of its
ancestors there, and the clock does not go back (`Faithful`). A chain shortened before hides issuers, and a
revocation by a stranger makes the node forget a lineage. -/

namespace NMesh.Cert.Compaction

open Base.BigEndian Base.Runs Base.Ordered NMesh.Cert.Identity NMesh.Cert.Issuing
open NMesh.Cert.Revocation NMesh.Cert.Store NMesh.Cert.Descent NMesh.Cert.Standing
open NMesh.Cert.Renewal NMesh.Cert.Renewal.Issuer

/-! ### Invitations -/

/-- A node invited another at a moment. -/
structure Invitation where
  issuer : NodeID
  subject : NodeID
  issuedAt : ℕ
  deriving DecidableEq

/-- One of the invitations that are `live` is of `b`, by `a`. -/
def Vouches (live : Invitation → Prop) (invitations : List Invitation) (a b : NodeID) : Prop :=
  ∃ i ∈ invitations, live i ∧ i.issuer = a ∧ i.subject = b

/-- A line of invitations leads from `top` down to `m` through `line`, nearest first. -/
def Descends (invitations : List Invitation) (top : NodeID) : NodeID → List NodeID → Prop
  | m, [] => Vouches (fun _ => True) invitations top m
  | m, a :: line => Vouches (fun _ => True) invitations a m ∧ Descends invitations top a line

theorem Vouches.mono {live : Invitation → Prop} {l l' : List Invitation} (hl : l ⊆ l') {a b : NodeID}
    (h : Vouches live l a b) : Vouches live l' a b := by
  obtain ⟨i, hi, h⟩ := h
  exact ⟨i, hl hi, h⟩

theorem Descends.mono {l l' : List Invitation} (hl : l ⊆ l') {top : NodeID} :
    ∀ {line : List NodeID} {m : NodeID}, Descends l top m line → Descends l' top m line
  | [], _, h => Vouches.mono hl h
  | _ :: _, _, h => ⟨h.1.mono hl, Descends.mono hl h.2⟩

/-- A revocation: the issuer no longer vouches for the subject, as of a moment. -/
def Spared (parsed : Parsed) (i : Invitation) : Prop :=
  ¬ (i.issuer = parsed.issuerId ∧ i.subject = parsed.subjectId ∧ i.issuedAt ≤ parsed.issuedAt)

/-- A chain of invitations that the revocation spares leads from `top` to `m`. -/
def Stays (invitations : List Invitation) (parsed : Parsed) (top m : NodeID) : Prop :=
  Relation.ReflTransGen (Vouches (Spared parsed) invitations) top m

theorem vouches_spared {invitations : List Invitation} (parsed : Parsed) {a b : NodeID}
    (h : Vouches (fun _ => True) invitations a b) : Vouches (Spared parsed) invitations a b ∨
      a = parsed.issuerId ∧ b = parsed.subjectId := by
  obtain ⟨i, hi, -, rfl, rfl⟩ := h
  by_cases hs : Spared parsed i
  · exact Or.inl ⟨i, hi, hs, rfl, rfl⟩
  · obtain ⟨h1, h2, -⟩ := not_not.mp hs
    exact Or.inr ⟨h1, h2⟩

/-- **A line that a revocation cuts runs through its subject**, or ends in it right below its issuer. -/
theorem Descends.cut {invitations : List Invitation} {parsed : Parsed} {top : NodeID} :
    ∀ {line : List NodeID} {m : NodeID}, Descends invitations top m line →
      ¬ Stays invitations parsed top m →
        parsed.subjectId ∈ line ∨ parsed.subjectId = m ∧ (parsed.issuerId ∈ line ∨
          line = [] ∧ parsed.issuerId = top)
  | [], m, h, hlost => by
    rcases vouches_spared parsed h with hs | ⟨rfl, rfl⟩
    · exact absurd (Relation.ReflTransGen.single hs) hlost
    · exact Or.inr ⟨rfl, Or.inr ⟨rfl, rfl⟩⟩
  | a :: line, m, h, hlost => by
    obtain ⟨hedge, hline⟩ := h
    rcases vouches_spared parsed hedge with hs | ⟨rfl, rfl⟩
    · have hlost' : ¬ Stays invitations parsed top a := fun hstays => hlost (hstays.tail hs)
      rcases hline.cut hlost' with hmem | ⟨rfl, -⟩
      · exact Or.inl (List.mem_cons_of_mem a hmem)
      · exact Or.inl List.mem_cons_self
    · exact Or.inr ⟨rfl, Or.inl List.mem_cons_self⟩

/-! ### The node beside the invitations -/

variable {K : Crypto}

/-- A node and the invitations made so far, at the clock's last reading. -/
structure Grove (K : Crypto) where
  node : Issuer K
  invitations : List Invitation
  clock : ℕ

inductive Act (K : Crypto)
  /-- Another node invites one. -/
  | vouch (issuer subject : NodeID) (issuedAt : ℕ)
  | invite (subjectId : NodeID) (subjectPub : Bytes)
  | chainCompaction (src : NodeID) (size : ℕ) (chain : Option (List (Certificate K)))
  | certRevoke (allowed : Bool) (raw : Bytes)
  | consoleRevokeMember (subject : NodeID) (reason : ℕ)
  | store (op : StoreOp K)

def Act.event : Act K → Option (Event K)
  | .vouch _ _ _ => none
  | .invite subjectId subjectPub => some (.invite subjectId subjectPub)
  | .chainCompaction src size chain => some (.chainCompaction src size chain)
  | .certRevoke allowed raw => some (.certRevoke allowed raw)
  | .consoleRevokeMember subject reason => some (.consoleRevokeMember subject reason)
  | .store op => some (.store op)

def Act.invitation (me : Identity K) (env : Env) : Act K → List Invitation
  | .vouch issuer subject issuedAt => if issuer = me.id then [] else [⟨issuer, subject, issuedAt⟩]
  | .invite subjectId subjectPub => if (me.issueCert subjectId subjectPub env.stamp).isSome then
      [⟨me.id, subjectId, env.stamp⟩] else []
  | _ => []

namespace Grove

def new (me : Identity K) (maxSubjects maxPerSubject maxRevocations : ℕ) : Grove K :=
  ⟨Issuer.new me maxSubjects maxPerSubject maxRevocations, [], 0⟩

def step (me : Identity K) (g : Grove K) (act : Env × Act K) : Grove K where
  node := match act.2.event with
    | none => g.node
    | some event => g.node.step me (act.1, event)
  invitations := g.invitations ++ act.2.invitation me act.1
  clock := act.1.stamp

end Grove

/-- The revocation that an act makes the node take in: one it hears, or one of its operator's. -/
def taken (me : Identity K) (g : Grove K) (act : Env × Act K) : Option Parsed :=
  match act.2 with
  | .certRevoke allowed raw =>
    if !allowed then none else if raw = [] ∨ maxRecord < raw.length then none
    else (g.node.absorb raw).1
  | .consoleRevokeMember subject reason =>
    if subject = me.id then none
    else (Revocation.build subject me.dsaPublicKey me.sign reason act.1.stamp).bind fun raw =>
      (g.node.absorb raw).1
  | _ => none

/-- **A revocation reaches whom it would have reached without compaction**: once it was passed on, no
certificate the node signed for a member that it costs its membership stands. -/
def Weathered (me : Identity K) (g : Grove K) (act : Env × Act K) : Prop :=
  ∀ parsed, taken me g act = some parsed → ∀ m, m ≠ me.id →
    ¬ Stays g.invitations parsed me.id m →
      ∀ cert ∈ (g.step me act).node.signedFor m, (g.step me act).node.certs.isRevoked cert = true

def Invited (invitations : List Invitation) (cert : Certificate K) : Prop :=
  ⟨cert.issuerId, cert.subjectId, cert.issuedAt⟩ ∈ invitations

instance (invitations : List Invitation) (cert : Certificate K) : Decidable (Invited invitations cert) := by
  unfold Invited; infer_instance

/-- **What the acts are to be.** The clock does not go back. Of a chain that is served, every certificate
below us is of an invitation. A revocation taken in that was heard of a member in the book is by one of its
ancestors there. -/
def Faithful (me : Identity K) (g : Grove K) (act : Env × Act K) : Prop :=
  (g.clock ≤ act.1.stamp ∧ act.1.stamp < 256 ^ 8) ∧
    match act.2 with
    | .chainCompaction src size chain => ∀ member above position, chain = some (member :: above) →
        Compactable me act.1 src size member above position g.node →
          ∀ cert ∈ member :: above.take (position - 1), Invited g.invitations cert
    | .certRevoke _ _ => ∀ parsed, taken me g act = some parsed →
        parsed.subjectId.raw ∈ g.node.lineage.bySubject.keys →
          parsed.issuerId.raw ∈ g.node.lineage.ancestors parsed.subjectId.raw
    | _ => True

/-! ### The chain presented -/

theorem linked_of_verifyChain {certs : CertStore K} {chain : List (Certificate K)} {clock : ℕ}
    (h : certs.verifyChain chain clock ≠ none) :
    ∀ p ∈ chain.zip chain.tail, p.1.issuerId = p.2.subjectId := by
  intro p hp
  by_contra hne
  refine h ?_
  unfold CertStore.verifyChain
  have hall : (chain.zip chain.tail).all (fun p => decide (p.1.issuerId = p.2.subjectId) &&
      decide (p.1.issuerPub = p.2.subjectPub)) = false := by
    refine Bool.eq_false_iff.mpr fun hall => ?_
    have := List.all_eq_true.mp hall p hp
    rw [Bool.and_eq_true, decide_eq_true_eq] at this
    exact hne this.1
  rw [hall]
  split_ifs <;> simp at *

/-- **A chain of invitations' certificates that runs through us is a line of invitations.** -/
theorem descends_of_chain {me : Identity K} {invitations : List Invitation} :
    ∀ {above : List (Certificate K)} {member : Certificate K} {index : ℕ},
      above.findIdx? (fun c => c.subjectId = me.id) = some index →
      (∀ p ∈ (member :: above).zip above, p.1.issuerId = p.2.subjectId) →
      (∀ cert ∈ member :: above.take index, Invited invitations cert) →
      Descends invitations me.id member.subjectId ((above.take index).map Certificate.subjectId) ∧
        me.id ∉ (above.take index).map Certificate.subjectId
  | [], _, _, hfind, _, _ => by cases hfind
  | c :: above, member, index, hfind, hlinked, hinvited => by
    have hissuer : member.issuerId = c.subjectId := hlinked (member, c) (by simp)
    have hedge : Vouches (fun _ => True) invitations c.subjectId member.subjectId :=
      ⟨_, hinvited member List.mem_cons_self, trivial, hissuer, rfl⟩
    rw [List.findIdx?_cons] at hfind
    by_cases hc : c.subjectId = me.id
    · rw [if_pos (decide_eq_true hc)] at hfind
      cases hfind
      exact ⟨hc ▸ hedge, List.not_mem_nil⟩
    · rw [if_neg (by simpa using hc), Option.map_eq_some_iff] at hfind
      obtain ⟨below, hfind, rfl⟩ := hfind
      rw [List.take_succ_cons] at hinvited ⊢
      obtain ⟨hline, hnot⟩ := @descends_of_chain _ _ above c below hfind
        (fun p hp => hlinked p (List.mem_cons_of_mem _ hp))
        (fun cert hcert => hinvited cert (List.mem_cons_of_mem _ hcert))
      refine ⟨⟨hedge, hline⟩, fun hmem => ?_⟩
      rcases List.mem_cons.mp hmem with he | hmem
      · exact hc he.symm
      · exact hnot hmem

/-! ### Passing a revocation on -/

/-- **The node's signer**: its signatures verify under its key, and they and the key fit a record. -/
structure Signer (me : Identity K) : Prop where
  verifies : ∀ message, K.verify message (me.sign message) me.dsaPublicKey = true
  pub : 0 < me.dsaPublicKey.length ∧ me.dsaPublicKey.length ≤ maxPubkey
  signature : ∀ stamp (subject : NodeID) reason,
    0 < (me.sign (signingInput stamp subject.raw reason)).length ∧
      (me.sign (signingInput stamp subject.raw reason)).length ≤ maxSig

/-- Our own revocation of `m` is held, as of `stamp` or later. -/
def Revokes (me : Identity K) (certs : CertStore K) (m : NodeID) (stamp : ℕ) : Prop :=
  ∃ held, certs.revoked.get? (me.id, m) = some held ∧ stamp ≤ held.issuedAt

variable {me : Identity K} {env : Env} {s : Issuer K}

variable {cert : Certificate K} {m : NodeID}

theorem Revokes.stands {certs certs' : CertStore K} {stamp : ℕ}
    (h : Revokes me certs m stamp) (hs : Stands me.id certs certs') : Revokes me certs' m stamp := by
  obtain ⟨held, hheld, hle⟩ := h
  obtain ⟨held', hheld', hle'⟩ := hs m held hheld
  exact ⟨held', hheld', hle.trans hle'⟩

theorem Revokes.isRevoked {certs : CertStore K} {stamp : ℕ}
    (h : Revokes me certs cert.subjectId stamp) (hissuer : cert.issuerId = me.id)
    (hle : cert.issuedAt ≤ stamp) : certs.isRevoked cert = true := by
  obtain ⟨held, hheld, hstamp⟩ := h
  exact isRevoked_of_held (by rw [hissuer]; exact hheld) (hle.trans hstamp)

theorem certs_absorb (record : Bytes) : (s.absorb record).2.certs = (s.certs.revoke record).2 := by
  unfold absorb
  rcases s.certs.revoke record with ⟨_ | parsed, certs⟩ <;> rfl

theorem absorb_fst (record : Bytes) : (s.absorb record).1 = (s.certs.revoke record).1 := by
  unfold absorb
  rcases s.certs.revoke record with ⟨_ | parsed, certs⟩ <;> rfl

theorem lineage_absorb (record : Bytes) : (s.absorb record).2.lineage = s.lineage := by
  unfold absorb
  rcases s.certs.revoke record with ⟨_ | parsed, certs⟩ <;> rfl

theorem lineage_takeBack (raw : Bytes) :
    (s.takeBack me env raw).lineage = s.lineage.forget raw := by
  unfold takeBack
  dsimp only
  split
  · rfl
  · split_ifs
    · rfl
    · split
      · rfl
      · exact lineage_absorb _

/-- **Taking a member back holds our own revocation of it**, as of now. -/
theorem revokes_takeBack (hsigner : Signer me) (hown : Own me.id s.certs)
    (hstamp : env.stamp < 256 ^ 8) (hne : m ≠ me.id) :
    Revokes me (s.takeBack me env m.raw).certs m env.stamp := by
  obtain ⟨record, hrecord⟩ := @build_eq_some m _ _ 0 _ hstamp hsigner.pub.2
    fun reason => (hsigner.signature env.stamp m reason).2
  obtain ⟨reason, hparse⟩ := parse_build (K := K) hrecord hsigner.verifies hsigner.pub.1
    (fun reason => (hsigner.signature env.stamp m reason).1) hne.symm
  unfold takeBack
  dsimp only
  rw [NodeID.ofRaw_raw]
  dsimp only
  rw [if_neg hne, hrecord]
  dsimp only
  rw [certs_absorb]
  exact revoke_holds hparse hown.root

theorem get?_foldl_takeBack {raw : Bytes} : ∀ {raws : List Bytes} {s : Issuer K}, raw ∉ raws →
    (raws.foldl (takeBack me env) s).lineage.bySubject.get? raw = s.lineage.bySubject.get? raw
  | [], _, _ => rfl
  | raw' :: raws, s, h => by
    rw [List.mem_cons, not_or] at h
    rw [List.foldl_cons, get?_foldl_takeBack h.2, lineage_takeBack]
    exact Dict.get?_pop_of_ne _ h.1

theorem revokes_foldl_takeBack (hsigner : Signer me) (hstamp : env.stamp < 256 ^ 8)
    (hne : m ≠ me.id) : ∀ {raws : List Bytes} {s : Issuer K}, Own me.id s.certs → m.raw ∈ raws →
      Revokes me (raws.foldl (takeBack me env) s).certs m env.stamp
  | [], _, _, h => by cases h
  | raw :: raws, s, hown, h => by
    have hquiet : Quiet me s (s.takeBack me env raw) := Quiet.takeBack raw
    rw [List.foldl_cons]
    by_cases hraw : m.raw = raw
    · subst hraw
      exact (revokes_takeBack hsigner hown hstamp hne).stands
        ((Quiet.foldl_takeBack raws _).stands (hquiet.own hown))
    · exact revokes_foldl_takeBack hsigner hstamp hne (hquiet.own hown)
        ((List.mem_cons.mp h).resolve_left hraw)

/-- **Passing a revocation on takes back every member it affects.** -/
theorem revokes_cascade (hsigner : Signer me) (hown : Own me.id s.certs) (hstamp : env.stamp < 256 ^ 8)
    {subject issuer m : NodeID} (hne : m ≠ me.id) (h : m.raw ∈ affected me subject issuer s.lineage) :
    Revokes me (s.cascadeRevocation me env subject issuer).certs m env.stamp := by
  unfold cascadeRevocation
  split_ifs with hsize
  · have hnil : s.lineage.bySubject.entries = [] := List.length_eq_zero_iff.mp hsize
    unfold affected Lineage.descendants Lineage.ancestors Dict.get? at h
    rw [hnil] at h
    simp [getL] at h
  · exact revokes_foldl_takeBack hsigner hstamp hne
      (s := { s with lineage := s.lineage.forget subject.raw }) hown (List.mem_eraseDups.mpr h)

theorem get?_cascade {subject issuer : NodeID} {raw : Bytes} (hne : raw ≠ subject.raw)
    (h : raw ∉ affected me subject issuer s.lineage) :
    (s.cascadeRevocation me env subject issuer).lineage.bySubject.get? raw =
      s.lineage.bySubject.get? raw := by
  unfold cascadeRevocation
  split_ifs
  · rfl
  · rw [get?_foldl_takeBack fun hmem => h (List.mem_eraseDups.mp hmem)]
    exact Dict.get?_pop_of_ne _ hne

/-! ### What a signed certificate rests on -/

/-- A certificate of ours was taken back; or it is of our own invitation; or its subject is in the book, on
a line of invitations. -/
def Based (me : Identity K) (g : Grove K) (cert : Certificate K) : Prop :=
  g.node.certs.isRevoked cert = true ∨ Invited g.invitations cert ∨
    ∃ line : List NodeID, line ≠ [] ∧ me.id ∉ line ∧
      g.node.lineage.bySubject.get? cert.subjectId.raw = some (line.map NodeID.raw) ∧
      Descends g.invitations me.id cert.subjectId line

/-- **Every certificate the node signed for another rests on something.** -/
structure Rooted (me : Identity K) (g : Grove K) : Prop where
  own : Own me.id g.node.certs
  ours : ∀ cert ∈ g.node.signed, cert.issuerId = me.id ∧ cert.issuedAt ≤ g.clock
  based : ∀ cert ∈ g.node.signed, cert.subjectId ≠ me.id → Based me g cert

variable {g g' : Grove K}

theorem Based.mono (h : Based me g cert) (hissuer : cert.issuerId = me.id)
    (hstands : Stands me.id g.node.certs g'.node.certs) (hinv : g.invitations ⊆ g'.invitations)
    (hbook : g'.node.lineage.bySubject.get? cert.subjectId.raw =
      g.node.lineage.bySubject.get? cert.subjectId.raw) : Based me g' cert := by
  rcases h with hrev | hdirect | ⟨line, hne, hnot, hget, hline⟩
  · exact Or.inl (hstands.isRevoked hissuer hrev)
  · exact Or.inr (Or.inl (hinv hdirect))
  · exact Or.inr (Or.inr ⟨line, hne, hnot, hbook.trans hget, hline.mono hinv⟩)

theorem Rooted.quiet (h : Rooted me g) (hq : Quiet me g.node g'.node)
    (hbook : g'.node.lineage = g.node.lineage) (hinv : g.invitations ⊆ g'.invitations)
    (hclock : g.clock ≤ g'.clock) : Rooted me g' where
  own := hq.own h.own
  ours cert hcert := by
    rw [hq.signed] at hcert
    exact ⟨(h.ours cert hcert).1, (h.ours cert hcert).2.trans hclock⟩
  based cert hcert hne := by
    rw [hq.signed] at hcert
    exact (h.based cert hcert hne).mono (h.ours cert hcert).1 (hq.stands h.own) hinv (by rw [hbook])

theorem Rooted.certify (h : Rooted me g) {effect : Certificate K → Effect K} {pub : Bytes}
    (heffect : ∀ cert, (effect cert).signed = some cert) (hclock : g.clock = env.stamp)
    (hfresh : ∀ fresh, me.issueCert m pub env.stamp = some fresh → Based me g fresh) :
    Rooted me { g with node := g.node.certify me env effect m pub } := by
  rcases certify_cases me env effect m pub g.node with ⟨-, he⟩ | ⟨fresh, hsome, he⟩ <;> rw [he]
  · exact h
  · have hstands : Stands me.id g.node.certs (g.node.certs.add fresh env.stamp).2 :=
      .of_eq (revoked_add _ fresh env.stamp)
    obtain ⟨-, -, hissuer, -, hstamp, -⟩ := Identity.of_issueCert hsome
    have hsigned : ∀ cert ∈ Issuer.signed { g.node with
        certs := (g.node.certs.add fresh env.stamp).2, log := g.node.log ++ [effect fresh] },
        cert ∈ g.node.signed ∨ cert = fresh := by
      intro cert hcert
      unfold Issuer.signed at hcert
      dsimp only at hcert
      rw [List.filterMap_append, List.filterMap_cons_some (heffect fresh)] at hcert
      simpa [Issuer.signed] using hcert
    refine ⟨h.own.add fresh env.stamp, fun cert hcert => ?_, fun cert hcert hne => ?_⟩
    · rcases hsigned cert hcert with hold | rfl
      · exact h.ours cert hold
      · exact ⟨hissuer, (hstamp.trans hclock.symm).le⟩
    · rcases hsigned cert hcert with hold | rfl
      · exact (h.based cert hold hne).mono (h.ours cert hold).1 hstands (List.Subset.refl _) rfl
      · exact (hfresh cert hsome).mono hissuer hstands (List.Subset.refl _) rfl

section Enrol

variable {node : Issuer K} {m : NodeID} {line : List NodeID}

theorem based_of_recorded (hline : line ≠ [] ∧ me.id ∉ line ∧ Descends g.invitations me.id m line)
    (hbook : node.lineage.bySubject = g.node.lineage.bySubject.set m.raw (line.map NodeID.raw))
    (hcert : cert.subjectId = m) : Based me { g with node := node } cert := by
  obtain ⟨hne, hnot, hdescends⟩ := hline
  refine Or.inr (Or.inr ⟨line, hne, hnot, ?_, hcert ▸ hdescends⟩)
  dsimp only
  rw [hbook, hcert]
  exact Dict.get?_set_self _ _ _

theorem Rooted.enrol (h : Rooted me g) (hq : Quiet me g.node node)
    (hline : line ≠ [] ∧ me.id ∉ line ∧ Descends g.invitations me.id m line)
    (hbook : node.lineage.bySubject = g.node.lineage.bySubject.set m.raw (line.map NodeID.raw)) :
    Rooted me { g with node := node } where
  own := hq.own h.own
  ours cert hcert := by
    rw [hq.signed] at hcert
    exact h.ours cert hcert
  based cert hcert hother := by
    rw [hq.signed] at hcert
    by_cases hsame : cert.subjectId = m
    · exact based_of_recorded hline hbook hsame
    · refine (h.based cert hcert hother).mono (h.ours cert hcert).1 (hq.stands h.own)
        (List.Subset.refl _) ?_
      dsimp only
      rw [hbook]
      exact Dict.get?_set_of_ne _ (fun he => hsame (NodeID.ext he.symm)) _

end Enrol

/-- **A chain of invitations' certificates is served**: its line is recorded, and the member signed. -/
theorem Rooted.compact (h : Rooted me g) (hclock : g.clock = env.stamp) {src : NodeID} {size : ℕ}
    {member : Certificate K} {above : List (Certificate K)} {position : ℕ}
    (hpass : Compactable me env src size member above position g.node)
    (hinvited : ∀ cert ∈ member :: above.take (position - 1), Invited g.invitations cert) :
    Rooted me { g with
      node := (((g.node.looked me env).claimed src env.monotonic).enrolled src
        (ancestorsBelow (member :: above) position)).certify me env .renewed src member.subjectPub } := by
  obtain ⟨index, hfind, rfl⟩ := Option.map_eq_some_iff.mp hpass.runs
  rw [Nat.add_sub_cancel] at hinvited
  obtain ⟨hdescends, hnot⟩ := descends_of_chain hfind
    (fun p hp => linked_of_verifyChain hpass.holds p hp) hinvited
  set line := (above.take index).map Certificate.subjectId with hlinedef
  have hancestors : ancestorsBelow (member :: above) (index + 1) = line.map NodeID.raw := by
    unfold ancestorsBelow
    rw [hlinedef, List.map_map]
    rfl
  obtain ⟨hlineal, hset⟩ := Lineage.record_granted hpass.recorded
  rw [hancestors] at hlineal hset
  have hne : line ≠ [] := fun he => hlineal.2.1 (by rw [he]; rfl)
  obtain rfl := hpass.theirs
  rw [hancestors]
  set node := ((g.node.looked me env).claimed member.subjectId env.monotonic).enrolled
    member.subjectId (line.map NodeID.raw) with hnode
  have hbook : node.lineage.bySubject =
      g.node.lineage.bySubject.set member.subjectId.raw (line.map NodeID.raw) := by
    rw [hnode]
    unfold enrolled
    rw [claimed_frame]
    exact hset
  have hquiet : Quiet me g.node node := by
    rw [hnode]
    unfold enrolled
    rw [claimed_frame]
    exact Quiet.looked _ _
  exact (h.enrol hquiet ⟨hne, hnot, hdescends⟩ hbook).certify (fun _ => rfl) hclock
    fun fresh hfresh => based_of_recorded ⟨hne, hnot, hdescends⟩ hbook (Identity.of_issueCert hfresh).1

/-! ### A revocation taken in -/

/-- The revocation is our own, of now; or of no member in the book but by one of its ancestors there. -/
def Entitled (me : Identity K) (env : Env) (s : Issuer K) (parsed : Parsed) : Prop :=
  parsed.issuerId = me.id ∧ parsed.issuedAt = env.stamp ∨
    (parsed.subjectId.raw ∈ s.lineage.bySubject.keys →
      parsed.issuerId.raw ∈ s.lineage.ancestors parsed.subjectId.raw)

variable {parsed : Parsed} {record : Bytes}

theorem raw_mem_map {line : List NodeID} (h : m.raw ∈ line.map NodeID.raw) : m ∈ line := by
  obtain ⟨a, ha, he⟩ := List.mem_map.mp h
  rwa [← NodeID.ext he]

theorem affected_of_cut {book : Lineage} {line : List NodeID}
    (hline : line ≠ [] ∧ me.id ∉ line)
    (hget : book.bySubject.get? m.raw = some (line.map NodeID.raw))
    (hcut : parsed.subjectId ∈ line ∨ parsed.subjectId = m ∧ parsed.issuerId ∈ line) :
    m.raw ∈ affected me parsed.subjectId parsed.issuerId book := by
  have hancestors : book.ancestors m.raw = line.map NodeID.raw := by
    unfold Lineage.ancestors
    rw [hget]
    rfl
  unfold affected
  dsimp only
  rcases hcut with hmem | ⟨hm, hmem⟩
  · have hbelow : m.raw ∈ book.descendants parsed.subjectId.raw := by
      rw [Lineage.mem_descendants, hancestors]
      exact List.mem_map_of_mem hmem
    split_ifs
    · exact List.mem_cons_of_mem _ hbelow
    · exact hbelow
  · rw [hm, if_pos ⟨fun he => hline.2 (he ▸ hmem), by
      rw [hancestors]
      exact List.mem_map_of_mem hmem⟩]
    exact List.mem_cons_self

section Taken

variable (hsigner : Signer me) (h : Rooted me g) (hclock : g.clock ≤ env.stamp)
  (hstamp : env.stamp < 256 ^ 8) (htaken : (g.node.absorb record).1 = some parsed)

include hsigner h hclock hstamp in
theorem isRevoked_of_affected (hcert : cert ∈ g.node.signed)
    (hother : cert.subjectId ≠ me.id)
    (haffected : cert.subjectId.raw ∈
      affected me parsed.subjectId parsed.issuerId g.node.lineage) :
    (((g.node.absorb record).2).cascadeRevocation me env parsed.subjectId
      parsed.issuerId).certs.isRevoked cert = true := by
  have hquiet : Quiet me g.node (g.node.absorb record).2 := .absorb record
  obtain ⟨hissuer, hle⟩ := h.ours cert hcert
  refine (revokes_cascade hsigner (hquiet.own h.own) hstamp hother ?_).isRevoked hissuer
    (hle.trans hclock)
  rw [lineage_absorb]
  exact haffected

include h htaken in
theorem isRevoked_of_own (hcert : cert ∈ g.node.signed)
    (hissuer : parsed.issuerId = me.id) (hsubject : parsed.subjectId = cert.subjectId)
    (hle : cert.issuedAt ≤ parsed.issuedAt) :
    (((g.node.absorb record).2).cascadeRevocation me env parsed.subjectId
      parsed.issuerId).certs.isRevoked cert = true := by
  have hquiet : Quiet me g.node (g.node.absorb record).2 := .absorb record
  have hparse : parse K record = some parsed := parse_of_revoke (by rw [← absorb_fst]; exact htaken)
  obtain ⟨held, hheld, hmoment⟩ := revoke_holds hparse (s := g.node.certs)
    (by rw [hissuer]; exact h.own.root)
  have hrevokes : Revokes me (g.node.absorb record).2.certs cert.subjectId parsed.issuedAt := by
    rw [certs_absorb]
    exact ⟨held, by rw [← hissuer, ← hsubject]; exact hheld, hmoment⟩
  exact (hrevokes.stands ((Quiet.cascadeRevocation _ _).stands (hquiet.own h.own))).isRevoked
    (h.ours cert hcert).1 hle

include hsigner h hclock hstamp htaken in
/-- **A revocation that was taken in and passed on reaches whom it costs the membership.** -/
theorem isRevoked_of_lost (hcert : cert ∈ g.node.signed)
    (hother : cert.subjectId ≠ me.id)
    (hlost : ¬ Stays g.invitations parsed me.id cert.subjectId) :
    (((g.node.absorb record).2).cascadeRevocation me env parsed.subjectId
      parsed.issuerId).certs.isRevoked cert = true := by
  obtain ⟨hissuer, -⟩ := h.ours cert hcert
  have hquiet : Quiet me g.node (((g.node.absorb record).2).cascadeRevocation me env parsed.subjectId
      parsed.issuerId) := (Quiet.absorb record).trans (.cascadeRevocation _ _)
  rcases h.based cert hcert hother with hrev | hdirect | ⟨line, hne, hnot, hget, hline⟩
  · exact (hquiet.stands h.own).isRevoked hissuer hrev
  · -- the invitation itself is a chain, so the revocation is of it
    have hkilled : ¬ Spared parsed ⟨cert.issuerId, cert.subjectId, cert.issuedAt⟩ := fun hs =>
      hlost (.single ⟨_, hdirect, hs, hissuer, rfl⟩)
    obtain ⟨h1, h2, h3⟩ := not_not.mp hkilled
    exact isRevoked_of_own h htaken hcert (h1.symm.trans hissuer) h2.symm h3
  · refine isRevoked_of_affected hsigner h hclock hstamp hcert hother ?_
    refine affected_of_cut ⟨hne, hnot⟩ hget ?_
    rcases hline.cut hlost with hmem | ⟨hm, hmem | ⟨hnil, -⟩⟩
    · exact Or.inl hmem
    · exact Or.inr ⟨hm, hmem⟩
    · exact absurd hnil hne

include hsigner h hclock hstamp htaken in
theorem Rooted.passed (hentitled : Entitled me env g.node parsed) {g' : Grove K}
    (hnode : g'.node = ((g.node.absorb record).2).cascadeRevocation me env parsed.subjectId
      parsed.issuerId) (hinv : g.invitations ⊆ g'.invitations) (hclock' : g'.clock = env.stamp) :
    Rooted me g' := by
  have hquiet : Quiet me g.node g'.node := by
    rw [hnode]
    exact (Quiet.absorb record).trans (.cascadeRevocation _ _)
  refine ⟨hquiet.own h.own, fun cert hcert => ?_, fun cert hcert hother => ?_⟩
  · rw [hquiet.signed] at hcert
    exact ⟨(h.ours cert hcert).1, (h.ours cert hcert).2.trans (hclock'.symm ▸ hclock)⟩
  rw [hquiet.signed] at hcert
  obtain ⟨hissuer, hle⟩ := h.ours cert hcert
  by_cases haffected : cert.subjectId.raw ∈
      affected me parsed.subjectId parsed.issuerId g.node.lineage
  · left
    rw [hnode]
    exact isRevoked_of_affected hsigner h hclock hstamp hcert hother haffected
  by_cases hsubject : cert.subjectId = parsed.subjectId
  · -- the subject's own lineage is forgotten
    rcases h.based cert hcert hother with hrev | hdirect | ⟨line, hne, hnot, hget, -⟩
    · exact Or.inl ((hquiet.stands h.own).isRevoked hissuer hrev)
    · exact Or.inr (Or.inl (hinv hdirect))
    · rcases hentitled with ⟨hown, hnow⟩ | hancestor
      · left
        rw [hnode]
        exact isRevoked_of_own h htaken hcert hown hsubject.symm
          (hnow.symm ▸ hle.trans hclock)
      · have hmem := hancestor (by rw [← hsubject]; exact Dict.mem_keys_of_get? hget)
        rw [← hsubject] at hmem
        unfold Lineage.ancestors at hmem
        rw [hget, Option.getD_some] at hmem
        exact absurd (affected_of_cut ⟨hne, hnot⟩ hget (Or.inr ⟨hsubject.symm, raw_mem_map hmem⟩))
          haffected
  · refine (h.based cert hcert hother).mono hissuer (hquiet.stands h.own) hinv ?_
    rw [hnode, get?_cascade (fun he => hsubject (NodeID.ext he)) (by rw [lineage_absorb]; exact haffected),
      lineage_absorb]

end Taken

/-! ### The step and the run -/

theorem step_of_taken (hsigner : Signer me) {act : Act K} (h : taken me g (env, act) = some parsed) :
    ∃ record, (g.node.absorb record).1 = some parsed ∧
      (g.step me (env, act)).node = ((g.node.absorb record).2).cascadeRevocation me env
        parsed.subjectId parsed.issuerId ∧
      (act = .certRevoke true record ∨ parsed.issuerId = me.id ∧ parsed.issuedAt = env.stamp) := by
  cases act with
  | vouch issuer subject issuedAt | invite subjectId subjectPub | chainCompaction src size chain | store op =>
    cases h
  | certRevoke allowed raw =>
    unfold taken at h
    dsimp only at h
    split_ifs at h with hallowed hlong
    rw [Bool.not_eq_true', Bool.not_eq_false] at hallowed
    subst hallowed
    refine ⟨raw, h, ?_, Or.inl rfl⟩
    show g.node.handleCertRevoke me env true raw = _
    unfold handleCertRevoke
    rw [if_neg (by simp), if_neg hlong]
    rcases ha : g.node.absorb raw with ⟨_ | parsed', s1⟩
    · rw [ha] at h
      cases h
    · rw [ha] at h
      cases h
      rfl
  | consoleRevokeMember subject reason =>
    unfold taken at h
    dsimp only at h
    split_ifs at h with hself
    obtain ⟨raw, hbuild, h⟩ := Option.bind_eq_some_iff.mp h
    obtain ⟨reason', hparse⟩ := parse_build (K := K) hbuild hsigner.verifies hsigner.pub.1
      (fun reason => (hsigner.signature env.stamp subject reason).1) (Ne.symm hself)
    have hparsed : parse K raw = some parsed := parse_of_revoke (by rw [← absorb_fst]; exact h)
    obtain rfl := Option.mem_unique hparse hparsed
    refine ⟨raw, h, ?_, Or.inr ⟨rfl, rfl⟩⟩
    show g.node.consoleRevokeMember me env subject reason = _
    unfold consoleRevokeMember
    rw [if_neg hself, hbuild]
    dsimp only
    rcases ha : g.node.absorb raw with ⟨_ | parsed', s1⟩
    · rw [ha] at h
      cases h
    · rfl

theorem lineage_of_not_taken {act : Act K} (h : taken me g (env, act) = none)
    (hact : (∃ allowed raw, act = .certRevoke allowed raw) ∨
      ∃ subject reason, act = .consoleRevokeMember subject reason) :
    (g.step me (env, act)).node.lineage = g.node.lineage := by
  rcases hact with ⟨allowed, raw, rfl⟩ | ⟨subject, reason, rfl⟩
  · show (g.node.handleCertRevoke me env allowed raw).lineage = g.node.lineage
    unfold taken at h
    dsimp only at h
    unfold handleCertRevoke
    split_ifs at h ⊢
    · rfl
    · rfl
    · have hbook := lineage_absorb (s := g.node) raw
      rcases ha : g.node.absorb raw with ⟨_ | parsed, s1⟩
      · rw [ha] at hbook
        exact hbook
      · rw [ha] at h
        cases h
  · show (g.node.consoleRevokeMember me env subject reason).lineage = g.node.lineage
    unfold taken at h
    dsimp only at h
    unfold consoleRevokeMember
    split_ifs at h ⊢
    · rfl
    · cases hbuild : Revocation.build subject me.dsaPublicKey me.sign reason env.stamp with
      | none => rfl
      | some raw =>
        rw [hbuild, Option.bind_some] at h
        have hbook := lineage_absorb (s := g.node) raw
        dsimp only
        rcases ha : g.node.absorb raw with ⟨_ | parsed, s1⟩
        · rw [ha] at hbook
          exact hbook
        · rw [ha] at h
          cases h

theorem subset_step (act : Env × Act K) : g.invitations ⊆ (g.step me act).invitations :=
  List.subset_append_left _ _

/-- **Every faithful act keeps the certificates resting on something.** -/
theorem Rooted.step (hsigner : Signer me) (h : Rooted me g) {act : Env × Act K}
    (hf : Faithful me g act) : Rooted me (g.step me act) := by
  obtain ⟨env, act⟩ := act
  obtain ⟨⟨hclock, hstamp⟩, hf⟩ := hf
  have hrevocation (hact : (∃ allowed raw, act = .certRevoke allowed raw) ∨
      ∃ subject reason, act = .consoleRevokeMember subject reason)
      (hquiet : Quiet me g.node (g.step me (env, act)).node) : Rooted me (g.step me (env, act)) := by
    cases htaken : taken me g (env, act) with
    | none =>
      exact h.quiet hquiet (lineage_of_not_taken htaken hact) (subset_step _) hclock
    | some parsed =>
      obtain ⟨record, habsorb, hnode, hheard⟩ := step_of_taken hsigner htaken
      refine h.passed hsigner hclock hstamp habsorb ?_ hnode (subset_step _) rfl
      rcases hheard with rfl | hown
      · exact Or.inr (hf parsed htaken)
      · exact Or.inl hown
  cases act with
  | vouch issuer subject issuedAt => exact h.quiet (.refl me _) rfl (subset_step _) hclock
  | invite subjectId subjectPub =>
    have hgrown : Rooted me ⟨g.node, (g.step me (env, .invite subjectId subjectPub)).invitations,
        env.stamp⟩ := h.quiet (.refl me _) rfl (subset_step _) hclock
    refine hgrown.certify (fun _ => rfl) rfl fun fresh hfresh => Or.inr (Or.inl ?_)
    obtain ⟨hsubject, -, hissuer, -, hissuedAt, -⟩ := Identity.of_issueCert hfresh
    unfold Invited
    refine List.mem_append_right _ ?_
    unfold Act.invitation
    dsimp only
    rw [hfresh, if_pos Option.isSome_some, hsubject, hissuer, hissuedAt]
    exact List.mem_singleton_self _
  | chainCompaction src size chain =>
    have hlater : Rooted me ⟨g.node, g.invitations ++ [], env.stamp⟩ :=
      h.quiet (.refl me _) rfl (by simp) hclock
    by_cases hpass : ∃ member above position, chain = some (member :: above) ∧
        Compactable me env src size member above position g.node
    · obtain ⟨member, above, position, rfl, hpass⟩ := hpass
      have hcompact := hlater.compact rfl hpass (by simpa using hf member above position rfl hpass)
      rw [← serveChainCompaction_served hpass] at hcompact
      exact hcompact
    · obtain ⟨hquiet, hbook⟩ := @quiet_serveChainCompaction _ me env _ src size _
        fun member above position hc hr => hpass ⟨member, above, position, hc, hr⟩
      exact @Rooted.quiet _ _ _ (g.step me (env, .chainCompaction src size chain)) hlater hquiet hbook
        (List.Subset.refl _) le_rfl
  | certRevoke allowed raw =>
    exact hrevocation (Or.inl ⟨allowed, raw, rfl⟩) (Quiet.handleCertRevoke allowed raw)
  | consoleRevokeMember subject reason =>
    exact hrevocation (Or.inr ⟨subject, reason, rfl⟩) (Quiet.consoleRevokeMember subject reason)
  | store op => exact h.quiet (Quiet.store op env.stamp) rfl (subset_step _) hclock

theorem rooted_new (me : Identity K) (a b c : ℕ) : Rooted me (Grove.new me a b c) where
  own := own_new me.id a b c
  ours cert hcert := by cases hcert
  based cert hcert := by cases hcert

theorem Rooted.weathered (hsigner : Signer me) (h : Rooted me g) {act : Env × Act K}
    (hf : Faithful me g act) : Weathered me g act := by
  obtain ⟨env, act⟩ := act
  intro parsed htaken m hother hlost cert hcert
  obtain ⟨hmem, hsubject⟩ := List.mem_filter.mp hcert
  obtain rfl := of_decide_eq_true hsubject
  obtain ⟨record, habsorb, hnode, -⟩ := step_of_taken hsigner htaken
  rw [hnode] at hmem ⊢
  rw [((Quiet.absorb record).trans (@Quiet.cascadeRevocation _ me env _ _ _)).signed]
    at hmem
  exact isRevoked_of_lost hsigner h hf.1.1 hf.1.2 habsorb hmem hother hlost

/-- **Compaction does not weaken revocation in any run of faithful acts.** -/
theorem compaction_weathers (hsigner : Signer me) (maxSubjects maxPerSubject maxRevocations : ℕ)
    (acts : List (Env × Act K))
    (h : Guarded (Grove.step me) (Faithful me)
      (Grove.new me maxSubjects maxPerSubject maxRevocations) acts) :
    Guarded (Grove.step me) (Weathered me)
      (Grove.new me maxSubjects maxPerSubject maxRevocations) acts :=
  h.of_invariant (P := Rooted me) (fun _ _ hr hf => hr.step hsigner hf)
    (fun _ _ hr hf => hr.weathered hsigner hf) (rooted_new me _ _ _)

/-! ### A chain that was shortened before -/

/-- The key pair with key `[k]`. -/
def keyed (k : UInt8) : Identity plain := ⟨[k], id⟩

theorem signer_keyed (k : UInt8) : Signer (keyed k) where
  verifies _ := decide_eq_true rfl
  pub := ⟨Nat.one_pos, by show 1 ≤ 4096; omega⟩
  signature stamp subject reason := by
    have hlen : ((keyed k).sign (signingInput stamp subject.raw reason)).length = 49 := by
      show (signingInput stamp subject.raw reason).length = 49
      simp [signingInput, domain, subject.len]
    unfold maxSig
    omega

/-- The chain of certificates, each issued by the next key, that ends in the root's own. -/
def chainUp : List (UInt8 × UInt8 × ℕ) → Option (List (Certificate plain))
  | [] => some [plainCert 1 1]
  | (subject, issuer, stamp) :: rest => do
    let cert ← (keyed issuer).issueCert (plain.fromPublicKey [subject]) [subject] stamp
    let above ← chainUp rest
    return cert :: above

/-- The root `1` invites `2`, which invites `3`, which invites `4`. -/
def family : List (Env × Act plain) :=
  [(⟨0, 0⟩, .store ⟨.add (plainCert 1 1), fun _ h => by cases h⟩),
    (⟨0, 0⟩, .invite (plain.fromPublicKey [2]) [2]),
    (⟨0, 0⟩, .vouch (plain.fromPublicKey [2]) (plain.fromPublicKey [3]) 0),
    (⟨0, 0⟩, .vouch (plain.fromPublicKey [3]) (plain.fromPublicKey [4]) 0),
    (⟨1, 1⟩, .chainCompaction (plain.fromPublicKey [3]) 200 (chainUp [(3, 2, 0), (2, 1, 0)]))]

/-- The chain of `3` is shortened, then the chain of `4` through the new certificate of `3`; the root's
operator takes back the membership of `2`. -/
def shortened : List (Env × Act plain) :=
  family ++ [(⟨2, 2⟩, .chainCompaction (plain.fromPublicKey [4]) 200 (chainUp [(4, 3, 0), (3, 1, 1)])),
    (⟨3, 3⟩, .consoleRevokeMember (plain.fromPublicKey [2]) 0)]

def grown : Grove plain := run (Grove.step (keyed 1)) (Grove.new (keyed 1) 8 4 8) (shortened.take 6)

/-- What the root's revocation of `2` says. -/
def disowned : Parsed := ⟨plain.fromPublicKey [1], [1], plain.fromPublicKey [2], 3, 0⟩

/-- **The member `4` keeps the root's certificate**, though every invitation of it ran through `2`. -/
theorem shortened_keeps : ¬ Guarded (Grove.step (keyed 1)) (Weathered (keyed 1))
    (Grove.new (keyed 1) 8 4 8) shortened := by
  rintro ⟨-, -, -, -, -, -, hweathered, -⟩
  have hinvitations : grown.invitations =
      [⟨plain.fromPublicKey [1], plain.fromPublicKey [2], 0⟩,
        ⟨plain.fromPublicKey [2], plain.fromPublicKey [3], 0⟩,
        ⟨plain.fromPublicKey [3], plain.fromPublicKey [4], 0⟩] := by decide +kernel
  have hlost : ¬ Stays grown.invitations disowned (keyed 1).id (plain.fromPublicKey [4]) := by
    intro hstays
    rw [hinvitations] at hstays
    rcases Relation.ReflTransGen.cases_head hstays with he | ⟨b, ⟨i, hi, hspared, hissuer, -⟩, -⟩
    · exact absurd he (by decide)
    · simp only [List.mem_cons, List.not_mem_nil, or_false] at hi
      rcases hi with rfl | rfl | rfl
      · exact hspared ⟨rfl, rfl, Nat.zero_le _⟩
      · exact absurd hissuer (by decide)
      · exact absurd hissuer (by decide)
  have hkept := hweathered disowned (by decide +kernel) (plain.fromPublicKey [4]) (by decide) hlost
  exact absurd (List.all_eq_true.mpr hkept) (by decide +kernel)

/-- The root takes back the membership of `2` before the chain of `4` is shortened. -/
def pruned : List (Env × Act plain) :=
  family ++ [(⟨3, 3⟩, .consoleRevokeMember (plain.fromPublicKey [2]) 0)]

theorem compaction_weathers_pruned : Guarded (Grove.step (keyed 1)) (Weathered (keyed 1))
    (Grove.new (keyed 1) 8 4 8) pruned := by
  refine compaction_weathers (signer_keyed 1) 8 4 8 pruned ⟨?_, ?_, ?_, ?_, ?_, ?_, trivial⟩
  · exact ⟨by decide, trivial⟩
  · exact ⟨by decide, trivial⟩
  · exact ⟨by decide, trivial⟩
  · exact ⟨by decide, trivial⟩
  · refine ⟨by decide +kernel, fun member above position hchain hpass cert hcert => ?_⟩
    have hinvited : (chainUp [(3, 2, 0), (2, 1, 0)]).all (fun chain =>
        (Issuer.position (keyed 1) chain).all fun position => (chain.take position).all fun cert =>
          decide (Invited (run (Grove.step (keyed 1)) (Grove.new (keyed 1) 8 4 8)
            (family.take 4)).invitations cert)) = true := by decide +kernel
    rw [hchain, Option.all_some, hpass.runs, Option.all_some, List.all_eq_true] at hinvited
    have hbelow := hpass.below
    refine of_decide_eq_true (hinvited cert ?_)
    rwa [show position = position - 1 + 1 by omega, List.take_succ_cons]
  · exact ⟨by decide +kernel, trivial⟩

end NMesh.Cert.Compaction
