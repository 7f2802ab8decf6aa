import NMesh.Cert.Renewal

/-! # Renewals of a revoked membership

Neither handler of a request asks whether the node has taken the member's membership back. So a request
signs a certificate for such a member exactly where it passes the handler's tests (`firm_iff`), which say
nothing about revocations of our own: the certificate a member asks with may itself be void. -/

namespace NMesh.Cert.Readmission

open Base.BigEndian Base.Runs Base.Ordered NMesh.Cert.Identity NMesh.Cert.Issuing
open NMesh.Cert.Store NMesh.Cert.Store.CertStore NMesh.Cert.Upkeep
open NMesh.Cert.Renewal NMesh.Cert.Renewal.Issuer

variable {K : Crypto} {me : Identity K} {s s' : Issuer K}

/-! ### Who is revoked -/

def Withdrawn (me : Identity K) (s : Issuer K) (subject : NodeID) : Prop :=
  (s.certs.revoked.get? (me.id, subject)).isSome = true

/-- One line of the log: our own revocation of the subject bars it, its invitation lets it in again. -/
def mark (me subject : NodeID) (barred : Bool) : Effect K → Bool
  | .revoked issuer subject' _ => barred || decide (issuer = me ∧ subject' = subject)
  | .invited cert => barred && !decide (cert.subjectId = subject)
  | .renewed _ => barred

/-- The node holds its own revocation of the subject, and has accepted no invitation of it since. -/
def Barred (me : Identity K) (s : Issuer K) (subject : NodeID) : Prop :=
  Withdrawn me s subject ∧ s.log.foldl (mark me.id subject) false = true

instance (s : Issuer K) (subject : NodeID) : Decidable (Withdrawn me s subject) := by
  unfold Withdrawn; infer_instance

instance (s : Issuer K) (subject : NodeID) : Decidable (Barred me s subject) := by
  unfold Barred; infer_instance

/-! ### Requests -/

def asker : Event K → Option NodeID
  | .certRenew src _ _ => some src
  | .chainCompaction src _ _ => some src
  | _ => none

/-- The event is a handshake of this subject, whose invitation was accepted. -/
def Invites (subject : NodeID) : Event K → Prop
  | .invite subjectId _ => subjectId = subject
  | _ => False

/-- A request passes every test, and the new certificate's parts pack. -/
def Served (me : Identity K) (s : Issuer K) (act : Env × Event K) : Prop :=
  match act.2 with
  | .certRenew src size cert => ∃ c, cert = some c ∧ Renewable me act.1 src size c s ∧
      Packs c.subjectPub me.dsaPublicKey act.1.stamp (act.1.stamp + Identity.certTtl)
  | .chainCompaction src size chain => ∃ member above position, chain = some (member :: above) ∧
      Compactable me act.1 src size member above position s ∧
      Packs member.subjectPub me.dsaPublicKey act.1.stamp (act.1.stamp + Identity.certTtl)
  | _ => False

/-- **A revoked membership is not renewed at this step**: nothing is signed for a subject that is barred,
its own invitation apart, and no request makes the store accept a certificate of it. -/
def Firm (me : Identity K) (bars : Issuer K → NodeID → Prop) (s : Issuer K) (act : Env × Event K) :
    Prop :=
  ∀ subject, bars s subject → ¬ Invites subject act.2 →
    (s.step me act).signedFor subject = s.signedFor subject ∧
    ((asker act.2).isSome = true →
      ∀ cert ∈ (s.step me act).certs.held subject, cert ∈ s.certs.held subject)

def Spared (me : Identity K) (bars : Issuer K → NodeID → Prop) (s : Issuer K) (act : Env × Event K) :
    Prop :=
  ∀ subject, asker act.2 = some subject → bars s subject → ¬ Served me s act

/-! ### What a step signs -/

/-- From `s` to `s'` one certificate was signed, for `subject`, and the others' certificates are at most
those held. -/
structure Signs (subject : NodeID) (s s' : Issuer K) : Prop where
  fresh : ∃ cert, cert.subjectId = subject ∧ s'.signed = s.signed ++ [cert]
  held : ∀ key, key ≠ subject → ∀ cert ∈ s'.certs.held key, cert ∈ s.certs.held key

theorem held_add {certs : CertStore K} {fresh : Certificate K} {clock : ℕ} {key : NodeID}
    (hne : key ≠ fresh.subjectId) {cert : Certificate K} (h : cert ∈ (certs.add fresh clock).2.held key) :
    cert ∈ certs.held key := by
  rcases add_cases certs fresh clock with he | he | ⟨-, -, -, n, he⟩
  · rwa [he] at h
  · rw [he] at h
    exact ((shrinks_touch certs _).held key).subset h
  · rw [he] at h
    rcases mem_held_file.mp (((shrinks_file certs fresh clock n).held key).subset h) with h | ⟨-, hk⟩
    · exact h
    · exact absurd hk.symm hne

variable {subject : NodeID}

theorem signs_certify {env : Env} {effect : Certificate K → Effect K} {pub : Bytes}
    {fresh : Certificate K} (heffect : ∀ cert, (effect cert).signed = some cert)
    (hfresh : me.issueCert subject pub env.stamp = some fresh) :
    Signs subject s (s.certify me env effect subject pub) := by
  have hsubject := (Identity.of_issueCert hfresh).1
  rcases certify_cases me env effect subject pub s with ⟨hnone, -⟩ | ⟨cert, hcert, he⟩
  · rw [hfresh] at hnone
    cases hnone
  · obtain rfl := Option.mem_unique hfresh hcert
    rw [he]
    refine ⟨⟨fresh, hsubject, ?_⟩, fun key hne cert h => held_add (hsubject ▸ hne) h⟩
    unfold Issuer.signed
    dsimp only
    rw [List.filterMap_append, List.filterMap_cons_some (heffect fresh)]
    rfl

theorem Signs.of_eq {s0 : Issuer K} (h : Signs subject s0 s')
    (hsigned : s0.signed = s.signed) (hheld : ∀ key, s0.certs.held key = s.certs.held key) :
    Signs subject s s' := by
  refine ⟨?_, fun key hne cert hc => ?_⟩
  · rw [← hsigned]
    exact h.fresh
  · rw [← hheld]
    exact h.held key hne cert hc

theorem signedFor_congr (h : s'.signed = s.signed) (subject : NodeID) :
    s'.signedFor subject = s.signedFor subject := by
  unfold signedFor
  rw [h]

theorem Signs.signedFor_ne (h : Signs subject s s') : s'.signedFor subject ≠ s.signedFor subject := by
  obtain ⟨cert, hcert, hsigned⟩ := h.fresh
  unfold signedFor
  rw [hsigned, List.filter_append]
  intro he
  have hlen := congrArg List.length he
  rw [List.length_append, List.filter_cons_of_pos (by simpa using hcert)] at hlen
  simp at hlen

theorem Signs.signedFor_eq {other : NodeID} (h : Signs subject s s') (hne : other ≠ subject) :
    s'.signedFor other = s.signedFor other := by
  obtain ⟨cert, hcert, hsigned⟩ := h.fresh
  unfold signedFor
  rw [hsigned, List.filter_append, List.filter_cons_of_neg (by rw [hcert]; simpa using hne.symm)]
  exact List.append_nil _

theorem held_looked (env : Env) (key : NodeID) :
    (s.looked me env).certs.held key = s.certs.held key := by
  unfold looked
  dsimp only
  rw [getChainToRoot_frame]
  rfl

variable {act : Env × Event K}

theorem signs_of_served {src : NodeID}
    (hverifies : ∀ message, K.verify message (me.sign message) me.dsaPublicKey = true)
    (hsrc : asker act.2 = some src) (h : Served me s act) : Signs src s (s.step me act) := by
  obtain ⟨env, event⟩ := act
  cases event with
  | certRenew asking size cert =>
    obtain rfl := Option.some.inj hsrc
    obtain ⟨c, rfl, hpass, hpacks⟩ := h
    obtain ⟨fresh, hfresh⟩ :=
      Identity.issueCert_eq_some hverifies (c.subject_ok.trans hpass.theirs) hpacks
    show Signs asking s (s.handleCertRenew me env asking size (some c))
    rw [handleCertRenew_served hpass]
    refine (signs_certify (fun _ => rfl) hfresh).of_eq ?_ fun key => ?_
    · rw [claimed_frame]; rfl
    · rw [claimed_frame]
  | chainCompaction asking size chain =>
    obtain rfl := Option.some.inj hsrc
    obtain ⟨member, above, position, rfl, hpass, hpacks⟩ := h
    obtain ⟨fresh, hfresh⟩ :=
      Identity.issueCert_eq_some hverifies (member.subject_ok.trans hpass.theirs) hpacks
    show Signs asking s (s.serveChainCompaction me env asking size (some (member :: above)))
    rw [serveChainCompaction_served hpass]
    refine (signs_certify (fun _ => rfl) hfresh).of_eq ?_ fun key => ?_
    · unfold enrolled
      rw [claimed_frame]
      rfl
    · unfold enrolled
      rw [claimed_frame]
      exact held_looked env key
  | certRevoke allowed raw | consoleRevokeMember subject reason | invite subjectId subjectPub | store op =>
    cases hsrc

/-- From `s` to `s'` nothing was signed, and every certificate held was held. -/
structure Idle (s s' : Issuer K) : Prop where
  signed : s'.signed = s.signed
  held : ∀ key, ∀ cert ∈ s'.certs.held key, cert ∈ s.certs.held key

theorem Idle.refl (s : Issuer K) : Idle s s := ⟨rfl, fun _ _ h => h⟩

theorem idle_certify {env : Env} {effect : Certificate K → Effect K} {pub : Bytes}
    {s0 : Issuer K} (h : Idle s s0) (hpacks : ¬ Packs pub me.dsaPublicKey env.stamp
      (env.stamp + Identity.certTtl)) : Idle s (s0.certify me env effect subject pub) := by
  rcases certify_cases me env effect subject pub s0 with ⟨-, he⟩ | ⟨fresh, hfresh, -⟩
  · rw [he]
    exact h
  · obtain ⟨-, hpub, -, hissuer, hstamp, hexpires⟩ := Identity.of_issueCert hfresh
    have := fresh.packs
    rw [hpub, hissuer, hstamp, hexpires] at this
    exact absurd this hpacks

theorem idle_looked (env : Env) (served : Dict NodeID ℚ) (book : Descent.Lineage) :
    Idle s { s.looked me env with renewalsServed := served, lineage := book } :=
  ⟨rfl, fun key cert h => by rw [← @held_looked _ me _ env key]; exact h⟩

/-- **A request that fails a test signs nothing**, and the store accepts nothing. -/
theorem idle_of_not_served {src : NodeID} (hsrc : asker act.2 = some src)
    (h : ¬ Served me s act) : Idle s (s.step me act) := by
  obtain ⟨env, event⟩ := act
  cases event with
  | certRenew asking size cert =>
    show Idle s (s.handleCertRenew me env asking size cert)
    by_cases hpass : ∃ c, cert = some c ∧ Renewable me env asking size c s
    · obtain ⟨c, rfl, hpass⟩ := hpass
      rw [handleCertRenew_served hpass]
      refine idle_certify ?_ fun hpacks => h ⟨c, rfl, hpass, hpacks⟩
      rw [claimed_frame]
      exact ⟨rfl, fun _ _ h => h⟩
    · rw [handleCertRenew_refused fun c hc hr => hpass ⟨c, hc, hr⟩]
      exact .refl s
  | chainCompaction asking size chain =>
    show Idle s (s.serveChainCompaction me env asking size chain)
    by_cases hpass : ∃ member above position, chain = some (member :: above) ∧
        Compactable me env asking size member above position s
    · obtain ⟨member, above, position, rfl, hpass⟩ := hpass
      rw [serveChainCompaction_served hpass]
      refine idle_certify ?_ fun hpacks => h ⟨member, above, position, rfl, hpass, hpacks⟩
      unfold enrolled
      rw [claimed_frame]
      exact idle_looked env _ _
    · rcases serveChainCompaction_refused fun member above position hc hr =>
          hpass ⟨member, above, position, hc, hr⟩ with he | ⟨served, he⟩
      · rw [he]
        exact .refl s
      · rw [he]
        exact idle_looked env served s.lineage
  | certRevoke allowed raw | consoleRevokeMember subject reason | invite subjectId subjectPub | store op =>
    cases hsrc

theorem signedFor_of_not_request (hsrc : asker act.2 = none) (hinvites : ¬ Invites subject act.2) :
    (s.step me act).signedFor subject = s.signedFor subject := by
  obtain ⟨env, event⟩ := act
  cases event with
  | certRenew asking size cert | chainCompaction asking size chain => cases hsrc
  | certRevoke allowed raw => exact signedFor_congr (Quiet.handleCertRevoke allowed raw).signed subject
  | consoleRevokeMember subject' reason =>
    exact signedFor_congr (Quiet.consoleRevokeMember subject' reason).signed subject
  | invite subjectId subjectPub =>
    show (s.certify me env .invited subjectId subjectPub).signedFor subject = s.signedFor subject
    cases hfresh : me.issueCert subjectId subjectPub env.stamp with
    | none =>
      rcases certify_cases me env .invited subjectId subjectPub s with ⟨-, he⟩ | ⟨fresh, hsome, -⟩
      · rw [he]
      · rw [hfresh] at hsome
        cases hsome
    | some fresh => exact (signs_certify (fun _ => rfl) hfresh).signedFor_eq (Ne.symm hinvites)
  | store op => exact signedFor_congr (@Quiet.store _ me _ op env.stamp).signed subject

/-! ### The step and the run -/

variable (hverifies : ∀ message, K.verify message (me.sign message) me.dsaPublicKey = true)

include hverifies in
/-- **The step is firm exactly where no request of a barred subject passes every test.** -/
theorem firm_iff (bars : Issuer K → NodeID → Prop) (s : Issuer K) (act : Env × Event K) :
    Firm me bars s act ↔ Spared me bars s act := by
  constructor
  · intro hfirm subject hsrc hbars hserved
    have hinvites : ¬ Invites subject act.2 := by
      intro h
      rcases act with ⟨env, event⟩
      cases event <;> first | exact h | cases hsrc
    exact (signs_of_served hverifies hsrc hserved).signedFor_ne (hfirm subject hbars hinvites).1
  · intro hspared subject hbars hinvites
    cases hsrc : asker act.2 with
    | none => exact ⟨signedFor_of_not_request hsrc hinvites, fun h => by cases h⟩
    | some src =>
      by_cases hserved : Served me s act
      · have hne : subject ≠ src := by
          rintro rfl
          exact hspared subject hsrc hbars hserved
        have hsigns := signs_of_served hverifies hsrc hserved
        exact ⟨hsigns.signedFor_eq hne, fun _ => hsigns.held subject hne⟩
      · have hidle := idle_of_not_served hsrc hserved
        exact ⟨signedFor_congr hidle.signed subject, fun _ => hidle.held subject⟩

include hverifies in
/-- **A run renews no revoked membership exactly where no request that passes every test comes from a
subject that is revoked**: whether an invitation accepted since ends a revocation, or nothing does. -/
theorem revoked_not_renewed (start : Issuer K) (acts : List (Env × Event K)) :
    (Guarded (Issuer.step me) (Firm me (Withdrawn me)) start acts ↔
      Guarded (Issuer.step me) (Spared me (Withdrawn me)) start acts) ∧
    (Guarded (Issuer.step me) (Firm me (Barred me)) start acts ↔
      Guarded (Issuer.step me) (Spared me (Barred me)) start acts) :=
  ⟨guarded_congr (firm_iff hverifies _) start acts, guarded_congr (firm_iff hverifies _) start acts⟩

/-! ### A revoked member comes back -/

/-- The node with key `[1]`. -/
def issuer : Identity plain := ⟨[1], id⟩

/-- It invites `3`, takes the membership back eighty days before it runs out, and ten seconds later `3`
asks to renew the certificate it was invited with. -/
def comeback : List (Env × Event plain) :=
  let revoked := Identity.certTtl - 80 * 86400
  [(⟨0, 0⟩, .invite (plain.fromPublicKey [3]) [3]),
    (⟨revoked, revoked⟩, .consoleRevokeMember (plain.fromPublicKey [3]) 0),
    (⟨revoked + 10, revoked + 10⟩, .certRenew (plain.fromPublicKey [3]) 200
      (issuer.issueCert (plain.fromPublicKey [3]) [3] 0))]

/-- The state when `3` asks. -/
def asked : Issuer plain := run (Issuer.step issuer) (Issuer.new issuer 8 4 8) (comeback.take 2)

/-- **The member that was revoked is signed again.** -/
theorem renewed_again : ¬ Guarded (Issuer.step issuer) (Firm issuer (Barred issuer))
    (Issuer.new issuer 8 4 8) comeback := by
  rintro ⟨-, -, hfirm, -⟩
  have hbarred : Barred issuer asked (plain.fromPublicKey [3]) := by decide +kernel
  have hsame := (hfirm (plain.fromPublicKey [3]) hbarred id).1
  exact absurd (congrArg List.length hsame) (by decide +kernel)

def timely : List (Env × Event plain) :=
  let soon := Identity.certTtl - 80 * 86400
  [(⟨0, 0⟩, .invite (plain.fromPublicKey [3]) [3]),
    (⟨soon, soon⟩, .certRenew (plain.fromPublicKey [3]) 200
      (issuer.issueCert (plain.fromPublicKey [3]) [3] 0)),
    (⟨soon + 10, soon + 10⟩, .consoleRevokeMember (plain.fromPublicKey [3]) 0)]

theorem revoked_not_renewed_timely :
    Guarded (Issuer.step issuer) (Firm issuer (Barred issuer)) (Issuer.new issuer 8 4 8) timely := by
  refine ((revoked_not_renewed (fun _ => decide_eq_true rfl) _ _).2).mpr ⟨?_, ?_, ?_, trivial⟩
  · intro subject hsrc
    cases hsrc
  · intro subject hsrc hbarred
    cases hsrc
    exact absurd hbarred (by decide +kernel)
  · intro subject hsrc
    cases hsrc

end NMesh.Cert.Readmission
