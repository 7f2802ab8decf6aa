import NMesh.Cert.Descent
import NMesh.Cert.Issuing
import NMesh.Cert.Standing
import Mathlib.Algebra.Order.Ring.Rat

/-! # The issuing node

A node signs certificates for the members it invites, re-signs one that is about to expire
(`handleCertRenew`), and signs a member below it directly, so that its chain gets shorter
(`serveChainCompaction`). It takes in the revocations it hears (`handleCertRevoke`) and those of its
operator (`consoleRevokeMember`), and passes each on to the members it signed directly below the revoked
one (`cascadeRevocation`).

The certificates signed and the revocations taken in are written to a log. -/

namespace NMesh.Cert.Renewal

open Base.BigEndian Base.Ordered NMesh.Cert.Identity NMesh.Cert.Issuing
open NMesh.Cert.Revocation NMesh.Cert.Store NMesh.Cert.Descent NMesh.Cert.Standing
open NMesh.Cert.Upkeep

def compactMax : ℕ := 58000
def certRenewAccept : ℕ := 90 * 86400
def certRenewMinGap : ℚ := 3600
def certRenewTracked : ℕ := 512
def certRenewMax : ℕ := 16 * 1024

/-- The two clocks, as one event reads them. -/
structure Env where
  stamp : ℕ
  monotonic : ℚ

/-- What a node leaves in its log. -/
inductive Effect (K : Crypto)
  /-- A revocation the store took in. -/
  | revoked (issuer subject : NodeID) (issuedAt : ℕ)
  /-- A certificate signed for a node whose invitation was accepted. -/
  | invited (cert : Certificate K)
  /-- A certificate signed for a member that asked. -/
  | renewed (cert : Certificate K)

structure Issuer (K : Crypto) where
  certs : CertStore K
  lineage : Lineage
  renewalsServed : Dict NodeID ℚ
  log : List (Effect K)

variable {K : Crypto}

namespace Issuer

def new (me : Identity K) (maxSubjects maxPerSubject maxRevocations : ℕ) : Issuer K where
  certs := CertStore.new K me.id maxSubjects maxPerSubject maxRevocations
  lineage := Lineage.new maxEntries
  renewalsServed := Dict.empty
  log := []

/-! ### Signing -/

/-- Sign a certificate, take it in and write it to the log; nothing if its parts do not pack. -/
def certify (me : Identity K) (env : Env) (effect : Certificate K → Effect K) (subjectId : NodeID)
    (subjectPub : Bytes) (s : Issuer K) : Issuer K :=
  match me.issueCert subjectId subjectPub env.stamp with
  | none => s
  | some fresh =>
    { s with
      certs := (s.certs.add fresh env.stamp).2
      log := s.log ++ [effect fresh] }

def rested (s : Issuer K) (subject : NodeID) (now : ℚ) : Bool :=
  match s.renewalsServed.get? subject with
  | none => true
  | some last => !decide (now - last < certRenewMinGap)

/-- One renewal served for each subject in `certRenewMinGap`. -/
def claimRenewal (s : Issuer K) (subject : NodeID) (now : ℚ) : Bool × Issuer K :=
  if s.rested subject now then
    let served := s.renewalsServed.set subject now
    (true, { s with renewalsServed := Dict.makeRoom (certRenewTracked + 1) served.size served })
  else (false, s)

/-- A node we certified asks us to sign the same binding again. `cert` is what the payload of `size` bytes
holds, if it holds one. -/
def handleCertRenew (me : Identity K) (env : Env) (src : NodeID) (size : ℕ)
    (cert : Option (Certificate K)) (s : Issuer K) : Issuer K :=
  if certRenewMax < size then s
  else match cert with
  | none => s
  | some cert =>
    -- not a binding of ours to re-make
    if cert.issuerId ≠ me.id ∨ cert.isSelfSigned then s
    else if cert.subjectId ≠ src then s
    -- an expired membership is not renewed
    else if cert.expiresAt = 0 ∨ cert.expiresAt ≤ env.stamp ∨
        env.stamp + certRenewAccept < cert.expiresAt then s
    else
      let (granted, s) := s.claimRenewal cert.subjectId env.monotonic
      if !granted then s else s.certify me env .renewed cert.subjectId cert.subjectPub

/-- Where a chain runs through us, above its first certificate. -/
def position (me : Identity K) (chain : List (Certificate K)) : Option ℕ :=
  (chain.tail.findIdx? fun c => c.subjectId = me.id).map (· + 1)

/-- The issuers between the member and `position`, nearest first. -/
def ancestorsBelow (chain : List (Certificate K)) (position : ℕ) : List Bytes :=
  (chain.tail.take (position - 1)).map fun c => c.subjectId.raw

/-- A member below us asks to be signed by us directly. `chain` is what the payload of `size` bytes holds,
if it holds one. -/
def serveChainCompaction (me : Identity K) (env : Env) (src : NodeID) (size : ℕ)
    (chain : Option (List (Certificate K))) (s : Issuer K) : Issuer K :=
  if compactMax < size then s
  else match chain with
  | none | some [] => s
  | some (member :: above) =>
    let chain := member :: above
    -- already signed by its root
    if chain.length ≤ 2 then s
    else if member.isSelfSigned ∨ member.subjectId ≠ src then s
    else if s.certs.verifyChain chain env.stamp = none then s
    else match position me chain with
    | none => s
    | some position =>
      if position < 2 then s
      else
        let (ours, certs) := s.certs.getChainToRoot me.id none env.stamp
        let s := { s with certs := certs }
        let ours := ours.getD []
        if ours = [] ∨ chain.length ≤ ours.length + 1 then s
        else
          let (granted, s) := s.claimRenewal member.subjectId env.monotonic
          if !granted then s
          else
            let (recorded, lineage) :=
              s.lineage.record member.subjectId.raw (ancestorsBelow chain position)
            if !recorded then s
            else { s with lineage := lineage }.certify me env .renewed member.subjectId
              member.subjectPub

/-! ### Taking memberships back -/

/-- Take a revocation in, and write to the log what it said if that is new. -/
def absorb (record : Bytes) (s : Issuer K) : Option Parsed × Issuer K :=
  match s.certs.revoke record with
  | (none, certs) => (none, { s with certs := certs })
  | (some parsed, certs) =>
    (some parsed, { s with
      certs := certs
      log := s.log ++ [.revoked parsed.issuerId parsed.subjectId parsed.issuedAt] })

/-- Take back our own certificates of a member below a revoked one. -/
def takeBack (me : Identity K) (env : Env) (s : Issuer K) (raw : Bytes) : Issuer K :=
  let s := { s with lineage := s.lineage.forget raw }
  match NodeID.ofRaw raw with
  | none => s
  | some member =>
    if member = me.id then s
    else match Revocation.build member me.dsaPublicKey me.sign 0 env.stamp with
    | none => s
    | some record => (s.absorb record).2

/-- The members a revocation is passed on to: those whose chain ran through `subject`, and `subject`
itself if one of the issuers of its own chain revokes it. -/
def affected (me : Identity K) (subject issuer : NodeID) (book : Lineage) : List Bytes :=
  let below := book.descendants subject.raw
  if issuer ≠ me.id ∧ issuer.raw ∈ book.ancestors subject.raw then subject.raw :: below else below

/-- Pass a revocation on to the members we signed directly below it. -/
def cascadeRevocation (me : Identity K) (env : Env) (subject issuer : NodeID) (s : Issuer K) :
    Issuer K :=
  if s.lineage.bySubject.size = 0 then s
  else
    ((affected me subject issuer s.lineage).eraseDups).foldl (takeBack me env)
      { s with lineage := s.lineage.forget subject.raw }

/-- A revocation arrives; `allowed` says whether the link may send one now. -/
def handleCertRevoke (me : Identity K) (env : Env) (allowed : Bool) (raw : Bytes) (s : Issuer K) :
    Issuer K :=
  if !allowed then s
  else if raw = [] ∨ maxRecord < raw.length then s
  else match s.absorb raw with
  | (none, s) => s
  | (some parsed, s) => s.cascadeRevocation me env parsed.subjectId parsed.issuerId

def consoleRevokeMember (me : Identity K) (env : Env) (subject : NodeID) (reason : ℕ)
    (s : Issuer K) : Issuer K :=
  if subject = me.id then s
  else match Revocation.build subject me.dsaPublicKey me.sign reason env.stamp with
  | none => s
  | some raw =>
    match s.absorb raw with
    | (none, s) => s
    | (some _, s) => s.cascadeRevocation me env subject me.id

end Issuer

/-! ### The events of a node -/

/-- What the rest of the node does to its certificates. Taking a revocation in is not among it. -/
structure StoreOp (K : Crypto) where
  op : Op K
  notRevoke : ∀ record, op ≠ .revoke record

inductive Event (K : Crypto)
  /-- A request to renew a certificate. -/
  | certRenew (src : NodeID) (size : ℕ) (cert : Option (Certificate K))
  /-- A request to shorten a chain. -/
  | chainCompaction (src : NodeID) (size : ℕ) (chain : Option (List (Certificate K)))
  | certRevoke (allowed : Bool) (raw : Bytes)
  | consoleRevokeMember (subject : NodeID) (reason : ℕ)
  /-- A handshake on a link whose invitation was accepted. -/
  | invite (subjectId : NodeID) (subjectPub : Bytes)
  | store (op : StoreOp K)

def Issuer.step (me : Identity K) (s : Issuer K) (act : Env × Event K) : Issuer K :=
  match act.2 with
  | .certRenew src size cert => s.handleCertRenew me act.1 src size cert
  | .chainCompaction src size chain => s.serveChainCompaction me act.1 src size chain
  | .certRevoke allowed raw => s.handleCertRevoke me act.1 allowed raw
  | .consoleRevokeMember subject reason => s.consoleRevokeMember me act.1 subject reason
  | .invite subjectId subjectPub => s.certify me act.1 .invited subjectId subjectPub
  | .store op => { s with certs := s.certs.step (act.1.stamp, op.op) }

/-! ### What a request needs to be served -/

/-- A request to renew passes every test. -/
structure Renewable (me : Identity K) (env : Env) (src : NodeID) (size : ℕ) (cert : Certificate K)
    (s : Issuer K) : Prop where
  fits : size ≤ certRenewMax
  ours : cert.issuerId = me.id
  vouched : cert.isSelfSigned = false
  theirs : cert.subjectId = src
  alive : env.stamp < cert.expiresAt
  soon : cert.expiresAt ≤ env.stamp + certRenewAccept
  rested : s.rested src env.monotonic = true

/-- A request to shorten a chain passes every test. -/
structure Compactable (me : Identity K) (env : Env) (src : NodeID) (size : ℕ) (member : Certificate K)
    (above : List (Certificate K)) (position : ℕ) (s : Issuer K) : Prop where
  fits : size ≤ compactMax
  long : 2 < (member :: above).length
  vouched : member.isSelfSigned = false
  theirs : member.subjectId = src
  holds : s.certs.verifyChain (member :: above) env.stamp ≠ none
  runs : Issuer.position me (member :: above) = some position
  below : 2 ≤ position
  shorter : ∃ ours, (s.certs.getChainToRoot me.id none env.stamp).1 = some ours ∧ ours ≠ [] ∧
    ours.length + 1 < (member :: above).length
  rested : s.rested src env.monotonic = true
  recorded : (s.lineage.record src.raw (Issuer.ancestorsBelow (member :: above) position)).1 = true

namespace Issuer

variable {me : Identity K} {env : Env} {src : NodeID} {size : ℕ} {s : Issuer K}

def claimed (s : Issuer K) (subject : NodeID) (now : ℚ) : Issuer K :=
  (s.claimRenewal subject now).2

theorem claimRenewal_fst (s : Issuer K) (subject : NodeID) (now : ℚ) :
    (s.claimRenewal subject now).1 = s.rested subject now := by
  unfold claimRenewal
  split_ifs with h
  · exact h.symm
  · exact (Bool.eq_false_iff.mpr h).symm

theorem claimed_frame (s : Issuer K) (subject : NodeID) (now : ℚ) :
    s.claimed subject now = { s with renewalsServed := (s.claimed subject now).renewalsServed } := by
  unfold claimed claimRenewal
  split_ifs <;> rfl

theorem handleCertRenew_served {cert : Certificate K} (h : Renewable me env src size cert s) :
    s.handleCertRenew me env src size (some cert) =
      (s.claimed src env.monotonic).certify me env .renewed src cert.subjectPub := by
  have halive := h.alive
  have hsoon := h.soon
  have hgranted : (s.claimRenewal src env.monotonic).1 = true := (claimRenewal_fst _ _ _).trans h.rested
  obtain rfl := h.theirs
  unfold handleCertRenew
  rw [if_neg (Nat.not_lt.mpr h.fits)]
  dsimp only
  rw [if_neg (by simp [h.ours, h.vouched]), if_neg (not_not.mpr rfl), if_neg (by omega), hgranted]
  rfl

theorem handleCertRenew_refused {cert : Option (Certificate K)}
    (h : ∀ c, cert = some c → ¬ Renewable me env src size c s) :
    s.handleCertRenew me env src size cert = s := by
  unfold handleCertRenew
  by_cases hfits : certRenewMax < size
  · rw [if_pos hfits]
  rw [if_neg hfits]
  cases cert with
  | none => rfl
  | some cert =>
    dsimp only
    split_ifs with hours htheirs hsoon hgranted
    · rfl
    · rfl
    · rfl
    · rw [claimRenewal_fst, Bool.not_eq_true'] at hgranted
      unfold claimRenewal
      rw [hgranted]
      rfl
    · rw [claimRenewal_fst, Bool.not_eq_true', Bool.not_eq_false] at hgranted
      rw [not_or, not_not, Bool.not_eq_true] at hours
      obtain rfl := not_not.mp htheirs
      exact absurd ⟨by omega, hours.1, hours.2, rfl, by omega, by omega, hgranted⟩ (h cert rfl)

def looked (me : Identity K) (env : Env) (s : Issuer K) : Issuer K :=
  { s with certs := (s.certs.getChainToRoot me.id none env.stamp).2 }

/-- The state after the issuers between a member and us were recorded. -/
def enrolled (src : NodeID) (ancestors : List Bytes) (s : Issuer K) : Issuer K :=
  { s with lineage := (s.lineage.record src.raw ancestors).2 }

/-- **A request to shorten a chain is served if it passes every test.** -/
theorem serveChainCompaction_served {member : Certificate K} {above : List (Certificate K)}
    {position : ℕ} (h : Compactable me env src size member above position s) :
    s.serveChainCompaction me env src size (some (member :: above)) =
      (((s.looked me env).claimed src env.monotonic).enrolled src
        (ancestorsBelow (member :: above) position)).certify me env .renewed src
          member.subjectPub := by
  obtain ⟨ours, hours, hne, hshort⟩ := h.shorter
  have hgranted : ((s.looked me env).claimRenewal src env.monotonic).1 = true :=
    (claimRenewal_fst _ _ _).trans h.rested
  have hbook : ((s.looked me env).claimRenewal src env.monotonic).2.lineage = s.lineage := by
    change ((s.looked me env).claimed src env.monotonic).lineage = s.lineage
    rw [claimed_frame]
    rfl
  obtain rfl := h.theirs
  unfold serveChainCompaction
  rw [if_neg (Nat.not_lt.mpr h.fits)]
  dsimp only
  rw [if_neg (Nat.not_le.mpr h.long), if_neg (by simp [h.vouched]), if_neg h.holds, h.runs]
  dsimp only
  rw [if_neg (Nat.not_lt.mpr h.below), hours, Option.getD_some,
    if_neg (not_or.mpr ⟨hne, Nat.not_le.mpr hshort⟩)]
  unfold looked at hgranted hbook
  rw [hgranted, hbook, h.recorded]
  unfold enrolled looked claimed
  rw [hbook]
  rfl

theorem serveChainCompaction_refused {chain : Option (List (Certificate K))}
    (h : ∀ member above position, chain = some (member :: above) →
      ¬ Compactable me env src size member above position s) :
    s.serveChainCompaction me env src size chain = s ∨
      ∃ served, s.serveChainCompaction me env src size chain =
        { s.looked me env with renewalsServed := served } := by
  unfold serveChainCompaction
  split_ifs with hfits
  · exact Or.inl rfl
  rcases chain with _ | _ | ⟨member, above⟩
  · exact Or.inl rfl
  · exact Or.inl rfl
  dsimp only
  by_cases hlong : (member :: above).length ≤ 2
  · rw [if_pos hlong]
    exact Or.inl rfl
  rw [if_neg hlong]
  by_cases htheirs : member.isSelfSigned = true ∨ member.subjectId ≠ src
  · rw [if_pos htheirs]
    exact Or.inl rfl
  rw [if_neg htheirs]
  by_cases hholds : s.certs.verifyChain (member :: above) env.stamp = none
  · rw [if_pos hholds]
    exact Or.inl rfl
  rw [if_neg hholds]
  cases hruns : position me (member :: above) with
  | none => exact Or.inl rfl
  | some position =>
    dsimp only
    by_cases hbelow : position < 2
    · rw [if_pos hbelow]
      exact Or.inl rfl
    rw [if_neg hbelow]
    right
    set ours := (s.certs.getChainToRoot me.id none env.stamp).1.getD [] with hours
    by_cases hshort : ours = [] ∨ (member :: above).length ≤ ours.length + 1
    · rw [if_pos hshort]
      exact ⟨s.renewalsServed, rfl⟩
    rw [if_neg hshort]
    obtain ⟨hvouched, rfl⟩ : member.isSelfSigned = false ∧ member.subjectId = src := by
      simpa using htheirs
    have hclaimed := claimed_frame (s.looked me env) member.subjectId env.monotonic
    unfold claimed looked at hclaimed
    rw [claimRenewal_fst]
    by_cases hrested : s.rested member.subjectId env.monotonic = true
    · rw [if_neg (by simpa [rested] using hrested)]
      by_cases hrecorded : (s.lineage.record member.subjectId.raw
          (ancestorsBelow (member :: above) position)).1 = true
      · have hsome : (s.certs.getChainToRoot me.id none env.stamp).1 = some ours := by
          cases hchain : (s.certs.getChainToRoot me.id none env.stamp).1 with
          | none => exact absurd (Or.inl (by rw [hours, hchain]; rfl)) hshort
          | some chain => rw [hours, hchain, Option.getD_some]
        exact absurd ⟨Nat.not_lt.mp hfits, Nat.not_le.mp hlong, hvouched, rfl, hholds, hruns,
          Nat.not_lt.mp hbelow, ⟨ours, hsome, fun he => hshort (Or.inl he),
            Nat.not_le.mp fun he => hshort (Or.inr he)⟩, hrested, hrecorded⟩ (h member above position rfl)
      · rw [if_pos (by rw [hclaimed]; simpa using hrecorded)]
        exact ⟨_, hclaimed⟩
    · rw [if_pos (by simpa [rested] using hrested)]
      exact ⟨_, hclaimed⟩

end Issuer

/-! ### What is signed -/

def Effect.signed : Effect K → Option (Certificate K)
  | .revoked _ _ _ => none
  | .invited cert => some cert
  | .renewed cert => some cert

namespace Issuer

def signed (s : Issuer K) : List (Certificate K) := s.log.filterMap Effect.signed

def signedFor (s : Issuer K) (subject : NodeID) : List (Certificate K) :=
  s.signed.filter fun c => c.subjectId = subject

variable {me : Identity K} {env : Env} {s s' : Issuer K}

/-- From `s` to `s'` nothing was signed, the store stayed our own and our revocations stand. -/
structure Quiet (me : Identity K) (s s' : Issuer K) : Prop where
  signed : s'.signed = s.signed
  own : Own me.id s.certs → Own me.id s'.certs
  stands : Own me.id s.certs → Stands me.id s.certs s'.certs

namespace Quiet

theorem refl (me : Identity K) (s : Issuer K) : Quiet me s s := ⟨rfl, id, fun _ => .refl _⟩

theorem trans {s'' : Issuer K} (h : Quiet me s s') (h' : Quiet me s' s'') : Quiet me s s'' :=
  ⟨h'.signed.trans h.signed, fun ho => h'.own (h.own ho),
    fun ho => (h.stands ho).trans (h'.stands (h.own ho))⟩

theorem looked (served : Dict NodeID ℚ) (book : Lineage) :
    Quiet me s { s.looked me env with renewalsServed := served, lineage := book } where
  signed := rfl
  own h := h.shrink (shrinks_lookup _ _ _ _)
  stands _ := .of_eq (shrinks_lookup _ _ _ _).revoked

theorem forget (raw : Bytes) : Quiet me s { s with lineage := s.lineage.forget raw } :=
  ⟨rfl, id, fun _ => .refl _⟩

theorem absorb (record : Bytes) : Quiet me s (s.absorb record).2 := by
  have hown (h : Own me.id s.certs) := h.revoke record
  have hstands (h : Own me.id s.certs) := stands_revoke record h.root
  unfold Issuer.absorb
  rcases hr : s.certs.revoke record with ⟨_ | parsed, certs⟩
  · rw [hr] at hown hstands
    exact ⟨rfl, hown, hstands⟩
  · rw [hr] at hown hstands
    refine ⟨?_, hown, hstands⟩
    unfold Issuer.signed
    dsimp only
    rw [List.filterMap_append]
    exact List.append_nil _

theorem takeBack (raw : Bytes) : Quiet me s (s.takeBack me env raw) := by
  unfold Issuer.takeBack
  dsimp only
  split
  · exact forget raw
  · split_ifs
    · exact forget raw
    · split
      · exact forget raw
      · exact (forget raw).trans (absorb _)

theorem foldl_takeBack : ∀ (raws : List Bytes) (s : Issuer K),
    Quiet me s (raws.foldl (Issuer.takeBack me env) s)
  | [], s => refl me s
  | raw :: raws, _ => (takeBack raw).trans (foldl_takeBack raws _)

theorem cascadeRevocation (subject issuer : NodeID) :
    Quiet me s (s.cascadeRevocation me env subject issuer) := by
  unfold Issuer.cascadeRevocation
  split_ifs
  · exact refl me s
  · exact (forget subject.raw).trans (foldl_takeBack _ _)

theorem handleCertRevoke (allowed : Bool) (raw : Bytes) :
    Quiet me s (s.handleCertRevoke me env allowed raw) := by
  have habsorb := @absorb _ me s raw
  unfold Issuer.handleCertRevoke
  split_ifs
  · exact refl me s
  · exact refl me s
  · rcases ha : s.absorb raw with ⟨_ | parsed, s1⟩
    · rw [ha] at habsorb
      exact habsorb
    · rw [ha] at habsorb
      exact habsorb.trans (cascadeRevocation _ _)

theorem consoleRevokeMember (subject : NodeID) (reason : ℕ) :
    Quiet me s (s.consoleRevokeMember me env subject reason) := by
  unfold Issuer.consoleRevokeMember
  split_ifs
  · exact refl me s
  · split
    · exact refl me s
    · next raw _ =>
      have habsorb := @absorb _ me s raw
      rcases ha : s.absorb raw with ⟨_ | parsed, s1⟩
      · rw [ha] at habsorb
        exact habsorb
      · rw [ha] at habsorb
        exact habsorb.trans (cascadeRevocation _ _)

theorem store (op : StoreOp K) (clock : ℕ) :
    Quiet me s { s with certs := s.certs.step (clock, op.op) } :=
  ⟨rfl, fun h => h.step _, fun _ => .of_eq (revoked_step s.certs clock op.notRevoke)⟩

end Quiet

theorem quiet_serveChainCompaction {src : NodeID} {size : ℕ} {chain : Option (List (Certificate K))}
    (h : ∀ member above position, chain = some (member :: above) →
      ¬ Compactable me env src size member above position s) :
    Quiet me s (s.serveChainCompaction me env src size chain) ∧
      (s.serveChainCompaction me env src size chain).lineage = s.lineage := by
  rcases serveChainCompaction_refused h with he | ⟨served, he⟩ <;> rw [he]
  · exact ⟨.refl me s, rfl⟩
  · exact ⟨Quiet.looked served s.lineage, rfl⟩

/-- **What `certify` does**: nothing, or it signs one certificate for the subject and takes it in. -/
theorem certify_cases (me : Identity K) (env : Env) (effect : Certificate K → Effect K)
    (subjectId : NodeID) (subjectPub : Bytes) (s : Issuer K) :
    me.issueCert subjectId subjectPub env.stamp = none ∧
        s.certify me env effect subjectId subjectPub = s ∨
    ∃ fresh, me.issueCert subjectId subjectPub env.stamp = some fresh ∧
      s.certify me env effect subjectId subjectPub =
        { s with certs := (s.certs.add fresh env.stamp).2, log := s.log ++ [effect fresh] } := by
  unfold certify
  cases h : me.issueCert subjectId subjectPub env.stamp with
  | none => exact Or.inl ⟨rfl, rfl⟩
  | some fresh => exact Or.inr ⟨fresh, rfl, rfl⟩

end Issuer

end NMesh.Cert.Renewal
