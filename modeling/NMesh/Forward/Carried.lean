import NMesh.Forward.Handlers
import Mathlib.Data.Rat.Defs

/-! # What a relay is charged with

A packet whose source is not the node at the end of its link was carried by that node. `carried` says what
it costs the link and the node: nothing, but for one report of a link that goes on relaying what it was asked
to stop relaying, and for the five types whose payload is held against whoever delivered it (`Slips`). -/

namespace NMesh.Forward.Carried

open Base.BigEndian Base.Ordered Base.Allowance NMesh.Cert.Identity
open NMesh.Directory NMesh.Directory.Name NMesh.Directory.Books
open NMesh.KeyShare NMesh.KeyShare.Message
open NMesh.Opinion.Table
open NMesh.Relay.Header (Hashes)
open NMesh.StopRelay.Rules (Stops reported)
open NMesh.Forward.Handlers NMesh.Forward.Handlers.Here

/-! ### Payloads that check out -/

section Shares

variable {R : Type} (P : Suite) (me : Exchange.Local) (env : Exchange.Env R)

/-- The message of a key handover passes its check, as far as it is checked. -/
def Signed (kind : Exchange.Kind) (src : NodeID) (payload : Bytes) (t : Exchange.Tables R) : Prop :=
  match kind with
  | .offer => parseOffer P payload src me.id ≠ none
  | .accept => ∃ offerId, acceptOfferId payload = some offerId ∧
      ∀ pending, t.offersOut.get? offerId = some pending → parseAccept P payload pending.toId me.id ≠ none
  | .grant => ∃ offerId, grantOfferId payload = some offerId ∧
      ∀ pending, t.accepts.get? offerId = some pending →
        openGrant P payload pending.fromId me.id pending.publisher pending.kemSecret
          me.kemDecapsulate ≠ none

variable {P} {me} {env} {src : NodeID} {payload : Bytes} {t : Exchange.Tables R}

theorem charged_onOffer [Field R] :
    (Exchange.onOffer P me env src payload t).charged = true ↔ ¬ Signed P me .offer src payload t := by
  unfold Exchange.onOffer Signed
  cases parseOffer P payload src me.id with
  | none => simp [Exchange.charge]
  | some offer =>
    dsimp only
    split_ifs <;> simp [Exchange.quiet]

theorem charged_onAccept :
    (Exchange.onAccept P me env payload t).charged = true ↔ ¬ Signed P me .accept src payload t := by
  unfold Exchange.onAccept Signed
  cases acceptOfferId payload with
  | none => simp [Exchange.charge]
  | some offerId =>
    dsimp only
    cases hget : t.offersOut.get? offerId with
    | none => simp [Exchange.quiet, hget]
    | some pending =>
      dsimp only
      cases hparse : parseAccept P payload pending.toId me.id with
      | none => simp [Exchange.charge, hget, hparse]
      | some accept =>
        dsimp only
        split <;> simp [Exchange.quiet, hget, hparse]

theorem charged_onGrant :
    (Exchange.onGrant P me env payload t).charged = true ↔ ¬ Signed P me .grant src payload t := by
  unfold Exchange.onGrant Signed
  cases grantOfferId payload with
  | none => simp [Exchange.charge]
  | some offerId =>
    dsimp only
    cases hget : t.accepts.get? offerId with
    | none => simp [Exchange.quiet, hget]
    | some pending =>
      dsimp only
      cases hopen : openGrant P payload pending.fromId me.id pending.publisher pending.kemSecret
          me.kemDecapsulate with
      | none => simp [Exchange.charge, hget, hopen]
      | some secret =>
        dsimp only
        split_ifs <;> simp [Exchange.quiet, hget, hopen]

theorem charged_handle [Field R] [LinearOrder R] {kind : Exchange.Kind} {peer : Bytes} :
    (Exchange.handle P me env kind peer src payload t).charged = true ↔
      (t.keyShareAllowed peer env.now).1 = true ∧ ¬ Signed P me kind src payload (t.sweep env.now) := by
  unfold Exchange.handle
  obtain ⟨isAllowed, rate, hrate⟩ : ∃ isAllowed rate,
      t.keyShareAllowed peer env.now = (isAllowed, rate) := ⟨_, _, rfl⟩
  rw [hrate]
  cases isAllowed with
  | false => simp [Exchange.quiet]
  | true =>
    have hswept : Signed P me kind src payload (Exchange.Tables.sweep { t with rate := rate } env.now) ↔
        Signed P me kind src payload (t.sweep env.now) := by
      cases kind <;> exact Iff.rfl
    rw [← hswept]
    simp only [Bool.not_true, Bool.false_eq_true, if_false, true_and]
    cases kind with
    | offer => exact charged_onOffer
    | accept => exact charged_onAccept
    | grant => exact charged_onGrant

end Shares

/-! ### What is left as it was -/

section Sparing

variable {R σ : Type} {b : Prop}

/-- The link's count and the node's opinions are what they were. -/
structure Spared (x x' : Here R σ) : Prop where
  malformed : x'.link.malformed = x.link.malformed
  reputation : x'.node.reputation = x.node.reputation

theorem Spared.refl (x : Here R σ) : Spared x x := ⟨rfl, rfl⟩

variable {x : Here R σ}

theorem spared_ite {c : Prop} [Decidable c] {y z : Here R σ} (hy : Spared x y) (hz : Spared x z) :
    Spared x (if c then y else z) := by
  split_ifs
  · exact hy
  · exact hz

/-- The link is charged if `b`, and spared if not. -/
structure ChargedIff (b : Prop) (x x' : Here R σ) : Prop where
  charged : b → x'.link.malformed = x.link.malformed + 1
  spared : ¬ b → Spared x x'

theorem ChargedIff.never {x' : Here R σ} (h : Spared x x') (hb : ¬ b) : ChargedIff b x x' :=
  ⟨fun h' => absurd h' hb, fun _ => h⟩

theorem ChargedIff.of_spared {y z : Here R σ} (h : Spared x y) (h' : ChargedIff b y z) : ChargedIff b x z := by
  refine ⟨fun hb => ?_, fun hb => ?_⟩
  · rw [h'.charged hb, h.malformed]
  · have hlast := h'.spared hb
    exact ⟨hlast.malformed.trans h.malformed, hlast.reputation.trans h.reputation⟩

theorem ChargedIff.limited {ok : Bool} {y z : Here R σ} (hlimit : Spared x y)
    (h : ChargedIff b y z) : ChargedIff (ok = true ∧ b) x (if !ok then y else z) := by
  cases ok with
  | false => exact .never hlimit fun h => Bool.false_ne_true h.1
  | true =>
    have hx := h.of_spared hlimit
    exact ⟨fun hb => hx.charged hb.2, fun hb => hx.spared fun h => hb ⟨rfl, h⟩⟩

variable {H : Hashes} {core : Core H σ} {env : Env R} {via : NodeID} {packet : Routed H} {payload : Bytes}
  {x : Here R σ}

theorem spared_handleFoundNode : Spared x (x.handleFoundNode core payload) :=
  spared_ite (.refl x) (spared_ite (.refl x) (spared_ite (.refl x) ⟨rfl, rfl⟩))

theorem spared_handleEchoReply : Spared x (x.handleEchoReply env packet) := by
  unfold handleEchoReply
  split_ifs
  · exact .refl x
  · split
    · exact .refl x
    · exact spared_ite (.refl x) ⟨rfl, rfl⟩

variable [Field R] [LinearOrder R]

theorem spared_handleFind : Spared x (x.handleFind env via payload) := spared_ite (.refl x) ⟨rfl, rfl⟩

theorem spared_handleFindNode : Spared x (x.handleFindNode core env via payload) :=
  spared_ite (.refl x) (spared_ite (.refl x) ⟨rfl, rfl⟩)

theorem spared_handleStore : Spared x (x.handleStore core env via payload) :=
  spared_ite (.refl x) (spared_ite ⟨rfl, rfl⟩ ⟨rfl, rfl⟩)

end Sparing

variable {H : Hashes} {R σ : Type} [Field R] [LinearOrder R] [Halving R]
variable (U : Unicode) (P : Suite) (core : Core H σ) (env : Env R)

/-- The types whose payload is held against whoever delivered it. -/
def heldAgainst : Handlers.Kind → Bool
  | .dirStore | .pkgStore | .keyOffer | .keyAccept | .keyGrant => true
  | _ => false

def ChecksOut (packet : Routed H) (x : Here R σ) : Prop :=
  let payload := packet.payload
  match packet.kind with
  | .dirStore => payload ≠ [] ∧ payload.length ≤ PseudoDir.maxClaim ∧
      PseudoDir.parseClaim U P.toPrimitives payload ≠ none
  | .pkgStore => payload ≠ [] ∧ payload.length ≤ PkgDir.maxRecord ∧
      PkgDir.parseRecord U P.toPrimitives payload ≠ none
  | .keyOffer => Signed P env.me .offer packet.src payload (x.node.shares.sweep env.now)
  | .keyAccept => Signed P env.me .accept packet.src payload (x.node.shares.sweep env.now)
  | .keyGrant => Signed P env.me .grant packet.src payload (x.node.shares.sweep env.now)
  | _ => True

def WithinRate (via : NodeID) (kind : Handlers.Kind) (x : Here R σ) : Prop :=
  match kind with
  | .dirStore => (allowed dirRateWindow dirRateMax maxPeers x.node.dirRate via.raw env.now).1 = true
  | .pkgStore => (allowed pkgRateWindow pkgRateMax maxPeers x.node.pkgRate via.raw env.now).1 = true
  | .keyOffer | .keyAccept | .keyGrant => (x.node.shares.keyShareAllowed via.raw env.now).1 = true
  | _ => True

/-- The packet comes to its handler: it is new, it is for this node, and its gate lets it through. -/
def Reaches (via : NodeID) (packet : Routed H) (x : Here R σ) : Prop :=
  x.link.tarpit = false ∧ x.link.authenticatedId = some via ∧
    (x.refuseRouted P env via packet).1 = false ∧
    (∃ key seen, packet.replayKey.1 = some key ∧ x.node.seen.add key = some (false, seen)) ∧
    isHere env packet

/-- A payload that does not check out is held against the link that delivered it. -/
def Slips (packet : Routed H) (x : Here R σ) : Prop :=
  ∃ via, Reaches P env via packet x ∧ WithinRate env via packet.kind x ∧ ¬ ChecksOut U P env packet x

/-- The link goes on relaying what it was asked to stop relaying. -/
def Overdue (via : NodeID) (packet : Routed H) (x : Here R σ) : Prop :=
  x.link.tarpit = false ∧ via ≠ env.me.id ∧
    x.node.stops.overdue env.me.id env.now via x.link.announcesStop
      (x.node.reputation.standing packet.src env.now ≠ .ok) packet.src packet.dst = true

instance (via : NodeID) (packet : Routed H) (x : Here R σ) : Decidable (Overdue env via packet x) :=
  inferInstanceAs (Decidable (_ ∧ _ ∧ _))

def reproached (packet : Routed H) (x : Here R σ) : Reputation R :=
  match x.link.authenticatedId with
  | none => x.node.reputation
  | some via =>
    if Overdue env via packet x then
      (x.node.reputation.note via stopRelayRefusalWeight
        "kept relaying a node it was asked to stop relaying" none env.now).2
    else x.node.reputation

/-! ### One handler after another -/

variable {U} {P} {core} {env} {via : NodeID} {packet : Routed H} {payload : Bytes} {x : Here R σ}

theorem malformed_reportAbuse (nodeId : NodeID) (weight : R) (reason : String) (x : Here R σ) :
    (x.reportAbuse env nodeId weight reason).link.malformed = x.link.malformed := by
  unfold reportAbuse
  split_ifs <;> rfl

theorem malformed_chargeAbuse (x : Here R σ) :
    (x.chargeAbuse env).link.malformed = x.link.malformed + 1 := by
  have hcharged : (x.chargeIdentityAbuse env).link.malformed = x.link.malformed := by
    unfold chargeIdentityAbuse
    split
    · rfl
    · exact malformed_reportAbuse _ _ _ _
  show (x.chargeIdentityAbuse env).link.malformed + 1 = x.link.malformed + 1
  rw [hcharged]

theorem ChargedIff.always {b : Prop} (hb : b) : ChargedIff b x (x.chargeAbuse env) :=
  ⟨fun _ => malformed_chargeAbuse x, fun h => absurd hb h⟩

theorem charged_absorbClaim : ChargedIff (¬ (payload ≠ [] ∧ payload.length ≤ PseudoDir.maxClaim ∧
    PseudoDir.parseClaim U P.toPrimitives payload ≠ none)) x (x.absorbClaim U P env payload) := by
  unfold absorbClaim
  split_ifs with hsize
  · refine .always fun h => ?_
    rcases hsize with hsize | hsize
    · exact h.1 hsize
    · exact not_lt.mpr h.2.1 hsize
  · rw [not_or, not_lt] at hsize
    split
    · next hparse => exact .always fun h => h.2.2 hparse
    · next claim hparse =>
      refine .never ⟨rfl, rfl⟩ (not_not.mpr ⟨hsize.1, hsize.2, ?_⟩)
      rw [hparse]
      exact Option.some_ne_none claim

theorem charged_absorbPackage : ChargedIff (¬ (payload ≠ [] ∧ payload.length ≤ PkgDir.maxRecord ∧
    PkgDir.parseRecord U P.toPrimitives payload ≠ none)) x (x.absorbPackage U P env payload) := by
  unfold absorbPackage
  split_ifs with hsize
  · refine .always fun h => ?_
    rcases hsize with hsize | hsize
    · exact h.1 hsize
    · exact not_lt.mpr h.2.1 hsize
  · rw [not_or, not_lt] at hsize
    split
    · next hparse => exact .always fun h => h.2.2 hparse
    · next record hparse =>
      have hsome : PkgDir.parseRecord U P.toPrimitives payload ≠ none := by
        rw [hparse]
        exact Option.some_ne_none record
      split
      · exact .never (.refl x) (not_not.mpr ⟨hsize.1, hsize.2, hsome⟩)
      · exact .never ⟨rfl, rfl⟩ (not_not.mpr ⟨hsize.1, hsize.2, hsome⟩)

theorem charged_handleKeyShare {kind : Exchange.Kind} :
    ChargedIff ((x.node.shares.keyShareAllowed via.raw env.now).1 = true ∧
      ¬ Signed P env.me kind packet.src packet.payload (x.node.shares.sweep env.now)) x
      (x.handleKeyShare P env kind via packet) := by
  unfold handleKeyShare
  rw [← @charged_handle _ _ _ env.toEnv]
  dsimp only
  split_ifs with hcharged
  · exact ⟨fun _ => malformed_chargeAbuse _, fun h => absurd hcharged h⟩
  · exact .never ⟨rfl, rfl⟩ hcharged

theorem spared_handleReleaseData (hsrc : x.link.authenticatedId ≠ some packet.src) :
    Spared x (x.handleReleaseData env packet) := by
  unfold handleReleaseData
  refine spared_ite (.refl x) ?_
  dsimp only
  split
  · rw [if_neg fun h => hsrc h.1]
    exact .refl x
  · exact ⟨rfl, rfl⟩
  · exact .refl x

/-- **The handlers of the other eighteen types charge a relay with nothing.** -/
theorem spared_deliver (hsrc : x.link.authenticatedId ≠ some packet.src)
    (hkind : heldAgainst packet.kind = false) : Spared x (x.deliver U P core env via packet) := by
  unfold deliver
  cases heq : packet.kind <;> rw [heq] at hkind
  case echoReply => exact spared_handleEchoReply
  case findNode => exact spared_handleFindNode
  case foundNode => exact spared_handleFoundNode
  case findValue => exact spared_handleFind
  case dirFind => exact spared_handleFind
  case pkgFind => exact spared_handleFind
  case store => exact spared_handleStore
  case releaseData => exact spared_handleReleaseData hsrc
  all_goals first | exact ⟨rfl, rfl⟩ | cases hkind

/-- **A handler charges the link with what comes within its limit and does not check out.** -/
theorem charged_deliver (hsrc : x.link.authenticatedId ≠ some packet.src) :
    ChargedIff (WithinRate env via packet.kind x ∧ ¬ ChecksOut U P env packet x) x
      (x.deliver U P core env via packet) := by
  cases hheld : heldAgainst packet.kind with
  | false =>
    refine .never (spared_deliver hsrc hheld) fun h => h.2 ?_
    unfold ChecksOut
    cases hkind : packet.kind <;> rw [hkind] at hheld
    case dirStore | pkgStore | keyOffer | keyAccept | keyGrant => cases hheld
    all_goals trivial
  | true =>
    unfold ChecksOut WithinRate deliver
    cases hkind : packet.kind <;> rw [hkind] at hheld
    case dirStore => exact .limited ⟨rfl, rfl⟩ charged_absorbClaim
    case pkgStore => exact .limited ⟨rfl, rfl⟩ charged_absorbPackage
    case keyOffer => exact charged_handleKeyShare
    case keyAccept => exact charged_handleKeyShare
    case keyGrant => exact charged_handleKeyShare
    all_goals cases hheld

/-! ### The packet as a whole -/

theorem charged_admitted (hsrc : x.link.authenticatedId ≠ some packet.src) :
    ChargedIff ((∃ key seen, packet.replayKey.1 = some key ∧ x.node.seen.add key = some (false, seen)) ∧
        isHere env packet ∧ WithinRate env via packet.kind x ∧ ¬ ChecksOut U P env packet x) x
      (x.admitted U P core env via packet) := by
  unfold admitted
  split
  · next hkey =>
    refine .never (.refl x) ?_
    rintro ⟨⟨key, seen, hkey', -⟩, -⟩
    rw [hkey] at hkey'
    cases hkey'
  · next key hkey =>
    have hadd (answer : Option (Bool × Relay.Window.SeenSet)) (h : x.node.seen.add key = answer)
        (hold : ∀ seen, answer ≠ some (false, seen)) :
        ¬ ∃ key seen, packet.replayKey.1 = some key ∧ x.node.seen.add key = some (false, seen) := by
      rintro ⟨key', seen, hkey', hnew⟩
      rw [hkey] at hkey'
      cases hkey'
      exact hold seen (h.symm.trans hnew)
    split
    · next hnone => exact .never (.refl x) fun h => hadd _ hnone (by simp) h.1
    · next seen hseen =>
      exact .never (spared_ite (.refl x) ⟨rfl, rfl⟩) fun h => hadd _ hseen (by simp) h.1
    · next seen hseen =>
      dsimp only
      split_ifs with hhere
      · set y := onRest (core.learnReversePath via packet) { x with node.seen := seen } with hy
        have hspared : Spared x y := ⟨rfl, rfl⟩
        have hsrc' : y.link.authenticatedId ≠ some packet.src := hsrc
        have h : ChargedIff (WithinRate env via packet.kind x ∧ ¬ ChecksOut U P env packet x) x
            (y.deliver U P core env via packet) := .of_spared hspared (charged_deliver hsrc')
        refine ⟨fun hb => h.charged hb.2.2, fun hb => h.spared fun h' => ?_⟩
        exact hb ⟨⟨key, seen, hkey, hseen⟩, hhere, h'⟩
      · exact .never ⟨rfl, rfl⟩ fun h => hhere h.2.1

theorem malformed_reportAll (nodes : List NodeID) (x : Here R σ) :
    (reportAll env nodes x).link.malformed = x.link.malformed := by
  induction nodes generalizing x with
  | nil => rfl
  | cons nodeId nodes ih => exact (ih _).trans (malformed_reportAbuse _ _ _ _)

theorem reported_refuseRouted (via : NodeID) (packet : Routed H) (x : Here R σ) :
    reported (x.refuseRouted P env via packet).2.2 =
      if x.node.stops.overdue env.me.id env.now via x.link.announcesStop
        (x.node.reputation.standing packet.src env.now ≠ .ok) packet.src packet.dst then [via] else [] :=
  StopRelay.Rules.Stops.reported_refuseRouted P.toPrimitives (stopLocal env) (stopClock env) via
    x.link.announcesStop _ packet.src packet.dst x.node.stops

theorem refused_of_reported (h : reported (x.refuseRouted P env via packet).2.2 ≠ []) :
    (x.refuseRouted P env via packet).1 = true := by
  have hrefusal := @StopRelay.Rules.Stops.refusal _ _ _ P.toPrimitives (stopLocal env) (stopClock env) via
    packet.src packet.dst x.node.stops x.link.announcesStop
    (x.node.reputation.standing packet.src env.now ≠ .ok)
  unfold refuseRouted at h ⊢
  generalize Stops.refuseRouted P.toPrimitives (stopLocal env) (stopClock env) via x.link.announcesStop
    _ packet.src packet.dst x.node.stops = answer at h hrefusal ⊢
  obtain ⟨isRefused, stops, effects⟩ := answer
  cases hrefusal with
  | passed | lapsed => exact absurd rfl h
  | dropped | asks | stillDelivers | tells | stillFeeds => rfl

theorem reputation_reportAll (hvia : x.link.authenticatedId = some via) (hlive : x.link.tarpit = false) :
    (reportAll env (reported (x.refuseRouted P env via packet).2.2)
      { x with node.stops := (x.refuseRouted P env via packet).2.1 }).node.reputation =
        reproached env packet x := by
  unfold reproached
  rw [hvia, reported_refuseRouted]
  dsimp only
  split_ifs with hdue hover hover
  · show (reportAbuse env via _ _ _).node.reputation = _
    unfold reportAbuse
    rw [if_neg hover.2.1]
  · have hown : via = env.me.id := not_not.mp fun hne => hover ⟨hlive, hne, hdue⟩
    show (reportAbuse env via _ _ _).node.reputation = _
    unfold reportAbuse
    rw [if_pos hown]
  · exact absurd hover.2.2 hdue
  · rfl

theorem reproached_of_not (h : ∀ via, ¬ Overdue env via packet x) :
    reproached env packet x = x.node.reputation := by
  unfold reproached
  split
  · rfl
  · exact if_neg (h _)

theorem cost (hsrc : x.link.authenticatedId ≠ some packet.src) :
    (Slips U P env packet x →
      (x.handlePacket U P core env packet).link.malformed = x.link.malformed + 1) ∧
    (¬ Slips U P env packet x →
      (x.handlePacket U P core env packet).link.malformed = x.link.malformed ∧
        (x.handlePacket U P core env packet).node.reputation = reproached env packet x) := by
  unfold handlePacket
  by_cases hlive : x.link.tarpit = true
  · rw [if_pos hlive, reproached_of_not fun via h => Bool.false_ne_true (h.1.symm.trans hlive)]
    refine ⟨?_, fun _ => ⟨rfl, rfl⟩⟩
    rintro ⟨via, hreaches, -⟩
    exact absurd (hreaches.1.symm.trans hlive) Bool.false_ne_true
  · rw [if_neg hlive]
    rw [Bool.not_eq_true] at hlive
    cases hvia : x.link.authenticatedId with
    | none =>
      unfold reproached
      rw [hvia]
      refine ⟨?_, fun _ => ⟨rfl, rfl⟩⟩
      rintro ⟨via, hreaches, -⟩
      have hsome := hreaches.2.1
      rw [hvia] at hsome
      cases hsome
    | some via =>
      have hgate : (reportAll env (reported (x.refuseRouted P env via packet).2.2)
          { x with node.stops := (x.refuseRouted P env via packet).2.1 }).node.reputation =
            reproached env packet x := reputation_reportAll hvia hlive
      have hcount := @malformed_reportAll _ _ _ _ _ env (reported (x.refuseRouted P env via packet).2.2)
        { x with node.stops := (x.refuseRouted P env via packet).2.1 }
      have hreaches {via' : NodeID} (h : Reaches P env via' packet x) : via' = via :=
        Option.mem_unique h.2.1 hvia
      dsimp only
      cases hrefused : (x.refuseRouted P env via packet).1 with
      | true =>
        refine ⟨?_, fun _ => ⟨hcount, hgate⟩⟩
        rintro ⟨via', hreach, -⟩
        obtain rfl := hreaches hreach
        exact absurd (hreach.2.2.1.symm.trans hrefused) Bool.false_ne_true
      | false =>
        rw [if_neg Bool.false_ne_true]
        have hnone : reported (x.refuseRouted P env via packet).2.2 = [] := by
          by_contra h
          rw [refused_of_reported h] at hrefused
          cases hrefused
        rw [hnone] at hgate hcount ⊢
        have hadmitted := @charged_admitted _ _ _ _ _ _ U P core env via packet
          { x with node.stops := (x.refuseRouted P env via packet).2.1 } hsrc
        refine ⟨?_, fun hslip => ?_⟩
        · rintro ⟨via', hreach, hrate, hbad⟩
          obtain rfl := hreaches hreach
          exact hadmitted.charged ⟨hreach.2.2.2.1, hreach.2.2.2.2, hrate, hbad⟩
        · have hspared := hadmitted.spared fun h =>
            hslip ⟨via, ⟨hlive, hvia, hrefused, h.1, h.2.1⟩, h.2.2⟩
          exact ⟨hspared.malformed, hspared.reputation.trans hgate⟩

def suite : Suite where
  toPrimitives := PseudoDir.turning
  signWith _ _ := none
  derive shared _ := shared
  encrypt _ _ secret _ := secret
  decrypt _ _ _ _ := none
  printable _ := true

def oneId : Hashes where
  sha256Id _ _ := 1
  blake2bId _ _ := 1

def node (i : UInt8) : NodeID := suite.fromPublicKey [i]

def inert : Core oneId Unit where
  learnReversePath _ _ x := x
  forwardPacket _ _ _ x := x
  rerouteLooped _ _ _ x := x
  handleData _ x := x
  handleE2eHandshake _ x := x
  handleE2eHandshakeAck _ x := x
  handleCertRenew _ x := x
  handleCertRenewed _ x := x
  dhtPut _ _ x := x
  decodeCertHints _ := true
  decodeEntries _ _ := []
  absorbEntries _ x := x

def later : Env ℚ where
  now := 11
  time := 11
  urandom := []
  kemPair := ([], [])
  kemEncapsulate _ := none
  writes := false
  me := ⟨node 0, [0], fun _ => [], fun _ _ => none⟩
  wall := 11

/-- A packet of node `1`, with an empty payload. -/
def blank (kind : Handlers.Kind) (dst : NodeID) : Routed oneId where
  version := 1
  type := kind.code
  srcId := (node 1).raw
  dstId := dst.raw
  nonce := List.replicate 12 0
  gcmTag := List.replicate 16 0
  payload := []
  src_len := (node 1).len
  dst_len := dst.len
  nonce_len := List.length_replicate
  tag_len := List.length_replicate
  payload_le := Nat.zero_le _
  ttl := 8
  msgId := none
  sha256Id := none
  blake2bId := none
  sha256_ok _ h := nomatch h
  blake2b_ok _ h := nomatch h
  kind := kind
  type_eq := rfl

/-- Node `0`, and its link to node `2`. -/
def met (stops : Stops ℚ) : Here ℚ Unit where
  link := ⟨some (node 2), false, true, 0, false, 0, 0⟩
  node := {
    reputation := .new 8 20 900 4096
    stops := stops
    seen := ⟨2, 1, 0, fun _ => 0, fun _ => 0, 0, 0, false, false, by decide⟩
    dirRate := .empty
    pkgRate := .empty
    queryRate := .empty
    storeRate := .empty
    serveRate := .empty
    pseudoBook := ⟨1, 1, 1, .empty, .empty, 0, .empty⟩
    packageBook := ⟨1, 1, 1, .empty, .empty, 0, .empty⟩
    shares := .empty
    pendingEcho := .empty
    pendingFinds := []
    pendingValues := []
    pendingDir := []
    pendingPkg := []
    pendingSlices := .empty
    rest := () }

/-- Node `3` has asked not to be sent what node `1` sends, and node `2` was told so at time 0. -/
def told : Stops ℚ :=
  Stops.empty.noteRule (node 1, node 3) ⟨900, [], Dict.empty.set (node 2) 0, []⟩

/-- What the relay has to show for a packet: its link's count and its score. -/
def costs (stops : Stops ℚ) (packet : Routed oneId) : ℕ × ℚ :=
  let x := (met stops).handlePacket PseudoDir.plain suite inert later packet
  (x.link.malformed, x.node.reputation.score (node 2) later.now)

end NMesh.Forward.Carried
