import NMesh.Fleet.Steps

/-! # The three gates of the fleet

An operation starts for a peer only by a frame with an assertion the peer signed, over the type and these bytes, that
nothing has used before, and only while the ledger permits it; and no frame gives a right.

* `started_carries`: what starts, what started it and what the ledger said, over any run;
* `allowed_here`: rights are given here, by an approval, by a change or by a claim, and by nothing else;
* `gates`: both, at every action of every run. -/

namespace NMesh.Fleet.Gates

open Base.BigEndian Base.Utf8 Base.Hex Base.Ordered Base.Runs
open NMesh.AppAuth.Format NMesh.AppAuth.Format.Assertion NMesh.AppAuth.Verify NMesh.AppAuth.Once
open NMesh.Fleet.Ledger NMesh.Fleet.Messages NMesh.Fleet.Agent NMesh.Fleet.App NMesh.Fleet.Steps FleetState

/-! ### What a handler leaves -/

section Handlers

variable (c : Config) (env : Env) (src : Bytes) (r : Request) (s : State)

def NoMore (l l' : FleetState) : Prop := ∀ key cap, l'.allows key cap = true → l.allows key cap = true

theorem noMore_of_operators {l l' : FleetState} (h : l'.operators = l.operators) : NoMore l l' := by
  intro key cap hallows
  rwa [allows_congr h] at hallows

/-- **What a handler of a signed frame comes to**: no nonce is used, no right is given, and what starts is of the
type, and permitted. -/
structure Gated (kind : Signed) (out : Out) : Prop where
  nonces : out.1.nonces = s.nonces
  noMore : NoMore s.ledger out.1.ledger
  permits : ∀ src' op, Effect.started src' op ∈ out.2 → src' = src ∧ kindOf op = kind ∧ Permits s.ledger src op

variable {src s} {kind : Signed}

/-- **A frame of enrolment leaves all but the ledger and what it opened.** -/
theorem aside_handle (hkind : asksFor kind = false) : aside (handle c env src r s kind).1 = aside s := by
  cases kind with
  | enrolRequest =>
    show aside (onEnrolRequest env src r s).1 = _
    unfold onEnrolRequest
    split
    · rfl
    · split <;> rfl
  | enrolGrant =>
    show aside (onEnrolGrant c src r s).1 = _
    unfold onEnrolGrant
    dsimp only
    repeat' split
    all_goals first
      | rfl
      | exact (aside_of_still (still_spawn (fun _ _ => rfl) _)).trans rfl
  | enrolDeny => rfl
  | enrolRevoke => exact (aside_of_still (still_dropAll src s)).trans rfl
  | enrolNarrow =>
    show aside (onCapNarrow src r s).1 = _
    unfold onCapNarrow
    dsimp only
    repeat' split
    all_goals first
      | rfl
      | exact (aside_of_still (still_dropBeyond _ _ _)).trans rfl
  | preauthClaim =>
    show aside (onPreauthClaim c src r s).1 = _
    unfold onPreauthClaim
    dsimp only
    repeat' split
    all_goals first
      | rfl
      | exact (aside_of_still (still_spawn (fun _ _ => rfl) _)).trans rfl
  | _ => cases hkind

/-- No machine more is waited for, and none more is managed. -/
structure Closed (l l' : FleetState) : Prop where
  waited : ∀ token ∈ l'.provisioned.keys, token ∈ l.provisioned.keys
  managed : ∀ key ∈ l'.managed.keys, key ∈ l.managed.keys

theorem closed_refl (l : FleetState) : Closed l l := ⟨fun _ h => h, fun _ h => h⟩

theorem closed_of_same {l l' : FleetState} (h : l'.provisioned = l.provisioned ∧ l'.managed = l.managed) : Closed l l' :=
  ⟨fun _ hmem => h.1 ▸ hmem, fun _ hmem => h.2 ▸ hmem⟩

/-- **No right is given, and nothing starts.** -/
def Bare (s : State) (out : Out) : Prop := NoMore s.ledger out.1.ledger ∧ Idle out.2

theorem bare_none : Bare s (s, []) := ⟨fun _ _ h => h, idle_nil⟩

theorem bare_enrolRequest : Bare s (onEnrolRequest env src r s) ∧ Closed s.ledger (onEnrolRequest env src r s).1.ledger := by
  unfold onEnrolRequest
  split
  · exact ⟨bare_none, closed_refl _⟩
  · split
    · exact ⟨bare_none, closed_refl _⟩
    · next caps _ _ =>
      obtain ⟨hoperators, hclosed⟩ := @same_addPendingIn s.ledger (toHex src) r.principal.publicKey caps
        (cleanLabel (r.doc.get? (ascii "label"))) r.proof
        (((s.ledger.operators.get? (toHex src)).map Operator.caps).getD []) env.now
      exact ⟨⟨noMore_of_operators hoperators, idle_ite (idle_event _) idle_nil⟩, closed_of_same hclosed⟩

theorem bare_askStatus {s' : State} {e : Event} (hno : NoMore s.ledger s'.ledger) :
    Bare s (if c.autoStatus then spawn (.askStatus src) s' else s', [.event e]) := by
  refine ⟨?_, idle_event e⟩
  dsimp only
  rw [(quiet (still_asking c src s')).ledger]
  exact hno

theorem bare_enrolGrant : Bare s (onEnrolGrant c src r s) := by
  unfold onEnrolGrant
  split
  · exact bare_none
  · dsimp only
    split
    · exact ⟨noMore_of_operators rfl, idle_nil⟩
    · split
      · exact ⟨noMore_of_operators (same_addManaged _ _ _).1, idle_event _⟩
      · exact bare_askStatus c (noMore_of_operators (same_addManaged _ _ _).1)

theorem bare_revoke : Bare s (onRevoke src s) ∧ Closed s.ledger (onRevoke src s).1.ledger := by
  have hledger : (onRevoke src s).1.ledger = ((s.ledger.removeOperator (toHex src)).2.removeManaged (toHex src)).2 := by
    rw [← (quiet (still_dropAll src s)).ledger]
    rfl
  unfold Bare
  rw [hledger]
  refine ⟨⟨fun key cap hallows => ?_, idle_event _⟩, fun _ h => h, fun _ h => (Dict.mem_keys_pop.mp h).1⟩
  have hallows : (s.ledger.removeOperator (toHex src)).2.allows key cap = true := hallows
  rw [allows_removeOperator] at hallows
  split_ifs at hallows
  exact hallows

theorem bare_capNarrow : Bare s (onCapNarrow src r s) ∧ Closed s.ledger (onCapNarrow src r s).1.ledger := by
  unfold onCapNarrow
  split
  · exact ⟨bare_none, closed_refl _⟩
  · next caps hcaps =>
    have hno : NoMore s.ledger (s.ledger.setOperatorCaps (toHex src) caps true).2 :=
      fun key cap h => allows_of_narrow h
    have hclosed := closed_of_same (@same_setOperatorCaps s.ledger (toHex src) caps true)
    dsimp only
    split
    · exact ⟨⟨hno, idle_nil⟩, hclosed⟩
    · unfold Bare
      dsimp only
      rw [(quiet (still_dropBeyond _ _ _)).ledger]
      exact ⟨⟨hno, idle_event _⟩, hclosed⟩

theorem bare_preauthClaim : Bare s (onPreauthClaim c src r s) := by
  unfold onPreauthClaim
  split
  · split
    · exact bare_none
    · split
      · exact bare_none
      · dsimp only
        split
        · exact bare_none
        · split
          · exact ⟨noMore_of_operators rfl, idle_nil⟩
          · exact bare_askStatus c (noMore_of_operators (same_addManaged _ _ _).1)
  · exact bare_none

theorem closed_handle (hkind : asksFor kind = false) (hgrant : kind ≠ .enrolGrant) (hclaim : kind ≠ .preauthClaim) :
    Closed s.ledger (handle c env src r s kind).1.ledger := by
  cases kind with
  | enrolRequest => exact (bare_enrolRequest env r).2
  | enrolGrant => exact absurd rfl hgrant
  | enrolDeny => exact closed_of_same ⟨rfl, rfl⟩
  | enrolRevoke => exact bare_revoke.2
  | enrolNarrow => exact (bare_capNarrow r).2
  | preauthClaim => exact absurd rfl hclaim
  | _ => cases hkind

theorem gated_handle (kind : Signed) : Gated src s kind (handle c env src r s kind) := by
  by_cases hasks : asksFor kind = true
  · have h : Requested c env src r.doc s kind (handle c env src r s kind) := request_spec r hasks
    refine ⟨(quiet_requested h).nonces, noMore_of_operators (by rw [(quiet_requested h).ledger]), ?_⟩
    intro src' op hstarted
    obtain ⟨op', heq, hkind, hpermits⟩ := permits_of_requested h _ hstarted
    obtain ⟨rfl, rfl⟩ := Effect.started.inj heq
    exact ⟨rfl, hkind, hpermits⟩
  · have hbare : Bare s (handle c env src r s kind) := by
      cases kind with
      | enrolRequest => exact (bare_enrolRequest env r).1
      | enrolGrant => exact bare_enrolGrant c r
      | enrolDeny => exact ⟨noMore_of_operators rfl, idle_event _⟩
      | enrolRevoke => exact bare_revoke.1
      | enrolNarrow => exact (bare_capNarrow r).1
      | preauthClaim => exact bare_preauthClaim c r
      | _ => exact absurd rfl hasks
    have haside : aside (handle c env src r s kind).1 = aside s := aside_handle c env r ((Bool.not_eq_true _).mp hasks)
    exact ⟨congrArg Prod.fst (desk_of_aside haside), hbare.1, fun src' op h => absurd h (hbare.2 src' op)⟩

end Handlers

/-! ### What is asked for here -/

section Calls

variable {s : State} {key : Text} {cap : Cap}

/-- **A right is given here**: an approval of a request that asked for it, a change of what an operator may, or a
claim of this node by its operator. -/
def GivenHere (s : State) (key : Text) (cap : Cap) : Action → Prop
  | .call _ (.approveEnrolment k _) =>
    k = key ∧ ∃ asked, s.ledger.pendingIn.get? key = some asked ∧ cap ∈ effective asked.caps
  | .call _ (.setOperatorCapabilities k _) => k = key
  | .call _ (.claimPreauth operatorId _ _ _) => toHex operatorId = key
  | _ => False

theorem grantedOf_subset {asked : List Cap} {caps : Option (List Text)} (h : cap ∈ grantedOf asked caps) :
    cap ∈ asked := by
  unfold grantedOf at h
  split at h
  · exact mem_clean.mp h
  · exact mem_clean.mp h
  · exact mem_clean.mp (of_decide_eq_true (List.mem_filter.mp h).2)

/-- **What an action may make of the ledger**: rights are given as here, no machine more is waited for, and none more
is managed. -/
def Gives (s : State) (a : Action) (l : FleetState) : Prop :=
  (∀ key cap, l.allows key cap = true → s.ledger.allows key cap = true ∨ GivenHere s key cap a) ∧ Closed s.ledger l

variable {a : Action} {l : FleetState}

theorem gives_same (hoperators : l.operators = s.ledger.operators)
    (hclosed : l.provisioned = s.ledger.provisioned ∧ l.managed = s.ledger.managed) : Gives s a l :=
  ⟨fun key cap h => Or.inl (noMore_of_operators hoperators key cap h), closed_of_same hclosed⟩

theorem gives_added {l' : FleetState} {k label : Text} {pub proof : Bytes} {caps : List Cap}
    (h : l'.addOperator k pub caps label proof = some l) (hoperators : l'.operators = s.ledger.operators)
    (hclosed : l'.provisioned = s.ledger.provisioned ∧ l'.managed = s.ledger.managed)
    (hgiven : ∀ cap ∈ effective caps, GivenHere s k cap a) : Gives s a l := by
  obtain ⟨-, hmanaged, -, hwaited⟩ := addOperator_spec h
  refine ⟨fun key cap hallows => ?_, closed_of_same ⟨hwaited.trans hclosed.1, hmanaged.trans hclosed.2⟩⟩
  rw [allows_addOperator h] at hallows
  split_ifs at hallows with hk
  · subst hk
    exact Or.inr (hgiven cap (of_decide_eq_true hallows))
  · exact Or.inl (noMore_of_operators hoperators key cap hallows)

theorem gives_approve (now : ℚ) (k : Text) (caps : Option (List Text)) :
    Gives s (.call now (.approveEnrolment k caps)) (approveEnrolment s k caps).ledger := by
  unfold approveEnrolment takePendingIn
  cases hasked : s.ledger.pendingIn.get? k with
  | none => exact gives_same rfl ⟨rfl, rfl⟩
  | some asked =>
    dsimp only
    split
    · exact gives_same rfl ⟨rfl, rfl⟩
    · split
      · exact gives_same rfl ⟨rfl, rfl⟩
      · next l hl =>
        exact gives_added hl rfl ⟨rfl, rfl⟩ fun cap h =>
          ⟨rfl, asked, hasked, effective_mono (fun _ => grantedOf_subset) h⟩

theorem ledger_revoke (k : Text) :
    (revoke s k).ledger = (((s.ledger.removeOperator k).2.removeManaged k).2.dropPendingOut k).2 := by
  unfold revoke
  dsimp only
  split
  · rfl
  · split
    · rfl
    · rw [(quiet (still_dropAll _ _)).ledger]

theorem aside_revoke (k : Text) : aside (revoke s k) = aside s := by
  unfold revoke
  dsimp only
  split
  · rfl
  · split
    · rfl
    · exact (aside_of_still (still_dropAll _ _)).trans rfl

theorem gives_revoke (k : Text) : Gives s a (revoke s k).ledger := by
  rw [ledger_revoke]
  refine ⟨fun key cap h => Or.inl ?_, fun _ h => h, fun _ h => (Dict.mem_keys_pop.mp h).1⟩
  have h : (s.ledger.removeOperator k).2.allows key cap = true := h
  rw [allows_removeOperator] at h
  split_ifs at h
  exact h

theorem gives_dropCapabilities (k : Text) (caps : List Cap) : Gives s a (dropCapabilities s k caps).1.ledger := by
  unfold dropCapabilities
  split
  · exact gives_same rfl ⟨rfl, rfl⟩
  · next entry hentry =>
    dsimp only
    split
    · exact gives_same rfl ⟨rfl, rfl⟩
    · split
      · exact gives_revoke k
      · split
        · exact gives_same rfl ⟨rfl, rfl⟩
        · refine ⟨fun key cap h => Or.inl (noMore_of_operators (same_addManaged _ _ _).1 key cap h), fun _ hmem => ?_,
            fun key hmem => ?_⟩
          · exact (same_addManaged _ _ _).2 ▸ hmem
          · rcases mem_managed_addManaged hmem with hmem | rfl
            · exact hmem
            · exact Dict.mem_keys_of_get? hentry

theorem gives_setOperatorCapabilities (now : ℚ) (k : Text) (caps : List Text) :
    Gives s (.call now (.setOperatorCapabilities k caps)) (setOperatorCapabilities s k caps).1.ledger := by
  have hset : Gives s (.call now (.setOperatorCapabilities k caps))
      (s.ledger.setOperatorCaps k (cleanNames caps) false).2 := by
    refine ⟨fun key cap h => ?_, closed_of_same (same_setOperatorCaps _ _)⟩
    rw [allows_setOperatorCaps] at h
    split_ifs at h with hk
    · exact Or.inr hk
    · exact Or.inl h
  unfold setOperatorCapabilities
  split
  · exact gives_same rfl ⟨rfl, rfl⟩
  · split
    · split
      · exact gives_same rfl ⟨rfl, rfl⟩
      · exact gives_revoke k
    · dsimp only
      split
      · exact hset
      · split
        · exact hset
        · rw [(quiet (still_dropBeyond _ _ _)).ledger]
          exact hset

theorem gives_claimPreauth (now : ℚ) (operatorId operatorPub : Bytes) (caps : List Text) (label : Text) :
    Gives s (.call now (.claimPreauth operatorId operatorPub caps label))
      (claimPreauth s operatorId operatorPub (cleanNames caps) label).ledger := by
  unfold claimPreauth
  split
  · exact gives_same rfl ⟨rfl, rfl⟩
  · split
    · exact gives_same rfl ⟨rfl, rfl⟩
    · next l hl => exact gives_added hl rfl ⟨rfl, rfl⟩ fun _ _ => rfl

theorem gives_requestEnrolment (now : ℚ) (target : Bytes) (caps : List Cap) (label : Text) :
    Gives s a (requestEnrolment now s target caps label).ledger := by
  unfold requestEnrolment
  split
  · exact gives_same rfl ⟨rfl, rfl⟩
  · exact gives_same (same_addPendingOut _ _ _).1 (same_addPendingOut _ _ _).2

/-- Is a machine waited for by the call? -/
def isLocal : Call → Bool
  | .provisionLocal _ _ _ _ => true
  | _ => false

theorem gives_call (now : ℚ) {call : Call} (h : isLocal call = false) :
    Gives s (.call now call) (performCall now s call).1.ledger := by
  cases call with
  | requestEnrolment target caps label => exact gives_requestEnrolment _ _ _ _
  | requestCapabilities target caps =>
    show Gives s _ (requestCapabilities now s target (cleanNames caps)).ledger
    unfold requestCapabilities
    split
    · exact gives_same rfl ⟨rfl, rfl⟩
    · split
      · exact gives_same rfl ⟨rfl, rfl⟩
      · exact gives_requestEnrolment _ _ _ _
  | approveEnrolment k caps => exact gives_approve now k caps
  | revoke k => exact gives_revoke k
  | dropCapabilities k caps => exact gives_dropCapabilities k _
  | setOperatorCapabilities k caps => exact gives_setOperatorCapabilities now k caps
  | claimPreauth operatorId operatorPub caps label => exact gives_claimPreauth now operatorId operatorPub caps label
  | request target kind rid => cases kind <;> exact gives_same rfl ⟨rfl, rfl⟩
  | provisionLocal digest host caps label => cases h
  | _ => exact gives_same rfl ⟨rfl, rfl⟩

theorem given_call {now : ℚ} {call : Call} (h : (performCall now s call).1.ledger.allows key cap = true) :
    s.ledger.allows key cap = true ∨ GivenHere s key cap (.call now call) := by
  cases hlocal : isLocal call with
  | false => exact (gives_call now hlocal).1 key cap h
  | true =>
    cases call with
    | provisionLocal digest host caps label => exact Or.inl h
    | _ => cases hlocal

/-- Does a call ask a node something, or take that back? -/
def inquires : Call → Bool
  | .request _ _ _ => true
  | .followLogs _ _ _ => true
  | .followLinks _ _ _ => true
  | .callOver _ => true
  | _ => false

/-- **Another call leaves all but the ledger and what it opened.** -/
theorem aside_call (now : ℚ) {call : Call} (h : inquires call = false) : aside (performCall now s call).1 = aside s := by
  cases call with
  | requestEnrolment target caps label =>
    show aside (requestEnrolment _ _ _ _ _) = _
    unfold requestEnrolment
    split <;> rfl
  | requestCapabilities target caps =>
    show aside (requestCapabilities _ _ _ _) = _
    unfold requestCapabilities requestEnrolment
    repeat' split
    all_goals rfl
  | approveEnrolment k caps =>
    show aside (approveEnrolment _ _ _) = _
    unfold approveEnrolment
    dsimp only
    repeat' split
    all_goals rfl
  | revoke k => exact aside_revoke k
  | dropCapabilities k caps =>
    show aside (dropCapabilities _ _ _).1 = _
    unfold dropCapabilities
    dsimp only
    repeat' split
    all_goals first
      | rfl
      | exact aside_revoke k
  | setOperatorCapabilities k caps =>
    show aside (setOperatorCapabilities _ _ _).1 = _
    unfold setOperatorCapabilities
    dsimp only
    repeat' split
    all_goals first
      | rfl
      | exact aside_revoke k
      | exact (aside_of_still (still_dropBeyond _ _ _)).trans rfl
  | claimPreauth operatorId operatorPub caps label =>
    show aside (claimPreauth _ _ _ _ _) = _
    unfold claimPreauth
    repeat' split
    all_goals rfl
  | request | followLogs | followLinks | callOver => cases h
  | _ => rfl

theorem desk_call (now : ℚ) (call : Call) : desk (performCall now s call).1 = desk s := by
  cases h : inquires call with
  | false => exact desk_of_aside (aside_call now h)
  | true =>
    cases call with
    | request target kind rid => cases kind <;> rfl
    | followLogs | followLinks | callOver => rfl
    | _ => cases h

theorem idle_call (now : ℚ) (call : Call) : Idle (performCall now s call).2 := by
  cases call with
  | dropCapabilities k caps =>
    show Idle (dropCapabilities _ _ _).2
    unfold dropCapabilities
    dsimp only
    repeat' split
    all_goals first
      | exact idle_nil
      | exact idle_event _
  | setOperatorCapabilities k caps =>
    show Idle (setOperatorCapabilities _ _ _).2
    unfold setOperatorCapabilities
    dsimp only
    repeat' split
    all_goals first
      | exact idle_nil
      | exact idle_event _
  | _ => exact idle_nil

end Calls

/-! ### Assertions that are used up -/

section Uses

variable (c : Config)

/-- The assertion a body carries, if it passes every check, and its nonce is new. -/
def taken (W : World) (kind : Signed) (body : Bytes) (nonces : NonceCache) (stamp : ℕ) : Option Assertion :=
  (splitBody body).bind fun (assertion, raw) =>
    if (verifyAssertion W.K assertion W.appId W.nodeId (some kind.purpose) (some (ctxOf W kind raw)) nonces stamp).1.isSome
    then parseAssertion assertion else none

def uses (s : State) : Action → List Assertion
  | .frame env _ (code :: body) =>
    match signedOf code with
    | some kind => if env.allowed then (taken c.world kind body s.nonces env.stamp).toList else []
    | none => []
  | _ => []

def used (s : State) : List Action → List Assertion
  | [] => []
  | a :: as => uses c s a ++ used (step c s a) as

def stampOf : Action → Option ℕ
  | .frame env _ _ => some env.stamp
  | _ => none

def Room (s : State) (a : Action) : Prop := ∀ stamp ∈ stampOf a, Roomy stamp s.nonces

/-- **Every assertion that was used up is in the cache**, while it is alive. -/
structure Kept (s : State) (before : List Assertion) (now : ℕ) : Prop where
  fits : ∀ x ∈ before, x.Fits
  alive : ∀ x ∈ before, now < x.expiresAt → s.nonces.seen.get? x.nonce = some x.expiresAt

variable {c} {s : State} {before : List Assertion} {now : ℕ}

theorem taken_spec {kind : Signed} {body : Bytes} {stamp : ℕ} {x : Assertion} (src : Bytes)
    (h : taken c.world kind body s.nonces stamp = some x) :
    x.Fits ∧ (openSigned c.world src kind body s.nonces stamp).2.seen.get? x.nonce = some x.expiresAt := by
  obtain ⟨⟨assertion, raw⟩, hsplit, h⟩ := Option.bind_eq_some_iff.mp h
  dsimp only at h
  split_ifs at h with hsome
  obtain ⟨principal, hprincipal⟩ := Option.isSome_iff_exists.mp hsome
  obtain ⟨y, hparse, -, -, hthere, -⟩ := verify_spec hprincipal
  obtain rfl := Option.mem_unique hparse h
  refine ⟨(fits_of_parse hparse).1, ?_⟩
  unfold openSigned
  rw [hsplit]
  exact hthere

theorem nonces_frame {env : Env} {src payload : Bytes} :
    (dispatch c env src payload s).1.nonces = s.nonces ∧ uses c s (.frame env src payload) = [] ∨
      ∃ (kind : Signed) (body : Bytes), payload = kind.code :: body ∧
        (dispatch c env src payload s).1.nonces = (openSigned c.world src kind body s.nonces env.stamp).2 ∧
        uses c s (.frame env src payload) = (taken c.world kind body s.nonces env.stamp).toList := by
  cases payload with
  | nil => exact Or.inl ⟨rfl, rfl⟩
  | cons code body =>
    cases hsigned : signedOf code with
    | none =>
      have huses : uses c s (.frame env src (code :: body)) = [] := by
        unfold uses
        dsimp only
        rw [hsigned]
      refine Or.inl ⟨?_, huses⟩
      unfold dispatch
      dsimp only
      rw [hsigned]
      dsimp only
      split
      · exact (quiet (still_stream _ _ _ _ _)).nonces
      · split
        · exact (told_answer c src _ _).nonces
        · rfl
    | some kind =>
      obtain rfl := code_of_signedOf hsigned
      have hstream : ¬ kind.code ∈ [shellInput, shellOutput, shellResize, shellClose] := signed_notStream kind
      unfold dispatch uses
      dsimp only
      rw [if_neg hstream, hsigned]
      dsimp only
      by_cases hallowed : env.allowed = false
      · rw [if_pos hallowed, if_neg (by rw [hallowed]; decide)]
        exact Or.inl ⟨rfl, rfl⟩
      rw [if_neg hallowed, if_pos ((Bool.not_eq_false _).mp hallowed)]
      refine Or.inr ⟨kind, body, rfl, ?_, rfl⟩
      split
      · rfl
      · exact (gated_handle c env _ kind).nonces

/-- **Whatever happens, what was used up stays in the cache while it is alive.** -/
theorem kept_step {a : Action} (hroom : Room s a) (h : Kept s before now) (hpast : ∀ stamp ∈ stampOf a, stamp ≤ now) :
    Kept (step c s a) (before ++ uses c s a) now := by
  have hsame : ∀ s' : State, s'.nonces = s.nonces → uses c s a = [] → Kept s' (before ++ uses c s a) now := by
    intro s' hnonces huses
    rw [huses, List.append_nil]
    exact ⟨h.fits, fun x hx hlive => by rw [hnonces]; exact h.alive x hx hlive⟩
  cases a with
  | frame env src payload =>
    have hstamp : env.stamp ≤ now := hpast env.stamp rfl
    have hroomy : Roomy env.stamp s.nonces := hroom env.stamp rfl
    rcases @nonces_frame c s env src payload with ⟨hnonces, huses⟩ | ⟨kind, body, rfl, hnonces, huses⟩
    · exact hsame _ hnonces huses
    · have hnonces : (step c s (.frame env src (kind.code :: body))).nonces = _ := hnonces
      rw [huses]
      refine ⟨fun x hx => ?_, fun x hx hlive => ?_⟩
      · rcases List.mem_append.mp hx with hx | hx
        · exact h.fits x hx
        · exact (taken_spec src (Option.mem_toList.mp hx)).1
      · rw [hnonces]
        rcases List.mem_append.mp hx with hx | hx
        · exact get?_openSigned hroomy (h.alive x hx hlive) (lt_of_le_of_lt hstamp hlive)
        · exact (taken_spec src (Option.mem_toList.mp hx)).2
  | call now call => exact hsame _ (congrArg Prod.fst (desk_call _ _)) rfl
  | job i o =>
    refine hsame _ ?_ rfl
    rcases quiet_runJob c.world i o s with hquiet | ⟨target, -, heq⟩
    · exact hquiet.nonces
    · rw [step, perform, heq]
      rfl
  | _ => exact hsame _ (quiet (still_alone c rfl)).nonces rfl

theorem kept_run {acts : List Action} : ∀ {s : State} {before : List Assertion}, Guarded (step c) Room s acts →
    Kept s before now → (∀ stamp ∈ acts.filterMap stampOf, stamp ≤ now) →
      Kept (run (step c) s acts) (before ++ used c s acts) now := by
  induction acts with
  | nil =>
    intro s before _ h _
    rw [used, List.append_nil]
    exact h
  | cons a acts ih =>
    intro s before hroom h hpast
    rw [used, ← List.append_assoc, run_cons]
    refine ih hroom.2 (kept_step hroom.1 h fun stamp hstamp => ?_) fun stamp hstamp => ?_
    · exact hpast stamp (List.mem_filterMap.mpr ⟨a, List.mem_cons_self, hstamp⟩)
    · obtain ⟨b, hb, hb'⟩ := List.mem_filterMap.mp hstamp
      exact hpast stamp (List.mem_filterMap.mpr ⟨b, List.mem_cons_of_mem _ hb, hb'⟩)

end Uses

/-! ### Runs -/

section Gating

variable (c : Config) (Signs : Bytes → Bytes → Prop) (T : Set Bytes) (Here : Bytes → Prop)

/-- **What a frame carries that starts an operation**: an assertion its sender signed, addressed `Here`, of this app,
under the purpose of the type, over the type and these bytes (and over no others that the digest tells apart), and
alive. -/
structure Carries (stamp : ℕ) (src : Bytes) (kind : Signed) (raw : Bytes) (x : Assertion) : Prop where
  signs : Signs src x.signedBody
  app : x.appId = c.world.appId
  audience : Here x.audience
  purpose : encodeUtf8 kind.purpose = some x.purpose
  ctx : x.ctx = ctxOf c.world kind raw
  only : ∀ kind' raw', ctxInput [fleetTag, [kind.code], raw] ∈ T → ctxInput [fleetTag, [kind'.code], raw'] ∈ T →
    x.ctx = ctxOf c.world kind' raw' → kind' = kind ∧ raw' = raw
  fresh : x.issuedAt ≤ stamp + maxSkew ∧ stamp < x.expiresAt

/-- An operation starts only by a frame that carries an assertion not used before, and is permitted then. -/
def StartsBy (s : State) (before : List Assertion) (a : Action) : Prop :=
  ∀ src op, Effect.started src op ∈ (perform c s a).2 →
    ∃ env body proof raw x, a = .frame env src ((kindOf op).code :: body) ∧ splitBody body = some (proof, raw) ∧
      parseAssertion proof = some x ∧ Carries c Signs T Here env.stamp src (kindOf op) raw x ∧
      x.signedBody ∉ before.map signedBody ∧ Permits s.ledger src op

def ThreeGates (s : State) (acts : List Action) : Prop :=
  ∀ pre a post, acts = pre ++ a :: post →
    StartsBy c Signs T Here (run (step c) s pre) (used c s pre) a ∧
      ∀ key cap, (run (step c) s pre).ledger.allows key cap = false →
        (step c (run (step c) s pre) a).ledger.allows key cap = true → GivenHere (run (step c) s pre) key cap a

variable {c Signs T Here} {s : State} {before : List Assertion}

theorem notMem_of_kept {x : Assertion} {stamp : ℕ} (hkept : Kept s before stamp) (hfits : x.Fits)
    (hlive : stamp < x.expiresAt) (hnew : ∀ e, s.nonces.seen.get? x.nonce = some e → e ≤ stamp) :
    x.signedBody ∉ before.map signedBody := by
  intro hmem
  obtain ⟨y, hy, heq⟩ := List.mem_map.mp hmem
  have hunsigned := signedBody_inj (hkept.fits y hy) hfits heq
  have hnonce : y.nonce = x.nonce := (fields_of_unsigned hunsigned).2.2.2.1
  have hexpires : y.expiresAt = x.expiresAt :=
    show y.unsigned.expiresAt = x.unsigned.expiresAt from congrArg Assertion.expiresAt hunsigned
  have hthere := hkept.alive y hy (hexpires.symm ▸ hlive)
  rw [hnonce, hexpires] at hthere
  have := hnew _ hthere
  omega

theorem started_carries (hideal : ∀ body sig key, c.world.K.verify body sig key = true → Signs (c.world.K.idOf key) body)
    (hinj : Set.InjOn c.world.K.sha256 T) {a : Action} (hkept : ∀ stamp ∈ stampOf a, Kept s before stamp) :
    StartsBy c Signs T (fun audience => audience = c.world.nodeId ∨ audience = anyAudience) s before a := by
  intro src op hstarted
  have hidle : ∀ {effects : List Effect}, Effect.started src op ∈ effects → ¬ Idle effects := fun h hno => hno src op h
  cases a with
  | frame env sender payload =>
    have hframe := dispatch_spec c env sender payload s
    have hstarted : Effect.started src op ∈ (dispatch c env sender payload s).2 := hstarted
    generalize dispatch c env sender payload s = out at hframe hstarted
    cases hframe with
    | nothing | shut kind body hallowed hopen => cases hstarted
    | stream code body hcode => exact absurd (idle_stream _ _ _ _ _) (hidle hstarted)
    | opened kind body r hallowed hopen =>
      obtain ⟨rfl, rfl, hpermits⟩ := (gated_handle c env r kind).permits src op hstarted
      obtain ⟨hsplit, -, x, hparse, ⟨happ, haudience, hpurpose, hctx, hfresh, hverify⟩, -, hid, -, hnew⟩ :=
        openSigned_spec hopen
      have hctx : x.ctx = ctxOf c.world (kindOf op) r.raw := hctx _ rfl
      refine ⟨env, body, r.proof, r.raw, x, rfl, hsplit, hparse, ⟨?_, happ, haudience, hpurpose _ rfl, hctx, ?_, hfresh⟩, ?_,
        hpermits⟩
      · rw [← hid]
        exact hideal _ _ _ hverify
      · intro kind' raw' hmem hmem' heq
        exact ctx_inj hinj hmem' hmem (heq.symm.trans hctx)
      · exact notMem_of_kept (hkept _ rfl) (fits_of_parse hparse).1 hfresh.2 hnew
    | replied kind body doc hdoc => exact absurd (told_answer c sender doc kind).idle (hidle hstarted)
  | call now call => exact absurd (idle_call now call) (hidle hstarted)
  | job i o => cases hstarted
  | say i kind => cases hstarted
  | logTick now batch => cases hstarted
  | linkTick now changed => cases hstarted
  | reap sids uploads => cases hstarted
  | ended sid => cases hstarted

theorem noMore_quiet {s' : State} (h : Quiet s s') : NoMore s.ledger s'.ledger :=
  noMore_of_operators (by rw [h.ledger])

theorem allowed_here {a : Action} {key : Text} {cap : Cap} (hno : s.ledger.allows key cap = false)
    (h : (step c s a).ledger.allows key cap = true) : GivenHere s key cap a := by
  have hcontra : ∀ {s' : State}, NoMore s.ledger s'.ledger → s'.ledger.allows key cap = true → False := by
    intro s' hmore h
    rw [hmore key cap h] at hno
    cases hno
  cases a with
  | frame env sender payload =>
    refine (hcontra ?_ h).elim
    have hframe := dispatch_spec c env sender payload s
    show NoMore s.ledger (dispatch c env sender payload s).1.ledger
    generalize dispatch c env sender payload s = out at hframe
    cases hframe with
    | nothing | shut kind body hallowed hopen => exact fun _ _ h => h
    | stream code body hcode => exact noMore_quiet (quiet (still_stream _ _ _ _ _))
    | opened kind body r hallowed hopen => exact (gated_handle c env r kind).noMore
    | replied kind body doc hdoc => exact noMore_of_operators (told_answer c sender doc kind).ledger.1
  | call now call =>
    rcases given_call h with h | h
    · rw [h] at hno
      cases hno
    · exact h
  | job i o =>
    refine (hcontra ?_ h).elim
    rcases quiet_runJob c.world i o s with hquiet | ⟨target, -, heq⟩
    · exact noMore_quiet hquiet
    · refine noMore_of_operators ?_
      rw [step, perform, heq]
      rfl
  | _ => exact (hcontra (noMore_quiet (quiet (still_alone c rfl))) h).elim

theorem kept_nil (s : State) (now : ℕ) : Kept s [] now := ⟨fun _ h => (nomatch h), fun _ h => (nomatch h)⟩

/-- **The three gates hold in every run**: of an app over any ledger, where signatures are ideal, no nonce has to make
room for another and the clock does not go back. -/
theorem gates (hideal : ∀ body sig key, c.world.K.verify body sig key = true → Signs (c.world.K.idOf key) body)
    (hinj : Set.InjOn c.world.K.sha256 T) (ledger : FleetState) (maxNonces : ℕ) {acts : List Action}
    (hroom : Guarded (step c) Room (start ledger maxNonces) acts)
    (hclock : (acts.filterMap stampOf).Pairwise (· ≤ ·)) :
    ThreeGates c Signs T (fun audience => audience = c.world.nodeId ∨ audience = anyAudience) (start ledger maxNonces)
      acts := by
  rintro pre a post rfl
  refine ⟨started_carries hideal hinj fun stamp hstamp => ?_, fun key cap => allowed_here⟩
  refine kept_run (guarded_append.mp hroom).1 (kept_nil _ stamp) fun earlier hearlier => ?_
  rw [List.filterMap_append, List.pairwise_append] at hclock
  refine hclock.2.2 earlier hearlier stamp ?_
  rw [List.filterMap_cons, hstamp]
  exact List.mem_cons_self

end Gating

/-! ### An assertion for anyone -/

def statusInput : Bytes := ctxInput [fleetTag, [Signed.statusRequest.code], [0x7B, 0x7D]]

def anyones : Assertion where
  appId := List.replicate 8 7
  subjectPub := List.replicate 20 1
  audience := anyAudience
  purpose := (ascii "fleet.status").map UInt8.ofNat
  nonce := List.replicate 16 5
  issuedAt := 990
  ttl := 120
  ctx := (statusInput.reverse ++ List.replicate 32 0).take 32
  signature := [1]

def oneNode : Config where
  world :=
    { K :=
        { sha256 := fun data => (data.reverse ++ List.replicate 32 0).take 32
          idOf := id
          verify := fun body signature key =>
            decide (body = anyones.signedBody ∧ signature = [1] ∧ key = anyones.subjectPub) }
      floatRepr := id
      depth := 4
      str := fun _ => []
      int := fun _ => none
      upper := id
      normal := id
      appId := List.replicate 8 7
      nodeId := List.replicate 20 2 }
  autoStatus := false
  hasInvite := false
  hasTree := false

def oneOperator : FleetState where
  operators := Dict.empty.set (toHex (List.replicate 20 1)) ⟨List.replicate 20 1, [.status], [], []⟩
  managed := .empty
  pendingIn := .empty
  pendingOut := .empty
  provisioned := .empty

def plainly (stamp : ℕ) : Env := ⟨true, stamp, stamp, false, .error [], false, [], false, false⟩

def oneRequest : List Action :=
  [.frame (plainly 1000) (List.replicate 20 1)
    (Signed.statusRequest.code :: (toBE 2 anyones.serialize.length ++ (anyones.serialize ++ [0x7B, 0x7D])))]

def signedOnce (node body : Bytes) : Prop := node = anyones.subjectPub ∧ body = anyones.signedBody

theorem signedOnce_ideal (body sig key : Bytes) (h : oneNode.world.K.verify body sig key = true) :
    signedOnce (oneNode.world.K.idOf key) body := by
  obtain ⟨hbody, -, hkey⟩ := of_decide_eq_true h
  exact ⟨hkey, hbody⟩

theorem oneRequest_room : Guarded (step oneNode) Room (start oneOperator 16) oneRequest := by
  refine ⟨fun stamp hstamp => ?_, trivial⟩
  cases hstamp
  show (NonceCache.expire 1000 ⟨16, .empty⟩).seen.size < 16
  decide +kernel

theorem gates_oneRequest : ThreeGates oneNode signedOnce {statusInput}
    (fun audience => audience = oneNode.world.nodeId ∨ audience = anyAudience) (start oneOperator 16) oneRequest :=
  gates signedOnce_ideal (Set.injOn_singleton _ _) oneOperator 16 oneRequest_room (by decide)

/-- **An assertion for no node in particular starts an operation**: this node need not be named. -/
theorem started_anywhere :
    (∀ body sig key, oneNode.world.K.verify body sig key = true → signedOnce (oneNode.world.K.idOf key) body) ∧
    Guarded (step oneNode) Room (start oneOperator 16) oneRequest ∧
    (oneRequest.filterMap stampOf).Pairwise (· ≤ ·) ∧
    ¬ ThreeGates oneNode signedOnce {statusInput}
      (fun audience => audience = oneNode.world.nodeId) (start oneOperator 16) oneRequest := by
  refine ⟨signedOnce_ideal, oneRequest_room, by decide, fun h => ?_⟩
  obtain ⟨src, op, hstarted⟩ : ∃ src op, Effect.started src op ∈
      (perform oneNode (start oneOperator 16) (oneRequest.head (by decide))).2 := by
    have hany : (perform oneNode (start oneOperator 16) (oneRequest.head (by decide))).2.any
        (fun e => match e with | .started _ _ => true | _ => false) = true := by decide +kernel
    obtain ⟨e, he, htrue⟩ := List.any_eq_true.mp hany
    cases e with
    | started src op => exact ⟨src, op, he⟩
    | event e | answered rid | typed sid => cases htrue
  obtain ⟨env, body, proof, raw, x, heq, hsplit, hparse, hcarries, -⟩ := (h [] _ [] rfl).1 src op hstarted
  have hx : (splitBody (toBE 2 anyones.serialize.length ++ (anyones.serialize ++ [0x7B, 0x7D]))).bind
      (fun parts => parseAssertion parts.1) = some anyones := by decide +kernel
  obtain ⟨-, -, hpayload⟩ := Action.frame.inj heq
  rw [(List.cons.inj hpayload).2, hsplit, Option.bind_some, hparse] at hx
  cases hx
  exact absurd hcarries.audience (by decide)

end NMesh.Fleet.Gates
