import NMesh.Fleet.Gates

/-! # Only what was asked for, from whom it was asked

The operator's side. A run is watched: what was asked for, of whom and under which id; the tokens that were reported
by the node asked to provision, while the request was in flight; the tokens that were redeemed.

* `Counts`: a reply that answers nothing asked for changes nothing and says nothing, and a node is managed only by its
  own grant while it was asked, or by a claim with a reported token that nothing redeemed before;
* `asked_counts`: so it is at every action of a run in which output, progress and errors under an id in flight come
  from the node asked, and no report names a token that was redeemed. -/

namespace NMesh.Fleet.Replies

open Base.BigEndian Base.Utf8 Base.Hex Base.Ordered Base.JsonText Base.Runs
open NMesh.AppAuth.Format NMesh.AppAuth.Verify NMesh.AppAuth.Once
open NMesh.Fleet.Ledger NMesh.Fleet.Messages NMesh.Fleet.Agent NMesh.Fleet.App NMesh.Fleet.Steps NMesh.Fleet.Gates
  FleetState

/-! ### What was asked for -/

/-- A request: its id, the node it was sent to, and what was asked. -/
abbrev Ask := Text × Bytes × Kind

/-- **What was seen of a run**: the requests, the tokens that were reported, and those that were redeemed. -/
structure Past where
  asked : List Ask
  reported : List Text
  redeemed : List Text

abbrev Watched := State × Past

def asks (s : State) : Action → List Ask
  | .call _ (.request target kind rid) => [(rid, target, kind)]
  | .call _ (.followLogs target _ rid) => [(rid, target, .logs)]
  | .call _ (.followLinks target _ rid) => [(rid, target, .links)]
  | .job i o =>
    match s.jobs[i]? with
    | some (.askStatus target) => [(o.rid, target, .status)]
    | _ => []
  | _ => []

/-- **What a reply may answer.** A docker operation streams its output as an update does, and anything can fail. -/
def fits : Reply → Kind → Bool
  | .statusReport, kind => kind = .status
  | .inviteIssued, kind => kind = .invite
  | .logsReply, kind => kind = .logs
  | .linksReply, kind => kind = .links
  | .updateOutput, kind => kind = .update ∨ kind = .docker
  | .updateResult, kind => kind = .update
  | .dockerReply, kind => kind = .docker
  | .shellOpened, kind => kind = .shell
  | .scanResult, kind => kind = .scan
  | .provisionProgress, kind => kind = .provision
  | .provisionResult, kind => kind = .provision
  | .consoleReply, kind => kind = .console
  | .consoleSessionIssued, kind => kind = .session
  | .fileReply, kind => kind = .file
  | .fileData, kind => kind = .file
  | .error, _ => true

/-- A reply from this node, under this id, answers a request. -/
def Answers (asked : List Ask) (src : Bytes) (kind : Reply) (rid : Text) : Prop :=
  ∃ k, fits kind k = true ∧ (rid, src, k) ∈ asked

/-! ### Tokens -/

variable (c : Config)

def replyIn : Bytes → Option (Reply × Json)
  | [] => none
  | code :: body => (replyOf code).bind fun kind => (loadJson c.world body).map fun doc => (kind, doc)

/-- The tokens of the machines that a provisioning run did well. -/
def tokensOf (doc : Json) : List Text := ((resultsOf doc).filter fun result => flag result "ok").filterMap digestIn

def tells : Reply × Json → List Text
  | (.provisionProgress, doc) => (digestIn doc).toList
  | (.provisionResult, doc) => tokensOf doc
  | _ => []

/-- **The tokens that an action reports**: by the node asked to provision, under the request while it is in flight, or
by a run of provisioning here. -/
def reports (w : Watched) : Action → List Text
  | .frame _ src payload =>
    match replyIn c payload with
    | some (kind, doc) =>
      if (ridOf doc, src, Kind.provision) ∈ w.2.asked ∧ w.1.inflight.get? (ridOf doc) = some (src, .provision) then
        (tells (kind, doc)).map (List.take 64)
      else []
    | none => []
  | .call _ (.provisionLocal digest _ _ _) => [digest.take 64]
  | _ => []

def tokenIn (doc : Json) : Option Bytes :=
  match doc.get? (ascii "token") with
  | some (.str tokenHex) => if tokenHex.length ≠ tokenLen * 2 then none else fromHex tokenHex
  | _ => none

def keyOf (token : Bytes) : Text := (tokenDigest c.world token).take 64

/-- The token that a claim redeems, where its machine is waited for. -/
def redeemed (l : FleetState) (doc : Json) : Option Text :=
  ((tokenIn doc).map (keyOf c)).filter fun token => decide (token ∈ l.provisioned.keys)

/-- **The token that an action redeems**: a signed claim takes the record of its token. -/
def redeems (s : State) : Action → Option Text
  | .frame env src (code :: body) =>
    if env.allowed = true ∧ signedOf code = some .preauthClaim then
      (openSigned c.world src .preauthClaim body s.nonces env.stamp).1.bind fun r => redeemed c s.ledger r.doc
    else none
  | _ => none

def note (w : Watched) (a : Action) : Past :=
  ⟨w.2.asked ++ asks w.1 a, w.2.reported ++ reports c w a, w.2.redeemed ++ (redeems c w.1 a).toList⟩

def watch (w : Watched) (a : Action) : Watched := (step c w.1 a, note c w a)

/-- Before a run nothing was asked; the machines that the ledger waits for were reported earlier. -/
def begun (ledger : FleetState) : Past := ⟨[], ledger.provisioned.keys, []⟩

/-! ### The law and its condition -/

/-- **How a node comes to be managed**: by a frame of its own with a signature of its own; a grant, while a request of
ours to it was pending, or a claim whose token was reported and not redeemed before. -/
def Gained (w : Watched) (a : Action) (key : Text) : Prop :=
  ∃ env src kind body r x, a = .frame env src (Signed.code kind :: body) ∧ toHex src = key ∧
    (openSigned c.world src kind body w.1.nonces env.stamp).1 = some r ∧ parseAssertion r.proof = some x ∧
    Checks c.world.K c.world.appId c.world.nodeId (some kind.purpose) (some (ctxOf c.world kind r.raw)) env.stamp x ∧
    c.world.K.idOf x.subjectPub = src ∧
    (kind = .enrolGrant ∧ key ∈ w.1.ledger.pendingOut.keys ∨
      kind = .preauthClaim ∧ ∃ token, tokenIn r.doc = some token ∧ keyOf c token ∈ w.2.reported ∧
        keyOf c token ∉ w.2.redeemed)

/-- **Only what was asked for, from whom it was asked, counts**, at an action. -/
structure Counts (w : Watched) (a : Action) : Prop where
  replies : ∀ env src kind body, a = .frame env src (Reply.code kind :: body) →
    (∀ doc, loadJson c.world body = some doc → ¬ Answers w.2.asked src kind (ridOf doc)) →
    (step c w.1 a).inflight = w.1.inflight ∧ (step c w.1 a).ledger = w.1.ledger ∧
      ∀ e, Effect.event e ∉ (perform c w.1 a).2
  gains : ∀ key ∉ w.1.ledger.managed.keys, key ∈ (step c w.1 a).ledger.managed.keys → Gained c w a key

/-- Is the request in flight one to this node, and one the reply may answer? -/
def Expected (s : State) (src : Bytes) : Reply × Json → Prop
  | (kind, doc) => ∀ entry ∈ s.inflight.get? (ridOf doc), entry.1 = src ∧ fits kind entry.2 = true

/-- The replies whose handlers do not look at who sends them, or too late. -/
def unguarded : Reply → Bool
  | .updateOutput => true
  | .provisionProgress => true
  | .error => true
  | _ => false

/-- **Output, progress and errors come from the node asked.** -/
def FromAsked (s : State) : Action → Prop
  | .frame _ src payload => ∀ told ∈ replyIn c payload, unguarded told.1 = true → Expected s src told
  | _ => True

def Careful (w : Watched) (a : Action) : Prop :=
  FromAsked c w.1 a ∧ ∀ token ∈ reports c w a, token ∉ w.2.redeemed

instance (s : State) (src : Bytes) (told : Reply × Json) : Decidable (Expected s src told) := by
  unfold Expected
  infer_instance

instance (s : State) (a : Action) : Decidable (FromAsked c s a) := by
  cases a <;> unfold FromAsked <;> infer_instance

instance (w : Watched) (a : Action) : Decidable (Careful c w a) := by
  unfold Careful
  infer_instance

/-! ### A reply to nothing asked for -/

section Unasked

variable {c} {s : State} {src : Bytes} {doc : Json}

theorem dispatch_reply (env : Env) (kind : Reply) (body : Bytes) :
    dispatch c env src (kind.code :: body) s =
      match loadJson c.world body with
      | some doc => answer c src doc s kind
      | none => (s, []) := by
  have hstream : ¬ kind.code ∈ [shellInput, shellOutput, shellResize, shellClose] := reply_notStream kind
  unfold dispatch
  dsimp only
  rw [if_neg hstream, reply_notSigned]
  dsimp only
  rw [replyOf_code]
  cases loadJson c.world body <;> rfl

theorem replyIn_reply {kind : Reply} {body : Bytes} (h : loadJson c.world body = some doc) :
    replyIn c (kind.code :: body) = some (kind, doc) := by
  rw [replyIn, replyOf_code, Option.bind_some, h, Option.map_some]

/-- The requests in flight and the ledger stay, and nothing is said. -/
structure Unmoved (s : State) (out : Out) : Prop where
  inflight : out.1.inflight = s.inflight
  ledger : out.1.ledger = s.ledger
  silent : ∀ e, Effect.event e ∉ out.2

theorem unmoved_none (s : State) : Unmoved s (s, []) := ⟨rfl, rfl, fun _ h => nomatch h⟩

theorem unmoved_claim {kind : Kind} {next : State → Out} (h : s.inflight.get? (ridOf doc) ≠ some (src, kind)) :
    Unmoved s (claim src doc s kind next) := by
  unfold claim
  rw [if_neg h]
  exact unmoved_none s

/-- **What was asked for is remembered**: whatever is in flight or followed was asked for, and whatever is waited for
was reported, and not redeemed. -/
structure Recalled (w : Watched) : Prop where
  inflight : ∀ rid target kind, w.1.inflight.get? rid = some (target, kind) → (rid, target, kind) ∈ w.2.asked
  logFollows : ∀ key rid, w.1.logFollows.get? key = some rid →
    ∃ target, toHex target = key ∧ (rid, target, Kind.logs) ∈ w.2.asked
  linkFollows : ∀ key rid, w.1.linkFollows.get? key = some rid →
    ∃ target, toHex target = key ∧ (rid, target, Kind.links) ∈ w.2.asked
  waited : ∀ token ∈ w.1.ledger.provisioned.keys, token ∈ w.2.reported ∧ token ∉ w.2.redeemed

theorem unmoved_answer {w : Watched} {kind : Reply} (h : Recalled w)
    (hno : ¬ Answers w.2.asked src kind (ridOf doc)) (hexpected : unguarded kind = true → Expected w.1 src (kind, doc)) :
    Unmoved w.1 (answer c src doc w.1 kind) := by
  have hflight : ∀ k, fits kind k = true → w.1.inflight.get? (ridOf doc) ≠ some (src, k) :=
    fun k hfits hget => hno ⟨k, hfits, h.inflight _ _ _ hget⟩
  have hlogs : fits kind .logs = true → w.1.logFollows.get? (toHex src) ≠ some (ridOf doc) := by
    intro hfits hget
    obtain ⟨target, htarget, hasked⟩ := h.logFollows _ _ hget
    rw [toHex_inj htarget] at hasked
    exact hno ⟨.logs, hfits, hasked⟩
  have hlinks : fits kind .links = true → w.1.linkFollows.get? (toHex src) ≠ some (ridOf doc) := by
    intro hfits hget
    obtain ⟨target, htarget, hasked⟩ := h.linkFollows _ _ hget
    rw [toHex_inj htarget] at hasked
    exact hno ⟨.links, hfits, hasked⟩
  have hnone : unguarded kind = true → w.1.inflight.get? (ridOf doc) = none := by
    intro hopen
    cases hget : w.1.inflight.get? (ridOf doc) with
    | none => rfl
    | some entry =>
      obtain ⟨rfl, hfits⟩ := hexpected hopen entry hget
      exact absurd hget (hflight entry.2 hfits)
  cases kind with
  | statusReport =>
    show Unmoved w.1 (onStatusReport src doc w.1)
    exact unmoved_claim (hflight .status rfl)
  | inviteIssued =>
    show Unmoved w.1 (onInviteIssued src doc w.1)
    exact unmoved_claim (hflight .invite rfl)
  | logsReply =>
    show Unmoved w.1 (onLogsReply c src doc w.1)
    unfold onLogsReply
    rw [if_pos (hlogs rfl)]
    split
    · exact unmoved_none w.1
    · exact unmoved_claim (hflight .logs rfl)
  | linksReply =>
    show Unmoved w.1 (onLinksReply src doc w.1)
    unfold onLinksReply
    rw [if_pos (hlinks rfl)]
    split
    · exact unmoved_none w.1
    · exact unmoved_claim (hflight .links rfl)
  | updateOutput =>
    show Unmoved w.1 (onUpdateOutput src doc w.1)
    unfold onUpdateOutput
    rw [if_pos (Dict.get?_eq_none.mp (hnone rfl))]
    exact unmoved_none w.1
  | updateResult =>
    show Unmoved w.1 (onUpdateResult c src doc w.1)
    exact unmoved_claim (hflight .update rfl)
  | dockerReply =>
    show Unmoved w.1 (onDockerReply src doc w.1)
    exact unmoved_claim (hflight .docker rfl)
  | shellOpened =>
    show Unmoved w.1 (onShellOpened src doc w.1)
    exact unmoved_claim (hflight .shell rfl)
  | scanResult =>
    show Unmoved w.1 (onScanResult src doc w.1)
    exact unmoved_claim (hflight .scan rfl)
  | provisionProgress =>
    show Unmoved w.1 (onProvisionProgress c src doc w.1)
    unfold onProvisionProgress
    rw [if_pos (Dict.get?_eq_none.mp (hnone rfl))]
    exact unmoved_none w.1
  | provisionResult =>
    show Unmoved w.1 (onProvisionResult c src doc w.1)
    exact unmoved_claim (hflight .provision rfl)
  | consoleReply =>
    show Unmoved w.1 (onConsoleReply c src doc w.1)
    unfold onConsoleReply
    split
    · exact unmoved_none w.1
    · rw [if_pos (hflight .console rfl)]
      exact unmoved_none w.1
  | consoleSessionIssued =>
    show Unmoved w.1 (onConsoleSessionIssued src doc w.1)
    exact unmoved_claim (hflight .session rfl)
  | fileReply | fileData =>
    show Unmoved w.1 (onFileReply src doc w.1)
    unfold onFileReply
    rw [if_pos (Or.inr (hflight .file rfl))]
    exact unmoved_none w.1
  | error =>
    show Unmoved w.1 (onError c src doc w.1)
    unfold onError
    dsimp only
    rw [hnone rfl, Dict.pop_of_notMem (Dict.get?_eq_none.mp (hnone rfl))]
    exact unmoved_none w.1

end Unasked

/-! ### What an action adds -/

/-- Nothing more is in flight, followed or waited for. -/
structure Steady (s s' : State) : Prop where
  inflight : ∀ rid entry, s'.inflight.get? rid = some entry → s.inflight.get? rid = some entry
  logFollows : s'.logFollows = s.logFollows
  linkFollows : s'.linkFollows = s.linkFollows
  waited : ∀ token ∈ s'.ledger.provisioned.keys, token ∈ s.ledger.provisioned.keys

def NoNew (s s' : State) : Prop := ∀ key ∈ s'.ledger.managed.keys, key ∈ s.ledger.managed.keys

section Adds

variable {c} {s : State} {key k : Text} {src : Bytes} {doc : Json}

theorem steady_of_aside {s' : State} (h : aside s' = aside s)
    (hwaited : ∀ token ∈ s'.ledger.provisioned.keys, token ∈ s.ledger.provisioned.keys) : Steady s s' :=
  ⟨fun rid _ hget => (congrArg (fun x => x.1.get? rid) h).symm.trans hget, congrArg (fun x => x.2.1) h,
    congrArg (fun x => x.2.2.1) h, hwaited⟩

theorem Steady.refl (s : State) : Steady s s := ⟨fun _ _ h => h, rfl, rfl, fun _ h => h⟩

theorem steady_ledger (l : FleetState) (h : l.provisioned = s.ledger.provisioned) : Steady s { s with ledger := l } :=
  steady_of_aside rfl fun _ hmem => h ▸ hmem

variable {s' : State}

theorem steady_of_quiet (h : Quiet s s') : Steady s s' :=
  ⟨fun _ _ hget => h.inflight ▸ hget, h.logFollows, h.linkFollows, fun _ hmem => h.ledger ▸ hmem⟩

theorem Steady.quiet {s'' : State} (h : Steady s s') (h' : Quiet s' s'') : Steady s s'' :=
  ⟨fun rid entry hget => h.inflight rid entry (h'.inflight ▸ hget), h'.logFollows.trans h.logFollows,
    h'.linkFollows.trans h.linkFollows, fun token hmem => h.waited token (h'.ledger ▸ hmem)⟩

theorem noNew_of_managed (h : s'.ledger.managed = s.ledger.managed) : NoNew s s' :=
  fun _ hmem => h ▸ hmem

theorem noNew_of_quiet (h : Quiet s s') : NoNew s s' := noNew_of_managed (by rw [h.ledger])

/-! ### The ledger -/

variable {l : FleetState} {caps : List Cap} {label : Text} {grant : Bytes}

theorem mem_provisioned_addManaged :
    k ∈ (l.addManaged key caps label grant).provisioned.keys ↔ k ∈ l.provisioned.keys := by
  rw [(same_addManaged _ _ _).2]

theorem mem_addProvisioned {digest host : Text} (h : k ∈ (l.addProvisioned digest host caps label).provisioned.keys) :
    k ∈ l.provisioned.keys ∨ k = digest.take 64 := by
  unfold addProvisioned at h
  dsimp only at h
  rcases Dict.mem_keys_set.mp h with rfl | h
  · exact Or.inr rfl
  · obtain ⟨v, hget⟩ := Dict.mem_keys.mp h
    exact Or.inl (Dict.mem_keys_of_get? (Dict.get?_of_makeRoom hget))

/-! ### Frames -/

variable (env : Env) (r : Request)

theorem steady_handle {kind : Signed} (hgrant : kind ≠ .enrolGrant) (hclaim : kind ≠ .preauthClaim) :
    Steady s (handle c env src r s kind).1 ∧ NoNew s (handle c env src r s kind).1 := by
  cases hasks : asksFor kind with
  | true =>
    have hquiet : Quiet s (handle c env src r s kind).1 := quiet_requested (request_spec r hasks)
    exact ⟨steady_of_quiet hquiet, noNew_of_quiet hquiet⟩
  | false =>
    have hclosed : Closed s.ledger (handle c env src r s kind).1.ledger := closed_handle c env r hasks hgrant hclaim
    exact ⟨steady_of_aside (aside_handle c env r hasks) hclosed.waited, hclosed.managed⟩

/-- **A grant** gives a node to manage only where it was asked for. -/
theorem grant_spec : Steady s (onEnrolGrant c src r s).1 ∧
    ∀ key ∈ (onEnrolGrant c src r s).1.ledger.managed.keys,
      key ∈ s.ledger.managed.keys ∨ key = toHex src ∧ key ∈ s.ledger.pendingOut.keys := by
  unfold onEnrolGrant
  split
  · exact ⟨Steady.refl s, fun _ h => Or.inl h⟩
  · next caps hcaps =>
    dsimp only
    split
    · exact ⟨steady_ledger _ rfl, fun _ h => Or.inl h⟩
    · next hnot =>
      have hsteady := steady_ledger (s := s) (addManaged (s.ledger.dropPendingOut (toHex src)).2 (toHex src)
        caps (cleanLabel (r.doc.get? (ascii "label"))) r.proof) (same_addManaged _ _ _).2
      have hmanaged : ∀ key ∈ (addManaged (s.ledger.dropPendingOut (toHex src)).2 (toHex src) caps
          (cleanLabel (r.doc.get? (ascii "label"))) r.proof).managed.keys, key ∈ s.ledger.managed.keys ∨
            key = toHex src ∧ key ∈ s.ledger.pendingOut.keys := by
        intro key hmem
        rcases mem_managed_addManaged hmem with hmem | rfl
        · exact Or.inl hmem
        by_cases hknown : toHex src ∈ s.ledger.managed.keys
        · exact Or.inl hknown
        refine Or.inr ⟨rfl, ?_⟩
        by_contra hno
        refine hnot (Or.inr ⟨?_, ?_⟩)
        · rw [dropPendingOut, Dict.get?_eq_none.mpr hno]
          rfl
        · rw [Dict.get?_eq_none.mpr hknown]
          rfl
      split
      · exact ⟨hsteady, hmanaged⟩
      · refine ⟨hsteady.quiet (quiet (still_asking c src _)), fun key hmem => hmanaged key ?_⟩
        rw [(quiet (still_asking c src _)).ledger] at hmem
        exact hmem

theorem onPreauthClaim_eq : onPreauthClaim c src r s =
    match tokenIn r.doc with
    | none => (s, [])
    | some token =>
      match s.ledger.provisioned.get? (keyOf c token), cleanCaps (r.doc.get? (ascii "caps")) with
      | none, _ => (s, [])
      | some _, none =>
        ({ s with ledger := { s.ledger with provisioned := s.ledger.provisioned.pop (keyOf c token) } }, [])
      | some record, some caps =>
        let label := if record.label = [] then cleanLabel (r.doc.get? (ascii "host")) else record.label
        let l := { s.ledger with provisioned := s.ledger.provisioned.pop (keyOf c token) }
        let s' := { s with
          ledger := l.addManaged (toHex src) (if caps = [] then record.caps else caps) label [] }
        (if c.autoStatus then spawn (.askStatus src) s' else s', [.event (.nodeAdopted src record.host label)]) := by
  unfold onPreauthClaim tokenIn
  cases r.doc.get? (ascii "token") with
  | none => rfl
  | some v =>
    cases v with
    | str tokenHex =>
      dsimp only
      by_cases hlen : tokenHex.length ≠ tokenLen * 2
      · rw [if_pos hlen, if_pos hlen]
      · rw [if_neg hlen, if_neg hlen]
        cases fromHex tokenHex with
        | none => rfl
        | some token =>
          dsimp only [takeProvisioned, keyOf]
          cases s.ledger.provisioned.get? ((tokenDigest c.world token).take 64) with
          | none => rfl
          | some record => cases cleanCaps (r.doc.get? (ascii "caps")) <;> rfl
    | _ => rfl

/-- **A claim** that redeems nothing comes to nothing; another takes the record of its token, and gives its node to
manage. -/
theorem claim_spec : Steady s (onPreauthClaim c src r s).1 ∧
    (redeemed c s.ledger r.doc = none → NoNew s (onPreauthClaim c src r s).1) ∧
    ∀ token, redeemed c s.ledger r.doc = some token →
      token ∉ (onPreauthClaim c src r s).1.ledger.provisioned.keys ∧
        ∀ key ∈ (onPreauthClaim c src r s).1.ledger.managed.keys, key ∈ s.ledger.managed.keys ∨ key = toHex src := by
  rw [onPreauthClaim_eq]
  unfold redeemed
  cases tokenIn r.doc with
  | none => exact ⟨Steady.refl s, fun _ _ h => h, fun _ h => nomatch h⟩
  | some token =>
    dsimp only
    rw [Option.map_some]
    have hgone : keyOf c token ∉ (s.ledger.provisioned.pop (keyOf c token)).keys :=
      fun hmem => (Dict.mem_keys_pop.mp hmem).2 rfl
    have hpopped : Steady s { s with
        ledger := { s.ledger with provisioned := s.ledger.provisioned.pop (keyOf c token) } } :=
      ⟨fun _ _ h => h, rfl, rfl, fun _ hmem => (Dict.mem_keys_pop.mp hmem).1⟩
    cases hrecord : s.ledger.provisioned.get? (keyOf c token) with
    | none =>
      have hno : keyOf c token ∉ s.ledger.provisioned.keys := Dict.get?_eq_none.mp hrecord
      rw [Option.filter_some, if_neg (by simpa using hno)]
      exact ⟨Steady.refl s, fun _ _ h => h, fun _ h => nomatch h⟩
    | some record =>
      have hin : keyOf c token ∈ s.ledger.provisioned.keys := Dict.mem_keys_of_get? hrecord
      rw [Option.filter_some, if_pos (by simpa using hin)]
      cases cleanCaps (r.doc.get? (ascii "caps")) with
      | none =>
        refine ⟨hpopped, fun h => (nomatch h), fun token' h => ?_⟩
        rw [← Option.some.inj h]
        exact ⟨hgone, fun _ hmem => Or.inl hmem⟩
      | some caps =>
        dsimp only
        refine ⟨Steady.quiet ?_ (quiet (still_asking c src _)), fun h => (nomatch h), fun token' h => ?_⟩
        · refine ⟨fun _ _ h => h, rfl, rfl, fun token' hmem => hpopped.waited token' ?_⟩
          have hwaited := mem_provisioned_addManaged.mp hmem
          exact hwaited
        · rw [← Option.some.inj h, (quiet (still_asking c src _)).ledger]
          refine ⟨fun hmem => hgone ?_, fun key hmem => ?_⟩
          · have hwaited := mem_provisioned_addManaged.mp hmem
            exact hwaited
          · have hmanaged := mem_managed_addManaged hmem
            exact hmanaged

/-! ### Calls -/

theorem get?_newRid {target : Bytes} {kind : Kind} {rid rid' : Text} {entry : Bytes × Kind}
    (h : (newRid target kind rid s).inflight.get? rid' = some entry) :
    s.inflight.get? rid' = some entry ∨ (rid', entry) = (rid, target, kind) := by
  rcases Dict.get?_of_set h with ⟨rfl, rfl⟩ | ⟨-, h⟩
  · exact Or.inr rfl
  · exact Or.inl (Dict.get?_of_makeRoom h)

theorem get?_setFollow {target : Bytes} {on : Bool} {rid rid' : Text} {d : Dict Text Text}
    (h : (setFollow target on rid d).get? key = some rid') :
    d.get? key = some rid' ∨ toHex target = key ∧ rid' = rid := by
  unfold setFollow at h
  split_ifs at h
  · rcases Dict.get?_of_set (Dict.get?_of_makeRoom h) with ⟨rfl, rfl⟩ | ⟨-, h⟩
    · exact Or.inr ⟨rfl, rfl⟩
    · exact Or.inl h
  · exact Or.inl (Dict.get?_of_pop h).2

/-! ### Replies -/

theorem mem_expects {token : Text} : ∀ {results : List Json} {l : FleetState},
    token ∈ (results.foldl (App.expect c) l).provisioned.keys → token ∈ l.provisioned.keys ∨
      token ∈ ((results.filter fun result => flag result "ok").filterMap digestIn).map (List.take 64)
  | [], _, h => Or.inl h
  | result :: results, l, h => by
    rw [List.foldl_cons] at h
    rcases mem_expects h with h | h
    · unfold App.expect at h
      cases hdigest : digestIn result with
      | none =>
        rw [hdigest] at h
        exact Or.inl h
      | some digest =>
        rw [hdigest] at h
        dsimp only at h
        by_cases hok : flag result "ok" = true
        · rw [if_pos hok] at h
          refine (mem_addProvisioned h).imp id fun htoken => ?_
          exact List.mem_map.mpr ⟨digest, List.mem_filterMap.mpr
            ⟨result, List.mem_filter.mpr ⟨List.mem_cons_self, hok⟩, hdigest⟩, htoken.symm⟩
        · rw [if_neg hok] at h
          exact Or.inl h
    · refine Or.inr ?_
      obtain ⟨digest, hdigest, rfl⟩ := List.mem_map.mp h
      refine List.mem_map_of_mem ?_
      obtain ⟨other, hother, heq⟩ := List.mem_filterMap.mp hdigest
      obtain ⟨hin, hok⟩ := List.mem_filter.mp hother
      exact List.mem_filterMap.mpr ⟨other, List.mem_filter.mpr ⟨List.mem_cons_of_mem _ hin, hok⟩, heq⟩

end Adds

/-! ### Steps -/

section Steps

variable {c} {w : Watched} {a : Action}

/-- **What is new after an action** was asked for by it, or reported by it; and what it redeemed is gone. -/
structure Accounts (c : Config) (w : Watched) (a : Action) : Prop where
  inflight : ∀ rid entry, (step c w.1 a).inflight.get? rid = some entry →
    w.1.inflight.get? rid = some entry ∨ (rid, entry) ∈ asks w.1 a
  logFollows : ∀ key rid, (step c w.1 a).logFollows.get? key = some rid →
    w.1.logFollows.get? key = some rid ∨ ∃ target, toHex target = key ∧ (rid, target, Kind.logs) ∈ asks w.1 a
  linkFollows : ∀ key rid, (step c w.1 a).linkFollows.get? key = some rid →
    w.1.linkFollows.get? key = some rid ∨ ∃ target, toHex target = key ∧ (rid, target, Kind.links) ∈ asks w.1 a
  waited : ∀ token ∈ (step c w.1 a).ledger.provisioned.keys,
    (token ∈ w.1.ledger.provisioned.keys ∨ token ∈ reports c w a) ∧ redeems c w.1 a ≠ some token

theorem accounts_steady (h : Steady w.1 (step c w.1 a)) (hnone : redeems c w.1 a = none) : Accounts c w a where
  inflight rid entry hget := Or.inl (h.inflight rid entry hget)
  logFollows key rid hget := Or.inl (h.logFollows ▸ hget)
  linkFollows key rid hget := Or.inl (h.linkFollows ▸ hget)
  waited token hmem := ⟨Or.inl (h.waited token hmem), by rw [hnone]; exact fun h => nomatch h⟩

theorem Recalled.next (h : Recalled w) (hcareful : Careful c w a) (haccounts : Accounts c w a) :
    Recalled (watch c w a) where
  inflight rid target kind hget := by
    rcases haccounts.inflight rid _ hget with hold | hnew
    · exact List.mem_append_left _ (h.inflight rid target kind hold)
    · exact List.mem_append_right _ hnew
  logFollows key rid hget := by
    rcases haccounts.logFollows key rid hget with hold | ⟨target, htarget, hnew⟩
    · obtain ⟨target, htarget, hasked⟩ := h.logFollows key rid hold
      exact ⟨target, htarget, List.mem_append_left _ hasked⟩
    · exact ⟨target, htarget, List.mem_append_right _ hnew⟩
  linkFollows key rid hget := by
    rcases haccounts.linkFollows key rid hget with hold | ⟨target, htarget, hnew⟩
    · obtain ⟨target, htarget, hasked⟩ := h.linkFollows key rid hold
      exact ⟨target, htarget, List.mem_append_left _ hasked⟩
    · exact ⟨target, htarget, List.mem_append_right _ hnew⟩
  waited token hmem := by
    obtain ⟨hfrom, hkept⟩ := haccounts.waited token hmem
    have hreported : token ∈ w.2.reported ++ reports c w a ∧ token ∉ w.2.redeemed := by
      rcases hfrom with hold | hnew
      · exact ⟨List.mem_append_left _ (h.waited token hold).1, (h.waited token hold).2⟩
      · exact ⟨List.mem_append_right _ hnew, hcareful.2 token hnew⟩
    refine ⟨hreported.1, fun hmem => ?_⟩
    rcases List.mem_append.mp hmem with hbefore | hnow
    · exact hreported.2 hbefore
    · exact hkept (Option.mem_toList.mp hnow)

variable {env : Env} {src body : Bytes}

theorem redeems_frame {code : UInt8} (h : signedOf code ≠ some .preauthClaim) :
    redeems c w.1 (.frame env src (code :: body)) = none := if_neg fun hboth => h hboth.2

theorem redeems_reply (kind : Reply) : redeems c w.1 (.frame env src (kind.code :: body)) = none :=
  redeems_frame (by rw [reply_notSigned]; exact fun h => nomatch h)

variable {kind : Reply} {doc : Json}

theorem reports_reply (h : Recalled w)
    (hdoc : loadJson c.world body = some doc) (hget : w.1.inflight.get? (ridOf doc) = some (src, .provision)) :
    reports c w (.frame env src (kind.code :: body)) = (tells (kind, doc)).map (List.take 64) := by
  unfold reports
  dsimp only
  rw [replyIn_reply hdoc]
  exact if_pos ⟨h.inflight _ _ _ hget, hget⟩

theorem waited_reply (h : Recalled w)
    (hcareful : Careful c w (.frame env src (kind.code :: body))) (hdoc : loadJson c.world body = some doc)
    {token : Text} (hmem : token ∈ (answer c src doc w.1 kind).1.ledger.provisioned.keys) :
    token ∈ w.1.ledger.provisioned.keys ∨ token ∈ reports c w (.frame env src (kind.code :: body)) := by
  by_cases hprogress : kind = .provisionProgress
  · subst hprogress
    have hmem : token ∈ (onProvisionProgress c src doc w.1).1.ledger.provisioned.keys := hmem
    unfold onProvisionProgress at hmem
    by_cases hflight : ridOf doc ∉ w.1.inflight.keys
    · rw [if_pos hflight] at hmem
      exact Or.inl hmem
    rw [if_neg hflight] at hmem
    obtain ⟨⟨target, kind⟩, hget⟩ := Dict.mem_keys.mp (not_not.mp hflight)
    obtain ⟨rfl, hfits⟩ := hcareful.1 (.provisionProgress, doc) (replyIn_reply hdoc) rfl _ hget
    obtain rfl : kind = .provision := of_decide_eq_true hfits
    rw [reports_reply h hdoc hget]
    dsimp only at hmem
    change _ ∨ token ∈ (digestIn doc).toList.map (List.take 64)
    cases hdigest : digestIn doc with
    | none =>
      rw [hdigest] at hmem
      exact Or.inl hmem
    | some digest =>
      rw [hdigest] at hmem
      refine (mem_addProvisioned hmem).imp id fun htoken => ?_
      rw [htoken]
      exact List.mem_singleton.mpr rfl
  by_cases hresult : kind = .provisionResult
  · subst hresult
    have hmem : token ∈ (onProvisionResult c src doc w.1).1.ledger.provisioned.keys := hmem
    unfold onProvisionResult claim at hmem
    split_ifs at hmem with hget
    · rw [reports_reply h hdoc hget]
      exact mem_expects hmem
    · exact Or.inl hmem
  · have hnames : naming kind = false := by
      cases kind <;> first | rfl | exact absurd rfl hprogress | exact absurd rfl hresult
    have hsame := (told_answer (s := w.1) c src doc kind).same
    rw [hnames] at hsame
    have hledger := congrArg State.ledger hsame
    exact Or.inl (hledger ▸ hmem)

theorem accounts_reply (h : Recalled w)
    (hcareful : Careful c w (.frame env src (kind.code :: body))) (hdoc : loadJson c.world body = some doc) :
    Accounts c w (.frame env src (kind.code :: body)) := by
  have hstep : step c w.1 (.frame env src (kind.code :: body)) = (answer c src doc w.1 kind).1 := by
    rw [step, perform, dispatch_reply, hdoc]
  have htold := told_answer (s := w.1) c src doc kind
  have hlogs := congrArg State.logFollows htold.same
  have hlinks := congrArg State.linkFollows htold.same
  refine ⟨fun rid entry hget => ?_, fun key rid hget => ?_, fun key rid hget => ?_, fun token hmem => ?_⟩
  · rw [hstep] at hget
    exact Or.inl (htold.inflight rid entry hget)
  · rw [hstep] at hget
    exact Or.inl ((congrArg (fun d : Dict Text Text => d.get? key) hlogs).symm.trans hget)
  · rw [hstep] at hget
    exact Or.inl ((congrArg (fun d : Dict Text Text => d.get? key) hlinks).symm.trans hget)
  · rw [hstep] at hmem
    refine ⟨waited_reply h hcareful hdoc hmem, ?_⟩
    rw [redeems_reply]
    exact (Option.some_ne_none token).symm

abbrev opening (c : Config) (s : State) (env : Env) (src : Bytes) (kind : Signed) (body : Bytes) : State :=
  { s with nonces := (openSigned c.world src kind body s.nonces env.stamp).2 }

theorem steady_opening {kind : Signed} {s s' : State}
    (h : Steady (opening c s env src kind body) s') : Steady s s' :=
  ⟨h.inflight, h.logFollows, h.linkFollows, h.waited⟩

theorem redeems_claim {r : Request} (hallowed : env.allowed = true)
    (hopen : (openSigned c.world src .preauthClaim body w.1.nonces env.stamp).1 = some r) :
    redeems c w.1 (.frame env src (Signed.preauthClaim.code :: body)) = redeemed c w.1.ledger r.doc := by
  unfold redeems
  dsimp only
  rw [if_pos ⟨hallowed, signedOf_code _⟩, hopen]
  rfl

theorem accounts_opened {kind : Signed} {r : Request} (hallowed : env.allowed = true)
    (hopen : (openSigned c.world src kind body w.1.nonces env.stamp).1 = some r)
    (hstep : step c w.1 (.frame env src (kind.code :: body)) =
      (handle c env src r (opening c w.1 env src kind body) kind).1) :
    Accounts c w (.frame env src (kind.code :: body)) := by
  by_cases hclaim : kind = .preauthClaim
  · subst hclaim
    obtain ⟨hsteady, -, hsome⟩ :=
      @claim_spec c (opening c w.1 env src .preauthClaim body) src r
    have hsteady : Steady w.1 (step c w.1 (.frame env src (Signed.preauthClaim.code :: body))) := by
      rw [hstep]
      exact steady_opening hsteady
    refine ⟨fun rid entry hget => Or.inl (hsteady.inflight rid entry hget),
      fun key rid hget => Or.inl (hsteady.logFollows ▸ hget), fun key rid hget => Or.inl (hsteady.linkFollows ▸ hget),
      fun token hmem => ⟨Or.inl (hsteady.waited token hmem), fun hredeems => ?_⟩⟩
    rw [redeems_claim hallowed hopen] at hredeems
    rw [hstep] at hmem
    exact (hsome token hredeems).1 hmem
  · have hnone : redeems c w.1 (.frame env src (kind.code :: body)) = none :=
      redeems_frame (by
        rw [signedOf_code]
        exact fun h => hclaim (Option.some.inj h))
    refine accounts_steady ?_ hnone
    rw [hstep]
    by_cases hgrant : kind = .enrolGrant
    · subst hgrant
      exact steady_opening (grant_spec r).1
    · exact steady_opening (steady_handle env r hgrant hclaim).1

theorem noNew_call (now : ℚ) (call : Call) : NoNew s (performCall now s call).1 := by
  cases hlocal : isLocal call with
  | false => exact (gives_call now hlocal).2.managed
  | true =>
    cases call with
    | provisionLocal digest host caps label => exact fun _ h => h
    | _ => cases hlocal

theorem accounts_call (now : ℚ) (call : Call) : Accounts c w (.call now call) := by
  have hnone : redeems c w.1 (.call now call) = none := rfl
  have hcalm : inquires call = false → isLocal call = false → Accounts c w (.call now call) := fun hasks hlocal =>
    accounts_steady (steady_of_aside (aside_call now hasks) (gives_call now hlocal).2.waited) rfl
  cases call with
  | request target kind rid =>
    have hsame : ∀ s, request s target kind rid = { newRid target kind rid s with
        consoleCalls := (request s target kind rid).consoleCalls
        sessionCalls := (request s target kind rid).sessionCalls
        fileCalls := (request s target kind rid).fileCalls } := fun s => by cases kind <;> rfl
    refine ⟨fun rid' entry hget => ?_, fun key rid' hget => Or.inl ?_, fun key rid' hget => Or.inl ?_,
      fun token hmem => ⟨Or.inl ?_, by rw [hnone]; exact fun h => nomatch h⟩⟩
    · change (request w.1 target kind rid).inflight.get? rid' = some entry at hget
      rw [hsame] at hget
      exact (get?_newRid hget).imp id fun h => List.mem_singleton.mpr h
    · change (request w.1 target kind rid).logFollows.get? key = some rid' at hget
      rw [hsame] at hget
      exact hget
    · change (request w.1 target kind rid).linkFollows.get? key = some rid' at hget
      rw [hsame] at hget
      exact hget
    · change token ∈ (request w.1 target kind rid).ledger.provisioned.keys at hmem
      rw [hsame] at hmem
      exact hmem
  | followLogs target on rid =>
    refine ⟨fun rid' entry hget => ?_, fun key rid' hget => ?_, fun key rid' hget => Or.inl hget,
      fun token hmem => ⟨Or.inl hmem, by rw [hnone]; exact fun h => nomatch h⟩⟩
    · exact (get?_newRid hget).imp id fun h => List.mem_singleton.mpr h
    · refine (get?_setFollow hget).imp id ?_
      rintro ⟨htarget, rfl⟩
      exact ⟨target, htarget, List.mem_singleton.mpr rfl⟩
  | followLinks target on rid =>
    refine ⟨fun rid' entry hget => ?_, fun key rid' hget => Or.inl hget, fun key rid' hget => ?_,
      fun token hmem => ⟨Or.inl hmem, by rw [hnone]; exact fun h => nomatch h⟩⟩
    · exact (get?_newRid hget).imp id fun h => List.mem_singleton.mpr h
    · refine (get?_setFollow hget).imp id ?_
      rintro ⟨htarget, rfl⟩
      exact ⟨target, htarget, List.mem_singleton.mpr rfl⟩
  | callOver rid =>
    exact accounts_steady ⟨fun rid' entry hget => (Dict.get?_of_pop hget).2, rfl, rfl, fun _ h => h⟩ rfl
  | provisionLocal digest host caps label =>
    refine ⟨fun _ _ hget => Or.inl hget, fun _ _ hget => Or.inl hget, fun _ _ hget => Or.inl hget,
      fun token hmem => ⟨?_, by rw [hnone]; exact fun h => nomatch h⟩⟩
    exact (mem_addProvisioned hmem).imp id fun h => List.mem_singleton.mpr h
  | _ => exact hcalm rfl rfl

/-- **What a frame is**: a signed frame that opens, a reply that is read, or nothing that counts. -/
theorem frame_cases (c : Config) (env : Env) (src payload : Bytes) (s : State) :
    (∃ kind body r, payload = Signed.code kind :: body ∧ env.allowed = true ∧
      (openSigned c.world src kind body s.nonces env.stamp).1 = some r ∧
      step c s (.frame env src payload) = (handle c env src r (opening c s env src kind body) kind).1) ∨
    (∃ kind body doc, payload = Reply.code kind :: body ∧ loadJson c.world body = some doc) ∨
    Steady s (step c s (.frame env src payload)) ∧ NoNew s (step c s (.frame env src payload)) ∧
      redeems c s (.frame env src payload) = none := by
  by_cases hopens : ∃ kind body r, payload = Signed.code kind :: body ∧ env.allowed = true ∧
      (openSigned c.world src kind body s.nonces env.stamp).1 = some r
  · obtain ⟨kind, body, r, rfl, hallowed, hopen⟩ := hopens
    refine Or.inl ⟨kind, body, r, rfl, hallowed, hopen, ?_⟩
    have hstream : ¬ kind.code ∈ [shellInput, shellOutput, shellResize, shellClose] := signed_notStream kind
    unfold step perform dispatch
    dsimp only
    rw [if_neg hstream, signedOf_code]
    dsimp only
    rw [hallowed, if_neg (by decide), hopen]
  have hnone : redeems c s (.frame env src payload) = none := by
    cases payload with
    | nil => rfl
    | cons code body =>
      unfold redeems
      dsimp only
      split_ifs with hboth
      · rw [Option.bind_eq_none_iff]
        exact fun r hopen => absurd ⟨_, body, r, by rw [code_of_signedOf hboth.2], hboth.1, hopen⟩ hopens
      · rfl
  have hhandled := dispatch_spec c env src payload s
  unfold step perform
  dsimp only
  generalize dispatch c env src payload s = out at hhandled
  cases hhandled with
  | nothing => exact Or.inr (Or.inr ⟨Steady.refl s, fun _ h => h, hnone⟩)
  | stream code body _ =>
    have hquiet := quiet (still_stream env src code body s)
    exact Or.inr (Or.inr ⟨steady_of_quiet hquiet, noNew_of_quiet hquiet, hnone⟩)
  | shut kind body _ _ => exact Or.inr (Or.inr ⟨⟨fun _ _ h => h, rfl, rfl, fun _ h => h⟩, fun _ h => h, hnone⟩)
  | opened kind body r hallowed hopen => exact absurd ⟨kind, body, r, rfl, hallowed, hopen⟩ hopens
  | replied kind body doc hdoc => exact Or.inr (Or.inl ⟨kind, body, doc, rfl, hdoc⟩)

theorem accounts_quiet (h : Quiet w.1 (step c w.1 a)) (hnone : redeems c w.1 a = none) : Accounts c w a :=
  accounts_steady (steady_of_quiet h) hnone

theorem accounts_step (h : Recalled w) (hcareful : Careful c w a) : Accounts c w a := by
  cases a with
  | frame env src payload =>
    rcases frame_cases c env src payload w.1 with
      ⟨kind, body, r, rfl, hallowed, hopen, hstep⟩ | ⟨kind, body, doc, rfl, hdoc⟩ | ⟨hsteady, -, hnone⟩
    · exact accounts_opened hallowed hopen hstep
    · exact accounts_reply h hcareful hdoc
    · exact accounts_steady hsteady hnone
  | call now call => exact accounts_call now call
  | job i o =>
    rcases quiet_runJob c.world i o w.1 with hquiet | ⟨target, hjob, heq⟩
    · exact accounts_quiet hquiet rfl
    · refine ⟨fun rid entry hget => ?_, fun key rid hget => Or.inl ?_, fun key rid hget => Or.inl ?_,
        fun token hmem => ⟨Or.inl ?_, fun h => nomatch h⟩⟩
      · change (runJob c.world i o w.1).inflight.get? rid = some entry at hget
        rw [heq] at hget
        refine (get?_newRid hget).imp id fun h => ?_
        unfold asks
        dsimp only
        rw [hjob]
        exact List.mem_singleton.mpr h
      · change (runJob c.world i o w.1).logFollows.get? key = some rid at hget
        rw [heq] at hget
        exact hget
      · change (runJob c.world i o w.1).linkFollows.get? key = some rid at hget
        rw [heq] at hget
        exact hget
      · change token ∈ (runJob c.world i o w.1).ledger.provisioned.keys at hmem
        rw [heq] at hmem
        exact hmem
  | _ => exact accounts_quiet (quiet (still_alone c rfl)) rfl

theorem gains_step {key : Text} (h : Recalled w) (hnew : key ∉ w.1.ledger.managed.keys)
    (hkey : key ∈ (step c w.1 a).ledger.managed.keys) : Gained c w a key := by
  have hcontra : NoNew w.1 (step c w.1 a) → Gained c w a key := fun hno => absurd (hno key hkey) hnew
  cases a with
  | frame env src payload =>
    rcases frame_cases c env src payload w.1 with
      ⟨kind, body, r, rfl, hallowed, hopen, hstep⟩ | ⟨kind, body, doc, rfl, hdoc⟩ | ⟨-, hno, -⟩
    · rw [hstep] at hkey
      obtain ⟨-, -, x, hparse, hchecks, -, hid, -⟩ := openSigned_spec hopen
      have hgained : ∀ hfor, toHex src = key → Gained c w (.frame env src (kind.code :: body)) key :=
        fun hfor hsrc => ⟨env, src, kind, body, r, x, rfl, hsrc, hopen, hparse, hchecks, hid, hfor⟩
      by_cases hgrant : kind = .enrolGrant
      · subst hgrant
        rcases (grant_spec r).2 key hkey with hold | ⟨rfl, hpending⟩
        · exact absurd hold hnew
        · exact hgained (Or.inl ⟨rfl, hpending⟩) rfl
      by_cases hclaim : kind = .preauthClaim
      · subst hclaim
        obtain ⟨-, hnone, hsome⟩ :=
          @claim_spec c (opening c w.1 env src .preauthClaim body) src r
        cases hredeemed : redeemed c w.1.ledger r.doc with
        | none => exact absurd (hnone hredeemed key hkey) hnew
        | some token =>
          rcases (hsome token hredeemed).2 key hkey with hold | rfl
          · exact absurd hold hnew
          · obtain ⟨hmap, hwaited⟩ := Option.filter_eq_some_iff.mp hredeemed
            obtain ⟨bytes, htoken, rfl⟩ := Option.map_eq_some_iff.mp hmap
            obtain ⟨hreported, hfresh⟩ := h.waited _ (of_decide_eq_true hwaited)
            exact hgained (Or.inr ⟨rfl, bytes, htoken, hreported, hfresh⟩) rfl
      · exact absurd ((steady_handle env r hgrant hclaim).2 key hkey) hnew
    · refine hcontra (noNew_of_managed ?_)
      rw [step, perform, dispatch_reply, hdoc]
      exact (told_answer c src doc kind).ledger.2
    · exact hcontra hno
  | call now call => exact hcontra (noNew_call now call)
  | job i o =>
    rcases quiet_runJob c.world i o w.1 with hquiet | ⟨target, -, heq⟩
    · exact hcontra (noNew_of_quiet hquiet)
    · refine hcontra (noNew_of_managed ?_)
      rw [step, perform, heq]
      rfl
  | _ => exact hcontra (noNew_of_quiet (quiet (still_alone c rfl)))

theorem counts_step (h : Recalled w) (hcareful : Careful c w a) : Counts c w a := by
  refine ⟨?_, fun key hnew hkey => gains_step h hnew hkey⟩
  rintro env src kind body rfl hno
  have hunmoved : Unmoved w.1 (perform c w.1 (.frame env src (kind.code :: body))) := by
    rw [perform, dispatch_reply]
    cases hdoc : loadJson c.world body with
    | none => exact unmoved_none w.1
    | some doc =>
      exact unmoved_answer h (hno doc hdoc) fun hopen => hcareful.1 (kind, doc) (replyIn_reply hdoc) hopen
  exact ⟨hunmoved.inflight, hunmoved.ledger, hunmoved.silent⟩

theorem recalled_begun (ledger : FleetState) (maxNonces : ℕ) : Recalled (start ledger maxNonces, begun ledger) where
  inflight _ _ _ h := nomatch h
  logFollows _ _ h := nomatch h
  linkFollows _ _ h := nomatch h
  waited _ h := ⟨h, List.not_mem_nil⟩

end Steps

/-! ### Provisioning -/

def asking : Config where
  world :=
    { K :=
        { sha256 := fun data => (data.reverse ++ List.replicate 32 0).take 32
          idOf := id
          verify := fun _ _ _ => true }
      floatRepr := id
      depth := 4
      str := fun _ => []
      int := fun _ => none
      upper := id
      normal := id
      appId := List.replicate 8 7
      nodeId := List.replicate 20 9 }
  autoStatus := false
  hasInvite := false
  hasTree := false

def nobody : FleetState := ⟨.empty, .empty, .empty, .empty, .empty⟩

def nodeA : Bytes := List.replicate 20 1

def nodeB : Bytes := List.replicate 20 2

def token : Bytes := List.replicate 32 5

def digest : Text := tokenDigest asking.world token

def progress : Bytes :=
  Reply.provisionProgress.code :: (ascii "\x7b\"rid\":\"aa\",\"token_digest\":\"" ++ digest ++
    ascii "\"\x7d").map UInt8.ofNat

def claimed : Bytes := (ascii "\x7b\"token\":\"" ++ toHex token ++ ascii "\"\x7d").map UInt8.ofNat

def claiming : Assertion where
  appId := List.replicate 8 7
  subjectPub := nodeB
  audience := List.replicate 20 9
  purpose := (ascii "fleet.preauth").map UInt8.ofNat
  nonce := List.replicate 16 5
  issuedAt := 990
  ttl := 120
  ctx := ((ctxInput [fleetTag, [Signed.preauthClaim.code], claimed]).reverse ++ List.replicate 32 0).take 32
  signature := [1]

def claimFrame : Bytes :=
  Signed.preauthClaim.code :: (toBE 2 claiming.serialize.length ++ (claiming.serialize ++ claimed))

/-- The first node is asked to provision, and tells of a machine, which then claims its token. -/
def provisioned : List Action :=
  [.call 0 (.request nodeA .provision (ascii "aa")), .frame (plainly 1000) nodeA progress,
    .frame (plainly 1000) nodeB claimFrame]

example : (run (watch asking) (start nobody 16, begun nobody) provisioned).1.ledger.managed.keys = [toHex nodeB] := by
  decide +kernel

def overheard : List Action :=
  [.call 0 (.request nodeA .provision (ascii "aa")), .frame (plainly 1000) nodeB progress]

end NMesh.Fleet.Replies
