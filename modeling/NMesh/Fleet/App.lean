import NMesh.Base.Runs
import NMesh.Fleet.Agent

/-! # The fleet app

Both sides in one machine. A step is a frame from some node, something a human or the console asks for here, or a step
of a job; `perform` is the state it leaves and what it does besides. Frames that are signed go through `openSigned`
before any handler sees them; replies are matched against the requests in flight by their handlers, each in its own
way. -/

namespace NMesh.Fleet.App

open Base.BigEndian Base.Utf8 Base.Hex Base.Ordered Base.JsonText Base.Runs
open NMesh.AppAuth.Verify NMesh.Fleet.Ledger NMesh.Fleet.Messages NMesh.Fleet.Agent
open NMesh.Logs.Book (truthy)

def sidLen : ℕ := 16
def shellInputMax : ℕ := 8192
def consoleRespMax : ℕ := 512 * 1024
def tokenLen : ℕ := 32

def provisionCaps : List Cap := [.full]

def nodeOf (key : Text) : Option Bytes := (fromHex key).filter fun node => decide (node.length = 20)

def tokenDigest (W : World) (token : Bytes) : Text :=
  toHex (W.K.sha256 ((ascii "nmesh-fleet-preauth-v1").map UInt8.ofNat ++ token))

/-! ### Enrolment -/

section Enrolment

variable (c : Config) (env : Env) (src : Bytes) (r : Request) (s : State)

def onEnrolRequest : Out :=
  match cleanCaps (r.doc.get? (ascii "caps")) with
  | none => (s, [])
  | some caps =>
    if caps = [] then (s, [])
    else
      let held := ((s.ledger.operators.get? (toHex src)).map Operator.caps).getD []
      let label := cleanLabel (r.doc.get? (ascii "label"))
      let (parked, ledger) :=
        s.ledger.addPendingIn (toHex src) r.principal.publicKey caps label r.proof held env.now
      ({ s with ledger }, if parked then [.event (.enrolRequested src caps label)] else [])

def onEnrolGrant : Out :=
  match cleanCaps (r.doc.get? (ascii "caps")) with
  | none => (s, [])
  | some caps =>
    let (asked, ledger) := s.ledger.dropPendingOut (toHex src)
    let known := (s.ledger.managed.get? (toHex src)).isSome
    if caps = [] ∨ (asked = false ∧ known = false) then ({ s with ledger }, [])
    else
      let s := { s with
        ledger := ledger.addManaged (toHex src) caps (cleanLabel (r.doc.get? (ascii "label"))) r.proof }
      if asked = false then (s, [.event (.capsChanged src caps false)])
      else (if c.autoStatus then spawn (.askStatus src) s else s, [.event (.enrolAnswered src true caps)])

def onEnrolDeny : Out :=
  ({ s with ledger := (s.ledger.dropPendingOut (toHex src)).2 }, [.event (.enrolAnswered src false [])])

def onRevoke : Out :=
  let s := dropSessionsOf src (dropUploadsOf src (dropShellsOf src s))
  ({ s with ledger := ((s.ledger.removeOperator (toHex src)).2.removeManaged (toHex src)).2 }, [.event (.revoked src)])

def dropBeyond (src : Bytes) (caps : List Cap) (s : State) : State :=
  let s := if Cap.shell ∈ caps then s else dropUploadsOf src (dropShellsOf src s)
  if Cap.passwordless ∈ caps ∧ Cap.manage ∈ caps then s else dropSessionsOf src s

def onCapNarrow : Out :=
  match cleanCaps (r.doc.get? (ascii "caps")) with
  | none => (s, [])
  | some caps =>
    let (result, ledger) := s.ledger.setOperatorCaps (toHex src) caps true
    match result with
    | none => ({ s with ledger }, [])
    | some result =>
      (dropBeyond src result { s with ledger },
        [.event (if result = [] then .revoked src else .capsChanged src result true)])

def onPreauthClaim : Out :=
  match r.doc.get? (ascii "token") with
  | some (.str tokenHex) =>
    if tokenHex.length ≠ tokenLen * 2 then (s, [])
    else
      match fromHex tokenHex with
      | none => (s, [])
      | some token =>
        let (record, ledger) := s.ledger.takeProvisioned (tokenDigest c.world token)
        match record with
        | none => (s, [])
        | some record =>
          match cleanCaps (r.doc.get? (ascii "caps")) with
          | none => ({ s with ledger }, [])
          | some caps =>
            let caps := if caps = [] then record.caps else caps
            let label := if record.label = [] then cleanLabel (r.doc.get? (ascii "host")) else record.label
            let s := { s with ledger := ledger.addManaged (toHex src) caps label [] }
            (if c.autoStatus then spawn (.askStatus src) s else s, [.event (.nodeAdopted src record.host label)])
  | _ => (s, [])

/-- `_SIGNED_INBOUND` -/
def handle : Signed → Out
  | .enrolRequest => onEnrolRequest env src r s
  | .enrolGrant => onEnrolGrant c src r s
  | .enrolDeny => onEnrolDeny src s
  | .enrolRevoke => onRevoke src s
  | .enrolNarrow => onCapNarrow src r s
  | .preauthClaim => onPreauthClaim c src r s
  | .consoleRequest => onConsoleRequest c env src r.doc s
  | .consoleSession => onConsoleSession env src r.doc s
  | .fileRequest => onFileRequest src r.doc s
  | .statusRequest => onStatusRequest src r.doc s
  | .logsRequest => onLogsRequest c src r.doc s
  | .linksRequest => onLinksRequest c src r.doc s
  | .inviteRequest => onInviteRequest c src r.doc s
  | .updateRequest => onUpdateRequest env src r.doc s
  | .dockerRequest => onDockerRequest src r.doc s
  | .shellOpen => onShellOpen src r.doc s
  | .scanRequest => onScanRequest src r.doc s
  | .provisionRequest => onProvisionRequest c env src r.doc s

end Enrolment

/-! ### Replies -/

section Replies

variable (c : Config) (src : Bytes) (doc : Json) (s : State)

/-- `_claim_inflight`: the request is answered, by the node it was sent to and for what was asked. -/
def claim (kind : Kind) (next : State → Out) : Out :=
  if s.inflight.get? (ridOf doc) = some (src, kind) then next { s with inflight := s.inflight.pop (ridOf doc) }
  else (s, [])

def failConsole (rid : Text) (s : State) : Out :=
  let called := decide (rid ∈ s.consoleCalls.keys) || decide (rid ∈ s.sessionCalls.keys)
  ({ s with consoleCalls := s.consoleCalls.pop rid, sessionCalls := s.sessionCalls.pop rid },
    if called then [.answered rid] else [])

def failFile (rid : Text) (s : State) : Out :=
  ({ s with fileCalls := s.fileCalls.pop rid }, if rid ∈ s.fileCalls.keys then [.answered rid] else [])

/-- `int(document.get(key) or 0)`; does it not raise? -/
def isNumber (key : String) : Bool :=
  match doc.get? (ascii key) with
  | some v => !truthy v || (c.world.int v).isSome
  | none => true

def onStatusReport : Out :=
  claim src doc s .status fun s =>
    match doc.get? (ascii "status") with
    | some (.obj _) => (s, [.event (.statusReceived src (ridOf doc))])
    | _ => (s, [])

def onInviteIssued : Out :=
  claim src doc s .invite fun s =>
    match doc.get? (ascii "code") with
    | some (.str code) => (s, if code = [] then [] else [.event (.inviteIssued src (ridOf doc))])
    | _ => (s, [])

def isPush : Bool := (doc.get? (ascii "op")).bind Json.text? = some (ascii "push")

def onLogsReply : Out :=
  if isPush doc then
    if s.logFollows.get? (toHex src) ≠ some (ridOf doc) then (s, [])
    else (s, if isNumber c doc "lost" then [.event (.logsReceived src (ridOf doc) true)] else [])
  else
    claim src doc s .logs fun s =>
      (s, if isNumber c doc "lost" then [.event (.logsReceived src (ridOf doc) false)] else [])

def onLinksReply : Out :=
  if isPush doc then
    if s.linkFollows.get? (toHex src) ≠ some (ridOf doc) then (s, [])
    else (s, [.event (.linksReceived src (ridOf doc) true)])
  else claim src doc s .links fun s => (s, [.event (.linksReceived src (ridOf doc) false)])

/-- `_on_update_output`: the request is in flight, whoever it was sent to. -/
def onUpdateOutput : Out :=
  if ridOf doc ∉ s.inflight.keys then (s, []) else (s, [.event (.commandOutput src (ridOf doc) .update)])

def onUpdateResult : Out :=
  claim src doc s .update fun s =>
    (if c.autoStatus then spawn (.askStatus src) s else s, [.event (.commandResult src (ridOf doc) .update)])

def onDockerReply : Out := claim src doc s .docker fun s => (s, [.event (.dockerReport src (ridOf doc))])

def onShellOpened : Out :=
  claim src doc s .shell fun s =>
    match (doc.get? (ascii "sid")).bind Json.text? with
    | none => (s, [])
    | some sidHex =>
      if sidHex.length ≠ sidLen * 2 then (s, [])
      else
        match fromHex sidHex with
        | none => (s, [])
        | some sid =>
          ({ s with openShells := s.openShells.set sid src }, [.event (.shellOpened src (ridOf doc) sid)])

def onScanResult : Out := claim src doc s .scan fun s => (s, [.event (.scanReceived src (ridOf doc))])

def digestIn (doc : Json) : Option Text :=
  ((doc.get? (ascii "token_digest")).bind Json.text?).filter fun digest => decide (digest.length = 64)

/-- `_on_provision_progress`: the request is in flight, whoever it was sent to and for whatever. -/
def onProvisionProgress : Out :=
  if ridOf doc ∉ s.inflight.keys then (s, [])
  else
    let host := textAt c.world doc "host" []
    let s := match digestIn doc with
      | none => s
      | some digest => { s with ledger := s.ledger.addProvisioned digest host provisionCaps host }
    (s, [.event (.commandOutput src (ridOf doc) .provision)])

/-- One machine of a provisioning run that went well is waited for. -/
def expect (l : FleetState) (result : Json) : FleetState :=
  match digestIn result with
  | none => l
  | some digest =>
    if flag result "ok" then
      let host := textAt c.world result "host" []
      l.addProvisioned digest host provisionCaps (textOr c.world result "label" host)
    else l

def resultsOf (doc : Json) : List Json :=
  match doc.get? (ascii "results") with
  | some (.arr items) => (items.filter fun item => match item with | .obj _ => true | _ => false).take 64
  | _ => []

def onProvisionResult : Out :=
  claim src doc s .provision fun s =>
    ({ s with ledger := (resultsOf doc).foldl (expect c) s.ledger },
      [.event (.commandResult src (ridOf doc) .provision)])

def onConsoleReply : Out :=
  match s.consoleCalls.get? (ridOf doc) with
  | none => (s, [])
  | some size =>
    if s.inflight.get? (ridOf doc) ≠ some (src, .console) then (s, [])
    else
      match NMesh.Base.Base64.decode (textAt c.world doc "body" []) with
      | none => failConsole (ridOf doc) s
      | some piece =>
        let s := { s with consoleCalls := s.consoleCalls.set (ridOf doc) (size + piece.length) }
        if consoleRespMax < size + piece.length then failConsole (ridOf doc) s
        else if flag doc "more" then (s, [])
        else ({ s with inflight := s.inflight.pop (ridOf doc) }, [.answered (ridOf doc)])

def onConsoleSessionIssued : Out :=
  claim src doc s .session fun s =>
    ({ s with sessionCalls := s.sessionCalls.pop (ridOf doc) },
      if ridOf doc ∈ s.sessionCalls.keys then [.answered (ridOf doc)] else [])

def onFileReply : Out :=
  if ridOf doc ∉ s.fileCalls.keys ∨ s.inflight.get? (ridOf doc) ≠ some (src, .file) then (s, [])
  else ({ s with fileCalls := s.fileCalls.pop (ridOf doc) }, [.answered (ridOf doc)])

/-- `_on_error`: the request is forgotten before it is looked at whose it was. -/
def onError : Out :=
  let entry := s.inflight.get? (ridOf doc)
  let s := { s with inflight := s.inflight.pop (ridOf doc) }
  match entry with
  | none => (s, [])
  | some (target, _) =>
    if target ≠ src then (s, [])
    else if ridOf doc ∈ s.consoleCalls.keys ∨ ridOf doc ∈ s.sessionCalls.keys then failConsole (ridOf doc) s
    else if ridOf doc ∈ s.fileCalls.keys then failFile (ridOf doc) s
    else (s, [.event (.failure src (ridOf doc) ((textAt c.world doc "error" []).take 256))])

/-- `_REPLY_INBOUND` -/
def answer : Reply → Out
  | .statusReport => onStatusReport src doc s
  | .inviteIssued => onInviteIssued src doc s
  | .logsReply => onLogsReply c src doc s
  | .linksReply => onLinksReply src doc s
  | .updateOutput => onUpdateOutput src doc s
  | .updateResult => onUpdateResult c src doc s
  | .dockerReply => onDockerReply src doc s
  | .shellOpened => onShellOpened src doc s
  | .scanResult => onScanResult src doc s
  | .provisionProgress => onProvisionProgress c src doc s
  | .provisionResult => onProvisionResult c src doc s
  | .consoleReply => onConsoleReply c src doc s
  | .consoleSessionIssued => onConsoleSessionIssued src doc s
  | .fileReply => onFileReply src doc s
  | .fileData => onFileReply src doc s
  | .error => onError c src doc s

end Replies

/-! ### Frames -/

/-- `_dispatch_shell_stream` -/
def shellStream (env : Env) (src : Bytes) (code : UInt8) (body : Bytes) (s : State) : Out :=
  let sid := body.take sidLen
  let rest := body.drop sidLen
  if body.length < sidLen then (s, [])
  else if code = shellInput then
    if s.shells.get? sid ≠ some src ∨ shellInputMax < rest.length then (s, [])
    else if env.wrote then (s, [.typed sid])
    else (closeShell sid true s, [])
  else if code = shellResize then (s, [])
  else if code = shellOutput then
    if s.openShells.get? sid = some src then (s, [.event (.shellOutput src sid)]) else (s, [])
  else if s.openShells.get? sid = some src then
    ({ s with openShells := s.openShells.pop sid }, [.event (.shellClosed src sid)])
  else if s.shells.get? sid = some src then (closeShell sid false s, [])
  else (s, [])

def dispatch (c : Config) (env : Env) (src payload : Bytes) (s : State) : Out :=
  match payload with
  | [] => (s, [])
  | code :: body =>
    if code ∈ [shellInput, shellOutput, shellResize, shellClose] then shellStream env src code body s
    else
      match signedOf code with
      | some kind =>
        if env.allowed = false then (s, [])
        else
          let opened := openSigned c.world src kind body s.nonces env.stamp
          let s := { s with nonces := opened.2 }
          match opened.1 with
          | none => (s, [])
          | some r => handle c env src r s kind
      | none =>
        match replyOf code, loadJson c.world body with
        | some kind, some doc => answer c src doc s kind
        | _, _ => (s, [])

/-! ### What is asked for here -/

/-- What a human, or the console, does here; `request` is any question to a node we manage. -/
inductive Call
  | requestEnrolment (target : Bytes) (caps : List Text) (label : Text)
  | requestCapabilities (target : Bytes) (caps : List Text)
  | approveEnrolment (key : Text) (caps : Option (List Text))
  | denyEnrolment (key : Text)
  | revoke (key : Text)
  | dropCapabilities (key : Text) (caps : List Text)
  | setOperatorCapabilities (key : Text) (caps : List Text)
  | claimPreauth (operatorId operatorPub : Bytes) (caps : List Text) (label : Text)
  | request (target : Bytes) (kind : Kind) (rid : Text)
  | followLogs (target : Bytes) (on : Bool) (rid : Text)
  | followLinks (target : Bytes) (on : Bool) (rid : Text)
  | callOver (rid : Text)
  | provisionLocal (digest host : Text) (caps : List Text) (label : Text)
  | closeShell (target sid : Bytes)

section Calls

variable (now : ℚ) (s : State)

def requestEnrolment (target : Bytes) (caps : List Cap) (label : Text) : State :=
  if caps = [] then s else { s with ledger := s.ledger.addPendingOut (toHex target) caps label now }

def requestCapabilities (target : Bytes) (caps : List Cap) : State :=
  match s.ledger.managed.get? (toHex target) with
  | none => s
  | some entry =>
    if clean (entry.caps ++ caps) = clean entry.caps then s
    else requestEnrolment now s target (clean (entry.caps ++ caps)) entry.label

/-- What an approval grants: what was asked for, narrowed where a list is given. -/
def grantedOf (asked : List Cap) (caps : Option (List Text)) : List Cap :=
  match caps with
  | none => clean asked
  | some [] => clean asked
  | some names => (cleanNames names).filter (· ∈ clean asked)

def approveEnrolment (key : Text) (caps : Option (List Text)) : State :=
  let (pending, ledger) := s.ledger.takePendingIn key
  match pending with
  | none => s
  | some pending =>
    let s := { s with ledger }
    let granted := grantedOf pending.caps caps
    if granted = [] ∨ nodeOf key = none then s
    else
      match ledger.addOperator key pending.pub granted pending.label pending.proof with
      | none => s
      | some ledger => { s with ledger }

def revoke (key : Text) : State :=
  let (operator, ledger) := s.ledger.removeOperator key
  let (managed, ledger) := ledger.removeManaged key
  let s := { s with ledger := (ledger.dropPendingOut key).2 }
  if operator = false ∧ managed = false then s
  else
    match nodeOf key with
    | none => s
    | some target => dropSessionsOf target (dropUploadsOf target (dropShellsOf target s))

def dropCapabilities (key : Text) (caps : List Cap) : Out :=
  match s.ledger.managed.get? key with
  | none => (s, [])
  | some entry =>
    let keep := (clean entry.caps).filter (· ∉ caps)
    if keep.length = entry.caps.length then (s, [])
    else if keep = [] then (revoke s key, [])
    else
      match nodeOf key with
      | none => (s, [])
      | some target =>
        ({ s with ledger := s.ledger.addManaged key keep entry.label entry.grant },
          [.event (.capsChanged target keep false)])

def setOperatorCapabilities (key : Text) (caps : List Text) : Out :=
  if s.ledger.operators.get? key |>.isNone then (s, [])
  else if cleanNames caps = [] then if caps ≠ [] then (s, []) else (revoke s key, [])
  else
    let (result, ledger) := s.ledger.setOperatorCaps key (cleanNames caps) false
    let s := { s with ledger }
    match result with
    | none => (s, [])
    | some result =>
      match nodeOf key with
      | none => (s, [])
      | some target => (dropBeyond target result s, [.event (.capsChanged target result true)])

def claimPreauth (operatorId operatorPub : Bytes) (caps : List Cap) (label : Text) : State :=
  if caps = [] then s
  else
    match s.ledger.addOperator (toHex operatorId) operatorPub caps label [] with
    | none => s
    | some ledger => { s with ledger }

/-- The calls that wait are at most 64; the first is given up for one more. -/
def makeCallRoom {ν : Type} (d : Dict Text ν) : Dict Text ν := Dict.makeRoom maxInflight d.size d

/-- A question to a node; a console call, a session and a file operation wait for their answer. -/
def request (target : Bytes) (kind : Kind) (rid : Text) : State :=
  let s := newRid target kind rid s
  match kind with
  | .console => { s with consoleCalls := (makeCallRoom s.consoleCalls).set rid 0 }
  | .session => { s with sessionCalls := (makeCallRoom s.sessionCalls).set rid () }
  | .file => { s with fileCalls := (makeCallRoom s.fileCalls).set rid () }
  | _ => s

def setFollow (target : Bytes) (on : Bool) (rid : Text) (d : Dict Text Text) : Dict Text Text :=
  if on then Dict.makeRoom (maxInflight + 1) (d.set (toHex target) rid).size (d.set (toHex target) rid)
  else d.pop (toHex target)

def performCall : Call → Out
  | .requestEnrolment target caps label => (requestEnrolment now s target (cleanNames caps) label, [])
  | .requestCapabilities target caps => (requestCapabilities now s target (cleanNames caps), [])
  | .approveEnrolment key caps => (approveEnrolment s key caps, [])
  | .denyEnrolment key => ({ s with ledger := (s.ledger.takePendingIn key).2 }, [])
  | .revoke key => (revoke s key, [])
  | .dropCapabilities key caps => dropCapabilities s key (cleanNames caps)
  | .setOperatorCapabilities key caps => setOperatorCapabilities s key caps
  | .claimPreauth operatorId operatorPub caps label =>
    (claimPreauth s operatorId operatorPub (cleanNames caps) label, [])
  | .request target kind rid => (request s target kind rid, [])
  | .followLogs target on rid =>
    ({ newRid target .logs rid s with logFollows := setFollow target on rid s.logFollows }, [])
  | .followLinks target on rid =>
    ({ newRid target .links rid s with linkFollows := setFollow target on rid s.linkFollows }, [])
  | .callOver rid =>
    ({ s with
      consoleCalls := s.consoleCalls.pop rid, sessionCalls := s.sessionCalls.pop rid, fileCalls := s.fileCalls.pop rid
      inflight := s.inflight.pop rid }, [])
  | .provisionLocal digest host caps label =>
    let caps := if cleanNames caps = [] then provisionCaps else cleanNames caps
    ({ s with ledger := s.ledger.addProvisioned digest host caps label }, [])
  | .closeShell _ sid =>
    ({ s with openShells := s.openShells.pop sid }, [])

end Calls

/-! ### Runs -/

/-- **What happens to the app.** -/
inductive Action
  | frame (env : Env) (src payload : Bytes)
  | call (now : ℚ) (call : Call)
  | job (i : ℕ) (o : Outcome)
  | say (i : ℕ) (kind : Reply)
  | logTick (now : ℚ) (batch : Bool)
  | linkTick (now : ℚ) (changed : Bool)
  | reap (sids : List Bytes) (uploads : List (Text × Text))
  | ended (sid : Bytes)

def perform (c : Config) (s : State) : Action → Out
  | .frame env src payload => dispatch c env src payload s
  | .call now call => performCall now s call
  | .job i o => (runJob c.world i o s, [])
  | .say i kind => (say i kind s, [])
  | .logTick now batch => (logTick now batch s, [])
  | .linkTick now changed => (linkTick now changed s, [])
  | .reap sids uploads => (reap sids uploads s, [])
  | .ended sid => (closeShell sid true s, [])

def step (c : Config) (s : State) (a : Action) : State := (perform c s a).1

def start (ledger : FleetState) (maxNonces : ℕ) : State :=
  ⟨ledger, ⟨maxNonces, .empty⟩, [], .empty, .empty, .empty, .empty, .empty, .empty, .empty, .empty, .empty, .empty,
    .empty, .empty, .empty, .empty, .empty⟩

end NMesh.Fleet.App
