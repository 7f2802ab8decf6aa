import NMesh.Base.Base64
import NMesh.Base.Paths
import NMesh.Fleet.Messages
import NMesh.Logs.Book

/-! # The agent's side of the fleet

What a node does for those who may manage it. A request starts at most one operation, as a job of its own off the
receive loop; a job is at one of its awaits between two steps. What a job opens outlives it: shells, uploads, console
sessions and follows stand in tables of their own. -/

namespace NMesh.Fleet.Agent

open Base.BigEndian Base.Utf8 Base.Hex Base.Ordered Base.JsonText
open NMesh.AppAuth.Verify NMesh.Fleet.Ledger NMesh.Fleet.Messages
open NMesh.Logs.Book (truthy)

def maxInflight : ℕ := 64
def maxShells : ℕ := 4
def maxConsoleCalls : ℕ := 8
def maxFileCalls : ℕ := 8
def maxDockerCalls : ℕ := 4
def maxDockerSlow : ℕ := 2
def maxLogFollowers : ℕ := 16
def maxLinkFollowers : ℕ := 16
def maxGrantSessions : ℕ := 4
def maxUpdateStacks : ℕ := 32
def maxUploads : ℕ := 2
def writeSlice : ℕ := 24 * 1024
def consoleReqMax : ℕ := 24 * 1024
def consolePathMax : ℕ := 512
def logFollowTtl : ℚ := 300
def linkFollowTtl : ℚ := 40

/-! ### Operations -/

/-- The grants a console call carries, read from the ledger. -/
structure Grants where
  govern : Bool
  apps : Bool
  full : Bool
  deriving DecidableEq

/-- **What an agent does for an operator.** -/
inductive Op
  | status
  | logs
  | logFollow (on : Bool) (level : Text)
  | links
  | linkFollow (on : Bool)
  | invite
  | update (stackNames : List Text)
  | docker (op : Text) (slow : Bool)
  | file (doc : Json)
  | shell
  | scan
  | provision
  | console (method path : Text) (grants : Grants) (node : Option Text)
  | session

/-- What is sent back: an answer to a request, a refusal, the end of a shell. -/
inductive Answer
  | report (kind : Reply) (rid : Text)
  | refusal (rid text : Text)
  | closed (sid : Bytes)

/-- A job, at the await it stands at. -/
inductive Job
  | send (target : Bytes) (answer : Answer)
  | work (owner : Bytes) (rid : Text) (op : Op)
  /-- a log follow that waits for the subscription -/
  | following (owner : Bytes) (rid level : Text)
  /-- a log follow that waits for what was missed -/
  | backlog (owner : Bytes) (rid : Text)
  /-- a link follow that waits for the first list -/
  | linking (owner : Bytes) (rid : Text)
  /-- the operator's own question for the status of a node -/
  | askStatus (target : Bytes)

structure Follower where
  owner : Bytes
  rid : Text
  level : Text
  expires : ℚ

/-- The kinds of request an operator keeps track of. -/
inductive Kind
  | console | session | status | logs | links | invite | update | docker | shell | file | scan | provision
  deriving DecidableEq

/-- **The state of the app**: the ledger, the nonces used up and the jobs; the agent's tables, by the hexadecimal of
the peer (shells by their id); then the operator's. -/
structure State where
  ledger : FleetState
  nonces : NonceCache
  jobs : List Job
  consoleHosted : Dict Text ℕ
  fileHosted : Dict Text ℕ
  dockerCalls : Dict Bytes (ℕ × ℕ)
  shells : Dict Bytes Bytes
  uploads : Dict (Text × Text) Unit
  sessions : Dict Text (List Text)
  logFollowers : Dict Text Follower
  linkFollowers : Dict Text Follower
  inflight : Dict Text (Bytes × Kind)
  openShells : Dict Bytes Bytes
  logFollows : Dict Text Text
  linkFollows : Dict Text Text
  consoleCalls : Dict Text ℕ
  sessionCalls : Dict Text Unit
  fileCalls : Dict Text Unit

/-- What an operator is told. -/
inductive Event
  | enrolRequested (src : Bytes) (caps : List Cap) (label : Text)
  | enrolAnswered (src : Bytes) (granted : Bool) (caps : List Cap)
  | nodeAdopted (src : Bytes) (host label : Text)
  | revoked (src : Bytes)
  | capsChanged (src : Bytes) (caps : List Cap) (operator : Bool)
  | statusReceived (src : Bytes) (rid : Text)
  | commandOutput (src : Bytes) (rid : Text) (kind : Kind)
  | commandResult (src : Bytes) (rid : Text) (kind : Kind)
  | inviteIssued (src : Bytes) (rid : Text)
  | dockerReport (src : Bytes) (rid : Text)
  | linksReceived (src : Bytes) (rid : Text) (pushed : Bool)
  | logsReceived (src : Bytes) (rid : Text) (pushed : Bool)
  | scanReceived (src : Bytes) (rid : Text)
  | shellOpened (src : Bytes) (rid : Text) (sid : Bytes)
  | shellOutput (src : Bytes) (sid : Bytes)
  | shellClosed (src : Bytes) (sid : Bytes)
  | failure (src : Bytes) (rid text : Text)

/-- What a step does besides changing the state: an operation starts for a peer, an event is emitted, a call that
waits is answered, bytes are typed into a shell. -/
inductive Effect
  | started (src : Bytes) (op : Op)
  | event (e : Event)
  | answered (rid : Text)
  | typed (sid : Bytes)

abbrev Out := State × List Effect

/-- What a handler takes from outside: the guard's answer, the unix time in whole seconds and as it is, whether there
is a console and the session it mints (or what it says instead), whether there is a plan for updates (and what stands in its way), an ssh client, and
whether the terminal takes what is typed. -/
structure Env where
  allowed : Bool
  stamp : ℕ
  now : ℚ
  console : Bool
  token : Except Text Text
  plan : Bool
  blocked : Text
  ssh : Bool
  wrote : Bool

/-- The node the app runs on: Python and the identity, whether a status is asked for by itself, whether there is a way
to invite, and a tree to install from. -/
structure Config where
  world : World
  autoStatus : Bool
  hasInvite : Bool
  hasTree : Bool

/-! ### Jobs and answers -/

/-- `_spawn`: a job, if there is room. -/
def spawn (job : Job) (s : State) : State :=
  if s.jobs.length < maxInflight then { s with jobs := s.jobs ++ [job] } else s

def reply (target : Bytes) (kind : Reply) (rid : Text) (s : State) : State := spawn (.send target (.report kind rid)) s

def fail (target : Bytes) (rid text : Text) (s : State) : State := spawn (.send target (.refusal rid (text.take 256))) s

def start (src : Bytes) (rid : Text) (op : Op) (s : State) : Out :=
  if s.jobs.length < maxInflight then ({ s with jobs := s.jobs ++ [.work src rid op] }, [.started src op]) else (s, [])

/-- `_authorised`: the ledger allows it, or the peer is told. -/
def gate (src : Bytes) (cap : Cap) (rid : Text) (s : State) (next : Out) : Out :=
  if s.ledger.allows (toHex src) cap then next else (fail src rid (ascii "not authorised for " ++ cap.name) s, [])

/-! ### Reading a request -/

section Reading

variable (W : World)

/-- `str(value)` -/
def textOf : Json → Text
  | .str s => s
  | v => W.str v

/-- `str(document.get(key, default))` -/
def textAt (doc : Json) (key : String) (default : Text) : Text := ((doc.get? (ascii key)).map (textOf W)).getD default

/-- `str(document.get(key) or default)` -/
def textOr (doc : Json) (key : String) (default : Text) : Text :=
  match doc.get? (ascii key) with
  | some v => if truthy v then textOf W v else default
  | none => default

def flag (doc : Json) (key : String) : Bool := ((doc.get? (ascii key)).map truthy).getD false

/-- `_STACK_RE` -/
def isStackName (name : Text) : Bool :=
  let plain := fun c : ℕ => decide (0x41 ≤ c ∧ c ≤ 0x5A ∨ 0x61 ≤ c ∧ c ≤ 0x7A ∨ 0x30 ≤ c ∧ c ≤ 0x39)
  match name with
  | [] => false
  | c :: rest => plain c && decide (rest.length ≤ 63) && rest.all fun c => plain c || decide (c = 0x5F ∨ c = 0x2E ∨ c = 0x2D)

def cleanStackNames : Option Json → List Text
  | some (.arr items) => ((items.take maxUpdateStacks).filterMap Json.text?).foldl
      (fun out name => if isStackName name ∧ name ∉ out then out ++ [name] else out) []
  | _ => []

def dockerOps : List Text :=
  [ascii "overview", ascii "containers", ascii "container", ascii "logs", ascii "act", ascii "images", ascii "stats",
    ascii "volumes", ascii "networks", ascii "remove_image", ascii "pull", ascii "deploy", ascii "stacks",
    ascii "stack", ascii "stack_file", ascii "check", ascii "recreate", ascii "deploy_stack", ascii "portainer",
    ascii "portainer_probe"]

def dockerSlow (op : Text) (doc : Json) : Bool :=
  decide (op ∈ [ascii "pull", ascii "deploy", ascii "deploy_stack", ascii "check", ascii "recreate"]) ||
    decide (op = ascii "stack" ∧ (doc.get? (ascii "action")).bind Json.text? = some (ascii "update"))

def consolePathRefusal (path : Text) (apps full : Bool) : Option Text :=
  let family := ((NMesh.Base.Paths.split path)[2]?).getD []
  if ¬ ascii "/api/" <+: path then some (ascii "only the console API can be driven remotely")
  else if full then none
  else if ascii "/api/fleet/" <+: path ∨ ascii "/api/remote/" <+: path then
    some (family ++ ascii " needs the full capability on that node")
  else if apps = false ∧ (ascii "/api/chat/" <+: path ∨ ascii "/api/contacts/" <+: path) then
    some (family ++ ascii " needs the apps capability on that node")
  else none

/-- The node a call is to reach on to; an error is what the caller is told. -/
def nextHop (doc : Json) (full : Bool) : Except Text (Option Text) :=
  match doc.get? (ascii "node") with
  | none => .ok none
  | some .null => .ok none
  | some v =>
    if full = false then .error (ascii "reaching on through this node needs the full capability")
    else if isNodeHex (W.normal (textOf W v)) then .ok (some (W.normal (textOf W v)))
    else .error (ascii "bad node id")

/-- What is wrong with the body of a call, if anything is. -/
def badBody (doc : Json) : Option Text :=
  match doc.get? (ascii "body") with
  | none => none
  | some .null => none
  | some v =>
    match NMesh.Base.Base64.decode (textOf W v) with
    | none => some (ascii "malformed body")
    | some body => if consoleReqMax < body.length then some (ascii "request too large") else none

end Reading

/-! ### Requests -/

section Requests

variable (c : Config) (env : Env) (src : Bytes) (doc : Json) (s : State)

def onStatusRequest : Out :=
  gate src .status (ridOf doc) s (reply src .statusReport (ridOf doc) s, [.started src .status])

def onLogsRequest : Out :=
  gate src .logs (ridOf doc) s <|
    let op := textOr c.world doc "op" (ascii "query")
    if op = ascii "follow" then
      start src (ridOf doc) (.logFollow (flag doc "on") ((textOr c.world doc "level" (ascii "info")).take 8)) s
    else if op ≠ ascii "query" ∧ op ≠ ascii "since" then (fail src (ridOf doc) (ascii "no such log operation") s, [])
    else start src (ridOf doc) .logs s

def onLinksRequest : Out :=
  gate src .links (ridOf doc) s <|
    if textOr c.world doc "op" (ascii "get") = ascii "follow" then
      start src (ridOf doc) (.linkFollow (flag doc "on")) s
    else start src (ridOf doc) .links s

def onInviteRequest : Out :=
  gate src .invite (ridOf doc) s <|
    if c.hasInvite then start src (ridOf doc) .invite s
    else (fail src (ridOf doc) (ascii "this node cannot issue invitations") s, [])

/-- `_on_update_request`: the stacks only where docker is granted too. -/
def onUpdateRequest : Out :=
  gate src .update (ridOf doc) s <|
    let asked := cleanStackNames (doc.get? (ascii "stacks"))
    let chosen := if asked ≠ [] ∧ s.ledger.allows (toHex src) .docker = false then [] else asked
    if env.plan = false ∧ chosen = [] then
      (fail src (ridOf doc) (if env.blocked = [] then ascii "no package manager, or no path to root" else env.blocked)
        s, [])
    else start src (ridOf doc) (.update chosen) s

def onDockerRequest : Out :=
  gate src .docker (ridOf doc) s <|
    match (doc.get? (ascii "op")).bind Json.text? with
    | none => (fail src (ridOf doc) (ascii "that is not a docker operation") s, [])
    | some op =>
      if op ∉ dockerOps then (fail src (ridOf doc) (ascii "that is not a docker operation") s, [])
      else
        let slow := dockerSlow op doc
        let (held, heldSlow) := (s.dockerCalls.get? src).getD (0, 0)
        if maxDockerCalls ≤ held ∨ (slow ∧ maxDockerSlow ≤ heldSlow) then
          (fail src (ridOf doc) (ascii "too many docker operations already running") s, [])
        else
          start src (ridOf doc) (.docker op slow)
            { s with dockerCalls := s.dockerCalls.set src (held + 1, heldSlow + slow.toNat) }

def onShellOpen : Out :=
  gate src .shell (ridOf doc) s <|
    if maxShells ≤ s.shells.size then (fail src (ridOf doc) (ascii "too many open shells") s, [])
    else start src (ridOf doc) .shell s

def onFileRequest : Out :=
  gate src .shell (ridOf doc) s <|
    let held := (s.fileHosted.get? (toHex src)).getD 0
    if maxFileCalls ≤ held then (fail src (ridOf doc) (ascii "too many file operations in flight") s, [])
    else start src (ridOf doc) (.file doc) { s with fileHosted := s.fileHosted.set (toHex src) (held + 1) }

def onScanRequest : Out := gate src .scan (ridOf doc) s (start src (ridOf doc) .scan s)

def onProvisionRequest : Out :=
  gate src .provision (ridOf doc) s <|
    if c.hasTree = false then (fail src (ridOf doc) (ascii "no NMesh tree to push from this node") s, [])
    else if env.ssh = false then (fail src (ridOf doc) (ascii "no ssh client on this node") s, [])
    else start src (ridOf doc) .provision s

def grantsOf : Grants :=
  ⟨s.ledger.allows (toHex src) .govern, s.ledger.allows (toHex src) .apps, s.ledger.allows (toHex src) .full⟩

def onConsoleRequest : Out :=
  gate src .manage (ridOf doc) s <|
    if env.console = false then (fail src (ridOf doc) (ascii "this node has no console to manage") s, [])
    else
      let method := c.world.upper ((textAt c.world doc "method" []).take 8)
      let path := (textAt c.world doc "path" []).take consolePathMax
      if method ≠ ascii "GET" ∧ method ≠ ascii "POST" then (fail src (ridOf doc) (ascii "unsupported method") s, [])
      else
        let grants := grantsOf src s
        match consolePathRefusal path grants.apps grants.full with
        | some refusal => (fail src (ridOf doc) refusal s, [])
        | none =>
          match nextHop c.world doc grants.full with
          | .error text => (fail src (ridOf doc) text s, [])
          | .ok node =>
            match badBody c.world doc with
            | some text => (fail src (ridOf doc) text s, [])
            | none =>
              let held := (s.consoleHosted.get? (toHex src)).getD 0
              if maxConsoleCalls ≤ held then (fail src (ridOf doc) (ascii "too many calls in flight") s, [])
              else
                start src (ridOf doc) (.console method path grants node)
                  { s with consoleHosted := s.consoleHosted.set (toHex src) (held + 1) }

/-- `_on_console_session`: the oldest sessions beyond four are revoked. -/
def onConsoleSession : Out :=
  gate src .passwordless (ridOf doc) s <|
    gate src .manage (ridOf doc) s <|
      if env.console = false then (fail src (ridOf doc) (ascii "this node has no console to manage") s, [])
      else
        match env.token with
        | .error text => (fail src (ridOf doc) text s, [])
        | .ok token =>
          let held := (s.sessions.get? (toHex src)).getD [] ++ [token]
          let kept := held.drop (held.length - maxGrantSessions)
          (reply src .consoleSessionIssued (ridOf doc) { s with sessions := s.sessions.set (toHex src) kept },
            [.started src .session])

end Requests

/-! ### What a right has opened -/

def closeShell (sid : Bytes) (notify : Bool) (s : State) : State :=
  match s.shells.get? sid with
  | none => s
  | some owner =>
    let s := { s with shells := s.shells.pop sid }
    if notify then spawn (.send owner (.closed sid)) s else s

/-- `_drop_shells_of`, in both roles. -/
def dropShellsOf (src : Bytes) (s : State) : State :=
  let sids := (s.shells.entries.filter fun e => decide (e.2 = src)).map Prod.fst
  sids.foldl (fun s sid => closeShell sid true s)
    { s with openShells := s.openShells.filterVal fun owner => decide (owner ≠ src) }

def dropUploadsOf (src : Bytes) (s : State) : State :=
  { s with uploads := s.uploads.filterKeys fun key => decide (key.1 ≠ toHex src) }

/-- `_drop_granted_sessions_of` -/
def dropSessionsOf (src : Bytes) (s : State) : State := { s with sessions := s.sessions.pop (toHex src) }

/-! ### The steps of a job -/

/-- How a job goes on: whether what it waited for came, what it says where it did not, the time, the id of a shell,
whether the log is subscribed to already, and what became of a slice (the uploads that were idle, whether it was written, and whether
the file came to its place). -/
structure Outcome where
  ok : Bool
  text : Text
  now : ℚ
  sid : Bytes
  rid : Text
  ready : Bool
  idle : List (Text × Text)
  wrote : Bool
  placed : Bool

/-- `_reap_uploads`: the idle ones, and the oldest of a peer that has two. -/
def reapUploads (key : Text) (idle : List (Text × Text)) (d : Dict (Text × Text) Unit) : Dict (Text × Text) Unit :=
  let d := idle.foldl Dict.pop d
  let mine := d.keys.filter fun k => decide (k.1 = key)
  (mine.take (mine.length - (maxUploads - 1))).foldl Dict.pop d

def fileWrite (W : World) (owner : Bytes) (rid : Text) (doc : Json) (o : Outcome) (s : State) : State :=
  let key := (toHex owner, (textAt W doc "uid" []).take 32)
  let offset := ((doc.get? (ascii "offset")).bind Json.int?).getD (-1)
  match NMesh.Base.Base64.decode (textOr W doc "data" []) with
  | none => fail owner rid (ascii "that slice is not readable") s
  | some data =>
    if writeSlice < data.length then fail owner rid (ascii "that slice is too large") s
    else if key ∉ s.uploads.keys ∧ offset ≠ 0 then fail owner rid (ascii "no upload to continue — start again") s
    else
      let s := if key ∈ s.uploads.keys then s else { s with uploads := reapUploads (toHex owner) o.idle s.uploads }
      if key ∉ s.uploads.keys ∧ o.ok = false then fail owner rid o.text s
      else if o.wrote = false then fail owner rid o.text { s with uploads := s.uploads.pop key }
      else if flag doc "final" then
        let s := { s with uploads := s.uploads.pop key }
        if o.placed then reply owner .fileReply rid s else fail owner rid o.text s
      else reply owner .fileReply rid { s with uploads := s.uploads.set key () }

def runFileOp (W : World) (owner : Bytes) (rid : Text) (doc : Json) (o : Outcome) (s : State) : State :=
  let held := (s.fileHosted.get? (toHex owner)).getD 1 - 1
  let s := { s with fileHosted := if 0 < held then s.fileHosted.set (toHex owner) held
    else s.fileHosted.pop (toHex owner) }
  let op := (textAt W doc "op" []).take 16
  if op = ascii "write" then fileWrite W owner rid doc o s
  else if op = ascii "list" ∨ op = ascii "mkdir" then
    if o.ok then reply owner .fileReply rid s else fail owner rid o.text s
  else if op = ascii "read" then if o.ok then reply owner .fileData rid s else fail owner rid o.text s
  else fail owner rid (ascii "unknown file operation") s

def finish (owner : Bytes) (kind : Reply) (rid : Text) (o : Outcome) (s : State) : State :=
  if o.ok then reply owner kind rid s else fail owner rid o.text s

def setLogFollower (owner : Bytes) (rid level : Text) (now : ℚ) (s : State) : State :=
  reply owner .logsReply rid
    { s with logFollowers := s.logFollowers.set (toHex owner) ⟨owner, rid, level, now + logFollowTtl⟩ }

/-- `_run_console_call` and `_run_docker` give their places back. -/
def giveBack (op : Op) (owner : Bytes) (s : State) : State :=
  match op with
  | .console _ _ _ _ =>
    let held := (s.consoleHosted.get? (toHex owner)).getD 1 - 1
    { s with consoleHosted := if 0 < held then s.consoleHosted.set (toHex owner) held
      else s.consoleHosted.pop (toHex owner) }
  | .docker _ slow =>
    let (held, heldSlow) := (s.dockerCalls.get? owner).getD (1, slow.toNat)
    { s with dockerCalls := if 1 < held then s.dockerCalls.set owner (held - 1, heldSlow - slow.toNat)
      else s.dockerCalls.pop owner }
  | _ => s

/-- One step of an operation that was started; `i` is its place among the jobs. -/
def runOp (W : World) (i : ℕ) (owner : Bytes) (rid : Text) (op : Op) (o : Outcome) (s : State) : State :=
  let done := { s with jobs := s.jobs.eraseIdx i }
  match op with
  | .logs => finish owner .logsReply rid o done
  | .links => finish owner .linksReply rid o done
  | .invite => finish owner .inviteIssued rid o done
  | .update _ => reply owner .updateResult rid done
  | .docker _ _ => finish owner .dockerReply rid o (giveBack op owner done)
  | .scan => finish owner .scanResult rid o done
  | .provision => finish owner .provisionResult rid o done
  | .console _ _ _ _ => reply owner .consoleReply rid (giveBack op owner done)
  | .file doc => runFileOp W owner rid doc o done
  | .shell =>
    if o.ok then reply owner .shellOpened rid { done with shells := done.shells.set o.sid owner }
    else fail owner rid o.text done
  | .logFollow on level =>
    if on = false then
      reply owner .logsReply rid { done with logFollowers := done.logFollowers.pop (toHex owner) }
    else if toHex owner ∉ s.logFollowers.keys ∧ maxLogFollowers ≤ s.logFollowers.size then
      fail owner rid (ascii "too many consoles are following this log") done
    else if o.ready then
      setLogFollower owner rid level o.now { s with jobs := s.jobs.set i (.backlog owner rid) }
    else { s with jobs := s.jobs.set i (.following owner rid level) }
  | .linkFollow on =>
    if on = false then
      reply owner .linksReply rid { done with linkFollowers := done.linkFollowers.pop (toHex owner) }
    else if toHex owner ∉ s.linkFollowers.keys ∧ maxLinkFollowers ≤ s.linkFollowers.size then
      fail owner rid (ascii "too many consoles are following these links") done
    else { s with jobs := s.jobs.set i (.linking owner rid) }
  | .status => done
  | .session => done

/-- `_new_rid`: the oldest request is forgotten beyond 64. -/
def newRid (target : Bytes) (kind : Kind) (rid : Text) (s : State) : State :=
  { s with inflight := (Dict.makeRoom maxInflight s.inflight.size s.inflight).set rid (target, kind) }

def runJob (W : World) (i : ℕ) (o : Outcome) (s : State) : State :=
  let done := { s with jobs := s.jobs.eraseIdx i }
  match s.jobs[i]? with
  | none => s
  | some (.send _ _) => done
  | some (.work owner rid op) => runOp W i owner rid op o s
  | some (.following owner rid level) =>
    if o.ok then setLogFollower owner rid level o.now { s with jobs := s.jobs.set i (.backlog owner rid) }
    else fail owner rid o.text done
  | some (.backlog owner rid) => if o.ok then reply owner .logsReply rid done else done
  | some (.linking owner rid) =>
    if o.ok then
      reply owner .linksReply rid { done with
        linkFollowers := done.linkFollowers.set (toHex owner) ⟨owner, rid, [], o.now + linkFollowTtl⟩ }
    else fail owner rid o.text done
  | some (.askStatus target) => newRid target .status o.rid done

def say (i : ℕ) (kind : Reply) (s : State) : State :=
  match s.jobs[i]? with
  | some (.work owner rid _) => reply owner kind rid s
  | _ => s

/-- One turn of a pump: the follows that have run out go, the others are sent something. -/
def pushTo (followers : Dict Text Follower) (kind : Reply) (s : State) : State :=
  followers.values.foldl (fun s follower => reply follower.owner kind follower.rid s) s

/-- `_push_to_followers` -/
def logTick (now : ℚ) (batch : Bool) (s : State) : State :=
  let s := { s with logFollowers := s.logFollowers.filterVal fun follower => decide (now < follower.expires) }
  if batch then pushTo s.logFollowers .logsReply s else s

/-- One turn of `_link_loop` -/
def linkTick (now : ℚ) (changed : Bool) (s : State) : State :=
  let s := { s with linkFollowers := s.linkFollowers.filterVal fun follower => decide (now < follower.expires) }
  if changed then pushTo s.linkFollowers .linksReply s else s

/-- `_reap_loop`: what nobody talks to any more. -/
def reap (sids : List Bytes) (uploads : List (Text × Text)) (s : State) : State :=
  let s := sids.foldl (fun s sid => closeShell sid true s) s
  { s with uploads := uploads.foldl Dict.pop s.uploads }

end NMesh.Fleet.Agent
