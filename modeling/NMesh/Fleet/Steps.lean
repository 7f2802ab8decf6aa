import Mathlib.Data.List.Perm.Basic
import NMesh.Fleet.App

/-! # What the steps of the fleet app leave alone

* `still`: what a step of a job leaves as it was, but for the places of an operation that is over (`still_runJob`);
* `Quiet`: of that, the ledger, the nonces and what the operator waits for; so it is with every step of a job but the
  question for a status (`quiet_runJob`);
* `Requested`: what comes of a request of an operation, one case for each way it can go (`request_spec`). -/

namespace NMesh.Fleet.Steps

open Base.BigEndian Base.Utf8 Base.Hex Base.Ordered Base.JsonText
open NMesh.AppAuth.Verify NMesh.Fleet.Ledger NMesh.Fleet.Messages NMesh.Fleet.Agent NMesh.Fleet.App

/-! ### Places -/

/-- What a peer may have only so many of at once. -/
inductive Place
  | docker | slow | file | console

def takes : Op → Place → Bool
  | .docker _ slow, place => match place with
    | .docker => true
    | .slow => slow
    | _ => false
  | .file _, place => match place with
    | .file => true
    | _ => false
  | .console _ _ _ _, place => match place with
    | .console => true
    | _ => false
  | _, _ => false

def fills (place : Place) (peer : Bytes) : Job → Bool
  | .work owner _ op => takes op place && decide (owner = peer)
  | _ => false

/-- How many operations that take a place run for a peer. -/
def running (s : State) (place : Place) (peer : Bytes) : ℕ := s.jobs.countP (fills place peer)

/-- The nonces, the books of the places, and what runs. -/
def desk (s : State) := (s.nonces, s.consoleHosted, s.fileHosted, s.dockerCalls, running s)

def aside (s : State) := (s.inflight, s.logFollows, s.linkFollows, desk s)

def still (s : State) := (s.ledger, aside s)

/-- An operation is over: it gives its places back, one on a file where it is carried out. -/
def vacated (op : Op) (owner : Bytes) (s : State) : State :=
  match op with
  | .file _ =>
    let held := (s.fileHosted.get? (toHex owner)).getD 1 - 1
    { s with fileHosted := if 0 < held then s.fileHosted.set (toHex owner) held
      else s.fileHosted.pop (toHex owner) }
  | _ => giveBack op owner s

variable {s s' : State}

theorem aside_of_still (h : still s' = still s) : aside s' = aside s := congrArg Prod.snd h

theorem desk_of_aside (h : aside s' = aside s) : desk s' = desk s := congrArg (fun x => x.2.2.2) h

theorem desk_of_still (h : still s' = still s) : desk s' = desk s := desk_of_aside (aside_of_still h)

theorem spawn_eq (job : Job) (s : State) : spawn job s = { s with jobs := (spawn job s).jobs } := by
  unfold spawn
  split_ifs <;> rfl

theorem still_spawn {job : Job} (hjob : ∀ place peer, fills place peer job = false) (s : State) :
    still (spawn job s) = still s := by
  have hrunning : running (spawn job s) = running s := by
    funext place peer
    unfold running spawn
    split_ifs
    · rw [List.countP_append, List.countP_singleton, hjob]
      rfl
    · rfl
  unfold still aside desk
  rw [hrunning, spawn_eq]

theorem still_reply (target : Bytes) (kind : Reply) (rid : Text) (s : State) :
    still (reply target kind rid s) = still s := still_spawn (fun _ _ => rfl) s

theorem still_fail (target : Bytes) (rid text : Text) (s : State) : still (fail target rid text s) = still s :=
  still_spawn (fun _ _ => rfl) s

theorem still_asking (c : Config) (src : Bytes) (s : State) :
    still (if c.autoStatus then spawn (.askStatus src) s else s) = still s := by
  split_ifs
  · exact still_spawn (fun _ _ => rfl) s
  · rfl

theorem still_foldl {α : Type} {f : State → α → State} (hf : ∀ s a, still (f s a) = still s) :
    ∀ (l : List α) (s : State), still (l.foldl f s) = still s
  | [], _ => rfl
  | a :: l, s => (still_foldl hf l (f s a)).trans (hf s a)

theorem still_closeShell (sid : Bytes) (notify : Bool) (s : State) : still (closeShell sid notify s) = still s := by
  unfold closeShell
  cases s.shells.get? sid with
  | none => rfl
  | some owner =>
    dsimp only
    split_ifs
    · exact still_spawn (fun _ _ => rfl) _
    · rfl

theorem still_dropAll (src : Bytes) (s : State) :
    still (dropSessionsOf src (dropUploadsOf src (dropShellsOf src s))) = still s :=
  still_foldl (fun s sid => still_closeShell sid true s) _ _

theorem still_dropBeyond (src : Bytes) (caps : List Cap) (s : State) : still (dropBeyond src caps s) = still s := by
  unfold dropBeyond
  dsimp only
  split_ifs
  · rfl
  · exact still_dropAll src s
  · rfl
  · exact still_dropAll src s

theorem still_finish (owner : Bytes) (kind : Reply) (rid : Text) (o : Outcome) (s : State) :
    still (finish owner kind rid o s) = still s := by
  unfold finish
  split_ifs
  · exact still_reply _ _ _ _
  · exact still_fail _ _ _ _

theorem still_fileWrite (W : World) (owner : Bytes) (rid : Text) (doc : Json) (o : Outcome) (s : State) :
    still (fileWrite W owner rid doc o s) = still s := by
  unfold fileWrite
  dsimp only
  cases NMesh.Base.Base64.decode (textOr W doc "data" []) with
  | none => exact still_fail _ _ _ _
  | some data =>
    dsimp only
    split_ifs
    all_goals exact still_spawn (fun _ _ => rfl) _

theorem still_runFileOp (W : World) (owner : Bytes) (rid : Text) (doc : Json) (o : Outcome) (s : State) :
    still (runFileOp W owner rid doc o s) = still (vacated (.file doc) owner s) := by
  unfold runFileOp vacated
  dsimp only
  split_ifs
  all_goals first
    | exact still_fileWrite _ _ _ _ _ _
    | exact still_spawn (fun _ _ => rfl) _

section Jobs

variable {i : ℕ} {job job' : Job}

theorem running_erase (h : s.jobs[i]? = some job) (place : Place) (peer : Bytes) :
    running s place peer =
      running { s with jobs := s.jobs.eraseIdx i } place peer + (fills place peer job).toNat := by
  obtain ⟨hi, rfl⟩ := List.getElem?_eq_some_iff.mp h
  unfold running
  rw [← (List.getElem_cons_eraseIdx_perm hi).countP_eq, List.countP_cons]
  cases fills place peer s.jobs[i] <;> rfl

theorem still_erase (h : s.jobs[i]? = some job) (hjob : ∀ place peer, fills place peer job = false) :
    still { s with jobs := s.jobs.eraseIdx i } = still s := by
  have hrunning : running { s with jobs := s.jobs.eraseIdx i } = running s := by
    funext place peer
    rw [running_erase h, hjob]
    rfl
  unfold still aside desk
  rw [hrunning]

theorem still_set (h : s.jobs[i]? = some job) (hjob : ∀ place peer, fills place peer job' = false) :
    still { s with jobs := s.jobs.set i job' } = still { s with jobs := s.jobs.eraseIdx i } := by
  have hset : ({ s with jobs := s.jobs.set i job' } : State).jobs[i]? = some job' := by
    rw [List.getElem?_set_self (List.getElem?_eq_some_iff.mp h).1]
  have herase := still_erase hset hjob
  rw [List.eraseIdx_set_eq] at herase
  exact herase.symm

variable {owner : Bytes} {rid : Text} {op : Op}

theorem still_runOp (W : World) (o : Outcome) (h : s.jobs[i]? = some (.work owner rid op)) :
    still (runOp W i owner rid op o s) = still (vacated op owner { s with jobs := s.jobs.eraseIdx i }) := by
  unfold runOp
  cases op with
  | logs | links | invite | docker op slow | scan | provision => exact still_finish _ _ _ _ _
  | update names | console method path grants node => exact still_reply _ _ _ _
  | file doc => exact still_runFileOp _ _ _ _ _ _
  | shell =>
    dsimp only
    split_ifs
    · exact still_reply _ _ _ _
    · exact still_fail _ _ _ _
  | logFollow on level =>
    dsimp only
    split_ifs
    · exact still_reply _ _ _ _
    · exact still_fail _ _ _ _
    · exact (still_reply _ _ _ _).trans (still_set h fun _ _ => rfl)
    · exact still_set h fun _ _ => rfl
  | linkFollow on =>
    dsimp only
    split_ifs
    · exact still_reply _ _ _ _
    · exact still_fail _ _ _ _
    · exact still_set h fun _ _ => rfl
  | status | session => rfl

/-- **A step of a job leaves all that alone**, unless an operation is over, or it is the question for a status. -/
theorem still_runJob (W : World) (i : ℕ) (o : Outcome) (s : State) :
    still (runJob W i o s) = still s ∨
      (∃ owner rid op, s.jobs[i]? = some (.work owner rid op) ∧
        still (runJob W i o s) = still (vacated op owner { s with jobs := s.jobs.eraseIdx i })) ∨
      ∃ target, s.jobs[i]? = some (.askStatus target) ∧
        runJob W i o s = newRid target .status o.rid { s with jobs := s.jobs.eraseIdx i } := by
  unfold runJob
  cases hjob : s.jobs[i]? with
  | none => exact Or.inl rfl
  | some job =>
    cases job with
    | send target answer => exact Or.inl (still_erase hjob fun _ _ => rfl)
    | work owner rid op => exact Or.inr (Or.inl ⟨owner, rid, op, rfl, still_runOp W o hjob⟩)
    | following owner rid level =>
      have hdone := still_erase hjob fun _ _ => rfl
      refine Or.inl ?_
      dsimp only
      split_ifs
      · exact (still_reply _ _ _ _).trans ((still_set hjob fun _ _ => rfl).trans hdone)
      · exact (still_fail _ _ _ _).trans hdone
    | backlog owner rid =>
      have hdone := still_erase hjob fun _ _ => rfl
      refine Or.inl ?_
      dsimp only
      split_ifs
      · exact (still_reply _ _ _ _).trans hdone
      · exact hdone
    | linking owner rid =>
      have hdone := still_erase hjob fun _ _ => rfl
      refine Or.inl ?_
      dsimp only
      split_ifs
      · exact (still_reply _ _ _ _).trans hdone
      · exact (still_fail _ _ _ _).trans hdone
    | askStatus target => exact Or.inr (Or.inr ⟨target, rfl, rfl⟩)

end Jobs

/-- What happens by itself, off the frames, the calls and the ends of the jobs. -/
def alone : Action → Bool
  | .frame _ _ _ => false
  | .call _ _ => false
  | .job _ _ => false
  | _ => true

theorem still_alone (c : Config) {a : Action} (h : alone a = true) : still (step c s a) = still s := by
  cases a with
  | frame env src payload | call now call | job i o => cases h
  | say i kind =>
    show still (say i kind s) = _
    unfold say
    split
    · exact still_reply _ _ _ _
    · rfl
  | logTick now batch =>
    show still (logTick now batch s) = _
    unfold logTick
    dsimp only
    split_ifs
    · exact still_foldl (fun s _ => still_reply _ _ _ s) _ _
    · rfl
  | linkTick now changed =>
    show still (linkTick now changed s) = _
    unfold linkTick
    dsimp only
    split_ifs
    · exact still_foldl (fun s _ => still_reply _ _ _ s) _ _
    · rfl
  | reap sids uploads => exact still_foldl (fun s sid => still_closeShell sid true s) sids s
  | ended sid => exact still_closeShell _ _ _

theorem still_stream (env : Env) (src : Bytes) (code : UInt8) (body : Bytes) (s : State) :
    still (shellStream env src code body s).1 = still s := by
  unfold shellStream
  dsimp only
  repeat' split
  all_goals first
    | rfl
    | exact still_closeShell _ _ s

/-! ### Quiet steps -/

/-- The ledger, the nonces and what the operator waits for are the same. -/
structure Quiet (s s' : State) : Prop where
  ledger : s'.ledger = s.ledger
  nonces : s'.nonces = s.nonces
  inflight : s'.inflight = s.inflight
  logFollows : s'.logFollows = s.logFollows
  linkFollows : s'.linkFollows = s.linkFollows

theorem quiet (h : still s' = still s) : Quiet s s' :=
  ⟨congrArg (fun x => x.1) h, congrArg (fun x => x.2.2.2.2.1) h, congrArg (fun x => x.2.1) h,
    congrArg (fun x => x.2.2.1) h, congrArg (fun x => x.2.2.2.1) h⟩

/-- **A step of a job is quiet**, unless it is the question for a status. -/
theorem quiet_runJob (W : World) (i : ℕ) (o : Outcome) (s : State) :
    Quiet s (runJob W i o s) ∨
      ∃ target, s.jobs[i]? = some (.askStatus target) ∧
        runJob W i o s = newRid target .status o.rid { s with jobs := s.jobs.eraseIdx i } := by
  rcases still_runJob W i o s with h | ⟨owner, rid, op, -, h⟩ | h
  · exact Or.inl (quiet h)
  · obtain ⟨hledger, hnonces, hinflight, hlogs, hlinks⟩ := quiet h
    refine Or.inl ?_
    cases op <;> exact ⟨hledger, hnonces, hinflight, hlogs, hlinks⟩
  · exact Or.inr h

/-! ### What comes of a request -/

def kindOf : Op → Signed
  | .status => .statusRequest
  | .logs => .logsRequest
  | .logFollow _ _ => .logsRequest
  | .links => .linksRequest
  | .linkFollow _ => .linksRequest
  | .invite => .inviteRequest
  | .update _ => .updateRequest
  | .docker _ _ => .dockerRequest
  | .file _ => .fileRequest
  | .shell => .shellOpen
  | .scan => .scanRequest
  | .provision => .provisionRequest
  | .console _ _ _ _ => .consoleRequest
  | .session => .consoleSession

def needs : Op → List Cap
  | .status => [.status]
  | .logs => [.logs]
  | .logFollow _ _ => [.logs]
  | .links => [.links]
  | .linkFollow _ => [.links]
  | .invite => [.invite]
  | .update names => if names = [] then [.update] else [.update, .docker]
  | .docker _ _ => [.docker]
  | .file _ => [.shell]
  | .shell => [.shell]
  | .scan => [.scan]
  | .provision => [.provision]
  | .console _ _ grants node => .manage :: ((if grants.govern then [.govern] else []) ++
      (if grants.apps then [.apps] else []) ++ (if grants.full ∨ node.isSome then [.full] else []))
  | .session => [.passwordless, .manage]

/-- The paths a console call may reach, with the grants it carries. -/
def Reaches : Op → Prop
  | .console _ path grants _ => consolePathRefusal path grants.apps grants.full = none
  | _ => True

/-- **A ledger permits an operation**: every capability it needs, and the path it reaches. -/
structure Permits (l : FleetState) (src : Bytes) (op : Op) : Prop where
  needs : ∀ cap ∈ needs op, l.allows (toHex src) cap = true
  reaches : Reaches op

/-! ### The places of a peer -/

def limit : Place → ℕ
  | .docker => maxDockerCalls
  | .slow => maxDockerSlow
  | .file => maxFileCalls
  | .console => maxConsoleCalls

/-- What the books say. -/
def held (s : State) (peer : Bytes) : Place → ℕ
  | .docker => ((s.dockerCalls.get? peer).getD (0, 0)).1
  | .slow => ((s.dockerCalls.get? peer).getD (0, 0)).2
  | .file => (s.fileHosted.get? (toHex peer)).getD 0
  | .console => (s.consoleHosted.get? (toHex peer)).getD 0

/-- A place that the operation takes is not free. -/
def Crowded (s : State) (peer : Bytes) (op : Op) : Prop :=
  ∃ place, takes op place = true ∧ limit place ≤ held s peer place

/-- The places of an operation are counted. -/
def counted (op : Op) (src : Bytes) (s : State) : State :=
  match op with
  | .docker _ slow =>
    let (held, heldSlow) := (s.dockerCalls.get? src).getD (0, 0)
    { s with dockerCalls := s.dockerCalls.set src (held + 1, heldSlow + slow.toNat) }
  | .file _ =>
    { s with fileHosted := s.fileHosted.set (toHex src) ((s.fileHosted.get? (toHex src)).getD 0 + 1) }
  | .console _ _ _ _ =>
    { s with consoleHosted := s.consoleHosted.set (toHex src) ((s.consoleHosted.get? (toHex src)).getD 0 + 1) }
  | _ => s

section Requests

variable (c : Config) (env : Env) (src : Bytes) (doc : Json) (s : State)

/-- A request is one for an operation that takes a place, and has the form it must have. -/
inductive Wanted (grants : Grants) : Signed → Op → Prop
  | docker {op : Text} (hop : (doc.get? (ascii "op")).bind Json.text? = some op) (hknown : op ∈ dockerOps) :
      Wanted grants .dockerRequest (.docker op (dockerSlow op doc))
  | file : Wanted grants .fileRequest (.file doc)
  | console {method : Text} {node : Option Text} (hconsole : env.console = true)
      (hmethod : c.world.upper ((textAt c.world doc "method" []).take 8) = method)
      (hknown : method = ascii "GET" ∨ method = ascii "POST")
      (hnode : nextHop c.world doc grants.full = .ok node) (hbody : badBody c.world doc = none) :
      Wanted grants .consoleRequest (.console method ((textAt c.world doc "path" []).take consolePathMax) grants node)

/-- **What comes of a request of an operation**: the peer is told why not; an operation that is permitted, and whose
places are free, starts if there is room for a job; or it is done at once (a status, a session). -/
inductive Requested (kind : Signed) : Out → Prop
  | told (answer : Answer) : Requested kind (spawn (.send src answer) s, [])
  | begun (op : Op) (rid : Text) (hkind : kindOf op = kind) (hpermits : Permits s.ledger src op) (hop : op ≠ .session)
      (hplaces : ∀ place, takes op place = true → Wanted c env doc (grantsOf src s) kind op ∧ ¬ Crowded s src op) :
      Requested kind (Agent.start src rid op (counted op src s))
  | status (rid : Text) (hkind : kindOf .status = kind) (hpermits : Permits s.ledger src .status) :
      Requested kind (reply src .statusReport rid s, [.started src .status])
  | session (rid token : Text) (kept : List Text) (hkind : kindOf .session = kind)
      (hpermits : Permits s.ledger src .session) :
      Requested kind (reply src .consoleSessionIssued rid
        { s with sessions := s.sessions.set (toHex src) kept }, [.started src .session])

end Requests

def asksFor : Signed → Bool
  | .enrolRequest => false
  | .enrolGrant => false
  | .enrolDeny => false
  | .enrolRevoke => false
  | .enrolNarrow => false
  | .preauthClaim => false
  | _ => true

section Requests

variable {c : Config} {env : Env} {src : Bytes} {doc : Json} {kind : Signed}

theorem requested_gate {cap : Cap} {rid : Text} {next : Out}
    (h : s.ledger.allows (toHex src) cap = true → Requested c env src doc s kind next) :
    Requested c env src doc s kind (gate src cap rid s next) := by
  unfold gate
  split_ifs with hallowed
  · exact h hallowed
  · exact .told _

theorem requested_begin {op : Op} {rid : Text} (hkind : kindOf op = kind) (hpermits : Permits s.ledger src op)
    (hop : op ≠ .session) (hplaces : ∀ place, takes op place = false) :
    Requested c env src doc s kind (Agent.start src rid op s) := by
  have hcounted : counted op src s = s := by
    cases op with
    | docker op slow => cases hplaces .docker
    | file doc => cases hplaces .file
    | console method path grants node => cases hplaces .console
    | _ => rfl
  have hbegun : Requested c env src doc s kind (Agent.start src rid op (counted op src s)) :=
    .begun op rid hkind hpermits hop fun place h => absurd h (by rw [hplaces]; decide)
  rwa [hcounted] at hbegun

theorem permits_one {l : FleetState} {op : Op} {cap : Cap} (hcap : l.allows (toHex src) cap = true)
    (hneeds : needs op = [cap]) (hreaches : Reaches op) : Permits l src op :=
  ⟨fun c hc => by
    rw [hneeds, List.mem_singleton] at hc
    rw [hc]
    exact hcap, hreaches⟩

theorem requested_update : Requested c env src doc s .updateRequest (onUpdateRequest env src doc s) := by
  refine requested_gate fun hupdate => ?_
  dsimp only
  have hdocker : ∀ names : List Text,
      (if names ≠ [] ∧ s.ledger.allows (toHex src) .docker = false then [] else names) ≠ [] →
        s.ledger.allows (toHex src) .docker = true := by
    intro names hne
    split_ifs at hne with h
    · exact absurd rfl hne
    · by_contra hno
      exact h ⟨hne, Bool.not_eq_true _ ▸ hno⟩
  replace hdocker := hdocker (cleanStackNames (doc.get? (ascii "stacks")))
  generalize (if cleanStackNames (doc.get? (ascii "stacks")) ≠ [] ∧ s.ledger.allows (toHex src) .docker = false then []
    else cleanStackNames (doc.get? (ascii "stacks"))) = chosen at hdocker ⊢
  have hpermits : Permits s.ledger src (.update chosen) := by
    refine ⟨fun cap hcap => ?_, trivial⟩
    rw [needs] at hcap
    split_ifs at hcap with hempty
    · rw [List.mem_singleton.mp hcap]
      exact hupdate
    · rcases List.mem_cons.mp hcap with rfl | hcap
      · exact hupdate
      · rw [List.mem_singleton.mp hcap]
        exact hdocker hempty
  by_cases hplan : env.plan = false ∧ chosen = []
  · rw [if_pos hplan]
    exact .told _
  · rw [if_neg hplan]
    exact requested_begin rfl hpermits (by simp) fun _ => rfl

theorem requested_docker : Requested c env src doc s .dockerRequest (onDockerRequest src doc s) := by
  refine requested_gate fun hdocker => ?_
  cases hop : (doc.get? (ascii "op")).bind Json.text? with
  | none => exact .told _
  | some op =>
    dsimp only
    split
    · exact .told _
    next hknown =>
    split
    · exact .told _
    next hfree =>
    refine .begun _ _ rfl (permits_one hdocker rfl trivial) (by simp) fun _ _ => ⟨.docker hop (not_not.mp hknown), ?_⟩
    rintro ⟨place, htakes, hle⟩
    cases place with
    | docker => exact hfree (Or.inl hle)
    | slow => exact hfree (Or.inr ⟨htakes, hle⟩)
    | _ => cases htakes

theorem requested_file : Requested c env src doc s .fileRequest (onFileRequest src doc s) := by
  refine requested_gate fun hshell => ?_
  dsimp only
  split
  · exact .told _
  next hfree =>
  refine .begun _ _ rfl (permits_one hshell rfl trivial) (by simp) fun _ _ => ⟨.file, ?_⟩
  rintro ⟨place, htakes, hle⟩
  cases place with
  | file => exact hfree hle
  | _ => cases htakes

theorem nextHop_ok {W : World} {full : Bool} {node : Option Text} (h : nextHop W doc full = .ok node) :
    node.isSome = true → full = true := by
  unfold nextHop at h
  split at h
  · cases h
    exact fun h => by cases h
  · cases h
    exact fun h => by cases h
  · split_ifs at h with hfull
    · intro _
      cases full
      · exact absurd rfl hfull
      · rfl

theorem permits_console {method path : Text} {node : Option Text} (hmanage : s.ledger.allows (toHex src) .manage = true)
    (hpath : consolePathRefusal path (grantsOf src s).apps (grantsOf src s).full = none)
    (hnode : node.isSome = true → (grantsOf src s).full = true) :
    Permits s.ledger src (.console method path (grantsOf src s) node) := by
  refine ⟨fun cap hcap => ?_, hpath⟩
  rw [needs, List.mem_cons, List.mem_append, List.mem_append] at hcap
  rcases hcap with rfl | (hcap | hcap) | hcap
  · exact hmanage
  · split_ifs at hcap with hgovern
    · rw [List.mem_singleton.mp hcap]
      exact hgovern
    · cases hcap
  · split_ifs at hcap with happs
    · rw [List.mem_singleton.mp hcap]
      exact happs
    · cases hcap
  · split_ifs at hcap with hfull
    · rw [List.mem_singleton.mp hcap]
      exact hfull.elim id hnode
    · cases hcap

theorem requested_console : Requested c env src doc s .consoleRequest (onConsoleRequest c env src doc s) := by
  refine requested_gate fun hmanage => ?_
  dsimp only
  split
  · exact .told _
  next hconsole =>
  split
  · exact .told _
  next hmethod =>
  split
  · exact .told _
  next hpath =>
  split
  · exact .told _
  next node hnode =>
  split
  · exact .told _
  next hbody =>
  split
  · exact .told _
  next hfree =>
  rw [← not_or, not_not] at hmethod
  refine .begun _ _ rfl (permits_console hmanage hpath (nextHop_ok hnode)) (by simp) fun _ _ =>
    ⟨.console ((Bool.not_eq_false _).mp hconsole) rfl hmethod hnode hbody, ?_⟩
  rintro ⟨place, htakes, hle⟩
  cases place with
  | console => exact hfree hle
  | _ => cases htakes

theorem requested_session : Requested c env src doc s .consoleSession (onConsoleSession env src doc s) := by
  refine requested_gate fun hpasswordless => requested_gate fun hmanage => ?_
  split_ifs
  · exact .told _
  · cases env.token with
    | error text => exact .told _
    | ok token =>
      refine .session (ridOf doc) token _ rfl ⟨fun cap hcap => ?_, trivial⟩
      rcases List.mem_cons.mp hcap with rfl | hcap
      · exact hpasswordless
      · rw [List.mem_singleton.mp hcap]
        exact hmanage

theorem request_spec (r : Request) (hkind : asksFor kind = true) :
    Requested c env src r.doc s kind (handle c env src r s kind) := by
  cases kind with
  | enrolRequest | enrolGrant | enrolDeny | enrolRevoke | enrolNarrow | preauthClaim => cases hkind
  | consoleRequest => exact requested_console
  | consoleSession => exact requested_session
  | fileRequest => exact requested_file
  | statusRequest => exact requested_gate fun hstatus => .status _ rfl (permits_one hstatus rfl trivial)
  | updateRequest => exact requested_update
  | dockerRequest => exact requested_docker
  | logsRequest | linksRequest | inviteRequest | shellOpen | scanRequest | provisionRequest =>
    refine requested_gate fun hcap => ?_
    repeat' split
    all_goals first
      | exact .told _
      | exact requested_begin rfl (permits_one hcap rfl trivial) (by simp) fun _ => rfl

theorem quiet_requested {out : Out} (h : Requested c env src doc s kind out) : Quiet s out.1 := by
  cases h with
  | told answer => exact quiet (still_spawn (fun _ _ => rfl) s)
  | begun op rid hkind hpermits hop hplaces =>
    unfold Agent.start
    split_ifs
    all_goals cases op <;> exact ⟨rfl, rfl, rfl, rfl, rfl⟩
  | status rid hkind hpermits | session rid token kept hkind hpermits => exact quiet (still_reply _ _ _ _)

theorem permits_of_requested {out : Out} (h : Requested c env src doc s kind out) :
    ∀ e ∈ out.2, ∃ op, e = .started src op ∧ kindOf op = kind ∧ Permits s.ledger src op := by
  intro e he
  cases h with
  | told answer => cases he
  | begun op rid hkind hpermits hop hplaces =>
    unfold Agent.start at he
    split_ifs at he
    · exact ⟨op, List.mem_singleton.mp he, hkind, hpermits⟩
    · cases he
  | status rid hkind hpermits | session rid token kept hkind hpermits =>
    exact ⟨_, List.mem_singleton.mp he, hkind, hpermits⟩

end Requests

/-! ### What a reply leaves alone -/

/-- The state without what replies bear on: the jobs, what the operator waits for, and the machines waited for where a
reply can name some. -/
def untouched (names : Bool) (s : State) : State :=
  { s with
    ledger := bif names then { s.ledger with provisioned := .empty } else s.ledger
    jobs := [], inflight := .empty, openShells := .empty, consoleCalls := .empty, sessionCalls := .empty
    fileCalls := .empty }

def Idle (effects : List Effect) : Prop := ∀ src op, Effect.started src op ∉ effects

/-- **What a reply comes to**: the rest is untouched, there is at most the question for a status to send, no request
more is in flight and no operation starts. -/
structure Told (names : Bool) (s : State) (out : Out) : Prop where
  same : untouched names out.1 = untouched names s
  jobs : out.1.jobs = s.jobs ∨ ∃ node, out.1.jobs = s.jobs ++ [.askStatus node]
  inflight : ∀ rid entry, out.1.inflight.get? rid = some entry → s.inflight.get? rid = some entry
  idle : Idle out.2

variable {names : Bool}

theorem Told.nonces {out : Out} (h : Told names s out) : out.1.nonces = s.nonces := by
  have hsame := congrArg State.nonces h.same
  exact hsame

theorem Told.ledger {out : Out} (h : Told names s out) :
    out.1.ledger.operators = s.ledger.operators ∧ out.1.ledger.managed = s.ledger.managed := by
  have hoperators := congrArg (fun s => s.ledger.operators) h.same
  have hmanaged := congrArg (fun s => s.ledger.managed) h.same
  cases names <;> exact ⟨hoperators, hmanaged⟩

theorem idle_nil : Idle [] := fun _ _ h => nomatch h

theorem idle_event (e : Event) : Idle [.event e] := fun _ _ h => nomatch List.mem_singleton.mp h

theorem idle_answered (rid : Text) : Idle [.answered rid] := fun _ _ h => nomatch List.mem_singleton.mp h

theorem idle_typed (sid : Bytes) : Idle [.typed sid] := fun _ _ h => nomatch List.mem_singleton.mp h

theorem idle_ite {p : Prop} [Decidable p] {l l' : List Effect} (h : Idle l) (h' : Idle l') :
    Idle (if p then l else l') := by
  split_ifs
  · exact h
  · exact h'

section Replies

variable (c : Config) (src : Bytes) (doc : Json) {effects : List Effect}

theorem told_idle (h : Idle effects) : Told names s (s, effects) := ⟨rfl, Or.inl rfl, fun _ _ hget => hget, h⟩

theorem told_none (s : State) : Told names s (s, []) := told_idle idle_nil

theorem told_pop {rid : Text} (h : Idle effects) :
    Told names s ({ s with inflight := s.inflight.pop rid }, effects) :=
  ⟨rfl, Or.inl rfl, fun _ _ hget => (Dict.get?_of_pop hget).2, h⟩

theorem told_claim {kind : Kind} {next : State → Out}
    (h : ∀ s, Told names s (next s)) : Told names s (claim src doc s kind next) := by
  unfold claim
  split_ifs
  · obtain ⟨hsame, hjobs, hinflight, hidle⟩ := h { s with inflight := s.inflight.pop (ridOf doc) }
    exact ⟨hsame, hjobs, fun rid entry hget => (Dict.get?_of_pop (hinflight rid entry hget)).2, hidle⟩
  · exact told_none s

theorem told_failConsole {s' : State} {rid : Text} (h : Told names s (s', [])) :
    Told names s (failConsole rid s') := ⟨h.same, h.jobs, h.inflight, idle_ite (idle_answered rid) idle_nil⟩

theorem told_failFile {s' : State} {rid : Text} (h : Told names s (s', [])) : Told names s (failFile rid s') :=
  ⟨h.same, h.jobs, h.inflight, idle_ite (idle_answered rid) idle_nil⟩

theorem told_statusReport : Told names s (onStatusReport src doc s) := by
  refine told_claim src doc fun s => ?_
  split
  · exact told_idle (idle_event _)
  · exact told_none s

theorem told_inviteIssued : Told names s (onInviteIssued src doc s) := by
  refine told_claim src doc fun s => ?_
  split
  · exact told_idle (idle_ite idle_nil (idle_event _))
  · exact told_none s

theorem told_logsReply : Told names s (onLogsReply c src doc s) := by
  have hevent : ∀ e, Idle (if isNumber c doc "lost" then [.event e] else []) :=
    fun e => idle_ite (idle_event e) idle_nil
  unfold onLogsReply
  split
  · split
    · exact told_none s
    · exact told_idle (hevent _)
  · exact told_claim src doc fun s => told_idle (hevent _)

theorem told_linksReply : Told names s (onLinksReply src doc s) := by
  unfold onLinksReply
  split
  · split
    · exact told_none s
    · exact told_idle (idle_event _)
  · exact told_claim src doc fun s => told_idle (idle_event _)

theorem told_updateOutput : Told names s (onUpdateOutput src doc s) := by
  unfold onUpdateOutput
  split
  · exact told_none s
  · exact told_idle (idle_event _)

theorem told_updateResult : Told names s (onUpdateResult c src doc s) := by
  refine told_claim src doc fun s => ?_
  unfold spawn
  split_ifs
  · exact ⟨rfl, Or.inr ⟨src, rfl⟩, fun _ _ hget => hget, idle_event _⟩
  · exact told_idle (idle_event _)
  · exact told_idle (idle_event _)

theorem told_shellOpened : Told names s (onShellOpened src doc s) := by
  refine told_claim src doc fun s => ?_
  split
  · exact told_none s
  · split
    · exact told_none s
    · split
      · exact told_none s
      · exact ⟨rfl, Or.inl rfl, fun _ _ hget => hget, idle_event _⟩

theorem told_provisionProgress : Told true s (onProvisionProgress c src doc s) := by
  unfold onProvisionProgress
  split
  · exact told_none s
  · dsimp only
    cases digestIn doc with
    | none => exact told_idle (idle_event _)
    | some digest => exact ⟨rfl, Or.inl rfl, fun _ _ hget => hget, idle_event _⟩

theorem expect_eq (l : FleetState) (result : Json) :
    App.expect c l result = { l with provisioned := (App.expect c l result).provisioned } := by
  unfold App.expect
  cases digestIn result with
  | none => rfl
  | some digest =>
    dsimp only
    split_ifs <;> rfl

theorem expects_eq (results : List Json) : ∀ l : FleetState,
    results.foldl (App.expect c) l = { l with provisioned := (results.foldl (App.expect c) l).provisioned } := by
  induction results with
  | nil => exact fun _ => rfl
  | cons result results ih =>
    intro l
    rw [List.foldl_cons, ih, expect_eq]

theorem told_provisionResult : Told true s (onProvisionResult c src doc s) := by
  refine told_claim src doc fun s => ⟨?_, Or.inl rfl, fun _ _ hget => hget, idle_event _⟩
  dsimp only
  rw [expects_eq]
  rfl

theorem told_consoleReply : Told names s (onConsoleReply c src doc s) := by
  unfold onConsoleReply
  cases s.consoleCalls.get? (ridOf doc) with
  | none => exact told_none s
  | some size =>
    have hadded : ∀ calls, Told names s ({ s with consoleCalls := calls }, []) :=
      fun _ => ⟨rfl, Or.inl rfl, fun _ _ hget => hget, idle_nil⟩
    dsimp only
    split
    · exact told_none s
    · split
      · exact told_failConsole (told_none s)
      · split
        · exact told_failConsole (hadded _)
        · split
          · exact hadded _
          · exact ⟨rfl, Or.inl rfl, fun _ _ hget => (Dict.get?_of_pop hget).2, idle_answered _⟩

theorem told_fileReply : Told names s (onFileReply src doc s) := by
  unfold onFileReply
  split
  · exact told_none s
  · exact ⟨rfl, Or.inl rfl, fun _ _ hget => hget, idle_answered _⟩

theorem told_error : Told names s (onError c src doc s) := by
  unfold onError
  dsimp only
  cases s.inflight.get? (ridOf doc) with
  | none => exact told_pop idle_nil
  | some entry =>
    dsimp only
    split
    · exact told_pop idle_nil
    · split
      · exact told_failConsole (told_pop idle_nil)
      · split
        · exact told_failFile (told_pop idle_nil)
        · exact told_pop (idle_event _)

/-- Can a reply name machines to wait for? -/
def naming : Reply → Bool
  | .provisionProgress => true
  | .provisionResult => true
  | _ => false

theorem told_answer (kind : Reply) : Told (naming kind) s (answer c src doc s kind) := by
  cases kind with
  | statusReport => exact told_statusReport src doc
  | inviteIssued => exact told_inviteIssued src doc
  | logsReply => exact told_logsReply c src doc
  | linksReply => exact told_linksReply src doc
  | updateOutput => exact told_updateOutput src doc
  | updateResult => exact told_updateResult c src doc
  | dockerReply | scanResult => exact told_claim src doc fun s => told_idle (idle_event _)
  | shellOpened => exact told_shellOpened src doc
  | provisionProgress => exact told_provisionProgress c src doc
  | provisionResult => exact told_provisionResult c src doc
  | consoleReply => exact told_consoleReply c src doc
  | consoleSessionIssued =>
    show Told _ s (onConsoleSessionIssued src doc s)
    refine told_claim src doc fun s => ⟨rfl, Or.inl rfl, fun _ _ hget => hget, ?_⟩
    exact idle_ite (idle_answered _) idle_nil
  | fileReply | fileData => exact told_fileReply src doc
  | error => exact told_error c src doc

end Replies

/-! ### Frames -/

theorem code_of_signedOf {code : UInt8} {kind : Signed} (h : signedOf code = some kind) : kind.code = code := by
  have hfound := List.find?_some h
  exact of_decide_eq_true hfound

theorem code_of_replyOf {code : UInt8} {kind : Reply} (h : replyOf code = some kind) : kind.code = code := by
  have hfound := List.find?_some h
  exact of_decide_eq_true hfound

theorem signedOf_code (kind : Signed) : signedOf kind.code = some kind := by cases kind <;> decide

theorem replyOf_code (kind : Reply) : replyOf kind.code = some kind := by cases kind <;> decide

def streamCodes : List UInt8 := [shellInput, shellOutput, shellResize, shellClose]

theorem signed_notStream (kind : Signed) : kind.code ∉ streamCodes := by cases kind <;> decide

theorem reply_notStream (kind : Reply) : kind.code ∉ streamCodes := by cases kind <;> decide

theorem reply_notSigned (kind : Reply) : signedOf kind.code = none := by cases kind <;> decide

/-- **What becomes of a frame**: nothing; a shell's stream; a signed frame that does not open, or does; a reply. -/
inductive Handled (c : Config) (env : Env) (src : Bytes) (s : State) : Bytes → Out → Prop
  | nothing (payload : Bytes) : Handled c env src s payload (s, [])
  | stream (code : UInt8) (body : Bytes) (hcode : code ∈ streamCodes) :
      Handled c env src s (code :: body) (shellStream env src code body s)
  | shut (kind : Signed) (body : Bytes) (hallowed : env.allowed = true)
      (hopen : (openSigned c.world src kind body s.nonces env.stamp).1 = none) :
      Handled c env src s (kind.code :: body)
        ({ s with nonces := (openSigned c.world src kind body s.nonces env.stamp).2 }, [])
  | opened (kind : Signed) (body : Bytes) (r : Request) (hallowed : env.allowed = true)
      (hopen : (openSigned c.world src kind body s.nonces env.stamp).1 = some r) :
      Handled c env src s (kind.code :: body)
        (handle c env src r { s with nonces := (openSigned c.world src kind body s.nonces env.stamp).2 } kind)
  | replied (kind : Reply) (body : Bytes) (doc : Json) (hdoc : loadJson c.world body = some doc) :
      Handled c env src s (kind.code :: body) (answer c src doc s kind)

theorem dispatch_spec (c : Config) (env : Env) (src payload : Bytes) (s : State) :
    Handled c env src s payload (dispatch c env src payload s) := by
  cases payload with
  | nil => exact .nothing []
  | cons code body =>
    unfold dispatch
    dsimp only
    by_cases hstream : code ∈ [shellInput, shellOutput, shellResize, shellClose]
    · rw [if_pos hstream]
      exact .stream code body hstream
    rw [if_neg hstream]
    cases hsigned : signedOf code with
    | some kind =>
      obtain rfl := code_of_signedOf hsigned
      dsimp only
      by_cases hallowed : env.allowed = false
      · rw [if_pos hallowed]
        exact .nothing _
      rw [if_neg hallowed]
      have hallowed := (Bool.not_eq_false _).mp hallowed
      cases hopen : (openSigned c.world src kind body s.nonces env.stamp).1 with
      | none => exact .shut kind body hallowed hopen
      | some r => exact .opened kind body r hallowed hopen
    | none =>
      dsimp only
      cases hreply : replyOf code with
      | none => exact .nothing _
      | some kind =>
        obtain rfl := code_of_replyOf hreply
        cases hdoc : loadJson c.world body with
        | none => exact .nothing _
        | some doc => exact .replied kind body doc hdoc

theorem idle_stream (env : Env) (src : Bytes) (code : UInt8) (body : Bytes) (s : State) :
    Idle (shellStream env src code body s).2 := by
  unfold shellStream
  dsimp only
  repeat' split
  all_goals first
    | exact idle_nil
    | exact idle_event _
    | exact idle_typed _

end NMesh.Fleet.Steps
