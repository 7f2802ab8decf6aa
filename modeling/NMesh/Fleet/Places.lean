import NMesh.Fleet.Replies

/-! # The places of a peer

A peer may have so many docker operations running here, so many slow ones, so many on files and so many console calls.
A place is counted before the job is handed to `spawn`, which drops it where 64 run already, and it is given back by
the job.

* `Kept`: for every peer and kind the count is the number of its operations that run, and within the limit;
* `Roomy`: the condition; a request that is let in finds fewer than 64 jobs;
* `places_kept`: in every state of a run of such steps; a peer with nothing running is then let in. -/

namespace NMesh.Fleet.Places

open Base.BigEndian Base.Utf8 Base.Hex Base.Ordered Base.JsonText Base.Runs
open NMesh.AppAuth.Format NMesh.AppAuth.Verify
open NMesh.Fleet.Ledger NMesh.Fleet.Messages NMesh.Fleet.Agent NMesh.Fleet.App NMesh.Fleet.Steps NMesh.Fleet.Gates
open NMesh.Fleet.Replies (asking nodeA)

/-- **The counts are those of the operations that run**, and within the limits. -/
def Kept (s : State) : Prop :=
  ∀ peer place, held s peer place = running s place peer ∧ held s peer place ≤ limit place

/-- **A peer with nothing running is let in**, with whatever it asks for and may. -/
def LetsIn (c : Config) (s : State) : Prop :=
  ∀ env src r kind op, (∀ place, running s place src = 0) → Wanted c env r.doc (grantsOf src s) kind op →
    Permits s.ledger src op → handle c env src r s kind = Agent.start src (ridOf r.doc) op (counted op src s)

/-- **The condition**: a request that is let in, with its places free, finds room for a job. -/
def Roomy (c : Config) (s : State) : Action → Prop
  | .frame env src payload => ∀ kind body r op, payload = Signed.code kind :: body → env.allowed = true →
      (openSigned c.world src kind body s.nonces env.stamp).1 = some r → Wanted c env r.doc (grantsOf src s) kind op →
      Permits s.ledger src op → ¬ Crowded s src op → s.jobs.length < maxInflight
  | _ => True

/-! ### What is counted -/

section Books

variable {s s' : State} {peer owner : Bytes} {op : Op}

theorem kept_congr (hheld : held s' = held s) (hrunning : running s' = running s) (hkept : Kept s) : Kept s' := by
  unfold Kept
  rw [hheld, hrunning]
  exact hkept

theorem kept_of_desk (h : desk s' = desk s) (hkept : Kept s) : Kept s' := by
  simp only [desk, Prod.mk.injEq] at h
  obtain ⟨-, hconsole, hfile, hdocker, hrunning⟩ := h
  refine kept_congr ?_ hrunning hkept
  funext peer place
  unfold held
  rw [hconsole, hfile, hdocker]

theorem kept_of_told {names : Bool} {out : Out} (h : Told names s out) (hkept : Kept s) : Kept out.1 := by
  have hsame := congrArg held h.same
  refine kept_congr (show held out.1 = held s from hsame) ?_ hkept
  funext place peer
  unfold running
  rcases h.jobs with heq | ⟨node, heq⟩
  · rw [heq]
  · rw [heq, List.countP_append]
    rfl

theorem held_counted (place : Place) :
    held (counted op owner s) peer place =
      held s peer place + (takes op place && decide (owner = peer)).toNat := by
  by_cases howner : owner = peer
  · subst howner
    cases op <;> cases place <;> simp [held, counted, takes]
  · have hhex : ¬ toHex owner = toHex peer := fun h => howner (toHex_inj h)
    cases op <;> cases place <;> simp [held, counted, takes, howner, hhex, Dict.get?_set]

theorem kept_counted {rid : Text} (hfree : ∀ place, takes op place = true → ¬ Crowded s owner op)
    (hroom : ∀ place, takes op place = true → s.jobs.length < maxInflight) (hkept : Kept s) :
    Kept (Agent.start owner rid op (counted op owner s)).1 := by
  have hjobs : (counted op owner s).jobs = s.jobs := by cases op <;> rfl
  have hbooks : held (Agent.start owner rid op (counted op owner s)).1 = held (counted op owner s) := by
    unfold Agent.start
    split_ifs <;> rfl
  intro peer place
  obtain ⟨hsame, hle⟩ := hkept peer place
  rw [hbooks, held_counted]
  constructor
  · rw [hsame]
    unfold running Agent.start
    rw [hjobs]
    split_ifs with hlen
    · rw [List.countP_append, List.countP_singleton]
      unfold fills
      split_ifs with h <;> simp [h]
    · cases htakes : takes op place
      · rw [hjobs]
        rfl
      · exact absurd (hroom place htakes) hlen
  · cases h : takes op place && decide (owner = peer)
    · exact hle
    · obtain ⟨htakes, howner⟩ := Bool.and_eq_true_iff.mp h
      obtain rfl := of_decide_eq_true howner
      exact Nat.lt_of_not_le fun hfull => hfree place htakes ⟨place, htakes, hfull⟩

theorem running_slow_le (s : State) (peer : Bytes) : running s .slow peer ≤ running s .docker peer := by
  refine List.countP_mono_left fun job _ h => ?_
  cases job with
  | work owner rid op =>
    obtain ⟨htakes, howner⟩ := Bool.and_eq_true_iff.mp h
    refine Bool.and_eq_true_iff.mpr ⟨?_, howner⟩
    cases op <;> first | rfl | cases htakes
  | _ => cases h

theorem getD_less {d : Dict Text ℕ} {k : Text} {n : ℕ} (h : (d.get? k).getD 0 = n + 1) :
    ((if 0 < (d.get? k).getD 1 - 1 then d.set k ((d.get? k).getD 1 - 1) else d.pop k).get? k).getD 0 = n := by
  cases hget : d.get? k with
  | none =>
    rw [hget] at h
    cases h
  | some a =>
    rw [hget] at h
    obtain rfl : a = n + 1 := h
    split_ifs with hpos
    · rw [Dict.get?_set_self]
      rfl
    · rw [Dict.get?_pop_self]
      exact (Nat.eq_zero_of_not_pos hpos).symm

theorem get?_less {κ ν : Type} [DecidableEq κ] (d : Dict κ ν) {k k' : κ} (h : k' ≠ k) (p : Prop) [Decidable p] (v : ν) :
    (if p then d.set k v else d.pop k).get? k' = d.get? k' := by
  split_ifs
  · exact Dict.get?_set_of_ne d h.symm v
  · exact Dict.get?_pop_of_ne d h

theorem held_over_other (h : peer ≠ owner) (place : Place) : held (vacated op owner s) peer place = held s peer place := by
  have hhex : toHex peer ≠ toHex owner := fun heq => h (toHex_inj heq)
  cases op <;> cases place <;> simp [held, vacated, giveBack, get?_less _ h, get?_less _ hhex]

theorem held_over {n : Place → ℕ} (hheld : ∀ place, held s owner place = n place + (takes op place).toNat)
    (hslow : n .slow ≤ n .docker) (place : Place) : held (vacated op owner s) owner place = n place := by
  cases op with
  | docker name slow =>
    have hdocker : ((s.dockerCalls.get? owner).getD (0, 0)).1 = n .docker + 1 := hheld .docker
    have hslows : ((s.dockerCalls.get? owner).getD (0, 0)).2 = n .slow + slow.toNat := hheld .slow
    cases hget : s.dockerCalls.get? owner with
    | none =>
      rw [hget] at hdocker
      cases hdocker
    | some counts =>
      obtain ⟨a, b⟩ := counts
      rw [hget, Option.getD_some] at hdocker hslows
      have hover : (vacated (.docker name slow) owner s).dockerCalls.get? owner =
          if 1 < a then some (a - 1, b - slow.toNat) else none := by
        unfold vacated giveBack
        rw [hget]
        dsimp only [Option.getD_some]
        split_ifs
        · exact Dict.get?_set_self _ _ _
        · exact Dict.get?_pop_self _ _
      cases place with
      | file => exact hheld .file
      | console => exact hheld .console
      | docker | slow =>
        unfold held
        rw [hover]
        split_ifs <;> simp only [Option.getD_some, Option.getD_none] <;> omega
  | file doc =>
    cases place with
    | file => exact getD_less (hheld .file)
    | docker => exact hheld .docker
    | slow => exact hheld .slow
    | console => exact hheld .console
  | console method path grants node =>
    cases place with
    | console => exact getD_less (hheld .console)
    | docker => exact hheld .docker
    | slow => exact hheld .slow
    | file => exact hheld .file
  | _ => exact hheld place

theorem kept_over {i : ℕ} {rid : Text} (h : s.jobs[i]? = some (.work owner rid op)) (hkept : Kept s) :
    Kept (vacated op owner { s with jobs := s.jobs.eraseIdx i }) := by
  intro peer place
  have hrunning : running (vacated op owner { s with jobs := s.jobs.eraseIdx i }) =
      running { s with jobs := s.jobs.eraseIdx i } := by
    cases op <;> rfl
  have hheld : ∀ place, held s peer place =
      running { s with jobs := s.jobs.eraseIdx i } place peer + (takes op place && decide (owner = peer)).toNat :=
    fun place => (hkept peer place).1.trans (running_erase h place peer)
  have hover : held (vacated op owner { s with jobs := s.jobs.eraseIdx i }) peer place =
      running { s with jobs := s.jobs.eraseIdx i } place peer := by
    by_cases howner : peer = owner
    · subst howner
      simp only [decide_true, Bool.and_true] at hheld
      exact @held_over { s with jobs := s.jobs.eraseIdx i } peer op _ hheld (running_slow_le _ _) place
    · rw [held_over_other howner]
      have hsame := hheld place
      rw [decide_eq_false (Ne.symm howner), Bool.and_false] at hsame
      exact hsame
  rw [hrunning, hover]
  exact ⟨rfl, (Nat.le_add_right _ _).trans ((hheld place).ge.trans (hkept peer place).2)⟩

end Books

/-! ### Runs -/

section Runs

variable {c : Config} {s : State}

theorem kept_requested {env : Env} {src : Bytes} {doc : Json} {kind : Signed} {out : Out}
    (h : Requested c env src doc s kind out) (hroom : ∀ op, Wanted c env doc (grantsOf src s) kind op →
      Permits s.ledger src op → ¬ Crowded s src op → s.jobs.length < maxInflight) (hkept : Kept s) : Kept out.1 := by
  cases h with
  | told answer => exact kept_of_desk (desk_of_still (still_spawn (fun _ _ => rfl) s)) hkept
  | begun op rid hkind hpermits hop hplaces =>
    refine kept_counted (fun place h => (hplaces place h).2) (fun place h => ?_) hkept
    exact hroom op (hplaces place h).1 hpermits (hplaces place h).2
  | status rid hkind hpermits | session rid token kept hkind hpermits =>
    exact kept_of_desk (desk_of_still (still_reply _ _ _ _)) hkept

theorem kept_step {a : Action} (hkept : Kept s) (hroomy : Roomy c s a) : Kept (step c s a) := by
  cases a with
  | frame env src payload =>
    have hhandled := dispatch_spec c env src payload s
    show Kept (dispatch c env src payload s).1
    generalize dispatch c env src payload s = out at hhandled
    cases hhandled with
    | nothing payload | shut kind body hallowed hopen => exact hkept
    | stream code body hcode => exact kept_of_desk (desk_of_still (still_stream _ _ _ _ _)) hkept
    | opened kind body r hallowed hopen =>
      cases hasks : asksFor kind with
      | false => exact kept_of_desk (desk_of_aside (aside_handle c env r hasks)) hkept
      | true => exact kept_requested (request_spec r hasks) (fun op => hroomy kind body r op rfl hallowed hopen) hkept
    | replied kind body doc hdoc => exact kept_of_told (told_answer c src doc kind) hkept
  | call now call => exact kept_of_desk (desk_call now call) hkept
  | job i o =>
    rcases still_runJob c.world i o s with h | ⟨owner, rid, op, hjob, h⟩ | ⟨target, hjob, heq⟩
    · exact kept_of_desk (desk_of_still h) hkept
    · exact kept_of_desk (desk_of_still h) (kept_over hjob hkept)
    · show Kept (runJob c.world i o s)
      rw [heq]
      have hdesk := desk_of_still (still_erase hjob fun _ _ => rfl)
      exact kept_of_desk hdesk hkept
  | _ => exact kept_of_desk (desk_of_still (still_alone c rfl)) hkept

/-- **With its places free a request is let in.** -/
theorem let_in {env : Env} {src : Bytes} {r : Request} {kind : Signed} {op : Op}
    (hwanted : Wanted c env r.doc (grantsOf src s) kind op) (hpermits : Permits s.ledger src op)
    (hfree : ¬ Crowded s src op) :
    handle c env src r s kind = Agent.start src (ridOf r.doc) op (counted op src s) := by
  cases hwanted with
  | docker hop hknown =>
    show onDockerRequest src r.doc s = _
    unfold onDockerRequest gate
    rw [if_pos (hpermits.needs _ List.mem_cons_self), hop]
    dsimp only
    rw [if_neg (not_not.mpr hknown), if_neg]
    · rfl
    · exact fun h => hfree (h.elim (fun h => ⟨.docker, rfl, h⟩) fun h => ⟨.slow, h⟩)
  | file =>
    show onFileRequest src r.doc s = _
    unfold onFileRequest gate
    rw [if_pos (hpermits.needs _ List.mem_cons_self)]
    exact if_neg fun h => hfree ⟨.file, rfl, h⟩
  | console hconsole hmethod hknown hnode hbody =>
    show onConsoleRequest c env src r.doc s = _
    have hpath : consolePathRefusal _ _ _ = none := hpermits.reaches
    unfold onConsoleRequest gate
    dsimp only
    rw [if_pos (hpermits.needs _ List.mem_cons_self), if_neg ((Bool.not_eq_false _).mpr hconsole), hmethod,
      if_neg (by rwa [← not_or, not_not]), hpath, hnode]
    dsimp only
    rw [hbody]
    exact if_neg fun h => hfree ⟨.console, rfl, h⟩

theorem kept_start (ledger : FleetState) (maxNonces : ℕ) : Kept (start ledger maxNonces) := by
  intro peer place
  cases place <;> exact ⟨rfl, Nat.zero_le _⟩

/-- **In every state of a run of such steps the counts are right**, and a peer with nothing running is let in. -/
theorem places_kept (c : Config) (ledger : FleetState) (maxNonces : ℕ) {acts : List Action}
    (h : Guarded (step c) (Roomy c) (start ledger maxNonces) acts) :
    Kept (run (step c) (start ledger maxNonces) acts) ∧ LetsIn c (run (step c) (start ledger maxNonces) acts) := by
  have hkept := h.run_induct (P := Kept) (fun _ _ => kept_step) (kept_start ledger maxNonces)
  refine ⟨hkept, fun env src r kind op hnone hwanted hpermits => let_in hwanted hpermits ?_⟩
  rintro ⟨place, -, hle⟩
  rw [(hkept src place).1, hnone] at hle
  cases place <;> exact absurd hle (by decide)

end Runs

def trusted : FleetState :=
  { Replies.nobody with operators := Dict.empty.set (toHex nodeA) ⟨nodeA, [.update, .shell], [], []⟩ }

/-- A request of the node without arguments, with a nonce of its own. -/
def sent (kind : Signed) (nonce : UInt8) : Action :=
  let proof : Assertion := { anyones with
    purpose := kind.purpose.map UInt8.ofNat
    nonce := List.replicate 16 nonce
    ctx := ((ctxInput [fleetTag, [kind.code], [0x7B, 0x7D]]).reverse ++ List.replicate 32 0).take 32 }
  .frame { plainly 1000 with plan := true } nodeA
    (kind.code :: (toBE 2 proof.serialize.length ++ (proof.serialize ++ [0x7B, 0x7D])))

theorem places_kept_sent : Kept (run (step asking) (start trusted 16) [sent .fileRequest 5]) ∧
    LetsIn asking (run (step asking) (start trusted 16) [sent .fileRequest 5]) :=
  places_kept asking trusted 16 ⟨fun _ _ _ _ _ _ _ _ _ _ => show 0 < 64 by decide, trivial⟩

/-- **A place is lost**: an update that says much fills the jobs, and a file operation is counted that never runs. -/
theorem place_lost : ¬ Kept (run (step asking) (start trusted 16)
    (sent .updateRequest 5 :: List.replicate 63 (.say 0 .updateOutput) ++ [sent .fileRequest 6])) :=
  fun h => absurd (h nodeA .file).1 (by decide +kernel)

end NMesh.Fleet.Places
