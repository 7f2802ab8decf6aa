import NMesh.E2e.Handover
import NMesh.E2e.Healing

/-! # Every calm run hands the backlog over whole

`owed_handed_over` is about every run of `NMesh.E2e.Backlog` from tables that owe nobody anything, `sealing`
about what any stretch hands on. `dials_forgotten` is what happens otherwise, and `stale` is
a run in which the retry loop dials a target that the application has pushed out since the pass began. -/

namespace NMesh.E2e.Whole

open Base.BigEndian Base.Ordered Base.Runs NMesh.Cert.Identity
open NMesh.E2e.Session NMesh.E2e.Backlog NMesh.E2e.Handover NMesh.E2e.Healing NMesh.E2e.Pair

variable {K : Crypto} {b b' b'' : Book K} {me : Keys K} {env : Env K} {x src target : NodeID}

/-! ### Where a run starts -/

/-- Tables of a node at rest: each handshake in flight has a queue, and no session yet. -/
structure Rested (t : Tables) : Prop where
  dialled : ∀ x ∈ t.e2ePendingNonce.keys, x ∈ t.e2ePendingData.keys ∧ x ∉ t.e2eSessions.keys
  filled : ∀ x q, t.e2ePendingData.get? x = some q → q ≠ []

def fresh : Tables := ⟨.empty, .empty, .empty, .empty, .empty, .empty, .empty⟩

theorem rested_fresh : Rested fresh :=
  ⟨fun _ hx => absurd hx List.not_mem_nil, fun _ _ hq => by cases hq⟩

theorem queuedFor_entries (x : NodeID) : ∀ {l : List (NodeID × List Bytes)}, (l.map Prod.fst).Nodup →
    (l.flatMap fun e => e.2.map (Note.queued (K := K) e.1)).filterMap (Note.queuedFor x) =
      (getL x l).getD []
  | [], _ => rfl
  | e :: l, h => by
    rw [List.map_cons, List.nodup_cons] at h
    have hself : (e.2.map (Note.queued (K := K) e.1)).filterMap (Note.queuedFor x) =
        if e.1 = x then e.2 else [] := by
      rw [List.filterMap_map]
      split_ifs with hx
      · calc e.2.filterMap (Note.queuedFor x ∘ Note.queued (K := K) e.1)
            = e.2.filterMap some := List.filterMap_congr fun _ _ => if_pos hx
          _ = e.2 := List.filterMap_some
      · exact List.filterMap_eq_nil_iff.mpr fun _ _ => if_neg hx
    have hget : getL x (e :: l) = if e.1 = x then some e.2 else getL x l := rfl
    rw [List.flatMap_cons, List.filterMap_append, hself, queuedFor_entries x h.2, hget]
    split_ifs with hx
    · rw [getL_eq_none.mpr (hx ▸ h.1)]
      exact List.append_nil _
    · rfl

theorem settledFor_entries (x : NodeID) (l : List (NodeID × List Bytes)) :
    (l.flatMap fun e => e.2.map (Note.queued (K := K) e.1)).filterMap (Note.settledFor x) = [] := by
  refine List.filterMap_eq_nil_iff.mpr fun note hnote => ?_
  obtain ⟨e, -, hnote⟩ := List.mem_flatMap.mp hnote
  obtain ⟨payload, -, rfl⟩ := List.mem_map.mp hnote
  rfl

theorem steady_start {t : Tables} (h : Rested t) : Steady (Node.start t : Node K) := by
  refine ⟨⟨fun x => ?_, fun x hx => absurd rfl hx, h.dialled, fun x hx => ?_⟩, List.Pairwise.nil,
    fun _ _ => List.not_mem_nil⟩
  · have hqueued : (Node.start t : Node K).book.queuedFor x = (Node.start t : Node K).book.queue x :=
      queuedFor_entries x t.e2ePendingData.nodup
    have hsettled : (Node.start t : Node K).book.settledFor x = [] := settledFor_entries x _
    rw [hqueued, hsettled]
    rfl
  · obtain ⟨q, hq⟩ := Dict.mem_keys.mp hx
    have hqueue : (Node.start t : Node K).book.queue x = q := by
      unfold Book.queue
      exact congrArg (·.getD []) hq
    rw [hqueue]
    exact h.filled x q hq

/-! ### What is handed on -/

def Quiet (b b' : Book K) : Prop :=
  ∃ notes, b'.log = b.log ++ notes ∧ ∀ x payload packet, Note.flushed x payload packet ∉ notes

namespace Quiet

theorem refl (b : Book K) : Quiet b b := ⟨[], (List.append_nil _).symm, fun _ _ _ => List.not_mem_nil⟩

theorem trans (h : Quiet b b') (h' : Quiet b' b'') : Quiet b b'' := by
  obtain ⟨notes, hlog, hno⟩ := h
  obtain ⟨notes', hlog', hno'⟩ := h'
  refine ⟨notes ++ notes', by rw [hlog', hlog, List.append_assoc], fun x payload packet hm => ?_⟩
  exact (List.mem_append.mp hm).elim (hno x payload packet) (hno' x payload packet)

theorem write (t : Tables) : Quiet b (b.write t) := refl b

theorem forget (target : NodeID) : Quiet b (b.forgetE2e target) := by
  refine ⟨_, rfl, fun x payload packet hm => ?_⟩
  obtain ⟨p, -, hp⟩ := List.mem_map.mp hm
  cases hp

theorem foldl_forget : ∀ (xs : List NodeID) (b : Book K), Quiet b (xs.foldl Book.forgetE2e b)
  | [], b => refl b
  | y :: ys, b => (forget y).trans (foldl_forget ys (b.forgetE2e y))

theorem keep (src : NodeID) (session : Bytes) : Quiet b (b.keepE2eSession src session) := by
  obtain ⟨notes, hlog, hno⟩ := foldl_forget (forgottenFor b.tables src) b
  exact ⟨notes, hlog, hno⟩

theorem enqueue (target : NodeID) (payload : Bytes) : Quiet b (b.enqueue target payload) := by
  have hroom : Quiet b (b.roomFor target) := by
    unfold Book.roomFor
    split_ifs
    · cases b.tables.e2ePendingData.keys.head? with
      | none => exact refl b
      | some oldest => exact forget oldest
    · exact refl b
  obtain ⟨dropped, -, -, -, hlog, -⟩ := push_spec (b.roomFor target) target payload
  refine hroom.trans ⟨_, hlog, fun x p packet hm => ?_⟩
  rcases List.mem_append.mp hm with hm | hm
  · cases List.mem_singleton.mp hm
  · obtain ⟨p, -, hp⟩ := List.mem_map.mp hm
    cases hp

theorem sendData (target : NodeID) (payload : Bytes) : Quiet b (b.sendData me env target payload) := by
  unfold Book.sendData
  split_ifs
  · exact refl b
  · exact refl b
  · dsimp only
    split_ifs
    · exact (enqueue target payload).trans (write _)
    · exact enqueue target payload

theorem answerHello (payload : Option (Hello K)) : Quiet b (b.answerHello me env src payload).1 := by
  unfold Book.answerHello
  cases payload with
  | none => exact refl b
  | some hello =>
    dsimp only
    split_ifs
    · exact refl b
    · exact refl b
    · cases env.chainOf me.id with
      | none => exact refl b
      | some chain =>
        cases env.kemEncapsulate hello.kemPub with
        | none | some pair => exact refl b
    · cases env.chainOf me.id with
      | none => exact refl b
      | some chain =>
        cases env.kemEncapsulate hello.kemPub with
        | none => exact refl b
        | some pair => exact (write _).trans (keep src pair.2)

theorem takeAnswer (payload : Option (Answer K)) : Quiet b (b.takeAnswer me env src payload).1 := by
  unfold Book.takeAnswer
  cases payload with
  | none => exact refl b
  | some answer =>
    dsimp only
    rcases b.tables.e2eAttemptSecret src answer.nonce env.monotonic with ⟨secret, tables⟩
    cases secret with
    | none => exact refl b
    | some secret =>
      dsimp only
      split_ifs
      · exact refl b
      · cases me.kemDecapsulate answer.ciphertext secret with
        | none => exact refl b
        | some shared => exact (write _).trans (keep src shared)

theorem walkOn : ∀ (targets : List NodeID) (b : Book K), Quiet b (b.walkOn me env targets).1
  | [], b => refl b
  | y :: ys, b => by
    unfold Book.walkOn
    split_ifs
    · exact write _
    · exact walkOn ys b

end Quiet

/-- The ledger grows, and what it hands on is encrypted under the live session of its target. -/
def Sealed (me : Keys K) (b b' : Book K) : Prop :=
  ∃ notes, b'.log = b.log ++ notes ∧ ∀ x payload packet, Note.flushed x payload packet ∈ notes →
    ∃ session, b'.tables.e2eSessions.get? x = some session ∧
      packet = createEncrypted me.id x payload session

theorem Quiet.sealed (h : Quiet b b') : Sealed me b b' := by
  obtain ⟨notes, hlog, hno⟩ := h
  exact ⟨notes, hlog, fun x payload packet hm => absurd hm (hno x payload packet)⟩

theorem Quiet.then (h : Quiet b b') (h' : Sealed me b' b'') : Sealed me b b'' := by
  obtain ⟨notes, hlog, hno⟩ := h
  obtain ⟨notes', hlog', hseal⟩ := h'
  refine ⟨notes ++ notes', by rw [hlog', hlog, List.append_assoc], fun x payload packet hm => ?_⟩
  rcases List.mem_append.mp hm with hm | hm
  · exact absurd hm (hno x payload packet)
  · exact hseal x payload packet hm

theorem sealed_pour (l : List Bytes) : Sealed me b (b.pour me src l).1 := by
  cases l with
  | nil => exact (Quiet.refl b).sealed
  | cons payload rest =>
    by_cases hlive : src ∈ b.tables.e2eSessions.keys
    · obtain ⟨session, hsession⟩ := Dict.mem_keys.mp hlive
      rw [pour_of_live hsession]
      refine ⟨_, rfl, fun x p packet hm => ?_⟩
      obtain ⟨rfl, rfl, rfl⟩ := Note.flushed.inj (List.mem_singleton.mp hm)
      exact ⟨session, hsession, rfl⟩
    · rw [pour_of_dead hlive]
      exact (Quiet.refl b).sealed

theorem sealed_drain : Sealed me b (b.drain me src).1 :=
  Quiet.then (Quiet.write _) (sealed_pour _)

theorem sealed_step (me : Keys K) (n : Node K) (a : Env K × Act K) : Sealed me n.book (n.step me a).book := by
  obtain ⟨env, act⟩ := a
  cases act with
  | sendData target payload => exact (Quiet.sendData target payload).sealed
  | handshake src payload => exact (Quiet.answerHello payload).sealed
  | handshakeAck src payload =>
    unfold Node.step
    dsimp only
    split_ifs
    · exact (Quiet.takeAnswer payload).then sealed_drain
    · exact (Quiet.takeAnswer payload).sealed
  | data packet => exact (Quiet.write _).sealed
  | resume i =>
    unfold Node.step Node.resume
    dsimp only
    cases n.handlers[i]? with
    | none => exact (Quiet.refl _).sealed
    | some handler =>
      cases handler with
      | answering src => exact sealed_drain
      | flushing src rest => exact sealed_pour rest
      | returned | raised src lost => exact (Quiet.refl _).sealed
  | wake =>
    unfold Node.step
    dsimp only
    cases n.walk with
    | some targets => exact (Quiet.refl _).sealed
    | none => exact ((Quiet.write _).trans (Quiet.walkOn _ _)).sealed
  | walk =>
    unfold Node.step
    dsimp only
    cases n.walk with
    | none => exact (Quiet.refl _).sealed
    | some targets => exact (Quiet.walkOn _ _).sealed

/-- **What a stretch hands on is encrypted under a live session of its target.** -/
theorem sealing (n : Node K) (a : Env K × Act K) : n.Sealing me a := by
  obtain ⟨notes, hlog, hseal⟩ := sealed_step me n a
  intro x payload packet hm
  rw [hlog, List.drop_left] at hm
  exact hseal x payload packet hm

/-! ### Every calm run -/

/-- **The backlog is handed over whole.** In every interleaving in which no session is pushed out under a
flush, no responder comes back to a queue without its session and the retry walk dials only targets with a
queue: each payload queued is dropped or handed on once, in the order of its queue, or is still to be sent or
queued; no flush is cut short; a target with a handshake in flight has a queue; and what goes out goes out
under a live session. -/
theorem owed_handed_over (me : Keys K) {t : Tables} (ht : Rested t) {as : List (Env K × Act K)}
    (hcalm : Guarded (Node.step me) (Node.Calm me) (Node.start t) as) :
    (run (Node.step me) (Node.start t) as).Whole ∧ (run (Node.step me) (Node.start t) as).Uncut ∧
      (run (Node.step me) (Node.start t) as).Dialled ∧
      ∀ a, (run (Node.step me) (Node.start t) as).Sealing me a := by
  have h : Steady (run (Node.step me) (Node.start t) as) :=
    hcalm.run_induct (fun _ a h hg => h.step a hg) (steady_start ht)
  exact ⟨h.sound.whole, h.uncut, fun x hx => (h.sound.dialled x hx).1, fun a => sealing _ a⟩

/-! ### A run that hands its backlog over -/

/-- The node `A`, and the peer it writes to. -/
def sender : Keys plain := plainKeys .a

def peerId : NodeID := (plainKeys .b).id

/-- The answer of the peer to the handshake of nonce `[1]`. -/
def answer : Answer plain := ⟨[1], [9], [2], [plainCert 2 2], [1, 9, 2]⟩

/-- Two payloads wait for a session, the answer comes, and the flush goes on after the first. -/
def twoPayloads : List (Env plain × Act plain) :=
  [(plainEnv 1, .sendData peerId [7]), (plainEnv 2, .sendData peerId [8]),
    (plainEnv 3, .handshakeAck peerId (some answer)), (plainEnv 4, .resume 0)]

theorem calm_twoPayloads :
    Guarded (Node.step sender) (Node.Calm sender) (Node.start fresh) twoPayloads := by
  refine ⟨trivial, trivial, fun _ x hx => ?_, fun src hsrc => ?_, trivial⟩
  · have hnone : forgottenFor (run (Node.step sender) (Node.start fresh) (twoPayloads.take 2)).book.tables
        peerId = [] := by decide +kernel
    have hx : x ∈ forgottenFor (run (Node.step sender) (Node.start fresh) (twoPayloads.take 2)).book.tables
        peerId := hx
    rw [hnone] at hx
    exact absurd hx List.not_mem_nil
  · have hhandlers : (run (Node.step sender) (Node.start fresh) (twoPayloads.take 3)).handlers =
      [.flushing peerId [[8]]] := by decide +kernel
    have hsrc : (run (Node.step sender) (Node.start fresh) (twoPayloads.take 3)).handlers[0]? =
      some (.answering src) := hsrc
    rw [hhandlers] at hsrc
    cases hsrc

theorem owed_handed_over_twoPayloads :
    ((run (Node.step sender) (Node.start fresh) twoPayloads).Whole ∧
      (run (Node.step sender) (Node.start fresh) twoPayloads).Uncut ∧
      (run (Node.step sender) (Node.start fresh) twoPayloads).Dialled ∧
      ∀ a, (run (Node.step sender) (Node.start fresh) twoPayloads).Sealing sender a) ∧
    (run (Node.step sender) (Node.start fresh) twoPayloads).book.settledFor peerId = [[7], [8]] :=
  ⟨owed_handed_over sender rested_fresh calm_twoPayloads, by decide +kernel⟩

/-! ### What happens otherwise -/

theorem due_of_untried {t : Tables} (hlive : x ∉ t.e2eSessions.keys) (hattempt : x ∉ t.e2eAttempt.keys)
    (now : ℚ) : t.shouldInitiateE2e x now = true := by
  unfold Tables.shouldInitiateE2e
  rw [if_neg hlive, Dict.get?_eq_none.mpr hattempt]

theorem dials_forgotten {n : Node K} {rest : List NodeID} (hwalk : n.walk = some (x :: rest))
    (hchain : (env.chainOf me.id).isSome) (hlive : x ∉ n.book.tables.e2eSessions.keys)
    (hattempt : x ∉ n.book.tables.e2eAttempt.keys) (hqueue : x ∉ n.book.tables.e2ePendingData.keys) :
    ¬ (n.step me (env, .walk)).Dialled := by
  have hdue := due_of_untried hlive hattempt env.monotonic
  have hbook : (n.step me (env, .walk)).book = n.book.initiateE2eHandshake me env x := by
    unfold Node.step
    dsimp only
    rw [hwalk]
    exact congrArg Prod.fst (if_pos ⟨hdue, hchain⟩)
  have hnonce : x ∈ (n.book.initiateE2eHandshake me env x).tables.e2ePendingNonce.keys := by
    obtain ⟨chain, hchain⟩ := Option.isSome_iff_exists.mp hchain
    unfold Book.initiateE2eHandshake Turn.initiateE2eHandshake
    rw [hchain]
    exact Dict.mem_keys_set.mpr (.inl rfl)
  intro hdialled
  have hx := hdialled x (by rw [hbook]; exact hnonce)
  rw [hbook, (initiate_fields me env x n.book).1] at hx
  exact hqueue hx

/-! ### A walk that is overtaken -/

theorem sendData_offline (hchain : env.chainOf me.id = none) (hme : target ≠ me.id)
    (hlive : target ∉ b.tables.e2eSessions.keys) (payload : Bytes) :
    b.sendData me env target payload = b.enqueue target payload := by
  have hinitiate : ∀ b : Book K, b.initiateE2eHandshake me env target = b := by
    intro b
    unfold Book.initiateE2eHandshake Turn.initiateE2eHandshake
    rw [hchain]
    rfl
  unfold Book.sendData
  rw [if_neg hme, if_neg hlive]
  dsimp only
  split_ifs
  · exact hinitiate _
  · rfl

/-- Queues wait, in this order, and nothing is live or has been tried. -/
structure Waiting (queues : List NodeID) (t : Tables) : Prop where
  queues : t.e2ePendingData.keys = queues
  dead : ∀ y, y ∉ t.e2eSessions.keys
  untried : ∀ y, y ∉ t.e2eAttempt.keys

variable {queues : List NodeID}

theorem waiting_push (hqueues : b.tables.e2ePendingData.keys = queues)
    (hdead : ∀ y, y ∉ b.tables.e2eSessions.keys) (huntried : ∀ y, y ∉ b.tables.e2eAttempt.keys)
    (htarget : target ∉ queues) (payload : Bytes) :
    Waiting (queues ++ [target]) (b.push target payload).tables := by
  obtain ⟨-, kept, -, -, -, htables⟩ := push_spec b target payload
  rw [htables]
  refine ⟨?_, hdead, huntried⟩
  subst hqueues
  exact Dict.keys_set_of_notMem htarget kept

theorem waiting_enqueue (h : Waiting queues b.tables)
    (hroom : queues.length < maxPendingTargets) (htarget : target ∉ queues) (payload : Bytes) :
    Waiting (queues ++ [target]) (b.enqueue target payload).tables := by
  have hb : b.roomFor target = b := by
    unfold Book.roomFor
    rw [if_neg]
    rintro ⟨-, hfull⟩
    rw [Dict.size_eq, h.queues] at hfull
    omega
  unfold Book.enqueue
  rw [hb]
  exact waiting_push h.queues h.dead h.untried htarget payload

theorem waiting_enqueue_full (hqueues : b.tables.e2ePendingData.keys = x :: queues)
    (hdead : ∀ y, y ∉ b.tables.e2eSessions.keys) (htried : ∀ y ∈ b.tables.e2eAttempt.keys, y = x)
    (hfull : maxPendingTargets ≤ (x :: queues).length) (htarget : target ∉ x :: queues) (payload : Bytes) :
    Waiting (queues ++ [target]) (b.enqueue target payload).tables := by
  have hb : b.roomFor target = b.forgetE2e x := by
    unfold Book.roomFor
    rw [if_pos ⟨by rw [hqueues]; exact htarget, by rw [Dict.size_eq, hqueues]; exact hfull⟩, hqueues]
    rfl
  have hnodup := b.tables.e2ePendingData.nodup_keys
  rw [hqueues, List.nodup_cons] at hnodup
  unfold Book.enqueue
  rw [hb]
  refine waiting_push ?_ (fun y hy => ?_) (fun y hy => ?_)
    (fun hm => htarget (List.mem_cons_of_mem _ hm)) payload
  · have hpop : (b.forgetE2e x).tables.e2ePendingData.keys =
        b.tables.e2ePendingData.keys.filter (· ≠ x) := Dict.keys_pop _ _
    rw [hpop, hqueues, List.filter_cons_of_neg (by simp)]
    exact List.filter_eq_self.mpr fun y hy => decide_eq_true (ne_of_mem_of_not_mem hy hnodup.1)
  · exact hdead y (Dict.mem_keys_pop.mp hy).1
  · obtain ⟨hm, hne⟩ := Dict.mem_keys_pop.mp hy
    exact hne (htried y hm)

theorem wake_first (me : Keys K) (env : Env K) {n : Node K} {rest : List NodeID}
    (h : Waiting (x :: rest) n.book.tables)
    (hwalk : n.walk = none) (hchain : (env.chainOf me.id).isSome) :
    (n.step me (env, .wake)).walk = some rest ∧
      (n.step me (env, .wake)).book.tables.e2ePendingData.keys = x :: rest ∧
      (∀ y, y ∉ (n.step me (env, .wake)).book.tables.e2eSessions.keys) ∧
      ∀ y ∈ (n.step me (env, .wake)).book.tables.e2eAttempt.keys, y = x := by
  have hpruned : ∀ y, y ∉ n.book.pruneAttempts.tables.e2eAttempt.keys := by
    intro y hy
    have hy : y ∈ (n.book.tables.e2eAttempt.filterKeys _).keys := hy
    rw [Dict.keys_filterKeys] at hy
    exact h.untried y (List.mem_filter.mp hy).1
  have hdead : ∀ y, y ∉ n.book.pruneAttempts.tables.e2eSessions.keys := h.dead
  have hdue := due_of_untried (hdead x) (hpruned x) env.monotonic
  have hstep : n.step me (env, .wake) =
      { n with book := n.book.pruneAttempts.initiateE2eHandshake me env x, walk := some rest } := by
    have hkeys : n.book.pruneAttempts.tables.e2ePendingData.keys = x :: rest := h.queues
    unfold Node.step
    dsimp only
    rw [hwalk]
    dsimp only
    rw [hkeys]
    unfold Node.walkFrom Book.walkOn
    rw [if_pos ⟨hdue, hchain⟩]
  obtain ⟨hdata, hlive, -⟩ := initiate_fields me env x n.book.pruneAttempts
  rw [hstep]
  refine ⟨rfl, ?_, ?_, fun y hy => ?_⟩
  · show (n.book.pruneAttempts.initiateE2eHandshake me env x).tables.e2ePendingData.keys = _
    rw [hdata]
    exact h.queues
  · show ∀ y, y ∉ (n.book.pruneAttempts.initiateE2eHandshake me env x).tables.e2eSessions.keys
    rw [hlive]
    exact h.dead
  · obtain ⟨replaced, hkeep⟩ := Outcome.keep_fields n.book.pruneAttempts.tables x env.monotonic
    obtain ⟨chain, hchain⟩ := Option.isSome_iff_exists.mp hchain
    have hy : y ∈ (n.book.pruneAttempts.initiateE2eHandshake me env x).tables.e2eAttempt.keys := hy
    unfold Book.initiateE2eHandshake Turn.initiateE2eHandshake at hy
    rw [hchain] at hy
    dsimp only [Turn.write, Turn.emit, Book.write] at hy
    rw [hkeep] at hy
    exact (Dict.mem_keys_set.mp hy).resolve_right (hpruned y)

/-- The `i`-th of many targets nobody can reach. -/
def far (i : ℕ) : NodeID := ⟨255 :: toBE 19 i, by rw [List.length_cons, length_toBE]⟩

theorem far_ne (i : ℕ) : far i ≠ sender.id := by
  intro h
  have hhead : (255 : UInt8) = 1 := (List.cons.inj (congrArg NodeID.raw h)).1
  exact absurd hhead (by decide)

theorem far_inj {i j : ℕ} (hi : i < 258) (hj : j < 258) (h : far i = far j) : i = j :=
  toBE_inj (w := 19) (by omega) (by omega) (List.cons.inj (congrArg NodeID.raw h)).2

def offline : Env plain := { plainEnv 0 with certs := .new plain sender.id 9 9 9 }

theorem offline_chain : offline.chainOf sender.id = none := by decide +kernel

theorem waiting_run : ∀ (us queues : List NodeID) (n : Node plain), Waiting queues n.book.tables →
    n.walk = none → (queues ++ us).Nodup → (∀ u ∈ us, u ≠ sender.id) →
    (queues ++ us).length ≤ maxPendingTargets →
    Waiting (queues ++ us)
        (run (Node.step sender) n (us.map fun u => (offline, .sendData u [0]))).book.tables ∧
      (run (Node.step sender) n (us.map fun u => (offline, .sendData u [0]))).walk = none
  | [], queues, n, h, hwalk, _, _, _ => by
    rw [List.append_nil]
    exact ⟨h, hwalk⟩
  | u :: us, queues, n, h, hwalk, hnodup, hme, hlen => by
    rw [List.append_cons] at hnodup hlen ⊢
    have hu : u ∉ queues := fun hm =>
      (List.nodup_append.mp (List.nodup_append.mp hnodup).1).2.2 u hm u List.mem_cons_self rfl
    have hroom : queues.length < maxPendingTargets := by
      simp only [List.length_append, List.length_singleton] at hlen
      omega
    have hbook : (n.step sender (offline, .sendData u [0])).book = n.book.enqueue u [0] :=
      sendData_offline offline_chain (hme u List.mem_cons_self) (h.dead u) [0]
    rw [List.map_cons, run_cons]
    refine waiting_run us (queues ++ [u]) _ ?_ hwalk hnodup (fun v hv => hme v (List.mem_cons_of_mem _ hv)) hlen
    rw [hbook]
    exact waiting_enqueue h hroom hu [0]

theorem overtake {n : Node plain} {i : ℕ} (hqueues : n.book.tables.e2ePendingData.keys = x :: queues)
    (hdead : ∀ y, y ∉ n.book.tables.e2eSessions.keys) (htried : ∀ y ∈ n.book.tables.e2eAttempt.keys, y = x)
    (hfull : maxPendingTargets ≤ (x :: queues).length) (hfar : far i ∉ x :: queues) :
    Waiting (queues ++ [far i]) (n.step sender (offline, .sendData (far i) [0])).book.tables ∧
      (n.step sender (offline, .sendData (far i) [0])).walk = n.walk := by
  have hbook : (n.step sender (offline, .sendData (far i) [0])).book = n.book.enqueue (far i) [0] :=
    sendData_offline offline_chain (far_ne i) (hdead _) [0]
  refine ⟨?_, rfl⟩
  rw [hbook]
  exact waiting_enqueue_full hqueues hdead htried hfull hfar [0]

/-- 256 targets wait for a node to be enrolled. The retry loop wakes, and while its first handshake is on its
way the application writes to two more, which pushes out the two oldest; then the walk goes on. -/
def stale : List (Env plain × Act plain) :=
  ((List.range 256).map far).map (fun u => (offline, .sendData u [0])) ++
    [(plainEnv 1, .wake), (offline, .sendData (far 256) [0]), (offline, .sendData (far 257) [0]),
      (plainEnv 2, .walk)]

/-- **The retry loop dials a target it has been told to forget**: the handshake is in flight, and nothing is
queued for it. -/
theorem stale_dials : ¬ (run (Node.step sender) (Node.start fresh) stale).Dialled := by
  have hlist : (List.range 256).map far = far 0 :: far 1 :: (List.range' 2 254).map far := by
    have hrange : List.range' 0 256 = 0 :: 1 :: List.range' 2 254 := rfl
    rw [List.range_eq_range', hrange]
    rfl
  have hnodup : ((List.range 258).map far).Nodup :=
    List.Nodup.map_on (fun i hi j hj h => far_inj (List.mem_range.mp hi) (List.mem_range.mp hj) h)
      List.nodup_range
  rw [List.range_succ, List.map_append, List.range_succ, List.map_append, hlist] at hnodup
  obtain ⟨hwaiting, hwalk⟩ := waiting_run ((List.range 256).map far) [] (Node.start fresh)
    ⟨rfl, fun _ => List.not_mem_nil, fun _ => List.not_mem_nil⟩ rfl
    (by rw [hlist]; exact (List.nodup_append.mp (List.nodup_append.mp hnodup).1).1)
    (fun u hu => by obtain ⟨i, -, rfl⟩ := List.mem_map.mp hu; exact far_ne i)
    (by rw [List.nil_append, List.length_map, List.length_range]; exact le_refl _)
  unfold stale
  rw [run_append]
  generalize run (Node.step sender) (Node.start fresh)
    (((List.range 256).map far).map fun u => (offline, Act.sendData u [0])) = n at hwaiting hwalk ⊢
  rw [List.nil_append, hlist] at hwaiting
  have hlen : ((List.range' 2 254).map far).length = 254 := by rw [List.length_map, List.length_range']
  generalize (List.range' 2 254).map far = rest at hnodup hwaiting hlen
  obtain ⟨hnodup₁, -, hnew₂⟩ := List.nodup_append.mp hnodup
  obtain ⟨hnodup₀, -, hnew₁⟩ := List.nodup_append.mp hnodup₁
  have hfull : ∀ y z, maxPendingTargets ≤ (y :: (rest ++ [z])).length := by
    intro y z
    rw [List.length_cons, List.length_append, hlen]
    exact le_refl _
  rw [run_cons, run_cons, run_cons, run_cons, run_nil]
  -- the pass starts, and stops at the first target
  obtain ⟨hwalk₁, hqueues₁, hdead₁, htried₁⟩ := wake_first sender (plainEnv 1) hwaiting hwalk
    (by decide +kernel)
  generalize n.step sender (plainEnv 1, .wake) = n₁ at hwalk₁ hqueues₁ hdead₁ htried₁ ⊢
  -- two more payloads push out the two oldest targets
  obtain ⟨hwaiting₂, hwalk₂⟩ := overtake hqueues₁ hdead₁ htried₁
    (by rw [List.length_cons, List.length_cons, hlen]; exact le_refl _)
    fun hm => hnew₁ (far 256) hm _ List.mem_cons_self rfl
  generalize n₁.step sender (offline, .sendData (far 256) [0]) = n₂ at hwaiting₂ hwalk₂ ⊢
  obtain ⟨hwaiting₃, hwalk₃⟩ := overtake hwaiting₂.queues hwaiting₂.dead
    (fun y hy => absurd hy (hwaiting₂.untried y)) (hfull _ _)
    fun hm => hnew₂ (far 257) (List.mem_cons_of_mem _ hm) _ List.mem_cons_self rfl
  generalize n₂.step sender (offline, .sendData (far 257) [0]) = n₃ at hwaiting₃ hwalk₃ ⊢
  -- the walk goes on with the second target
  refine dials_forgotten (hwalk₃.trans (hwalk₂.trans hwalk₁)) (by decide +kernel) (hwaiting₃.dead _)
    (hwaiting₃.untried _) fun hm => ?_
  rw [hwaiting₃.queues] at hm
  have hfirst : far 1 ∉ rest ++ [far 256] := (List.nodup_cons.mp (List.nodup_cons.mp hnodup₁).2).1
  rcases List.mem_append.mp hm with hm | hm
  · exact hfirst hm
  · exact hnew₂ (far 1) (List.mem_cons_of_mem _ List.mem_cons_self) _ hm rfl

end NMesh.E2e.Whole
