import NMesh.E2e.Backlog
import NMesh.E2e.Outcome

/-! # The backlog is handed over whole

`Book.Sound owed b` is the invariant of the tables and the ledger, `owed` being what running flushes have
taken out of the queues. Its clauses bear on one another: a target that is owed something has a live
session, so nothing is queued for it, and a target with a handshake in flight has none, so no flush takes its
queue. Each stretch keeps it (`Node.Sound.step`) if no session is pushed out under a flush, no responder comes
back to a queue without its session and the retry walk leaves forgotten targets alone (`Node.Calm`). -/

namespace NMesh.E2e.Handover

open Base.BigEndian Base.Ordered Base.Runs NMesh.Cert.Identity
open NMesh.E2e.Session NMesh.E2e.Backlog NMesh.E2e.Outcome

variable {K : Crypto} {b : Book K} {t : Tables} {x src target : NodeID} {payload session : Bytes}

/-! ### The tables are those of the session model -/

section Tables

theorem victims_congr : ∀ (n : ℕ) {t t' : Tables}, t.e2eSessions = t'.e2eSessions →
    t.e2ePendingData = t'.e2ePendingData → victims n t = victims n t'
  | 0, _, _, _, _ => rfl
  | n + 1, t, t', hs, hd => by
    have hvictim : t.victim = t'.victim := by unfold Tables.victim; rw [hs, hd]
    unfold victims
    rw [hs, hvictim]
    split_ifs
    · cases t'.victim with
      | none => rfl
      | some nodeId =>
        have hs' : (t.forgetE2e nodeId).e2eSessions = (t'.forgetE2e nodeId).e2eSessions :=
          congrArg (·.pop nodeId) hs
        have hd' : (t.forgetE2e nodeId).e2ePendingData = (t'.forgetE2e nodeId).e2ePendingData :=
          congrArg (·.pop nodeId) hd
        exact congrArg (nodeId :: ·) (victims_congr n hs' hd')
    · rfl

theorem forgottenFor_congr {t t' : Tables} (hs : t.e2eSessions = t'.e2eSessions)
    (hd : t.e2ePendingData = t'.e2ePendingData) : forgottenFor t src = forgottenFor t' src := by
  unfold forgottenFor
  rw [hs, victims_congr _ hs hd]

theorem tables_foldl_forget (xs : List NodeID) (b : Book K) :
    (xs.foldl Book.forgetE2e b).tables = xs.foldl Tables.forgetE2e b.tables := by
  induction xs generalizing b with
  | nil => rfl
  | cons y ys ih => exact ih (b.forgetE2e y)

theorem tables_push (b : Book K) (target : NodeID) (payload : Bytes) :
    (b.push target payload).tables = { b.tables with
      e2ePendingData := b.tables.e2ePendingData.set target
        (if maxPendingPerTarget < (b.queue target ++ [payload]).length then
          (b.queue target ++ [payload]).tail else b.queue target ++ [payload]) } := by
  unfold Book.push
  dsimp only
  split_ifs <;> rfl

theorem push_spec (b : Book K) (target : NodeID) (payload : Bytes) :
    ∃ dropped kept, dropped ++ kept = b.queue target ++ [payload] ∧ kept ≠ [] ∧
      (b.push target payload).log = b.log ++ ([.queued target payload] ++ dropped.map (.crowded target)) ∧
      (b.push target payload).tables =
        { b.tables with e2ePendingData := b.tables.e2ePendingData.set target kept } := by
  by_cases hfull : maxPendingPerTarget < (b.queue target ++ [payload]).length
  · cases hqueue : b.queue target ++ [payload] with
    | nil => simp at hqueue
    | cons oldest kept =>
      refine ⟨[oldest], kept, rfl, ?_, ?_, ?_⟩
      · rintro rfl
        rw [hqueue] at hfull
        exact absurd hfull (Nat.not_lt.mpr (Nat.succ_le_succ (Nat.zero_le _)))
      · unfold Book.push
        dsimp only
        rw [if_pos hfull, hqueue]
        exact List.append_assoc _ _ _
      · rw [tables_push, if_pos hfull, hqueue]
        rfl
  · refine ⟨[], b.queue target ++ [payload], rfl, by simp, ?_, by rw [tables_push, if_neg hfull]⟩
    unfold Book.push
    dsimp only
    rw [if_neg hfull]
    rfl

theorem pour_of_live {me : Keys K} {rest : List Bytes} (h : b.tables.e2eSessions.get? src = some session) :
    b.pour me src (payload :: rest) =
      (b.note [.flushed src payload (createEncrypted me.id src payload session)], .flushing src rest) := by
  simp only [Book.pour, h]

/-- **A flush that has lost its session is cut short**, and what it had taken is gone. -/
theorem pour_of_dead {me : Keys K} {rest : List Bytes} (h : src ∉ b.tables.e2eSessions.keys) :
    b.pour me src (payload :: rest) = (b, .raised src (payload :: rest)) := by
  simp only [Book.pour, Dict.get?_eq_none.mpr h]

end Tables

/-! ### The invariant of the tables and the ledger -/

/-- **The tables and the ledger are sound**, where running flushes owe what `owed` says. -/
structure Sound (owed : NodeID → List Bytes) (b : Book K) : Prop where
  whole : ∀ x, b.queuedFor x = b.settledFor x ++ owed x ++ b.queue x
  flushing : ∀ x, owed x ≠ [] → x ∈ b.tables.e2eSessions.keys ∧ x ∉ b.tables.e2ePendingData.keys
  dialled : ∀ x ∈ b.tables.e2ePendingNonce.keys,
    x ∈ b.tables.e2ePendingData.keys ∧ x ∉ b.tables.e2eSessions.keys
  filled : ∀ x ∈ b.tables.e2ePendingData.keys, b.queue x ≠ []

section Ledger

theorem queuedFor_note (b : Book K) (notes : List (Note K)) (x : NodeID) :
    (b.note notes).queuedFor x = b.queuedFor x ++ notes.filterMap (Note.queuedFor x) :=
  List.filterMap_append

theorem settledFor_note (b : Book K) (notes : List (Note K)) (x : NodeID) :
    (b.note notes).settledFor x = b.settledFor x ++ notes.filterMap (Note.settledFor x) :=
  List.filterMap_append

theorem queuedFor_evicted (l : List Bytes) (y x : NodeID) :
    (l.map (Note.evicted (K := K) y)).filterMap (Note.queuedFor x) = [] := by
  rw [List.filterMap_map]
  exact List.filterMap_eq_nil_iff.mpr fun _ _ => rfl

theorem settledFor_evicted (l : List Bytes) (y x : NodeID) :
    (l.map (Note.evicted (K := K) y)).filterMap (Note.settledFor x) = if y = x then l else [] := by
  rw [List.filterMap_map]
  split_ifs with hxy
  · calc l.filterMap (Note.settledFor x ∘ Note.evicted (K := K) y)
        = l.filterMap some := List.filterMap_congr fun _ _ => if_pos hxy
      _ = l := List.filterMap_some
  · exact List.filterMap_eq_nil_iff.mpr fun _ _ => if_neg hxy

theorem queuedFor_queued (y x : NodeID) (payload : Bytes) :
    [Note.queued (K := K) y payload].filterMap (Note.queuedFor x) = if y = x then [payload] else [] := by
  have hone : Note.queuedFor x (Note.queued (K := K) y payload) = if y = x then some payload else none := rfl
  rw [List.filterMap_cons, hone]
  split_ifs <;> rfl

theorem queuedFor_crowded (l : List Bytes) (y x : NodeID) :
    (l.map (Note.crowded (K := K) y)).filterMap (Note.queuedFor x) = [] := by
  rw [List.filterMap_map]
  exact List.filterMap_eq_nil_iff.mpr fun _ _ => rfl

theorem settledFor_crowded (l : List Bytes) (y x : NodeID) :
    (l.map (Note.crowded (K := K) y)).filterMap (Note.settledFor x) = if y = x then l else [] := by
  rw [List.filterMap_map]
  split_ifs with hxy
  · calc l.filterMap (Note.settledFor x ∘ Note.crowded (K := K) y)
        = l.filterMap some := List.filterMap_congr fun _ _ => if_pos hxy
      _ = l := List.filterMap_some
  · exact List.filterMap_eq_nil_iff.mpr fun _ _ => if_neg hxy

theorem queue_of_notMem (h : x ∉ b.tables.e2ePendingData.keys) : b.queue x = [] := by
  unfold Book.queue
  rw [Dict.get?_eq_none.mpr h]
  rfl

theorem queue_forget (b : Book K) (y x : NodeID) :
    (b.forgetE2e y).queue x = if x = y then [] else b.queue x := by
  show ((b.tables.e2ePendingData.pop y).get? x).getD [] = _
  split_ifs with hxy
  · rw [hxy, Dict.get?_pop_self]
    rfl
  · rw [Dict.get?_pop_of_ne _ hxy]
    rfl

end Ledger

namespace Sound

variable {owed : NodeID → List Bytes}

theorem owed_of_dead (h : Sound owed b) (hdead : x ∉ b.tables.e2eSessions.keys) : owed x = [] :=
  not_not.mp fun hne => hdead (h.flushing x hne).1

theorem owed_of_queue (h : Sound owed b) (hqueue : x ∈ b.tables.e2ePendingData.keys) : owed x = [] :=
  not_not.mp fun hne => (h.flushing x hne).2 hqueue

/-- **The queues stay**: no session goes, and only targets with a queue are dialled. -/
theorem write (h : Sound owed b) (hdata : t.e2ePendingData = b.tables.e2ePendingData)
    (hlive : ∀ x ∈ b.tables.e2eSessions.keys, x ∈ t.e2eSessions.keys)
    (hdialled : ∀ x ∈ t.e2ePendingNonce.keys,
      x ∈ b.tables.e2ePendingData.keys ∧ x ∉ t.e2eSessions.keys) :
    Sound owed (b.write t) := by
  have hqueue : ∀ x, (b.write t).queue x = b.queue x := by
    intro x
    unfold Book.queue
    exact congrArg (fun d => (Dict.get? d x).getD []) hdata
  refine ⟨fun x => ?_, fun x hx => ?_, fun x hx => ?_, fun x hx => ?_⟩
  · rw [hqueue]
    exact h.whole x
  · obtain ⟨hl, hd⟩ := h.flushing x hx
    exact ⟨hlive x hl, fun hm => hd (by rw [← hdata]; exact hm)⟩
  · obtain ⟨hd, hs⟩ := hdialled x hx
    exact ⟨by rw [← hdata] at hd; exact hd, hs⟩
  · rw [hqueue]
    exact h.filled x (by rw [← hdata]; exact hx)

theorem write_of_sub (h : Sound owed b) (hdata : t.e2ePendingData = b.tables.e2ePendingData)
    (hlive : t.e2eSessions = b.tables.e2eSessions)
    (hnonce : ∀ x ∈ t.e2ePendingNonce.keys, x ∈ b.tables.e2ePendingNonce.keys) :
    Sound owed (b.write t) :=
  h.write hdata (by rw [hlive]; exact fun _ hx => hx) fun x hx => by
    rw [hlive]
    exact h.dialled x (hnonce x hx)

theorem forget (h : Sound owed b) (howed : owed target = []) : Sound owed (b.forgetE2e target) := by
  have hnonce : ∀ x ∈ (b.forgetE2e target).tables.e2ePendingNonce.keys,
      x ∈ b.tables.e2ePendingNonce.keys ∧ x ≠ target := fun x hx =>
    ⟨(Dict.mem_keys_pop.mp (Dict.mem_keys_pop.mp hx).1).1, (Dict.mem_keys_pop.mp hx).2⟩
  refine ⟨fun x => ?_, fun x hx => ?_, fun x hx => ?_, fun x hx => ?_⟩
  · show (b.note _).queuedFor x = (b.note _).settledFor x ++ owed x ++ (b.forgetE2e target).queue x
    rw [queuedFor_note, settledFor_note, queuedFor_evicted, settledFor_evicted, queue_forget,
      List.append_nil, h.whole x]
    by_cases hxt : target = x
    · subst hxt
      simp only [if_true, howed, List.append_nil]
    · rw [if_neg hxt, if_neg (Ne.symm hxt), List.append_nil]
  · have hne : x ≠ target := by
      rintro rfl
      exact hx howed
    obtain ⟨hl, hd⟩ := h.flushing x hx
    exact ⟨Dict.mem_keys_pop.mpr ⟨hl, hne⟩, fun hm => hd (Dict.mem_keys_pop.mp hm).1⟩
  · obtain ⟨hn, hne⟩ := hnonce x hx
    obtain ⟨hd, hl⟩ := h.dialled x hn
    exact ⟨Dict.mem_keys_pop.mpr ⟨hd, hne⟩, fun hm => hl (Dict.mem_keys_pop.mp hm).1⟩
  · obtain ⟨hd, hne⟩ := Dict.mem_keys_pop.mp hx
    rw [queue_forget, if_neg hne]
    exact h.filled x hd

theorem foldl_forget {xs : List NodeID} (howed : ∀ x ∈ xs, owed x = []) (h : Sound owed b) :
    Sound owed (xs.foldl Book.forgetE2e b) := by
  induction xs generalizing b with
  | nil => exact h
  | cons y ys ih =>
    have hrest : ∀ x ∈ ys, owed x = [] := fun x hx => howed x (List.mem_cons_of_mem _ hx)
    exact ih hrest (h.forget (howed y List.mem_cons_self))

theorem nonce_foldl_forget {xs : List NodeID} (h : x ∈ (xs.foldl Tables.forgetE2e t).e2ePendingNonce.keys) :
    x ∈ t.e2ePendingNonce.keys := by
  induction xs generalizing t with
  | nil => exact h
  | cons y ys ih =>
    have hy : x ∈ ((t.e2ePendingNonce.pop y).pop y).keys := ih h
    exact (Dict.mem_keys_pop.mp (Dict.mem_keys_pop.mp hy).1).1

/-- **A session is filed** of a node that no handshake is in flight to. -/
theorem keep (h : Sound owed b) (howed : ∀ x ∈ forgottenFor b.tables src, owed x = [])
    (hnonce : src ∉ b.tables.e2ePendingNonce.keys) : Sound owed (b.keepE2eSession src session) := by
  have hroom : Sound owed ((forgottenFor b.tables src).foldl Book.forgetE2e b) := foldl_forget howed h
  refine hroom.write rfl (fun x hx => Dict.mem_keys_set.mpr (.inr hx)) fun x hx => ?_
  obtain ⟨hd, hl⟩ := hroom.dialled x hx
  refine ⟨hd, fun hm => ?_⟩
  rcases Dict.mem_keys_set.mp hm with rfl | hm
  · rw [tables_foldl_forget] at hx
    exact hnonce (nonce_foldl_forget hx)
  · exact hl hm

theorem roomFor (h : Sound owed b) (target : NodeID) : Sound owed (b.roomFor target) := by
  unfold Book.roomFor
  split_ifs
  · cases hhead : b.tables.e2ePendingData.keys.head? with
    | none => exact h
    | some oldest => exact h.forget (h.owed_of_queue (List.mem_of_head? hhead))
  · exact h

theorem push (h : Sound owed b) (hdead : target ∉ b.tables.e2eSessions.keys) (payload : Bytes) :
    Sound owed (b.push target payload) := by
  have howed : owed target = [] := h.owed_of_dead hdead
  obtain ⟨dropped, kept, hsplit, hne, hlog, htables⟩ := push_spec b target payload
  have hqueue : ∀ x, (b.push target payload).queue x = if target = x then kept else b.queue x := by
    intro x
    unfold Book.queue
    rw [htables, Dict.get?_set]
    split_ifs <;> rfl
  have hkeys : ∀ x, x ∈ (b.push target payload).tables.e2ePendingData.keys ↔
      x = target ∨ x ∈ b.tables.e2ePendingData.keys := by
    intro x
    rw [htables]
    exact Dict.mem_keys_set
  refine ⟨fun x => ?_, fun x hx => ?_, fun x hx => ?_, fun x hx => ?_⟩
  · have hqueued : (b.push target payload).queuedFor x =
        b.queuedFor x ++ if target = x then [payload] else [] := by
      unfold Book.queuedFor
      rw [hlog, List.filterMap_append, List.filterMap_append, queuedFor_crowded, queuedFor_queued,
        List.append_nil]
    have hsettled : (b.push target payload).settledFor x =
        b.settledFor x ++ if target = x then dropped else [] := by
      unfold Book.settledFor
      rw [hlog, List.filterMap_append, List.filterMap_append, settledFor_crowded]
      rfl
    rw [hqueued, hsettled, hqueue, h.whole x]
    by_cases hxt : target = x
    · subst hxt
      simp only [if_true, howed, List.append_nil, List.append_assoc, hsplit]
    · simp only [if_neg hxt, List.append_nil]
  · obtain ⟨hl, hd⟩ := h.flushing x hx
    rw [hkeys, htables]
    refine ⟨hl, ?_⟩
    rintro (rfl | hm)
    · exact hdead hl
    · exact hd hm
  · rw [htables] at hx
    obtain ⟨hd, hl⟩ := h.dialled x hx
    rw [hkeys, htables]
    exact ⟨.inr hd, hl⟩
  · rw [hqueue]
    split_ifs with hxt
    · exact hne
    · exact h.filled x (((hkeys x).mp hx).resolve_left (Ne.symm hxt))

end Sound

/-! ### One stretch, at the tables -/

theorem initiate_fields (me : Keys K) (env : Env K) (target : NodeID) (b : Book K) :
    (b.initiateE2eHandshake me env target).tables.e2ePendingData = b.tables.e2ePendingData ∧
      (b.initiateE2eHandshake me env target).tables.e2eSessions = b.tables.e2eSessions ∧
      ∀ x ∈ (b.initiateE2eHandshake me env target).tables.e2ePendingNonce.keys,
        x = target ∨ x ∈ b.tables.e2ePendingNonce.keys := by
  obtain ⟨replaced, hkeep⟩ := keep_fields b.tables target env.monotonic
  unfold Book.initiateE2eHandshake Turn.initiateE2eHandshake
  cases env.chainOf me.id with
  | none => exact ⟨rfl, rfl, fun x hx => .inr hx⟩
  | some chain =>
    dsimp only [Turn.write, Turn.emit, Book.write]
    rw [hkeep]
    exact ⟨rfl, rfl, fun x hx => Dict.mem_keys_set.mp hx⟩

theorem rekeyGet_fields (t : Tables) (src : NodeID) (now : ℚ) :
    ∃ rekey, (t.e2eRekeyGet src now).2 = { t with e2eRekey := rekey } := by
  unfold Tables.e2eRekeyGet
  cases t.e2eRekey.get? src with
  | none => exact ⟨_, rfl⟩
  | some entry =>
    dsimp only
    split_ifs <;> exact ⟨_, rfl⟩

theorem handleData_fields (env : Env K) (packet : Packet K) (b : Book K) :
    (b.handleData env packet).tables.e2ePendingData = b.tables.e2ePendingData ∧
      (b.handleData env packet).tables.e2ePendingNonce = b.tables.e2ePendingNonce ∧
      (b.handleData env packet).tables.e2eSessions.keys = b.tables.e2eSessions.keys := by
  unfold Book.handleData Turn.handleData
  cases hsession : b.tables.e2eSessions.get? packet.srcId with
  | none =>
    simp only [hsession]
    exact ⟨rfl, rfl, rfl⟩
  | some session =>
    have hlive : packet.srcId ∈ b.tables.e2eSessions.keys := Dict.mem_keys_of_get? hsession
    obtain ⟨rekey, hrekey⟩ := rekeyGet_fields b.tables packet.srcId env.monotonic
    simp only [hsession]
    cases packet.decryptPayload session with
    | some plaintext => exact ⟨rfl, rfl, rfl⟩
    | none =>
      dsimp only
      rcases hget : b.tables.e2eRekeyGet packet.srcId env.monotonic with ⟨candidate, tables⟩
      rw [hget] at hrekey
      obtain rfl : tables = { b.tables with e2eRekey := rekey } := hrekey
      cases candidate with
      | none => exact ⟨rfl, rfl, rfl⟩
      | some candidate =>
        dsimp only
        cases packet.decryptPayload candidate with
        | none => exact ⟨rfl, rfl, rfl⟩
        | some plaintext =>
          dsimp only [Turn.file, Turn.write, Turn.emit, Book.write, Tables.keepE2eSession]
          rw [if_pos hlive]
          exact ⟨rfl, rfl, Dict.keys_set_of_mem hlive _⟩

theorem attemptSecret_fields (t : Tables) (src : NodeID) (nonce : Bytes) (now : ℚ) :
    ∃ replaced, (t.e2eAttemptSecret src nonce now).2 = { t with e2eReplacedKem := replaced } := by
  rcases attemptSecret_tables (t := t) src nonce now with he | he <;> rw [he] <;> exact ⟨_, rfl⟩

namespace Sound

variable {owed : NodeID → List Bytes} {me : Keys K} {env : Env K}

theorem initiate (h : Sound owed b) (hqueue : target ∈ b.tables.e2ePendingData.keys)
    (hdead : target ∉ b.tables.e2eSessions.keys) : Sound owed (b.initiateE2eHandshake me env target) := by
  obtain ⟨hdata, hlive, hnonce⟩ := initiate_fields me env target b
  refine h.write hdata (fun x hx => by rw [← hlive] at hx; exact hx) fun x hx => ?_
  show x ∈ b.tables.e2ePendingData.keys ∧
    x ∉ (b.initiateE2eHandshake me env target).tables.e2eSessions.keys
  rw [hlive]
  rcases hnonce x hx with rfl | hx
  · exact ⟨hqueue, hdead⟩
  · exact h.dialled x hx

theorem sessions_roomFor (h : x ∈ (b.roomFor target).tables.e2eSessions.keys) :
    x ∈ b.tables.e2eSessions.keys := by
  unfold Book.roomFor at h
  split_ifs at h
  · cases hhead : b.tables.e2ePendingData.keys.head? with
    | none => rw [hhead] at h; exact h
    | some oldest => rw [hhead] at h; exact (Dict.mem_keys_pop.mp h).1
  · exact h

theorem sendData (h : Sound owed b) (target : NodeID) (payload : Bytes) :
    Sound owed (b.sendData me env target payload) := by
  unfold Book.sendData
  by_cases hme : target = me.id
  · rw [if_pos hme]
    exact h
  by_cases hlive : target ∈ b.tables.e2eSessions.keys
  · rw [if_neg hme, if_pos hlive]
    exact h
  rw [if_neg hme, if_neg hlive]
  have hdead : target ∉ (b.roomFor target).tables.e2eSessions.keys := fun hm => hlive (sessions_roomFor hm)
  have hqueued : Sound owed (b.enqueue target payload) := (h.roomFor target).push hdead payload
  obtain ⟨-, kept, -, -, -, htables⟩ := push_spec (b.roomFor target) target payload
  have hqueue : target ∈ (b.enqueue target payload).tables.e2ePendingData.keys := by
    show target ∈ ((b.roomFor target).push target payload).tables.e2ePendingData.keys
    rw [htables]
    exact Dict.mem_keys_set.mpr (.inl rfl)
  have hdead' : target ∉ (b.enqueue target payload).tables.e2eSessions.keys := by
    show target ∉ ((b.roomFor target).push target payload).tables.e2eSessions.keys
    rw [htables]
    exact hdead
  dsimp only
  split_ifs
  · exact hqueued.initiate hqueue hdead'
  · exact hqueued

variable (me env) in
theorem answerHello (h : Sound owed b) (payload : Option (Hello K))
    (howed : Node.filesHello me env src payload b.tables = true →
      ∀ x ∈ forgottenFor b.tables src, owed x = []) :
    Sound owed (b.answerHello me env src payload).1 ∧
      ((b.answerHello me env src payload).2 = true →
        src ∈ (b.answerHello me env src payload).1.tables.e2eSessions.keys) := by
  have hno : ∀ b' : Book K, Sound owed b' → Sound owed (b', false).1 ∧
      ((b', false).2 = true → src ∈ (b', false).1.tables.e2eSessions.keys) :=
    fun _ h => ⟨h, fun hf => absurd hf Bool.false_ne_true⟩
  unfold Book.answerHello
  cases payload with
  | none => exact hno b h
  | some hello =>
    dsimp only
    by_cases hchecks : Turn.helloChecks env src hello = true
    swap
    · rw [if_pos (by simpa using hchecks)]
      exact hno b h
    by_cases hglare : Turn.glare me src b.tables = true
    · rw [if_neg (by simpa using hchecks), if_pos hglare]
      exact hno b h
    rw [if_neg (by simpa using hchecks), if_neg hglare]
    set b' := b.write { b.tables with
      e2ePendingNonce := b.tables.e2ePendingNonce.pop src
      e2ePendingKem := b.tables.e2ePendingKem.pop src } with hb'
    have h' : Sound owed b' := h.write_of_sub rfl rfl fun x hx => (Dict.mem_keys_pop.mp hx).1
    cases hchain : env.chainOf me.id with
    | none => exact hno b' h'
    | some chain =>
      cases hkem : env.kemEncapsulate hello.kemPub with
      | none => exact hno b' h'
      | some pair =>
        dsimp only
        by_cases hlive : src ∈ b'.tables.e2eSessions.keys
        · rw [if_pos hlive]
          exact ⟨h'.write_of_sub rfl rfl fun _ hx => hx, fun _ => hlive⟩
        · rw [if_neg hlive]
          have hfiles : Node.filesHello me env src (some hello) b.tables = true := by
            simp [Node.filesHello, hchecks, hglare, hchain, hkem]
          have hforgotten : forgottenFor b'.tables src = forgottenFor b.tables src :=
            forgottenFor_congr rfl rfl
          refine ⟨h'.keep ?_ fun hx => (Dict.mem_keys_pop.mp hx).2 rfl,
            fun _ => Dict.mem_keys_set.mpr (.inl rfl)⟩
          rw [hforgotten]
          exact howed hfiles

variable (me env) in
theorem takeAnswer (h : Sound owed b) (payload : Option (Answer K))
    (howed : Node.filesAnswer me env src payload b.tables = true →
      ∀ x ∈ forgottenFor b.tables src, owed x = []) :
    Sound owed (b.takeAnswer me env src payload).1 ∧
      ((b.takeAnswer me env src payload).2 = true →
        src ∈ (b.takeAnswer me env src payload).1.tables.e2eSessions.keys) := by
  have hno : ∀ b' : Book K, Sound owed b' → Sound owed (b', false).1 ∧
      ((b', false).2 = true → src ∈ (b', false).1.tables.e2eSessions.keys) :=
    fun _ h => ⟨h, fun hf => absurd hf Bool.false_ne_true⟩
  unfold Book.takeAnswer
  cases payload with
  | none => exact hno b h
  | some answer =>
    dsimp only
    obtain ⟨replaced, htables⟩ := attemptSecret_fields b.tables src answer.nonce env.monotonic
    rcases hget : b.tables.e2eAttemptSecret src answer.nonce env.monotonic with ⟨secret, tables⟩
    rw [hget] at htables
    obtain rfl : tables = { b.tables with e2eReplacedKem := replaced } := htables
    have h' : Sound owed (b.write { b.tables with e2eReplacedKem := replaced }) :=
      h.write_of_sub rfl rfl fun _ hx => hx
    cases secret with
    | none => exact hno _ h'
    | some secret =>
      dsimp only
      by_cases hchecks : Turn.answerChecks env src answer = true
      swap
      · rw [if_pos (by simpa using hchecks)]
        exact hno _ h'
      rw [if_neg (by simpa using hchecks)]
      set b' := b.write (Tables.e2eDropAttempts { b.tables with e2eReplacedKem := replaced } src) with hb'
      have h' : Sound owed b' := h.write_of_sub rfl rfl fun x hx => (Dict.mem_keys_pop.mp hx).1
      cases hkem : me.kemDecapsulate answer.ciphertext secret with
      | none => exact hno b' h'
      | some shared =>
        dsimp only
        have hfiles : Node.filesAnswer me env src (some answer) b.tables = true := by
          simp [Node.filesAnswer, hchecks, hget, hkem]
        have hforgotten : forgottenFor b'.tables src = forgottenFor b.tables src :=
          forgottenFor_congr rfl rfl
        refine ⟨h'.keep ?_ fun hx => (Dict.mem_keys_pop.mp hx).2 rfl,
          fun _ => Dict.mem_keys_set.mpr (.inl rfl)⟩
        rw [hforgotten]
        exact howed hfiles

/-- **The retry walk goes on**, and dials no target without a queue. -/
theorem walkOn : ∀ {targets : List NodeID}, Sound owed b →
    (∀ x, Node.dials me env targets b.tables = some x → x ∈ b.tables.e2ePendingData.keys) →
    Sound owed (b.walkOn me env targets).1
  | [], h, _ => h
  | y :: ys, h, hqueue => by
    unfold Book.walkOn
    by_cases hdue : b.tables.shouldInitiateE2e y env.monotonic = true ∧ (env.chainOf me.id).isSome
    · rw [if_pos hdue]
      have hy : y ∈ b.tables.e2ePendingData.keys := by
        refine hqueue y (List.find?_cons_of_pos ?_)
        simpa using hdue
      refine h.initiate hy fun hlive => ?_
      have hdue := hdue.1
      unfold Tables.shouldInitiateE2e at hdue
      rw [if_pos hlive] at hdue
      exact absurd hdue Bool.false_ne_true
    · rw [if_neg hdue]
      refine walkOn h fun x hx => hqueue x ?_
      unfold Node.dials
      rw [List.find?_cons_of_neg (by simpa using hdue)]
      exact hx

theorem handleData (h : Sound owed b) (packet : Packet K) : Sound owed (b.handleData env packet) := by
  obtain ⟨hdata, hnonce, hlive⟩ := handleData_fields env packet b
  refine h.write hdata (fun x hx => by rw [← hlive] at hx; exact hx) fun x hx => ?_
  have hx : x ∈ (b.handleData env packet).tables.e2ePendingNonce.keys := hx
  rw [hnonce] at hx
  show x ∈ b.tables.e2ePendingData.keys ∧ x ∉ (b.handleData env packet).tables.e2eSessions.keys
  rw [hlive]
  exact h.dialled x hx

theorem pruneAttempts (h : Sound owed b) : Sound owed b.pruneAttempts :=
  h.write_of_sub rfl rfl fun _ hx => hx

end Sound

/-! ### One handler among the others -/

/-- What is owed in all, where one handler owes what it has left and the others owe `others`. -/
def merged (others : NodeID → List Bytes) (h : Handler) (x : NodeID) : List Bytes :=
  if h.rest x = [] then others x else h.rest x

/-- What a handler leaves behind at an await, the other handlers owing `others`. -/
structure Taken (others : NodeID → List Bytes) (r : Book K × Handler) : Prop where
  sound : Sound (merged others r.2) r.1
  apart : ∀ x, r.2.rest x = [] ∨ others x = []
  uncut : ∀ src lost, r.2 ≠ .raised src lost

section Handlers

variable {others : NodeID → List Bytes} {me : Keys K} {h : Handler}

theorem merged_of_nil (hrest : ∀ x, h.rest x = []) : merged others h = others := by
  funext x
  exact if_pos (hrest x)

theorem rest_flushing (src : NodeID) (l : List Bytes) (x : NodeID) :
    (Handler.flushing src l).rest x = if src = x then l else [] := rfl

theorem Taken.of_nil (hsound : Sound others b) (hrest : ∀ x, h.rest x = [])
    (huncut : ∀ src lost, h ≠ .raised src lost) : Taken others (b, h) :=
  ⟨by rw [merged_of_nil hrest]; exact hsound, fun x => .inl (hrest x), huncut⟩

/-- **A flush goes on**: its first payload goes out under the live session. -/
theorem Taken.pour {l : List Bytes} (hsound : Sound (merged others (.flushing src l)) b)
    (hapart : l = [] ∨ others src = []) : Taken others (b.pour me src l) := by
  cases l with
  | nil =>
    rw [merged_of_nil fun x => by rw [rest_flushing]; split_ifs <;> rfl] at hsound
    exact .of_nil hsound (fun _ => rfl) (by simp)
  | cons payload rest =>
    have hothers : others src = [] := hapart.resolve_left (List.cons_ne_nil _ _)
    have howed : merged others (.flushing src (payload :: rest)) src = payload :: rest := by
      unfold merged
      rw [rest_flushing, if_pos rfl]
      exact if_neg (List.cons_ne_nil _ _)
    obtain ⟨hlive, hqueue⟩ := hsound.flushing src (by rw [howed]; exact List.cons_ne_nil _ _)
    obtain ⟨session, hsession⟩ := Dict.mem_keys.mp hlive
    rw [pour_of_live hsession]
    have hrest : ∀ x, x ≠ src → merged others (.flushing src rest) x = others x ∧
        merged others (.flushing src (payload :: rest)) x = others x := by
      intro x hx
      unfold merged
      rw [rest_flushing, rest_flushing, if_neg (Ne.symm hx), if_neg (Ne.symm hx)]
      exact ⟨if_pos rfl, if_pos rfl⟩
    have hself : merged others (.flushing src rest) src = rest := by
      unfold merged
      rw [rest_flushing, if_pos rfl]
      split_ifs with hnil
      · rw [hothers, hnil]
      · rfl
    refine ⟨⟨fun x => ?_, fun x hx => ?_, hsound.dialled, hsound.filled⟩, fun x => ?_, by simp⟩
    · show (b.note _).queuedFor x =
        (b.note _).settledFor x ++ merged others (.flushing src rest) x ++ b.queue x
      rw [queuedFor_note, settledFor_note]
      have hnone : [Note.flushed src payload (createEncrypted (K := K) me.id src payload session)].filterMap
          (Note.queuedFor x) = [] := rfl
      rw [hnone, List.append_nil, hsound.whole x]
      by_cases hx : x = src
      · subst hx
        rw [hself, howed]
        simp [Note.settledFor]
      · rw [(hrest x hx).1, (hrest x hx).2]
        simp [Note.settledFor, Ne.symm hx]
    · by_cases hxs : x = src
      · subst hxs
        exact ⟨hlive, hqueue⟩
      · refine hsound.flushing x ?_
        rw [(hrest x hxs).2, ← (hrest x hxs).1]
        exact hx
    · show (Handler.flushing src rest).rest x = [] ∨ others x = []
      rw [rest_flushing]
      split_ifs with hxs
      · exact .inr (hxs ▸ hothers)
      · exact .inl rfl

theorem Taken.drain (hsound : Sound others b)
    (hready : src ∈ b.tables.e2eSessions.keys ∨ b.queue src = []) : Taken others (b.drain me src) := by
  set b' := b.write { b.tables with e2ePendingData := b.tables.e2ePendingData.pop src } with hb'
  have hqueue : ∀ x, b'.queue x = if x = src then [] else b.queue x := by
    intro x
    show ((b.tables.e2ePendingData.pop src).get? x).getD [] = _
    split_ifs with hx
    · rw [hx, Dict.get?_pop_self]
      rfl
    · rw [Dict.get?_pop_of_ne _ hx]
      rfl
  -- where nothing is queued, the table has no queue to lose
  have hnone : b.queue src = [] → src ∉ b.tables.e2ePendingData.keys :=
    fun hnil hm => hsound.filled src hm hnil
  have hapart : b.queue src = [] ∨ others src = [] := by
    by_cases hm : src ∈ b.tables.e2ePendingData.keys
    · exact .inr (hsound.owed_of_queue hm)
    · exact .inl (queue_of_notMem hm)
  have howed : ∀ x, merged others (.flushing src (b.queue src)) x ++ b'.queue x = others x ++ b.queue x := by
    intro x
    unfold merged
    rw [rest_flushing, hqueue]
    by_cases hx : x = src
    · subst hx
      rw [if_pos rfl, if_pos rfl]
      split_ifs with hnil
      · rw [hnil]
      · rw [hapart.resolve_left hnil, List.append_nil, List.nil_append]
    · rw [if_neg (Ne.symm hx), if_pos rfl, if_neg hx]
  refine .pour ⟨fun x => ?_, fun x hx => ?_, fun x hx => ?_, fun x hx => ?_⟩ hapart
  · rw [List.append_assoc, howed, ← List.append_assoc]
    exact hsound.whole x
  · unfold merged at hx
    rw [rest_flushing] at hx
    by_cases hxs : x = src
    · subst hxs
      rw [if_pos rfl] at hx
      refine ⟨?_, fun hm => (Dict.mem_keys_pop.mp hm).2 rfl⟩
      split_ifs at hx with hnil
      · exact (hsound.flushing x hx).1
      · exact hready.resolve_right hnil
    · rw [if_neg (Ne.symm hxs), if_pos rfl] at hx
      obtain ⟨hl, hd⟩ := hsound.flushing x hx
      exact ⟨hl, fun hm => hd (Dict.mem_keys_pop.mp hm).1⟩
  · obtain ⟨hd, hl⟩ := hsound.dialled x hx
    refine ⟨Dict.mem_keys_pop.mpr ⟨hd, ?_⟩, hl⟩
    rintro rfl
    rcases hready with hlive | hnil
    · exact hl hlive
    · exact hnone hnil hd
  · obtain ⟨hd, hne⟩ := Dict.mem_keys_pop.mp hx
    rw [hqueue, if_neg hne]
    exact hsound.filled x hd

end Handlers

/-! ### The node -/

def owedBy (l : List Handler) (x : NodeID) : List Bytes := l.flatMap (Handler.rest x)

/-- **The invariant of a node**: at most one flush of a target has anything left. -/
structure Steady (n : Node K) : Prop where
  sound : Sound n.owed n.book
  alone : n.handlers.Pairwise fun h h' => ∀ x, h.rest x = [] ∨ h'.rest x = []
  uncut : n.Uncut

section Lists

variable {l A B : List Handler} {h : Handler}

theorem split_at {i : ℕ} (hi : l[i]? = some h) :
    ∃ A B, l = A ++ h :: B ∧ ∀ h', l.set i h' = A ++ h' :: B := by
  obtain ⟨hlt, hget⟩ := List.getElem?_eq_some_iff.mp hi
  refine ⟨l.take i, l.drop (i + 1), ?_, fun h' => List.set_eq_take_append_cons_drop.trans (if_pos hlt)⟩
  rw [← hget, List.getElem_cons_drop, List.take_append_drop]

theorem owedBy_insert (hapart : ∀ x, h.rest x = [] ∨ owedBy (A ++ B) x = []) :
    owedBy (A ++ h :: B) = merged (owedBy (A ++ B)) h := by
  funext x
  have hsplit : owedBy (A ++ h :: B) x = owedBy A x ++ (h.rest x ++ owedBy B x) := by
    simp [owedBy, List.flatMap_append]
  have hboth : owedBy (A ++ B) x = owedBy A x ++ owedBy B x := List.flatMap_append
  unfold merged
  rw [hsplit]
  split_ifs with hnil
  · rw [hnil, List.nil_append, hboth]
  · have hothers := (hapart x).resolve_left hnil
    rw [hboth, List.append_eq_nil_iff] at hothers
    rw [hothers.1, hothers.2, List.nil_append, List.append_nil]

theorem rest_of_owedBy {h' : Handler} (howed : owedBy l x = []) (hm : h' ∈ l) : h'.rest x = [] :=
  List.flatMap_eq_nil_iff.mp howed h' hm

theorem pairwise_insert (halone : (A ++ B).Pairwise fun h h' => ∀ x, h.rest x = [] ∨ h'.rest x = [])
    (hapart : ∀ x, h.rest x = [] ∨ owedBy (A ++ B) x = []) :
    (A ++ h :: B).Pairwise fun h h' => ∀ x, h.rest x = [] ∨ h'.rest x = [] := by
  obtain ⟨hA, hB, hAB⟩ := List.pairwise_append.mp halone
  refine List.pairwise_append.mpr
    ⟨hA, List.pairwise_cons.mpr ⟨fun h' hm x => ?_, hB⟩, fun h' hm h'' hm' x => ?_⟩
  · exact (hapart x).imp id fun howed => rest_of_owedBy howed (List.mem_append_right A hm)
  · rcases List.mem_cons.mp hm' with rfl | hm'
    · exact (hapart x).symm.imp (fun howed => rest_of_owedBy howed (List.mem_append_left B hm)) id
    · exact hAB h' hm h'' hm' x

theorem apart_of_pairwise
    (halone : (A ++ h :: B).Pairwise fun h h' => ∀ x, h.rest x = [] ∨ h'.rest x = []) :
    (∀ x, h.rest x = [] ∨ owedBy (A ++ B) x = []) ∧
      (A ++ B).Pairwise fun h h' => ∀ x, h.rest x = [] ∨ h'.rest x = [] := by
  refine ⟨fun x => ?_,
    halone.sublist (List.Sublist.append (List.Sublist.refl A) (List.sublist_cons_self h B))⟩
  obtain ⟨-, hB, hAB⟩ := List.pairwise_append.mp halone
  by_cases hrest : h.rest x = []
  · exact .inl hrest
  · refine .inr (List.flatMap_eq_nil_iff.mpr fun h' hm => ?_)
    rcases List.mem_append.mp hm with hm | hm
    · exact (hAB h' hm h List.mem_cons_self x).resolve_right hrest
    · exact ((List.pairwise_cons.mp hB).1 h' hm x).resolve_left hrest

end Lists

namespace Steady

variable {n : Node K} {me : Keys K} {env : Env K}

theorem insert {A B : List Handler} {w : Option (List NodeID)} {r : Book K × Handler}
    (halone : (A ++ B).Pairwise fun h h' => ∀ x, h.rest x = [] ∨ h'.rest x = [])
    (huncut : ∀ src lost, Handler.raised src lost ∉ A ++ B) (hr : Taken (owedBy (A ++ B)) r) :
    Steady (⟨r.1, A ++ r.2 :: B, w⟩ : Node K) := by
  refine ⟨?_, pairwise_insert halone hr.apart, fun src lost hm => ?_⟩
  · show Sound (owedBy (A ++ r.2 :: B)) r.1
    rw [owedBy_insert hr.apart]
    exact hr.sound
  · rcases List.mem_append.mp hm with hm | hm
    · exact huncut src lost (List.mem_append_left _ hm)
    · rcases List.mem_cons.mp hm with hm | hm
      · exact hr.uncut src lost hm.symm
      · exact huncut src lost (List.mem_append_right _ hm)

theorem spawn (h : Steady n) {r : Book K × Handler} (hr : Taken n.owed r) : Steady (n.spawn r) := by
  have hnil : n.handlers ++ [] = n.handlers := List.append_nil _
  refine insert (A := n.handlers) (B := []) (by rw [hnil]; exact h.alone) (by rw [hnil]; exact h.uncut) ?_
  rw [hnil]
  exact hr

theorem ofBook (h : Steady n) {b : Book K} (hb : Sound n.owed b) {w : Option (List NodeID)} :
    Steady { n with book := b, walk := w } := ⟨hb, h.alone, h.uncut⟩

theorem resume (h : Steady n) (i : ℕ) (hready : ∀ src, n.handlers[i]? = some (.answering src) →
    src ∈ n.book.tables.e2eSessions.keys ∨ n.book.queue src = []) : Steady (n.resume me i) := by
  unfold Node.resume
  cases hi : n.handlers[i]? with
  | none => exact h
  | some handler =>
    obtain ⟨A, B, hl, hset⟩ := split_at hi
    have halone := h.alone
    rw [hl] at halone
    obtain ⟨hapart, halone⟩ := apart_of_pairwise halone
    have huncut : ∀ src lost, Handler.raised src lost ∉ A ++ B := by
      intro src lost hm
      refine h.uncut src lost ?_
      rw [hl]
      exact (List.Sublist.append (List.Sublist.refl A) (List.sublist_cons_self handler B)).subset hm
    have hsound : Sound (merged (owedBy (A ++ B)) handler) n.book := by
      have hsound : Sound (owedBy n.handlers) n.book := h.sound
      rw [hl, owedBy_insert hapart] at hsound
      exact hsound
    have hsettle : ∀ r : Book K × Handler, Taken (owedBy (A ++ B)) r → Steady (n.settle i r) := by
      intro r hr
      unfold Node.settle
      rw [hset]
      exact insert halone huncut hr
    cases handler with
    | answering src =>
      rw [merged_of_nil fun _ => rfl] at hsound
      exact hsettle _ (.drain hsound (hready src hi))
    | flushing src rest =>
      refine hsettle _ (.pour hsound ((hapart src).imp (fun hrest => ?_) id))
      rw [rest_flushing, if_pos rfl] at hrest
      exact hrest
    | returned | raised src lost => exact h

/-- **The invariant is kept** by every stretch that takes nothing from under another. -/
theorem step (h : Steady n) (a : Env K × Act K) (hcalm : n.Calm me a) : Steady (n.step me a) := by
  obtain ⟨env, act⟩ := a
  cases act with
  | sendData target payload => exact h.ofBook (h.sound.sendData target payload)
  | handshake src payload =>
    obtain ⟨hsound, -⟩ := h.sound.answerHello me env payload hcalm
    refine h.spawn (.of_nil hsound (fun x => ?_) fun x lost => ?_)
    · split_ifs <;> rfl
    · split_ifs <;> exact Handler.noConfusion
  | handshakeAck src payload =>
    obtain ⟨hsound, hlive⟩ := h.sound.takeAnswer me env payload hcalm
    unfold Node.step
    dsimp only
    split_ifs with hflush
    · exact h.spawn (.drain hsound (.inl (hlive hflush)))
    · exact h.spawn (.of_nil hsound (fun _ => rfl) fun _ _ => Handler.noConfusion)
  | data packet => exact h.ofBook (h.sound.handleData packet)
  | resume i => exact h.resume i hcalm
  | wake =>
    unfold Node.step
    dsimp only
    cases n.walk with
    | some targets => exact h
    | none =>
      refine h.ofBook (h.sound.pruneAttempts.walkOn fun x hx => ?_)
      exact List.mem_of_find?_eq_some hx
  | walk =>
    unfold Node.step
    dsimp only
    cases hwalk : n.walk with
    | none => exact h
    | some targets => exact h.ofBook (h.sound.walkOn (hcalm targets hwalk))

end Steady

end NMesh.E2e.Handover
