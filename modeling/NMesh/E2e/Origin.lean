import NMesh.E2e.Outcome

/-! # Where the words of a node come from, end to end

Whatever its tables hold, a node says and files only what an event is the cause of (`Caused`), and it
waits for answers only to handshakes that it has sent (`Traced`). -/

namespace NMesh.E2e.Origin

open Base.BigEndian Base.Ordered NMesh.Cert.Identity NMesh.E2e.Session NMesh.E2e.Outcome

variable {K : Crypto}

/-! ### Tables that only lose -/

/-- No attempt and no candidate is new. -/
structure Fewer (t t' : Tables) : Prop where
  attempt : ∀ q n secret, Attempt t' q n secret → Attempt t q n secret
  cand : ∀ q v, cand t' q = some v → cand t q = some v

namespace Fewer

variable {t t' t'' : Tables}

theorem refl (t : Tables) : Fewer t t := ⟨fun _ _ _ h => h, fun _ _ h => h⟩

theorem trans (h : Fewer t t') (h' : Fewer t' t'') : Fewer t t'' :=
  ⟨fun q n s ha => h.attempt q n s (h'.attempt q n s ha), fun q v hc => h.cand q v (h'.cand q v hc)⟩

theorem drop (t : Tables) (src : NodeID) : Fewer t (t.e2eDropAttempts src) :=
  ⟨fun _ _ _ h => attempt_drop h, fun _ _ h => h⟩

theorem popRekey (t : Tables) (src : NodeID) : Fewer t { t with e2eRekey := t.e2eRekey.pop src } := by
  exact ⟨fun _ _ _ h => h, fun q v h => (Dict.get?_of_pop h).2⟩

theorem forget (t : Tables) (target : NodeID) : Fewer t (t.forgetE2e target) := by
  have hpop : Fewer t { t with
      e2eSessions := t.e2eSessions.pop target
      e2ePendingKem := t.e2ePendingKem.pop target
      e2ePendingNonce := t.e2ePendingNonce.pop target
      e2ePendingData := t.e2ePendingData.pop target
      e2eAttempt := t.e2eAttempt.pop target
      e2eRekey := t.e2eRekey.pop target } :=
    ⟨fun _ _ _ h => attempt_pop h, fun q v h => (popRekey t target).cand q v h⟩
  exact hpop.trans (drop _ target)

theorem evict : ∀ (n : ℕ) (t : Tables), Fewer t (Tables.evictSessions n t)
  | 0, t => refl t
  | n + 1, t => by
    unfold Tables.evictSessions
    split_ifs
    · split
      · exact refl t
      · exact (forget t _).trans (evict n _)
    · exact refl t

theorem keep (t : Tables) (src : NodeID) (session : Bytes) : Fewer t (t.keepE2eSession src session) := by
  unfold Tables.keepE2eSession
  split_ifs
  · exact ⟨fun _ _ _ h => h, fun _ _ h => h⟩
  · exact (evict _ t).trans ⟨fun _ _ _ h => h, fun _ _ h => h⟩

theorem enqueue (t : Tables) (target : NodeID) (payload : Bytes) :
    Fewer t (Turn.enqueue target payload t) := by
  have hset : ∀ t' d, Fewer t t' → Fewer t { t' with e2ePendingData := d } :=
    fun _ _ h => h.trans ⟨fun _ _ _ h => h, fun _ _ h => h⟩
  unfold Turn.enqueue
  by_cases hroom : target ∉ t.e2ePendingData.keys ∧ maxPendingTargets ≤ t.e2ePendingData.size
  · rw [if_pos hroom]
    cases t.e2ePendingData.keys.head? with
    | none => exact hset t _ (refl t)
    | some oldest => exact hset _ _ (forget t oldest)
  · rw [if_neg hroom]
    exact hset t _ (refl t)

theorem asked (t : Tables) (src : NodeID) (n : Bytes) (now : ℚ) :
    Fewer t (t.e2eAttemptSecret src n now).2 := by
  rcases attemptSecret_tables (t := t) src n now with he | he <;> rw [he]
  · exact refl t
  · exact ⟨fun _ _ _ h => attempt_pop_replaced h, fun _ _ h => h⟩

theorem rekeyGet (t : Tables) (src : NodeID) (now : ℚ) : Fewer t (t.e2eRekeyGet src now).2 := by
  unfold Tables.e2eRekeyGet
  split
  · exact refl t
  · split_ifs
    · exact popRekey t src
    · exact refl t

end Fewer

/-! ### What an event is the cause of -/

section Caused

variable (me : Keys K) (env : Env K) (t : Tables)

/-- What an event makes a node do: it starts an attempt, it answers a handshake with the key that it goes
on to file or park, it takes the answer to an attempt, or it makes a candidate live. -/
inductive Caused : Event K → Effect K → List (Effect K) → Prop
  | hello (event : Event K) (target : NodeID) (chain : List (Certificate K)) (out : List (Effect K)) :
      Caused event (.sent ⟨me.id, target, .handshake (some ⟨env.urandom, env.kemPair.1,
        me.dsaPublicKey, chain, me.sign (env.urandom ++ env.kemPair.1 ++ me.dsaPublicKey)⟩)⟩) out
  | answer (x dst : NodeID) (hello : Hello K) (ciphertext shared : Bytes) (chain : List (Certificate K))
      (out : List (Effect K)) (hkem : env.kemEncapsulate hello.kemPub = some (ciphertext, shared))
      (hkey : .filed x shared ∈ out ∨ .parked x shared ∈ out) :
      Caused (.packet ⟨x, dst, .handshake (some hello)⟩) (.sent ⟨me.id, x, .handshakeAck (some
        ⟨hello.nonce, ciphertext, me.dsaPublicKey, chain,
          me.sign (hello.nonce ++ ciphertext ++ me.dsaPublicKey)⟩)⟩) out
  | answered (x dst : NodeID) (hello : Hello K) (ciphertext shared : Bytes) (e : Effect K)
      (out : List (Effect K)) (hchecks : Turn.helloChecks env x hello = true)
      (hkem : env.kemEncapsulate hello.kemPub = some (ciphertext, shared))
      (he : e = .filed x shared ∨ e = .parked x shared) :
      Caused (.packet ⟨x, dst, .handshake (some hello)⟩) e out
  | adopted (x dst : NodeID) (answer : Answer K) (secret shared : Bytes) (out : List (Effect K))
      (hchecks : Turn.answerChecks env x answer = true) (hwaiting : Attempt t x answer.nonce secret)
      (hkem : me.kemDecapsulate answer.ciphertext secret = some shared) :
      Caused (.packet ⟨x, dst, .handshakeAck (some answer)⟩) (.filed x shared) out
  | promoted (event : Event K) (x : NodeID) (key : Bytes) (exp : ℚ) (out : List (Effect K))
      (hcand : cand t x = some (key, exp)) : Caused event (.filed x key) out
  | data (event : Event K) (x : NodeID) (plaintext session : Bytes) (out : List (Effect K)) :
      Caused event (.sent (createEncrypted me.id x plaintext session)) out
  | delivered (event : Event K) (x : NodeID) (plaintext : Bytes) (out : List (Effect K)) :
      Caused event (.delivered x plaintext) out

/-- What an event leaves: attempts and candidates that it has started, and words that it caused. -/
structure Traced (event : Event K) (t' : Turn K) : Prop where
  attempt : ∀ q n secret, Attempt t'.tables q n secret → Attempt t q n secret ∨
    n = env.urandom ∧ secret = env.kemPair.2 ∧ ∃ chain, .sent ⟨me.id, q, .handshake (some
      ⟨env.urandom, env.kemPair.1, me.dsaPublicKey, chain,
        me.sign (env.urandom ++ env.kemPair.1 ++ me.dsaPublicKey)⟩)⟩ ∈ t'.out
  cand : ∀ q key exp, cand t'.tables q = some (key, exp) →
    cand t q = some (key, exp) ∨ .parked q key ∈ t'.out
  out : ∀ e ∈ t'.out, Caused me env t event e t'.out

end Caused

section Handlers

variable {me : Keys K} {env : Env K} {event : Event K} {t t' : Tables} {out : List (Effect K)}

theorem Fewer.say (h : Fewer t t') (hout : ∀ e ∈ out, Caused me env t event e out) :
    Traced me env t event ⟨t', out⟩ :=
  ⟨fun q n s ha => .inl (h.attempt q n s ha), fun q _ _ hc => .inl (h.cand q _ hc), hout⟩

theorem Fewer.traced (h : Fewer t t') : Traced me env t event ⟨t', []⟩ := h.say (by simp)

theorem initiate_traced (target : NodeID) (h : Fewer t t') :
    Traced me env t event (Turn.initiateE2eHandshake me env target (⟨t', []⟩ : Turn K)) := by
  unfold Turn.initiateE2eHandshake
  split
  · exact h.traced
  · next chain _ =>
    obtain ⟨replaced, hkeep⟩ := keep_fields t' target env.monotonic
    have hlate : ∀ q n secret, (∃ exp, replaced.get? (q, n) = some (secret, exp)) →
        Attempt t' q n secret := by
      intro q n secret hr
      refine attempt_keep target env.monotonic ?_
      rw [hkeep]
      exact hr
    dsimp only
    rw [hkeep]
    refine ⟨fun q n secret ha => ?_, fun q _ _ hc => .inl (h.cand q _ hc), ?_⟩
    · rcases ha with ⟨hn, hs⟩ | hr
      · change (t'.e2ePendingNonce.set target env.urandom).get? q = some n at hn
        change (t'.e2ePendingKem.set target env.kemPair.2).get? q = some secret at hs
        rw [Dict.get?_set] at hn hs
        split_ifs at hn hs with hq
        · obtain rfl := hq
          refine .inr ⟨(Option.some.inj hn).symm, (Option.some.inj hs).symm, chain, ?_⟩
          exact List.mem_singleton_self _
        · exact .inl (h.attempt q n secret (.inl ⟨hn, hs⟩))
      · exact .inl (h.attempt q n secret (hlate q n secret hr))
    · intro e he
      obtain rfl := List.mem_singleton.mp he
      exact .hello event target chain _

theorem Caused.mono {e : Effect K} {out' : List (Effect K)} (h : Caused me env t event e out)
    (hsub : out ⊆ out') : Caused me env t event e out' := by
  cases h with
  | hello event target chain _ => exact .hello event target chain _
  | answer x dst hello ciphertext shared chain _ hkem hkey =>
    exact .answer x dst hello ciphertext shared chain _ hkem (hkey.imp (@hsub _) (@hsub _))
  | answered x dst hello ciphertext shared _ _ hchecks hkem he =>
    exact .answered x dst hello ciphertext shared _ _ hchecks hkem he
  | adopted x dst answer secret shared _ hchecks hwaiting hkem =>
    exact .adopted x dst answer secret shared _ hchecks hwaiting hkem
  | promoted event x key exp _ hcand => exact .promoted event x key exp _ hcand
  | data event x plaintext session _ => exact .data event x plaintext session _
  | delivered event x plaintext _ => exact .delivered event x plaintext _

theorem Traced.more (h : Traced me env t event ⟨t', out⟩) {t'' : Tables} (hfewer : Fewer t' t'')
    {es : List (Effect K)} (hes : ∀ e ∈ es, Caused me env t event e (out ++ es)) :
    Traced me env t event ⟨t'', out ++ es⟩ := by
  refine ⟨fun q n secret ha => ?_, fun q key exp hc => ?_, fun e he => ?_⟩
  · refine (h.attempt q n secret (hfewer.attempt q n secret ha)).imp_right ?_
    rintro ⟨hn, hs, chain, hmem⟩
    exact ⟨hn, hs, chain, List.mem_append_left _ hmem⟩
  · exact (h.cand q key exp (hfewer.cand q _ hc)).imp_right (List.mem_append_left _)
  · rcases List.mem_append.mp he with he | he
    · exact (h.out e he).mono (List.subset_append_left _ _)
    · exact hes e he

theorem Traced.flush (h : Traced me env t event ⟨t', out⟩) (src : NodeID) :
    Traced me env t event (Turn.flush me src (⟨t', out⟩ : Turn K)) := by
  unfold Turn.flush
  split
  · exact h
  · next session _ =>
    have hdata : Fewer t' { t' with e2ePendingData := t'.e2ePendingData.pop src } :=
      ⟨fun _ _ _ ha => ha, fun _ _ hc => hc⟩
    refine h.more hdata fun e he => ?_
    obtain ⟨payload, -, rfl⟩ := List.mem_map.mp he
    exact .data event src payload session _

theorem sendData_traced (target : NodeID) (payload : Bytes) :
    Traced me env t event (Turn.sendData me env target payload (⟨t, []⟩ : Turn K)) := by
  unfold Turn.sendData
  split_ifs
  · exact (Fewer.refl t).traced
  · split
    · next session _ =>
      refine (Fewer.refl t).say fun e he => ?_
      obtain rfl := List.mem_singleton.mp he
      exact .data event target payload session _
    · dsimp only
      split_ifs
      · exact initiate_traced target (Fewer.enqueue t target payload)
      · exact (Fewer.enqueue t target payload).traced

theorem retry_traced (target : NodeID) :
    Traced me env t event (Turn.retry me env target (⟨t, []⟩ : Turn K)) := by
  unfold Turn.retry
  split_ifs
  · exact initiate_traced target (Fewer.refl t)
  · exact (Fewer.refl t).traced

theorem park_cand {src q : NodeID} {candidate : Bytes} {now : ℚ} {v : Bytes × ℚ}
    (h : cand (t.e2eRekeyStore src candidate now) q = some v) :
    q = src ∧ v.1 = candidate ∨ cand t q = some v := by
  have hlive : ∀ {q v}, (t.e2eRekey.filterVal fun v => decide (now < v.2)).get? q = some v →
      t.e2eRekey.get? q = some v := by
    intro q v hv
    rw [Dict.get?_filterVal, Option.filter_eq_some_iff] at hv
    exact hv.1
  unfold Tables.e2eRekeyStore cand at h
  dsimp only at h
  rcases Dict.get?_of_set h with ⟨hq, rfl⟩ | ⟨-, h⟩
  · exact .inl ⟨hq, rfl⟩
  split_ifs at h
  all_goals right
  · exact hlive h
  · split at h
    · exact hlive h
    · exact hlive (Dict.get?_of_pop h).2
  · exact hlive h

theorem handshake_traced (x dst : NodeID) (payload : Option (Hello K)) :
    Traced me env t (.packet ⟨x, dst, .handshake payload⟩)
      (Turn.handleE2eHandshake me env x payload (⟨t, []⟩ : Turn K)) := by
  unfold Turn.handleE2eHandshake
  split
  · exact (Fewer.refl t).traced
  next hello =>
    split_ifs with hchecks hglare
    · exact (Fewer.refl t).traced
    · exact (Fewer.refl t).traced
    have hchecks : Turn.helloChecks env x hello = true := by simpa using hchecks
    have hpop : Fewer t { t with
        e2ePendingNonce := t.e2ePendingNonce.pop x
        e2ePendingKem := t.e2ePendingKem.pop x } := ⟨fun _ _ _ ha => attempt_pop ha, fun _ _ hc => hc⟩
    dsimp only
    split
    · next chain ciphertext shared _ hkem =>
      have hanswer : ∀ e : Effect K, e = .filed x shared ∨ e = .parked x shared → ∀ t' : Tables,
          Traced me env t (.packet ⟨x, dst, .handshake (some hello)⟩) ⟨t', [e]⟩ →
          Traced me env t (.packet ⟨x, dst, .handshake (some hello)⟩)
            (Turn.flush me x ((⟨t', [e]⟩ : Turn K).emit (.sent ⟨me.id, x, .handshakeAck (some
              ⟨hello.nonce, ciphertext, me.dsaPublicKey, chain,
                me.sign (hello.nonce ++ ciphertext ++ me.dsaPublicKey)⟩)⟩))) := by
        intro e he t' h
        refine Traced.flush (h.more (Fewer.refl t') fun e' he' => ?_) x
        obtain rfl := List.mem_singleton.mp he'
        refine .answer x dst hello ciphertext shared chain _ hkem ?_
        rcases he with rfl | rfl
        · exact .inl List.mem_cons_self
        · exact .inr List.mem_cons_self
      split_ifs
      · refine hanswer _ (.inr rfl) _ ⟨fun q n s ha => .inl (hpop.attempt q n s ha), fun q key exp hc => ?_,
          fun e he => ?_⟩
        · rcases park_cand hc with ⟨rfl, rfl⟩ | hc
          · exact .inr List.mem_cons_self
          · exact .inl (hpop.cand q _ hc)
        · obtain rfl := List.mem_singleton.mp he
          exact .answered x dst hello ciphertext shared _ _ hchecks hkem (.inr rfl)
      · refine hanswer _ (.inl rfl) _ ((hpop.trans (.keep _ x shared)).say fun e he => ?_)
        obtain rfl := List.mem_singleton.mp he
        exact .answered x dst hello ciphertext shared _ _ hchecks hkem (.inl rfl)
    · exact hpop.traced

theorem handshakeAck_traced (x dst : NodeID) (payload : Option (Answer K)) :
    Traced me env t (.packet ⟨x, dst, .handshakeAck payload⟩)
      (Turn.handleE2eHandshakeAck me env x payload (⟨t, []⟩ : Turn K)) := by
  unfold Turn.handleE2eHandshakeAck
  split
  · exact (Fewer.refl t).traced
  next answer =>
    have hasked := Fewer.asked t x answer.nonce env.monotonic
    dsimp only
    cases hask : t.e2eAttemptSecret x answer.nonce env.monotonic with
    | mk secret tables =>
    rw [hask] at hasked
    cases secret with
    | none => exact hasked.traced
    | some secret =>
      have hsecret : (t.e2eAttemptSecret x answer.nonce env.monotonic).1 = some secret := by rw [hask]
      have hwaiting := (of_attemptSecret hsecret).1
      dsimp only
      split_ifs with hchecks
      · exact hasked.traced
      have hdropped : Fewer t (tables.e2eDropAttempts x) := hasked.trans (.drop tables x)
      split
      · exact hdropped.traced
      · next shared hkem =>
        refine Traced.flush ((hdropped.trans (.keep _ x shared)).say fun e he => ?_) x
        obtain rfl := List.mem_singleton.mp he
        exact .adopted x dst answer secret shared _ (by simpa using hchecks) hwaiting hkem

theorem of_rekeyGet {src : NodeID} {now : ℚ} {candidate : Bytes}
    (h : (t.e2eRekeyGet src now).1 = some candidate) : ∃ exp, cand t src = some (candidate, exp) := by
  unfold Tables.e2eRekeyGet at h
  split at h
  · cases h
  · next session exp hget =>
    split_ifs at h
    cases h
    exact ⟨exp, hget⟩

theorem data_traced (packet : Packet K) :
    Traced me env t event (Turn.handleData env packet (⟨t, []⟩ : Turn K)) := by
  have hdelivered : ∀ plaintext es, ∀ e ∈ [.delivered packet.srcId plaintext],
      Caused me env t event e es := by
    intro plaintext es e he
    obtain rfl := List.mem_singleton.mp he
    exact .delivered event packet.srcId plaintext es
  unfold Turn.handleData
  dsimp only
  split
  · exact (Fewer.refl t).traced
  split
  · next plaintext _ =>
    exact (Fewer.refl t).say (hdelivered plaintext _)
  have hget := Fewer.rekeyGet t packet.srcId env.monotonic
  cases hcand : t.e2eRekeyGet packet.srcId env.monotonic with
  | mk candidate tables =>
  rw [hcand] at hget
  cases candidate with
  | none => exact hget.traced
  | some candidate =>
    have hfound : (t.e2eRekeyGet packet.srcId env.monotonic).1 = some candidate := by rw [hcand]
    obtain ⟨exp, hexp⟩ := of_rekeyGet hfound
    dsimp only
    split
    · exact hget.traced
    · next plaintext _ =>
      have hfile : Traced me env t event
          ⟨tables.keepE2eSession packet.srcId candidate, [.filed packet.srcId candidate]⟩ := by
        refine (hget.trans (.keep _ packet.srcId candidate)).say fun e he => ?_
        obtain rfl := List.mem_singleton.mp he
        exact .promoted event packet.srcId candidate exp _ hexp
      exact hfile.more (.popRekey _ packet.srcId) (hdelivered plaintext _)

variable (me env event t) in
theorem act_traced : Traced me env t event (act me env event t) := by
  cases event with
  | sendData target payload => exact sendData_traced target payload
  | pruneAttempts =>
    exact Fewer.traced ⟨fun _ _ _ ha => ha, fun _ _ hc => hc⟩
  | retry target => exact retry_traced target
  | packet packet =>
    obtain ⟨x, dst, body⟩ := packet
    cases body with
    | handshake payload => exact handshake_traced x dst payload
    | handshakeAck payload => exact handshakeAck_traced x dst payload
    | data payload => exact data_traced ⟨x, dst, .data payload⟩

end Handlers

end NMesh.E2e.Origin
