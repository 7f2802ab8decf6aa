import NMesh.E2e.Session

/-! # What an event does to one relationship

Seen from one node, its relationship with another is a live key, a nonce in flight, a candidate and the
attempts that may still be answered. In the tables of a node that knows only one other (`Only`) no bound is
ever reached, and an event has one of five outcomes (`Outcome`): the relationship stays as it is, an
attempt starts, a handshake is answered, an answer is taken, or a candidate goes live. -/

namespace NMesh.E2e.Outcome

open Base.BigEndian Base.Ordered NMesh.Cert.Identity NMesh.E2e.Session

variable {K : Crypto}

def live (t : Tables) (q : NodeID) : Option Bytes := t.e2eSessions.get? q

def nonce (t : Tables) (q : NodeID) : Option Bytes := t.e2ePendingNonce.get? q

def cand (t : Tables) (q : NodeID) : Option (Bytes × ℚ) := t.e2eRekey.get? q

/-- An attempt that may still be answered, with its ML-KEM secret. -/
def Attempt (t : Tables) (q : NodeID) (n secret : Bytes) : Prop :=
  nonce t q = some n ∧ t.e2ePendingKem.get? q = some secret ∨
    ∃ exp, t.e2eReplacedKem.get? (q, n) = some (secret, exp)

def sent : Effect K → Option (Packet K)
  | .sent packet => some packet
  | _ => none

/-- The tables know one other node. -/
structure Only (q : NodeID) (t : Tables) : Prop where
  sessions : ∀ n ∈ t.e2eSessions.keys, n = q
  data : ∀ n ∈ t.e2ePendingData.keys, n = q
  rekey : ∀ n ∈ t.e2eRekey.keys, n = q

/-! ### The tables of one other node -/

section Tables

variable {t : Tables} {q : NodeID}

theorem size_le_one {κ ν : Type} [DecidableEq κ] {d : Dict κ ν} {k : κ} (h : ∀ k' ∈ d.keys, k' = k) :
    d.size ≤ 1 := by
  rw [Dict.size_eq]
  have hsub : d.keys ⊆ [k] := fun k' hk' => List.mem_singleton.mpr (h k' hk')
  exact (List.subperm_of_subset d.nodup_keys hsub).length_le

theorem Only.keep (h : Only q t) (session : Bytes) :
    t.keepE2eSession q session = { t with e2eSessions := t.e2eSessions.set q session } := by
  unfold Tables.keepE2eSession
  split_ifs with hq
  · rfl
  · have hevict : ∀ n, Tables.evictSessions n t = t := fun n => by
      have hsize := size_le_one h.sessions
      cases n with
      | zero => rfl
      | succ n =>
        rw [Tables.evictSessions, if_neg]
        unfold maxE2eSessions
        omega
    rw [hevict]

theorem Only.set_sessions (h : Only q t) (session : Bytes) :
    Only q { t with e2eSessions := t.e2eSessions.set q session } :=
  ⟨fun n hn => (Dict.mem_keys_set.mp hn).elim id (h.sessions n), h.data, h.rekey⟩

theorem Only.rekeyStore (h : Only q t) (candidate : Bytes) (now : ℚ) :
    ∃ rekey, t.e2eRekeyStore q candidate now = { t with e2eRekey := rekey } ∧
      rekey.get? q = some (candidate, now + e2eRekeyTtl) ∧ ∀ n ∈ rekey.keys, n = q := by
  refine ⟨_, rfl, Dict.get?_set_self _ _ _, fun n hn => ?_⟩
  rcases Dict.mem_keys_set.mp hn with hn | hn
  · exact hn
  · have hlive : ∀ k ∈ (t.e2eRekey.filterVal fun v => decide (now < v.2)).keys, k = q :=
      fun k hk => h.rekey k (Dict.keys_of_filterVal hk)
    have hsize := size_le_one hlive
    have hfull : ¬ e2eRekeyMax ≤ (t.e2eRekey.filterVal fun v => decide (now < v.2)).size := by
      unfold e2eRekeyMax
      omega
    rw [if_neg hfull, ite_self] at hn
    exact hlive n hn

theorem Only.enqueue (h : Only q t) (payload : Bytes) :
    ∃ data, Turn.enqueue q payload t = { t with e2ePendingData := data } ∧ ∀ n ∈ data.keys, n = q := by
  have hsize := size_le_one h.data
  have hfull : ¬ (q ∉ t.e2ePendingData.keys ∧ maxPendingTargets ≤ t.e2ePendingData.size) := by
    unfold maxPendingTargets
    omega
  unfold Turn.enqueue
  rw [if_neg hfull]
  exact ⟨_, rfl, fun n hn => (Dict.mem_keys_set.mp hn).elim id (h.data n)⟩

theorem Only.set_data (h : Only q t) {data : Dict NodeID (List Bytes)} (hd : ∀ n ∈ data.keys, n = q) :
    Only q { t with e2ePendingData := data } := ⟨h.sessions, hd, h.rekey⟩

end Tables

/-! ### The outcomes -/

def OnlyData (me : Keys K) (q : NodeID) (key : Option Bytes) (out : List (Effect K)) : Prop :=
  ∀ p ∈ out.filterMap sent, ∃ session plaintext, key = some session ∧
    p = createEncrypted me.id q plaintext session

section Outcomes

variable (me : Keys K) (env : Env K) (q : NodeID) (t : Tables) (t' : Turn K)

/-- The keys stay; a candidate that has run out, or an attempt that gives way, may be forgotten. -/
structure Idle : Prop where
  live : live t'.tables q = live t q
  cand : cand t'.tables q = cand t q ∨
    cand t'.tables q = none ∧ ∃ key exp, cand t q = some (key, exp) ∧ exp ≤ env.monotonic
  nonce : nonce t'.tables q = nonce t q ∨ nonce t'.tables q = none ∧ Turn.glare me q t = false
  attempt : ∀ n secret, Attempt t'.tables q n secret → Attempt t q n secret
  out : OnlyData me q (Outcome.live t q) t'.out

/-- An attempt starts. -/
structure Initiates : Prop where
  dead : live t q = none
  live : live t'.tables q = none
  cand : cand t'.tables q = cand t q
  nonce : nonce t'.tables q = some env.urandom
  attempt : ∀ n secret, Attempt t'.tables q n secret →
    n = env.urandom ∧ secret = env.kemPair.2 ∨ Attempt t q n secret
  out : ∃ hello, t'.out.filterMap sent = [⟨me.id, q, .handshake (some hello)⟩] ∧
    hello.nonce = env.urandom ∧ hello.kemPub = env.kemPair.1

/-- A handshake is answered: the key goes live, or is parked beside the live one. -/
structure Responds (hello : Hello K) (ciphertext shared : Bytes) : Prop where
  checks : Turn.helloChecks env q hello = true
  glare : Turn.glare me q t = false
  chain : (env.chainOf me.id).isSome
  kem : env.kemEncapsulate hello.kemPub = some (ciphertext, shared)
  live : live t'.tables q = some ((Outcome.live t q).getD shared)
  cand : cand t'.tables q =
    if (Outcome.live t q).isSome then some (shared, env.monotonic + e2eRekeyTtl) else cand t q
  nonce : nonce t'.tables q = none
  attempt : ∀ n secret, Attempt t'.tables q n secret → Attempt t q n secret
  out : ∀ p ∈ t'.out.filterMap sent,
    (∃ answer, p = ⟨me.id, q, .handshakeAck (some answer)⟩ ∧ answer.nonce = hello.nonce ∧
      answer.ciphertext = ciphertext) ∨
    ∃ plaintext, p = createEncrypted me.id q plaintext ((Outcome.live t q).getD shared)

/-- An answer is taken. -/
structure Adopts (answer : Answer K) (secret shared : Bytes) : Prop where
  waiting : (t.e2eAttemptSecret q answer.nonce env.monotonic).1 = some secret
  checks : Turn.answerChecks env q answer = true
  kem : me.kemDecapsulate answer.ciphertext secret = some shared
  live : live t'.tables q = some shared
  cand : cand t'.tables q = cand t q
  nonce : nonce t'.tables q = none
  attempt : ∀ n secret, Attempt t'.tables q n secret → Attempt t q n secret
  out : OnlyData me q (some shared) t'.out

/-- An answer that ML-KEM does not open spends the attempts. -/
structure Spoils (answer : Answer K) (secret : Bytes) : Prop where
  waiting : (t.e2eAttemptSecret q answer.nonce env.monotonic).1 = some secret
  kem : me.kemDecapsulate answer.ciphertext secret = none

/-- A candidate goes live on the first data it opens. -/
structure Promotes (packet : Packet K) (key : Bytes) : Prop where
  cand : ∃ exp, cand t q = some (key, exp) ∧ env.monotonic < exp
  opens : packet.decryptPayload key ≠ none
  closed : ∃ session, Outcome.live t q = some session ∧ packet.decryptPayload session = none
  live : live t'.tables q = some key
  gone : Outcome.cand t'.tables q = none
  nonce : nonce t'.tables q = nonce t q
  attempt : ∀ n secret, Attempt t'.tables q n secret → Attempt t q n secret
  out : t'.out.filterMap sent = []

end Outcomes

/-! ### The handlers -/

section Handlers

variable {me : Keys K} {env : Env K} {q : NodeID} {t : Tables} {out : List (Effect K)}

theorem onlyData_nil (key : Option Bytes) : OnlyData me q key [] := by
  simp [OnlyData]

theorem idle_refl (t : Tables) : Idle me env q t ⟨t, []⟩ :=
  ⟨rfl, .inl rfl, .inl rfl, fun _ _ h => h, onlyData_nil _⟩

variable {n secret : Bytes}

theorem attempt_pop {src : NodeID} (h : Attempt { t with
      e2ePendingNonce := t.e2ePendingNonce.pop src
      e2ePendingKem := t.e2ePendingKem.pop src } q n secret) : Attempt t q n secret := by
  rcases h with ⟨hn, hs⟩ | h
  · exact .inl ⟨(Dict.get?_of_pop hn).2, (Dict.get?_of_pop hs).2⟩
  · exact .inr h

theorem attempt_drop {src : NodeID}
    (h : Attempt (t.e2eDropAttempts src) q n secret) : Attempt t q n secret := by
  have hpop : Attempt { t with
      e2ePendingNonce := t.e2ePendingNonce.pop src
      e2ePendingKem := t.e2ePendingKem.pop src } q n secret := by
    refine h.imp id ?_
    rintro ⟨exp, hr⟩
    have hr : (t.e2eReplacedKem.filterKeys fun key => decide (key.1 ≠ src)).get? (q, n) =
      some (secret, exp) := hr
    rw [Dict.get?_filterKeys] at hr
    split_ifs at hr
    exact ⟨exp, hr⟩
  exact attempt_pop hpop

theorem attempt_keep (target : NodeID) (now : ℚ)
    (h : ∃ exp, (t.e2eKeepReplacedAttempt target now).e2eReplacedKem.get? (q, n) = some (secret, exp)) :
    Attempt t q n secret := by
  obtain ⟨exp, h⟩ := h
  unfold Tables.e2eKeepReplacedAttempt at h
  split at h
  · next n0 s0 hn0 hs0 =>
    dsimp only at h
    rw [Dict.get?_set] at h
    split_ifs at h with heq
    · cases heq
      obtain ⟨rfl, -⟩ := Prod.mk.inj (Option.some.inj h)
      exact .inl ⟨hn0, hs0⟩
    · have h := Dict.get?_of_makeRoom h
      rw [Dict.get?_filterVal, Option.filter_eq_some_iff] at h
      exact .inr ⟨exp, h.1⟩
  · exact .inr ⟨exp, h⟩

theorem keep_fields (t : Tables) (target : NodeID) (now : ℚ) :
    ∃ replaced, t.e2eKeepReplacedAttempt target now = { t with e2eReplacedKem := replaced } := by
  unfold Tables.e2eKeepReplacedAttempt
  split
  · exact ⟨_, rfl⟩
  · exact ⟨_, rfl⟩

theorem initiate_outcome (h : Only q t) (hdead : live t q = none) :
    let t' := Turn.initiateE2eHandshake me env q (⟨t, []⟩ : Turn K)
    Only q t'.tables ∧ (Idle me env q t t' ∨ Initiates me env q t t') := by
  unfold Turn.initiateE2eHandshake
  split
  · exact ⟨h, .inl (idle_refl t)⟩
  · next chain _ =>
    obtain ⟨replaced, hkeep⟩ := keep_fields t q env.monotonic
    have hlate : ∀ n secret, (∃ exp, replaced.get? (q, n) = some (secret, exp)) →
        Attempt t q n secret := by
      intro n secret hr
      refine attempt_keep q env.monotonic ?_
      rw [hkeep]
      exact hr
    dsimp only
    rw [hkeep]
    refine ⟨⟨h.sessions, h.data, h.rekey⟩, .inr ⟨hdead, hdead, rfl, Dict.get?_set_self _ _ _, ?_, _, rfl, rfl,
      rfl⟩⟩
    rintro n secret (⟨hn, hs⟩ | hr)
    · left
      have hn : (t.e2ePendingNonce.set q env.urandom).get? q = some n := hn
      have hs : (t.e2ePendingKem.set q env.kemPair.2).get? q = some secret := hs
      rw [Dict.get?_set_self, Option.some.injEq] at hn hs
      exact ⟨hn.symm, hs.symm⟩
    · exact .inr (hlate n secret hr)

variable (me out) in
theorem flush_spec (h : Only q t) (session : Bytes) (hlive : live t q = some session) :
    let t' := Turn.flush me q (⟨t, out⟩ : Turn K)
    Only q t'.tables ∧ (∃ data, t'.tables = { t with e2ePendingData := data }) ∧
      ∃ more, t'.out = out ++ more ∧ OnlyData me q (some session) more := by
  have hlive : t.e2eSessions.get? q = some session := hlive
  simp only [Turn.flush, hlive]
  refine ⟨h.set_data fun n hn => ?_, ⟨_, rfl⟩, _, rfl, fun p hp => ?_⟩
  · exact h.data n (Dict.mem_keys_pop.mp hn).1
  · obtain ⟨e, he, hp⟩ := List.mem_filterMap.mp hp
    obtain ⟨payload, -, rfl⟩ := List.mem_map.mp he
    exact ⟨session, payload, rfl, (Option.some.inj hp).symm⟩

theorem flush_answer (h : Only q t) (session : Bytes) (hlive : live t q = some session) {e : Effect K}
    (he : sent e = none) (answer : Packet K) :
    let t' := Turn.flush me q ((⟨t, [e]⟩ : Turn K).emit (.sent answer))
    Only q t'.tables ∧ (∃ data, t'.tables = { t with e2ePendingData := data }) ∧
      ∀ p ∈ t'.out.filterMap sent,
        p = answer ∨ ∃ plaintext, p = createEncrypted me.id q plaintext session := by
  obtain ⟨hkept, hdata, more, hmore, hsealed⟩ :=
    flush_spec me [e, .sent answer] h session hlive
  refine ⟨hkept, hdata, fun p hp => ?_⟩
  have hmore : (Turn.flush me q ((⟨t, [e]⟩ : Turn K).emit (.sent answer))).out =
    [e, .sent answer] ++ more := hmore
  rw [hmore, List.filterMap_append] at hp
  rcases List.mem_append.mp hp with hp | hp
  · left
    simp only [List.filterMap_cons, he, List.filterMap_nil] at hp
    exact List.mem_singleton.mp hp
  · obtain ⟨session', plaintext, hsession, hp⟩ := hsealed p hp
    cases hsession
    exact .inr ⟨plaintext, hp⟩

variable (me env) in
theorem sendData_outcome (h : Only q t) (hq : q ≠ me.id) (payload : Bytes) :
    let t' := Turn.sendData me env q payload (⟨t, []⟩ : Turn K)
    Only q t'.tables ∧ (Idle me env q t t' ∨ Initiates me env q t t') := by
  unfold Turn.sendData
  rw [if_neg hq]
  dsimp only
  split
  · next session hlive =>
    refine ⟨h, .inl ⟨rfl, .inl rfl, .inl rfl, fun _ _ h => h, fun p hp => ?_⟩⟩
    exact ⟨session, payload, hlive, List.mem_singleton.mp hp⟩
  · next hdead =>
    obtain ⟨data, henqueue, hdata⟩ := h.enqueue payload
    have hqueued : (⟨t, []⟩ : Turn K).write (Turn.enqueue q payload t) =
        ⟨{ t with e2ePendingData := data }, []⟩ := by
      rw [henqueue]
      rfl
    rw [hqueued]
    have honly := h.set_data hdata
    split_ifs
    · obtain ⟨honly', hcases⟩ := initiate_outcome honly hdead
      refine ⟨honly', hcases.imp (fun hi => ?_) fun hi => ?_⟩
      · exact ⟨hi.live, hi.cand, hi.nonce, hi.attempt, hi.out⟩
      · exact ⟨hi.dead, hi.live, hi.cand, hi.nonce, hi.attempt, hi.out⟩
    · exact ⟨honly, .inl ⟨rfl, .inl rfl, .inl rfl, fun _ _ h => h, onlyData_nil _⟩⟩

variable (me env) in
theorem prune_outcome (h : Only q t) :
    let t' := Turn.pruneAttempts (⟨t, []⟩ : Turn K)
    Only q t'.tables ∧ Idle me env q t t' :=
  ⟨⟨h.sessions, h.data, h.rekey⟩, rfl, .inl rfl, .inl rfl, fun _ _ h => h, onlyData_nil _⟩

variable (me env) in
theorem retry_outcome (h : Only q t) :
    let t' := Turn.retry me env q (⟨t, []⟩ : Turn K)
    Only q t'.tables ∧ (Idle me env q t t' ∨ Initiates me env q t t') := by
  unfold Turn.retry
  split_ifs with hdue
  · refine initiate_outcome h ?_
    have hdue := hdue.2
    unfold Tables.shouldInitiateE2e at hdue
    split_ifs at hdue with hlive
    exact Dict.get?_eq_none.mpr hlive
  · exact ⟨h, .inl (idle_refl t)⟩

theorem handshake_outcome (h : Only q t) (payload : Option (Hello K)) :
    let t' := Turn.handleE2eHandshake me env q payload (⟨t, []⟩ : Turn K)
    Only q t'.tables ∧ (Idle me env q t t' ∨
      ∃ hello ciphertext shared, payload = some hello ∧
        Responds me env q t t' hello ciphertext shared) := by
  unfold Turn.handleE2eHandshake
  split
  · exact ⟨h, .inl (idle_refl t)⟩
  next hello =>
    split_ifs with hchecks hglare
    · exact ⟨h, .inl (idle_refl t)⟩
    · exact ⟨h, .inl (idle_refl t)⟩
    have hchecks : Turn.helloChecks env q hello = true := by simpa using hchecks
    have hglare : Turn.glare me q t = false := by simpa using hglare
    set t₁ : Tables := { t with
      e2ePendingNonce := t.e2ePendingNonce.pop q
      e2ePendingKem := t.e2ePendingKem.pop q }
    have honly : Only q t₁ := ⟨h.sessions, h.data, h.rekey⟩
    have hnonce : nonce t₁ q = none := Dict.get?_pop_self _ _
    have hattempt : ∀ n secret, Attempt t₁ q n secret → Attempt t q n secret :=
      fun _ _ ha => attempt_pop ha
    dsimp only
    split
    · next chain ciphertext shared hchain hkem =>
      have hsome : (env.chainOf me.id).isSome := by rw [hchain]; rfl
      split_ifs with hlive
      · obtain ⟨session, hsession⟩ := Dict.mem_keys.mp hlive
        have hsession : live t q = some session := hsession
        obtain ⟨rekey, hstore, hget, hkeys⟩ := honly.rekeyStore shared env.monotonic
        have hpark : (⟨t₁, []⟩ : Turn K).park q shared env.monotonic =
            ⟨{ t₁ with e2eRekey := rekey }, [.parked q shared]⟩ := by
          unfold Turn.park Turn.write Turn.emit
          rw [hstore]
          rfl
        have honly₂ : Only q { t₁ with e2eRekey := rekey } := ⟨honly.sessions, honly.data, hkeys⟩
        obtain ⟨hkept, ⟨data, hdata⟩, hout⟩ :=
          flush_answer (e := .parked q shared) honly₂ session hsession rfl
            ⟨me.id, q, .handshakeAck (some ⟨hello.nonce, ciphertext, me.dsaPublicKey, chain,
              me.sign (hello.nonce ++ ciphertext ++ me.dsaPublicKey)⟩)⟩
        rw [show ((⟨t, []⟩ : Turn K).write t₁).park q shared env.monotonic = _ from hpark]
        refine ⟨hkept, .inr ⟨hello, ciphertext, shared, rfl, hchecks, hglare, hsome, hkem, ?_, ?_, ?_,
          ?_, fun p hp => ?_⟩⟩
        · rw [hdata, hsession]
          exact hsession
        · rw [hdata, hsession]
          exact hget
        · rw [hdata]
          exact hnonce
        · rw [hdata]
          exact hattempt
        · rw [hsession]
          exact (hout p hp).imp (fun hp => ⟨_, hp, rfl, rfl⟩) id
      · have hdead : live t q = none := Dict.get?_eq_none.mpr hlive
        have hfile : (⟨t₁, []⟩ : Turn K).file q shared =
            ⟨{ t₁ with e2eSessions := t₁.e2eSessions.set q shared }, [.filed q shared]⟩ := by
          unfold Turn.file Turn.write Turn.emit
          rw [honly.keep]
          rfl
        obtain ⟨hkept, ⟨data, hdata⟩, hout⟩ :=
          flush_answer (e := .filed q shared) (honly.set_sessions shared) shared
            (Dict.get?_set_self _ _ _) rfl
            ⟨me.id, q, .handshakeAck (some ⟨hello.nonce, ciphertext, me.dsaPublicKey, chain,
              me.sign (hello.nonce ++ ciphertext ++ me.dsaPublicKey)⟩)⟩
        rw [show ((⟨t, []⟩ : Turn K).write t₁).file q shared = _ from hfile]
        refine ⟨hkept, .inr ⟨hello, ciphertext, shared, rfl, hchecks, hglare, hsome, hkem, ?_, ?_, ?_,
          ?_, fun p hp => ?_⟩⟩
        · rw [hdata, hdead]
          exact Dict.get?_set_self _ _ _
        · rw [hdata, hdead]
          rfl
        · rw [hdata]
          exact hnonce
        · rw [hdata]
          exact hattempt
        · rw [hdead]
          exact (hout p hp).imp (fun hp => ⟨_, hp, rfl, rfl⟩) id
    · exact ⟨honly, .inl ⟨rfl, .inl rfl, .inr ⟨hnonce, hglare⟩, hattempt, onlyData_nil _⟩⟩

theorem attemptSecret_tables (src : NodeID) (n : Bytes) (now : ℚ) :
    (t.e2eAttemptSecret src n now).2 = t ∨
      (t.e2eAttemptSecret src n now).2 = { t with e2eReplacedKem := t.e2eReplacedKem.pop (src, n) } := by
  unfold Tables.e2eAttemptSecret
  split
  · exact .inl rfl
  · split
    · exact .inl rfl
    · split_ifs
      · exact .inl rfl
      · exact .inr rfl
      · exact .inl rfl

theorem of_attemptSecret {now : ℚ} (h : (t.e2eAttemptSecret q n now).1 = some secret) :
    Attempt t q n secret ∧ (nonce t q = some n ∨ live t q = none) := by
  unfold Tables.e2eAttemptSecret at h
  split at h
  · next hn => exact ⟨.inl ⟨hn, h⟩, .inl hn⟩
  · split at h
    · cases h
    · next secret' exp hget =>
      split_ifs at h with hlive
      cases h
      exact ⟨.inr ⟨exp, hget⟩, .inr (Dict.get?_eq_none.mpr hlive)⟩

theorem attempt_pop_replaced {src : NodeID} {m : Bytes}
    (h : Attempt { t with e2eReplacedKem := t.e2eReplacedKem.pop (src, m) } q n secret) :
    Attempt t q n secret := by
  refine h.imp id ?_
  rintro ⟨exp, hr⟩
  exact ⟨exp, (Dict.get?_of_pop hr).2⟩

theorem handshakeAck_outcome (h : Only q t) (payload : Option (Answer K)) :
    let t' := Turn.handleE2eHandshakeAck me env q payload (⟨t, []⟩ : Turn K)
    Only q t'.tables ∧ (Idle me env q t t' ∨ ∃ answer secret, payload = some answer ∧
      ((∃ shared, Adopts me env q t t' answer secret shared) ∨
        Spoils me env q t answer secret)) := by
  unfold Turn.handleE2eHandshakeAck
  split
  · exact ⟨h, .inl (idle_refl t)⟩
  next answer =>
    -- the tables once the attempt has been looked up
    have hasked : Only q (t.e2eAttemptSecret q answer.nonce env.monotonic).2 ∧
        live (t.e2eAttemptSecret q answer.nonce env.monotonic).2 q = live t q ∧
        cand (t.e2eAttemptSecret q answer.nonce env.monotonic).2 q = cand t q ∧
        nonce (t.e2eAttemptSecret q answer.nonce env.monotonic).2 q = nonce t q ∧
        ∀ n secret, Attempt (t.e2eAttemptSecret q answer.nonce env.monotonic).2 q n secret →
          Attempt t q n secret := by
      rcases attemptSecret_tables (t := t) q answer.nonce env.monotonic with he | he
      · rw [he]
        exact ⟨h, rfl, rfl, rfl, fun _ _ ha => ha⟩
      · rw [he]
        exact ⟨⟨h.sessions, h.data, h.rekey⟩, rfl, rfl, rfl, fun _ _ ha => attempt_pop_replaced ha⟩
    dsimp only
    cases hask : t.e2eAttemptSecret q answer.nonce env.monotonic with
    | mk secret tables =>
    rw [hask] at hasked
    obtain ⟨honly, hlive, hcand, hnonce, hattempt⟩ := hasked
    have hidle : Idle me env q t ⟨tables, []⟩ :=
      ⟨hlive, .inl hcand, .inl hnonce, hattempt, onlyData_nil _⟩
    cases secret with
    | none => exact ⟨honly, .inl hidle⟩
    | some secret =>
      dsimp only
      split_ifs with hchecks
      · exact ⟨honly, .inl hidle⟩
      have hwaiting : (t.e2eAttemptSecret q answer.nonce env.monotonic).1 = some secret := by rw [hask]
      have honly' : Only q (tables.e2eDropAttempts q) := ⟨honly.sessions, honly.data, honly.rekey⟩
      have hdropped : nonce (tables.e2eDropAttempts q) q = none := Dict.get?_pop_self _ _
      split
      · next hkem => exact ⟨honly', .inr ⟨answer, secret, rfl, .inr ⟨hwaiting, hkem⟩⟩⟩
      · next shared hkem =>
        have hfile : (⟨tables.e2eDropAttempts q, []⟩ : Turn K).file q shared =
            ⟨{ tables.e2eDropAttempts q with
              e2eSessions := (tables.e2eDropAttempts q).e2eSessions.set q shared }, [.filed q shared]⟩ := by
          unfold Turn.file Turn.write Turn.emit
          rw [honly'.keep]
          rfl
        obtain ⟨hkept, ⟨data, hdata⟩, more, hmore, hsealed⟩ :=
          flush_spec me [.filed q shared] (honly'.set_sessions shared) shared
            (Dict.get?_set_self _ _ _)
        rw [show ((⟨t, []⟩ : Turn K).write (tables.e2eDropAttempts q)).file q shared = _ from hfile]
        refine ⟨hkept, .inr ⟨answer, secret, rfl, .inl ⟨shared, hwaiting, by simpa using hchecks, hkem,
          ?_, ?_, ?_, fun n secret ha => ?_, fun p hp => ?_⟩⟩⟩
        · rw [hdata]
          exact Dict.get?_set_self _ _ _
        · rw [hdata]
          exact hcand
        · rw [hdata]
          exact hdropped
        · rw [hdata] at ha
          exact hattempt n secret (attempt_drop ha)
        · rw [hmore, List.filterMap_append] at hp
          rcases List.mem_append.mp hp with hp | hp
          · cases hp
          · exact hsealed p hp

variable (me env) in
theorem data_outcome (h : Only q t) (packet : Packet K) (hsrc : packet.srcId = q) :
    let t' := Turn.handleData env packet (⟨t, []⟩ : Turn K)
    Only q t'.tables ∧ (Idle me env q t t' ∨ ∃ key, Promotes env q t t' packet key) := by
  unfold Turn.handleData
  rw [hsrc]
  dsimp only
  split
  · exact ⟨h, .inl (idle_refl t)⟩
  next session hlive =>
    split
    · exact ⟨h, .inl ⟨rfl, .inl rfl, .inl rfl, fun _ _ h => h, by simp [OnlyData, Turn.emit, sent]⟩⟩
    next hclosed =>
      unfold Tables.e2eRekeyGet
      cases hcand : t.e2eRekey.get? q with
      | none => exact ⟨h, .inl (idle_refl t)⟩
      | some v =>
      obtain ⟨candidate, exp⟩ := v
      dsimp only
      split_ifs with hexp
      · have hpop : ∀ n ∈ (t.e2eRekey.pop q).keys, n = q :=
          fun n hn => h.rekey n (Dict.mem_keys_pop.mp hn).1
        exact ⟨⟨h.sessions, h.data, hpop⟩, .inl ⟨rfl, .inr ⟨Dict.get?_pop_self _ _, candidate, exp,
          hcand, hexp⟩, .inl rfl, fun _ _ h => h, onlyData_nil _⟩⟩
      · dsimp only
        split
        · exact ⟨h, .inl (idle_refl t)⟩
        next plaintext hopens =>
          have hfile : (⟨t, []⟩ : Turn K).file q candidate =
              ⟨{ t with e2eSessions := t.e2eSessions.set q candidate }, [.filed q candidate]⟩ := by
            unfold Turn.file Turn.write Turn.emit
            rw [h.keep]
            rfl
          rw [show ((⟨t, []⟩ : Turn K).write t).file q candidate = _ from hfile]
          have hpop : ∀ n ∈ (t.e2eRekey.pop q).keys, n = q :=
            fun n hn => h.rekey n (Dict.mem_keys_pop.mp hn).1
          refine ⟨⟨(h.set_sessions candidate).sessions, h.data, hpop⟩, .inr ⟨candidate,
            ⟨exp, hcand, not_le.mp hexp⟩, ?_, ⟨session, hlive, hclosed⟩, Dict.get?_set_self _ _ _,
            Dict.get?_pop_self _ _, rfl, fun _ _ ha => ha, rfl⟩⟩
          rw [hopens]
          exact Option.some_ne_none _

/-- The outcome of a packet. -/
inductive Handled (me : Keys K) (env : Env K) (q : NodeID) (t : Tables) (t' : Turn K) :
    Packet K → Prop
  | idle (packet : Packet K) (h : Idle me env q t t') : Handled me env q t t' packet
  | responds (dstId : NodeID) (hello : Hello K) (ciphertext shared : Bytes)
      (h : Responds me env q t t' hello ciphertext shared) :
      Handled me env q t t' ⟨q, dstId, .handshake (some hello)⟩
  | adopts (dstId : NodeID) (answer : Answer K) (secret shared : Bytes)
      (h : Adopts me env q t t' answer secret shared) :
      Handled me env q t t' ⟨q, dstId, .handshakeAck (some answer)⟩
  | spoils (dstId : NodeID) (answer : Answer K) (secret : Bytes)
      (h : Spoils me env q t answer secret) :
      Handled me env q t t' ⟨q, dstId, .handshakeAck (some answer)⟩
  | promotes (packet : Packet K) (key : Bytes) (h : Promotes env q t t' packet key) :
      Handled me env q t t' packet

variable (me env) in
theorem handle_outcome (h : Only q t) (packet : Packet K) (hsrc : packet.srcId = q) :
    let t' := Turn.handle me env packet (⟨t, []⟩ : Turn K)
    Only q t'.tables ∧ Handled me env q t t' packet := by
  obtain ⟨srcId, dstId, body⟩ := packet
  obtain rfl : srcId = q := hsrc
  cases body with
  | handshake payload =>
    obtain ⟨honly, hidle | ⟨hello, ciphertext, shared, rfl, hr⟩⟩ := handshake_outcome h payload
    · exact ⟨honly, .idle _ hidle⟩
    · exact ⟨honly, .responds _ _ _ _ hr⟩
  | handshakeAck payload =>
    obtain ⟨honly, hidle | ⟨answer, secret, rfl, ⟨shared, ha⟩ | hs⟩⟩ := handshakeAck_outcome h payload
    · exact ⟨honly, .idle _ hidle⟩
    · exact ⟨honly, .adopts _ _ _ _ ha⟩
    · exact ⟨honly, .spoils _ _ _ hs⟩
  | data payload =>
    obtain ⟨honly, hidle | ⟨key, hp⟩⟩ :=
      data_outcome me env h ⟨srcId, dstId, .data payload⟩ rfl
    · exact ⟨honly, .idle _ hidle⟩
    · exact ⟨honly, .promotes _ _ hp⟩

end Handlers

end NMesh.E2e.Outcome
