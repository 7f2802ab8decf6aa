import NMesh.AppAuth.Once

/-! # An assertion is used once

Calls share a cache, at times that do not go back. As long as fewer nonces than the bound are claimed within a ttl
and the skew, one signed body is taken once (`takenOnce_of_sparse`). Counted within the ttl alone, a nonce can be
pushed out while its assertion is alive, and the same bytes are taken again (`taken_again`). -/

namespace NMesh.AppAuth.Reuse

open Base.BigEndian Base.Utf8 Base.Ordered
open NMesh.AppAuth.Format NMesh.AppAuth.Format.Assertion NMesh.AppAuth.Verify

/-- A call of `verify_assertion`, at a unix time. -/
structure Call where
  blob : Bytes
  verifier : Bytes → Bytes → Bytes → Bool
  appId : Bytes
  audience : Bytes
  purpose : Option Text
  ctx : Option Bytes
  stamp : ℕ

variable (K : Primitives)

def Call.primitives (call : Call) : Primitives := { K with verify := call.verifier }

def Call.verify (call : Call) (c : NonceCache) : Option Principal × NonceCache :=
  verifyAssertion (call.primitives K) call.blob call.appId call.audience call.purpose call.ctx c call.stamp

/-- The assertion a call returns a principal for, with the time. -/
def Call.taken (call : Call) (c : NonceCache) : List (ℕ × Assertion) :=
  if (call.verify K c).1.isSome then ((parseAssertion call.blob).map fun a => (call.stamp, a)).toList else []

/-- The assertions that calls sharing a cache return a principal for. -/
def taken : NonceCache → List Call → List (ℕ × Assertion)
  | _, [] => []
  | c, call :: calls => call.taken K c ++ taken (call.verify K c).2 calls

def Forward (calls : List Call) : Prop := calls.Pairwise fun call later => call.stamp ≤ later.stamp

/-- Fewer nonces than `max` are claimed within the ttl of any of them and `slack` seconds. -/
def Sparse (slack max : ℕ) (ts : List (ℕ × Assertion)) : Prop :=
  ∀ t ∈ ts, (ts.countP fun u => decide (t.1 ≤ u.1 ∧ u.1 ≤ t.1 + t.2.ttl + slack)) < max

instance (slack max : ℕ) (ts : List (ℕ × Assertion)) : Decidable (Sparse slack max ts) := by
  unfold Sparse; infer_instance

def TakenOnce (ts : List (ℕ × Assertion)) : Prop :=
  ∀ body, (ts.countP fun t => decide (t.2.signedBody = body)) ≤ 1

/-- A nonce stands in a dictionary with at most `k` behind it. -/
def Behind (nonce : Bytes) (expiry k : ℕ) (d : Dict Bytes ℕ) : Prop :=
  ∃ pre post, d.entries = pre ++ (nonce, expiry) :: post ∧ post.length ≤ k

variable {K} {nonce other : Bytes} {expiry k stamp expiresAt : ℕ} {c : NonceCache} {d : Dict Bytes ℕ}

theorem Behind.mem (h : Behind nonce expiry k d) : d.get? nonce = some expiry := by
  obtain ⟨pre, post, heq, -⟩ := h
  rw [Dict.get?_eq_some, heq]
  exact List.mem_append_right _ List.mem_cons_self

theorem Behind.expire (h : Behind nonce expiry k c.seen) (hlive : stamp < expiry) :
    Behind nonce expiry k (c.expire stamp).seen := by
  unfold NonceCache.expire
  split_ifs
  · exact h
  obtain ⟨pre, post, heq, hle⟩ := h
  refine ⟨pre.filter fun e => decide (stamp < e.2), post.filter fun e => decide (stamp < e.2), ?_,
    (List.length_filter_le _ _).trans hle⟩
  show (c.seen.entries.filter fun e => decide (stamp < e.2)) = _
  rw [heq, List.filter_append, List.filter_cons, if_pos (decide_eq_true hlive)]

theorem Behind.makeRoom {limit : ℕ} (hroom : k + 1 < limit) : ∀ {n : ℕ} {d : Dict Bytes ℕ},
    Behind nonce expiry k d → Behind nonce expiry k (Dict.makeRoom limit n d)
  | 0, _, h => h
  | n + 1, d, h => by
    rw [Dict.makeRoom]
    split_ifs with hfull
    · refine Behind.makeRoom hroom ?_
      obtain ⟨pre, post, heq, hle⟩ := h
      unfold Dict.size at hfull
      rw [heq, List.length_append, List.length_cons] at hfull
      -- too many entries for the nonce to be the first one
      cases pre with
      | nil =>
        rw [List.length_nil] at hfull
        omega
      | cons x pre =>
        refine ⟨pre, post, ?_, hle⟩
        show d.entries.tail = _
        rw [heq]
        rfl
    · exact h

theorem Behind.claim_refused (h : Behind nonce expiry k c.seen) (hlive : stamp < expiry)
    (hclaim : (c.claim other expiresAt stamp).1 = false) :
    Behind nonce expiry k (c.claim other expiresAt stamp).2.seen := by
  have hkept := h.expire hlive
  unfold NonceCache.claim at hclaim ⊢
  dsimp only at hclaim ⊢
  split_ifs at hclaim ⊢
  · exact h
  · exact hkept

/-- **A claim puts one nonce behind**, as long as that leaves the others in the cache. -/
theorem Behind.claim (h : Behind nonce expiry k c.seen) (hlive : stamp < expiry)
    (hclaim : (c.claim other expiresAt stamp).1 = true) (hroom : k + 1 < c.max) :
    Behind nonce expiry (k + 1) (c.claim other expiresAt stamp).2.seen := by
  have hkept := h.expire hlive
  unfold NonceCache.claim at hclaim ⊢
  dsimp only at hclaim ⊢
  split_ifs at hclaim ⊢ with hlength hseen
  rw [Once.max_expire]
  obtain ⟨pre, post, heq, hle⟩ := hkept.makeRoom hroom (n := (c.expire stamp).seen.size)
  refine ⟨pre, post ++ [(other, expiresAt)], ?_, by simp [hle]⟩
  dsimp only
  rw [Dict.entries_set_of_notMem, heq, List.append_assoc, List.cons_append]
  intro hmem
  obtain ⟨v, hv⟩ := Dict.mem_keys.mp hmem
  exact hseen (Dict.mem_keys_of_get? (Dict.get?_of_makeRoom hv))

theorem behind_claimed (hclaim : (c.claim nonce expiresAt stamp).1 = true) :
    Behind nonce expiresAt 0 (c.claim nonce expiresAt stamp).2.seen := by
  unfold NonceCache.claim at hclaim ⊢
  dsimp only at hclaim ⊢
  split_ifs at hclaim ⊢ with hlength hseen
  refine ⟨_, [], Dict.entries_set_of_notMem (fun hmem => hseen ?_) _, le_rfl⟩
  obtain ⟨v, hv⟩ := Dict.mem_keys.mp hmem
  exact Dict.mem_keys_of_get? (Dict.get?_of_makeRoom hv)

/-! ### A call -/

variable {call : Call} {calls : List Call} {a b : Assertion}

theorem unchanged_of_failed (h : ∀ a, parseAssertion call.blob = some a →
      ¬ Checks (call.primitives K) call.appId call.audience call.purpose call.ctx call.stamp a) :
    call.verify K c = (none, c) := by
  unfold Call.verify verifyAssertion
  cases hparse : parseAssertion call.blob with
  | none => rfl
  | some a =>
    dsimp only
    rw [if_neg (h a hparse)]

theorem verify_passed {a : Assertion} (hparse : parseAssertion call.blob = some a)
    (hchecks : Checks (call.primitives K) call.appId call.audience call.purpose call.ctx call.stamp a) :
    (call.verify K c).2 = (c.claim a.nonce a.expiresAt call.stamp).2 ∧
      call.taken K c = if (c.claim a.nonce a.expiresAt call.stamp).1 then [(call.stamp, a)] else [] := by
  have hverify : call.verify K c = (if (c.claim a.nonce a.expiresAt call.stamp).1 then
      some (principalOf (call.primitives K) a) else none, (c.claim a.nonce a.expiresAt call.stamp).2) := by
    unfold Call.verify verifyAssertion
    rw [hparse]
    dsimp only
    rw [if_pos hchecks]
  refine ⟨by rw [hverify], ?_⟩
  unfold Call.taken
  rw [hverify, hparse]
  cases (c.claim a.nonce a.expiresAt call.stamp).1 <;> rfl

/-- What a call does: it leaves the cache, or claims the nonce of an assertion that passes every check. -/
theorem verify_cases (call : Call) (c : NonceCache) :
    (call.taken K c = [] ∧ (call.verify K c).2 = c) ∨
    ∃ a, parseAssertion call.blob = some a ∧
      Checks (call.primitives K) call.appId call.audience call.purpose call.ctx call.stamp a ∧
      (call.verify K c).2 = (c.claim a.nonce a.expiresAt call.stamp).2 ∧
      call.taken K c = if (c.claim a.nonce a.expiresAt call.stamp).1 then [(call.stamp, a)] else [] := by
  by_cases hpassed : ∃ a, parseAssertion call.blob = some a ∧
      Checks (call.primitives K) call.appId call.audience call.purpose call.ctx call.stamp a
  · obtain ⟨a, hparse, hchecks⟩ := hpassed
    exact Or.inr ⟨a, hparse, hchecks, verify_passed hparse hchecks⟩
  · have hverify : call.verify K c = (none, c) :=
      unchanged_of_failed fun a hparse hchecks => hpassed ⟨a, hparse, hchecks⟩
    unfold Call.taken
    rw [hverify]
    exact Or.inl ⟨rfl, rfl⟩

theorem max_verify (call : Call) (c : NonceCache) : (call.verify K c).2.max = c.max := by
  rcases verify_cases (K := K) call c with ⟨-, heq⟩ | ⟨a, -, -, heq, -⟩
  · rw [heq]
  · rw [heq]
    unfold NonceCache.claim
    dsimp only
    split_ifs
    · rfl
    · exact Once.max_expire
    · exact Once.max_expire

theorem taken_alive {t : ℕ × Assertion} : ∀ {calls : List Call} {c : NonceCache}, t ∈ taken K c calls →
    ∃ call ∈ calls, t.1 = call.stamp ∧ parseAssertion call.blob = some t.2 ∧ t.1 < t.2.expiresAt ∧
      t.2.issuedAt ≤ t.1 + maxSkew
  | call :: calls, c, h => by
    rcases List.mem_append.mp h with h | h
    · rcases verify_cases (K := K) call c with ⟨heq, -⟩ | ⟨a, hparse, hchecks, -, heq⟩
      · rw [heq] at h
        cases h
      · rw [heq] at h
        split_ifs at h
        · obtain rfl := List.mem_singleton.mp h
          obtain ⟨-, -, -, -, ⟨hissued, hlive⟩, -⟩ := hchecks
          exact ⟨call, List.mem_cons_self, rfl, hparse, hlive, hissued⟩
        · cases h
    · obtain ⟨call', hmem, hspec⟩ := taken_alive h
      exact ⟨call', List.mem_cons_of_mem _ hmem, hspec⟩

/-! ### A run -/

theorem same_nonce (ha : a.Fits) (hb : b.Fits) (h : b.signedBody = a.signedBody) :
    b.nonce = a.nonce ∧ b.expiresAt = a.expiresAt := by
  have heq := signedBody_inj hb ha h
  simp only [unsigned, Assertion.mk.injEq] at heq
  obtain ⟨-, -, -, -, hnonce, hissued, httl, -⟩ := heq
  exact ⟨hnonce, by unfold expiresAt; rw [hissued, httl]⟩

/-- **While its nonce has room in the cache, an assertion is not taken again**: `k` nonces are behind it, and
those claimed before it expires still fit. -/
theorem not_taken_again (ha : a.Fits) : ∀ {calls : List Call} {c : NonceCache} {k : ℕ}, Forward calls →
    Behind a.nonce a.expiresAt k c.seen →
    k + 1 + (taken K c calls).countP (fun u => decide (u.1 < a.expiresAt)) < c.max →
    ∀ t ∈ taken K c calls, t.2.signedBody ≠ a.signedBody
  | [], _, _, _, _, _, t, ht, _ => by cases ht
  | call :: calls, c, k, hforward, hbehind, hroom, t, ht, hsame => by
    obtain ⟨hfirst, hrest⟩ := List.pairwise_cons.mp hforward
    obtain ⟨call', hmem, hstamp, hparse, halive, -⟩ := taken_alive ht
    obtain ⟨hnonce, hexpires⟩ := same_nonce ha (fits_of_parse hparse).1 hsame
    have hlive : call.stamp < a.expiresAt := by
      have hle : call.stamp ≤ call'.stamp := by
        rcases List.mem_cons.mp hmem with rfl | hmem
        · exact le_rfl
        · exact hfirst call' hmem
      omega
    rw [taken, List.countP_append] at hroom
    rcases verify_cases (K := K) call c with ⟨hnone, hcache⟩ | ⟨b, -, -, hcache, htaken⟩
    · rw [taken, hnone, hcache, List.nil_append] at ht
      rw [hnone, hcache, List.countP_nil, Nat.zero_add] at hroom
      exact not_taken_again ha hrest hbehind hroom t ht hsame
    · cases hclaim : (c.claim b.nonce b.expiresAt call.stamp).1 with
      | false =>
        rw [hclaim, if_neg Bool.false_ne_true] at htaken
        rw [taken, htaken, List.nil_append] at ht
        rw [htaken, List.countP_nil, Nat.zero_add] at hroom
        refine not_taken_again ha hrest ?_ (by rw [max_verify]; exact hroom) t ht hsame
        rw [hcache]
        exact hbehind.claim_refused hlive hclaim
      | true =>
        rw [hclaim, if_pos rfl] at htaken
        rw [taken, htaken] at ht
        rw [htaken, List.countP_singleton, if_pos (decide_eq_true hlive)] at hroom
        rcases List.mem_append.mp ht with ht | ht
        · -- it is the one claimed now, whose nonce is there and alive
          obtain rfl := List.mem_singleton.mp ht
          have hgone := (Once.claim_spec hclaim).2 a.expiresAt
          rw [show b.nonce = a.nonce from hnonce] at hgone
          have hle := hgone hbehind.mem
          omega
        · refine not_taken_again ha hrest ?_ (k := k + 1) (by rw [max_verify]; omega) t ht hsame
          rw [hcache]
          exact hbehind.claim hlive hclaim (by omega)

/-- **One signed body is taken at most once**, as long as fewer nonces than the bound are claimed within a ttl
and the skew. -/
theorem takenOnce_of_sparse : ∀ {calls : List Call} {c : NonceCache}, Forward calls →
    Sparse maxSkew c.max (taken K c calls) → TakenOnce (taken K c calls)
  | [], _, _, _, _ => Nat.zero_le _
  | call :: calls, c, hforward, hsparse, body => by
    obtain ⟨hfirst, hrest⟩ := List.pairwise_cons.mp hforward
    have htail : TakenOnce (taken K (call.verify K c).2 calls) := by
      refine takenOnce_of_sparse hrest fun t ht => ?_
      have hlt := hsparse t (List.mem_append_right _ ht)
      rw [taken, List.countP_append] at hlt
      rw [max_verify]
      omega
    rw [taken, List.countP_append]
    rcases verify_cases (K := K) call c with ⟨hnone, -⟩ | ⟨a, hparse, hchecks, hcache, htaken⟩
    · rw [hnone, List.countP_nil, Nat.zero_add]
      exact htail body
    · split_ifs at htaken with hclaim
      · rw [htaken, List.countP_singleton]
        split_ifs with hbody
        · -- the later calls take another body
          obtain ⟨-, -, -, -, ⟨hissued, hlive⟩, -⟩ := hchecks
          have hlt := hsparse (call.stamp, a)
            (List.mem_append_left _ (by rw [htaken]; exact List.mem_singleton_self _))
          rw [taken, List.countP_append, htaken, List.countP_singleton,
            if_pos (decide_eq_true ⟨le_rfl, by omega⟩)] at hlt
          dsimp only at hlt
          have hmono : (taken K (call.verify K c).2 calls).countP (fun u => decide (u.1 < a.expiresAt)) ≤
              (taken K (call.verify K c).2 calls).countP fun u =>
                decide (call.stamp ≤ u.1 ∧ u.1 ≤ call.stamp + a.ttl + maxSkew) := by
            refine List.countP_mono_left fun u hu hexpires => ?_
            obtain ⟨call', hmem, hstamp, -⟩ := taken_alive hu
            have hle := hfirst call' hmem
            have hexpires := of_decide_eq_true hexpires
            unfold expiresAt at hexpires
            exact decide_eq_true ⟨by omega, by omega⟩
          have hnot := not_taken_again (K := K) (fits_of_parse hparse).1 hrest (c := (call.verify K c).2)
            (k := 0) (by rw [hcache]; exact behind_claimed hclaim) (by rw [max_verify]; omega)
          have hzero : (taken K (call.verify K c).2 calls).countP
              (fun t => decide (t.2.signedBody = body)) = 0 := by
            refine List.countP_eq_zero.mpr fun t ht hsame => ?_
            exact hnot t ht ((of_decide_eq_true hsame).trans (of_decide_eq_true hbody).symm)
          omega
        · rw [Nat.zero_add]
          exact htail body
      · rw [htaken, List.countP_nil, Nat.zero_add]
        exact htail body

def ahead (n : UInt8) (stamp : ℕ) : Assertion :=
  { appId := List.replicate 8 1, subjectPub := [1], audience := anyAudience, purpose := [], nonce := List.replicate 16 n,
    issuedAt := stamp + 60, ttl := 86400, ctx := List.replicate 32 0, signature := [1] }

def present (n : UInt8) (stamp now : ℕ) : Call :=
  ⟨(ahead n stamp).serialize, fun _ _ _ => true, List.replicate 8 1, anyAudience, none, none, now⟩

def plain : Primitives := ⟨id, id, fun _ _ _ => true⟩

def replay : List Call :=
  [present 0 0 0, present 1 1 1, present 2 2 2, present 3 86403 86403, present 4 86404 86404, present 0 0 86405]

theorem fits_ahead (n : UInt8) {stamp : ℕ} (h : stamp < 10 ^ 6) : (ahead n stamp).Fits := by
  refine ⟨by simp [ahead, appIdLen], by simp [ahead, maxPubLen], rfl, Nat.zero_le _, rfl, by simp [ahead, nonceLen],
    ?_, by simp [ahead, maxTtl], by simp [ahead, ctxLen]⟩
  show stamp + 60 < 256 ^ 8
  omega

theorem verify_present (n : UInt8) {stamp now : ℕ} (h : stamp < 10 ^ 6) (hnow : stamp ≤ now)
    (hlive : now < stamp + 60 + 86400) (c : NonceCache) :
    ((present n stamp now).verify plain c).2 = (c.claim (List.replicate 16 n) (stamp + 60 + 86400) now).2 ∧
      (present n stamp now).taken plain c =
        if (c.claim (List.replicate 16 n) (stamp + 60 + 86400) now).1 then [(now, ahead n stamp)] else [] := by
  have hsig : 0 < (ahead n stamp).signature.length ∧ (ahead n stamp).signature.length ≤ maxSigLen := by
    simp [ahead, maxSigLen]
  have hchecks : Checks ((present n stamp now).primitives plain) (List.replicate 8 1) anyAudience none none now
      (ahead n stamp) := by
    refine ⟨rfl, Or.inl rfl, by simp, by simp, ⟨?_, hlive⟩, rfl⟩
    show stamp + 60 ≤ now + 60
    omega
  exact verify_passed (parse_serialize (fits_ahead n h) hsig) hchecks

theorem taken_replay : taken plain ⟨4, Dict.empty⟩ replay =
    [(0, ahead 0 0), (1, ahead 1 1), (2, ahead 2 2), (86403, ahead 3 86403), (86404, ahead 4 86404),
      (86405, ahead 0 0)] := by
  simp only [replay, taken, verify_present, Nat.reduceLT, Nat.reducePow, Nat.reduceLeDiff, Nat.reduceAdd]
  decide

end NMesh.AppAuth.Reuse
