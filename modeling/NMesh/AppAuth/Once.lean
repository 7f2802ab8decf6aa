import NMesh.AppAuth.Verify

/-! # Each nonce once

While the cache has room and the clock does not go back, a nonce that was claimed stays in the cache for as long as
its assertion is alive, and an assertion is not taken a second time. -/

namespace NMesh.AppAuth.Once

open Base.BigEndian Base.Utf8 Base.Ordered
open NMesh.AppAuth.Format NMesh.AppAuth.Format.Assertion NMesh.AppAuth.Verify

def Roomy (stamp : ℕ) (c : NonceCache) : Prop := (c.expire stamp).seen.size < c.max

variable {c : NonceCache} {stamp e : ℕ} {k nonce : Bytes}

theorem max_expire : (c.expire stamp).max = c.max := by
  unfold NonceCache.expire
  split_ifs <;> rfl

theorem get?_expire (h : c.seen.get? k = some e) (hlive : stamp < e) : (c.expire stamp).seen.get? k = some e := by
  unfold NonceCache.expire
  split_ifs
  · exact h
  · dsimp only
    rw [Dict.get?_filterVal, h, Option.filter_some, if_pos (decide_eq_true hlive)]

theorem get?_claim (hroom : Roomy stamp c) (h : c.seen.get? k = some e) (hlive : stamp < e) (expiresAt : ℕ) :
    (c.claim nonce expiresAt stamp).2.seen.get? k = some e := by
  have hkept := get?_expire h hlive
  unfold NonceCache.claim
  dsimp only
  split_ifs with hlength hseen
  · exact h
  · exact hkept
  · rw [max_expire, Dict.makeRoom_of_lt hroom, Dict.get?_set_of_ne _ _, hkept]
    rintro rfl
    exact hseen (Dict.mem_keys_of_get? hkept)

theorem claim_spec {expiresAt : ℕ} (h : (c.claim nonce expiresAt stamp).1 = true) :
    (c.claim nonce expiresAt stamp).2.seen.get? nonce = some expiresAt ∧
      ∀ e, c.seen.get? nonce = some e → e ≤ stamp := by
  unfold NonceCache.claim at h ⊢
  dsimp only at h ⊢
  split_ifs at h ⊢ with hlength hseen
  refine ⟨by rw [Dict.get?_set_self], fun e he => ?_⟩
  by_contra hlive
  exact hseen (Dict.mem_keys_of_get? (get?_expire he (not_le.mp hlive)))

section Verifying

variable {K : Primitives} {blob appId audience : Bytes} {purpose : Option Text} {ctx : Option Bytes}

theorem get?_verify (hroom : Roomy stamp c) (h : c.seen.get? k = some e) (hlive : stamp < e) :
    (verifyAssertion K blob appId audience purpose ctx c stamp).2.seen.get? k = some e := by
  unfold verifyAssertion
  cases parseAssertion blob with
  | none => exact h
  | some a =>
    dsimp only
    by_cases hchecks : Checks K appId audience purpose ctx stamp a
    · rw [if_pos hchecks]
      exact get?_claim hroom h hlive _
    · rw [if_neg hchecks]
      exact h

/-- **An assertion that is taken**: it passes every check, its nonce was not alive in the cache, and is then. -/
theorem verify_spec {principal : Principal}
    (h : (verifyAssertion K blob appId audience purpose ctx c stamp).1 = some principal) :
    ∃ a, parseAssertion blob = some a ∧ Checks K appId audience purpose ctx stamp a ∧ principal = principalOf K a ∧
      (verifyAssertion K blob appId audience purpose ctx c stamp).2.seen.get? a.nonce = some a.expiresAt ∧
      ∀ e, c.seen.get? a.nonce = some e → e ≤ stamp := by
  unfold verifyAssertion at h ⊢
  cases hparse : parseAssertion blob with
  | none =>
    rw [hparse] at h
    cases h
  | some a =>
    rw [hparse] at h
    dsimp only at h ⊢
    split_ifs at h ⊢ with hchecks hclaim
    obtain ⟨hthere, hnew⟩ := claim_spec hclaim
    exact ⟨a, rfl, hchecks, (Option.some.inj h).symm, hthere, hnew⟩

end Verifying

end NMesh.AppAuth.Once
