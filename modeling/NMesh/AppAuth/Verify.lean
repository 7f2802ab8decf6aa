import NMesh.AppAuth.Format
import NMesh.Base.Ordered

/-! # Minting and verifying assertions

`makeAssertion` signs a statement, `verifyAssertion` checks one and uses its nonce up in a bounded cache. The
digest, the signature scheme and the id of a key are parameters.

* `makeAssertion_spec`: what is minted is what was asked for, within every bound;
* `verifyAssertion_spec`: what a returned principal stands for;
* `verifyAssertion_of`: a blob that passes every check is taken. -/

namespace NMesh.AppAuth.Verify

open Base.BigEndian Base.Utf8 Base.Ordered NMesh.AppAuth.Format
open NMesh.AppAuth.Format.Assertion

/-- The primitives: SHA-256, the node id of a public key, and `verify body signature key` (false where
it raises). -/
structure Primitives where
  sha256 : Bytes → Bytes
  idOf : Bytes → Bytes
  verify : Bytes → Bytes → Bytes → Bool

/-- A signing identity; `sign` takes the coins of the call. A public key has the length of its scheme,
which is within the bound of an assertion. -/
structure Identity where
  publicKey : Bytes
  sign : Bytes → Bytes → Bytes
  fits : 0 < publicKey.length ∧ publicKey.length ≤ maxPubLen

/-- What minting one assertion takes from the system: its nonce, the coins of the signature, the unix
time. -/
structure Minting where
  nonce : Bytes
  coins : Bytes
  stamp : ℕ

variable (K : Primitives)

/-- What a context digest is taken of: every part after its length. -/
def ctxInput (parts : List Bytes) : Bytes :=
  domain ++ parts.flatMap fun part => toBE 4 part.length ++ part

def ctxHash (parts : List Bytes) : Bytes := K.sha256 (ctxInput parts)

/-! ### Minting -/

def draft (publicKey appId audience purpose ctx : Bytes) (ttl : ℕ) (m : Minting) : Assertion :=
  { appId, subjectPub := publicKey, audience, purpose, nonce := m.nonce, issuedAt := m.stamp, ttl, ctx,
    signature := [] }

def signed (identity : Identity) (coins : Bytes) (a : Assertion) : Assertion :=
  { a with signature := identity.sign coins a.signedBody }

/-- Mint an assertion; `none` where it raises. -/
def makeAssertion (identity : Identity) (appId audience : Bytes) (purpose : Text) (ctx : Bytes) (ttl : ℕ)
    (m : Minting) : Option Assertion :=
  if appId.length ≠ appIdLen then none
  else if audience.length ≠ nodeIdLen then none
  else if ctx.length ≠ ctxLen then none
  else match encodeUtf8 purpose with
    | none => none
    | some encoded =>
      if ¬ (0 < encoded.length ∧ encoded.length ≤ maxPurposeLen) then none
      else if ¬ (0 < ttl ∧ ttl ≤ maxTtl) then none
      -- the time and the key's length are packed into 8 and 2 bytes
      else if 256 ^ 8 ≤ m.stamp ∨ 256 ^ 2 ≤ identity.publicKey.length then none
      else some (signed identity m.coins (draft identity.publicKey appId audience encoded ctx ttl m))

/-! ### The nonces used up -/

/-- The nonces seen, each with the time its assertion expires. -/
structure NonceCache where
  max : ℕ
  seen : Dict Bytes ℕ

namespace NonceCache

def expire (stamp : ℕ) (c : NonceCache) : NonceCache :=
  if c.seen.size < c.max / 2 then c
  else { c with seen := c.seen.filterVal fun expiry => decide (stamp < expiry) }

def claim (c : NonceCache) (nonce : Bytes) (expiresAt stamp : ℕ) : Bool × NonceCache :=
  if nonce.length ≠ nonceLen then (false, c)
  else
    let c' := c.expire stamp
    if nonce ∈ c'.seen.keys then (false, c')
    else (true, { c' with seen := (Dict.makeRoom c'.max c'.seen.size c'.seen).set nonce expiresAt })

end NonceCache

/-! ### Verifying -/

/-- Who proved what, until when. -/
structure Principal where
  nodeId : Bytes
  publicKey : Bytes
  appId : Bytes
  purpose : Bytes
  ctx : Bytes
  issuedAt : ℕ
  expiresAt : ℕ
  deriving DecidableEq

def principalOf (a : Assertion) : Principal :=
  { nodeId := K.idOf a.subjectPub, publicKey := a.subjectPub, appId := a.appId, purpose := a.purpose,
    ctx := a.ctx, issuedAt := a.issuedAt, expiresAt := a.expiresAt }

/-- Every check on a parsed assertion but the one of its nonce. -/
def Checks (appId audience : Bytes) (purpose : Option Text) (ctx : Option Bytes) (stamp : ℕ)
    (a : Assertion) : Prop :=
  a.appId = appId ∧ (a.audience = audience ∨ a.audience = anyAudience) ∧
    (∀ p ∈ purpose, encodeUtf8 p = some a.purpose) ∧ (∀ c ∈ ctx, a.ctx = c) ∧
    (a.issuedAt ≤ stamp + maxSkew ∧ stamp < a.expiresAt) ∧
    K.verify a.signedBody a.signature a.subjectPub = true

instance (appId audience : Bytes) (purpose : Option Text) (ctx : Option Bytes) (stamp : ℕ)
    (a : Assertion) : Decidable (Checks K appId audience purpose ctx stamp a) := by
  unfold Checks; infer_instance

/-- Verify an assertion end to end: the principal, and the nonces used up. The nonce is claimed last. -/
def verifyAssertion (blob appId audience : Bytes) (purpose : Option Text) (ctx : Option Bytes)
    (nonces : NonceCache) (stamp : ℕ) : Option Principal × NonceCache :=
  match parseAssertion blob with
  | none => (none, nonces)
  | some parsed =>
    if Checks K appId audience purpose ctx stamp parsed then
      (if (nonces.claim parsed.nonce parsed.expiresAt stamp).1 then some (principalOf K parsed) else none,
        (nonces.claim parsed.nonce parsed.expiresAt stamp).2)
    else (none, nonces)

/-! ### What they do -/

variable {K}

variable {appId audience : Bytes}

theorem makeAssertion_spec {identity : Identity} {ctx : Bytes} {purpose : Text} {ttl : ℕ}
    {m : Minting} {a : Assertion} (h : makeAssertion identity appId audience purpose ctx ttl m = some a) :
    a.appId = appId ∧ a.subjectPub = identity.publicKey ∧ a.audience = audience ∧
      encodeUtf8 purpose = some a.purpose ∧ a.nonce = m.nonce ∧ a.issuedAt = m.stamp ∧ a.ttl = ttl ∧
      a.ctx = ctx ∧ a.signature = identity.sign m.coins a.signedBody ∧
      (m.nonce.length = nonceLen → a.Fits) := by
  unfold makeAssertion at h
  split at h
  · cases h
  next happ =>
  split at h
  · cases h
  next haud =>
  split at h
  · cases h
  next hctx =>
  cases henc : encodeUtf8 purpose with
  | none => rw [henc] at h; cases h
  | some encoded =>
  rw [henc] at h
  simp only at h
  split_ifs at h with hpurpose httl hpack
  cases h
  rw [not_or, not_le, not_le] at hpack
  refine ⟨rfl, rfl, rfl, rfl, rfl, rfl, rfl, rfl, rfl, fun hnonce => ?_⟩
  exact ⟨not_not.mp happ, identity.fits, not_not.mp haud, hpurpose.2,
    Option.isSome_iff_exists.mpr ⟨purpose, decode_encode henc⟩, hnonce, hpack.1, httl, not_not.mp hctx⟩

theorem makeAssertion_of {identity : Identity} {ctx encoded : Bytes} {purpose : Text}
    {ttl : ℕ} {m : Minting} (happ : appId.length = appIdLen) (haud : audience.length = nodeIdLen)
    (hctx : ctx.length = ctxLen) (henc : encodeUtf8 purpose = some encoded)
    (hpurpose : 0 < encoded.length ∧ encoded.length ≤ maxPurposeLen) (httl : 0 < ttl ∧ ttl ≤ maxTtl)
    (hstamp : m.stamp < 256 ^ 8) : ∃ a, makeAssertion identity appId audience purpose ctx ttl m = some a := by
  have hkey : identity.publicKey.length ≤ 8192 := identity.fits.2
  have hpack : ¬ (256 ^ 8 ≤ m.stamp ∨ 256 ^ 2 ≤ identity.publicKey.length) := by
    rw [not_or, not_le, not_le]
    exact ⟨hstamp, by omega⟩
  refine ⟨signed identity m.coins (draft identity.publicKey appId audience encoded ctx ttl m), ?_⟩
  rw [makeAssertion, if_neg (not_not.mpr happ), if_neg (not_not.mpr haud), if_neg (not_not.mpr hctx), henc]
  simp only
  rw [if_neg (not_not.mpr hpurpose), if_neg (not_not.mpr httl), if_neg hpack]

variable {stamp : ℕ}

theorem mem_claim {c : NonceCache} {nonce k : Bytes} {expiresAt : ℕ}
    (h : k ∈ (c.claim nonce expiresAt stamp).2.seen.keys) : k = nonce ∨ k ∈ c.seen.keys := by
  have hexpire : ∀ {k : Bytes}, k ∈ (c.expire stamp).seen.keys → k ∈ c.seen.keys := by
    intro k hk
    unfold NonceCache.expire at hk
    split_ifs at hk with hsmall
    · exact hk
    · obtain ⟨v, hv⟩ := Dict.mem_keys.mp hk
      exact Dict.mem_keys_of_get? (Dict.get?_of_filterVal hv)
  unfold NonceCache.claim at h
  simp only at h
  split_ifs at h with hlen hmem
  · exact Or.inr h
  · exact Or.inr (hexpire h)
  · rcases Dict.mem_keys_set.mp h with rfl | hk
    · exact Or.inl rfl
    · obtain ⟨v, hv⟩ := Dict.mem_keys.mp hk
      exact Or.inr (hexpire (Dict.mem_keys_of_get? (Dict.get?_of_makeRoom hv)))

theorem claim_of_notMem {c : NonceCache} {nonce : Bytes} {expiresAt : ℕ}
    (hlen : nonce.length = nonceLen) (h : nonce ∉ c.seen.keys) : (c.claim nonce expiresAt stamp).1 = true := by
  have hgone : nonce ∉ (c.expire stamp).seen.keys := by
    intro hmem
    unfold NonceCache.expire at hmem
    split_ifs at hmem with hsmall
    · exact h hmem
    · obtain ⟨v, hv⟩ := Dict.mem_keys.mp hmem
      exact h (Dict.mem_keys_of_get? (Dict.get?_of_filterVal hv))
  unfold NonceCache.claim
  simp only
  rw [if_neg (not_not.mpr hlen), if_neg hgone]

variable {purpose : Option Text} {ctx : Option Bytes} {nonces : NonceCache}

/-- **What a returned principal stands for**: an assertion that was read and passed every check. -/
theorem verifyAssertion_spec {blob : Bytes}
 {principal : Principal}
    (h : (verifyAssertion K blob appId audience purpose ctx nonces stamp).1 = some principal) :
    ∃ a, parseAssertion blob = some a ∧ Checks K appId audience purpose ctx stamp a ∧
      principal = principalOf K a := by
  unfold verifyAssertion at h
  split at h
  · cases h
  · next a hparse =>
    by_cases hchecks : Checks K appId audience purpose ctx stamp a
    · rw [if_pos hchecks] at h
      have hsome : principalOf K a = principal := by
        simp only at h
        split_ifs at h
        exact Option.some.inj h
      exact ⟨a, hparse, hchecks, hsome.symm⟩
    · rw [if_neg hchecks] at h
      cases h

theorem verifyAssertion_of {blob : Bytes}
 {a : Assertion} (hparse : parseAssertion blob = some a)
    (hchecks : Checks K appId audience purpose ctx stamp a) (hnew : a.nonce ∉ nonces.seen.keys) :
    (verifyAssertion K blob appId audience purpose ctx nonces stamp).1 = some (principalOf K a) := by
  have hclaim : (nonces.claim a.nonce a.expiresAt stamp).1 = true :=
    claim_of_notMem (fits_of_parse hparse).1.nonce hnew
  unfold verifyAssertion
  rw [hparse]
  simp only
  rw [if_pos hchecks, if_pos hclaim]

theorem mem_verifyAssertion {blob : Bytes}
 {k : Bytes} (h : k ∈ (verifyAssertion K blob appId audience purpose ctx nonces stamp).2.seen.keys) :
    k ∈ nonces.seen.keys ∨ ∃ a, parseAssertion blob = some a ∧ a.nonce = k := by
  unfold verifyAssertion at h
  split at h
  · exact Or.inl h
  · next a hparse =>
    by_cases hchecks : Checks K appId audience purpose ctx stamp a
    · rw [if_pos hchecks] at h
      rcases mem_claim h with rfl | hk
      · exact Or.inr ⟨a, hparse, rfl⟩
      · exact Or.inl hk
    · rw [if_neg hchecks] at h
      exact Or.inl h

end NMesh.AppAuth.Verify
