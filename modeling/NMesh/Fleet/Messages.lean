import NMesh.AppAuth.Once
import NMesh.Fleet.Ledger
import Mathlib.Data.Set.Function

/-! # The messages of the fleet

A frame is a byte for its type and a body. A request is signed: the body has an assertion before the JSON, over the
type and these very bytes, under a purpose of the type. A reply is JSON alone.

* `openSigned_spec`: what a request that was opened carries;
* `ctx_inj`: the context of an assertion is that of one type and one body. -/

namespace NMesh.Fleet.Messages

open Base.BigEndian Base.Utf8 Base.JsonText
open NMesh.AppAuth.Format NMesh.AppAuth.Format.Assertion NMesh.AppAuth.Verify NMesh.AppAuth.Once
open NMesh.Fleet.Ledger

/-! ### Types -/

/-- The signed messages. -/
inductive Signed
  | enrolRequest | enrolGrant | enrolDeny | enrolRevoke | enrolNarrow | consoleRequest | consoleSession | fileRequest
  | preauthClaim | statusRequest | logsRequest | linksRequest | inviteRequest | updateRequest | dockerRequest
  | shellOpen | scanRequest | provisionRequest
  deriving DecidableEq, Repr

/-- The messages that are not signed. -/
inductive Reply
  | statusReport | inviteIssued | logsReply | linksReply | updateOutput | updateResult | dockerReply | shellOpened
  | scanResult | provisionProgress | provisionResult | consoleReply | consoleSessionIssued | fileReply | fileData
  | error
  deriving DecidableEq, Repr

def Signed.code : Signed → UInt8
  | .enrolRequest => 0x01
  | .enrolGrant => 0x02
  | .enrolDeny => 0x03
  | .enrolRevoke => 0x04
  | .preauthClaim => 0x05
  | .enrolNarrow => 0x06
  | .statusRequest => 0x10
  | .updateRequest => 0x20
  | .shellOpen => 0x30
  | .scanRequest => 0x40
  | .provisionRequest => 0x42
  | .consoleRequest => 0x50
  | .consoleSession => 0x52
  | .inviteRequest => 0x60
  | .fileRequest => 0x70
  | .dockerRequest => 0x80
  | .logsRequest => 0x90
  | .linksRequest => 0xA0

def Reply.code : Reply → UInt8
  | .statusReport => 0x11
  | .error => 0x12
  | .updateOutput => 0x21
  | .updateResult => 0x22
  | .shellOpened => 0x31
  | .scanResult => 0x41
  | .provisionProgress => 0x43
  | .provisionResult => 0x44
  | .consoleReply => 0x51
  | .consoleSessionIssued => 0x53
  | .inviteIssued => 0x61
  | .fileReply => 0x71
  | .fileData => 0x72
  | .dockerReply => 0x81
  | .logsReply => 0x91
  | .linksReply => 0xA1

def signedInbound : List Signed :=
  [.enrolRequest, .enrolGrant, .enrolDeny, .enrolRevoke, .enrolNarrow, .consoleRequest, .consoleSession, .fileRequest,
    .preauthClaim, .statusRequest, .logsRequest, .linksRequest, .inviteRequest, .updateRequest, .dockerRequest,
    .shellOpen, .scanRequest, .provisionRequest]

def replyInbound : List Reply :=
  [.statusReport, .inviteIssued, .logsReply, .linksReply, .updateOutput, .updateResult, .dockerReply, .shellOpened,
    .scanResult, .provisionProgress, .provisionResult, .consoleReply, .consoleSessionIssued, .fileReply, .fileData,
    .error]

def signedOf (code : UInt8) : Option Signed := signedInbound.find? fun kind => kind.code = code

def replyOf (code : UInt8) : Option Reply := replyInbound.find? fun kind => kind.code = code

def shellInput : UInt8 := 0x32
def shellOutput : UInt8 := 0x33
def shellResize : UInt8 := 0x34
def shellClose : UInt8 := 0x35

/-- `PURPOSE_BY_CAP` -/
def purposeBy (cap : Cap) : Text := ascii "fleet." ++ cap.name

/-- `_PURPOSE_FOR` -/
def Signed.purpose : Signed → Text
  | .enrolRequest => ascii "fleet.enrol"
  | .enrolGrant => ascii "fleet.grant"
  | .enrolDeny => ascii "fleet.grant"
  | .enrolRevoke => ascii "fleet.grant"
  | .enrolNarrow => ascii "fleet.narrow"
  | .preauthClaim => ascii "fleet.preauth"
  | .consoleRequest => purposeBy .manage
  | .consoleSession => purposeBy .passwordless
  | .fileRequest => purposeBy .shell
  | .statusRequest => purposeBy .status
  | .logsRequest => purposeBy .logs
  | .linksRequest => purposeBy .links
  | .inviteRequest => purposeBy .invite
  | .updateRequest => purposeBy .update
  | .dockerRequest => purposeBy .docker
  | .shellOpen => purposeBy .shell
  | .scanRequest => purposeBy .scan
  | .provisionRequest => purposeBy .provision

theorem code_inj : ∀ {kind kind' : Signed}, kind.code = kind'.code → kind = kind' := by
  intro kind kind' h
  cases kind <;> cases kind' <;> first | rfl | exact absurd h (by decide)

/-! ### Reading -/

def maxBody : ℕ := 56000
def maxAssertion : ℕ := 32 * 1024
def ridLen : ℕ := 8

/-- What Python brings in: the primitives, how a float prints, how deep JSON is read, `str` of what is no string,
`int`, `text.upper()` and `text.strip().lower()`; then the id of the app, and of this node. -/
structure World where
  K : Primitives
  floatRepr : Text → Text
  depth : ℕ
  str : Json → Text
  int : Json → Option ℤ
  upper : Text → Text
  normal : Text → Text
  appId : Bytes
  nodeId : Bytes

variable (W : World)

def loadJson (raw : Bytes) : Option Json :=
  if raw = [] ∨ maxBody < raw.length then none
  else
    match (decodeUtf8 raw).bind (loads W.floatRepr W.depth) with
    | some (.obj members) => some (.obj members)
    | _ => none

/-- `_rid` -/
def ridOf (doc : Json) : Text :=
  match doc.get? (ascii "rid") with
  | some (.str rid) => rid.take (ridLen * 2)
  | _ => []

def fleetTag : Bytes := (ascii "fleet").map UInt8.ofNat

def ctxOf (kind : Signed) (raw : Bytes) : Bytes := ctxHash W.K [fleetTag, [kind.code], raw]

def splitBody (body : Bytes) : Option (Bytes × Bytes) :=
  if body.length < 2 then none
  else
    let n := ofBE (body.take 2)
    if n = 0 ∨ maxAssertion < n ∨ body.length < 2 + n then none
    else if maxBody < (body.drop (2 + n)).length then none
    else some (slice body 2 n, body.drop (2 + n))

/-- A request that was opened: who sent it, what it says, and its proof. -/
structure Request where
  principal : Principal
  doc : Json
  proof : Bytes
  raw : Bytes

def openSigned (src : Bytes) (kind : Signed) (body : Bytes) (nonces : NonceCache) (stamp : ℕ) :
    Option Request × NonceCache :=
  match splitBody body with
  | none => (none, nonces)
  | some (assertion, raw) =>
    let checked := verifyAssertion W.K assertion W.appId W.nodeId (some kind.purpose) (some (ctxOf W kind raw)) nonces
      stamp
    (checked.1.bind fun principal =>
      if principal.nodeId ≠ src then none
      else (loadJson W raw).map fun doc => ⟨principal, doc, assertion, raw⟩, checked.2)

/-! ### What was opened -/

variable {W} {src body : Bytes} {kind : Signed} {nonces : NonceCache} {stamp : ℕ}

/-- **A request that was opened carries its sender's assertion**, addressed to this node or to none in particular,
under the purpose of the type, over the type and these bytes; its nonce was not alive in the cache, and is then. -/
theorem openSigned_spec {r : Request} (h : (openSigned W src kind body nonces stamp).1 = some r) :
    splitBody body = some (r.proof, r.raw) ∧ loadJson W r.raw = some r.doc ∧ ∃ a, parseAssertion r.proof = some a ∧
      Checks W.K W.appId W.nodeId (some kind.purpose) (some (ctxOf W kind r.raw)) stamp a ∧
      r.principal = principalOf W.K a ∧ W.K.idOf a.subjectPub = src ∧
      (openSigned W src kind body nonces stamp).2.seen.get? a.nonce = some a.expiresAt ∧
      ∀ e, nonces.seen.get? a.nonce = some e → e ≤ stamp := by
  unfold openSigned at h ⊢
  cases hsplit : splitBody body with
  | none =>
    rw [hsplit] at h
    cases h
  | some parts =>
    obtain ⟨assertion, raw⟩ := parts
    rw [hsplit] at h
    dsimp only at h ⊢
    obtain ⟨principal, hprincipal, h⟩ := Option.bind_eq_some_iff.mp h
    split_ifs at h with hsrc
    obtain ⟨doc, hdoc, rfl⟩ := Option.map_eq_some_iff.mp h
    obtain ⟨a, hparse, hchecks, rfl, hthere, hnew⟩ := verify_spec hprincipal
    exact ⟨rfl, hdoc, a, hparse, hchecks, rfl, not_not.mp hsrc, hthere, hnew⟩

theorem get?_openSigned (hroom : Roomy stamp nonces) {k : Bytes} {e : ℕ} (h : nonces.seen.get? k = some e)
    (hlive : stamp < e) : (openSigned W src kind body nonces stamp).2.seen.get? k = some e := by
  unfold openSigned
  cases splitBody body with
  | none => exact h
  | some parts => exact get?_verify hroom h hlive

theorem ctxInput_inj {kind kind' : Signed} {raw raw' : Bytes}
    (h : ctxInput [fleetTag, [kind.code], raw] = ctxInput [fleetTag, [kind'.code], raw']) :
    kind = kind' ∧ raw = raw' := by
  simp only [ctxInput, List.flatMap_cons, List.flatMap_nil, List.append_nil, List.append_assoc] at h
  have h := List.append_cancel_left (List.append_cancel_left (List.append_cancel_left h))
  rw [List.length_singleton, List.length_singleton] at h
  have h := List.append_cancel_left h
  rw [List.singleton_append, List.singleton_append] at h
  obtain ⟨hcode, h⟩ := List.cons.inj h
  have hlen : (toBE 4 raw.length).length = (toBE 4 raw'.length).length := by rw [length_toBE, length_toBE]
  exact ⟨code_inj hcode, (List.append_inj h hlen).2⟩

/-- **A context is that of one type and one body**, where the digest tells the inputs apart. -/
theorem ctx_inj {T : Set Bytes} (hinj : Set.InjOn W.K.sha256 T) {kind kind' : Signed} {raw raw' : Bytes}
    (hmem : ctxInput [fleetTag, [kind.code], raw] ∈ T) (hmem' : ctxInput [fleetTag, [kind'.code], raw'] ∈ T)
    (h : ctxOf W kind raw = ctxOf W kind' raw') : kind = kind' ∧ raw = raw' :=
  ctxInput_inj (hinj hmem hmem' h)

end NMesh.Fleet.Messages
