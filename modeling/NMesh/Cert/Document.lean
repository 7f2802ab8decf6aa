import NMesh.Cert.Descent
import NMesh.Cert.Store

/-! # The saved store

`save` writes a store as one JSON object; `load` reads a file back into a new store through `revoke` and `add`, so
that what does not parse or no longer verifies is skipped. `none` stands for a file that makes `load` raise. A set
has no order: `save` is given the order in which the roots are written. -/

namespace NMesh.Cert.Document

open Base.BigEndian Base.Utf8 Base.Hex Base.Ordered Base.JsonText
open NMesh.Cert.Identity NMesh.Cert.Store NMesh.Cert.Store.CertStore NMesh.Cert.Descent

variable {K : Crypto}

/-! ### The default bounds -/

def defaultSubjects : ℕ := 4096

def defaultPerSubject : ℕ := 8

def defaultRevocations : ℕ := 4096

/-! ### One certificate -/

/-- What a statement raises: an exception that skips an entry of the file, or another. -/
inductive Raised
  | valueError
  | keyError
  | other

/-- `bytes.fromhex(value)` -/
def hexOf : Json → Except Raised Bytes
  | .str s =>
    match fromHex s with
    | some data => .ok data
    | none => .error .valueError
  | _ => .error .other

/-- `data[key]` -/
def item (data : Json) (key : Text) : Except Raised Json :=
  match data with
  | .obj members =>
    match getL key members with
    | some value => .ok value
    | none => .error .keyError
  | _ => .error .other

/-- `NodeID(raw)` -/
def nodeOf (raw : Bytes) : Except Raised NodeID :=
  match NodeID.ofRaw raw with
  | some nodeId => .ok nodeId
  | none => .error .valueError

/-- A time as it is packed; what cannot be packed is out of range. -/
def stamp : Json → ℕ
  | .int n => if 0 ≤ n then n.toNat else 256 ^ 8
  | .bool b => b.toNat
  | _ => 256 ^ 8

/-- The exception behind an error of `Certificate.build`: `struct.error` is no `ValueError`. -/
def raisedBy (error : String) : Raised :=
  if error = "argument out of range" then .other else .valueError

/-- `Certificate.to_json` -/
def certJson (c : Certificate K) : Json :=
  .obj [(ascii "subject_pub", .str (toHex c.subjectPub)), (ascii "issuer_id", .str (toHex c.issuerId.raw)),
    (ascii "issuer_pub", .str (toHex c.issuerPub)), (ascii "issued_at", .int c.issuedAt),
    (ascii "expires_at", .int c.expiresAt), (ascii "signature", .str (toHex c.signature))]

/-- `Certificate.from_json` -/
def certOfJson (K : Crypto) (subjectIdHex : Text) (data : Json) : Except Raised (Certificate K) := do
  let subjectId ← nodeOf (← hexOf (.str subjectIdHex))
  let subjectPub ← hexOf (← item data (ascii "subject_pub"))
  let issuerId ← nodeOf (← hexOf (← item data (ascii "issuer_id")))
  let issuerPub ← hexOf (← item data (ascii "issuer_pub"))
  let issuedAt ← item data (ascii "issued_at")
  let expiresAt ← item data (ascii "expires_at")
  let signature ← hexOf (← item data (ascii "signature"))
  (Certificate.build K subjectId subjectPub issuerId issuerPub (stamp issuedAt) (stamp expiresAt)
    signature).mapError raisedBy

/-! ### The file -/

/-- What `save` writes. -/
def saved (s : CertStore K) (lineage : Lineage) (roots : List NodeID) : Json :=
  .obj [(ascii "roots", .arr (roots.map fun r => .str (toHex r.raw))),
    (ascii "certs", .obj (s.certs.entries.map fun e => (toHex e.1.raw, .arr (e.2.map certJson)))),
    (ascii "revocations", .arr (s.revoked.values.map fun held => .str (toHex held.record))),
    (ascii "lineage", lineage.toJson)]

/-- The text of the file; `roots` are the store's roots in some order. -/
def save (s : CertStore K) (lineage : Lineage) (roots : List NodeID) : Text :=
  dumps (saved s lineage roots)

/-- What `for … in value` runs over. -/
def iterate : Json → Option (List Json)
  | .arr items => some items
  | .str s => some (s.map fun c => .str [c])
  | .obj members => some (members.map fun e => .str e.1)
  | _ => none

/-- `value.items()` -/
def membersOf : Json → Option (List (Text × Json))
  | .obj members => some members
  | _ => none

/-- Take in a root. A root that is no node id is never asked for, and left out. -/
def loadRoot (s : CertStore K) (rootHex : Json) : Option (CertStore K) :=
  match hexOf rootHex with
  | .ok raw =>
    match NodeID.ofRaw raw with
    | some nodeId => some { s with roots := insert nodeId s.roots }
    | none => some s
  | .error .valueError => some s
  | .error _ => none

def loadRevocation (s : CertStore K) (recordHex : Json) : Option (CertStore K) :=
  match hexOf recordHex with
  | .ok record => some (s.revoke record).2
  | .error .valueError => some s
  | .error _ => none

def loadCert (clock : ℕ) (subjectHex : Text) (s : CertStore K) (certData : Json) :
    Option (CertStore K) :=
  match certOfJson K subjectHex certData with
  | .ok cert => some (s.add cert clock).2
  | .error .other => none
  | .error _ => some s

def loadSubject (clock : ℕ) (s : CertStore K) (e : Text × Json) : Option (CertStore K) :=
  (iterate e.2).bind fun certList => certList.foldlM (loadCert clock e.1) s

/-- **Read a store back**: the roots, the revocations, the lineage, and then the certificates. No file is an
empty one. -/
def load (K : Crypto) (floatRepr : Text → Text) (depth : ℕ) (file : Option Text) (ownId : NodeID)
    (clock : ℕ) : Option (CertStore K × Lineage) :=
  let store := CertStore.new K ownId defaultSubjects defaultPerSubject defaultRevocations
  match file with
  | none => some (store, Lineage.new maxEntries)
  | some text => do
    let data ← (loads floatRepr depth text).bind membersOf
    let roots ← iterate ((getL (ascii "roots") data).getD (.arr []))
    let store ← roots.foldlM loadRoot store
    let revocations ← iterate ((getL (ascii "revocations") data).getD (.arr []))
    let store ← revocations.foldlM loadRevocation store
    let lineage := Lineage.fromJson ((getL (ascii "lineage") data).getD .null) maxEntries
    let certs ← membersOf ((getL (ascii "certs") data).getD (.obj []))
    let store ← certs.foldlM (loadSubject clock) store
    return (store, lineage)

theorem load_eq {floatRepr : Text → Text} {depth : ℕ} {text : Text} {ownId : NodeID} {clock : ℕ}
    {data certs : List (Text × Json)} {roots revocations : List Json} {s1 s2 s3 : CertStore K}
    (hread : (loads floatRepr depth text).bind membersOf = some data)
    (hroots : iterate ((getL (ascii "roots") data).getD (.arr [])) = some roots)
    (hs1 : roots.foldlM loadRoot
      (CertStore.new K ownId defaultSubjects defaultPerSubject defaultRevocations) = some s1)
    (hrevocations : iterate ((getL (ascii "revocations") data).getD (.arr [])) = some revocations)
    (hs2 : revocations.foldlM loadRevocation s1 = some s2)
    (hcerts : membersOf ((getL (ascii "certs") data).getD (.obj [])) = some certs)
    (hs3 : certs.foldlM (loadSubject clock) s2 = some s3) :
    load K floatRepr depth (some text) ownId clock =
      some (s3, Lineage.fromJson ((getL (ascii "lineage") data).getD .null) maxEntries) := by
  simp only [load, hread, Option.bind_eq_bind, Option.bind_some, hroots, hs1, hrevocations, hs2, hcerts,
    hs3, Option.pure_def]

/-! ### A certificate is read back -/

theorem hexOf_toHex (data : Bytes) : hexOf (.str (toHex data)) = .ok data := by
  rw [hexOf, fromHex_toHex]

theorem ofRaw_raw (nodeId : NodeID) : NodeID.ofRaw nodeId.raw = some nodeId := by
  unfold NodeID.ofRaw
  rw [dif_pos nodeId.len]

theorem nodeOf_raw (nodeId : NodeID) : nodeOf nodeId.raw = .ok nodeId := by
  unfold nodeOf
  rw [ofRaw_raw]

theorem stamp_nat (n : ℕ) : stamp (.int n) = n := by
  rw [stamp, if_pos (Int.natCast_nonneg n), Int.toNat_natCast]

theorem build_self (c : Certificate K) : Certificate.build K c.subjectId c.subjectPub c.issuerId
    c.issuerPub c.issuedAt c.expiresAt c.signature = .ok c := by
  unfold Certificate.build
  rw [dif_pos c.subject_ok, dif_pos c.issuer_ok, dif_pos c.packs, dif_pos c.verified]

theorem item_certJson (c : Certificate K) :
    item (certJson c) (ascii "subject_pub") = .ok (.str (toHex c.subjectPub)) ∧
    item (certJson c) (ascii "issuer_id") = .ok (.str (toHex c.issuerId.raw)) ∧
    item (certJson c) (ascii "issuer_pub") = .ok (.str (toHex c.issuerPub)) ∧
    item (certJson c) (ascii "issued_at") = .ok (.int c.issuedAt) ∧
    item (certJson c) (ascii "expires_at") = .ok (.int c.expiresAt) ∧
    item (certJson c) (ascii "signature") = .ok (.str (toHex c.signature)) :=
  ⟨rfl, rfl, rfl, rfl, rfl, rfl⟩

theorem certOfJson_certJson (c : Certificate K) :
    certOfJson K (toHex c.subjectId.raw) (certJson c) = .ok c := by
  obtain ⟨h1, h2, h3, h4, h5, h6⟩ := item_certJson c
  unfold certOfJson
  simp only [hexOf_toHex, h1, h2, h3, h4, h5, h6, bind, Except.bind, nodeOf_raw, stamp_nat, build_self,
    Except.mapError]

end NMesh.Cert.Document
