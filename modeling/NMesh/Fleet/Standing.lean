import NMesh.Fleet.Replies

/-! # What a right has opened

Five things outlive the request that opened them: a shell, an upload, a console session without a password, the follow
of a log and that of the links. Each stands in a table of its own, under its peer.

* `Backed`: whoever holds one of them still has the capabilities that opened it;
* `Careful`: the condition; a change of what a peer may do leaves it what its follows need, and all it holds where the
  change drops nothing, and a job opens a thing only while the peer still has the right;
* `backed_run`: in every run of careful actions. -/

namespace NMesh.Fleet.Standing

open Base.BigEndian Base.Utf8 Base.Hex Base.Ordered Base.JsonText Base.Runs
open NMesh.AppAuth.Format NMesh.AppAuth.Verify
open NMesh.Fleet.Ledger NMesh.Fleet.Messages NMesh.Fleet.Agent NMesh.Fleet.App NMesh.Fleet.Steps NMesh.Fleet.Gates
  FleetState
open NMesh.Fleet.Replies (asking nodeA)

/-! ### Things that stand -/

/-- What outlives the request that opened it. -/
inductive Thing
  | shell | upload | session | logFollow | linkFollow
  deriving DecidableEq

def things : List Thing := [.shell, .upload, .session, .logFollow, .linkFollow]

theorem mem_things (thing : Thing) : thing ∈ things := by cases thing <;> decide

def Thing.opener : Thing → List Cap
  | .shell => [.shell]
  | .upload => [.shell]
  | .session => [.passwordless, .manage]
  | .logFollow => [.logs]
  | .linkFollow => [.links]

/-- What goes with a right, where a right is taken at all. -/
def dropped : List Thing := [.shell, .upload, .session]

def holders (s : State) : Thing → List Text
  | .shell => s.shells.values.map toHex
  | .upload => s.uploads.keys.map Prod.fst
  | .session => s.sessions.keys
  | .logFollow => s.logFollowers.keys
  | .linkFollow => s.linkFollowers.keys

/-- **Whoever holds a thing has the capabilities that opened it.** -/
def Backed (s : State) : Prop :=
  ∀ thing, ∀ peer ∈ holders s thing, ∀ cap ∈ thing.opener, s.ledger.allows peer cap = true

/-! ### The condition -/

/-- What a peer may do changes: the grant it has then, and whether what it holds is gone through. -/
structure Change where
  peer : Text
  caps : List Cap
  drops : Bool

def sameKey (key : Text) : Bool := (nodeOf key).map toHex = some key

def cutOff (s : State) (key : Text) : Option Change :=
  if s.ledger.isOperator key then some ⟨key, [], sameKey key⟩ else none

def setTo (s : State) (key : Text) (caps : List Cap) (narrowOnly : Bool) : Option Change :=
  (s.ledger.operators.get? key).map fun entry => ⟨key, newCaps entry.caps caps narrowOnly, sameKey key⟩

/-- The change in a frame: its sender takes back its grant, or hands rights back. -/
def changeIn (s : State) (src : Bytes) (r : Request) : Signed → Option Change
  | .enrolRevoke => some ⟨toHex src, [], true⟩
  | .enrolNarrow => (cleanCaps (r.doc.get? (ascii "caps"))).bind fun caps =>
      (s.ledger.operators.get? (toHex src)).map fun entry =>
        ⟨toHex src, newCaps entry.caps caps true, true⟩
  | _ => none

def changeBy (s : State) : Call → Option Change
  | .approveEnrolment key caps => (s.ledger.pendingIn.get? key).bind fun asked =>
      let granted := grantedOf asked.caps caps
      if granted = [] ∨ nodeOf key = none ∨
          (s.ledger.addOperator key asked.pub granted asked.label asked.proof).isNone then none
      else some ⟨key, granted, false⟩
  | .revoke key => cutOff s key
  | .dropCapabilities key caps => (s.ledger.managed.get? key).bind fun entry =>
      let keep := (clean entry.caps).filter (· ∉ cleanNames caps)
      if keep.length ≠ entry.caps.length ∧ keep = [] then cutOff s key else none
  | .setOperatorCapabilities key caps =>
    if cleanNames caps ≠ [] then setTo s key (cleanNames caps) false
    else if caps = [] then cutOff s key
    else none
  | .claimPreauth operatorId operatorPub caps label =>
    if cleanNames caps = [] ∨
        (s.ledger.addOperator (toHex operatorId) operatorPub (cleanNames caps) label []).isNone then none
    else some ⟨toHex operatorId, cleanNames caps, false⟩
  | _ => none

def regrants (c : Config) (s : State) : Action → Option Change
  | .frame env src (code :: body) =>
    if env.allowed then (signedOf code).bind fun kind =>
      (openSigned c.world src kind body s.nonces env.stamp).1.bind fun r => changeIn s src r kind
    else none
  | .call _ call => changeBy s call
  | _ => none

/-- A slice opens an upload: the first of a file, read and written, and not the last. -/
def opensUpload (W : World) (owner : Bytes) (doc : Json) (o : Outcome) (s : State) : Prop :=
  (textAt W doc "op" []).take 16 = ascii "write" ∧ s.uploads.get? (toHex owner, (textAt W doc "uid" []).take 32) = none ∧
    (∀ data ∈ NMesh.Base.Base64.decode (textOr W doc "data" []), data.length ≤ writeSlice) ∧
    (NMesh.Base.Base64.decode (textOr W doc "data" [])).isSome ∧
    ((doc.get? (ascii "offset")).bind Json.int?).getD (-1) = 0 ∧ o.ok = true ∧ o.wrote = true ∧
    flag doc "final" = false

instance (W : World) (owner : Bytes) (doc : Json) (o : Outcome) (s : State) :
    Decidable (opensUpload W owner doc o s) := by
  unfold opensUpload
  infer_instance

def opensAt (W : World) (o : Outcome) (s : State) : Job → Option (Thing × Text)
  | .work owner _ .shell => if o.ok then some (.shell, toHex owner) else none
  | .work owner _ (.file doc) => if opensUpload W owner doc o s then some (.upload, toHex owner) else none
  | .work owner _ (.logFollow on _) =>
    if on = true ∧ (toHex owner ∈ s.logFollowers.keys ∨ s.logFollowers.size < maxLogFollowers) ∧ o.ready = true then
      some (.logFollow, toHex owner)
    else none
  | .following owner _ _ => if o.ok then some (.logFollow, toHex owner) else none
  | .linking owner _ => if o.ok then some (.linkFollow, toHex owner) else none
  | _ => none

/-- **What an action opens by a job that was authorised earlier.** -/
def opens (c : Config) (s : State) : Action → Option (Thing × Text)
  | .job i o => s.jobs[i]?.bind fun job => opensAt c.world o s job
  | _ => none

/-- A change leaves the peer the capabilities behind all it holds that the change does not go through. -/
def Unused (s : State) (change : Change) : Prop :=
  ∀ thing ∈ things, (change.drops = true → thing ∉ dropped) → change.peer ∈ holders s thing →
    ∀ cap ∈ thing.opener, cap ∈ effective change.caps

/-- **Rights are taken from those who hold nothing by them, and nothing is opened by a right that is gone.** -/
def Careful (c : Config) (s : State) (a : Action) : Prop :=
  (∀ change ∈ regrants c s a, Unused s change) ∧
    ∀ opened ∈ opens c s a, ∀ cap ∈ opened.1.opener, s.ledger.allows opened.2 cap = true

instance (s : State) (change : Change) : Decidable (Unused s change) := by
  unfold Unused
  infer_instance

instance (c : Config) (s : State) (a : Action) : Decidable (Careful c s a) := by
  unfold Careful
  infer_instance

/-! ### Fewer things -/

def Fewer (s s' : State) : Prop := ∀ thing, ∀ peer ∈ holders s' thing, peer ∈ holders s thing

section Dropping

variable {s s' s'' : State} {src : Bytes} {caps : List Cap}

theorem Fewer.refl (s : State) : Fewer s s := fun _ _ h => h

theorem Fewer.trans (h : Fewer s s') (h' : Fewer s' s'') : Fewer s s'' :=
  fun thing peer hmem => h thing peer (h' thing peer hmem)

theorem fewer_of_holders (h : holders s' = holders s) : Fewer s s' := fun _ _ hmem => h ▸ hmem

theorem holders_spawn (job : Job) (s : State) : holders (spawn job s) = holders s := by
  rw [spawn_eq]
  rfl

theorem closeShell_eq (sid : Bytes) (notify : Bool) (s : State) :
    closeShell sid notify s = { s with shells := s.shells.pop sid, jobs := (closeShell sid notify s).jobs } := by
  unfold closeShell
  cases hget : s.shells.get? sid with
  | none =>
    dsimp only
    rw [Dict.pop_of_notMem (Dict.get?_eq_none.mp hget)]
  | some owner =>
    dsimp only
    split_ifs
    · rw [spawn_eq]
    · rfl

theorem closeShells_eq (sids : List Bytes) : ∀ s : State,
    sids.foldl (fun s sid => closeShell sid true s) s =
      { s with
        shells := sids.foldl Dict.pop s.shells
        jobs := (sids.foldl (fun s sid => closeShell sid true s) s).jobs } := by
  induction sids with
  | nil => exact fun _ => rfl
  | cons sid sids ih =>
    intro s
    rw [List.foldl_cons, ih, closeShell_eq]
    rfl

theorem values_foldl_pop {κ ν : Type} [DecidableEq κ] {d : Dict κ ν} {ks : List κ} {v : ν}
    (h : v ∈ (ks.foldl Dict.pop d).values) : ∃ k ∉ ks, d.get? k = some v := by
  obtain ⟨k, hk⟩ := Dict.mem_values.mp h
  rw [Dict.get?_foldl_pop] at hk
  split_ifs at hk with hmem
  exact ⟨k, hmem, hk⟩

theorem keys_foldl_pop {κ ν : Type} [DecidableEq κ] {d : Dict κ ν} {ks : List κ} {k : κ}
    (h : k ∈ (ks.foldl Dict.pop d).keys) : k ∈ d.keys := by
  obtain ⟨v, hv⟩ := Dict.mem_keys.mp h
  rw [Dict.get?_foldl_pop] at hv
  split_ifs at hv
  exact Dict.mem_keys_of_get? hv

theorem fewer_closeShells (sids : List Bytes) (s : State) :
    Fewer s (sids.foldl (fun s sid => closeShell sid true s) s) := by
  rw [closeShells_eq]
  intro thing peer hmem
  cases thing with
  | shell =>
    obtain ⟨owner, howner, rfl⟩ := List.mem_map.mp hmem
    obtain ⟨sid, -, hsid⟩ := values_foldl_pop howner
    exact List.mem_map_of_mem (Dict.mem_values.mpr ⟨sid, hsid⟩)
  | upload | session | logFollow | linkFollow => exact hmem

theorem fewer_closeShell (sid : Bytes) (notify : Bool) (s : State) : Fewer s (closeShell sid notify s) := by
  have hone := fewer_closeShells [sid] s
  rw [closeShells_eq] at hone
  rw [closeShell_eq]
  exact hone

theorem dropShellsOf_spec (src : Bytes) (s : State) :
    Fewer s (dropShellsOf src s) ∧ toHex src ∉ holders (dropShellsOf src s) .shell := by
  unfold dropShellsOf
  refine ⟨Fewer.trans (fewer_of_holders rfl) (fewer_closeShells _ _), fun hmem => ?_⟩
  rw [closeShells_eq] at hmem
  obtain ⟨owner, howner, hhex⟩ := List.mem_map.mp hmem
  obtain ⟨sid, hsid, hget⟩ := values_foldl_pop howner
  refine hsid (List.mem_map.mpr ⟨(sid, owner), List.mem_filter.mpr ⟨Dict.get?_eq_some.mp hget, ?_⟩, rfl⟩)
  exact decide_eq_true (toHex_inj hhex)

theorem fewer_uploads {uploads : Dict (Text × Text) Unit} (h : ∀ key ∈ uploads.keys, key ∈ s.uploads.keys) :
    Fewer s { s with uploads := uploads } := by
  intro thing peer hmem
  cases thing with
  | shell | session | logFollow | linkFollow => exact hmem
  | upload =>
    obtain ⟨key, hkey, rfl⟩ := List.mem_map.mp hmem
    exact List.mem_map_of_mem (h key hkey)

theorem dropUploadsOf_spec (src : Bytes) (s : State) :
    Fewer s (dropUploadsOf src s) ∧ toHex src ∉ holders (dropUploadsOf src s) .upload := by
  have hkeys : ∀ key ∈ (dropUploadsOf src s).uploads.keys, key ∈ s.uploads.keys ∧ key.1 ≠ toHex src := by
    intro key hkey
    have hkey : key ∈ (s.uploads.filterKeys fun key => decide (key.1 ≠ toHex src)).keys := hkey
    rw [Dict.keys_filterKeys] at hkey
    exact ⟨(List.mem_filter.mp hkey).1, of_decide_eq_true (List.mem_filter.mp hkey).2⟩
  refine ⟨fewer_uploads fun key hkey => (hkeys key hkey).1, fun hmem => ?_⟩
  obtain ⟨key, hkey, heq⟩ := List.mem_map.mp hmem
  exact (hkeys key hkey).2 heq

theorem dropSessionsOf_spec (src : Bytes) (s : State) :
    Fewer s (dropSessionsOf src s) ∧ toHex src ∉ holders (dropSessionsOf src s) .session := by
  refine ⟨fun thing peer hmem => ?_, fun hmem => (Dict.mem_keys_pop.mp hmem).2 rfl⟩
  cases thing with
  | shell | upload | logFollow | linkFollow => exact hmem
  | session => exact (Dict.mem_keys_pop.mp hmem).1

/-- **The shells, the uploads and the sessions of a peer go together.** -/
theorem dropAll_spec (src : Bytes) (s : State) :
    Fewer s (dropSessionsOf src (dropUploadsOf src (dropShellsOf src s))) ∧
      ∀ thing ∈ dropped, toHex src ∉ holders (dropSessionsOf src (dropUploadsOf src (dropShellsOf src s))) thing := by
  obtain ⟨hshells, hnoShell⟩ := dropShellsOf_spec src s
  obtain ⟨huploads, hnoUpload⟩ := dropUploadsOf_spec src (dropShellsOf src s)
  obtain ⟨hsessions, hnoSession⟩ := dropSessionsOf_spec src (dropUploadsOf src (dropShellsOf src s))
  refine ⟨(hshells.trans huploads).trans hsessions, fun thing hthing hmem => ?_⟩
  cases thing with
  | shell => exact hnoShell (huploads _ _ (hsessions _ _ hmem))
  | upload => exact hnoUpload (hsessions _ _ hmem)
  | session => exact hnoSession hmem
  | logFollow | linkFollow => exact absurd hthing (by decide)

/-- **What is left of what a peer holds beyond its grant** was opened by what it still has. -/
theorem dropBeyond_spec (src : Bytes) (caps : List Cap) (s : State) :
    Fewer s (dropBeyond src caps s) ∧ ∀ thing ∈ dropped, toHex src ∈ holders (dropBeyond src caps s) thing →
      ∀ cap ∈ thing.opener, cap ∈ caps := by
  unfold dropBeyond
  dsimp only
  have hfirst : Fewer s (if Cap.shell ∈ caps then s else dropUploadsOf src (dropShellsOf src s)) ∧
      ∀ thing, thing = .shell ∨ thing = .upload →
        toHex src ∈ holders (if Cap.shell ∈ caps then s else dropUploadsOf src (dropShellsOf src s)) thing →
          Cap.shell ∈ caps := by
    split_ifs with hshell
    · exact ⟨Fewer.refl s, fun _ _ _ => hshell⟩
    · obtain ⟨hshells, hnoShell⟩ := dropShellsOf_spec src s
      obtain ⟨huploads, hnoUpload⟩ := dropUploadsOf_spec src (dropShellsOf src s)
      refine ⟨hshells.trans huploads, ?_⟩
      rintro thing (rfl | rfl) hmem
      · exact absurd (huploads _ _ hmem) hnoShell
      · exact absurd hmem hnoUpload
  obtain ⟨hfewer, hopened⟩ := hfirst
  generalize (if Cap.shell ∈ caps then s else dropUploadsOf src (dropShellsOf src s)) = s₁ at hfewer hopened ⊢
  have hsecond : Fewer s₁ (if Cap.passwordless ∈ caps ∧ Cap.manage ∈ caps then s₁ else dropSessionsOf src s₁) ∧
      (toHex src ∈ holders (if Cap.passwordless ∈ caps ∧ Cap.manage ∈ caps then s₁ else dropSessionsOf src s₁) .session →
        Cap.passwordless ∈ caps ∧ Cap.manage ∈ caps) := by
    split_ifs with hboth
    · exact ⟨Fewer.refl s₁, fun _ => hboth⟩
    · exact ⟨(dropSessionsOf_spec src s₁).1, fun hmem => absurd hmem (dropSessionsOf_spec src s₁).2⟩
  obtain ⟨hfewer', hsession⟩ := hsecond
  refine ⟨hfewer.trans hfewer', fun thing hthing hmem cap hcap => ?_⟩
  cases thing with
  | shell =>
    rw [List.mem_singleton.mp hcap]
    exact hopened _ (Or.inl rfl) (hfewer' _ _ hmem)
  | upload =>
    rw [List.mem_singleton.mp hcap]
    exact hopened _ (Or.inr rfl) (hfewer' _ _ hmem)
  | session =>
    rcases List.mem_cons.mp hcap with rfl | hcap
    · exact (hsession hmem).1
    · rw [List.mem_singleton.mp hcap]
      exact (hsession hmem).2
  | logFollow | linkFollow => exact absurd hthing (by decide)

end Dropping

/-! ### Changes of rights -/

/-- The same peers may do the same, and nobody holds more. -/
structure Lighter (s s' : State) : Prop where
  operators : s'.ledger.operators = s.ledger.operators
  fewer : Fewer s s'

/-- **What a change comes to**: the others keep their rights, the peer has its new grant, nobody holds more, and what
the change goes through is opened by what is left. -/
structure Changed (s s' : State) (change : Change) : Prop where
  others : ∀ key ≠ change.peer, ∀ cap, s.ledger.allows key cap = true → s'.ledger.allows key cap = true
  granted : ∀ cap ∈ effective change.caps, s'.ledger.allows change.peer cap = true
  fewer : Fewer s s'
  gone : change.drops = true → ∀ thing ∈ dropped, change.peer ∈ holders s' thing →
    ∀ cap ∈ thing.opener, cap ∈ effective change.caps

/-- What becomes of the rights and of what is held by them. -/
inductive Turns (s s' : State) : Option Change → Prop
  | same (h : Lighter s s') : Turns s s' none
  | changed (change : Change) (h : Changed s s' change) : Turns s s' (some change)

section Changes

variable {s s' s'' : State} {src : Bytes} {key : Text} {change : Option Change}

theorem Lighter.backed (h : Lighter s s') (hbacked : Backed s) : Backed s' := by
  intro thing peer hmem cap hcap
  rw [allows_congr h.operators]
  exact hbacked thing peer (h.fewer thing peer hmem) cap hcap

theorem lighter_same (hoperators : s'.ledger.operators = s.ledger.operators) (hholders : holders s' = holders s) :
    Turns s s' none := .same ⟨hoperators, fewer_of_holders hholders⟩

/-- **A change that leaves each peer what it holds by its rights keeps everything backed.** -/
theorem Turns.backed (h : Turns s s' change) (hunused : ∀ x ∈ change, Unused s x) (hbacked : Backed s) :
    Backed s' := by
  cases h with
  | same h => exact h.backed hbacked
  | changed change h =>
    intro thing peer hmem cap hcap
    have hheld := h.fewer thing peer hmem
    by_cases hpeer : peer = change.peer
    · subst hpeer
      refine h.granted cap ?_
      by_cases hgone : change.drops = true ∧ thing ∈ dropped
      · exact h.gone hgone.1 thing hgone.2 hmem cap hcap
      · exact hunused change rfl thing (mem_things thing) (fun hdrops hthing => hgone ⟨hdrops, hthing⟩) hheld cap hcap
    · exact h.others peer hpeer cap (hbacked thing peer hheld cap hcap)

theorem mem_effective_nil {cap : Cap} (h : cap ∈ effective []) : False := by
  rw [mem_effective] at h
  exact h.elim (fun h => nomatch h) (fun h => nomatch h)

variable {caps : List Cap}

theorem mem_effective_of_mem {cap : Cap} (h : cap ∈ caps) : cap ∈ effective caps :=
  mem_effective.mpr (Or.inr h)

theorem sameKey_spec {target : Bytes} (hsame : sameKey key = true) (hnode : nodeOf key = some target) :
    toHex target = key := by
  have heq := of_decide_eq_true hsame
  rw [hnode] at heq
  exact Option.some.inj heq

theorem turns_removed (drops : Bool) (hoperators : s'.ledger.operators = s.ledger.operators.pop key)
    (hfewer : Fewer s s') (hgone : drops = true → ∀ thing ∈ dropped, key ∉ holders s' thing) :
    Turns s s' (some ⟨key, [], drops⟩) := by
  refine .changed _ ⟨fun k hk cap hallows => ?_, fun cap hcap => (mem_effective_nil hcap).elim, hfewer,
    fun hdrops thing hthing hmem => absurd hmem (hgone hdrops thing hthing)⟩
  rw [allows_iff] at hallows ⊢
  rw [hoperators, Dict.get?_pop_of_ne _ hk]
  exact hallows

variable {l : FleetState}

theorem turns_added {pub proof : Bytes} {label : Text}
    (h : s.ledger.addOperator key pub caps label proof = some l) (hledger : s'.ledger = l)
    (hholders : holders s' = holders s) : Turns s s' (some ⟨key, caps, false⟩) := by
  refine .changed _ ⟨fun k hk cap hallows => ?_, fun cap hcap => ?_, fewer_of_holders hholders,
    fun hdrops => nomatch hdrops⟩
  · rw [hledger, allows_addOperator h, if_neg (Ne.symm hk)]
    exact hallows
  · rw [hledger, allows_addOperator h, if_pos rfl]
    exact decide_eq_true hcap

theorem turns_set {entry : Operator} {narrowOnly drops : Bool}
    (hentry : s.ledger.operators.get? key = some entry)
    (hledger : s'.ledger = (s.ledger.setOperatorCaps key caps narrowOnly).2) (hfewer : Fewer s s')
    (hgone : drops = true → ∀ thing ∈ dropped, key ∈ holders s' thing →
      ∀ cap ∈ thing.opener, cap ∈ newCaps entry.caps caps narrowOnly) :
    Turns s s' (some ⟨key, newCaps entry.caps caps narrowOnly, drops⟩) := by
  refine .changed _ ⟨fun k hk cap hallows => ?_, fun cap hcap => ?_, hfewer,
    fun hdrops thing hthing hmem cap hcap => mem_effective_of_mem (hgone hdrops thing hthing hmem cap hcap)⟩
  · rw [hledger, allows_setOperatorCaps, if_neg (Ne.symm hk)]
    exact hallows
  · rw [hledger, allows_setOperatorCaps, if_pos rfl]
    exact ⟨entry, hentry, hcap⟩

theorem setOperatorCaps_result {entry : Operator} (caps : List Cap) (narrowOnly : Bool)
    (h : l.operators.get? key = some entry) :
    (l.setOperatorCaps key caps narrowOnly).1 = some (newCaps entry.caps caps narrowOnly) := by
  rcases @setOperatorCaps_spec l key caps narrowOnly with ⟨hnone, -⟩ | ⟨entry', hentry', hcases⟩
  · rw [h] at hnone
    cases hnone
  · obtain rfl := Option.mem_unique h hentry'
    rcases hcases with ⟨hempty, heq⟩ | ⟨-, heq⟩
    · rw [heq, hempty]
    · rw [heq]

theorem setOperatorCaps_none (caps : List Cap) (narrowOnly : Bool)
    (h : l.operators.get? key = none) : l.setOperatorCaps key caps narrowOnly = (none, l) := by
  unfold setOperatorCaps
  rw [h]

/-! ### Frames -/

variable (c : Config) (env : Env) (r : Request)

theorem turns_revoked : Turns s (onRevoke src s).1 (some ⟨toHex src, [], true⟩) := by
  obtain ⟨hfewer, hgone⟩ := dropAll_spec src s
  refine turns_removed true ?_ hfewer fun _ => hgone
  show (dropSessionsOf src (dropUploadsOf src (dropShellsOf src s))).ledger.operators.pop _ = _
  rw [(quiet (still_dropAll src s)).ledger]

theorem turns_capNarrow : Turns s (onCapNarrow src r s).1 (changeIn s src r .enrolNarrow) := by
  unfold onCapNarrow changeIn
  cases cleanCaps (r.doc.get? (ascii "caps")) with
  | none => exact lighter_same rfl rfl
  | some caps =>
    dsimp only [Option.bind_some]
    cases hentry : s.ledger.operators.get? (toHex src) with
    | none =>
      rw [setOperatorCaps_none caps true hentry]
      exact lighter_same rfl rfl
    | some entry =>
      have hresult := setOperatorCaps_result caps true hentry
      rw [hresult, Option.map_some]
      dsimp only
      obtain ⟨hfewer, hgone⟩ := dropBeyond_spec src (newCaps entry.caps caps true)
        { s with ledger := (s.ledger.setOperatorCaps (toHex src) caps true).2 }
      exact turns_set hentry (by rw [(quiet (still_dropBeyond _ _ _)).ledger]) (Fewer.trans (fewer_of_holders rfl) hfewer)
        fun _ => hgone

theorem turns_askStatus (hoperators : s'.ledger.operators = s.ledger.operators) (hholders : holders s' = holders s) :
    Turns s (if c.autoStatus then spawn (.askStatus src) s' else s') none := by
  refine lighter_same (by rw [(quiet (still_asking c src s')).ledger, hoperators]) ?_
  split_ifs
  · rw [holders_spawn, hholders]
  · exact hholders

theorem turns_enrolRequest : Turns s (onEnrolRequest env src r s).1 none := by
  unfold onEnrolRequest
  split
  · exact lighter_same rfl rfl
  · split
    · exact lighter_same rfl rfl
    · exact lighter_same (same_addPendingIn _ _ _ _ _ _).1 rfl

theorem turns_enrolGrant : Turns s (onEnrolGrant c src r s).1 none := by
  unfold onEnrolGrant
  split
  · exact lighter_same rfl rfl
  · dsimp only
    split
    · exact lighter_same rfl rfl
    · split
      · exact lighter_same (same_addManaged _ _ _).1 rfl
      · exact turns_askStatus c (same_addManaged _ _ _).1 rfl

theorem turns_preauthClaim : Turns s (onPreauthClaim c src r s).1 none := by
  unfold onPreauthClaim
  split
  · split
    · exact lighter_same rfl rfl
    · split
      · exact lighter_same rfl rfl
      · dsimp only
        split
        · exact lighter_same rfl rfl
        · split
          · exact lighter_same rfl rfl
          · exact turns_askStatus c (same_addManaged _ _ _).1 rfl
  · exact lighter_same rfl rfl

/-- **What becomes of the rights by a signed frame** that asks for no operation. -/
theorem turns_handle {kind : Signed} (hkind : asksFor kind = false) :
    Turns s (handle c env src r s kind).1 (changeIn s src r kind) := by
  cases kind with
  | enrolRequest => exact turns_enrolRequest env r
  | enrolGrant => exact turns_enrolGrant c r
  | enrolDeny => exact lighter_same rfl rfl
  | enrolRevoke => exact turns_revoked
  | enrolNarrow => exact turns_capNarrow r
  | preauthClaim => exact turns_preauthClaim c r
  | _ => cases hkind

/-- **A request of an operation opens nothing at once but a session**, and that is permitted. -/
theorem backed_requested {doc : Json} {kind : Signed} {out : Out} (h : Requested c env src doc s kind out)
    (hbacked : Backed s) : Backed out.1 := by
  have hledger := (quiet_requested h).ledger
  have hsame : holders out.1 = holders s → Backed out.1 := fun hholders =>
    Lighter.backed ⟨by rw [hledger], fewer_of_holders hholders⟩ hbacked
  cases h with
  | told answer | status rid hkind hpermits => exact hsame (holders_spawn _ _)
  | begun op rid hkind hpermits hop hplaces =>
    refine hsame ?_
    unfold Agent.start
    split_ifs
    all_goals cases op <;> rfl
  | session rid token kept hkind hpermits =>
    intro thing peer hmem cap hcap
    rw [hledger]
    rw [reply, holders_spawn] at hmem
    cases thing with
    | session =>
      rcases Dict.mem_keys_set.mp hmem with rfl | hmem
      · exact hpermits.needs cap hcap
      · exact hbacked .session peer hmem cap hcap
    | shell => exact hbacked .shell peer hmem cap hcap
    | upload => exact hbacked .upload peer hmem cap hcap
    | logFollow => exact hbacked .logFollow peer hmem cap hcap
    | linkFollow => exact hbacked .linkFollow peer hmem cap hcap

theorem lighter_told {out : Out} {names : Bool} (h : Told names s out) : Lighter s out.1 := by
  refine ⟨h.ledger.1, fewer_of_holders ?_⟩
  have hsame := congrArg holders h.same
  exact hsame

theorem lighter_stream (code : UInt8) (body : Bytes) : Lighter s (shellStream env src code body s).1 := by
  refine ⟨by rw [(quiet (still_stream env src code body s)).ledger], ?_⟩
  unfold shellStream
  dsimp only
  repeat' split
  all_goals first
    | exact fewer_closeShell _ _ s
    | exact fewer_of_holders rfl

theorem backed_frame {payload : Bytes} (hcareful : Careful c s (.frame env src payload)) (hbacked : Backed s) :
    Backed (dispatch c env src payload s).1 := by
  have hframe := dispatch_spec c env src payload s
  generalize dispatch c env src payload s = out at hframe
  cases hframe with
  | nothing | shut kind body hallowed hopen => exact hbacked
  | stream code body hcode => exact (lighter_stream env code body).backed hbacked
  | replied kind body doc hdoc => exact (lighter_told (told_answer c src doc kind)).backed hbacked
  | opened kind body r hallowed hopen =>
    by_cases hasks : asksFor kind = true
    · exact backed_requested c env (request_spec r hasks) hbacked
    · have hregrants : regrants c s (.frame env src (kind.code :: body)) = changeIn s src r kind := by
        rw [regrants, if_pos hallowed, signedOf_code, Option.bind_some, hopen, Option.bind_some]
      refine Turns.backed (turns_handle c env r (Bool.not_eq_true _ ▸ hasks)) ?_ hbacked
      intro change hchange
      exact hcareful.1 change (hregrants ▸ hchange)

/-! ### Calls -/

theorem not_isOperator (h : ¬ l.isOperator key = true) : l.operators.get? key = none := by
  unfold isOperator at h
  exact Option.not_isSome_iff_eq_none.mp h

theorem operators_pop_of_not (h : ¬ l.isOperator key = true) : l.operators.pop key = l.operators :=
  Dict.pop_of_notMem (Dict.get?_eq_none.mp (not_isOperator h))

theorem turns_revoke (key : Text) : Turns s (revoke s key) (cutOff s key) := by
  have hspec : (revoke s key).ledger.operators = s.ledger.operators.pop key ∧ Fewer s (revoke s key) ∧
      (s.ledger.isOperator key = true → sameKey key = true → ∀ thing ∈ dropped, key ∉ holders (revoke s key) thing) := by
    unfold revoke
    dsimp only
    split
    · next hneither =>
      refine ⟨rfl, fewer_of_holders rfl, fun hoperator => ?_⟩
      have hno : s.ledger.isOperator key = false := hneither.1
      rw [hno] at hoperator
      cases hoperator
    · cases hnode : nodeOf key with
      | none =>
        refine ⟨rfl, fewer_of_holders rfl, fun _ hsame => ?_⟩
        unfold sameKey at hsame
        rw [hnode] at hsame
        cases hsame
      | some target =>
        dsimp only
        obtain ⟨hfewer, hgone⟩ := dropAll_spec target { s with
          ledger := (((s.ledger.removeOperator key).2.removeManaged key).2.dropPendingOut key).2 }
        refine ⟨by rw [(quiet (still_dropAll _ _)).ledger]; rfl, Fewer.trans (fewer_of_holders rfl) hfewer, fun _ hsame => ?_⟩
        rw [← sameKey_spec hsame hnode]
        rw [← sameKey_spec hsame hnode] at hgone
        exact hgone
  obtain ⟨hoperators, hfewer, hgone⟩ := hspec
  unfold cutOff
  split_ifs with hoperator
  · exact turns_removed _ hoperators hfewer (hgone hoperator)
  · exact .same ⟨hoperators.trans (operators_pop_of_not hoperator), hfewer⟩

theorem isNone_addOperator (l : FleetState) (pendingIn : Dict Text Asking) (key : Text) (pub : Bytes) (caps : List Cap)
    (label : Text) (proof : Bytes) :
    (addOperator { l with pendingIn } key pub caps label proof).isNone =
      (l.addOperator key pub caps label proof).isNone := by
  unfold addOperator
  dsimp only
  split_ifs <;> rfl

theorem turns_approve (key : Text) (caps : Option (List Text)) :
    Turns s (approveEnrolment s key caps) (changeBy s (.approveEnrolment key caps)) := by
  unfold approveEnrolment takePendingIn
  dsimp only [changeBy]
  cases hasked : s.ledger.pendingIn.get? key with
  | none => exact lighter_same rfl rfl
  | some asked =>
    rw [Option.bind_some]
    dsimp only
    by_cases hbad : grantedOf asked.caps caps = [] ∨ nodeOf key = none
    · rw [if_pos hbad, if_pos (or_assoc.mp (Or.inl hbad))]
      exact lighter_same rfl rfl
    · rw [if_neg hbad]
      have hnone := isNone_addOperator s.ledger (s.ledger.pendingIn.pop key) key asked.pub (grantedOf asked.caps caps)
        asked.label asked.proof
      rw [← hnone]
      cases hadded : addOperator { s.ledger with pendingIn := s.ledger.pendingIn.pop key } key asked.pub
          (grantedOf asked.caps caps) asked.label asked.proof with
      | none =>
        rw [if_pos (Or.inr (Or.inr Option.isNone_none))]
        exact lighter_same rfl rfl
      | some l =>
        rw [if_neg (by rintro (h | h | h) <;> [exact hbad (Or.inl h); exact hbad (Or.inr h); cases h])]
        refine .changed _ ⟨fun k hk cap hallows => ?_, fun cap hcap => ?_, fewer_of_holders rfl, fun h => nomatch h⟩
        · show l.allows k cap = true
          rw [allows_addOperator hadded, if_neg (Ne.symm hk)]
          exact hallows
        · show l.allows key cap = true
          rw [allows_addOperator hadded, if_pos rfl]
          exact decide_eq_true hcap

theorem turns_dropCapabilities (key : Text) (caps : List Text) :
    Turns s (dropCapabilities s key (cleanNames caps)).1 (changeBy s (.dropCapabilities key caps)) := by
  unfold dropCapabilities
  dsimp only [changeBy]
  cases hentry : s.ledger.managed.get? key with
  | none => exact lighter_same rfl rfl
  | some entry =>
    rw [Option.bind_some]
    dsimp only
    by_cases hall : ((clean entry.caps).filter (· ∉ cleanNames caps)).length = entry.caps.length
    · rw [if_pos hall, if_neg fun h => h.1 hall]
      exact lighter_same rfl rfl
    · rw [if_neg hall]
      by_cases hempty : (clean entry.caps).filter (· ∉ cleanNames caps) = []
      · rw [if_pos hempty, if_pos ⟨hall, hempty⟩]
        exact turns_revoke key
      · rw [if_neg hempty, if_neg fun h => hempty h.2]
        split
        · exact lighter_same rfl rfl
        · exact lighter_same (same_addManaged _ _ _).1 rfl

theorem turns_setOperatorCapabilities (key : Text) (caps : List Text) :
    Turns s (setOperatorCapabilities s key caps).1 (changeBy s (.setOperatorCapabilities key caps)) := by
  unfold setOperatorCapabilities
  dsimp only [changeBy]
  cases hentry : s.ledger.operators.get? key with
  | none =>
    have hcut : cutOff s key = none := by
      unfold cutOff isOperator
      rw [hentry]
      rfl
    have hset : setTo s key (cleanNames caps) false = none := by
      unfold setTo
      rw [hentry]
      rfl
    rw [hcut, hset, ite_self, ite_self, if_pos (show (none : Option Operator).isNone = true from rfl)]
    exact lighter_same rfl rfl
  | some entry =>
    rw [if_neg (show ¬ (some entry).isNone = true from fun h => nomatch h)]
    by_cases hempty : cleanNames caps = []
    · rw [if_pos hempty, if_neg (not_not.mpr hempty)]
      by_cases hcaps : caps = []
      · rw [if_neg (not_not.mpr hcaps), if_pos hcaps]
        exact turns_revoke key
      · rw [if_pos hcaps, if_neg hcaps]
        exact lighter_same rfl rfl
    · rw [if_neg hempty, if_pos hempty]
      have hresult := setOperatorCaps_result (cleanNames caps) false hentry
      unfold setTo
      rw [hentry, Option.map_some, hresult]
      dsimp only
      cases hnode : nodeOf key with
      | none =>
        refine turns_set hentry rfl (fewer_of_holders rfl) fun hsame => ?_
        unfold sameKey at hsame
        rw [hnode] at hsame
        cases hsame
      | some target =>
        obtain ⟨hfewer, hgone⟩ := dropBeyond_spec target (newCaps entry.caps (cleanNames caps) false)
          { s with ledger := (s.ledger.setOperatorCaps key (cleanNames caps) false).2 }
        refine turns_set hentry (by rw [(quiet (still_dropBeyond _ _ _)).ledger]) (Fewer.trans (fewer_of_holders rfl) hfewer)
          fun hsame => ?_
        rwa [sameKey_spec hsame hnode] at hgone

theorem turns_claimPreauth (operatorId operatorPub : Bytes) (caps : List Text) (label : Text) :
    Turns s (claimPreauth s operatorId operatorPub (cleanNames caps) label)
      (changeBy s (.claimPreauth operatorId operatorPub caps label)) := by
  unfold claimPreauth
  dsimp only [changeBy]
  by_cases hempty : cleanNames caps = []
  · rw [if_pos hempty, if_pos (Or.inl hempty)]
    exact lighter_same rfl rfl
  · rw [if_neg hempty]
    cases hadded : s.ledger.addOperator (toHex operatorId) operatorPub (cleanNames caps) label [] with
    | none =>
      rw [if_pos (Or.inr Option.isNone_none)]
      exact lighter_same rfl rfl
    | some l =>
      rw [if_neg (by rintro (h | h) <;> [exact hempty h; cases h])]
      exact turns_added hadded rfl rfl

theorem turns_requestEnrolment (now : ℚ) (target : Bytes) (caps : List Cap) (label : Text) :
    Turns s (requestEnrolment now s target caps label) none := by
  unfold requestEnrolment
  split
  · exact lighter_same rfl rfl
  · exact lighter_same (same_addPendingOut _ _ _).1 rfl

theorem turns_call (now : ℚ) (call : Call) : Turns s (performCall now s call).1 (changeBy s call) := by
  cases call with
  | requestEnrolment target caps label => exact turns_requestEnrolment now target _ label
  | requestCapabilities target caps =>
    show Turns s (requestCapabilities now s target (cleanNames caps)) none
    unfold requestCapabilities
    split
    · exact lighter_same rfl rfl
    · split
      · exact lighter_same rfl rfl
      · exact turns_requestEnrolment now target _ _
  | approveEnrolment k caps => exact turns_approve k caps
  | denyEnrolment k | followLogs target on rid | followLinks target on rid | callOver rid
  | provisionLocal digest host caps label | closeShell target sid => exact lighter_same rfl rfl
  | revoke k => exact turns_revoke k
  | dropCapabilities k caps => exact turns_dropCapabilities k caps
  | setOperatorCapabilities k caps => exact turns_setOperatorCapabilities k caps
  | claimPreauth operatorId operatorPub caps label => exact turns_claimPreauth operatorId operatorPub caps label
  | request target kind rid => cases kind <;> exact lighter_same rfl rfl

end Changes

/-! ### Jobs -/

def Opened (s s' : State) (opened : Option (Thing × Text)) : Prop :=
  ∀ thing, ∀ peer ∈ holders s' thing, peer ∈ holders s thing ∨ opened = some (thing, peer)

section Jobs

variable {s s' : State} {opened : Option (Thing × Text)} (W : World) (owner : Bytes) (rid : Text) (o : Outcome)

theorem opened_of_fewer (h : Fewer s s') : Opened s s' opened := fun thing peer hmem => Or.inl (h thing peer hmem)

theorem opened_same (h : holders s' = holders s) : Opened s s' opened := opened_of_fewer (fewer_of_holders h)

theorem holders_finish (kind : Reply) (s : State) : holders (finish owner kind rid o s) = holders s := by
  unfold finish
  split_ifs
  · exact holders_spawn _ _
  · exact holders_spawn _ _

theorem holders_giveBack (op : Op) (s : State) : holders (giveBack op owner s) = holders s := by
  cases op <;> rfl

theorem opened_setUpload (key : Text × Text) :
    Opened s { s with uploads := s.uploads.set key () } (some (.upload, key.1)) := by
  intro thing peer hmem
  cases thing with
  | shell | session | logFollow | linkFollow => exact Or.inl hmem
  | upload =>
    obtain ⟨k, hk, rfl⟩ := List.mem_map.mp hmem
    rcases Dict.mem_keys_set.mp hk with rfl | hk
    · exact Or.inr rfl
    · exact Or.inl (List.mem_map_of_mem hk)

theorem fewer_setUpload {key : Text × Text} (h : key ∈ s.uploads.keys) :
    Fewer s { s with uploads := s.uploads.set key () } :=
  fewer_uploads fun _ hmem => (Dict.mem_keys_set.mp hmem).elim (fun heq => heq ▸ h) id

theorem opened_setShell (sid : Bytes) :
    Opened s { s with shells := s.shells.set sid owner } (some (.shell, toHex owner)) := by
  intro thing peer hmem
  cases thing with
  | shell =>
    obtain ⟨holder, hholder, rfl⟩ := List.mem_map.mp hmem
    obtain ⟨k, hk⟩ := Dict.mem_values.mp hholder
    rcases Dict.get?_of_set hk with ⟨-, rfl⟩ | ⟨-, hk⟩
    · exact Or.inr rfl
    · exact Or.inl (List.mem_map_of_mem (Dict.mem_values.mpr ⟨k, hk⟩))
  | upload | session | logFollow | linkFollow => exact Or.inl hmem

theorem opened_setLogFollower (level : Text) (now : ℚ) :
    Opened s (setLogFollower owner rid level now s) (some (.logFollow, toHex owner)) := by
  intro thing peer hmem
  rw [setLogFollower, reply, holders_spawn] at hmem
  cases thing with
  | shell | upload | session | linkFollow => exact Or.inl hmem
  | logFollow =>
    rcases Dict.mem_keys_set.mp hmem with rfl | hmem
    · exact Or.inr rfl
    · exact Or.inl hmem

theorem opened_setLinkFollower (follower : Follower) :
    Opened s { s with linkFollowers := s.linkFollowers.set (toHex owner) follower }
      (some (.linkFollow, toHex owner)) := by
  intro thing peer hmem
  cases thing with
  | shell | upload | session | logFollow => exact Or.inl hmem
  | linkFollow =>
    rcases Dict.mem_keys_set.mp hmem with rfl | hmem
    · exact Or.inr rfl
    · exact Or.inl hmem

theorem fewer_followers {logs links : Dict Text Follower} (hlogs : ∀ peer ∈ logs.keys, peer ∈ s.logFollowers.keys)
    (hlinks : ∀ peer ∈ links.keys, peer ∈ s.linkFollowers.keys) :
    Fewer s { s with logFollowers := logs, linkFollowers := links } := by
  intro thing peer hmem
  cases thing with
  | shell | upload | session => exact hmem
  | logFollow => exact hlogs peer hmem
  | linkFollow => exact hlinks peer hmem

theorem Fewer.andOpened {s'' : State} (h : Fewer s s') (h' : Opened s' s'' opened) : Opened s s'' opened :=
  fun thing peer hmem => (h' thing peer hmem).imp_left (h thing peer)

theorem Opened.same {s'' : State} (h : Opened s s' opened) (heq : holders s'' = holders s') : Opened s s'' opened :=
  fun thing peer hmem => h thing peer (heq ▸ hmem)

theorem opened_fileWrite (doc : Json) (hop : (textAt W doc "op" []).take 16 = ascii "write") :
    Opened s (fileWrite W owner rid doc o s)
      (if opensUpload W owner doc o s then some (.upload, toHex owner) else none) := by
  unfold fileWrite
  dsimp only
  cases hdata : NMesh.Base.Base64.decode (textOr W doc "data" []) with
  | none => exact opened_same (holders_spawn _ _)
  | some data =>
    dsimp only
    by_cases hlarge : writeSlice < data.length
    · rw [if_pos hlarge]
      exact opened_same (holders_spawn _ _)
    rw [if_neg hlarge]
    set key := (toHex owner, (textAt W doc "uid" []).take 32) with hkey
    by_cases hbad : key ∉ s.uploads.keys ∧ ((doc.get? (ascii "offset")).bind Json.int?).getD (-1) ≠ 0
    · rw [if_pos hbad]
      exact opened_same (holders_spawn _ _)
    rw [if_neg hbad]
    -- what is left of the uploads once the idle ones have gone
    have hreaped : Fewer s (if key ∈ s.uploads.keys then s
        else { s with uploads := reapUploads (toHex owner) o.idle s.uploads }) ∧
          (key ∈ s.uploads.keys → key ∈ (if key ∈ s.uploads.keys then s
            else { s with uploads := reapUploads (toHex owner) o.idle s.uploads }).uploads.keys) ∧
          (key ∉ s.uploads.keys → key ∉ (if key ∈ s.uploads.keys then s
            else { s with uploads := reapUploads (toHex owner) o.idle s.uploads }).uploads.keys) := by
      by_cases hthere : key ∈ s.uploads.keys
      · rw [if_pos hthere]
        exact ⟨Fewer.refl s, id, id⟩
      · rw [if_neg hthere]
        exact ⟨fewer_uploads fun _ hmem => keys_foldl_pop (keys_foldl_pop hmem), fun h => absurd h hthere,
          fun _ h => hthere (keys_foldl_pop (keys_foldl_pop h))⟩
    obtain ⟨hfewer, hthere, hnew⟩ := hreaped
    generalize (if key ∈ s.uploads.keys then s
      else { s with uploads := reapUploads (toHex owner) o.idle s.uploads }) = s₁ at hfewer hthere hnew ⊢
    refine Fewer.andOpened hfewer ?_
    by_cases hfresh : key ∉ s₁.uploads.keys ∧ o.ok = false
    · rw [if_pos hfresh]
      exact opened_same (holders_spawn _ _)
    rw [if_neg hfresh]
    have hpopped : Fewer s₁ { s₁ with uploads := s₁.uploads.pop key } :=
      fewer_uploads fun _ hmem => (Dict.mem_keys_pop.mp hmem).1
    by_cases hwrote : o.wrote = false
    · rw [if_pos hwrote]
      exact (opened_of_fewer hpopped).same (holders_spawn _ _)
    rw [if_neg hwrote]
    by_cases hfinal : flag doc "final" = true
    · rw [if_pos hfinal]
      refine (opened_of_fewer hpopped).same ?_
      by_cases hplaced : o.placed = true
      · rw [if_pos hplaced]
        exact holders_spawn _ _
      · rw [if_neg hplaced]
        exact holders_spawn _ _
    rw [if_neg hfinal]
    by_cases hheld : key ∈ s.uploads.keys
    · exact (opened_of_fewer (fewer_setUpload (hthere hheld))).same (holders_spawn _ _)
    · have hopens : opensUpload W owner doc o s := by
        refine ⟨hop, Dict.get?_eq_none.mpr hheld, fun d hd => ?_, by rw [hdata]; rfl, ?_, ?_, ?_, ?_⟩
        · rw [hdata] at hd
          cases hd
          omega
        · by_contra hoffset
          exact hbad ⟨hheld, hoffset⟩
        · by_contra hok
          exact hfresh ⟨hnew hheld, Bool.not_eq_true _ ▸ hok⟩
        · exact (Bool.not_eq_false _).mp hwrote
        · exact Bool.not_eq_true _ ▸ hfinal
      rw [if_pos hopens]
      exact (opened_setUpload key).same (holders_spawn _ _)

theorem opened_runFileOp (doc : Json) :
    Opened s (runFileOp W owner rid doc o s)
      (if opensUpload W owner doc o s then some (.upload, toHex owner) else none) := by
  unfold runFileOp
  dsimp only
  by_cases hop : (textAt W doc "op" []).take 16 = ascii "write"
  · rw [if_pos hop]
    intro thing peer hmem
    have hwritten := opened_fileWrite W owner rid o doc hop thing peer hmem
    exact hwritten
  · rw [if_neg hop]
    refine opened_same ?_
    split_ifs
    all_goals exact holders_spawn _ _

theorem opened_runOp (i : ℕ) (op : Op) :
    Opened s (runOp W i owner rid op o s) (opensAt W o s (.work owner rid op)) := by
  unfold runOp
  cases op with
  | status | session => exact opened_same rfl
  | logs | links | invite | scan | provision => exact opened_same (holders_finish _ _ _ _ _)
  | update names => exact opened_same (holders_spawn _ _)
  | docker op slow => exact opened_same ((holders_finish _ _ _ _ _).trans (holders_giveBack _ _ _))
  | console method path grants node => exact opened_same ((holders_spawn _ _).trans (holders_giveBack _ _ _))
  | file doc =>
    intro thing peer hmem
    have hran := opened_runFileOp W owner rid o doc thing peer hmem
    exact hran
  | shell =>
    dsimp only [opensAt]
    split_ifs
    · intro thing peer hmem
      rw [reply, holders_spawn] at hmem
      exact opened_setShell owner o.sid thing peer hmem
    · exact opened_same (holders_spawn _ _)
  | logFollow on level =>
    dsimp only [opensAt]
    by_cases hoff : on = false
    · rw [if_pos hoff]
      have hfewer := @fewer_followers s (s.logFollowers.pop (toHex owner)) s.linkFollowers
        (fun _ h => (Dict.mem_keys_pop.mp h).1) fun _ h => h
      exact (opened_of_fewer hfewer).same (holders_spawn _ _)
    rw [if_neg hoff]
    have hon : on = true := (Bool.not_eq_false _).mp hoff
    by_cases hfull : toHex owner ∉ s.logFollowers.keys ∧ maxLogFollowers ≤ s.logFollowers.size
    · rw [if_pos hfull]
      exact opened_same (holders_spawn _ _)
    rw [if_neg hfull]
    by_cases hready : o.ready = true
    · have hroom : toHex owner ∈ s.logFollowers.keys ∨ s.logFollowers.size < maxLogFollowers := by
        by_contra hno
        exact hfull ⟨fun h => hno (Or.inl h), not_lt.mp fun h => hno (Or.inr h)⟩
      rw [if_pos hready, if_pos ⟨hon, hroom, hready⟩]
      intro thing peer hmem
      have hset := opened_setLogFollower owner rid level o.now thing peer hmem
      exact hset
    · rw [if_neg hready]
      exact opened_same rfl
  | linkFollow on =>
    dsimp only [opensAt]
    by_cases hoff : on = false
    · rw [if_pos hoff]
      have hfewer := @fewer_followers s s.logFollowers (s.linkFollowers.pop (toHex owner)) (fun _ h => h)
        fun _ h => (Dict.mem_keys_pop.mp h).1
      exact (opened_of_fewer hfewer).same (holders_spawn _ _)
    rw [if_neg hoff]
    split_ifs
    · exact opened_same (holders_spawn _ _)
    · exact opened_same rfl

theorem opened_runJob (i : ℕ) :
    Opened s (runJob W i o s) (s.jobs[i]?.bind fun job => opensAt W o s job) := by
  unfold runJob
  cases s.jobs[i]? with
  | none => exact opened_same rfl
  | some job =>
    rw [Option.bind_some]
    cases job with
    | send target answer | askStatus target => exact opened_same rfl
    | work owner rid op => exact opened_runOp W owner rid o i op
    | following owner rid level =>
      dsimp only [opensAt]
      split_ifs
      · intro thing peer hmem
        have hset := opened_setLogFollower owner rid level o.now thing peer hmem
        exact hset
      · exact opened_same (holders_spawn _ _)
    | backlog owner rid =>
      dsimp only
      split_ifs
      · exact opened_same (holders_spawn _ _)
      · exact opened_same rfl
    | linking owner rid =>
      dsimp only [opensAt]
      split_ifs
      · intro thing peer hmem
        rw [reply, holders_spawn] at hmem
        have hset := opened_setLinkFollower owner _ thing peer hmem
        exact hset
      · exact opened_same (holders_spawn _ _)

end Jobs

/-! ### Runs -/

section Standing

variable {c : Config} {s : State}

theorem holders_pushTo (followers : Dict Text Follower) (kind : Reply) :
    ∀ s : State, holders (pushTo followers kind s) = holders s := by
  unfold pushTo
  induction followers.values with
  | nil => exact fun _ => rfl
  | cons follower rest ih =>
    intro s
    rw [List.foldl_cons, ih]
    exact holders_spawn _ _

theorem backed_step {a : Action} (hbacked : Backed s) (hcareful : Careful c s a) : Backed (step c s a) := by
  have hlighter : alone a = true → Fewer s (step c s a) → Backed (step c s a) := fun ha hfewer =>
    Lighter.backed ⟨by rw [(quiet (still_alone c ha)).ledger], hfewer⟩ hbacked
  cases a with
  | frame env src payload => exact backed_frame c env hcareful hbacked
  | call now call => exact (turns_call now call).backed hcareful.1 hbacked
  | job i o =>
    have hopened : Opened s (step c s (.job i o)) (opens c s (.job i o)) := opened_runJob c.world o i
    have hledger : (step c s (.job i o)).ledger = s.ledger := by
      rcases quiet_runJob c.world i o s with hquiet | ⟨target, -, heq⟩
      · exact hquiet.ledger
      · rw [step, perform, heq]
        rfl
    intro thing peer hmem cap hcap
    rw [hledger]
    rcases hopened thing peer hmem with hmem | heq
    · exact hbacked thing peer hmem cap hcap
    · exact hcareful.2 (thing, peer) heq cap hcap
  | say i kind =>
    refine hlighter rfl (fewer_of_holders ?_)
    show holders (say i kind s) = holders s
    unfold say
    split
    · exact holders_spawn _ _
    · rfl
  | logTick now batch =>
    refine hlighter rfl ?_
    have hfewer : Fewer s { s with logFollowers := s.logFollowers.filterVal fun f => decide (now < f.expires) } :=
      fewer_followers (fun _ h => Dict.keys_of_filterVal h) fun _ h => h
    show Fewer s (logTick now batch s)
    unfold logTick
    dsimp only
    split_ifs
    · exact hfewer.trans (fewer_of_holders (holders_pushTo _ _ _))
    · exact hfewer
  | linkTick now changed =>
    refine hlighter rfl ?_
    have hfewer : Fewer s { s with linkFollowers := s.linkFollowers.filterVal fun f => decide (now < f.expires) } :=
      fewer_followers (fun _ h => h) fun _ h => Dict.keys_of_filterVal h
    show Fewer s (linkTick now changed s)
    unfold linkTick
    dsimp only
    split_ifs
    · exact hfewer.trans (fewer_of_holders (holders_pushTo _ _ _))
    · exact hfewer
  | reap sids uploads =>
    exact hlighter rfl ((fewer_closeShells sids s).trans (fewer_uploads fun _ hmem => keys_foldl_pop hmem))
  | ended sid => exact hlighter rfl (fewer_closeShell _ _ _)

theorem backed_start (ledger : FleetState) (maxNonces : ℕ) : Backed (start ledger maxNonces) := by
  intro thing peer hmem
  cases thing <;> cases hmem

/-- **A right taken back takes back what it opened**: whatever is held, at the end of a run of an app over any ledger,
is held by the capabilities that opened it, where every action of the run is careful. -/
theorem backed_run (c : Config) (ledger : FleetState) (maxNonces : ℕ) {acts : List Action}
    (h : Guarded (step c) (Careful c) (start ledger maxNonces) acts) :
    Backed (run (step c) (start ledger maxNonces) acts) :=
  h.run_induct (fun _ _ hbacked hcareful => backed_step hbacked hcareful) (backed_start ledger maxNonces)

end Standing

/-! ### A follow -/

def reader : FleetState where
  operators := Dict.empty.set (toHex nodeA) ⟨nodeA, [.logs], [], []⟩
  managed := .empty
  pendingIn := .empty
  pendingOut := .empty
  provisioned := .empty

def followRequest : Bytes := (ascii "\x7b\"rid\":\"aa\",\"op\":\"follow\",\"on\":true\x7d").map UInt8.ofNat

def followProof : Assertion where
  appId := List.replicate 8 7
  subjectPub := nodeA
  audience := List.replicate 20 9
  purpose := (ascii "fleet.logs").map UInt8.ofNat
  nonce := List.replicate 16 5
  issuedAt := 990
  ttl := 120
  ctx := ((ctxInput [fleetTag, [Signed.logsRequest.code], followRequest]).reverse ++ List.replicate 32 0).take 32
  signature := [1]

def subscribed : Outcome := ⟨true, [], 0, [], [], true, [], true, true⟩

def followed : List Action :=
  [.frame (plainly 1000) nodeA
      (Signed.logsRequest.code :: (toBE 2 followProof.serialize.length ++ (followProof.serialize ++ followRequest))),
    .job 0 subscribed]

theorem backed_followed :
    Backed (run (step asking) (start reader 16)
      (followed ++ [.call 0 (.setOperatorCapabilities (toHex nodeA) [ascii "status", ascii "logs"])])) :=
  backed_run asking reader 16 (by decide +kernel)

example : holders (run (step asking) (start reader 16) followed) .logFollow = [toHex nodeA] := by decide +kernel

/-- **A revocation leaves it**: whoever may do nothing any more still follows the log. -/
theorem revoked_follows :
    ¬ Backed (run (step asking) (start reader 16) (followed ++ [.call 0 (.revoke (toHex nodeA))])) := by
  intro h
  have hallows := h .logFollow (toHex nodeA) (by decide +kernel) .logs List.mem_cons_self
  exact absurd hallows (by decide +kernel)

end NMesh.Fleet.Standing
