import NMesh.Base.JsonText
import Mathlib.Algebra.Order.Ring.Rat

/-! # The ledger of a fleet

Who may manage this node (`operators`), whom it may manage (`managed`), the requests still to be answered in either
direction, and the machines it had installed and waits for. A grant is a list of capabilities; one of them, `full`,
stands for all where a grant is checked, and only there.

* `allows_addOperator`, `allows_setOperatorCaps`, `allows_removeOperator`: what each operation makes of a check;
* `allows_of_narrow`: narrowing never adds a right. -/

namespace NMesh.Fleet.Ledger

open Base.BigEndian Base.Utf8 Base.Hex Base.Ordered Base.JsonText

/-! ### Capabilities -/

/-- What an operator may be granted, from harmless to total. -/
inductive Cap
  | status | logs | links | invite | update | scan | provision | shell | docker | manage | govern | passwordless
  | apps | full
  deriving DecidableEq, Repr

def capabilities : List Cap :=
  [.status, .logs, .links, .invite, .update, .scan, .provision, .shell, .docker, .manage, .govern, .passwordless,
    .apps, .full]

def Cap.name : Cap → Text
  | .status => ascii "status"
  | .logs => ascii "logs"
  | .links => ascii "links"
  | .invite => ascii "invite"
  | .update => ascii "update"
  | .scan => ascii "scan"
  | .provision => ascii "provision"
  | .shell => ascii "shell"
  | .docker => ascii "docker"
  | .manage => ascii "manage"
  | .govern => ascii "govern"
  | .passwordless => ascii "passwordless"
  | .apps => ascii "apps"
  | .full => ascii "full"

/-- `clean_caps` of a list of capabilities: in order, each once. -/
def clean (caps : List Cap) : List Cap := capabilities.filter (· ∈ caps)

/-- `clean_caps` of a list of names: those that are known. -/
def cleanNames (names : List Text) : List Cap := capabilities.filter (·.name ∈ names)

/-- Can this be an element of a set? A list or an object cannot. -/
def hashable : Json → Bool
  | .arr _ => false
  | .obj _ => false
  | _ => true

/-- `clean_caps` of what stands in a document; `none` where it raises. -/
def cleanCaps : Option Json → Option (List Cap)
  | some (.arr items) => if items.all hashable then some (cleanNames (items.filterMap Json.text?)) else none
  | _ => some []

/-- `effective_caps`: what a stored grant allows. -/
def effective (caps : List Cap) : List Cap := if Cap.full ∈ clean caps then capabilities else clean caps

theorem mem_capabilities (cap : Cap) : cap ∈ capabilities := by cases cap <;> decide

variable {caps : List Cap}

theorem mem_clean {cap : Cap} : cap ∈ clean caps ↔ cap ∈ caps := by
  rw [clean, List.mem_filter, decide_eq_true_iff]
  exact ⟨And.right, fun h => ⟨mem_capabilities cap, h⟩⟩

theorem mem_effective {cap : Cap} : cap ∈ effective caps ↔ Cap.full ∈ caps ∨ cap ∈ caps := by
  unfold effective
  split_ifs with hfull
  · exact ⟨fun _ => Or.inl (mem_clean.mp hfull), fun _ => mem_capabilities cap⟩
  · rw [mem_clean]
    exact ⟨Or.inr, fun h => h.resolve_left fun h => hfull (mem_clean.mpr h)⟩

theorem effective_mono {caps' : List Cap} (h : ∀ cap ∈ caps, cap ∈ caps') {cap : Cap}
    (hcap : cap ∈ effective caps) : cap ∈ effective caps' := by
  rw [mem_effective] at hcap ⊢
  exact hcap.imp (h _) (h _)

/-! ### Entries -/

def maxOperators : ℕ := 64
def maxManaged : ℕ := 4096
def maxPending : ℕ := 256
def maxProvisionRecords : ℕ := 512
def maxLabel : ℕ := 128

def pendingTtl : ℚ := 7 * 86400

def cleanLabel : Option Json → Text
  | some (.str label) => label.take maxLabel
  | _ => []

def isNodeHex (key : Text) : Bool := key.length = 40 ∧ (fromHex key).isSome

/-- A grant we gave. -/
structure Operator where
  pub : Bytes
  caps : List Cap
  label : Text
  proof : Bytes

/-- A grant we were given. -/
structure Managed where
  caps : List Cap
  label : Text
  grant : Bytes

/-- A request that waits for a human here. -/
structure Asking where
  pub : Bytes
  caps : List Cap
  held : List Cap
  label : Text
  since : ℚ
  proof : Bytes

/-- A request of ours that waits for an answer. -/
structure Asked where
  caps : List Cap
  label : Text
  since : ℚ

/-- A machine that was installed, and will come with a token. -/
structure Installed where
  host : Text
  caps : List Cap
  label : Text

/-- **The ledger**, by the hexadecimal of a node or the digest of a token. -/
structure FleetState where
  operators : Dict Text Operator
  managed : Dict Text Managed
  pendingIn : Dict Text Asking
  pendingOut : Dict Text Asked
  provisioned : Dict Text Installed

namespace FleetState

/-! ### Operations -/

def isOperator (l : FleetState) (key : Text) : Bool := (l.operators.get? key).isSome

def allows (l : FleetState) (key : Text) (cap : Cap) : Bool :=
  (l.operators.get? key).any fun entry => decide (cap ∈ effective entry.caps)

/-- `add_operator`; `none` where it is refused. -/
def addOperator (l : FleetState) (key : Text) (pub : Bytes) (caps : List Cap) (label : Text) (proof : Bytes) :
    Option FleetState :=
  if clean caps = [] ∨ isNodeHex key = false ∨ pub = [] then none
  else if key ∉ l.operators.keys ∧ maxOperators ≤ l.operators.size then none
  else some { l with
    operators := l.operators.set key ⟨pub, clean caps, label.take maxLabel, proof⟩, pendingIn := l.pendingIn.pop key }

/-- What `set_operator_caps` comes to. -/
def newCaps (held caps : List Cap) (narrowOnly : Bool) : List Cap :=
  if narrowOnly then (clean caps).filter (· ∈ held) else clean caps

/-- `set_operator_caps`: what is granted then, if there is such an operator; with the last capability the operator
goes. -/
def setOperatorCaps (l : FleetState) (key : Text) (caps : List Cap) (narrowOnly : Bool) : Option (List Cap) × FleetState :=
  match l.operators.get? key with
  | none => (none, l)
  | some entry =>
    let new := newCaps entry.caps caps narrowOnly
    if new = [] then (some [], { l with operators := l.operators.pop key })
    else (some new, { l with operators := l.operators.set key { entry with caps := new } })

def removeOperator (l : FleetState) (key : Text) : Bool × FleetState :=
  ((l.operators.get? key).isSome, { l with operators := l.operators.pop key })

def addManaged (l : FleetState) (key : Text) (caps : List Cap) (label : Text) (grant : Bytes) : FleetState :=
  if clean caps = [] ∨ isNodeHex key = false then l
  else if key ∉ l.managed.keys ∧ maxManaged ≤ l.managed.size then l
  else
    let before := ((l.managed.get? key).map Managed.label).getD []
    let label := if label.take maxLabel = [] then before else label.take maxLabel
    { l with managed := l.managed.set key ⟨clean caps, label, grant⟩, pendingOut := l.pendingOut.pop key }

def removeManaged (l : FleetState) (key : Text) : Bool × FleetState :=
  ((l.managed.get? key).isSome, { l with managed := l.managed.pop key })

def expirePending (l : FleetState) (now : ℚ) : FleetState :=
  { l with
    pendingIn := l.pendingIn.filterVal fun entry => decide (now - entry.since ≤ pendingTtl)
    pendingOut := l.pendingOut.filterVal fun entry => decide (now - entry.since ≤ pendingTtl) }

/-- `add_pending_in`: whether the request was parked. -/
def addPendingIn (l : FleetState) (key : Text) (pub : Bytes) (caps : List Cap) (label : Text) (proof : Bytes)
    (held : List Cap) (now : ℚ) : Bool × FleetState :=
  if clean caps = [] ∨ isNodeHex key = false then (false, l)
  else
    let l := l.expirePending now
    if key ∉ l.pendingIn.keys ∧ maxPending ≤ l.pendingIn.size then (false, l)
    else (true, { l with
      pendingIn := l.pendingIn.set key ⟨pub, clean caps, clean held, label.take maxLabel, now, proof⟩ })

def takePendingIn (l : FleetState) (key : Text) : Option Asking × FleetState :=
  (l.pendingIn.get? key, { l with pendingIn := l.pendingIn.pop key })

def addPendingOut (l : FleetState) (key : Text) (caps : List Cap) (label : Text) (now : ℚ) : FleetState :=
  if clean caps = [] ∨ isNodeHex key = false then l
  else
    let l := l.expirePending now
    if key ∉ l.pendingOut.keys ∧ maxPending ≤ l.pendingOut.size then l
    else { l with pendingOut := l.pendingOut.set key ⟨clean caps, label.take maxLabel, now⟩ }

/-- `drop_pending_out`: whether we had asked. -/
def dropPendingOut (l : FleetState) (key : Text) : Bool × FleetState :=
  ((l.pendingOut.get? key).isSome, { l with pendingOut := l.pendingOut.pop key })

def addProvisioned (l : FleetState) (digest host : Text) (caps : List Cap) (label : Text) : FleetState :=
  let room := Dict.makeRoom maxProvisionRecords l.provisioned.size l.provisioned
  { l with provisioned := room.set (digest.take 64) ⟨host.take 128, clean caps, label.take maxLabel⟩ }

def takeProvisioned (l : FleetState) (digest : Text) : Option Installed × FleetState :=
  (l.provisioned.get? (digest.take 64), { l with provisioned := l.provisioned.pop (digest.take 64) })

/-! ### What a check says afterwards -/

variable {l : FleetState} {key k : Text} {cap : Cap}

theorem allows_iff : l.allows key cap = true ↔ ∃ entry, l.operators.get? key = some entry ∧ cap ∈ effective entry.caps := by
  unfold allows
  cases l.operators.get? key with
  | none | some entry => simp

variable {l' : FleetState}

theorem allows_congr (h : l'.operators = l.operators) : l'.allows key cap = l.allows key cap := by
  rw [allows, allows, h]

variable {caps : List Cap}

theorem addOperator_spec {pub proof : Bytes} {label : Text}
    (h : l.addOperator key pub caps label proof = some l') :
    l'.operators = l.operators.set key ⟨pub, clean caps, label.take maxLabel, proof⟩ ∧ l'.managed = l.managed ∧
      l'.pendingOut = l.pendingOut ∧ l'.provisioned = l.provisioned := by
  unfold addOperator at h
  split_ifs at h
  cases h
  exact ⟨rfl, rfl, rfl, rfl⟩

theorem allows_addOperator {pub proof : Bytes} {label : Text}
    (h : l.addOperator key pub caps label proof = some l') :
    l'.allows k cap = if key = k then decide (cap ∈ effective caps) else l.allows k cap := by
  obtain ⟨hoperators, -⟩ := addOperator_spec h
  rw [allows, allows, hoperators, Dict.get?_set]
  split_ifs
  · rw [Option.any_some]
    congr 1
    rw [eq_iff_iff, mem_effective, mem_effective, mem_clean, mem_clean]
  · rfl

/-- **How a grant changes**: there is none, it goes, or it is what was set. -/
theorem setOperatorCaps_spec (caps : List Cap) (narrowOnly : Bool) :
    (l.operators.get? key = none ∧ l.setOperatorCaps key caps narrowOnly = (none, l)) ∨
      ∃ entry, l.operators.get? key = some entry ∧
        (newCaps entry.caps caps narrowOnly = [] ∧ l.setOperatorCaps key caps narrowOnly =
            (some [], { l with operators := l.operators.pop key }) ∨
          newCaps entry.caps caps narrowOnly ≠ [] ∧ l.setOperatorCaps key caps narrowOnly =
            (some (newCaps entry.caps caps narrowOnly), { l with
              operators := l.operators.set key { entry with caps := newCaps entry.caps caps narrowOnly } })) := by
  unfold setOperatorCaps
  cases hget : l.operators.get? key with
  | none => exact Or.inl ⟨rfl, rfl⟩
  | some entry =>
    refine Or.inr ⟨entry, rfl, ?_⟩
    dsimp only
    by_cases hempty : newCaps entry.caps caps narrowOnly = []
    · exact Or.inl ⟨hempty, if_pos hempty⟩
    · exact Or.inr ⟨hempty, if_neg hempty⟩

theorem allows_setOperatorCaps (caps : List Cap) (narrowOnly : Bool) :
    (l.setOperatorCaps key caps narrowOnly).2.allows k cap = true ↔
      if key = k then ∃ entry, l.operators.get? key = some entry ∧ cap ∈ effective (newCaps entry.caps caps narrowOnly)
      else l.allows k cap = true := by
  rcases @setOperatorCaps_spec l key caps narrowOnly with ⟨hnone, heq⟩ | ⟨entry, hentry, hcases⟩
  · rw [heq]
    by_cases hk : key = k
    · subst hk
      rw [if_pos rfl, allows_iff, hnone]
      constructor
      · rintro ⟨_, h, -⟩
        cases h
      · rintro ⟨_, h, -⟩
        cases h
    · rw [if_neg hk]
  · by_cases hk : key = k
    · subst hk
      have hright : (∃ e, l.operators.get? key = some e ∧ cap ∈ effective (newCaps e.caps caps narrowOnly)) ↔
          cap ∈ effective (newCaps entry.caps caps narrowOnly) :=
        ⟨fun ⟨e, he, h⟩ => (Option.mem_unique hentry he) ▸ h, fun h => ⟨entry, hentry, h⟩⟩
      rw [if_pos rfl, hright]
      rcases hcases with ⟨hempty, heq⟩ | ⟨-, heq⟩
      · rw [heq, hempty, allows_iff, mem_effective]
        dsimp only
        rw [Dict.get?_pop_self]
        constructor
        · rintro ⟨_, h, -⟩
          cases h
        · rintro (h | h) <;> cases h
      · rw [heq, allows_iff]
        dsimp only
        rw [Dict.get?_set_self]
        constructor
        · rintro ⟨e, he, h⟩
          rwa [← Option.some.inj he] at h
        · exact fun h => ⟨_, rfl, h⟩
    · rw [if_neg hk]
      rcases hcases with ⟨-, heq⟩ | ⟨-, heq⟩
      · rw [heq, allows_iff, allows_iff]
        dsimp only
        rw [Dict.get?_pop_of_ne _ (Ne.symm hk)]
      · rw [heq, allows_iff, allows_iff]
        dsimp only
        rw [Dict.get?_set_of_ne _ hk]

theorem allows_of_narrow (h : (l.setOperatorCaps key caps true).2.allows k cap = true) :
    l.allows k cap = true := by
  rw [allows_setOperatorCaps] at h
  by_cases hk : key = k
  · rw [if_pos hk] at h
    obtain ⟨entry, hentry, hcap⟩ := h
    refine allows_iff.mpr ⟨entry, hk ▸ hentry, effective_mono (fun c hc => ?_) hcap⟩
    exact of_decide_eq_true (List.mem_filter.mp hc).2
  · rwa [if_neg hk] at h

theorem allows_removeOperator : (l.removeOperator key).2.allows k cap = if k = key then false else l.allows k cap := by
  rw [removeOperator, allows, allows, Dict.get?_pop]
  split_ifs <;> rfl

theorem same_addManaged (caps : List Cap) (label : Text) (grant : Bytes) :
    (l.addManaged key caps label grant).operators = l.operators ∧
      (l.addManaged key caps label grant).provisioned = l.provisioned := by
  unfold addManaged
  dsimp only
  split_ifs <;> exact ⟨rfl, rfl⟩

theorem same_addPendingIn (pub : Bytes) (caps : List Cap) (label : Text) (proof : Bytes) (held : List Cap) (now : ℚ) :
    (l.addPendingIn key pub caps label proof held now).2.operators = l.operators ∧
      (l.addPendingIn key pub caps label proof held now).2.provisioned = l.provisioned ∧
      (l.addPendingIn key pub caps label proof held now).2.managed = l.managed := by
  unfold addPendingIn
  dsimp only
  split_ifs <;> exact ⟨rfl, rfl, rfl⟩

theorem same_addPendingOut (caps : List Cap) (label : Text) (now : ℚ) :
    (l.addPendingOut key caps label now).operators = l.operators ∧
      (l.addPendingOut key caps label now).provisioned = l.provisioned ∧
      (l.addPendingOut key caps label now).managed = l.managed := by
  unfold addPendingOut
  dsimp only
  split_ifs <;> exact ⟨rfl, rfl, rfl⟩

theorem same_setOperatorCaps (caps : List Cap) (narrowOnly : Bool) :
    (l.setOperatorCaps key caps narrowOnly).2.provisioned = l.provisioned ∧
      (l.setOperatorCaps key caps narrowOnly).2.managed = l.managed := by
  rcases @setOperatorCaps_spec l key caps narrowOnly with ⟨-, heq⟩ | ⟨entry, -, ⟨-, heq⟩ | ⟨-, heq⟩⟩
  all_goals
    rw [heq]
    exact ⟨rfl, rfl⟩

theorem mem_managed_addManaged {label : Text} {grant : Bytes} (h : k ∈ (l.addManaged key caps label grant).managed.keys) :
    k ∈ l.managed.keys ∨ k = key := by
  unfold addManaged at h
  dsimp only at h
  split_ifs at h
  · exact Or.inl h
  · exact Or.inl h
  · exact (Dict.mem_keys_set.mp h).symm
  · exact (Dict.mem_keys_set.mp h).symm

end FleetState

end NMesh.Fleet.Ledger
