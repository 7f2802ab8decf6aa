import NMesh.Base.BigEndian
import NMesh.Base.Ordered
import Mathlib.Algebra.Order.Ring.Rat
import Mathlib.Data.Rat.Defs
import Mathlib.Tactic.SplitIfs

/-! # Invitation codes

`InviteManager` holds the codes that are live, each with the moment it was made and how long it lasts.
A joiner never sends its code: it answers a challenge with `respond code challenge`, which the manager
compares with the answer of each live code (`verifyResponse`). The code found is consumed.

`now` is the clock's reading, one for each call. -/

namespace NMesh.Link.Invite

open Base.BigEndian Base.Ordered

variable {Code : Type} [DecidableEq Code]

def codeTtl : ℚ := 300
def maxTtl : ℚ := 6 * 3600
def maxFailures : ℕ := 3
def lockoutTtl : ℚ := 60

/-- The codes that are live, with their moments of creation and their windows. -/
structure InviteManager (Code : Type) where
  codes : Dict Code (ℚ × ℚ)
  failures : ℕ
  lockoutTs : ℚ

namespace InviteManager

def new : InviteManager Code := ⟨Dict.empty, 0, 0⟩

def window : Option ℚ → ℚ
  | none => codeTtl
  | some ttl => max 1 (min ttl maxTtl)

def generateCode (m : InviteManager Code) (code : Code) (ttl : Option ℚ) (now : ℚ) :
    InviteManager Code :=
  { m with codes := m.codes.set code (now, window ttl) }

def expire (m : InviteManager Code) (code : Code) (now : ℚ) : Bool × InviteManager Code :=
  match m.codes.get? code with
  | none => (true, m)
  | some (created, window) =>
    if window < now - created then (true, { m with codes := m.codes.pop code }) else (false, m)

def liveAmong (now : ℚ) : List Code → InviteManager Code → List Code × InviteManager Code
  | [], m => ([], m)
  | code :: codes, m =>
    let (gone, m) := m.expire code now
    let (live, m) := liveAmong now codes m
    (if gone then live else code :: live, m)

def liveCodes (m : InviteManager Code) (now : ℚ) : List Code × InviteManager Code :=
  liveAmong now m.codes.keys m

def recordFailure (m : InviteManager Code) (now : ℚ) : InviteManager Code :=
  { m with
    failures := m.failures + 1
    lockoutTs := if maxFailures ≤ m.failures + 1 then now else m.lockoutTs }

def isLockedOut (m : InviteManager Code) (now : ℚ) : Bool :=
  decide (maxFailures ≤ m.failures) && decide (now - m.lockoutTs < lockoutTtl)

variable (respond : Code → Bytes → Bytes)

/-- Does a live code of the list answer the challenge so? -/
def verifyAmong (challenge response : Bytes) (now : ℚ) :
    List Code → InviteManager Code → Bool × InviteManager Code
  | [], m => (false, m)
  | code :: codes, m =>
    let (gone, m) := m.expire code now
    if gone then verifyAmong challenge response now codes m
    else if respond code challenge = response then (true, m)
    else verifyAmong challenge response now codes m

def verifyResponse (m : InviteManager Code) (challenge response : Bytes) (now : ℚ) :
    Bool × InviteManager Code :=
  if m.codes.size = 0 then (false, m)
  else if m.isLockedOut now then (false, m)
  else verifyAmong respond challenge response now m.codes.keys m

def matching (m : InviteManager Code) (challenge response : Bytes) : Option Code :=
  m.codes.keys.find? fun code => respond code challenge = response

/-- Consume the code matching a challenge and a response. -/
def consume (m : InviteManager Code) (challenge response : Bytes) : InviteManager Code :=
  match m.matching respond challenge response with
  | none => m
  | some code => { m with codes := m.codes.pop code }

/-! ### What a check leaves -/

section Check

variable {respond} {m m' : InviteManager Code} {now : ℚ} {code : Code}

theorem of_expire (h : m.expire code now = (false, m')) :
    m' = m ∧ ∃ created window, m.codes.get? code = some (created, window) ∧ now - created ≤ window := by
  unfold expire at h
  cases hget : m.codes.get? code with
  | none => simp [hget] at h
  | some v =>
    obtain ⟨created, window⟩ := v
    simp only [hget] at h
    split_ifs at h with hlate
    · simp at h
    · exact ⟨(congrArg Prod.snd h).symm, created, window, rfl, not_lt.mp hlate⟩

variable {code' : Code} {v : ℚ × ℚ}

theorem get?_expire (h : (m.expire code now).2.codes.get? code' = some v) : m.codes.get? code' = some v := by
  unfold expire at h
  cases hget : m.codes.get? code with
  | none => simpa only [hget] using h
  | some w =>
    simp only [hget] at h
    split_ifs at h
    · exact (Dict.get?_of_pop h).2
    · exact h

theorem get?_liveAmong : ∀ {codes : List Code} {m : InviteManager Code},
    (liveAmong now codes m).2.codes.get? code' = some v → m.codes.get? code' = some v
  | [], _, h => h
  | _ :: _, _, h => get?_expire (get?_liveAmong h)

variable {challenge response : Bytes}

theorem get?_verifyAmong :
    ∀ {codes : List Code} {m : InviteManager Code},
      (verifyAmong respond challenge response now codes m).2.codes.get? code' = some v →
      m.codes.get? code' = some v
  | [], _, h => h
  | code :: codes, m, h => by
    unfold verifyAmong at h
    dsimp only at h
    split_ifs at h
    · exact get?_expire (get?_verifyAmong h)
    · exact get?_expire h
    · exact get?_expire (get?_verifyAmong h)

theorem of_verifyAmong :
    ∀ {codes : List Code} {m : InviteManager Code},
      (verifyAmong respond challenge response now codes m).1 = true →
      ∃ code created window, respond code challenge = response ∧
        (verifyAmong respond challenge response now codes m).2.codes.get? code =
          some (created, window) ∧ now - created ≤ window
  | [], _, h => by simp [verifyAmong] at h
  | code :: codes, m, h => by
    unfold verifyAmong at h ⊢
    dsimp only at h ⊢
    split_ifs at h ⊢ with hgone hmatch
    · exact of_verifyAmong h
    · have hkept : m.expire code now = (false, (m.expire code now).2) :=
        Prod.ext (by simpa using hgone) rfl
      obtain ⟨hm, created, window, hget, hlive⟩ := of_expire hkept
      exact ⟨code, created, window, hmatch, by rw [hm]; exact hget, hlive⟩
    · exact of_verifyAmong h

theorem get?_verifyResponse
    (h : (m.verifyResponse respond challenge response now).2.codes.get? code' = some v) :
    m.codes.get? code' = some v := by
  unfold verifyResponse at h
  split_ifs at h
  · exact h
  · exact h
  · exact get?_verifyAmong h

theorem of_verifyResponse (h : (m.verifyResponse respond challenge response now).1 = true) :
    ∃ code created window, respond code challenge = response ∧
      (m.verifyResponse respond challenge response now).2.codes.get? code = some (created, window) ∧
      now - created ≤ window := by
  unfold verifyResponse at h ⊢
  split_ifs at h ⊢
  exact of_verifyAmong h

theorem of_matching (h : m.matching respond challenge response = some code) :
    (∃ v, m.codes.get? code = some v) ∧ respond code challenge = response := by
  have hmem := List.mem_of_find?_eq_some h
  have hresp := List.find?_some h
  exact ⟨Dict.mem_keys.mp hmem, by simpa using hresp⟩

theorem exists_matching (hget : m.codes.get? code = some v) (h : respond code challenge = response) :
    ∃ code', m.matching respond challenge response = some code' := by
  rw [← Option.isSome_iff_exists]
  exact List.find?_isSome.mpr ⟨code, Dict.mem_keys_of_get? hget, by simpa using h⟩

end Check

end InviteManager

end NMesh.Link.Invite
