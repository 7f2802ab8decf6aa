import NMesh.Base.Fifo
import NMesh.Base.Runs
import NMesh.Opinion.Accusation
import NMesh.Opinion.Table

/-! # Hearing accusations

A node counts a statement (who, of whom, when) once and passes it on once, as it remembers the statements it
has seen. The memory is one for all accusers and drops the oldest, so a statement that is dropped while it
is still evidence is counted again when it comes again: each counts once if what is dropped is no longer
evidence (`heard_once`), and a flood of statements by nobody makes one count twice. -/

namespace NMesh.Opinion.Hearsay

open Base.BigEndian hiding field
open Base.Ordered Base.Runs Base.Fifo Base.Allowance NMesh.Cert.Identity
open NMesh.Opinion.Accusation NMesh.Opinion.Table
open NMesh.Directory.PseudoDir (Primitives turning)

def abuseRateMax : ℕ := 32

def maxPeers : ℕ := 128

def accuseSeenMax : ℕ := 4096

variable {R : Type} [Field R] [LinearOrder R] [Halving R]

def abuseRateWindow : R := 10

/-- What a node hears accusations with. `now` and `wall` are its two clocks. `notes` and `passed` keep what
it counted and what it passed on. -/
structure Hearer (R : Type) where
  id : NodeID
  gossipAbuse : Bool
  rate : Counts NodeID R
  seen : List Bytes
  reputation : Reputation R
  witnesses : List NodeID
  /-- The family of a node that has a chain to a root. -/
  family : NodeID → Option Bytes
  now : R
  wall : ℕ
  notes : List Statement
  passed : List Statement

variable (P : Primitives)

def digest (st : Statement) : Bytes :=
  (P.sha256 (st.accuser.raw ++ st.subject.raw ++ toBE 8 st.moment)).take 16

namespace Hearer

def abuseAllowed (s : Hearer R) (peer : NodeID) : Bool × Counts NodeID R :=
  allowed abuseRateWindow abuseRateMax maxPeers s.rate peer s.now

def chargeIdentityAbuse (s : Hearer R) (peer : NodeID) : Hearer R :=
  if peer = s.id then s
  else { s with reputation := (s.reputation.note peer 1 "protocol violations" none s.now).2 }

def witnessReason (label : String) : String :=
  if label = "" then "(witness)" else label ++ " (witness)"

def weigh (s : Hearer R) (a : Parsed) : Hearer R :=
  let label := (kindName a.kind).getD ""
  if a.subjectId = s.id then s
  else if s.reputation.standing a.accuserId s.now ≠ .ok then s
  else if a.accuserId ∈ s.witnesses then
    { s with
      reputation := (s.reputation.note a.subjectId a.severity (witnessReason label) none s.now).2
      notes := s.notes ++ [a.statement]
      passed := s.passed ++ [a.statement] }
  else
    match s.family a.accuserId with
    | none => s
    | some family =>
      let result := s.reputation.noteAccusation a.subjectId a.accuserId 1 label (some family) none s.now
      { s with
        reputation := result.2
        notes := s.notes ++ [a.statement]
        passed := if result.1.isSome then s.passed ++ [a.statement] else s.passed }

def absorb (s : Hearer R) (peer : NodeID) (raw : Bytes) : Hearer R :=
  if raw = [] ∨ maxRecord < raw.length then s.chargeIdentityAbuse peer
  else
    match parse P raw s.wall with
    | none => s.chargeIdentityAbuse peer
    | some a =>
      let (known, seen) := remember accuseSeenMax s.seen (digest P a.statement)
      if known then s else weigh { s with seen := seen } a

def handleAbuseReport (s : Hearer R) (peer : NodeID) (raw : Bytes) : Hearer R :=
  if !s.gossipAbuse then s
  else if !(s.abuseAllowed peer).1 then { s with rate := (s.abuseAllowed peer).2 }
  else absorb P { s with rate := (s.abuseAllowed peer).2 } peer raw

end Hearer

/-- What happens at a node: a record comes over a link, time passes, the operator changes something, the
certificates change, or the reputations change in some other way. -/
inductive Act (R : Type)
  | report (peer : NodeID) (raw : Bytes)
  | wait (elapsed : R) (seconds : ℕ)
  | gossip (enabled : Bool)
  | witnesses (nodes : List NodeID)
  | certificates (family : NodeID → Option Bytes)
  | opinion (op : Op R)

def step (s : Hearer R) : Act R → Hearer R
  | .report peer raw => s.handleAbuseReport P peer raw
  | .wait elapsed seconds => { s with now := s.now + elapsed, wall := s.wall + seconds }
  | .gossip enabled => { s with gossipAbuse := enabled }
  | .witnesses nodes => { s with witnesses := nodes }
  | .certificates family => { s with family := family }
  | .opinion op => { s with reputation := s.reputation.step (s.now, op) }

def start (id : NodeID) (reputation : Reputation R) (witnesses : List NodeID)
    (family : NodeID → Option Bytes) (now : R) (wall : ℕ) : Hearer R :=
  ⟨id, true, Dict.empty, [], reputation, witnesses, family, now, wall, [], []⟩

/-- **What is dropped is no evidence any more**: when a new statement comes to a full memory, no statement
that was counted, and is the oldest remembered, is still evidence. -/
def Lasting (s : Hearer R) : Act R → Prop
  | .report peer raw => s.gossipAbuse = true → (s.abuseAllowed peer).1 = true →
      ∀ a, parse P raw s.wall = some a → digest P a.statement ∉ s.seen → accuseSeenMax ≤ s.seen.length →
        ∀ st ∈ s.notes, s.seen.head? = some (digest P st) → st.Expired s.wall
  | _ => True

/-! ### Each statement once -/

/-- **What was counted is remembered, or no evidence any more.** -/
structure Once (s : Hearer R) : Prop where
  bounded : s.seen.length ≤ accuseSeenMax
  notes : s.notes.Nodup
  passed : s.passed.Sublist s.notes
  known : ∀ st ∈ s.notes, digest P st ∈ s.seen ∨ st.Expired s.wall

variable {P} {s : Hearer R}

theorem Once.weigh {a : Parsed} {seen : List Bytes} (h : Once P { s with seen := seen })
    (hnew : a.statement ∉ s.notes) (hknown : digest P a.statement ∈ seen) :
    Once P (({ s with seen := seen } : Hearer R).weigh a) := by
  have hnotes : (s.notes ++ [a.statement]).Nodup := by
    simpa using h.notes.concat hnew
  have hall : ∀ st ∈ s.notes ++ [a.statement], digest P st ∈ seen ∨ st.Expired s.wall := by
    intro st hst
    rcases List.mem_append.mp hst with hold | hself
    · exact h.known st hold
    · rw [List.mem_singleton.mp hself]
      exact Or.inl hknown
  unfold Hearer.weigh
  dsimp only
  split_ifs
  · exact h
  · exact h
  · exact ⟨h.bounded, hnotes, h.passed.append (List.Sublist.refl _), hall⟩
  · split
    · exact h
    · refine ⟨h.bounded, hnotes, ?_, hall⟩
      dsimp only
      split_ifs
      · exact h.passed.append (List.Sublist.refl _)
      · exact h.passed.trans (List.sublist_append_left _ _)

theorem Once.charge (h : Once P s) (peer : NodeID) : Once P (s.chargeIdentityAbuse peer) := by
  unfold Hearer.chargeIdentityAbuse
  split_ifs
  · exact h
  · exact ⟨h.bounded, h.notes, h.passed, h.known⟩

theorem Once.absorb (h : Once P s) (peer : NodeID) {raw : Bytes}
    (hlasting : ∀ a, parse P raw s.wall = some a → digest P a.statement ∉ s.seen →
      accuseSeenMax ≤ s.seen.length → ∀ st ∈ s.notes, s.seen.head? = some (digest P st) →
        st.Expired s.wall) : Once P (s.absorb P peer raw) := by
  unfold Hearer.absorb
  by_cases hraw : raw = [] ∨ maxRecord < raw.length
  · rw [if_pos hraw]
    exact h.charge peer
  · rw [if_neg hraw]
    cases hparse : parse P raw s.wall with
    | none => exact h.charge peer
    | some a =>
      dsimp only
      by_cases hseen : digest P a.statement ∈ s.seen
      · rw [remember_of_mem hseen]
        exact h
      · have hfirst : (remember accuseSeenMax s.seen (digest P a.statement)).1 = false := by
          rw [remember_of_notMem hseen]
        rw [hfirst]
        have hnew : a.statement ∉ s.notes := by
          intro hcounted
          rcases h.known _ hcounted with hknown | hexpired
          · exact hseen hknown
          · exact not_expired_of_parse hparse hexpired
        refine Once.weigh ⟨length_remember h.bounded _, h.notes, h.passed, fun st hst => ?_⟩ hnew
          (mem_remember (by decide) _)
        rcases h.known st hst with hknown | hexpired
        · by_cases hfull : s.seen.length < accuseSeenMax ∨ s.seen.head? ≠ some (digest P st)
          · exact Or.inl (mem_remember_of_mem h.bounded hknown (Or.inr hfull))
          · rw [not_or, not_lt, not_not] at hfull
            exact Or.inr (hlasting a hparse hseen hfull.1 st hst hfull.2)
        · exact Or.inr hexpired

/-- **One act.** -/
theorem Once.step (h : Once P s) (act : Act R) (hlasting : Lasting P s act) : Once P (step P s act) := by
  cases act with
  | report peer raw =>
    show Once P (s.handleAbuseReport P peer raw)
    unfold Hearer.handleAbuseReport
    by_cases hgossip : s.gossipAbuse = true
    · by_cases hallowed : (s.abuseAllowed peer).1 = true
      · rw [if_neg (by simp [hgossip]), if_neg (by simp [hallowed])]
        have hrated : Once P { s with rate := (s.abuseAllowed peer).2 } :=
          ⟨h.bounded, h.notes, h.passed, h.known⟩
        exact hrated.absorb peer (hlasting hgossip hallowed)
      · rw [if_neg (by simp [hgossip]), if_pos (by simpa using hallowed)]
        exact ⟨h.bounded, h.notes, h.passed, h.known⟩
    · rw [if_pos (by simpa using hgossip)]
      exact h
  | wait elapsed seconds =>
    refine ⟨h.bounded, h.notes, h.passed, fun st hst => (h.known st hst).imp id fun hexpired => ?_⟩
    exact Nat.lt_of_lt_of_le hexpired (Nat.le_add_right _ _)
  | gossip enabled | witnesses nodes | certificates family | opinion op =>
    exact ⟨h.bounded, h.notes, h.passed, h.known⟩

/-- **Each statement counts once and is passed on once**, in any run in which no statement is dropped from
the memory while it is evidence. -/
theorem heard_once (id : NodeID) (reputation : Reputation R) (witnesses : List NodeID)
    (family : NodeID → Option Bytes) (now : R) (wall : ℕ) (acts : List (Act R))
    (hlasting : Guarded (step P) (Lasting P) (start id reputation witnesses family now wall) acts) :
    (run (step P) (start id reputation witnesses family now wall) acts).notes.Nodup ∧
      (run (step P) (start id reputation witnesses family now wall) acts).passed.Nodup := by
  have h : Once P (run (step P) (start id reputation witnesses family now wall) acts) :=
    Guarded.run_induct (P := Once P) (fun s act h hg => h.step act hg)
      ⟨Nat.zero_le _, List.nodup_nil, List.Sublist.refl _, fun st hst => by cases hst⟩ hlasting
  exact ⟨h.notes, h.passed.nodup h.notes⟩

theorem handle_accepted {peer : NodeID} {raw : Bytes} {a : Parsed} {rate : Counts NodeID R}
    (hgossip : s.gossipAbuse = true) (hallowed : s.abuseAllowed peer = (true, rate))
    (hparse : parse P raw s.wall = some a) :
    s.handleAbuseReport P peer raw =
      if digest P a.statement ∈ s.seen then { s with rate := rate }
      else Hearer.weigh { s with
        rate := rate
        seen := (remember accuseSeenMax s.seen (digest P a.statement)).2 } a := by
  obtain ⟨hne, hlen⟩ := length_of_parse hparse
  unfold Hearer.handleAbuseReport
  rw [if_neg (by simp [hgossip]), hallowed, if_neg (by simp)]
  unfold Hearer.absorb
  rw [if_neg (not_or.mpr ⟨hne, not_lt.mpr hlen⟩)]
  dsimp only
  rw [hparse]
  dsimp only
  by_cases hseen : digest P a.statement ∈ s.seen
  · rw [remember_of_mem hseen, if_pos hseen]
    rfl
  · rw [remember_of_notMem hseen, if_neg hseen]
    rfl

theorem family_handle (s : Hearer R) (peer : NodeID) (raw : Bytes) :
    (s.handleAbuseReport P peer raw).family = s.family := by
  have hcharge : ∀ s : Hearer R, (s.chargeIdentityAbuse peer).family = s.family := by
    intro s
    unfold Hearer.chargeIdentityAbuse
    split_ifs <;> rfl
  have hweigh : ∀ (s : Hearer R) (a : Parsed), (s.weigh a).family = s.family := by
    intro s a
    unfold Hearer.weigh
    dsimp only
    split_ifs
    · rfl
    · rfl
    · rfl
    · cases s.family a.accuserId <;> rfl
  unfold Hearer.handleAbuseReport Hearer.absorb
  split_ifs
  · rfl
  · rfl
  · exact hcharge _
  · dsimp only
    cases parse P raw s.wall with
    | none => exact hcharge _
    | some a =>
      dsimp only
      split_ifs
      · rfl
      · exact hweigh _ a

/-! ### A flood -/

def subjectOf (n : ℕ) : NodeID := ⟨List.replicate 12 0 ++ toBE 8 n, by simp [length_toBE]⟩

def statementOf (pub : UInt8) (n : ℕ) : Statement := ⟨turning.fromPublicKey [pub], subjectOf n, 0⟩

def recordOf (pub : UInt8) (n : ℕ) : Bytes := pack 0 (subjectOf n) 1 0 [pub] [0]

theorem parse_recordOf {pub : UInt8} (hpub : pub ≠ 0) (n : ℕ) {wall : ℕ} (hwall : wall ≤ maxAge) :
    parse turning (recordOf pub n) wall =
      some ⟨turning.fromPublicKey [pub], [pub], subjectOf n, 0, 1, 0⟩ := by
  have hlen : 0 < [pub].length ∧ [pub].length ≤ maxPubkey := ⟨Nat.one_pos, by unfold maxPubkey; simp⟩
  refine parse_pack (by decide) (by decide) (by decide) hlen (by decide) ⟨Nat.zero_le _, by omega⟩ rfl
    fun heq => hpub ?_
  have hhead : (turning.fromPublicKey [pub]).raw.head? = (subjectOf n).raw.head? := by rw [heq]
  exact Option.some.inj hhead

theorem digest_statementOf (pub : UInt8) (n : ℕ) :
    digest turning (statementOf pub n) = (toBE 8 0).reverse ++ (toBE 8 n).reverse := by
  have hsplit : (turning.fromPublicKey [pub]).raw ++ (subjectOf n).raw ++ toBE 8 0 =
      (turning.fromPublicKey [pub]).raw ++ List.replicate 12 0 ++ toBE 8 n ++ toBE 8 0 := by
    simp only [subjectOf, List.append_assoc]
  have hlen : ((toBE 8 0).reverse ++ (toBE 8 n).reverse).length = 16 := by simp
  show (List.take 32 (List.reverse _ ++ _)).take 16 = _
  rw [List.take_take, show (statementOf pub n).accuser.raw ++ (statementOf pub n).subject.raw ++
    toBE 8 (statementOf pub n).moment = _ from hsplit, List.reverse_append, List.reverse_append,
    List.append_assoc, ← List.append_assoc (toBE 8 0).reverse, List.append_assoc,
    ← List.append_assoc (toBE 8 0).reverse]
  exact List.take_left' hlen

theorem digest_inj {pub pub' : UInt8} {m n : ℕ} (hm : m < 256 ^ 8) (hn : n < 256 ^ 8)
    (h : digest turning (statementOf pub m) = digest turning (statementOf pub' n)) : m = n := by
  rw [digest_statementOf, digest_statementOf] at h
  exact toBE_inj hm hn (List.reverse_inj.mp (List.append_cancel_left h))

/-- The node that carries the records, and what a node that trusts one witness knows. -/
def carrier : NodeID := turning.fromPublicKey [5]

def trusting : Hearer ℚ :=
  start (turning.fromPublicKey [7]) (.new 5 10 3600 512) [turning.fromPublicKey [1]] (fun _ => none) 0 0

def warned : Hearer ℚ := step turning trusting (.report carrier (recordOf 1 5000))

/-- One more statement by a key that nobody knows, as fast as the rate limit lets them in. -/
def burst (n : ℕ) : List (Act ℚ) :=
  [.wait (if n % 32 = 0 then 11 else 0) (if n % 32 = 0 then 11 else 0), .report carrier (recordOf 9 n)]

def flood (n : ℕ) : List (Act ℚ) := (List.range n).flatMap burst

/-- **After a flood of `n`** nothing has changed but the memory, and a little time has passed. -/
structure Flooded (n : ℕ) (s : Hearer ℚ) : Prop where
  gossip : s.gossipAbuse = true
  id : s.id = trusting.id
  reputation : s.reputation = warned.reputation
  witnesses : s.witnesses = trusting.witnesses
  family : s.family = fun _ => none
  notes : s.notes = [statementOf 1 5000]
  seen : s.seen = ((List.range n).map fun i => digest turning (statementOf 9 i)).foldl
    (fun seen k => (remember accuseSeenMax seen k).2) [digest turning (statementOf 1 5000)]
  rate : ∃ count, s.rate = single carrier count s.now ∧ count ≤ 32 ∧ (n % 32 ≠ 0 → count = n % 32)
  wall : s.wall ≤ 11 * ((n + 31) / 32)

theorem standing_warned {pub : UInt8} (hpub : pub = 1 ∨ pub = 9) (now : ℚ) :
    warned.reputation.standing (turning.fromPublicKey [pub]) now = .ok := by
  have hnone : warned.reputation.standings.get? (turning.fromPublicKey [pub]) = none := by
    rcases hpub with rfl | rfl <;> decide +kernel
  have hlimits : 0 < warned.reputation.hostile ∧ 0 < warned.reputation.suspect := by decide +kernel
  unfold Reputation.standing Reputation.score Reputation.grade
  rw [hnone]
  dsimp only
  rw [if_neg (not_le.mpr hlimits.1), if_neg (not_le.mpr hlimits.2)]

variable {s : Hearer ℚ}

theorem Flooded.allowed {n : ℕ} (h : Flooded n s) :
    let s' := step turning s (.wait (if n % 32 = 0 then 11 else 0) (if n % 32 = 0 then 11 else 0))
    ∃ count, s'.abuseAllowed carrier = (true, single carrier count s'.now) ∧ count ≤ 32 ∧
      ((n + 1) % 32 ≠ 0 → count = (n + 1) % 32) := by
  obtain ⟨count, hrate, hcount, hmod⟩ := h.rate
  by_cases hfirst : n % 32 = 0
  · refine ⟨1, ?_, by omega, by omega⟩
    simp only [hfirst, if_true, step, Hearer.abuseAllowed, hrate]
    refine allowed_over (by decide) ?_
    show (10 : ℚ) < s.now + 11 - s.now
    ring_nf
    norm_num
  · have hopen := hmod hfirst
    refine ⟨count + 1, ?_, by omega, by omega⟩
    simp only [hfirst, if_false, step, Hearer.abuseAllowed, hrate, add_zero]
    refine allowed_single (by unfold abuseRateMax; omega) ?_ (by decide)
    show s.now - s.now ≤ (10 : ℚ)
    rw [sub_self]
    norm_num

theorem wall_burst {n : ℕ} {wall : ℕ} (h : wall ≤ 11 * ((n + 31) / 32)) :
    wall + (if n % 32 = 0 then 11 else 0) ≤ 11 * ((n + 1 + 31) / 32) := by
  split_ifs with hfirst
  · omega
  · have hle : (n + 31) / 32 ≤ (n + 1 + 31) / 32 := Nat.div_le_div_right (by omega)
    omega

theorem weigh_stranger (n : ℕ) (hid : s.id = trusting.id)
    (hreputation : s.reputation = warned.reputation) (hwitnesses : s.witnesses = trusting.witnesses)
    (hfamily : s.family = fun _ => none) :
    s.weigh ⟨turning.fromPublicKey [9], [9], subjectOf n, 0, 1, 0⟩ = s := by
  have hself : subjectOf n ≠ s.id := by
    intro heq
    have hhead : (subjectOf n).raw.head? = (turning.fromPublicKey [7]).raw.head? := by
      rw [heq, hid]
      rfl
    cases hhead
  have hstranger : turning.fromPublicKey [9] ∉ s.witnesses := by
    rw [hwitnesses]
    decide
  unfold Hearer.weigh
  dsimp only
  rw [if_neg hself, hreputation, standing_warned (Or.inr rfl), if_neg (by decide), if_neg hstranger,
    hfamily]

theorem Flooded.next {n : ℕ} (h : Flooded n s) (hn : n < 4096) :
    Flooded (n + 1) (run (step turning) s (burst n)) := by
  obtain ⟨count, hallowed, hcount, hmod⟩ := h.allowed
  have hwall := wall_burst h.wall
  set s' := step turning s (.wait (if n % 32 = 0 then 11 else 0) (if n % 32 = 0 then 11 else 0)) with hs'
  have hparse : parse turning (recordOf 9 n) s'.wall = _ := parse_recordOf (by decide) n (by
    show s.wall + _ ≤ 3600
    omega)
  have hstep : run (step turning) s (burst n) = { s' with
      rate := single carrier count s'.now
      seen := (remember accuseSeenMax s.seen (digest turning (statementOf 9 n))).2 } := by
    show s'.handleAbuseReport turning carrier (recordOf 9 n) = _
    rw [handle_accepted (s := s') h.gossip hallowed hparse]
    show (if digest turning (statementOf 9 n) ∈ s.seen then _ else _) = _
    split_ifs with hseen
    · rw [remember_of_mem hseen]
      rfl
    · exact weigh_stranger n h.id h.reputation h.witnesses h.family
  rw [hstep]
  refine ⟨h.gossip, h.id, h.reputation, h.witnesses, h.family, h.notes, ?_,
    ⟨count, rfl, hcount, hmod⟩, hwall⟩
  rw [List.range_succ, List.map_append, List.foldl_append, ← h.seen]
  rfl

theorem flooded : ∀ n ≤ 4096, Flooded n (run (step turning) warned (flood n))
  | 0, _ => by
    have hwarned : warned.gossipAbuse = true ∧ warned.id = trusting.id ∧
        warned.witnesses = trusting.witnesses ∧ warned.notes = [statementOf 1 5000] ∧
        warned.seen = [digest turning (statementOf 1 5000)] ∧ warned.rate = single carrier 1 warned.now ∧
        warned.wall = 0 := by decide +kernel
    obtain ⟨hgossip, hid, hwitnesses, hnotes, hseen, hrate, hwall⟩ := hwarned
    exact ⟨hgossip, hid, rfl, hwitnesses, family_handle trusting carrier _, hnotes, hseen, ⟨1, hrate, by decide, by decide⟩,
      hwall.trans_le (by decide)⟩
  | n + 1, hn => by
    have hsplit : flood (n + 1) = flood n ++ burst n := by
      unfold flood
      rw [List.range_succ, List.flatMap_append]
      simp
    rw [hsplit, run_append]
    exact (flooded n (by omega)).next (by omega)

theorem Flooded.forgotten {s : Hearer ℚ} (h : Flooded 4096 s) :
    digest turning (statementOf 1 5000) ∉ s.seen := by
  obtain ⟨ks, hks⟩ : ∃ ks, ks = (List.range 4096).map fun i => digest turning (statementOf 9 i) := ⟨_, rfl⟩
  have hnodup : ks.Nodup := by
    rw [hks]
    refine List.Nodup.map_on (fun m hm n hn heq => ?_) List.nodup_range
    rw [List.mem_range] at hm hn
    exact digest_inj (by omega) (by omega) heq
  have hfresh : digest turning (statementOf 1 5000) ∉ ks := by
    intro hk
    rw [hks] at hk
    obtain ⟨n, hn, heq⟩ := List.mem_map.mp hk
    rw [List.mem_range] at hn
    have := digest_inj (by omega) (by omega) heq
    omega
  have hlen : ks.length = 4096 := by rw [hks, List.length_map, List.length_range]
  have hfold := @foldl_remember _ _ accuseSeenMax ks [digest turning (statementOf 1 5000)]
    (by decide) hnodup fun k hk hmem => hfresh (List.mem_singleton.mp hmem ▸ hk)
  have hone : ([digest turning (statementOf 1 5000)] ++ ks).length - accuseSeenMax = 1 := by
    rw [List.length_append, hlen]
    rfl
  rw [h.seen, ← hks, hfold, hone]
  exact hfresh

theorem weigh_witness {s : Hearer R} {a : Parsed} (hself : a.subjectId ≠ s.id)
    (hok : s.reputation.standing a.accuserId s.now = .ok) (hwitness : a.accuserId ∈ s.witnesses) :
    (s.weigh a).notes = s.notes ++ [a.statement] := by
  unfold Hearer.weigh
  dsimp only
  rw [if_neg hself, if_neg (not_not.mpr hok), if_pos hwitness]

theorem Flooded.replayed (h : Flooded 4096 s) :
    (run (step turning) s [.wait 11 11, .report carrier (recordOf 1 5000)]).notes =
      [statementOf 1 5000, statementOf 1 5000] := by
  obtain ⟨count, hrate, -, -⟩ := h.rate
  set s' := step turning s (.wait 11 11) with hs'
  have hallowed : s'.abuseAllowed carrier = (true, single carrier 1 s'.now) := by
    show NMesh.Base.Allowance.allowed _ _ _ s.rate carrier (s.now + 11) = _
    rw [hrate]
    refine allowed_over (by decide) ?_
    show (10 : ℚ) < s.now + 11 - s.now
    ring_nf
    norm_num
  have hparse : parse turning (recordOf 1 5000) s'.wall = _ := parse_recordOf (by decide) 5000 (by
    have hwall := h.wall
    show s.wall + 11 ≤ 3600
    omega)
  have hself : subjectOf 5000 ≠ s.id := by
    rw [h.id]
    decide
  have hwitness : turning.fromPublicKey [1] ∈ s.witnesses := by
    rw [h.witnesses]
    decide
  have hok : s.reputation.standing (turning.fromPublicKey [1]) (s.now + 11) = .ok := by
    rw [h.reputation]
    exact standing_warned (Or.inl rfl) _
  have hnew : digest turning (statementOf 1 5000) ∉ s'.seen := h.forgotten
  show (s'.handleAbuseReport turning carrier (recordOf 1 5000)).notes = _
  rw [handle_accepted (s := s') h.gossip hallowed hparse]
  refine (congrArg Hearer.notes (if_neg hnew)).trans ((weigh_witness hself hok hwitness).trans ?_)
  show s.notes ++ [statementOf 1 5000] = _
  rw [h.notes]
  rfl

/-- **A flood of statements by nobody makes one count twice**, while it is still evidence. -/
theorem replayed_counts : ¬ (run (step turning) trusting
    (.report carrier (recordOf 1 5000) :: (flood 4096 ++
      [.wait 11 11, .report carrier (recordOf 1 5000)]))).notes.Nodup := by
  have h : Flooded 4096 (run (step turning) (step turning trusting (.report carrier (recordOf 1 5000)))
    (flood 4096)) := flooded 4096 le_rfl
  rw [run_cons, run_append, h.replayed]
  exact fun hnodup => (List.nodup_cons.mp hnodup).1 List.mem_cons_self

theorem heard_once_twice :
    (run (step turning) trusting [.report carrier (recordOf 1 5000),
      .report carrier (recordOf 1 5000)]).notes.Nodup ∧
    (run (step turning) trusting [.report carrier (recordOf 1 5000),
      .report carrier (recordOf 1 5000)]).passed.Nodup := by
  have hfew : warned.seen.length < accuseSeenMax := by decide +kernel
  exact heard_once (P := turning) (turning.fromPublicKey [7]) (.new 5 10 3600 512)
    [turning.fromPublicKey [1]] (fun _ => none) 0 0
    [.report carrier (recordOf 1 5000), .report carrier (recordOf 1 5000)]
    ⟨fun _ _ _ _ _ hfull => absurd hfull (by decide),
      fun _ _ _ _ _ hfull => absurd hfull (not_le.mpr hfew), trivial⟩

end NMesh.Opinion.Hearsay
