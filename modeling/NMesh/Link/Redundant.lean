import NMesh.Base.Runs
import Mathlib.Data.List.MinMax
import Mathlib.Data.List.Nodup
import Mathlib.Data.Rat.Defs
import Mathlib.Algebra.Order.Ring.Rat
import Mathlib.Tactic.SplitIfs

/-! # Redundant links

Two nodes that dial each other at the same moment hold two links each. `redundantLinks` names, at one
end, the ones that go: the link kept is the first of the node's own list that the larger id dialled;
if there is none, the one opened first; and the newest, if the one kept is much older. The ends
exchange nothing: each reads its own list and its own clock (`Pair`).

A link carries the same `label` at both its ends. -/

namespace NMesh.Link.Redundant

open Base.Runs

variable {L I S : Type} [DecidableEq L] [LinearOrder I] [DecidableEq S]

def handshakeDeadline : ℚ := 60

/-- A link, as one of its ends holds it. -/
structure Peer (L I S : Type) where
  label : L
  authenticatedId : Option I
  session : Bool
  relayOnly : Bool
  probation : Bool
  scheme : Option S
  isClientSide : Bool
  connectedAt : ℚ
  deriving DecidableEq

/-! ### What one end decides -/

def directLinksTo (target : I) (peers : List (Peer L I S)) : List (Peer L I S) :=
  peers.filter fun p => p.authenticatedId = some target && p.session && !p.relayOnly

def sameLinks (target : I) (scheme : S) (peers : List (Peer L I S)) : List (Peer L I S) :=
  (directLinksTo target peers).filter fun p => p.scheme = some scheme

def canonical (weDial : Bool) (same : List (Peer L I S)) : Option (Peer L I S) :=
  (same.find? fun p => p.isClientSide == weDial).or (same.argmin Peer.connectedAt)

def keeper (weDial : Bool) (same : List (Peer L I S)) : Option (Peer L I S) :=
  match canonical weDial same, same.argmax Peer.connectedAt with
  | some keep, some newest =>
    some (if handshakeDeadline < newest.connectedAt - keep.connectedAt then newest else keep)
  | _, _ => none

/-- **The links that the arrival of `peer` makes redundant**, at the node `own`. -/
def redundantLinks (own : I) (peers : List (Peer L I S)) (peer : Peer L I S) :
    List (Peer L I S) :=
  match peer.authenticatedId, peer.scheme with
  | some target, some scheme =>
    if peer.probation then []
    else
      let same := sameLinks target scheme peers
      if same.length < 2 then []
      -- a link on probation is a second link on purpose
      else if same.any Peer.probation then []
      else
        match keeper (decide (target < own)) same with
        | some keep => same.filter fun p => p.label ≠ keep.label
        | none => []
  | _, _ => []

/-- The labels closed, and whether `peer` itself survived. -/
def collapseRedundantLinks (own : I) (peers : List (Peer L I S)) (peer : Peer L I S) :
    List L × Bool :=
  let losers := (redundantLinks own peers peer).map Peer.label
  (losers, !losers.contains peer.label)

/-! ### The two ends -/

inductive End
  | a
  | b
  deriving DecidableEq

/-- What each end holds, and the labels one of them has closed. -/
structure Pair (L I S : Type) where
  peers : End → List (Peer L I S)
  closed : List L

inductive Act (L I S : Type)
  /-- A link authenticated at one end, which collapses what it makes redundant. -/
  | decide (e : End) (peer : Peer L I S)
  /-- A link that one of the ends closed is gone at this one. -/
  | gone (e : End) (label : L)

/-- One end's decision, or its taking note of a closed link. -/
def step (ids : End → I) (s : Pair L I S) : Act L I S → Pair L I S
  | .decide e peer =>
    { s with closed := s.closed ++ (collapseRedundantLinks (ids e) (s.peers e) peer).1 }
  | .gone e l =>
    if l ∈ s.closed then
      { s with peers := Function.update s.peers e ((s.peers e).filter fun p => p.label ≠ l) }
    else s

/-- The far end of `e`. -/
def End.other : End → End
  | .a => .b
  | .b => .a

/-- The links of the pair over one medium, as one end lists them. -/
def links (ids : End → I) (scheme : S) (s : Pair L I S) (e : End) : List (Peer L I S) :=
  sameLinks (ids e.other) scheme (s.peers e)

/-- **The two ends hold the same links**: two at least, dialled by the one end or the other, opened
within the deadline of one another, none on probation and none closed yet. -/
structure Mirrored (ids : End → I) (scheme : S) (s : Pair L I S) : Prop where
  ne : ids .a ≠ ids .b
  nodup : ∀ e, ((s.peers e).map Peer.label).Nodup
  same : ∀ e, ∀ p ∈ links ids scheme s e, ∃ q ∈ links ids scheme s e.other,
    q.label = p.label ∧ q.isClientSide = !p.isClientSide
  apart : ∀ e, ∀ p ∈ s.peers e, ∀ q ∈ links ids scheme s e.other, p.label = q.label →
    p ∈ links ids scheme s e
  two : ∀ e, 2 ≤ (links ids scheme s e).length
  young : ∀ e, ∀ p ∈ links ids scheme s e, ∀ q ∈ links ids scheme s e,
    p.connectedAt - q.connectedAt ≤ handshakeDeadline
  noProbe : ∀ e, ∀ p ∈ links ids scheme s e, p.probation = false
  unclosed : s.closed = []

/-- The link leads its list: it is the first that the larger id dialled, or the larger id dialled none
and it is the one opened first, the first of several opened at once. -/
def Leads (weDial : Bool) (same : List (Peer L I S)) (k : Peer L I S) : Prop :=
  ∃ pre post, same = pre ++ k :: post ∧
    ((k.isClientSide = weDial ∧ ∀ q ∈ pre, q.isClientSide ≠ weDial) ∨
      ((∀ q ∈ same, q.isClientSide ≠ weDial) ∧ (∀ q ∈ pre, k.connectedAt < q.connectedAt) ∧
        ∀ q ∈ post, k.connectedAt ≤ q.connectedAt))

/-! ### The link kept -/

section Keeper

variable {w : Bool} {same : List (Peer L I S)} {k : Peer L I S}

omit [DecidableEq L] [LinearOrder I] [DecidableEq S] in
theorem Leads.mem (h : Leads w same k) : k ∈ same := by
  obtain ⟨pre, post, rfl, -⟩ := h
  simp

omit [DecidableEq L] [LinearOrder I] [DecidableEq S] in
theorem Leads.filter {f : Peer L I S → Bool} (h : Leads w same k) (hf : f k = true) :
    Leads w (same.filter f) k := by
  obtain ⟨pre, post, rfl, h⟩ := h
  refine ⟨pre.filter f, post.filter f, by rw [List.filter_append, List.filter_cons_of_pos hf], ?_⟩
  rcases h with ⟨hk, hpre⟩ | ⟨hall, hpre, hpost⟩
  · exact .inl ⟨hk, fun q hq => hpre q (List.mem_filter.mp hq).1⟩
  · exact .inr ⟨fun q hq => hall q (List.mem_filter.mp hq).1,
      fun q hq => hpre q (List.mem_filter.mp hq).1, fun q hq => hpost q (List.mem_filter.mp hq).1⟩

theorem Leads.canonical (h : Leads w same k) : canonical w same = some k := by
  obtain ⟨pre, post, rfl, ⟨hk, hpre⟩ | ⟨hall, hpre, hpost⟩⟩ := h
  · have hfind : (pre ++ k :: post).find? (fun p => p.isClientSide == w) = some k := by
      rw [List.find?_eq_some_iff_append]
      exact ⟨by simpa using hk, pre, post, rfl, fun q hq => by simpa using hpre q hq⟩
    rw [Redundant.canonical, hfind, Option.some_or]
  · have hfind : (pre ++ k :: post).find? (fun p => p.isClientSide == w) = none := by
      rw [List.find?_eq_none]
      exact fun q hq => by simpa using hall q hq
    have hk : k ∉ pre := fun hmem => lt_irrefl _ (hpre k hmem)
    rw [Redundant.canonical, hfind, Option.none_or, List.argmin_eq_some_iff]
    refine ⟨by simp, fun q hq => ?_, fun q hq hle => ?_⟩
    · rcases List.mem_append.mp hq with hq | hq
      · exact (hpre q hq).le
      · rcases List.mem_cons.mp hq with rfl | hq
        · exact le_rfl
        · exact hpost q hq
    · have hqpre : q ∉ pre := fun hmem => absurd hle (not_le.mpr (hpre q hmem))
      rw [List.idxOf_append_of_notMem hk, List.idxOf_append_of_notMem hqpre, List.idxOf_cons_self]
      omega

theorem exists_leads (w : Bool) (h : same ≠ []) : ∃ k, Leads w same k := by
  cases hfind : same.find? (fun p => p.isClientSide == w) with
  | some k =>
    obtain ⟨hk, pre, post, rfl, hpre⟩ := List.find?_eq_some_iff_append.mp hfind
    exact ⟨k, pre, post, rfl, .inl ⟨by simpa using hk, fun q hq => by simpa using hpre q hq⟩⟩
  | none =>
    have hall : ∀ q ∈ same, q.isClientSide ≠ w := fun q hq => by
      simpa using List.find?_eq_none.mp hfind q hq
    obtain ⟨k, hmin⟩ : ∃ k, same.argmin Peer.connectedAt = some k := by
      rw [← Option.isSome_iff_exists, Option.isSome_iff_ne_none, ne_eq, List.argmin_eq_none]
      exact h
    obtain ⟨hmem, hle, hfirst⟩ := List.argmin_eq_some_iff.mp hmin
    obtain ⟨pre, post, rfl, hnot⟩ := List.eq_append_cons_of_mem hmem
    refine ⟨k, pre, post, rfl, .inr ⟨hall, fun q hq => ?_, fun q hq => hle q (by simp [hq])⟩⟩
    by_contra hlt
    have hidx := hfirst q (by simp [hq]) (not_lt.mp hlt)
    rw [List.idxOf_append_of_notMem hnot, List.idxOf_append_of_mem hq, List.idxOf_cons_self] at hidx
    have hlt := List.idxOf_lt_length_of_mem hq
    omega

theorem Leads.keeper (h : Leads w same k)
    (hyoung : ∀ p ∈ same, ∀ q ∈ same, p.connectedAt - q.connectedAt ≤ handshakeDeadline) :
    keeper w same = some k := by
  have hne : same ≠ [] := List.ne_nil_of_mem h.mem
  obtain ⟨n, hn⟩ : ∃ n, same.argmax Peer.connectedAt = some n := by
    rw [← Option.isSome_iff_exists, Option.isSome_iff_ne_none, ne_eq, List.argmax_eq_none]
    exact hne
  have hle := hyoung n (List.argmax_mem hn) k h.mem
  simp only [Redundant.keeper, h.canonical, hn, if_neg (not_lt.mpr hle)]

end Keeper

/-! ### One decision -/

section Decision

variable {own target : I} {scheme : S} {peers : List (Peer L I S)} {peer p : Peer L I S}

omit [DecidableEq L] in
theorem mem_sameLinks : p ∈ sameLinks target scheme peers ↔
    p ∈ peers ∧ p.authenticatedId = some target ∧ p.session = true ∧ p.relayOnly = false ∧
      p.scheme = some scheme := by
  simp only [sameLinks, directLinksTo, List.mem_filter, Bool.and_eq_true, decide_eq_true_eq,
    Bool.not_eq_true', and_assoc]

theorem mem_redundantLinks (h : p ∈ redundantLinks own peers peer) :
    ∃ target scheme keep, p ∈ sameLinks target scheme peers ∧
      keeper (decide (target < own)) (sameLinks target scheme peers) = some keep ∧
      p.label ≠ keep.label := by
  unfold redundantLinks at h
  split at h
  case h_2 => simp at h
  case h_1 target scheme _ _ =>
    dsimp only at h
    split_ifs at h
    all_goals try (simp at h; done)
    split at h
    · next keep hkeep =>
      obtain ⟨hp, hne⟩ := List.mem_filter.mp h
      exact ⟨target, scheme, keep, hp, hkeep, by simpa using hne⟩
    · simp at h

theorem redundantLinks_eq {k : Peer L I S} (hpeer : peer ∈ sameLinks target scheme peers)
    (htwo : 2 ≤ (sameLinks target scheme peers).length)
    (hprobe : ∀ q ∈ sameLinks target scheme peers, q.probation = false)
    (hkeep : keeper (decide (target < own)) (sameLinks target scheme peers) = some k) :
    redundantLinks own peers peer =
      (sameLinks target scheme peers).filter fun q => q.label ≠ k.label := by
  obtain ⟨-, hid, -, -, hscheme⟩ := mem_sameLinks.mp hpeer
  have hany : ¬ (sameLinks target scheme peers).any Peer.probation = true := by
    simpa using hprobe
  have hprobe := hprobe peer hpeer
  simp only [redundantLinks, hid, hscheme, hprobe, Bool.false_eq_true, if_false,
    if_neg (not_lt.mpr htwo), if_neg hany, hkeep]

end Decision

/-! ### Both decisions -/

section Survival

variable {ids : End → I} {scheme : S} {s : Pair L I S} {lab : L}

/-- Whether the node at `e` is the one whose dials lead. -/
def weDial (ids : End → I) (e : End) : Bool := decide (ids e.other < ids e)

/-- A link that leads at both ends and that neither has closed. -/
structure Kept (ids : End → I) (scheme : S) (lab : L) (s : Pair L I S) : Prop where
  leads : ∀ e, ∃ k, Leads (weDial ids e) (links ids scheme s e) k ∧ k.label = lab
  nodup : ∀ e, ((s.peers e).map Peer.label).Nodup
  young : ∀ e, ∀ p ∈ links ids scheme s e, ∀ q ∈ links ids scheme s e,
    p.connectedAt - q.connectedAt ≤ handshakeDeadline
  unclosed : lab ∉ s.closed

omit [DecidableEq L] [LinearOrder I] [DecidableEq S] in
theorem eq_of_label {peers : List (Peer L I S)} (h : (peers.map Peer.label).Nodup)
    {p q : Peer L I S} (hp : p ∈ peers) (hq : q ∈ peers) (heq : p.label = q.label) : p = q :=
  List.inj_on_of_nodup_map h hp hq heq

omit [DecidableEq L] in
theorem sameLinks_filter (target : I) (scheme : S) (peers : List (Peer L I S))
    (f : Peer L I S → Bool) :
    sameLinks target scheme (peers.filter f) = (sameLinks target scheme peers).filter f := by
  simp only [sameLinks, directLinksTo, List.filter_filter]
  congr 1
  funext p
  cases f p <;> simp

theorem Kept.not_mem (h : Kept ids scheme lab s) (e : End) (peer : Peer L I S) :
    lab ∉ (collapseRedundantLinks (ids e) (s.peers e) peer).1 := by
  intro hmem
  obtain ⟨p, hp, rfl⟩ := List.mem_map.mp hmem
  obtain ⟨target, medium, keep, hsame, hkeep, hne⟩ := mem_redundantLinks hp
  obtain ⟨k, hk, hlab⟩ := h.leads e
  obtain ⟨hkmem, hkid, -, -, hkscheme⟩ := mem_sameLinks.mp hk.mem
  obtain ⟨hpmem, hpid, -, -, hpscheme⟩ := mem_sameLinks.mp hsame
  obtain rfl : k = p := eq_of_label (h.nodup e) hkmem hpmem hlab
  obtain rfl : ids e.other = target := Option.mem_unique hkid hpid
  obtain rfl : scheme = medium := Option.mem_unique hkscheme hpscheme
  rw [show sameLinks (ids e.other) scheme (s.peers e) = links ids scheme s e from rfl,
    show decide (ids e.other < ids e) = weDial ids e from rfl, hk.keeper (h.young e)] at hkeep
  exact hne (congrArg Peer.label (Option.some.inj hkeep))

theorem Kept.step (h : Kept ids scheme lab s) (a : Act L I S) :
    Kept ids scheme lab (step ids s a) := by
  cases a with
  | decide e peer =>
    refine ⟨h.leads, h.nodup, h.young, ?_⟩
    show lab ∉ s.closed ++ _
    rw [List.mem_append]
    rintro (hmem | hmem)
    · exact h.unclosed hmem
    · exact h.not_mem e peer hmem
  | gone e l =>
    unfold Redundant.step
    dsimp only
    split_ifs with hl
    · have hne : lab ≠ l := fun heq => h.unclosed (heq ▸ hl)
      have hlinks : ∀ e', links ids scheme
          { s with peers := Function.update s.peers e ((s.peers e).filter fun p => p.label ≠ l) } e' =
          if e' = e then (links ids scheme s e').filter fun p => p.label ≠ l
            else links ids scheme s e' := by
        intro e'
        unfold links
        dsimp only
        split_ifs with he
        · subst he
          rw [Function.update_self, sameLinks_filter]
        · rw [Function.update_of_ne he]
      constructor
      · intro e'
        obtain ⟨k, hk, hlab⟩ := h.leads e'
        rw [hlinks]
        split_ifs with he
        · exact ⟨k, hk.filter (by simpa [hlab] using hne), hlab⟩
        · exact ⟨k, hk, hlab⟩
      · intro e'
        dsimp only
        by_cases he : e' = e
        · subst he
          rw [Function.update_self]
          exact (h.nodup e').sublist (List.filter_sublist.map _)
        · rw [Function.update_of_ne he]
          exact h.nodup e'
      · intro e'
        rw [hlinks]
        split_ifs with he
        · exact fun p hp q hq =>
            h.young e' p (List.mem_filter.mp hp).1 q (List.mem_filter.mp hq).1
        · exact h.young e'
      · exact h.unclosed
    · exact h

theorem Mirrored.kept (h : Mirrored ids scheme s) {ka kb : Peer L I S}
    (ha : Leads (weDial ids .a) (links ids scheme s .a) ka)
    (hb : Leads (weDial ids .b) (links ids scheme s .b) kb) (hlab : ka.label = kb.label)
    (as : List (Act L I S)) : ka.label ∉ (run (Redundant.step ids) s as).closed := by
  have h0 : Kept ids scheme ka.label s := by
    refine ⟨?_, h.nodup, h.young, by rw [h.unclosed]; exact List.not_mem_nil⟩
    rintro (_ | _)
    · exact ⟨ka, ha, rfl⟩
    · exact ⟨kb, hb, hlab.symm⟩
  exact (run_induct (P := Kept ids scheme ka.label) (fun _ a hs => hs.step a) as h0).unclosed

theorem Mirrored.closed (h : Mirrored ids scheme s) {ka kb : Peer L I S}
    (ha : Leads (weDial ids .a) (links ids scheme s .a) ka)
    (hb : Leads (weDial ids .b) (links ids scheme s .b) kb) {p : Peer L I S}
    (hp : p ∈ links ids scheme s .a) (hne : p.label ≠ ka.label ∨ p.label ≠ kb.label) :
    p.label ∈ (run (Redundant.step ids) s [.decide .a ka, .decide .b kb]).closed := by
  have hgone : ∀ e k, Leads (weDial ids e) (links ids scheme s e) k →
      ∀ q ∈ links ids scheme s e, q.label ≠ k.label →
        q.label ∈ (collapseRedundantLinks (ids e) (s.peers e) k).1 := by
    intro e k hk q hq hne
    refine List.mem_map.mpr ⟨q, ?_, rfl⟩
    rw [redundantLinks_eq hk.mem (h.two e) (h.noProbe e) (hk.keeper (h.young e))]
    exact List.mem_filter.mpr ⟨hq, by simpa using hne⟩
  show p.label ∈ (s.closed ++ (collapseRedundantLinks (ids .a) (s.peers .a) ka).1) ++
    (collapseRedundantLinks (ids .b) (s.peers .b) kb).1
  rcases hne with hne | hne
  · exact List.mem_append_left _ (List.mem_append_right _ (hgone .a ka ha p hp hne))
  · obtain ⟨q, hq, hlab, -⟩ := h.same .a p hp
    rw [← hlab]
    exact List.mem_append_right _ (hgone .b kb hb q hq (hlab ▸ hne))

/-- **A link survives every order of the two ends' decisions exactly if one link leads at both.** -/
theorem survives_iff (h : Mirrored ids scheme s) :
    (∀ as, ∃ p ∈ links ids scheme s .a, p.label ∉ (run (Redundant.step ids) s as).closed) ↔
      ∃ ka kb, Leads (weDial ids .a) (links ids scheme s .a) ka ∧
        Leads (weDial ids .b) (links ids scheme s .b) kb ∧ ka.label = kb.label := by
  have hne : ∀ e, links ids scheme s e ≠ [] := fun e heq => by
    have := h.two e
    rw [heq] at this
    simp at this
  constructor
  · intro hall
    obtain ⟨ka, ha⟩ := exists_leads (weDial ids .a) (hne .a)
    obtain ⟨kb, hb⟩ := exists_leads (weDial ids .b) (hne .b)
    obtain ⟨p, hp, hopen⟩ := hall [.decide .a ka, .decide .b kb]
    refine ⟨ka, kb, ha, hb, ?_⟩
    by_contra hlab
    refine hopen (h.closed ha hb hp ?_)
    by_contra! hboth
    exact hlab (hboth.1.symm.trans hboth.2)
  · rintro ⟨ka, kb, ha, hb, hlab⟩ as
    exact ⟨ka, ha.mem, h.kept ha hb hlab as⟩

end Survival

/-! ### Two dials of the larger id -/

def plainLink (label remote : ℕ) (isClientSide : Bool) : Peer ℕ ℕ ℕ where
  label := label
  authenticatedId := some remote
  session := true
  relayOnly := false
  probation := false
  scheme := some 0
  isClientSide := isClientSide
  connectedAt := 0

def plainIds : End → ℕ
  | .a => 1
  | .b => 2

/-- The node 2 dialled twice; the node 1 lists the links in the order given. -/
def twoDials (first second : ℕ) : Pair ℕ ℕ ℕ where
  peers
    | .a => [plainLink first 2 false, plainLink second 2 false]
    | .b => [plainLink 0 1 true, plainLink 1 1 true]
  closed := []

theorem twoDials_mirrored {first second : ℕ} (h : [first, second] = [0, 1] ∨ [first, second] = [1, 0]) :
    Mirrored plainIds 0 (twoDials first second) := by
  rcases h with h | h <;> obtain ⟨rfl, rfl⟩ : _ ∧ _ := by simpa using h
  all_goals
    constructor
    · decide
    · rintro (_ | _) <;> decide +kernel
    · rintro (_ | _) <;> decide +kernel
    · rintro (_ | _) <;> decide +kernel
    · rintro (_ | _) <;> decide +kernel
    · rintro (_ | _) <;> decide +kernel
    · rintro (_ | _) <;> decide +kernel
    · rfl

theorem twoDials_survives : Mirrored plainIds 0 (twoDials 0 1) ∧
    ∀ as, ∃ p ∈ links plainIds 0 (twoDials 0 1) .a,
      p.label ∉ (run (step plainIds) (twoDials 0 1) as).closed :=
  ⟨twoDials_mirrored (.inl rfl), (survives_iff (twoDials_mirrored (.inl rfl))).mpr
    ⟨plainLink 0 2 false, plainLink 0 1 true,
      ⟨[], [plainLink 1 2 false], by decide, .inl ⟨by decide, by decide⟩⟩,
      ⟨[], [plainLink 1 1 true], by decide, .inl ⟨by decide, by decide⟩⟩, by decide⟩⟩

/-- Listed in two orders, both links are closed. -/
theorem twoDials_cut : Mirrored plainIds 0 (twoDials 1 0) ∧
    ∀ p ∈ links plainIds 0 (twoDials 1 0) .a, p.label ∈ (run (step plainIds) (twoDials 1 0)
      [.decide .a (plainLink 0 2 false), .decide .b (plainLink 1 1 true)]).closed :=
  ⟨twoDials_mirrored (.inr rfl), by decide +kernel⟩

end NMesh.Link.Redundant
