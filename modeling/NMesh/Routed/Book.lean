import NMesh.Base.Recency
import NMesh.Base.Runs
import Mathlib.Data.Rat.Defs
import Mathlib.Algebra.Order.Ring.Rat
import Mathlib.Data.List.Pairwise
import Mathlib.Tactic.Linarith

/-! # The book of routed paths

Paths are kept target by target, with the targets something is interested in and the first hops given up on. Every
table keeps its bound and no book is empty (`sound_run`); what `ensure` drops to make room is the target it was
asked for the longest ago, but a path only as long as no path is asked for again after a newer one of its target
(`lasts_in_order`): asking for a path does not move it. -/

namespace NMesh.Routed.Book

open Base Base.Ordered Base.Runs

variable {ν : Type} [DecidableEq ν]

def shunMin : ℚ := 60
def shunMax : ℚ := 900
def maxShunned : ℕ := 64

/-- A path to `target` through `via`. -/
structure Path (ν : Type) where
  target : ν
  via : ν
  deriving DecidableEq

structure PathBook (ν : Type) where
  maxTargets : ℕ
  maxPerTarget : ℕ
  interestTtl : ℚ
  paths : Dict ν (Dict ν (Path ν))
  interest : Dict ν ℚ
  shunned : Dict (ν × ν) (ℕ × ℚ)

namespace PathBook

def new (maxTargets maxPerTarget : ℕ) (interestTtl : ℚ) : PathBook ν :=
  ⟨max 1 maxTargets, max 1 maxPerTarget, interestTtl, Dict.empty, Dict.empty, Dict.empty⟩

/-- Drop the oldest interests, and their paths, while there are too many. -/
def trim : ℕ → PathBook ν → PathBook ν
  | 0, b => b
  | n + 1, b =>
    if b.maxTargets < b.interest.size then
      trim n { b with
        interest := b.interest.dropFirst
        paths := (b.interest.keys.head?).elim b.paths b.paths.pop }
    else b

def noteInterest (target : ν) (now : ℚ) (b : PathBook ν) : PathBook ν :=
  let interest := (b.interest.pop target).set target now
  trim interest.size { b with interest := interest }

/-- The targets worth holding paths to; those that are not any more are dropped. -/
def warm (now : ℚ) (b : PathBook ν) : List ν × PathBook ν :=
  b.interest.entries.reverse.foldl (fun acc e =>
    if b.interestTtl < now - e.2 then
      (acc.1, { acc.2 with interest := acc.2.interest.pop e.1, paths := acc.2.paths.pop e.1 })
    else (acc.1 ++ [e.1], acc.2)) ([], b)

/-- The paths with a book of the target, which comes last. -/
def opened (target : ν) (b : PathBook ν) : Dict ν (Dict ν (Path ν)) :=
  (if target ∈ b.paths.keys then b.paths
    else (Dict.makeRoom b.maxTargets b.paths.size b.paths).set target Dict.empty).moveToEnd target

def ensure (target via : ν) (b : PathBook ν) : Path ν × PathBook ν :=
  let paths := b.opened target
  let book := (paths.get? target).getD Dict.empty
  match book.get? via with
  | some path => (path, { b with paths := paths })
  | none =>
    let book := book.set via ⟨target, via⟩
    (⟨target, via⟩, { b with paths := paths.set target (Dict.makeRoom (b.maxPerTarget + 1) book.size book) })

/-- Write the book of a target, or drop it when it is empty. -/
def put (target : ν) (book : Dict ν (Path ν)) (b : PathBook ν) : PathBook ν :=
  { b with paths := if book.size = 0 then b.paths.pop target else b.paths.set target book }

def drop (target via : ν) (b : PathBook ν) : Bool × PathBook ν :=
  match b.paths.get? target with
  | none => (false, b)
  | some book => if via ∈ book.keys then (true, b.put target (book.pop via)) else (false, b)

def forgetVia (via : ν) (b : PathBook ν) : ℕ × PathBook ν :=
  (b.paths.values.countP fun book => decide (via ∈ book.keys),
    { b with paths := (b.paths.mapVal fun _ book => book.pop via).filterVal fun book => decide (0 < book.size) })

def forget (target : ν) (b : PathBook ν) : PathBook ν :=
  { b with paths := b.paths.pop target, interest := b.interest.pop target }

/-- `_shun` -/
def shun (target via : ν) (now : ℚ) (b : PathBook ν) : PathBook ν :=
  let times := ((b.shunned.get? (target, via)).map Prod.fst).getD 0 + 1
  let delay := min shunMax (shunMin * 2 ^ min (times - 1) 4)
  let shunned := (b.shunned.pop (target, via)).set (target, via) (times, now + delay)
  { b with shunned := Dict.makeRoom (maxShunned + 1) shunned.size shunned }

/-- Drop the paths of a target that are `dead`, and remember them. -/
def reap (target : ν) (dead : ν → Bool) (now : ℚ) (b : PathBook ν) : List ν × PathBook ν :=
  match b.paths.get? target with
  | none => ([], b)
  | some book =>
    let gone := book.keys.filter dead
    (gone, (gone.foldl (fun b via => b.shun target via now) b).put target (gone.foldl Dict.pop book))

/-- `shunned` -/
def isShunned (target via : ν) (now : ℚ) (b : PathBook ν) : Bool :=
  (b.shunned.get? (target, via)).any fun held => decide (now < held.2)

def forgive (target via : ν) (b : PathBook ν) : PathBook ν :=
  { b with shunned := b.shunned.pop (target, via) }

end PathBook

open PathBook

/-! ### Runs -/

inductive Op (ν : Type)
  | noteInterest (target : ν) (now : ℚ)
  | warm (now : ℚ)
  | ensure (target via : ν)
  | drop (target via : ν)
  | forget (target : ν)
  | forgetVia (via : ν)
  | reap (target : ν) (dead : ν → Bool) (now : ℚ)
  | forgive (target via : ν)

/-- A book, what `ensure` was asked for, the latest first, and for each pair the holds it got in a row and the end
of the last one. -/
structure World (ν : Type) where
  book : PathBook ν
  asked : List (ν × ν)
  holds : ν × ν → Option (ℕ × ℚ)

/-- The hold after `k` in a row: `60 * 2 ^ k` seconds, at most 900. -/
def holdFor (k : ℕ) : ℚ := min 900 (60 * 2 ^ k)

def held (now : ℚ) (hold : Option (ℕ × ℚ)) : Option (ℕ × ℚ) :=
  let k := (hold.map Prod.fst).getD 0
  some (k + 1, now + holdFor k)

def step (w : World ν) : Op ν → World ν
  | .noteInterest target now => { w with book := w.book.noteInterest target now }
  | .warm now => { w with book := (w.book.warm now).2 }
  | .ensure target via => { w with book := (w.book.ensure target via).2, asked := (target, via) :: w.asked }
  | .drop target via => { w with book := (w.book.drop target via).2 }
  | .forget target => { w with book := w.book.forget target }
  | .forgetVia via => { w with book := (w.book.forgetVia via).2 }
  | .reap target dead now =>
    { w with
      book := (w.book.reap target dead now).2
      holds := fun pair =>
        if pair.1 = target ∧ pair.2 ∈ (w.book.reap target dead now).1 then held now (w.holds pair)
        else w.holds pair }
  | .forgive target via =>
    { w with book := w.book.forgive target via, holds := Function.update w.holds (target, via) none }

def start (maxTargets maxPerTarget : ℕ) (interestTtl : ℚ) : World ν :=
  ⟨PathBook.new maxTargets maxPerTarget interestTtl, [], fun _ => none⟩

/-- A path that is asked for again is the newest of its target. -/
def Newest (w : World ν) : Op ν → Prop
  | .ensure target via => ∀ book ∈ w.book.paths.get? target, via ∈ book.keys → book.keys.getLast? = some via
  | _ => True

/-- The pair is not evicted: it is in the table while it is held, between the drops of one `reap` as well. -/
def Remembered (pair : ν × ν) (w : World ν) (op : Op ν) : Prop :=
  (((step w op).holds pair).isSome → pair ∈ (step w op).book.shunned.keys) ∧
    ∀ target dead now, op = .reap target dead now → (w.holds pair).isSome → ∀ n,
      pair ∈ (((w.book.reap target dead now).1.take n).foldl (fun b via => b.shun target via now)
        w.book).shunned.keys

/-- **The tables keep their bounds**, and no book is empty. -/
structure Sound (b : PathBook ν) : Prop where
  targets : b.paths.size ≤ b.maxTargets
  perTarget : ∀ target book, b.paths.get? target = some book → 0 < book.size ∧ book.size ≤ b.maxPerTarget
  interests : b.interest.size ≤ b.maxTargets
  shuns : b.shunned.size ≤ maxShunned
  limits : 0 < b.maxTargets ∧ 0 < b.maxPerTarget

def age {κ : Type} [DecidableEq κ] (log : List κ) (k : κ) : ℕ := log.idxOf k

/-- **The path `ensure` returns is held**, and what it dropped was asked for the longest ago. -/
def Ensures (w : World ν) (target via : ν) : Prop :=
  (∃ book, (w.book.ensure target via).2.paths.get? target = some book ∧
    book.get? via = some (w.book.ensure target via).1) ∧
  (∀ gone ∈ w.book.paths.keys, gone ∉ (w.book.ensure target via).2.paths.keys →
    ∀ other ∈ w.book.paths.keys, other ≠ gone →
      age (w.asked.map Prod.fst) other < age (w.asked.map Prod.fst) gone) ∧
  ∀ book, w.book.paths.get? target = some book → ∀ gone ∈ book.keys,
    (∀ book', (w.book.ensure target via).2.paths.get? target = some book' → gone ∉ book'.keys) →
    ∀ other ∈ book.keys, other ≠ gone → age w.asked (target, other) < age w.asked (target, gone)

/-! ### Order of asking -/

section Order

variable {α κ : Type} [DecidableEq κ] {f : α → κ} {log : List κ} {ks : List α} {x : κ} {k : α}

/-- The keys stand in the order in which they were last asked for. -/
def Latest (f : α → κ) (log : List κ) (ks : List α) : Prop :=
  ks.Pairwise fun a b => age log (f b) < age log (f a)

theorem Latest.ask_other (h : Latest f log ks) (hx : ∀ a ∈ ks, f a ≠ x) : Latest f (x :: log) ks := by
  refine List.Pairwise.imp_of_mem (fun {a b} ha hb hlt => ?_) h
  unfold age
  rw [List.idxOf_cons_ne _ (hx a ha).symm, List.idxOf_cons_ne _ (hx b hb).symm]
  exact Nat.succ_lt_succ hlt

theorem Latest.ask (h : Latest f log ks) (hk : ∀ a ∈ ks, f a ≠ f k) : Latest f (f k :: log) (ks ++ [k]) := by
  refine List.pairwise_append.mpr ⟨h.ask_other hk, List.pairwise_singleton _ _, fun a ha b hb => ?_⟩
  obtain rfl := List.mem_singleton.mp hb
  unfold age
  rw [List.idxOf_cons_self, List.idxOf_cons_ne _ (hk a ha).symm]
  exact Nat.succ_pos _

theorem Latest.head (h : Latest f log ks) {gone other : α} (hgone : ks.head? = some gone) (ho : other ∈ ks)
    (hne : other ≠ gone) : age log (f other) < age log (f gone) := by
  cases ks with
  | nil => cases ho
  | cons a ks =>
    cases hgone
    exact (List.pairwise_cons.mp h).1 other ((List.mem_cons.mp ho).resolve_left hne)

end Order

/-- The keys of a table after one of them was asked for. -/
structure Asked {κ : Type} (before after : List κ) (k : κ) : Prop where
  rest : ∃ ks, ks.Sublist before ∧ k ∉ ks ∧ after = ks ++ [k]
  gone : ∀ gone ∈ before, gone ∉ after → before.head? = some gone

theorem Asked.latest {κ ι : Type} [DecidableEq ι] {f : κ → ι} {before after : List κ} {k : κ} {log : List ι}
    (hf : ∀ a b, f a = f b → a = b) (h : Asked before after k) (hlatest : Latest f log before) :
    Latest f (f k :: log) after := by
  obtain ⟨ks, hsub, hnot, rfl⟩ := h.rest
  exact Latest.ask (hlatest.sublist hsub) fun a ha heq => hnot (hf a k heq ▸ ha)

/-! ### Making room -/

section Room

variable {κ υ : Type} [DecidableEq κ] {d : Dict κ υ} {limit : ℕ}

omit [DecidableEq κ] in
theorem makeRoom_cases (hpos : 0 < limit) (h : d.size ≤ limit) :
    Dict.makeRoom limit d.size d = d ∨ Dict.makeRoom limit d.size d = d.dropFirst := by
  rcases Nat.lt_or_eq_of_le h with hlt | rfl
  · exact Or.inl (Dict.makeRoom_of_lt hlt)
  · have hdrop : d.dropFirst.size < d.size := by
      show d.entries.tail.length < d.entries.length
      rw [List.length_tail]
      exact Nat.sub_lt hpos Nat.one_pos
    have hone : ∀ n, Dict.makeRoom d.size (n + 1) d = d.dropFirst := by
      intro n
      rw [Dict.makeRoom, if_pos le_rfl, Dict.makeRoom_of_lt hdrop]
    obtain ⟨n, hn⟩ := Nat.exists_eq_succ_of_ne_zero hpos.ne'
    have hsize := hone n
    rw [← Nat.succ_eq_add_one, ← hn] at hsize
    exact Or.inr hsize

omit [DecidableEq κ] in
theorem makeRoom_spec (hpos : 0 < limit) (h : d.size ≤ limit) :
    (Dict.makeRoom limit d.size d).keys.Sublist d.keys ∧ (Dict.makeRoom limit d.size d).size < limit ∧
      ∀ gone ∈ d.keys, gone ∉ (Dict.makeRoom limit d.size d).keys → d.keys.head? = some gone := by
  have hlt := Dict.size_makeRoom_lt hpos (le_refl d.size)
  rcases makeRoom_cases hpos h with heq | heq
  · rw [heq] at hlt ⊢
    exact ⟨List.Sublist.refl _, hlt, fun gone hin hout => absurd hin hout⟩
  · rw [heq] at hlt ⊢
    rw [Recency.keys_dropFirst]
    refine ⟨List.tail_sublist _, hlt, fun gone hin hout => ?_⟩
    cases hkeys : d.keys with
    | nil =>
      rw [hkeys] at hin
      cases hin
    | cons k ks =>
      rw [hkeys] at hin hout
      rw [(List.mem_cons.mp hin).resolve_right hout]
      rfl

theorem keys_moveToEnd {k : κ} (h : k ∈ d.keys) : (d.moveToEnd k).keys = d.keys.filter (· ≠ k) ++ [k] := by
  obtain ⟨v, hv⟩ := Dict.mem_keys.mp h
  unfold Dict.moveToEnd
  rw [hv]
  dsimp only
  rw [Dict.keys_set_of_notMem (fun hk => (Dict.mem_keys_pop.mp hk).2 rfl), Dict.keys_pop]

theorem room_for_one {k : κ} (v : υ) (hpos : 0 < limit) (hle : d.size ≤ limit) (hk : k ∉ d.keys) :
    Asked d.keys (Dict.makeRoom (limit + 1) (d.set k v).size (d.set k v)).keys k ∧
      (Dict.makeRoom (limit + 1) (d.set k v).size (d.set k v)).size ≤ limit ∧
      (Dict.makeRoom (limit + 1) (d.set k v).size (d.set k v)).get? k = some v := by
  have hkeys := Dict.keys_set_of_notMem hk v
  have hsize : (d.set k v).size ≤ limit + 1 := by
    rw [Dict.size_set_of_notMem hk]
    exact Nat.succ_le_succ hle
  obtain ⟨-, hlt, hgone⟩ := makeRoom_spec (Nat.succ_pos limit) hsize
  have hasked : Asked d.keys (Dict.makeRoom (limit + 1) (d.set k v).size (d.set k v)).keys k := by
    rcases makeRoom_cases (Nat.succ_pos limit) hsize with heq | heq
    · rw [heq, hkeys]
      exact ⟨⟨_, List.Sublist.refl _, hk, rfl⟩, fun gone hin hout => absurd (List.mem_append_left _ hin) hout⟩
    · rw [heq] at hlt hgone ⊢
      rw [Recency.keys_dropFirst, hkeys] at hgone ⊢
      cases hks : d.keys with
      | nil =>
        -- an empty table has room
        have hzero : d.size = 0 := by rw [Dict.size_eq, hks]; rfl
        have hdrop := Dict.makeRoom_of_lt (n := (d.set k v).size)
          (show (d.set k v).size < limit + 1 by rw [Dict.size_set_of_notMem hk]; omega)
        have hbad := congrArg Dict.keys (heq.symm.trans hdrop)
        rw [Recency.keys_dropFirst, hkeys, hks] at hbad
        cases hbad
      | cons x ks =>
        rw [hks] at hgone hk
        refine ⟨⟨ks, List.sublist_cons_self x ks, fun h => hk (List.mem_cons_of_mem x h), rfl⟩, fun gone hin hout => ?_⟩
        exact hgone gone (List.mem_append_left _ hin) hout
  refine ⟨hasked, Nat.lt_succ_iff.mp hlt, ?_⟩
  obtain ⟨ks, -, -, heq⟩ := hasked.rest
  obtain ⟨v', hv'⟩ := Dict.mem_keys.mp (heq ▸ List.mem_append_right ks (List.mem_singleton_self k))
  have hsame := Dict.get?_of_makeRoom hv'
  rw [Dict.get?_set_self] at hsame
  rw [hv', ← hsame]

end Room

/-! ### `ensure` -/

variable {b : PathBook ν} {target via : ν}

theorem opened_spec (hs : Sound b) (target : ν) : Asked b.paths.keys (b.opened target).keys target ∧
    (b.opened target).size ≤ b.maxTargets ∧
    (b.opened target).get? target = some ((b.paths.get? target).getD Dict.empty) ∧
    ∀ t ≠ target, ∀ book, (b.opened target).get? t = some book → b.paths.get? t = some book := by
  unfold PathBook.opened
  split_ifs with hk
  · refine ⟨⟨⟨b.paths.keys.filter (· ≠ target), List.filter_sublist, by simp, keys_moveToEnd hk⟩, fun gone hgone hnot => ?_⟩,
      ?_, ?_, fun t _ book h => ?_⟩
    · rw [keys_moveToEnd hk] at hnot
      by_cases heq : gone = target <;> simp [heq, hgone] at hnot
    · rw [Dict.size_moveToEnd]
      exact hs.targets
    · obtain ⟨book, hbook⟩ := Dict.mem_keys.mp hk
      rw [Dict.get?_moveToEnd, hbook]
      rfl
    · rwa [Dict.get?_moveToEnd] at h
  · obtain ⟨hsub, hsize, hgone⟩ := makeRoom_spec hs.limits.1 hs.targets
    have hnot : target ∉ (Dict.makeRoom b.maxTargets b.paths.size b.paths).keys := fun h => hk (hsub.subset h)
    have hkeys := Dict.keys_set_of_notMem hnot (Dict.empty : Dict ν (Path ν))
    have hself : (Dict.makeRoom b.maxTargets b.paths.size b.paths).keys.filter (· ≠ target) =
        (Dict.makeRoom b.maxTargets b.paths.size b.paths).keys :=
      List.filter_eq_self.mpr fun a ha => decide_eq_true fun heq => hnot (heq ▸ ha)
    have hmem : target ∈ ((Dict.makeRoom b.maxTargets b.paths.size b.paths).set target Dict.empty).keys :=
      Dict.mem_keys_set.mpr (Or.inl rfl)
    have hmoved := keys_moveToEnd hmem
    rw [hkeys, List.filter_append, hself] at hmoved
    have hlast : [target].filter (· ≠ target) = [] := by simp
    rw [hlast, List.append_nil] at hmoved
    refine ⟨⟨⟨_, hsub, hnot, hmoved⟩, fun gone hin hout => hgone gone hin fun h => hout ?_⟩, ?_, ?_,
      fun t hne book h => ?_⟩
    · rw [hmoved]
      exact List.mem_append_left _ h
    · rw [Dict.size_moveToEnd, Dict.size_set_of_notMem hnot]
      exact hsize
    · rw [Dict.get?_moveToEnd, Dict.get?_set_self, Dict.get?_eq_none.mpr hk]
      rfl
    · rw [Dict.get?_moveToEnd, Dict.get?_set_of_ne _ hne.symm] at h
      exact Dict.get?_of_makeRoom h

def bookOf (b : PathBook ν) (target : ν) : Dict ν (Path ν) := (b.paths.get? target).getD Dict.empty

/-- What `ensure` leaves. -/
structure Ensured (b : PathBook ν) (target via : ν) (out : Path ν × PathBook ν) (book : Dict ν (Path ν)) : Prop where
  same : out.2.maxTargets = b.maxTargets ∧ out.2.maxPerTarget = b.maxPerTarget ∧ out.2.interest = b.interest ∧
    out.2.shunned = b.shunned
  targets : Asked b.paths.keys out.2.paths.keys target ∧ out.2.paths.size ≤ b.maxTargets
  others : ∀ t ≠ target, ∀ book, out.2.paths.get? t = some book → b.paths.get? t = some book
  there : out.2.paths.get? target = some book ∧ book.get? via = some out.1
  size : book.size ≤ b.maxPerTarget
  paths : book = bookOf b target ∨ via ∉ (bookOf b target).keys ∧ Asked (bookOf b target).keys book.keys via

theorem size_bookOf (hs : Sound b) (target : ν) : (bookOf b target).size ≤ b.maxPerTarget := by
  unfold bookOf
  cases h : b.paths.get? target with
  | none => exact Nat.zero_le _
  | some book => exact (hs.perTarget target book h).2

theorem ensure_spec (hs : Sound b) (target via : ν) : ∃ book, Ensured b target via (b.ensure target via) book := by
  obtain ⟨hasked, hsize, hbook, hothers⟩ := opened_spec hs target
  unfold PathBook.ensure
  dsimp only
  rw [hbook, Option.getD_some]
  rw [show (b.paths.get? target).getD Dict.empty = bookOf b target from rfl]
  cases hvia : (bookOf b target).get? via with
  | some path =>
    exact ⟨bookOf b target, ⟨rfl, rfl, rfl, rfl⟩, ⟨hasked, hsize⟩, hothers, ⟨hbook, hvia⟩, size_bookOf hs target,
      Or.inl rfl⟩
  | none =>
    have hnot : via ∉ (bookOf b target).keys := Dict.get?_eq_none.mp hvia
    have hkey : target ∈ (b.opened target).keys := Dict.mem_keys_of_get? hbook
    obtain ⟨hnew, hle, hget⟩ := room_for_one (⟨target, via⟩ : Path ν) hs.limits.2 (size_bookOf hs target) hnot
    refine ⟨_, ⟨rfl, rfl, rfl, rfl⟩, ⟨?_, ?_⟩, fun t hne book h => ?_, ⟨Dict.get?_set_self _ _ _, hget⟩, hle,
      Or.inr ⟨hnot, hnew⟩⟩
    · dsimp only
      rw [Dict.keys_set_of_mem hkey]
      exact hasked
    · dsimp only
      rw [Dict.size_set_of_mem hkey]
      exact hsize
    · dsimp only at h
      rw [Dict.get?_set_of_ne _ hne.symm] at h
      exact hothers t hne book h

/-! ### The other operations -/

/-- There are fewer paths: of what there was, in the same order, and no book is empty for it. -/
structure Fewer (d d' : Dict ν (Dict ν (Path ν))) : Prop where
  keys : d'.keys.Sublist d.keys
  books : ∀ target book', d'.get? target = some book' → ∃ book, d.get? target = some book ∧
    book'.keys.Sublist book.keys ∧ (0 < book.size → 0 < book'.size)

variable {d d' d'' : Dict ν (Dict ν (Path ν))}

theorem Fewer.refl (d : Dict ν (Dict ν (Path ν))) : Fewer d d :=
  ⟨List.Sublist.refl _, fun _ book h => ⟨book, h, List.Sublist.refl _, id⟩⟩

theorem Fewer.trans (h : Fewer d d') (h' : Fewer d' d'') : Fewer d d'' := by
  refine ⟨h'.keys.trans h.keys, fun t book'' hget => ?_⟩
  obtain ⟨book', hget', hsub', hpos'⟩ := h'.books t book'' hget
  obtain ⟨book, hget, hsub, hpos⟩ := h.books t book' hget'
  exact ⟨book, hget, hsub'.trans hsub, hpos' ∘ hpos⟩

theorem fewer_pop (d : Dict ν (Dict ν (Path ν))) (target : ν) : Fewer d (d.pop target) := by
  refine ⟨?_, fun t book h => ⟨book, (Dict.get?_of_pop h).2, List.Sublist.refl _, id⟩⟩
  rw [Dict.keys_pop]
  exact List.filter_sublist

theorem fewer_put {book book' : Dict ν (Path ν)} (h : b.paths.get? target = some book)
    (hsub : book'.keys.Sublist book.keys) : Fewer b.paths (b.put target book').paths := by
  unfold PathBook.put
  dsimp only
  split_ifs with hzero
  · exact fewer_pop _ _
  · have hkeys := Dict.keys_set_of_mem (Dict.mem_keys_of_get? h) book'
    refine ⟨by rw [hkeys], fun t book'' hget => ?_⟩
    by_cases ht : target = t
    · subst ht
      rw [Dict.get?_set_self] at hget
      cases hget
      exact ⟨book, h, hsub, fun _ => Nat.pos_of_ne_zero hzero⟩
    · rw [Dict.get?_set_of_ne _ ht] at hget
      exact ⟨book'', hget, List.Sublist.refl _, id⟩

theorem fewer_forgetVia (via : ν) (b : PathBook ν) : Fewer b.paths (b.forgetVia via).2.paths := by
  refine ⟨?_, fun t book' hget => ?_⟩
  · show (((b.paths.mapVal fun _ book => book.pop via).entries.filter _).map Prod.fst).Sublist _
    rw [← Dict.keys_mapVal b.paths fun _ book => book.pop via]
    exact List.Sublist.map _ List.filter_sublist
  · have hget : ((b.paths.mapVal fun _ book => book.pop via).filterVal fun book => decide (0 < book.size)).get? t =
        some book' := hget
    rw [Dict.get?_filterVal, Dict.get?_mapVal, Option.filter_eq_some_iff] at hget
    obtain ⟨hmap, hpos⟩ := hget
    obtain ⟨book, hbook, rfl⟩ := Option.map_eq_some_iff.mp hmap
    refine ⟨book, hbook, ?_, fun _ => of_decide_eq_true hpos⟩
    rw [Dict.keys_pop]
    exact List.filter_sublist

/-- What an operation other than `ensure` leaves of a book, the holds apart. -/
structure Leaves (b b' : PathBook ν) : Prop where
  limits : b'.maxTargets = b.maxTargets ∧ b'.maxPerTarget = b.maxPerTarget
  paths : Fewer b.paths b'.paths
  interests : b.interest.size ≤ b.maxTargets → b'.interest.size ≤ b.maxTargets
  shunned : b'.shunned = b.shunned

theorem Leaves.refl (b : PathBook ν) : Leaves b b := ⟨⟨rfl, rfl⟩, Fewer.refl _, id, rfl⟩

theorem Leaves.trans {b' b'' : PathBook ν} (h : Leaves b b') (h' : Leaves b' b'') : Leaves b b'' := by
  have hinterests := h'.interests
  rw [h.limits.1] at hinterests
  exact ⟨⟨h'.limits.1.trans h.limits.1, h'.limits.2.trans h.limits.2⟩, h.paths.trans h'.paths,
    hinterests ∘ h.interests, h'.shunned.trans h.shunned⟩

theorem trim_spec : ∀ {n : ℕ} {b : PathBook ν}, b.interest.size ≤ n →
    (trim n b).maxTargets = b.maxTargets ∧ (trim n b).maxPerTarget = b.maxPerTarget ∧
      Fewer b.paths (trim n b).paths ∧ (trim n b).interest.size ≤ b.maxTargets ∧ (trim n b).shunned = b.shunned
  | 0, b, h => ⟨rfl, rfl, Fewer.refl _, h.trans (Nat.zero_le _), rfl⟩
  | n + 1, b, h => by
    rw [trim]
    split_ifs with hfull
    · have htail : b.interest.dropFirst.size = b.interest.size - 1 := List.length_tail
      have hpop : Fewer b.paths ((b.interest.keys.head?).elim b.paths b.paths.pop) := by
        cases b.interest.keys.head? with
        | none => exact Fewer.refl _
        | some k => exact fewer_pop _ k
      obtain ⟨h1, h2, h3, h4, h5⟩ := @trim_spec n { b with
        interest := b.interest.dropFirst
        paths := (b.interest.keys.head?).elim b.paths b.paths.pop } (by dsimp only; omega)
      exact ⟨h1, h2, hpop.trans h3, h4, h5⟩
    · exact ⟨rfl, rfl, Fewer.refl _, by omega, rfl⟩

theorem shuns_eq (target : ν) (now : ℚ) : ∀ (gone : List ν) (b : PathBook ν),
    gone.foldl (fun b via => b.shun target via now) b =
        { b with shunned := (gone.foldl (fun b via => b.shun target via now) b).shunned } ∧
      (b.shunned.size ≤ maxShunned →
        (gone.foldl (fun b via => b.shun target via now) b).shunned.size ≤ maxShunned)
  | [], b => ⟨rfl, id⟩
  | via :: gone, b => by
    obtain ⟨heq, hsize⟩ := shuns_eq target now gone (b.shun target via now)
    exact ⟨heq, fun _ => hsize (Nat.lt_succ_iff.mp (Dict.size_makeRoom_lt (Nat.succ_pos _) le_rfl))⟩

theorem keys_pops : ∀ (gone : List ν) (book : Dict ν (Path ν)), (gone.foldl Dict.pop book).keys.Sublist book.keys
  | [], _ => List.Sublist.refl _
  | via :: gone, book => by
    refine (keys_pops gone (book.pop via)).trans ?_
    rw [Dict.keys_pop]
    exact List.filter_sublist

theorem leaves_warm (now : ℚ) (b : PathBook ν) : Leaves b (b.warm now).2 := by
  have hgo : ∀ (l : List (ν × ℚ)) (acc : List ν × PathBook ν), Leaves acc.2 (l.foldl (fun acc e =>
      if b.interestTtl < now - e.2 then
        (acc.1, { acc.2 with interest := acc.2.interest.pop e.1, paths := acc.2.paths.pop e.1 })
      else (acc.1 ++ [e.1], acc.2)) acc).2 := by
    intro l
    induction l with
    | nil => exact fun acc => Leaves.refl _
    | cons e l ih =>
      intro acc
      rw [List.foldl_cons]
      refine Leaves.trans ?_ (ih _)
      split_ifs
      · exact ⟨⟨rfl, rfl⟩, fewer_pop _ _, (Dict.size_pop_le _ _).trans, rfl⟩
      · exact Leaves.refl _
  exact hgo _ ([], b)

/-- The holds after an operation. -/
inductive Holds (b : PathBook ν) : Op ν → Dict (ν × ν) (ℕ × ℚ) → Prop
  | same (op : Op ν) : (∀ target via, op ≠ .forgive target via) → (∀ target dead now, op ≠ .reap target dead now) →
      Holds b op b.shunned
  | forgive (target via : ν) : Holds b (.forgive target via) (b.shunned.pop (target, via))
  | reap (target : ν) (dead : ν → Bool) (now : ℚ) : Holds b (.reap target dead now)
      ((b.reap target dead now).1.foldl (fun b via => b.shun target via now) b).shunned

/-- **Every operation but `ensure` leaves fewer paths, and every table within its bound.** -/
theorem leaves_step (w : World ν) {op : Op ν} (h : ∀ target via, op ≠ .ensure target via) :
    ∃ shunned, Holds w.book op shunned ∧ Leaves { w.book with shunned := shunned } (step w op).book ∧
      (step w op).asked = w.asked := by
  cases op with
  | ensure target via => exact absurd rfl (h target via)
  | noteInterest target now =>
    obtain ⟨h1, h2, h3, h4, h5⟩ := @trim_spec ν _ ((w.book.interest.pop target).set target now).size
      { w.book with interest := (w.book.interest.pop target).set target now } le_rfl
    exact ⟨_, .same _ (by simp) (by simp), ⟨⟨h1, h2⟩, h3, fun _ => h4, h5⟩, rfl⟩
  | warm now => exact ⟨_, .same _ (by simp) (by simp), leaves_warm now w.book, rfl⟩
  | drop target via =>
    refine ⟨_, .same _ (by simp) (by simp), ?_, rfl⟩
    show Leaves w.book (w.book.drop target via).2
    unfold PathBook.drop
    cases hbook : w.book.paths.get? target with
    | none => exact Leaves.refl _
    | some book =>
      dsimp only
      split_ifs
      · refine ⟨⟨rfl, rfl⟩, fewer_put hbook ?_, id, rfl⟩
        rw [Dict.keys_pop]
        exact List.filter_sublist
      · exact Leaves.refl _
  | forget target =>
    exact ⟨_, .same _ (by simp) (by simp), ⟨⟨rfl, rfl⟩, fewer_pop _ _, (Dict.size_pop_le _ _).trans, rfl⟩, rfl⟩
  | forgetVia via =>
    exact ⟨_, .same _ (by simp) (by simp), ⟨⟨rfl, rfl⟩, fewer_forgetVia via w.book, id, rfl⟩, rfl⟩
  | forgive target via => exact ⟨_, .forgive target via, Leaves.refl _, rfl⟩
  | reap target dead now =>
    refine ⟨_, .reap target dead now, ?_, rfl⟩
    show Leaves _ (w.book.reap target dead now).2
    unfold PathBook.reap
    cases hbook : w.book.paths.get? target with
    | none => exact Leaves.refl w.book
    | some book =>
      dsimp only
      rw [← (shuns_eq target now _ w.book).1]
      refine ⟨⟨rfl, rfl⟩, fewer_put ?_ (keys_pops _ book), id, rfl⟩
      rw [(shuns_eq target now _ w.book).1]
      exact hbook

/-! ### Order and bounds over a run -/

/-- The targets, and the paths of each, stand in the order in which they were last asked for. -/
def Ordered (w : World ν) : Prop :=
  Latest id (w.asked.map Prod.fst) w.book.paths.keys ∧
    ∀ target book, w.book.paths.get? target = some book → Latest (Prod.mk target) w.asked book.keys

theorem Sound.leaves {b' : PathBook ν} {op : Op ν} {shunned : Dict (ν × ν) (ℕ × ℚ)} (hs : Sound b)
    (hholds : Holds b op shunned) (h : Leaves { b with shunned := shunned } b') : Sound b' := by
  obtain ⟨⟨hmax, hper⟩, hpaths, hinterests, hshunned⟩ := h
  refine ⟨?_, fun t book' hget => ?_, hmax ▸ hinterests hs.interests, ?_, hmax ▸ hper ▸ hs.limits⟩
  · have hlen := hpaths.keys.length_le
    rw [← Dict.size_eq, ← Dict.size_eq] at hlen
    exact hmax ▸ hlen.trans hs.targets
  · obtain ⟨book, hbook, hsub, hpos⟩ := hpaths.books t book' hget
    obtain ⟨hsize, hle⟩ := hs.perTarget t book hbook
    have hlen := hsub.length_le
    rw [← Dict.size_eq, ← Dict.size_eq] at hlen
    exact ⟨hpos hsize, hper ▸ hlen.trans hle⟩
  · rw [hshunned]
    cases hholds with
    | same => exact hs.shuns
    | forgive target via => exact (Dict.size_pop_le _ _).trans hs.shuns
    | reap target dead now => exact (shuns_eq target now _ b).2 hs.shuns

omit [DecidableEq ν] in
theorem pair_ne {t target via : ν} (hne : t ≠ target) (a : ν) : (t, a) ≠ (target, via) :=
  fun h => hne (congrArg Prod.fst h)

variable {w : World ν}

/-- **One operation keeps the bounds and the order**, unless it asks again for a path that is not the newest. -/
theorem step_spec (hs : Sound w.book) (ho : Ordered w) {op : Op ν} (hG : Newest w op) :
    Sound (step w op).book ∧ Ordered (step w op) := by
  by_cases hop : ∃ target via, op = .ensure target via
  · obtain ⟨target, via, rfl⟩ := hop
    obtain ⟨book, h⟩ := ensure_spec hs target via
    obtain ⟨hmax, hper, hinterest, hshunned⟩ := h.same
    obtain ⟨hthere, hvia⟩ := h.there
    have hpos : 0 < book.size := by
      rw [Dict.size_eq]
      exact List.length_pos_of_mem (Dict.mem_keys_of_get? hvia)
    refine ⟨⟨hmax ▸ h.targets.2, fun t book' hget => ?_, ?_, ?_, ?_⟩, ?_, fun t book' hget => ?_⟩
    · by_cases ht : t = target
      · subst ht
        obtain rfl := Option.mem_unique hthere hget
        exact ⟨hpos, hper ▸ h.size⟩
      · exact hper ▸ hs.perTarget t book' (h.others t ht book' hget)
    · exact hmax ▸ hinterest ▸ hs.interests
    · exact hshunned ▸ hs.shuns
    · exact hmax ▸ hper ▸ hs.limits
    · exact h.targets.1.latest (fun a b => id) ho.1
    · by_cases ht : t = target
      · subst ht
        obtain rfl := Option.mem_unique hthere hget
        have hbefore : Latest (Prod.mk t) w.asked (bookOf w.book t).keys := by
          unfold bookOf
          cases hold : w.book.paths.get? t with
          | none => exact List.Pairwise.nil
          | some old => exact ho.2 t old hold
        have hinj : ∀ a b : ν, (t, a) = (t, b) → a = b := fun a b hab => (Prod.mk.inj hab).2
        rcases h.paths with rfl | ⟨-, hasked⟩
        · -- the path is there, and the newest
          have hold : w.book.paths.get? t = some (bookOf w.book t) := by
            unfold bookOf at hvia ⊢
            cases hold : w.book.paths.get? t with
            | none =>
              rw [hold] at hvia
              cases hvia
            | some old => rfl
          obtain ⟨ks, hks⟩ := List.getLast?_eq_some_iff.mp (hG _ hold (Dict.mem_keys_of_get? hvia))
          have hnodup := (bookOf w.book t).nodup_keys
          refine Asked.latest hinj ⟨⟨ks, ?_, ?_, hks⟩, fun gone hin hout => absurd hin hout⟩ hbefore
          · rw [hks]
            exact List.sublist_append_left _ _
          · intro hmem
            rw [hks] at hnodup
            exact (List.nodup_append.mp hnodup).2.2 via hmem via (List.mem_singleton_self _) rfl
        · exact hasked.latest hinj hbefore
      · exact (ho.2 t book' (h.others t ht book' hget)).ask_other fun a _ => pair_ne ht a
  · obtain ⟨shunned, hholds, hleaves, hasked⟩ := leaves_step w fun target via h => hop ⟨target, via, h⟩
    refine ⟨hs.leaves hholds hleaves, ?_, fun t book' hget => ?_⟩
    · rw [hasked]
      exact ho.1.sublist hleaves.paths.keys
    · obtain ⟨book, hbook, hsub, -⟩ := hleaves.paths.books t book' hget
      rw [hasked]
      exact (ho.2 t book hbook).sublist hsub

theorem ensures_of_ordered (hs : Sound w.book) (ho : Ordered w) (target via : ν) : Ensures w target via := by
  obtain ⟨book, h⟩ := ensure_spec hs target via
  refine ⟨⟨book, h.there⟩, fun gone hgone hout other hother hne => ?_, fun old hold gone hgone hout other hother hne => ?_⟩
  · exact ho.1.head (h.targets.1.gone gone hgone hout) hother hne
  · have hsame : bookOf w.book target = old := by
      unfold bookOf
      rw [hold]
      rfl
    have hnot := hout book h.there.1
    rcases h.paths with heq | ⟨-, hasked⟩
    · rw [heq, hsame] at hnot
      exact absurd hgone hnot
    · rw [hsame] at hasked
      exact (ho.2 target old hold).head (hasked.gone gone hgone hnot) hother hne

/-! ### Holds -/

variable {pair : ν × ν}

theorem shunned_of_shun {now : ℚ} {x : ℕ × ℚ}
    (h : (b.shun target via now).shunned.get? pair = some x) :
    if pair = (target, via) then held now (b.shunned.get? pair) = some x else b.shunned.get? pair = some x := by
  have hset := Dict.get?_of_makeRoom h
  split_ifs with heq
  · subst heq
    rw [Dict.get?_set_self, Nat.add_sub_cancel] at hset
    rw [← hset]
    unfold held holdFor shunMax shunMin
    generalize ((b.shunned.get? (target, via)).map Prod.fst).getD 0 = k
    rcases Nat.le_total k 4 with hle | hge
    · rw [min_eq_left hle]
    · have hpow : (2 : ℚ) ^ 4 ≤ 2 ^ k := pow_le_pow_right₀ (by norm_num) hge
      dsimp only
      rw [min_eq_right hge, min_eq_left (by linarith), min_eq_left (by norm_num)]
  · rw [Dict.get?_set_of_ne _ (Ne.symm heq)] at hset
    exact (Dict.get?_of_pop hset).2

theorem shunned_of_others {now : ℚ} {x : ℕ × ℚ} : ∀ {gone : List ν} {b : PathBook ν},
    ¬ (pair.1 = target ∧ pair.2 ∈ gone) →
    (gone.foldl (fun b via => b.shun target via now) b).shunned.get? pair = some x → b.shunned.get? pair = some x
  | [], _, _, h => h
  | via :: gone, b, hnot, h => by
    have hcase := shunned_of_shun (@shunned_of_others now x gone (b.shun target via now)
      (fun hp => hnot ⟨hp.1, List.mem_cons_of_mem via hp.2⟩) h)
    rwa [if_neg] at hcase
    rintro rfl
    exact hnot ⟨rfl, List.mem_cons_self⟩

theorem shunned_of_shuns {now : ℚ} {x : ℕ × ℚ} : ∀ {gone : List ν} {b : PathBook ν}, gone.Nodup →
    pair.1 = target ∧ pair.2 ∈ gone → ((b.shunned.get? pair).isSome → ∀ n,
      pair ∈ ((gone.take n).foldl (fun b via => b.shun target via now) b).shunned.keys) →
    (gone.foldl (fun b via => b.shun target via now) b).shunned.get? pair = some x →
    held now (b.shunned.get? pair) = some x
  | [], _, _, hp, _, _ => by cases hp.2
  | via :: gone, b, hn, hp, hstays, h => by
    obtain ⟨hnot, hn⟩ := List.nodup_cons.mp hn
    by_cases heq : pair = (target, via)
    · have hout : ¬ (pair.1 = target ∧ pair.2 ∈ gone) := by
        rw [heq]
        exact fun hp => hnot hp.2
      have hcase := shunned_of_shun (shunned_of_others hout h)
      rwa [if_pos heq] at hcase
    · have hfirst : ∀ {y : ℕ × ℚ}, (b.shun target via now).shunned.get? pair = some y →
          b.shunned.get? pair = some y := by
        intro y hy
        have hcase := shunned_of_shun hy
        rwa [if_neg heq] at hcase
      have hmem : pair.2 ∈ gone := (List.mem_cons.mp hp.2).resolve_left fun hv => heq (Prod.ext hp.1 hv)
      -- the drop before leaves the pair as it is
      have hsame : (b.shun target via now).shunned.get? pair = b.shunned.get? pair := by
        cases hold : b.shunned.get? pair with
        | none =>
          rw [← Option.not_isSome_iff_eq_none]
          intro hsome
          obtain ⟨y, hy⟩ := Option.isSome_iff_exists.mp hsome
          rw [hfirst hy] at hold
          cases hold
        | some y =>
          obtain ⟨z, hz⟩ := Dict.mem_keys.mp (hstays (by rw [hold]; rfl) 1)
          have hz : (b.shun target via now).shunned.get? pair = some z := hz
          rw [hz, ← hold, hfirst hz]
      rw [← hsame]
      exact shunned_of_shuns hn ⟨hp.1, hmem⟩ (fun hsome n => hstays (hsame ▸ hsome) (n + 1)) h

theorem remembered_step (hw : w.book.shunned.get? pair = w.holds pair) {op : Op ν}
    (hs : Sound w.book) (hG : Remembered pair w op) : (step w op).book.shunned.get? pair = (step w op).holds pair := by
  obtain ⟨hthere, hduring⟩ := hG
  -- what is found is the hold, and a hold is found
  have hof : (∀ x, (step w op).book.shunned.get? pair = some x → (step w op).holds pair = some x) →
      (step w op).book.shunned.get? pair = (step w op).holds pair := by
    intro hall
    cases hhold : (step w op).holds pair with
    | none =>
      rw [← Option.not_isSome_iff_eq_none]
      intro hsome
      obtain ⟨x, hx⟩ := Option.isSome_iff_exists.mp hsome
      rw [hall x hx] at hhold
      cases hhold
    | some y =>
      obtain ⟨x, hx⟩ := Dict.mem_keys.mp (hthere (by rw [hhold]; rfl))
      rw [hx, ← hall x hx, hhold]
  refine hof fun x hx => ?_
  by_cases hop : ∃ target via, op = .ensure target via
  · obtain ⟨target, via, rfl⟩ := hop
    obtain ⟨book, h⟩ := ensure_spec hs target via
    exact hw ▸ h.same.2.2.2 ▸ hx
  obtain ⟨shunned, hholds, hleaves, -⟩ := leaves_step w fun target via h => hop ⟨target, via, h⟩
  rw [hleaves.shunned] at hx
  cases hholds with
  | same _ hforgive hreap =>
    have hsame : (step w op).holds = w.holds := by
      cases op with
      | forgive target via => exact absurd rfl (hforgive target via)
      | reap target dead now => exact absurd rfl (hreap target dead now)
      | _ => rfl
    rw [hsame, ← hw]
    exact hx
  | forgive target via =>
    obtain ⟨hne, hget⟩ := Dict.get?_of_pop hx
    exact (Function.update_of_ne hne _ _).trans (hw ▸ hget)
  | reap target dead now =>
    have hduring := hduring target dead now rfl
    show (if pair.1 = target ∧ pair.2 ∈ (w.book.reap target dead now).1 then held now (w.holds pair)
      else w.holds pair) = some x
    have hnodup : (w.book.reap target dead now).1.Nodup := by
      unfold PathBook.reap
      cases w.book.paths.get? target with
      | none => exact List.nodup_nil
      | some book => exact book.nodup_keys.filter _
    rw [← hw] at hduring ⊢
    split_ifs with hp
    · exact shunned_of_shuns hnodup hp hduring hx
    · exact shunned_of_others hp hx

/-! ### Over a run -/

theorem sound_run {ops : List (Op ν)} (hs : Sound w.book) (ho : Ordered w) (hG : Guarded step Newest w ops) :
    Sound (run step w ops).book ∧ Ordered (run step w ops) :=
  Guarded.run_induct (P := fun w => Sound w.book ∧ Ordered w) (fun _ _ h hG => step_spec h.1 h.2 hG) ⟨hs, ho⟩ hG

theorem remembered_run {ops : List (Op ν)} (hs : Sound w.book) (ho : Ordered w)
    (hw : w.book.shunned.get? pair = w.holds pair) (hG : Guarded step Newest w ops)
    (hP : Guarded step (Remembered pair) w ops) :
    (run step w ops).book.shunned.get? pair = (run step w ops).holds pair := by
  induction ops generalizing w with
  | nil => exact hw
  | cons op ops ih =>
    obtain ⟨hs', ho'⟩ := step_spec hs ho hG.1
    exact ih hs' ho' (remembered_step hw hs hP.1) hG.2 hP.2

/-- **In a run that asks again only for the newest path of a target**, the tables keep their bounds and no book is
empty, `ensure` returns a path that is held and drops what was asked for the longest ago, no path through a node
that was forgotten is held, and a pair that is not evicted is shunned until its hold ends. -/
theorem lasts_in_order (maxTargets maxPerTarget : ℕ) (interestTtl : ℚ) {ops : List (Op ν)}
    (hG : Guarded step Newest (start maxTargets maxPerTarget interestTtl) ops) :
    Sound (run step (start maxTargets maxPerTarget interestTtl) ops).book ∧
    (∀ target via, Ensures (run step (start maxTargets maxPerTarget interestTtl) ops) target via) ∧
    (∀ via target book, ((run step (start maxTargets maxPerTarget interestTtl) ops).book.forgetVia via).2.paths.get?
      target = some book → via ∉ book.keys) ∧
    ∀ pair k stop, Guarded step (Remembered pair) (start maxTargets maxPerTarget interestTtl) ops →
      (run step (start maxTargets maxPerTarget interestTtl) ops).holds pair = some (k, stop) → ∀ now,
      (run step (start maxTargets maxPerTarget interestTtl) ops).book.isShunned pair.1 pair.2 now =
        decide (now < stop) := by
  have hstart : Sound (start maxTargets maxPerTarget interestTtl : World ν).book :=
    ⟨Nat.zero_le _, fun _ _ h => (by cases h), Nat.zero_le _, Nat.zero_le _, Nat.lt_of_lt_of_le Nat.one_pos (le_max_left _ _),
      Nat.lt_of_lt_of_le Nat.one_pos (le_max_left _ _)⟩
  have hordered : Ordered (start maxTargets maxPerTarget interestTtl : World ν) :=
    ⟨List.Pairwise.nil, fun _ _ h => (by cases h)⟩
  obtain ⟨hs, ho⟩ := sound_run hstart hordered hG
  refine ⟨hs, ensures_of_ordered hs ho, fun via target book hget hmem => ?_, fun pair k stop hP hhold now => ?_⟩
  · have hget : ((run step (start maxTargets maxPerTarget interestTtl) ops).book.paths.mapVal
        fun _ book => book.pop via).get? target = some book := Dict.get?_of_filterVal hget
    rw [Dict.get?_mapVal] at hget
    obtain ⟨old, -, rfl⟩ := Option.map_eq_some_iff.mp hget
    exact (Dict.mem_keys_pop.mp hmem).2 rfl
  · have heq := remembered_run hstart hordered rfl hG hP
    unfold PathBook.isShunned
    rw [heq, hhold]
    rfl

/-! ### Three paths to a target -/

def asks : List (Op ℕ) := [.ensure 1 2, .ensure 1 3, .ensure 1 4, .ensure 1 2]

theorem lasts_in_order_again : Sound (run step (start 16 3 300) [.ensure 1 2, .ensure 1 2]).book := by
  refine (@lasts_in_order ℕ _ 16 3 300 [.ensure 1 2, .ensure 1 2]
    ⟨fun book hbook => (by cases hbook), fun book hbook _ => ?_, trivial⟩).1
  have hone : (step (start 16 3 300) (.ensure 1 2)).book.paths.get? 1 = some ⟨[(2, ⟨1, 2⟩)], by decide⟩ := by decide
  obtain rfl := Option.mem_unique hone hbook
  rfl

/-- **The path asked for last is the one that goes.** -/
theorem newest_dropped : ¬ Ensures (run step (start 16 3 300) asks) 1 5 := by
  rintro ⟨-, -, h⟩
  have hold : (run step (start 16 3 300) asks).book.paths.get? 1 =
      some ⟨[(2, ⟨1, 2⟩), (3, ⟨1, 3⟩), (4, ⟨1, 4⟩)], by decide⟩ := by decide
  refine absurd (h _ hold 2 (by decide) (fun book hbook => ?_) 3 (by decide) (by decide)) (by decide)
  have hnew : ((run step (start 16 3 300) asks).book.ensure 1 5).2.paths.get? 1 =
      some ⟨[(3, ⟨1, 3⟩), (4, ⟨1, 4⟩), (5, ⟨1, 5⟩)], by decide⟩ := by decide
  obtain rfl := Option.mem_unique hbook hnew
  decide

end NMesh.Routed.Book
