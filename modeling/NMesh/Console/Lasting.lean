import NMesh.Base.JsonDeep
import NMesh.Base.JsonSize
import NMesh.Base.Runs
import Mathlib.Data.List.MinMax
import Mathlib.Data.Rat.Floor

/-! # Sessions that outlive the console

A session somebody asked for by name is written down, by a digest of its token, and ends on a date. The calls of a
console and its restarts are a run, and beside it stands what was handed out: a token is good exactly where it
was issued, has neither been revoked nor pushed out since, and its deadline has not come (`lasts_until`, the first
part). What a file that says anything at all can do to it is the second part. -/

namespace NMesh.Console.Lasting

open Base.BigEndian Base.Utf8 Base.Hex Base.Ordered Base.JsonText Base.JsonRound
open Base.JsonStyle Base.JsonSize Base.JsonDeep Base.Runs

/-! ### Numbers -/

/-- A float. -/
inductive Num
  | finite (q : ℚ)
  | nan
  | inf (negative : Bool)
deriving DecidableEq

namespace Num

/-- `a < b` -/
def lt : Num → Num → Bool
  | finite a, finite b => a < b
  | finite _, inf negative => !negative
  | inf true, finite _ => true
  | inf true, inf false => true
  | _, _ => false

/-- `a <= b` -/
def le : Num → Num → Bool
  | finite a, finite b => a ≤ b
  | finite _, inf negative => !negative
  | inf true, finite _ => true
  | inf a, inf b => a || !b
  | _, _ => false

@[simp] theorem lt_finite (a b : ℚ) : (finite a).lt (finite b) = decide (a < b) := rfl

@[simp] theorem le_finite (a b : ℚ) : (finite a).le (finite b) = decide (a ≤ b) := rfl

end Num

/-- What Python brings in: how deep it reads JSON, how a float is written and read, how it rounds, the digest of a
token, and which characters print. -/
structure World where
  floatRepr : Text → Text
  depth : ℕ
  value : Text → Num
  repr : Num → Text
  ofText : Text → Option Num
  intOfText : Text → Option ℤ
  round : ℚ → ℚ
  digest : Text → Text
  printable : ℕ → Bool

def minSeconds : ℤ := 60

def maxSeconds : ℤ := 24 * 3600

def defaultSeconds : ℤ := 8 * 3600

def maxSessions : ℕ := 16

def maxLabel : ℕ := 64

def fileMax : ℕ := 64 * 1024

def floatMax : ℚ := 2 ^ 1024 - 2 ^ 970

/-! ### The sessions that are held -/

structure Entry where
  deadline : Num
  made : Num
  label : Text

section Code

variable (W : World)

/-- `int(q)` -/
def trunc (q : ℚ) : ℤ := if 0 ≤ q then ⌊q⌋ else ⌈q⌉

def within (seconds : ℤ) : ℤ := max minSeconds (min seconds maxSeconds)

/-- `clamp_seconds(value)`; an infinite number of seconds raises. -/
def clampSeconds : Json → Option ℤ
  | .int n => some (within n)
  | .bool b => some (within (if b then 1 else 0))
  | .float repr =>
    match W.value repr with
    | .finite q => some (within (trunc q))
    | .nan => some defaultSeconds
    | .inf _ => none
  | .str s =>
    match W.intOfText s with
    | some n => some (within n)
    | none => some defaultSeconds
  | _ => some defaultSeconds

def cleanLabel : Option Json → Text
  | some (.str s) => (s.filter W.printable).take maxLabel
  | _ => []

def number? : Json → Option Num
  | .int n => some (.finite n)
  | .bool b => some (.finite (if b then 1 else 0))
  | .float repr => some (W.value repr)
  | _ => none

/-- `float(value)`; `none` is an error. -/
def toFloat : Json → Option Num
  | .int n => if |(n : ℚ)| < floatMax then some (.finite (W.round n)) else none
  | .bool b => some (.finite (if b then 1 else 0))
  | .float repr => some (W.value repr)
  | .str s => W.ofText s
  | _ => none

def falsy : Json → Bool
  | .null => true
  | .bool b => !b
  | .int n => n = 0
  | .float repr => W.value repr = .finite 0
  | .str s => s = []
  | .arr items => items.isEmpty
  | .obj members => members.isEmpty

def isDigest (s : Text) : Bool := s.length = 64 ∧ s.all fun c => isDigit c || (0x61 ≤ c ∧ c ≤ 0x66)

def latest (now : ℚ) : ℚ := W.round (W.round (now + maxSeconds) + 60)

def madeOf (now : ℚ) : Option Json → Option Num
  | none => some (.finite now)
  | some v => if falsy W v then some (.finite now) else toFloat W v

/-- What comes of one row of the file. -/
inductive Row
  | skipped
  | raises
  | holds (digest : Text) (e : Entry)

/-- The digest and the deadline of a row that is let through. -/
def letThrough (now : ℚ) (row : Json) : Option (Text × Json) :=
  match row.get? (ascii "h"), row.get? (ascii "until") with
  | some (.str digest), some deadline =>
    match number? W deadline with
    | none => none
    | some u =>
      if isDigest digest ∧ u.le (.finite now) = false ∧ Num.lt (.finite (latest W now)) u = false then
        some (digest, deadline)
      else none
  | _, _ => none

def readRow (now : ℚ) (row : Json) : Row :=
  match letThrough W now row with
  | none => .skipped
  | some (digest, deadline) =>
    match toFloat W deadline, madeOf W now (row.get? (ascii "made")) with
    | some deadline, some made => .holds digest ⟨deadline, made, cleanLabel W (row.get? (ascii "label"))⟩
    | _, _ => .raises

/-- The rows one by one; `none` is an error that nobody catches. -/
def takeRows (now : ℚ) : List Json → Dict Text Entry → Option (Dict Text Entry)
  | [], held => some held
  | row :: rows, held =>
    match readRow W now row with
    | .skipped => takeRows now rows held
    | .raises => none
    | .holds digest e => takeRows now rows (held.set digest e)

def load (now : ℚ) : Option Bytes → Option (Dict Text Entry)
  | none => some .empty
  | some data =>
    if fileMax < data.length then some .empty
    else
      match decodeUtf8 data with
      | none => some .empty
      | some text =>
        if tooDeep W.floatRepr W.depth text then none
        else
          match loads W.floatRepr W.depth text with
          | some (.arr items) => takeRows W now (items.take maxSessions) .empty
          | _ => some .empty

def rowOf (e : Text × Entry) : Json :=
  .obj [(ascii "h", .str e.1), (ascii "until", .float (W.repr e.2.deadline)),
    (ascii "made", .float (W.repr e.2.made)), (ascii "label", .str e.2.label)]

/-- What `_save` writes. -/
def written (held : Dict Text Entry) : Bytes := blob standard (.arr (held.entries.map (rowOf W)))

/-- A console's sessions, and the file if it keeps one. -/
structure State where
  keeps : Bool
  held : Dict Text Entry
  file : Option Bytes

def save (s : State) : State := if s.keeps then { s with file := some (written W s.held) } else s

def alive (now : ℚ) (e : Entry) : Bool := !e.deadline.le (.finite now)

def expire (now : ℚ) (held : Dict Text Entry) : Dict Text Entry := held.filterVal (alive now)

def oldest (held : Dict Text Entry) : Option (Text × Entry) :=
  held.entries.foldl (fun best e =>
    match best with
    | none => some e
    | some b => if e.2.made.lt b.2.made then some e else some b) none

def pushOut : ℕ → Dict Text Entry → Dict Text Entry
  | 0, held => held
  | fuel + 1, held =>
    if maxSessions ≤ held.size then
      match oldest held with
      | some e => pushOut fuel (held.pop e.1)
      | none => held
    else held

/-- `issue(seconds, label)`, with the token it draws. -/
def issue (now : ℚ) (token : Text) (seconds label : Json) (s : State) : State :=
  match clampSeconds W seconds with
  | none => s
  | some n =>
    let held := pushOut (expire now s.held).size (expire now s.held)
    save W { s with
      held := held.set (W.digest token) ⟨.finite (W.round (now + n)), .finite now, cleanLabel W (some label)⟩ }

def valid (now : ℚ) (token : Option Text) (s : State) : Bool × State :=
  match token with
  | none => (false, s)
  | some token =>
    if token = [] then (false, s)
    else
      match s.held.get? (W.digest token) with
      | none => (false, s)
      | some e =>
        if e.deadline.le (.finite now) then (false, save W { s with held := s.held.pop (W.digest token) })
        else (true, s)

def revoke (token : Option Text) (s : State) : Bool × State :=
  match token with
  | none => (false, s)
  | some token =>
    if token = [] then (false, s)
    else
      match s.held.get? (W.digest token) with
      | none => (false, s)
      | some _ => (true, save W { s with held := s.held.pop (W.digest token) })

def spared : Option Text → Text
  | none => []
  | some token => if token = [] then [] else W.digest token

def revokeAllExcept (keep : Option Text) (s : State) : ℕ × State :=
  let doomed := s.held.keys.filter fun k => decide (k ≠ spared W keep)
  (doomed.length,
    if doomed = [] then s else save W { s with held := s.held.filterKeys fun k => decide (k = spared W keep) })

/-- `int(value)` of a float; `none` is an error. -/
def whole : Num → Option ℤ
  | .finite q => some (trunc q)
  | _ => none

/-- A line of the overview. -/
structure Shown where
  label : Text
  made : ℤ
  expiresAt : ℤ

def shown (e : Entry) : Option Shown :=
  match whole e.made, whole e.deadline with
  | some made, some expiresAt => some ⟨e.label, made, expiresAt⟩
  | _, _ => none

/-- `overview()`; no rows where a number is none. -/
def overview (now : ℚ) (s : State) : Option (List Shown) × State :=
  let held := expire now s.held
  (((held.values).mapM shown).map fun rows => rows.insertionSort fun a b => a.made ≤ b.made,
    if held.size = s.held.size then s else save W { s with held := held })

/-- A new process; one that does not come up holds nothing. -/
def restart (now : ℚ) (s : State) : State :=
  { s with held := if s.keeps then (load W now s.file).getD .empty else .empty }

def fresh (keeps : Bool) : State := ⟨keeps, .empty, none⟩

inductive Op
  | issue (token : Text) (seconds label : Json)
  | valid (token : Option Text)
  | revoke (token : Option Text)
  | revokeAllExcept (keep : Option Text)
  | overview
  | restart

/-- A call, and the clock it reads. -/
structure Call where
  now : ℚ
  op : Op

def step (s : State) (c : Call) : State :=
  match c.op with
  | .issue token seconds label => issue W c.now token seconds label s
  | .valid token => (valid W c.now token s).2
  | .revoke token => (revoke W token s).2
  | .revokeAllExcept keep => (revokeAllExcept W keep s).2
  | .overview => (overview W c.now s).2
  | .restart => restart W c.now s

end Code

/-! ### What was handed out -/

/-- A session that was handed out. -/
structure Session where
  issued : ℚ
  deadline : ℚ
  label : Text

def live (now : ℚ) (d : Dict Text Session) : Dict Text Session := d.filterVal fun x => decide (now < x.deadline)

/-- The token that goes for another: the oldest of too many. -/
def goes (d : Dict Text Session) : Option Text :=
  if maxSessions ≤ d.size then (d.entries.argmin fun e => e.2.issued).map Prod.fst else none

def makeWay (d : Dict Text Session) : Dict Text Session :=
  match goes d with
  | some token => d.pop token
  | none => d

section Handed

variable (W : World)

/-- **What a call does to the sessions that stand**: there is no file, no digest and no restart. -/
def stand (d : Dict Text Session) (c : Call) : Dict Text Session :=
  match c.op with
  | .issue token seconds label =>
    match clampSeconds W seconds with
    | none => d
    | some n => (makeWay (live c.now d)).set token ⟨c.now, W.round (c.now + n), cleanLabel W (some label)⟩
  | .revoke (some token) => d.pop token
  | .revokeAllExcept keep => d.filterKeys fun token => decide (some token = keep)
  | _ => d

def standing (calls : List Call) : Dict Text Session := calls.foldl (stand W) .empty

/-- A call that ends a token after others: it is revoked, alone or with all but one, issued anew or pushed out. -/
def Ends (before : List Call) (c : Call) (token : Text) : Prop :=
  c.op = .revoke (some token) ∨ (∃ keep, c.op = .revokeAllExcept keep ∧ keep ≠ some token) ∨
    ∃ other seconds label n, c.op = .issue other seconds label ∧ clampSeconds W seconds = some n ∧
      (other = token ∨ goes (live c.now (standing W before)) = some token)

/-- **Good by what was done**: issued by one of the calls, not ended by any since, and its deadline has not come. -/
def Good (calls : List Call) (now : ℚ) (token : Text) : Prop :=
  ∃ before c after seconds label n, calls = before ++ c :: after ∧ c.op = .issue token seconds label ∧
    clampSeconds W seconds = some n ∧
    (∀ mid c' rest, after = mid ++ c' :: rest → ¬ Ends W (before ++ c :: mid) c' token) ∧
    now < W.round (c.now + n)

/-- What Python promises of floats, of JSON, of digests and of printing characters. -/
structure Lawful : Prop where
  mono : Monotone W.round
  idem : ∀ q, W.round (W.round q) = W.round q
  bounded : ∀ q, |W.round q| < floatMax
  value_repr : ∀ q, W.round q = q → W.value (W.repr (.finite q)) = .finite q
  float_repr : ∀ q, W.round q = q → FloatText W.floatRepr (W.repr (.finite q))
  ascii_repr : ∀ q, W.round q = q → Ascii (dumpFloat (W.repr (.finite q)))
  length_repr : ∀ q, W.round q = q → (dumpFloat (W.repr (.finite q))).length ≤ 32
  digest : ∀ token, isDigest (W.digest token) = true
  printable : ∀ c, W.printable c = true → Scalar c
  depth : 2 ≤ W.depth

def tokensOf (c : Call) : List Text :=
  match c.op with
  | .issue token _ _ => [token]
  | .valid token => token.toList
  | .revoke token => token.toList
  | .revokeAllExcept keep => keep.toList
  | _ => []

/-- Calls as they come: the clock never goes back and reads floats, it is not at zero when a session is issued, and the
tokens are texts with something in them, of a set. -/
structure Fit (T : Set Text) (last : ℚ) (c : Call) : Prop where
  later : last ≤ c.now
  tokens : ∀ token ∈ tokensOf c, token ∈ T
  issue : ∀ token seconds label, c.op = .issue token seconds label → token ≠ [] ∧ W.round c.now = c.now ∧ c.now ≠ 0

def Fits (T : Set Text) : ℚ → List Call → ℚ → Prop
  | last, [], now => last ≤ now
  | last, c :: calls, now => Fit W T last c ∧ Fits T c.now calls now

end Handed

/-! ### Tokens and digests -/

section Digests

variable {W : World} {T : Set Text}

def kept (W : World) (e : Text × Session) : Text × Entry :=
  (W.digest e.1, ⟨.finite e.2.deadline, .finite e.2.issued, e.2.label⟩)

theorem filter_kept {p : Text × Entry → Bool} {q : Text × Session → Bool} {l : List (Text × Session)}
    (h : ∀ e ∈ l, p (kept W e) = q e) : (l.map (kept W)).filter p = (l.filter q).map (kept W) := by
  rw [List.filter_map]
  exact congrArg _ (List.filter_congr h)

theorem keys_kept (l : List (Text × Session)) :
    (l.map (kept W)).map Prod.fst = (l.map Prod.fst).map W.digest := by
  rw [List.map_map, List.map_map]
  rfl

variable (hT : Set.InjOn W.digest T)
include hT

theorem setL_kept {token : Text} (ht : token ∈ T) (x : Session) : ∀ {l : List (Text × Session)},
    (∀ e ∈ l, e.1 ∈ T) →
    setL (W.digest token) (kept W (token, x)).2 (l.map (kept W)) = (setL token x l).map (kept W)
  | [], _ => rfl
  | (other, y) :: l, h => by
    have ih := setL_kept ht x fun e he => h e (List.mem_cons_of_mem _ he)
    have hother : other ∈ T := h _ List.mem_cons_self
    show (if W.digest other = W.digest token then _ else _) = _
    rw [setL]
    by_cases hsame : other = token
    · rw [hsame, if_pos rfl, if_pos rfl]
      rfl
    · rw [if_neg fun h => hsame (hT hother ht h), if_neg hsame, ih]
      rfl

omit hT

theorem oldest_kept {held : Dict Text Entry} {d : Dict Text Session}
    (h : held.entries = d.entries.map (kept W)) :
    oldest held = (d.entries.argmin fun e => e.2.issued).map (kept W) := by
  have hfold : ∀ (l : List (Text × Session)) (best : Option (Text × Session)),
      (l.map (kept W)).foldl (fun best e =>
        match best with
        | none => some e
        | some b => if e.2.made.lt b.2.made then some e else some b) (best.map (kept W)) =
      (l.foldl (List.argAux fun b c => b.2.issued < c.2.issued) best).map (kept W) := by
    intro l
    induction l with
    | nil => exact fun _ => rfl
    | cons e l ih =>
      intro best
      rw [List.map_cons, List.foldl_cons, List.foldl_cons, ← ih]
      congr 1
      cases best with
      | none => rfl
      | some b =>
        show (if Num.lt (.finite e.2.issued) (.finite b.2.issued) then _ else _) = Option.map _ (if _ then _ else _)
        rw [Num.lt_finite]
        by_cases hlt : e.2.issued < b.2.issued
        · rw [if_pos (decide_eq_true hlt), if_pos hlt]
          rfl
        · rw [if_neg fun h => hlt (of_decide_eq_true h), if_neg hlt]
          rfl
  rw [oldest, h]
  exact hfold d.entries none

/-- **Making room**: while too many are held, or once for what was handed out. -/
theorem pushOut_kept (hT : Set.InjOn W.digest T) {held : Dict Text Entry} {d : Dict Text Session}
    (h : held.entries = d.entries.map (kept W)) (hd : ∀ e ∈ d.entries, e.1 ∈ T) (hfew : held.size ≤ maxSessions) :
    (pushOut held.size held).entries = (makeWay d).entries.map (kept W) ∧
      (pushOut held.size held).size < maxSessions := by
  have hsize : held.size = d.size := by rw [Dict.size, h, List.length_map, Dict.size]
  have hstop : ∀ (fuel : ℕ) (held : Dict Text Entry), held.size < maxSessions → pushOut fuel held = held := by
    intro fuel held hlt
    cases fuel with
    | zero => rfl
    | succ fuel => rw [pushOut, if_neg (by omega)]
  by_cases hfull : maxSessions ≤ d.size
  · have hne : d.entries ≠ [] := fun hnil => by
      rw [Dict.size, hnil] at hfull
      exact absurd hfull (by decide)
    obtain ⟨e, he⟩ : ∃ e, (d.entries.argmin fun e => e.2.issued) = some e :=
      Option.ne_none_iff_exists'.mp fun hnone => hne (List.argmin_eq_none.mp hnone)
    have hmem : e ∈ d.entries := List.argmin_mem he
    have hold : oldest held = some (kept W e) := by rw [oldest_kept h, he]; rfl
    have hkey : W.digest e.1 ∈ held.keys := by
      rw [Dict.keys, h, keys_kept]
      exact List.mem_map_of_mem (List.mem_map_of_mem hmem)
    have hpop : (held.pop (W.digest e.1)).size + 1 = held.size := Dict.size_pop hkey
    have hgoes : makeWay d = d.pop e.1 := by rw [makeWay, goes, if_pos hfull, he]; rfl
    have hsucc : held.size = (held.pop (W.digest e.1)).size + 1 := hpop.symm
    have hout : pushOut held.size held = held.pop (W.digest e.1) := by
      rw [hsucc, pushOut, if_pos (by omega), hold]
      exact hstop _ _ (by show (held.pop (W.digest e.1)).size < maxSessions; omega)
    rw [hout, hgoes]
    refine ⟨?_, by omega⟩
    show held.entries.filter (fun x => decide (x.1 ≠ W.digest e.1)) = _
    rw [h]
    refine filter_kept fun x hx => decide_eq_decide.mpr (not_congr ?_)
    exact hT.eq_iff (hd x hx) (hd e hmem)
  · have hgoes : makeWay d = d := by rw [makeWay, goes, if_neg hfull]
    rw [hstop _ _ (by omega), hgoes]
    exact ⟨h, by omega⟩

end Digests

/-! ### What is held and what stands -/

section Held

variable {W : World} {T : Set Text}

/-- An entry that a call makes, no later than now. -/
structure Sane (W : World) (now : ℚ) (e : Text × Entry) : Prop where
  digest : isDigest e.1 = true
  deadline : ∃ u, e.2.deadline = .finite u ∧ W.round u = u ∧ u ≤ W.round (now + maxSeconds)
  made : ∃ m, e.2.made = .finite m ∧ W.round m = m ∧ m ≠ 0
  label : cleanLabel W (some (.str e.2.label)) = e.2.label

/-- What is held shows what stands: those alive are those whose deadline has not come. -/
structure Shows (W : World) (d : Dict Text Session) (now : ℚ) (held : Dict Text Entry) : Prop where
  sane : ∀ e ∈ held.entries, Sane W now e
  few : held.size ≤ maxSessions
  same : held.entries.filter (fun e => alive now e.2) = (live now d).entries.map (kept W)

variable {now : ℚ}

theorem alive_finite {u : ℚ} {e : Entry} (h : e.deadline = .finite u) : alive now e = decide (now < u) := by
  rw [alive, h, Num.le_finite, ← decide_not]
  exact decide_eq_decide.mpr not_le

variable {e : Text × Entry}

theorem Sane.later (hW : Lawful W) {later : ℚ} (hle : now ≤ later) (h : Sane W now e) : Sane W later e := by
  obtain ⟨u, hu, hround, hle'⟩ := h.deadline
  exact ⟨h.digest, ⟨u, hu, hround, hle'.trans (hW.mono (by linarith))⟩, h.made, h.label⟩

theorem alive_later {later : ℚ} (hle : now ≤ later) (h : Sane W now e) :
    (alive later e.2 && alive now e.2) = alive later e.2 := by
  obtain ⟨u, hu, -, -⟩ := h.deadline
  rw [alive_finite hu, alive_finite hu, ← Bool.decide_and]
  exact decide_eq_decide.mpr ⟨And.left, fun h => ⟨h, lt_of_le_of_lt hle h⟩⟩

theorem live_live {later : ℚ} (hle : now ≤ later) (d : Dict Text Session) :
    live later (live now d) = live later d := by
  refine Dict.ext ?_
  show (d.entries.filter _).filter _ = d.entries.filter _
  rw [List.filter_filter]
  refine List.filter_congr fun e _ => ?_
  rw [← Bool.decide_and]
  exact decide_eq_decide.mpr ⟨And.left, fun h => ⟨h, lt_of_le_of_lt hle h⟩⟩

theorem alive_kept (now : ℚ) (e : Text × Session) : alive now (kept W e).2 = decide (now < e.2.deadline) :=
  alive_finite rfl

variable {d : Dict Text Session} {held : Dict Text Entry}

theorem live_of_entries (now : ℚ) (h : held.entries = d.entries.map (kept W)) :
    held.entries.filter (fun e => alive now e.2) = (live now d).entries.map (kept W) := by
  rw [h]
  exact filter_kept fun e _ => alive_kept now e

namespace Shows

variable {d : Dict Text Session} {now : ℚ} {held : Dict Text Entry}

theorem later (hW : Lawful W) {after : ℚ} (hle : now ≤ after) (h : Shows W d now held) : Shows W d after held := by
  refine ⟨fun e he => (h.sane e he).later hW hle, h.few, ?_⟩
  have hfilter : held.entries.filter (fun e => alive after e.2) =
      (held.entries.filter fun e => alive now e.2).filter fun e => alive after e.2 := by
    rw [List.filter_filter]
    exact List.filter_congr fun e he => (alive_later hle (h.sane e he)).symm
  rw [hfilter, h.same, ← live_live hle d]
  exact filter_kept fun e _ => alive_kept after e

theorem congr {d' : Dict Text Session} (h : Shows W d now held) (hlive : live now d' = live now d) :
    Shows W d' now held := ⟨h.sane, h.few, by rw [hlive]; exact h.same⟩

theorem expired (h : Shows W d now held) : Shows W d now (expire now held) := by
  refine ⟨fun e he => h.sane e (List.mem_of_mem_filter he), (Dict.size_filterVal_le held _).trans h.few, ?_⟩
  show (held.entries.filter _).filter _ = _
  rw [List.filter_filter, ← h.same]
  exact List.filter_congr fun e _ => Bool.and_self _

theorem pop_dead (h : Shows W d now held) {k : Text} (hdead : ∀ e, held.get? k = some e → alive now e = false) :
    Shows W d now (held.pop k) := by
  refine ⟨fun e he => h.sane e (List.mem_of_mem_filter he), (Dict.size_pop_le held k).trans h.few, ?_⟩
  show (held.entries.filter fun e => decide (e.1 ≠ k)).filter _ = _
  rw [List.filter_filter, ← h.same]
  refine List.filter_congr fun e he => ?_
  by_cases hk : e.1 = k
  · have hget : held.get? k = some e.2 := by
      rw [Dict.get?_eq_some, ← hk]
      exact he
    rw [hdead e.2 hget, Bool.false_and]
  · rw [decide_eq_true hk, Bool.and_true]

theorem filter (h : Shows W d now held) {p : Text → Bool} {q : Text → Bool}
    (hpq : ∀ token ∈ d.keys, p (W.digest token) = q token) :
    Shows W (d.filterKeys q) now (held.filterKeys p) := by
  refine ⟨fun e he => h.sane e (List.mem_of_mem_filter he), (List.length_filter_le _ _).trans h.few, ?_⟩
  have hcode : (held.filterKeys p).entries.filter (fun e => alive now e.2) =
      (held.entries.filter fun e => alive now e.2).filter fun e => p e.1 := by
    show (held.entries.filter _).filter _ = _
    rw [List.filter_filter, List.filter_filter]
    exact List.filter_congr fun e _ => Bool.and_comm _ _
  have hstand : (live now (d.filterKeys q)).entries = (live now d).entries.filter fun e => q e.1 := by
    show (d.entries.filter _).filter _ = (d.entries.filter _).filter _
    rw [List.filter_filter, List.filter_filter]
    exact List.filter_congr fun e _ => Bool.and_comm _ _
  rw [hcode, hstand, h.same]
  exact filter_kept fun e he => hpq e.1 (List.mem_map_of_mem (List.mem_of_mem_filter he))

theorem get?_live (hT : Set.InjOn W.digest T) (htokens : ∀ t ∈ d.keys, t ∈ T) (h : Shows W d now held)
    {token : Text} (ht : token ∈ T) :
    (∃ e, held.get? (W.digest token) = some e ∧ alive now e = true) ↔
      ∃ x, d.get? token = some x ∧ now < x.deadline := by
  have hcode : (∃ e, held.get? (W.digest token) = some e ∧ alive now e = true) ↔
      W.digest token ∈ ((held.entries.filter fun e => alive now e.2).map Prod.fst) := by
    constructor
    · rintro ⟨e, hget, hlive⟩
      exact List.mem_map_of_mem (f := Prod.fst) (List.mem_filter.mpr ⟨Dict.get?_eq_some.mp hget, hlive⟩)
    · intro hmem
      obtain ⟨⟨k, e⟩, he, rfl⟩ := List.mem_map.mp hmem
      exact ⟨e, Dict.get?_eq_some.mpr (List.mem_filter.mp he).1, (List.mem_filter.mp he).2⟩
  rw [hcode, h.same, keys_kept]
  constructor
  · intro hmem
    obtain ⟨other, hother, heq⟩ := List.mem_map.mp hmem
    obtain ⟨⟨t, x⟩, hx, rfl⟩ := List.mem_map.mp hother
    obtain ⟨hx, hlive⟩ := List.mem_filter.mp hx
    obtain rfl := hT (htokens _ (List.mem_map_of_mem hx)) ht heq
    exact ⟨x, Dict.get?_eq_some.mpr hx, of_decide_eq_true hlive⟩
  · rintro ⟨x, hget, hlive⟩
    refine List.mem_map_of_mem (List.mem_map_of_mem (f := Prod.fst) ?_ : (token, x).1 ∈ _)
    exact List.mem_filter.mpr ⟨Dict.get?_eq_some.mp hget, decide_eq_true hlive⟩

end Shows

/-! ### The file -/

theorem isDigest_chars {s : Text} (h : isDigest s = true) : s.length = 64 ∧ ∀ c ∈ s, c < 0x80 := by
  obtain ⟨hlen, hall⟩ := of_decide_eq_true h
  refine ⟨hlen, fun c hc => ?_⟩
  have hc := List.all_eq_true.mp hall c hc
  rcases Bool.or_eq_true_iff.mp hc with hdigit | hletter
  · have := of_decide_eq_true hdigit
    omega
  · have := of_decide_eq_true hletter
    omega

theorem cleanLabel_chars (hW : Lawful W) {label : Text} (h : cleanLabel W (some (.str label)) = label) :
    label.length ≤ 64 ∧ ∀ c ∈ label, Scalar c := by
  rw [← h]
  refine ⟨List.length_take_le _ _, fun c hc => hW.printable c ?_⟩
  exact (List.mem_filter.mp (List.mem_of_mem_take hc)).2

theorem row_written (hW : Lawful W) (h : Sane W now e) :
    Plain W.floatRepr (rowOf W e) ∧ height (rowOf W e) ≤ 1 ∧ settle (rowOf W e) = rowOf W e ∧
      Ascii (write standard (rowOf W e)) ∧ (write standard (rowOf W e)).length ≤ 2000 := by
  obtain ⟨hlen, hdigest⟩ := isDigest_chars h.digest
  obtain ⟨hlabel, hscalar⟩ := cleanLabel_chars hW h.label
  obtain ⟨u, hu, hround, -⟩ := h.deadline
  obtain ⟨m, hm, hmround, -⟩ := h.made
  have hkeys : ∀ k ∈ [ascii "h", ascii "until", ascii "made", ascii "label"], (∀ c ∈ k, Scalar c) ∧ k.length ≤ 5 := by
    decide
  have hdscalar : ∀ c ∈ e.1, Scalar c := fun c hc => Or.inl (by have := hdigest c hc; omega)
  have hfields : ∀ x ∈ [(ascii "h", Json.str e.1), (ascii "until", .float (W.repr e.2.deadline)),
      (ascii "made", .float (W.repr e.2.made)), (ascii "label", .str e.2.label)],
      (Points x.1 ∧ Plain W.floatRepr x.2) ∧ Points x.1 ∧ Ascii (write standard x.2) := by
    intro x hx
    have hkey : Points x.1 := points_of_scalars (hkeys _ (by
      simpa using List.mem_map_of_mem (f := Prod.fst) hx)).1
    refine ⟨⟨hkey, ?_⟩, hkey, ?_⟩ <;> simp only [List.mem_cons, List.not_mem_nil, or_false] at hx <;>
      rcases hx with rfl | rfl | rfl | rfl
    · exact points_of_scalars hdscalar
    · exact hu ▸ hW.float_repr u hround
    · exact hm ▸ hW.float_repr m hmround
    · exact points_of_scalars hscalar
    · exact ascii_writeString rfl (points_of_scalars hdscalar)
    · exact hu ▸ hW.ascii_repr u hround
    · exact hm ▸ hW.ascii_repr m hmround
    · exact ascii_writeString rfl (points_of_scalars hscalar)
  refine ⟨plainMembers_iff.mpr fun x hx => (hfields x hx).1, Nat.le_refl _, ?_,
    ascii_write_obj rfl fun x hx => (hfields x hx).2, ?_⟩
  · have hmembers : ∀ x ∈ [(ascii "h", Json.str e.1), (ascii "until", .float (W.repr e.2.deadline)),
        (ascii "made", .float (W.repr e.2.made)), (ascii "label", .str e.2.label)], ∀ c ∈ x.1, Scalar c := by
      intro x hx
      refine (hkeys x.1 ?_).1
      simpa using List.mem_map_of_mem (f := Prod.fst) hx
    rw [rowOf, settle_obj hmembers (show [ascii "h", ascii "until", ascii "made", ascii "label"].Nodup by decide)]
    simp only [List.map_cons, List.map_nil, settle, merge_scalars hdscalar, merge_scalars hscalar]
  · have hstring := length_writeString_le (S := standard) rfl
    have hdig := hstring e.1
    have hlab := hstring e.2.label
    have hk1 := hstring (ascii "h")
    have hk2 := hstring (ascii "until")
    have hk3 := hstring (ascii "made")
    have hk4 := hstring (ascii "label")
    have hl1 := (hkeys (ascii "h") (by simp)).2
    have hl2 := (hkeys (ascii "until") (by simp)).2
    have hl3 := (hkeys (ascii "made") (by simp)).2
    have hl4 := (hkeys (ascii "label") (by simp)).2
    have hfu := hW.length_repr u hround
    have hfm := hW.length_repr m hmround
    rw [rowOf, hu, hm]
    simp only [write, writeMembers, List.length_cons, List.length_append, blanks, List.length_replicate,
      List.length_nil, standard]
    simp only [standard] at hdig hlab hk1 hk2 hk3 hk4
    omega

theorem readRow_written (hW : Lawful W) (h : Sane W now e) :
    readRow W now (rowOf W e) = if alive now e.2 then .holds e.1 e.2 else .skipped := by
  obtain ⟨u, hu, hround, hle⟩ := h.deadline
  obtain ⟨m, hm, hmround, hne⟩ := h.made
  have hvalue : W.value (W.repr e.2.deadline) = .finite u := by rw [hu]; exact hW.value_repr u hround
  have hmade : W.value (W.repr e.2.made) = .finite m := by rw [hm]; exact hW.value_repr m hmround
  have hnear : u ≤ latest W now := by
    have hidem := hW.idem (now + maxSeconds)
    have hmono := hW.mono (by linarith : W.round (now + maxSeconds) ≤ W.round (now + maxSeconds) + 60)
    rw [hidem] at hmono
    exact hle.trans hmono
  have hlet : letThrough W now (rowOf W e) =
      if alive now e.2 then some (e.1, .float (W.repr e.2.deadline)) else none := by
    show (if isDigest e.1 ∧ (W.value (W.repr e.2.deadline)).le (.finite now) = false ∧
      Num.lt (.finite (latest W now)) (W.value (W.repr e.2.deadline)) = false then _ else _) = _
    rw [alive_finite hu, hvalue, Num.le_finite, Num.lt_finite]
    have hcheck : (isDigest e.1 = true ∧ decide (u ≤ now) = false ∧ decide (latest W now < u) = false) ↔
        decide (now < u) = true := by
      rw [decide_eq_false_iff_not, decide_eq_false_iff_not, not_le, not_lt, decide_eq_true_iff]
      exact ⟨fun h => h.2.1, fun hlive => ⟨h.digest, hlive, hnear⟩⟩
    exact if_congr hcheck rfl rfl
  have hmadeOf : madeOf W now ((rowOf W e).get? (ascii "made")) = some e.2.made := by
    show (if falsy W (.float (W.repr e.2.made)) then _ else toFloat W (.float (W.repr e.2.made))) = _
    have hfalsy : falsy W (.float (W.repr e.2.made)) = false := by
      show decide (W.value (W.repr e.2.made) = .finite 0) = false
      rw [hmade]
      exact decide_eq_false fun h => hne (Num.finite.inj h)
    rw [hfalsy, if_neg (by decide), hm]
    show some (W.value (W.repr (.finite m))) = _
    rw [hW.value_repr m hmround]
  have hlabel : cleanLabel W ((rowOf W e).get? (ascii "label")) = e.2.label := h.label
  rw [readRow, hlet]
  by_cases hlive : alive now e.2 = true
  · rw [if_pos hlive, if_pos hlive]
    show (match some (W.value (W.repr e.2.deadline)), madeOf W now ((rowOf W e).get? (ascii "made")) with
      | some deadline, some made => Row.holds e.1 ⟨deadline, made, cleanLabel W ((rowOf W e).get? (ascii "label"))⟩
      | _, _ => .raises) = _
    rw [hmadeOf, hlabel, hvalue, ← hu]
  · rw [if_neg hlive, if_neg hlive]

theorem takeRows_written (hW : Lawful W) : ∀ {l : List (Text × Entry)} {before : Dict Text Entry},
    (∀ e ∈ l, Sane W now e) → ((before.entries ++ l).map Prod.fst).Nodup →
    ∃ d, takeRows W now (l.map (rowOf W)) before = some d ∧
      d.entries = before.entries ++ l.filter fun e => alive now e.2
  | [], before, _, _ => ⟨before, rfl, (List.append_nil _).symm⟩
  | e :: l, before, hsane, hnodup => by
    have hrest : ∀ x ∈ l, Sane W now x := fun x hx => hsane x (List.mem_cons_of_mem e hx)
    have hapart : (before.entries.map Prod.fst ++ e.1 :: l.map Prod.fst).Nodup := by simpa using hnodup
    rw [List.map_cons, takeRows, readRow_written hW (hsane e List.mem_cons_self)]
    by_cases hlive : alive now e.2 = true
    · rw [if_pos hlive, List.filter_cons, if_pos hlive]
      have hnew : e.1 ∉ before.keys := fun hmem =>
        (List.nodup_append.mp hapart).2.2 e.1 hmem e.1 List.mem_cons_self rfl
      have hentries : (before.set e.1 e.2).entries = before.entries ++ [e] := Dict.entries_set_of_notMem hnew e.2
      obtain ⟨d, hd, heq⟩ : ∃ d, takeRows W now (l.map (rowOf W)) (before.set e.1 e.2) = some d ∧
          d.entries = (before.set e.1 e.2).entries ++ l.filter fun e => alive now e.2 :=
        takeRows_written hW hrest (by rw [hentries]; simpa using hnodup)
      refine ⟨d, hd, ?_⟩
      rw [heq, hentries, List.append_assoc, List.singleton_append]
    · rw [if_neg hlive, List.filter_cons, if_neg hlive]
      refine takeRows_written hW hrest ?_
      rw [List.map_append]
      exact (List.nodup_append.mpr ⟨(List.nodup_append.mp hapart).1,
        (List.nodup_cons.mp (List.nodup_append.mp hapart).2.1).2,
        fun a ha b hb => (List.nodup_append.mp hapart).2.2 a ha b (List.mem_cons_of_mem _ hb)⟩)

theorem load_written (hW : Lawful W) (hsane : ∀ e ∈ held.entries, Sane W now e)
    (hfew : held.size ≤ maxSessions) : load W now (some (written W held)) = some (expire now held) := by
  have hrow : ∀ v ∈ held.entries.map (rowOf W), Plain W.floatRepr v ∧ height v ≤ 1 ∧ settle v = v ∧
      Ascii (write standard v) ∧ (write standard v).length ≤ 2000 := by
    intro v hv
    obtain ⟨e, he, rfl⟩ := List.mem_map.mp hv
    exact row_written hW (hsane e he)
  have hascii : Ascii (write standard (.arr (held.entries.map (rowOf W)))) :=
    ascii_write_arr fun v hv => (hrow v hv).2.2.2.1
  have hshort : (written W held).length ≤ fileMax := by
    have hlen := length_write_arr_le (S := standard) fun v hv => (hrow v hv).2.2.2.2
    have hcount : (held.entries.map (rowOf W)).length ≤ 16 := by
      rw [List.length_map]
      exact hfew
    rw [written, length_blob hascii]
    have hmul : (held.entries.map (rowOf W)).length * (2000 + 1 + standard.itemBlanks) ≤ 16 * 2002 :=
      Nat.mul_le_mul_right 2002 hcount
    show _ ≤ 64 * 1024
    omega
  have hheight : height (.arr (held.entries.map (rowOf W))) ≤ W.depth :=
    (Nat.succ_le_succ (heightItems_le.mpr fun v hv => (hrow v hv).2.1)).trans hW.depth
  have hplain : Plain W.floatRepr (.arr (held.entries.map (rowOf W))) := plainItems_iff.mpr fun v hv => (hrow v hv).1
  have hread : loads W.floatRepr W.depth (write standard (.arr (held.entries.map (rowOf W)))) =
      some (.arr (held.entries.map (rowOf W))) := by
    rw [loads_write rfl hplain hheight, settle, settleItems_eq]
    refine congrArg some (congrArg Json.arr ?_)
    conv_rhs => rw [← List.map_id (held.entries.map (rowOf W))]
    exact List.map_congr_left fun v hv => (hrow v hv).2.2.1
  have hdecode : decodeUtf8 (written W held) = some (write standard (.arr (held.entries.map (rowOf W)))) :=
    decode_encode (encode_blob hascii)
  obtain ⟨d, hd, hentries⟩ : ∃ d, takeRows W now (held.entries.map (rowOf W)) .empty = some d ∧
      d.entries = (Dict.empty : Dict Text Entry).entries ++ held.entries.filter fun e => alive now e.2 :=
    takeRows_written hW hsane held.nodup
  unfold load
  dsimp only
  rw [if_neg (not_lt.mpr hshort), hdecode]
  dsimp only
  rw [not_tooDeep hread, if_neg (by decide), hread]
  dsimp only
  rw [List.take_of_length_le (by rw [List.length_map]; exact hfew), hd]
  exact congrArg some (Dict.ext hentries)

/-! ### A run -/

/-- The sessions that are held, and those in the file, show what stands. -/
structure Inv (W : World) (T : Set Text) (d : Dict Text Session) (now : ℚ) (s : State) : Prop where
  tokens : ∀ token ∈ d.keys, token ∈ T ∧ token ≠ []
  held : Shows W d now s.held
  file : s.keeps = true → s.file = none ∧ s.held = .empty ∨ ∃ D, s.file = some (written W D) ∧ Shows W d now D

variable {d : Dict Text Session} {now : ℚ} {s : State}

theorem inv_fresh (keeps : Bool) (now : ℚ) : Inv W T .empty now (fresh keeps) where
  tokens _ h := by cases h
  held := ⟨fun _ h => (by cases h), Nat.zero_le _, rfl⟩
  file _ := Or.inl ⟨rfl, rfl⟩

theorem inv_later (hW : Lawful W) {after : ℚ} (hle : now ≤ after) (h : Inv W T d now s) : Inv W T d after s where
  tokens := h.tokens
  held := h.held.later hW hle
  file hkeeps := (h.file hkeeps).imp_right fun ⟨D, hfile, hD⟩ => ⟨D, hfile, hD.later hW hle⟩

theorem inv_save {d' : Dict Text Session} (hshows : Shows W d' now held)
    (htokens : ∀ token ∈ d'.keys, token ∈ T ∧ token ≠ []) : Inv W T d' now (save W { s with held := held }) := by
  unfold save
  split_ifs with hkeeps
  · exact ⟨htokens, hshows, fun _ => Or.inr ⟨held, rfl, hshows⟩⟩
  · exact ⟨htokens, hshows, fun h => absurd h hkeeps⟩

theorem inv_congr {d' : Dict Text Session} (h : Inv W T d now s) (hlive : live now d' = live now d)
    (htokens : ∀ token ∈ d'.keys, token ∈ T ∧ token ≠ []) : Inv W T d' now s where
  tokens := htokens
  held := h.held.congr hlive
  file hkeeps := (h.file hkeeps).imp_right fun ⟨D, hfile, hD⟩ => ⟨D, hfile, hD.congr hlive⟩

theorem cleanLabel_idem (label : Json) :
    cleanLabel W (some (.str (cleanLabel W (some label)))) = cleanLabel W (some label) := by
  cases label with
  | str s =>
    show (((s.filter W.printable).take maxLabel).filter W.printable).take maxLabel = (s.filter W.printable).take maxLabel
    rw [List.filter_eq_self.mpr fun c hc => (List.mem_filter.mp (List.mem_of_mem_take hc)).2, List.take_take, min_self]
  | null | bool | int | float | arr | obj => rfl

variable {seconds : Json}

theorem clampSeconds_le {n : ℤ} (h : clampSeconds W seconds = some n) : n ≤ maxSeconds := by
  have hwithin : ∀ k, within k ≤ maxSeconds := fun k => max_le (by decide) (min_le_right _ _)
  have hdefault : defaultSeconds ≤ maxSeconds := by decide
  unfold clampSeconds at h
  split at h
  · exact Option.some.inj h ▸ hwithin _
  · exact Option.some.inj h ▸ hwithin _
  · split at h
    · exact Option.some.inj h ▸ hwithin _
    · exact Option.some.inj h ▸ hdefault
    · cases h
  · split at h
    · exact Option.some.inj h ▸ hwithin _
    · exact Option.some.inj h ▸ hdefault
  · exact Option.some.inj h ▸ hdefault

theorem sane_new (hW : Lawful W) {n : ℤ} (hclamp : clampSeconds W seconds = some n)
    (hround : W.round now = now) (hzero : now ≠ 0) (token : Text) (label : Json) :
    Sane W now (W.digest token, ⟨.finite (W.round (now + n)), .finite now, cleanLabel W (some label)⟩) where
  digest := hW.digest token
  deadline := by
    have hn : (n : ℚ) ≤ maxSeconds := by exact_mod_cast clampSeconds_le hclamp
    exact ⟨_, rfl, hW.idem _, hW.mono (by linarith)⟩
  made := ⟨now, rfl, hround, hzero⟩
  label := cleanLabel_idem label

variable {token : Text}

theorem mem_makeWay (h : token ∈ (makeWay d).keys) : token ∈ d.keys := by
  unfold makeWay at h
  split at h
  · exact (Dict.mem_keys_pop.mp h).1
  · exact h

theorem mem_live (h : token ∈ (live now d).keys) : token ∈ d.keys := by
  obtain ⟨e, he, rfl⟩ := List.mem_map.mp h
  exact List.mem_map_of_mem (List.mem_of_mem_filter he)

theorem inv_issue (hW : Lawful W) (hT : Set.InjOn W.digest T) (h : Inv W T d now s)
    {label : Json} (htoken : token ∈ T) (hne : token ≠ []) (hround : W.round now = now) (hzero : now ≠ 0) :
    Inv W T (stand W d ⟨now, .issue token seconds label⟩) now (issue W now token seconds label s) := by
  unfold issue stand
  dsimp only
  cases hclamp : clampSeconds W seconds with
  | none => exact h
  | some n =>
    have hexpired : (expire now s.held).entries = (live now d).entries.map (kept W) := h.held.same
    have hlive : ∀ e ∈ (live now d).entries, e.1 ∈ T := fun e he =>
      (h.tokens _ (mem_live (List.mem_map_of_mem he))).1
    have hfew := h.held.expired.few
    obtain ⟨hout, hroom⟩ := pushOut_kept hT hexpired hlive hfew
    have hway : ∀ e ∈ (makeWay (live now d)).entries, e.1 ∈ T := fun e he =>
      (h.tokens _ (mem_live (mem_makeWay (List.mem_map_of_mem he)))).1
    have hset := setL_kept hT htoken ⟨now, W.round (now + n), cleanLabel W (some label)⟩ hway
    have hentries : ((pushOut (expire now s.held).size (expire now s.held)).set (W.digest token)
        ⟨.finite (W.round (now + n)), .finite now, cleanLabel W (some label)⟩).entries =
        ((makeWay (live now d)).set token ⟨now, W.round (now + n), cleanLabel W (some label)⟩).entries.map (kept W) := by
      rw [← hout] at hset
      exact hset
    refine inv_save ⟨?_, ?_, live_of_entries now hentries⟩ fun t ht => ?_
    · rintro ⟨k, e⟩ he
      have hget := Dict.get?_eq_some.mpr he
      rw [Dict.get?_set] at hget
      split_ifs at hget with hkey
      · rw [← hkey, ← Option.some.inj hget]
        exact sane_new hW hclamp hround hzero token label
      · have hmem := Dict.get?_eq_some.mp hget
        rw [hout] at hmem
        obtain ⟨x, hx, hxe⟩ := List.mem_map.mp hmem
        have hx' : x ∈ (live now d).entries := by
          unfold makeWay at hx
          split at hx
          · exact List.mem_of_mem_filter hx
          · exact hx
        have hheld : kept W x ∈ (expire now s.held).entries := hexpired ▸ List.mem_map_of_mem hx'
        rw [hxe] at hheld
        exact h.held.expired.sane _ hheld
    · exact Dict.size_set_le hroom.le fun _ => hroom
    · rcases Dict.mem_keys_set.mp ht with ht | ht
      · exact ht ▸ ⟨htoken, hne⟩
      · exact h.tokens _ (mem_live (mem_makeWay ht))

theorem live_pop (hT : Set.InjOn W.digest T) (h : Inv W T d now s) (ht : token ∈ T)
    (hnone : s.held.get? (W.digest token) = none) : live now (d.pop token) = live now d := by
  refine Dict.ext ?_
  show (d.entries.filter _).filter _ = d.entries.filter _
  rw [List.filter_filter]
  refine List.filter_congr fun e he => ?_
  show (decide (now < e.2.deadline) && decide (e.1 ≠ token)) = decide (now < e.2.deadline)
  by_cases hlive : now < e.2.deadline
  · have hne : e.1 ≠ token := by
      rintro rfl
      obtain ⟨x, hx, -⟩ := (h.held.get?_live hT (fun t ht => (h.tokens t ht).1) ht).mpr
        ⟨e.2, Dict.get?_eq_some.mpr he, hlive⟩
      rw [hnone] at hx
      cases hx
    rw [decide_eq_true hne, Bool.and_true]
  · rw [decide_eq_false hlive, Bool.false_and]

theorem inv_valid (h : Inv W T d now s) (token : Option Text) : Inv W T d now (valid W now token s).2 := by
  unfold valid
  cases token with
  | none => exact h
  | some token =>
    dsimp only
    split_ifs with hempty
    · exact h
    · cases hget : s.held.get? (W.digest token) with
      | none => exact h
      | some e =>
        dsimp only
        split_ifs with hover
        · refine inv_save (h.held.pop_dead fun e' he' => ?_) h.tokens
          obtain rfl := Option.mem_unique hget he'
          rw [alive, hover]
          rfl
        · exact h

theorem inv_revoke (hT : Set.InjOn W.digest T) (h : Inv W T d now s) (ht : token ∈ T) :
    Inv W T (d.pop token) now (revoke W (some token) s).2 := by
  have htokens : ∀ t ∈ (d.pop token).keys, t ∈ T ∧ t ≠ [] := fun t ht => h.tokens t (Dict.mem_keys_pop.mp ht).1
  unfold revoke
  dsimp only
  split_ifs with hempty
  · have hsame : d.pop token = d := Dict.pop_of_notMem fun hmem => (h.tokens token hmem).2 hempty
    rw [hsame]
    exact h
  · cases hget : s.held.get? (W.digest token) with
    | none => exact inv_congr h (live_pop hT h ht hget) htokens
    | some e =>
      refine inv_save (h.held.filter fun t htd => ?_) htokens
      exact decide_eq_decide.mpr (not_congr (hT.eq_iff (h.tokens t htd).1 ht))

theorem inv_revokeAllExcept (hW : Lawful W) (hT : Set.InjOn W.digest T) (h : Inv W T d now s) {keep : Option Text}
    (hkeep : ∀ token ∈ keep.toList, token ∈ T) :
    Inv W T (d.filterKeys fun token => decide (some token = keep)) now (revokeAllExcept W keep s).2 := by
  have hspared : ∀ token ∈ d.keys, decide (W.digest token = spared W keep) = decide (some token = keep) := by
    intro token htoken
    obtain ⟨ht, hne⟩ := h.tokens token htoken
    have hdigest : W.digest token ≠ [] := fun hnil => by
      have hlen := (isDigest_chars (hW.digest token)).1
      rw [hnil] at hlen
      cases hlen
    refine decide_eq_decide.mpr ?_
    cases keep with
    | none => exact ⟨fun heq => absurd heq hdigest, fun heq => by cases heq⟩
    | some other =>
      rw [spared, Option.some.injEq]
      split_ifs with hempty
      · exact ⟨fun heq => absurd heq hdigest, fun heq => absurd (heq.trans hempty) hne⟩
      · exact hT.eq_iff ht (hkeep other (by simp))
  have hshows := h.held.filter (p := fun k => decide (k = spared W keep))
    (q := fun token => decide (some token = keep)) hspared
  have htokens : ∀ t ∈ (d.filterKeys fun token => decide (some token = keep)).keys, t ∈ T ∧ t ≠ [] := by
    intro t ht
    rw [Dict.keys_filterKeys] at ht
    exact h.tokens t (List.mem_of_mem_filter ht)
  unfold revokeAllExcept
  dsimp only
  split_ifs with hnone
  · refine inv_congr h ?_ htokens
    have hall : s.held.filterKeys (fun k => decide (k = spared W keep)) = s.held := by
      refine Dict.ext (List.filter_eq_self.mpr fun e he => ?_)
      by_contra hno
      have hmem : e.1 ∈ s.held.keys.filter fun k => decide (k ≠ spared W keep) :=
        List.mem_filter.mpr ⟨List.mem_map_of_mem he, by simpa using hno⟩
      rw [hnone] at hmem
      cases hmem
    have hsame := hshows.same
    rw [hall, h.held.same] at hsame
    have hsub : (live now (d.filterKeys fun token => decide (some token = keep))).entries.Sublist
        (live now d).entries := List.Sublist.filter _ List.filter_sublist
    have hlength := congrArg List.length hsame
    rw [List.length_map, List.length_map] at hlength
    exact Dict.ext (hsub.eq_of_length hlength.symm)
  · exact inv_save hshows htokens

theorem inv_overview (h : Inv W T d now s) : Inv W T d now (overview W now s).2 := by
  unfold overview
  dsimp only
  split_ifs
  · exact h
  · exact inv_save h.held.expired h.tokens

theorem inv_restart (hW : Lawful W) (h : Inv W T d now s) (hkeeps : s.keeps = true) :
    (load W now s.file).isSome = true ∧ Inv W T d now (restart W now s) := by
  have hfile := h.file hkeeps
  unfold restart
  rw [if_pos hkeeps]
  rcases hfile with ⟨hnone, hempty⟩ | ⟨D, hD, hshows⟩
  · rw [hnone]
    refine ⟨rfl, h.tokens, ?_, fun _ => Or.inl ⟨rfl, rfl⟩⟩
    have hheld := h.held
    rw [hempty] at hheld
    exact hheld
  · rw [hD, load_written hW hshows.sane hshows.few]
    exact ⟨rfl, h.tokens, hshows.expired, fun _ => Or.inr ⟨D, rfl, hshows⟩⟩

/-- **One call.** -/
theorem inv_step (hW : Lawful W) (hT : Set.InjOn W.digest T) {c : Call} (h : Inv W T d now s) (hfit : Fit W T now c)
    (hrestart : c.op = .restart → s.keeps = true) : Inv W T (stand W d c) c.now (step W s c) := by
  obtain ⟨at', op⟩ := c
  have hlater := inv_later hW hfit.later h
  cases op with
  | issue token seconds label =>
    obtain ⟨hne, hround, hzero⟩ := hfit.issue token seconds label rfl
    exact inv_issue hW hT hlater (hfit.tokens token (by simp [tokensOf])) hne hround hzero
  | valid token => exact inv_valid hlater token
  | revoke token =>
    cases token with
    | none => exact hlater
    | some token => exact inv_revoke hT hlater (hfit.tokens token (by simp [tokensOf]))
  | revokeAllExcept keep => exact inv_revokeAllExcept hW hT hlater hfit.tokens
  | overview => exact inv_overview hlater
  | restart => exact (inv_restart hW hlater (hrestart rfl)).2

theorem keeps_step (s : State) (c : Call) : (step W s c).keeps = s.keeps := by
  have hsave : ∀ s : State, (save W s).keeps = s.keeps := by
    intro s
    unfold save
    split_ifs <;> rfl
  obtain ⟨at', op⟩ := c
  cases op with
  | issue token seconds label =>
    show (issue W at' token seconds label s).keeps = s.keeps
    unfold issue
    split
    · rfl
    · exact hsave _
  | valid token =>
    show (valid W at' token s).2.keeps = s.keeps
    unfold valid
    split
    · rfl
    · split_ifs
      · rfl
      · split
        · rfl
        · split_ifs
          · exact hsave _
          · rfl
  | revoke token =>
    show (revoke W token s).2.keeps = s.keeps
    unfold revoke
    split
    · rfl
    · split_ifs
      · rfl
      · split
        · rfl
        · exact hsave _
  | revokeAllExcept keep | overview =>
    show (if _ then s else save W _).keeps = s.keeps
    split_ifs
    · rfl
    · exact hsave _
  | restart => rfl

/-! ### What was done -/

/-- Issued with a deadline by one of the calls, and not ended by any since. -/
def Issued (W : World) (calls : List Call) (token : Text) (u : ℚ) : Prop :=
  ∃ before c after seconds label n, calls = before ++ c :: after ∧ c.op = .issue token seconds label ∧
    clampSeconds W seconds = some n ∧
    (∀ mid c' rest, after = mid ++ c' :: rest → ¬ Ends W (before ++ c :: mid) c' token) ∧ u = W.round (c.now + n)

def Issues (W : World) (c : Call) (token : Text) (u : ℚ) : Prop :=
  ∃ seconds label n, c.op = .issue token seconds label ∧ clampSeconds W seconds = some n ∧ u = W.round (c.now + n)

variable {calls : List Call}

theorem good_iff : Good W calls now token ↔ ∃ u, Issued W calls token u ∧ now < u := by
  constructor
  · rintro ⟨before, c, after, seconds, label, n, hcalls, hop, hclamp, hends, hlive⟩
    exact ⟨_, ⟨before, c, after, seconds, label, n, hcalls, hop, hclamp, hends, rfl⟩, hlive⟩
  · rintro ⟨u, ⟨before, c, after, seconds, label, n, hcalls, hop, hclamp, hends, rfl⟩, hlive⟩
    exact ⟨before, c, after, seconds, label, n, hcalls, hop, hclamp, hends, hlive⟩

theorem issued_concat {c : Call} {u : ℚ} :
    Issued W (calls ++ [c]) token u ↔ Issues W c token u ∨ Issued W calls token u ∧ ¬ Ends W calls c token := by
  constructor
  · rintro ⟨before, c', after, seconds, label, n, hcalls, hop, hclamp, hends, hu⟩
    rcases List.eq_nil_or_concat after with rfl | ⟨after', last, rfl⟩
    · obtain ⟨-, hc⟩ := List.append_inj' hcalls rfl
      obtain rfl := (List.cons.inj hc).1
      exact Or.inl ⟨seconds, label, n, hop, hclamp, hu⟩
    · rw [List.concat_eq_append, ← List.cons_append, ← List.append_assoc] at hcalls
      obtain ⟨rfl, hc⟩ := List.append_inj' hcalls rfl
      obtain rfl := (List.cons.inj hc).1
      refine Or.inr ⟨⟨before, c', after', seconds, label, n, rfl, hop, hclamp, fun mid x rest hafter => ?_, hu⟩, ?_⟩
      · refine hends mid x (rest ++ [c]) ?_
        rw [hafter, List.concat_eq_append, List.append_assoc, List.cons_append]
      · exact hends after' c [] (List.concat_eq_append)
  · rintro (⟨seconds, label, n, hop, hclamp, hu⟩ |
      ⟨⟨before, c', after, seconds, label, n, rfl, hop, hclamp, hends, hu⟩, hlast⟩)
    · refine ⟨calls, c, [], seconds, label, n, rfl, hop, hclamp, fun mid x rest hnil => ?_, hu⟩
      cases mid <;> cases hnil
    · refine ⟨before, c', after ++ [c], seconds, label, n, by simp, hop, hclamp, fun mid x rest hafter => ?_, hu⟩
      rcases List.eq_nil_or_concat rest with rfl | ⟨rest', last, rfl⟩
      · obtain ⟨rfl, hx⟩ := List.append_inj' hafter rfl
        obtain rfl := (List.cons.inj hx).1
        exact hlast
      · rw [List.concat_eq_append, ← List.cons_append, ← List.append_assoc] at hafter
        exact hends mid x rest' (List.append_inj' hafter rfl).1

theorem get?_live : (live now d).get? token = (d.get? token).filter fun x => decide (now < x.deadline) :=
  Dict.get?_filterVal d _ token

variable {at' : ℚ}

theorem ends_issue {other : Text} {label : Json} :
    Ends W calls ⟨at', .issue other seconds label⟩ token ↔ (clampSeconds W seconds).isSome = true ∧
      (other = token ∨ goes (live at' (standing W calls)) = some token) := by
  constructor
  · rintro (hop | ⟨keep, hop, -⟩ | ⟨other', seconds', label', n, hop, hn, h⟩)
    · cases hop
    · cases hop
    · obtain ⟨rfl, rfl, -⟩ := Op.issue.inj hop
      exact ⟨by rw [hn]; rfl, h⟩
  · rintro ⟨hsome, h⟩
    obtain ⟨n, hn⟩ := Option.isSome_iff_exists.mp hsome
    exact Or.inr (Or.inr ⟨other, seconds, label, n, rfl, hn, h⟩)

theorem ends_revoke {other : Option Text} : Ends W calls ⟨at', .revoke other⟩ token ↔ other = some token := by
  constructor
  · rintro (hop | ⟨keep, hop, -⟩ | ⟨other', seconds', label', n, hop, -⟩)
    · exact Op.revoke.inj hop
    · cases hop
    · cases hop
  · rintro rfl
    exact Or.inl rfl

theorem ends_keep {keep : Option Text} :
    Ends W calls ⟨at', .revokeAllExcept keep⟩ token ↔ keep ≠ some token := by
  constructor
  · rintro (hop | ⟨keep', hop, h⟩ | ⟨other', seconds', label', n, hop, -⟩)
    · cases hop
    · exact Op.revokeAllExcept.inj hop ▸ h
    · cases hop
  · exact fun h => Or.inr (Or.inl ⟨keep, rfl, h⟩)

theorem ends_other {op : Op}
    (h : op = .overview ∨ op = .restart ∨ ∃ t, op = .valid t) : ¬ Ends W calls ⟨at', op⟩ token := by
  rcases h with rfl | rfl | ⟨t, rfl⟩ <;> rintro (hop | ⟨keep, hop, -⟩ | ⟨_, _, _, _, hop, -⟩) <;> cases hop

theorem get?_issue {other : Text} {new : Session} (hle : at' ≤ now) :
    (∃ x, ((makeWay (live at' d)).set other new).get? token = some x ∧ now < x.deadline) ↔
      other = token ∧ now < new.deadline ∨
        (∃ x, d.get? token = some x ∧ now < x.deadline) ∧ ¬ (other = token ∨ goes (live at' d) = some token) := by
  by_cases hsame : other = token
  · subst hsame
    rw [Dict.get?_set_self]
    constructor
    · rintro ⟨x, hx, hlive⟩
      exact Or.inl ⟨rfl, Option.some.inj hx ▸ hlive⟩
    · rintro (⟨-, hlive⟩ | ⟨-, hno⟩)
      · exact ⟨new, rfl, hlive⟩
      · exact absurd (Or.inl rfl) hno
  · have hway : (makeWay (live at' d)).get? token =
        if goes (live at' d) = some token then none else (live at' d).get? token := by
      unfold makeWay
      split
      · next gone hgone =>
        rw [Dict.get?_pop, hgone]
        exact if_congr (by rw [Option.some.injEq, eq_comm]) rfl rfl
      · next hgone => rw [hgone, if_neg (by simp)]
    rw [Dict.get?_set_of_ne _ hsame, hway]
    by_cases hgoes : goes (live at' d) = some token
    · rw [if_pos hgoes]
      constructor
      · rintro ⟨x, hx, -⟩
        cases hx
      · rintro (⟨h, -⟩ | ⟨-, hno⟩)
        · exact absurd h hsame
        · exact absurd (Or.inr hgoes) hno
    · rw [if_neg hgoes, get?_live]
      constructor
      · rintro ⟨x, hx, hlive⟩
        exact Or.inr ⟨⟨x, (Option.filter_eq_some_iff.mp hx).1, hlive⟩, not_or.mpr ⟨hsame, hgoes⟩⟩
      · rintro (⟨h, -⟩ | ⟨⟨x, hx, hlive⟩, -⟩)
        · exact absurd h hsame
        · exact ⟨x, Option.filter_eq_some_iff.mpr ⟨hx, decide_eq_true (lt_of_le_of_lt hle hlive)⟩, hlive⟩

/-- **What is live after one more call**: what it issues, and what was live and it does not end. -/
theorem stand_concat {c : Call} (hle : c.now ≤ now) :
    (∃ x, (standing W (calls ++ [c])).get? token = some x ∧ now < x.deadline) ↔
      (∃ u, Issues W c token u ∧ now < u) ∨
        (∃ x, (standing W calls).get? token = some x ∧ now < x.deadline) ∧ ¬ Ends W calls c token := by
  rw [standing, List.foldl_append, List.foldl_cons, List.foldl_nil, ← standing]
  obtain ⟨at', op⟩ := c
  -- what does not issue a session leaves the first way out
  have hno : (∀ seconds label, op ≠ .issue token seconds label) → ∀ {p : Prop},
      ((∃ u, Issues W ⟨at', op⟩ token u ∧ now < u) ∨ p) = p := fun h _ =>
    propext (or_iff_right fun ⟨_, ⟨seconds, label, _, hop, _⟩, _⟩ => h seconds label hop)
  cases op with
  | issue other seconds label =>
    rw [ends_issue, stand]
    dsimp only
    cases hclamp : clampSeconds W seconds with
    | none =>
      refine ⟨fun h => Or.inr ⟨h, fun h => by cases h.1⟩, ?_⟩
      rintro (⟨u, ⟨seconds', label', n, hop, hn, -⟩, -⟩ | ⟨h, -⟩)
      · obtain ⟨-, rfl, -⟩ := Op.issue.inj hop
        rw [hclamp] at hn
        cases hn
      · exact h
    | some n =>
      dsimp only
      rw [get?_issue hle]
      refine or_congr ⟨?_, ?_⟩ (and_congr_right fun _ => not_congr (by simp))
      · rintro ⟨rfl, hlive⟩
        exact ⟨_, ⟨seconds, label, n, rfl, hclamp, rfl⟩, hlive⟩
      · rintro ⟨u, ⟨seconds', label', n', hop, hn, rfl⟩, hlive⟩
        obtain ⟨rfl, rfl, -⟩ := Op.issue.inj hop
        obtain rfl := Option.mem_unique hclamp hn
        exact ⟨rfl, hlive⟩
  | revoke other =>
    rw [hno (by simp), ends_revoke]
    cases other with
    | none => exact ⟨fun h => ⟨h, by simp⟩, And.left⟩
    | some other =>
      show (∃ x, ((standing W calls).pop other).get? token = some x ∧ _) ↔ _
      rw [Dict.get?_pop, Option.some.injEq]
      split_ifs with hsame
      · simp [hsame]
      · simp [Ne.symm hsame]
  | revokeAllExcept keep =>
    rw [hno (by simp), ends_keep, not_not]
    show (∃ x, ((standing W calls).filterKeys _).get? token = some x ∧ _) ↔ _
    rw [Dict.get?_filterKeys]
    by_cases hsame : some token = keep
    · simp [hsame]
    · simp [hsame, Ne.symm hsame]
  | valid t =>
    rw [hno (by simp)]
    exact ⟨fun h => ⟨h, ends_other (Or.inr (Or.inr ⟨t, rfl⟩))⟩, And.left⟩
  | overview =>
    rw [hno (by simp)]
    exact ⟨fun h => ⟨h, ends_other (Or.inl rfl)⟩, And.left⟩
  | restart =>
    rw [hno (by simp)]
    exact ⟨fun h => ⟨h, ends_other (Or.inr (Or.inl rfl))⟩, And.left⟩

theorem standing_iff : ∀ {calls : List Call} {token : Text}, (∀ c ∈ calls, c.now ≤ now) →
    ((∃ x, (standing W calls).get? token = some x ∧ now < x.deadline) ↔ ∃ u, Issued W calls token u ∧ now < u) := by
  intro calls
  induction calls using List.reverseRecOn with
  | nil =>
    intro token _
    refine ⟨fun ⟨x, hx, _⟩ => (by cases hx), ?_⟩
    rintro ⟨u, ⟨before, c, after, _, _, _, hcalls, -⟩, -⟩
    cases before <;> cases hcalls
  | append_singleton calls c ih =>
    intro token hle
    rw [stand_concat (hle c (by simp)), ih fun c' hc' => hle c' (List.mem_append_left _ hc')]
    constructor
    · rintro (⟨u, hu, hlive⟩ | ⟨⟨u, hu, hlive⟩, hends⟩)
      · exact ⟨u, issued_concat.mpr (Or.inl hu), hlive⟩
      · exact ⟨u, issued_concat.mpr (Or.inr ⟨hu, hends⟩), hlive⟩
    · rintro ⟨u, hu, hlive⟩
      rcases issued_concat.mp hu with hu | ⟨hu, hends⟩
      · exact Or.inl ⟨u, hu, hlive⟩
      · exact Or.inr ⟨⟨u, hu, hlive⟩, hends⟩

theorem inv_run (hW : Lawful W) (hT : Set.InjOn W.digest T) : ∀ {calls : List Call} {d : Dict Text Session} {s : State}
    {last now : ℚ}, Inv W T d last s → Fits W T last calls now → (∀ c ∈ calls, c.op = .restart → s.keeps = true) →
    Inv W T (calls.foldl (stand W) d) now (run (step W) s calls) ∧ (run (step W) s calls).keeps = s.keeps ∧
      (∀ c ∈ calls, c.now ≤ now) ∧ last ≤ now
  | [], _, _, _, _, h, hfits, _ => ⟨inv_later hW hfits h, rfl, fun _ hc => (by cases hc), hfits⟩
  | c :: calls, d, s, last, now, h, hfits, hkeeps => by
    have hstep := inv_step hW hT h hfits.1 (hkeeps c List.mem_cons_self)
    obtain ⟨hinv, hsame, hle, hlast⟩ := inv_run hW hT hstep hfits.2 fun c' hc' hop => by
      rw [keeps_step]
      exact hkeeps c' (List.mem_cons_of_mem c hc') hop
    refine ⟨hinv, hsame.trans (keeps_step s c), fun c' hc' => ?_, hfits.1.later.trans hlast⟩
    rcases List.mem_cons.mp hc' with rfl | hc'
    · exact hlast
    · exact hle c' hc'

theorem valid_iff (hT : Set.InjOn W.digest T) (h : Inv W T d now s) (ht : token ∈ T) :
    (valid W now (some token) s).1 = true ↔ ∃ x, d.get? token = some x ∧ now < x.deadline := by
  rw [← h.held.get?_live hT (fun t ht => (h.tokens t ht).1) ht]
  unfold valid
  dsimp only
  split_ifs with hempty
  · refine ⟨fun h => (by cases h), fun hlive => ?_⟩
    obtain ⟨x, hx, -⟩ := (h.held.get?_live hT (fun t ht => (h.tokens t ht).1) ht).mp hlive
    exact absurd hempty (h.tokens token (Dict.mem_keys_of_get? hx)).2
  · cases hget : s.held.get? (W.digest token) with
    | none => exact ⟨fun h => (by cases h), fun ⟨e, he, _⟩ => (by cases he)⟩
    | some e =>
      dsimp only
      split_ifs with hover
      · refine ⟨fun h => (by cases h), fun ⟨e', he', hlive⟩ => ?_⟩
        rw [alive, ← Option.some.inj he', hover] at hlive
        cases hlive
      · refine ⟨fun _ => ⟨e, rfl, ?_⟩, fun _ => rfl⟩
        rw [alive, Bool.eq_false_iff.mpr hover]
        rfl

end Held

/-! ### Any file -/

section Files

variable {W : World} {now : ℚ}

/-- No row raises, and a deadline that is no number is overwritten by a later row of its digest. -/
def SoundRows (W : World) (now : ℚ) : List Json → Prop
  | [] => True
  | row :: rows =>
    (∀ digest deadline, letThrough W now row = some (digest, deadline) →
      (madeOf W now (row.get? (ascii "made"))).isSome = true ∧
        (number? W deadline = some .nan → ∃ later ∈ rows, ∃ u, letThrough W now later = some (digest, u))) ∧
      SoundRows W now rows

/-- **A file that signs nobody in for ever**: it is not nested too deep, and its rows are sound. -/
def SoundFile (W : World) (now : ℚ) (content : Option Bytes) : Prop :=
  ∀ data text, content = some data → data.length ≤ fileMax → decodeUtf8 data = some text →
    tooDeep W.floatRepr W.depth text = false ∧
      ∀ items, loads W.floatRepr W.depth text = some (.arr items) → SoundRows W now (items.take maxSessions)

def Near (W : World) (now : ℚ) (e : Entry) : Prop := e.deadline.le (.finite (latest W now)) = true

theorem letThrough_spec (hW : Lawful W) (hround : W.round now = now) {row deadline : Json} {digest : Text}
    (h : letThrough W now row = some (digest, deadline)) :
    ∃ u, toFloat W deadline = some u ∧
      (u.le (.finite (latest W now)) = true ↔ number? W deadline ≠ some .nan) := by
  unfold letThrough at h
  split at h
  · next digest' deadline' hdigest hdeadline =>
    split at h
    · cases h
    · next u hu =>
      split_ifs at h with hcheck
      obtain ⟨-, hafter, hnear⟩ := hcheck
      obtain ⟨-, rfl⟩ := Prod.mk.inj (Option.some.inj h)
      cases deadline' with
      | int n =>
        obtain rfl := Option.some.inj hu
        have hlow : now < n := not_le.mp (of_decide_eq_false hafter)
        have hhigh : (n : ℚ) ≤ latest W now := not_lt.mp (of_decide_eq_false hnear)
        have hlatest : W.round (latest W now) = latest W now := hW.idem _
        have hbound : |(n : ℚ)| < floatMax := by
          have hnow := hW.bounded now
          have hmax := hW.bounded (latest W now)
          rw [hround] at hnow
          rw [hlatest] at hmax
          exact abs_lt.mpr ⟨(abs_lt.mp hnow).1.trans hlow, hhigh.trans_lt (abs_lt.mp hmax).2⟩
        refine ⟨.finite (W.round n), if_pos hbound, ?_⟩
        rw [Num.le_finite, hu]
        refine ⟨fun _ hnan => (by cases hnan), fun _ => decide_eq_true ?_⟩
        rw [← hlatest]
        exact hW.mono hhigh
      | bool b =>
        obtain rfl := Option.some.inj hu
        refine ⟨_, rfl, fun _ hnan => (by cases hnan), fun _ => ?_⟩
        exact decide_eq_true (not_lt.mp (of_decide_eq_false hnear))
      | float repr =>
        obtain rfl := Option.some.inj hu
        refine ⟨_, rfl, ?_⟩
        rw [hu, ne_eq, Option.some.injEq]
        cases hvalue : W.value repr with
        | nan => exact ⟨fun h => (by cases h), fun h => absurd rfl h⟩
        | finite q =>
          rw [hvalue] at hnear
          exact ⟨fun _ h => (by cases h), fun _ => decide_eq_true (not_lt.mp (of_decide_eq_false hnear))⟩
        | inf negative =>
          rw [hvalue] at hafter hnear
          cases negative with
          | true => cases hafter
          | false => cases hnear
      | null | str | arr | obj => cases hu
  · cases h

/-- **The rows of a file**: what they make of what was held before. -/
theorem takeRows_iff (hW : Lawful W) (hround : W.round now = now) : ∀ {rows : List Json} {held : Dict Text Entry},
    (∃ d, takeRows W now rows held = some d ∧ ∀ k e, d.get? k = some e → Near W now e) ↔
      SoundRows W now rows ∧ ∀ k e, held.get? k = some e →
        Near W now e ∨ ∃ row ∈ rows, ∃ u, letThrough W now row = some (k, u)
  | [], held => by
    constructor
    · rintro ⟨d, hd, hnear⟩
      cases hd
      exact ⟨trivial, fun k e he => Or.inl (hnear k e he)⟩
    · rintro ⟨-, hnear⟩
      exact ⟨held, rfl, fun k e he => (hnear k e he).resolve_right fun ⟨_, h, _⟩ => by cases h⟩
  | row :: rows, held => by
    rw [takeRows, readRow, SoundRows]
    cases hlet : letThrough W now row with
    | none =>
      dsimp only
      rw [takeRows_iff hW hround]
      refine and_congr ⟨fun h => ⟨fun _ _ h => (by cases h), h⟩, And.right⟩ ?_
      refine forall₃_congr fun k e _ => or_congr_right ?_
      constructor
      · rintro ⟨row', hrow', hu⟩
        exact ⟨row', List.mem_cons_of_mem row hrow', hu⟩
      · rintro ⟨row', hrow', u, hu⟩
        rcases List.mem_cons.mp hrow' with rfl | hrow'
        · rw [hlet] at hu
          cases hu
        · exact ⟨row', hrow', u, hu⟩
    | some found =>
      obtain ⟨digest, deadline⟩ := found
      obtain ⟨u, hu, hnan⟩ := letThrough_spec hW hround hlet
      dsimp only
      rw [hu]
      cases hmade : madeOf W now (row.get? (ascii "made")) with
      | none =>
        dsimp only
        refine ⟨fun ⟨d, hd, _⟩ => (by cases hd), fun h => ?_⟩
        have hsome := (h.1.1 digest deadline rfl).1
        cases hsome
      | some made =>
        dsimp only
        rw [takeRows_iff hW hround]
        constructor
        · rintro ⟨hrows, hheld⟩
          refine ⟨⟨fun digest' deadline' heq => ⟨rfl, fun hisnan => ?_⟩, hrows⟩, fun k e he => ?_⟩
          · cases heq
            rcases hheld digest _ (Dict.get?_set_self held digest _) with hnear | hlater
            · exact absurd hisnan (hnan.mp hnear)
            · exact hlater
          · by_cases hk : digest = k
            · exact Or.inr ⟨row, List.mem_cons_self, deadline, by rw [hlet, hk]⟩
            · refine (hheld k e (by rw [Dict.get?_set_of_ne held hk]; exact he)).imp_right ?_
              rintro ⟨row', hrow', hu'⟩
              exact ⟨row', List.mem_cons_of_mem row hrow', hu'⟩
        · rintro ⟨⟨hrow, hrows⟩, hheld⟩
          refine ⟨hrows, fun k e he => ?_⟩
          rw [Dict.get?_set] at he
          split_ifs at he with hk
          · rw [← Option.some.inj he, ← hk]
            by_cases hisnan : number? W deadline = some .nan
            · exact Or.inr ((hrow digest deadline rfl).2 hisnan)
            · exact Or.inl (hnan.mpr hisnan)
          · refine (hheld k e he).imp_right ?_
            rintro ⟨row', hrow', u', hu'⟩
            rcases List.mem_cons.mp hrow' with rfl | hrow'
            · rw [hlet] at hu'
              exact absurd (Prod.mk.inj (Option.some.inj hu')).1 hk
            · exact ⟨row', hrow', u', hu'⟩

theorem load_iff (hW : Lawful W) (hround : W.round now = now) (content : Option Bytes) :
    (∃ held, load W now content = some held ∧ ∀ k e, held.get? k = some e → Near W now e) ↔
      SoundFile W now content := by
  have hempty : ∀ content : Option Bytes, load W now content = some .empty → SoundFile W now content →
      ((∃ held, load W now content = some held ∧ ∀ k e, held.get? k = some e → Near W now e) ↔
        SoundFile W now content) := by
    intro content hload hsound
    exact ⟨fun _ => hsound, fun _ => ⟨.empty, hload, fun k e he => by cases he⟩⟩
  cases content with
  | none => exact hempty none rfl fun _ _ h => by cases h
  | some data =>
    by_cases hlong : fileMax < data.length
    · refine hempty _ (if_pos hlong) fun data' text hdata hshort => ?_
      cases hdata
      omega
    · cases hdecode : decodeUtf8 data with
      | none =>
        refine hempty _ ?_ fun data' text hdata _ htext => ?_
        · unfold load
          dsimp only
          rw [if_neg hlong, hdecode]
        · cases hdata
          rw [hdecode] at htext
          cases htext
      | some text =>
        have hsound : SoundFile W now (some data) ↔ tooDeep W.floatRepr W.depth text = false ∧
            ∀ items, loads W.floatRepr W.depth text = some (.arr items) →
              SoundRows W now (items.take maxSessions) := by
          refine ⟨fun h => h data text rfl (not_lt.mp hlong) hdecode, fun h data' text' hdata _ htext => ?_⟩
          cases hdata
          obtain rfl := Option.mem_unique hdecode htext
          exact h
        rw [hsound]
        unfold load
        dsimp only
        rw [if_neg hlong, hdecode]
        dsimp only
        cases hdeep : tooDeep W.floatRepr W.depth text with
        | true => exact ⟨fun ⟨d, hd, _⟩ => (by cases hd), fun h => (by cases h.1)⟩
        | false =>
          rw [if_neg (by decide)]
          have hother : ∀ v : Option Json, (∀ items, v ≠ some (.arr items)) →
              ((∃ held : Dict Text Entry, some Dict.empty = some held ∧ ∀ k e, held.get? k = some e → Near W now e) ↔
                false = false ∧ ∀ items, v = some (.arr items) → SoundRows W now (items.take maxSessions)) := by
            intro v hv
            exact ⟨fun _ => ⟨rfl, fun items h => absurd h (hv items)⟩,
              fun _ => ⟨.empty, rfl, fun k e he => by cases he⟩⟩
          cases hread : loads W.floatRepr W.depth text with
          | none => exact hother none fun _ h => by cases h
          | some doc =>
            cases doc with
            | arr items =>
              dsimp only
              rw [takeRows_iff hW hround]
              constructor
              · rintro ⟨hrows, -⟩
                refine ⟨rfl, fun items' hitems => ?_⟩
                obtain rfl := Json.arr.inj (Option.some.inj hitems)
                exact hrows
              · rintro ⟨-, hrows⟩
                exact ⟨hrows items rfl, fun k e he => by cases he⟩
            | null | bool | int | float | str | obj => exact hother _ fun _ h => by cases h

end Files

/-- **A lasting session ends when it was said to.** In every run of calls and restarts a token is good exactly where it
was issued, not ended since, and before its deadline; no lifetime is longer than the bound, and the file is always
read. Of any other file: it is read and every session of it ends in time exactly if it is sound. -/
theorem lasts_until {W : World} {T : Set Text} (hW : Lawful W) (hT : Set.InjOn W.digest T) :
    (∀ (keeps : Bool) (calls : List Call) (last now : ℚ) (token : Text), Fits W T last calls now → token ∈ T →
      (∀ c ∈ calls, c.op = .restart → keeps = true) →
      ((valid W now (some token) (run (step W) (fresh keeps) calls)).1 = true ↔ Good W calls now token) ∧
        (keeps = true → (load W now (run (step W) (fresh keeps) calls).file).isSome = true)) ∧
    (∀ seconds n, clampSeconds W seconds = some n → n ≤ maxSeconds) ∧
    ∀ (now : ℚ) (content : Option Bytes), W.round now = now →
      ((∃ held, load W now content = some held ∧ ∀ k e, held.get? k = some e → Near W now e) ↔
        SoundFile W now content) := by
  refine ⟨fun keeps calls last now token hfits ht hkeeps => ?_, fun _ _ h => clampSeconds_le h,
    fun now content hround => load_iff hW hround content⟩
  obtain ⟨hinv, hsame, hle, -⟩ := inv_run hW hT (inv_fresh keeps last) hfits hkeeps
  refine ⟨?_, fun h => (inv_restart hW hinv (hsame.trans h)).1⟩
  rw [valid_iff hT hinv ht, good_iff]
  exact standing_iff hle

/-! ### Whole seconds -/

def wholeBelow (q : ℚ) : ℤ := max 0 (min ⌊q⌋ (10 ^ 20))

/-- A world whose floats are the whole numbers up to a bound, and NaN; a digest repeats the last digits of a token. -/
def plainWorld : World where
  floatRepr := wholeRepr
  depth := 10
  value text := if text = ascii "nan" then .nan else .finite (ofDigits (text.takeWhile isDigit))
  repr n :=
    match n with
    | .finite q => digits (wholeBelow q).toNat ++ [0x2E, 0x30]
    | _ => ascii "nan"
  ofText _ := none
  intOfText _ := none
  round q := wholeBelow q
  digest token := ((token.map fun c => digit (c % 16)) ++ List.replicate 64 0x30).take 64
  printable c := 0x20 ≤ c ∧ c < 0x7F

theorem wholeBelow_natCast {n : ℕ} (h : n ≤ 10 ^ 20) : wholeBelow n = n := by
  rw [wholeBelow, Int.floor_natCast, min_eq_left (by exact_mod_cast h), max_eq_right (by omega)]

theorem wholeBelow_eq (q : ℚ) : ∃ n : ℕ, wholeBelow q = n ∧ n ≤ 10 ^ 20 := by
  have hzero : 0 ≤ wholeBelow q := le_max_left _ _
  have hbound : wholeBelow q ≤ 10 ^ 20 := max_le (by decide) (min_le_right _ _)
  refine ⟨(wholeBelow q).toNat, by omega, by omega⟩

theorem whole_of_round {q : ℚ} (h : plainWorld.round q = q) : ∃ n : ℕ, q = n ∧ n ≤ 10 ^ 20 := by
  obtain ⟨n, hn, hle⟩ := wholeBelow_eq q
  refine ⟨n, ?_, hle⟩
  rw [← h]
  show ((wholeBelow q : ℤ) : ℚ) = n
  rw [hn]
  rfl

theorem repr_whole {n : ℕ} (h : n ≤ 10 ^ 20) :
    plainWorld.repr (.finite n) = digits n ++ [0x2E, 0x30] := by
  show digits (wholeBelow n).toNat ++ [0x2E, 0x30] = _
  rw [wholeBelow_natCast h, Int.toNat_natCast]

theorem lawful_plainWorld : Lawful plainWorld where
  mono a b h := by
    have hfloor : ⌊a⌋ ≤ ⌊b⌋ := Int.floor_mono h
    have hle : wholeBelow a ≤ wholeBelow b := max_le_max_left _ (min_le_min_right _ hfloor)
    exact Int.cast_le.mpr hle
  idem q := by
    obtain ⟨n, hn, hle⟩ := wholeBelow_eq q
    show ((wholeBelow (wholeBelow q : ℤ) : ℤ) : ℚ) = (wholeBelow q : ℤ)
    rw [hn, Int.cast_natCast, wholeBelow_natCast hle]
    rfl
  bounded q := by
    obtain ⟨n, hn, hle⟩ := wholeBelow_eq q
    show |((wholeBelow q : ℤ) : ℚ)| < floatMax
    have hn' : ((n : ℤ) : ℚ) ≤ 10 ^ 20 := by exact_mod_cast hle
    rw [hn, abs_of_nonneg (by positivity)]
    refine lt_of_le_of_lt hn' ?_
    have hsplit : (2 : ℚ) ^ 1024 = 2 ^ 970 * 2 ^ 54 := by rw [← pow_add]
    have hmore : (2 : ℚ) ^ 70 ≤ 2 ^ 970 := pow_le_pow_right₀ (by norm_num) (by norm_num)
    rw [floatMax, hsplit]
    generalize (2 : ℚ) ^ 970 = x at hmore
    norm_num at hmore ⊢
    linarith
  value_repr q h := by
    obtain ⟨n, rfl, hle⟩ := whole_of_round h
    obtain ⟨c, t, hct, -, hall⟩ := digits_shape n
    rw [repr_whole hle]
    have hne : digits n ++ [0x2E, 0x30] ≠ ascii "nan" := by
      rw [hct]
      intro heq
      have hc := of_decide_eq_true (hall c (by rw [hct]; exact List.mem_cons_self))
      have : c = 0x6E := (List.cons.inj heq).1
      omega
    show (if digits n ++ [0x2E, 0x30] = ascii "nan" then Num.nan else _) = _
    rw [if_neg hne, (span_digits hall fun c r h => by rw [← (List.cons.inj h).1]; decide).1, ofDigits_digits]
  float_repr q h := by
    obtain ⟨n, rfl, hle⟩ := whole_of_round h
    rw [repr_whole hle]
    exact floatText_wholeRepr n
  ascii_repr q h := by
    obtain ⟨n, rfl, hle⟩ := whole_of_round h
    rw [repr_whole hle, dumpFloat_whole]
    refine ascii_append.mpr ⟨fun c hc => ?_, by decide⟩
    obtain ⟨_, _, -, -, hall⟩ := digits_shape n
    have := of_decide_eq_true (hall c hc)
    omega
  length_repr q h := by
    obtain ⟨n, rfl, hle⟩ := whole_of_round h
    have hlen := length_digits (k := 21) (by decide) (show n < 10 ^ 21 by omega)
    rw [repr_whole hle, dumpFloat_whole, List.length_append]
    show _ + 2 ≤ 32
    omega
  digest token := by
    have hdigit : ∀ n < 16, (isDigit (digit n) || (decide (0x61 ≤ digit n ∧ digit n ≤ 0x66))) = true := by decide
    refine decide_eq_true ⟨?_, List.all_eq_true.mpr fun c hc => ?_⟩
    · show (List.take 64 _).length = 64
      rw [List.length_take, List.length_append, List.length_replicate]
      omega
    · rcases List.mem_append.mp (List.mem_of_mem_take hc) with hc | hc
      · obtain ⟨x, -, rfl⟩ := List.mem_map.mp hc
        exact hdigit _ (Nat.mod_lt _ (by decide))
      · rw [List.eq_of_mem_replicate hc]
        decide
  printable c h := by
    have := of_decide_eq_true h
    exact Or.inl (by omega)
  depth := by decide

def acrossRestart : List Call :=
  [⟨100, .issue (ascii "a") (.int 3600) (.str (ascii "laptop"))⟩, ⟨200, .restart⟩]

theorem ends_acrossRestart :
    ((valid plainWorld 300 (some (ascii "a")) (run (step plainWorld) (fresh true) acrossRestart)).1 = true ↔
        Good plainWorld acrossRestart 300 (ascii "a")) ∧
      (true = true → (load plainWorld 300 (run (step plainWorld) (fresh true) acrossRestart).file).isSome = true) := by
  have hround : plainWorld.round 100 = 100 := by decide +kernel
  refine (lasts_until lawful_plainWorld (T := {ascii "a"}) (Set.injOn_singleton _ _)).1 true acrossRestart 0 300 (ascii "a")
    ⟨⟨by norm_num, ?_, ?_⟩, ⟨by norm_num, ?_, ?_⟩, by norm_num [Fits]⟩ rfl fun _ _ _ => rfl
  · intro token htoken
    exact List.mem_singleton.mp htoken
  · intro token seconds label hop
    obtain ⟨rfl, -, -⟩ := Op.issue.inj hop
    exact ⟨by decide, hround, by norm_num⟩
  · intro token htoken
    cases htoken
  · intro token seconds label hop
    cases hop

def bytesOf (s : String) : Bytes := (ascii s).map UInt8.ofNat

/-- A file with one row: its digest is all zeros, and its deadline and its making are as given. -/
def fileOf (deadline made : String) : Bytes :=
  bytesOf "[\x7b\"h\": \"" ++ (List.replicate 64 0x30 ++ (bytesOf "\", \"until\": " ++
    (bytesOf deadline ++ (bytesOf ", \"made\": " ++ (bytesOf made ++ bytesOf "\x7d]")))))

/-- A deadline that is no number is let through and never comes, and a row whose making is a word raises. -/
theorem bad_files : load plainWorld 100 (some (fileOf "200.0" "\"x\"")) = none ∧
    (∃ held e, load plainWorld 100 (some (fileOf "NaN" "1.0")) = some held ∧
      held.get? (List.replicate 64 0x30) = some e ∧ ∀ later, e.deadline.le (.finite later) = false) ∧
    ¬ ∀ content : Option Bytes, ∃ held, load plainWorld 100 content = some held ∧
      ∀ k e, held.get? k = some e → Near plainWorld 100 e := by
  have hraises : (load plainWorld 100 (some (fileOf "200.0" "\"x\""))).isNone = true := by decide +kernel
  have hnan : ((load plainWorld 100 (some (fileOf "NaN" "1.0"))).bind fun held =>
      (held.get? (List.replicate 64 0x30)).map Entry.deadline) = some .nan := by decide +kernel
  have hnone := Option.isNone_iff_eq_none.mp hraises
  refine ⟨hnone, ?_, fun h => ?_⟩
  · obtain ⟨held, hheld, hbind⟩ := Option.bind_eq_some_iff.mp hnan
    obtain ⟨e, he, hdeadline⟩ := Option.map_eq_some_iff.mp hbind
    exact ⟨held, e, hheld, he, fun later => by rw [hdeadline]; rfl⟩
  · obtain ⟨held, hheld, -⟩ := h (some (fileOf "200.0" "\"x\""))
    rw [hnone] at hheld
    cases hheld

end NMesh.Console.Lasting
