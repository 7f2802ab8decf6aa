import Mathlib.Algebra.Order.Field.Rat
import Mathlib.Data.List.Perm.Subperm
import NMesh.Base.Latest
import NMesh.Base.Ordered

/-! # What a link feels like

A link is probed: every probe goes out under a token, the peer echoes the token, and a probe that is
not answered is charged as lost, either because `MAX_PENDING` later ones overtook it (`sent`) or because
it grew too old (`expire`). The outcomes of the last `WINDOW` probes are kept, and how many of them were
losses is counted as they come and go (`record`), not recounted when it is read.

What every operation does is one relation: the probes `es` that end in it leave the pending ones, and
their outcomes enter the window in this order (`Ends`). From it, `probes_counted_once`: over every
sequence of operations with fresh tokens, whatever the clock says, the history of the ended probes has no
token twice, together with the pending ones it is what was sent, and the window and its count of losses
are those of the last outcomes of the history. -/

namespace NMesh.Link.Quality

open Base.Ordered Base.Latest

/-- `HISTORY` -/
def maxSamples : ℕ := 32

/-- `WINDOW` -/
def windowSize : ℕ := 50

def maxPending : ℕ := 64

section

variable {τ : Type} [DecidableEq τ]

/-- **`LinkQuality`.** An outcome is the round trip of a probe, `none` for one that never came back. -/
structure LinkQuality (τ : Type) where
  samples : List ℚ
  pings : ℕ
  pongs : ℕ
  last : Option ℚ
  sincePong : ℕ
  answeredAt : ℚ
  window : List (Option ℚ)
  windowLost : ℤ
  pending : Dict τ ℚ

namespace LinkQuality

/-- A link that has just opened, `clock` being its birth. -/
def new (clock : ℚ) : LinkQuality τ :=
  { samples := [], pings := 0, pongs := 0, last := none, sincePong := 0, answeredAt := clock,
    window := [], windowLost := 0, pending := Dict.empty }

def onPing (q : LinkQuality τ) : LinkQuality τ :=
  { q with pings := q.pings + 1, sincePong := q.sincePong + 1 }

def onPong (q : LinkQuality τ) (rtt clock : ℚ) : LinkQuality τ :=
  { q with pongs := q.pongs + 1, sincePong := 0, answeredAt := clock, last := some rtt,
           samples := (q.samples ++ [rtt]).rtake maxSamples }

/-- `on_answer`: a probe came back too late to be timed. -/
def onAnswer (q : LinkQuality τ) (clock : ℚ) : LinkQuality τ :=
  { q with pongs := q.pongs + 1, sincePong := 0, answeredAt := clock }

/-- The count of losses after the oldest outcome made room for the next. -/
def lostAfterRoom (q : LinkQuality τ) : ℤ :=
  if q.window.length = windowSize ∧ q.window.head? = some none then q.windowLost - 1 else q.windowLost

/-- `_record`: one outcome into the window, the oldest out, the loss count kept. -/
def record (q : LinkQuality τ) (outcome : Option ℚ) : LinkQuality τ :=
  { q with window := (q.window ++ [outcome]).rtake windowSize,
           windowLost := if outcome = none then q.lostAfterRoom + 1 else q.lostAfterRoom }

/-- The loop of `sent`: probes that too many later ones overtook are charged as lost. -/
def overtake : ℕ → LinkQuality τ → LinkQuality τ
  | 0, q => q
  | n + 1, q =>
    if maxPending < q.pending.size then
      overtake n (({ q with pending := q.pending.dropFirst } : LinkQuality τ).record none)
    else q

/-- `sent`: one probe went out at `time`, under a token the peer will echo back. -/
def sent (q : LinkQuality τ) (token : τ) (time : ℚ) : LinkQuality τ :=
  overtake (q.pending.set token time).size { q.onPing with pending := q.pending.set token time }

/-- `answered`: a probe came back; the round trip, or `none` when no probe in flight matched. -/
def answered (q : LinkQuality τ) (token : Option τ) (time clock : ℚ) : Option ℚ × LinkQuality τ :=
  match token with
  | none => (none, q.onAnswer clock)
  | some t =>
    match q.pending.get? t with
    | none => (none, q.onAnswer clock)
    | some sentAt =>
      (some (max 0 (time - sentAt)),
        (({ q with pending := q.pending.pop t } : LinkQuality τ).onPong (max 0 (time - sentAt))
          clock).record (some (max 0 (time - sentAt))))

/-- The loop of `expire` over the probes that were pending, oldest first. -/
def expireFrom (now after : ℚ) : List (τ × ℚ) → ℕ → LinkQuality τ → ℕ × LinkQuality τ
  | [], lost, q => (lost, q)
  | e :: l, lost, q =>
    if now - e.2 ≤ after then (lost, q)
    else expireFrom now after l (lost + 1)
      (({ q with pending := q.pending.pop e.1 } : LinkQuality τ).record none)

/-- `expire`: charge every probe older than `after` as lost; how many. -/
def expire (q : LinkQuality τ) (now after : ℚ) : ℕ × LinkQuality τ :=
  expireFrom now after q.pending.entries 0 q

/-- `recent_loss`: the share of the window that never came back, `none` below `minimum` outcomes. -/
def recentLoss (q : LinkQuality τ) (minimum : ℤ) : Option ℚ :=
  if (q.window.length : ℤ) < max 1 minimum then none
  else some (q.windowLost / q.window.length)

end LinkQuality

open LinkQuality

/-- What happens to a link. -/
inductive Op (τ : Type) where
  | sent (token : τ) (time : ℚ)
  | answered (token : Option τ) (time clock : ℚ)
  | expire (now after : ℚ)

def apply (q : LinkQuality τ) : Op τ → LinkQuality τ
  | .sent token time => q.sent token time
  | .answered token time clock => (q.answered token time clock).2
  | .expire now after => (q.expire now after).2

def runOps (q : LinkQuality τ) (ops : List (Op τ)) : LinkQuality τ := ops.foldl apply q

def Op.probe : Op τ → Option τ
  | .sent token _ => some token
  | _ => none

def tokens (ops : List (Op τ)) : List τ := ops.filterMap Op.probe

/-- What the operation answers its caller: the round trip of the probe it matched. -/
def reply (q : LinkQuality τ) : Op τ → Option ℚ
  | .answered token time clock => (q.answered token time clock).1
  | _ => none

/-- The probes in flight when the operation resolves some of them, oldest first. -/
def inFlight (q : LinkQuality τ) : Op τ → List τ
  | .sent token time => (q.pending.set token time).keys
  | _ => q.pending.keys

/-- **The probes an operation ends**: those that were in flight and no longer are, each with the round
trip that was answered, `none` for a loss. -/
def ended (q : LinkQuality τ) (op : Op τ) : List (τ × Option ℚ) :=
  ((inFlight q op).filter fun t => decide ((apply q op).pending.get? t = none)).map
    fun t => (t, reply q op)

/-- The probes that a sequence of operations ended, in this order. -/
def history (q : LinkQuality τ) : List (Op τ) → List (τ × Option ℚ)
  | [] => []
  | op :: ops => ended q op ++ history (apply q op) ops

/-! ### The window and its count -/

/-- The count of losses is the number of losses in the window, which is within its size. -/
structure Counted (q : LinkQuality τ) : Prop where
  lost : q.windowLost = q.window.count none
  size : q.window.length ≤ windowSize

variable {q : LinkQuality τ}

omit [DecidableEq τ] in
theorem Counted.record (h : Counted q) (outcome : Option ℚ) :
    Counted (q.record outcome) := by
  have hsize : ((q.window ++ [outcome]).rtake windowSize).length ≤ windowSize := by
    rw [length_rtake]
    exact min_le_left _ _
  refine ⟨?_, hsize⟩
  have hone : ([outcome].count none : ℤ) = if outcome = none then 1 else 0 := by
    rw [List.count_singleton]
    by_cases hout : outcome = none
    · simp [hout]
    · simp [hout]
  have hwindow : (((q.window ++ [outcome]).rtake windowSize).count none : ℤ) =
      q.lostAfterRoom + if outcome = none then 1 else 0 := by
    by_cases hfull : q.window.length = windowSize
    · obtain ⟨o, l, hl⟩ : ∃ o l, q.window = o :: l :=
        List.exists_cons_of_length_pos (by rw [hfull]; decide)
      have hlen : (l ++ [outcome]).length = windowSize := by
        rw [hl, List.length_cons] at hfull
        rw [List.length_append, List.length_singleton]
        exact hfull
      have htake : (q.window ++ [outcome]).rtake windowSize = l ++ [outcome] := by
        rw [hl, List.cons_append, ← List.singleton_append, rtake_append_right hlen.ge,
          rtake_of_le hlen.le]
      have hroom : q.lostAfterRoom = l.count none := by
        have hlost := h.lost
        rw [hl, List.count_cons] at hlost
        unfold lostAfterRoom
        by_cases ho : o = none
        · rw [if_pos ⟨hfull, by rw [hl, ho]; rfl⟩, hlost, ho]
          simp
        · rw [if_neg (fun hc => ho (by have := hc.2; rw [hl] at this; exact Option.some.inj this)), hlost]
          simp [ho]
      rw [htake, List.count_append, Nat.cast_add, hone, hroom]
    · have hlt : (q.window ++ [outcome]).length ≤ windowSize := by
        have := h.size
        rw [List.length_append, List.length_singleton]
        omega
      have hroom : q.lostAfterRoom = q.windowLost := if_neg fun hc => hfull hc.1
      rw [rtake_of_le hlt, List.count_append, Nat.cast_add, hone, hroom, h.lost]
  simp only [LinkQuality.record]
  rw [hwindow]
  by_cases hout : outcome = none
  · rw [if_pos hout, if_pos hout]
  · rw [if_neg hout, if_neg hout, add_zero]

/-! ### What an operation ends -/

/-- **The probes `es` end**: they leave the pending ones, and their outcomes enter the window. -/
structure Ends (q q' : LinkQuality τ) (es : List (τ × Option ℚ)) : Prop where
  keys : q.pending.keys.Perm (es.map Prod.fst ++ q'.pending.keys)
  kept : ∀ t time, q'.pending.get? t = some time → q.pending.get? t = some time
  window : q'.window = (q.window ++ es.map Prod.snd).rtake windowSize
  pings : q'.pings = q.pings
  counted : Counted q → Counted q'

theorem Ends.refl (h : Counted q) : Ends q q [] :=
  ⟨by simp, fun _ _ h => h, by simp [rtake_of_le h.size], rfl, fun h => h⟩

theorem Ends.trans {q q' q'' : LinkQuality τ} {es es' : List (τ × Option ℚ)} (h : Ends q q' es)
    (h' : Ends q' q'' es') : Ends q q'' (es ++ es') := by
  refine ⟨?_, fun t time ht => h.kept t time (h'.kept t time ht), ?_, h'.pings.trans h.pings,
    fun hc => h'.counted (h.counted hc)⟩
  · rw [List.map_append, List.append_assoc]
    exact h.keys.trans (h'.keys.append_left _)
  · rw [h'.window, h.window, rtake_append, List.map_append, List.append_assoc]

theorem ends_record {q q' : LinkQuality τ} {t : τ} {outcome : Option ℚ} {d : Dict τ ℚ}
    (hkeys : q.pending.keys.Perm (t :: d.keys))
    (hkept : ∀ t time, d.get? t = some time → q.pending.get? t = some time)
    (hq : q'.window = q.window ∧ q'.windowLost = q.windowLost ∧ q'.pings = q.pings)
    (hd : q'.pending = d) : Ends q (q'.record outcome) [(t, outcome)] := by
  obtain ⟨hwindow, hlost, hpings⟩ := hq
  subst hd
  refine ⟨hkeys, hkept, ?_, hpings, fun hc => Counted.record ⟨?_, ?_⟩ outcome⟩
  · rw [← hwindow]
    rfl
  · rw [hlost, hwindow]
    exact hc.lost
  · rw [hwindow]
    exact hc.size

theorem ends_overtake : ∀ (n : ℕ) {q : LinkQuality τ}, Counted q →
    ∃ es, Ends q (overtake n q) es ∧ q.pending.keys = es.map Prod.fst ++ (overtake n q).pending.keys ∧
      (∀ e ∈ es, e.2 = none) ∧ (q.pending.size ≤ n + maxPending → (overtake n q).pending.size ≤ maxPending)
  | 0, q, hc => ⟨[], Ends.refl hc, rfl, by simp, fun h => h.trans (Nat.zero_add _).le⟩
  | n + 1, q, hc => by
    unfold overtake
    by_cases h : maxPending < q.pending.size
    · rw [if_pos h]
      obtain ⟨e, l, hl⟩ : ∃ e l, q.pending.entries = e :: l :=
        List.exists_cons_of_length_pos (by have : q.pending.size = q.pending.entries.length := rfl; omega)
      have hkeys : q.pending.keys = e.1 :: q.pending.dropFirst.keys := by
        have htail : q.pending.dropFirst.entries = l := by
          show q.pending.entries.tail = l
          rw [hl, List.tail_cons]
        unfold Dict.keys
        rw [htail, hl]
        rfl
      have hone : Ends q (({ q with pending := q.pending.dropFirst } : LinkQuality τ).record none)
          [(e.1, none)] :=
        ends_record (by rw [hkeys]) (fun t time ht => Dict.get?_of_dropFirst ht) ⟨rfl, rfl, rfl⟩ rfl
      obtain ⟨es, hends, horder, hnone, hsize⟩ := ends_overtake n (hone.counted hc)
      refine ⟨(e.1, none) :: es, hone.trans hends, ?_, ?_, fun hle => hsize ?_⟩
      · rw [hkeys, List.map_cons, List.cons_append, ← horder]
        rfl
      · intro e' he'
        rcases List.mem_cons.mp he' with rfl | he'
        · rfl
        · exact hnone e' he'
      · have hfirst : q.pending.dropFirst.size + 1 = q.pending.size := by
          rw [Dict.size_eq, Dict.size_eq, hkeys]
          rfl
        have hsame : (({ q with pending := q.pending.dropFirst } : LinkQuality τ).record none).pending.size =
            q.pending.dropFirst.size := rfl
        omega
    · rw [if_neg h]
      exact ⟨[], Ends.refl hc, rfl, by simp, fun _ => not_lt.mp h⟩

theorem ends_expireFrom (now after : ℚ) : ∀ (l : List (τ × ℚ)) (lost : ℕ) {q : LinkQuality τ},
    Counted q → q.pending.entries = l →
    ∃ es, Ends q (expireFrom now after l lost q).2 es ∧
      q.pending.keys = es.map Prod.fst ++ (expireFrom now after l lost q).2.pending.keys ∧
      ∀ e ∈ es, e.2 = none
  | [], lost, q, hc, hl => ⟨[], Ends.refl hc, rfl, by simp⟩
  | e :: l, lost, q, hc, hl => by
    unfold expireFrom
    by_cases h : now - e.2 ≤ after
    · rw [if_pos h]
      exact ⟨[], Ends.refl hc, rfl, by simp⟩
    · rw [if_neg h]
      have hpop : (q.pending.pop e.1).entries = l := Dict.entries_pop_first hl
      have hkeys : q.pending.keys = e.1 :: (q.pending.pop e.1).keys := by
        unfold Dict.keys
        rw [hpop, hl]
        rfl
      have hone : Ends q (({ q with pending := q.pending.pop e.1 } : LinkQuality τ).record none)
          [(e.1, none)] :=
        ends_record (by rw [hkeys]) (fun t time ht => (Dict.get?_of_pop ht).2) ⟨rfl, rfl, rfl⟩ rfl
      obtain ⟨es, hends, horder, hnone⟩ := ends_expireFrom now after l (lost + 1) (hone.counted hc) hpop
      refine ⟨(e.1, none) :: es, hone.trans hends, ?_, ?_⟩
      · rw [hkeys, List.map_cons, List.cons_append, ← horder]
        rfl
      · intro e' he'
        rcases List.mem_cons.mp he' with rfl | he'
        · rfl
        · exact hnone e' he'

/-- The link with the probe that the operation sends, before any is ended. -/
def begun (q : LinkQuality τ) : Op τ → LinkQuality τ
  | .sent token time => { q.onPing with pending := q.pending.set token time }
  | _ => q

theorem inFlight_eq (q : LinkQuality τ) (op : Op τ) : inFlight q op = (begun q op).pending.keys := by
  cases op <;> rfl

theorem ended_of_front {op : Op τ} {es : List (τ × Option ℚ)}
    (hkeys : (begun q op).pending.keys = es.map Prod.fst ++ (apply q op).pending.keys)
    (hreply : ∀ e ∈ es, e.2 = reply q op) : ended q op = es := by
  have hn := (begun q op).pending.nodup_keys
  rw [hkeys] at hn
  have hfront : (es.map Prod.fst).filter (fun t => decide ((apply q op).pending.get? t = none)) =
      es.map Prod.fst :=
    List.filter_eq_self.mpr fun t ht => decide_eq_true
      (Dict.get?_eq_none.mpr fun hin => (List.nodup_append.mp hn).2.2 t ht t hin rfl)
  have hback : (apply q op).pending.keys.filter
      (fun t => decide ((apply q op).pending.get? t = none)) = [] :=
    List.filter_eq_nil_iff.mpr fun t ht hnone => Dict.get?_eq_none.mp (of_decide_eq_true hnone) ht
  unfold ended
  rw [inFlight_eq, hkeys, List.filter_append, hfront, hback, List.append_nil, List.map_map]
  refine (List.map_congr_left fun e he => ?_).trans (List.map_id es)
  exact Prod.ext rfl (hreply e he).symm

theorem ends_quiet {op : Op τ} (hc : Counted q) (hbegun : q = begun q op)
    (hpending : (apply q op).pending = q.pending) (hwindow : (apply q op).window = q.window)
    (hlost : (apply q op).windowLost = q.windowLost) (hpings : (apply q op).pings = q.pings) :
    Ends (begun q op) (apply q op) (ended q op) := by
  have hnone : ended q op = [] := ended_of_front (by rw [hpending, ← hbegun]; rfl) (by simp)
  rw [hnone, ← hbegun]
  refine ⟨by rw [hpending]; simp, fun t r ht => by rwa [hpending] at ht, ?_, hpings, fun h => ⟨?_, ?_⟩⟩
  · rw [hwindow]
    simp [rtake_of_le hc.size]
  · rw [hlost, hwindow]
    exact h.lost
  · rw [hwindow]
    exact h.size

theorem answered_unknown {token : Option τ} {time clock : ℚ}
    (h : token.bind q.pending.get? = none) : q.answered token time clock = (none, q.onAnswer clock) := by
  cases token with
  | none => rfl
  | some t =>
    rw [Option.bind_some] at h
    simp [answered, h]

theorem answered_known {t : τ} {sentAt time clock : ℚ}
    (h : q.pending.get? t = some sentAt) : q.answered (some t) time clock =
      (some (max 0 (time - sentAt)),
        (({ q with pending := q.pending.pop t } : LinkQuality τ).onPong (max 0 (time - sentAt))
          clock).record (some (max 0 (time - sentAt)))) := by
  simp [answered, h]

theorem ended_answered {t : τ} {sentAt time clock : ℚ}
    (h : q.pending.get? t = some sentAt) :
    ended q (.answered (some t) time clock) = [(t, some (max 0 (time - sentAt)))] := by
  have hpending : (apply q (.answered (some t) time clock)).pending = q.pending.pop t := by
    show (q.answered (some t) time clock).2.pending = q.pending.pop t
    rw [answered_known h]
    rfl
  have hreply : reply q (.answered (some t) time clock) = some (max 0 (time - sentAt)) := by
    show (q.answered (some t) time clock).1 = some (max 0 (time - sentAt))
    rw [answered_known h]
  have hfilter : q.pending.keys.filter (fun k => decide ((q.pending.pop t).get? k = none)) = [t] := by
    have hsame : ∀ k ∈ q.pending.keys,
        decide ((q.pending.pop t).get? k = none) = decide (k = t) := by
      intro k hk
      rw [decide_eq_decide, Dict.get?_eq_none, Dict.mem_keys_pop]
      constructor
      · intro hnot
        by_contra hne
        exact hnot ⟨hk, hne⟩
      · rintro rfl hin
        exact hin.2 rfl
    rw [List.filter_congr hsame, List.filter_eq,
      List.count_eq_one_of_mem q.pending.nodup_keys (Dict.mem_keys_of_get? h)]
    rfl
  unfold ended
  rw [hpending, hreply]
  show (q.pending.keys.filter _).map _ = _
  rw [hfilter]
  rfl

/-- **One operation**: from the link with its probe sent, exactly the probes it ends are resolved. -/
theorem ends_apply (hc : Counted q) (op : Op τ) :
    Ends (begun q op) (apply q op) (ended q op) := by
  cases op with
  | sent token time =>
    have hcount : Counted (begun q (.sent token time)) := ⟨hc.lost, hc.size⟩
    obtain ⟨es, hends, horder, hnone, -⟩ := ends_overtake (q.pending.set token time).size hcount
    rw [ended_of_front horder hnone]
    exact hends
  | answered token time clock =>
    by_cases h : token.bind q.pending.get? = none
    · have happly : apply q (.answered token time clock) = q.onAnswer clock :=
        congrArg Prod.snd (answered_unknown h)
      exact ends_quiet hc rfl (by rw [happly]; rfl) (by rw [happly]; rfl) (by rw [happly]; rfl)
        (by rw [happly]; rfl)
    · obtain ⟨sentAt, hsome⟩ := Option.ne_none_iff_exists'.mp h
      obtain ⟨t, rfl, hget⟩ := Option.bind_eq_some_iff.mp hsome
      have happly : apply q (.answered (some t) time clock) = _ := congrArg Prod.snd (answered_known hget)
      have hkeys : q.pending.keys.Perm (t :: (q.pending.pop t).keys) := by
        have hpop : (q.pending.pop t).keys = q.pending.keys.erase t := by
          rw [Dict.keys_pop, q.pending.nodup_keys.erase_eq_filter]
          exact List.filter_congr fun k _ => by by_cases hk : k = t <;> simp [hk]
        rw [hpop]
        exact List.perm_cons_erase (Dict.mem_keys_of_get? hget)
      rw [ended_answered hget, happly]
      exact ends_record hkeys (fun t time ht => (Dict.get?_of_pop ht).2) ⟨rfl, rfl, rfl⟩ rfl
  | expire now after =>
    obtain ⟨es, hends, horder, hnone⟩ := ends_expireFrom now after q.pending.entries 0 hc rfl
    have hended : ended q (.expire now after) = es := ended_of_front horder hnone
    rw [hended]
    exact hends

theorem size_apply (hc : Counted q) (h : q.pending.size ≤ maxPending) (op : Op τ) :
    (apply q op).pending.size ≤ maxPending := by
  have hends := (ends_apply hc op).keys.length_eq
  rw [List.length_append, ← Dict.size_eq, ← Dict.size_eq] at hends
  cases op with
  | sent token time =>
    have hcount : Counted (begun q (.sent token time)) := ⟨hc.lost, hc.size⟩
    obtain ⟨es, -, -, -, hsize⟩ := ends_overtake (q.pending.set token time).size hcount
    exact hsize (Nat.le_add_right _ _)
  | answered token time clock =>
    have hsame : (begun q (.answered token time clock)).pending.size = q.pending.size := rfl
    omega
  | expire now after =>
    have hsame : (begun q (.expire now after)).pending.size = q.pending.size := rfl
    omega

/-! ### Every run -/

theorem runOps_concat (q : LinkQuality τ) (ops : List (Op τ)) (op : Op τ) :
    runOps q (ops ++ [op]) = apply (runOps q ops) op := by
  simp [runOps]

theorem history_concat : ∀ (ops : List (Op τ)) (q : LinkQuality τ) (op : Op τ),
    history q (ops ++ [op]) = history q ops ++ ended (runOps q ops) op
  | [], q, op => by simp [history, runOps]
  | op' :: ops, q, op => by
    rw [List.cons_append, history, history_concat ops, history, List.append_assoc]
    rfl

omit [DecidableEq τ] in
theorem tokens_concat (ops : List (Op τ)) (op : Op τ) :
    tokens (ops ++ [op]) = tokens ops ++ op.probe.toList := by
  unfold tokens
  rw [List.filterMap_append]
  cases h : op.probe with
  | none | some t => simp [h]

/-- **The books of a run**: `log` are the probes that ended, `q` the link at its end. -/
structure Balanced (ops : List (Op τ)) (log : List (τ × Option ℚ)) (q : LinkQuality τ) : Prop where
  all : (tokens ops).Perm (log.map Prod.fst ++ q.pending.keys)
  times : ∀ t time, q.pending.get? t = some time → .sent t time ∈ ops
  own : ∀ t r, (t, some r) ∈ log → ∃ sentAt time clock, Op.sent t sentAt ∈ ops ∧
    Op.answered (some t) time clock ∈ ops ∧ r = max 0 (time - sentAt)
  pings : q.pings = (tokens ops).length
  size : q.pending.size ≤ maxPending
  window : q.window = (log.map Prod.snd).rtake windowSize
  counted : Counted q

theorem balanced_new (clock : ℚ) : Balanced ([] : List (Op τ)) [] (new clock) :=
  ⟨List.Perm.nil, fun _ _ h => absurd h (by simp [new, Dict.get?, Dict.empty, getL]),
    fun _ _ h => absurd h List.not_mem_nil, rfl, Nat.zero_le _, rfl, ⟨rfl, Nat.zero_le _⟩⟩

theorem balanced_apply {ops : List (Op τ)} {log : List (τ × Option ℚ)}
    (h : Balanced ops log q) (op : Op τ) (hfresh : ∀ t, op.probe = some t → t ∉ tokens ops) :
    Balanced (ops ++ [op]) (log ++ ended q op) (apply q op) := by
  have hends := ends_apply h.counted op
  have hkeys : (begun q op).pending.keys = q.pending.keys ++ op.probe.toList := by
    cases op with
    | sent token time =>
      have hnew : token ∉ q.pending.keys := fun hin =>
        hfresh token rfl (h.all.symm.subset (List.mem_append_right _ hin))
      exact Dict.keys_set_of_notMem hnew time
    | answered token time clock | expire now after => exact (List.append_nil _).symm
  refine ⟨?_, ?_, ?_, ?_, size_apply h.counted h.size op, ?_, hends.counted ⟨?_, ?_⟩⟩
  · rw [tokens_concat, List.map_append, List.append_assoc]
    refine (h.all.append_right _).trans ?_
    rw [List.append_assoc, ← hkeys]
    exact hends.keys.append_left _
  · intro t time ht
    have hbegun := hends.kept t time ht
    rw [List.mem_append, List.mem_singleton]
    cases op with
    | sent token time' =>
      rcases Dict.get?_of_set (show (q.pending.set token time').get? t = some time from hbegun) with
        ⟨rfl, rfl⟩ | ⟨-, hold⟩
      · exact Or.inr rfl
      · exact Or.inl (h.times t time hold)
    | answered token time' clock | expire now after => exact Or.inl (h.times t time hbegun)
  · intro t r hin
    rcases List.mem_append.mp hin with hin | hin
    · obtain ⟨sentAt, time, clock, hsent, hanswered, hr⟩ := h.own t r hin
      exact ⟨sentAt, time, clock, List.mem_append_left _ hsent, List.mem_append_left _ hanswered, hr⟩
    · -- the outcome of this operation: it answered the probe, and the probe was in flight
      obtain ⟨t', -, heq⟩ := List.mem_map.mp hin
      obtain ⟨rfl, hreply⟩ := Prod.mk.inj heq
      cases op with
      | sent token time | expire now after => cases hreply
      | answered token time clock =>
        by_cases hknown : token.bind q.pending.get? = none
        · have : (q.answered token time clock).1 = some r := hreply
          rw [answered_unknown hknown] at this
          cases this
        · obtain ⟨sentAt, hsome⟩ := Option.ne_none_iff_exists'.mp hknown
          obtain ⟨t, rfl, hget⟩ := Option.bind_eq_some_iff.mp hsome
          rw [ended_answered hget, List.mem_singleton] at hin
          obtain ⟨rfl, hr⟩ := Prod.mk.inj hin
          exact ⟨sentAt, time, clock, List.mem_append_left _ (h.times _ _ hget),
            List.mem_append_right _ (List.mem_singleton.mpr rfl), Option.some.inj hr⟩
  · rw [hends.pings, tokens_concat, List.length_append, ← h.pings]
    cases op <;> rfl
  · have hsame : (begun q op).window = q.window := by cases op <;> rfl
    rw [hends.window, hsame, h.window, rtake_append, List.map_append]
  · have hwindow : (begun q op).window = q.window := by cases op <;> rfl
    have hlost : (begun q op).windowLost = q.windowLost := by cases op <;> rfl
    rw [hwindow, hlost]
    exact h.counted.lost
  · have hwindow : (begun q op).window = q.window := by cases op <;> rfl
    rw [hwindow]
    exact h.counted.size

theorem balanced_run (clock : ℚ) (ops : List (Op τ)) (hfresh : (tokens ops).Nodup) :
    Balanced ops (history (new clock) ops) (runOps (new clock) ops) := by
  induction ops using List.reverseRecOn with
  | nil => exact balanced_new clock
  | append_singleton ops op ih =>
    rw [tokens_concat, List.nodup_append] at hfresh
    rw [history_concat, runOps_concat]
    refine balanced_apply (ih hfresh.1) op fun t ht hin => ?_
    exact hfresh.2.2 t hin t (by rw [ht]; exact List.mem_singleton.mpr rfl) rfl

/-- **Every probe is counted once.** Whatever is sent under fresh tokens, answered and expired, at
whatever times: a probe ends at most once, answered with its own round trip or lost; the probes sent are
those matched, those lost and those pending; the two tables are bounded; and the window holds the last
outcomes, its running count of losses their number, so that `recentLoss` is their share. -/
theorem probes_counted_once (clock : ℚ) (ops : List (Op τ)) (hfresh : (tokens ops).Nodup) :
    ((history (new clock) ops).map Prod.fst ++ (runOps (new clock) ops).pending.keys).Nodup ∧
    (tokens ops).Perm
      ((history (new clock) ops).map Prod.fst ++ (runOps (new clock) ops).pending.keys) ∧
    (∀ t r, (t, some r) ∈ history (new clock) ops → ∃ sentAt time clock, Op.sent t sentAt ∈ ops ∧
      Op.answered (some t) time clock ∈ ops ∧ r = max 0 (time - sentAt)) ∧
    (runOps (new clock) ops).pings = (tokens ops).length ∧
    (tokens ops).length =
      ((history (new clock) ops).countP fun e => e.2.isSome) +
      ((history (new clock) ops).countP fun e => e.2.isNone) + (runOps (new clock) ops).pending.size ∧
    (runOps (new clock) ops).pending.size ≤ maxPending ∧
    (runOps (new clock) ops).window = ((history (new clock) ops).map Prod.snd).rtake windowSize ∧
    (runOps (new clock) ops).window.length ≤ windowSize ∧
    (runOps (new clock) ops).windowLost = (runOps (new clock) ops).window.count none ∧
    ∀ minimum : ℤ, (runOps (new clock) ops).recentLoss minimum =
      if ((runOps (new clock) ops).window.length : ℤ) < max 1 minimum then none
      else some (((runOps (new clock) ops).window.count none : ℚ) /
        (runOps (new clock) ops).window.length) := by
  have h := balanced_run clock ops hfresh
  refine ⟨h.all.nodup hfresh, h.all, h.own, h.pings, ?_, h.size, h.window, h.counted.size, h.counted.lost,
    fun minimum => ?_⟩
  · have hlen := h.all.length_eq
    have hparts := List.length_eq_countP_add_countP (fun e : τ × Option ℚ => e.2.isSome)
      (l := history (new clock) ops)
    have hnone : ((history (new clock) ops).countP fun e => !e.2.isSome) =
        (history (new clock) ops).countP fun e => e.2.isNone :=
      List.countP_congr fun e _ => by simp
    rw [List.length_append, List.length_map, ← Dict.size_eq] at hlen
    simp only [decide_not, Bool.decide_eq_true] at hparts
    omega
  · unfold recentLoss
    rw [h.counted.lost]
    rfl

theorem probes_counted_three :
    (tokens [Op.sent 1 0, .sent 2 1, .answered (some 1) 3 3, .answered (some 1) 4 4, .expire 9 5]).length =
      ((history (new 0) [Op.sent 1 0, .sent 2 1, .answered (some 1) 3 3, .answered (some 1) 4 4,
        .expire 9 5]).countP fun e => e.2.isSome) +
      ((history (new 0) [Op.sent 1 0, .sent 2 1, .answered (some 1) 3 3, .answered (some 1) 4 4,
        .expire 9 5]).countP fun e => e.2.isNone) +
      (runOps (new 0) [Op.sent 1 0, .sent 2 1, .answered (some 1) 3 3, .answered (some 1) 4 4,
        .expire 9 5]).pending.size :=
  (probes_counted_once 0 [Op.sent 1 0, .sent 2 1, .answered (some 1) 3 3, .answered (some 1) 4 4,
    .expire 9 5] (by decide)).2.2.2.2.1

end

end NMesh.Link.Quality
