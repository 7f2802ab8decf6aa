import NMesh.Base.Ordered
import NMesh.Base.Runs
import Mathlib.Data.Rat.Defs
import Mathlib.Algebra.Order.Ring.Rat
import Mathlib.Tactic.Linarith

/-! # The first hop a routed identity keeps

`routeLead` picks the first hop for a target among its measured paths and keeps it for `hold` seconds. A run is
calls for any targets, each with the paths as they measure then and the links there are. `observe` keeps what a
caller sees: the hop returned last for each target, and since when. As long as the lead of a target is not evicted
by those of others, a hop that delivers is left only when it was held (`route_held`). -/

namespace NMesh.Routed.Lead

open Base.Ordered Base.Runs

variable {ν : Type} [DecidableEq ν]

/-- `_LOSS_RESCUE_SHARE` -/
def lossRescueShare : ℚ := 1 / 5

/-- `_ROUTE_LEADS_TRACKED` -/
def routeLeadsTracked : ℕ := 256

/-- A path to a target, as it measures. -/
structure Path (ν : Type) where
  via : ν
  unproven : Bool
  loss : Option ℚ
  recentMs : Option ℚ
  dead : Bool

/-- `rank p ≤ rank q` of `PathBook.paths`: proven first, then by loss, then by round trip, unmeasured last. -/
def Path.before (p q : Path ν) : Bool :=
  if p.unproven ≠ q.unproven then q.unproven
  else if p.loss.getD 1 ≠ q.loss.getD 1 then decide (p.loss.getD 1 < q.loss.getD 1)
  else q.recentMs.elim true fun ms => p.recentMs.elim false fun ms' => decide (ms' ≤ ms)

/-- `PathBook.live`: the paths that have not given up, best first. -/
def live (book : List (Path ν)) : List (Path ν) := (book.mergeSort Path.before).filter fun p => !p.dead

/-- A call: the target, the time, the paths to the target and the nodes we have a link to. -/
structure Call (ν : Type) where
  target : ν
  stamp : ℚ
  book : List (Path ν)
  linked : ν → Bool

def Call.usable (call : Call ν) : List (Path ν) := (live call.book).filter fun p => call.linked p.via

def Path.healthy (p : Path ν) : Bool := decide (p.loss.getD 0 ≤ lossRescueShare)

abbrev Leads (ν : Type) := Dict ν (ν × ℚ)

/-- `_lead_through` -/
def leadThrough (target via : ν) (now : ℚ) (leads : Leads ν) : Option ν × Leads ν :=
  let leads := (leads.pop target).set target (via, now)
  (some via, Dict.makeRoom (routeLeadsTracked + 1) leads.size leads)

/-- `_route_lead`, with paths to use, the best of which is `first`. -/
def leadAmong (hold : ℚ) (call : Call ν) (first : Path ν) (leads : Leads ν) : Option ν × Leads ν :=
  let healthy := call.usable.filter Path.healthy
  let pick := (healthy.head?.getD first).via
  match leads.get? call.target with
  | none => leadThrough call.target pick call.stamp leads
  | some (via, since) =>
    if healthy.any fun p => decide (p.via = via) then
      if call.stamp - since < hold then (some via, leads)
      else
        match healthy.find? fun p => decide (p.via ≠ via) with
        | none => (some via, leads.set call.target (via, call.stamp))
        | some other => leadThrough call.target other.via call.stamp leads
    else leadThrough call.target pick call.stamp leads

/-- `_route_lead` -/
def routeLead (hold : ℚ) (call : Call ν) (leads : Leads ν) : Option ν × Leads ν :=
  if hold ≤ 0 then (none, leads)
  else
    match call.usable with
    | [] => (none, leads.pop call.target)
    | first :: _ => leadAmong hold call first leads

/-! ### Calls one after another -/

/-- The leads, and for each target the hop that was returned last and since when. -/
structure World (ν : Type) where
  leads : Leads ν
  seen : ν → Option (ν × ℚ)

/-- What a caller has seen of a target after a call returned `hop`. -/
def observe (stamp : ℚ) (hop : Option ν) (seen : Option (ν × ℚ)) : Option (ν × ℚ) :=
  hop.map fun via => if seen.map Prod.fst = some via then (via, (seen.map Prod.snd).getD stamp) else (via, stamp)

def step (hold : ℚ) (w : World ν) (call : Call ν) : World ν :=
  ⟨(routeLead hold call w.leads).2, Function.update w.seen call.target
    (observe call.stamp (routeLead hold call w.leads).1 (w.seen call.target))⟩

def start : World ν := ⟨Dict.empty, fun _ => none⟩

/-- The call leaves the lead of the target in the table, if it has one. -/
def NotEvicted (hold : ℚ) (target : ν) (w : World ν) (call : Call ν) : Prop :=
  ((step hold w call).seen target).isSome → target ∈ (step hold w call).leads.keys

def Forward (calls : List (Call ν)) : Prop := calls.Pairwise fun call later => call.stamp ≤ later.stamp

/-- **What a call returns**: a hop of a usable path, and of a healthy one if there is any; and a hop that is still
healthy is left for another healthy one, after the hold. -/
def Good (hold : ℚ) (w : World ν) (call : Call ν) : Prop :=
  ∀ via, (routeLead hold call w.leads).1 = some via →
    (∃ p ∈ call.usable, p.via = via ∧ ((∃ q ∈ call.usable, q.healthy) → p.healthy)) ∧
    ∀ old since, w.seen call.target = some (old, since) → old ≠ via →
      (∃ p ∈ call.usable, p.via = old ∧ p.healthy) →
      hold ≤ call.stamp - since ∧ ∃ p ∈ call.usable, p.healthy ∧ p.via ≠ old

/-- The lead of a target is the hop returned last, and not held for longer than it was returned. -/
def Inv (target : ν) (now : ℚ) (w : World ν) : Prop :=
  ((w.seen target).isSome → target ∈ w.leads.keys) ∧
    ∀ lead, w.leads.get? target = some lead →
      ∃ since, w.seen target = some (lead.1, since) ∧ since ≤ lead.2 ∧ lead.2 ≤ now

/-! ### One call -/

variable {hold now : ℚ} {call : Call ν} {leads : Leads ν} {target via : ν} {lead : ν × ℚ} {w : World ν}

theorem get?_leadThrough (h : (leadThrough target via now leads).2.get? target = some lead) : lead = (via, now) := by
  have hset := Dict.get?_of_makeRoom h
  rw [Dict.get?_set_self] at hset
  exact (Option.some.inj hset).symm

omit [DecidableEq ν] in
theorem pick_spec {first : Path ν} {rest : List (Path ν)} (h : call.usable = first :: rest) :
    ∃ p ∈ call.usable, p.via = (((call.usable.filter Path.healthy).head?.getD first).via) ∧
      ((∃ q ∈ call.usable, q.healthy) → p.healthy) := by
  cases hhealthy : call.usable.filter Path.healthy with
  | nil =>
    refine ⟨first, by rw [h]; exact List.mem_cons_self, rfl, ?_⟩
    rintro ⟨q, hq, hok⟩
    have hmem := List.mem_filter.mpr ⟨hq, hok⟩
    rw [hhealthy] at hmem
    cases hmem
  | cons p ps =>
    have hmem : p ∈ call.usable.filter Path.healthy := by
      rw [hhealthy]
      exact List.mem_cons_self
    obtain ⟨hp, hok⟩ := List.mem_filter.mp hmem
    exact ⟨p, hp, rfl, fun _ => hok⟩

theorem routeLead_eq (hpos : 0 < hold) (call : Call ν) (leads : Leads ν) :
    routeLead hold call leads = (none, leads.pop call.target) ∨ ∃ first rest, call.usable = first :: rest ∧
      routeLead hold call leads = leadAmong hold call first leads := by
  unfold routeLead
  rw [if_neg (not_le.mpr hpos)]
  cases call.usable with
  | nil => exact Or.inl rfl
  | cons first rest => exact Or.inr ⟨first, rest, rfl, rfl⟩

/-- **What a call does**: it lets go of the target, or returns a hop, which is its lead then. -/
theorem routeLead_cases (hpos : 0 < hold) (call : Call ν) (leads : Leads ν) :
    routeLead hold call leads = (none, leads.pop call.target) ∨
    ∃ via, (routeLead hold call leads).1 = some via ∧
      (∃ p ∈ call.usable, p.via = via ∧ ((∃ q ∈ call.usable, q.healthy) → p.healthy)) ∧
      (∀ lead, (routeLead hold call leads).2.get? call.target = some lead →
        lead.1 = via ∧ (lead.2 = call.stamp ∨ leads.get? call.target = some lead)) ∧
      ∀ old since, leads.get? call.target = some (old, since) → old ≠ via →
        (∃ p ∈ call.usable, p.via = old ∧ p.healthy) →
        hold ≤ call.stamp - since ∧ ∃ p ∈ call.usable, p.healthy ∧ p.via ≠ old := by
  have hthrough : ∀ {via : ν} {lead : ν × ℚ}, (leadThrough call.target via call.stamp leads).2.get? call.target =
      some lead → lead.1 = via ∧ (lead.2 = call.stamp ∨ leads.get? call.target = some lead) := by
    intro via lead h
    rw [get?_leadThrough h]
    exact ⟨rfl, Or.inl rfl⟩
  rcases routeLead_eq hpos call leads with heq | ⟨first, rest, husable, heq⟩
  · exact Or.inl heq
  refine Or.inr ?_
  have hpick := pick_spec husable
  rw [heq]
  unfold leadAmong
  cases hheld : leads.get? call.target with
  | none => exact ⟨_, rfl, hpick, fun lead h => hheld ▸ hthrough h, fun old since h => by cases h⟩
  | some held =>
    obtain ⟨via, since⟩ := held
    dsimp only
    split_ifs with hany hfresh
    · -- held, and not for long enough
      obtain ⟨p, hp, hvia⟩ := List.any_eq_true.mp hany
      obtain ⟨hp, hok⟩ := List.mem_filter.mp hp
      refine ⟨via, rfl, ⟨p, hp, of_decide_eq_true hvia, fun _ => hok⟩, fun lead h => ?_, fun old since' h hne => ?_⟩
      · rw [hheld] at h
        cases h
        exact ⟨rfl, Or.inr rfl⟩
      · cases h
        exact absurd rfl hne
    · cases hother : (call.usable.filter Path.healthy).find? fun p => decide (p.via ≠ via) with
      | none =>
        obtain ⟨p, hp, hvia⟩ := List.any_eq_true.mp hany
        obtain ⟨hp, hok⟩ := List.mem_filter.mp hp
        refine ⟨via, rfl, ⟨p, hp, of_decide_eq_true hvia, fun _ => hok⟩, fun lead h => ?_,
          fun old since' h hne => ?_⟩
        · dsimp only at h
          rw [Dict.get?_set_self] at h
          cases h
          exact ⟨rfl, Or.inl rfl⟩
        · cases h
          exact absurd rfl hne
      | some other =>
        obtain ⟨hother', hok⟩ := List.mem_filter.mp (List.mem_of_find?_eq_some hother)
        have hne : other.via ≠ via := by simpa using List.find?_some hother
        refine ⟨other.via, rfl, ⟨other, hother', rfl, fun _ => hok⟩, fun lead h => hheld ▸ hthrough h,
          fun old since' h _ _ => ?_⟩
        cases h
        exact ⟨not_lt.mp hfresh, other, hother', hok, hne⟩
    · refine ⟨_, rfl, hpick, fun lead h => hheld ▸ hthrough h, fun old since' h _ hold' => ?_⟩
      -- the lead is not healthy
      cases h
      obtain ⟨p, hp, hvia, hok⟩ := hold'
      exact absurd (List.any_eq_true.mpr ⟨p, List.mem_filter.mpr ⟨hp, hok⟩, decide_eq_true hvia⟩) hany

/-- A call for another target leaves a lead as it is, or evicts it. -/
theorem get?_routeLead_of_ne (hpos : 0 < hold) (hne : target ≠ call.target)
    (h : (routeLead hold call leads).2.get? target = some lead) : leads.get? target = some lead := by
  have hthrough : ∀ {via : ν}, (leadThrough call.target via call.stamp leads).2.get? target = some lead →
      leads.get? target = some lead := by
    intro via h
    have hset := Dict.get?_of_makeRoom h
    rw [Dict.get?_set_of_ne _ hne.symm] at hset
    exact (Dict.get?_of_pop hset).2
  rcases routeLead_eq hpos call leads with heq | ⟨first, rest, -, heq⟩
  · rw [heq] at h
    exact (Dict.get?_of_pop h).2
  rw [heq] at h
  unfold leadAmong at h
  cases hheld : leads.get? call.target with
  | none =>
    rw [hheld] at h
    exact hthrough h
  | some held =>
    rw [hheld] at h
    dsimp only at h
    split_ifs at h
    · exact h
    · revert h
      cases (call.usable.filter Path.healthy).find? fun p => decide (p.via ≠ held.1) with
      | none =>
        intro h
        rwa [Dict.get?_set_of_ne _ hne.symm] at h
      | some other => exact hthrough
    · exact hthrough h

/-! ### A run -/

theorem inv_step (hpos : 0 < hold) (hw : Inv target now w) (hnow : now ≤ call.stamp)
    (hG : NotEvicted hold target w call) : Inv target call.stamp (step hold w call) := by
  obtain ⟨hkey, hlead⟩ := hw
  refine ⟨hG, fun lead h => ?_⟩
  by_cases htarget : target = call.target
  · subst htarget
    have hseen : (step hold w call).seen call.target =
        observe call.stamp (routeLead hold call w.leads).1 (w.seen call.target) := Function.update_self _ _ _
    rw [hseen]
    rcases routeLead_cases hpos call w.leads with heq | ⟨via, hvia, -, hafter, -⟩
    · have h : (routeLead hold call w.leads).2.get? call.target = some lead := h
      rw [heq, Dict.get?_pop_self] at h
      cases h
    · obtain ⟨hfirst, hsince⟩ := hafter lead h
      unfold observe
      rw [hvia, Option.map_some, hfirst]
      split_ifs with hsame
      · -- the hop is the one of before
        obtain ⟨⟨old, since⟩, hold', hfst⟩ := Option.map_eq_some_iff.mp hsame
        obtain ⟨before, hbefore⟩ := Dict.mem_keys.mp (hkey (by rw [hold']; rfl))
        obtain ⟨since', hsame', hle, hle'⟩ := hlead before hbefore
        rw [hold'] at hsame' ⊢
        obtain ⟨-, rfl⟩ := Prod.mk.inj (Option.some.inj hsame')
        refine ⟨since, rfl, ?_, ?_⟩
        · rcases hsince with hsince | hsince
          · rw [hsince]
            linarith
          · obtain rfl := Option.mem_unique hbefore hsince
            exact hle
        · rcases hsince with hsince | hsince
          · exact hsince.le
          · obtain rfl := Option.mem_unique hbefore hsince
            linarith
      · rcases hsince with hsince | hsince
        · exact ⟨call.stamp, rfl, hsince.ge, hsince.le⟩
        · obtain ⟨since', hsame', -⟩ := hlead lead hsince
          rw [hsame', hfirst] at hsame
          exact absurd rfl hsame
  · obtain ⟨since, hsame, hle, hle'⟩ := hlead lead (get?_routeLead_of_ne hpos htarget h)
    refine ⟨since, ?_, hle, hle'.trans hnow⟩
    exact (Function.update_of_ne htarget _ _).trans hsame

theorem inv_run (hpos : 0 < hold) : ∀ {calls : List (Call ν)} {w : World ν} {now : ℚ}, Inv target now w →
    (∀ call ∈ calls, now ≤ call.stamp) → Forward calls → Guarded (step hold) (NotEvicted hold target) w calls →
    ∃ now', Inv target now' (run (step hold) w calls)
  | [], w, now, hw, _, _, _ => ⟨now, hw⟩
  | call :: calls, w, now, hw, hnow, hforward, hG => by
    obtain ⟨hfirst, hrest⟩ := List.pairwise_cons.mp hforward
    have hstep := inv_step hpos hw (hnow call List.mem_cons_self) hG.1
    rw [run_cons]
    exact inv_run hpos hstep hfirst hrest hG.2

theorem inv_start (target : ν) (now : ℚ) : Inv target now start := by
  refine ⟨fun h => (by cases h), fun lead h => ?_⟩
  cases h

/-- **A held route is held, and a bad hop is left.** -/
theorem route_held (hpos : 0 < hold) {calls : List (Call ν)} (hforward : Forward calls)
    (hG : Guarded (step hold) (NotEvicted hold call.target) start calls) :
    Good hold (run (step hold) start calls) call := by
  have hinv : ∃ now, Inv call.target now (run (step hold) start calls) := by
    cases calls with
    | nil => exact ⟨0, inv_start _ _⟩
    | cons first rest =>
      refine inv_run hpos (inv_start call.target first.stamp) (fun c hc => ?_) hforward hG
      rcases List.mem_cons.mp hc with rfl | hc
      · exact le_rfl
      · exact (List.pairwise_cons.mp hforward).1 c hc
  obtain ⟨now, hkey, hlead⟩ := hinv
  intro via hvia
  rcases routeLead_cases hpos call (run (step hold) start calls).leads with heq | ⟨via', hvia', hpick, -, hleft⟩
  · rw [heq] at hvia
    cases hvia
  obtain rfl := Option.mem_unique hvia hvia'
  refine ⟨hpick, fun old since hseen hne hstill => ?_⟩
  obtain ⟨⟨hop, chosen⟩, hget⟩ := Dict.mem_keys.mp (hkey (by rw [hseen]; rfl))
  obtain ⟨since', hsame, hle, -⟩ := hlead _ hget
  obtain ⟨rfl, rfl⟩ := Prod.mk.inj (Option.mem_unique hseen hsame)
  obtain ⟨hheld, hother⟩ := hleft _ chosen hget hne hstill
  exact ⟨by linarith, hother⟩

/-! ### A route -/

def through (stamp : ℚ) : Call ℕ := ⟨1, stamp, [⟨2, false, some 0, some 1, false⟩], fun _ => true⟩

theorem usable_through (stamp : ℚ) : (through stamp).usable = [⟨2, false, some 0, some 1, false⟩] := by
  simp [Call.usable, live, through]

theorem route_held_through : Good 600 (run (step 600) start [through 0]) (through 700) := by
  refine route_held (by norm_num) (List.pairwise_singleton _ _) ⟨fun _ => ?_, trivial⟩
  show 1 ∈ (routeLead 600 (through 0) Dict.empty).2.keys
  unfold routeLead
  rw [usable_through]
  decide

end NMesh.Routed.Lead
