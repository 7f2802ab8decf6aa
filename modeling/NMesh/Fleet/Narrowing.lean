import NMesh.Fleet.Ledger

/-! # Narrowing a grant

A remote operator may give rights up and nothing else. What is asked for is set against the list that is stored, and
what is checked against is more than that list where it holds `full`. So a grant never grows (`allows_narrowings`), and
is narrowed to just what was asked for unless it names `full` and not the rest (`narrow_exactly`). -/

namespace NMesh.Fleet.Narrowing

open Base.Utf8 Base.Ordered Base.JsonText NMesh.Fleet.Ledger NMesh.Fleet.Ledger.FleetState

variable {l : FleetState} {key k : Text} {cap : Cap} {caps : List Cap}

/-- `set_operator_caps` of a remote operator. -/
def narrow (l : FleetState) (key : Text) (caps : List Cap) : FleetState := (l.setOperatorCaps key caps true).2

/-- **Narrowing asks too much of the stored list**: `full` stands in it, something that is asked for does not or is
`full` itself, and not everything is asked for. -/
def Misread (held caps : List Cap) : Prop :=
  Cap.full ∈ held ∧ (Cap.full ∈ caps ∨ ∃ cap ∈ caps, cap ∉ held) ∧ ∃ cap, cap ∉ caps

variable {entry : Operator}

theorem allows_narrow (h : l.operators.get? key = some entry) : (narrow l key caps).allows key cap = true ↔
      (Cap.full ∈ caps ∧ Cap.full ∈ entry.caps) ∨ cap ∈ caps ∧ cap ∈ entry.caps := by
  have hmem : ∀ cap, cap ∈ newCaps entry.caps caps true ↔ cap ∈ caps ∧ cap ∈ entry.caps := by
    intro cap
    show cap ∈ (clean caps).filter (· ∈ entry.caps) ↔ _
    rw [List.mem_filter, mem_clean, decide_eq_true_iff]
  unfold narrow
  rw [allows_setOperatorCaps, if_pos rfl]
  constructor
  · rintro ⟨e, he, hcap⟩
    obtain rfl := Option.mem_unique h he
    rwa [mem_effective, hmem, hmem] at hcap
  · intro hcap
    exact ⟨entry, h, by rwa [mem_effective, hmem, hmem]⟩

theorem narrow_drops (h : l.operators.get? key = some entry)
    (hnone : ∀ cap ∈ caps, l.allows key cap = false) : (narrow l key caps).operators.get? key = none := by
  have hempty : newCaps entry.caps caps true = [] := by
    refine List.filter_eq_nil_iff.mpr fun cap hcap hheld => ?_
    have hallowed : l.allows key cap = true :=
      allows_iff.mpr ⟨entry, h, mem_effective.mpr (.inr (of_decide_eq_true hheld))⟩
    rw [hnone cap (mem_clean.mp hcap)] at hallowed
    cases hallowed
  have hpop : narrow l key caps = { l with operators := l.operators.pop key } := by
    unfold narrow setOperatorCaps
    rw [h]
    exact congrArg Prod.snd (if_pos hempty)
  rw [hpop]
  exact Dict.get?_pop_self _ _

/-- **A grant is narrowed to what was asked for** exactly if the stored list is not misread. -/
theorem narrow_exactly_iff (h : l.operators.get? key = some entry) :
    (∀ cap, (narrow l key caps).allows key cap = true ↔ cap ∈ caps ∧ l.allows key cap = true) ↔
      ¬ Misread entry.caps caps := by
  have hbefore : ∀ cap, l.allows key cap = true ↔ Cap.full ∈ entry.caps ∨ cap ∈ entry.caps := by
    intro cap
    rw [allows_iff]
    constructor
    · rintro ⟨e, he, hcap⟩
      obtain rfl := Option.mem_unique h he
      exact mem_effective.mp hcap
    · exact fun hcap => ⟨entry, h, mem_effective.mpr hcap⟩
  constructor
  · rintro hexact ⟨hfull, hasked, cap, hcap⟩
    rcases hasked with hasked | ⟨cap', hcap', hheld⟩
    · exact hcap ((hexact cap).mp ((allows_narrow h).mpr (.inl ⟨hasked, hfull⟩))).1
    · rcases (allows_narrow h).mp ((hexact cap').mpr ⟨hcap', (hbefore cap').mpr (.inl hfull)⟩) with hboth | hboth
      · exact hcap ((hexact cap).mp ((allows_narrow h).mpr (.inl hboth))).1
      · exact hheld hboth.2
  · intro hread cap
    rw [allows_narrow h, hbefore]
    constructor
    · rintro (⟨hasked, hfull⟩ | ⟨hcap, hheld⟩)
      · refine ⟨?_, .inl hfull⟩
        by_contra hcap
        exact hread ⟨hfull, .inl hasked, cap, hcap⟩
      · exact ⟨hcap, .inr hheld⟩
    · rintro ⟨hcap, hfull | hheld⟩
      · by_cases hheld : cap ∈ entry.caps
        · exact .inr ⟨hcap, hheld⟩
        · by_cases hasked : Cap.full ∈ caps
          · exact .inl ⟨hasked, hfull⟩
          · exact absurd ⟨hfull, .inr ⟨cap, hcap, hheld⟩, Cap.full, hasked⟩ hread
      · exact .inr ⟨hcap, hheld⟩

theorem allows_narrowings : ∀ {calls : List (Text × List Cap)} {l : FleetState},
    (calls.foldl (fun l call => narrow l call.1 call.2) l).allows k cap = true → l.allows k cap = true
  | [], _, h => h
  | _ :: _, _, h => allows_of_narrow (allows_narrowings h)

/-- `set_operator_caps` with `narrow_only`, of what stands in a frame; `none` where `clean_caps` raises. -/
def narrowTo (l : FleetState) (key : Text) (raw : Option Json) : Option FleetState :=
  (cleanCaps raw).map (narrow l key)

/-- **What a narrowing comes to.** The operator may do exactly what was asked for and allowed before, unless the stored
list is misread; with nothing of it the operator goes; and no narrowings add a right to anybody. -/
theorem narrow_exactly {raw : Option Json} (hraw : cleanCaps raw = some caps) {entry : Operator}
    (h : l.operators.get? key = some entry) :
    ∃ l', narrowTo l key raw = some l' ∧
      ((∀ cap, l'.allows key cap = true ↔ cap ∈ caps ∧ l.allows key cap = true) ↔ ¬ Misread entry.caps caps) ∧
      ((∀ cap ∈ caps, l.allows key cap = false) → l'.operators.get? key = none) ∧
      (∀ k, k ≠ key → ∀ cap, l'.allows k cap = l.allows k cap) ∧
      ∀ (calls : List (Text × List Cap)) (k : Text) (cap : Cap),
        (calls.foldl (fun l call => narrow l call.1 call.2) l').allows k cap = true → l.allows k cap = true := by
  refine ⟨narrow l key caps, congrArg _ hraw, narrow_exactly_iff h, narrow_drops h, fun k hk cap => ?_,
    fun calls k cap hafter => allows_of_narrow (allows_narrowings hafter)⟩
  rw [Bool.eq_iff_iff]
  unfold narrow
  rw [allows_setOperatorCaps, if_neg (Ne.symm hk)]

def helper : FleetState := ⟨⟨[(ascii "op", ⟨[1], [.status, .links], [], []⟩)], by simp⟩, .empty, .empty, .empty, .empty⟩

theorem narrow_exactly_helper : ∃ l', narrowTo helper (ascii "op") (some (.arr [.str (ascii "links")])) = some l' ∧
    ∀ cap, l'.allows (ascii "op") cap = true ↔ cap ∈ [Cap.links] ∧ helper.allows (ascii "op") cap = true := by
  have hraw : cleanCaps (some (.arr [.str (ascii "links")])) = some [Cap.links] := by decide
  have hentry : helper.operators.get? (ascii "op") = some ⟨[1], [.status, .links], [], []⟩ := rfl
  obtain ⟨l', hl', hexact, -⟩ := narrow_exactly hraw hentry
  exact ⟨l', hl', hexact.mpr fun hmisread => absurd hmisread.1 (by decide)⟩

def trusted : FleetState := ⟨⟨[(ascii "op", ⟨[1], [.full], [], []⟩)], by simp⟩, .empty, .empty, .empty, .empty⟩

/-- The operator asks to keep one right of all, and is dropped. -/
theorem trusted_dropped : trusted.allows (ascii "op") .links = true ∧
    (narrow trusted (ascii "op") [.links]).allows (ascii "op") .links = false ∧
    (narrow trusted (ascii "op") [.links]).operators.get? (ascii "op") = none := by
  decide

end NMesh.Fleet.Narrowing
