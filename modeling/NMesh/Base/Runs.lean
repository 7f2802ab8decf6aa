import Mathlib.Data.List.Basic

/-! # Runs of a machine

A machine is a function `step` from a state and an action to the next state, a run is a list of actions, and
`Guarded step G s as` holds if every action of `as` is allowed by the guard `G` in the state it is taken in. What
every allowed action preserves holds at the end of every guarded run (`Guarded.run_induct`). -/

namespace NMesh.Base.Runs

variable {σ α : Type} (step : σ → α → σ)

def run (s : σ) (as : List α) : σ := as.foldl step s

/-- Every action is allowed in the state it is taken in. -/
def Guarded (G : σ → α → Prop) : σ → List α → Prop
  | _, [] => True
  | s, a :: as => G s a ∧ Guarded G (step s a) as

instance decidableGuarded (G : σ → α → Prop) [∀ s a, Decidable (G s a)] :
    ∀ (s : σ) (as : List α), Decidable (Guarded step G s as)
  | _, [] => inferInstanceAs (Decidable True)
  | s, a :: as =>
    have := decidableGuarded G (step s a) as
    inferInstanceAs (Decidable (G s a ∧ Guarded step G (step s a) as))

/-- Every action is allowed in the state it is taken in, and the end satisfies `P`. -/
def GuardedTo (G : σ → α → Prop) (P : σ → Prop) : σ → List α → Prop
  | s, [] => P s
  | s, a :: as => G s a ∧ GuardedTo G P (step s a) as

instance decidableGuardedTo (G : σ → α → Prop) (P : σ → Prop) [∀ s a, Decidable (G s a)]
    [∀ s, Decidable (P s)] : ∀ (s : σ) (as : List α), Decidable (GuardedTo step G P s as)
  | s, [] => inferInstanceAs (Decidable (P s))
  | s, a :: as =>
    have := decidableGuardedTo G P (step s a) as
    inferInstanceAs (Decidable (G s a ∧ GuardedTo step G P (step s a) as))

@[simp] theorem run_nil (s : σ) : run step s [] = s := rfl

@[simp] theorem run_cons (s : σ) (a : α) (as : List α) :
    run step s (a :: as) = run step (step s a) as := rfl

theorem run_append (s : σ) (as bs : List α) :
    run step s (as ++ bs) = run step (run step s as) bs := List.foldl_append

theorem run_concat (s : σ) (as : List α) (a : α) :
    run step s (as ++ [a]) = step (run step s as) a := by rw [run_append]; rfl

variable {step} {G : σ → α → Prop}

theorem guarded_append {bs : List α} :
    ∀ {as : List α} {s : σ}, Guarded step G s (as ++ bs) ↔
      Guarded step G s as ∧ Guarded step G (run step s as) bs
  | [], s => by simp [Guarded]
  | a :: as, s => by simp only [List.cons_append, Guarded, run_cons, guarded_append, and_assoc]

theorem guarded_concat {as : List α} {a : α} {s : σ} :
    Guarded step G s (as ++ [a]) ↔ Guarded step G s as ∧ G (run step s as) a := by
  rw [guarded_append]; simp [Guarded]

variable {P : σ → Prop}

theorem guardedTo_iff : ∀ {as : List α} {s : σ},
    GuardedTo step G P s as ↔ Guarded step G s as ∧ P (run step s as)
  | [], s => by simp [Guarded, GuardedTo]
  | a :: as, s => by simp only [Guarded, GuardedTo, run_cons, guardedTo_iff, and_assoc]

variable {G' : σ → α → Prop}

theorem Guarded.mono (hG : ∀ s a, G s a → G' s a) :
    ∀ {as : List α} {s : σ}, Guarded step G s as → Guarded step G' s as
  | [], _, _ => trivial
  | _ :: _, _, h => ⟨hG _ _ h.1, Guarded.mono hG h.2⟩

theorem guarded_congr (hG : ∀ s a, G s a ↔ G' s a) (s : σ) (as : List α) :
    Guarded step G s as ↔ Guarded step G' s as :=
  ⟨Guarded.mono fun s a => (hG s a).mp, Guarded.mono fun s a => (hG s a).mpr⟩

theorem Guarded.and {C : α → Prop} : ∀ {as : List α} {s : σ}, Guarded step G s as → (∀ a ∈ as, C a) →
    Guarded step (fun s a => G s a ∧ C a) s as
  | [], _, _, _ => trivial
  | _ :: _, _, h, hC => ⟨⟨h.1, hC _ List.mem_cons_self⟩,
      h.2.and fun a ha => hC a (List.mem_cons_of_mem _ ha)⟩

/-- **What every allowed action preserves holds after every guarded run.** -/
theorem Guarded.run_induct (hstep : ∀ s a, P s → G s a → P (step s a)) :
    ∀ {as : List α} {s : σ}, P s → Guarded step G s as → P (run step s as)
  | [], _, h0, _ => h0
  | a :: as, s, h0, h => by
    rw [run_cons]
    exact Guarded.run_induct hstep (hstep s a h0 h.1) h.2

theorem run_induct (hstep : ∀ s a, P s → P (step s a)) :
    ∀ (as : List α) {s : σ}, P s → P (run step s as)
  | [], _, h0 => h0
  | a :: as, s, h0 => by
    rw [run_cons]
    exact run_induct hstep as (hstep s a h0)

theorem Guarded.of_invariant
    (hstep : ∀ s a, P s → G s a → P (step s a)) (hG : ∀ s a, P s → G s a → G' s a) :
    ∀ {as : List α} {s : σ}, P s → Guarded step G s as → Guarded step G' s as
  | [], _, _, _ => trivial
  | a :: _, s, h0, h =>
    ⟨hG s a h0 h.1, Guarded.of_invariant hstep hG (hstep s a h0 h.1) h.2⟩

/-! ### Histories -/

section Histories

variable {ε : Type} {P : List ε → ε → Prop}

/-- Every entry of a history stands in the relation `P` to what came before it. -/
def Each (P : List ε → ε → Prop) (log : List ε) : Prop :=
  ∀ pre e post, log = pre ++ e :: post → P pre e

theorem each_nil : Each P [] := fun pre e post h => by simp at h

theorem each_append {log es : List ε} :
    Each P (log ++ es) ↔ Each P log ∧ Each (fun pre e => P (log ++ pre) e) es := by
  constructor
  · intro h
    refine ⟨fun pre e post heq => h pre e (post ++ es) (by rw [heq]; simp), fun pre e post heq => ?_⟩
    exact h (log ++ pre) e post (by rw [heq, List.append_assoc])
  · rintro ⟨hlog, hes⟩ pre e post heq
    rcases List.append_eq_append_iff.mp heq with ⟨mid, rfl, h⟩ | ⟨mid, rfl, h⟩
    · exact hes mid e post h
    · rcases mid with _ | ⟨e', mid⟩
      · simpa using hes [] e post h.symm
      · obtain ⟨rfl, rfl⟩ := List.cons.inj h
        exact hlog pre e mid rfl

theorem each_cons {e : ε} {es : List ε} :
    Each P (e :: es) ↔ P [] e ∧ Each (fun pre => P (e :: pre)) es := by
  constructor
  · intro h
    exact ⟨h [] e es rfl, fun pre e' post heq => h (e :: pre) e' post (by rw [heq]; rfl)⟩
  · rintro ⟨he, hes⟩ pre e' post heq
    rcases pre with _ | ⟨x, pre⟩
    · obtain ⟨rfl, rfl⟩ := List.cons.inj heq
      exact he
    · obtain ⟨rfl, rfl⟩ := List.cons.inj heq
      exact hes pre e' post rfl

end Histories

end NMesh.Base.Runs
