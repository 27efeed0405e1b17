import Mathlib.Data.List.Basic

/-!
# Machines and their runs

A machine takes a step on an action, or refuses it; a step passes moments. A
`Run` collects the moments of its steps, oldest first, and takes an action in a
state only if `ok` allows it: `ok` states what a run assumes of its
surroundings. `Run.inv` proves an invariant over the history and the state,
`Run.inv_moments` one over the states and each moment. `Reaches` is about the runs there are:
a state that satisfies `P` can be reached.
-/

namespace Machine

variable {σ α μ : Type}

inductive Run (step : σ → α → Option (List μ × σ)) (ok : σ → α → Prop) (s₀ : σ) :
    List μ → σ → Prop
  | start : Run step ok s₀ [] s₀
  | step {hist s a ms s'} : Run step ok s₀ hist s → ok s a → step s a = some (ms, s') →
      Run step ok s₀ (hist ++ ms) s'

variable {step : σ → α → Option (List μ × σ)} {ok ok' : σ → α → Prop} {s₀ s : σ} {hist : List μ}

theorem Run.inv {I : List μ → σ → Prop} (h : Run step ok s₀ hist s) (h₀ : I [] s₀)
    (hs : ∀ hist s a ms s', I hist s → ok s a → step s a = some (ms, s') → I (hist ++ ms) s') :
    I hist s := by
  induction h with
  | start => exact h₀
  | step _ ha hst ih => exact hs _ _ _ _ _ ih ha hst

theorem Run.inv_moments {I : σ → Prop} {J : μ → Prop} (h : Run step ok s₀ hist s) (h₀ : I s₀)
    (hs : ∀ s a ms s', I s → ok s a → step s a = some (ms, s') → I s' ∧ ∀ m ∈ ms, J m) :
    I s ∧ ∀ m ∈ hist, J m := by
  refine h.inv (I := fun hist s => I s ∧ ∀ m ∈ hist, J m) ⟨h₀, by simp⟩ ?_
  intro hist s a ms s' ⟨hi, hj⟩ ha hst
  obtain ⟨hi', hj'⟩ := hs s a ms s' hi ha hst
  refine ⟨hi', fun m hm => ?_⟩
  rcases List.mem_append.mp hm with hm | hm
  · exact hj m hm
  · exact hj' m hm

theorem Run.mono (h : Run step ok s₀ hist s) (hok : ∀ s a, ok s a → ok' s a) :
    Run step ok' s₀ hist s := by
  induction h with
  | start => exact .start
  | step _ ha hst ih => exact ih.step (hok _ _ ha) hst

/-- An invariant may help to see that an action is allowed. -/
theorem Run.mono_inv {I : σ → Prop} (h : Run step ok s₀ hist s) (h₀ : I s₀)
    (hI : ∀ s a ms s', I s → ok s a → step s a = some (ms, s') → I s')
    (hok : ∀ s a ms s', I s → ok s a → step s a = some (ms, s') → ok' s a) :
    Run step ok' s₀ hist s ∧ I s := by
  induction h with
  | start => exact ⟨.start, h₀⟩
  | step _ ha hst ih => exact ⟨ih.1.step (hok _ _ _ _ ih.2 ha hst) hst, hI _ _ _ _ ih.2 ha hst⟩

/-- One run after the other. -/
theorem Run.trans {hist' : List μ} {s' : σ} (h : Run step ok s₀ hist s)
    (h' : Run step ok s hist' s') : Run step ok s₀ (hist ++ hist') s' := by
  induction h' with
  | start => rwa [List.append_nil]
  | step _ ha hst ih => rw [← List.append_assoc]; exact ih.step ha hst

/-- A simulation: what one machine does in a step, another can do in some steps. -/
theorem Run.simulate {τ β : Type} {step' : τ → β → Option (List μ × τ)} {ok' : τ → β → Prop}
    {R : σ → τ → Prop} {t₀ : τ} (h : Run step ok s₀ hist s) (h₀ : R s₀ t₀)
    (hs : ∀ s t a ms s', R s t → ok s a → step s a = some (ms, s') →
      ∃ t', Run step' ok' t ms t' ∧ R s' t') :
    ∃ t, Run step' ok' t₀ hist t ∧ R s t := by
  induction h with
  | start => exact ⟨t₀, .start, h₀⟩
  | step _ ha hst ih =>
    obtain ⟨t, ht, hr⟩ := ih
    obtain ⟨t', ht', hr'⟩ := hs _ _ _ _ _ hr ha hst
    exact ⟨t', ht.trans ht', hr'⟩

/-! ## What can be reached -/

/-- Some run from `s` ends in a state that satisfies `P`. -/
def Reaches (step : σ → α → Option (List μ × σ)) (ok : σ → α → Prop) (s : σ) (P : σ → Prop) : Prop :=
  ∃ hist s', Run step ok s hist s' ∧ P s'

theorem Reaches.here {P : σ → Prop} (h : P s) : Reaches step ok s P := ⟨[], s, .start, h⟩

theorem Reaches.after {P : σ → Prop} {s' : σ} (h : Run step ok s hist s')
    (h' : Reaches step ok s' P) : Reaches step ok s P := by
  obtain ⟨hist', s'', hr, hp⟩ := h'
  exact ⟨hist ++ hist', s'', h.trans hr, hp⟩

theorem Reaches.move {P : σ → Prop} {a : α} {ms : List μ} {s' : σ} (ha : ok s a)
    (hs : step s a = some (ms, s')) (h : Reaches step ok s' P) : Reaches step ok s P :=
  h.after (Run.start.step ha hs)

/-! ## Executing actions -/

/-- The run of a list of actions, if none is refused. -/
def exec (step : σ → α → Option (List μ × σ)) (s : σ) : List α → Option (List μ × σ)
  | [] => some ([], s)
  | a :: as =>
    match step s a with
    | none => none
    | some (ms, s') => (exec step s' as).map fun r => (ms ++ r.1, r.2)

/-- Whether every action of a list is allowed where it is taken. -/
def allows (step : σ → α → Option (List μ × σ)) (ok : σ → α → Prop) [∀ s a, Decidable (ok s a)]
    (s : σ) : List α → Bool
  | [] => true
  | a :: as => decide (ok s a) && (step s a).all fun r => allows step ok r.2 as

theorem exec_run_mem [∀ s a, Decidable (ok s a)] {as : List α} {r : List μ × σ}
    (h : exec step s as = some r) (hok : allows step ok s as = true) :
    Run step (fun s a => ok s a ∧ a ∈ as) s r.1 r.2 := by
  induction as generalizing s r with
  | nil => cases h; exact .start
  | cons a as ih =>
    unfold exec at h
    simp only [allows, Bool.and_eq_true, decide_eq_true_eq] at hok
    split at h
    · cases h
    · next ms s' hst =>
      obtain ⟨r', hr', rfl⟩ := Option.map_eq_some_iff.mp h
      have h1 : Run step (fun s b => ok s b ∧ b ∈ a :: as) s ([] ++ ms) s' :=
        Run.start.step ⟨hok.1, List.mem_cons_self⟩ hst
      rw [hst] at hok
      exact h1.trans ((ih hr' hok.2).mono fun _ _ hb => ⟨hb.1, List.mem_cons_of_mem _ hb.2⟩)

theorem exec_run_of_allows [∀ s a, Decidable (ok s a)] {as : List α} {r : List μ × σ}
    (h : exec step s as = some r) (hok : allows step ok s as = true) : Run step ok s r.1 r.2 :=
  (exec_run_mem h hok).mono fun _ _ ha => ha.1

/-- An executed list of allowed actions is a run. -/
theorem exec_run {as : List α} {r : List μ × σ} (h : exec step s as = some r)
    (hok : ∀ a ∈ as, ∀ s r, step s a = some r → ok s a) : Run step ok s r.1 r.2 := by
  induction as generalizing s r with
  | nil => cases h; exact .start
  | cons a as ih =>
    unfold exec at h
    split at h
    · cases h
    · next ms s' hst =>
      obtain ⟨r', hr', rfl⟩ := Option.map_eq_some_iff.mp h
      have h1 : Run step ok s ([] ++ ms) s' := Run.start.step (hok a List.mem_cons_self s _ hst) hst
      exact h1.trans (ih hr' fun b hb => hok b (List.mem_cons_of_mem _ hb))

end Machine
