import Mathlib.Order.WellFounded

/-!
# Inevitability

`Inevitably step P s`: whatever choices `step` leaves, every run from `s` reaches a
state with `P`, and none is stuck before. A rank that decreases until `P` holds
proves it (`inevitably_of_rank`), an invariant that excludes `P` refutes it
(`not_inevitably`).
-/

namespace Progress

variable {σ β : Type*} {step : σ → σ → Prop} {P : σ → Prop}

inductive Inevitably (step : σ → σ → Prop) (P : σ → Prop) : σ → Prop
  | now {s : σ} (h : P s) : Inevitably step P s
  | later {s : σ} (hex : ∃ s', step s s') (hall : ∀ s', step s s' → Inevitably step P s') :
      Inevitably step P s

theorem inevitably_of_rank {r : β → β → Prop} (hr : WellFounded r) {I : β → σ → Prop}
    (h : ∀ b s, I b s → P s ∨ ((∃ s', step s s') ∧
      ∀ s', step s s' → P s' ∨ ∃ b', r b' b ∧ I b' s')) {b : β} {s : σ} (hs : I b s) :
    Inevitably step P s := by
  induction b using hr.induction generalizing s with
  | _ b ih =>
    rcases h b s hs with hP | ⟨hex, hall⟩
    · exact .now hP
    · refine .later hex fun s' hs' => ?_
      rcases hall s' hs' with hP | ⟨b', hlt, hI⟩
      · exact .now hP
      · exact ih b' hlt hI

theorem not_inevitably {J : σ → Prop} (hP : ∀ s, J s → ¬ P s)
    (hJ : ∀ s s', J s → step s s' → J s') {s : σ} (hs : J s) : ¬ Inevitably step P s := by
  intro h
  induction h with
  | now h => exact hP _ hs h
  | later hex _ ih =>
    obtain ⟨s', hs'⟩ := hex
    exact ih s' hs' (hJ _ _ hs hs')

end Progress
