import Cfdp.Lib.Crash

/-!
# Two runs side by side

`rwp p q Q E s t` runs `p` from `s` and `q` from `t`: both end normally, and `Q` holds of
the values and the final states, or both throw, and `E` does. The rules take two
programs of the same shape apart, construct by construct; where the shapes differ,
`rwp_of_wp` puts a specification of each program in.
-/

namespace Crash

namespace Prog

variable {σ τ ε ε' α α' β β' : Type}

/-- The relational weakest precondition of two programs. -/
def rwp (p : Prog σ ε α) (q : Prog τ ε' α') (Q : α → α' → σ → τ → Prop)
    (E : ε → ε' → σ → τ → Prop) (s : σ) (t : τ) : Prop :=
  match (p s).result, (q t).result with
  | .ok a, .ok b => Q a b (p s).final (q t).final
  | .error e, .error e' => E e e' (p s).final (q t).final
  | _, _ => False

section rules

variable {Q Q' : α → α' → σ → τ → Prop} {R : β → β' → σ → τ → Prop} {E E' : ε → ε' → σ → τ → Prop}
  {s : σ} {t : τ} {p p' : Prog σ ε α} {q q' : Prog τ ε' α'}

theorem rwp_pure {a : α} {b : α'} (h : Q a b s t) :
    rwp (Pure.pure a : Prog σ ε α) (Pure.pure b : Prog τ ε' α') Q E s t := h

theorem rwp_throw {e : ε} {e' : ε'} (h : E e e' s t) :
    rwp (throw e : Prog σ ε α) (throw e' : Prog τ ε' α') Q E s t := h

theorem rwp_modify {f : σ → σ} {g : τ → τ} {Q : Unit → Unit → σ → τ → Prop}
    (h : Q () () (f s) (g t)) :
    rwp (modify f : Prog σ ε Unit) (modify g : Prog τ ε' Unit) Q E s t := h

theorem rwp_step {f : σ → σ} {g : τ → τ} {Q : Unit → Unit → σ → τ → Prop}
    (h : Q () () (f s) (g t)) :
    rwp (step f : Prog σ ε Unit) (step g : Prog τ ε' Unit) Q E s t := h

theorem rwp_bind {f : α → Prog σ ε β} {g : α' → Prog τ ε' β'}
    (h : rwp p q (fun a b s' t' => rwp (f a) (g b) R E s' t') E s t) :
    rwp (p >>= f) (q >>= g) R E s t := by
  simp only [rwp, Bind.bind, Prog.bind] at h ⊢
  revert h
  rcases p s with ⟨l, r, s'⟩
  rcases q t with ⟨l', r', t'⟩
  cases r with
  | error e =>
    cases r' with
    | error e' => exact id
    | ok b => exact False.elim
  | ok a =>
    cases r' with
    | error e' => exact False.elim
    | ok b => exact id

/-- Reading the state binds it. -/
theorem rwp_get_bind {f : σ → Prog σ ε β} {g : τ → Prog τ ε' β'} (h : rwp (f s) (g t) R E s t) :
    rwp (get >>= f) (get >>= g) R E s t := rwp_bind h

theorem rwp_modify_bind {f : σ → σ} {g : τ → τ} {k : Unit → Prog σ ε β} {l : Unit → Prog τ ε' β'}
    (h : rwp (k ()) (l ()) R E (f s) (g t)) :
    rwp (modify f >>= k) (modify g >>= l) R E s t := rwp_bind h

/-- Two branches on conditions that agree. -/
theorem rwp_ite {c d : Prop} [Decidable c] [Decidable d] (hcd : c ↔ d) (h : c → rwp p q Q E s t)
    (h' : ¬ c → rwp p' q' Q E s t) :
    rwp (if c then p else p') (if d then q else q') Q E s t := by
  by_cases hc : c
  · rw [if_pos hc, if_pos (hcd.mp hc)]
    exact h hc
  · rw [if_neg hc, if_neg fun hd => hc (hcd.mpr hd)]
    exact h' hc

theorem rwp_mono (h : rwp p q Q E s t) (hQ : ∀ a b x y, Q a b x y → Q' a b x y)
    (hE : ∀ e e' x y, E e e' x y → E' e e' x y) : rwp p q Q' E' s t := by
  unfold rwp at h ⊢
  revert h
  cases (p s).result with
  | error e =>
    cases (q t).result with
    | error e' => exact hE e e' _ _
    | ok b => exact id
  | ok a =>
    cases (q t).result with
    | error e' => exact id
    | ok b => exact hQ a b _ _

/-- What follows two parts that end alike. -/
theorem rwp_seq {f : α → Prog σ ε β} {g : α' → Prog τ ε' β'} (h : rwp p q Q E s t)
    (hrest : ∀ a b x y, Q a b x y → rwp (f a) (g b) R E x y) : rwp (p >>= f) (q >>= g) R E s t :=
  rwp_bind (rwp_mono h hrest fun _ _ _ _ he => he)

/-- Programs that do not throw, each by its own specification. -/
theorem rwp_of_wp {C : σ → Prop} {C' : τ → Prop} {P : α → σ → Prop} {P' : α' → τ → Prop}
    (hp : wp p C P (fun _ _ => False) s) (hq : wp q C' P' (fun _ _ => False) t)
    (h : ∀ a b x y, P a x → P' b y → Q a b x y) : rwp p q Q E s t := by
  obtain ⟨a, ha, hP⟩ := hp.returns
  obtain ⟨b, hb, hP'⟩ := hq.returns
  unfold rwp
  rw [ha, hb]
  exact h a b _ _ hP hP'

/-- The same steps on both sides keep a relation that each of them keeps. -/
theorem rwp_steps {I : σ → σ → Prop} {fs : List (σ → σ)} {s t : σ} {E : ε → ε' → σ → σ → Prop}
    (hI : ∀ f ∈ fs, ∀ x y, I x y → I (f x) (f y)) (h : I s t) :
    rwp (steps fs : Prog σ ε Unit) (steps fs : Prog σ ε' Unit) (fun _ _ => I) E s t := by
  show I (fs.foldl (fun s f => f s) s) (fs.foldl (fun s f => f s) t)
  induction fs generalizing s t with
  | nil => exact h
  | cons f fs ih =>
    exact ih (fun g hg => hI g (List.mem_cons_of_mem _ hg)) (hI f List.mem_cons_self s t h)

end rules

end Prog

end Crash
