import Mathlib.Logic.Basic

/-!
# Programs that can lose power

A `Prog σ ε α` runs from a state, ends with a value or an exception, and
records every state it passed right after an atomic step. A crash leaves one of
the recorded states behind. Changes made by `modify` are not recorded: they
become visible with the next `step`.

`wp p C Q E s` is the weakest precondition: every state passed satisfies the
crash condition `C`, a normal end satisfies `Q`, an exception `E`. The lemmas
tagged `simp` push `wp` through the program. `mapError` moves a program to a
richer error type, where it can be compared with a copy that makes more checks.
`Along r p` says that a run only moves up in a preorder `r`, as a log does that is
only appended to.
-/

namespace Crash

/-- The run of a program: the states passed, how it ended, and where. -/
structure Outcome (σ ε α : Type) where
  passed : List σ
  result : Except ε α
  final : σ

def Prog (σ ε α : Type) : Type := σ → Outcome σ ε α

namespace Prog

variable {σ ε α β : Type}

protected def pure (a : α) : Prog σ ε α := fun s => ⟨[], .ok a, s⟩

protected def bind (p : Prog σ ε α) (f : α → Prog σ ε β) : Prog σ ε β := fun s =>
  match p s with
  | ⟨t, .ok a, s'⟩ =>
    match f a s' with
    | ⟨t', r, s''⟩ => ⟨t ++ t', r, s''⟩
  | ⟨t, .error e, s'⟩ => ⟨t, .error e, s'⟩

instance : Monad (Prog σ ε) where
  pure := Prog.pure
  bind := Prog.bind

def get : Prog σ ε σ := fun s => ⟨[], .ok s, s⟩

/-- A change no crash can observe by itself. -/
def modify (f : σ → σ) : Prog σ ε Unit := fun s => ⟨[], .ok (), f s⟩

/-- An atomic step. -/
def step (f : σ → σ) : Prog σ ε Unit := fun s => ⟨[f s], .ok (), f s⟩

def throw (e : ε) : Prog σ ε α := fun s => ⟨[], .error e, s⟩

/-- The states of a sequence of atomic steps. -/
def chain : List (σ → σ) → σ → List σ
  | [], _ => []
  | f :: fs, s => f s :: chain fs (f s)

/-- Atomic steps one after the other. -/
def steps (fs : List (σ → σ)) : Prog σ ε Unit := fun s =>
  ⟨chain fs s, .ok (), fs.foldl (fun s f => f s) s⟩

/-- The weakest precondition with a crash condition. -/
def wp (p : Prog σ ε α) (C : σ → Prop) (Q : α → σ → Prop) (E : ε → σ → Prop) (s : σ) : Prop :=
  (∀ x ∈ (p s).passed, C x) ∧
    match (p s).result with
    | .ok a => Q a (p s).final
    | .error e => E e (p s).final

section rules

variable {C C' : σ → Prop} {Q Q' : α → σ → Prop} {R : β → σ → Prop} {E E' : ε → σ → Prop} {s : σ}

@[simp] theorem wp_pure (a : α) : wp (Pure.pure a : Prog σ ε α) C Q E s ↔ Q a s := by
  simp [wp, Pure.pure, Prog.pure]

@[simp] theorem wp_get {Q : σ → σ → Prop} : wp (get : Prog σ ε σ) C Q E s ↔ Q s s := by
  simp [wp, get]

@[simp] theorem wp_modify (f : σ → σ) {Q : Unit → σ → Prop} :
    wp (modify f : Prog σ ε Unit) C Q E s ↔ Q () (f s) := by
  simp [wp, modify]

@[simp] theorem wp_step (f : σ → σ) {Q : Unit → σ → Prop} :
    wp (step f : Prog σ ε Unit) C Q E s ↔ C (f s) ∧ Q () (f s) := by
  simp [wp, step]

@[simp] theorem wp_throw (e : ε) : wp (throw e : Prog σ ε α) C Q E s ↔ E e s := by
  simp [wp, throw]

@[simp] theorem wp_bind (p : Prog σ ε α) (f : α → Prog σ ε β) :
    wp (p >>= f) C R E s ↔ wp p C (fun a s' => wp (f a) C R E s') E s := by
  simp only [wp, Bind.bind, Prog.bind]
  rcases p s with ⟨t, r, s'⟩
  cases r with
  | error e => rfl
  | ok a => simp only [List.mem_append, or_imp, forall_and, and_assoc]

@[simp] theorem wp_ite {c : Prop} [Decidable c] (p q : Prog σ ε α) :
    wp (if c then p else q) C Q E s ↔ (c → wp p C Q E s) ∧ (¬ c → wp q C Q E s) := by
  by_cases h : c <;> simp [h]

/-- Consequence. -/
theorem wp_mono {p : Prog σ ε α} (h : wp p C Q E s) (hC : ∀ x, C x → C' x)
    (hQ : ∀ a x, Q a x → Q' a x) (hE : ∀ e x, E e x → E' e x) : wp p C' Q' E' s := by
  refine ⟨fun x hx => hC x (h.1 x hx), ?_⟩
  have h2 := h.2
  revert h2
  cases (p s).result with
  | ok a => exact hQ a _
  | error e => exact hE e _

/-- Two specifications of one program hold together. -/
theorem wp_and {p : Prog σ ε α} (h : wp p C Q E s) (h' : wp p C' Q' E' s) :
    wp p (fun x => C x ∧ C' x) (fun a x => Q a x ∧ Q' a x) (fun e x => E e x ∧ E' e x) s := by
  refine ⟨fun x hx => ⟨h.1 x hx, h'.1 x hx⟩, ?_⟩
  have h2 := h.2; have h2' := h'.2
  revert h2 h2'
  cases (p s).result with
  | ok a => exact fun h h' => ⟨h, h'⟩
  | error e => exact fun h h' => ⟨h, h'⟩

/-- Steps that each keep an invariant `I` implying the crash condition. -/
theorem wp_steps {I : σ → Prop} {fs : List (σ → σ)} {Q : Unit → σ → Prop} (hs : I s)
    (hI : ∀ f ∈ fs, ∀ x, I x → I (f x)) (hC : ∀ x, I x → C x)
    (hQ : Q () (fs.foldl (fun s f => f s) s)) : wp (steps fs : Prog σ ε Unit) C Q E s := by
  refine ⟨?_, hQ⟩
  unfold steps
  clear hQ
  induction fs generalizing s with
  | nil => intro x hx; simp [chain] at hx
  | cons f fs ih =>
    intro x hx
    simp only [chain, List.mem_cons] at hx
    have hf : I (f s) := hI f List.mem_cons_self s hs
    rcases hx with rfl | hx
    · exact hC _ hf
    · exact ih hf (fun g hg => hI g (List.mem_cons_of_mem _ hg)) x hx

end rules

/-! ## Reading a run off its specification -/

section read

variable {p : Prog σ ε α} {C : σ → Prop} {Q : α → σ → Prop} {E : ε → σ → Prop} {s : σ}

theorem wp.passed (h : wp p C Q E s) {x : σ} (hx : x ∈ (p s).passed) : C x := h.1 x hx

theorem wp.ok (h : wp p C Q E s) {a : α} (ha : (p s).result = .ok a) : Q a (p s).final := by
  have := h.2; rwa [ha] at this

theorem wp.error (h : wp p C Q E s) {e : ε} (he : (p s).result = .error e) : E e (p s).final := by
  have := h.2; rwa [he] at this

/-- A program specified to throw nothing ends normally. -/
theorem wp.returns (h : wp p C Q (fun _ _ => False) s) :
    ∃ a, (p s).result = .ok a ∧ Q a (p s).final := by
  have h2 := h.2
  revert h2
  cases (p s).result with
  | ok a => exact fun h => ⟨a, rfl, h⟩
  | error e => exact False.elim

/-- A program specified not to end normally throws. -/
theorem wp.throws (h : wp p C (fun _ _ => False) E s) :
    ∃ e, (p s).result = .error e ∧ E e (p s).final := by
  have h2 := h.2
  revert h2
  cases (p s).result with
  | ok a => exact False.elim
  | error e => exact fun h => ⟨e, rfl, h⟩

end read

/-! ## Programs under another error type -/

section errors

variable {ε' : Type} {s : σ}

/-- The same program, its exceptions renamed. -/
def mapError (f : ε → ε') (p : Prog σ ε α) : Prog σ ε' α := fun s =>
  ⟨(p s).passed, (p s).result.mapError f, (p s).final⟩

theorem mapError_bind (f : ε → ε') (p : Prog σ ε α) (g : α → Prog σ ε β) :
    mapError f (p >>= g) = mapError f p >>= fun a => mapError f (g a) := by
  funext s
  simp only [mapError, Bind.bind, Prog.bind]
  rcases p s with ⟨t, r, s'⟩
  cases r <;> rfl

theorem mapError_ite (f : ε → ε') {c : Prop} [Decidable c] (p q : Prog σ ε α) :
    mapError f (if c then p else q) = if c then mapError f p else mapError f q := by
  split <;> rfl

theorem get_bind (f : σ → Prog σ ε α) (s : σ) : (get >>= f) s = f s s := rfl

/-- Two continuations are the same after a program if they agree where it ends. -/
theorem bind_congr {p : Prog σ ε α} {f g : α → Prog σ ε β}
    (h : wp p (fun _ => True) (fun a x => f a x = g a x) (fun _ _ => True) s) :
    (p >>= f) s = (p >>= g) s := by
  have h2 := h.2
  simp only [Bind.bind, Prog.bind]
  revert h2
  rcases p s with ⟨t, r, s'⟩
  cases r with
  | error e => exact fun _ => rfl
  | ok a =>
    intro h2
    have h2 : f a s' = g a s' := h2
    simp only [h2]

/-- Two programs that run alike can be followed by the same. -/
theorem bind_left {p q : Prog σ ε α} (h : p s = q s) (f : α → Prog σ ε β) :
    (p >>= f) s = (q >>= f) s := by
  simp only [Bind.bind, Prog.bind, h]

/-- A specification that ignores exceptions holds of the renamed program. -/
theorem wp_mapError {f : ε → ε'} {p : Prog σ ε α} {C : σ → Prop} {Q : α → σ → Prop}
    (h : wp p C Q (fun _ _ => True) s) : wp (mapError f p) C Q (fun _ _ => True) s := by
  refine ⟨h.1, ?_⟩
  have h2 := h.2
  unfold mapError
  revert h2
  cases (p s).result with
  | ok a => exact fun h => h
  | error e => exact fun _ => trivial

end errors

/-! ## Runs along a preorder -/

/-- Every state passed lies between the start and the end of the run. -/
def Along (r : σ → σ → Prop) (p : Prog σ ε α) : Prop :=
  ∀ s, r s (p s).final ∧ ∀ x ∈ (p s).passed, r s x ∧ r x (p s).final

section along

variable {r : σ → σ → Prop}

theorem along_pure (hrefl : ∀ s, r s s) (a : α) : Along r (Pure.pure a : Prog σ ε α) :=
  fun s => ⟨hrefl s, fun _ h => by simp [Pure.pure, Prog.pure] at h⟩

theorem along_get (hrefl : ∀ s, r s s) : Along r (get : Prog σ ε σ) :=
  fun s => ⟨hrefl s, fun _ h => by simp [get] at h⟩

theorem along_throw (hrefl : ∀ s, r s s) (e : ε) : Along r (throw e : Prog σ ε α) :=
  fun s => ⟨hrefl s, fun _ h => by simp [throw] at h⟩

theorem along_modify {f : σ → σ} (h : ∀ s, r s (f s)) : Along r (modify f : Prog σ ε Unit) :=
  fun s => ⟨h s, fun _ h => by simp [modify] at h⟩

theorem along_step (hrefl : ∀ s, r s s) {f : σ → σ} (h : ∀ s, r s (f s)) :
    Along r (step f : Prog σ ε Unit) := by
  intro s
  refine ⟨h s, fun x hx => ?_⟩
  rw [show x = f s by simpa [step] using hx]
  exact ⟨h s, hrefl _⟩

theorem along_bind (htrans : ∀ {a b c}, r a b → r b c → r a c) {p : Prog σ ε α}
    {f : α → Prog σ ε β} (hp : Along r p) (hf : ∀ a, Along r (f a)) : Along r (p >>= f) := by
  intro s
  obtain ⟨h1, h2⟩ := hp s
  simp only [Bind.bind, Prog.bind]
  revert h1 h2
  rcases p s with ⟨t, res, s'⟩
  intro h1 h2
  cases res with
  | error e => exact ⟨h1, h2⟩
  | ok a =>
    obtain ⟨h3, h4⟩ := hf a s'
    refine ⟨htrans h1 h3, fun x hx => ?_⟩
    rcases List.mem_append.mp hx with hx | hx
    · exact ⟨(h2 x hx).1, htrans (h2 x hx).2 h3⟩
    · exact ⟨htrans h1 (h4 x hx).1, (h4 x hx).2⟩

theorem along_ite {c : Prop} [Decidable c] {p q : Prog σ ε α} (hp : Along r p) (hq : Along r q) :
    Along r (if c then p else q) := by
  split
  · exact hp
  · exact hq

theorem along_steps (hrefl : ∀ s, r s s) (htrans : ∀ {a b c}, r a b → r b c → r a c)
    {fs : List (σ → σ)} (h : ∀ f ∈ fs, ∀ s, r s (f s)) : Along r (steps fs : Prog σ ε Unit) := by
  intro s
  unfold steps
  induction fs generalizing s with
  | nil => exact ⟨hrefl s, fun _ hx => by simp [chain] at hx⟩
  | cons f fs ih =>
    obtain ⟨h1, h2⟩ := ih (fun g hg => h g (List.mem_cons_of_mem _ hg)) (f s)
    have hf : r s (f s) := h f List.mem_cons_self s
    refine ⟨htrans hf h1, fun x hx => ?_⟩
    simp only [chain, List.mem_cons] at hx
    rcases hx with rfl | hx
    · exact ⟨hf, h1⟩
    · exact ⟨htrans hf (h2 x hx).1, (h2 x hx).2⟩

end along

end Prog

end Crash
