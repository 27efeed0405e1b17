import Mathlib.Data.List.Pairwise
import Mathlib.Data.List.Perm.Subperm

/-!
# Maximal runs of a predicate

`scan p n` is the left-to-right scan of `0, …, n - 1` that keeps the start of
an open run and emits each run of `p` as an inclusive pair when it ends.
`IsRuns p n rs` says what it computes: the runs cover exactly the indices
satisfying `p`, and consecutive runs are separated. These are the maximal runs
(`IsRuns.mem_iff`).
-/

namespace Runs

/-- One index of the scan: the open run, if any, and the runs emitted. -/
def visit (p : Nat → Bool) (st : Option Nat × List (Nat × Nat)) (i : Nat) :
    Option Nat × List (Nat × Nat) :=
  match p i, st.1 with
  | true, none => (some i, st.2)
  | false, some s => (none, st.2 ++ [(s, i - 1)])
  | _, _ => st

/-- Close the run that is still open at the end. -/
def close (n : Nat) (st : Option Nat × List (Nat × Nat)) : List (Nat × Nat) :=
  match st.1 with
  | none => st.2
  | some s => st.2 ++ [(s, n - 1)]

def scan (p : Nat → Bool) (n : Nat) : List (Nat × Nat) :=
  close n ((List.range n).foldl (visit p) (none, []))

/-- Index `i` lies in one of the inclusive ranges. -/
def Covered (rs : List (Nat × Nat)) (i : Nat) : Prop := ∃ r ∈ rs, r.1 ≤ i ∧ i ≤ r.2

theorem covered_append {rs qs : List (Nat × Nat)} {i : Nat} :
    Covered (rs ++ qs) i ↔ Covered rs i ∨ Covered qs i := by
  simp [Covered, or_and_right, exists_or]

theorem covered_singleton {r : Nat × Nat} {i : Nat} : Covered [r] i ↔ r.1 ≤ i ∧ i ≤ r.2 := by
  simp [Covered]

/-- `rs` are the maximal runs of `p` below `n`, in increasing order. -/
structure IsRuns (p : Nat → Bool) (n : Nat) (rs : List (Nat × Nat)) : Prop where
  covered : ∀ i, Covered rs i ↔ i < n ∧ p i = true
  proper : ∀ r ∈ rs, r.1 ≤ r.2
  separated : rs.Pairwise fun r r' => r.2 + 1 < r'.1

/-- The scan after `k` indices: the emitted runs end before the open one. -/
structure ScanInv (p : Nat → Bool) (k : Nat) (st : Option Nat × List (Nat × Nat)) : Prop where
  covered : ∀ i, Covered st.2 i ↔ i < st.1.getD k ∧ p i = true
  proper : ∀ r ∈ st.2, r.1 ≤ r.2
  separated : st.2.Pairwise fun r r' => r.2 + 1 < r'.1
  before : ∀ r ∈ st.2, r.2 + 1 < st.1.getD k
  start : ∀ s, st.1 = some s → s < k ∧ ∀ i, s ≤ i → i < k → p i = true

theorem scanInv_zero (p : Nat → Bool) : ScanInv p 0 (none, []) where
  covered i := by simp [Covered]
  proper := by simp
  separated := by simp
  before := by simp
  start := by simp

/-- Emitting the open run `[s, k - 1]` when index `k` is not in `p`. -/
theorem ScanInv.emit {p : Nat → Bool} {k s : Nat} {rs : List (Nat × Nat)}
    (h : ScanInv p k (some s, rs)) :
    (∀ i, Covered (rs ++ [(s, k - 1)]) i ↔ i < k ∧ p i = true) ∧
      (∀ r ∈ rs ++ [(s, k - 1)], r.1 ≤ r.2) ∧
      (rs ++ [(s, k - 1)]).Pairwise (fun r r' => r.2 + 1 < r'.1) ∧
      ∀ r ∈ rs ++ [(s, k - 1)], r.2 < k := by
  obtain ⟨hs, hall⟩ := h.start s rfl
  have hb := h.before
  simp only [Option.getD_some] at hb
  refine ⟨fun i => ?_, ?_, ?_, ?_⟩
  · have hc := h.covered i
    simp only [Option.getD_some] at hc
    rw [covered_append, covered_singleton, hc]
    constructor
    · rintro (⟨h1, h2⟩ | ⟨h1, h2⟩)
      · exact ⟨by omega, h2⟩
      · exact ⟨by omega, hall i h1 (by omega)⟩
    · rintro ⟨h1, h2⟩
      by_cases hi : i < s
      · exact .inl ⟨hi, h2⟩
      · exact .inr ⟨by omega, by omega⟩
  · intro r hr
    rcases List.mem_append.mp hr with hr | hr
    · exact h.proper r hr
    · rw [List.mem_singleton.mp hr]; show s ≤ k - 1; omega
  · rw [List.pairwise_append]
    refine ⟨h.separated, List.pairwise_singleton _ _, fun r hr r' hr' => ?_⟩
    rw [List.mem_singleton.mp hr']
    exact hb r hr
  · intro r hr
    rcases List.mem_append.mp hr with hr | hr
    · have := hb r hr; omega
    · rw [List.mem_singleton.mp hr]; show k - 1 < k; omega

theorem ScanInv.visit {p : Nat → Bool} {k : Nat} {st : Option Nat × List (Nat × Nat)}
    (h : ScanInv p k st) : ScanInv p (k + 1) (visit p st k) := by
  obtain ⟨o, rs⟩ := st
  have hc := h.covered
  cases hp : p k with
  | true =>
    cases o with
    | none =>
      simp only [Runs.visit, hp]
      simp only [Option.getD_none] at hc
      refine ⟨by simpa using hc, h.proper, h.separated, by simpa using h.before, fun s hs => ?_⟩
      obtain rfl : k = s := by simpa using hs
      exact ⟨by omega, fun i h1 h2 => by rwa [show i = k by omega]⟩
    | some s =>
      simp only [Runs.visit, hp]
      obtain ⟨hs, hall⟩ := h.start s rfl
      refine ⟨by simpa using hc, h.proper, h.separated, by simpa using h.before, fun s' hs' => ?_⟩
      obtain rfl : s = s' := by simpa using hs'
      refine ⟨by omega, fun i h1 h2 => ?_⟩
      by_cases hi : i = k
      · rw [hi, hp]
      · exact hall i h1 (by omega)
  | false =>
    cases o with
    | none =>
      simp only [Runs.visit, hp]
      have hb := h.before
      simp only [Option.getD_none] at hc hb
      refine ⟨fun i => ?_, h.proper, h.separated, fun r hr => ?_, by simp⟩
      · simp only [Option.getD_none, hc i]
        constructor
        · rintro ⟨h1, h2⟩; exact ⟨by omega, h2⟩
        · rintro ⟨h1, h2⟩
          refine ⟨?_, h2⟩
          by_cases hi : i = k
          · rw [hi, hp] at h2; cases h2
          · omega
      · have := hb r hr
        simp only [Option.getD_none]; omega
    | some s =>
      simp only [Runs.visit, hp]
      obtain ⟨h1, h2, h3, h4⟩ := h.emit
      refine ⟨fun i => ?_, h2, h3, fun r hr => ?_, by simp⟩
      · simp only [Option.getD_none, h1 i]
        constructor
        · rintro ⟨h1, h2⟩; exact ⟨by omega, h2⟩
        · rintro ⟨h1, h2⟩
          refine ⟨?_, h2⟩
          by_cases hi : i = k
          · rw [hi, hp] at h2; cases h2
          · omega
      · have := h4 r hr
        simp only [Option.getD_none]; omega

theorem scanInv_range (p : Nat → Bool) (n : Nat) :
    ScanInv p n ((List.range n).foldl (visit p) (none, [])) := by
  induction n with
  | zero => exact scanInv_zero p
  | succ n ih =>
    rw [List.range_succ, List.foldl_append]
    exact ih.visit

/-- **The scan computes the maximal runs.** -/
theorem isRuns_scan (p : Nat → Bool) (n : Nat) : IsRuns p n (scan p n) := by
  have h := scanInv_range p n
  unfold scan close
  revert h
  rcases (List.range n).foldl (visit p) (none, []) with ⟨o, rs⟩
  intro h
  cases o with
  | none => exact ⟨by simpa using h.covered, h.proper, h.separated⟩
  | some s =>
    obtain ⟨h1, h2, h3, _⟩ := h.emit
    exact ⟨h1, h2, h3⟩

/-- Ranges between `l` and `n` that do not touch. -/
theorem length_of_separated {rs : List (Nat × Nat)} {n l : Nat} (hn : l ≤ n + 1)
    (hs : rs.Pairwise fun r q => r.2 + 1 < q.1) (hb : ∀ r ∈ rs, l ≤ r.1 ∧ r.1 ≤ r.2 ∧ r.2 < n) :
    l + 2 * rs.length ≤ n + 1 := by
  induction rs generalizing l with
  | nil => exact hn
  | cons r rs ih =>
    obtain ⟨hl, hle, hlt⟩ := hb r List.mem_cons_self
    obtain ⟨hr, hs⟩ := List.pairwise_cons.mp hs
    have hrest := ih (l := l + 2) (by omega) hs fun q hq => by
      have := hr q hq
      have := hb q (List.mem_cons_of_mem r hq)
      omega
    rw [List.length_cons]
    omega

section

variable {p : Nat → Bool} {n : Nat} {rs : List (Nat × Nat)}

theorem IsRuns.eq_nil_iff (h : IsRuns p n rs) : rs = [] ↔ ∀ i, i < n → p i = false := by
  constructor
  · rintro rfl i hi
    have := (h.covered i).not.mp (by simp [Covered])
    simpa [hi] using this
  · intro hall
    cases rs with
    | nil => rfl
    | cons r rs =>
      have h1 := h.proper r List.mem_cons_self
      obtain ⟨h2, h3⟩ := (h.covered r.1).mp ⟨r, List.mem_cons_self, Nat.le_refl _, h1⟩
      rw [hall _ h2] at h3; cases h3

theorem IsRuns.lt (h : IsRuns p n rs) : ∀ r ∈ rs, r.2 < n := fun r hr =>
  ((h.covered r.2).mp ⟨r, hr, h.proper r hr, Nat.le_refl _⟩).1

/-- There are no more runs than indices. -/
theorem IsRuns.length_le (h : IsRuns p n rs) : rs.length ≤ n := by
  have hlt : rs.Pairwise fun r r' => r.1 ≠ r'.1 := by
    refine h.separated.imp_of_mem fun {r r'} hr _ hs => ?_
    have := h.proper r hr
    omega
  have hnodup : (rs.map Prod.fst).Nodup := List.pairwise_map.mpr hlt
  have hsub : rs.map Prod.fst ⊆ List.range n := by
    intro i hi
    obtain ⟨r, hr, rfl⟩ := List.mem_map.mp hi
    have h1 := h.proper r hr
    have h2 := h.lt r hr
    exact List.mem_range.mpr (by omega)
  have := (List.subperm_of_subset hnodup hsub).length_le
  rwa [List.length_map, List.length_range] at this

/-- The first run starts at the least index of `p`. -/
theorem IsRuns.head_least (h : IsRuns p n rs) {r : Nat × Nat} {qs : List (Nat × Nat)}
    (hr : rs = r :: qs) : r.1 < n ∧ p r.1 = true ∧ ∀ i, i < r.1 → p i = false := by
  subst hr
  have h1 := h.proper r List.mem_cons_self
  obtain ⟨h2, h3⟩ := (h.covered r.1).mp ⟨r, List.mem_cons_self, Nat.le_refl _, h1⟩
  refine ⟨h2, h3, fun i hi => ?_⟩
  by_contra hp
  obtain ⟨q, hq, hq1, hq2⟩ := (h.covered i).mpr ⟨by omega, by simpa using hp⟩
  rcases List.mem_cons.mp hq with rfl | hq
  · omega
  · have := (List.pairwise_cons.mp h.separated).1 q hq
    omega

/-- `[a, b]` is a run of `p` below `n` that cannot be extended. -/
structure Maximal (p : Nat → Bool) (n a b : Nat) : Prop where
  le : a ≤ b
  lt : b < n
  inside : ∀ i, a ≤ i → i ≤ b → p i = true
  left : a = 0 ∨ p (a - 1) = false
  right : b + 1 = n ∨ p (b + 1) = false

/-- Two maximal runs that share an index are the same. -/
theorem Maximal.unique {a b a' b' i : Nat} (h : Maximal p n a b) (h' : Maximal p n a' b')
    (hi : a ≤ i ∧ i ≤ b) (hi' : a' ≤ i ∧ i ≤ b') : a = a' ∧ b = b' := by
  have hle : ∀ {a b a' b' : Nat}, Maximal p n a b → Maximal p n a' b' → a ≤ i → i ≤ b → a' ≤ i →
      i ≤ b' → a ≤ a' ∧ b' ≤ b := by
    intro a b a' b' h h' h1 h2 h3 h4
    constructor
    · by_contra hlt
      have hp := h'.inside (a - 1) (by omega) (by omega)
      rcases h.left with h0 | h0
      · omega
      · rw [hp] at h0
        cases h0
    · by_contra hlt
      have hp := h'.inside (b + 1) (by omega) (by omega)
      rcases h.right with h0 | h0
      · have := h'.lt
        omega
      · rw [hp] at h0
        cases h0
  obtain ⟨h1, h2⟩ := hle h h' hi.1 hi.2 hi'.1 hi'.2
  obtain ⟨h3, h4⟩ := hle h' h hi'.1 hi'.2 hi.1 hi.2
  omega

/-- Any two of the runs are equal or apart. -/
theorem IsRuns.apart (h : IsRuns p n rs) {r q : Nat × Nat} (hr : r ∈ rs) (hq : q ∈ rs) :
    r = q ∨ r.2 + 1 < q.1 ∨ q.2 + 1 < r.1 := by
  have hsymm : Std.Symm fun r q : Nat × Nat => r = q ∨ r.2 + 1 < q.1 ∨ q.2 + 1 < r.1 := by
    constructor
    rintro r q (rfl | hs | hs)
    · exact .inl rfl
    · exact .inr (.inr hs)
    · exact .inr (.inl hs)
  exact List.Pairwise.forall_of_forall (R := fun r q => r = q ∨ r.2 + 1 < q.1 ∨ q.2 + 1 < r.1)
    (fun _ _ => .inl rfl) (h.separated.imp fun hs => .inr (.inl hs)) hr hq

theorem IsRuns.maximal (h : IsRuns p n rs) {r : Nat × Nat} (hr : r ∈ rs) : Maximal p n r.1 r.2 where
  le := h.proper r hr
  lt := h.lt r hr
  inside i h1 h2 := ((h.covered i).mp ⟨r, hr, h1, h2⟩).2
  left := by
    have hle := h.proper r hr
    have hlt := h.lt r hr
    by_contra hn
    rw [not_or] at hn
    obtain ⟨q, hq, h1, h2⟩ := (h.covered (r.1 - 1)).mpr ⟨by omega, by simpa using hn.2⟩
    rcases h.apart hr hq with rfl | hs | hs <;> omega
  right := by
    have hle := h.proper r hr
    have hlt := h.lt r hr
    by_contra hn
    rw [not_or] at hn
    obtain ⟨q, hq, h1, h2⟩ := (h.covered (r.2 + 1)).mpr ⟨by omega, by simpa using hn.2⟩
    rcases h.apart hr hq with rfl | hs | hs <;> omega

/-- **The runs are exactly the maximal ones.** -/
theorem IsRuns.mem_iff (h : IsRuns p n rs) {a b : Nat} : (a, b) ∈ rs ↔ Maximal p n a b := by
  refine ⟨fun hm => h.maximal hm, fun hm => ?_⟩
  have hle := hm.le
  obtain ⟨r, hr, h1, h2⟩ := (h.covered a).mpr
    ⟨Nat.lt_of_le_of_lt hm.le hm.lt, hm.inside a (Nat.le_refl _) hm.le⟩
  obtain ⟨rfl, rfl⟩ := (h.maximal hr).unique hm ⟨h1, h2⟩ ⟨Nat.le_refl _, hm.le⟩
  exact hr

/-- Between two runs lies an index that is not in `p`. -/
theorem IsRuns.gap (h : IsRuns p n rs) : rs.Pairwise fun r q => ∃ i, r.2 < i ∧ i < q.1 ∧ p i = false := by
  refine h.separated.imp_of_mem fun {r q} hr hq hs => ⟨r.2 + 1, by omega, hs, ?_⟩
  have h1 := h.proper q hq
  have h2 := h.lt q hq
  rcases (h.maximal hr).right with h0 | h0
  · omega
  · exact h0

end

end Runs
