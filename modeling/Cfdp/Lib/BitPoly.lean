import Mathlib.Algebra.Field.ZMod
import Mathlib.Algebra.Polynomial.Degree.Domain
import Mathlib.Algebra.Polynomial.Div
import Mathlib.Algebra.Polynomial.RingDivision
import Mathlib.Data.Nat.Size
import Mathlib.Data.ZMod.Basic
import Mathlib.RingTheory.Coprime.Lemmas

/-!
# Binary polynomials and shift registers

A bit string and a number as polynomials over the field of two elements: `ofBits`
takes the first bit for the highest power, `ofNat` takes bit `i` for the coefficient
of `X ^ i`. A register of `w` bits that is shifted, and reduced by `p` when a bit drops
out (`shift`), computes remainders by the polynomial of `p` (`Remainder.absorb`). Two
strings that differ in a short burst have different remainders (`Burst.rem_ne`).
-/

namespace BitPoly

open Polynomial

/-! ## Bit strings and numbers -/

/-- First bit first, as the highest power. -/
noncomputable def ofBits : List Bool → (ZMod 2)[X]
  | [] => 0
  | b :: bs => (if b then X ^ bs.length else 0) + ofBits bs

/-- Bit `i` is the coefficient of `X ^ i`. -/
noncomputable def ofNat (n : ℕ) : (ZMod 2)[X] :=
  ∑ i ∈ Finset.range n.size, if n.testBit i then X ^ i else 0

/-- The `w` low bits of a number, highest first. -/
def msb (w n : ℕ) : List Bool := (List.range w).map fun i => n.testBit (w - 1 - i)

theorem length_msb (w n : ℕ) : (msb w n).length = w := by simp [msb]

theorem coeff_ofBits (bs : List Bool) (k : ℕ) :
    (ofBits bs).coeff k = if bs.reverse[k]? = some true then 1 else 0 := by
  induction bs with
  | nil => simp [ofBits]
  | cons b bs ih =>
    unfold ofBits
    rw [coeff_add, ih, List.reverse_cons]
    rcases Nat.lt_trichotomy k bs.length with hk | rfl | hk
    · rw [List.getElem?_append_left (by rwa [List.length_reverse])]
      cases b
      · simp
      · simp [coeff_X_pow, Nat.ne_of_lt hk]
    · rw [List.getElem?_append_right (by rw [List.length_reverse]), List.length_reverse,
        Nat.sub_self, List.getElem?_eq_none (by rw [List.length_reverse])]
      cases b
      · simp
      · simp
    · rw [List.getElem?_eq_none (by simp; omega), List.getElem?_eq_none (by simp; omega)]
      cases b
      · simp
      · simp [coeff_X_pow, Nat.ne_of_gt hk]

theorem coeff_ofNat (n k : ℕ) : (ofNat n).coeff k = if n.testBit k then 1 else 0 := by
  have hterm (i : ℕ) : (if n.testBit i then X ^ i else (0 : (ZMod 2)[X])).coeff k =
      if k = i then (if n.testBit k then 1 else 0) else 0 := by
    by_cases hi : k = i
    · subst hi
      cases n.testBit k <;> simp
    · cases n.testBit i <;> simp [coeff_X_pow, hi]
  unfold ofNat
  rw [finsetSum_coeff, Finset.sum_congr rfl fun i _ => hterm i, Finset.sum_ite_eq]
  by_cases hk : k < n.size
  · rw [if_pos (Finset.mem_range.mpr hk)]
  · have hlt : n < 2 ^ k := Nat.size_le.mp (Nat.le_of_not_lt hk)
    rw [if_neg (by rwa [Finset.mem_range]), Nat.testBit_lt_two_pow hlt]
    rfl

theorem ofBits_append (a b : List Bool) : ofBits (a ++ b) = ofBits a * X ^ b.length + ofBits b := by
  induction a with
  | nil => rw [List.nil_append, ofBits, zero_mul, zero_add]
  | cons x a ih =>
    rw [List.cons_append, ofBits, ofBits, ih, List.length_append, pow_add]
    cases x
    · simp
    · simp only [if_true]
      ring

theorem ofBits_inj {a b : List Bool} (hlen : a.length = b.length) (h : ofBits a = ofBits b) :
    a = b := by
  apply List.reverse_injective
  apply List.ext_getElem?
  intro k
  have hk := congrArg (fun p => p.coeff k) h
  simp only [coeff_ofBits] at hk
  by_cases hlt : k < a.length
  · have ha : k < a.reverse.length := by rwa [List.length_reverse]
    have hb : k < b.reverse.length := by rwa [List.length_reverse, ← hlen]
    rw [List.getElem?_eq_getElem ha, List.getElem?_eq_getElem hb] at hk ⊢
    revert hk
    cases a.reverse[k] <;> cases b.reverse[k] <;> simp
  · rw [List.getElem?_eq_none (by simp; omega), List.getElem?_eq_none (by simp; omega)]

theorem ofNat_inj {a b : ℕ} (h : ofNat a = ofNat b) : a = b := by
  apply Nat.eq_of_testBit_eq
  intro k
  have hk := congrArg (fun p => p.coeff k) h
  simp only [coeff_ofNat] at hk
  revert hk
  cases a.testBit k <;> cases b.testBit k <;> simp

theorem ofNat_xor (a b : ℕ) : ofNat (a ^^^ b) = ofNat a + ofNat b := by
  ext k
  rw [coeff_add, coeff_ofNat, coeff_ofNat, coeff_ofNat, Nat.testBit_xor]
  cases a.testBit k <;> cases b.testBit k <;> decide

theorem ofNat_shiftLeft (n k : ℕ) : ofNat (n <<< k) = ofNat n * X ^ k := by
  ext i
  rw [coeff_mul_X_pow', coeff_ofNat, coeff_ofNat, Nat.testBit_shiftLeft]
  by_cases hi : k ≤ i
  · rw [if_pos hi, decide_eq_true hi, Bool.true_and]
  · rw [if_neg hi, decide_eq_false hi, Bool.false_and]
    rfl

theorem degree_ofNat_lt {n w : ℕ} (h : n < 2 ^ w) : (ofNat n).degree < w := by
  rw [degree_lt_iff_coeff_zero]
  intro k hk
  rw [coeff_ofNat, Nat.testBit_lt_two_pow (h.trans_le (Nat.pow_le_pow_right (by decide) hk))]
  rfl

/-- The bits of a number, highest first, are its polynomial. -/
theorem ofBits_msb {w n : ℕ} (h : n < 2 ^ w) : ofBits (msb w n) = ofNat n := by
  ext k
  rw [coeff_ofBits, coeff_ofNat]
  by_cases hk : k < w
  · have hget : (msb w n).reverse[k]? = some (n.testBit k) := by
      rw [List.getElem?_reverse (by rwa [length_msb]), length_msb, msb, List.getElem?_map,
        List.getElem?_range (by omega), Option.map_some]
      congr 2
      omega
    rw [hget]
    cases n.testBit k <;> simp
  · have hlt : n < 2 ^ k := h.trans_le (Nat.pow_le_pow_right (by decide) (Nat.le_of_not_lt hk))
    rw [List.getElem?_eq_none (by rw [List.length_reverse, length_msb]; omega),
      Nat.testBit_lt_two_pow hlt]
    rfl

/-! ## Registers -/

/-- One shift of a register of `w` bits; `p` is subtracted if a bit drops out. -/
def shift (p w c : ℕ) : ℕ := if (c <<< 1).testBit w then (c <<< 1) ^^^ p else c <<< 1

def shifts (p w : ℕ) : ℕ → ℕ → ℕ
  | 0, c => c
  | n + 1, c => shifts p w n (shift p w c)

/-- The register holds the remainder of `M * X ^ w`. -/
structure Remainder (p w : ℕ) (M : (ZMod 2)[X]) (c : ℕ) : Prop where
  lt : c < 2 ^ w
  eq : ofNat c = (M * X ^ w) %ₘ ofNat p

section

variable {p w c : ℕ} {M : (ZMod 2)[X]}

theorem remainder_zero (p w : ℕ) : Remainder p w 0 0 where
  lt := Nat.two_pow_pos w
  eq := by
    rw [zero_mul, zero_modByMonic]
    ext k
    simp [coeff_ofNat]

theorem degree_ofNat (hp : 2 ^ w ≤ p) (hp' : p < 2 ^ (w + 1)) : (ofNat p).degree = w := by
  have htop : (ofNat p).coeff w = 1 := by
    rw [coeff_ofNat, Nat.testBit_of_two_pow_le_and_two_pow_add_one_gt hp hp']
    rfl
  refine degree_eq_of_le_of_coeff_ne_zero ?_ (by rw [htop]; exact one_ne_zero)
  rw [degree_le_iff_coeff_zero]
  intro k hk
  have hlt : p < 2 ^ k := hp'.trans_le (Nat.pow_le_pow_right (by decide) (WithBot.coe_lt_coe.mp hk))
  rw [coeff_ofNat, Nat.testBit_lt_two_pow hlt]
  rfl

theorem monic_ofNat (hp : 2 ^ w ≤ p) (hp' : p < 2 ^ (w + 1)) : (ofNat p).Monic := by
  refine monic_of_degree_le w (degree_ofNat hp hp').le ?_
  rw [coeff_ofNat, Nat.testBit_of_two_pow_le_and_two_pow_add_one_gt hp hp']
  rfl

theorem shift_lt (hp : 2 ^ w ≤ p) (hp' : p < 2 ^ (w + 1)) (hc : c < 2 ^ w) :
    shift p w c < 2 ^ w := by
  have hlt : c <<< 1 < 2 ^ (w + 1) := by
    rw [Nat.shiftLeft_eq, Nat.pow_succ]
    omega
  apply Nat.lt_pow_two_of_testBit
  intro i hi
  unfold shift
  rcases Nat.eq_or_lt_of_le hi with rfl | hi
  · cases h : (c <<< 1).testBit w with
    | true =>
      rw [if_pos rfl, Nat.testBit_xor, h,
        Nat.testBit_of_two_pow_le_and_two_pow_add_one_gt hp hp']
      rfl
    | false => rwa [if_neg Bool.false_ne_true]
  · have hpow : 2 ^ (w + 1) ≤ 2 ^ i := Nat.pow_le_pow_right (by decide) hi
    have h1 := Nat.testBit_lt_two_pow (hlt.trans_le hpow)
    have h2 := Nat.testBit_lt_two_pow (hp'.trans_le hpow)
    split
    · rw [Nat.testBit_xor, h1, h2]
      rfl
    · exact h1

/-- A shift multiplies by `X`. -/
theorem ofNat_shift (hp : 2 ^ w ≤ p) (hp' : p < 2 ^ (w + 1)) (hc : c < 2 ^ w) :
    ofNat (shift p w c) = (ofNat c * X) %ₘ ofNat p := by
  have hdeg : (ofNat (shift p w c)).degree < (ofNat p).degree := by
    rw [degree_ofNat hp hp']
    exact degree_ofNat_lt (shift_lt hp hp' hc)
  have hX : ofNat (c <<< 1) = ofNat c * X := by rw [ofNat_shiftLeft, pow_one]
  have hsum : ofNat (shift p w c) +
      ofNat p * (if (c <<< 1).testBit w then 1 else 0) = ofNat c * X := by
    unfold shift
    split
    · -- over two elements adding is subtracting
      rw [ofNat_xor, hX, mul_one, add_assoc, CharTwo.add_self_eq_zero, add_zero]
    · rw [hX, mul_zero, add_zero]
  exact (div_modByMonic_unique _ _ (monic_ofNat hp hp') ⟨hsum, hdeg⟩).2.symm

theorem rem_mul {P : (ZMod 2)[X]} (hP : P.Monic) (a b : (ZMod 2)[X]) :
    (a %ₘ P * b) %ₘ P = (a * b) %ₘ P := by
  have hself : a %ₘ P %ₘ P = a %ₘ P :=
    (modByMonic_eq_self_iff hP).mpr (degree_modByMonic_lt a hP)
  rw [mul_modByMonic, hself, ← mul_modByMonic]

theorem shifts_lt (hp : 2 ^ w ≤ p) (hp' : p < 2 ^ (w + 1)) (hc : c < 2 ^ w) (n : ℕ) :
    shifts p w n c < 2 ^ w := by
  induction n generalizing c with
  | zero => exact hc
  | succ n ih => exact ih (shift_lt hp hp' hc)

theorem ofNat_shifts (hp : 2 ^ w ≤ p) (hp' : p < 2 ^ (w + 1)) (hc : c < 2 ^ w) (n : ℕ) :
    ofNat (shifts p w n c) = (ofNat c * X ^ n) %ₘ ofNat p := by
  have hP := monic_ofNat hp hp'
  induction n generalizing c with
  | zero =>
    rw [pow_zero, mul_one]
    refine ((modByMonic_eq_self_iff hP).mpr ?_).symm
    rw [degree_ofNat hp hp']
    exact degree_ofNat_lt hc
  | succ n ih =>
    unfold shifts
    rw [ih (shift_lt hp hp' hc), ofNat_shift hp hp' hc, rem_mul hP, mul_assoc, ← pow_succ']

/-- **Taking in `k` bits**: they are added at the top, and the register is shifted `k` times. -/
theorem Remainder.absorb (h : Remainder p w M c) (hp : 2 ^ w ≤ p) (hp' : p < 2 ^ (w + 1))
    {k b : ℕ} (hk : k ≤ w) (hb : b < 2 ^ k) :
    Remainder p w (M * X ^ k + ofNat b) (shifts p w k (c ^^^ (b <<< (w - k)))) := by
  have hP := monic_ofNat hp hp'
  have hbw : b <<< (w - k) < 2 ^ w := by
    rw [Nat.shiftLeft_eq, show 2 ^ w = 2 ^ k * 2 ^ (w - k) by rw [← pow_add]; congr 1; omega]
    exact Nat.mul_lt_mul_of_pos_right hb (Nat.two_pow_pos _)
  have hlt := Nat.xor_lt_two_pow h.lt hbw
  refine ⟨shifts_lt hp hp' hlt k, ?_⟩
  have hpow : X ^ (w - k) * X ^ k = (X ^ w : (ZMod 2)[X]) := by
    rw [← pow_add]
    congr 1
    omega
  calc ofNat (shifts p w k (c ^^^ (b <<< (w - k))))
      = ((M * X ^ w) %ₘ ofNat p * X ^ k) %ₘ ofNat p + (ofNat b * X ^ w) %ₘ ofNat p := by
        rw [ofNat_shifts hp hp' hlt, ofNat_xor, h.eq, ofNat_shiftLeft, add_mul, add_modByMonic,
          mul_assoc (ofNat b), hpow]
    _ = ((M * X ^ k + ofNat b) * X ^ w) %ₘ ofNat p := by
        rw [rem_mul hP, ← add_modByMonic]
        congr 1
        ring

end

/-! ## Bursts -/

/-- Strings of one length that differ, and only within `n` consecutive places. -/
structure Burst {α : Type} (n : ℕ) (a b : List α) : Prop where
  length : a.length = b.length
  ne : a ≠ b
  window : ∃ s, ∀ i, a[i]? ≠ b[i]? → s ≤ i ∧ i < s + n

theorem isCoprime_X {K : Type} [Field K] {P : K[X]} (h0 : P.coeff 0 ≠ 0) : IsCoprime P X := by
  refine ⟨C (P.coeff 0)⁻¹, -(C (P.coeff 0)⁻¹ * P.divX), ?_⟩
  calc C (P.coeff 0)⁻¹ * P + -(C (P.coeff 0)⁻¹ * P.divX) * X
      = C (P.coeff 0)⁻¹ * (P - P.divX * X) := by ring
    _ = C (P.coeff 0)⁻¹ * C (P.coeff 0) := by
        congr 1
        rw [sub_eq_iff_eq_add', divX_mul_X_add]
    _ = 1 := by rw [← C_mul, inv_mul_cancel₀ h0, C_1]

/-- A polynomial without the factor `X` divides no polynomial of fewer coefficients in a row. -/
theorem not_dvd_of_window {K : Type} [Field K] {P d : K[X]} (h0 : P.coeff 0 ≠ 0) (hd : d ≠ 0)
    {j : ℕ} (hwin : ∀ k, d.coeff k ≠ 0 → j ≤ k ∧ k < j + P.natDegree) (n : ℕ) :
    ¬ P ∣ d * X ^ n := by
  have hP : P ≠ 0 := by
    rintro rfl
    exact h0 (coeff_zero 0)
  have hcop := isCoprime_X h0
  have hj : X ^ j ∣ d := by
    rw [X_pow_dvd_iff]
    intro k hk
    by_contra hne
    exact absurd (hwin k hne).1 (Nat.not_le_of_lt hk)
  obtain ⟨g, rfl⟩ := hj
  intro hdvd
  have hg : P ∣ g := by
    have h1 := (hcop.pow_right (n := n)).dvd_of_dvd_mul_right hdvd
    exact (hcop.pow_right (n := j)).dvd_of_dvd_mul_left h1
  have hdeg : g.degree < P.degree := by
    rw [degree_eq_natDegree hP, degree_lt_iff_coeff_zero]
    intro k hk
    by_contra hne
    have := hwin (k + j) (by rwa [coeff_X_pow_mul])
    omega
  rw [eq_zero_of_dvd_of_degree_lt hg hdeg, mul_zero] at hd
  exact hd rfl

/-- **Bursts are detected**: strings that differ within as many places as the degree of a
polynomial with a constant term have different remainders. -/
theorem Burst.rem_ne {P : (ZMod 2)[X]} (hP : P.Monic) (h0 : P.coeff 0 ≠ 0) {n : ℕ}
    (hn : n ≤ P.natDegree) {a b : List Bool} (h : Burst n a b) (w : ℕ) :
    (ofBits a * X ^ w) %ₘ P ≠ (ofBits b * X ^ w) %ₘ P := by
  intro heq
  have hlen := h.length
  have hdvd : P ∣ (ofBits a - ofBits b) * X ^ w := by
    rw [← modByMonic_eq_zero_iff_dvd hP, sub_mul, sub_modByMonic, heq, sub_self]
  have hne : ofBits a - ofBits b ≠ 0 := by
    rw [sub_ne_zero]
    exact fun he => h.ne (ofBits_inj h.length he)
  obtain ⟨s, hs⟩ := h.window
  -- bit `i` is the coefficient of power `length - 1 - i`
  have hwin (k : ℕ) (hk : (ofBits a - ofBits b).coeff k ≠ 0) :
      a.length - (s + n) ≤ k ∧ k < a.length - (s + n) + P.natDegree := by
    have hlt : k < a.length := by
      by_contra hge
      apply hk
      rw [coeff_sub, coeff_ofBits, coeff_ofBits, List.getElem?_eq_none (by simp; omega),
        List.getElem?_eq_none (by simp; omega), sub_self]
    have hbit : a[a.length - 1 - k]? ≠ b[a.length - 1 - k]? := by
      intro hi
      apply hk
      rw [coeff_sub, coeff_ofBits, coeff_ofBits, List.getElem?_reverse hlt,
        List.getElem?_reverse (by rwa [← h.length]), ← h.length, hi, sub_self]
    have := hs _ hbit
    omega
  exact not_dvd_of_window h0 hne hwin w hdvd

end BitPoly
