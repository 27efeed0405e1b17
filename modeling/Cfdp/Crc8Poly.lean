import Cfdp.Crc
import Cfdp.Lib.BitPoly

/-!
# The CRC-8 as a remainder

Both shift registers are `BitPoly.shift` with `p = 0x107`, so `crc8` of the receiver and of
the sender are the remainder of the message by `X ^ 8 + X ^ 2 + X + 1`, and messages that
differ in a burst of at most eight bits have different CRC-8s.
-/

namespace Cfdp.Crc

open Polynomial BitPoly

/-- The bits of a string, most significant first. -/
def bits (m : Bytes) : List Bool := m.flatMap fun b => msb 8 b.toNat

theorem bits_append (a b : Bytes) : bits (a ++ b) = bits a ++ bits b := List.flatMap_append

@[simp] theorem length_bits (m : Bytes) : (bits m).length = 8 * m.length := by
  induction m with
  | nil => rfl
  | cons b m ih =>
    unfold bits
    rw [List.flatMap_cons, List.length_append, length_msb, List.length_cons]
    rw [bits] at ih
    omega

theorem ofBits_bits_concat (m : Bytes) (b : UInt8) :
    ofBits (bits (m ++ [b])) = ofBits (bits m) * X ^ 8 + ofNat b.toNat := by
  have hb : bits [b] = msb 8 b.toNat := List.flatMap_singleton ..
  rw [bits_append, hb, ofBits_append, length_msb, ofBits_msb b.toNat_lt]

theorem bits_inj {a b : Bytes} (h : bits a = bits b) : a = b := by
  induction a generalizing b with
  | nil =>
    have hlen := congrArg List.length h
    rw [length_bits, length_bits, List.length_nil] at hlen
    exact (List.length_eq_zero_iff.mp (by omega)).symm
  | cons x a ih =>
    cases b with
    | nil =>
      have hlen := congrArg List.length h
      rw [length_bits, length_bits, List.length_nil, List.length_cons] at hlen
      omega
    | cons y b =>
      rw [bits, bits, List.flatMap_cons, List.flatMap_cons] at h
      obtain ⟨hxy, hab⟩ := List.append_inj h (by rw [length_msb, length_msb])
      have hnat : x.toNat = y.toNat := by
        apply ofNat_inj
        rw [← ofBits_msb x.toNat_lt, hxy, ofBits_msb y.toNat_lt]
      rw [UInt8.toNat_inj.mp hnat, ih hab]

/-! ## The registers -/

theorem shift8_toNat (c : UInt8) : (shift8 c).toNat = shift 0x107 8 c.toNat :=
  forall_uint8 (P := fun c => (shift8 c).toNat = shift 0x107 8 c.toNat) (by decide +kernel) c

theorem shifts8_toNat (n : Nat) (c : UInt8) : (shifts8 n c).toNat = shifts 0x107 8 n c.toNat := by
  induction n generalizing c with
  | zero => rfl
  | succ n ih => rw [shifts8, ih, shift8_toNat, shifts]

theorem ofNat_0x107 : ofNat 0x107 = X ^ 8 + X ^ 2 + X + 1 := by
  have hbits : msb 9 0x107 = [true, false, false, false, false, false, true, true, true] := by
    decide
  rw [← ofBits_msb (w := 9) (by decide), hbits]
  simp [ofBits, add_assoc]

/-- Byte by byte: the register holds the remainder of what was read. -/
theorem crc8_remainder (m : Bytes) : Remainder 0x107 8 (ofBits (bits m)) (crc8 m).toNat := by
  induction m using List.reverseRecOn with
  | nil => exact remainder_zero 0x107 8
  | append_singleton m b ih =>
    have habs := ih.absorb (by decide) (by decide) (Nat.le_refl 8) b.toNat_lt
    rw [Nat.sub_self, Nat.shiftLeft_zero] at habs
    have hcrc : (crc8 (m ++ [b])).toNat = shifts 0x107 8 8 ((crc8 m).toNat ^^^ b.toNat) := by
      rw [crc8, List.foldl_append, List.foldl_cons, List.foldl_nil, ← crc8, shifts8_toNat,
        UInt8.toNat_xor]
    rw [ofBits_bits_concat, hcrc]
    exact habs

/-- **Both CRC-8s are the CRC of `X ^ 8 + X ^ 2 + X + 1`**: the remainder of `m * X ^ 8`. -/
theorem crc8_eq_remainder (m : Bytes) :
    ofNat (crc8 m).toNat = (ofBits (bits m) * X ^ 8) %ₘ (X ^ 8 + X ^ 2 + X + 1) ∧
    ofNat (crc8Py m) = (ofBits (bits m) * X ^ 8) %ₘ (X ^ 8 + X ^ 2 + X + 1) ∧
    crc8Py m = (crc8 m).toNat := by
  have h := (crc8_remainder m).eq
  rw [ofNat_0x107] at h
  refine ⟨h, ?_, crc8Py_eq m⟩
  rw [crc8Py_eq]
  exact h

/-! ## Bursts -/

theorem natDegree_0x107 : (ofNat 0x107).natDegree = 8 :=
  natDegree_eq_of_degree_eq_some (degree_ofNat (by decide) (by decide))

/-- Byte strings of one length that differ, and only within eight bits in a row. -/
structure Burst8 (a b : Bytes) : Prop where
  length : a.length = b.length
  ne : a ≠ b
  window : ∃ s, ∀ i, (bits a)[i]? ≠ (bits b)[i]? → s ≤ i ∧ i < s + 8

theorem Burst8.burst {a b : Bytes} (h : Burst8 a b) : Burst 8 (bits a) (bits b) where
  length := by rw [length_bits, length_bits, h.length]
  ne := fun heq => h.ne (bits_inj heq)
  window := h.window

/-- A burst of at most eight bits changes the CRC-8. -/
theorem Burst8.crc8_ne {a b : Bytes} (h : Burst8 a b) : crc8 a ≠ crc8 b := by
  intro heq
  have h0 : (ofNat 0x107).coeff 0 ≠ 0 := by
    rw [coeff_ofNat]
    decide
  apply h.burst.rem_ne (monic_ofNat (w := 8) (by decide) (by decide)) h0 natDegree_0x107.ge 8
  rw [← (crc8_remainder a).eq, ← (crc8_remainder b).eq, heq]

end Cfdp.Crc
