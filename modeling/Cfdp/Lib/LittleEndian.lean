import Mathlib.Data.List.Basic
import Mathlib.Tactic.Ring

/-!
# Little-endian integers

`enc w n` is the `w` low bytes of `n`, least significant first; `dec` reads any
number of bytes back. `le32`/`rd32`, `le64`/`rd64` and `le8`/`rd8` are the codecs of the
fixed-width integers. The `rd` functions read a prefix of their argument and
ignore the rest.
-/

abbrev Bytes := List UInt8

namespace LittleEndian

def enc : Nat → Nat → Bytes
  | 0, _ => []
  | w + 1, n => UInt8.ofNat n :: enc w (n / 256)

def dec : Bytes → Nat
  | [] => 0
  | b :: bs => b.toNat + 256 * dec bs

@[simp] theorem length_enc (w n : Nat) : (enc w n).length = w := by
  induction w generalizing n with
  | zero => rfl
  | succ w ih => simp [enc, ih]

theorem dec_enc (w n : Nat) : dec (enc w n) = n % 256 ^ w := by
  induction w generalizing n with
  | zero => simp [enc, dec, Nat.mod_one]
  | succ w ih =>
    have h : (UInt8.ofNat n).toNat = n % 256 := by simp
    unfold enc
    rw [dec, ih, h, pow_succ', Nat.mod_mul]

theorem dec_lt (bs : Bytes) : dec bs < 256 ^ bs.length := by
  induction bs with
  | nil => simp [dec]
  | cons b bs ih =>
    have hb : b.toNat < 256 := b.toNat_lt
    unfold dec
    rw [List.length_cons, pow_succ]
    omega

theorem enc_dec (bs : Bytes) : enc bs.length (dec bs) = bs := by
  induction bs with
  | nil => rfl
  | cons b bs ih =>
    have hb : b.toNat < 256 := b.toNat_lt
    have h0 : UInt8.ofNat (b.toNat + 256 * dec bs) = b := by
      apply UInt8.toNat_inj.mp
      simp only [UInt8.toNat_ofNat']
      omega
    have h1 : (b.toNat + 256 * dec bs) / 256 = dec bs := by omega
    rw [List.length_cons, dec, enc, h0, h1, ih]

theorem enc_take_append (w n : Nat) (r : Bytes) : (enc w n ++ r).take w = enc w n := by
  rw [List.take_append_of_le_length (by simp), List.take_of_length_le (by simp)]

/-! ## Fixed widths -/

def le32 (x : UInt32) : Bytes := enc 4 x.toNat

def le64 (x : UInt64) : Bytes := enc 8 x.toNat

def rd32 (bs : Bytes) : UInt32 := UInt32.ofNat (dec (bs.take 4))

def rd64 (bs : Bytes) : UInt64 := UInt64.ofNat (dec (bs.take 8))

/-- A byte, zero when there is none. -/
def rd8 (bs : Bytes) : UInt8 := bs.headD 0

@[simp] theorem length_le32 (x : UInt32) : (le32 x).length = 4 := length_enc 4 _

@[simp] theorem length_le64 (x : UInt64) : (le64 x).length = 8 := length_enc 8 _

@[simp] theorem rd32_le32 (x : UInt32) (r : Bytes) : rd32 (le32 x ++ r) = x := by
  have hx := x.toNat_lt
  apply UInt32.toNat_inj.mp
  simp only [rd32, le32, enc_take_append, dec_enc, UInt32.toNat_ofNat']
  omega

@[simp] theorem rd64_le64 (x : UInt64) (r : Bytes) : rd64 (le64 x ++ r) = x := by
  have hx := x.toNat_lt
  apply UInt64.toNat_inj.mp
  simp only [rd64, le64, enc_take_append, dec_enc, UInt64.toNat_ofNat']
  omega

@[simp] theorem rd32_le32' (x : UInt32) : rd32 (le32 x) = x := by
  simpa using rd32_le32 x []

@[simp] theorem rd64_le64' (x : UInt64) : rd64 (le64 x) = x := by
  simpa using rd64_le64 x []

theorem le32_rd32 {bs : Bytes} (h : 4 ≤ bs.length) : le32 (rd32 bs) = bs.take 4 := by
  have hl : (bs.take 4).length = 4 := by rw [List.length_take]; omega
  have hd := dec_lt (bs.take 4)
  rw [hl] at hd
  have h1 : (rd32 bs).toNat = dec (bs.take 4) := by
    simp only [rd32, UInt32.toNat_ofNat']; omega
  have := enc_dec (bs.take 4)
  rwa [hl, ← h1] at this

@[simp] theorem rd32_take (bs : Bytes) : rd32 (bs.take 4) = rd32 bs := by
  rw [rd32, rd32, List.take_take, Nat.min_self]

@[simp] theorem rd64_take (bs : Bytes) : rd64 (bs.take 8) = rd64 bs := by
  rw [rd64, rd64, List.take_take, Nat.min_self]

/-- A field of a prefix. -/
theorem rd32_drop_take {n k : Nat} (h : k + 4 ≤ n) (bs : Bytes) :
    rd32 ((bs.take n).drop k) = rd32 (bs.drop k) := by
  rw [rd32, rd32, List.drop_take, List.take_take, Nat.min_eq_left (by omega)]

theorem le32_inj {x y : UInt32} (h : le32 x = le32 y) : x = y := by
  have := congrArg rd32 h; simpa using this

theorem le32_append_inj {x y : UInt32} {r s : Bytes} (h : le32 x ++ r = le32 y ++ s) :
    x = y ∧ r = s := by
  have := List.append_inj h (by simp)
  exact ⟨le32_inj this.1, this.2⟩

/-- Skipping a 32-bit field. -/
@[simp] theorem drop_le32 (n : Nat) (x : UInt32) (r : Bytes) :
    (le32 x ++ r).drop (n + 4) = r.drop n := by
  rw [Nat.add_comm, ← List.drop_drop, List.drop_left' (length_le32 x)]

/-- Skipping a 64-bit field. -/
@[simp] theorem drop_le64 (n : Nat) (x : UInt64) (r : Bytes) :
    (le64 x ++ r).drop (n + 8) = r.drop n := by
  rw [Nat.add_comm, ← List.drop_drop, List.drop_left' (length_le64 x)]

/-- Changing a byte outside a 32-bit field. -/
theorem rd32_drop_set {l : Bytes} {i j : Nat} {b : UInt8} (h : i < j ∨ j + 4 ≤ i) :
    rd32 ((l.set i b).drop j) = rd32 (l.drop j) := by
  rw [List.drop_set]
  split
  · rfl
  · rw [rd32, rd32, List.take_set, List.set_eq_of_length_le]
    rw [List.length_take]; omega

end LittleEndian
