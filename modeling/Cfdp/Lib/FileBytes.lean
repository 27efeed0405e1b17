import Cfdp.Lib.LittleEndian

/-!
# Byte files written at offsets

`pwrite f off d` is the file `f` after `d` is written at offset `off`: a gap
before `off` reads as zeros. `AgreeOn F g lo hi` says that `g` holds the bytes
of `F` at the positions `[lo, hi)`. Writing bytes of `F` at their own position
(`slice`) keeps every agreement there was.
-/

namespace FileBytes

def zeros (n : Nat) : Bytes := List.replicate n 0

/-- `d` written into `f` at `off`; writing nothing leaves the file alone. -/
def pwrite (f : Bytes) (off : Nat) (d : Bytes) : Bytes :=
  if d = [] then f
  else (f ++ zeros (off - f.length)).take off ++ (d ++ f.drop (off + d.length))

/-- The `n` bytes of `F` from `off` on. -/
def slice (F : Bytes) (off n : Nat) : Bytes := (F.drop off).take n

theorem length_slice (F : Bytes) (off n : Nat) : (slice F off n).length = min n (F.length - off) := by
  simp [slice]

theorem length_slice_of_le {F : Bytes} {off n : Nat} (h : off + n ≤ F.length) :
    (slice F off n).length = n := by
  rw [length_slice]; omega

theorem getElem?_slice (F : Bytes) (off n q : Nat) :
    (slice F off n)[q]? = if q < n then F[off + q]? else none := by
  simp [slice, List.getElem?_take]

theorem take_slice (F : Bytes) (off n i : Nat) : (slice F off n).take i = slice F off (min i n) := by
  simp [slice, List.take_take]

theorem slice_append (F : Bytes) (off n m : Nat) :
    slice F off n ++ slice F (off + n) m = slice F off (n + m) := by
  simp only [slice, ← List.drop_drop]
  rw [List.take_add]

@[simp] theorem pwrite_nil (f : Bytes) (off : Nat) : pwrite f off [] = f := by simp [pwrite]

theorem length_pwrite {d : Bytes} (hd : d ≠ []) (f : Bytes) (off : Nat) :
    (pwrite f off d).length = max f.length (off + d.length) := by
  simp only [pwrite, hd, if_false, List.length_append, List.length_take, List.length_drop, zeros,
    List.length_replicate]
  omega

/-- A write within the file, up to its end. -/
theorem take_pwrite {f d : Bytes} {off : Nat} (hd : d ≠ []) (hoff : off ≤ f.length) :
    (pwrite f off d).take (off + d.length) = f.take off ++ d := by
  have hz : off - f.length = 0 := by omega
  unfold pwrite
  rw [if_neg hd, hz, zeros, List.replicate_zero, List.append_nil, ← List.append_assoc]
  apply List.take_left'
  rw [List.length_append, List.length_take, Nat.min_eq_left hoff]

theorem getElem?_pwrite_in {f d : Bytes} {off q : Nat} (h1 : off ≤ q) (h2 : q < off + d.length) :
    (pwrite f off d)[q]? = d[q - off]? := by
  have hd : d ≠ [] := by rintro rfl; simp at h2; omega
  have hl : ((f ++ zeros (off - f.length)).take off).length = off := by
    simp only [List.length_take, List.length_append, zeros, List.length_replicate]; omega
  rw [pwrite, if_neg hd, List.getElem?_append_right (by omega), hl,
    List.getElem?_append_left (by omega)]

theorem getElem?_pwrite_out {f d : Bytes} {off q : Nat} (hq : q < f.length)
    (h : q < off ∨ off + d.length ≤ q) : (pwrite f off d)[q]? = f[q]? := by
  by_cases hd : d = []
  · rw [hd, pwrite_nil]
  have hl : ((f ++ zeros (off - f.length)).take off).length = off := by
    simp only [List.length_take, List.length_append, zeros, List.length_replicate]; omega
  unfold pwrite
  rw [if_neg hd]
  rcases h with h | h
  · rw [List.getElem?_append_left (by omega), List.getElem?_take_of_lt h,
      List.getElem?_append_left hq]
  · rw [List.getElem?_append_right (by omega), hl, List.getElem?_append_right (by omega),
      List.getElem?_drop]
    congr 1; omega

/-! ## Agreement with a source file -/

/-- `g` holds the bytes of `F` at the positions `[lo, hi)`. -/
def AgreeOn (F g : Bytes) (lo hi : Nat) : Prop :=
  ∀ q, lo ≤ q → q < hi → q < g.length ∧ g[q]? = F[q]?

section

variable {F g : Bytes} {lo hi off n : Nat}

theorem AgreeOn.pwrite_slice (h : AgreeOn F g lo hi) :
    AgreeOn F (pwrite g off (slice F off n)) lo hi := by
  intro q h1 h2
  obtain ⟨hq, hg⟩ := h q h1 h2
  have hF : q < F.length := by
    by_contra hF
    rw [List.getElem?_eq_none (show F.length ≤ q by omega), List.getElem?_eq_getElem hq] at hg
    cases hg
  have hl := length_slice F off n
  refine ⟨?_, ?_⟩
  · by_cases hd : slice F off n = []
    · rwa [hd, pwrite_nil]
    · rw [length_pwrite hd]; omega
  · by_cases hin : off ≤ q ∧ q < off + (slice F off n).length
    · rw [getElem?_pwrite_in hin.1 hin.2, getElem?_slice, if_pos (by omega)]
      congr 1; omega
    · rw [getElem?_pwrite_out hq (by omega), hg]

/-- The positions just written agree. -/
theorem agreeOn_pwrite_slice (h : off + n ≤ F.length) :
    AgreeOn F (pwrite g off (slice F off n)) off (off + n) := by
  intro q h1 h2
  have hl := length_slice_of_le h
  have hd : slice F off n ≠ [] := by
    intro hd; rw [hd] at hl; simp at hl; omega
  refine ⟨by rw [length_pwrite hd]; omega, ?_⟩
  rw [getElem?_pwrite_in h1 (by omega), getElem?_slice, if_pos (by omega)]
  congr 1; omega

theorem length_pwrite_slice_le (hg : g.length ≤ F.length) :
    (pwrite g off (slice F off n)).length ≤ F.length := by
  by_cases hd : slice F off n = []
  · rwa [hd, pwrite_nil]
  · have hl := length_slice F off n
    have : (slice F off n).length ≠ 0 := by simpa using hd
    rw [length_pwrite hd]; omega

/-- What lies beyond the source file stays. -/
theorem drop_pwrite_slice (F g : Bytes) (off n : Nat) :
    (pwrite g off (slice F off n)).drop F.length = g.drop F.length := by
  by_cases hd : slice F off n = []
  · rw [hd, pwrite_nil]
  have hl := length_slice F off n
  have hne : (slice F off n).length ≠ 0 := by simpa using hd
  apply List.ext_getElem?
  intro q
  rw [List.getElem?_drop, List.getElem?_drop]
  by_cases hq : F.length + q < g.length
  · exact getElem?_pwrite_out hq (by omega)
  · rw [List.getElem?_eq_none (by rw [length_pwrite hd]; omega), List.getElem?_eq_none (by omega)]

/-- Agreement everywhere: the file begins with the source file. -/
theorem AgreeOn.eq_append (h : AgreeOn F g 0 F.length) : g = F ++ g.drop F.length := by
  apply List.ext_getElem?
  intro q
  by_cases hq : q < F.length
  · rw [List.getElem?_append_left hq]
    exact (h q (Nat.zero_le q) hq).2
  · rw [List.getElem?_append_right (by omega), List.getElem?_drop]
    congr 1
    omega

/-- Agreement everywhere, without extra bytes, is equality. -/
theorem AgreeOn.eq (h : AgreeOn F g 0 F.length) (hg : g.length ≤ F.length) : g = F := by
  have := h.eq_append
  rwa [List.drop_eq_nil_of_le hg, List.append_nil] at this

theorem agreeOn_self (F : Bytes) (hhi : hi ≤ F.length) : AgreeOn F F lo hi :=
  fun _ _ h2 => ⟨by omega, rfl⟩

/-- Rewriting its own bytes leaves a file unchanged. -/
theorem pwrite_slice_self (F : Bytes) (off n : Nat) : pwrite F off (slice F off n) = F :=
  AgreeOn.eq ((agreeOn_self F (Nat.le_refl _)).pwrite_slice) (length_pwrite_slice_le (Nat.le_refl _))

end

end FileBytes
