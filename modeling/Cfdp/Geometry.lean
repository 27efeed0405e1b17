import Cfdp.Invariant

/-!
# Chunk arithmetic

The receiver computes offsets, chunk sizes and packet counts in 64 and 32 bits, from
fields it has checked one by one. `chunkLen` and `numPackets` are the same without
overflow; `expectedPkts_eq` says when the two agree, `accepted_exact_iff` what is
missing in the checks of `handle_metadata`.
-/

namespace Cfdp

namespace JournalState

/-- The length of chunk `ci`. -/
def chunkLen (s : JournalState) (ci : Nat) : Nat :=
  min (s.fileSize.toNat - ci * s.chunkSize.toNat) s.chunkSize.toNat

/-- The number of packets of chunk `ci`. -/
def numPackets (s : JournalState) (ci : Nat) : Nat :=
  (s.chunkLen ci + s.packetSize.toNat - 1) / s.packetSize.toNat

variable {s : JournalState} {ci : UInt32}

/-- The product of two 32-bit numbers fits. -/
theorem toNat_chunkFileOffset (s : JournalState) (ci : UInt32) :
    (s.chunkFileOffset ci).toNat = ci.toNat * s.chunkSize.toNat := by
  have h1 := ci.toNat_lt
  have h2 := s.chunkSize.toNat_lt
  have h3 : ci.toNat * s.chunkSize.toNat ≤ (2 ^ 32 - 1) * (2 ^ 32 - 1) :=
    Nat.mul_le_mul (by omega) (by omega)
  simp only [chunkFileOffset, UInt64.toNat_mul, UInt32.toNat_toUInt64]
  exact Nat.mod_eq_of_lt (by omega)

theorem toNat_remaining (h : ci.toNat * s.chunkSize.toNat ≤ s.fileSize.toNat) :
    (s.fileSize - s.chunkFileOffset ci).toNat = s.fileSize.toNat - ci.toNat * s.chunkSize.toNat := by
  have hle : s.chunkFileOffset ci ≤ s.fileSize := by
    rw [UInt64.le_iff_toNat_le, toNat_chunkFileOffset]
    exact h
  rw [UInt64.toNat_sub_of_le _ _ hle, toNat_chunkFileOffset]

/-- The size clamped to the chunk size, narrowed to 32 bits. -/
theorem toNat_clamp (r : UInt64) (s : JournalState) :
    (min r s.chunkSize.toUInt64).toUInt32.toNat = min r.toNat s.chunkSize.toNat := by
  have hlt := s.chunkSize.toNat_lt
  have hmin : (min r s.chunkSize.toUInt64).toNat = min r.toNat s.chunkSize.toNat := by
    rw [← UInt32.toNat_toUInt64 s.chunkSize, Nat.min_def]
    show (if r ≤ s.chunkSize.toUInt64 then _ else _ : UInt64).toNat = _
    simp only [UInt64.le_iff_toNat_le]
    split <;> rfl
  rw [UInt64.toNat_toUInt32, hmin]
  exact Nat.mod_eq_of_lt (by omega)

theorem toNat_expectedPkts (s : JournalState) (ci : UInt32) (hps : 0 < s.packetSize.toNat) :
    (s.expectedPkts ci).toNat = (min (s.fileSize - s.chunkFileOffset ci).toNat s.chunkSize.toNat +
      s.packetSize.toNat - 1) % 2 ^ 32 / s.packetSize.toNat := by
  rw [expectedPkts, UInt32.toNat_div, UInt32.toNat_sub, UInt32.toNat_add, toNat_clamp,
    show (1 : UInt32).toNat = 1 from rfl]
  congr 1
  omega

/-- A chunk inside the file whose packet count does not overflow. -/
theorem expectedPkts_eq (hps : 0 < s.packetSize.toNat)
    (hin : ci.toNat * s.chunkSize.toNat ≤ s.fileSize.toNat)
    (hsz : s.chunkLen ci.toNat + s.packetSize.toNat ≤ 2 ^ 32) :
    (s.expectedPkts ci).toNat = s.numPackets ci.toNat := by
  rw [toNat_expectedPkts s ci hps, toNat_remaining hin, numPackets]
  show (s.chunkLen ci.toNat + s.packetSize.toNat - 1) % 2 ^ 32 / _ = _
  rw [Nat.mod_eq_of_lt (by omega)]

/-- If it overflows, it is zero. -/
theorem expectedPkts_overflow (hps : 0 < s.packetSize.toNat)
    (hin : ci.toNat * s.chunkSize.toNat ≤ s.fileSize.toNat)
    (hsz : 2 ^ 32 < s.chunkLen ci.toNat + s.packetSize.toNat) : s.expectedPkts ci = 0 := by
  have hlt := s.chunkSize.toNat_lt
  have hle : s.chunkLen ci.toNat ≤ s.chunkSize.toNat := Nat.min_le_right _ _
  refine UInt32.toNat_inj.mp ?_
  rw [toNat_expectedPkts s ci hps, toNat_remaining hin]
  show (s.chunkLen ci.toNat + s.packetSize.toNat - 1) % 2 ^ 32 / _ = 0
  have hps' := s.packetSize.toNat_lt
  have hwrap : (s.chunkLen ci.toNat + s.packetSize.toNat - 1) % 2 ^ 32 =
      s.chunkLen ci.toNat + s.packetSize.toNat - 1 - 2 ^ 32 := by omega
  rw [hwrap]
  exact Nat.div_eq_of_lt (by omega)

theorem numPackets_pos (hps : 0 < s.packetSize.toNat) {i : Nat} (h : 0 < s.chunkLen i) :
    0 < s.numPackets i := Nat.div_pos (by omega) hps

/-! ## Regular records -/

/-- A record whose chunks cover the file, with packet counts that do not overflow. -/
structure Regular (s : JournalState) : Prop where
  sane : s.Sane
  totalChunks : s.totalChunks.toNat = (s.fileSize.toNat + s.chunkSize.toNat - 1) / s.chunkSize.toNat
  sizes : s.chunkSize.toNat + s.packetSize.toNat - 1 < 2 ^ 32

theorem Regular.markDone (h : s.Regular) (ci : UInt32) : (s.markDone ci).Regular :=
  ⟨h.sane.markDone ci, h.totalChunks, h.sizes⟩

theorem Regular.markEof (h : s.Regular) : s.markEof.Regular := ⟨h.sane.markEof, h.totalChunks, h.sizes⟩

/-- Its chunks start inside the file. -/
theorem Regular.chunk_lt (h : s.Regular) (hci : ci.toNat < s.totalChunks.toNat) :
    ci.toNat * s.chunkSize.toNat < s.fileSize.toNat := by
  have hcs := h.sane.chunkSize
  have h1 : (ci.toNat + 1) * s.chunkSize.toNat ≤ s.totalChunks.toNat * s.chunkSize.toNat :=
    Nat.mul_le_mul_right _ hci
  have h2 : s.totalChunks.toNat * s.chunkSize.toNat ≤ s.fileSize.toNat + s.chunkSize.toNat - 1 := by
    rw [h.totalChunks]
    exact Nat.div_mul_le_self _ _
  rw [Nat.add_mul, Nat.one_mul] at h1
  omega

theorem Regular.expectedPkts (h : s.Regular) (hci : ci.toNat < s.totalChunks.toNat) :
    (s.expectedPkts ci).toNat = s.numPackets ci.toNat := by
  have hle : s.chunkLen ci.toNat ≤ s.chunkSize.toNat := Nat.min_le_right _ _
  have hsz := h.sizes
  exact expectedPkts_eq h.sane.packetSize.1 (h.chunk_lt hci).le (by omega)

theorem Regular.chunkLen_pos (h : s.Regular) (hci : ci.toNat < s.totalChunks.toNat) :
    0 < s.chunkLen ci.toNat := by
  have h1 := h.chunk_lt hci
  have h2 := h.sane.chunkSize
  unfold chunkLen
  omega

theorem Regular.numPackets_pos (h : s.Regular) (hci : ci.toNat < s.totalChunks.toNat) :
    0 < s.numPackets ci.toNat := JournalState.numPackets_pos h.sane.packetSize.1 (h.chunkLen_pos hci)

theorem Regular.fileSize_pos (h : s.Regular) : 0 < s.fileSize.toNat := by
  have h1 : (0 : UInt32).toNat * s.chunkSize.toNat < s.fileSize.toNat :=
    h.chunk_lt h.sane.totalChunks.1
  omega

/-- The offset of a chunk can be sought. -/
theorem Sane.offset_lt (h : s.Sane) (hci : ci.toNat < s.totalChunks.toNat) :
    (s.chunkFileOffset ci).toNat < 2 ^ 63 := by
  have h1 := h.totalChunks.2
  have h2 := s.chunkSize.toNat_lt
  have h3 : ci.toNat * s.chunkSize.toNat ≤ 2 ^ 20 * 2 ^ 32 := Nat.mul_le_mul (by omega) (by omega)
  rw [toNat_chunkFileOffset]
  omega

/-! ## What the checks leave open -/

/-- The arithmetic of chunk `ci` is that of a chunk of the file. -/
structure Exact (s : JournalState) (ci : UInt32) : Prop where
  inside : ci.toNat * s.chunkSize.toNat < s.fileSize.toNat
  remaining : (s.fileSize - s.chunkFileOffset ci).toNat = s.fileSize.toNat - ci.toNat * s.chunkSize.toNat
  packets : 1 ≤ (s.expectedPkts ci).toNat
  bound : s.expectedPkts ci - 1 ≠ uint32Max

theorem sub_one_ne_max {n : UInt32} (h : 1 ≤ n.toNat) : n - 1 ≠ uint32Max := by
  intro he
  have h1 := n.toNat_lt
  have h2 := congrArg UInt32.toNat he
  rw [UInt32.toNat_sub, show (1 : UInt32).toNat = 1 from rfl,
    show uint32Max.toNat = 2 ^ 32 - 1 from rfl] at h2
  omega

theorem exact_iff (hps : 0 < s.packetSize.toNat) (hcs : 0 < s.chunkSize.toNat) :
    s.Exact ci ↔ ci.toNat * s.chunkSize.toNat < s.fileSize.toNat ∧
      s.chunkLen ci.toNat + s.packetSize.toNat ≤ 2 ^ 32 := by
  constructor
  · intro h
    refine ⟨h.inside, ?_⟩
    by_contra hsz
    have h0 := expectedPkts_overflow hps h.inside.le (by omega)
    have := h.packets
    rw [h0] at this
    exact absurd this (by decide)
  · rintro ⟨hin, hsz⟩
    have hlen : 0 < s.chunkLen ci.toNat := by
      unfold chunkLen
      omega
    have hpos : 1 ≤ (s.expectedPkts ci).toNat := by
      rw [expectedPkts_eq hps hin.le hsz]
      exact numPackets_pos hps hlen
    exact ⟨hin, toNat_remaining hin.le, hpos, sub_one_ne_max hpos⟩

end JournalState

/-- **An accepted Metadata describes a consistent geometry** exactly if its last chunk starts
inside the file and the packet count of its first chunk does not overflow. -/
theorem accepted_exact_iff {rx : CfdpReceiver} {m : MetadataPdu} {env : Env} {o : Oracle}
    (h : rx.accepts m = true) :
    (∀ ci, ci < m.totalChunks → (rx.state.start env o m).Exact ci) ↔
      (m.totalChunks.toNat - 1) * m.chunkSize.toNat < m.fileSize.toNat ∧
        min m.fileSize.toNat m.chunkSize.toNat + m.packetSize.toNat - 1 < 2 ^ 32 := by
  obtain ⟨⟨htot, htot'⟩, ⟨hps, -⟩, hcs, -⟩ := MetadataPdu.sane_iff.mp (CfdpReceiver.sane_of_accepts h)
  have hiff (ci : UInt32) : (rx.state.start env o m).Exact ci ↔
    ci.toNat * m.chunkSize.toNat < m.fileSize.toNat ∧
      min (m.fileSize.toNat - ci.toNat * m.chunkSize.toNat) m.chunkSize.toNat + m.packetSize.toNat ≤ 2 ^ 32 :=
    JournalState.exact_iff (s := rx.state.start env o m) hps hcs
  simp only [hiff, UInt32.lt_iff_toNat_lt]
  constructor
  · intro hall
    have hlast := hall (UInt32.ofNat (m.totalChunks.toNat - 1)) (by
      rw [UInt32.toNat_ofNat', Nat.mod_eq_of_lt (by omega)]; omega)
    have hfirst := hall 0 (by simpa using htot)
    rw [UInt32.toNat_ofNat', Nat.mod_eq_of_lt (by omega)] at hlast
    rw [show (0 : UInt32).toNat = 0 from rfl, Nat.zero_mul, Nat.sub_zero] at hfirst
    exact ⟨hlast.1, by omega⟩
  · rintro ⟨hlast, hsz⟩ ci hci
    have hle : ci.toNat * m.chunkSize.toNat ≤ (m.totalChunks.toNat - 1) * m.chunkSize.toNat :=
      Nat.mul_le_mul_right _ (by omega)
    exact ⟨by omega, by omega⟩

/-- A Metadata for a file of `fileSize` bytes in one chunk. -/
def metadataOf (fileSize : UInt64) : MetadataPdu where
  transactionId := 1
  fileSize := fileSize
  chunkSize := 1
  packetSize := 1
  totalChunks := 1
  checksum := 0
  filename := CharArray.ofBytes 256 [0x61]

theorem accepted_exact_small :
    ((CfdpReceiver.construct .blank).state.start sampleEnv noFaults (metadataOf 1)).Exact 0 := by
  have h : (CfdpReceiver.construct .blank).accepts (metadataOf 1) = true := by decide +kernel
  have hgeo : ((metadataOf 1).totalChunks.toNat - 1) * (metadataOf 1).chunkSize.toNat <
      (metadataOf 1).fileSize.toNat ∧
      min (metadataOf 1).fileSize.toNat (metadataOf 1).chunkSize.toNat +
        (metadataOf 1).packetSize.toNat - 1 < 2 ^ 32 := by decide +kernel
  exact (@accepted_exact_iff _ _ sampleEnv noFaults h).mpr hgeo 0 (by decide +kernel)

/-- The Metadata of an empty file with one chunk is accepted. -/
theorem not_accepted_exact : ¬ ∀ (rx : CfdpReceiver) (m : MetadataPdu) (env : Env) (o : Oracle),
    rx.accepts m = true → ∀ ci, ci < m.totalChunks → (rx.state.start env o m).Exact ci := by
  intro h
  have hacc : (CfdpReceiver.construct .blank).accepts (metadataOf 0) = true := by decide +kernel
  have hin :=
    (h (.construct .blank) (metadataOf 0) sampleEnv noFaults hacc 0 (by decide +kernel)).inside
  have hout : ¬ (0 : UInt32).toNat * (metadataOf 0).chunkSize.toNat < (metadataOf 0).fileSize.toNat := by
    decide +kernel
  exact hout hin

end Cfdp
