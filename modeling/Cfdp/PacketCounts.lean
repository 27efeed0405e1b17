import Cfdp.Transfer

/-!
# Packet counts on both sides

The sender counts the packets of a chunk in unbounded integers, the receiver in 32
bits, narrowed before the rounding addition. They agree on every chunk exactly if
that addition does not wrap on the first one.
-/

namespace Cfdp

namespace Transfer

/-- Sender and receiver agree on the packets of chunk `ci`: the count `handle_data` expects, the
range `check_completion` asks for, and the count in the sender's Data PDUs. -/
structure CountsAgree (x : Transfer) (s : JournalState) (ci : Nat) : Prop where
  expected : ((s.expectedPkts (UInt32.ofNat ci)).toNat : Int) = x.totalPkts ci
  asked : ∀ rx : CfdpReceiver, rx.state = s → rx.chunkNak (UInt32.ofNat ci) = serializeNak
    ⟨s.transactionId, [⟨UInt32.ofNat ci, 0, UInt32.ofNat (x.totalPkts ci - 1).toNat⟩]⟩
  kept : ∀ pi raw d, x.packet ci pi = some raw → decodePdu raw = some (.data d) →
    (d.totalPackets != s.expectedPkts d.chunkIndex) = false

variable {env : Env} {o : Oracle} {x : Transfer} {rx : CfdpReceiver} {ci : Nat} {name : Bytes}

/-- The lengths of a chunk on both sides. -/
theorem chunkLen_start (hp : x.Packable name) (hci : ci < x.totalChunks) :
    (rx.state.start env o (x.metadata env.crc32 name)).chunkLen (UInt32.ofNat ci).toNat =
      x.chunkLen ci := by
  have hlt := hp.totalChunks
  have h32 : (UInt32.ofNat ci).toNat = ci := by
    rw [UInt32.toNat_ofNat', Nat.mod_eq_of_lt (by omega)]
  show min ((UInt64.ofNat x.file.length).toNat - _ * (UInt32.ofNat x.chunkSize).toNat)
    (UInt32.ofNat x.chunkSize).toNat = _
  rw [h32, UInt64.toNat_ofNat', UInt32.toNat_ofNat', Nat.mod_eq_of_lt hp.fileSize,
    Nat.mod_eq_of_lt hp.chunkSize.2, chunkLen]

/-- A count that is right in `handle_data` is right everywhere. -/
theorem countsAgree_of_expected {s : JournalState} (hps : x.packetSize ≤ defaultPacketSize)
    (hexp : (s.expectedPkts (UInt32.ofNat ci)).toNat = x.numPackets ci)
    (hpos : 0 < x.numPackets ci) (htotal : x.totalPkts ci = x.numPackets ci) :
    x.CountsAgree s ci := by
  refine ⟨by rw [hexp, htotal], fun rx' hrx => ?_, fun pi raw d hraw hd => ?_⟩
  · have hlast : s.expectedPkts (UInt32.ofNat ci) - 1 =
        UInt32.ofNat (x.totalPkts ci - 1).toNat := by
      have hn := (s.expectedPkts (UInt32.ofNat ci)).toNat_lt
      apply UInt32.toNat_inj.mp
      rw [htotal, UInt32.toNat_sub, UInt32.toNat_ofNat', hexp, show (1 : UInt32).toNat = 1 from rfl]
      omega
    unfold CfdpReceiver.chunkNak
    rw [hrx, hlast]
  · obtain ⟨hfile, hd'⟩ := decodePdu_packet hraw hps
    rw [hd'] at hd
    cases hd
    rw [bne_eq_false_iff_eq, ← UInt32.toNat_inj, hfile.toNat_totalPackets]
    exact hexp.symm

/-- **The counts of one chunk agree** exactly if rounding up its length does not wrap. -/
theorem countsAgree_iff (hp : x.Packable name)
    (hacc : rx.accepts (x.metadata env.crc32 name) = true) (hci : ci < x.totalChunks) :
    x.CountsAgree (rx.state.start env o (x.metadata env.crc32 name)) ci ↔
      x.chunkLen ci + x.packetSize - 1 < 2 ^ 32 := by
  have hm := matches_start (o := o) hp (CfdpReceiver.sane_of_accepts hacc) rx.state
  have hlen := @chunkLen_start env o x rx ci name hp hci
  generalize rx.state.start env o (x.metadata env.crc32 name) = s at hm hlen
  have hps := hm.sane.packetSize
  have hcs := hm.sane.chunkSize
  rw [hm.chunkSize] at hcs
  have hlt32 := hp.totalChunks
  have h32 : (UInt32.ofNat ci).toNat = ci := by
    rw [UInt32.toNat_ofNat', Nat.mod_eq_of_lt (by omega)]
  have hin := chunk_lt hcs hci
  have hin' : (UInt32.ofNat ci).toNat * s.chunkSize.toNat ≤ s.fileSize.toNat := by
    rw [h32, hm.chunkSize, hm.fileSize]
    exact hin.le
  have htotal := totalPkts_eq (by rw [← hm.packetSize]; exact hps.1) hin.le
  have hpos : 0 < x.numPackets ci := by
    have := chunkLen_pos hcs hci
    rw [hm.packetSize] at hps
    exact Nat.div_pos (by omega) hps.1
  rw [← hlen, ← hm.packetSize]
  constructor
  · intro h
    by_contra hover
    have h0 := JournalState.expectedPkts_overflow hps.1 hin' (by omega)
    have hexp := h.expected
    rw [h0, htotal, show (0 : UInt32).toNat = 0 from rfl] at hexp
    omega
  · intro hsz
    refine countsAgree_of_expected (by rw [← hm.packetSize]; exact hps.2) ?_ hpos htotal
    rw [JournalState.expectedPkts_eq hps.1 hin' (by omega), hm.numPackets, h32]

/-- **Sender and receiver agree on all packet counts** exactly if rounding up the first chunk does
not wrap in 32 bits. -/
theorem counts_agree_iff {raw : Bytes} {m : MetadataPdu} (hne : x.file ≠ [])
    (hraw : x.metadataPdu env.crc32 = some raw) (hd : decodePdu raw = some (.metadata m))
    (hacc : rx.accepts m = true) :
    (∀ ci, ci < x.totalChunks → x.CountsAgree (rx.state.start env o m) ci) ↔
      min x.file.length x.chunkSize + x.packetSize - 1 < 2 ^ 32 := by
  obtain ⟨name, hp, hd'⟩ := decodePdu_metadataPdu hraw
  rw [hd'] at hd
  cases hd
  have hcs := hp.chunkSize.1
  have hfile : 0 < x.file.length := List.length_pos_iff.mpr hne
  have hfirst : x.chunkLen 0 = min x.file.length x.chunkSize := by
    unfold chunkLen
    rw [Nat.zero_mul, Nat.sub_zero]
  constructor
  · intro h
    have h0 : 0 < x.totalChunks := Nat.div_pos (by omega) hcs
    rw [← hfirst]
    exact (countsAgree_iff hp hacc h0).mp (h 0 h0)
  · intro hsz ci hci
    have hle : x.chunkLen ci ≤ min x.file.length x.chunkSize := by
      unfold chunkLen
      omega
    exact (countsAgree_iff hp hacc hci).mpr (by omega)

/-- A chunk of two packets, the second of them short, and a short chunk of one. -/
theorem counts_agree_small : five.numPackets 0 = 2 ∧ five.numPackets 1 = 1 ∧ ∀ ci, ci < 2 →
    five.CountsAgree ((CfdpReceiver.construct .blank).state.start sampleEnv noFaults
      (five.metadata sampleEnv.crc32 [0x61])) ci := by
  have hacc : (CfdpReceiver.construct .blank).accepts (five.metadata sampleEnv.crc32 [0x61]) = true := by
    decide +kernel
  exact ⟨by decide, by decide, (counts_agree_iff (by decide) (metadataPdu_of_packable packable_five)
    (decodePdu_metadata _) hacc).mpr (by decide)⟩

/-- A file of `2 ^ 32 - 1` bytes in one chunk, in packets of two bytes. -/
def large : Transfer where
  chunkSize := 2 ^ 32 - 1
  packetSize := 2
  file := List.replicate (2 ^ 32 - 1) 0
  destFilename := ['a']

theorem not_counts_agree :
    ¬ ∀ (env : Env) (o : Oracle) (x : Transfer) (rx : CfdpReceiver) (raw : Bytes)
    (m : MetadataPdu), x.file ≠ [] → x.metadataPdu env.crc32 = some raw →
    decodePdu raw = some (.metadata m) → rx.accepts m = true →
    ∀ ci, ci < x.totalChunks → x.CountsAgree (rx.state.start env o m) ci := by
  intro h
  have hlen : large.file.length = 2 ^ 32 - 1 := List.length_replicate
  have htotal : large.totalChunks = 1 := by
    rw [totalChunks, hlen]
    rfl
  have hp : large.Packable [0x61] :=
    ⟨by decide, by rw [hlen]; decide, by decide, by decide, by rw [htotal]; decide⟩
  have hsane : (large.metadata sampleEnv.crc32 [0x61]).sane = true := by
    have h1 : (large.metadata sampleEnv.crc32 [0x61]).totalChunks = 1 := by
      show UInt32.ofNat large.totalChunks = 1
      rw [htotal]
      rfl
    rw [MetadataPdu.sane_iff, h1]
    exact ⟨by decide, by decide, by decide, by decide⟩
  have hacc : (CfdpReceiver.construct .blank).accepts
      (large.metadata sampleEnv.crc32 [0x61]) = true := by
    rw [CfdpReceiver.accepts, hsane]
    rfl
  have hne : large.file ≠ [] := List.length_pos_iff.mp (by omega)
  have hagree := h sampleEnv noFaults large (.construct .blank) _ _ hne (metadataPdu_of_packable hp)
    (decodePdu_metadata _) hacc 0 (by omega)
  have := (countsAgree_iff hp hacc (by omega)).mp hagree
  rw [chunkLen, hlen] at this
  exact absurd this (by decide)

end Transfer

end Cfdp
