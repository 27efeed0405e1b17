import Cfdp.Naks

/-!
# Retransmission

`_send_one_chunk` and `_on_nak` compute offset, size and packet count on their own, the
second from values read off a NAK. For every NAK of a transfer that came from the same
sender they transmit the same bytes (`retransmission_eq`), and the packets of all chunks
partition the file.
-/

namespace Cfdp

open Crash Prog Machine LittleEndian FileBytes

/-- The (chunk, packet) pairs named by the ranges, in order. -/
def NakPdu.named (nak : NakPdu) : List (Nat × Nat) :=
  nak.missingPackets.flatMap fun r =>
    (List.range (r.lastPacket.toNat + 1 - r.firstPacket.toNat)).map fun j =>
      (r.chunkIndex.toNat, r.firstPacket.toNat + j)

/-- The bytes of the file in a PDU. -/
def dataOf (pdu : Option Bytes) : Bytes :=
  match pdu.bind decodePdu with
  | some (.data d) => d.data
  | _ => []

/-- Ranges that do not touch are fewer than the packets. -/
theorem NakPdu.Proper.count {nak : NakPdu} {s : JournalState} {c : UInt32} (h : nak.Proper s c)
    (hg : s.Regular) : nak.missingPackets.length < 2 ^ 32 := by
  have hlt (r : PacketNakRange) (hr : r ∈ nak.missingPackets) : r.firstPacket.toNat < s.numPackets c.toNat := by
    have := h.bounds r hr
    omega
  have hnodup : (nak.missingPackets.map fun r => r.firstPacket.toNat).Nodup := by
    refine List.pairwise_map.mpr (h.separated.imp_of_mem fun {r q} hr _ hrq => ?_)
    have := h.bounds r hr
    omega
  have hsub : (nak.missingPackets.map fun r => r.firstPacket.toNat) ⊆ List.range (s.numPackets c.toNat) := by
    intro i hi
    obtain ⟨r, hr, rfl⟩ := List.mem_map.mp hi
    exact List.mem_range.mpr (hlt r hr)
  have hlen := (List.subperm_of_subset hnodup hsub).length_le
  rw [List.length_map, List.length_range, ← hg.expectedPkts h.lt] at hlen
  have := (s.expectedPkts c).toNat_lt
  omega

namespace Transfer

variable {env : Env} {x : Transfer} {s : JournalState} {nak : NakPdu} {c p : Nat}

/-! ## One packet -/

/-- `pdu` is what `_send_one_chunk` sends as packet `q.2` of chunk `q.1`: a Data PDU that is not empty. -/
structure Original (x : Transfer) (q : Nat × Nat) (pdu : Option Bytes) : Prop where
  chunk : q.1 < x.totalChunks
  sent : (x.oneChunk q.1)[q.2]? = some pdu
  data : ∃ raw d, pdu = some raw ∧ decodePdu raw = some (.data d) ∧ d.chunkIndex.toNat = q.1 ∧
    d.packetIndex.toNat = q.2 ∧ 1 ≤ d.dataLen.toNat ∧ d.dataLen.toNat ≤ x.packetSize

theorem Sizes.packet (hx : x.Sizes) (hc : c < x.totalChunks) (hc32 : c < 2 ^ 32)
    (hp : p < x.numPackets c) :
    ∃ raw, x.packet c p = some raw ∧ decodePdu raw = some (.data (x.dataPdu c p)) := by
  have hin := hx.inFile hc hc32 hp
  exact ⟨_, packet_of_inFile hin, hin.decodePdu hx.packetSize.2 _⟩

/-- **Both paths send the same packet.** -/
theorem Sizes.original (hx : x.Sizes) (hc : c < x.totalChunks) (hc32 : c < 2 ^ 32)
    (hp : p < x.numPackets c) :
    x.Original (c, p) (x.packet c p) where
  chunk := hc
  sent := by
    rw [hx.oneChunk hc, List.getElem?_map, List.getElem?_range hp]
    rfl
  data := by
    obtain ⟨raw, hraw, hd⟩ := hx.packet hc hc32 hp
    have hin := hx.inFile hc hc32 hp
    have hlen := hx.packetLen_pos hp
    have hle : x.packetLen c p ≤ x.packetSize := Nat.min_le_right _ _
    refine ⟨raw, _, hraw, hd, hin.toNat_chunkIndex, hin.toNat_packetIndex, ?_, ?_⟩
    · rw [hin.toNat_packetLen]
      omega
    · rw [hin.toNat_packetLen]
      omega

/-! ## The reaction to a NAK -/

theorem onNak_named (hps : x.packetSize ≠ 0) (hcount : nak.missingPackets.length < 2 ^ 32) :
    x.onNak ((serializeNak nak).drop 1) = nak.named.map fun q => x.packet q.1 q.2 := by
  rw [onNak_serializeNak hps hcount, NakPdu.named, List.map_flatMap]
  simp only [List.map_map]
  rfl

/-- **The answer to a proper NAK** is the packets it names, as they were sent first. -/
theorem onNak_original (hx : x.Sizes) (hm : x.Matches env s) {k : UInt32} (h : nak.Proper s k) :
    List.Forall₂ x.Original nak.named (x.onNak ((serializeNak nak).drop 1)) := by
  have hps := hx.packetSize.1
  rw [onNak_named (by omega) (h.count (hm.regular hx)), List.forall₂_map_right_iff, List.forall₂_same]
  intro q hq
  simp only [NakPdu.named, List.mem_flatMap, List.mem_map, List.mem_range] at hq
  obtain ⟨r, hr, j, hj, rfl⟩ := hq
  have hk := h.lt
  have hb := h.bounds r hr
  rw [hm.totalChunks] at hk
  rw [hm.numPackets] at hb
  rw [h.chunk r hr]
  exact hx.original hk k.toNat_lt (by omega)

/-! ## The partition of the file -/

theorem flatMap_chunks (x : Transfer) (n : Nat) :
    (List.range n).flatMap (fun ci => slice x.file (ci * x.chunkSize) (x.chunkLen ci)) =
      x.file.take (n * x.chunkSize) := by
  induction n with
  | zero => simp
  | succ n ih =>
    have hchunk : slice x.file (n * x.chunkSize) (x.chunkLen n) =
        (x.file.drop (n * x.chunkSize)).take x.chunkSize := by
      unfold slice
      rw [chunkLen, List.take_eq_take_iff, List.length_drop]
      omega
    rw [List.range_succ, List.flatMap_append, ih, List.flatMap_singleton, hchunk, Nat.add_mul, Nat.one_mul,
      List.take_add]

/-- The data of one chunk. -/
theorem Sizes.flatMap_oneChunk (hx : x.Sizes) (hc : c < x.totalChunks) (hc32 : c < 2 ^ 32) :
    (x.oneChunk c).flatMap dataOf = slice x.file (c * x.chunkSize) (x.chunkLen c) := by
  have hdata : ∀ p ∈ List.range (x.numPackets c), dataOf (x.packet c p) = x.packetData c p := by
    intro p hp
    obtain ⟨raw, hraw, hd⟩ := hx.packet hc hc32 (List.mem_range.mp hp)
    rw [hraw, dataOf, Option.bind_some, hd]
    rfl
  rw [hx.oneChunk hc, List.flatMap_map, List.flatMap_congr hdata, flatMap_packetData,
    Nat.min_eq_right (chunkLen_le c hx.packetSize.1)]

/-- **The chunks partition the file.** -/
theorem Sizes.flatMap_file (hx : x.Sizes) (htot : x.totalChunks < 2 ^ 32) :
    (List.range x.totalChunks).flatMap (fun ci => (x.oneChunk ci).flatMap dataOf) = x.file := by
  have hchunks : ∀ ci ∈ List.range x.totalChunks,
      (x.oneChunk ci).flatMap dataOf = slice x.file (ci * x.chunkSize) (x.chunkLen ci) := by
    intro ci hci
    have hlt := List.mem_range.mp hci
    exact hx.flatMap_oneChunk hlt (by omega)
  rw [List.flatMap_congr hchunks, flatMap_chunks, List.take_of_length_le (length_le hx.chunkSize)]

/-- With more chunks than 32 bits can count no Metadata can be built. -/
theorem send_raises (crc32 : UInt32 → Bytes → UInt32) (htot : 2 ^ 32 ≤ x.totalChunks) :
    x.send crc32 = ([], .raised) := by
  have hnone : x.metadataPdu crc32 = none := by
    cases hm : x.metadataPdu crc32 with
    | none => rfl
    | some raw =>
      obtain ⟨name, hp, -⟩ := metadataPdu_eq hm
      have := hp.totalChunks
      omega
  rw [send, hnone]
  rfl

/-! ## Every run -/

/-- **A retransmission equals the transmission**, for every file and all sizes that do not overflow:
* whatever has happened to the receiver, if its record is that of a Metadata of this sender, every NAK
  of every step is answered with one Data PDU for each pair it names, in order, the bytes
  `_send_one_chunk` sends for it;
* the Data PDUs of all chunks carry the file, byte for byte (`send` raises at once if the chunks
  cannot be counted in 32 bits). -/
theorem retransmission_eq (hx : x.Sizes) :
    (∀ (n₀ : Node) (hist : List Moment) (w : World), n₀.Fresh →
      Node.Run env (fun _ _ => True) n₀ hist (.up w) → x.Matches env w.rx.state →
      ∀ a ms n', Node.step env (.up w) a = some (ms, n') → ∃ out, n'.sent = w.sent ++ out ∧
        ∀ pdu ∈ out, isNak pdu = true → ∃ nak, pdu = serializeNak nak ∧
          List.Forall₂ x.Original nak.named (x.onNak (pdu.drop 1))) ∧
    (x.totalChunks < 2 ^ 32 →
      (∀ ci pi pdu, ci < x.totalChunks → (x.oneChunk ci)[pi]? = some pdu → x.Original (ci, pi) pdu) ∧
        (List.range x.totalChunks).flatMap (fun ci => (x.oneChunk ci).flatMap dataOf) = x.file) ∧
    (2 ^ 32 ≤ x.totalChunks → x.send env.crc32 = ([], .raised)) := by
  refine ⟨fun n₀ hist w hn h hm a ms n' hs => ?_, fun htot => ⟨fun ci pi pdu hci hpi => ?_,
    hx.flatMap_file htot⟩, send_raises env.crc32⟩
  · obtain ⟨out, hsent, hnak⟩ := Node.nak_proper hn h hs
    refine ⟨out, hsent, fun pdu hpdu hk => ?_⟩
    obtain ⟨w₁, hw, -, hproper⟩ := hnak pdu hpdu hk
    cases hw
    obtain ⟨nak, c, rfl, hp, -⟩ := hproper (hm.regular hx)
    exact ⟨nak, rfl, onNak_original hx hm hp⟩
  · rw [hx.oneChunk hci, List.getElem?_map, Option.map_eq_some_iff] at hpi
    obtain ⟨p, hp, rfl⟩ := hpi
    obtain ⟨hlt, hpe⟩ := List.getElem?_eq_some_iff.mp hp
    rw [List.getElem_range] at hpe
    subst hpe
    rw [List.length_range] at hlt
    exact hx.original hci (by omega) hlt

/-- The second chunk has arrived, and the receiver asks for the first one; its last packet is short. -/
theorem retransmission_eq_small :
    (∃ nak : NakPdu, serializeNak ⟨1, [⟨0, 0, 1⟩]⟩ = serializeNak nak ∧
      List.Forall₂ five.Original nak.named (five.onNak ((serializeNak ⟨1, [⟨0, 0, 1⟩]⟩).drop 1))) ∧
    (five.onNak ((serializeNak ⟨1, [⟨0, 0, 1⟩]⟩).drop 1)).length = 2 ∧
    (List.range five.totalChunks).flatMap (fun ci => (five.oneChunk ci).flatMap dataOf) = five.file := by
  have hx : five.Sizes := wellFormed_five.toSizes
  have hrun : (sampleRun [powerOn, deliver (five.metadataRaw sampleEnv.crc32),
      deliver (five.packetRaw 1 0)]).any (fun r => r.2.world?.any fun w => w.rx.transferActive &&
        decide (w.rx.state.transactionId = five.tid) && decide (w.rx.state.fileSize.toNat = 5) &&
          decide (w.rx.state.chunkSize.toNat = 3) && decide (w.rx.state.packetSize.toNat = 2) &&
          decide (w.rx.state.totalChunks.toNat = five.totalChunks) &&
          decide (w.rx.state.checksumExpected = five.checksum sampleEnv.crc32) &&
          decide (w.rx.state.recvFilePath = five.path sampleEnv) &&
          (Node.step sampleEnv (.up w) (deliver (five.eofPdu sampleEnv.crc32))).any fun r' =>
            decide (r'.2.sent = w.sent ++ [serializeNak ⟨1, [⟨0, 0, 1⟩]⟩])) = true := by
    decide +kernel
  simp only [Option.any_eq_true, Node.world?_eq_some, Bool.and_eq_true, decide_eq_true_eq,
    Prod.exists] at hrun
  obtain ⟨hist, n, hr, w, rfl, ⟨⟨⟨⟨⟨⟨⟨ha, h1⟩, h2⟩, h3⟩, h4⟩, h5⟩, h6⟩, h7⟩, ms, n', hs, hsent⟩ := hrun
  have hrun : Node.Run sampleEnv (fun _ _ => True) unusedNode hist (.up w) :=
    Machine.exec_run hr fun _ _ _ _ _ => trivial
  have hm : five.Matches sampleEnv w.rx.state :=
    ⟨h1, h2, h3, h4, h5, h6, h7, (Node.Run.ok unusedNode_fresh hrun).1.sane ha⟩
  obtain ⟨hpath, hfile, -⟩ := @retransmission_eq sampleEnv _ hx
  obtain ⟨out, hout, hnak⟩ := hpath unusedNode hist w unusedNode_fresh hrun hm _ ms n' hs
  rw [hsent] at hout
  have hpdu : serializeNak ⟨1, [⟨0, 0, 1⟩]⟩ ∈ out := by
    rw [← List.append_cancel_left hout]
    exact List.mem_singleton_self _
  exact ⟨hnak _ hpdu rfl, by decide +kernel, (hfile (by decide)).2⟩

end Transfer

end Cfdp
