import Cfdp.Lib.Progress
import Cfdp.Resume
import Cfdp.Session

/-!
# A lost chunk ACK

After a timeout the sender transmits Metadata and Eof, reads what the receiver answers,
and reacts (`Exchange`); nothing is lost any more. Whether the receiver acknowledges
chunk `k` again is settled by `timeout_acked_iff`.

The receiver acknowledges a chunk again only on its packet 0, which the sender transmits
only when asked. What the receiver asks for is its target (`Target`): the chunk in
progress, or the first one missing that is not beyond those seen. Every exchange about a
target completes it, so all chunks seen get done; then the final ACK follows if these
were all, and silence otherwise.
-/

namespace Cfdp

open Crash Prog Machine LittleEndian Progress

/-! ## Exchanges -/

/-- PDUs arrive in order, no call fails, and the receiver is then `w'`. -/
def World.Takes (env : Env) (w : World) (pdus : List Bytes) (w' : World) : Prop :=
  ∃ ds, ds.map Prod.fst = pdus ∧ (∀ d ∈ ds, d.2.Smooth) ∧ w.receiveAll env ds = some w'

/-- What has been transmitted since `w`. -/
def World.sentSince (w w' : World) : List Bytes := w'.sent.drop w.sent.length

/-- The receiver, the answers the sender has not read, where the sender waits, and all
answers so far. -/
structure Exchange where
  w : World
  inbox : List Bytes
  phase : Phase
  answers : List Bytes

/-- The exchange a reaction of the sender opens, its PDUs delivered. -/
def Exchange.start (w w' : World) (phase : Phase) : Exchange :=
  ⟨w', w.sentSince w', phase, w.sentSince w'⟩

/-- The sender reads what `recv` gives it, and its reaction is delivered. -/
inductive Exchange.Step (env : Env) (x : Transfer) : Exchange → Exchange → Prop
  | read {w w' : World} {batch rest answers : List Bytes} {phase : Phase} (hb : phase.Reads batch)
      (h : w.Takes env (x.onBatch env.crc32 phase batch).1 w') :
      Step env x ⟨w, batch ++ rest, phase, answers⟩
        ⟨w', rest ++ w.sentSince w', (x.onBatch env.crc32 phase batch).2, answers ++ w.sentSince w'⟩

section

variable {env : Env} {w w' : World} {pdus qdus out : List Bytes} {raw : Bytes}

theorem World.sentSince_eq (h : w'.sent = w.sent ++ out) : w.sentSince w' = out := by
  unfold sentSince
  rw [h, List.drop_left]

theorem World.takes_nil : w.Takes env [] w' ↔ w' = w := by
  constructor
  · rintro ⟨ds, hds, -, h⟩
    rw [List.map_eq_nil_iff.mp hds, receiveAll_nil] at h
    exact (Option.some.inj h).symm
  · rintro rfl
    exact ⟨[], rfl, by simp, rfl⟩

theorem World.takes_cons : w.Takes env (raw :: pdus) w' ↔
    ∃ o w₁, o.Smooth ∧ w.receive env (raw, o) = some w₁ ∧ w₁.Takes env pdus w' := by
  constructor
  · rintro ⟨ds, hds, ho, h⟩
    obtain ⟨d, ds, rfl, rfl, rfl⟩ := List.map_eq_cons_iff.mp hds
    rw [receiveAll_cons, Option.bind_eq_some_iff] at h
    obtain ⟨w₁, h₁, h⟩ := h
    exact ⟨d.2, w₁, ho d List.mem_cons_self, h₁, ds, rfl, fun e he => ho e (List.mem_cons_of_mem _ he), h⟩
  · rintro ⟨o, w₁, ho, h₁, ds, rfl, hs, h⟩
    refine ⟨(raw, o) :: ds, rfl, fun d hd => ?_, by rw [receiveAll_cons, h₁]; exact h⟩
    rcases List.mem_cons.mp hd with rfl | hd
    · exact ho
    · exact hs d hd

theorem World.takes_append : w.Takes env (pdus ++ qdus) w' ↔
    ∃ w₁, w.Takes env pdus w₁ ∧ w₁.Takes env qdus w' := by
  induction pdus generalizing w with
  | nil => simp [takes_nil]
  | cons raw pdus ih =>
    simp only [List.cons_append, takes_cons, ih]
    constructor
    · rintro ⟨o, w₁, ho, h₁, w₂, h₂, h⟩
      exact ⟨w₂, ⟨o, w₁, ho, h₁, h₂⟩, h⟩
    · rintro ⟨w₂, ⟨o, w₁, ho, h₁, h₂⟩, h⟩
      exact ⟨o, w₁, ho, h₁, w₂, h₂, h⟩

end

/-! ## The sender reads a NAK -/

/-- The packets a NAK asks for. -/
def NakPdu.packets (nak : NakPdu) : List Nat :=
  nak.missingPackets.flatMap fun r =>
    (List.range (r.lastPacket.toNat + 1 - r.firstPacket.toNat)).map (r.firstPacket.toNat + ·)

theorem NakPdu.mem_packets {nak : NakPdu} {pi : Nat} : pi ∈ nak.packets ↔
    ∃ r ∈ nak.missingPackets, r.firstPacket.toNat ≤ pi ∧ pi ≤ r.lastPacket.toNat := by
  simp only [packets, List.mem_flatMap, List.mem_map, List.mem_range]
  constructor
  · rintro ⟨r, hr, j, hj, rfl⟩
    exact ⟨r, hr, by omega, by omega⟩
  · rintro ⟨r, hr, h1, h2⟩
    exact ⟨r, hr, pi - r.firstPacket.toNat, by omega, by omega⟩

theorem drop_flatMap_toBytes (rs : List PacketNakRange) (i : Nat) :
    (rs.flatMap PacketNakRange.toBytes).drop (i * 12) = (rs.drop i).flatMap PacketNakRange.toBytes := by
  induction i generalizing rs with
  | zero => simp
  | succ i ih =>
    cases rs with
    | nil => simp
    | cons r rs =>
      rw [List.flatMap_cons, show (i + 1) * 12 = r.toBytes.length + i * 12 by
        rw [PacketNakRange.toBytes_length]; omega, ← List.drop_drop, List.drop_left, ih,
          List.drop_succ_cons]

/-- A loop over the positions of a list is a loop over the list. -/
theorem flatMap_range_length {α β : Type} (rs : List α) (g : Nat → List β) (f : α → List β)
    (h : ∀ i r, rs[i]? = some r → g i = f r) : (List.range rs.length).flatMap g = rs.flatMap f := by
  induction rs generalizing g with
  | nil => rfl
  | cons r rs ih =>
    rw [List.length_cons, List.range_succ_eq_map, List.flatMap_cons, List.flatMap_cons, h 0 r rfl,
      List.flatMap_map, ih (fun i => g (i + 1)) fun i q hq => h (i + 1) q hq]

/-! ## Data PDUs after the Eof -/

namespace CfdpReceiver

variable {rx : CfdpReceiver} {d : DataPdu} {ci : UInt32}

theorem see_of_le (h : ci.toNat ≤ rx.maxChunkSeen.toNat) : rx.see ci = rx := by
  have : ¬ ci > rx.maxChunkSeen := by
    rw [gt_iff_lt, UInt32.lt_iff_toNat_lt]
    omega
  rw [see, if_neg this]

theorem take_maxChunkSeen_of_le (h : d.chunkIndex.toNat ≤ rx.maxChunkSeen.toNat) :
    (rx.take d).maxChunkSeen = rx.maxChunkSeen := by
  refine UInt32.toNat_inj.mp ?_
  rw [take_maxChunkSeen]
  omega

theorem leaveNak_none (h : rx.currentChunkIndex = ci ∨ rx.currentChunkIndex = uint32Max) :
    rx.leaveNak ci = none := by
  rcases h with h | h
  · simp [leaveNak, h]
  · simp [leaveNak, not_unfinished h]

/-- A packet of a chunk that is not done is stored, or completes the chunk and makes the
receiver check for completion. -/
theorem replyData_eof (ha : rx.Accepted d) (hopen : rx.state.isDone d.chunkIndex = false)
    (he : rx.state.eofReceived = true) :
    rx.replyData true d = (rx.take d, (rx.leaveNak d.chunkIndex).toList) ∨
      rx.replyData true d = ((((rx.take d).flushed d.chunkIndex).complete true).1,
        (rx.leaveNak d.chunkIndex).toList ++
          rx.ack d.chunkIndex :: (((rx.take d).flushed d.chunkIndex).complete true).2) := by
  have hne : ¬ rx.state.isDone d.chunkIndex = true := by rw [hopen]; exact Bool.false_ne_true
  rw [replyData, if_pos (acceptsData_iff.mpr ha), if_neg hne]
  split
  · right
    rw [replyFlush, take_state, he, if_pos rfl]
    simp only [ack, take_state]
  · exact .inl rfl

end CfdpReceiver

namespace Transfer

variable {x : Transfer} {nak : NakPdu} {k : UInt32}

/-- A NAK for packets of chunk `k` of the file. -/
structure Asks (x : Transfer) (k : UInt32) (nak : NakPdu) : Prop where
  lt : k.toNat < x.totalChunks
  tid : nak.transactionId = x.tid
  chunk : ∀ r ∈ nak.missingPackets, r.chunkIndex = k
  packets : ∀ r ∈ nak.missingPackets, r.lastPacket.toNat < x.numPackets k.toNat
  count : nak.missingPackets.length < 2 ^ 32

theorem Asks.packet_lt (h : x.Asks k nak) {pi : Nat} (hpi : pi ∈ nak.packets) :
    pi < x.numPackets k.toNat := by
  obtain ⟨r, hr, -, h2⟩ := NakPdu.mem_packets.mp hpi
  have := h.packets r hr
  omega

/-- **What the sender transmits for a NAK**: the packets of its ranges, in order. -/
theorem onNak_serializeNak (hps : x.packetSize ≠ 0) (hcount : nak.missingPackets.length < 2 ^ 32) :
    x.onNak ((serializeNak nak).drop 1) = nak.missingPackets.flatMap fun r =>
      (List.range (r.lastPacket.toNat + 1 - r.firstPacket.toNat)).map fun j =>
        x.packet r.chunkIndex.toNat (r.firstPacket.toNat + j) := by
  have hpay : (serializeNak nak).drop 1 = le32 nak.transactionId ++
      (le32 (UInt32.ofNat nak.missingPackets.length) ++
        nak.missingPackets.flatMap PacketNakRange.toBytes) := rfl
  have hlen : ((serializeNak nak).drop 1).length = 8 + nak.missingPackets.length * 12 := by
    rw [hpay, List.length_append, List.length_append, length_le32, length_le32, length_flatMap_toBytes]
    omega
  have hcount : (rd32 (((serializeNak nak).drop 1).drop 4)).toNat = nak.missingPackets.length := by
    rw [hpay, drop_le32, List.drop_zero, rd32_le32, UInt32.toNat_ofNat', Nat.mod_eq_of_lt hcount]
  have hdrop (i : Nat) : ((serializeNak nak).drop 1).drop (8 + i * 12) =
      (nak.missingPackets.drop i).flatMap PacketNakRange.toBytes := by
    rw [hpay, show 8 + i * 12 = i * 12 + 4 + 4 by omega, drop_le32, drop_le32, drop_flatMap_toBytes]
  rw [Transfer.onNak, if_neg (by omega), hcount]
  refine flatMap_range_length _ _ _ fun i r hr => ?_
  obtain ⟨hi, hri⟩ := List.getElem?_eq_some_iff.mp hr
  have hbytes : ((serializeNak nak).drop 1).drop (8 + i * 12) = le32 r.chunkIndex ++ (le32 r.firstPacket ++
      (le32 r.lastPacket ++ (nak.missingPackets.drop (i + 1)).flatMap PacketNakRange.toBytes)) := by
    rw [hdrop, List.drop_eq_getElem_cons hi, List.flatMap_cons, hri, PacketNakRange.toBytes]
    simp only [List.append_assoc]
  have hci : rd32 (((serializeNak nak).drop 1).drop (8 + i * 12)) = r.chunkIndex := by
    rw [hbytes, rd32_le32]
  have hfirst : rd32 (((serializeNak nak).drop 1).drop (8 + i * 12 + 4)) = r.firstPacket := by
    rw [← List.drop_drop, hbytes, drop_le32, List.drop_zero, rd32_le32]
  have hlast : rd32 (((serializeNak nak).drop 1).drop (8 + i * 12 + 8)) = r.lastPacket := by
    rw [← List.drop_drop, hbytes, drop_le32, drop_le32, List.drop_zero, rd32_le32]
  unfold onNakRange
  rw [if_neg (by rw [hlen]; omega)]
  simp only [hci, hfirst, hlast]

/-- For packets of one chunk of a file these are the packets it asks for. -/
theorem Asks.onNak (h : x.Asks k nak) (hx : x.WellFormed) :
    x.onNak ((serializeNak nak).drop 1) = (nak.packets.map (x.packetRaw k.toNat)).map some := by
  have hps := hx.packetSize.1
  rw [onNak_serializeNak (by omega) h.count, List.map_map, NakPdu.packets, List.map_flatMap]
  refine List.flatMap_congr fun r hr => ?_
  rw [List.map_map]
  refine List.map_congr_left fun j hj => ?_
  have hlt := h.packets r hr
  rw [List.mem_range] at hj
  rw [h.chunk r hr]
  exact hx.packet h.lt (by omega)

/-! ## What the receiver asks for -/

/-- A NAK for packets of chunk `k`, which has been seen and is not done. -/
structure Wants (x : Transfer) (rx : CfdpReceiver) (k : UInt32) (nak : NakPdu) : Prop
    extends Asks x k nak where
  open_ : rx.state.isDone k = false
  seen : k.toNat ≤ rx.maxChunkSeen.toNat

/-- `nak` is what a completion check answers: it asks for all packets of `k` not held. -/
structure Target (x : Transfer) (rx : CfdpReceiver) (k : UInt32) (nak : NakPdu) : Prop
    extends Wants x rx k nak where
  completion : rx.completion = .nak (serializeNak nak)
  current : rx.currentChunkIndex = k ∨ rx.currentChunkIndex = uint32Max
  covers : ∀ pi, pi < x.numPackets k.toNat → rx.Holds k pi ∨ pi ∈ nak.packets

/-- What a completion check of the transfer comes to once the Eof has been seen. -/
inductive Ending (x : Transfer) (rx : CfdpReceiver) : Prop
  | closes (hm : rx.state.computeMissingChunks = []) (hc : rx.completion = .verify)
  | asks {k : UInt32} {nak : NakPdu} (h : x.Target rx k nak)
  | silent (hc : rx.completion = .silent) (hne : rx.state.computeMissingChunks ≠ [])
      (hgt : ∀ j : UInt32, j.toNat < x.totalChunks → rx.state.isDone j = false →
        rx.maxChunkSeen.toNat < j.toNat)

variable {env : Env} {rx : CfdpReceiver}

/-- The NAK for the chunk in progress. -/
theorem wants_progressNak (h : rx.Steady) (hx : x.WellFormed) (hm : x.Matches env rx.state)
    (ha : rx.transferActive = true) (hne : rx.currentChunkIndex ≠ uint32Max) :
    x.Wants rx rx.currentChunkIndex rx.progressNak := by
  have hb := h.busy ha hne
  have hlt : rx.currentChunkIndex.toNat < x.totalChunks := by rw [← hm.totalChunks]; exact hb.lt
  have hslots : rx.packetList.totalPackets.toNat = x.numPackets rx.currentChunkIndex.toNat := by
    rw [hb.slots, hm.expectedPkts hx hlt]
  obtain ⟨hcount, hranges⟩ := rx.packetList.nakRanges_lt
  have hmem {r : PacketNakRange} (hr : r ∈ rx.progressNak.missingPackets) :
      ∃ q ∈ rx.packetList.computeNakRanges, r = ⟨rx.currentChunkIndex, q.1, q.2⟩ := by
    obtain ⟨q, hq, rfl⟩ := List.mem_map.mp hr
    exact ⟨q, hq, rfl⟩
  refine ⟨⟨hlt, hm.tid, fun r hr => ?_, fun r hr => ?_, ?_⟩, hb.open_, hb.seen⟩
  · obtain ⟨q, -, rfl⟩ := hmem hr
    rfl
  · obtain ⟨q, hq, rfl⟩ := hmem hr
    rw [← hslots]
    exact hranges q hq
  · have := rx.packetList.totalPackets.toNat_lt
    show (rx.packetList.computeNakRanges.map _).length < 2 ^ 32
    rw [List.length_map]
    omega

/-- The NAK for a chunk of which no packet is held. -/
theorem asks_wholeNak (hx : x.WellFormed) (hm : x.Matches env rx.state)
    (hk : k.toNat < x.totalChunks) :
    x.Asks k (rx.wholeNak k) where
  lt := hk
  tid := hm.tid
  chunk r hr := by rw [List.mem_singleton.mp hr]
  packets r hr := by
    rw [List.mem_singleton.mp hr]
    have h1 := hm.expectedPkts hx hk
    have h2 := hx.numPackets_pos hk
    have h3 := (rx.state.expectedPkts k).toNat_lt
    rw [UInt32.toNat_sub, show (1 : UInt32).toNat = 1 from rfl]
    omega
  count := by
    show 1 < 2 ^ 32
    omega

/-- **Every completion check has one of three ends**: the transfer closes, a NAK goes out for
a chunk seen, or no chunk that is missing has been seen. -/
theorem ending (h : rx.Steady) (hx : x.WellFormed) (hm : x.Matches env rx.state)
    (ha : rx.transferActive = true) (he : rx.state.eofReceived = true) : x.Ending rx := by
  rcases rx.completionCase with ⟨he', -⟩ | ⟨-, hu, -⟩ | ⟨-, hu, cr, hs, hc⟩ | ⟨-, hu, hs, hne, hc⟩ |
    ⟨-, -, hmiss, hc⟩
  · rw [he] at he'; cases he'
  · -- the chunk in progress comes first
    have hne := (CfdpReceiver.unfinished_iff.mp hu).1
    have hw := wants_progressNak h hx hm ha hne
    have hb := h.busy ha hne
    have hslots : rx.packetList.totalPackets.toNat = x.numPackets rx.currentChunkIndex.toNat := by
      rw [hb.slots, hm.expectedPkts hx hw.lt]
    have hpos : 0 < rx.packetList.totalPackets.toNat := by rw [hslots]; exact hx.numPackets_pos hw.lt
    refine .asks ⟨hw, rx.completion_busy he hne h.wf hb hpos, .inl rfl, fun pi hpi => ?_⟩
    by_cases hheld : rx.Holds rx.currentChunkIndex pi
    · exact .inl hheld
    · exact .inr (NakPdu.mem_packets.mpr
        ((CfdpReceiver.requests_progressNak rx h.wf hslots).covers pi ⟨hpi, hheld⟩))
  · -- the first missing chunk that has been seen
    have hcr := List.mem_of_find?_eq_some hs
    obtain ⟨hlt, hopen⟩ := JournalState.open_of_mem_missing hcr
    rw [UInt32.lt_iff_toNat_lt, hm.totalChunks] at hlt
    have hseen : cr.firstChunk.toNat ≤ rx.maxChunkSeen.toNat := by
      have := List.find?_some hs
      simpa [UInt32.le_iff_toNat_le] using this
    have hcov := (CfdpReceiver.requests_wholeNak rx hx hm hlt _ fun _ => id).covers
    exact .asks ⟨⟨asks_wholeNak hx hm hlt, hopen, hseen⟩, hc, .inr ((h.not_unfinished ha).mp hu),
      fun pi hpi => .inr (NakPdu.mem_packets.mpr (hcov pi hpi))⟩
  · refine .silent hc hne fun j hj hopen => ?_
    obtain ⟨cr, hcr, hle⟩ := JournalState.mem_missing_of_open (by rwa [hm.totalChunks]) hopen
    have := (List.find?_eq_none.mp hs) cr hcr
    simp only [gt_iff_lt, Bool.not_eq_true', decide_eq_false_iff_not, not_not,
      UInt32.lt_iff_toNat_lt] at this
    omega
  · exact .closes hmiss hc

/-! ## Quiet answers -/

/-- The receiver is in the transfer, has seen the Eof and has done chunk `k`. -/
structure Ready (k : UInt32) (rx : CfdpReceiver) : Prop where
  active : rx.transferActive = true
  eof : rx.state.eofReceived = true
  done : rx.state.isDone k = true

/-- An answer that acknowledges neither chunk `k` nor the transfer; a NAK is for a chunk
in `D`. -/
inductive Quiet (x : Transfer) (k : UInt32) (D : UInt32 → Prop) : Bytes → Prop
  | ack {c : UInt32} (hk : c ≠ k) (hc : c ≠ uint32Max) : Quiet x k D (AckPdu.raw ⟨x.tid, c⟩)
  | nak {c : UInt32} {nak : NakPdu} (h : x.Asks c nak) (hD : D c) : Quiet x k D (serializeNak nak)

variable {c : UInt32} {D D' : UInt32 → Prop} {pdu : Bytes} {batch : List Bytes}

theorem Quiet.mono (h : x.Quiet k D pdu) (hD : ∀ c, D c → D' c) : x.Quiet k D' pdu := by
  cases h with
  | ack hk hc => exact .ack hk hc
  | nak h hc => exact .nak h (hD _ hc)

theorem Quiet.ne_nil (h : x.Quiet k D pdu) : pdu ≠ [] := by
  cases h <;> exact List.cons_ne_nil _ _

theorem Quiet.not_acksChunk (h : x.Quiet k D pdu) {ci : Nat} (hci : ci = k.toNat ∨ ci = ackFinal) :
    acksChunk ci pdu = false := by
  cases h with
  | nak => rfl
  | @ack c hk hc =>
    have hne : c.toNat ≠ ci := by
      rcases hci with rfl | rfl
      · exact fun he => hk (UInt32.toNat_inj.mp he)
      · exact fun he => hc (UInt32.toNat_inj.mp he)
    rw [acksChunk_raw]
    simpa using hne

theorem Quiet.not_acked {answers : List Bytes} (h : ∀ pdu ∈ answers, x.Quiet k D pdu) :
    ¬ x.Acked k.toNat answers := by
  rintro (hm | hm)
  · have := (h _ hm).not_acksChunk (.inl rfl)
    rw [chunkAck, acksChunk_raw, UInt32.ofNat_toNat, beq_self_eq_true] at this
    cases this
  · have := (h _ hm).not_acksChunk (.inr rfl)
    rw [finalAck, acksChunk_raw, show uint32Max.toNat = ackFinal from rfl, beq_self_eq_true] at this
    cases this

/-- A quiet batch acknowledges neither the transfer nor the chunk. -/
theorem anyPdu_quiet (h : ∀ pdu ∈ batch, x.Quiet k D pdu) :
    anyPdu (acksChunk ackFinal) batch = some false ∧ anyPdu (acksChunk k.toNat) batch = some false := by
  have hne : ∀ pdu ∈ batch, pdu ≠ [] := fun pdu hp => (h pdu hp).ne_nil
  exact ⟨anyPdu_false hne fun pdu hp => (h pdu hp).not_acksChunk (.inr rfl),
    anyPdu_false hne fun pdu hp => (h pdu hp).not_acksChunk (.inl rfl)⟩

/-- On a batch without NAKs the sender waits on. -/
theorem onBatch_quiet {crc32 : UInt32 → Bytes → UInt32} (h : ∀ pdu ∈ batch, x.Quiet k D pdu)
    (hf : batch.reverse.find? isNak = none) :
    x.onBatch crc32 (.chunk k.toNat) batch = ([], .chunk k.toNat) := by
  obtain ⟨h1, h2⟩ := anyPdu_quiet h
  simp [onBatch, onChunkBatch, h1, h2, hf]

/-- Otherwise it answers the last NAK. -/
theorem onBatch_nak {crc32 : UInt32 → Bytes → UInt32} (hx : x.WellFormed)
    (h : ∀ pdu ∈ batch, x.Quiet k D pdu) (hf : batch.reverse.find? isNak = some (serializeNak nak))
    (ha : x.Asks c nak) : x.onBatch crc32 (.chunk k.toNat) batch =
      (nak.packets.map (x.packetRaw c.toNat) ++ [x.eofPdu crc32], .chunk k.toNat) := by
  obtain ⟨h1, h2⟩ := anyPdu_quiet h
  have hall : x.onNak ((serializeNak nak).drop 1) ++ [some (x.eofPdu crc32)] =
      (nak.packets.map (x.packetRaw c.toNat) ++ [x.eofPdu crc32]).map some := by
    rw [ha.onNak hx, List.map_append]; rfl
  show x.onChunkBatch crc32 k.toNat batch = _
  unfold onChunkBatch
  rw [h1]
  simp only [h2, hf, Option.some.injEq, Bool.false_eq_true, if_false]
  rw [hall, sendAll_map_some]

/-! ## Deliveries -/

variable {w w' w₀ : World} {o : Oracle} {pdus out : List Bytes} {raw : Bytes} {m : UInt32}

/-- PDUs of the transfer can be delivered. -/
theorem Live.takes (hl : x.Live env w) (hx : x.WellFormed) (hc : Crc.Composes env.crc32)
    (h : ∀ raw ∈ pdus, x.Emits env.crc32 raw) : ∃ w', w.Takes env pdus w' := by
  induction pdus generalizing w with
  | nil => exact ⟨w, World.takes_nil.mpr rfl⟩
  | cons raw pdus ih =>
    obtain ⟨w₁, hw₁, hl₁, -⟩ := hl.receives hx hc smooth_noFaults (h raw List.mem_cons_self)
    obtain ⟨w', hw'⟩ := ih hl₁ fun raw hr => h raw (List.mem_cons_of_mem _ hr)
    exact ⟨w', World.takes_cons.mpr ⟨_, w₁, smooth_noFaults, hw₁, hw'⟩⟩

/-- An invariant of what is to arrive, of the answers and of the fields. -/
theorem Live.takes_inv {I : List Bytes → List Bytes → CfdpReceiver → Prop} (hl : x.Live env w)
    (hx : x.WellFormed) (hc : Crc.Composes env.crc32) (hpdus : ∀ raw ∈ pdus, x.Emits env.crc32 raw)
    (h : I pdus out w.rx)
    (hstep : ∀ raw rest out rx o, rx.Ok → (rx.transferActive = true → x.Matches env rx.state) →
      I (raw :: rest) out rx → I rest (out ++ (rx.reply env o true raw).2) (rx.reply env o true raw).1)
    (ht : w.Takes env pdus w') :
    x.Live env w' ∧ ∃ out', w'.sent = w.sent ++ out' ∧ I [] (out ++ out') w'.rx := by
  induction pdus generalizing w out with
  | nil =>
    rw [World.takes_nil.mp ht]
    exact ⟨hl, [], (List.append_nil _).symm, by rw [List.append_nil]; exact h⟩
  | cons raw pdus ih =>
    obtain ⟨o, w₁, ho, hw₁, ht⟩ := World.takes_cons.mp ht
    obtain ⟨w₂, hw₂, hl₁, hrx, hsent⟩ := hl.receives hx hc ho (hpdus raw List.mem_cons_self)
    rw [hw₁] at hw₂; cases hw₂
    have h₁ := hstep raw pdus out w.rx o hl.ok hl.inv.record h
    rw [← hrx] at h₁
    obtain ⟨hl', out', hs', h'⟩ := ih hl₁ (fun raw hr => hpdus raw (List.mem_cons_of_mem _ hr)) h₁ ht
    refine ⟨hl', (w.rx.reply env o true raw).2 ++ out', ?_, ?_⟩
    · rw [hs', hsent, List.append_assoc]
    · rw [← List.append_assoc]; exact h'

/-! ## A missing chunk beyond those seen -/

/-- Chunk `m` is the last one seen, and a later one is missing. -/
structure Hushed (x : Transfer) (k m : UInt32) (rx : CfdpReceiver) : Prop extends Ready k rx where
  max : rx.maxChunkSeen = m
  gap : ∃ j : UInt32, j.toNat < x.totalChunks ∧ rx.state.isDone j = false ∧ m.toNat < j.toNat

/-- The chunks such a receiver can ask for. -/
def Among (k m c : UInt32) : Prop := c ≠ k ∧ c.toNat ≤ m.toNat

theorem Wants.among (h : x.Wants rx c nak) (hk : rx.state.isDone k = true) :
    Among k rx.maxChunkSeen c := by
  refine ⟨?_, h.seen⟩
  rintro rfl
  rw [h.open_] at hk; cases hk

theorem Hushed.complete (h : x.Hushed k m rx) (hs : rx.Steady) (hx : x.WellFormed)
    (hm : x.Matches env rx.state) : (rx.complete true).1 = rx ∧
      ∀ pdu ∈ (rx.complete true).2, x.Quiet k (Among k m) pdu := by
  rcases ending hs hx hm h.active h.eof with ⟨hmiss, -⟩ | ht | ⟨hc, -, -⟩
  · obtain ⟨j, hj, hopen, -⟩ := h.gap
    rw [(JournalState.computeMissingChunks_eq_nil _).mp hmiss j
      (UInt32.lt_iff_toNat_lt.mpr (by rwa [hm.totalChunks]))] at hopen
    cases hopen
  · rw [CfdpReceiver.complete, ht.completion]
    refine ⟨rfl, fun pdu hp => ?_⟩
    rw [List.mem_singleton.mp hp]
    exact .nak ht.toAsks (h.max ▸ ht.toWants.among h.done)
  · rw [CfdpReceiver.complete, hc]
    exact ⟨rfl, fun pdu hp => by cases hp⟩

/-- What the receiver asks for when it leaves a chunk. -/
theorem quiet_leaveNak (h : Ready k rx) (hs : rx.Steady) (hx : x.WellFormed)
    (hm : x.Matches env rx.state)
    (ci : UInt32) : ∀ pdu ∈ (rx.leaveNak ci).toList, x.Quiet k (Among k rx.maxChunkSeen) pdu := by
  intro pdu hp
  have hl := Option.mem_toList.mp hp
  unfold CfdpReceiver.leaveNak at hl
  split at hl
  · next hu =>
    simp only [Bool.and_eq_true] at hu
    have hw := wants_progressNak hs hx hm h.active (CfdpReceiver.unfinished_iff.mp hu.2).1
    unfold CfdpReceiver.packetNak at hl
    split at hl
    · cases hl
    · cases hl
      exact .nak hw.toAsks (hw.among h.done)
  · cases hl

variable {d : DataPdu}

theorem isDone_flushed (hm : x.Matches env rx.state) (hacc : rx.Accepted d) (j : UInt32) :
    ((rx.take d).flushed d.chunkIndex).state.isDone j =
      (decide (j = d.chunkIndex) || rx.state.isDone j) := by
  have hlt : d.chunkIndex.toNat < rx.state.chunkDone.length := by
    rw [hm.sane.flags]; exact hacc.chunk
  rw [CfdpReceiver.flushed_take_state, JournalState.isDone_markDone _ _ _ hlt]

theorem Ready.flushed (h : Ready k rx) (hm : x.Matches env rx.state) (hacc : rx.Accepted d) :
    Ready k ((rx.take d).flushed d.chunkIndex) where
  active := CfdpReceiver.flushed_take_active hacc _
  eof := by rw [CfdpReceiver.flushed_take_state]; exact h.eof
  done := by rw [isDone_flushed hm hacc, h.done, Bool.or_true]

theorem Hushed.flushed (h : x.Hushed k m rx) (hm : x.Matches env rx.state) (hacc : rx.Accepted d)
    (hle : d.chunkIndex.toNat ≤ m.toNat) : x.Hushed k m ((rx.take d).flushed d.chunkIndex) := by
  obtain ⟨j, hj, hopen, hgt⟩ := h.gap
  have hne : j ≠ d.chunkIndex := by
    rintro rfl
    omega
  refine ⟨h.toReady.flushed hm hacc, ?_, j, hj, ?_, hgt⟩
  · exact (CfdpReceiver.take_maxChunkSeen_of_le (by rw [h.max]; exact hle)).trans h.max
  · rw [isDone_flushed hm hacc, hopen, decide_eq_false hne]; rfl

/-- A packet of another chunk among those seen leaves it so. -/
theorem Hushed.data (h : x.Hushed k m rx) (hok : rx.Ok) (hx : x.WellFormed)
    (hm : x.Matches env rx.state)
    (hacc : rx.Accepted d) (hcm : Among k m d.chunkIndex) : x.Hushed k m (rx.replyData true d).1 ∧
      ∀ pdu ∈ (rx.replyData true d).2, x.Quiet k (Among k m) pdu := by
  have hmax := CfdpReceiver.ne_uint32Max hacc.chunk (hok.sane h.active).totalChunks.2
  have hack : x.Quiet k (Among k m) (rx.ack d.chunkIndex) := by
    unfold CfdpReceiver.ack
    rw [hm.tid]
    exact .ack hcm.1 hmax
  have hle : d.chunkIndex.toNat ≤ rx.maxChunkSeen.toNat := by rw [h.max]; exact hcm.2
  have hleave := h.max ▸ quiet_leaveNak h.toReady hok.toSteady hx hm d.chunkIndex
  cases hdone : rx.state.isDone d.chunkIndex with
  | true =>
    rw [CfdpReceiver.replyData_done (CfdpReceiver.acceptsData_iff.mpr hacc) hdone,
      CfdpReceiver.see_of_le hle]
    refine ⟨h, fun pdu hp => ?_⟩
    split at hp
    · rw [List.mem_singleton.mp hp]; exact hack
    · cases hp
  | false =>
    rcases CfdpReceiver.replyData_eof hacc hdone h.eof with hr | hr
    · rw [hr]
      refine ⟨⟨⟨by simpa using h.active, by simpa using h.eof, by simpa using h.done⟩,
        (CfdpReceiver.take_maxChunkSeen_of_le hle).trans h.max, by simpa using h.gap⟩, hleave⟩
    · have hf := h.flushed hm hacc hcm.2
      obtain ⟨h1, h2⟩ := hf.complete (hok.toSteady.flushed hacc) hx
        (by rw [CfdpReceiver.flushed_take_state]; exact hm.markDone _)
      rw [hr]
      refine ⟨by rw [h1]; exact hf, fun pdu hp => ?_⟩
      rcases List.mem_append.mp hp with hp | hp
      · exact hleave pdu hp
      · rcases List.mem_cons.mp hp with rfl | hp
        · exact hack
        · exact h2 pdu hp

/-- An Eof of the transfer. -/
theorem replyEof_ready (h : Ready k rx) (hm : x.Matches env rx.state) (checksum : UInt32) :
    rx.replyEof true ⟨x.tid, checksum⟩ = rx.complete true := by
  have hacc : rx.acceptsEof ⟨x.tid, checksum⟩ = true := by
    simp [CfdpReceiver.acceptsEof, h.active, hm.tid]
  have hrx : ({ rx with state := rx.state.markEof } : CfdpReceiver) = rx := by
    simp only [JournalState.markEof, ← h.eof]
  unfold CfdpReceiver.replyEof
  rw [if_pos hacc, hrx]

/-- The PDUs that leave such a receiver as it is: an Eof, packets of chunks in `D`. -/
inductive Packet (env : Env) (x : Transfer) (D : UInt32 → Prop) : Bytes → Prop
  | eof : Packet env x D (x.eofPdu env.crc32)
  | data {c : UInt32} {p : Nat} (hc : c.toNat < x.totalChunks) (hp : p < x.numPackets c.toNat) (hD : D c) :
      Packet env x D (x.packetRaw c.toNat p)

theorem Packet.emits (h : x.Packet env D raw) (hx : x.WellFormed) : x.Emits env.crc32 raw := by
  cases h with
  | eof => exact .eof
  | data hc hp => exact .data _ _ (hx.packet hc hp)

theorem Hushed.reply (h : x.Hushed k m rx) (hok : rx.Ok) (hx : x.WellFormed)
    (hm : x.Matches env rx.state)
    (hraw : x.Packet env (Among k m) raw) : x.Hushed k m (rx.reply env o true raw).1 ∧
      ∀ pdu ∈ (rx.reply env o true raw).2, x.Quiet k (Among k m) pdu := by
  cases hraw with
  | eof =>
    rw [reply_of_decode decodePdu_eofPdu, CfdpReceiver.replyPdu, replyEof_ready h.toReady hm]
    obtain ⟨h1, h2⟩ := h.complete hok.toSteady hx hm
    exact ⟨by rw [h1]; exact h, h2⟩
  | @data c p hc hp hD =>
    rw [reply_of_decode (hx.decodePdu_packetRaw hc hp)]
    have hchunk : (x.dataPdu c.toNat p).chunkIndex = c := UInt32.ofNat_toNat
    exact h.data hok hx hm (hm.accepts hx h.active hc hp) (by rw [hchunk]; exact hD)

/-- What each of these keeps of the fields (`R`), and what it is answered by (`Q`). -/
theorem Live.takes_each {R : CfdpReceiver → Prop} {Q : Bytes → Prop} (hl : x.Live env w)
    (hx : x.WellFormed) (hc : Crc.Composes env.crc32) (h : R w.rx)
    (hstep : ∀ raw rx o, rx.Ok → (rx.transferActive = true → x.Matches env rx.state) →
      x.Packet env D raw → R rx → R (rx.reply env o true raw).1 ∧
        ∀ pdu ∈ (rx.reply env o true raw).2, Q pdu)
    (hpdus : ∀ raw ∈ pdus, x.Packet env D raw) (ht : w.Takes env pdus w') :
    x.Live env w' ∧ R w'.rx ∧ ∀ pdu ∈ w.sentSince w', Q pdu := by
  have hrest (raw : Bytes) (rest out : List Bytes) (rx : CfdpReceiver) (o : Oracle) (hok : rx.Ok)
      (hrec : rx.transferActive = true → x.Matches env rx.state)
      (hI : (∀ p ∈ raw :: rest, x.Packet env D p) ∧ R rx ∧ ∀ pdu ∈ out, Q pdu) :
      (∀ p ∈ rest, x.Packet env D p) ∧ R (rx.reply env o true raw).1 ∧
        ∀ pdu ∈ out ++ (rx.reply env o true raw).2, Q pdu := by
    obtain ⟨hall, hR, hout⟩ := hI
    obtain ⟨h1, h2⟩ := hstep raw rx o hok hrec (hall raw List.mem_cons_self) hR
    refine ⟨fun p hp => hall p (List.mem_cons_of_mem _ hp), h1, fun pdu hp => ?_⟩
    rcases List.mem_append.mp hp with hp | hp
    · exact hout pdu hp
    · exact h2 pdu hp
  have h₀ : (∀ p ∈ pdus, x.Packet env D p) ∧ R w.rx ∧ ∀ pdu ∈ ([] : List Bytes), Q pdu :=
    ⟨hpdus, h, fun pdu hp => by cases hp⟩
  obtain ⟨hl', out, hsent, -, hR, hout⟩ := hl.takes_inv
    (I := fun rem out rx => (∀ p ∈ rem, x.Packet env D p) ∧ R rx ∧ ∀ pdu ∈ out, Q pdu)
    hx hc (fun raw hr => (hpdus raw hr).emits hx) h₀ hrest ht
  rw [World.sentSince_eq hsent]
  exact ⟨hl', hR, hout⟩

/-- Deliveries of these keep it hushed. -/
theorem Hushed.takes (h : x.Hushed k m w.rx) (hl : x.Live env w) (hx : x.WellFormed)
    (hc : Crc.Composes env.crc32) (hpdus : ∀ raw ∈ pdus, x.Packet env (Among k m) raw)
    (ht : w.Takes env pdus w') : x.Live env w' ∧ x.Hushed k m w'.rx ∧
      ∀ pdu ∈ w.sentSince w', x.Quiet k (Among k m) pdu :=
  hl.takes_each hx hc h (fun _ _ _ hok hrec hraw hh => hh.reply hok hx (hrec hh.active) hraw) hpdus ht

/-- The packets a NAK asks for, and the Eof after them. -/
theorem Asks.block (h : x.Asks c nak) (hD : D c) :
    ∀ raw ∈ nak.packets.map (x.packetRaw c.toNat) ++ [x.eofPdu env.crc32], x.Packet env D raw := by
  intro raw hr
  rcases List.mem_append.mp hr with hr | hr
  · obtain ⟨p, hp, rfl⟩ := List.mem_map.mp hr
    exact .data h.lt (h.packet_lt hp) hD
  · rw [List.mem_singleton.mp hr]
    exact .eof

/-- The NAK the sender finds in a quiet batch. -/
theorem Quiet.find (h : ∀ pdu ∈ batch, x.Quiet k D pdu) (hf : batch.reverse.find? isNak = some pdu) :
    pdu ∈ batch ∧ ∃ c nak, pdu = serializeNak nak ∧ x.Asks c nak ∧ D c := by
  have hmem := List.mem_reverse.mp (List.mem_of_find?_eq_some hf)
  refine ⟨hmem, ?_⟩
  cases h pdu hmem with
  | ack => exact absurd (List.find?_some hf) Bool.false_ne_true
  | nak h hD => exact ⟨_, _, rfl, h, hD⟩

/-- An exchange in which a chunk beyond those seen is missing. -/
structure Unheard (env : Env) (x : Transfer) (k m : UInt32) (e : Exchange) : Prop where
  live : x.Live env e.w
  hushed : x.Hushed k m e.w.rx
  phase : e.phase = .chunk k.toNat
  inbox : ∀ pdu ∈ e.inbox, x.Quiet k (Among k m) pdu
  answers : ∀ pdu ∈ e.answers, x.Quiet k (Among k m) pdu

theorem Unheard.step {e e' : Exchange} (h : x.Unheard env k m e) (hx : x.WellFormed)
    (hc : Crc.Composes env.crc32) (hs : Exchange.Step env x e e') : x.Unheard env k m e' := by
  cases hs with
  | @read w w' batch rest answers phase hb ht =>
    obtain rfl : phase = .chunk k.toNat := h.phase
    have hbatch : ∀ pdu ∈ batch, x.Quiet k (Among k m) pdu := fun pdu hp =>
      h.inbox pdu (List.mem_append_left _ hp)
    have hrest : ∀ pdu ∈ rest, x.Quiet k (Among k m) pdu := fun pdu hp =>
      h.inbox pdu (List.mem_append_right _ hp)
    -- the reaction is a block of packets of another chunk, or nothing
    have hreact : (x.onBatch env.crc32 (.chunk k.toNat) batch).2 = .chunk k.toNat ∧
        ∀ raw ∈ (x.onBatch env.crc32 (.chunk k.toNat) batch).1, x.Packet env (Among k m) raw := by
      cases hf : batch.reverse.find? isNak with
      | none =>
        rw [onBatch_quiet hbatch hf]
        exact ⟨rfl, fun raw hr => by cases hr⟩
      | some pdu =>
        obtain ⟨-, c, nak, rfl, hasks, hD⟩ := Quiet.find hbatch hf
        rw [onBatch_nak hx hbatch hf hasks]
        exact ⟨rfl, hasks.block hD⟩
    obtain ⟨hl, hh, hout⟩ := h.hushed.takes h.live hx hc hreact.2 ht
    refine ⟨hl, hh, hreact.1, fun pdu hp => ?_, fun pdu hp => ?_⟩
    · exact (List.mem_append.mp hp).elim (hrest pdu) (hout pdu)
    · exact (List.mem_append.mp hp).elim (h.answers pdu) (hout pdu)

/-- **Nothing is acknowledged as long as a chunk beyond those seen is missing.** -/
theorem Unheard.not_acked {e : Exchange} (h : x.Unheard env k m e) (hx : x.WellFormed)
    (hc : Crc.Composes env.crc32) :
    ¬ Inevitably (Exchange.Step env x) (fun e => x.Acked k.toNat e.answers) e :=
  not_inevitably (J := x.Unheard env k m) (fun _ he => Quiet.not_acked he.answers)
    (fun _ _ he hs => he.step hx hc hs) h

/-! ## Every missing chunk has been seen -/

/-- Nothing beyond the chunks seen is missing. -/
def AllSeen (x : Transfer) (rx : CfdpReceiver) : Prop := ∀ j : UInt32, j.toNat < x.totalChunks →
  rx.state.isDone j = false → j.toNat ≤ rx.maxChunkSeen.toNat

/-- What has become of chunk `c`, asked for in `rx₀`, when packets `ps` of it are still to come. -/
inductive Served (x : Transfer) (k : UInt32) (rx₀ : CfdpReceiver) (c : UInt32) (ps : List Nat)
    (out : List Bytes) (rx : CfdpReceiver) : Prop
  | ended (hf : x.finalAck ∈ out)
  | done (h : Ready k rx) (hmax : rx.maxChunkSeen = rx₀.maxChunkSeen)
      (hd : ∀ j, rx.state.isDone j = (decide (j = c) || rx₀.state.isDone j))
      (hout : ∀ pdu ∈ out, pdu = AckPdu.raw ⟨x.tid, c⟩ ∨ rx.completion = .nak pdu)
  | filling (h : Ready k rx) (hmax : rx.maxChunkSeen = rx₀.maxChunkSeen) (hs : rx.state = rx₀.state)
      (hcur : rx.currentChunkIndex = c ∨ rx.currentChunkIndex = uint32Max)
      (hcov : ∀ pi, pi < x.numPackets c.toNat → rx.Holds c pi ∨ pi ∈ ps) (hout : out = [])

variable {rx₀ : CfdpReceiver} {p : Nat} {ps : List Nat}

/-- The flush of the chunk asked for. -/
theorem Served.flushed (h : Ready k rx) (hok : rx.Ok) (hx : x.WellFormed) (hm : x.Matches env rx.state)
    (hacc : rx.Accepted d) (hmax : rx.maxChunkSeen = rx₀.maxChunkSeen) (hs : rx.state = rx₀.state)
    (hle : d.chunkIndex.toNat ≤ rx.maxChunkSeen.toNat) :
    x.Served k rx₀ d.chunkIndex ps
      (rx.ack d.chunkIndex :: (((rx.take d).flushed d.chunkIndex).complete true).2)
      (((rx.take d).flushed d.chunkIndex).complete true).1 := by
  have hst := CfdpReceiver.flushed_take_state rx d d.chunkIndex
  have hm' : x.Matches env ((rx.take d).flushed d.chunkIndex).state := by rw [hst]; exact hm.markDone _
  have hr := h.flushed hm hacc
  have hmax' : ((rx.take d).flushed d.chunkIndex).maxChunkSeen = rx₀.maxChunkSeen :=
    (CfdpReceiver.take_maxChunkSeen_of_le hle).trans hmax
  have hd (j : UInt32) : ((rx.take d).flushed d.chunkIndex).state.isDone j =
      (decide (j = d.chunkIndex) || rx₀.state.isDone j) := by
    rw [isDone_flushed hm hacc, hs]
  have hack : rx.ack d.chunkIndex = AckPdu.raw ⟨x.tid, d.chunkIndex⟩ := by
    unfold CfdpReceiver.ack
    rw [hm.tid]
  rcases ending (hok.toSteady.flushed hacc) hx hm' hr.active hr.eof with ⟨-, hc⟩ | ht | ⟨hc, -, -⟩
  · rw [CfdpReceiver.complete, hc]
    refine .ended (List.mem_cons_of_mem _ ?_)
    rw [if_pos rfl, CfdpReceiver.ack, hm'.tid]
    exact List.mem_singleton_self _
  · rw [CfdpReceiver.complete, ht.completion]
    refine .done hr hmax' hd fun pdu hp => ?_
    rcases List.mem_cons.mp hp with rfl | hp
    · exact .inl hack
    · rw [List.mem_singleton.mp hp]
      exact .inr ht.completion
  · rw [CfdpReceiver.complete, hc]
    refine .done hr hmax' hd fun pdu hp => ?_
    rw [List.mem_singleton.mp hp]
    exact .inl hack

/-- A packet of the chunk asked for. -/
theorem Served.data (h : x.Served k rx₀ c (p :: ps) out rx) (hok : rx.Ok) (hx : x.WellFormed)
    (hrec : rx.transferActive = true → x.Matches env rx.state) (hc : c.toNat < x.totalChunks)
    (hp : p < x.numPackets c.toNat) (hopen : rx₀.state.isDone c = false)
    (hle : c.toNat ≤ rx₀.maxChunkSeen.toNat) :
    x.Served k rx₀ c ps (out ++ (rx.replyData true (x.dataPdu c.toNat p)).2)
      (rx.replyData true (x.dataPdu c.toNat p)).1 := by
  have hchunk : (x.dataPdu c.toNat p).chunkIndex = c := UInt32.ofNat_toNat
  cases h with
  | ended hf => exact .ended (List.mem_append_left _ hf)
  | done h hmax hd hout =>
    have hm := hrec h.active
    have hacc := hm.accepts hx h.active hc hp
    have hdone : rx.state.isDone (x.dataPdu c.toNat p).chunkIndex = true := by
      rw [hchunk, hd, decide_eq_true rfl, Bool.true_or]
    rw [CfdpReceiver.replyData_done (CfdpReceiver.acceptsData_iff.mpr hacc) hdone, hchunk,
      CfdpReceiver.see_of_le (by rw [hmax]; exact hle)]
    refine .done h hmax hd fun pdu hp => ?_
    rcases List.mem_append.mp hp with hp | hp
    · exact hout pdu hp
    · split at hp
      · rw [List.mem_singleton.mp hp, CfdpReceiver.ack, hm.tid]
        exact .inl rfl
      · cases hp
  | filling h hmax hs hcur hcov hout =>
    have hm := hrec h.active
    have hin := hx.inFile hc hp
    have hacc := hm.accepts hx h.active hc hp
    have hleave : rx.leaveNak (x.dataPdu c.toNat p).chunkIndex = none :=
      CfdpReceiver.leaveNak_none (by rw [hchunk]; exact hcur)
    rcases CfdpReceiver.replyData_eof hacc (by rw [hchunk, hs]; exact hopen) h.eof with hr | hr
    · -- the packet is stored
      rw [hr, hleave, hout]
      refine .filling ⟨by simpa using h.active, by simpa using h.eof, by simpa using h.done⟩
        ((CfdpReceiver.take_maxChunkSeen_of_le (by rw [hchunk, hmax]; exact hle)).trans hmax)
        (by rw [CfdpReceiver.take_state]; exact hs) (.inl (by rw [CfdpReceiver.take_currentChunkIndex, hchunk]))
        (fun pi hpi => ?_) rfl
      have hslot : (x.dataPdu c.toNat p).packetIndex.toNat < (x.dataPdu c.toNat p).totalPackets.toNat := by
        rw [hin.toNat_packetIndex, hin.toNat_totalPackets]; exact hp
      have hholds := CfdpReceiver.holds_take (q := pi) hok.toSteady hacc hslot rfl
      rw [hin.toNat_packetIndex, hchunk] at hholds
      rcases hcov pi hpi with hpi | hpi
      · exact .inl (hholds.mpr (.inr hpi))
      · rcases List.mem_cons.mp hpi with rfl | hpi
        · exact .inl (hholds.mpr (.inl rfl))
        · exact .inr hpi
    · -- the packet completes the chunk
      have hf : x.Served k rx₀ c ps _ _ :=
        hchunk ▸ Served.flushed h hok hx hm hacc hmax hs (by rw [hchunk, hmax]; exact hle)
      rw [hr, hleave, hout]
      simp only [hchunk] at hf ⊢
      exact hf

/-- A chunk is missing. -/
theorem exists_open (hm : x.Matches env rx.state) (hne : rx.state.computeMissingChunks ≠ []) :
    ∃ j : UInt32, j.toNat < x.totalChunks ∧ rx.state.isDone j = false := by
  obtain ⟨cr, rs, hcr⟩ := List.exists_cons_of_ne_nil hne
  obtain ⟨h1, h2, -⟩ := JournalState.computeMissingChunks_head hcr
  rw [UInt32.lt_iff_toNat_lt, hm.totalChunks] at h1
  exact ⟨_, h1, h2⟩

/-- Between PDUs, a receiver that misses only chunks seen asks for one of them. -/
theorem AllSeen.target (h : x.AllSeen rx) (hr : Ready k rx) (hok : rx.Ok) (hx : x.WellFormed)
    (hm : x.Matches env rx.state) : ∃ t nak, x.Target rx t nak := by
  rcases ending hok.toSteady hx hm hr.active hr.eof with ⟨hmiss, -⟩ | ht | ⟨-, hne, hgt⟩
  · exact absurd hmiss (hok.missing hr.active hr.eof)
  · exact ⟨_, _, ht⟩
  · obtain ⟨j, hj, hopen⟩ := exists_open hm hne
    have h1 := h j hj hopen
    have h2 := hgt j hj hopen
    omega

/-- What the packets a NAK asks for, and the Eof after them, come to: the transfer ends, or the
chunk asked for is done and the next NAK is on its way. -/
structure Moved (env : Env) (x : Transfer) (k : UInt32) (rx₀ : CfdpReceiver) (c : UInt32)
    (out : List Bytes) (w : World) : Prop where
  live : x.Live env w
  ready : Ready k w.rx
  seen : x.AllSeen w.rx
  max : w.rx.maxChunkSeen = rx₀.maxChunkSeen
  marks : ∀ j, w.rx.state.isDone j = (decide (j = c) || rx₀.state.isDone j)
  next : ∃ t nak, x.Target w.rx t nak ∧ serializeNak nak ∈ out ∧
    ∀ pdu ∈ out, pdu = AckPdu.raw ⟨x.tid, c⟩ ∨ pdu = serializeNak nak

theorem Target.serves (h : x.Target w.rx c nak) (hr : Ready k w.rx) (hl : x.Live env w)
    (hs : x.AllSeen w.rx) (hx : x.WellFormed) (hc : Crc.Composes env.crc32)
    (ht : w.Takes env (nak.packets.map (x.packetRaw c.toNat) ++ [x.eofPdu env.crc32]) w') :
    x.finalAck ∈ w.sentSince w' ∨ x.Moved env k w.rx c (w.sentSince w') w' := by
  obtain ⟨w₁, ht₁, ht₂⟩ := World.takes_append.mp ht
  -- the packets
  have hemit (raw : Bytes) (hraw : raw ∈ nak.packets.map (x.packetRaw c.toNat)) :
      x.Emits env.crc32 raw := by
    obtain ⟨p, hp, rfl⟩ := List.mem_map.mp hraw
    exact .data _ _ (hx.packet h.lt (h.packet_lt hp))
  have hstep (raw : Bytes) (rest out : List Bytes) (rx : CfdpReceiver) (o : Oracle) (hok : rx.Ok)
      (hrec : rx.transferActive = true → x.Matches env rx.state)
      (hI : ∃ ps : List Nat, raw :: rest = ps.map (x.packetRaw c.toNat) ∧
        (∀ p ∈ ps, p < x.numPackets c.toNat) ∧ x.Served k w.rx c ps out rx) :
      ∃ ps : List Nat, rest = ps.map (x.packetRaw c.toNat) ∧ (∀ p ∈ ps, p < x.numPackets c.toNat) ∧
        x.Served k w.rx c ps (out ++ (rx.reply env o true raw).2) (rx.reply env o true raw).1 := by
    obtain ⟨ps, hps, hlt, hserved⟩ := hI
    obtain ⟨p, ps, rfl, rfl, rfl⟩ := List.map_eq_cons_iff.mp hps.symm
    have hp := hlt p List.mem_cons_self
    refine ⟨ps, rfl, fun q hq => hlt q (List.mem_cons_of_mem _ hq), ?_⟩
    rw [reply_of_decode (hx.decodePdu_packetRaw h.lt hp)]
    exact hserved.data hok hx hrec h.lt hp h.open_ h.seen
  have h₀ : ∃ ps : List Nat, nak.packets.map (x.packetRaw c.toNat) = ps.map (x.packetRaw c.toNat) ∧
      (∀ p ∈ ps, p < x.numPackets c.toNat) ∧ x.Served k w.rx c ps [] w.rx :=
    ⟨_, rfl, fun p hp => h.packet_lt hp, .filling hr rfl rfl h.current h.covers rfl⟩
  obtain ⟨hl₁, out₁, hsent₁, ps, hps, -, hserved⟩ := hl.takes_inv
    (I := fun rem out rx => ∃ ps : List Nat, rem = ps.map (x.packetRaw c.toNat) ∧
      (∀ p ∈ ps, p < x.numPackets c.toNat) ∧ x.Served k w.rx c ps out rx) hx hc hemit h₀ hstep ht₁
  obtain rfl : ps = [] := List.map_eq_nil_iff.mp hps.symm
  -- the Eof
  obtain ⟨o, w₂, ho, hw₂, hnil⟩ := World.takes_cons.mp ht₂
  obtain rfl := World.takes_nil.mp hnil
  obtain ⟨w₃, hw₃, hl', hrx, hsent⟩ := hl₁.receives hx hc ho .eof
  rw [hw₂] at hw₃; cases hw₃
  rw [reply_of_decode decodePdu_eofPdu, CfdpReceiver.replyPdu] at hrx hsent
  rw [World.sentSince_eq (by rw [hsent, hsent₁, List.append_assoc])]
  cases hserved with
  | ended hf => exact .inl (List.mem_append_left _ hf)
  | filling h₁ hmax hst hcur hcov =>
    have hm₁ := hl₁.inv.record h₁.active
    exact absurd (fun pi hpi => (hcov pi hpi).resolve_right List.not_mem_nil)
      (hm₁.not_all_held hl₁.ok hx h₁.active h.lt)
  | done h₁ hmax hd hout =>
    have hm₁ := hl₁.inv.record h₁.active
    have hseen : x.AllSeen w₁.rx := by
      intro j hj hopen
      rw [hd, Bool.or_eq_false_iff] at hopen
      rw [hmax]
      exact hs j hj hopen.2
    obtain ⟨t, nak', ht'⟩ := hseen.target h₁ hl₁.ok hx hm₁
    rw [replyEof_ready h₁ hm₁, CfdpReceiver.complete, ht'.completion] at hrx
    rw [replyEof_ready h₁ hm₁, CfdpReceiver.complete, ht'.completion]
    refine .inr ⟨hl', by rw [hrx]; exact h₁, by rw [hrx]; exact hseen, by rw [hrx]; exact hmax,
      by rw [hrx]; exact hd, t, nak',
      by rw [hrx]; exact ht', List.mem_append_right _ (List.mem_singleton_self _), fun pdu hp => ?_⟩
    rcases List.mem_append.mp hp with hp | hp
    · refine (hout pdu hp).imp_right fun hc' => ?_
      rw [ht'.completion] at hc'
      exact (Completion.nak.inj hc').symm
    · exact .inr (List.mem_singleton.mp hp)

/-- The chunks of which packets change nothing. -/
def Passed (k : UInt32) (rx : CfdpReceiver) (c : UInt32) : Prop :=
  c ≠ k ∧ rx.state.isDone c = true ∧ c.toNat ≤ rx.maxChunkSeen.toNat

/-- An answer that is not a NAK, or the NAK `nak`. -/
def Repeats (x : Transfer) (k : UInt32) (nak : NakPdu) (pdu : Bytes) : Prop :=
  x.Quiet k (fun _ => False) pdu ∨ pdu = serializeNak nak

theorem Target.reply (h : x.Target rx c nak) (hr : Ready k rx) (hok : rx.Ok) (hx : x.WellFormed)
    (hm : x.Matches env rx.state) (hraw : x.Packet env (Passed k rx) raw) :
    (rx.reply env o true raw).1 = rx ∧ ∀ pdu ∈ (rx.reply env o true raw).2, x.Repeats k nak pdu := by
  cases hraw with
  | eof =>
    rw [reply_of_decode decodePdu_eofPdu, CfdpReceiver.replyPdu, replyEof_ready hr hm, CfdpReceiver.complete,
      h.completion]
    exact ⟨rfl, fun pdu hp => .inr (List.mem_singleton.mp hp)⟩
  | @data q p hq hp hD =>
    have hchunk : (x.dataPdu q.toNat p).chunkIndex = q := UInt32.ofNat_toNat
    have hacc := hm.accepts hx hr.active hq hp
    have hmax := CfdpReceiver.ne_uint32Max hacc.chunk (hok.sane hr.active).totalChunks.2
    rw [hchunk] at hmax
    rw [reply_of_decode (hx.decodePdu_packetRaw hq hp), CfdpReceiver.replyPdu,
      CfdpReceiver.replyData_done (CfdpReceiver.acceptsData_iff.mpr hacc) (by rw [hchunk]; exact hD.2.1), hchunk,
      CfdpReceiver.see_of_le hD.2.2]
    refine ⟨rfl, fun pdu hp => .inl ?_⟩
    split at hp
    · rw [List.mem_singleton.mp hp, CfdpReceiver.ack, hm.tid]
      exact .ack hD.1 hmax
    · cases hp

/-- Packets of chunks that are done, and Eofs, change nothing. -/
theorem Target.rests (h : x.Target w.rx c nak) (hr : Ready k w.rx) (hl : x.Live env w)
    (hx : x.WellFormed)
    (hc : Crc.Composes env.crc32) (hpdus : ∀ raw ∈ pdus, x.Packet env (Passed k w.rx) raw)
    (ht : w.Takes env pdus w') :
    x.Live env w' ∧ w'.rx = w.rx ∧ ∀ pdu ∈ w.sentSince w', x.Repeats k nak pdu := by
  refine hl.takes_each (R := fun rx => rx = w.rx) hx hc rfl (fun raw rx o hok hrec hraw hrx => ?_) hpdus ht
  subst hrx
  exact h.reply hr hok hx (hrec hr.active) hraw

/-- The number of chunks that are missing. -/
def openChunks (x : Transfer) (rx : CfdpReceiver) : Nat :=
  ((List.range x.totalChunks).filter fun j => !rx.state.isDone (UInt32.ofNat j)).length

theorem openChunks_lt {rx' : CfdpReceiver} (hc : c.toNat < x.totalChunks)
    (hopen : rx.state.isDone c = false)
    (hd : ∀ j, rx'.state.isDone j = (decide (j = c) || rx.state.isDone j)) :
    x.openChunks rx' < x.openChunks rx := by
  have hsub : (List.range x.totalChunks).filter (fun j => !rx'.state.isDone (UInt32.ofNat j)) =
      ((List.range x.totalChunks).filter fun j => !rx.state.isDone (UInt32.ofNat j)).filter fun j =>
        !decide (UInt32.ofNat j = c) := by
    rw [List.filter_filter]
    refine List.filter_congr fun j _ => ?_
    rw [hd, Bool.not_or]
  unfold openChunks
  rw [hsub]
  refine List.length_filter_lt_length_iff_exists.mpr ⟨c.toNat, ?_, ?_⟩
  · simpa [List.mem_filter] using ⟨hc, hopen⟩
  · simp

/-- An exchange in which every missing chunk has been seen: before the first NAK that counts
(`pre`) the sender finds acknowledgements and NAKs for chunks done since. The rank: chunks
missing, answers before that NAK. -/
structure Underway (env : Env) (x : Transfer) (k : UInt32) (rank : Nat × Nat)
    (e : Exchange) : Prop where
  live : x.Live env e.w
  ready : Ready k e.w.rx
  seen : x.AllSeen e.w.rx
  phase : e.phase = .chunk k.toNat
  inbox : ∃ t nak pre post, x.Target e.w.rx t nak ∧ e.inbox = pre ++ serializeNak nak :: post ∧
    (∀ pdu ∈ pre, x.Quiet k (Passed k e.w.rx) pdu) ∧ (∀ pdu ∈ post, x.Repeats k nak pdu) ∧
    rank = (x.openChunks e.w.rx, pre.length)

theorem Wants.ne (h : x.Wants rx c nak) (hr : Ready k rx) : c ≠ k := (h.among hr.done).1

theorem Repeats.quiet (h : x.Repeats k nak pdu) (ha : x.Asks c nak) (hD : D c) : x.Quiet k D pdu := by
  rcases h with h | rfl
  · exact h.mono fun _ hf => hf.elim
  · exact .nak ha hD

/-- The last NAK of a batch that reaches the one that counts. -/
theorem find_nak {pre post : List Bytes} (h : ∀ pdu ∈ post, x.Repeats k nak pdu) :
    (pre ++ serializeNak nak :: post).reverse.find? isNak = some (serializeNak nak) := by
  rw [List.reverse_append, List.reverse_cons, List.append_assoc, List.find?_append]
  cases hf : post.reverse.find? isNak with
  | none => rfl
  | some pdu =>
    rcases h pdu (List.mem_reverse.mp (List.mem_of_find?_eq_some hf)) with hq | rfl
    · cases hq with
      | ack => exact absurd (List.find?_some hf) Bool.false_ne_true
      | nak _ hD => exact hD.elim
    · rfl

/-- The first occurrence of the NAK that counts among fresh answers. -/
theorem Moved.underway {rest answers : List Bytes} (h : x.Moved env k rx₀ c out w) (hx : x.WellFormed)
    (hc : c ≠ k) (hopen : rx₀.state.isDone c = false)
    (hct : c.toNat < x.totalChunks) (hrest : ∀ pdu ∈ rest, x.Quiet k (Passed k w.rx) pdu) (n : Nat) :
    ∃ r, Prod.Lex (· < ·) (· < ·) r (x.openChunks rx₀, n) ∧
      x.Underway env k r ⟨w, rest ++ out, .chunk k.toNat, answers⟩ := by
  obtain ⟨t, nak, ht, hmem, hout⟩ := h.next
  have hcmax : c ≠ uint32Max := by
    rintro rfl
    have := hx.totalChunks
    rw [show uint32Max.toNat = 2 ^ 32 - 1 from rfl] at hct
    omega
  have hrep : ∀ pdu ∈ out, x.Repeats k nak pdu := by
    intro pdu hp
    rcases hout pdu hp with rfl | he
    · exact .inl (.ack hc hcmax)
    · exact .inr he
  obtain ⟨pre, post, rfl, hpre⟩ := List.eq_append_cons_of_mem hmem
  refine ⟨(x.openChunks w.rx, (rest ++ pre).length), .left _ _ (openChunks_lt hct hopen h.marks),
    h.live, h.ready, h.seen, rfl, t, nak, rest ++ pre, post, ht, ?_, fun pdu hp => ?_,
    fun pdu hp => hrep pdu (List.mem_append_right _ (List.mem_cons_of_mem _ hp)), rfl⟩
  · rw [List.append_assoc]
  · rcases List.mem_append.mp hp with hp | hp
    · exact hrest pdu hp
    · rcases hrep pdu (List.mem_append_left _ hp) with hq | rfl
      · exact hq.mono fun _ hf => hf.elim
      · exact absurd hp hpre

/-- Where a list is cut: before an element of it, or after. -/
theorem append_eq_append_cons {α : Type} {xs ys pre post : List α} {a : α}
    (h : xs ++ ys = pre ++ a :: post) :
    (∃ mid, pre = xs ++ mid ∧ ys = mid ++ a :: post) ∨ ∃ mid, xs = pre ++ a :: mid ∧
      post = mid ++ ys := by
  rcases List.append_eq_append_iff.mp h with h | ⟨mid, rfl, hmid⟩
  · exact .inl h
  · rcases List.append_eq_cons_iff.mp hmid.symm with ⟨rfl, rfl⟩ | ⟨mid, rfl, rfl⟩
    · exact .inl ⟨[], by simp, rfl⟩
    · exact .inr ⟨mid, rfl, rfl⟩

/-- **Each step acknowledges the transfer or comes closer to it.** -/
theorem Underway.step {rank : Nat × Nat} {e e' : Exchange} (h : x.Underway env k rank e)
    (hx : x.WellFormed) (hc : Crc.Composes env.crc32) (hs : Exchange.Step env x e e') :
    x.Acked k.toNat e'.answers ∨ ∃ r, Prod.Lex (· < ·) (· < ·) r rank ∧ x.Underway env k r e' := by
  cases hs with
  | @read w w' batch rest answers phase hb ht =>
    obtain rfl : phase = .chunk k.toNat := h.phase
    obtain ⟨t, nak, pre, post, htarget, hinbox, hpre, hpost, rfl⟩ := h.inbox
    replace hinbox : batch ++ rest = pre ++ serializeNak nak :: post := hinbox
    have htk := htarget.ne h.ready
    rcases append_eq_append_cons hinbox with ⟨pre', rfl, rfl⟩ | ⟨post', rfl, rfl⟩
    · -- the batch ends before the NAK that counts
      have hq : ∀ pdu ∈ batch, x.Quiet k (Passed k w.rx) pdu := fun pdu hp =>
        hpre pdu (List.mem_append_left _ hp)
      have hpos : 0 < batch.length := List.length_pos_iff.mpr hb
      have hreact : (x.onBatch env.crc32 (.chunk k.toNat) batch).2 = .chunk k.toNat ∧
          ∀ raw ∈ (x.onBatch env.crc32 (.chunk k.toNat) batch).1,
            x.Packet env (Passed k w.rx) raw := by
        cases hf : batch.reverse.find? isNak with
        | none =>
          rw [onBatch_quiet hq hf]
          exact ⟨rfl, fun raw hr => by cases hr⟩
        | some pdu =>
          obtain ⟨-, c, nak', rfl, hasks, hD⟩ := Quiet.find hq hf
          rw [onBatch_nak hx hq hf hasks]
          exact ⟨rfl, hasks.block hD⟩
      obtain ⟨hl, hrx, hout⟩ := htarget.rests h.ready h.live hx hc hreact.2 ht
      refine .inr ⟨(x.openChunks w.rx, pre'.length), .right _ ?_, hl, by rw [hrx]; exact h.ready,
        by rw [hrx]; exact h.seen, hreact.1, t, nak, pre', post ++ w.sentSince w', by rw [hrx]; exact htarget,
        ?_, fun pdu hp => ?_, fun pdu hp => ?_, by rw [hrx]⟩
      · rw [List.length_append]
        omega
      · rw [List.append_assoc, List.cons_append]
      · rw [hrx]
        exact hpre pdu (List.mem_append_right _ hp)
      · exact (List.mem_append.mp hp).elim (hpost pdu) (hout pdu)
    · -- the batch reaches it
      have hmid : ∀ pdu ∈ post', x.Repeats k nak pdu := fun pdu hp =>
        hpost pdu (List.mem_append_left _ hp)
      have hnak : x.Quiet k (· ≠ k) (serializeNak nak) := .nak htarget.toAsks htk
      have hq : ∀ pdu ∈ pre ++ serializeNak nak :: post', x.Quiet k (· ≠ k) pdu := by
        intro pdu hp
        rcases List.mem_append.mp hp with hp | hp
        · exact (hpre pdu hp).mono fun _ hD => hD.1
        · rcases List.mem_cons.mp hp with rfl | hp
          · exact hnak
          · exact (hmid pdu hp).quiet htarget.toAsks htk
      rw [onBatch_nak hx hq (find_nak hmid) htarget.toAsks] at ht ⊢
      rcases htarget.serves h.ready h.live h.seen hx hc ht with hf | hmoved
      · exact .inl (.inr (List.mem_append_right _ hf))
      · -- NAKs for the chunk just done are behind
        have hpassed : Passed k w'.rx t :=
          ⟨htk, by rw [hmoved.marks, decide_eq_true rfl, Bool.true_or], by rw [hmoved.max]; exact htarget.seen⟩
        exact .inr (hmoved.underway hx htk htarget.open_ htarget.lt
          (fun pdu hp => (hpost pdu (List.mem_append_right _ hp)).quiet htarget.toAsks hpassed) _)

/-- The sender can always read on. -/
theorem Underway.moves {rank : Nat × Nat} {e : Exchange} (h : x.Underway env k rank e)
    (hx : x.WellFormed) (hc : Crc.Composes env.crc32) : ∃ e', Exchange.Step env x e e' := by
  obtain ⟨w, inbox, phase, answers⟩ := e
  obtain rfl : phase = .chunk k.toNat := h.phase
  obtain ⟨t, nak, pre, post, -, rfl, -⟩ := h.inbox
  obtain ⟨w', hw'⟩ := h.live.takes hx hc
    (reacts_onBatch (.chunk k.toNat) (pre ++ serializeNak nak :: post))
  have hb : (Phase.chunk k.toNat).Reads (pre ++ serializeNak nak :: post) := by
    show pre ++ serializeNak nak :: post ≠ []
    simp
  have : Exchange.Step env x ⟨w, (pre ++ serializeNak nak :: post) ++ [], .chunk k.toNat, answers⟩ _ :=
    .read hb hw'
  rw [List.append_nil] at this
  exact ⟨_, this⟩

theorem Underway.acked {rank : Nat × Nat} {e : Exchange} (h : x.Underway env k rank e)
    (hx : x.WellFormed) (hc : Crc.Composes env.crc32) :
    Inevitably (Exchange.Step env x) (fun e => x.Acked k.toNat e.answers) e :=
  inevitably_of_rank (I := x.Underway env k) (Prod.lex Nat.lt_wfRel Nat.lt_wfRel).wf
    (fun _ _ he => .inr ⟨he.moves hx hc, fun _ hs => he.step hx hc hs⟩) h

/-! ## Without a transfer -/

/-- A receiver without a transfer has done no chunk, or remembers the final ACK. -/
def Settled (x : Transfer) (rx : CfdpReceiver) : Prop := rx.transferActive = false →
  (∀ j, rx.state.isDone j = false) ∨ rx.lastAckedId = x.tid ∧ rx.state.transactionId = x.tid

theorem complete_settled (ht : rx.state.transactionId = x.tid) (ha : rx.transferActive = true) :
    x.Settled (rx.complete true).1 := by
  intro h
  rw [CfdpReceiver.complete_state]
  unfold CfdpReceiver.complete at h ⊢
  cases hc : rx.completion with
  | silent => rw [hc, ha] at h; cases h
  | nak => rw [hc, ha] at h; cases h
  | verify => exact .inr ⟨ht, ht⟩

theorem settled_of_active (ha : rx.transferActive = true) : x.Settled rx := fun h => by
  rw [ha] at h; cases h

theorem Settled.reply (h : x.Settled rx) (hm : rx.transferActive = true → x.Matches env rx.state) :
    x.Settled (rx.reply env o true raw).1 := by
  unfold CfdpReceiver.reply
  cases hd : decodePdu raw with
  | none => exact h
  | some pdu =>
    cases pdu with
    | metadata metadata =>
      simp only [CfdpReceiver.replyPdu, CfdpReceiver.replyMetadata]
      split
      · exact h
      · split
        · exact settled_of_active rfl
        · exact h
    | data d =>
      simp only [CfdpReceiver.replyPdu, CfdpReceiver.replyData]
      split
      · next hacc =>
        have ha := CfdpReceiver.acceptsData_iff.mp hacc
        split
        · exact settled_of_active (by rw [CfdpReceiver.see_transferActive]; exact ha.active)
        · split
          · have hact := CfdpReceiver.flushed_take_active ha d.chunkIndex
            simp only [CfdpReceiver.replyFlush]
            split
            · refine complete_settled ?_ hact
              rw [CfdpReceiver.flushed_take_state]
              exact (hm ha.active).tid
            · exact settled_of_active hact
          · exact settled_of_active (by rw [CfdpReceiver.take_transferActive]; exact ha.active)
      · exact h
    | eof eof =>
      simp only [CfdpReceiver.replyPdu, CfdpReceiver.replyEof]
      split
      · next hacc =>
        have ha := CfdpReceiver.active_of_acceptsEof hacc
        exact complete_settled (hm ha).tid ha
      · exact h
    | resumeQuery query => exact h

/-- Deliveries of a session's PDUs. -/
theorem Live.undisturbed {sent : List Bytes} {hist : List Moment} (hl : x.Live env w)
    (hset : x.Settled w.rx)
    (hx : x.WellFormed) (hc : Crc.Composes env.crc32) (hs : ∀ raw ∈ sent, x.Emits env.crc32 raw)
    (h : Node.Run env (Undisturbed sent) (.up w) hist (.up w')) : x.Live env w' ∧ x.Settled w'.rx := by
  refine h.inv (I := fun _ n => ∀ v, n = .up v → x.Live env v ∧ x.Settled v.rx)
    (fun v hv => by cases hv; exact ⟨hl, hset⟩) (fun _ n a ms n' hi ha hst v hv => ?_) w' rfl
  subst hv
  cases n with
  | down disk log => cases a <;> exact ha.elim
  | up u =>
    obtain ⟨hlu, hsu⟩ := hi u rfl
    cases a with
    | crash => exact ha.elim
    | boot => exact ha.elim
    | recv raw o cut =>
      cases cut with
      | some i => exact ha.elim
      | none =>
        obtain ⟨hmem, ho⟩ : raw ∈ sent ∧ o.Smooth := ha
        obtain ⟨v', hv', hlv, hrx, -⟩ := hlu.receives hx hc ho (hs raw hmem)
        obtain rfl : v' = v := Option.some.inj (hv'.symm.trans (Node.next_eq_some.mpr ⟨ms, hst⟩))
        exact ⟨hlv, by rw [hrx]; exact hsu.reply hlu.inv.record⟩

/-! ## After a timeout -/

/-- What the sender transmits when it has waited for a chunk ACK in vain. -/
theorem onTimeout_chunk (hx : x.WellFormed) (env : Env) (ci : Nat) :
    x.onTimeout env.crc32 (.chunk ci) = ([x.metadataRaw env.crc32, x.eofPdu env.crc32], .chunk ci) := by
  unfold onTimeout
  rw [hx.metadataPdu env]
  rfl

/-- The Metadata of the active transfer changes nothing. -/
theorem reply_metadata_active (hx : x.WellFormed) (hm : x.Matches env rx.state)
    (ha : rx.transferActive = true) :
    rx.reply env o true (x.metadataRaw env.crc32) = (rx, []) := by
  obtain ⟨name, -, hd⟩ := decodePdu_metadataPdu (hx.metadataPdu env)
  rw [reply_of_decode hd]
  exact CfdpReceiver.replyMetadata_again ha hm.tid

/-- After the transfer, it is answered by the final ACK. -/
theorem reply_metadata_finished (hx : x.WellFormed) (ha : rx.transferActive = false)
    (hid : rx.lastAckedId = x.tid) (ht : rx.state.transactionId = x.tid) :
    x.finalAck ∈ (rx.reply env o true (x.metadataRaw env.crc32)).2 := by
  obtain ⟨name, -, hd⟩ := decodePdu_metadataPdu (hx.metadataPdu env)
  have hrep : rx.repeatsAck (x.metadata env.crc32 name) = true := by
    simp [CfdpReceiver.repeatsAck, ha, hid, metadata]
  rw [reply_of_decode hd]
  simp only [CfdpReceiver.replyPdu, CfdpReceiver.replyMetadata, hrep, if_true, CfdpReceiver.ack, ht]
  exact List.mem_singleton_self _

/-- What comes of the answer of a completion check. -/
theorem Live.checked (hl : x.Live env w) (hx : x.WellFormed) (hc : Crc.Composes env.crc32)
    (hs : rx.Steady)
    (hm : x.Matches env rx.state) (hr : Ready k rx) (hrx : w.rx = (rx.complete true).1) :
    Inevitably (Exchange.Step env x) (fun e => x.Acked k.toNat e.answers)
      ⟨w, (rx.complete true).2, .chunk k.toNat, (rx.complete true).2⟩ ↔ x.AllSeen rx := by
  by_cases hall : x.AllSeen rx
  · refine iff_of_true ?_ hall
    rcases ending hs hx hm hr.active hr.eof with ⟨-, hcomp⟩ | @⟨t, nak, ht⟩ | ⟨-, hne, hgt⟩
    · refine .now (.inr ?_)
      rw [CfdpReceiver.complete, hcomp, if_pos rfl, CfdpReceiver.ack, hm.tid]
      exact List.mem_singleton_self _
    · rw [CfdpReceiver.complete, ht.completion] at hrx ⊢
      obtain rfl : w.rx = rx := hrx
      have hu : x.Underway env k (x.openChunks w.rx, 0)
          ⟨w, [serializeNak nak], .chunk k.toNat, [serializeNak nak]⟩ :=
        ⟨hl, hr, hall, rfl, _, _, [], [], ht, rfl, List.forall_mem_nil _, List.forall_mem_nil _, rfl⟩
      exact hu.acked hx hc
    · obtain ⟨j, hj, hopen⟩ := exists_open hm hne
      have h1 := hall j hj hopen
      have h2 := hgt j hj hopen
      omega
  · refine iff_of_false ?_ hall
    unfold AllSeen at hall
    push Not at hall
    obtain ⟨j, hj, hopen, hgt⟩ := hall
    have hh : x.Hushed k rx.maxChunkSeen rx := ⟨hr, rfl, j, hj, hopen, hgt⟩
    obtain ⟨h1, h2⟩ := hh.complete hs hx hm
    exact Unheard.not_acked ⟨hl, by rw [hrx, h1]; exact hh, rfl, h2, h2⟩ hx hc

/-- The Metadata and the Eof of a timeout in the course of the transfer. -/
theorem Live.timeout_iff (hl : x.Live env w) (hx : x.WellFormed) (hc : Crc.Composes env.crc32)
    (ha : w.rx.transferActive = true) (hk : w.rx.state.isDone k = true)
    (ht : w.Takes env [x.metadataRaw env.crc32, x.eofPdu env.crc32] w') :
    Inevitably (Exchange.Step env x) (fun e => x.Acked k.toNat e.answers)
      (.start w w' (.chunk k.toNat)) ↔ x.AllSeen w.rx := by
  obtain ⟨o₁, w₁, ho₁, hw₁, ht⟩ := World.takes_cons.mp ht
  obtain ⟨o₂, w₂, ho₂, hw₂, hnil⟩ := World.takes_cons.mp ht
  obtain rfl := World.takes_nil.mp hnil
  -- the Metadata changes nothing
  obtain ⟨v₁, hv₁, hl₁, hrx₁, hsent₁⟩ := hl.receives hx hc ho₁ (.metadata (hx.metadataPdu env))
  rw [hw₁] at hv₁; cases hv₁
  rw [reply_metadata_active hx (hl.inv.record ha) ha] at hrx₁ hsent₁
  -- the Eof is noted, and the receiver checks for completion
  obtain ⟨v₂, hv₂, hl₂, hrx₂, hsent₂⟩ := hl₁.receives hx hc ho₂ .eof
  rw [hw₂] at hv₂; cases hv₂
  have hacc : w.rx.acceptsEof ⟨x.tid, x.checksum env.crc32⟩ = true := by
    simp [CfdpReceiver.acceptsEof, ha, (hl.inv.record ha).tid]
  have hreply : w.rx.reply env o₂ true (x.eofPdu env.crc32) =
      CfdpReceiver.complete true { w.rx with state := w.rx.state.markEof } := by
    rw [reply_of_decode decodePdu_eofPdu, CfdpReceiver.replyPdu, CfdpReceiver.replyEof, if_pos hacc]
  rw [hrx₁, hreply] at hrx₂ hsent₂
  rw [hsent₁, List.append_nil] at hsent₂
  rw [Exchange.start, World.sentSince_eq hsent₂]
  exact hl₂.checked hx hc hl.ok.toSteady.markEof (hl.inv.record ha).markEof ⟨ha, rfl, hk⟩ hrx₂

/-- After the transfer, the Metadata is enough. -/
theorem Live.timeout_finished (hl : x.Live env w) (hx : x.WellFormed) (hc : Crc.Composes env.crc32)
    (ha : w.rx.transferActive = false) (hid : w.rx.lastAckedId = x.tid)
    (htid : w.rx.state.transactionId = x.tid)
    (ht : w.Takes env [x.metadataRaw env.crc32, x.eofPdu env.crc32] w') :
    x.finalAck ∈ w.sentSince w' := by
  obtain ⟨o₁, w₁, ho₁, hw₁, ht⟩ := World.takes_cons.mp ht
  obtain ⟨o₂, w₂, ho₂, hw₂, hnil⟩ := World.takes_cons.mp ht
  obtain rfl := World.takes_nil.mp hnil
  obtain ⟨v₁, hv₁, hl₁, hrx₁, hsent₁⟩ := hl.receives hx hc ho₁ (.metadata (hx.metadataPdu env))
  rw [hw₁] at hv₁; cases hv₁
  obtain ⟨v₂, hv₂, -, -, hsent₂⟩ := hl₁.receives hx hc ho₂ .eof
  rw [hw₂] at hv₂; cases hv₂
  rw [World.sentSince_eq (by rw [hsent₂, hsent₁, List.append_assoc])]
  exact List.mem_append_left _ (reply_metadata_finished hx ha hid htid)

variable {sent : List Bytes} {n : Node} {ms hist : List Moment} {garbage : JournalState}

/-- The receiver right after its first boot. -/
theorem Live.boot (hx : x.WellFormed) (hn : n.Fresh) (hd : x.Fits (n.disk.files (x.path env)))
    (ho : o.Smooth) (hboot : Node.step env n (.boot garbage o none) = some (ms, .up w)) :
    x.Live env w ∧ x.Settled w.rx := by
  have hallow : x.Surroundings env n (.boot garbage o none) := ho
  have hrun : Node.Run env (x.Surroundings env) n ([] ++ ms) (.up w) :=
    Machine.Run.start.step hallow hboot
  refine ⟨⟨(Run.nodeInv hx.tid hn hd hrun).1, (Node.Run.ok hn hrun).1⟩, ?_⟩
  cases n with
  | up v => cases hboot
  | down disk log =>
    simp only [Node.step, Option.map_eq_some_iff] at hboot
    obtain ⟨⟨ws, n⟩, hf, hr⟩ := hboot
    cases hr
    have hrx := (Node.finish_up replies_onBoot hf).1
    unfold World.loaded at hrx
    rw [if_pos hn.1] at hrx
    intro _
    refine .inl fun j => ?_
    rw [hrx]
    rfl

/-- **A lost chunk ACK is recovered by the timeout round** exactly if every missing chunk has
been seen by the receiver, or the transfer is over. -/
theorem timeout_acked_iff {w₀ : World} {k : Nat} (hx : x.WellFormed) (hc : Crc.Composes env.crc32)
    (hs : x.Sends env.crc32 sent (.chunk k)) (hn : n.Fresh) (hd : x.Fits (n.disk.files (x.path env)))
    (ho : o.Smooth) (hboot : Node.step env n (.boot garbage o none) = some (ms, .up w₀))
    (h : Node.Run env (Undisturbed sent) (.up w₀) hist (.up w))
    (hk : w.rx.state.isDone (UInt32.ofNat k) = true) :
    (∃ w', w.Takes env (x.onTimeout env.crc32 (.chunk k)).1 w') ∧
      ∀ w', w.Takes env (x.onTimeout env.crc32 (.chunk k)).1 w' →
        (Inevitably (Exchange.Step env x) (fun e => x.Acked k e.answers)
            (.start w w' (x.onTimeout env.crc32 (.chunk k)).2) ↔
          (w.rx.transferActive = true → x.AllSeen w.rx)) := by
  obtain ⟨hl₀, hset₀⟩ := Live.boot hx hn hd ho hboot
  obtain ⟨hl, hset⟩ := hl₀.undisturbed hset₀ hx hc hs.emits h
  refine ⟨hl.takes hx hc (reacts_onTimeout (.chunk k)), fun w' ht => ?_⟩
  have hkt : (UInt32.ofNat k).toNat = k := toNat_chunk hx hs.waits
  rw [onTimeout_chunk hx env] at ht ⊢
  cases ha : w.rx.transferActive with
  | true =>
    have := hl.timeout_iff hx hc ha hk ht
    rw [hkt] at this
    rw [this]
    exact ⟨fun h _ => h, fun h => h rfl⟩
  | false =>
    refine iff_of_true (.now (.inr ?_)) fun hf => by cases hf
    rcases hset ha with hno | ⟨hid, htid⟩
    · rw [hno] at hk; cases hk
    · exact hl.timeout_finished hx hc ha hid htid ht

/-! ## Two bytes, one of them lost -/

/-- A chunk, as it is sent first. -/
theorem Sizes.oneChunk (hx : x.Sizes) {c : Nat} (hc : c < x.totalChunks) :
    x.oneChunk c = (List.range (x.numPackets c)).map (x.packet c) := by
  have hps := hx.packetSize.1
  rw [Transfer.oneChunk, if_neg (by omega), totalPkts_eq hps (chunk_lt hx.chunkSize hc).le,
    Int.toNat_natCast]

theorem WellFormed.oneChunk (hx : x.WellFormed) {ci : Nat} (hci : ci < x.totalChunks) :
    x.oneChunk ci = ((List.range (x.numPackets ci)).map (x.packetRaw ci)).map some := by
  rw [hx.toSizes.oneChunk hci, List.map_map]
  exact List.map_congr_left fun pi hpi => hx.packet hci (List.mem_range.mp hpi)

/-- A session that is told to start at chunk 0, waiting for its ACK. -/
theorem WellFormed.sends_first (hx : x.WellFormed) (crc32 : UInt32 → Bytes → UInt32) :
    x.Sends crc32 ((x.send crc32).1 ++
      ((List.range (x.numPackets 0)).map (x.packetRaw 0) ++ [x.eofPdu crc32])) (.chunk 0) := by
  have hphase : (x.send crc32).2 = .query 0 := by
    rw [send, hx.metadataPdu ⟨[], crc32⟩]
    rfl
  have hb : (x.send crc32).2.Reads [ResumeInfoPdu.raw ⟨x.tid, 0⟩] := by
    rw [hphase]
    exact List.length_singleton
  have h := Sends.batch .send hb
  have hinfo : x.onBatch crc32 (.query 0) [ResumeInfoPdu.raw ⟨x.tid, 0⟩] = x.sendChunk crc32 0 := by
    have h1 : rd32 ((ResumeInfoPdu.raw ⟨x.tid, 0⟩).drop 1) = x.tid := rd32_le32 _ _
    have h2 : rd32 ((ResumeInfoPdu.raw ⟨x.tid, 0⟩).drop 5) = 0 := rd32_le32' _
    show x.onInfo crc32 0 (ResumeInfoPdu.raw ⟨x.tid, 0⟩) = _
    rw [onInfo, if_neg (by simp [ResumeInfoPdu.raw]), h1, if_neg (not_not_intro rfl), h2,
      if_neg (by decide)]
    rfl
  rw [hphase, hinfo, sendChunk, if_pos hx.totalChunks_pos, hx.oneChunk hx.totalChunks_pos,
    ← List.map_singleton, ← List.map_append, sendAll_map_some] at h
  exact h

/-- PDUs of a session, delivered. -/
theorem exec_undisturbed (sent : List Bytes) {raws : List Bytes} {r : List Moment × Node}
    (h : Machine.exec (Node.step sampleEnv) (.up w) (raws.map deliver) = some r)
    (hs : ∀ raw ∈ raws, raw ∈ sent) :
    Node.Run sampleEnv (Undisturbed sent) (.up w) r.1 r.2 := by
  refine Machine.exec_run h fun a ha s r hst => ?_
  obtain ⟨raw, hraw, rfl⟩ := List.mem_map.mp ha
  cases s with
  | up v => exact ⟨hs raw hraw, smooth_noFaults⟩
  | down disk log => cases hst

/-- The ACK of the only chunk and the Eof are lost. -/
theorem timeout_acked_small : ∃ w w' : World, w.rx.state.isDone 0 = true ∧
    Inevitably (Exchange.Step sampleEnv (small [0x61])) (fun e => (small [0x61]).Acked 0 e.answers)
      (.start w w' ((small [0x61]).onTimeout sampleEnv.crc32 (.chunk 0)).2) := by
  have hx : (small [0x61]).WellFormed := wellFormed_small (by simp) (by simp)
  have hrun : (unusedNode.next sampleEnv powerOn).any (fun w₀ => (Machine.exec (Node.step sampleEnv) (.up w₀)
      ([(small [0x61]).metadataRaw sampleEnv.crc32, (small [0x61]).packetRaw 0 0].map deliver)).any
        fun r => r.2.world?.any fun w => w.rx.state.isDone 0) = true := by
    decide +kernel
  simp only [Option.any_eq_true, Node.world?_eq_some, Node.next_eq_some, Prod.exists] at hrun
  obtain ⟨w₀, ⟨ms, hboot⟩, hist, n, hexec, w, rfl, hk⟩ := hrun
  have hok := exec_undisturbed (((small [0x61]).send sampleEnv.crc32).1 ++
      ((List.range ((small [0x61]).numPackets 0)).map ((small [0x61]).packetRaw 0) ++
        [(small [0x61]).eofPdu sampleEnv.crc32])) hexec (by decide +kernel)
  obtain ⟨⟨w', ht⟩, hiff⟩ :=
    timeout_acked_iff hx Crc.composes_zlibCrc32 (hx.sends_first sampleEnv.crc32)
    unusedNode_fresh (fun g hg => by cases hg) smooth_noFaults hboot hok hk
  refine ⟨w, w', hk, (hiff w' ht).mpr fun _ j hj _ => ?_⟩
  have hj' : j.toNat < 1 := hj
  omega

/-- After the first chunk of two, with its ACK lost, the timeout round is not answered. -/
theorem not_timeout_acked : ¬ ∀ (env : Env) (x : Transfer) (sent : List Bytes) (k : Nat) (n : Node)
    (garbage : JournalState) (o : Oracle) (ms hist : List Moment) (w₀ w w' : World), x.WellFormed →
    Crc.Composes env.crc32 → x.Sends env.crc32 sent (.chunk k) → n.Fresh →
      x.Fits (n.disk.files (x.path env)) →
    o.Smooth → Node.step env n (.boot garbage o none) = some (ms, .up w₀) →
    Node.Run env (Undisturbed sent) (.up w₀) hist (.up w) → w.rx.state.isDone (UInt32.ofNat k) = true →
    w.Takes env (x.onTimeout env.crc32 (.chunk k)).1 w' →
    Inevitably (Exchange.Step env x) (fun e => x.Acked k e.answers)
      (.start w w' (x.onTimeout env.crc32 (.chunk k)).2) := by
  intro h
  have hx : twoBytes.WellFormed := wellFormed_small (by simp) (by simp)
  have hrun : (unusedNode.next sampleEnv powerOn).any (fun w₀ => (Machine.exec (Node.step sampleEnv) (.up w₀)
      ([twoBytes.metadataRaw sampleEnv.crc32, twoBytes.queryPdu, twoBytes.packetRaw 0 0,
        twoBytes.eofPdu sampleEnv.crc32].map deliver)).any fun r => r.2.world?.any fun w =>
          w.rx.transferActive && w.rx.state.isDone 0 && !w.rx.state.isDone 1 && w.rx.maxChunkSeen == 0) = true := by
    decide +kernel
  simp only [Option.any_eq_true, Node.world?_eq_some, Node.next_eq_some, Bool.and_eq_true, beq_iff_eq,
    Bool.not_eq_true', Prod.exists] at hrun
  obtain ⟨w₀, ⟨ms, hboot⟩, hist, n, hexec, w, rfl, ⟨⟨ha, hk⟩, hopen⟩, hmax⟩ := hrun
  have hok := exec_undisturbed ((twoBytes.send sampleEnv.crc32).1 ++
      ((List.range (twoBytes.numPackets 0)).map (twoBytes.packetRaw 0) ++
        [twoBytes.eofPdu sampleEnv.crc32])) hexec (by decide +kernel)
  have hs := hx.sends_first sampleEnv.crc32
  obtain ⟨hl₀, hset₀⟩ := Live.boot hx unusedNode_fresh (fun g hg => by cases hg) smooth_noFaults hboot
  obtain ⟨hl, -⟩ := hl₀.undisturbed hset₀ hx Crc.composes_zlibCrc32 hs.emits hok
  obtain ⟨w', ht⟩ := hl.takes hx Crc.composes_zlibCrc32 (reacts_onTimeout (.chunk 0))
  have hin :=
    h sampleEnv twoBytes _ 0 unusedNode .blank noFaults ms hist w₀ w w' hx Crc.composes_zlibCrc32 hs
    unusedNode_fresh (fun g hg => by cases hg) smooth_noFaults hboot hok hk ht
  rw [onTimeout_chunk hx sampleEnv] at ht hin
  -- chunk 1 is missing and has not been seen
  have hseen := (hl.timeout_iff (k := 0) hx Crc.composes_zlibCrc32 ha hk ht).mp hin 1 (by decide) hopen
  rw [hmax] at hseen
  exact absurd hseen (by decide)

end Transfer

end Cfdp
