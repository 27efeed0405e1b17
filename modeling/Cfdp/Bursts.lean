import Cfdp.Corruption
import Cfdp.Crc8Poly

/-!
# Bursts in the data of a packet

A packet of the sender whose data is hit by a burst of at most eight bits, with its header
intact (`Damaged`), decodes to the sender's PDU with other data, and the CRC-8 of these is
not the one in the header. `handle_data` inserts it as invalid: no slot becomes valid, no
chunk is complete, nothing is written.
-/

namespace Cfdp

open Crash Prog LittleEndian

/-! ## Packets whose CRC-8 fails -/

namespace CfdpReceiver

variable {rx : CfdpReceiver} {d : DataPdu}

/-- What is valid after a packet whose CRC-8 fails was valid before. -/
theorem take_invalid_slot (hcrc : (Crc.crc8 d.data == d.crc8) = false) {q : Nat} {node : PacketNode}
    (hn : (rx.take d).packetList.index[q]? = some node) (hvalid : node.ok = true) :
    rx.currentChunkIndex = d.chunkIndex ∧ rx.packetList.index[q]? = some node := by
  rw [take_packetList, hcrc] at hn
  have hslot := PacketList.insert_invalid_slot hn hvalid
  obtain ⟨hcur, -⟩ := listFor_holds.mp ⟨node, hslot, hvalid⟩
  rw [listFor, if_pos hcur.symm] at hslot
  exact ⟨hcur, hslot⟩

theorem take_invalid_incomplete (hok : rx.Ok) (ha : rx.Accepted d)
    (hcrc : (Crc.crc8 d.data == d.crc8) = false) : (rx.take d).packetList.isComplete = false := by
  rw [take_packetList, hcrc]
  exact (hok.listFor ha).1.insert_invalid_incomplete (hok.toSteady.listFor_incomplete ha) _ _

end CfdpReceiver

/-- A slot that is valid afterwards was so before, in the same chunk and with the same data;
the record and the disk are the same. -/
structure World.NothingStored (w w' : World) : Prop where
  slots : ∀ (q : Nat) (node : PacketNode), w'.rx.packetList.index[q]? = some node → node.ok = true →
    w'.rx.currentChunkIndex = w.rx.currentChunkIndex ∧ w.rx.packetList.index[q]? = some node
  state : w'.rx.state = w.rx.state
  disk : w'.disk = w.disk

theorem World.nothingStored_refl (w : World) : w.NothingStored w :=
  ⟨fun _ _ hn _ => ⟨rfl, hn⟩, rfl, rfl⟩

section

variable {env : Env} {o : Oracle} {w : World} {d : DataPdu}

theorem nothingStored_see (c : UInt32) : w.NothingStored (w.setRx (CfdpReceiver.see c)) := by
  refine ⟨fun q node hn _ => ?_, CfdpReceiver.see_state, rfl⟩
  rw [World.setRx_rx, CfdpReceiver.see_packetList] at hn
  exact ⟨CfdpReceiver.see_currentChunkIndex, hn⟩

/-- A packet whose CRC-8 fails is not stored. -/
theorem nothingStored_handleData (hok : w.rx.Ok) (hcrc : (Crc.crc8 d.data == d.crc8) = false) :
    wp (handleData env o d) (fun x => x.disk = w.disk) (fun _ => w.NothingStored) (fun _ _ => False)
      w := by
  refine wp_handleData (fun _ => w.nothingStored_refl) (fun _ _ w₁ hw₁ => ?_) fun hacc _ => ⟨?_, ?_⟩
  · have hsee := nothingStored_see (w := w) d.chunkIndex
    rw [← hw₁] at hsee
    exact ⟨fun _ => ⟨hsee.disk, ⟨hsee.slots, hsee.state, hsee.disk⟩⟩, fun _ => hsee⟩
  · intro pdu _
    rfl
  · rintro w₁ rfl
    have ha := CfdpReceiver.acceptsData_iff.mp hacc
    rw [World.setRx_rx, World.sendOption_rx, CfdpReceiver.take_invalid_incomplete hok ha hcrc]
    refine ⟨fun hc => absurd hc Bool.false_ne_true, fun _ => ⟨fun q node hn hvalid => ?_, ?_, ?_⟩⟩
    · rw [World.setRx_rx, World.sendOption_rx] at hn ⊢
      obtain ⟨hcur, hslot⟩ := CfdpReceiver.take_invalid_slot hcrc hn hvalid
      exact ⟨by rw [CfdpReceiver.take_currentChunkIndex, hcur], hslot⟩
    · rw [World.setRx_rx, World.sendOption_rx, CfdpReceiver.take_state]
    · rw [World.setRx_disk, World.sendOption_disk]

end

/-! ## Packets of the sender -/

namespace Transfer

variable {env : Env} {x : Transfer} {ci pi : Nat} {raw raw' : Bytes}

/-- The type byte and the header before the data. -/
abbrev dataStart : Nat := 1 + sizeofDataHdr

/-- `raw'` is a packet of the sender with its header intact and one burst of at most eight
bits in the first `data_len` bytes of its data. -/
structure Damaged (x : Transfer) (ci pi : Nat) (raw raw' : Bytes) : Prop where
  packet : x.packet ci pi = some raw
  header : raw'.take dataStart = raw.take dataStart
  burst : Crc.Burst8 ((raw.drop dataStart).take (x.dataPdu ci pi).dataLen.toNat)
    ((raw'.drop dataStart).take (x.dataPdu ci pi).dataLen.toNat)

theorem toBytes_with_data (d : DataPdu) (pad data : Bytes) :
    { d with data := data }.toBytes = (d.toBytes ++ pad).take sizeofDataHdr ++ data := by
  have hsplit (bs : Bytes) : { d with data := bs }.toBytes =
      (le32 d.transactionId ++ (le32 d.chunkIndex ++ (le32 d.packetIndex ++ (le32 d.totalPackets ++
        (le32 d.dataLen ++ [d.crc8]))))) ++ bs := by
    simp only [DataPdu.toBytes, List.append_assoc, List.cons_append, List.nil_append]
  have htake : (d.toBytes ++ pad).take sizeofDataHdr = le32 d.transactionId ++ (le32 d.chunkIndex ++
      (le32 d.packetIndex ++ (le32 d.totalPackets ++ (le32 d.dataLen ++ [d.crc8])))) := by
    rw [show d.toBytes = { d with data := d.data }.toBytes from rfl, hsplit, List.append_assoc]
    apply List.take_left'
    simp [sizeofDataHdr]
  rw [hsplit, htake]

/-- The damaged packet is the sender's PDU with other data. -/
theorem Damaged.eq (h : x.Damaged ci pi raw raw') :
    ∃ data pad, raw' = PduType.data.code :: ({ x.dataPdu ci pi with data := data }.toBytes ++ pad) ∧
      data.length = (x.dataPdu ci pi).dataLen.toNat ∧ Crc.Burst8 (x.packetData ci pi) data := by
  obtain ⟨hin, hraw⟩ := packet_eq h.packet
  have hlen : (x.packetData ci pi).length = (x.dataPdu ci pi).dataLen.toNat := by
    rw [hin.toNat_packetLen]
    exact hin.length_packetData
  generalize FileBytes.zeros (x.packetSize - x.packetLen ci pi) = pad at hraw
  -- the data the sender put in
  have hdata : (raw.drop dataStart).take (x.dataPdu ci pi).dataLen.toNat = x.packetData ci pi := by
    have hdrop : raw.drop dataStart = (x.dataPdu ci pi).data ++ pad := by
      rw [hraw, show dataStart = (20 + 1) + 1 from rfl, List.drop_succ_cons, ← List.drop_drop,
        toBytes_drop, List.drop_succ_cons, List.drop_zero]
    rw [hdrop]
    exact List.take_left' hlen
  have hb := h.burst
  rw [hdata] at hb
  have hhead : raw'.take dataStart =
      PduType.data.code :: ((x.dataPdu ci pi).toBytes ++ pad).take sizeofDataHdr := by
    rw [h.header, hraw, show dataStart = sizeofDataHdr + 1 from rfl, List.take_succ_cons]
  refine ⟨_, (raw'.drop dataStart).drop (x.dataPdu ci pi).dataLen.toNat, ?_, hb.length.symm.trans hlen,
    hb⟩
  rw [toBytes_with_data _ pad, List.append_assoc, List.take_append_drop, ← List.cons_append, ← hhead,
    List.take_append_drop]

/-- What a damaged packet decodes to fails its CRC-8. -/
theorem Damaged.crc8_fails {d : DataPdu} (h : x.Damaged ci pi raw raw')
    (hd : decodePdu raw' = some (.data d)) : (Crc.crc8 d.data == d.crc8) = false := by
  obtain ⟨data, pad, hraw, hlen, hburst⟩ := h.eq
  rw [hraw] at hd
  obtain ⟨-, rfl⟩ := decodePdu_eq_data hd
  rw [DataPdu.ofBytes_toBytes _ hlen, beq_eq_false_iff_ne]
  exact hburst.crc8_ne.symm

/-- What a damaged packet decodes to is a Data PDU. -/
theorem Damaged.decode (h : x.Damaged ci pi raw raw') :
    decodePdu raw' = none ∨ ∃ d, decodePdu raw' = some (.data d) := by
  obtain ⟨data, pad, hraw, -, -⟩ := h.eq
  rw [hraw]
  exact decodePdu_data_code _

/-- **The CRC-8 detects every burst of at most eight bits.** So a packet of the sender whose
data suffers one is never inserted as valid: its CRC-8 fails, and in every reachable state the
receiver stores nothing of it. -/
theorem crc8_detects_bursts :
    (∀ a b, Crc.Burst8 a b → Crc.crc8 a ≠ Crc.crc8 b) ∧
    ∀ (x : Transfer) (ci pi : Nat) (raw raw' : Bytes), x.Damaged ci pi raw raw' →
      (∀ d, decodePdu raw' = some (.data d) → (Crc.crc8 d.data == d.crc8) = false) ∧
      ∀ (env : Env) (ok : Node → Action → Prop) (n : Node) (hist : List Moment) (w : World),
        n.Fresh → Node.Run env ok n hist (.up w) → ∀ o,
          wp (onPduReceived env o raw') (fun w' => w'.disk = w.disk) (fun _ => w.NothingStored)
            (fun _ _ => False) w := by
  refine ⟨fun a b hb => hb.crc8_ne, fun x ci pi raw raw' h => ⟨fun d => h.crc8_fails, ?_⟩⟩
  intro env ok n hist w hn hr o
  rcases h.decode with hnone | ⟨d, hd⟩
  · rw [onPduReceived, hnone]
    exact (wp_pure ()).mpr w.nothingStored_refl
  · rw [onPduReceived, hd]
    exact nothingStored_handleData (Node.Run.ok hn hr).1 (h.crc8_fails hd)

/-- A file of two bytes in one packet. -/
def pairPacket : Transfer := { small [0x61, 0x62] with chunkSize := 2, packetSize := 2 }

/-- The packet of that file with six bits changed, across the two data bytes. -/
def burstRaw : Bytes := (pairPacket.packetRaw 0 0).take dataStart ++ [0x6E, 0xA2]

theorem burst8_pair : Crc.Burst8 [0x61, 0x62] [0x6E, 0xA2] where
  length := rfl
  ne := by decide
  window := by
    refine ⟨4, fun i hi => ?_⟩
    have hlt : i < 16 := by
      by_contra hge
      apply hi
      rw [List.getElem?_eq_none (by rw [Crc.length_bits]; simp; omega),
        List.getElem?_eq_none (by rw [Crc.length_bits]; simp; omega)]
    revert hi
    revert i
    decide

theorem damaged_burstRaw : pairPacket.Damaged 0 0 (pairPacket.packetRaw 0 0) burstRaw where
  packet := pairPacket.packetRaw_eq 0 0 (by decide +kernel)
  header := by decide +kernel
  burst := by
    have h1 : ((pairPacket.packetRaw 0 0).drop dataStart).take (pairPacket.dataPdu 0 0).dataLen.toNat =
        [0x61, 0x62] := by
      decide +kernel
    have h2 : (burstRaw.drop dataStart).take (pairPacket.dataPdu 0 0).dataLen.toNat = [0x6E, 0xA2] := by
      decide +kernel
    rw [h1, h2]
    exact burst8_pair

/-- A receiver that waits for this packet leaves its slot open. -/
theorem crc8_detects_bursts_pair : Crc.crc8 [0x61, 0x62] ≠ Crc.crc8 [0x6E, 0xA2] ∧
    ∃ w, w.rx.acceptsData (pairPacket.dataPdu 0 0) = true ∧
      wp (onPduReceived sampleEnv noFaults burstRaw) (fun w' => w'.disk = w.disk)
        (fun _ => w.NothingStored) (fun _ _ => False) w := by
  have hrun : (sampleRun [powerOn, deliver (pairPacket.metadataRaw sampleEnv.crc32)]).any (fun r =>
      r.2.world?.any fun w => w.rx.acceptsData (pairPacket.dataPdu 0 0)) = true := by
    decide +kernel
  simp only [Option.any_eq_true, Node.world?_eq_some, Prod.exists] at hrun
  obtain ⟨hist, n, hr, w, rfl, hacc⟩ := hrun
  have hw := (crc8_detects_bursts.2 _ _ _ _ _ damaged_burstRaw).2 sampleEnv (fun _ _ => True)
    unusedNode hist w unusedNode_fresh (Machine.exec_run hr fun _ _ _ _ _ => trivial) noFaults
  exact ⟨crc8_detects_bursts.1 _ _ burst8_pair, w, hacc, hw⟩

end Transfer

end Cfdp
