import Cfdp.Answers

/-!
# Corrupted Data PDUs

A Data PDU with one byte changed on the line (`corrupt`), and the slots of the
packet list (`FromSource`). The CRC-8 protects the data and itself; a changed
type byte makes another PDU, a changed transaction or packet count changes no
slot. What is left are the fields that say where the data belongs and how long
it is: a PDU with one of these changed can be stored as another packet
(`Misfiled`).
-/

namespace Cfdp

open Crash Prog LittleEndian

/-- Byte `i` of a PDU, changed by an exclusive or with `v`. -/
def corrupt (raw : Bytes) (i : Nat) (v : UInt8) : Bytes := raw.set i (raw.getD i 0 ^^^ v)

namespace Transfer

variable {env : Env} {x : Transfer} {o : Oracle} {rx : CfdpReceiver} {w : World} {raw : Bytes}
  {d : DataPdu}

/-- Every slot marked received and valid holds its packet of the source file. -/
def FromSource (x : Transfer) (rx : CfdpReceiver) : Prop :=
  ∀ pi node, rx.packetList.index[pi]? = some node → node.ok = true →
    node.data = x.packetData rx.currentChunkIndex.toNat pi

/-- The receiver stores `d` in a slot it does not belong to, and keeps it there: `d` is
accepted for an unfinished chunk, names one of its slots, has a matching CRC-8, leaves
another slot open, and is not the packet of the source file it names. -/
structure Misfiled (x : Transfer) (rx : CfdpReceiver) (d : DataPdu) : Prop where
  accepted : rx.acceptsData d = true
  unfinished : rx.state.isDone d.chunkIndex = false
  slot : d.packetIndex.toNat < d.totalPackets.toNat
  crc : Crc.crc8 d.data = d.crc8
  another : ∃ q, q ≠ d.packetIndex.toNat ∧ q < d.totalPackets.toNat ∧ ¬ rx.Holds d.chunkIndex q
  wrong : d.data ≠ x.packetData d.chunkIndex.toNat d.packetIndex.toNat

/-! ## What is stored -/

/-- A packet stored as valid leaves the chunk incomplete exactly if another slot is open. -/
theorem take_incomplete_iff (hok : rx.Ok) (ha : rx.Accepted d)
    (hslot : d.packetIndex.toNat < d.totalPackets.toNat) (hcrc : Crc.crc8 d.data = d.crc8) :
    (rx.take d).packetList.isComplete = false ↔
      ∃ q, q ≠ d.packetIndex.toNat ∧ q < d.totalPackets.toNat ∧ ¬ rx.Holds d.chunkIndex q := by
  obtain ⟨hwf, htot⟩ := hok.listFor ha
  have hwf' : (rx.take d).packetList.Wf := by
    rw [CfdpReceiver.take_packetList]
    exact hwf.insert _ _ _
  have htot' : (rx.take d).packetList.totalPackets = d.totalPackets := by
    rw [CfdpReceiver.take_packetList, PacketList.insert_totalPackets, htot, ha.packets]
  rw [← Bool.not_eq_true, CfdpReceiver.complete_iff_holds hwf' CfdpReceiver.take_currentChunkIndex, htot']
  simp only [CfdpReceiver.holds_take hok.toSteady ha hslot hcrc]
  constructor
  · intro hno
    by_contra hall
    refine hno ⟨by omega, fun q hq => ?_⟩
    by_cases hqp : q = d.packetIndex.toNat
    · exact .inl hqp
    · refine .inr ?_
      by_contra hopen
      exact hall ⟨q, hqp, hq, hopen⟩
  · rintro ⟨q, hqp, hq, hopen⟩ ⟨-, hall⟩
    exact hopen ((hall q hq).resolve_left hqp)

end Transfer

namespace CfdpReceiver

@[simp] theorem complete_packetList (rx : CfdpReceiver) (verified : Bool) :
    (rx.complete verified).1.packetList = rx.packetList := by
  unfold complete
  cases rx.completion with
  | silent => rfl
  | nak => rfl
  | verify => cases verified <;> rfl

@[simp] theorem complete_currentChunkIndex (rx : CfdpReceiver) (verified : Bool) :
    (rx.complete verified).1.currentChunkIndex = rx.currentChunkIndex := by
  unfold complete
  cases rx.completion with
  | silent => rfl
  | nak => rfl
  | verify => cases verified <;> rfl

/-- Every slot marked received and valid satisfies `P`, which may speak of the record, the chunk and
the packet. -/
def Slots (P : JournalState → Nat → Nat → Bytes → Prop) (rx : CfdpReceiver) : Prop :=
  ∀ pi node, rx.packetList.index[pi]? = some node → node.ok = true →
    P rx.state rx.currentChunkIndex.toNat pi node.data

variable {P : JournalState → Nat → Nat → Bytes → Prop} {rx : CfdpReceiver} {d : DataPdu} {env : Env}
  {o : Oracle} {raw : Bytes} {verified : Bool}

theorem slots_of_empty (h : rx.packetList.index = []) : rx.Slots P := by
  intro pi node hn
  rw [h] at hn
  cases hn

theorem Slots.complete (h : rx.Slots P) : (rx.complete verified).1.Slots P := by
  intro pi node
  rw [complete_packetList, complete_currentChunkIndex, complete_state]
  exact h pi node

/-- A packet that satisfies `P` is stored. -/
theorem Slots.take (h : rx.Slots P) (hok : rx.Ok) (ha : rx.Accepted d)
    (hd : d.packetIndex.toNat < d.totalPackets.toNat → Crc.crc8 d.data = d.crc8 →
      P rx.state d.chunkIndex.toNat d.packetIndex.toNat d.data) : (rx.take d).Slots P := by
  obtain ⟨hwf, htot⟩ := hok.listFor ha
  intro q node hn hnode
  rw [take_currentChunkIndex, take_state]
  rw [take_packetList] at hn
  -- a slot that was there before is one of the chunk in progress
  have hold (m : PacketNode) (hm : (rx.listFor d).index[q]? = some m) (hmok : m.ok = true) :
      P rx.state d.chunkIndex.toNat q m.data := by
    obtain ⟨hcur, m', hm', hok'⟩ := listFor_holds.mp ⟨m, hm, hmok⟩
    rw [listFor, if_pos hcur.symm] at hm
    rw [← hcur]
    exact h q m hm hmok
  by_cases hpi : (rx.listFor d).totalPackets.toNat ≤ d.packetIndex.toNat
  · rw [PacketList.insert_out hpi] at hn
    exact hold node hn hnode
  obtain ⟨old, hold', hidx, -⟩ := hwf.insert_index _ (Nat.lt_of_not_le hpi) d.data
    (Crc.crc8 d.data == d.crc8)
  rw [hidx] at hn
  by_cases hq : q = d.packetIndex.toNat
  · subst hq
    obtain ⟨hlt, -⟩ := List.getElem?_eq_some_iff.mp hold'
    rw [List.getElem?_set_self hlt] at hn
    cases hn
    refine hd ?_ (by simpa [PacketNode.ok] using hnode)
    rw [ha.packets, ← htot]
    exact Nat.lt_of_not_le hpi
  · rw [List.getElem?_set_ne (Ne.symm hq)] at hn
    exact hold node hn hnode

/-- Every PDU keeps the slots, if a packet that is stored satisfies `P`. -/
theorem Slots.reply (h : rx.Slots P) (hok : rx.Ok)
    (heof : ∀ s ci pi data, P s ci pi data → P s.markEof ci pi data)
    (hd : ∀ d, decodePdu raw = some (.data d) → rx.acceptsData d = true →
      rx.state.isDone d.chunkIndex = false → (rx.take d).packetList.isComplete = false →
        d.packetIndex.toNat < d.totalPackets.toNat → Crc.crc8 d.data = d.crc8 →
          P rx.state d.chunkIndex.toNat d.packetIndex.toNat d.data) :
    (rx.reply env o verified raw).1.Slots P := by
  unfold CfdpReceiver.reply
  cases hdec : decodePdu raw with
  | none => exact h
  | some pdu =>
    cases pdu with
    | metadata m =>
      simp only [replyPdu, replyMetadata]
      split
      · exact h
      · split
        · exact slots_of_empty rfl
        · exact h
    | data d =>
      simp only [replyPdu, replyData]
      split
      · next hacc =>
        split
        · intro pi node
          rw [see_packetList, see_currentChunkIndex, see_state]
          exact h pi node
        · next hdone =>
          split
          · -- the chunk is flushed and its slots cleared
            have hempty : ((rx.take d).flushed d.chunkIndex).Slots P := slots_of_empty rfl
            simp only [replyFlush]
            split
            · exact hempty.complete
            · exact hempty
          · next hc =>
            exact h.take hok (acceptsData_iff.mp hacc)
              (hd d hdec hacc (by simpa using hdone) (by simpa using hc))
      · exact h
    | eof eof =>
      simp only [replyPdu, replyEof]
      split
      · have hmarked : CfdpReceiver.Slots P { rx with state := rx.state.markEof } :=
          fun pi node hn hnode => heof _ _ _ _ (h pi node hn hnode)
        exact hmarked.complete
      · exact h
    | resumeQuery query => exact h

end CfdpReceiver

namespace Transfer

variable {env : Env} {x : Transfer} {o : Oracle} {rx : CfdpReceiver} {w w' : World} {raw : Bytes}
  {d : DataPdu} {verified : Bool}

theorem fromSource_of_empty (h : rx.packetList.index = []) : x.FromSource rx :=
  CfdpReceiver.slots_of_empty (P := fun _ ci pi data => data = x.packetData ci pi) h

/-- A PDU that is not misfiled keeps the slots. -/
theorem FromSource.reply (h : x.FromSource rx) (hok : rx.Ok)
    (hd : ∀ d, decodePdu raw = some (.data d) → ¬ x.Misfiled rx d) :
    x.FromSource (rx.reply env o verified raw).1 := by
  refine CfdpReceiver.Slots.reply (P := fun _ ci pi data => data = x.packetData ci pi) h hok
    (fun _ _ _ _ hp => hp) fun d hdec hacc hopen hc hslot hcrc => ?_
  have ha := CfdpReceiver.acceptsData_iff.mp hacc
  by_contra hwrong
  exact hd d hdec ⟨hacc, hopen, hslot, hcrc, (take_incomplete_iff hok ha hslot hcrc).mp hc, hwrong⟩

/-- A misfiled PDU leaves a wrong slot behind. -/
theorem Misfiled.receives (env : Env) (o : Oracle) (h : x.Misfiled w.rx d) (hok : w.rx.Ok)
    (hd : decodePdu raw = some (.data d)) :
    ∃ w', w.Receives env o raw w' ∧ ¬ x.FromSource w'.rx := by
  have ha := CfdpReceiver.acceptsData_iff.mp h.accepted
  have hc := (take_incomplete_iff hok ha h.slot h.crc).mpr h.another
  have htotal : wp (onPduReceived env o raw) (fun _ => True) (fun _ w' => w'.rx = w.rx.take d)
      (fun _ _ => False) w := by
    rw [onPduReceived, hd]
    refine wp_handleData (fun hn => ?_) (fun _ hdone => ?_) fun _ _ => ⟨fun _ _ => trivial, ?_⟩
    · rw [h.accepted] at hn; cases hn
    · rw [h.unfinished] at hdone; cases hdone
    · rintro w₁ rfl
      rw [World.setRx_rx, World.sendOption_rx]
      exact ⟨fun hcomp => (by rw [hc] at hcomp; cases hcomp), fun _ => rfl⟩
  obtain ⟨w', hw', hrx⟩ := receives_of_wp htotal
  refine ⟨w', hw', fun hs => h.wrong ?_⟩
  obtain ⟨hwf, htot⟩ := hok.listFor ha
  have hslot : d.packetIndex.toNat < (w.rx.listFor d).totalPackets.toNat := by
    rw [htot, ← ha.packets]; exact h.slot
  obtain ⟨old, hold, hidx, -⟩ := hwf.insert_index _ hslot d.data (Crc.crc8 d.data == d.crc8)
  obtain ⟨hlt, -⟩ := List.getElem?_eq_some_iff.mp hold
  have := hs d.packetIndex.toNat
  rw [hrx, CfdpReceiver.take_packetList, CfdpReceiver.take_currentChunkIndex, hidx,
    List.getElem?_set_self hlt] at this
  exact this _ rfl (by simp [PacketNode.ok, h.crc])

/-- Whatever a PDU contains, the slots stay those of the source file exactly if it is not
misfiled. -/
theorem receives_fromSource_iff (hok : w.rx.Ok) (h : x.FromSource w.rx) :
    (∀ w', w.Receives env o raw w' → x.FromSource w'.rx) ↔
      ¬ ∃ d, decodePdu raw = some (.data d) ∧ x.Misfiled w.rx d := by
  constructor
  · rintro hall ⟨d, hd, hm⟩
    obtain ⟨w', hw', hnot⟩ := hm.receives env o hok hd
    exact hnot (hall w' hw')
  · intro hno w' hw'
    rw [hw'.replied.1]
    exact h.reply hok fun d hd hm => hno ⟨d, hd, hm⟩

/-! ## One byte changed -/

theorem xor_ne_self {b v : UInt8} (hv : v ≠ 0) : b ^^^ v ≠ b := by
  intro h
  have h' := congrArg (b ^^^ ·) h
  simp only [← UInt8.xor_assoc, UInt8.xor_self, UInt8.zero_xor] at h'
  exact hv h'

/-- The bytes of a Data PDU that say which packet it is and how long: `chunk_index`,
`packet_index` and `data_len`. -/
def PlaceByte (i : Nat) : Prop := (5 ≤ i ∧ i ≤ 12) ∨ (17 ≤ i ∧ i ≤ 20)

/-- Reading a payload with byte `j` changed, outside chunk index, packet index and length. -/
theorem ofBytes_set (payload : Bytes) {j : Nat} (b : UInt8) (hj : ¬ PlaceByte (j + 1)) :
    (DataPdu.ofBytes (payload.set j b)).chunkIndex = (DataPdu.ofBytes payload).chunkIndex ∧
    (DataPdu.ofBytes (payload.set j b)).packetIndex = (DataPdu.ofBytes payload).packetIndex ∧
    (DataPdu.ofBytes (payload.set j b)).data =
      if j < 21 then (DataPdu.ofBytes payload).data else (DataPdu.ofBytes payload).data.set (j - 21) b := by
  unfold PlaceByte at hj
  have hlen : rd32 ((payload.set j b).drop 16) = rd32 (payload.drop 16) := rd32_drop_set (by omega)
  refine ⟨rd32_drop_set (by omega), rd32_drop_set (by omega), ?_⟩
  show ((payload.set j b).drop 21).take (rd32 ((payload.set j b).drop 16)).toNat = _
  rw [hlen, List.drop_set]
  split
  · rfl
  · rw [List.take_set]; rfl

theorem ofBytes_set_crc8 {payload : Bytes} {j : Nat} {b : UInt8} (hj : 20 ≤ j)
    (hlt : j < payload.length) :
    (DataPdu.ofBytes (payload.set j b)).crc8 =
      if j = 20 then b else (DataPdu.ofBytes payload).crc8 := by
  simp only [DataPdu.ofBytes, List.drop_set, if_neg (Nat.not_lt.mpr hj)]
  have hl : 0 < (payload.drop 20).length := by rw [List.length_drop]; omega
  obtain ⟨c, cs, hcs⟩ := List.exists_cons_of_length_pos hl
  rw [hcs]
  split
  · next h => subst h; rfl
  · next h =>
    rw [show j - 20 = (j - 21) + 1 by omega]
    rfl

/-- The CRC-8 and the data within the bytes of a Data PDU. -/
theorem toBytes_drop (d : DataPdu) (pad : Bytes) :
    (d.toBytes ++ pad).drop 20 = d.crc8 :: (d.data ++ pad) := by
  have h4 (x : UInt32) (s : Bytes) : (le32 x ++ s).drop 4 = s := List.drop_left' (length_le32 x)
  simp only [DataPdu.toBytes, List.append_assoc, List.cons_append,
    show (20 : Nat) = 4 + (4 + (4 + (4 + 4))) from rfl, ← List.drop_drop, h4]

/-- A packet with another byte changed fails its CRC-8, is no Data PDU, or still carries
the data it names. -/
theorem corrupt_data {ci pi i : Nat} {v : UInt8} (hraw : x.packet ci pi = some raw) (hv : v ≠ 0)
    (hlt : i < raw.length) (hi : ¬ PlaceByte i) (hd : decodePdu (corrupt raw i v) = some (.data d))
    (hcrc : Crc.crc8 d.data = d.crc8) :
    d.data = x.packetData d.chunkIndex.toNat d.packetIndex.toNat := by
  obtain ⟨hin, rfl⟩ := packet_eq hraw
  generalize FileBytes.zeros (x.packetSize - x.packetLen ci pi) = pad at hd hlt
  have hdata : (x.packetData ci pi).length = (x.dataPdu ci pi).dataLen.toNat := by
    rw [hin.toNat_packetLen]; exact hin.length_packetData
  have horig := (x.dataPdu ci pi).ofBytes_toBytes hdata pad
  cases i with
  | zero =>
    obtain ⟨ht, -⟩ := decodePdu_eq_data (t := PduType.data.code ^^^ v) hd
    exact absurd ht (xor_ne_self hv)
  | succ j =>
    have hcor : corrupt (PduType.data.code :: ((x.dataPdu ci pi).toBytes ++ pad)) (j + 1) v =
        PduType.data.code :: ((x.dataPdu ci pi).toBytes ++ pad).set j
          (((x.dataPdu ci pi).toBytes ++ pad).getD j 0 ^^^ v) := by
      simp [corrupt]
    rw [hcor] at hd
    have hjlt : j < ((x.dataPdu ci pi).toBytes ++ pad).length := by simpa using hlt
    have hget (m : Nat) (hm : m < (x.dataPdu ci pi).data.length) :
        ((x.dataPdu ci pi).toBytes ++ pad).getD (21 + m) 0 = (x.dataPdu ci pi).data[m] := by
      rw [List.getD_eq_getElem?_getD, show 21 + m = 20 + (m + 1) by omega, ← List.getElem?_drop,
        toBytes_drop, List.getElem?_cons_succ, List.getElem?_append_left hm,
        List.getElem?_eq_getElem hm]
      rfl
    have hcrcByte : ((x.dataPdu ci pi).toBytes ++ pad).getD 20 0 = Crc.crc8 (x.packetData ci pi) := by
      rw [List.getD_eq_getElem?_getD, show 20 = 20 + 0 from rfl, ← List.getElem?_drop, toBytes_drop]
      rfl
    generalize (x.dataPdu ci pi).toBytes ++ pad = payload at hd horig hjlt hget hcrcByte
    obtain ⟨-, rfl⟩ := decodePdu_eq_data hd
    obtain ⟨h1, h2, h3⟩ := ofBytes_set payload (payload.getD j 0 ^^^ v) hi
    rw [h1, h2, horig, hin.toNat_chunkIndex, hin.toNat_packetIndex]
    rw [horig] at h3
    have hne : payload.getD j 0 ^^^ v ≠ payload.getD j 0 := xor_ne_self hv
    rcases Nat.lt_trichotomy j 20 with hj | hj | hj
    · rw [h3, if_pos (by omega)]; rfl
    · -- the CRC-8 byte itself
      rw [ofBytes_set_crc8 (by omega) hjlt, if_pos hj, h3, if_pos (by omega), hj, hcrcByte] at hcrc
      rw [hj, hcrcByte] at hne
      exact absurd hcrc.symm hne
    · rw [ofBytes_set_crc8 (by omega) hjlt, if_neg (by omega), horig, h3, if_neg (by omega)] at hcrc
      rw [h3, if_neg (by omega)]
      by_cases hm : j - 21 < (x.dataPdu ci pi).data.length
      · -- a data byte
        refine absurd hcrc (Crc.crc8_set_ne hm ?_)
        rw [← hget _ hm, show 21 + (j - 21) = j by omega]
        exact hne
      · -- padding
        exact List.set_eq_of_length_le (Nat.le_of_not_lt hm)

/-- **A Data PDU with one byte changed** leaves in every valid slot what the source file has
there, unless it is misfiled; and only a changed place byte can misfile it. -/
theorem corrupt_fromSource_iff {ok : Node → Action → Prop} {n : Node} {hist : List Moment}
    {ci pi i : Nat}
    {v : UInt8} (hn : n.Fresh) (h : Node.Run env ok n hist (.up w)) (hs : x.FromSource w.rx)
    (hraw : x.packet ci pi = some raw) (hi : i < raw.length) (hv : v ≠ 0) (o : Oracle) :
    ((∀ w', w.Receives env o (corrupt raw i v) w' → x.FromSource w'.rx) ↔
        ¬ ∃ d, decodePdu (corrupt raw i v) = some (.data d) ∧ x.Misfiled w.rx d) ∧
      ((∃ d, decodePdu (corrupt raw i v) = some (.data d) ∧ x.Misfiled w.rx d) → PlaceByte i) := by
  refine ⟨receives_fromSource_iff (Node.Run.ok hn h).1 hs, ?_⟩
  rintro ⟨d, hd, hm⟩
  by_contra hnot
  exact hm.wrong (corrupt_data hraw hv hi hnot hd hm.crc)

/-- A file of two bytes in one chunk of two packets. -/
def onePair : Transfer := { small [0x61, 0x62] with chunkSize := 2 }

/-- The receiver waiting for its first packet. -/
theorem run_onePair :
    ∃ hist w, Node.Run sampleEnv (onePair.Surroundings sampleEnv) unusedNode hist (.up w) ∧
    w.rx.packetList.index = [] ∧
    ∃ ms w', Node.step sampleEnv (.up w) (deliver (corrupt (onePair.packetRaw 0 0) 9 1)) =
        some (ms, .up w') ∧
      w'.rx.currentChunkIndex = 0 ∧ w'.rx.packetList.index[1]? = some ⟨1, true, true, [0x61]⟩ := by
  have hrun : (sampleRun [powerOn, deliver (onePair.metadataRaw sampleEnv.crc32)]).any (fun r =>
      r.2.world?.any fun w => decide (w.rx.packetList.index = []) &&
        (r.2.next sampleEnv (deliver (corrupt (onePair.packetRaw 0 0) 9 1))).any fun w' =>
          w'.rx.currentChunkIndex == 0 &&
            decide (w'.rx.packetList.index[1]? = some ⟨1, true, true, [0x61]⟩)) = true := by
    decide +kernel
  simp only [Option.any_eq_true, Node.world?_eq_some, Node.next_eq_some, Bool.and_eq_true, beq_iff_eq,
    decide_eq_true_eq, Prod.exists] at hrun
  obtain ⟨hist, n, hr, w, rfl, hempty, w', ⟨ms, hw'⟩, hcur, hslot⟩ := hrun
  refine ⟨hist, w, Machine.exec_run hr fun a ha s _ _ => ?_, hempty, ms, w', hw', hcur, hslot⟩
  simp only [List.mem_cons, List.not_mem_nil, or_false] at ha
  rcases ha with rfl | rfl
  · exact smooth_noFaults
  · exact ⟨emits_metadataRaw (by decide +kernel), smooth_noFaults⟩

/-- A changed data byte does no harm. -/
theorem corrupt_fromSource_small : ∃ w, ∀ w',
    World.Receives sampleEnv noFaults w (corrupt (onePair.packetRaw 0 0) 22 1) w' →
      onePair.FromSource w'.rx := by
  obtain ⟨hist, w, hok, hempty, -⟩ := run_onePair
  obtain ⟨h1, h2⟩ := corrupt_fromSource_iff (i := 22) (v := 1) unusedNode_fresh hok
    (fromSource_of_empty hempty) (onePair.packetRaw_eq 0 0 (by decide +kernel))
    (by decide +kernel) (by decide) noFaults
  exact ⟨w, h1.mpr fun h => absurd (h2 h) (by unfold PlaceByte; decide)⟩

/-- A changed packet index files packet 0 as packet 1. -/
theorem not_corrupt_fromSource : ¬ ∀ (env : Env) (x : Transfer) (n : Node) (hist : List Moment)
    (w w' : World) (ci pi i : Nat) (v : UInt8) (raw : Bytes) (o : Oracle), n.Fresh →
    Node.Run env (x.Surroundings env) n hist (.up w) → x.FromSource w.rx → x.packet ci pi = some raw →
    i < raw.length → v ≠ 0 → o.Smooth → w.Receives env o (corrupt raw i v) w' →
      x.FromSource w'.rx := by
  intro h
  obtain ⟨hist, w, hok, hempty, ms, w', hw', hcur, hslot⟩ := run_onePair
  have hs := h sampleEnv onePair unusedNode hist w w' 0 0 9 1 (onePair.packetRaw 0 0) noFaults
    unusedNode_fresh hok (fromSource_of_empty hempty) (onePair.packetRaw_eq 0 0 (by decide +kernel))
    (by decide +kernel) (by decide) smooth_noFaults ⟨ms, hw'⟩
  have := hs 1 _ hslot rfl
  rw [hcur] at this
  revert this; decide +kernel

end Transfer

end Cfdp
